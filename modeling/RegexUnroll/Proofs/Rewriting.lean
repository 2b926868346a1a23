import RegexUnroll.Proofs.Completeness

/-!
# Replacing with a state

A replacement may keep a state from one token to the next. `Rewrites` says lexeme by lexeme what
comes of it: a lexeme in a character class, or that delimits one, is copied; any other lexeme is asked
about once, in the state that the call before it has left, and its text is the answer, or is copied
if there is none. The walk that copies in one piece what stands between two replaced lexemes does
just that (`substituteM_rewrites`). `recording` puts the calls on record, so that they are part of
what the walk leaves behind.
-/

namespace RegexUnroll

/-- A call of a replacement. -/
structure Call where
  /-- The token that is asked about. -/
  token : Token
  /-- The text that is to stand for it, if any. -/
  answer : Option Text
  deriving DecidableEq, Repr

/-- The replacement that puts each call on record, behind those before it. -/
def recording {σ : Type} (replace : Token → StateM σ (Option Text)) (t : Token) :
    StateM (σ × List Call) (Option Text) := do
  let (s, calls) ← get
  let (answer, s') := Id.run ((replace t).run s)
  set (s', calls ++ [⟨t, answer⟩])
  pure answer

/-- How lexemes of the pattern `p` are written one by one with a replacement, from one state to
another: the calls in their order, and the text. -/
inductive Rewrites {σ : Type} (replace : Token → StateM σ (Option Text)) (p : Text) :
    σ → List Lexeme → List Call → Text → σ → Prop where
  /-- Nothing is written. -/
  | done (s : σ) : Rewrites replace p s [] [] [] s
  /-- A lexeme in a class, or that delimits one, is copied. -/
  | copy {s s' : σ} {x : Lexeme} {xs : List Lexeme} {calls : List Call} {text : Text}
      (hx : ¬x.isTopLevel) (hxs : Rewrites replace p s xs calls text s') :
      Rewrites replace p s (x :: xs) calls (p.slice x.span ++ text) s'
  /-- Any other lexeme is asked about, and copied if there is no answer. -/
  | ask {s s₁ s' : σ} {x : Lexeme} {xs : List Lexeme} {calls : List Call} {text : Text}
      {answer : Option Text} (hx : x.isTopLevel) (hcall : (replace x.token).run s = (answer, s₁))
      (hxs : Rewrites replace p s₁ xs calls text s') :
      Rewrites replace p s (x :: xs) (⟨x.token, answer⟩ :: calls)
        (answer.getD (p.slice x.span) ++ text) s'

/-- All lexemes can be written, whatever is answered. -/
theorem exists_rewrites {σ : Type} (replace : Token → StateM σ (Option Text)) (p : Text)
    (xs : List Lexeme) (s : σ) : ∃ calls text s', Rewrites replace p s xs calls text s' := by
  induction xs generalizing s with
  | nil => exact ⟨[], [], s, .done s⟩
  | cons x xs ih =>
    by_cases hx : x.isTopLevel
    · obtain ⟨calls, text, s', hxs⟩ := ih (Id.run ((replace x.token).run s)).2
      exact ⟨_, _, s', .ask hx rfl hxs⟩
    · obtain ⟨calls, text, s', hxs⟩ := ih s
      exact ⟨_, _, s', .copy hx hxs⟩

/-- A list is gone through from its first element on, with the state that the first leaves. -/
theorem run_mapM_cons {σ α β : Type} {f : α → StateM σ β} {x : α} {xs : List α} {b : β}
    {bs : List β} {s s₁ s' : σ} (hx : (f x).run s = (b, s₁))
    (hxs : (xs.mapM f).run s₁ = (bs, s')) : ((x :: xs).mapM f).run s = (b :: bs, s') := by
  rw [List.mapM_cons, StateT.run_bind, hx]
  show (xs.mapM f >>= fun bs => pure (b :: bs)).run s₁ = _
  rw [StateT.run_bind, hxs]
  rfl

namespace Rewrites

variable {σ : Type} {replace : Token → StateM σ (Option Text)} {p text : Text} {s s' : σ}
  {xs : List Lexeme} {calls : List Call}

/-- The top-level lexemes are asked about, in order, and nothing else is. -/
theorem map_token_calls (h : Rewrites replace p s xs calls text s') :
    calls.map Call.token = (xs.filter Lexeme.isTopLevel).map Lexeme.token := by
  induction h with
  | done => rfl
  | copy hx _ ih => rw [List.filter_cons_of_neg hx, ih]
  | ask hx _ _ ih => rw [List.filter_cons_of_pos hx, List.map_cons, List.map_cons, ih]

/-- Putting the calls on record changes nothing else. -/
theorem recording (h : Rewrites replace p s xs calls text s') (before : List Call) :
    Rewrites (recording replace) p (s, before) xs calls text (s', before ++ calls) := by
  induction h generalizing before with
  | done s =>
    rw [List.append_nil]
    exact .done _
  | copy hx _ ih => exact .copy hx (ih before)
  | @ask s s₁ s' x xs calls text answer hx hcall _ ih =>
    have hrecord : (RegexUnroll.recording replace x.token).run (s, before) =
        (answer, s₁, before ++ [⟨x.token, answer⟩]) := by
      show (fun r : Option Text × σ => (r.1, r.2, before ++ [⟨x.token, r.1⟩]))
        ((replace x.token).run s) = _
      rw [hcall]
    have hrest := ih (before ++ [⟨x.token, answer⟩])
    rw [List.append_assoc, List.singleton_append] at hrest
    exact .ask hx hrecord hrest

/-- What is written is what comes of replacing each lexeme. -/
theorem exists_run_mapM (h : Rewrites replace p s xs calls text s')
    (hslice : ∀ x ∈ xs, p.slice x.span = x.token.spelling) :
    ∃ parts, (xs.mapM (Lexeme.replaceM replace)).run s = (parts, s') ∧ parts.flatten = text := by
  induction h with
  | done s => exact ⟨[], rfl, rfl⟩
  | @copy s s' x xs calls text hx _ ih =>
    obtain ⟨hspelling, hxs⟩ := List.forall_mem_cons.1 hslice
    obtain ⟨parts, hrun, rfl⟩ := ih hxs
    refine ⟨x.token.spelling :: parts, run_mapM_cons ?_ hrun, by
      rw [List.flatten_cons, hspelling]⟩
    rw [Lexeme.replaceM, if_neg hx, StateT.run_pure]
    rfl
  | @ask s s₁ s' x xs calls text answer hx hcall _ ih =>
    obtain ⟨hspelling, hxs⟩ := List.forall_mem_cons.1 hslice
    obtain ⟨parts, hrun, rfl⟩ := ih hxs
    refine ⟨answer.getD x.token.spelling :: parts, run_mapM_cons ?_ hrun, by
      rw [List.flatten_cons, hspelling]⟩
    rw [Lexeme.replaceM, if_pos hx, StateT.run_map, hcall]
    rfl

/-- Where each call is answered by the text of its token, or by none, nothing changes. -/
theorem text_eq (h : Rewrites replace p s xs calls text s')
    (hslice : ∀ x ∈ xs, p.slice x.span = x.token.spelling)
    (hkept : ∀ call ∈ calls, call.answer = none ∨ call.answer = some call.token.spelling) :
    text = xs.flatMap fun x => x.token.spelling := by
  induction h with
  | done => rfl
  | copy _ _ ih =>
    obtain ⟨hx, hxs⟩ := List.forall_mem_cons.1 hslice
    rw [List.flatMap_cons, ← ih hxs hkept, hx]
  | ask _ _ _ ih =>
    obtain ⟨hx, hxs⟩ := List.forall_mem_cons.1 hslice
    obtain ⟨hcall, hcalls⟩ := List.forall_mem_cons.1 hkept
    rw [List.flatMap_cons, ← ih hxs hcalls, hx]
    dsimp only at hcall
    rcases hcall with rfl | rfl <;> rfl

end Rewrites

/-- A top-level lexeme does not delimit a class. -/
theorem ne_classClose_of_mem_topLevel {p : Text} {x : Lexeme} (h : x ∈ topLevel p) :
    x.token ≠ .classClose := by
  intro hclose
  obtain ⟨ts, us, htokens, hdepth, -⟩ := exists_tokens_eq_append h
  have hlegible := legible_tokensFrom 0 p
  rw [← tokens_eq_tokensFrom, htokens, hclose] at hlegible
  have hread := hlegible.readsBefore
  rw [hdepth] at hread
  exact hread

/-- The walk over a pattern writes its lexemes one by one, asks about the top-level ones, once each
and in their order, and about nothing else. Where each answer is the text of the token, or none, the
pattern stays as it is. -/
theorem substituteM_rewrites {σ : Type} (replace : Token → StateM σ (Option Text)) (p : Text)
    (s : σ) :
    ∃ calls text s', Rewrites replace p s (lexemes p) calls text s' ∧
      (substituteM replace p).run s = (text, s') ∧
      (substituteM (recording replace) p).run (s, []) = (text, s', calls) ∧
      calls.map Call.token = (topLevel p).map Lexeme.token ∧
      (∀ x ∈ topLevel p, ¬x.inClass ∧ x.token ≠ .classOpen ∧ x.token ≠ .classClose) ∧
      ((∀ call ∈ calls, call.answer = none ∨ call.answer = some call.token.spelling) →
        text = p) := by
  obtain ⟨calls, text, s', h⟩ := exists_rewrites replace p (lexemes p) s
  have hslice : ∀ x ∈ lexemes p, p.slice x.span = x.token.spelling := fun _ => slice_span
  have hrun : ∀ {τ : Type} {replace : Token → StateM τ (Option Text)} {s s' : τ},
      Rewrites replace p s (lexemes p) calls text s' →
        (substituteM replace p).run s = (text, s') := by
    intro τ replace s s' h
    obtain ⟨parts, hparts, rfl⟩ := h.exists_run_mapM hslice
    rw [substituteM_eq, StateT.run_map, hparts]
    rfl
  refine ⟨calls, text, s', h, hrun h, hrun (h.recording []), h.map_token_calls, fun x hx => ?_,
    fun hkept => ?_⟩
  · obtain ⟨-, htop⟩ := List.mem_filter.1 hx
    simp only [Lexeme.isTopLevel, Bool.and_eq_true, Bool.not_eq_true', bne_iff_ne] at htop
    exact ⟨by simp [htop.1], htop.2, ne_classClose_of_mem_topLevel hx⟩
  · rw [h.text_eq hslice hkept]
    exact flatMap_spelling_lexemes p

/-- Answers with the number of the call where a capture is opened. -/
def numbering (t : Token) : StateM Nat (Option Text) := do
  let n ← get
  set (n + 1)
  pure (if t.isCaptureOpen then some (Numeral.render n) else none)

/-- Answers every second call, with the text of the token. -/
def repeating (t : Token) : StateM Nat (Option Text) := do
  let n ← get
  set (n + 1)
  pure (if n % 2 = 0 then some t.spelling else none)

/-- Numbers stand for the two openers of a capture, and the class, with the parenthesis in it, is
copied without a call. Where the answers repeat the text, it stays. -/
theorem substituteM_rewrites_around_a_class :
    let p := "(é[(\\]](?<n>x)\\".toList
    let numbered := "1é[(\\]]3x)\\".toList
    let calls : List Call := [⟨.captureOpen, some ['1']⟩, ⟨.char 'é', none⟩,
      ⟨.namedCaptureOpen ['n'], some ['3']⟩, ⟨.char 'x', none⟩, ⟨.groupClose, none⟩,
      ⟨.char '\\', none⟩]
    let kept : List Call := [⟨.captureOpen, none⟩, ⟨.char 'é', some ['é']⟩,
      ⟨.namedCaptureOpen ['n'], none⟩, ⟨.char 'x', some ['x']⟩, ⟨.groupClose, none⟩,
      ⟨.char '\\', some ['\\']⟩]
    Rewrites numbering p 1 (lexemes p) calls numbered 7 ∧
      (substituteM numbering p).run 1 = (numbered, 7) ∧
      (∀ call ∈ kept, call.answer = none ∨ call.answer = some call.token.spelling) ∧
      (substituteM repeating p).run 1 = (p, 7) := by
  intro p numbered calls kept
  have hnumbering : Id.run ((substituteM (recording numbering) p).run (1, [])) =
      (numbered, 7, calls) := by decide +kernel
  have hrepeating : Id.run ((substituteM (recording repeating) p).run (1, [])) =
      (p, 7, kept) := by decide +kernel
  have hanswers : ∀ call ∈ kept, call.answer = none ∨ call.answer = some call.token.spelling := by
    decide
  obtain ⟨calls', text, s', hrewrites, hrun, hrecord, -⟩ := substituteM_rewrites numbering p 1
  obtain ⟨rfl, hleft⟩ := Prod.mk.inj (hrecord.symm.trans hnumbering)
  obtain ⟨rfl, rfl⟩ := Prod.mk.inj hleft
  refine ⟨hrewrites, hrun, hanswers, ?_⟩
  obtain ⟨kept', text, s', -, hrun, hrecord, -, -, hsame⟩ := substituteM_rewrites repeating p 1
  obtain ⟨-, hleft⟩ := Prod.mk.inj (hrecord.symm.trans hrepeating)
  obtain ⟨rfl, rfl⟩ := Prod.mk.inj hleft
  rw [hrun, hsame hanswers]

end RegexUnroll
