import Mathlib.Data.Fintype.Defs
import Mathlib.Tactic.MkIffOfInductiveProp
import RegexUnroll.Proofs.Joining

/-!
# Complete patterns

A pattern is `Complete` when nothing in it is cut off: it leaves no class open, does not end in an
unpaired backslash, and none of its openers lacks the delimiter that would close it. It is `Sealed`
when it leaves no class open and no opener lacks a `>`; it may still have openers of a directive
`(?R=` without a `)`, and end in a backslash. Both are said of the lexemes of the pattern. The
tokens of a complete pattern are settled (`Complete.settled`). Those of a sealed one become settled
when a `)` is put behind the pattern, which completes its first directive that lacks one
(`Sealed.exists_settled`).
-/

namespace RegexUnroll

/-- A pattern that leaves no class open and that has no opener of a named group or of a reference by
name without its `>`. -/
@[mk_iff] structure Sealed (p : Text) : Prop where
  /-- No class is open at the end. -/
  classDepth : classDepthAfter 0 (tokens p) = 0
  /-- Behind the opening `(?<` of a group, if it is not a lookbehind, a `>` follows. -/
  group : ∀ x ∈ topLevel p, x.token = .groupOpen →
    ['(', '?', '<'] <+: p.dropBytes x.span.start →
    ¬['(', '?', '<', '='] <+: p.dropBytes x.span.start →
    ¬['(', '?', '<', '!'] <+: p.dropBytes x.span.start → '>' ∈ p.dropBytes x.span.start
  /-- Behind an escaped `k` or `g` and a `<`, a `>` follows. -/
  reference : ∀ x ∈ topLevel p, ∀ c ∈ ['k', 'g'], x.token = .escaped c →
    ['\\', c, '<'] <+: p.dropBytes x.span.start → '>' ∈ p.dropBytes x.span.start

/-- A pattern in which nothing is cut off. -/
@[mk_iff] structure Complete (p : Text) : Prop extends Sealed p where
  /-- The pattern does not end in an unpaired backslash. -/
  backslash : (tokens p).getLast? ≠ some (.char '\\')
  /-- No group opening stands where the text reads as a directive without its `)`. -/
  directive : ∀ x ∈ topLevel p, x.token = .groupOpen →
    ¬['(', '?', 'R', '='] <+: p.dropBytes x.span.start

/-- Whether a pattern is sealed is decided on its lexemes. -/
instance (p : Text) : Decidable (Sealed p) :=
  -- The two letters are tried one by one, and not all characters.
  haveI (x : Lexeme) : Decidable (∀ c ∈ ['k', 'g'], x.token = .escaped c →
      ['\\', c, '<'] <+: p.dropBytes x.span.start → '>' ∈ p.dropBytes x.span.start) :=
    List.decidableBAll _ _
  decidable_of_iff' _ (sealed_iff p)

/-- Whether a pattern is complete is decided on its lexemes. -/
instance (p : Text) : Decidable (Complete p) := decidable_of_iff' _ (complete_iff p)

/-! ## Tokens and the lexemes they stand at -/

/-- Only no tokens spell the empty text. -/
theorem spell_eq_nil_iff {ts : List Token} : spell ts = [] ↔ ts = [] := by
  cases ts with
  | nil => simp
  | cons t ts => simp [t.spelling_ne_nil]

/-- A token outside classes that opens none is the token of a top-level lexeme, at which the text of
that token and the ones behind it begins. -/
theorem exists_mem_topLevel {p : Text} {ts us : List Token} {t : Token}
    (h : tokens p = ts ++ t :: us) (hdepth : classDepthAfter 0 ts = 0) (ht : t ≠ .classOpen) :
    ∃ x ∈ topLevel p, x.token = t ∧ x.span.start = Text.utf8Length (spell ts) ∧
      p.dropBytes x.span.start = spell (t :: us) := by
  obtain ⟨xs, zs, hxs, rfl, hzs⟩ := List.map_eq_append_iff.1 h
  obtain ⟨x, ys, rfl, rfl, rfl⟩ := List.map_eq_cons_iff.1 hzs
  have htop : x.isTopLevel := (isTopLevel_iff_of_lexemes_append hxs).2 ⟨hdepth, ht⟩
  have hmem : x ∈ topLevel p := by
    rw [topLevel, hxs]
    exact List.mem_filter.2 ⟨by simp, htop⟩
  have hspan := span_eq_of_lexemes_append hxs
  refine ⟨x, hmem, rfl, by rw [hspan], ?_⟩
  rw [hspan]
  exact dropBytes_eq_spell h

/-- A top-level lexeme splits the tokens of the pattern outside all classes. -/
theorem exists_tokens_eq_append {p : Text} {x : Lexeme} (hx : x ∈ topLevel p) :
    ∃ ts us, tokens p = ts ++ x.token :: us ∧ classDepthAfter 0 ts = 0 ∧
      x.span.start = Text.utf8Length (spell ts) ∧
      p.dropBytes x.span.start = spell (x.token :: us) := by
  obtain ⟨hmem, htop⟩ := List.mem_filter.1 hx
  obtain ⟨xs, ys, hsplit⟩ := List.append_of_mem hmem
  have htokens : tokens p = xs.map Lexeme.token ++ x.token :: ys.map Lexeme.token :=
    tokens_eq_append hsplit
  have hspan := span_eq_of_lexemes_append hsplit
  refine ⟨_, _, htokens, ((isTopLevel_iff_of_lexemes_append hsplit).1 htop).1, by rw [hspan], ?_⟩
  rw [hspan]
  exact dropBytes_eq_spell htokens

/-! ## Settled tokens -/

/-- Tokens are settled when each of them, where it stands, waits for nothing. -/
theorem settled_of_forall {depth : Nat} {ts : List Token}
    (h : ∀ us t vs, ts = us ++ t :: vs → t ≠ .char '\\' ∧
      (classDepthAfter depth us = 0 → ¬t.AwaitsAngle (spell vs) ∧ ¬t.AwaitsParen (spell vs))) :
    Settled depth ts := by
  induction ts generalizing depth with
  | nil => trivial
  | cons t ts ih =>
    refine ⟨h [] t ts rfl, ih fun us u vs hts => ?_⟩
    exact h (t :: us) u vs (by rw [hts, List.cons_append])

/-- In a sealed pattern no opener waits for a `>`. -/
theorem Sealed.not_awaitsAngle {p : Text} (h : Sealed p) {ts us : List Token} {t : Token}
    (hsplit : tokens p = ts ++ t :: us) (hdepth : classDepthAfter 0 ts = 0) :
    ¬t.AwaitsAngle (spell us) := by
  cases t with
  | groupOpen =>
    rintro ⟨body, hbody, hangle, heq, hbang⟩
    obtain ⟨x, hx, htoken, -, htext⟩ := exists_mem_topLevel hsplit hdepth (by simp)
    rw [spell_cons, hbody] at htext
    have hmem := h.group x hx htoken
    rw [htext] at hmem
    refine hangle ?_
    have hnot : ∀ c : Char, body.head? ≠ some c →
        ¬['(', '?', '<', c] <+: ['(', '?'] ++ '<' :: body := by
      rintro c hc ⟨r, hr⟩
      exact hc (by rw [show body = c :: r by simpa using hr.symm]; rfl)
    simpa [Token.spelling] using hmem ⟨body, rfl⟩ (hnot _ heq) (hnot _ hbang)
  | escaped c =>
    rintro ⟨body, hbody, hangle, hc⟩
    obtain ⟨x, hx, htoken, -, htext⟩ := exists_mem_topLevel hsplit hdepth (by simp)
    rw [spell_cons, hbody] at htext
    have hmem : c ∈ ['k', 'g'] := by
      rcases hc with rfl | ⟨rfl, -⟩ <;> simp
    have hangle' := h.reference x hx c hmem htoken
    rw [htext] at hangle'
    rcases hc with rfl | ⟨rfl, -⟩ <;>
      exact hangle (by simpa [Token.spelling] using hangle' ⟨body, rfl⟩)
  | _ => exact fun hawaits => hawaits

/-- In a complete pattern no opener waits for a `)`. -/
theorem Complete.not_awaitsParen {p : Text} (h : Complete p) {ts us : List Token} {t : Token}
    (hsplit : tokens p = ts ++ t :: us) (hdepth : classDepthAfter 0 ts = 0) :
    ¬t.AwaitsParen (spell us) := by
  cases t with
  | groupOpen =>
    rintro ⟨r, hr⟩
    obtain ⟨x, hx, htoken, -, htext⟩ := exists_mem_topLevel hsplit hdepth (by simp)
    refine h.directive x hx htoken ⟨r, ?_⟩
    rw [htext, spell_cons, ← hr]
    rfl
  | _ => exact fun hawaits => hawaits

/-- A lone backslash is the last of legible tokens. -/
theorem Legible.eq_nil_of_backslash {depth : Nat} {ts us : List Token}
    (h : Legible depth (ts ++ .char '\\' :: us)) : us = [] := by
  have hread := h.readsBefore
  rw [← spell_eq_nil_iff]
  by_cases hdepth : classDepthAfter depth ts = 0
  · rw [hdepth] at hread
    have hread : (Token.char '\\').ReadsTopLevel (spell us) := hread
    exact (hread.resolve_left fun hplain => hplain.1 rfl).2
  · rw [decide_eq_true (Nat.pos_of_ne_zero hdepth)] at hread
    have hread : (Token.char '\\').ReadsInClass (spell us) := hread
    exact (hread.resolve_left fun hplain => hplain.1 rfl).2

/-- The tokens of a complete pattern are settled. -/
theorem Complete.settled {p : Text} (h : Complete p) : Settled 0 (tokens p) := by
  refine settled_of_forall fun ts t us hsplit => ⟨?_, fun hdepth => ?_⟩
  · rintro rfl
    have hlegible := legible_tokensFrom 0 p
    rw [← tokens_eq_tokensFrom, hsplit] at hlegible
    have hnil := hlegible.eq_nil_of_backslash
    rw [hnil] at hsplit
    exact h.backslash (by rw [hsplit]; simp)
  · exact ⟨h.not_awaitsAngle hsplit hdepth, h.not_awaitsParen hsplit hdepth⟩

/-! ## A closing delimiter behind a pattern -/

/-- The front of a directive's depth does not end in a `)`. -/
theorem isPrefix_of_append_paren {b : Text} (h : ['R', '='] <+: b ++ [')']) : ['R', '='] <+: b := by
  rcases List.prefix_concat_iff.1 h with heq | hprefix
  · have hlast := congrArg List.getLast? heq
    rw [List.getLast?_concat] at hlast
    exact absurd hlast (by decide)
  · exact hprefix

/-- What waits for a `>` with a `)` behind it waits without it too. -/
theorem Token.AwaitsAngle.of_append_paren {t : Token} {rest : Text}
    (h : t.AwaitsAngle (rest ++ [')'])) : t.AwaitsAngle rest := by
  have hbody : ∀ body', rest ++ [')'] = '<' :: body' →
      ∃ body, rest = '<' :: body ∧ body' = body ++ [')'] := by
    intro body' hrest
    match rest with
    | [] => exact absurd (List.cons.inj hrest).1 (by decide)
    | c :: body =>
      have hcons := List.cons.inj hrest
      exact ⟨body, by rw [hcons.1], hcons.2.symm⟩
  cases t with
  | groupOpen =>
    obtain ⟨body', hrest, hangle, heq, hbang⟩ := h
    obtain ⟨body, rfl, rfl⟩ := hbody body' hrest
    refine ⟨body, rfl, fun hmem => hangle (List.mem_append_left _ hmem), ?_, ?_⟩
    · intro hhead
      exact heq (by rw [List.head?_append, hhead]; rfl)
    · intro hhead
      exact hbang (by rw [List.head?_append, hhead]; rfl)
  | escaped c =>
    obtain ⟨body', hrest, hangle, hc⟩ := h
    obtain ⟨body, rfl, rfl⟩ := hbody body' hrest
    refine ⟨body, rfl, fun hmem => hangle (List.mem_append_left _ hmem), hc.imp_right ?_⟩
    rintro ⟨rfl, hamp⟩
    refine ⟨rfl, fun a b hab ha => ?_⟩
    obtain ⟨hne, hdepth⟩ := hamp a (b ++ [')']) (by rw [hab]; simp) ha
    exact ⟨hne, isPrefix_of_append_paren hdepth⟩
  | _ => exact h

/-- What waits for a `)` before a text that ends in a `)` waits before the rest of the text too. -/
theorem Token.AwaitsParen.of_append_paren {t : Token} {rest : Text}
    (h : t.AwaitsParen (rest ++ [')'])) : t.AwaitsParen rest := by
  cases t with
  | groupOpen => exact isPrefix_of_append_paren h
  | _ => exact h

/-- Settled tokens stay settled with a `)` behind them. -/
theorem Settled.append_groupClose {depth : Nat} {ts : List Token} (h : Settled depth ts) :
    Settled depth (ts ++ [.groupClose]) := by
  induction ts generalizing depth with
  | nil => exact ⟨⟨by simp, fun _ => ⟨id, id⟩⟩, trivial⟩
  | cons t ts ih =>
    refine ⟨⟨h.1.1, fun hdepth => ?_⟩, ih h.2⟩
    have hspell : spell (ts ++ [.groupClose]) = spell ts ++ [')'] := by
      rw [spell_append]
      rfl
    show ¬t.AwaitsAngle (spell (ts ++ [.groupClose])) ∧ ¬t.AwaitsParen (spell (ts ++ [.groupClose]))
    rw [hspell]
    obtain ⟨hangle, hparen⟩ := h.1.2 hdepth
    exact ⟨fun hawaits => hangle hawaits.of_append_paren,
      fun hawaits => hparen hawaits.of_append_paren⟩

/-- Legible tokens that are settled stay legible with a `)` behind them. -/
theorem Legible.append_groupClose {depth : Nat} {ts : List Token} (h : Legible depth ts)
    (hsettled : Settled depth ts) (hdepth : classDepthAfter depth ts = 0) :
    Legible depth (ts ++ [.groupClose]) := by
  refine h.append hsettled (.inl ?_) ?_
  · intro c hc
    obtain rfl : ')' = c := by simpa [Token.spelling] using hc
    decide
  · rw [hdepth]
    exact ⟨trivial, trivial⟩

/-! ## Directives that a closing delimiter completes -/

/-- Whether an opener among tokens waits for the `)` that makes it a directive. -/
def CutOffDirective (depth : Nat) (ts : List Token) : Prop :=
  ∃ us vs, ts = us ++ .groupOpen :: vs ∧ classDepthAfter depth us = 0 ∧
    Token.groupOpen.AwaitsParen (spell vs)

/-- Among no tokens none waits. -/
theorem not_cutOffDirective_nil (depth : Nat) : ¬CutOffDirective depth [] := by
  rintro ⟨us, vs, h, -⟩
  simp at h

/-- The opener that waits is the first token or one of the others. -/
theorem cutOffDirective_cons {depth : Nat} {t : Token} {ts : List Token} :
    CutOffDirective depth (t :: ts) ↔
      depth = 0 ∧ t.AwaitsParen (spell ts) ∨ CutOffDirective (t.classDepthAfter depth) ts := by
  constructor
  · rintro ⟨us, vs, hts, hdepth, hawaits⟩
    match us with
    | [] =>
      obtain ⟨rfl, rfl⟩ := List.cons.inj hts
      exact .inl ⟨hdepth, hawaits⟩
    | u :: us =>
      obtain ⟨rfl, rfl⟩ := List.cons.inj hts
      exact .inr ⟨us, vs, rfl, hdepth, hawaits⟩
  · rintro (⟨rfl, hawaits⟩ | ⟨us, vs, rfl, hdepth, hawaits⟩)
    · cases t with
      | groupOpen => exact ⟨[], ts, rfl, rfl, hawaits⟩
      | _ => exact hawaits.elim
    · exact ⟨t :: us, vs, rfl, hdepth, hawaits⟩

/-- How tokens before which `depth` classes are open are read with a `)` behind their text. -/
inductive ReadsWithParen : Nat → List Token → List Token → Prop where
  /-- Behind everything else the `)` is a closing delimiter. -/
  | close : ReadsWithParen 0 [] [.groupClose]
  /-- A backslash at the end escapes it. -/
  | escape : ReadsWithParen 0 [.char '\\'] [.escaped ')']
  /-- An opener that waits for it becomes a directive, with all that follows as its depth. -/
  | directive {ts : List Token} {v : Text} (h : spell ts = 'R' :: '=' :: v) :
      ReadsWithParen 0 (.groupOpen :: ts) [.globalRecursion v]
  /-- Every other token is read as before. -/
  | cons {depth : Nat} {t : Token} {ts ts' : List Token}
      (hparen : depth = 0 → ¬t.AwaitsParen (spell ts))
      (h : ReadsWithParen (t.classDepthAfter depth) ts ts') :
      ReadsWithParen depth (t :: ts) (t :: ts')

namespace ReadsWithParen

variable {depth : Nat} {ts ts' : List Token}

/-- An opener waits for a `)` where its text goes on like a directive. -/
theorem awaitsParen_of_spell_eq {ts : List Token} {v : Text} (h : spell ts = 'R' :: '=' :: v) :
    Token.groupOpen.AwaitsParen (spell ts) :=
  ⟨v, h.symm⟩

/-- A directive is read where one is read without the `)`, or where one waits for it. -/
theorem exists_isRecursion_iff (h : ReadsWithParen depth ts ts') :
    (∃ t ∈ ts', t.isRecursion) ↔ (∃ t ∈ ts, t.isRecursion) ∨ CutOffDirective depth ts := by
  induction h with
  | close => simp [not_cutOffDirective_nil, Token.isRecursion]
  | escape =>
    simp [cutOffDirective_cons, not_cutOffDirective_nil, Token.isRecursion, Token.AwaitsParen]
  | directive h =>
    have hcut := cutOffDirective_cons.2 (.inl ⟨rfl, awaitsParen_of_spell_eq h⟩)
    exact ⟨fun _ => .inr hcut, fun _ => by simp [Token.isRecursion]⟩
  | cons hparen _ ih =>
    rw [List.exists_mem_cons_iff, List.exists_mem_cons_iff, ih, cutOffDirective_cons, or_assoc]
    exact or_congr_right (or_congr_right ⟨.inr, fun h => h.resolve_left fun hfirst =>
      hparen hfirst.1 hfirst.2⟩)

/-- No class is open behind the `)`. -/
theorem classDepthAfter_eq_zero (h : ReadsWithParen depth ts ts') :
    classDepthAfter depth ts' = 0 := by
  induction h with
  | close => rfl
  | escape => rfl
  | directive _ => rfl
  | cons _ _ ih => exact ih

end ReadsWithParen

/-- An opener that waits for a `)` takes all behind it as its depth once the `)` is there, since
there has been no other. -/
theorem exists_readsWithParen_of_awaitsParen {ts : List Token}
    (h : Legible 0 (.groupOpen :: ts)) (hawaits : Token.groupOpen.AwaitsParen (spell ts)) :
    ∃ ts', ReadsWithParen 0 (.groupOpen :: ts) ts' ∧ Legible 0 ts' ∧ Settled 0 ts' ∧
      spell ts' = spell (.groupOpen :: ts) ++ [')'] := by
  obtain ⟨v, hv⟩ := hawaits
  have hspell : spell ts = 'R' :: '=' :: v := hv.symm
  have hread : Token.groupOpen.ReadsTopLevel (spell ts) := h.1
  have hclose : ')' ∉ v := by
    intro hmem
    obtain ⟨a, b, rfl, ha⟩ := List.eq_append_cons_of_mem hmem
    have hsome : Token.globalRecursion? ('?' :: spell ts) = some (.globalRecursion a, b) :=
      Token.globalRecursion?_eq_some_iff.2 ⟨a, rfl, by rw [hspell]; simp, ha⟩
    exact absurd (hread.2.symm.trans hsome) (by simp)
  refine ⟨_, .directive hspell, ⟨hclose, trivial⟩, ⟨⟨by simp, fun _ => ⟨id, id⟩⟩, trivial⟩, ?_⟩
  rw [spell_cons, spell_cons, hspell]
  simp [Token.spelling]

/-- Legible tokens of which none waits for a `>` and that leave no class open are settled once a `)`
stands behind them. -/
theorem exists_readsWithParen {depth : Nat} {ts : List Token} (h : Legible depth ts)
    (hangle : ∀ us t vs, ts = us ++ t :: vs → classDepthAfter depth us = 0 →
      ¬t.AwaitsAngle (spell vs)) (hdepth : classDepthAfter depth ts = 0) :
    ∃ ts', ReadsWithParen depth ts ts' ∧ Legible depth ts' ∧ Settled depth ts' ∧
      spell ts' = spell ts ++ [')'] := by
  induction ts generalizing depth with
  | nil =>
    obtain rfl : depth = 0 := hdepth
    exact ⟨_, .close, ⟨trivial, trivial⟩, ⟨⟨by simp, fun _ => ⟨id, id⟩⟩, trivial⟩, rfl⟩
  | cons t ts ih =>
    by_cases hbackslash : t = .char '\\'
    · -- The backslash is the last token, and escapes the `)`.
      subst hbackslash
      have hlast : Legible depth ([] ++ .char '\\' :: ts) := h
      obtain rfl : ts = [] := hlast.eq_nil_of_backslash
      obtain rfl : depth = 0 := hdepth
      refine ⟨_, .escape, ⟨⟨rfl, rfl⟩, trivial⟩, ⟨⟨by simp, fun _ => ⟨?_, id⟩⟩, trivial⟩, rfl⟩
      rintro ⟨body, hbody, -⟩
      simp at hbody
    · by_cases hparen : depth = 0 ∧ t.AwaitsParen (spell ts)
      · obtain ⟨rfl, hawaits⟩ := hparen
        cases t with
        | groupOpen => exact exists_readsWithParen_of_awaitsParen h hawaits
        | _ => exact hawaits.elim
      · -- The token waits for nothing, and a `)` joins on.
        obtain ⟨ts', hreads, hlegible, hsettled, hspell⟩ := ih h.2
          (fun us u vs hts => hangle (t :: us) u vs (by rw [hts, List.cons_append])) hdepth
        have hawaits : depth = 0 → ¬t.AwaitsAngle (spell ts) ∧ ¬t.AwaitsParen (spell ts) :=
          fun hzero => ⟨hangle [] t ts rfl hzero, fun hawaits => hparen ⟨hzero, hawaits⟩⟩
        have hread := readsBefore_map_append Token.Tagged.same h hbackslash hawaits
          (u := [')']) (.inl (by simp [goesOn]))
        rw [List.map_id', ← hspell] at hread
        refine ⟨_, .cons (fun hzero => (hawaits hzero).2) hreads, ⟨hread, hlegible⟩,
          ⟨⟨hbackslash, fun hzero => ?_⟩, hsettled⟩, ?_⟩
        · rw [hspell]
          exact ⟨fun h => (hawaits hzero).1 h.of_append_paren,
            fun h => (hawaits hzero).2 h.of_append_paren⟩
        · rw [spell_cons, spell_cons, hspell, List.append_assoc]

/-- The tokens of a sealed text are settled once a `)` stands behind it. -/
theorem Sealed.exists_settled {s : Text} (h : Sealed s) :
    ReadsWithParen 0 (tokens s) (tokens (s ++ [')'])) ∧ Settled 0 (tokens (s ++ [')'])) := by
  obtain ⟨ts', hreads, hlegible, hsettled, hspell⟩ := exists_readsWithParen
    (legible_tokensFrom 0 s) (fun us t vs => h.not_awaitsAngle) h.classDepth
  have htokens : tokens (s ++ [')']) = ts' := by
    refine tokensFrom_eq_iff.2 ⟨?_, hlegible⟩
    rw [hspell, spell_tokensFrom]
  rw [htokens]
  exact ⟨hreads, hsettled⟩

end RegexUnroll
