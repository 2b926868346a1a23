import Mathlib.Data.List.Forall2
import RegexUnroll.Proofs.Matching
import RegexUnroll.Proofs.Provenance

/-!
# What a directive refers to

A directive for a group refers to the innermost group that is open around it and has its target as
name or number (`Innermost`). `Resolves` says that of a directive in terms of the lexeme that it is
and of matching delimiters, and `resolves_directives` says it of all directives of a pattern. The
directives themselves are found in one pass that keeps the open groups on a stack; of these the
lookup by target finds the one that is meant (`find?_eq_some_iff`).
-/

namespace RegexUnroll

/-! ## Names and numbers of groups -/

/-- Whether a target refers to the capturing group that a lexeme opens: it is the name of the group,
or the numeral of its number. -/
def RefersTo (p : Text) (target : Text) (o : Lexeme) : Prop :=
  o.token.openedName? = some target ∨
    o.token.isCaptureOpen ∧ Numeral.render (captureNumber p o) = target

/-- Whether `o` opens the innermost group around `x` that a target refers to. -/
structure Innermost (p : Text) (target : Text) (x o : Lexeme) : Prop where
  /-- The group is open at `x`. -/
  openAt : OpenAt p o x
  /-- The target refers to the group. -/
  refersTo : RefersTo p target o
  /-- Every other such group has been opened before. -/
  stop_le : ∀ o', OpenAt p o' x → RefersTo p target o' → o'.span.stop ≤ o.span.stop

/-- A top-level lexeme cuts all lexemes of a pattern, and the captures opened before it are opened
by top-level lexemes. -/
theorem exists_lexemes_eq_append {p : Text} {as bs : List Lexeme} {x : Lexeme}
    (h : topLevel p = as ++ x :: bs) :
    ∃ front back, lexemes p = front ++ x :: back ∧
      opened front = as.countP fun x => x.token.isCaptureOpen := by
  obtain ⟨front, back, hsplit, -, rfl, -⟩ := exists_append_of_filter_eq h
  refine ⟨front, back, hsplit, ?_⟩
  rw [countP_filter_isTopLevel Token.isCaptureOpen_of_readsInClass, opened]
  intro y hy
  rw [hsplit]
  exact List.mem_append_left _ hy

/-- A lexeme opens the capture with the number after those opened before it. -/
theorem captureNumber_of_topLevel_eq {p : Text} {as bs : List Lexeme} {o : Lexeme}
    (h : topLevel p = as ++ o :: bs) (ho : o.token.isCaptureOpen) :
    captureNumber p o = (as.countP fun x => x.token.isCaptureOpen) + 1 := by
  obtain ⟨front, back, hsplit, hopened⟩ := exists_lexemes_eq_append h
  rw [captureNumber_eq hsplit, if_pos ho, hopened]

/-- The label of a group matches the targets that refer to the group. -/
theorem matches_opened_iff {p : Text} {as bs : List Lexeme} {o : Lexeme}
    (h : topLevel p = as ++ o :: bs) (target : Text) :
    (OpenGroup.opened as o).matches target ↔ RefersTo p target o := by
  by_cases ho : o.token.isCaptureOpen
  · rw [RefersTo, captureNumber_of_topLevel_eq h ho, OpenGroup.opened, if_pos ho]
    simp only [OpenGroup.matches, Option.any_some, CaptureLabel.matches, Bool.or_eq_true,
      decide_eq_true_eq, Numeral.value?_eq_some_iff, ho, true_and, Nat.succ_pos]
    exact or_congr_right eq_comm
  · -- Only capturing groups have a name.
    have hname : o.token.openedName? = none := by
      cases hx : o.token <;> simp_all [Token.openedName?, Token.isCaptureOpen]
    simp [RefersTo, OpenGroup.opened, OpenGroup.matches, ho, hname]

/-! ## The lookup on the stack -/

/-- The lookup by target finds something where a group is open that the target refers to. -/
theorem isSome_find?_iff {p : Text} {ys zs : List Lexeme} {x : Lexeme}
    (h : topLevel p = ys ++ x :: zs) (target : Text) :
    ((ys.foldl OpenGroups.after .empty).find? target).isSome ↔
      ∃ o, OpenAt p o x ∧ RefersTo p target o := by
  rw [OpenGroups.find?, List.find?_isSome]
  constructor
  · rintro ⟨g, hg, hmatch⟩
    obtain ⟨as, o, bs, hcut, hopen, rfl⟩ := (mem_stackAfter_iff h).1 hg
    exact ⟨o, hopen, (matches_opened_iff hcut target).1 hmatch⟩
  · rintro ⟨o, hopen, hrefers⟩
    obtain ⟨as, bs, hcut⟩ := List.append_of_mem hopen.mem_topLevel
    exact ⟨_, (mem_stackAfter_iff h).2 ⟨as, o, bs, hcut, hopen, rfl⟩,
      (matches_opened_iff hcut target).2 hrefers⟩

/-- The lookup by target finds the innermost group that the target refers to. -/
theorem find?_eq_some_iff {p : Text} {ys zs : List Lexeme} {x : Lexeme}
    (h : topLevel p = ys ++ x :: zs) {target : Text} {g : OpenGroup} :
    (ys.foldl OpenGroups.after .empty).find? target = some g ↔
      ∃ as o bs, topLevel p = as ++ o :: bs ∧ Innermost p target x o ∧
        g = OpenGroup.opened as o := by
  have horder : (stackAfter ys).Pairwise fun a b => b.contentStart < a.contentStart := by
    have hascending := ascending_topLevel p
    rw [h] at hascending
    exact pairwise_stack (List.pairwise_append.1 hascending).1
  rw [OpenGroups.find?, List.find?_eq_some_iff_append]
  constructor
  · rintro ⟨hmatch, above, below, hstack, habove⟩
    have hmem : g ∈ stackAfter ys := by rw [stackAfter, hstack]; simp
    obtain ⟨as, o, bs, hcut, hopen, rfl⟩ := (mem_stackAfter_iff h).1 hmem
    refine ⟨as, o, bs, hcut, ⟨hopen, (matches_opened_iff hcut target).1 hmatch,
      fun o' hopen' hrefers => ?_⟩, rfl⟩
    -- Another group that is meant would have been found, if it were nearer to the top.
    obtain ⟨as', bs', hcut'⟩ := List.append_of_mem hopen'.mem_topLevel
    have hmem' := (mem_stackAfter_iff h).2 ⟨as', o', bs', hcut', hopen', rfl⟩
    rw [stackAfter, hstack] at horder hmem'
    rcases List.mem_append.1 hmem' with hin | hin
    · have hnot := habove _ hin
      rw [(matches_opened_iff hcut' target).2 hrefers] at hnot
      exact absurd hnot (by simp)
    · rcases List.mem_cons.1 hin with heq | hin
      · exact Nat.le_of_eq (congrArg OpenGroup.contentStart heq)
      · have hcons := (List.pairwise_append.1 horder).2.1
        exact Nat.le_of_lt ((List.pairwise_cons.1 hcons).1 _ hin)
  · rintro ⟨as, o, bs, hcut, hinnermost, rfl⟩
    have hmem := (mem_stackAfter_iff h).2 ⟨as, o, bs, hcut, hinnermost.openAt, rfl⟩
    obtain ⟨above, below, hstack⟩ := List.append_of_mem hmem
    refine ⟨(matches_opened_iff hcut target).2 hinnermost.refersTo, above, below, hstack,
      fun a ha => ?_⟩
    -- A group above that is meant too would have been opened later.
    rw [Bool.not_eq_true', Bool.eq_false_iff]
    intro hmatch
    have hmem' : a ∈ stackAfter ys := by rw [hstack]; exact List.mem_append_left _ ha
    obtain ⟨as', o', bs', hcut', hopen', rfl⟩ := (mem_stackAfter_iff h).1 hmem'
    have hle := hinnermost.stop_le o' hopen' ((matches_opened_iff hcut' target).1 hmatch)
    rw [hstack] at horder
    have hlt := (List.pairwise_append.1 horder).2.2 _ ha _ List.mem_cons_self
    exact absurd hlt (Nat.not_lt_of_le hle)

/-! ## The directives of a pattern -/

/-- The recursion lexemes of a pattern, in order. -/
def recursions (p : Text) : List Lexeme := (topLevel p).filter fun x => x.token.isRecursion

/-- The token by which a target is recursed into, with the literal of the depth. -/
def RecursionTarget.token (depth : Text) : RecursionTarget → Token
  | wholePattern => .globalRecursion depth
  | group reference => .subpatternRecursion reference depth

/-- The lexeme that a directive is. -/
def Directive.lexeme (d : Directive) : Lexeme := ⟨d.target.token d.depth, d.span, false⟩

/-- A directive found at a top-level lexeme is that lexeme. -/
theorem Directive.lexeme_eq {p : Text} {groups : OpenGroups} {x : Lexeme} {d : Directive}
    (h : ofLexeme? p groups x = some d) (htop : x.isTopLevel) : d.lexeme = x := by
  obtain ⟨token, span, inClass⟩ := x
  obtain rfl : inClass = false := by
    rw [Lexeme.isTopLevel, Bool.and_eq_true, Bool.not_eq_true'] at htop
    exact htop.1
  unfold ofLexeme? at h
  split at h
  · obtain rfl := Option.some.inj h
    simp_all [lexeme, RecursionTarget.token]
  · obtain rfl := Option.some.inj h
    simp_all [lexeme, RecursionTarget.token]
  · simp at h

/-- The directives among top-level lexemes are the recursion lexemes among them. -/
theorem map_lexeme_directivesFrom {p : Text} {xs : List Lexeme} (h : ∀ x ∈ xs, x.isTopLevel)
    (groups : OpenGroups) :
    (directivesFrom p groups xs).map Directive.lexeme =
      xs.filter fun x => x.token.isRecursion := by
  induction xs generalizing groups with
  | nil => rfl
  | cons x xs ih =>
    obtain ⟨htop, hxs⟩ := List.forall_mem_cons.1 h
    have hsome := Directive.isSome_ofLexeme? p groups x
    rw [directivesFrom, List.map_append, ih hxs, List.filter_cons]
    cases hd : Directive.ofLexeme? p groups x with
    | none =>
      rw [hd, Option.isSome_none] at hsome
      rw [← hsome]
      rfl
    | some d =>
      rw [hd, Option.isSome_some] at hsome
      rw [if_pos hsome.symm, ← Directive.lexeme_eq hd htop]
      rfl

/-- The directives of a pattern are its recursion lexemes, in their order. -/
theorem map_lexeme_directives (p : Text) :
    (directives p).map Directive.lexeme = recursions p :=
  map_lexeme_directivesFrom (fun _ hx => (List.mem_filter.1 hx).2) _

/-- A directive of a pattern is found at its lexeme, with the groups on the stack there. -/
theorem exists_append_of_mem_directives {p : Text} {d : Directive} (h : d ∈ directives p) :
    ∃ ys zs, topLevel p = ys ++ d.lexeme :: zs ∧
      Directive.ofLexeme? p (ys.foldl OpenGroups.after .empty) d.lexeme = some d := by
  obtain ⟨ys, x, zs, hsplit, hx⟩ := exists_append_of_mem_directivesFrom h
  have htop : x ∈ topLevel p := by rw [hsplit]; simp
  obtain rfl := Directive.lexeme_eq hx (List.mem_filter.1 htop).2
  exact ⟨ys, zs, hsplit, hx⟩

/-- The captures of the text before a cut are those opened before it. -/
theorem countCaptures_takeBytes_cut {p : Text} {xs ys : List Lexeme} (h : lexemes p = xs ++ ys) :
    countCaptures (p.takeBytes (Text.utf8Length (spell (xs.map Lexeme.token)))) = opened xs := by
  have htokens := tokens_eq_append h
  rw [takeBytes_eq_spell htokens, countCaptures_eq, tokens_spell_left htokens, countP_map_token]

/-- The captures of the text before a lexeme are those opened before it. -/
theorem countCaptures_takeBytes {p : Text} {ys zs : List Lexeme} {x : Lexeme}
    (h : topLevel p = ys ++ x :: zs) :
    countCaptures (p.takeBytes x.span.start) = ys.countP fun x => x.token.isCaptureOpen := by
  obtain ⟨front, back, hsplit, hopened⟩ := exists_lexemes_eq_append h
  rw [span_eq_of_lexemes_append hsplit, countCaptures_takeBytes_cut hsplit, hopened]

/-- Whether a directive says of a pattern what holds of the lexeme `x` that it is. -/
structure Resolves (p : Text) (x : Lexeme) (d : Directive) : Prop where
  /-- The directive stands at the lexeme. -/
  span_eq : d.span = x.span
  /-- The lexeme asks for the target and the depth of the directive. -/
  token_eq : x.token = d.target.token d.depth
  /-- The directive counts the captures in the text before it. -/
  capturesBefore_eq : d.capturesBefore = countCaptures (p.takeBytes d.span.start)
  /-- A directive for the whole pattern recurses into all of it. -/
  recursed_eq : d.target = .wholePattern → d.recursed = some ⟨0, p.utf8Length⟩
  /-- A directive for a group recurses into something exactly when a group is open that its target
  refers to. -/
  isSome_iff : ∀ target, d.target = .group target →
    (d.recursed.isSome ↔ ∃ o, OpenAt p o x ∧ RefersTo p target o)
  /-- It recurses into the innermost such group from behind its opening on. -/
  start_eq : ∀ target span, d.target = .group target → d.recursed = some span →
    ∃ o, Innermost p target x o ∧ span.start = o.span.stop

/-- A directive of a pattern says what holds of its lexeme. -/
theorem resolves_lexeme {p : Text} {d : Directive} (h : d ∈ directives p) :
    Resolves p d.lexeme d := by
  obtain ⟨ys, zs, hsplit, hd⟩ := exists_append_of_mem_directives h
  obtain ⟨-, -, hcaptures, htarget⟩ := Directive.of_ofLexeme? hd
  rw [OpenGroups.captures_foldl_after, OpenGroups.empty, Nat.zero_add,
    ← countCaptures_takeBytes hsplit] at hcaptures
  rcases htarget with ⟨hwhole, hrecursed⟩ | ⟨reference, depth, -, hgroup, hrecursed⟩
  · have hno : ∀ target, d.target ≠ .group target := by simp [hwhole]
    exact ⟨rfl, rfl, hcaptures, fun _ => hrecursed, fun target h => absurd h (hno target),
      fun target span h => absurd h (hno target)⟩
  · have hreference : ∀ target, d.target = .group target → reference = target := by
      simp [hgroup]
    refine ⟨rfl, rfl, hcaptures, fun h => absurd (hgroup.symm.trans h) (by simp), ?_, ?_⟩
    · intro target h
      obtain rfl := hreference target h
      rw [hrecursed, Option.isSome_map]
      exact isSome_find?_iff hsplit _
    · intro target span h hspan
      obtain rfl := hreference target h
      obtain ⟨g, hg, rfl⟩ := Option.map_eq_some_iff.1 (hrecursed.symm.trans hspan)
      obtain ⟨as, o, bs, -, hinnermost, rfl⟩ := (find?_eq_some_iff hsplit).1 hg
      exact ⟨o, hinnermost, rfl⟩

/-- A pattern has one directive for each of its recursion lexemes, in their order, and each of them
counts the captures before it and recurses into the innermost group around it that it refers to. -/
theorem resolves_directives (p : Text) :
    List.Forall₂ (Resolves p) (recursions p) (directives p) := by
  rw [← map_lexeme_directives, List.forall₂_map_left_iff, List.forall₂_same]
  exact fun _ hd => resolves_lexeme hd

end RegexUnroll
