import RegexUnroll.Proofs.Resolution
import RegexUnroll.Proofs.Tracking

/-!
# What becomes of a pattern

`Outcome` says what becomes of a pattern in terms of its lexemes and of the matching of its
delimiters alone: it stays as it is without a recursion lexeme, it is rejected for the first reason
that applies, and otherwise its only directive is unrolled. Each rule is followed
(`Outcome.expand_eq`) and one of the rules always applies (`exists_outcome`), so a pattern is
expanded exactly as the rules say (`expand_eq_iff_outcome`).

The rules speak of the span that a directive recurses into by `Recurses`, and of the reasons by
`DenotesDepth`, `Conflicts` and `HasDefine`. The checks of a pattern find each of these
(`recursed_eq_some_iff`, `denotesDepth_lexeme_iff`, `conflicts_iff`, `occursIn_defineGroup_iff`),
and they come in the order of the rules (`Requests.exists_expand_eq`).
-/

namespace RegexUnroll

/-! ## What the rules speak of -/

/-- Whether a literal is the numeral of a number from 2 to 100. -/
def IsDepth (literal : Text) : Prop := ∃ n, 2 ≤ n ∧ n ≤ 100 ∧ literal = Numeral.render n

/-- Whether the depth that a recursion lexeme asks for is one. -/
def DenotesDepth (x : Lexeme) : Prop :=
  ∃ (target : RecursionTarget) (literal : Text), x.token = target.token literal ∧ IsDepth literal

/-- Which span the recursion lexeme `x` of a pattern recurses into. -/
inductive Recurses (p : Text) (x : Lexeme) : RecursionTarget → Span → Prop where
  /-- All of the pattern. -/
  | wholePattern : Recurses p x .wholePattern ⟨0, p.utf8Length⟩
  /-- The group around it that it refers to, up to the delimiter that closes the group. -/
  | closed {reference : Text} {o c : Lexeme} (ho : Innermost p reference x o)
      (hc : Closes p o c) : Recurses p x (.group reference) ⟨o.span.stop, c.span.start⟩
  /-- That group, up to the end of the pattern if nothing closes the group. -/
  | unclosed {reference : Text} {o : Lexeme} (ho : Innermost p reference x o)
      (hc : ∀ c, ¬Closes p o c) : Recurses p x (.group reference) ⟨o.span.stop, p.utf8Length⟩

/-- Whether a pattern has a backreference by number while a recursion lexeme of it recurses into a
text that opens a capturing group. -/
structure Conflicts (p : Text) (x : Lexeme) (target : RecursionTarget) : Prop where
  /-- A digit other than `0` is escaped outside classes. -/
  backref : ∃ y ∈ topLevel p, ∃ c, y.token = .escaped c ∧ '1' ≤ c ∧ c ≤ '9'
  /-- A capturing group is opened within the span. -/
  captures : ∃ span, Recurses p x target span ∧ ∃ y ∈ topLevel p, y.token.isCaptureOpen ∧
    span.start ≤ y.span.start ∧ y.span.stop ≤ span.stop

/-- Whether a pattern has a group of definitions: `(DEFINE)` stands directly behind the opening of a
group. -/
def HasDefine (p : Text) : Prop :=
  ∃ y ∈ topLevel p, y.token = .groupOpen ∧
    ['(', 'D', 'E', 'F', 'I', 'N', 'E', ')'] <+: p.dropBytes y.span.stop

/-! ## Where the checks find it -/

/-- A literal is accepted when it is the numeral of a number within the bounds. -/
theorem isSome_ofLiteral?_iff {literal : Text} :
    (MaxDepth.ofLiteral? literal).isSome ↔ IsDepth literal := by
  rw [Option.isSome_iff_exists]
  constructor
  · rintro ⟨depth, h⟩
    exact ⟨depth.value, depth.two_le, depth.le_hundred, MaxDepth.ofLiteral?_eq_some_iff.1 h⟩
  · rintro ⟨n, htwo, hhundred, h⟩
    exact ⟨⟨n, htwo, hhundred⟩, MaxDepth.ofLiteral?_eq_some_iff.2 h⟩

/-- A token asks for one target and one depth. -/
theorem RecursionTarget.token_inj {target target' : RecursionTarget} {depth depth' : Text} :
    target.token depth = target'.token depth' ↔ target = target' ∧ depth = depth' := by
  cases target <;> cases target' <;> simp [token]

/-- The lexeme of a directive denotes a depth when the literal of the directive is accepted. -/
theorem denotesDepth_lexeme_iff {d : Directive} :
    DenotesDepth d.lexeme ↔ (MaxDepth.ofLiteral? d.depth).isSome := by
  rw [isSome_ofLiteral?_iff]
  constructor
  · rintro ⟨target, literal, htoken, h⟩
    obtain ⟨-, rfl⟩ := RecursionTarget.token_inj.1 htoken
    exact h
  · exact fun h => ⟨d.target, d.depth, rfl, h⟩

/-- A lexeme for a group recurses into the contents of the innermost group that it refers to. -/
theorem recurses_group_iff {p : Text} {x : Lexeme} {reference : Text} {span : Span} :
    Recurses p x (.group reference) span ↔
      ∃ o, Innermost p reference x o ∧ contentSpan p o.span.stop = span := by
  constructor
  · intro h
    cases h with
    | closed ho hc => exact ⟨_, ho, contentSpan_of_closes ho.openAt.mem_topLevel hc⟩
    | unclosed ho hc =>
      exact ⟨_, ho, contentSpan_of_not_closes ho.openAt.mem_topLevel ho.openAt.isGroupOpen hc⟩
  · rintro ⟨o, ho, rfl⟩
    by_cases hclosed : ∃ c, Closes p o c
    · obtain ⟨c, hc⟩ := hclosed
      rw [contentSpan_of_closes ho.openAt.mem_topLevel hc]
      exact .closed ho hc
    · have hc := not_exists.1 hclosed
      rw [contentSpan_of_not_closes ho.openAt.mem_topLevel ho.openAt.isGroupOpen hc]
      exact .unclosed ho hc

/-- The span of a directive is the one that its lexeme recurses into. -/
theorem recursed_eq_some_iff {p : Text} {d : Directive} (hd : d ∈ directives p) {span : Span} :
    d.recursed = some span ↔ Recurses p d.lexeme d.target span := by
  obtain ⟨ys, zs, hsplit, hfound⟩ := exists_append_of_mem_directives hd
  obtain ⟨-, -, -, ⟨htarget, hrecursed⟩ | ⟨reference, depth, -, htarget, hrecursed⟩⟩ :=
    Directive.of_ofLexeme? hfound
  · rw [htarget, hrecursed, Option.some.injEq]
    constructor
    · rintro rfl
      exact .wholePattern
    · rintro ⟨⟩
      rfl
  · rw [htarget, hrecursed, Option.map_eq_some_iff, recurses_group_iff]
    constructor
    · rintro ⟨g, hfind, hspan⟩
      obtain ⟨as, o, bs, -, ho, rfl⟩ := (find?_eq_some_iff hsplit).1 hfind
      exact ⟨o, ho, hspan⟩
    · rintro ⟨o, ho, hspan⟩
      obtain ⟨as, bs, hcut⟩ := List.append_of_mem ho.openAt.mem_topLevel
      exact ⟨_, (find?_eq_some_iff hsplit).2 ⟨as, o, bs, hcut, ho, rfl⟩, hspan⟩

/-- The recursed text opens the capturing groups that are opened within the span. -/
theorem countCaptures_slice {p : Text} {d : Directive} {span : Span} (hd : d ∈ directives p)
    (hspan : d.recursed = some span) :
    countCaptures (p.slice span) = (lexemesIn p span).countP fun x => x.token.isCaptureOpen := by
  obtain ⟨before, left, x, right, after, hparts⟩ := exists_parts hd hspan
  have hsplit : lexemes p = before ++ ((left ++ x :: right) ++ after) := by
    rw [hparts.lexemes_eq]
    simp
  have hin := lexemesIn_eq hsplit
  rw [← hparts.start_eq, ← hparts.stop_eq] at hin
  rw [hparts.countCaptures_recursed, hin, List.countP_append,
    List.countP_cons_of_neg (by simp [hparts.isCaptureOpen_directive]), opened, opened]

/-- A lexeme of a pattern that opens a capturing group is a top-level one. -/
theorem mem_topLevel_of_isCaptureOpen {p : Text} {x : Lexeme} (hx : x ∈ lexemes p)
    (hopen : x.token.isCaptureOpen) : x ∈ topLevel p := by
  refine List.mem_filter.2 ⟨hx, ?_⟩
  by_contra htop
  obtain ⟨rest, hrest⟩ := readsInClass_of_not_isTopLevel hx htop
  rw [Token.isCaptureOpen_of_readsInClass _ _ hrest] at hopen
  exact absurd hopen (by decide)

/-- The check of a directive for captures says whether a capturing group is opened within its span.
-/
theorem recursesCaptures_iff {p : Text} {d : Directive} (hd : d ∈ directives p) :
    d.recursesCaptures p ↔ ∃ span, Recurses p d.lexeme d.target span ∧
      ∃ y ∈ topLevel p, y.token.isCaptureOpen ∧
        span.start ≤ y.span.start ∧ y.span.stop ≤ span.stop := by
  have hsome : d.recursesCaptures p ↔
      ∃ span, d.recursed = some span ∧ countCaptures (p.slice span) ≠ 0 := by
    rw [Directive.recursesCaptures, Option.any_eq_true]
    simp
  rw [hsome]
  refine exists_congr fun span => ?_
  rw [recursed_eq_some_iff hd]
  refine and_congr_right fun hspan => ?_
  rw [countCaptures_slice hd ((recursed_eq_some_iff hd).2 hspan), ← Nat.pos_iff_ne_zero,
    List.countP_pos_iff]
  constructor
  · rintro ⟨y, hy, hopen⟩
    obtain ⟨hmem, hin⟩ := List.mem_filter.1 hy
    exact ⟨y, mem_topLevel_of_isCaptureOpen hmem hopen, hopen, of_decide_eq_true hin⟩
  · rintro ⟨y, hy, hopen, hin⟩
    exact ⟨y, List.mem_filter.2 ⟨(List.mem_filter.1 hy).1, decide_eq_true hin⟩, hopen⟩

/-- The check for backreferences by number finds one. -/
theorem occursIn_numberedBackref_iff {p : Text} :
    Construct.numberedBackref.occursIn p ↔
      ∃ y ∈ topLevel p, ∃ c, y.token = .escaped c ∧ '1' ≤ c ∧ c ≤ '9' := by
  rw [Construct.occursIn, List.any_eq_true]
  refine exists_congr fun y => and_congr_right fun _ => ?_
  simp only [Construct.beginsAt]
  cases y.token <;> simp

/-- The check for backreferences by number and captures finds a conflict. -/
theorem conflicts_iff {p : Text} {d : Directive} (hd : d ∈ directives p) :
    (Construct.numberedBackref.occursIn p && d.recursesCaptures p) = true ↔
      Conflicts p d.lexeme d.target := by
  rw [Bool.and_eq_true, occursIn_numberedBackref_iff, recursesCaptures_iff hd]
  exact ⟨fun ⟨h, h'⟩ => ⟨h, h'⟩, fun ⟨h, h'⟩ => ⟨h, h'⟩⟩

/-- The check for groups of definitions finds one. -/
theorem occursIn_defineGroup_iff {p : Text} :
    Construct.defineGroup.occursIn p ↔ HasDefine p := by
  rw [Construct.occursIn, List.any_eq_true]
  refine exists_congr fun y => and_congr_right fun _ => ?_
  simp [Construct.beginsAt, List.isPrefixOf_iff_prefix]

/-! ## The checks in their order -/

/-- Any other literal than that of a depth is rejected. -/
theorem MaxDepth.ofLiteral_eq_error {literal : Text} (h : MaxDepth.ofLiteral? literal = none) :
    MaxDepth.ofLiteral literal = .error (.invalidDepth literal) := by
  rw [MaxDepth.ofLiteral, h]

/-- The literals of directives are checked in their order, up to the first that is rejected. -/
theorem forM_ofLiteral_of_rejected {before after : List Directive} {d : Directive}
    (hbefore : ∀ b ∈ before, (MaxDepth.ofLiteral? b.depth).isSome)
    (hd : MaxDepth.ofLiteral? d.depth = none) :
    (before ++ d :: after).forM (fun other => discard (MaxDepth.ofLiteral other.depth)) =
      .error (.invalidDepth d.depth) := by
  induction before with
  | nil =>
    rw [List.nil_append, List.forM, MaxDepth.ofLiteral_eq_error hd]
    rfl
  | cons b before ih =>
    obtain ⟨hb, hbefore⟩ := List.forall_mem_cons.1 hbefore
    obtain ⟨depth, hb⟩ := Option.isSome_iff_exists.1 hb
    rw [List.cons_append, List.forM, MaxDepth.ofLiteral_eq_ok_iff.2 hb]
    exact ih hbefore

/-- Where the literals of all directives are accepted the check goes on. -/
theorem forM_ofLiteral_of_accepted {ds : List Directive}
    (h : ∀ d ∈ ds, (MaxDepth.ofLiteral? d.depth).isSome) :
    ds.forM (fun other => discard (MaxDepth.ofLiteral other.depth)) =
      (.ok () : Except Rejection Unit) := by
  induction ds with
  | nil => rfl
  | cons d ds ih =>
    obtain ⟨hd, hds⟩ := List.forall_mem_cons.1 h
    obtain ⟨depth, hd⟩ := Option.isSome_iff_exists.1 hd
    rw [List.forM, MaxDepth.ofLiteral_eq_ok_iff.2 hd]
    exact ih hds

namespace Recursion

variable {p : Text} {mode : Mode} {d : Directive} {others : List Directive}

/-- A pattern is rejected for the first depth literal that is not accepted. -/
theorem ofDirectives_of_rejected {before after : List Directive} {bad : Directive}
    (h : d :: others = before ++ bad :: after)
    (hbefore : ∀ b ∈ before, (MaxDepth.ofLiteral? b.depth).isSome)
    (hbad : MaxDepth.ofLiteral? bad.depth = none) :
    ofDirectives p mode d others = .error (.invalidDepth bad.depth) := by
  rw [ofDirectives]
  cases before with
  | nil =>
    obtain ⟨rfl, -⟩ := List.cons.inj h
    rw [MaxDepth.ofLiteral_eq_error hbad]
    rfl
  | cons b before =>
    obtain ⟨rfl, hothers⟩ := List.cons.inj (h.trans (List.cons_append ..))
    obtain ⟨hd, hbefore⟩ := List.forall_mem_cons.1 hbefore
    obtain ⟨depth, hd⟩ := Option.isSome_iff_exists.1 hd
    rw [MaxDepth.ofLiteral_eq_ok_iff.2 hd, hothers, forM_ofLiteral_of_rejected hbefore hbad]
    rfl

/-- Where all depth literals are accepted, the other checks decide. -/
theorem ofDirectives_of_accepted {depth : MaxDepth} (hd : MaxDepth.ofLiteral? d.depth = some depth)
    (hothers : ∀ other ∈ others, (MaxDepth.ofLiteral? other.depth).isSome) :
    ofDirectives p mode d others =
      if Construct.numberedBackref.occursIn p && d.recursesCaptures p then
        .error (.unsupportedBackref mode d.target.scope)
      else if Construct.defineGroup.occursIn p then .error .forbiddenDefine
      else if others ≠ [] then .error .overlappingRecursion
      else match d.recursed with
        | some recursed => .ok (around p d recursed depth)
        | none => .error (.invalidReference (d.reference p mode)) := by
  rw [ofDirectives, MaxDepth.ofLiteral_eq_ok_iff.2 hd, forM_ofLiteral_of_accepted hothers]
  simp only [bind, Except.bind]
  split
  · rfl
  · split
    · rfl
    · split
      · rfl
      · cases d.recursed <;> rfl

end Recursion

/-! ## The rules -/

/-- Whether `x` is the first recursion lexeme of a pattern and asks for a target and a depth, and
the `others` ask for depths too. -/
structure Requests (p : Text) (x : Lexeme) (target : RecursionTarget) (depth : MaxDepth)
    (others : List Lexeme) : Prop where
  /-- These are the recursion lexemes of the pattern. -/
  recursions_eq : recursions p = x :: others
  /-- The first asks for the target and the depth. -/
  token_eq : x.token = target.token depth.render
  /-- The others ask for depths. -/
  denotesDepth : ∀ y ∈ others, DenotesDepth y

/-- The text by which a message refers to the recursion lexeme `x`, which refers to a group. -/
def Mode.referenceText (x : Lexeme) (reference : Text) : Mode → Text
  | plugin => x.token.spelling
  | external => reference

/-- A pattern taken apart around the recursion lexeme `x`, which recurses into a span. -/
def Recursion.atLexeme (p : Text) (x : Lexeme) (target : RecursionTarget) (span : Span)
    (depth : MaxDepth) : Recursion where
  before := p.takeBytes span.start
  left := p.slice ⟨span.start, x.span.start⟩
  right := p.slice ⟨x.span.stop, span.stop⟩
  after := p.dropBytes span.stop
  scope := target.scope
  depth := depth
  capturesBefore := countCaptures (p.takeBytes x.span.start)

/-- What becomes of a pattern about whose captures something is known. -/
inductive Outcome (e : Expansion) (mode : Mode) : Except Rejection Expansion → Prop where
  /-- A pattern without recursion lexemes stays as it is. -/
  | unchanged (h : recursions e.pattern = []) : Outcome e mode (.ok e)
  /-- The first literal that is not the numeral of a number from 2 to 100 is rejected. -/
  | invalidDepth {before after : List Lexeme} {x : Lexeme} {target : RecursionTarget}
      {literal : Text} (h : recursions e.pattern = before ++ x :: after)
      (hbefore : ∀ y ∈ before, DenotesDepth y) (hx : x.token = target.token literal)
      (hliteral : ¬IsDepth literal) : Outcome e mode (.error (.invalidDepth literal))
  /-- Then a backreference by number, if the first lexeme recurses into captures. -/
  | unsupportedBackref {x : Lexeme} {target : RecursionTarget} {depth : MaxDepth}
      {others : List Lexeme} (h : Requests e.pattern x target depth others)
      (hconflict : Conflicts e.pattern x target) :
      Outcome e mode (.error (.unsupportedBackref mode target.scope))
  /-- Then a group of definitions. -/
  | forbiddenDefine {x : Lexeme} {target : RecursionTarget} {depth : MaxDepth}
      {others : List Lexeme} (h : Requests e.pattern x target depth others)
      (hconflict : ¬Conflicts e.pattern x target) (hdefine : HasDefine e.pattern) :
      Outcome e mode (.error .forbiddenDefine)
  /-- Then a second recursion lexeme. -/
  | overlappingRecursion {x : Lexeme} {target : RecursionTarget} {depth : MaxDepth}
      {others : List Lexeme} (h : Requests e.pattern x target depth others)
      (hconflict : ¬Conflicts e.pattern x target) (hdefine : ¬HasDefine e.pattern)
      (hothers : others ≠ []) : Outcome e mode (.error .overlappingRecursion)
  /-- Then a reference to a group that is not open around the lexeme. -/
  | invalidReference {x : Lexeme} {reference : Text} {depth : MaxDepth}
      (h : Requests e.pattern x (.group reference) depth [])
      (hconflict : ¬Conflicts e.pattern x (.group reference)) (hdefine : ¬HasDefine e.pattern)
      (houtside : ∀ o, OpenAt e.pattern o x → ¬RefersTo e.pattern reference o) :
      Outcome e mode (.error (.invalidReference (mode.referenceText x reference)))
  /-- Any other pattern is unrolled. -/
  | unrolled {x : Lexeme} {target : RecursionTarget} {depth : MaxDepth} {span : Span}
      (h : Requests e.pattern x target depth []) (hconflict : ¬Conflicts e.pattern x target)
      (hdefine : ¬HasDefine e.pattern) (hspan : Recurses e.pattern x target span) :
      Outcome e mode (.ok (.ofRecursion (.atLexeme e.pattern x target span depth)
        e.hiddenCaptures e.captureTransfers))

/-- A pattern is taken apart around a directive as it is around its lexeme. -/
theorem Recursion.around_eq_atLexeme {p : Text} {d : Directive} (hd : d ∈ directives p)
    (span : Span) (depth : MaxDepth) :
    around p d span depth = atLexeme p d.lexeme d.target span depth := by
  rw [around, (resolves_lexeme hd).capturesBefore_eq]
  rfl

/-- A message refers to a directive for a group as to its lexeme. -/
theorem Directive.reference_eq {p : Text} {d : Directive} (hd : d ∈ directives p) {reference : Text}
    (htarget : d.target = .group reference) (mode : Mode) :
    d.reference p mode = mode.referenceText d.lexeme reference := by
  obtain ⟨ys, zs, hsplit, -⟩ := exists_append_of_mem_directives hd
  have hmem : d.lexeme ∈ topLevel p := by rw [hsplit]; simp
  have htext := slice_span (List.mem_filter.1 hmem).1
  cases mode with
  | plugin => exact htext
  | external =>
    unfold Directive.reference
    rw [htarget]
    rfl

/-- The request of the first recursion lexeme is that of the first directive. -/
theorem Requests.exists_directives {p : Text} {x : Lexeme} {target : RecursionTarget}
    {depth : MaxDepth} {others : List Lexeme} (h : Requests p x target depth others) :
    ∃ d ds, directives p = d :: ds ∧ d ∈ directives p ∧ d.lexeme = x ∧ d.target = target ∧
      MaxDepth.ofLiteral? d.depth = some depth ∧ ds.map Directive.lexeme = others ∧
      ∀ other ∈ ds, (MaxDepth.ofLiteral? other.depth).isSome := by
  have hmap := (map_lexeme_directives p).trans h.recursions_eq
  obtain ⟨d, ds, hds, rfl, rfl⟩ := List.map_eq_cons_iff.1 hmap
  obtain ⟨htarget, hdepth⟩ := RecursionTarget.token_inj.1 h.token_eq
  have hd : d ∈ directives p := by rw [hds]; exact List.mem_cons_self
  refine ⟨d, ds, hds, hd, rfl, htarget, MaxDepth.ofLiteral?_eq_some_iff.2 hdepth, rfl, ?_⟩
  exact fun other hother =>
    denotesDepth_lexeme_iff.1 (h.denotesDepth _ (List.mem_map_of_mem hother))

/-- Where all depth literals are accepted, a pattern is expanded as the other checks decide. -/
theorem Requests.exists_expand_eq {e : Expansion} {x : Lexeme} {target : RecursionTarget}
    {depth : MaxDepth} {others : List Lexeme} (h : Requests e.pattern x target depth others)
    (mode : Mode) [Decidable (Conflicts e.pattern x target)] [Decidable (HasDefine e.pattern)] :
    ∃ d ∈ directives e.pattern, d.lexeme = x ∧ d.target = target ∧
      e.expand mode =
        if Conflicts e.pattern x target then .error (.unsupportedBackref mode target.scope)
        else if HasDefine e.pattern then .error .forbiddenDefine
        else if others ≠ [] then .error .overlappingRecursion
        else match d.recursed with
          | some span => .ok (.ofRecursion (.atLexeme e.pattern x target span depth)
              e.hiddenCaptures e.captureTransfers)
          | none => .error (.invalidReference (d.reference e.pattern mode)) := by
  obtain ⟨d, ds, hds, hd, rfl, rfl, hdepth, rfl, hothers⟩ := h.exists_directives
  refine ⟨d, hd, rfl, rfl, ?_⟩
  rw [Expansion.expand_of_directives_eq_cons hds, Recursion.ofDirectives_of_accepted hdepth hothers]
  simp only [conflicts_iff hd, occursIn_defineGroup_iff, Recursion.around_eq_atLexeme hd, ne_eq,
    List.map_eq_nil_iff]
  split_ifs
  · rfl
  · rfl
  · cases d.recursed <;> rfl
  · rfl

/-- Each rule is followed. -/
theorem Outcome.expand_eq {e : Expansion} {mode : Mode} {r : Except Rejection Expansion}
    (h : Outcome e mode r) : e.expand mode = r := by
  classical
  cases h with
  | unchanged h =>
    have hnil : directives e.pattern = [] :=
      List.map_eq_nil_iff.1 ((map_lexeme_directives e.pattern).trans h)
    exact Expansion.expand_of_directives_eq_nil hnil mode
  | invalidDepth h hbefore hx hliteral =>
    have hmap := (map_lexeme_directives e.pattern).trans h
    obtain ⟨ds, back, hsplit, rfl, hback⟩ := List.map_eq_append_iff.1 hmap
    obtain ⟨bad, ds', rfl, rfl, -⟩ := List.map_eq_cons_iff.1 hback
    obtain ⟨-, rfl⟩ := RecursionTarget.token_inj.1 hx
    have hrejected : MaxDepth.ofLiteral? bad.depth = none := by
      rwa [← isSome_ofLiteral?_iff, Bool.not_eq_true, Option.isSome_eq_false_iff,
        Option.isNone_iff_eq_none] at hliteral
    have haccepted : ∀ d ∈ ds, (MaxDepth.ofLiteral? d.depth).isSome := fun d hd =>
      denotesDepth_lexeme_iff.1 (hbefore _ (List.mem_map_of_mem hd))
    obtain ⟨d, others, hcons⟩ := List.exists_cons_of_ne_nil
      (show ds ++ bad :: ds' ≠ [] by simp)
    rw [Expansion.expand_of_directives_eq_cons (hsplit.trans hcons),
      Recursion.ofDirectives_of_rejected hcons.symm haccepted hrejected]
    rfl
  | unsupportedBackref h hconflict =>
    obtain ⟨d, -, -, -, hexpand⟩ := h.exists_expand_eq mode
    rw [hexpand, if_pos hconflict]
  | forbiddenDefine h hconflict hdefine =>
    obtain ⟨d, -, -, -, hexpand⟩ := h.exists_expand_eq mode
    rw [hexpand, if_neg hconflict, if_pos hdefine]
  | overlappingRecursion h hconflict hdefine hothers =>
    obtain ⟨d, -, -, -, hexpand⟩ := h.exists_expand_eq mode
    rw [hexpand, if_neg hconflict, if_neg hdefine, if_pos hothers]
  | invalidReference h hconflict hdefine houtside =>
    obtain ⟨d, hd, rfl, htarget, hexpand⟩ := h.exists_expand_eq mode
    have hnone : d.recursed = none := by
      rw [← Option.not_isSome_iff_eq_none, (resolves_lexeme hd).isSome_iff _ htarget]
      rintro ⟨o, hopen, hrefers⟩
      exact houtside o hopen hrefers
    rw [hexpand, if_neg hconflict, if_neg hdefine, if_neg (not_not_intro rfl), hnone,
      ← Directive.reference_eq hd htarget]
  | unrolled h hconflict hdefine hspan =>
    obtain ⟨d, hd, rfl, rfl, hexpand⟩ := h.exists_expand_eq mode
    rw [hexpand, if_neg hconflict, if_neg hdefine, if_neg (not_not_intro rfl),
      (recursed_eq_some_iff hd).2 hspan]

/-- In a list with an element of some kind there is a first one. -/
theorem exists_first {α : Type} {P : α → Prop} {xs : List α} (h : ∃ x ∈ xs, P x) :
    ∃ before x after, xs = before ++ x :: after ∧ (∀ y ∈ before, ¬P y) ∧ P x := by
  classical
  obtain ⟨x, hx⟩ := Option.isSome_iff_exists.1
    (List.find?_isSome.2 (h.imp fun x hx => ⟨hx.1, decide_eq_true hx.2⟩))
  obtain ⟨hP, before, after, hsplit, hbefore⟩ := List.find?_eq_some_iff_append.1 hx
  exact ⟨before, x, after, hsplit, by simpa using hbefore, of_decide_eq_true hP⟩

/-- A depth that is not one comes before all other reasons, also behind them. -/
example : (Expansion.ofPattern "(a)\\1(?(DEFINE)b)(?R=2)(?R=1)".toList).expand .plugin =
    .error (.invalidDepth ['1']) := by
  decide +kernel

end RegexUnroll
