import Mathlib.Data.List.Induction
import RegexUnroll.Directive
import RegexUnroll.Proofs.Cutting

/-!
# The parts of a pattern around a directive

A directive and the span that it recurses into cut a pattern into four texts around the directive,
and every cut is between two lexemes (`exists_parts`). For the whole pattern that is clear. For a
group two computations have to agree: the stack of open groups, by which the directive finds the
opening of the group, and the search for its closing delimiter, which starts over behind that
opening. `OpenedBy` is what they agree on. It is kept by every lexeme (`OpenedBy.after`), so it
holds of every group on the stack (`openedBy_of_getElem?`).
-/

namespace RegexUnroll

/-! ## The search for a closing delimiter, step by step -/

/-- An opening has to be closed before the group does. -/
theorem closing?_cons_of_isGroupOpen {x : Lexeme} (h : x.token.isGroupOpen) (i : Nat)
    (xs : List Lexeme) : closing? i (x :: xs) = closing? (i + 1) xs := by
  cases i <;> rw [closing?, if_pos h]

/-- A closing delimiter closes the innermost group first. -/
theorem closing?_succ_cons_of_groupClose {x : Lexeme} (h : x.token = .groupClose) (i : Nat)
    (xs : List Lexeme) : closing? (i + 1) (x :: xs) = closing? i xs := by
  have hopen : ¬x.token.isGroupOpen := by simp [h, Token.isGroupOpen]
  rw [closing?, if_neg hopen, if_pos h]

/-- Other lexemes neither open nor close. -/
theorem closing?_cons_of_not {x : Lexeme} (hopen : ¬x.token.isGroupOpen)
    (hclose : x.token ≠ .groupClose) (i : Nat) (xs : List Lexeme) :
    closing? i (x :: xs) = closing? i xs := by
  cases i <;> rw [closing?, if_neg hopen, if_neg hclose]

/-- What closes a group is a closing delimiter among the lexemes. -/
theorem exists_append_of_closing? {i : Nat} {xs : List Lexeme} {y : Lexeme}
    (h : closing? i xs = some y) : ∃ ms ns, xs = ms ++ y :: ns ∧ y.token = .groupClose := by
  induction xs generalizing i with
  | nil => simp [closing?] at h
  | cons x xs ih =>
    have hlater : ∀ j, closing? j xs = some y →
        ∃ ms ns, x :: xs = ms ++ y :: ns ∧ y.token = .groupClose := by
      intro j hj
      obtain ⟨ms, ns, rfl, hy⟩ := ih hj
      exact ⟨x :: ms, ns, rfl, hy⟩
    by_cases hopen : x.token.isGroupOpen
    · rw [closing?_cons_of_isGroupOpen hopen] at h
      exact hlater _ h
    · by_cases hclose : x.token = .groupClose
      · cases i with
        | zero =>
          rw [closing?, if_neg hopen, if_pos hclose] at h
          obtain rfl : x = y := Option.some.inj h
          exact ⟨[], xs, rfl, hclose⟩
        | succ i =>
          rw [closing?_succ_cons_of_groupClose hclose] at h
          exact hlater _ h
      · rw [closing?_cons_of_not hopen hclose] at h
        exact hlater _ h

/-! ## The stack of open groups -/

namespace OpenGroups

/-- An opening puts its group on the stack. -/
theorem stack_after_of_isGroupOpen {x : Lexeme} (h : x.token.isGroupOpen) (groups : OpenGroups) :
    ∃ label, (groups.after x).stack = ⟨label, x.span.stop⟩ :: groups.stack := by
  unfold after
  split <;> first | exact ⟨_, rfl⟩ | simp_all [Token.isGroupOpen]

/-- A closing delimiter takes the innermost group from the stack. -/
theorem stack_after_of_groupClose {x : Lexeme} (h : x.token = .groupClose) (groups : OpenGroups) :
    (groups.after x).stack = groups.stack.tail := by
  unfold after
  rw [h]

/-- Other lexemes leave the stack as it is. -/
theorem stack_after_of_not {x : Lexeme} (hopen : ¬x.token.isGroupOpen)
    (hclose : x.token ≠ .groupClose) (groups : OpenGroups) :
    (groups.after x).stack = groups.stack := by
  unfold after
  split <;> simp_all [Token.isGroupOpen]

/-- The capturing groups among lexemes are counted. -/
theorem captures_foldl_after (xs : List Lexeme) (groups : OpenGroups) :
    (xs.foldl after groups).captures =
      groups.captures + xs.countP fun x => x.token.isCaptureOpen := by
  induction xs generalizing groups with
  | nil => rfl
  | cons x xs ih =>
    rw [List.foldl_cons, ih, captures_after, List.countP_cons]
    omega

end OpenGroups

/-- Whether a group has been opened among the lexemes `xs`, so that behind them it is closed where
`i` more groups have been closed. -/
def OpenedBy (xs : List Lexeme) (i : Nat) (group : OpenGroup) : Prop :=
  ∃ ys x zs, xs = ys ++ x :: zs ∧ x.token.isGroupOpen ∧ group.contentStart = x.span.stop ∧
    ∀ rest, closing? 0 (zs ++ rest) = closing? i rest

/-- A group that has been opened stays so for one more lexeme, where the search goes on behind it.
-/
theorem OpenedBy.concat {xs : List Lexeme} {i j : Nat} {group : OpenGroup} {x : Lexeme}
    (h : OpenedBy xs i group) (hstep : ∀ rest, closing? i (x :: rest) = closing? j rest) :
    OpenedBy (xs ++ [x]) j group := by
  obtain ⟨ys, y, zs, rfl, hopen, hstart, hclosing⟩ := h
  refine ⟨ys, y, zs ++ [x], by simp, hopen, hstart, fun rest => ?_⟩
  rw [List.append_assoc, hclosing]
  exact hstep rest

/-- Where each group on the stack has been opened, each group on it after one more lexeme has. -/
theorem OpenedBy.after {xs : List Lexeme} {groups : OpenGroups}
    (h : ∀ i group, groups.stack[i]? = some group → OpenedBy xs i group) (x : Lexeme) {i : Nat}
    {group : OpenGroup} (hgroup : (groups.after x).stack[i]? = some group) :
    OpenedBy (xs ++ [x]) i group := by
  by_cases hopen : x.token.isGroupOpen
  · obtain ⟨label, hstack⟩ := OpenGroups.stack_after_of_isGroupOpen hopen groups
    rw [hstack] at hgroup
    cases i with
    | zero =>
      -- The lexeme itself has opened the group.
      obtain rfl := Option.some.inj hgroup
      exact ⟨xs, x, [], rfl, hopen, rfl, fun _ => rfl⟩
    | succ i =>
      exact (h i group hgroup).concat fun rest => closing?_cons_of_isGroupOpen hopen i rest
  · by_cases hclose : x.token = .groupClose
    · -- What is now at `i` stood below the group that has been closed.
      rw [OpenGroups.stack_after_of_groupClose hclose, List.getElem?_tail] at hgroup
      exact (h (i + 1) group hgroup).concat fun rest =>
        closing?_succ_cons_of_groupClose hclose i rest
    · rw [OpenGroups.stack_after_of_not hopen hclose] at hgroup
      exact (h i group hgroup).concat fun rest => closing?_cons_of_not hopen hclose i rest

/-- Each group on the stack has been opened, by a lexeme behind which as many groups are still open
as stand above it. -/
theorem openedBy_of_getElem? (xs : List Lexeme) {i : Nat} {group : OpenGroup}
    (h : (xs.foldl OpenGroups.after .empty).stack[i]? = some group) : OpenedBy xs i group := by
  -- The last lexeme is stepped over last, so it is the one to split off.
  induction xs using List.reverseRecOn generalizing i group with
  | nil => simp [OpenGroups.empty] at h
  | append_singleton xs x ih =>
    rw [List.foldl_append] at h
    exact OpenedBy.after (fun _ _ => ih) x h

/-! ## Directives and the lexemes they are -/

/-- A directive is the recursion token of its lexeme, and its span. -/
theorem Directive.of_ofLexeme? {p : Text} {groups : OpenGroups} {x : Lexeme} {d : Directive}
    (h : Directive.ofLexeme? p groups x = some d) :
    x.token.isRecursion ∧ d.span = x.span ∧ d.capturesBefore = groups.captures ∧
      (d.target = .wholePattern ∧ d.recursed = some ⟨0, p.utf8Length⟩ ∨
        ∃ reference depth, x.token = .subpatternRecursion reference depth ∧
          d.target = .group reference ∧
          d.recursed = (groups.find? reference).map fun group =>
            contentSpan p group.contentStart) := by
  unfold Directive.ofLexeme? at h
  split at h
  · rename_i hx
    obtain rfl := Option.some.inj h
    exact ⟨by simp [hx, Token.isRecursion], rfl, rfl, .inl ⟨rfl, rfl⟩⟩
  · rename_i hx
    obtain rfl := Option.some.inj h
    exact ⟨by simp [hx, Token.isRecursion], rfl, rfl, .inr ⟨_, _, hx, rfl, rfl⟩⟩
  · simp at h

/-- A directive is one of the lexemes, where the groups opened before it are open. -/
theorem exists_append_of_mem_directivesFrom {p : Text} {groups : OpenGroups} {xs : List Lexeme}
    {d : Directive} (h : d ∈ directivesFrom p groups xs) :
    ∃ ys x zs, xs = ys ++ x :: zs ∧
      Directive.ofLexeme? p (ys.foldl OpenGroups.after groups) x = some d := by
  induction xs generalizing groups with
  | nil => simp [directivesFrom] at h
  | cons x xs ih =>
    rw [directivesFrom, List.mem_append, Option.mem_toList] at h
    rcases h with hfirst | hlater
    · exact ⟨[], x, xs, rfl, hfirst⟩
    · obtain ⟨ys, y, zs, rfl, hy⟩ := ih hlater
      exact ⟨x :: ys, y, zs, rfl, hy⟩

/-! ## The parts -/

/-- How the lexemes of a pattern fall apart around the lexeme `x` of a directive that recurses into
a span: those before the span, those in it on both sides of the directive, and those after it. -/
structure Parts (p : Text) (d : Directive) (span : Span) (before left : List Lexeme) (x : Lexeme)
    (right after : List Lexeme) : Prop where
  /-- The parts make up the pattern. -/
  lexemes_eq : lexemes p = before ++ (left ++ x :: (right ++ after))
  /-- The directive is a recursion token. -/
  isRecursion : x.token.isRecursion
  /-- A directive for a group has the form for groups. -/
  of_subpattern : d.target.scope = .subpattern →
    ∃ target depth, x.token = .subpatternRecursion target depth
  /-- The directive stands at its lexeme. -/
  span_eq : d.span = x.span
  /-- The span starts at the first cut. -/
  start_eq : span.start = Text.utf8Length (spell (before.map Lexeme.token))
  /-- The span stops at the last cut. -/
  stop_eq : span.stop =
    Text.utf8Length (spell ((before ++ (left ++ x :: right)).map Lexeme.token))
  /-- The first cut is outside classes. -/
  classDepth_before : classDepthAfter 0 (before.map Lexeme.token) = 0
  /-- The directive is outside classes. -/
  classDepth_left : classDepthAfter 0 (left.map Lexeme.token) = 0
  /-- The capturing groups before the directive are counted. -/
  capturesBefore_eq : d.capturesBefore =
    ((before ++ left).filter Lexeme.isTopLevel).countP fun x => x.token.isCaptureOpen
  /-- Nothing stands around the whole pattern. -/
  of_global : d.target.scope = .global → before = [] ∧ after = []
  /-- What stands after the span begins with a closing delimiter. -/
  after_eq : after = [] ∨ ∃ y ys, after = y :: ys ∧ y.token = .groupClose

/-- The opening of a group leaves the open classes as they are. -/
theorem Token.classDepthAfter_of_isGroupOpen {t : Token} (h : t.isGroupOpen) (depth : Nat) :
    t.classDepthAfter depth = depth := by
  cases t <;> simp_all [isGroupOpen, classDepthAfter]

/-- A recursion token has one of two forms. -/
theorem Token.eq_of_isRecursion {t : Token} (h : t.isRecursion) :
    (∃ depth, t = globalRecursion depth) ∨
      ∃ target depth, t = subpatternRecursion target depth := by
  cases t with
  | globalRecursion depth => exact .inl ⟨depth, rfl⟩
  | subpatternRecursion target depth => exact .inr ⟨target, depth, rfl⟩
  | _ => simp [isRecursion] at h

/-- A recursion token neither opens a group nor closes one. -/
theorem Token.not_isGroupOpen_of_isRecursion {t : Token} (h : t.isRecursion) :
    ¬t.isGroupOpen ∧ t ≠ groupClose := by
  rcases eq_of_isRecursion h with ⟨depth, rfl⟩ | ⟨target, depth, rfl⟩ <;> simp [isGroupOpen]

/-- A lexeme that has been found among the top-level ones splits all of them. -/
theorem exists_append_of_filter_eq {xs as bs : List Lexeme} {x : Lexeme}
    (h : xs.filter Lexeme.isTopLevel = as ++ x :: bs) :
    ∃ as' bs', xs = as' ++ x :: bs' ∧ x.isTopLevel ∧ as'.filter Lexeme.isTopLevel = as ∧
      bs'.filter Lexeme.isTopLevel = bs := by
  obtain ⟨front, back, rfl, hfront, hback⟩ := List.filter_eq_append_iff.1 h
  obtain ⟨skipped, rest, rfl, hskipped, hx, hrest⟩ := List.filter_eq_cons_iff.1 hback
  refine ⟨front ++ skipped, rest, by simp, hx, ?_, hrest⟩
  rw [List.filter_append, hfront, List.filter_eq_nil_iff.2 hskipped, List.append_nil]

/-- The search for the closing delimiter of a group reads the lexemes behind its opening. -/
theorem lexemes_ofOffset {p : Text} {as bs : List Lexeme} {o : Lexeme}
    (h : lexemes p = as ++ o :: bs)
    (hdepth : classDepthAfter 0 ((as ++ [o]).map Lexeme.token) = 0) :
    (Cursor.ofOffset p o.span.stop).lexemes = bs ∧
      p.dropBytes o.span.stop = spell (bs.map Lexeme.token) := by
  have hstop : o.span.stop = Text.utf8Length (spell ((as ++ [o]).map Lexeme.token)) := by
    rw [span_eq_of_lexemes_append h]
    simp
  have htext : p = spell ((as ++ [o]).map Lexeme.token) ++ spell (bs.map Lexeme.token) := by
    rw [← spell_append, ← List.map_append, List.append_assoc, List.singleton_append, ← h]
    exact (spell_tokensFrom 0 p).symm
  have hdrop : p.dropBytes o.span.stop = spell (bs.map Lexeme.token) := by
    rw [hstop]
    conv_lhs => rw [htext]
    exact Text.dropBytes_append _ _
  refine ⟨?_, hdrop⟩
  have hsplit : (Cursor.ofText p).lexemes = as ++ [o] ++ bs := by
    rw [List.append_assoc]
    exact h
  have hcursor := Cursor.lexemes_drop hsplit
  have hzero : classDepthAfter (Cursor.ofText p).classDepth ((as ++ [o]).map Lexeme.token) = 0 :=
    hdepth
  rw [hzero] at hcursor
  rw [Cursor.ofOffset, hdrop, hstop]
  simpa [Cursor.ofText] using hcursor

/-- Where a directive for the whole pattern stands, nothing is around the span. -/
theorem exists_parts_wholePattern {p : Text} {d : Directive} {ys zs : List Lexeme} {x : Lexeme}
    (hsplit : topLevel p = ys ++ x :: zs) (hx : x.token.isRecursion) (hspan : d.span = x.span)
    (htarget : d.target = .wholePattern)
    (hcaptures : d.capturesBefore = ys.countP fun x => x.token.isCaptureOpen) :
    ∃ left right, Parts p d ⟨0, p.utf8Length⟩ [] left x right [] := by
  obtain ⟨left, right, hlexemes, htop, rfl, -⟩ := exists_append_of_filter_eq hsplit
  have hdepth := ((isTopLevel_iff_of_lexemes_append hlexemes).1 htop).1
  have hscope : d.target.scope = .global := by rw [htarget]; rfl
  refine ⟨left, right, ?_, hx, fun hsub => ?_, hspan, rfl, ?_, rfl, hdepth, hcaptures,
    fun _ => ⟨rfl, rfl⟩, .inl rfl⟩
  · rw [hlexemes, List.nil_append, List.append_nil]
  · exact absurd (hscope.symm.trans hsub) (by decide)
  · rw [List.nil_append, ← hlexemes]
    exact congrArg Text.utf8Length (spell_tokensFrom 0 p).symm

/-- Where the search for the closing delimiter of a group passes the lexemes `mid` behind its
opening, the contents of the group are these and what stands up to that delimiter, or up to the end
of the pattern if there is none. -/
theorem exists_contentSpan_eq {p : Text} {as mid back : List Lexeme} {o : Lexeme} {i : Nat}
    (h : lexemes p = as ++ o :: (mid ++ back))
    (hdepth : classDepthAfter 0 ((as ++ [o]).map Lexeme.token) = 0)
    (hsearch : closing? 0 ((mid ++ back).filter Lexeme.isTopLevel) =
      closing? i (back.filter Lexeme.isTopLevel)) :
    ∃ right after, back = right ++ after ∧
      contentSpan p o.span.stop =
        ⟨Text.utf8Length (spell ((as ++ [o]).map Lexeme.token)),
          Text.utf8Length (spell ((as ++ [o] ++ (mid ++ right)).map Lexeme.token))⟩ ∧
      after.head? = closing? i (back.filter Lexeme.isTopLevel) := by
  obtain ⟨hbehind, hdrop⟩ := lexemes_ofOffset h hdepth
  have hstop : o.span.stop = Text.utf8Length (spell ((as ++ [o]).map Lexeme.token)) := by
    rw [span_eq_of_lexemes_append h]
    simp
  rw [contentSpan, groupContents, hbehind, hsearch]
  match hfound : closing? i (back.filter Lexeme.isTopLevel) with
  | none =>
    -- The group is not closed, and its contents run to the end of the pattern.
    refine ⟨back, [], (List.append_nil back).symm, ?_, rfl⟩
    show (⟨_, o.span.stop + Text.utf8Length (p.dropBytes o.span.stop)⟩ : Span) = _
    rw [hdrop, hstop, utf8Length_spell_append (as ++ [o])]
  | some y =>
    -- The contents stop where the closing delimiter starts.
    obtain ⟨ms, ns, hns, -⟩ := exists_append_of_closing? hfound
    obtain ⟨right, after, rfl, -, -, -⟩ := exists_append_of_filter_eq hns
    have hsplit : lexemes p = (as ++ [o] ++ (mid ++ right)) ++ y :: after := by
      rw [h]
      simp
    have hystart : y.span.start = o.span.stop +
        Text.utf8Length (spell ((mid ++ right).map Lexeme.token)) := by
      rw [span_eq_of_lexemes_append hsplit, hstop, utf8Length_spell_append (as ++ [o])]
    have htext : p.slice ⟨o.span.stop, y.span.start⟩ = spell ((mid ++ right).map Lexeme.token) := by
      have hp : p = spell ((as ++ [o]).map Lexeme.token) ++
          spell ((mid ++ right).map Lexeme.token) ++ spell ((y :: after).map Lexeme.token) := by
        rw [← spell_append, ← List.map_append, ← spell_append, ← List.map_append, ← hsplit]
        exact (spell_tokensFrom 0 p).symm
      rw [hystart, hstop]
      conv_lhs => rw [hp]
      exact Text.slice_append _ _ _
    refine ⟨right, y :: after, rfl, ?_, rfl⟩
    show (⟨_, o.span.stop + Text.utf8Length (p.slice ⟨o.span.stop, y.span.start⟩)⟩ : Span) = _
    rw [htext, hstop, utf8Length_spell_append (as ++ [o])]

/-- Where a directive stands inside a group that it refers to, the span is the contents of the
group. -/
theorem exists_parts_group {p : Text} {d : Directive} {ys zs : List Lexeme} {x : Lexeme}
    {i : Nat} {group : OpenGroup} {target depth : Text} (hsplit : topLevel p = ys ++ x :: zs)
    (hx : x.token = .subpatternRecursion target depth) (hspan : d.span = x.span)
    (hcaptures : d.capturesBefore = ys.countP fun x => x.token.isCaptureOpen)
    (hscope : d.target.scope = .subpattern) (hopened : OpenedBy ys i group) :
    ∃ before left right after,
      Parts p d (contentSpan p group.contentStart) before left x right after := by
  obtain ⟨as, o, bs, rfl, ho, hstart, hclosing⟩ := hopened
  obtain ⟨front, back, hlexemes, htop, hfront, -⟩ := exists_append_of_filter_eq hsplit
  obtain ⟨outer, left, rfl, hotop, -, hleft⟩ := exists_append_of_filter_eq hfront
  have hrecursion : x.token.isRecursion := by rw [hx]; rfl
  have hlexemes' : lexemes p = outer ++ o :: (left ++ [x] ++ back) := by
    rw [hlexemes]
    simp
  -- Neither the opening nor the directive changes what classes are open.
  have hdepth := ((isTopLevel_iff_of_lexemes_append hlexemes').1 hotop).1
  have hdepth_before : classDepthAfter 0 ((outer ++ [o]).map Lexeme.token) = 0 := by
    rw [List.map_append, classDepthAfter_append, hdepth]
    exact Token.classDepthAfter_of_isGroupOpen ho 0
  have hdepth_left : classDepthAfter 0 (left.map Lexeme.token) = 0 := by
    have h := ((isTopLevel_iff_of_lexemes_append hlexemes).1 htop).1
    rwa [← List.singleton_append (x := o), ← List.append_assoc, List.map_append,
      classDepthAfter_append, hdepth_before] at h
  -- The search passes the directive with as many groups open as the stack has above the group.
  have hsearch : closing? 0 ((left ++ [x] ++ back).filter Lexeme.isTopLevel) =
      closing? i (back.filter Lexeme.isTopLevel) := by
    obtain ⟨hopen, hclose⟩ := Token.not_isGroupOpen_of_isRecursion hrecursion
    rw [List.append_assoc, List.singleton_append, List.filter_append, List.filter_cons_of_pos htop,
      hleft, hclosing, closing?_cons_of_not hopen hclose]
  obtain ⟨right, after, rfl, hcontents, hafter⟩ :=
    exists_contentSpan_eq hlexemes' hdepth_before hsearch
  rw [hstart, hcontents]
  refine ⟨outer ++ [o], left, right, after, ?_, hrecursion, fun _ => ⟨_, _, hx⟩, hspan, rfl, ?_,
    hdepth_before, hdepth_left, ?_, fun hglobal => ?_, ?_⟩
  · rw [hlexemes']
    simp
  · simp
  · rw [List.append_assoc, List.singleton_append, hfront, hcaptures]
  · exact absurd (hscope.symm.trans hglobal) (by decide)
  · -- What stands after the span begins with what the search has found.
    cases after with
    | nil => exact .inl rfl
    | cons y after =>
      obtain ⟨-, -, -, hy⟩ := exists_append_of_closing? hafter.symm
      exact .inr ⟨y, after, rfl, hy⟩

/-- A directive and the span that it recurses into cut the pattern between lexemes. -/
theorem exists_parts {p : Text} {d : Directive} {span : Span} (hd : d ∈ directives p)
    (hspan : d.recursed = some span) :
    ∃ before left x right after, Parts p d span before left x right after := by
  obtain ⟨ys, x, zs, hsplit, hx⟩ := exists_append_of_mem_directivesFrom hd
  obtain ⟨hrecursion, hdspan, hcaptures, htarget⟩ := Directive.of_ofLexeme? hx
  rw [OpenGroups.captures_foldl_after, OpenGroups.empty, Nat.zero_add] at hcaptures
  rcases htarget with ⟨htarget, hrecursed⟩ | ⟨reference, depth, htoken, htarget, hrecursed⟩
  · obtain rfl : (⟨0, p.utf8Length⟩ : Span) = span := Option.some.inj (hrecursed.symm.trans hspan)
    obtain ⟨left, right, hparts⟩ :=
      exists_parts_wholePattern hsplit hrecursion hdspan htarget hcaptures
    exact ⟨_, _, _, _, _, hparts⟩
  · obtain ⟨group, hfind, rfl⟩ := Option.map_eq_some_iff.1 (hrecursed.symm.trans hspan)
    obtain ⟨i, hi⟩ := List.mem_iff_getElem?.1 (List.mem_of_find?_eq_some hfind)
    have hscope : d.target.scope = .subpattern := by rw [htarget]; rfl
    obtain ⟨before, left, right, after, hparts⟩ := exists_parts_group hsplit htoken hdspan
      hcaptures hscope (openedBy_of_getElem? ys hi)
    exact ⟨_, _, _, _, _, hparts⟩

end RegexUnroll
