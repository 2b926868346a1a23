import RegexUnroll.Proofs.Matching
import RegexUnroll.Proofs.Unrolling

/-!
# Where the recursed text of a directive ends

A directive for a group is attributed to the group by the stack of open groups, which is kept from
the front of the pattern on. The end of the recursed text comes from elsewhere: the pattern is read
again from behind the opening of the group, up to the delimiter that closes the group there
(`stop_contentSpan`). Both are the same delimiter (`pops_iff`): the stack takes the group off where
the search ends, and keeps it where the search finds nothing.

So the directive lies within its own recursed text, and the cuts at both are cuts between lexemes
of the pattern (`Parts.cuts`).
-/

namespace RegexUnroll

/-! ## The delimiter at which the stack takes a group off -/

/-- Whether the stack of open groups, going on over `rest` behind the lexemes `passed`, takes the
group `g` off at the lexeme `c`. -/
def Pops (passed rest : List Lexeme) (g : OpenGroup) (c : Lexeme) : Prop :=
  ∃ ms ns, rest = ms ++ c :: ns ∧ stackAfter (passed ++ ms) = g :: stackAfter (passed ++ ms ++ [c])

/-- The first of ascending lexemes ascend. -/
theorem Ascending.left_of_append {xs ys : List Lexeme} (h : Ascending (xs ++ ys)) :
    Ascending xs :=
  (List.pairwise_append.1 h).1

/-- No group is on the stack twice. -/
theorem nodup_stackAfter {xs : List Lexeme} (h : Ascending xs) : (stackAfter xs).Nodup := by
  refine (pairwise_stack h).imp ?_
  rintro g _ hlt rfl
  exact Nat.lt_irrefl _ hlt

/-- A group is on the stack behind its opening until a delimiter closes it. -/
theorem opened_mem_stack_iff {as bs : List Lexeme} {o : Lexeme} (h : Ascending (as ++ o :: bs))
    (ho : o.token.isGroupOpen) :
    OpenGroup.opened as o ∈ stackAfter (as ++ o :: bs) ↔ closing? 0 bs = none := by
  refine ⟨fun hmem => ?_, opened_mem_stack ho⟩
  obtain ⟨as', o', bs', hsplit, -, hopen, hg⟩ := (mem_stack_iff h).1 hmem
  -- The lexeme that opened it stops where `o` does, so it is `o`.
  have hstop : o.span.stop = o'.span.stop := congrArg OpenGroup.contentStart hg
  have hdistinct : ((as ++ o :: bs).map fun x => x.span.stop).Nodup :=
    List.pairwise_map.2 (h.imp Nat.ne_of_lt)
  obtain rfl : o = o' := List.inj_on_of_nodup_map hdistinct (by simp)
    (by rw [hsplit]; simp) hstop
  obtain ⟨-, rfl⟩ := append_cons_inj_of_nodup hdistinct.of_map hsplit
  exact hopen

/-- Where the stack takes a group off, the search behind its opening ends. -/
theorem closing?_of_pops {as bs rest : List Lexeme} {o c : Lexeme}
    (h : Ascending (as ++ o :: (bs ++ rest))) (ho : o.token.isGroupOpen)
    (hpops : Pops (as ++ o :: bs) rest (OpenGroup.opened as o) c) :
    closing? 0 (bs ++ rest) = some c := by
  obtain ⟨ms, ns, rfl, hpop⟩ := hpops
  have hall : Ascending (as ++ o :: (bs ++ ms ++ [c]) ++ ns) := by simpa using h
  have hupTo := hall.left_of_append
  have hfront : Ascending (as ++ o :: (bs ++ ms)) := by
    rw [← List.cons_append, ← List.append_assoc] at hupTo
    exact hupTo.left_of_append
  have hpop' : stackAfter (as ++ o :: (bs ++ ms)) =
      OpenGroup.opened as o :: stackAfter (as ++ o :: (bs ++ ms ++ [c])) := by simpa using hpop
  -- The group is on the stack in front of `c` and not behind it, so a delimiter closes it there.
  have hmem : OpenGroup.opened as o ∈ stackAfter (as ++ o :: (bs ++ ms)) := by
    rw [hpop']
    exact List.mem_cons_self
  have hopen := (opened_mem_stack_iff hfront ho).1 hmem
  have hnodup := nodup_stackAfter hfront
  rw [hpop', List.nodup_cons, opened_mem_stack_iff hupTo ho] at hnodup
  obtain ⟨c', hfound⟩ := Option.ne_none_iff_exists'.1 hnodup.1
  obtain ⟨ms', ns', hsplit, -⟩ := exists_append_of_closing?_append hopen hfound
  obtain rfl : c = c' := by
    cases ms' with
    | nil => exact (List.cons.inj hsplit).1
    | cons _ _ => simp at hsplit
  simpa using closing?_append_of_eq_some hfound ns

/-- Where the search behind the opening of a group ends, the stack takes the group off. -/
theorem pops_of_closing? {bs rest : List Lexeme} {o c : Lexeme} (as : List Lexeme)
    (ho : o.token.isGroupOpen) (hopen : closing? 0 bs = none)
    (hfound : closing? 0 (bs ++ rest) = some c) :
    Pops (as ++ o :: bs) rest (OpenGroup.opened as o) c := by
  -- What stands between the opening and the delimiter is balanced.
  obtain ⟨ms, ns, rfl, hms, hclose⟩ := exists_append_of_closing?_append hopen hfound
  have hfront : as ++ o :: bs ++ ms = (as ++ [o]) ++ (bs ++ ms) := by simp
  have hstack : stackAfter (as ++ o :: bs ++ ms) = OpenGroup.opened as o :: stackAfter as := by
    rw [hfront, stackAfter, List.foldl_append, OpenGroups.stack_of_balanced hms]
    exact stackAfter_concat ho as
  have hbehind : stackAfter (as ++ o :: bs ++ ms ++ [c]) = stackAfter as := by
    rw [stackAfter] at hstack
    rw [stackAfter, List.foldl_append, List.foldl_cons, List.foldl_nil,
      OpenGroups.stack_after_of_groupClose hclose, hstack, List.tail_cons]
  exact ⟨ms, ns, rfl, by rw [hbehind, hstack]⟩

/-- The stack takes a group off at the delimiter that the search behind its opening finds. -/
theorem pops_iff {as bs rest : List Lexeme} {o c : Lexeme}
    (h : Ascending (as ++ o :: (bs ++ rest))) (ho : o.token.isGroupOpen)
    (hopen : closing? 0 bs = none) :
    Pops (as ++ o :: bs) rest (OpenGroup.opened as o) c ↔ closing? 0 (bs ++ rest) = some c :=
  ⟨closing?_of_pops h ho, pops_of_closing? as ho hopen⟩

/-! ## The end of the recursed text -/

/-- The contents of a group stop where the delimiter starts that closes it, and at the end of the
pattern if nothing closes it. -/
theorem stop_contentSpan {p : Text} {as bs : List Lexeme} {o : Lexeme}
    (h : topLevel p = as ++ o :: bs) (ho : o.token.isGroupOpen) :
    (contentSpan p o.span.stop).stop =
      (closing? 0 bs).elim p.utf8Length fun c => c.span.start := by
  obtain ⟨front, back, hsplit, htop, -, hback⟩ := exists_append_of_filter_eq h
  have hdepth : classDepthAfter 0 ((front ++ [o]).map Lexeme.token) = 0 := by
    rw [List.map_append, classDepthAfter_append,
      ((isTopLevel_iff_of_lexemes_append hsplit).1 htop).1]
    exact Token.classDepthAfter_of_isGroupOpen ho 0
  have hall : lexemes p = front ++ o :: ([] ++ back) := hsplit
  obtain ⟨right, after, rfl, hspan, hhead⟩ := exists_contentSpan_eq hall hdepth rfl
  rw [hback] at hhead
  rw [← hhead, hspan]
  cases after with
  | nil =>
    have htext : p = spell ((front ++ [o] ++ ([] ++ right)).map Lexeme.token) := by
      rw [List.append_assoc, List.singleton_append, List.nil_append, ← List.append_nil right,
        ← hsplit]
      exact (spell_tokensFrom 0 p).symm
    exact congrArg Text.utf8Length htext.symm
  | cons y after =>
    have hcut : lexemes p = (front ++ [o] ++ ([] ++ right)) ++ y :: after := by
      rw [hsplit]
      simp
    rw [List.head?_cons, Option.elim_some, span_eq_of_lexemes_append hcut]

/-- The contents of a group stop where the delimiter starts that closes it. -/
theorem contentSpan_of_closes {p : Text} {o c : Lexeme} (ho : o ∈ topLevel p)
    (h : Closes p o c) : contentSpan p o.span.stop = ⟨o.span.stop, c.span.start⟩ := by
  obtain ⟨as, bs, hcut⟩ := List.append_of_mem ho
  have hstop := stop_contentSpan hcut h.1
  rw [(closes_iff hcut h.1).1 h] at hstop
  exact congrArg (Span.mk o.span.stop) hstop

/-- The contents of a group that nothing closes go on to the end of the pattern. -/
theorem contentSpan_of_not_closes {p : Text} {o : Lexeme} (ho : o ∈ topLevel p)
    (hopen : o.token.isGroupOpen) (h : ∀ c, ¬Closes p o c) :
    contentSpan p o.span.stop = ⟨o.span.stop, p.utf8Length⟩ := by
  obtain ⟨as, bs, hcut⟩ := List.append_of_mem ho
  have hstop := stop_contentSpan hcut hopen
  have hnone : closing? 0 bs = none :=
    Option.eq_none_iff_forall_ne_some.2 fun c hc => h c ((closes_iff hcut hopen).2 hc)
  rw [hnone] at hstop
  exact congrArg (Span.mk o.span.stop) hstop

/-! ## The cuts at a directive -/

/-- Whether an offset of a pattern is a boundary of its lexemes, where `depth` character classes are
open. Both ends of the pattern count. -/
def Boundary (p : Text) (offset depth : Nat) : Prop :=
  ∃ xs ys, lexemes p = xs ++ ys ∧ offset = Text.utf8Length (spell (xs.map Lexeme.token)) ∧
    classDepthAfter 0 (xs.map Lexeme.token) = depth

/-- Whether a directive stands in the span that it recurses into, and the pattern can be cut at both
of them. -/
structure Cuts (p : Text) (d : Directive) (span : Span) : Prop where
  /-- The directive starts in the span. -/
  start_le : span.start ≤ d.span.start
  /-- The directive has a text. -/
  start_lt_stop : d.span.start < d.span.stop
  /-- The directive stops in the span. -/
  stop_le : d.span.stop ≤ span.stop
  /-- The span stops in the pattern. -/
  stop_le_length : span.stop ≤ p.utf8Length
  /-- The span starts between lexemes, outside classes. -/
  boundary_start : Boundary p span.start 0
  /-- The directive starts between lexemes, outside classes. -/
  boundary_directive_start : Boundary p d.span.start 0
  /-- The directive stops between lexemes, outside classes. -/
  boundary_directive_stop : Boundary p d.span.stop 0
  /-- The span stops between lexemes. -/
  boundary_stop : ∃ depth, Boundary p span.stop depth
  /-- The text before the span ends where the span starts. -/
  length_before : ∀ depth, (Recursion.around p d span depth).before.utf8Length = span.start
  /-- The recursed text before the directive fills the span up to the directive. -/
  length_left : ∀ depth,
    (Recursion.around p d span depth).left.utf8Length = d.span.start - span.start
  /-- The recursed text behind the directive fills the span from the directive on. -/
  length_right : ∀ depth,
    (Recursion.around p d span depth).right.utf8Length = span.stop - d.span.stop
  /-- The text after the span begins where the span stops. -/
  length_after : ∀ depth,
    (Recursion.around p d span depth).after.utf8Length = p.utf8Length - span.stop
  /-- The texts around the directive make up the pattern with the text of the directive. -/
  append_eq : ∀ depth,
    (Recursion.around p d span depth).before ++ (Recursion.around p d span depth).left ++
      p.slice d.span ++ (Recursion.around p d span depth).right ++
        (Recursion.around p d span depth).after = p

namespace Parts

variable {p : Text} {d : Directive} {span : Span} {before left right after : List Lexeme}
  {x : Lexeme}

/-- The four cuts at a directive and its span are boundaries of lexemes, and up to the directive no
class is open at them. -/
theorem boundaries (h : Parts p d span before left x right after) :
    Boundary p span.start 0 ∧ Boundary p d.span.start 0 ∧ Boundary p d.span.stop 0 ∧
      ∃ depth, Boundary p span.stop depth := by
  have hleft : classDepthAfter 0 ((before ++ left).map Lexeme.token) = 0 := by
    rw [List.map_append, classDepthAfter_append, h.classDepth_before, h.classDepth_left]
  have hdirective : classDepthAfter 0 ((before ++ left ++ [x]).map Lexeme.token) = 0 := by
    rw [List.map_append, classDepthAfter_append, hleft]
    exact h.classDepth_directive
  refine ⟨⟨_, _, h.lexemes_eq, h.start_eq, h.classDepth_before⟩,
    ⟨_, _, h.lexemes_eq_directive, h.start_directive_eq, hleft⟩,
    ⟨_, right ++ after, ?_, h.stop_directive_eq, hdirective⟩, _, ⟨_, after, ?_, h.stop_eq, rfl⟩⟩
  all_goals
    rw [h.lexemes_eq]
    simp

/-- Each of the four cuts is behind the texts before it. -/
theorem offsets (h : Parts p d span before left x right after) :
    span.start = Text.utf8Length (spell (before.map Lexeme.token)) ∧
      d.span.start = span.start + Text.utf8Length (spell (left.map Lexeme.token)) ∧
      d.span.stop = d.span.start + Text.utf8Length x.token.spelling ∧
      span.stop = d.span.stop + Text.utf8Length (spell (right.map Lexeme.token)) := by
  have hstart := h.start_eq
  have hdstart := h.start_directive_eq
  have hdstop := h.stop_directive_eq
  have hstop := h.stop_eq
  simp only [List.map_append, List.map_cons, List.map_nil, spell_append, spell_cons, spell_nil,
    List.append_nil, Text.utf8Length_append] at hdstart hdstop hstop
  refine ⟨hstart, ?_, ?_, ?_⟩ <;> omega

/-- The parts of a pattern around a directive are cut out between lexemes. -/
theorem cuts (h : Parts p d span before left x right after) : Cuts p d span := by
  obtain ⟨hboundary, hboundary_left, hboundary_directive, hboundary_right⟩ := h.boundaries
  obtain ⟨hstart, hdstart, hdstop, hstop⟩ := h.offsets
  have htext := h.eq_text
  have hlength := congrArg Text.utf8Length htext
  simp only [Text.utf8Length_append] at hlength
  have hdirective : p.slice d.span = x.token.spelling := by
    rw [h.span_eq]
    exact slice_span (by rw [h.lexemes_eq_directive]; simp)
  have hpos := utf8Length_spelling_pos x.token
  refine ⟨by omega, by omega, by omega, by omega, hboundary, hboundary_left, hboundary_directive,
    hboundary_right, ?_, ?_, ?_, ?_, ?_⟩
  all_goals
    intro depth
    rw [h.around_eq]
  · exact hstart.symm
  · show Text.utf8Length (spell (left.map Lexeme.token)) = _
    omega
  · show Text.utf8Length (spell (right.map Lexeme.token)) = _
    omega
  · show Text.utf8Length (spell (after.map Lexeme.token)) = _
    omega
  · rw [hdirective]
    conv_rhs => rw [htext]
    simp only [List.append_assoc]

end Parts

/-! ## The two ways of tracking groups -/

/-- Whether a directive, at the lexeme `x` between the top-level lexemes `ys` and `zs` of a pattern,
recurses into a span that ends where the stack takes off the group `g` that the directive is
attributed to. -/
structure Tracks (p : Text) (d : Directive) (span : Span) (ys : List Lexeme) (x : Lexeme)
    (zs : List Lexeme) (g : OpenGroup) : Prop where
  /-- The lexeme cuts the pattern. -/
  topLevel_eq : topLevel p = ys ++ x :: zs
  /-- The directive stands at the lexeme. -/
  span_eq : d.span = x.span
  /-- The group is the innermost one on the stack that the directive refers to. -/
  find?_eq : ∃ target, d.target = .group target ∧
    (ys.foldl OpenGroups.after .empty).find? target = some g
  /-- The span starts where the contents of the group do. -/
  start_eq : span.start = g.contentStart
  /-- The span stops where the delimiter starts at which the stack takes the group off. -/
  stop_of_pops : ∀ c, Pops ys (x :: zs) g c → c.token = .groupClose ∧ span.stop = c.span.start
  /-- If the stack never takes the group off, the span stops at the end of the pattern. -/
  stop_of_not_pops : (∀ c, ¬Pops ys (x :: zs) g c) → span.stop = p.utf8Length

/-- The contents of a group on the stack stop where the stack takes the group off. -/
theorem tracks_contentSpan {p : Text} {d : Directive} {ys zs : List Lexeme} {x : Lexeme}
    {g : OpenGroup} {target : Text} (hsplit : topLevel p = ys ++ x :: zs) (hspan : d.span = x.span)
    (htarget : d.target = .group target)
    (hfind : (ys.foldl OpenGroups.after .empty).find? target = some g) :
    Tracks p d (contentSpan p g.contentStart) ys x zs g := by
  have hascending := ascending_topLevel p
  rw [hsplit] at hascending
  have hmem : g ∈ stackAfter ys := List.mem_of_find?_eq_some hfind
  obtain ⟨as, o, bs, rfl, ho, hopen, rfl⟩ := (mem_stack_iff hascending.left_of_append).1 hmem
  have hcut : topLevel p = as ++ o :: (bs ++ x :: zs) := by rw [hsplit]; simp
  have hpops : ∀ c, Pops (as ++ o :: bs) (x :: zs) (OpenGroup.opened as o) c ↔
      closing? 0 (bs ++ x :: zs) = some c := fun c =>
    pops_iff (by rwa [List.append_assoc] at hascending) ho hopen
  have hstop := stop_contentSpan hcut ho
  refine ⟨hsplit, hspan, ⟨target, htarget, hfind⟩, rfl, fun c hc => ?_, fun hnever => ?_⟩
  · rw [hpops] at hc
    obtain ⟨-, -, -, hclose⟩ := exists_append_of_closing? hc
    rw [hc] at hstop
    exact ⟨hclose, hstop⟩
  · have hnone : closing? 0 (bs ++ x :: zs) = none :=
      Option.eq_none_iff_forall_ne_some.2 fun c hc => hnever c ((hpops c).2 hc)
    rw [hnone] at hstop
    exact hstop

/-- The recursed text of a directive for a group ends where the stack takes the group off, and the
directive and its recursed text cut the pattern between lexemes. -/
theorem Directive.tracks_and_cuts {p : Text} {d : Directive} {span : Span} {target : Text}
    (hd : d ∈ directives p) (htarget : d.target = .group target) (hspan : d.recursed = some span) :
    (∃ ys x zs g, Tracks p d span ys x zs g) ∧ Cuts p d span := by
  obtain ⟨before, left, x, right, after, hparts⟩ := exists_parts hd hspan
  refine ⟨?_, hparts.cuts⟩
  obtain ⟨ys, y, zs, hsplit, hy⟩ := exists_append_of_mem_directivesFrom hd
  obtain ⟨-, hdspan, -, hwhole | ⟨reference, depth, -, hgroup, hrecursed⟩⟩ := of_ofLexeme? hy
  · exact absurd (htarget.symm.trans hwhole.1) (by simp)
  · obtain ⟨g, hfind, rfl⟩ := Option.map_eq_some_iff.1 (hrecursed.symm.trans hspan)
    exact ⟨ys, y, zs, g, tracks_contentSpan hsplit hdspan hgroup hfind⟩

/-- The group `a` is closed behind the group `c`, not in the class and not at the escaped
parenthesis; the first parenthesis closes nothing. -/
theorem Directive.tracks_and_cuts_of_nested_groups :
    ∃ (p : Text) (d : Directive), p = ")(?<a>x(b[)])\\g<a&R=2>(?<c>\\))y)z".toList ∧
      d ∈ directives p ∧ d.target = .group ['a'] ∧ d.recursed = some ⟨6, 31⟩ ∧
      (∃ ys x zs g, Tracks p d ⟨6, 31⟩ ys x zs g) ∧ Cuts p d ⟨6, 31⟩ := by
  let p : Text := ")(?<a>x(b[)])\\g<a&R=2>(?<c>\\))y)z".toList
  let d : Directive := ⟨.group ['a'], ['2'], ⟨13, 22⟩, 2, some ⟨6, 31⟩⟩
  have hd : d ∈ directives p := by decide +kernel
  exact ⟨p, d, rfl, hd, rfl, rfl, Directive.tracks_and_cuts hd rfl rfl⟩

end RegexUnroll
