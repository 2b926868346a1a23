import Mathlib.Data.List.Nodup
import RegexUnroll.Proofs.Anatomy

/-!
# Matching the delimiters of groups

`Balanced` says of tokens that every group opened among them is closed among them, and nothing else
is. With it the matching of delimiters is described without a stack: a closing delimiter belongs to
the opening that balanced tokens keep it apart from (`Closes`), and a group is open at a place if
its opening stands before it and its closing delimiter does not (`OpenAt`).

The two ways of tracking groups both agree with that. The search for a closing delimiter passes over
balanced lexemes and finds the delimiter behind them (`closing?_zero_eq_some_iff`, `closes_iff`).
The stack is the same behind balanced lexemes (`OpenGroups.stack_of_balanced`) and keeps a group as long
as the search finds nothing (`OpenGroups.stack_of_closing?_eq_none`), so it has exactly the groups
that are open (`mem_stackAfter_iff`), those opened later nearer to the top (`pairwise_stack`).
-/

namespace RegexUnroll

/-! ## Balanced tokens -/

/-- Tokens among which every opening of a group has its closing delimiter, and the other way round.
-/
inductive Balanced : List Token → Prop where
  /-- No tokens are balanced. -/
  | nil : Balanced []
  /-- A token that neither opens nor closes a group keeps tokens balanced. -/
  | cons {t : Token} {ts : List Token} (hopen : ¬t.isGroupOpen) (hclose : t ≠ .groupClose)
      (hts : Balanced ts) : Balanced (t :: ts)
  /-- A group around balanced tokens, with balanced tokens behind it, is balanced. -/
  | group {o : Token} {ts us : List Token} (hopen : o.isGroupOpen) (hts : Balanced ts)
      (hus : Balanced us) : Balanced (o :: (ts ++ .groupClose :: us))

/-- The search for a closing delimiter passes over balanced lexemes. -/
theorem closing?_append_of_balanced {ms : List Lexeme} (h : Balanced (ms.map Lexeme.token))
    (i : Nat) (rest : List Lexeme) : closing? i (ms ++ rest) = closing? i rest := by
  generalize hts : ms.map Lexeme.token = ts at h
  induction h generalizing ms i rest with
  | nil => rw [List.map_eq_nil_iff.1 hts, List.nil_append]
  | cons hopen hclose _ ih =>
    obtain ⟨x, ms, rfl, rfl, hms⟩ := List.map_eq_cons_iff.1 hts
    rw [List.cons_append, closing?_cons_of_not hopen hclose, ih i rest hms]
  | group hopen _ _ iht ihu =>
    -- The group is entered at its opening and left at its closing delimiter.
    obtain ⟨o, inner, rfl, rfl, hinner⟩ := List.map_eq_cons_iff.1 hts
    obtain ⟨ms, back, rfl, hms, hback⟩ := List.map_eq_append_iff.1 hinner
    obtain ⟨c, ns, rfl, hc, hns⟩ := List.map_eq_cons_iff.1 hback
    rw [List.cons_append, closing?_cons_of_isGroupOpen hopen, List.append_assoc, iht _ _ hms,
      List.cons_append, closing?_succ_cons_of_groupClose hc, ihu i rest hns]

/-- Where a search finds a closing delimiter, the first one that closes none of the lexemes before
it has balanced lexemes in front of it. -/
theorem exists_balanced_of_closing? {i : Nat} {xs : List Lexeme} (h : closing? i xs ≠ none) :
    ∃ ms c ns, xs = ms ++ c :: ns ∧ Balanced (ms.map Lexeme.token) ∧ c.token = .groupClose := by
  -- Behind a group that is passed over the lexemes are fewer, but not those of a tail.
  induction hn : xs.length using Nat.strongRecOn generalizing i xs with
  | _ n ih =>
    match xs with
    | [] => exact absurd rfl h
    | x :: xs =>
      rw [List.length_cons] at hn
      by_cases hopen : x.token.isGroupOpen
      · rw [closing?_cons_of_isGroupOpen hopen] at h
        obtain ⟨ms, c, ns, rfl, hms, hc⟩ := ih xs.length (by omega) h rfl
        rw [closing?_append_of_balanced hms, closing?_succ_cons_of_groupClose hc] at h
        rw [List.length_append, List.length_cons] at hn
        obtain ⟨ms', c', ns', rfl, hms', hc'⟩ := ih ns.length (by omega) h rfl
        refine ⟨x :: (ms ++ c :: ms'), c', ns', by simp, ?_, hc'⟩
        rw [List.map_cons, List.map_append, List.map_cons, hc]
        exact .group hopen hms hms'
      · by_cases hclose : x.token = .groupClose
        · exact ⟨[], x, xs, rfl, .nil, hclose⟩
        · rw [closing?_cons_of_not hopen hclose] at h
          obtain ⟨ms, c, ns, rfl, hms, hc⟩ := ih xs.length (by omega) h rfl
          exact ⟨x :: ms, c, ns, rfl, .cons hopen hclose hms, hc⟩

/-- The search for the closing delimiter of a group finds the first one behind balanced lexemes. -/
theorem closing?_zero_eq_some_iff {xs : List Lexeme} {c : Lexeme} :
    closing? 0 xs = some c ↔
      ∃ ms ns, xs = ms ++ c :: ns ∧ Balanced (ms.map Lexeme.token) ∧ c.token = .groupClose := by
  have hfound : ∀ {ms ns : List Lexeme} {c : Lexeme}, Balanced (ms.map Lexeme.token) →
      c.token = .groupClose → closing? 0 (ms ++ c :: ns) = some c := by
    intro ms ns c hms hc
    have hopen : ¬c.token.isGroupOpen := by simp [hc, Token.isGroupOpen]
    rw [closing?_append_of_balanced hms, closing?, if_neg hopen, if_pos hc]
  constructor
  · intro h
    obtain ⟨ms, c', ns, rfl, hms, hc'⟩ := exists_balanced_of_closing? (h ▸ Option.some_ne_none c)
    obtain rfl : c' = c := Option.some.inj ((hfound hms hc').symm.trans h)
    exact ⟨ms, ns, rfl, hms, hc'⟩
  · rintro ⟨ms, ns, rfl, hms, hc⟩
    exact hfound hms hc

/-- A delimiter that is found among lexemes is found among more of them. -/
theorem closing?_append_of_eq_some {xs : List Lexeme} {c : Lexeme} (h : closing? 0 xs = some c)
    (rest : List Lexeme) : closing? 0 (xs ++ rest) = some c := by
  obtain ⟨ms, ns, rfl, hms, hc⟩ := closing?_zero_eq_some_iff.1 h
  exact closing?_zero_eq_some_iff.2 ⟨ms, ns ++ rest, by simp, hms, hc⟩

/-- A delimiter that is found only among more lexemes is one of those behind, and what stands in
front of it is balanced. -/
theorem exists_append_of_closing?_append {xs rest : List Lexeme} {c : Lexeme}
    (h : closing? 0 xs = none) (hc : closing? 0 (xs ++ rest) = some c) :
    ∃ ms ns, rest = ms ++ c :: ns ∧ Balanced ((xs ++ ms).map Lexeme.token) ∧
      c.token = .groupClose := by
  obtain ⟨ms, ns, hsplit, hms, hclose⟩ := closing?_zero_eq_some_iff.1 hc
  rcases List.append_eq_append_iff.1 hsplit with ⟨as, rfl, rfl⟩ | ⟨as, rfl, has⟩
  · exact ⟨as, ns, rfl, hms, hclose⟩
  · rcases List.cons_eq_append_iff.1 has with ⟨rfl, rfl⟩ | ⟨bs, rfl, -⟩
    · exact ⟨[], ns, rfl, by simpa using hms, hclose⟩
    · have hfound := closing?_zero_eq_some_iff.2 ⟨ms, bs, rfl, hms, hclose⟩
      exact absurd (h.symm.trans hfound) (by simp)

/-! ## The stack of open groups -/

/-- The group that is opened by the lexeme `o` behind the lexemes `xs`. -/
def OpenGroup.opened (xs : List Lexeme) (o : Lexeme) : OpenGroup where
  label :=
    if o.token.isCaptureOpen then
      some ⟨(xs.countP fun x => x.token.isCaptureOpen) + 1, o.token.openedName?⟩
    else none
  contentStart := o.span.stop

namespace OpenGroups

/-- One more lexeme either closes a group or leaves it on the stack, with as many groups above it as
the search for its closing delimiter has to close first. -/
theorem stack_after_append_cons {groups : OpenGroups} {above below : List OpenGroup}
    {g : OpenGroup} (h : groups.stack = above ++ g :: below) (x : Lexeme) :
    above = [] ∧ x.token = .groupClose ∨
      ∃ above', (groups.after x).stack = above' ++ g :: below ∧
        ∀ xs, closing? above.length (x :: xs) = closing? above'.length xs := by
  by_cases hopen : x.token.isGroupOpen
  · obtain ⟨label, hstack⟩ := stack_after_of_isGroupOpen hopen groups
    refine .inr ⟨⟨label, x.span.stop⟩ :: above, by rw [hstack, h, List.cons_append], fun xs => ?_⟩
    rw [closing?_cons_of_isGroupOpen hopen, List.length_cons]
  · by_cases hclose : x.token = .groupClose
    · cases above with
      | nil => exact .inl ⟨rfl, hclose⟩
      | cons a above =>
        refine .inr ⟨above, ?_, fun xs => ?_⟩
        · rw [stack_after_of_groupClose hclose, h, List.cons_append, List.tail_cons]
        · rw [List.length_cons, closing?_succ_cons_of_groupClose hclose]
    · refine .inr ⟨above, by rw [stack_after_of_not hopen hclose, h], fun xs => ?_⟩
      rw [closing?_cons_of_not hopen hclose]

/-- The stack keeps a group where the search finds no delimiter that closes it. -/
theorem stack_of_closing?_eq_none {groups : OpenGroups} {above below : List OpenGroup}
    {g : OpenGroup} {xs : List Lexeme} (h : groups.stack = above ++ g :: below)
    (hnone : closing? above.length xs = none) :
    ∃ above', (xs.foldl after groups).stack = above' ++ g :: below := by
  induction xs generalizing groups above with
  | nil => exact ⟨above, h⟩
  | cons x xs ih =>
    rcases stack_after_append_cons h x with ⟨rfl, hclose⟩ | ⟨above', hstack, hsearch⟩
    · -- The lexeme would close the group.
      have hfound : closing? 0 (x :: xs) = some x :=
        closing?_zero_eq_some_iff.2 ⟨[], xs, rfl, .nil, hclose⟩
      exact absurd (hfound.symm.trans hnone) (by simp)
    · rw [hsearch] at hnone
      exact ih hstack hnone

/-- Balanced lexemes leave the stack as it is. -/
theorem stack_of_balanced {ms : List Lexeme} (h : Balanced (ms.map Lexeme.token))
    (groups : OpenGroups) : (ms.foldl after groups).stack = groups.stack := by
  generalize hts : ms.map Lexeme.token = ts at h
  induction h generalizing ms groups with
  | nil => rw [List.map_eq_nil_iff.1 hts, List.foldl_nil]
  | cons hopen hclose _ ih =>
    obtain ⟨x, ms, rfl, rfl, hms⟩ := List.map_eq_cons_iff.1 hts
    rw [List.foldl_cons, ih _ hms, stack_after_of_not hopen hclose]
  | group hopen _ _ iht ihu =>
    obtain ⟨o, inner, rfl, rfl, hinner⟩ := List.map_eq_cons_iff.1 hts
    obtain ⟨ms, back, rfl, hms, hback⟩ := List.map_eq_append_iff.1 hinner
    obtain ⟨c, ns, rfl, hc, hns⟩ := List.map_eq_cons_iff.1 hback
    obtain ⟨label, hstack⟩ := stack_after_of_isGroupOpen hopen groups
    rw [List.foldl_cons, List.foldl_append, List.foldl_cons, ihu _ hns,
      stack_after_of_groupClose hc, iht _ hms, hstack, List.tail_cons]

/-- An opening puts its group on the stack, with the next number if it opens a capture. -/
theorem stack_after_eq {o : Lexeme} (h : o.token.isGroupOpen) (groups : OpenGroups) :
    (groups.after o).stack =
      ⟨if o.token.isCaptureOpen then some ⟨groups.captures + 1, o.token.openedName?⟩ else none,
        o.span.stop⟩ :: groups.stack := by
  unfold after
  split <;> simp_all [openCapture, Token.isCaptureOpen, Token.openedName?, Token.isGroupOpen]

end OpenGroups

/-- The groups that are open behind lexemes, the innermost first. -/
def stackAfter (xs : List Lexeme) : List OpenGroup := (xs.foldl OpenGroups.after .empty).stack

/-- Behind an opening the group that it opens is the innermost one. -/
theorem stackAfter_concat {o : Lexeme} (h : o.token.isGroupOpen) (xs : List Lexeme) :
    stackAfter (xs ++ [o]) = OpenGroup.opened xs o :: stackAfter xs := by
  have hcaptures := OpenGroups.captures_foldl_after xs .empty
  rw [OpenGroups.empty, Nat.zero_add] at hcaptures
  rw [stackAfter, List.foldl_append, List.foldl_cons, List.foldl_nil,
    OpenGroups.stack_after_eq h, OpenGroups.empty, hcaptures]
  rfl

/-- A group that no delimiter closes behind its opening is on the stack. -/
theorem opened_mem_stack {xs bs : List Lexeme} {o : Lexeme} (ho : o.token.isGroupOpen)
    (hopen : closing? 0 bs = none) : OpenGroup.opened xs o ∈ stackAfter (xs ++ o :: bs) := by
  have htop : (List.foldl OpenGroups.after .empty (xs ++ [o])).stack =
      [] ++ OpenGroup.opened xs o :: stackAfter xs := stackAfter_concat ho xs
  obtain ⟨above, hstack⟩ := OpenGroups.stack_of_closing?_eq_none htop hopen
  rw [stackAfter, ← List.singleton_append, ← List.append_assoc, List.foldl_append, hstack]
  exact List.mem_append_right _ List.mem_cons_self

/-- Where no element occurs twice, an element cuts a list in one way. -/
theorem append_cons_inj_of_nodup {α : Type} {as bs as' bs' : List α} {x : α}
    (hnodup : (as ++ x :: bs).Nodup) (h : as ++ x :: bs = as' ++ x :: bs') :
    as = as' ∧ bs = bs' := by
  rw [List.nodup_middle, List.nodup_cons, List.mem_append, not_or] at hnodup
  obtain ⟨has, -, hbs⟩ := (List.append_cons_inj_of_notMem hnodup.1.1 hnodup.1.2).1 h
  exact ⟨has, hbs⟩

/-- Lexemes each of which stops before the later ones do. -/
def Ascending (xs : List Lexeme) : Prop := xs.Pairwise fun x y => x.span.stop < y.span.stop

/-- Each group on the stack has been opened by one of the lexemes, behind which nothing closes it.
-/
theorem exists_opening_of_mem_stack {xs : List Lexeme} {g : OpenGroup} (h : g ∈ stackAfter xs) :
    ∃ as o bs, xs = as ++ o :: bs ∧ o.token.isGroupOpen ∧ g.contentStart = o.span.stop ∧
      closing? 0 bs = none := by
  obtain ⟨i, hi⟩ := List.mem_iff_getElem?.1 h
  obtain ⟨as, o, bs, rfl, ho, hstart, hsearch⟩ := openedBy_of_getElem? xs hi
  refine ⟨as, o, bs, rfl, ho, hstart, ?_⟩
  have hnil := hsearch []
  rwa [List.append_nil, closing?] at hnil

/-- The groups opened later are nearer to the top of the stack. -/
theorem pairwise_stack {xs : List Lexeme} (h : Ascending xs) :
    (stackAfter xs).Pairwise fun a b => b.contentStart < a.contentStart := by
  induction xs using List.reverseRecOn with
  | nil => exact .nil
  | append_singleton xs x ih =>
    obtain ⟨hxs, -, hlast⟩ := List.pairwise_append.1 h
    have hstack := ih hxs
    by_cases hopen : x.token.isGroupOpen
    · rw [stackAfter_concat hopen]
      refine List.pairwise_cons.2 ⟨fun g hg => ?_, hstack⟩
      obtain ⟨as, o, bs, rfl, -, hstart, -⟩ := exists_opening_of_mem_stack hg
      rw [hstart]
      exact hlast o (by simp) x (by simp)
    · rw [stackAfter, List.foldl_append, List.foldl_cons, List.foldl_nil]
      by_cases hclose : x.token = .groupClose
      · rw [OpenGroups.stack_after_of_groupClose hclose]
        exact hstack.tail
      · rw [OpenGroups.stack_after_of_not hopen hclose]
        exact hstack

/-- The stack has exactly the groups that have been opened and that nothing has closed since. -/
theorem mem_stack_iff {xs : List Lexeme} (h : Ascending xs) {g : OpenGroup} :
    g ∈ stackAfter xs ↔ ∃ as o bs, xs = as ++ o :: bs ∧ o.token.isGroupOpen ∧
      closing? 0 bs = none ∧ g = OpenGroup.opened as o := by
  constructor
  · intro hg
    obtain ⟨as, o, bs, rfl, ho, hstart, hopen⟩ := exists_opening_of_mem_stack hg
    refine ⟨as, o, bs, rfl, ho, hopen, ?_⟩
    -- The group of that opening is on the stack too, and begins at the same place.
    have hdistinct : ((stackAfter (as ++ o :: bs)).map OpenGroup.contentStart).Nodup :=
      List.pairwise_map.2 ((pairwise_stack h).imp Nat.ne_of_gt)
    exact List.inj_on_of_nodup_map hdistinct hg (opened_mem_stack ho hopen) hstart
  · rintro ⟨as, o, bs, rfl, ho, hopen, rfl⟩
    exact opened_mem_stack ho hopen

/-! ## The groups of a pattern -/

/-- Whether `c` closes the group of a pattern that `o` opens: what stands between them is balanced.
-/
def Closes (p : Text) (o c : Lexeme) : Prop :=
  o.token.isGroupOpen ∧ c.token = .groupClose ∧
    ∃ as ms bs, topLevel p = as ++ o :: (ms ++ c :: bs) ∧ Balanced (ms.map Lexeme.token)

/-- Whether the group of a pattern that `o` opens is open at `x`. -/
structure OpenAt (p : Text) (o x : Lexeme) : Prop where
  /-- The opening is one of the pattern. -/
  mem_topLevel : o ∈ topLevel p
  /-- It opens a group. -/
  isGroupOpen : o.token.isGroupOpen
  /-- It stands before the place. -/
  start_lt : o.span.start < x.span.start
  /-- No delimiter before the place closes the group. -/
  not_closed : ∀ c, Closes p o c → ¬c.span.start < x.span.start

/-- The lexemes of a pattern stand one behind the other. -/
theorem pairwise_lexemes (p : Text) :
    (lexemes p).Pairwise fun x y =>
      x.span.start < x.span.stop ∧ x.span.stop ≤ y.span.start ∧ y.span.start < y.span.stop := by
  rw [List.pairwise_iff_getElem]
  intro i j hi hj hij
  -- The cut before the later lexeme has the earlier one in front of it.
  have hsplit : lexemes p = (lexemes p).take j ++ (lexemes p).drop j :=
    (List.take_append_drop j _).symm
  obtain ⟨hfront, hback⟩ := span_of_mem_append hsplit
  have hx := hfront (lexemes p)[i] (List.mem_take_iff_getElem.2 ⟨i, by omega, rfl⟩)
  have hy := hback (lexemes p)[j] (List.mem_drop_iff_getElem.2 ⟨0, by omega, rfl⟩)
  exact ⟨hx.1, Nat.le_trans hx.2 hy.2, hy.1⟩

/-- The top-level lexemes of a pattern stand one behind the other. -/
theorem pairwise_topLevel (p : Text) :
    (topLevel p).Pairwise fun x y =>
      x.span.start < x.span.stop ∧ x.span.stop ≤ y.span.start ∧ y.span.start < y.span.stop :=
  (pairwise_lexemes p).filter _

/-- The top-level lexemes of a pattern stop in their order. -/
theorem ascending_topLevel (p : Text) : Ascending (topLevel p) :=
  (pairwise_topLevel p).imp fun h => Nat.lt_of_le_of_lt h.2.1 h.2.2

/-- No lexeme occurs twice. -/
theorem nodup_topLevel (p : Text) : (topLevel p).Nodup := by
  refine (ascending_topLevel p).imp ?_
  rintro x y hlt rfl
  exact Nat.lt_irrefl _ hlt

/-- A top-level lexeme cuts a pattern in one way. -/
theorem eq_of_topLevel_eq_append_cons {p : Text} {as bs as' bs' : List Lexeme} {x : Lexeme}
    (h : topLevel p = as ++ x :: bs) (h' : topLevel p = as' ++ x :: bs') : as = as' ∧ bs = bs' :=
  append_cons_inj_of_nodup (h ▸ nodup_topLevel p) (h.symm.trans h')

/-- The lexemes before a place of a pattern are those that start before it. -/
theorem mem_left_iff {p : Text} {as bs : List Lexeme} {x y : Lexeme}
    (h : topLevel p = as ++ x :: bs) (hy : y ∈ topLevel p) :
    y ∈ as ↔ y.span.start < x.span.start := by
  have hpairwise := pairwise_topLevel p
  rw [h, List.pairwise_append] at hpairwise
  obtain ⟨-, hright, hacross⟩ := hpairwise
  constructor
  · intro hmem
    have hxy := hacross y hmem x List.mem_cons_self
    omega
  · intro hlt
    rw [h, List.mem_append, List.mem_cons] at hy
    rcases hy with hmem | rfl | hmem
    · exact hmem
    · omega
    · have hxy := (List.pairwise_cons.1 hright).1 y hmem
      omega

/-- The delimiter that closes a group is the one that the search finds behind the opening. -/
theorem closes_iff {p : Text} {as bs : List Lexeme} {o c : Lexeme}
    (h : topLevel p = as ++ o :: bs) (ho : o.token.isGroupOpen) :
    Closes p o c ↔ closing? 0 bs = some c := by
  rw [closing?_zero_eq_some_iff]
  constructor
  · rintro ⟨-, hc, as', ms, ns, hsplit, hms⟩
    obtain ⟨-, rfl⟩ := eq_of_topLevel_eq_append_cons h hsplit
    exact ⟨ms, ns, rfl, hms, hc⟩
  · rintro ⟨ms, ns, rfl, hms, hc⟩
    exact ⟨ho, hc, as, ms, ns, h, hms⟩

/-- A group is open at a place when it has been opened before and nothing before the place closes
it. -/
theorem openAt_iff {p : Text} {ys zs : List Lexeme} {o x : Lexeme}
    (h : topLevel p = ys ++ x :: zs) :
    OpenAt p o x ↔
      ∃ as bs, ys = as ++ o :: bs ∧ o.token.isGroupOpen ∧ closing? 0 bs = none := by
  constructor
  · rintro ⟨hmem, ho, hlt, hnot⟩
    obtain ⟨as, bs, rfl⟩ := List.append_of_mem ((mem_left_iff h hmem).2 hlt)
    refine ⟨as, bs, rfl, ho, Option.eq_none_iff_forall_ne_some.2 fun c hc => ?_⟩
    have hsplit : topLevel p = as ++ o :: (bs ++ x :: zs) := by rw [h]; simp
    obtain ⟨ms, ns, rfl, -⟩ := closing?_zero_eq_some_iff.1 hc
    have hcloses := (closes_iff hsplit ho).2 (closing?_append_of_eq_some hc _)
    have hcmem : c ∈ topLevel p := by rw [h]; simp
    exact hnot c hcloses ((mem_left_iff h hcmem).1 (by simp))
  · rintro ⟨as, bs, rfl, ho, hopen⟩
    have hmem : o ∈ topLevel p := by rw [h]; simp
    refine ⟨hmem, ho, (mem_left_iff h hmem).1 (by simp), fun c hc hlt => ?_⟩
    have hsplit : topLevel p = as ++ o :: (bs ++ x :: zs) := by rw [h]; simp
    -- The delimiter is found at the place or behind it, so it does not stand before it as well.
    obtain ⟨ms, ns, hms, -⟩ :=
      exists_append_of_closing?_append hopen ((closes_iff hsplit ho).1 hc)
    have hright : c ∈ x :: zs := by rw [hms]; simp
    have hcmem : c ∈ topLevel p := by rw [h]; exact List.mem_append_right _ hright
    have hleft := (mem_left_iff h hcmem).2 hlt
    have hnodup := nodup_topLevel p
    rw [h] at hnodup
    exact List.disjoint_of_nodup_append hnodup hleft hright

/-- At a place of a pattern the stack has exactly the groups that are open there. -/
theorem mem_stackAfter_iff {p : Text} {ys zs : List Lexeme} {x : Lexeme}
    (h : topLevel p = ys ++ x :: zs) {g : OpenGroup} :
    g ∈ stackAfter ys ↔
      ∃ as o bs, topLevel p = as ++ o :: bs ∧ OpenAt p o x ∧ g = OpenGroup.opened as o := by
  have hys : Ascending ys := by
    have hascending := ascending_topLevel p
    rw [h] at hascending
    exact (List.pairwise_append.1 hascending).1
  rw [mem_stack_iff hys]
  constructor
  · rintro ⟨as, o, bs, rfl, ho, hopen, rfl⟩
    refine ⟨as, o, bs ++ x :: zs, by rw [h]; simp, ?_, rfl⟩
    exact (openAt_iff h).2 ⟨as, bs, rfl, ho, hopen⟩
  · rintro ⟨as, o, bs, hcut, hopenAt, rfl⟩
    obtain ⟨as', bs', rfl, ho, hopen⟩ := (openAt_iff h).1 hopenAt
    have hcut' : topLevel p = as' ++ o :: (bs' ++ x :: zs) := by rw [h]; simp
    obtain ⟨rfl, -⟩ := eq_of_topLevel_eq_append_cons hcut hcut'
    exact ⟨as, o, bs', rfl, ho, hopen, rfl⟩

end RegexUnroll
