import RegexUnroll.Proofs.Context

/-!
# Reading a part of a pattern

A part of a pattern that is cut out between two lexemes, the first cut outside classes, is read by
itself as it is read in the pattern (`map_shift_lexemes_spell`). The cut takes away what the reading
of a token looked ahead to, but what was not recognised with that text is not recognised without it
(`Token.ReadsBefore.of_append`).

So whatever is counted in such a part is what stands there in the pattern. For the captures that
means more than their number: `labelledCaptures` are the openings of a pattern with the labels under
which the pass over the pattern puts them on its stack, and those of the part are the ones of the
pattern there, with the captures before the part counted (`ReadsAlike.labelledCaptures_eq`). The
parts around a directive are of this kind, and so is the recursed text as a whole
(`slices_read_alike`).
-/

namespace RegexUnroll

/-! ## Captures with their labels -/

/-- The opening of a capturing group, with the label that the group has on the stack. -/
structure LabelledCapture where
  /-- The opening of the group. -/
  opening : Lexeme
  /-- The label of the group. -/
  label : CaptureLabel
  deriving DecidableEq, Repr

/-- The capture that is opened `n` bytes later, behind `c` more captures. -/
def LabelledCapture.shift (n c : Nat) (capture : LabelledCapture) : LabelledCapture where
  opening := capture.opening.shift n
  label := ⟨capture.label.number + c, capture.label.name⟩

/-- The label of the group that a lexeme puts on the stack, if that is a capturing group. -/
def OpenGroups.openedLabel? (groups : OpenGroups) (x : Lexeme) : Option CaptureLabel :=
  if x.token.isGroupOpen then (groups.after x).stack.head?.bind OpenGroup.label else none

/-- The captures that are opened by lexemes, where `groups` are open before the first of them. -/
def labelledFrom (groups : OpenGroups) : List Lexeme → List LabelledCapture
  | [] => []
  | x :: xs =>
    ((groups.openedLabel? x).map (LabelledCapture.mk x)).toList ++
      labelledFrom (groups.after x) xs

/-- The captures of a pattern with the labels that they get when the pattern is passed over. -/
def labelledCaptures (p : Text) : List LabelledCapture := labelledFrom .empty (topLevel p)

/-- The captures of a pattern that are opened within a span. -/
def labelledCapturesIn (p : Text) (s : Span) : List LabelledCapture :=
  (labelledCaptures p).filter fun y => s.start ≤ y.opening.span.start ∧ y.opening.span.stop ≤ s.stop

/-- A capturing group gets the next number, and its name. -/
theorem OpenGroups.openedLabel?_eq (groups : OpenGroups) (x : Lexeme) :
    groups.openedLabel? x =
      if x.token.isCaptureOpen then some ⟨groups.captures + 1, x.token.openedName?⟩ else none := by
  unfold openedLabel? after
  cases x.token <;> rfl

/-- The labels depend on how many captures have been opened, not on which groups are open. -/
theorem labelledFrom_congr {groups groups' : OpenGroups} (h : groups.captures = groups'.captures)
    (xs : List Lexeme) : labelledFrom groups xs = labelledFrom groups' xs := by
  induction xs generalizing groups groups' with
  | nil => rfl
  | cons x xs ih =>
    have hafter : (groups.after x).captures = (groups'.after x).captures := by
      rw [OpenGroups.captures_after, OpenGroups.captures_after, h]
    unfold labelledFrom
    rw [OpenGroups.openedLabel?_eq, OpenGroups.openedLabel?_eq, h, ih hafter]

/-- Lexemes behind each other open the captures of both. -/
theorem labelledFrom_append (groups : OpenGroups) (xs ys : List Lexeme) :
    labelledFrom groups (xs ++ ys) =
      labelledFrom groups xs ++ labelledFrom (xs.foldl OpenGroups.after groups) ys := by
  induction xs generalizing groups with
  | nil => rfl
  | cons x xs ih =>
    rw [List.cons_append, labelledFrom, ih, labelledFrom, List.foldl_cons, List.append_assoc]

/-- Later the same captures are opened later. -/
theorem labelledFrom_shift (n c : Nat) (groups : OpenGroups) (xs : List Lexeme) :
    labelledFrom (groups.shift n c) (xs.map (Lexeme.shift n)) =
      (labelledFrom groups xs).map (LabelledCapture.shift n c) := by
  induction xs generalizing groups with
  | nil => rfl
  | cons x xs ih =>
    have hlabel : ((groups.shift n c).openedLabel? (x.shift n)).map
          (LabelledCapture.mk (x.shift n)) =
        ((groups.openedLabel? x).map (LabelledCapture.mk x)).map (LabelledCapture.shift n c) := by
      rw [OpenGroups.openedLabel?_eq, OpenGroups.openedLabel?_eq, Lexeme.token_shift]
      by_cases hopen : x.token.isCaptureOpen
      · rw [if_pos hopen, if_pos hopen]
        simp only [OpenGroups.shift, LabelledCapture.shift, Option.map_some, Nat.add_right_comm]
      · rw [if_neg hopen, if_neg hopen]
        rfl
    rw [List.map_cons, labelledFrom, OpenGroups.after_shift, ih, hlabel, labelledFrom,
      List.map_append, Option.toList_map]

/-- A capture is opened by one of the lexemes. -/
theorem opening_mem_of_mem_labelledFrom {groups : OpenGroups} {xs : List Lexeme}
    {y : LabelledCapture} (h : y ∈ labelledFrom groups xs) : y.opening ∈ xs := by
  induction xs generalizing groups with
  | nil => exact absurd h List.not_mem_nil
  | cons x xs ih =>
    rw [labelledFrom, List.mem_append] at h
    rcases h with hfirst | hlater
    · obtain ⟨label, -, rfl⟩ := Option.map_eq_some_iff.1 (Option.mem_toList.1 hfirst)
      exact List.mem_cons_self
    · exact List.mem_cons_of_mem x (ih hlater)

/-- There is one label for each capture. -/
theorem length_labelledFrom (groups : OpenGroups) (xs : List Lexeme) :
    (labelledFrom groups xs).length = xs.countP fun x => x.token.isCaptureOpen := by
  induction xs generalizing groups with
  | nil => rfl
  | cons x xs ih =>
    rw [labelledFrom, List.length_append, ih, List.countP_cons, OpenGroups.openedLabel?_eq,
      Nat.add_comm]
    split <;> rfl

/-- The captures of a pattern are counted by their labels. -/
theorem length_labelledCaptures (p : Text) : (labelledCaptures p).length = countCaptures p :=
  length_labelledFrom .empty (topLevel p)

/-! ## A part of a pattern -/

/-- Two cuts between lexemes fall into an earlier and a later one. -/
theorem Boundary.exists_append {p : Text} {a b i j : Nat} (ha : Boundary p a i)
    (hb : Boundary p b j) (hab : a ≤ b) :
    ∃ xs ys zs, lexemes p = xs ++ (ys ++ zs) ∧ a = Text.utf8Length (spell (xs.map Lexeme.token)) ∧
      b = Text.utf8Length (spell ((xs ++ ys).map Lexeme.token)) ∧
      classDepthAfter 0 (xs.map Lexeme.token) = i := by
  obtain ⟨xs, ys, hxs, rfl, hi⟩ := ha
  obtain ⟨xs', ys', hxs', rfl, -⟩ := hb
  rcases List.append_eq_append_iff.1 (hxs.symm.trans hxs') with ⟨us, rfl, rfl⟩ | ⟨us, rfl, rfl⟩
  · exact ⟨xs, us, ys', hxs, rfl, rfl, hi⟩
  · -- The later cut is not in front of the earlier one, so nothing stands between them.
    have hnil : us = [] := by
      rw [utf8Length_spell_append] at hab
      have hlength : Text.utf8Length (spell (us.map Lexeme.token)) = 0 := by omega
      exact List.map_eq_nil_iff.1 (spell_eq_nil_iff.1 (Text.utf8Length_eq_zero_iff.1 hlength))
    subst hnil
    rw [List.append_nil] at hxs hi ⊢
    exact ⟨xs', [], ys, hxs, rfl, by rw [List.append_nil], hi⟩

/-- The tokens of a pattern lie as its lexemes do, also behind a cut. -/
theorem layout_map_token {p : Text} {xs ys : List Lexeme} (h : lexemes p = xs ++ ys) :
    layout (Text.utf8Length (spell (xs.map Lexeme.token)))
      (classDepthAfter 0 (xs.map Lexeme.token)) (ys.map Lexeme.token) = ys := by
  have hdrop := Cursor.lexemes_drop (k := .ofText p) h
  have hlayout := Cursor.lexemes_eq_layout (Cursor.mk (spell (ys.map Lexeme.token))
    (Text.utf8Length (spell (xs.map Lexeme.token))) (classDepthAfter 0 (xs.map Lexeme.token)))
  simp only [Cursor.ofText, Nat.zero_add] at hdrop
  rw [hdrop] at hlayout
  exact hlayout.symm

/-- There are as many lexemes as tokens. -/
theorem length_layout (offset depth : Nat) (ts : List Token) :
    (layout offset depth ts).length = ts.length := by
  induction ts generalizing offset depth with
  | nil => rfl
  | cons t ts ih => rw [layout, List.length_cons, List.length_cons, ih]

/-- Lexemes of a pattern behind a cut outside classes are those of their own text, later. -/
theorem map_shift_lexemes_spell {p : Text} {xs ys zs : List Lexeme}
    (h : lexemes p = xs ++ (ys ++ zs)) (hdepth : classDepthAfter 0 (xs.map Lexeme.token) = 0) :
    (lexemes (spell (ys.map Lexeme.token))).map
      (Lexeme.shift (Text.utf8Length (spell (xs.map Lexeme.token)))) = ys := by
  have hbehind := tokens_spell_right (tokens_eq_append h) hdepth
  rw [List.map_append] at hbehind
  have hread := tokens_spell_left hbehind
  -- The tokens lie behind the cut as they do in the pattern, and what follows them is apart.
  have hlayout := layout_map_token h
  rw [hdepth, List.map_append, layout_append] at hlayout
  have hfront := List.append_inj_left hlayout (by rw [length_layout, List.length_map])
  rw [lexemes_eq_layout, hread, ← layout_shift, Nat.zero_add]
  exact hfront

/-- The captures of a pattern between two cuts are those that lexemes there open, behind the groups
that are open at the first cut. -/
theorem labelledCapturesIn_eq {p : Text} {xs ys zs : List Lexeme} {a b : Nat}
    (h : lexemes p = xs ++ (ys ++ zs)) (ha : a = Text.utf8Length (spell (xs.map Lexeme.token)))
    (hb : b = Text.utf8Length (spell ((xs ++ ys).map Lexeme.token))) :
    labelledCapturesIn p ⟨a, b⟩ =
      labelledFrom ((xs.filter Lexeme.isTopLevel).foldl OpenGroups.after .empty)
        (ys.filter Lexeme.isTopLevel) := by
  obtain ⟨hxs, hys, hzs⟩ := within_of_lexemes_eq h ha hb
  have hmem : ∀ {groups : OpenGroups} {us : List Lexeme} {y : LabelledCapture},
      y ∈ labelledFrom groups (us.filter Lexeme.isTopLevel) → y.opening ∈ us := fun hy =>
    (List.mem_filter.1 (opening_mem_of_mem_labelledFrom hy)).1
  have hnone : ∀ groups, ∀ us : List Lexeme, (∀ x ∈ us, ¬(a ≤ x.span.start ∧ x.span.stop ≤ b)) →
      (labelledFrom groups (us.filter Lexeme.isTopLevel)).filter
        (fun y => a ≤ y.opening.span.start ∧ y.opening.span.stop ≤ b) = [] := by
    intro groups us hus
    exact List.filter_eq_nil_iff.2 fun y hy hin => hus y.opening (hmem hy) (of_decide_eq_true hin)
  have hall : ∀ groups, (labelledFrom groups (ys.filter Lexeme.isTopLevel)).filter
      (fun y => a ≤ y.opening.span.start ∧ y.opening.span.stop ≤ b) =
        labelledFrom groups (ys.filter Lexeme.isTopLevel) := by
    intro groups
    exact List.filter_eq_self.2 fun y hy => decide_eq_true (hys y.opening (hmem hy))
  unfold labelledCapturesIn labelledCaptures topLevel
  rw [h, List.filter_append, List.filter_append, labelledFrom_append, labelledFrom_append,
    List.filter_append, List.filter_append, hnone _ xs hxs, hall, hnone _ zs hzs,
    List.nil_append, List.append_nil]

/-- What stands between two cuts is the text of the lexemes between them. -/
theorem slice_eq_spell {p : Text} {xs ys zs : List Lexeme} (h : lexemes p = xs ++ (ys ++ zs)) :
    p.slice ⟨Text.utf8Length (spell (xs.map Lexeme.token)),
        Text.utf8Length (spell ((xs ++ ys).map Lexeme.token))⟩ = spell (ys.map Lexeme.token) := by
  have htext := eq_spell_append (tokens_eq_append h)
  rw [List.map_append, spell_append, ← List.append_assoc] at htext
  rw [utf8Length_spell_append]
  conv_lhs => rw [htext]
  exact Text.slice_append _ _ _

/-- The text before a cut opens the captures that have been counted there. -/
theorem countCaptures_takeBytes_eq {p : Text} {xs ys : List Lexeme} (h : lexemes p = xs ++ ys) :
    countCaptures (p.takeBytes (Text.utf8Length (spell (xs.map Lexeme.token)))) =
      ((xs.filter Lexeme.isTopLevel).foldl OpenGroups.after .empty).captures := by
  rw [countCaptures_takeBytes_cut h, OpenGroups.captures_foldl_after, OpenGroups.empty,
    Nat.zero_add, countP_filter_isTopLevel Token.isCaptureOpen_of_readsInClass, opened]
  intro x hx
  rw [h]
  exact List.mem_append_left _ hx

/-- Whether a part of a pattern has by itself what the pattern has there. -/
structure ReadsAlike (p : Text) (s : Span) : Prop where
  /-- The lexemes of the part are those of the pattern within the span. -/
  lexemes_eq : (lexemes (p.slice s)).map (Lexeme.shift s.start) = lexemesIn p s
  /-- The captures of the part are those that the pass over the pattern labels there, numbered
  behind the captures of the text before the part. -/
  labelledCaptures_eq :
    (labelledCaptures (p.slice s)).map
        (LabelledCapture.shift s.start (countCaptures (p.takeBytes s.start))) =
      labelledCapturesIn p s
  /-- As many captures are counted in the part. -/
  countCaptures_eq : countCaptures (p.slice s) = (labelledCapturesIn p s).length

/-- The lexemes between two cuts, the first of them outside classes, are read alike. -/
theorem readsAlike_of_lexemes_eq {p : Text} {xs ys zs : List Lexeme}
    (h : lexemes p = xs ++ (ys ++ zs)) (hdepth : classDepthAfter 0 (xs.map Lexeme.token) = 0) :
    ReadsAlike p ⟨Text.utf8Length (spell (xs.map Lexeme.token)),
      Text.utf8Length (spell ((xs ++ ys).map Lexeme.token))⟩ := by
  have hshift := map_shift_lexemes_spell h hdepth
  have hcaptures := countCaptures_takeBytes_eq h
  have hlabelled : ∀ c, c = ((xs.filter Lexeme.isTopLevel).foldl OpenGroups.after .empty).captures →
      (labelledCaptures (spell (ys.map Lexeme.token))).map
          (LabelledCapture.shift (Text.utf8Length (spell (xs.map Lexeme.token))) c) =
        labelledFrom ((xs.filter Lexeme.isTopLevel).foldl OpenGroups.after .empty)
          (ys.filter Lexeme.isTopLevel) := by
    rintro c rfl
    -- Only the number of captures before the part counts for the labels in it.
    unfold labelledCaptures topLevel
    rw [← labelledFrom_shift, ← filter_isTopLevel_map_shift, hshift]
    exact labelledFrom_congr (Nat.zero_add _) _
  refine ⟨?_, ?_, ?_⟩
  · rw [slice_eq_spell h, hshift, lexemesIn_eq h]
  · rw [slice_eq_spell h, labelledCapturesIn_eq h rfl rfl]
    exact hlabelled _ hcaptures
  · rw [slice_eq_spell h, labelledCapturesIn_eq h rfl rfl, ← hlabelled _ rfl, List.length_map,
      length_labelledCaptures]

/-- The part between two boundaries, the first of them outside classes, is read alike. -/
theorem Boundary.readsAlike {p : Text} {a b depth : Nat} (ha : Boundary p a 0)
    (hb : Boundary p b depth) (hab : a ≤ b) : ReadsAlike p ⟨a, b⟩ := by
  obtain ⟨xs, ys, zs, hsplit, rfl, rfl, hdepth⟩ := ha.exists_append hb hab
  exact readsAlike_of_lexemes_eq hsplit hdepth

/-- The captures on the two sides of a boundary outside classes are those of the pattern. -/
theorem Boundary.countCaptures_eq_add {p : Text} {m : Nat} (h : Boundary p m 0) :
    countCaptures p = countCaptures (p.takeBytes m) + countCaptures (p.dropBytes m) := by
  obtain ⟨xs, ys, hsplit, rfl, hdepth⟩ := h
  have htokens := tokens_eq_append hsplit
  rw [takeBytes_eq_spell htokens, dropBytes_eq_spell htokens, countCaptures_eq, countCaptures_eq,
    countCaptures_eq, tokens_spell_left htokens, tokens_spell_right htokens hdepth, htokens,
    List.countP_append]

/-- The spans of the parts around a directive, and of the recursed text. -/
def Directive.parts (d : Directive) (recursed : Span) : List Span :=
  [⟨recursed.start, d.span.start⟩, ⟨d.span.stop, recursed.stop⟩, recursed]

/-- The part of a pattern between two boundaries of its lexemes, the first of them outside classes,
is read by itself as it is read in the pattern; at such a boundary the captures add up; and so the
captures in the recursed text and in its two parts around the directive are those that have been
labelled in the pattern. -/
theorem slices_read_alike (p : Text) :
    (∀ a b depth, Boundary p a 0 → Boundary p b depth → a ≤ b → ReadsAlike p ⟨a, b⟩) ∧
      (∀ m, Boundary p m 0 →
        countCaptures p = countCaptures (p.takeBytes m) + countCaptures (p.dropBytes m)) ∧
      ∀ d ∈ directives p, ∀ recursed, d.recursed = some recursed →
        ∀ s ∈ d.parts recursed, ReadsAlike p s := by
  refine ⟨fun a b depth ha hb hab => ha.readsAlike hb hab, fun m hm => hm.countCaptures_eq_add,
    fun d hd recursed hrecursed s hs => ?_⟩
  obtain ⟨before, left, x, right, after, hparts⟩ := exists_parts hd hrecursed
  have hcuts := hparts.cuts
  obtain ⟨depth, hstop⟩ := hcuts.boundary_stop
  have hle : recursed.start ≤ recursed.stop :=
    hcuts.start_le.trans (hcuts.start_lt_stop.le.trans hcuts.stop_le)
  simp only [Directive.parts, List.mem_cons, List.not_mem_nil, or_false] at hs
  rcases hs with rfl | rfl | rfl
  · exact hcuts.boundary_start.readsAlike hcuts.boundary_directive_start hcuts.start_le
  · exact hcuts.boundary_directive_stop.readsAlike hstop hcuts.stop_le
  · exact hcuts.boundary_start.readsAlike hstop hle

/-- The first part ends inside a class, where a parenthesis opens nothing. The part behind the
directive has an unfinished reference, and the parenthesis in it opens a capture. -/
theorem slices_read_alike_of_cut_in_class :
    ∃ (p : Text) (d : Directive), p = "é(?<a>(b)\\g<a&R=2>[(c]\\k<x(d))".toList ∧
      Boundary p 2 0 ∧ Boundary p 10 0 ∧ Boundary p 21 1 ∧ ReadsAlike p ⟨2, 21⟩ ∧
      (lexemesIn p ⟨2, 21⟩).length = 7 ∧
      countCaptures p = 3 ∧ countCaptures (p.takeBytes 10) + countCaptures (p.dropBytes 10) = 3 ∧
      d ∈ directives p ∧ d.recursed = some ⟨7, 30⟩ ∧ ∀ s ∈ d.parts ⟨7, 30⟩, ReadsAlike p s := by
  let p : Text := "é(?<a>(b)\\g<a&R=2>[(c]\\k<x(d))".toList
  let d : Directive := ⟨.group ['a'], ['2'], ⟨10, 19⟩, 2, some ⟨7, 30⟩⟩
  have hcut : ∀ k : Nat, lexemes p = (lexemes p).take k ++ (lexemes p).drop k := fun k =>
    (List.take_append_drop k _).symm
  have hstart : Boundary p 2 0 := ⟨_, _, hcut 1, by decide +kernel, by decide +kernel⟩
  have hmiddle : Boundary p 10 0 := ⟨_, _, hcut 5, by decide +kernel, by decide +kernel⟩
  have hstop : Boundary p 21 1 := ⟨_, _, hcut 8, by decide +kernel, by decide +kernel⟩
  have hd : d ∈ directives p := by decide +kernel
  have hcount : countCaptures p = 3 := by decide +kernel
  obtain ⟨hslices, hcounts, hparts⟩ := slices_read_alike p
  exact ⟨p, d, rfl, hstart, hmiddle, hstop, hslices 2 21 1 hstart hstop (by decide),
    by decide +kernel, hcount, (hcounts 10 hmiddle).symm.trans hcount, hd, rfl,
    hparts d hd ⟨7, 30⟩ rfl⟩

end RegexUnroll
