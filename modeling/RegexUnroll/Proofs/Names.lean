import Mathlib.Data.List.Nodup
import Mathlib.Data.List.Perm.Basic
import RegexUnroll.Proofs.DirectiveFree

/-!
# The names of groups in the unrolled pattern

A copy tags the names of its groups with its depth. Tagged names differ in two copies, and two names
differ still when they are tagged, so no two groups of the copies share a name
(`nodup_copyNames`). But a group of the pattern may be called as a copy is going to be called, and
the unrolled pattern has the names of the pattern and those in the copies
(`Parts.groupNames_unrolled`): its names are distinct exactly when no group of the pattern is called
as one in a copy (`disjoint_copyNames`).
-/

namespace RegexUnroll

/-! ## Names and their tags -/

/-- Two numbers with the same numeral are the same. -/
theorem Numeral.render_inj {m n : Nat} (h : render m = render n) : m = n := by
  calc
    m = Nat.ofDigitChars 10 (render m) 0 := Nat.ofDigitChars_ten_toDigits.symm
    _ = Nat.ofDigitChars 10 (render n) 0 := by rw [h]
    _ = n := Nat.ofDigitChars_ten_toDigits

/-- A tagged name tells the name and the depth. -/
theorem depthName_inj {m n : Text} {d k : Nat} (h : depthName m d = depthName n k) :
    m = n ∧ d = k := by
  -- The last dollar sign is the one of the tag, as no digit is one.
  have hdigits : ∀ j, '$' ∉ Numeral.render j := by
    intro j hmem
    exact absurd (Numeral.isDigit_of_mem_render hmem) (by decide)
  have hcut : ∀ {m n : Text} {d k : Nat} {c : Text},
      n ++ ['_', '$'] = m ++ ['_', '$'] ++ c → Numeral.render d = c ++ Numeral.render k →
        m = n ∧ d = k := by
    intro m n d k c hfront hback
    rcases List.eq_nil_or_concat c with rfl | ⟨c, b, rfl⟩
    · rw [List.append_nil] at hfront
      exact ⟨(List.append_cancel_right hfront).symm, Numeral.render_inj hback⟩
    · have hlast := congrArg List.getLast? hfront
      rw [List.concat_eq_append, ← List.append_assoc, List.getLast?_concat] at hlast
      obtain rfl : '$' = b := by simpa using hlast
      exact absurd (by rw [hback]; simp) (hdigits d)
  rw [depthName, depthName] at h
  rcases List.append_eq_append_iff.1 h with ⟨c, hfront, hback⟩ | ⟨c, hfront, hback⟩
  · exact hcut hfront hback
  · obtain ⟨hmn, hdk⟩ := hcut hfront hback
    exact ⟨hmn.symm, hdk.symm⟩

/-- The names that groups have in the copies of depths. -/
def copyNames (names : List Text) (depths : List Nat) : List Text :=
  depths.flatMap fun d => names.map fun name => depthName name d

/-- A name in a copy is one of the names with one of the depths. -/
theorem mem_copyNames {names : List Text} {depths : List Nat} {s : Text} :
    s ∈ copyNames names depths ↔ ∃ name ∈ names, ∃ d ∈ depths, depthName name d = s := by
  simp only [copyNames, List.mem_flatMap, List.mem_map]
  constructor
  · rintro ⟨d, hd, name, hname, rfl⟩
    exact ⟨name, hname, d, hd, rfl⟩
  · rintro ⟨name, hname, d, hd, rfl⟩
    exact ⟨d, hd, name, hname, rfl⟩

/-- Distinct names stay distinct in all copies together. -/
theorem nodup_copyNames {names : List Text} {depths : List Nat} (hnames : names.Nodup)
    (hdepths : depths.Nodup) : (copyNames names depths).Nodup := by
  -- Pairs of a depth and a name are distinct, and the tagged name tells the pair.
  have hpairs : copyNames names depths =
      (depths.product names).map fun pair => depthName pair.2 pair.1 := by
    simp only [copyNames, List.product, List.map_flatMap, List.map_map]
    rfl
  rw [hpairs]
  refine List.Nodup.map (fun a b h => ?_) (hdepths.product hnames)
  obtain ⟨hname, hdepth⟩ := depthName_inj h
  exact Prod.ext hdepth hname

/-- Names keep apart from those in copies when none of them is a tagged name. -/
theorem disjoint_copyNames {taken names : List Text} {depths : List Nat} :
    taken.Disjoint (copyNames names depths) ↔
      ∀ name ∈ names, ∀ d ∈ depths, depthName name d ∉ taken := by
  constructor
  · intro hdisjoint name hname d hd hmem
    exact hdisjoint hmem (mem_copyNames.2 ⟨name, hname, d, hd, rfl⟩)
  · intro hfresh s hs hs'
    obtain ⟨name, hname, d, hd, rfl⟩ := mem_copyNames.1 hs'
    exact hfresh name hname d hd hs

/-! ## The names in the copies -/

/-- The names of groups are collected from the tokens of a pattern. -/
theorem groupNames_eq (p : Text) : groupNames p = (tokens p).filterMap Token.openedName? :=
  filterMap_topLevel p fun t rest h => by
    cases t <;> first | rfl | exact h.elim

/-- A copy gives its group the tagged name. -/
theorem Token.openedName?_atDepth (names : CopiedNames) (depth : Nat) (t : Token) :
    (t.atDepth names depth).openedName? = t.openedName?.map fun name => depthName name depth := by
  cases t with
  | namedBackref name =>
    rw [atDepth]
    split <;> rfl
  | _ => rfl

/-- The names in the copy of a text are the tagged names of the text. -/
theorem filterMap_openedName?_copy (names : CopiedNames) (depth : Nat) (s : Text) :
    ((tokens s).map fun t => t.atDepth names depth).filterMap Token.openedName? =
      (groupNames s).map fun name => depthName name depth := by
  rw [groupNames_eq, List.filterMap_map, List.map_filterMap]
  exact List.filterMap_congr fun t _ => Token.openedName?_atDepth names depth t

/-- With a `)` behind it, a text gives no names that it does not give without. -/
theorem ReadsWithParen.filterMap_openedName?_sublist {depth : Nat} {ts ts' : List Token}
    (h : ReadsWithParen depth ts ts') :
    (ts'.filterMap Token.openedName?).Sublist (ts.filterMap Token.openedName?) := by
  induction h with
  | close => exact List.Sublist.refl _
  | escape => exact List.Sublist.refl _
  | directive _ => exact List.nil_sublist _
  | @cons depth t ts ts' _ _ ih =>
    rw [List.filterMap_cons, List.filterMap_cons]
    cases t.openedName? with
    | none => exact ih
    | some name => exact ih.cons_cons name

/-- The names in the copies are the tagged names of the two texts. -/
theorem Nesting.filterMap_openedName?_copyTokens (n : Nesting) :
    (n.copyTokens.filterMap Token.openedName?).Perm
      (copyNames (groupNames n.left ++ groupNames (n.right ++ [')'])) n.depths) := by
  have hleft : (n.depths.flatMap fun d => [Token.groupOpen, .char ':'] ++
      (tokens n.left).map fun t => t.atDepth n.names d).filterMap Token.openedName? =
        n.depths.flatMap fun d => (groupNames n.left).map fun name => depthName name d := by
    rw [List.filterMap_flatMap]
    refine List.flatMap_congr fun d _ => ?_
    rw [List.filterMap_append, filterMap_openedName?_copy]
    rfl
  have hright : (n.depths.reverse.flatMap fun d =>
      (tokens (n.right ++ [')'])).map fun t => t.atDepth n.names d).filterMap Token.openedName? =
        n.depths.reverse.flatMap fun d =>
          (groupNames (n.right ++ [')'])).map fun name => depthName name d := by
    rw [List.filterMap_flatMap]
    exact List.flatMap_congr fun d _ => filterMap_openedName?_copy ..
  have hempty : [Token.groupOpen, .char ':', .groupClose].filterMap Token.openedName? = [] := rfl
  rw [copyTokens, List.filterMap_append, List.filterMap_append, hleft, hright, hempty,
    List.append_nil, copyNames]
  -- The copies on the right are put next to those of the same depth on the left.
  have hreverse := (List.reverse_perm n.depths).flatMap_right fun d =>
    (groupNames (n.right ++ [')'])).map fun name => depthName name d
  have hjoin := List.flatMap_append_perm n.depths
    (fun d => (groupNames n.left).map fun name => depthName name d)
    (fun d => (groupNames (n.right ++ [')'])).map fun name => depthName name d)
  simp only [List.map_append]
  exact (hreverse.append_left _).trans hjoin

/-! ## The names in the unrolled pattern -/

namespace Parts

variable {p : Text} {d : Directive} {span : Span} {before left right after : List Lexeme}
  {x : Lexeme}

/-- The names of the pattern are those before and behind the directive. -/
theorem groupNames_eq (h : Parts p d span before left x right after) :
    groupNames p =
      (before.map Lexeme.token ++ left.map Lexeme.token).filterMap Token.openedName? ++
        (right.map Lexeme.token ++ after.map Lexeme.token).filterMap Token.openedName? := by
  have hnone : x.token.openedName? = none := by
    rcases Token.eq_of_isRecursion h.isRecursion with ⟨depth, hx⟩ | ⟨target, depth, hx⟩ <;>
      · rw [hx]
        rfl
  rw [RegexUnroll.groupNames_eq, h.tokens_eq, ← List.append_assoc, List.filterMap_append,
    List.filterMap_cons_none hnone]

/-- The unrolled pattern has the names of the pattern and those in the copies. -/
theorem groupNames_unrolled (h : Parts p d span before left x right after)
    (hsealed : SealedAround p d span) (hcut : ¬CutOffBefore p d.span.start)
    (depth : MaxDepth) (hidden : List Nat) (transfers : CaptureTransfers) :
    (groupNames
        (Expansion.ofRecursion (Recursion.around p d span depth) hidden transfers).pattern).Perm
      (groupNames p ++ copyNames (groupNames (p.slice ⟨span.start, d.span.start⟩) ++
        groupNames (p.slice ⟨d.span.stop, span.stop⟩ ++ [')'])) (List.range' 2 depth.copies)) := by
  rw [h.cutOffBefore_start_iff] at hcut
  have hcopies := (Recursion.around p d span depth).nesting.filterMap_openedName?_copyTokens
  rw [RegexUnroll.groupNames_eq, h.tokens_unrolled hsealed hcut, h.groupNames_eq]
  generalize before.map Lexeme.token ++ left.map Lexeme.token = front
  generalize right.map Lexeme.token ++ after.map Lexeme.token = back
  generalize (Recursion.around p d span depth).nesting.copyTokens = copies at hcopies
  rw [List.filterMap_append, List.filterMap_append, List.append_assoc]
  -- The names in the copies move from between the two sides of the directive to the end.
  have hmove : (copies.filterMap Token.openedName? ++ back.filterMap Token.openedName?).Perm
      (back.filterMap Token.openedName? ++ copies.filterMap Token.openedName?) :=
    List.perm_append_comm
  exact (hmove.trans (hcopies.append_left _)).append_left _

/-- The names of the recursed text are distinct where those of the pattern are. -/
theorem nodup_recursed (h : Parts p d span before left x right after)
    (hright : Sealed (p.slice ⟨d.span.stop, span.stop⟩)) (hnodup : (groupNames p).Nodup) :
    (groupNames (p.slice ⟨span.start, d.span.start⟩) ++
      groupNames (p.slice ⟨d.span.stop, span.stop⟩ ++ [')'])).Nodup := by
  rw [h.slice_right] at hright
  have hsublist := hright.exists_settled.1.filterMap_openedName?_sublist
  rw [h.tokens_right] at hsublist
  refine hnodup.sublist ?_
  rw [h.slice_left, h.slice_right, RegexUnroll.groupNames_eq, RegexUnroll.groupNames_eq,
    h.groupNames_eq, h.tokens_left, List.filterMap_append, List.filterMap_append]
  exact (List.sublist_append_right _ _).append
    (hsublist.trans (List.sublist_append_left _ _))

end Parts

/-- The names of groups in an expanded pattern are distinct exactly when no group of the pattern is
called as a copy of a group is going to be called, where the names of the pattern are distinct, the
recursed texts are sealed on both sides of their directive, and no opener of a directive is cut off
before it. -/
theorem expand_nodup_groupNames_iff {e e' : Expansion} {mode : Mode} (h : e.expand mode = .ok e')
    (hnodup : (groupNames e.pattern).Nodup)
    (hsealed : ∀ d ∈ directives e.pattern, ∀ span ∈ d.recursed,
      SealedAround e.pattern d span ∧ ¬CutOffBefore e.pattern d.span.start) :
    (groupNames e'.pattern).Nodup ↔
      ∀ d ∈ directives e.pattern, ∀ span ∈ d.recursed, ∀ depth ∈ MaxDepth.ofLiteral? d.depth,
        ∀ name ∈ groupNames (e.pattern.slice ⟨span.start, d.span.start⟩) ++
            groupNames (e.pattern.slice ⟨d.span.stop, span.stop⟩ ++ [')']),
          ∀ k ∈ List.range' 2 (depth.value - 1), depthName name k ∉ groupNames e.pattern := by
  rcases Expansion.of_expand_eq_ok h with
    ⟨hnil, rfl⟩ | ⟨d, span, depth, hsingle, hspan, hdepth, rfl⟩
  · simp [hnil, hnodup]
  · have hd : d ∈ directives e.pattern := by rw [hsingle]; exact List.mem_cons_self
    obtain ⟨before, left, x, right, after, hparts⟩ := exists_parts hd hspan
    rw [forall_directives_iff hsingle hspan] at hsealed ⊢
    obtain ⟨hsides, hcut⟩ := hsealed
    have hrecursed := hparts.nodup_recursed hsides.right hnodup
    have hcopies := nodup_copyNames hrecursed (List.nodup_range' (s := 2) (n := depth.copies))
    -- Only a name of the pattern can be called as one in a copy.
    rw [(hparts.groupNames_unrolled hsides hcut depth _ _).nodup_iff, List.nodup_append',
      and_iff_right hnodup, and_iff_right hcopies, disjoint_copyNames, hdepth]
    constructor
    · intro hfresh depth' hdepth'
      obtain rfl : depth = depth' := Option.some.inj hdepth'
      exact hfresh
    · intro hall
      exact hall depth rfl

/-- A name that only a copy beyond the depth would have is still free. -/
theorem expand_nodup_groupNames_beyond_depth :
    ∃ e e' : Expansion,
      e.pattern = "(?<w>(?<a>x)\\g<w&R=3>(?<a_$1>y))(?<a_$4>z)".toList ∧
      groupNames e'.pattern = ["w".toList, "a".toList, "a_$2".toList, "a_$3".toList,
        "a_$1_$3".toList, "a_$1_$2".toList, "a_$1".toList, "a_$4".toList] ∧
      e.expand .plugin = .ok e' ∧ (groupNames e'.pattern).Nodup := by
  let e : Expansion := .ofPattern "(?<w>(?<a>x)\\g<w&R=3>(?<a_$1>y))(?<a_$4>z)".toList
  let e' : Expansion := ⟨("(?<w>(?<a>x)(?:(?<a_$2>x)(?:(?<a_$3>x)(?:)(?<a_$1_$3>y))" ++
    "(?<a_$1_$2>y))(?<a_$1>y))(?<a_$4>z)").toList, [3, 4, 5, 6], .empty⟩
  have h : e.expand .plugin = .ok e' := by decide +kernel
  have hnodup : (groupNames e.pattern).Nodup := by decide +kernel
  have hsealed : ∀ d ∈ directives e.pattern, ∀ span ∈ d.recursed,
      SealedAround e.pattern d span ∧ ¬CutOffBefore e.pattern d.span.start := by decide +kernel
  have hfresh : ∀ d ∈ directives e.pattern, ∀ span ∈ d.recursed,
      ∀ depth ∈ MaxDepth.ofLiteral? d.depth,
        ∀ name ∈ groupNames (e.pattern.slice ⟨span.start, d.span.start⟩) ++
            groupNames (e.pattern.slice ⟨d.span.stop, span.stop⟩ ++ [')']),
          ∀ k ∈ List.range' 2 (depth.value - 1), depthName name k ∉ groupNames e.pattern := by
    decide +kernel
  exact ⟨e, e', rfl, by decide +kernel, h,
    (expand_nodup_groupNames_iff h hnodup hsealed).2 hfresh⟩

/-- A group that is called as the copy of another gets a namesake. -/
theorem expand_repeats_groupName :
    ∃ e' : Expansion,
      (Expansion.ofPattern "(?<a>x)(?<a_$2>y)(?R=2)".toList).expand .plugin = .ok e' ∧
      (groupNames "(?<a>x)(?<a_$2>y)(?R=2)".toList).Nodup ∧
      groupNames e'.pattern =
        ["a".toList, "a_$2".toList, "a_$2".toList, "a_$2_$2".toList] ∧
      ¬(groupNames e'.pattern).Nodup := by
  refine ⟨⟨"(?<a>x)(?<a_$2>y)(?:(?<a_$2>x)(?<a_$2_$2>y)(?:))".toList, [3, 4], .empty⟩, ?_⟩
  decide +kernel

end RegexUnroll
