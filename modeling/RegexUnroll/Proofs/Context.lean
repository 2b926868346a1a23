import RegexUnroll.Proofs.Concatenation

/-!
# Patterns in a context

A pattern that is a group of its own, or several, can be put into a larger pattern, and the larger
pattern is expanded as the smaller one is by itself (`expand_append`). The text in front shifts what
is found in the pattern: its lexemes, the groups that are open, its directives (`Directive.shift`).
None of the checks looks at offsets or numbers, and what is cut out of the larger pattern is cut out
of the smaller one.

For that the pattern and the text in front have to be complete and their groups closed
(`SelfContained`, `Surrounds`). A directive for the whole pattern would recurse into the
surroundings, and one for the number of a group would have another number there, so the directives
are for names.
-/

namespace RegexUnroll

/-! ## What is shifted -/

/-- A group that begins `n` bytes later, behind `c` more captures. -/
def OpenGroup.shift (n c : Nat) (group : OpenGroup) : OpenGroup where
  label := group.label.map fun label => ⟨label.number + c, label.name⟩
  contentStart := group.contentStart + n

/-- The groups that are open `n` bytes later, behind `c` more captures. -/
def OpenGroups.shift (n c : Nat) (groups : OpenGroups) : OpenGroups where
  stack := groups.stack.map (OpenGroup.shift n c)
  captures := groups.captures + c

/-- A directive that stands `n` bytes later, behind `c` more captures. -/
def Directive.shift (n c : Nat) (d : Directive) : Directive where
  target := d.target
  depth := d.depth
  span := d.span.shift n
  capturesBefore := d.capturesBefore + c
  recursed := d.recursed.map (Span.shift n)

/-- A lexeme opens and closes the same groups later. -/
theorem OpenGroups.after_shift (n c : Nat) (groups : OpenGroups) (x : Lexeme) :
    (groups.shift n c).after (x.shift n) = (groups.after x).shift n c := by
  obtain ⟨token, span, inClass⟩ := x
  cases token <;>
    simp [after, shift, openCapture, Lexeme.shift, Span.shift, OpenGroup.shift,
      Nat.add_right_comm _ 1, List.map_tail]

/-- Behind a pattern all its captures have been counted. -/
theorem OpenGroups.captures_topLevel (p : Text) :
    ((topLevel p).foldl after .empty).captures = countCaptures p := by
  rw [captures_foldl_after]
  exact Nat.zero_add _

/-- A target that is no number means the same group later. -/
theorem OpenGroups.find?_shift {target : Text} (h : Numeral.value? target = none) (n c : Nat)
    (groups : OpenGroups) :
    (groups.shift n c).find? target = (groups.find? target).map (OpenGroup.shift n c) := by
  have hmatches : (fun group : OpenGroup => group.matches target) ∘ OpenGroup.shift n c =
      fun group => group.matches target := by
    funext ⟨label, contentStart⟩
    cases label <;> simp [OpenGroup.matches, OpenGroup.shift, CaptureLabel.matches, h]
  rw [find?, shift, List.find?_map, hmatches]
  rfl

/-- The directives among lexemes behind each other are found one after the other. -/
theorem directivesFrom_append (p : Text) (groups : OpenGroups) (xs ys : List Lexeme) :
    directivesFrom p groups (xs ++ ys) =
      directivesFrom p groups xs ++ directivesFrom p (xs.foldl OpenGroups.after groups) ys := by
  induction xs generalizing groups with
  | nil => rfl
  | cons x xs ih =>
    rw [List.cons_append, directivesFrom, directivesFrom, ih, List.foldl_cons, List.append_assoc]

/-- Where each lexeme is the same directive later, the same directives are found later. -/
theorem directivesFrom_shift {p p' : Text} {n c : Nat} (groups : OpenGroups) {xs : List Lexeme}
    (h : ∀ ys x zs, xs = ys ++ x :: zs →
      Directive.ofLexeme? p' ((ys.foldl OpenGroups.after groups).shift n c) (x.shift n) =
        (Directive.ofLexeme? p (ys.foldl OpenGroups.after groups) x).map (Directive.shift n c)) :
    directivesFrom p' (groups.shift n c) (xs.map (Lexeme.shift n)) =
      (directivesFrom p groups xs).map (Directive.shift n c) := by
  induction xs generalizing groups with
  | nil => rfl
  | cons x xs ih =>
    have hfirst := h [] x xs rfl
    have hlater := ih (groups.after x) fun ys y zs hsplit =>
      h (x :: ys) y zs (by rw [hsplit, List.cons_append])
    rw [List.foldl_nil] at hfirst
    rw [List.map_cons, directivesFrom, OpenGroups.after_shift, hlater, hfirst, directivesFrom,
      List.map_append, Option.toList_map]

/-- Without recursion lexemes there is no directive. -/
theorem directivesFrom_eq_nil {xs : List Lexeme} (h : xs.filter (fun x => x.token.isRecursion) = [])
    (p : Text) (groups : OpenGroups) : directivesFrom p groups xs = [] := by
  rw [← List.length_eq_zero_iff, length_directivesFrom, List.countP_eq_length_filter, h,
    List.length_nil]

/-- Without recursion lexemes there is none later. -/
theorem filter_isRecursion_map_shift (n : Nat) (xs : List Lexeme) :
    (xs.map (Lexeme.shift n)).filter (fun x => x.token.isRecursion) =
      (xs.filter fun x => x.token.isRecursion).map (Lexeme.shift n) := by
  rw [List.filter_map]
  rfl

/-! ## What is cut out -/

namespace Text

/-- Behind a text, the text before an offset is that text and what stands before the offset. -/
theorem takeBytes_add_utf8Length (s t : Text) (n : Nat) :
    (s ++ t).takeBytes (n + s.utf8Length) = s ++ t.takeBytes n := by
  rw [Nat.add_comm]
  exact takeBytes_utf8Length_add s n t

/-- Behind a text, a span has the same text later. -/
theorem slice_shift (s t : Text) (span : Span) :
    (s ++ t).slice (span.shift s.utf8Length) = t.slice span := by
  rw [slice, slice, Span.shift, dropBytes_add_utf8Length, Nat.add_sub_add_right]

/-- Up to its end a text is cut as it is with more behind it. -/
theorem takeBytes_append_of_le {n : Nat} {s : Text} (h : n ≤ utf8Length s) (t : Text) :
    takeBytes n (s ++ t) = takeBytes n s := by
  induction s generalizing n with
  | nil =>
    obtain rfl : n = 0 := Nat.le_zero.1 h
    simp
  | cons c s ih =>
    cases n with
    | zero => rfl
    | succ n =>
      rw [utf8Length_cons] at h
      exact congrArg (c :: ·) (ih (by omega))

end Text

/-- What starts between lexemes has the same text between two texts. -/
theorem Boundary.slice_within {q : Text} {start stop depth : Nat} (h : Boundary q start depth)
    (hstop : stop ≤ q.utf8Length) (a b : Text) :
    (a ++ (q ++ b)).slice (Span.shift a.utf8Length ⟨start, stop⟩) = q.slice ⟨start, stop⟩ := by
  obtain ⟨xs, ys, hsplit, rfl, -⟩ := h
  have htext : q = spell (xs.map Lexeme.token) ++ spell (ys.map Lexeme.token) :=
    eq_spell_append (tokens_eq_append hsplit)
  rw [Text.slice_shift, Text.slice, Text.slice]
  rw [htext, Text.utf8Length_append] at hstop
  rw [htext, List.append_assoc, Text.dropBytes_append, Text.dropBytes_append]
  exact Text.takeBytes_append_of_le (by dsimp only; omega) b

namespace Recursion

/-- A pattern that is taken apart, between the texts `a` and `b`. -/
def within (a b : Text) (r : Recursion) : Recursion where
  before := a ++ r.before
  left := r.left
  right := r.right
  after := r.after ++ b
  scope := r.scope
  depth := r.depth
  capturesBefore := r.capturesBefore + countCaptures a

/-- Between two texts a pattern is taken apart into the same texts. -/
theorem around_within {q : Text} {d : Directive} {span : Span} (h : Cuts q d span) (a b : Text)
    (depth : MaxDepth) :
    around (a ++ (q ++ b)) (d.shift a.utf8Length (countCaptures a)) (span.shift a.utf8Length)
      depth = (around q d span depth).within a b := by
  have hstop : span.start ≤ q.utf8Length ∧ d.span.start ≤ q.utf8Length := by
    have hle := h.start_le
    have hlt := h.start_lt_stop
    have hle' := h.stop_le
    have hlength := h.stop_le_length
    omega
  -- Each cut is shifted by the text in front, and not changed by the text behind.
  have hbefore : (a ++ (q ++ b)).takeBytes (span.start + a.utf8Length) =
      a ++ q.takeBytes span.start := by
    rw [Text.takeBytes_add_utf8Length, Text.takeBytes_append_of_le hstop.1]
  have hleft := h.boundary_start.slice_within hstop.2 a b
  have hright := h.boundary_directive_stop.slice_within h.stop_le_length a b
  have hafter : (a ++ (q ++ b)).dropBytes (span.stop + a.utf8Length) =
      q.dropBytes span.stop ++ b := by
    rw [Text.dropBytes_add_utf8Length, Text.dropBytes_append_of_le h.stop_le_length]
  simp only [Span.shift] at hleft hright
  simp only [around, within, Directive.shift, Span.shift, hbefore, hleft, hright, hafter]

/-- The checks of a pattern find the same, and take it apart in the same place, where what they
look at is the same. -/
theorem ofDirectives_within {p q a b : Text} {n c : Nat} {d : Directive} (mode : Mode)
    (others : List Directive)
    (hoccurs : ∀ construct : Construct, construct.occursIn p = construct.occursIn q)
    (hcaptures : (d.shift n c).recursesCaptures p = d.recursesCaptures q)
    (hreference : d.recursed = none → (d.shift n c).reference p mode = d.reference q mode)
    (haround : ∀ span depth, d.recursed = some span →
      around p (d.shift n c) (span.shift n) depth = (around q d span depth).within a b) :
    ofDirectives p mode (d.shift n c) (others.map (Directive.shift n c)) =
      (ofDirectives q mode d others).map (within a b) := by
  by_cases hall : ∀ other ∈ d :: others, (MaxDepth.ofLiteral? other.depth).isSome
  · obtain ⟨hd, hothers⟩ := List.forall_mem_cons.1 hall
    obtain ⟨depth, hd⟩ := Option.isSome_iff_exists.1 hd
    have hd' : MaxDepth.ofLiteral? (d.shift n c).depth = some depth := hd
    have hothers' : ∀ other ∈ others.map (Directive.shift n c),
        (MaxDepth.ofLiteral? other.depth).isSome := List.forall_mem_map.2 hothers
    rw [ofDirectives_of_accepted hd hothers, ofDirectives_of_accepted hd' hothers']
    simp only [hoccurs, hcaptures, ne_eq, List.map_eq_nil_iff]
    split_ifs
    · rfl
    · rfl
    · match hrecursed : d.recursed with
      | some span =>
        have hshifted : (d.shift n c).recursed = some (span.shift n) := by
          rw [Directive.shift, hrecursed, Option.map_some]
        rw [hshifted]
        exact congrArg Except.ok (haround span depth hrecursed)
      | none =>
        have hshifted : (d.shift n c).recursed = none := by
          rw [Directive.shift, hrecursed, Option.map_none]
        rw [hshifted, hreference hrecursed]
        rfl
    · rfl
  · -- The first literal that is rejected is the same one.
    push Not at hall
    obtain ⟨before, bad, after, hsplit, hbefore, hbad⟩ := exists_first hall
    have hrejected : MaxDepth.ofLiteral? bad.depth = none := by
      rwa [ne_eq, Bool.not_eq_true, Option.isSome_eq_false_iff, Option.isNone_iff_eq_none] at hbad
    have haccepted : ∀ other ∈ before, (MaxDepth.ofLiteral? other.depth).isSome :=
      fun other hother => not_not.1 (hbefore other hother)
    have hsplit' := congrArg (List.map (Directive.shift n c)) hsplit
    rw [List.map_cons, List.map_append, List.map_cons] at hsplit'
    rw [ofDirectives_of_rejected hsplit haccepted hrejected,
      ofDirectives_of_rejected hsplit' (List.forall_mem_map.2 haccepted) hrejected]
    rfl

end Recursion

/-! ## Unrolling in a context -/

/-- Where nothing has been hidden the new captures are all that is. -/
theorem hideNew_nil (before count : Nat) :
    hideNew before count [] = List.range' (before + 1) count := by
  rw [hideNew, foldl_shiftFrom fun _ hn => absurd hn List.not_mem_nil, List.map_nil,
    List.nil_append]

/-- Captures that are put in later, behind `c` more captures, are the same later. -/
theorem hideNew_nil_add (before count c : Nat) :
    hideNew (before + c) count [] = (hideNew before count []).map (· + c) := by
  have hrange : List.range' (before + c + 1) count =
      (List.range' (before + 1) count).map (· + c) := by
    have hadd := List.map_add_range' (a := c) (before + 1) count 1
    have hstart : before + c + 1 = c + (before + 1) := by omega
    rw [hstart, ← hadd]
    exact List.map_congr_left fun n _ => Nat.add_comm c n
  rw [hideNew_nil, hideNew_nil, hrange]

/-- The empty table stays empty. -/
theorem CaptureTransfers.empty_afterUnrolling (left : Text) (copies added before : Nat) :
    empty.afterUnrolling left copies added before = empty := by
  unfold afterUnrolling
  split <;> rfl

/-- Between two texts a recursion is unrolled as by itself. -/
theorem Expansion.ofRecursion_within (a b : Text) (r : Recursion) :
    ofRecursion (r.within a b) [] .empty =
      ⟨a ++ ((ofRecursion r [] .empty).pattern ++ b),
        (ofRecursion r [] .empty).hiddenCaptures.map (· + countCaptures a), .empty⟩ := by
  have hhidden := hideNew_nil_add r.capturesBefore r.nesting.newCaptures (countCaptures a)
  have htext : (r.within a b).before ++ (r.within a b).nesting.text ++ (r.within a b).after =
      a ++ (r.before ++ r.nesting.text ++ r.after ++ b) := by
    simp only [Recursion.within, Recursion.nesting, List.append_assoc]
  rw [ofRecursion, ofRecursion, htext, CaptureTransfers.empty_afterUnrolling]
  exact congrArg (fun hidden => Expansion.mk _ hidden .empty) hhidden

/-! ## Directives in a context -/

/-- Whether a target is the name of a group, and not a number. -/
def RecursionTarget.isName : RecursionTarget → Bool
  | wholePattern => false
  | group reference => !Numeral.isCanonical reference

/-- Whether a pattern is one of groups that it closes itself, and all its directives are for names.
-/
@[mk_iff] structure SelfContained (q : Text) : Prop where
  /-- Nothing is cut off. -/
  complete : Complete q
  /-- Groups are opened and closed in the pattern. -/
  balanced : Balanced ((topLevel q).map Lexeme.token)
  /-- A parenthesis begins the pattern. -/
  head? : q.head? = some '('
  /-- The closing delimiter of a group ends the pattern. -/
  getLast? : (tokens q).getLast? = some .groupClose
  /-- The directives are for names. -/
  isName : ∀ d ∈ directives q, d.target.isName

/-- Whether a pattern can be put between two texts without meeting constructs there. -/
@[mk_iff] structure Surrounds (a b : Text) : Prop where
  /-- Nothing is cut off in front. -/
  complete : Complete a
  /-- Groups are opened and closed in front. -/
  balanced : Balanced ((topLevel a).map Lexeme.token)
  /-- The text in front uses no construct. -/
  constructs_front : constructs a = []
  /-- The text behind uses no construct. -/
  constructs_back : constructs b = []

/-- Whether a pattern is contained in itself is decided on its lexemes. -/
instance (q : Text) : Decidable (SelfContained q) := decidable_of_iff' _ (selfContained_iff q)

/-- Whether two texts surround a pattern is decided on their lexemes. -/
instance (a b : Text) : Decidable (Surrounds a b) := decidable_of_iff' _ (surrounds_iff a b)

/-- A group that is opened in a balanced pattern is closed in it. -/
theorem exists_closes_of_balanced {p : Text} (h : Balanced ((topLevel p).map Lexeme.token))
    {o : Lexeme} (ho : o ∈ topLevel p) (hopen : o.token.isGroupOpen) : ∃ c, Closes p o c := by
  obtain ⟨as, bs, hcut⟩ := List.append_of_mem ho
  rw [hcut, List.map_append, List.map_cons] at h
  obtain ⟨ts, us, hclose, hts⟩ := h.exists_close hopen
  obtain ⟨ms, back, rfl, rfl, hback⟩ := List.map_eq_append_iff.1 hclose
  obtain ⟨c, ns, rfl, hc, -⟩ := List.map_eq_cons_iff.1 hback
  exact ⟨c, hopen, hc, as, ms, ns, hcut, hts⟩

/-- Where a pattern stands in a larger one, its groups are closed as by themselves. -/
theorem Closes.shift {p q : Text} {front back : List Lexeme} {n : Nat} {o c : Lexeme}
    (h : Closes q o c) (hp : topLevel p = front ++ ((topLevel q).map (Lexeme.shift n) ++ back)) :
    Closes p (o.shift n) (c.shift n) := by
  obtain ⟨ho, hc, as, ms, bs, hq, hms⟩ := h
  refine ⟨ho, hc, front ++ as.map (Lexeme.shift n), ms.map (Lexeme.shift n),
    bs.map (Lexeme.shift n) ++ back, ?_, by rwa [map_token_map_shift]⟩
  rw [hp, hq]
  simp

/-- Where a balanced pattern stands in a larger one, the contents of its groups are the same. -/
theorem contentSpan_shift {p q : Text} {front back : List Lexeme} {n : Nat} {o : Lexeme}
    (hp : topLevel p = front ++ ((topLevel q).map (Lexeme.shift n) ++ back))
    (hq : Balanced ((topLevel q).map Lexeme.token)) (ho : o ∈ topLevel q)
    (hopen : o.token.isGroupOpen) :
    contentSpan p (o.span.stop + n) = (contentSpan q o.span.stop).shift n := by
  obtain ⟨c, hc⟩ := exists_closes_of_balanced hq ho hopen
  have ho' : o.shift n ∈ topLevel p := by
    rw [hp]
    exact List.mem_append_right _ (List.mem_append_left _ (List.mem_map_of_mem ho))
  rw [contentSpan_of_closes ho hc]
  exact contentSpan_of_closes ho' (hc.shift hp)

/-- A lexeme at which a directive is found is one of the directives. -/
theorem mem_directives_of_ofLexeme? {p : Text} {ys zs : List Lexeme} {x : Lexeme} {d : Directive}
    (hsplit : topLevel p = ys ++ x :: zs)
    (hd : Directive.ofLexeme? p (ys.foldl OpenGroups.after .empty) x = some d) :
    d ∈ directives p := by
  rw [directives, hsplit, directivesFrom_append, directivesFrom, hd]
  simp

/-- Where a pattern whose directives are for names stands in a larger one, each of its lexemes is
the same directive there. -/
theorem SelfContained.ofLexeme?_shift {p q : Text} {front back ys zs : List Lexeme} {n : Nat}
    {x : Lexeme} (h : SelfContained q)
    (hp : topLevel p = front ++ ((topLevel q).map (Lexeme.shift n) ++ back)) (c : Nat)
    (hsplit : topLevel q = ys ++ x :: zs) :
    Directive.ofLexeme? p ((ys.foldl OpenGroups.after .empty).shift n c) (x.shift n) =
      (Directive.ofLexeme? q (ys.foldl OpenGroups.after .empty) x).map (Directive.shift n c) := by
  match hd : Directive.ofLexeme? q (ys.foldl OpenGroups.after .empty) x with
  | none =>
    have hsome := Directive.isSome_ofLexeme? q (ys.foldl OpenGroups.after .empty) x
    rw [hd, Option.isSome_none, ← Lexeme.token_shift n,
      ← Directive.isSome_ofLexeme? p ((ys.foldl OpenGroups.after .empty).shift n c)] at hsome
    exact Option.not_isSome_iff_eq_none.1 (by rw [← hsome]; decide)
  | some d =>
    have hname := h.isName d (mem_directives_of_ofLexeme? hsplit hd)
    obtain ⟨-, -, -, ⟨htarget, -⟩ | ⟨reference, depth, htoken, htarget, -⟩⟩ :=
      Directive.of_ofLexeme? hd
    · rw [htarget] at hname
      exact absurd hname (by decide)
    · rw [htarget, RecursionTarget.isName, Bool.not_eq_true'] at hname
      have hvalue : Numeral.value? reference = none := if_neg (by simp [hname])
      -- The group is found by its name, and has the same contents.
      have hrecursed : ((((ys.foldl OpenGroups.after .empty).shift n c).find? reference).map
            fun g => contentSpan p g.contentStart) =
          (((ys.foldl OpenGroups.after .empty).find? reference).map
            fun g => contentSpan q g.contentStart).map (Span.shift n) := by
        rw [OpenGroups.find?_shift hvalue, Option.map_map, Option.map_map]
        refine Option.map_congr fun g hg => ?_
        obtain ⟨as, o, bs, rfl, ho, hstart, -⟩ :=
          exists_opening_of_mem_stack (List.mem_of_find?_eq_some hg)
        have hmem : o ∈ topLevel q := by rw [hsplit]; simp
        have hspan := contentSpan_shift hp h.balanced hmem ho
        rwa [← hstart] at hspan
      rw [Directive.ofLexeme?, htoken] at hd
      obtain rfl := Option.some.inj hd
      simp only [Directive.ofLexeme?, Lexeme.token_shift, htoken, hrecursed]
      rfl

/-! ## The pattern in its context -/

section Context

variable {a q b : Text}

/-- A pattern of groups is read apart from every text behind it. -/
theorem SelfContained.readsApart (hq : SelfContained q) (b : Text) : ReadsApart q b := by
  obtain ⟨ts, hts⟩ := List.getLast?_eq_some_iff.1 hq.getLast?
  have hlast : q.getLast? = some ')' := by
    rw [eq_spell_append hts]
    simp [Token.spelling]
  exact hq.complete.readsApart (.inr hlast)
    (not_completesDefine_of_balanced [] hq.balanced b)

/-- A text in front is read apart from the pattern. -/
theorem Surrounds.readsApart (hab : Surrounds a b) (hq : SelfContained q) :
    ReadsApart a (q ++ b) := by
  have hhead : (q ++ b).head? = some '(' := by rw [List.head?_append, hq.head?]; rfl
  exact hab.complete.readsApart (joinsTo_of_head? hhead)
    (not_completesDefine_of_balanced [] hab.balanced _)

/-- The lexemes of the pattern stand between those of the surrounding texts. -/
theorem SelfContained.topLevel_within (hq : SelfContained q) (hab : Surrounds a b) :
    topLevel (a ++ (q ++ b)) = topLevel a ++ ((topLevel q).map (Lexeme.shift a.utf8Length) ++
      ((topLevel b).map (Lexeme.shift q.utf8Length)).map (Lexeme.shift a.utf8Length)) := by
  rw [(hab.readsApart hq).topLevel_append, (hq.readsApart b).topLevel_append, List.map_append]

/-- The constructs are those of the pattern. -/
theorem SelfContained.occursIn_within (hq : SelfContained q) (hab : Surrounds a b)
    (construct : Construct) : construct.occursIn (a ++ (q ++ b)) = construct.occursIn q := by
  rw [(hab.readsApart hq).occursIn_append, (hq.readsApart b).occursIn_append,
    constructs_eq_nil_iff.1 hab.constructs_front, constructs_eq_nil_iff.1 hab.constructs_back,
    Bool.false_or, Bool.or_false]

/-- The directives are those of the pattern. -/
theorem SelfContained.directives_within (hq : SelfContained q) (hab : Surrounds a b) :
    directives (a ++ (q ++ b)) =
      (directives q).map (Directive.shift a.utf8Length (countCaptures a)) := by
  have htop := hq.topLevel_within hab
  -- In front of the pattern all groups are closed, and their captures are counted.
  have hcaptures : ((topLevel a).foldl OpenGroups.after .empty).captures =
      0 + countCaptures a := by
    rw [OpenGroups.captures_topLevel, Nat.zero_add]
  have hgroups : (topLevel a).foldl OpenGroups.after .empty =
      OpenGroups.empty.shift a.utf8Length (countCaptures a) :=
    congrArg₂ OpenGroups.mk (OpenGroups.stack_of_balanced hab.balanced .empty) hcaptures
  have hfront := recursions_eq_nil_of_constructs_eq_nil hab.constructs_front
  have hback : (((topLevel b).map (Lexeme.shift q.utf8Length)).map
      (Lexeme.shift a.utf8Length)).filter (fun x => x.token.isRecursion) = [] := by
    have hnone := recursions_eq_nil_of_constructs_eq_nil hab.constructs_back
    rw [recursions] at hnone
    rw [filter_isRecursion_map_shift, filter_isRecursion_map_shift, hnone, List.map_nil,
      List.map_nil]
  have hmiddle := directivesFrom_shift .empty fun ys x zs hsplit =>
    hq.ofLexeme?_shift htop (countCaptures a) hsplit
  rw [directives, htop, directivesFrom_append, directivesFrom_append,
    directivesFrom_eq_nil hfront, directivesFrom_eq_nil hback, hgroups, hmiddle, List.nil_append,
    List.append_nil]
  rfl

/-- A directive of the pattern recurses into captures where it does so by itself. -/
theorem Directive.recursesCaptures_within {d : Directive} (hd : d ∈ directives q) (a b : Text)
    (c : Nat) :
    (d.shift a.utf8Length c).recursesCaptures (a ++ (q ++ b)) = d.recursesCaptures q := by
  match hrecursed : d.recursed with
  | none => rw [recursesCaptures, recursesCaptures, shift, hrecursed]; rfl
  | some span =>
    obtain ⟨before, left, x, right, after, hparts⟩ := exists_parts hd hrecursed
    have hslice := hparts.cuts.boundary_start.slice_within hparts.cuts.stop_le_length a b
    rw [recursesCaptures, recursesCaptures, shift, hrecursed, Option.map_some, Option.any_some,
      Option.any_some, hslice]

/-- A message refers to a directive of the pattern as by itself. -/
theorem Directive.reference_within {d : Directive} (hd : d ∈ directives q) (a b : Text) (c : Nat)
    (mode : Mode) :
    (d.shift a.utf8Length c).reference (a ++ (q ++ b)) mode = d.reference q mode := by
  have hslice : (a ++ (q ++ b)).slice (d.span.shift a.utf8Length) = q.slice d.span := by
    obtain ⟨ys, zs, hsplit, -⟩ := exists_append_of_mem_directives hd
    obtain ⟨front, back, hlexemes, -⟩ := exists_append_of_filter_eq hsplit
    have hmem : d.lexeme ∈ lexemes q := by rw [hlexemes]; simp
    have hboundary : Boundary q d.span.start (classDepthAfter 0 (front.map Lexeme.token)) :=
      ⟨front, _, hlexemes, congrArg Span.start (span_eq_of_lexemes_append hlexemes), rfl⟩
    exact hboundary.slice_within (stop_le_utf8Length hmem) a b
  obtain ⟨target, depth, span, capturesBefore, recursed⟩ := d
  cases mode <;> cases target <;> first | rfl | exact hslice

end Context

/-- Between texts that surround it a pattern is expanded as by itself: it is rejected for the same
reason, or its expansion stands between the same texts, with its hidden captures behind those in
front. -/
theorem SelfContained.expand_append {a q b : Text} (hq : SelfContained q) (hab : Surrounds a b)
    (mode : Mode) :
    (Expansion.ofPattern (a ++ q ++ b)).expand mode =
      ((Expansion.ofPattern q).expand mode).map fun e =>
        ⟨a ++ e.pattern ++ b, e.hiddenCaptures.map (· + countCaptures a), .empty⟩ := by
  rw [List.append_assoc]
  have hwithin := hq.directives_within hab
  match hds : directives q with
  | [] =>
    rw [hds, List.map_nil] at hwithin
    rw [Expansion.expand_of_directives_eq_nil hwithin, Expansion.expand_of_directives_eq_nil hds,
      Except.map, Expansion.ofPattern, Expansion.ofPattern, List.append_assoc, List.map_nil]
  | d :: others =>
    have hd : d ∈ directives q := by rw [hds]; exact List.mem_cons_self
    rw [hds, List.map_cons] at hwithin
    have hcut := Recursion.ofDirectives_within (a := a) (b := b) mode others
      (hq.occursIn_within hab) (Directive.recursesCaptures_within hd a b (countCaptures a))
      (fun _ => Directive.reference_within hd a b (countCaptures a) mode)
      (fun span depth hspan => by
        obtain ⟨before, left, x, right, after, hparts⟩ := exists_parts hd hspan
        exact Recursion.around_within hparts.cuts a b depth)
    rw [Expansion.expand_of_directives_eq_cons hwithin, Expansion.expand_of_directives_eq_cons hds]
    rw [Expansion.ofPattern, Expansion.ofPattern, hcut]
    cases Recursion.ofDirectives q mode d others with
    | error => rfl
    | ok r =>
      simp only [Except.map, Expansion.ofRecursion_within, List.append_assoc]

/-- A group of the same name in front, and behind a reference to it, a `)` that closes nothing and a
class that is not closed. -/
theorem SelfContained.expand_append_between_namesakes :
    ∃ a q b : Text, a = "(?<w>[(])\\)".toList ∧ q = "(?<w>a(b)\\g<w&R=2>\\k<w>c)".toList ∧
      b = "\\k<w>)[(".toList ∧ SelfContained q ∧ Surrounds a b ∧
      (Expansion.ofPattern q).expand .plugin =
        .ok ⟨"(?<w>a(b)(?:a(b)(?:)\\k<w>c)\\k<w>c)".toList, [3], .empty⟩ ∧
      (Expansion.ofPattern (a ++ q ++ b)).expand .plugin =
        .ok ⟨a ++ "(?<w>a(b)(?:a(b)(?:)\\k<w>c)\\k<w>c)".toList ++ b, [4], .empty⟩ := by
  let a : Text := "(?<w>[(])\\)".toList
  let q : Text := "(?<w>a(b)\\g<w&R=2>\\k<w>c)".toList
  let b : Text := "\\k<w>)[(".toList
  have hq : SelfContained q := by decide +kernel
  have hab : Surrounds a b := by decide +kernel
  have hexpand : (Expansion.ofPattern q).expand .plugin =
      .ok ⟨"(?<w>a(b)(?:a(b)(?:)\\k<w>c)\\k<w>c)".toList, [3], .empty⟩ := by decide +kernel
  have hcount : countCaptures a = 1 := by decide +kernel
  refine ⟨a, q, b, rfl, rfl, rfl, hq, hab, hexpand, ?_⟩
  rw [hq.expand_append hab, hexpand, Except.map, hcount]
  rfl

end RegexUnroll
