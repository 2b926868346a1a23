import RegexUnroll.Proofs.Backreferences
import RegexUnroll.Proofs.Context

/-!
# Recursion of the whole pattern and of a group

A recursion of the whole pattern can be written with a group: a new group around the pattern, and a
directive for that group. Both patterns are unrolled to the same nest, once with the group around it
(`Body.recursions_agree`).

Each of the two is taken apart at its only directive (`StandsAlone.expand_eq`), into the same texts
on the sides. For the group that needs a new name (`NewName`), so that the directive means this
group and no other, and groups that are closed between the two texts, so that they do not close it.
The nest of a group leaves references to other groups alone, where the nest of the whole pattern
tags all of them, so the texts have to refer to each other only (`Body`, `Nesting.text_congr`).
-/

namespace RegexUnroll

/-! ## A directive that stands alone -/

/-- The delimiters of a capturing group begin no construct. -/
theorem Token.constructs_spelling_eq_nil {t : Token} {s : Text} (h : t.ReadsTopLevel s)
    (ht : t.isCaptureOpen ∨ t = .groupClose) : constructs t.spelling = [] := by
  have hclass : t ≠ .classOpen := by
    rintro rfl
    exact absurd ht (by decide)
  refine constructs_eq_nil_iff.2 fun construct => ?_
  rw [occursIn_spelling h hclass]
  cases t <;> first | (cases construct <;> rfl) | exact absurd ht (by simp [isCaptureOpen])

/-- Whether a directive stands between two texts that are read apart from it and use no construct.
-/
structure StandsAlone (s : Text) (x : Token) (t : Text) : Prop where
  /-- The token is a directive. -/
  isRecursion : x.isRecursion
  /-- The directive is read where it stands. -/
  readsTopLevel : x.ReadsTopLevel t
  /-- The text in front is read apart from the directive and what follows. -/
  front : ReadsApart s (x.spelling ++ t)
  /-- The text in front uses no construct. -/
  constructs_front : constructs s = []
  /-- The text behind uses no construct. -/
  constructs_back : constructs t = []

namespace StandsAlone

variable {s t : Text} {x : Token}

/-- The directive is read apart from the text behind. -/
theorem back (h : StandsAlone s x t) : ReadsApart x.spelling t := by
  refine Token.readsApart h.readsTopLevel ?_ ?_
  · rcases Token.eq_of_isRecursion h.isRecursion with ⟨_, rfl⟩ | ⟨_, _, rfl⟩ <;> rfl
  · rintro rfl
    exact absurd h.isRecursion (by decide)

/-- The directive opens no class. -/
theorem ne_classOpen (h : StandsAlone s x t) : x ≠ .classOpen := by
  rintro rfl
  exact absurd h.isRecursion (by decide)

/-- The lexeme of the directive stands between those of the two texts. -/
theorem topLevel_eq (h : StandsAlone s x t) :
    topLevel (s ++ (x.spelling ++ t)) = topLevel s ++ x.lexemeAt s.utf8Length ::
      (topLevel t).map (Lexeme.shift (Text.utf8Length x.spelling + s.utf8Length)) := by
  have hcomp : Lexeme.shift s.utf8Length ∘ Lexeme.shift (Text.utf8Length x.spelling) =
      Lexeme.shift (Text.utf8Length x.spelling + s.utf8Length) :=
    funext (Lexeme.shift_shift _ _)
  rw [h.front.topLevel_append, h.back.topLevel_append,
    Token.topLevel_spelling h.readsTopLevel h.ne_classOpen, List.map_append, List.map_map, hcomp,
    List.map_cons, Token.shift_lexemeAt, Nat.zero_add]
  rfl

/-- The pattern has the one directive. -/
theorem directives_eq (h : StandsAlone s x t) {d : Directive}
    (hd : Directive.ofLexeme? (s ++ (x.spelling ++ t))
      ((topLevel s).foldl OpenGroups.after .empty) (x.lexemeAt s.utf8Length) = some d) :
    directives (s ++ (x.spelling ++ t)) = [d] := by
  have hfront := recursions_eq_nil_of_constructs_eq_nil h.constructs_front
  have hback := recursions_eq_nil_of_constructs_eq_nil h.constructs_back
  rw [recursions] at hback
  rw [directives, h.topLevel_eq, directivesFrom_append, directivesFrom_eq_nil hfront,
    directivesFrom, hd, directivesFrom_eq_nil (by rw [filter_isRecursion_map_shift, hback]; rfl)]
  rfl

/-- The pattern uses no other construct. -/
theorem occursIn_eq_false (h : StandsAlone s x t) {construct : Construct}
    (hne : construct ≠ .recursion) : construct.occursIn (s ++ (x.spelling ++ t)) = false := by
  have hdirective : construct.occursIn x.spelling = false := by
    rw [Token.occursIn_spelling h.readsTopLevel h.ne_classOpen]
    rcases Token.eq_of_isRecursion h.isRecursion with ⟨_, rfl⟩ | ⟨_, _, rfl⟩ <;>
      cases construct <;> first | rfl | exact absurd rfl hne
  rw [h.front.occursIn_append, h.back.occursIn_append, hdirective,
    constructs_eq_nil_iff.1 h.constructs_front, constructs_eq_nil_iff.1 h.constructs_back]
  rfl

/-- Where the directive is found to recurse into the texts next to it, it is unrolled between them.
-/
theorem expand_eq {b l r a : Text} (h : StandsAlone (b ++ l) x (r ++ a)) {d : Directive}
    (hd : Directive.ofLexeme? (b ++ l ++ (x.spelling ++ (r ++ a)))
      ((topLevel (b ++ l)).foldl OpenGroups.after .empty) (x.lexemeAt (b ++ l).utf8Length) = some d)
    {depth : MaxDepth} (hdepth : d.depth = depth.render)
    (hspan : d.recursed = some ⟨b.utf8Length, (b ++ l ++ (x.spelling ++ r)).utf8Length⟩)
    (mode : Mode) :
    (Expansion.ofPattern (b ++ l ++ (x.spelling ++ (r ++ a)))).expand mode =
      .ok (.ofRecursion ⟨b, l, r, a, d.target.scope, depth, countCaptures (b ++ l)⟩ [] .empty) := by
  obtain ⟨-, hdirective, hcaptures, -⟩ := Directive.of_ofLexeme? hd
  rw [OpenGroups.captures_topLevel] at hcaptures
  obtain ⟨hbefore, hleft, hright, hafter⟩ := cut_append b l x.spelling r a
  have hcut : Recursion.around (b ++ l ++ (x.spelling ++ (r ++ a))) d
      ⟨b.utf8Length, (b ++ l ++ (x.spelling ++ r)).utf8Length⟩ depth =
        ⟨b, l, r, a, d.target.scope, depth, countCaptures (b ++ l)⟩ := by
    simp only [Recursion.around, hdirective, hcaptures, Token.lexemeAt, List.append_assoc,
      Text.utf8Length_append, ← Nat.add_assoc, hbefore, hleft, hright, hafter]
  have hfound : Recursion.ofDirectives (b ++ l ++ (x.spelling ++ (r ++ a))) mode d [] =
      .ok ⟨b, l, r, a, d.target.scope, depth, countCaptures (b ++ l)⟩ := by
    rw [Recursion.ofDirectives_of_accepted (MaxDepth.ofLiteral?_eq_some_iff.2 hdepth) (by simp),
      h.occursIn_eq_false (by decide), h.occursIn_eq_false (by decide), hspan, ← hcut]
    rfl
  rw [Expansion.expand_of_directives_eq_cons (h.directives_eq hd)]
  exact congrArg (Except.map fun r => Expansion.ofRecursion r [] .empty) hfound

end StandsAlone

/-! ## Texts that refer to each other only -/

/-- The name that a token refers to. -/
def Token.referredName? : Token → Option Text
  | namedBackref name => some name
  | _ => none

/-- The names that a pattern refers to, in order. -/
def referredNames (p : Text) : List Text := (topLevel p).filterMap fun x => x.token.referredName?

/-- The names are those that the tokens refer to. -/
theorem referredNames_eq (p : Text) :
    referredNames p = (tokens p).filterMap Token.referredName? :=
  filterMap_topLevel p fun t rest h => by
    cases t <;> first | rfl | exact h.elim

/-- A copy of a token depends on whether references to the name that it refers to follow. -/
theorem Token.atDepth_congr {names names' : CopiedNames} {t : Token}
    (h : ∀ name ∈ t.referredName?, names.contains name = names'.contains name) (depth : Nat) :
    t.atDepth names depth = t.atDepth names' depth := by
  cases t with
  | namedBackref name => rw [atDepth, atDepth, h name rfl]
  | _ => rfl

/-- The nest of two texts depends on whether references to the names that they refer to follow. -/
theorem Nesting.text_congr {left right : Text} {copies : Nat} {scope scope' : Scope}
    (hright : Complete right)
    (h : ∀ name ∈ referredNames left ++ referredNames right,
      (Nesting.mk left right copies scope).names.contains name =
        (Nesting.mk left right copies scope').names.contains name) :
    (Nesting.mk left right copies scope).text = (Nesting.mk left right copies scope').text := by
  have hcopy : ∀ t ∈ tokens left ++ tokens (right ++ [')']), ∀ depth,
      t.atDepth (Nesting.mk left right copies scope).names depth =
        t.atDepth (Nesting.mk left right copies scope').names depth := by
    intro t ht depth
    refine Token.atDepth_congr (fun name hname => h name ?_) depth
    -- The delimiter behind the text on the right refers to nothing.
    rw [hright.tokens_append_paren, List.mem_append, List.mem_append, List.mem_singleton] at ht
    rw [referredNames_eq, referredNames_eq, List.mem_append, List.mem_filterMap,
      List.mem_filterMap]
    rcases ht with ht | ht | rfl
    · exact .inl ⟨t, ht, hname⟩
    · exact .inr ⟨t, ht, hname⟩
    · exact absurd hname (by simp [Token.referredName?])
  have hcopies : (Nesting.mk left right copies scope).copyTokens =
      (Nesting.mk left right copies scope').copyTokens := by
    refine congrArg₂ (· ++ ·) (congrArg (· ++ _) ?_) ?_
    · refine List.flatMap_congr fun d _ => congrArg (_ ++ ·) (List.map_congr_left fun t ht => ?_)
      exact hcopy t (List.mem_append_left _ ht) d
    · refine List.flatMap_congr fun d _ => List.map_congr_left fun t ht => ?_
      exact hcopy t (List.mem_append_right _ ht) d
  rw [text_eq, text_eq, hcopies]

/-- Whether two texts around a directive use no other construct, close their groups between them and
refer to no group outside of them. -/
@[mk_iff] structure Body (left right : Text) : Prop where
  /-- Nothing is cut off on the left. -/
  complete_left : Complete left
  /-- Nothing is cut off on the right. -/
  complete_right : Complete right
  /-- Groups are opened and closed in the texts, if not on one side. -/
  balanced : Balanced ((topLevel left ++ topLevel right).map Lexeme.token)
  /-- The text on the left uses no construct. -/
  constructs_left : constructs left = []
  /-- The text on the right uses no construct. -/
  constructs_right : constructs right = []
  /-- The names referred to are names of groups of the texts. -/
  referredNames : ∀ name ∈ referredNames left ++ referredNames right,
    name ∈ groupNames left ++ groupNames right

/-- Whether a group around two texts can be called `name`, and directives for that name refer to it.
-/
@[mk_iff] structure NewName (name left right : Text) : Prop where
  /-- The opening of the group is read. -/
  isGroupName : Token.isGroupName name
  /-- It is read up to the end of the name. -/
  angle : '>' ∉ name
  /-- The directive is read with that name. -/
  ampersand : '&' ∉ name
  /-- The name is no number. -/
  isCanonical : Numeral.isCanonical name = false
  /-- The texts have no group of that name. -/
  groupNames : name ∉ groupNames left ++ groupNames right

/-- Whether two texts are the body of a recursion is decided on their lexemes. -/
instance (left right : Text) : Decidable (Body left right) :=
  decidable_of_iff' _ (body_iff left right)

/-- Whether a name is new is decided on the name and the lexemes. -/
instance (name left right : Text) : Decidable (NewName name left right) :=
  decidable_of_iff' _ (newName_iff name left right)

/-- The pattern with a directive for all of it between two texts. -/
def recursePattern (left : Text) (depth : MaxDepth) (right : Text) : Text :=
  left ++ (Token.globalRecursion depth.render).spelling ++ right

/-- The group with a directive for it between two texts. -/
def recurseGroup (name left : Text) (depth : MaxDepth) (right : Text) : Text :=
  (Token.namedCaptureOpen name).spelling ++ left ++
    (Token.subpatternRecursion name depth.render).spelling ++ right ++ Token.groupClose.spelling

/-! ## The two recursions -/

section Recursions

variable {name left right : Text}

/-- Nothing but digits writes a depth. -/
theorem MaxDepth.not_mem_render (depth : MaxDepth) {c : Char} (h : ¬c.isDigit) :
    c ∉ depth.render :=
  fun hmem => h (Numeral.isDigit_of_mem_render hmem)

/-- The directive for the whole pattern stands alone. -/
theorem Body.standsAlone_globalRecursion (h : Body left right) (depth : MaxDepth) :
    StandsAlone left (.globalRecursion depth.render) right where
  isRecursion := rfl
  readsTopLevel := depth.not_mem_render (by decide)
  front := h.complete_left.readsApart (joinsTo_of_head? rfl)
    (not_completesDefine_of_tails _ (by simp [defineTail, Token.spelling]))
  constructs_front := h.constructs_left
  constructs_back := h.constructs_right

/-- A directive for the whole pattern is unrolled between the two texts. -/
theorem Body.expand_recursePattern (h : Body left right) (depth : MaxDepth) (mode : Mode) :
    (Expansion.ofPattern (recursePattern left depth right)).expand mode =
      .ok (.ofRecursion ⟨[], left, right, [], .global, depth, countCaptures left⟩ [] .empty) := by
  have hstands : StandsAlone ([] ++ left) (.globalRecursion depth.render) (right ++ []) := by
    rw [List.append_nil]
    exact h.standsAlone_globalRecursion depth
  have hexpand := hstands.expand_eq rfl rfl (by rw [List.append_nil]; rfl) mode
  rw [List.append_nil] at hexpand
  rw [recursePattern, List.append_assoc]
  exact hexpand

/-- The opening of a group with a new name is read apart from every text. -/
theorem NewName.readsApart (hname : NewName name left right) (s : Text) :
    ReadsApart (Token.namedCaptureOpen name).spelling s :=
  Token.readsApart ⟨hname.angle, hname.isGroupName⟩ rfl (by simp)

/-- The text on the right is read apart from the delimiter that closes a group around it. -/
theorem Body.readsApart_groupClose (h : Body left right) :
    ReadsApart right Token.groupClose.spelling :=
  h.complete_right.readsApart (.inl (by simp [Token.spelling, goesOn]))
    (not_completesDefine_of_balanced ((topLevel left).map Lexeme.token)
      (by rw [← List.map_append]; exact h.balanced) _)

/-- The directive for the group stands alone. -/
theorem Body.standsAlone_subpatternRecursion (h : Body left right)
    (hname : NewName name left right) (depth : MaxDepth) :
    StandsAlone ((Token.namedCaptureOpen name).spelling ++ left)
      (.subpatternRecursion name depth.render) (right ++ Token.groupClose.spelling) where
  isRecursion := rfl
  readsTopLevel := by
    refine ⟨?_, hname.angle, hname.ampersand, depth.not_mem_render (by decide)⟩
    rintro rfl
    exact absurd hname.isGroupName (by decide)
  front := by
    have hleft : ReadsApart left ((Token.subpatternRecursion name depth.render).spelling ++
        (right ++ Token.groupClose.spelling)) :=
      h.complete_left.readsApart (.inl (by simp [Token.spelling, goesOn]))
        (not_completesDefine_of_tails _ (by simp [defineTail, Token.spelling]))
    exact (hname.readsApart left).append (hname.readsApart _) hleft
  constructs_front := (hname.readsApart left).constructs_append_eq_nil
    (Token.constructs_spelling_eq_nil (s := []) ⟨hname.angle, hname.isGroupName⟩ (.inl rfl))
    h.constructs_left
  constructs_back := h.readsApart_groupClose.constructs_append_eq_nil h.constructs_right
    (Token.constructs_spelling_eq_nil (s := []) trivial (.inr rfl))

/-- The group is the innermost one that the directive refers to: the text before the directive opens
no group of that name, and what it opens in the new group does not close that one. -/
theorem Body.innermost (h : Body left right) (hname : NewName name left right) {p : Text}
    {x : Lexeme} {zs : List Lexeme} {n : Nat}
    (hsplit : topLevel p = ((Token.namedCaptureOpen name).lexemeAt 0 ::
      (topLevel left).map (Lexeme.shift n)) ++ x :: zs) :
    Innermost p name x ((Token.namedCaptureOpen name).lexemeAt 0) := by
  have hbalanced : Balanced
      (((topLevel left).map (Lexeme.shift n) ++ topLevel right).map Lexeme.token) := by
    rw [List.map_append, map_token_map_shift, ← List.map_append]
    exact h.balanced
  have hopen := closing?_eq_none_of_balanced hbalanced
  refine ⟨(openAt_iff hsplit).2 ⟨[], _, rfl, rfl, hopen⟩, .inl rfl, fun o' hopen' hrefers => ?_⟩
  obtain ⟨as, bs, hcut⟩ := List.append_of_mem hopen'.mem_topLevel
  rcases hrefers with hnamed | ⟨hcapture, hnumber⟩
  · -- A group of that name is the new one.
    obtain ⟨as', bs', hfront, -, -⟩ := (openAt_iff hsplit).1 hopen'
    have hmem : o' ∈ (Token.namedCaptureOpen name).lexemeAt 0 ::
        (topLevel left).map (Lexeme.shift n) := by
      rw [hfront]
      simp
    rcases List.mem_cons.1 hmem with rfl | hmem
    · exact Nat.le_refl _
    · obtain ⟨y, hy, rfl⟩ := List.mem_map.1 hmem
      have hgroup : name ∈ groupNames left := List.mem_filterMap.2 ⟨y, hy, hnamed⟩
      exact absurd (List.mem_append_left _ hgroup) hname.groupNames
  · -- And the name is no number.
    rw [captureNumber_of_topLevel_eq hcut hcapture] at hnumber
    have hvalue := Numeral.value?_render (Nat.succ_pos
      (as.countP fun x => x.token.isCaptureOpen))
    rw [hnumber] at hvalue
    have hcanonical := Numeral.isSome_value? name
    rw [hvalue, hname.isCanonical] at hcanonical
    exact absurd hcanonical (by simp)

/-- The directive recurses into the contents of the group. -/
theorem Body.ofLexeme?_eq (h : Body left right) (hname : NewName name left right) {p : Text}
    {x c : Lexeme} {m n : Nat} {literal : Text}
    (hsplit : topLevel p = ((Token.namedCaptureOpen name).lexemeAt 0 ::
      (topLevel left).map (Lexeme.shift m)) ++ x :: ((topLevel right).map (Lexeme.shift n) ++ [c]))
    (hx : x.token = .subpatternRecursion name literal) (hc : c.token = .groupClose) :
    Directive.ofLexeme? p (((Token.namedCaptureOpen name).lexemeAt 0 ::
        (topLevel left).map (Lexeme.shift m)).foldl OpenGroups.after .empty) x =
      some ⟨.group name, literal, x.span, (((Token.namedCaptureOpen name).lexemeAt 0 ::
        (topLevel left).map (Lexeme.shift m)).foldl OpenGroups.after .empty).captures,
        some ⟨((Token.namedCaptureOpen name).lexemeAt 0).span.stop, c.span.start⟩⟩ := by
  let o : Lexeme := (Token.namedCaptureOpen name).lexemeAt 0
  have hfind : ((o :: (topLevel left).map (Lexeme.shift m)).foldl OpenGroups.after .empty).find?
      name = some (OpenGroup.opened [] o) :=
    (find?_eq_some_iff hsplit).2 ⟨[], o, _, hsplit, h.innermost hname hsplit, rfl⟩
  have hbalanced : Balanced (((topLevel left).map (Lexeme.shift m) ++
      x :: (topLevel right).map (Lexeme.shift n)).map Lexeme.token) := by
    rw [List.map_append, List.map_cons, map_token_map_shift, map_token_map_shift, hx]
    refine Balanced.insert ?_ (by simp [Token.isGroupOpen]) (by simp)
    rw [← List.map_append]
    exact h.balanced
  have hcloses : Closes p o c := ⟨rfl, hc, [], _, [], by rw [hsplit]; simp [o], hbalanced⟩
  have hcontent : contentSpan p o.span.stop = ⟨o.span.stop, c.span.start⟩ :=
    contentSpan_of_closes (by rw [hsplit]; simp [o]) hcloses
  simp only [Directive.ofLexeme?, hx, o] at hfind hcontent ⊢
  rw [hfind, Option.map_some, OpenGroup.opened, hcontent]

/-- A directive for the group is unrolled between the two texts, with the delimiters of the group
around them. -/
theorem Body.expand_recurseGroup (h : Body left right) (hname : NewName name left right)
    (depth : MaxDepth) (mode : Mode) :
    (Expansion.ofPattern (recurseGroup name left depth right)).expand mode =
      .ok (.ofRecursion ⟨(Token.namedCaptureOpen name).spelling, left, right,
        Token.groupClose.spelling, .subpattern, depth, countCaptures left + 1⟩ [] .empty) := by
  have hreads : (Token.namedCaptureOpen name).ReadsTopLevel left :=
    ⟨hname.angle, hname.isGroupName⟩
  have hstands := h.standsAlone_subpatternRecursion hname depth
  -- The group is opened by the first lexeme of the pattern and closed by the last.
  have hfront : topLevel ((Token.namedCaptureOpen name).spelling ++ left) =
      (Token.namedCaptureOpen name).lexemeAt 0 :: (topLevel left).map
        (Lexeme.shift (Text.utf8Length (Token.namedCaptureOpen name).spelling)) := by
    rw [(hname.readsApart left).topLevel_append, Token.topLevel_spelling hreads (by simp)]
    rfl
  have hback : topLevel (right ++ Token.groupClose.spelling) =
      topLevel right ++ [Token.groupClose.lexemeAt right.utf8Length] := by
    have hparen := Token.topLevel_spelling (t := .groupClose) (s := []) trivial (by simp)
    rw [h.readsApart_groupClose.topLevel_append, hparen, List.map_cons, Token.shift_lexemeAt,
      Nat.zero_add, List.map_nil]
  have htop := hstands.topLevel_eq
  rw [hfront, hback, List.map_append, List.map_cons, List.map_nil, Token.shift_lexemeAt] at htop
  have hd := h.ofLexeme?_eq hname htop rfl rfl
  rw [← hfront] at hd
  have hcount : countCaptures ((Token.namedCaptureOpen name).spelling ++ left) =
      countCaptures left + 1 := by
    rw [(hname.readsApart left).countCaptures_append, countCaptures_eq,
      Token.tokens_spelling hreads, Nat.add_comm]
    rfl
  have hexpand := hstands.expand_eq hd rfl (congrArg some (by
    simp only [Token.lexemeAt, Text.utf8Length_append, Span.mk.injEq]
    omega)) mode
  rw [recurseGroup, List.append_assoc, List.append_assoc, hexpand, hcount]
  rfl

/-- The nest of the whole pattern is the nest of the group. -/
theorem Body.text_global (h : Body left right) (copies : Nat) :
    (Nesting.mk left right copies .global).text =
      (Nesting.mk left right copies .subpattern).text := by
  refine Nesting.text_congr h.complete_right fun name hname => ?_
  rw [Bool.eq_iff_iff, Nesting.contains_names_iff, Nesting.contains_names_iff]
  exact ⟨fun _ => .inr (h.referredNames name hname), fun _ => .inl rfl⟩

end Recursions

/-- A recursion of the whole pattern and one of a new group around the same texts agree: both are
unrolled, to the same text with the delimiters of the group around it, and the captures hidden there
come one later, behind the group. -/
theorem Body.recursions_agree {name left right : Text} (h : Body left right)
    (hname : NewName name left right) (depth : MaxDepth) (mode : Mode) :
    ∃ pattern hidden,
      (Expansion.ofPattern (recursePattern left depth right)).expand mode =
        .ok ⟨pattern, hidden, .empty⟩ ∧
      (Expansion.ofPattern (recurseGroup name left depth right)).expand mode =
        .ok ⟨(Token.namedCaptureOpen name).spelling ++ pattern ++ Token.groupClose.spelling,
          hidden.map (· + 1), .empty⟩ := by
  let nest : Nesting := ⟨left, right, depth.copies, .global⟩
  refine ⟨nest.text, hideNew (countCaptures left) nest.newCaptures [], ?_, ?_⟩
  · rw [h.expand_recursePattern, Expansion.ofRecursion, CaptureTransfers.empty_afterUnrolling,
      List.nil_append, List.append_nil]
    rfl
  · rw [h.expand_recurseGroup hname, Expansion.ofRecursion, CaptureTransfers.empty_afterUnrolling,
      ← hideNew_nil_add, h.text_global]
    rfl

/-- A group that goes across the directive, and references from each side to the other one. -/
theorem Body.recursions_agree_across_sides :
    ∃ name left right pattern hidden, name = "r".toList ∧ left = "(?<a>x)(\\k<b>".toList ∧
      right = "(?<b>[)])*)\\k<a>".toList ∧ Body left right ∧ NewName name left right ∧
      pattern = ("(?<a>x)(\\k<b>(?:(?<a_$2>x)(\\k<b_$2>(?:)(?<b_$2>[)])*)\\k<a_$2>)" ++
        "(?<b>[)])*)\\k<a>").toList ∧ hidden = [3, 4, 5] ∧
      (Expansion.ofPattern (recursePattern left ⟨2, by decide, by decide⟩ right)).expand .plugin =
        .ok ⟨pattern, hidden, .empty⟩ ∧
      (Expansion.ofPattern (recurseGroup name left ⟨2, by decide, by decide⟩ right)).expand
        .plugin = .ok ⟨(Token.namedCaptureOpen name).spelling ++ pattern ++
          Token.groupClose.spelling, hidden.map (· + 1), .empty⟩ := by
  let left : Text := "(?<a>x)(\\k<b>".toList
  let right : Text := "(?<b>[)])*)\\k<a>".toList
  have h : Body left right := by decide +kernel
  have hname : NewName ['r'] left right := by decide +kernel
  obtain ⟨pattern, hidden, hglobal, hgroup⟩ :=
    h.recursions_agree hname ⟨2, by decide, by decide⟩ .plugin
  have hexpand : (Expansion.ofPattern (recursePattern left ⟨2, by decide, by decide⟩ right)).expand
      .plugin = .ok ⟨("(?<a>x)(\\k<b>(?:(?<a_$2>x)(\\k<b_$2>(?:)(?<b_$2>[)])*)\\k<a_$2>)" ++
        "(?<b>[)])*)\\k<a>").toList, [3, 4, 5], .empty⟩ := by decide +kernel
  obtain ⟨rfl, rfl, -⟩ := Expansion.mk.inj (Except.ok.inj (hglobal.symm.trans hexpand))
  exact ⟨['r'], left, right, _, _, rfl, rfl, rfl, h, hname, rfl, rfl, hglobal, hgroup⟩

end RegexUnroll
