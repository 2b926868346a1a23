import RegexUnroll.Proofs.Tiling

/-!
# What stands at a token

Outside classes the token that is read at a place is the form that the text begins with there. Each
of the four forms with parameters is a grammar of its own: two delimiters with a parameter between
them that does not reach over the second one (`BeginsGroup` and the others). A text begins with at
most one of them and with at most one choice of the parameters, because two tokens that may both be
read at a place are the same (`Token.ReadsAt.unique`). Where it begins with none of them, its
first two characters decide.

`FollowsGrammar` says that of a token and the text from its place on, and `followsGrammar_topLevel`
says it of all tokens that are read outside classes, however far ahead a form would be closed.
-/

namespace RegexUnroll

/-! ## Forms with parameters -/

/-- Whether a text begins with `(?<name>`. The name is not empty and ends at the first `>`, and no
`=` or `!` at its front makes the group a lookbehind. -/
def BeginsGroup (rest name : Text) : Prop :=
  ['(', '?', '<'] ++ name ++ ['>'] <+: rest ∧ name ≠ [] ∧ '>' ∉ name ∧
    name.head? ≠ some '=' ∧ name.head? ≠ some '!'

/-- Whether a text begins with `(?R=depth)`. The depth ends at the first `)`. -/
def BeginsGlobalRecursion (rest depth : Text) : Prop :=
  ['(', '?', 'R', '='] ++ depth ++ [')'] <+: rest ∧ ')' ∉ depth

/-- Whether a text begins with `\k<name>`. The name is not empty and ends at the first `>`. -/
def BeginsReference (rest name : Text) : Prop :=
  ['\\', 'k', '<'] ++ name ++ ['>'] <+: rest ∧ name ≠ [] ∧ '>' ∉ name

/-- Whether a text begins with `\g<target&R=depth>`. The target is not empty and ends at the first
`&`, before any `>`, and the depth ends at the first `>`. -/
def BeginsSubpatternRecursion (rest target depth : Text) : Prop :=
  ['\\', 'g', '<'] ++ target ++ ['&', 'R', '='] ++ depth ++ ['>'] <+: rest ∧
    target ≠ [] ∧ '>' ∉ target ∧ '&' ∉ target ∧ '>' ∉ depth

/-- Whether a text begins with one of the forms with parameters. -/
def BeginsForm (rest : Text) : Prop :=
  (∃ target depth, BeginsSubpatternRecursion rest target depth) ∨
    (∃ name, BeginsReference rest name) ∨ (∃ name, BeginsGroup rest name) ∨
      ∃ depth, BeginsGlobalRecursion rest depth

/-- Whether a token is what the text from its place on begins with. -/
structure FollowsGrammar (rest : Text) (t : Token) : Prop where
  /-- The token is a directive for a group exactly where one is written out. -/
  subpatternRecursion_iff : ∀ target depth,
    t = .subpatternRecursion target depth ↔ BeginsSubpatternRecursion rest target depth
  /-- The token is a reference by name exactly where one is written out. -/
  namedBackref_iff : ∀ name, t = .namedBackref name ↔ BeginsReference rest name
  /-- The token opens a named group exactly where its opening is written out. -/
  namedCaptureOpen_iff : ∀ name, t = .namedCaptureOpen name ↔ BeginsGroup rest name
  /-- The token is a directive for the whole pattern exactly where one is written out. -/
  globalRecursion_iff : ∀ depth, t = .globalRecursion depth ↔ BeginsGlobalRecursion rest depth
  /-- Otherwise an opening parenthesis opens a group of another kind where a question mark follows,
  and a capturing group where none does. -/
  eq_of_paren : ¬BeginsForm rest → ∀ s, rest = '(' :: s →
    t = if s.head? = some '?' then .groupOpen else .captureOpen
  /-- Otherwise a backslash escapes the character behind it, and stands for itself at the end. -/
  eq_of_backslash : ¬BeginsForm rest → ∀ s, rest = '\\' :: s →
    t = s.head?.elim (.char '\\') .escaped
  /-- Every other character is read by itself. -/
  eq_of_ne : ∀ c s, rest = c :: s → c ≠ '(' → c ≠ '\\' →
    t = if c = ')' then .groupClose else if c = '[' then .classOpen else .char c
  /-- The parameters of a directive for a group are determined. -/
  subpatternRecursion_inj : ∀ target depth target' depth',
    BeginsSubpatternRecursion rest target depth → BeginsSubpatternRecursion rest target' depth' →
      target = target' ∧ depth = depth'
  /-- The name in a reference is determined. -/
  namedBackref_inj : ∀ name name',
    BeginsReference rest name → BeginsReference rest name' → name = name'
  /-- The name of a group is determined. -/
  namedCaptureOpen_inj : ∀ name name', BeginsGroup rest name → BeginsGroup rest name' → name = name'
  /-- The depth of a directive for the whole pattern is determined. -/
  globalRecursion_inj : ∀ depth depth',
    BeginsGlobalRecursion rest depth → BeginsGlobalRecursion rest depth' → depth = depth'

/-! ## The token at a place -/

namespace Token

/-- Whether a token may be read at the front of a text, outside classes. -/
def ReadsAt (rest : Text) (t : Token) : Prop :=
  ∃ behind, rest = t.spelling ++ behind ∧ t.ReadsTopLevel behind

/-- Only one token may be read at the front of a text. -/
theorem ReadsAt.unique {rest : Text} {t t' : Token} (h : t.ReadsAt rest) (h' : t'.ReadsAt rest) :
    t = t' := by
  obtain ⟨behind, hspell, hread⟩ := h
  obtain ⟨behind', hspell', hread'⟩ := h'
  obtain ⟨c, s, rfl⟩ : ∃ c s, rest = c :: s := by
    refine List.exists_cons_of_ne_nil fun hnil => ?_
    rw [hnil] at hspell
    exact t.spelling_ne_nil (List.append_eq_nil_iff.1 hspell.symm).1
  have ht := readTopLevel_of_readsTopLevel hspell hread
  have ht' := readTopLevel_of_readsTopLevel hspell' hread'
  exact congrArg Prod.fst (ht.symm.trans ht')

/-- A directive for a group may be read where one is written out. -/
theorem readsAt_subpatternRecursion_iff {rest target depth : Text} :
    (subpatternRecursion target depth).ReadsAt rest ↔
      BeginsSubpatternRecursion rest target depth := by
  constructor
  · rintro ⟨behind, rfl, hread⟩
    exact ⟨⟨behind, rfl⟩, hread⟩
  · rintro ⟨⟨behind, rfl⟩, hread⟩
    exact ⟨behind, rfl, hread⟩

/-- A reference by name may be read where one is written out. -/
theorem readsAt_namedBackref_iff {rest name : Text} :
    (namedBackref name).ReadsAt rest ↔ BeginsReference rest name := by
  constructor
  · rintro ⟨behind, rfl, hend, hne⟩
    exact ⟨⟨behind, rfl⟩, hne, hend⟩
  · rintro ⟨⟨behind, rfl⟩, hne, hend⟩
    exact ⟨behind, rfl, hend, hne⟩

/-- The opening of a named group may be read where it is written out. -/
theorem readsAt_namedCaptureOpen_iff {rest name : Text} :
    (namedCaptureOpen name).ReadsAt rest ↔ BeginsGroup rest name := by
  have hname : isGroupName name = true ↔
      name ≠ [] ∧ name.head? ≠ some '=' ∧ name.head? ≠ some '!' := by
    cases name <;> simp [isGroupName]
  constructor
  · rintro ⟨behind, rfl, hend, hgroup⟩
    obtain ⟨hne, hfront⟩ := hname.1 hgroup
    exact ⟨⟨behind, rfl⟩, hne, hend, hfront⟩
  · rintro ⟨⟨behind, rfl⟩, hne, hend, hfront⟩
    exact ⟨behind, rfl, hend, hname.2 ⟨hne, hfront⟩⟩

/-- A directive for the whole pattern may be read where one is written out. -/
theorem readsAt_globalRecursion_iff {rest depth : Text} :
    (globalRecursion depth).ReadsAt rest ↔ BeginsGlobalRecursion rest depth := by
  constructor
  · rintro ⟨behind, rfl, hread⟩
    exact ⟨⟨behind, rfl⟩, hread⟩
  · rintro ⟨⟨behind, rfl⟩, hread⟩
    exact ⟨behind, rfl, hread⟩

/-- Only a parenthesis and a backslash begin a form with parameters. -/
theorem not_beginsForm {c : Char} {s : Text} (hparen : c ≠ '(') (hbackslash : c ≠ '\\') :
    ¬BeginsForm (c :: s) := by
  rintro (⟨_, _, ⟨_, hrest⟩, -⟩ | ⟨_, ⟨_, hrest⟩, -⟩ | ⟨_, ⟨_, hrest⟩, -⟩ | ⟨_, ⟨_, hrest⟩, -⟩)
  · exact hbackslash (List.cons.inj hrest).1.symm
  · exact hbackslash (List.cons.inj hrest).1.symm
  · exact hparen (List.cons.inj hrest).1.symm
  · exact hparen (List.cons.inj hrest).1.symm

/-- A text that begins with no form with parameters has one of the other tokens at its front. -/
theorem ReadsAt.eq_of_not_beginsForm {rest : Text} {t : Token} (h : t.ReadsAt rest)
    (hform : ¬BeginsForm rest) {c : Char} {s : Text} (hrest : rest = c :: s) :
    t = if c = '(' then if s.head? = some '?' then .groupOpen else .captureOpen
      else if c = '\\' then s.head?.elim (.char '\\') .escaped
      else if c = ')' then .groupClose
      else if c = '[' then .classOpen
      else .char c := by
  have hform' := h
  obtain ⟨behind, hspell, hread⟩ := h
  rw [hspell] at hrest
  cases t with
  | namedCaptureOpen name =>
    exact absurd (.inr (.inr (.inl ⟨name, readsAt_namedCaptureOpen_iff.1 hform'⟩))) hform
  | namedBackref name => exact absurd (.inr (.inl ⟨name, readsAt_namedBackref_iff.1 hform'⟩)) hform
  | globalRecursion depth =>
    exact absurd (.inr (.inr (.inr ⟨depth, readsAt_globalRecursion_iff.1 hform'⟩))) hform
  | subpatternRecursion target depth =>
    exact absurd (.inl ⟨target, depth, readsAt_subpatternRecursion_iff.1 hform'⟩) hform
  | captureOpen =>
    obtain ⟨rfl, rfl⟩ : '(' = c ∧ behind = s := by simpa [spelling] using hrest
    rw [if_pos rfl, if_neg hread]
  | groupOpen =>
    obtain ⟨rfl, rfl⟩ : '(' = c ∧ '?' :: behind = s := by simpa [spelling] using hrest
    rfl
  | groupClose =>
    obtain ⟨rfl, -⟩ : ')' = c ∧ behind = s := by simpa [spelling] using hrest
    rfl
  | classOpen =>
    obtain ⟨rfl, -⟩ : '[' = c ∧ behind = s := by simpa [spelling] using hrest
    rfl
  | classClose => exact hread.elim
  | escaped d =>
    obtain ⟨rfl, rfl⟩ : '\\' = c ∧ d :: behind = s := by simpa [spelling] using hrest
    rfl
  | char d =>
    obtain ⟨rfl, rfl⟩ : d = c ∧ behind = s := by simpa [spelling] using hrest
    rcases hread with ⟨hbackslash, hparen, hclose, hclass⟩ | ⟨rfl, rfl⟩
    · rw [if_neg hparen, if_neg hbackslash, if_neg hclose, if_neg hclass]
    · rfl

end Token

/-! ## The tokens of a pattern -/

/-- A token that may be read at the front of a text follows the grammar there. -/
theorem Token.ReadsAt.followsGrammar {rest : Text} {t : Token} (h : t.ReadsAt rest) :
    FollowsGrammar rest t := by
  have hiff : ∀ t' : Token, t = t' ↔ t'.ReadsAt rest := by
    intro t'
    constructor
    · rintro rfl
      exact h
    · exact h.unique
  refine ⟨fun target depth => (hiff _).trans readsAt_subpatternRecursion_iff,
    fun name => (hiff _).trans readsAt_namedBackref_iff,
    fun name => (hiff _).trans readsAt_namedCaptureOpen_iff,
    fun depth => (hiff _).trans readsAt_globalRecursion_iff, ?_, ?_, ?_, ?_, ?_, ?_, ?_⟩
  · rintro hform s rfl
    exact h.eq_of_not_beginsForm hform rfl
  · rintro hform s rfl
    exact h.eq_of_not_beginsForm hform rfl
  · rintro c s rfl hparen hbackslash
    have hform : ¬BeginsForm (c :: s) := not_beginsForm hparen hbackslash
    rw [h.eq_of_not_beginsForm hform rfl, if_neg hparen, if_neg hbackslash]
  · intro target depth target' depth' hbegins hbegins'
    have heq := (readsAt_subpatternRecursion_iff.2 hbegins).unique
      (readsAt_subpatternRecursion_iff.2 hbegins')
    exact Token.subpatternRecursion.inj heq
  · intro name name' hbegins hbegins'
    have heq := (readsAt_namedBackref_iff.2 hbegins).unique (readsAt_namedBackref_iff.2 hbegins')
    exact Token.namedBackref.inj heq
  · intro name name' hbegins hbegins'
    have heq := (readsAt_namedCaptureOpen_iff.2 hbegins).unique
      (readsAt_namedCaptureOpen_iff.2 hbegins')
    exact Token.namedCaptureOpen.inj heq
  · intro depth depth' hbegins hbegins'
    have heq := (readsAt_globalRecursion_iff.2 hbegins).unique
      (readsAt_globalRecursion_iff.2 hbegins')
    exact Token.globalRecursion.inj heq

/-- Outside classes, the token of a lexeme may be read at the front of the text from its place on. -/
theorem readsAt_of_mem_lexemes {p : Text} {x : Lexeme} (hx : x ∈ lexemes p)
    (hclass : x.inClass = false) : x.token.ReadsAt (p.dropBytes x.span.start) := by
  obtain ⟨before, after, hsplit⟩ := List.append_of_mem hx
  obtain ⟨k, k', hrun, hnext⟩ := Cursor.exists_next_of_lexemes_eq (k := .ofText p) hsplit
  have hbehind := hrun.behind (Cursor.behind_ofText p)
  obtain ⟨hpending, hspan, hin, -, -⟩ := Cursor.next?_eq_some hnext
  have hread := readsBefore_of_next? hnext
  have hdepth : decide (0 < k.classDepth) = false := hin.symm.trans hclass
  rw [hdepth] at hread
  refine ⟨k'.pending, ?_, hread⟩
  rw [hspan, ← hbehind.pending_eq, hpending]

/-- Outside classes, every token of a pattern is what the text from its place on begins with. -/
theorem followsGrammar_topLevel {p : Text} {x : Lexeme} (hx : x ∈ lexemes p)
    (hclass : x.inClass = false) : FollowsGrammar (p.dropBytes x.span.start) x.token :=
  (readsAt_of_mem_lexemes hx hclass).followsGrammar

/-- A name that is closed before `&R=` makes no directive, though a `>` follows the depth; and it
makes none that there is one in the class. -/
theorem followsGrammar_topLevel_of_closed_target :
    ∃ (p : Text) (x : Lexeme), p = "(?<r>[\\g<r&R=2>]\\g<r>&R=2>)".toList ∧ x ∈ lexemes p ∧
      x.inClass = false ∧ x.token = .escaped 'g' ∧
      FollowsGrammar "\\g<r>&R=2>)".toList x.token := by
  let p : Text := "(?<r>[\\g<r&R=2>]\\g<r>&R=2>)".toList
  let x : Lexeme := ⟨.escaped 'g', ⟨16, 18⟩, false⟩
  have hx : x ∈ lexemes p := by decide +kernel
  have hrest : p.dropBytes x.span.start = "\\g<r>&R=2>)".toList := by decide +kernel
  exact ⟨p, x, rfl, hx, rfl, rfl, hrest ▸ followsGrammar_topLevel hx rfl⟩

end RegexUnroll
