import RegexUnroll.Lexeme

/-!
# The grammar of tokens

Reading a text takes one token after the other off its front, with a lookahead that may run to the
end of the text. `Token.ReadsBefore` says what that comes to for one token: the spelling of the
token is read as that token exactly where the text behind it meets a condition on the token's form
(`Token.read_eq_iff`). A list of tokens is `Legible` when each of them meets its condition where it
stands, and the tokens of a text are the one legible list that spells the text
(`tokensFrom_eq_iff`). With it a statement about what a text is read as becomes a statement about a
list of tokens, and texts are put together and taken apart by putting lists together and apart.
-/

namespace RegexUnroll

/-- The text that tokens spell. -/
def spell (ts : List Token) : Text := ts.flatMap Token.spelling

/-- The number of open character classes after tokens, from the number before them. -/
def classDepthAfter (depth : Nat) (ts : List Token) : Nat := ts.foldl Token.classDepthAfter depth

/-- The tokens of a text before which `depth` character classes are open. -/
def tokensFrom (depth : Nat) (s : Text) : List Token :=
  (Cursor.mk s 0 depth).lexemes.map Lexeme.token

/-- The tokens of a pattern. -/
def tokens (p : Text) : List Token := (lexemes p).map Lexeme.token

/-- A pattern is read from its front outside classes. -/
theorem tokens_eq_tokensFrom (p : Text) : tokens p = tokensFrom 0 p := rfl

/-- No tokens spell the empty text. -/
@[simp] theorem spell_nil : spell [] = [] := rfl

/-- The spelling of the first token comes first. -/
@[simp] theorem spell_cons (t : Token) (ts : List Token) :
    spell (t :: ts) = t.spelling ++ spell ts := rfl

/-- Tokens after each other spell their texts after each other. -/
@[simp] theorem spell_append (ts us : List Token) : spell (ts ++ us) = spell ts ++ spell us :=
  List.flatMap_append

/-- No tokens leave the open classes as they are. -/
@[simp] theorem classDepthAfter_nil (depth : Nat) : classDepthAfter depth [] = depth := rfl

/-- The first token counts before the others. -/
@[simp] theorem classDepthAfter_cons (depth : Nat) (t : Token) (ts : List Token) :
    classDepthAfter depth (t :: ts) = classDepthAfter (t.classDepthAfter depth) ts := rfl

/-- Tokens after each other count after each other. -/
@[simp] theorem classDepthAfter_append (depth : Nat) (ts us : List Token) :
    classDepthAfter depth (ts ++ us) = classDepthAfter (classDepthAfter depth ts) us :=
  List.foldl_append

namespace Token

/-! ## One token -/

/-- Whether the spelling of a token is read as that token outside classes, where `rest` stands
behind it. -/
def ReadsTopLevel (rest : Text) : Token → Prop
  | namedCaptureOpen name => '>' ∉ name ∧ isGroupName name
  | captureOpen => rest.head? ≠ some '?'
  | groupOpen => namedCaptureOpen? ('?' :: rest) = none ∧ globalRecursion? ('?' :: rest) = none
  | groupClose => True
  | classOpen => True
  | classClose => False
  | namedBackref name => '>' ∉ name ∧ name ≠ []
  | escaped c => subpatternRecursion? (c :: rest) = none ∧ namedBackref? (c :: rest) = none
  | globalRecursion depth => ')' ∉ depth
  | subpatternRecursion target depth => target ≠ [] ∧ '>' ∉ target ∧ '&' ∉ target ∧ '>' ∉ depth
  | char c => c ≠ '\\' ∧ c ≠ '(' ∧ c ≠ ')' ∧ c ≠ '[' ∨ c = '\\' ∧ rest = []

/-- Whether the spelling of a token is read as that token inside a class, where `rest` stands
behind it. -/
def ReadsInClass (rest : Text) : Token → Prop
  | classOpen => True
  | classClose => True
  | escaped _ => True
  | char c => c ≠ '\\' ∧ c ≠ '[' ∧ c ≠ ']' ∨ c = '\\' ∧ rest = []
  | _ => False

/-- Whether the spelling of a token is read as that token, where `rest` stands behind it. -/
def ReadsBefore (inClass : Bool) (rest : Text) (t : Token) : Prop :=
  if inClass then t.ReadsInClass rest else t.ReadsTopLevel rest

/-- No named capture opener is read where the opening of a group goes on with another character
than `<`. -/
theorem namedCaptureOpen?_eq_none_of_head? {rest : Text} (h : rest.head? ≠ some '<') :
    namedCaptureOpen? ('?' :: rest) = none := by
  refine Option.eq_none_iff_forall_ne_some.2 fun ⟨t, r⟩ hsome => ?_
  obtain ⟨name, -, hrest, -⟩ := namedCaptureOpen?_eq_some_iff.1 hsome
  obtain rfl : rest = '<' :: (name ++ '>' :: r) := by simpa using hrest
  exact h rfl

/-- No directive for the whole pattern is read where the opening of a group goes on with another
character than `R`. -/
theorem globalRecursion?_eq_none_of_head? {rest : Text} (h : rest.head? ≠ some 'R') :
    globalRecursion? ('?' :: rest) = none := by
  refine Option.eq_none_iff_forall_ne_some.2 fun ⟨t, r⟩ hsome => ?_
  obtain ⟨depth, -, hrest, -⟩ := globalRecursion?_eq_some_iff.1 hsome
  obtain rfl : rest = 'R' :: '=' :: (depth ++ ')' :: r) := by simpa using hrest
  exact h rfl

/-- Behind `(`, a form with parameters begins with a question mark. -/
theorem namedCaptureOpen?_eq_none_of_head?_ne {s : Text} (h : s.head? ≠ some '?') :
    namedCaptureOpen? s = none ∧ globalRecursion? s = none := by
  constructor
  · refine Option.eq_none_iff_forall_ne_some.2 fun ⟨t, r⟩ hsome => ?_
    obtain ⟨name, -, rfl, -⟩ := namedCaptureOpen?_eq_some_iff.1 hsome
    exact h rfl
  · refine Option.eq_none_iff_forall_ne_some.2 fun ⟨t, r⟩ hsome => ?_
    obtain ⟨depth, -, rfl, -⟩ := globalRecursion?_eq_some_iff.1 hsome
    exact h rfl

/-- An escape outside classes meets its condition where no form with parameters is read. -/
theorem readsTopLevel_of_readEscape {s rest : Text} {t : Token} (h : readEscape s = (t, rest))
    (hsub : subpatternRecursion? s = none) (href : namedBackref? s = none) :
    t.ReadsTopLevel rest := by
  cases s with
  | nil =>
    obtain ⟨rfl, rfl⟩ := Prod.mk.inj h
    exact .inr ⟨rfl, rfl⟩
  | cons c s =>
    obtain ⟨rfl, rfl⟩ := Prod.mk.inj h
    exact ⟨hsub, href⟩

/-- The opening of a group meets its condition where no form with parameters is read. -/
theorem readsTopLevel_of_readOpening {s rest : Text} {t : Token} (h : readOpening s = (t, rest))
    (hname : namedCaptureOpen? s = none) (hrec : globalRecursion? s = none) :
    t.ReadsTopLevel rest := by
  unfold readOpening at h
  split at h <;> obtain ⟨rfl, rfl⟩ := Prod.mk.inj h
  · exact ⟨hname, hrec⟩
  · rename_i hne
    intro hhead
    obtain ⟨r, rfl⟩ := List.head?_eq_some_iff.1 hhead
    exact hne r rfl

/-- A token read outside classes meets its condition. -/
theorem readsTopLevel_of_readTopLevel {c : Char} {s rest : Text} {t : Token}
    (h : readTopLevel c s = (t, rest)) : t.ReadsTopLevel rest := by
  unfold readTopLevel at h
  split at h
  · rcases readTopLevel_backslash_eq_iff.1 h with hsub | ⟨-, href⟩ | ⟨hsub, href, hescape⟩
    · obtain ⟨_, _, rfl, -, hne, hgt, hamp, hdepth⟩ := subpatternRecursion?_eq_some_iff.1 hsub
      exact ⟨hne, hgt, hamp, hdepth⟩
    · obtain ⟨_, rfl, -, hname, hne⟩ := namedBackref?_eq_some_iff.1 href
      exact ⟨hname, hne⟩
    · exact readsTopLevel_of_readEscape hescape hsub href
  · rcases readTopLevel_paren_eq_iff.1 h with hname | ⟨-, hrec⟩ | ⟨hname, hrec, hopen⟩
    · obtain ⟨_, rfl, -, hgt, hgroup⟩ := namedCaptureOpen?_eq_some_iff.1 hname
      exact ⟨hgt, hgroup⟩
    · obtain ⟨_, rfl, -, hdepth⟩ := globalRecursion?_eq_some_iff.1 hrec
      exact hdepth
    · exact readsTopLevel_of_readOpening hopen hname hrec
  · obtain ⟨rfl, rfl⟩ := Prod.mk.inj h
    trivial
  · obtain ⟨rfl, rfl⟩ := Prod.mk.inj h
    trivial
  · rename_i h1 h2 h3 h4
    obtain ⟨rfl, rfl⟩ := Prod.mk.inj h
    exact .inl ⟨h1, h2, h3, h4⟩

/-- An opening that no question mark follows is that of a capture. -/
theorem readOpening_of_head?_ne {s : Text} (h : s.head? ≠ some '?') :
    readOpening s = (captureOpen, s) := by
  unfold readOpening
  split
  · exact absurd rfl h
  · rfl

/-- Where its condition holds, the spelling of a token is read as that token outside classes. -/
theorem readTopLevel_of_readsTopLevel {c : Char} {s rest : Text} {t : Token}
    (hspell : c :: s = t.spelling ++ rest) (h : t.ReadsTopLevel rest) :
    readTopLevel c s = (t, rest) := by
  cases t with
  | namedCaptureOpen name =>
    obtain ⟨rfl, rfl⟩ : c = '(' ∧ s = ['?', '<'] ++ name ++ '>' :: rest := by
      simpa [spelling] using hspell
    refine readTopLevel_paren_eq_iff.2 (.inl ?_)
    exact namedCaptureOpen?_eq_some_iff.2 ⟨name, rfl, rfl, h.1, h.2⟩
  | captureOpen =>
    obtain ⟨rfl, rfl⟩ : c = '(' ∧ s = rest := by simpa [spelling] using hspell
    obtain ⟨hname, hrec⟩ := namedCaptureOpen?_eq_none_of_head?_ne h
    exact readTopLevel_paren_eq_iff.2 (.inr (.inr ⟨hname, hrec, readOpening_of_head?_ne h⟩))
  | groupOpen =>
    obtain ⟨rfl, rfl⟩ : c = '(' ∧ s = '?' :: rest := by simpa [spelling] using hspell
    exact readTopLevel_paren_eq_iff.2 (.inr (.inr ⟨h.1, h.2, rfl⟩))
  | groupClose =>
    obtain ⟨rfl, rfl⟩ : c = ')' ∧ s = rest := by simpa [spelling] using hspell
    rfl
  | classOpen =>
    obtain ⟨rfl, rfl⟩ : c = '[' ∧ s = rest := by simpa [spelling] using hspell
    rfl
  | classClose => exact h.elim
  | namedBackref name =>
    obtain ⟨rfl, rfl⟩ : c = '\\' ∧ s = ['k', '<'] ++ name ++ '>' :: rest := by
      simpa [spelling] using hspell
    refine readTopLevel_backslash_eq_iff.2 (.inr (.inl ⟨rfl, ?_⟩))
    exact namedBackref?_eq_some_iff.2 ⟨name, rfl, rfl, h.1, h.2⟩
  | escaped d =>
    obtain ⟨rfl, rfl⟩ : c = '\\' ∧ s = d :: rest := by simpa [spelling] using hspell
    exact readTopLevel_backslash_eq_iff.2 (.inr (.inr ⟨h.1, h.2, rfl⟩))
  | globalRecursion depth =>
    obtain ⟨rfl, rfl⟩ : c = '(' ∧ s = ['?', 'R', '='] ++ depth ++ ')' :: rest := by
      simpa [spelling] using hspell
    refine readTopLevel_paren_eq_iff.2 (.inr (.inl ⟨rfl, ?_⟩))
    exact globalRecursion?_eq_some_iff.2 ⟨depth, rfl, rfl, h⟩
  | subpatternRecursion target depth =>
    obtain ⟨rfl, rfl⟩ : c = '\\' ∧
        s = ['g', '<'] ++ target ++ ['&', 'R', '='] ++ depth ++ '>' :: rest := by
      simpa [spelling] using hspell
    obtain ⟨hne, hgt, hamp, hdepth⟩ := h
    refine readTopLevel_backslash_eq_iff.2 (.inl ?_)
    exact subpatternRecursion?_eq_some_iff.2 ⟨target, depth, rfl, rfl, hne, hgt, hamp, hdepth⟩
  | char d =>
    obtain ⟨rfl, rfl⟩ : c = d ∧ s = rest := by simpa [spelling] using hspell
    rcases h with ⟨h1, h2, h3, h4⟩ | ⟨rfl, rfl⟩
    · unfold readTopLevel
      split <;> simp_all
    · rfl

/-- Inside a class a token is read exactly where its spelling stands and its condition holds. -/
theorem readInClass_eq_iff {c : Char} {s rest : Text} {t : Token} :
    readInClass c s = (t, rest) ↔ c :: s = t.spelling ++ rest ∧ t.ReadsInClass rest := by
  constructor
  · intro h
    refine ⟨(spelling_append_of_readInClass h).symm, ?_⟩
    unfold readInClass at h
    split at h
    · unfold readEscape at h
      split at h <;> obtain ⟨rfl, rfl⟩ := Prod.mk.inj h
      · exact .inr ⟨rfl, rfl⟩
      · trivial
    · obtain ⟨rfl, rfl⟩ := Prod.mk.inj h
      trivial
    · obtain ⟨rfl, rfl⟩ := Prod.mk.inj h
      trivial
    · rename_i h1 h2 h3
      obtain ⟨rfl, rfl⟩ := Prod.mk.inj h
      exact .inl ⟨h1, h2, h3⟩
  · rintro ⟨hspell, h⟩
    cases t with
    | classOpen =>
      obtain ⟨rfl, rfl⟩ : c = '[' ∧ s = rest := by simpa [spelling] using hspell
      rfl
    | classClose =>
      obtain ⟨rfl, rfl⟩ : c = ']' ∧ s = rest := by simpa [spelling] using hspell
      rfl
    | escaped d =>
      obtain ⟨rfl, rfl⟩ : c = '\\' ∧ s = d :: rest := by simpa [spelling] using hspell
      rfl
    | char d =>
      obtain ⟨rfl, rfl⟩ : c = d ∧ s = rest := by simpa [spelling] using hspell
      rcases h with ⟨h1, h2, h3⟩ | ⟨rfl, rfl⟩
      · unfold readInClass
        split <;> simp_all
      · rfl
    | _ => exact h.elim

/-- A token is read exactly where its spelling stands and its condition holds. -/
theorem read_eq_iff {inClass : Bool} {c : Char} {s rest : Text} {t : Token} :
    read inClass c s = (t, rest) ↔ c :: s = t.spelling ++ rest ∧ t.ReadsBefore inClass rest := by
  cases inClass with
  | true => exact readInClass_eq_iff
  | false =>
    exact ⟨fun h => ⟨(spelling_append_of_readTopLevel h).symm, readsTopLevel_of_readTopLevel h⟩,
      fun h => readTopLevel_of_readsTopLevel h.1 h.2⟩

end Token

/-! ## All tokens of a text -/

/-- Whether each token is what is read where it stands, before which `depth` classes are open. -/
def Legible : Nat → List Token → Prop
  | _, [] => True
  | depth, t :: ts => t.ReadsBefore (0 < depth) (spell ts) ∧ Legible (t.classDepthAfter depth) ts

/-- Tokens are legible when the first of them is what is read there and the others are legible. -/
theorem legible_cons {depth : Nat} {t : Token} {ts : List Token} :
    Legible depth (t :: ts) ↔
      t.ReadsBefore (0 < depth) (spell ts) ∧ Legible (t.classDepthAfter depth) ts :=
  Iff.rfl

/-- The tokens of the lexemes from a cursor on spell the pending text. -/
theorem spell_map_token_lexemes (k : Cursor) : spell (k.lexemes.map Lexeme.token) = k.pending := by
  rw [spell, List.flatMap_map]
  exact Cursor.flatMap_spelling_lexemes k

/-- A lexeme that is read before a cursor meets its token's condition. -/
theorem readsBefore_of_next? {k k' : Cursor} {x : Lexeme} (h : k.next? = some (x, k')) :
    x.token.ReadsBefore (0 < k.classDepth) k'.pending := by
  unfold Cursor.next? at h
  split at h
  · simp at h
  · simp only [Option.some.injEq, Prod.mk.injEq] at h
    obtain ⟨rfl, rfl⟩ := h
    exact (Token.read_eq_iff.1 rfl).2

/-- The lexemes from a cursor on have legible tokens. -/
theorem legible_map_token_lexemes (k : Cursor) :
    Legible k.classDepth (k.lexemes.map Lexeme.token) := by
  fun_induction Cursor.lexemes k with
  | case1 => trivial
  | case2 k x k' h ih =>
    obtain ⟨-, -, -, -, hdepth⟩ := Cursor.next?_eq_some h
    have hread := readsBefore_of_next? h
    rw [← spell_map_token_lexemes k'] at hread
    rw [List.map_cons]
    exact ⟨hread, hdepth ▸ ih⟩

/-- Legible tokens that spell the pending text are the tokens of the lexemes from there on. -/
theorem map_token_lexemes_of_legible {k : Cursor} {ts : List Token}
    (hlegible : Legible k.classDepth ts) (hspell : spell ts = k.pending) :
    k.lexemes.map Lexeme.token = ts := by
  induction ts generalizing k with
  | nil =>
    have hnext : k.next? = none := Cursor.next?_eq_none_iff.2 hspell.symm
    rw [Cursor.lexemes_of_next?_eq_none hnext, List.map_nil]
  | cons t ts ih =>
    obtain ⟨hread, hrest⟩ := hlegible
    obtain ⟨c, s, hcs⟩ := List.exists_cons_of_ne_nil t.spelling_ne_nil
    have hpending : k.pending = c :: (s ++ spell ts) := by rw [← hspell, spell_cons, hcs]; rfl
    have htoken : Token.read k.inClass c (s ++ spell ts) = (t, spell ts) :=
      Token.read_eq_iff.2 ⟨by rw [hcs]; rfl, hread⟩
    -- The token is the next one, and the cursor behind it is at the rest.
    have hnext : ∃ x k', k.next? = some (x, k') ∧ x.token = t ∧ k'.pending = spell ts ∧
        k'.classDepth = t.classDepthAfter k.classDepth := by
      unfold Cursor.next?
      rw [hpending]
      simp only [htoken]
      exact ⟨_, _, rfl, rfl, rfl, rfl⟩
    obtain ⟨x, k', hnext, hx, hpending', hdepth⟩ := hnext
    rw [Cursor.lexemes_of_next?_eq_some hnext, List.map_cons, hx,
      ih (hdepth ▸ hrest) hpending'.symm]

/-- The tokens of a text are the one legible list of tokens that spells it. -/
theorem tokensFrom_eq_iff {depth : Nat} {s : Text} {ts : List Token} :
    tokensFrom depth s = ts ↔ spell ts = s ∧ Legible depth ts := by
  constructor
  · rintro rfl
    exact ⟨spell_map_token_lexemes ⟨s, 0, depth⟩, legible_map_token_lexemes ⟨s, 0, depth⟩⟩
  · rintro ⟨hspell, hlegible⟩
    exact map_token_lexemes_of_legible (k := ⟨s, 0, depth⟩) hlegible hspell

/-- The tokens of a text spell it. -/
@[simp] theorem spell_tokensFrom (depth : Nat) (s : Text) : spell (tokensFrom depth s) = s :=
  (tokensFrom_eq_iff.1 rfl).1

/-- The tokens of a text are legible. -/
theorem legible_tokensFrom (depth : Nat) (s : Text) : Legible depth (tokensFrom depth s) :=
  (tokensFrom_eq_iff.1 rfl).2

/-- Legible tokens are read back from their spelling. -/
theorem tokensFrom_spell {depth : Nat} {ts : List Token} (h : Legible depth ts) :
    tokensFrom depth (spell ts) = ts :=
  tokensFrom_eq_iff.2 ⟨rfl, h⟩

end RegexUnroll
