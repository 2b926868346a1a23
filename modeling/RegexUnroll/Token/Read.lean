import RegexUnroll.Token

/-!
# Reading one token

`Token.read` takes the token at the front of a text and returns it with the text after it. Inside a
character class only escapes and class delimiters are told apart from plain characters. Outside, a
form with parameters is tried first: it is recognised only as a whole, with its closing delimiter
wherever that stands, and where one part is missing the shorter token is read. The token's spelling
and the text after it make up the text that was read (`spelling_append_of_read`).
-/

namespace RegexUnroll.Token

/-! ## The forms with parameters

Each function reads the text after the character that begins the form. -/

/-- Whether a text can name a group: it is not empty, and no `=` or `!` at its front makes the
group a lookbehind. -/
def isGroupName : Text → Bool
  | [] => false
  | c :: _ => c != '=' && c != '!'

/-- After `(`: the rest `?<name>` of the opening of a named group. -/
def namedCaptureOpen? : Text → Option (Token × Text)
  | '?' :: '<' :: body => do
    let (name, rest) ← Text.upTo? '>' body
    if isGroupName name then some (namedCaptureOpen name, rest) else none
  | _ => none

/-- After `(`: the rest `?R=depth)` of a directive for the whole pattern. -/
def globalRecursion? : Text → Option (Token × Text)
  | '?' :: 'R' :: '=' :: body => do
    let (depth, rest) ← Text.upTo? ')' body
    some (globalRecursion depth, rest)
  | _ => none

/-- After a backslash: the rest `k<name>` of a named backreference. -/
def namedBackref? : Text → Option (Token × Text)
  | 'k' :: '<' :: body => do
    let (name, rest) ← Text.upTo? '>' body
    if name = [] then none else some (namedBackref name, rest)
  | _ => none

/-- After `\g<target&`: the rest `R=depth>` of a directive for a group. -/
def recursionDepth? : Text → Option (Text × Text)
  | 'R' :: '=' :: body => Text.upTo? '>' body
  | _ => none

/-- After a backslash: the rest `g<target&R=depth>` of a directive for a group. -/
def subpatternRecursion? : Text → Option (Token × Text)
  | 'g' :: '<' :: body => do
    let (target, tail) ← Text.upTo? '&' body
    let (depth, rest) ← recursionDepth? tail
    if target = [] ∨ '>' ∈ target then none else some (subpatternRecursion target depth, rest)
  | _ => none

/-- The opening of a named group is recognised exactly where it is written out. -/
theorem namedCaptureOpen?_eq_some_iff {s rest : Text} {t : Token} :
    namedCaptureOpen? s = some (t, rest) ↔ ∃ name, t = namedCaptureOpen name ∧
      s = ['?', '<'] ++ name ++ '>' :: rest ∧ '>' ∉ name ∧ isGroupName name := by
  constructor
  · intro h
    unfold namedCaptureOpen? at h
    split at h
    · simp only [Option.bind_eq_bind, Option.bind_eq_some_iff, Prod.exists,
        Text.upTo?_eq_some_iff, Option.ite_none_right_eq_some, Option.some.injEq,
        Prod.mk.injEq] at h
      obtain ⟨name, _, ⟨rfl, hname⟩, hgroup, rfl, rfl⟩ := h
      exact ⟨name, rfl, rfl, hname, hgroup⟩
    · simp at h
  · rintro ⟨name, rfl, rfl, hname, hgroup⟩
    simp [namedCaptureOpen?, Text.upTo?_eq_some_iff.2 ⟨rfl, hname⟩, hgroup]

/-- A directive for the whole pattern is recognised exactly where it is written out. -/
theorem globalRecursion?_eq_some_iff {s rest : Text} {t : Token} :
    globalRecursion? s = some (t, rest) ↔ ∃ depth, t = globalRecursion depth ∧
      s = ['?', 'R', '='] ++ depth ++ ')' :: rest ∧ ')' ∉ depth := by
  constructor
  · intro h
    unfold globalRecursion? at h
    split at h
    · simp only [Option.bind_eq_bind, Option.bind_eq_some_iff, Prod.exists,
        Text.upTo?_eq_some_iff, Option.some.injEq, Prod.mk.injEq] at h
      obtain ⟨depth, _, ⟨rfl, hdepth⟩, rfl, rfl⟩ := h
      exact ⟨depth, rfl, rfl, hdepth⟩
    · simp at h
  · rintro ⟨depth, rfl, rfl, hdepth⟩
    simp [globalRecursion?, Text.upTo?_eq_some_iff.2 ⟨rfl, hdepth⟩]

/-- A named backreference is recognised exactly where it is written out. -/
theorem namedBackref?_eq_some_iff {s rest : Text} {t : Token} :
    namedBackref? s = some (t, rest) ↔ ∃ name, t = namedBackref name ∧
      s = ['k', '<'] ++ name ++ '>' :: rest ∧ '>' ∉ name ∧ name ≠ [] := by
  constructor
  · intro h
    unfold namedBackref? at h
    split at h
    · simp only [Option.bind_eq_bind, Option.bind_eq_some_iff, Prod.exists,
        Text.upTo?_eq_some_iff, Option.ite_none_left_eq_some, Option.some.injEq,
        Prod.mk.injEq] at h
      obtain ⟨name, _, ⟨rfl, hname⟩, hne, rfl, rfl⟩ := h
      exact ⟨name, rfl, rfl, hname, hne⟩
    · simp at h
  · rintro ⟨name, rfl, rfl, hname, hne⟩
    simp [namedBackref?, Text.upTo?_eq_some_iff.2 ⟨rfl, hname⟩, hne]

/-- The depth of a directive for a group is recognised exactly where it is written out. -/
theorem recursionDepth?_eq_some_iff {s depth rest : Text} :
    recursionDepth? s = some (depth, rest) ↔
      s = ['R', '='] ++ depth ++ '>' :: rest ∧ '>' ∉ depth := by
  constructor
  · intro h
    unfold recursionDepth? at h
    split at h
    · obtain ⟨rfl, hdepth⟩ := Text.upTo?_eq_some_iff.1 h
      exact ⟨rfl, hdepth⟩
    · simp at h
  · rintro ⟨rfl, hdepth⟩
    exact Text.upTo?_eq_some_iff.2 ⟨rfl, hdepth⟩

/-- A directive for a group is recognised exactly where it is written out. -/
theorem subpatternRecursion?_eq_some_iff {s rest : Text} {t : Token} :
    subpatternRecursion? s = some (t, rest) ↔ ∃ target depth, t = subpatternRecursion target depth ∧
      s = ['g', '<'] ++ target ++ ['&', 'R', '='] ++ depth ++ '>' :: rest ∧
      target ≠ [] ∧ '>' ∉ target ∧ '&' ∉ target ∧ '>' ∉ depth := by
  constructor
  · intro h
    unfold subpatternRecursion? at h
    split at h
    · simp only [Option.bind_eq_bind, Option.bind_eq_some_iff, Prod.exists,
        Text.upTo?_eq_some_iff, recursionDepth?_eq_some_iff, Option.ite_none_left_eq_some,
        Option.some.injEq, Prod.mk.injEq, not_or] at h
      obtain ⟨target, _, ⟨rfl, hamp⟩, depth, _, ⟨rfl, hdepth⟩, ⟨hne, hgt⟩, rfl, rfl⟩ := h
      exact ⟨target, depth, rfl, by simp, hne, hgt, hamp, hdepth⟩
    · simp at h
  · rintro ⟨target, depth, rfl, rfl, hne, hgt, hamp, hdepth⟩
    have htail : recursionDepth? (['R', '='] ++ depth ++ '>' :: rest) = some (depth, rest) :=
      recursionDepth?_eq_some_iff.2 ⟨rfl, hdepth⟩
    have hbody : Text.upTo? '&' (target ++ '&' :: (['R', '='] ++ depth ++ '>' :: rest)) =
        some (target, ['R', '='] ++ depth ++ '>' :: rest) :=
      Text.upTo?_eq_some_iff.2 ⟨rfl, hamp⟩
    simp only [List.cons_append, List.nil_append, List.append_assoc] at htail hbody ⊢
    simp [subpatternRecursion?, hbody, htail, hne, hgt]

/-! ## The token at the front -/

/-- After a backslash: the escaped character; a backslash that ends the text stands for itself. -/
def readEscape : Text → Token × Text
  | [] => (char '\\', [])
  | c :: rest => (escaped c, rest)

/-- After `(`: the opening of a group without a name of its own. -/
def readOpening : Text → Token × Text
  | '?' :: rest => (groupOpen, rest)
  | rest => (captureOpen, rest)

/-- The token that begins with `c` outside character classes, and the text after it. -/
def readTopLevel (c : Char) (rest : Text) : Token × Text :=
  match c with
  | '\\' => (subpatternRecursion? rest <|> namedBackref? rest).getD (readEscape rest)
  | '(' => (namedCaptureOpen? rest <|> globalRecursion? rest).getD (readOpening rest)
  | ')' => (groupClose, rest)
  | '[' => (classOpen, rest)
  | c => (char c, rest)

/-- The token that begins with `c` inside a character class, and the text after it. -/
def readInClass (c : Char) (rest : Text) : Token × Text :=
  match c with
  | '\\' => readEscape rest
  | '[' => (classOpen, rest)
  | ']' => (classClose, rest)
  | c => (char c, rest)

/-- The token that begins with `c`, and the text after it. -/
def read (inClass : Bool) (c : Char) (rest : Text) : Token × Text :=
  if inClass then readInClass c rest else readTopLevel c rest

/-- Reading an escape splits the text. -/
theorem spelling_append_of_readEscape {s rest : Text} {t : Token}
    (h : readEscape s = (t, rest)) : t.spelling ++ rest = '\\' :: s := by
  unfold readEscape at h
  split at h <;> obtain ⟨rfl, rfl⟩ := Prod.mk.inj h <;> rfl

/-- Reading the opening of a group splits the text. -/
theorem spelling_append_of_readOpening {s rest : Text} {t : Token}
    (h : readOpening s = (t, rest)) : t.spelling ++ rest = '(' :: s := by
  unfold readOpening at h
  split at h <;> obtain ⟨rfl, rfl⟩ := Prod.mk.inj h <;> rfl

/-- Behind a backslash a directive is tried first, then a backreference, and then an escape. -/
theorem readTopLevel_backslash_eq_iff {s rest : Text} {t : Token} :
    readTopLevel '\\' s = (t, rest) ↔
      subpatternRecursion? s = some (t, rest) ∨
        subpatternRecursion? s = none ∧ namedBackref? s = some (t, rest) ∨
        subpatternRecursion? s = none ∧ namedBackref? s = none ∧ readEscape s = (t, rest) := by
  have hread : readTopLevel '\\' s =
      (subpatternRecursion? s <|> namedBackref? s).getD (readEscape s) := rfl
  rw [hread]
  cases subpatternRecursion? s with
  | some r => simp
  | none => cases namedBackref? s <;> simp

/-- Behind `(` a named capture is tried first, then a directive, and then another opening. -/
theorem readTopLevel_paren_eq_iff {s rest : Text} {t : Token} :
    readTopLevel '(' s = (t, rest) ↔
      namedCaptureOpen? s = some (t, rest) ∨
        namedCaptureOpen? s = none ∧ globalRecursion? s = some (t, rest) ∨
        namedCaptureOpen? s = none ∧ globalRecursion? s = none ∧ readOpening s = (t, rest) := by
  have hread : readTopLevel '(' s =
      (namedCaptureOpen? s <|> globalRecursion? s).getD (readOpening s) := rfl
  rw [hread]
  cases namedCaptureOpen? s with
  | some r => simp
  | none => cases globalRecursion? s <;> simp

/-- Reading a token outside classes splits the text. -/
theorem spelling_append_of_readTopLevel {c : Char} {s rest : Text} {t : Token}
    (h : readTopLevel c s = (t, rest)) : t.spelling ++ rest = c :: s := by
  unfold readTopLevel at h
  split at h
  · rcases readTopLevel_backslash_eq_iff.1 h with hsub | ⟨-, href⟩ | ⟨-, -, hescape⟩
    · obtain ⟨_, _, rfl, rfl, -⟩ := subpatternRecursion?_eq_some_iff.1 hsub
      simp [spelling]
    · obtain ⟨_, rfl, rfl, -⟩ := namedBackref?_eq_some_iff.1 href
      simp [spelling]
    · exact spelling_append_of_readEscape hescape
  · rcases readTopLevel_paren_eq_iff.1 h with hname | ⟨-, hrec⟩ | ⟨-, -, hopen⟩
    · obtain ⟨_, rfl, rfl, -⟩ := namedCaptureOpen?_eq_some_iff.1 hname
      simp [spelling]
    · obtain ⟨_, rfl, rfl, -⟩ := globalRecursion?_eq_some_iff.1 hrec
      simp [spelling]
    · exact spelling_append_of_readOpening hopen
  all_goals obtain ⟨rfl, rfl⟩ := Prod.mk.inj h; rfl

/-- Reading a token inside a class splits the text. -/
theorem spelling_append_of_readInClass {c : Char} {s rest : Text} {t : Token}
    (h : readInClass c s = (t, rest)) : t.spelling ++ rest = c :: s := by
  unfold readInClass at h
  split at h
  · exact spelling_append_of_readEscape h
  all_goals obtain ⟨rfl, rfl⟩ := Prod.mk.inj h; rfl

/-- Reading splits the text: the spelling of the token and what is left make it up. -/
theorem spelling_append_of_read {inClass : Bool} {c : Char} {s rest : Text} {t : Token}
    (h : read inClass c s = (t, rest)) : t.spelling ++ rest = c :: s := by
  unfold read at h
  split at h
  · exact spelling_append_of_readInClass h
  · exact spelling_append_of_readTopLevel h

end RegexUnroll.Token
