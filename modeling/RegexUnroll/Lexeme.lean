import RegexUnroll.Token.Read

/-!
# Lexemes

A lexeme is a token at its place in a pattern. A `Cursor` stands in a pattern and knows how many
character classes are open around it; `Cursor.next?` reads one lexeme and `Cursor.lexemes` all of
them. `lexemes` and `topLevel` are the lexemes of a whole pattern, the latter only those that have a
meaning outside character classes. The lexemes tile the text: their spellings make it up
(`flatMap_spelling_lexemes`), and the text of a lexeme's span is its spelling (`slice_span`).
-/

namespace RegexUnroll

/-- A token at its place in a pattern. -/
structure Lexeme where
  /-- The token. -/
  token : Token
  /-- The bytes of the pattern that the token takes. -/
  span : Span
  /-- Whether a character class is open before the token. -/
  inClass : Bool
  deriving DecidableEq, Repr

/-- Whether a lexeme stands outside all character classes and does not open one. -/
def Lexeme.isTopLevel (x : Lexeme) : Bool := !x.inClass && x.token != .classOpen

/-! ## Cursors -/

/-- A place in a pattern from which lexemes are read. -/
structure Cursor where
  /-- The text that is still to be read. -/
  pending : Text
  /-- The number of bytes before the pending text. -/
  offset : Nat
  /-- The number of character classes that are open. -/
  classDepth : Nat
  deriving DecidableEq, Repr

namespace Cursor

/-- The cursor at the front of a pattern. -/
def ofText (p : Text) : Cursor := ⟨p, 0, 0⟩

/-- The cursor at an offset of a pattern, outside character classes. -/
def ofOffset (p : Text) (offset : Nat) : Cursor := ⟨p.dropBytes offset, offset, 0⟩

/-- Whether a character class is open. -/
def inClass (k : Cursor) : Bool := 0 < k.classDepth

/-- The next lexeme and the cursor after it; nothing at the end of the pattern. -/
def next? (k : Cursor) : Option (Lexeme × Cursor) :=
  match k.pending with
  | [] => none
  | c :: rest =>
    let (token, pending) := Token.read k.inClass c rest
    let stop := k.offset + Text.utf8Length token.spelling
    some (⟨token, ⟨k.offset, stop⟩, k.inClass⟩, ⟨pending, stop, token.classDepthAfter k.classDepth⟩)

/-- Only the end of the pattern has no next lexeme. -/
theorem next?_eq_none_iff {k : Cursor} : k.next? = none ↔ k.pending = [] := by
  unfold next?
  split <;> simp_all

/-- The next lexeme begins at the cursor, its spelling is the front of the pending text, and the
cursor moves behind it. -/
theorem next?_eq_some {k k' : Cursor} {x : Lexeme} (h : k.next? = some (x, k')) :
    k.pending = x.token.spelling ++ k'.pending ∧
      x.span = ⟨k.offset, k.offset + Text.utf8Length x.token.spelling⟩ ∧
      x.inClass = k.inClass ∧ k'.offset = x.span.stop ∧
      k'.classDepth = x.token.classDepthAfter k.classDepth := by
  unfold next? at h
  split at h
  · simp at h
  · rename_i c rest hpending
    simp only [Option.some.injEq, Prod.mk.injEq] at h
    obtain ⟨rfl, rfl⟩ := h
    exact ⟨hpending.trans (Token.spelling_append_of_read rfl).symm, rfl, rfl, rfl, rfl⟩

/-- Reading a lexeme shortens the pending text. -/
theorem length_pending_lt {k k' : Cursor} {x : Lexeme} (h : k.next? = some (x, k')) :
    k'.pending.length < k.pending.length := by
  rw [(next?_eq_some h).1, List.length_append]
  exact Nat.lt_add_of_pos_left (List.length_pos_iff.2 x.token.spelling_ne_nil)

/-- The lexemes from the cursor to the end of the pattern. -/
def lexemes (k : Cursor) : List Lexeme :=
  match _h : k.next? with
  | none => []
  | some (x, k') => x :: k'.lexemes
  termination_by k.pending.length
  decreasing_by exact length_pending_lt _h

/-- At the end of the pattern there are no lexemes. -/
theorem lexemes_of_next?_eq_none {k : Cursor} (h : k.next? = none) : k.lexemes = [] := by
  rw [lexemes]
  split <;> simp_all

/-- The lexemes are the next one and those after it. -/
theorem lexemes_of_next?_eq_some {k k' : Cursor} {x : Lexeme} (h : k.next? = some (x, k')) :
    k.lexemes = x :: k'.lexemes := by
  rw [lexemes]
  split <;> simp_all

/-- The spellings of the lexemes make up the pending text. -/
theorem flatMap_spelling_lexemes (k : Cursor) :
    (k.lexemes.flatMap fun x => x.token.spelling) = k.pending := by
  fun_induction lexemes k with
  | case1 k h => exact (next?_eq_none_iff.1 h).symm
  | case2 k x k' h ih => rw [List.flatMap_cons, ih, ← (next?_eq_some h).1]

/-- A lexeme stands where the spellings of those between it and the cursor end. -/
theorem span_eq_of_lexemes_eq {k : Cursor} {xs ys : List Lexeme} {x : Lexeme}
    (h : k.lexemes = xs ++ x :: ys) :
    x.span = ⟨k.offset + Text.utf8Length (xs.flatMap fun y => y.token.spelling),
      k.offset + Text.utf8Length (xs.flatMap fun y => y.token.spelling) +
        Text.utf8Length x.token.spelling⟩ := by
  fun_induction lexemes k generalizing xs with
  | case1 => simp at h
  | case2 k z k' hnext ih =>
    obtain ⟨-, hspan, -, hoffset, -⟩ := next?_eq_some hnext
    match xs with
    | [] =>
      -- The lexeme is the next one.
      obtain ⟨rfl, -⟩ := List.cons.inj h
      simpa using hspan
    | y :: xs =>
      -- The lexeme is among those after the next one, where the cursor has moved on.
      obtain ⟨rfl, htail⟩ := List.cons.inj h
      rw [ih htail, hoffset, hspan]
      simp [Nat.add_assoc]

end Cursor

/-! ## The lexemes of a pattern -/

/-- The lexemes of a pattern. -/
def lexemes (p : Text) : List Lexeme := (Cursor.ofText p).lexemes

/-- The lexemes of a pattern that have a meaning outside character classes. -/
def topLevel (p : Text) : List Lexeme := (lexemes p).filter Lexeme.isTopLevel

/-- The number of capturing groups that a pattern opens. -/
def countCaptures (p : Text) : Nat := (topLevel p).countP fun x => x.token.isCaptureOpen

/-- The spellings of the lexemes of a pattern make it up. -/
theorem flatMap_spelling_lexemes (p : Text) :
    ((lexemes p).flatMap fun x => x.token.spelling) = p :=
  Cursor.flatMap_spelling_lexemes _

/-- A lexeme stands where the spellings of those before it end. -/
theorem span_eq_of_lexemes_eq {p : Text} {xs ys : List Lexeme} {x : Lexeme}
    (h : lexemes p = xs ++ x :: ys) :
    x.span = ⟨Text.utf8Length (xs.flatMap fun y => y.token.spelling),
      Text.utf8Length (xs.flatMap fun y => y.token.spelling) +
        Text.utf8Length x.token.spelling⟩ := by
  simpa [Cursor.ofText] using Cursor.span_eq_of_lexemes_eq h

/-- The text of a lexeme's span is the spelling of its token. -/
theorem slice_span {p : Text} {x : Lexeme} (h : x ∈ lexemes p) :
    p.slice x.span = x.token.spelling := by
  obtain ⟨xs, ys, hsplit⟩ := List.append_of_mem h
  have htext : (xs.flatMap fun y => y.token.spelling) ++ x.token.spelling ++
      (ys.flatMap fun y => y.token.spelling) = p := by
    rw [← flatMap_spelling_lexemes p, hsplit, List.flatMap_append, List.flatMap_cons,
      List.append_assoc]
  rw [span_eq_of_lexemes_eq hsplit, ← htext, Text.slice_append]

end RegexUnroll
