import RegexUnroll.Proofs.Cutting

/-!
# How lexemes cover a pattern

A pattern is read lexeme by lexeme, and its lexemes tile it (`tiles_lexemes`): they follow each other
without gap or overlap from its first byte to its last, each of them is the spelling of its token,
and so the tokens alone determine the pattern. Along the way the cursor counts the character classes
that are open: a class is closed only where one is open, and inside a class no name and no directive
is read.

`Cursor.Run` is reading lexeme by lexeme. `Cursor.Behind` says where a cursor stands that has read
some lexemes of a pattern; one more lexeme keeps it (`Cursor.Behind.concat`), and so it holds along
every run (`Cursor.Run.behind`).
-/

namespace RegexUnroll

/-! ## The bytes of a token -/

/-- The number of bytes of a token: those of its delimiters and of its parameters. -/
def Token.width : Token → Nat
  | namedCaptureOpen name => 3 + name.utf8Length + 1
  | captureOpen => 1
  | groupOpen => 2
  | groupClose => 1
  | classOpen => 1
  | classClose => 1
  | namedBackref name => 3 + name.utf8Length + 1
  | escaped c => 1 + c.utf8Size
  | globalRecursion depth => 4 + depth.utf8Length + 1
  | subpatternRecursion target depth => 3 + target.utf8Length + 3 + depth.utf8Length + 1
  | char c => c.utf8Size

/-- A token is as wide as its spelling is long. -/
theorem Token.utf8Length_spelling (t : Token) : t.spelling.utf8Length = t.width := by
  have hdelimiters : ∀ c ∈ ['(', '?', '<', '>', ')', '[', ']', '\\', 'k', 'g', '&', 'R', '='],
      c.utf8Size = 1 := by simp [Char.utf8Size]
  simp only [List.forall_mem_cons] at hdelimiters
  cases t <;> simp [spelling, width, hdelimiters] <;> omega

/-! ## Reading lexeme by lexeme -/

/-- Whether the lexemes `xs` are read one by one from a cursor on, and where it stands then. -/
inductive Cursor.Run : Cursor → List Lexeme → Cursor → Prop where
  /-- Nothing is read. -/
  | done (k : Cursor) : Run k [] k
  /-- The next lexeme is read, and then the others. -/
  | next {k k' k'' : Cursor} {x : Lexeme} {xs : List Lexeme} (hnext : k.next? = some (x, k'))
      (hrun : Run k' xs k'') : Run k (x :: xs) k''

/-- The number of character classes that lexemes open. -/
def classesOpened (xs : List Lexeme) : Nat := xs.countP fun x => x.token = .classOpen

/-- The number of character classes that lexemes close. -/
def classesClosed (xs : List Lexeme) : Nat := xs.countP fun x => x.token = .classClose

namespace Cursor

/-- Where a cursor stands that has read the lexemes `xs` of a pattern from its front on. -/
structure Behind (p : Text) (xs : List Lexeme) (k : Cursor) : Prop where
  /-- The text of the lexemes and the pending text make up the pattern. -/
  append_pending : spell (xs.map Lexeme.token) ++ k.pending = p
  /-- The cursor stands behind the text of the lexemes. -/
  offset_eq : k.offset = Text.utf8Length (spell (xs.map Lexeme.token))
  /-- The classes that are open are those that have been opened and not closed. -/
  classDepth_add : k.classDepth + classesClosed xs = classesOpened xs

/-- Outside classes no class is closed. -/
theorem classDepth_pos_of_classClose {k k' : Cursor} {x : Lexeme} (h : k.next? = some (x, k'))
    (hx : x.token = .classClose) : 0 < k.classDepth := by
  by_contra hnot
  have hread := readsBefore_of_next? h
  rw [hx, decide_eq_false hnot] at hread
  exact hread

/-- A lexeme that is read opens a class, closes one of those that are open, or does neither. -/
theorem classDepth_next {k k' : Cursor} {x : Lexeme} (h : k.next? = some (x, k')) :
    k'.classDepth + classesClosed [x] = k.classDepth + classesOpened [x] := by
  have hclose := classDepth_pos_of_classClose h
  obtain ⟨-, -, -, -, hdepth⟩ := next?_eq_some h
  unfold classesClosed classesOpened
  rw [hdepth]
  cases hx : x.token with
  | classClose =>
    have hpos := hclose hx
    simp [Token.classDepthAfter, hx]
    omega
  | _ => simp [Token.classDepthAfter, hx]

/-- In front of a pattern nothing has been read. -/
theorem behind_ofText (p : Text) : Behind p [] (ofText p) := ⟨rfl, rfl, rfl⟩

/-- Reading one more lexeme, a cursor comes to stand behind it. -/
theorem Behind.concat {p : Text} {xs : List Lexeme} {k k' : Cursor} {x : Lexeme}
    (h : Behind p xs k) (hnext : k.next? = some (x, k')) : Behind p (xs ++ [x]) k' := by
  obtain ⟨hpending, hspan, -, hoffset, -⟩ := next?_eq_some hnext
  have hclasses := classDepth_next hnext
  have hbefore := h.classDepth_add
  refine ⟨?_, ?_, ?_⟩
  · rw [List.map_append, spell_append, List.append_assoc, ← h.append_pending, hpending]
    simp
  · rw [hoffset, hspan, h.offset_eq, utf8Length_spell_append]
    simp
  · unfold classesClosed classesOpened at *
    rw [List.countP_append, List.countP_append]
    omega

/-- Along a run the cursor comes to stand behind all lexemes that are read. -/
theorem Run.behind {p : Text} {xs ys : List Lexeme} {k k' : Cursor} (hrun : Run k ys k')
    (h : Behind p xs k) : Behind p (xs ++ ys) k' := by
  induction hrun generalizing xs with
  | done k => rwa [List.append_nil]
  | @next k k₁ k₂ x ys hnext _ ih =>
    have hrest := ih (h.concat hnext)
    rwa [List.append_assoc, List.singleton_append] at hrest

/-- Along a run each lexeme starts where the one before it stops. -/
theorem Run.starts_concat {xs : List Lexeme} {k k' : Cursor} (hrun : Run k xs k') :
    (xs.map fun x => x.span.start) ++ [k'.offset] = k.offset :: xs.map fun x => x.span.stop := by
  induction hrun with
  | done k => rfl
  | @next k k₁ k₂ x xs hnext _ ih =>
    obtain ⟨-, hspan, -, hoffset, -⟩ := next?_eq_some hnext
    have hstart : x.span.start = k.offset := by rw [hspan]
    rw [List.map_cons, List.cons_append, ih, hoffset, hstart, List.map_cons]

/-- Reading ends at the end of the pattern, where all lexemes have been read. -/
theorem exists_run_lexemes (k : Cursor) : ∃ k', Run k k.lexemes k' ∧ k'.next? = none := by
  fun_induction lexemes k with
  | case1 k h => exact ⟨k, .done k, h⟩
  | case2 k x k₁ h ih =>
    obtain ⟨k', hrun, hend⟩ := ih
    exact ⟨k', .next h hrun, hend⟩

/-- Every lexeme of a run is read on the way. -/
theorem Run.exists_next {xs ys : List Lexeme} {x : Lexeme} {k k₂ : Cursor}
    (hrun : Run k (xs ++ x :: ys) k₂) : ∃ k₀ k₁, Run k xs k₀ ∧ k₀.next? = some (x, k₁) := by
  induction xs generalizing k with
  | nil =>
    cases hrun with
    | next hnext _ => exact ⟨k, _, .done k, hnext⟩
  | cons z xs ih =>
    cases hrun with
    | next hnext hrest =>
      obtain ⟨k₀, k₁, hxs, hx⟩ := ih hrest
      exact ⟨k₀, k₁, .next hnext hxs, hx⟩

/-- Every lexeme is read behind those before it. -/
theorem exists_next_of_lexemes_eq {k : Cursor} {xs ys : List Lexeme} {x : Lexeme}
    (h : k.lexemes = xs ++ x :: ys) : ∃ k₀ k₁, Run k xs k₀ ∧ k₀.next? = some (x, k₁) := by
  obtain ⟨k₂, hrun, -⟩ := k.exists_run_lexemes
  rw [h] at hrun
  exact hrun.exists_next

/-- Where a cursor stands in a pattern, the pattern goes on with the pending text. -/
theorem Behind.pending_eq {p : Text} {xs : List Lexeme} {k : Cursor} (h : Behind p xs k) :
    k.pending = p.dropBytes k.offset := by
  rw [h.offset_eq, ← h.append_pending, Text.dropBytes_append]

end Cursor

/-! ## Tiles -/

/-- Whether an offset of a pattern is between two characters, or at one of its ends. -/
def BetweenChars (p : Text) (offset : Nat) : Prop :=
  ∃ s t : Text, p = s ++ t ∧ offset = s.utf8Length

/-- How the lexeme `x` of a pattern is read behind the lexemes `before`: the cursor goes from `k` to
`k'`. -/
structure Tile (p : Text) (before : List Lexeme) (k : Cursor) (x : Lexeme) (k' : Cursor) :
    Prop where
  /-- The lexemes before it are read first. -/
  run : (Cursor.ofText p).Run before k
  /-- The lexeme is read next. -/
  next?_eq : k.next? = some (x, k')
  /-- It is read from the text of the pattern behind the cursor. -/
  pending_eq : k.pending = p.dropBytes k.offset
  /-- It takes the bytes between the two places of the cursor. -/
  span_eq : x.span = ⟨k.offset, k'.offset⟩
  /-- It takes some bytes. -/
  start_lt_stop : x.span.start < x.span.stop
  /-- These are as many as its token is wide. -/
  stop_eq : x.span.stop = x.span.start + x.token.width
  /-- It starts between characters. -/
  betweenChars_start : BetweenChars p x.span.start
  /-- It stops between characters. -/
  betweenChars_stop : BetweenChars p x.span.stop
  /-- Its text is the spelling of its token. -/
  slice_eq : p.slice x.span = x.token.spelling
  /-- The classes that are open are those that have been opened and not closed. -/
  classDepth_add : k.classDepth + classesClosed before = classesOpened before
  /-- A class is closed only where one is open. -/
  classDepth_pos : x.token = .classClose → 0 < k.classDepth
  /-- The lexeme says whether a class is open. -/
  inClass_iff : x.inClass ↔ 0 < k.classDepth
  /-- Inside a class no group is named. -/
  ne_namedCaptureOpen : x.inClass → ∀ name, x.token ≠ .namedCaptureOpen name
  /-- Inside a class no group is referred to by name. -/
  ne_namedBackref : x.inClass → ∀ name, x.token ≠ .namedBackref name
  /-- Inside a class there is no directive. -/
  not_isRecursion : x.inClass → ¬x.token.isRecursion

/-- Whether lexemes cover a pattern. -/
structure Tiles (p : Text) (xs : List Lexeme) : Prop where
  /-- Reading the pattern gives the lexemes and ends behind its last byte. -/
  ends : ∃ k, (Cursor.ofText p).Run xs k ∧ k.next? = none ∧ k.offset = p.utf8Length ∧
    k.classDepth + classesClosed xs = classesOpened xs
  /-- The first lexeme starts at the front of the pattern, each of the others where the one before
  it stops, and the last one stops at the end of the pattern. -/
  starts_concat : (xs.map fun x => x.span.start) ++ [p.utf8Length] = 0 :: xs.map fun x => x.span.stop
  /-- The spellings of the tokens make up the pattern. -/
  flatMap_spelling : (xs.flatMap fun x => x.token.spelling) = p
  /-- No other pattern has these tokens. -/
  eq_of_tokens_eq : ∀ q, tokens q = xs.map Lexeme.token → q = p
  /-- Each lexeme is read behind those before it. -/
  tile : ∀ before x after, xs = before ++ x :: after → ∃ k k', Tile p before k x k'

/-- A cursor stands between characters. -/
theorem Cursor.Behind.betweenChars {p : Text} {xs : List Lexeme} {k : Cursor}
    (h : Cursor.Behind p xs k) : BetweenChars p k.offset :=
  ⟨_, _, h.append_pending.symm, h.offset_eq⟩

/-- The lexeme that is read next behind other lexemes of a pattern is a tile of it. -/
theorem Cursor.Run.tile {p : Text} {before : List Lexeme} {k k' : Cursor} {x : Lexeme}
    (hrun : (Cursor.ofText p).Run before k) (hnext : k.next? = some (x, k')) :
    Tile p before k x k' := by
  have hbehind : Behind p before k := hrun.behind (behind_ofText p)
  have hbehind' : Behind p (before ++ [x]) k' := hbehind.concat hnext
  obtain ⟨hpending, hspan, hclass, hoffset, -⟩ := next?_eq_some hnext
  have hpos := utf8Length_spelling_pos x.token
  have hread : x.inClass → x.token.ReadsInClass k'.pending := by
    intro hin
    have hbefore := readsBefore_of_next? hnext
    rw [hclass] at hin
    rwa [show decide (0 < k.classDepth) = true from hin] at hbefore
  have hslice : p.slice x.span = x.token.spelling := by
    rw [hspan, hbehind.offset_eq, ← hbehind.append_pending, hpending, ← List.append_assoc]
    exact Text.slice_append _ _ _
  refine ⟨hrun, hnext, hbehind.pending_eq, ?_, ?_, ?_, ?_, ?_, hslice, hbehind.classDepth_add,
    classDepth_pos_of_classClose hnext, ?_, ?_, ?_, ?_⟩
  · rw [hoffset, hspan]
  · rw [hspan]
    exact Nat.lt_add_of_pos_right hpos
  · rw [hspan, Token.utf8Length_spelling]
  · rw [hspan]
    exact hbehind.betweenChars
  · rw [← hoffset]
    exact hbehind'.betweenChars
  · rw [hclass, Cursor.inClass, decide_eq_true_iff]
  · rintro hin name htoken
    have hname := hread hin
    rw [htoken] at hname
    exact hname
  · rintro hin name htoken
    have hname := hread hin
    rw [htoken] at hname
    exact hname
  · intro hin
    rw [Token.isRecursion_of_readsInClass _ _ (hread hin)]
    exact Bool.false_ne_true

/-- The lexemes of a pattern cover it. -/
theorem tiles_lexemes (p : Text) : Tiles p (lexemes p) := by
  obtain ⟨k, hrun, hend⟩ := (Cursor.ofText p).exists_run_lexemes
  have hbehind := hrun.behind (Cursor.behind_ofText p)
  have hoffset : k.offset = p.utf8Length := by
    have htext := hbehind.append_pending
    rw [Cursor.next?_eq_none_iff.1 hend, List.append_nil] at htext
    rw [hbehind.offset_eq, htext]
  refine ⟨⟨k, hrun, hend, hoffset, hbehind.classDepth_add⟩, ?_, flatMap_spelling_lexemes p, ?_, ?_⟩
  · rw [← hoffset]
    exact hrun.starts_concat
  · intro q hq
    have hp : spell (tokens p) = p := spell_tokensFrom 0 p
    have hq' : spell (tokens q) = q := spell_tokensFrom 0 q
    rw [← hq', hq]
    exact hp
  · intro before x after hsplit
    obtain ⟨k₀, k₁, hbefore, hnext⟩ := Cursor.exists_next_of_lexemes_eq hsplit
    exact ⟨k₀, k₁, hbefore.tile hnext⟩

end RegexUnroll
