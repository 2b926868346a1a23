import RegexUnroll.Nesting
import RegexUnroll.Proofs.Cutting

/-!
# Joining texts without changing their tokens

What stands behind a text can change how the text is read: an opener that was read without
parameters, because their closing delimiter was missing, gets them. `Settled` says of tokens that no
opener among them waits for such a delimiter and that no backslash ends them. Settled tokens stay
what they are before every text that does not go on with their last form (`JoinsTo`), and so do
copies of them whose names have got a tag (`Legible.map_append`): a tag stands in front of a `>`
that closes a form in the copied text too, and it holds nothing that an opener could wait for.
-/

namespace RegexUnroll

namespace Token

/-! ## Openers that wait for a delimiter -/

/-- Whether a token is an opener that is read with parameters as soon as a `>` stands behind the
text `rest` that follows it. -/
def AwaitsAngle (rest : Text) : Token → Prop
  | groupOpen => ∃ body, rest = '<' :: body ∧ '>' ∉ body ∧ body.head? ≠ some '=' ∧
      body.head? ≠ some '!'
  | escaped c => ∃ body, rest = '<' :: body ∧ '>' ∉ body ∧ (c = 'k' ∨ c = 'g' ∧
      ∀ a b, body = a ++ '&' :: b → '&' ∉ a → a ≠ [] ∧ ['R', '='] <+: b)
  | _ => False

/-- Whether a token is an opener that is read as a directive as soon as a `)` stands behind the text
`rest` that follows it. -/
def AwaitsParen (rest : Text) : Token → Prop
  | groupOpen => ['R', '='] <+: rest
  | _ => False

/-- Whether a token is another one whose name has got a tag behind it. -/
inductive Tagged : Token → Token → Prop
  /-- A token is itself. -/
  | same (t : Token) : Tagged t t
  /-- The opening of a named group may get a tag. -/
  | captureOpen (name : Text) {tag : Text} (h : ∀ c ∈ tag, c = '_' ∨ c = '$' ∨ c.isDigit) :
      Tagged (namedCaptureOpen name) (namedCaptureOpen (name ++ tag))
  /-- A named backreference may get a tag. -/
  | backref (name : Text) {tag : Text} (h : ∀ c ∈ tag, c = '_' ∨ c = '$' ∨ c.isDigit) :
      Tagged (namedBackref name) (namedBackref (name ++ tag))

/-- A tag has no character that a form is closed with or goes on with. -/
theorem not_mem_tag {tag : Text} (h : ∀ c ∈ tag, c = '_' ∨ c = '$' ∨ c.isDigit) {c : Char}
    (hc : c ∈ ['>', '&', 'R', '=']) : c ∉ tag := by
  intro hmem
  have htag := h c hmem
  simp only [List.mem_cons, List.not_mem_nil, or_false] at hc
  rcases hc with rfl | rfl | rfl | rfl <;> revert htag <;> decide

/-- A tag leaves the open classes as they are. -/
theorem Tagged.classDepthAfter_eq {t t' : Token} (h : Tagged t t') (depth : Nat) :
    t'.classDepthAfter depth = t.classDepthAfter depth := by
  cases h <;> rfl

/-- A tagged token opens a capture where the token without the tag does. -/
theorem Tagged.isCaptureOpen_eq {t t' : Token} (h : Tagged t t') :
    t'.isCaptureOpen = t.isCaptureOpen := by
  cases h <;> rfl

/-- A tagged token is a directive where the token without the tag is. -/
theorem Tagged.isRecursion_eq {t t' : Token} (h : Tagged t t') :
    t'.isRecursion = t.isRecursion := by
  cases h <;> rfl

/-- A tagged token begins as the token without the tag. -/
theorem Tagged.head?_spelling_eq {t t' : Token} (h : Tagged t t') :
    t'.spelling.head? = t.spelling.head? := by
  cases h <;> rfl

/-- Only a character is tagged into that character. -/
theorem Tagged.eq_char {t : Token} {c : Char} (h : Tagged (char c) t) : t = char c := by
  cases h
  rfl

/-- A tagged token is read wherever the token without the tag is. The tag stands behind the name, so
it neither closes the form nor makes it a lookbehind. -/
theorem Tagged.readsBefore {t t' : Token} (h : Tagged t t') {inClass : Bool} {rest : Text}
    (hread : t.ReadsBefore inClass rest) : t'.ReadsBefore inClass rest := by
  cases h with
  | same => exact hread
  | captureOpen name htag =>
    cases inClass with
    | true => exact hread.elim
    | false =>
      obtain ⟨hangle, hgroup⟩ : '>' ∉ name ∧ isGroupName name := hread
      refine ⟨?_, ?_⟩
      · rw [List.mem_append, not_or]
        exact ⟨hangle, not_mem_tag htag (by simp)⟩
      · match name, hgroup with
        | _ :: _, hgroup => exact hgroup
  | backref name htag =>
    cases inClass with
    | true => exact hread.elim
    | false =>
      obtain ⟨hangle, hne⟩ : '>' ∉ name ∧ name ≠ [] := hread
      refine ⟨?_, fun hnil => hne (List.append_eq_nil_iff.1 hnil).1⟩
      rw [List.mem_append, not_or]
      exact ⟨hangle, not_mem_tag htag (by simp)⟩

/-- Inside a class only a final backslash depends on what follows. -/
theorem ReadsInClass.of_ne_backslash {t : Token} {rest rest' : Text} (h : t.ReadsInClass rest)
    (hbackslash : t ≠ .char '\\') : t.ReadsInClass rest' := by
  cases t with
  | char c => exact .inl (h.resolve_right fun hlone => hbackslash (by rw [hlone.1]))
  | _ => exact h

/-- The name of a token in the copy of a depth has a tag. -/
theorem tagged_atDepth (names : CopiedNames) (depth : Nat) (t : Token) :
    Tagged t (t.atDepth names depth) := by
  have htag : ∀ c ∈ ['_', '$'] ++ Numeral.render depth, c = '_' ∨ c = '$' ∨ c.isDigit := by
    intro c hc
    simp only [List.cons_append, List.nil_append, List.mem_cons] at hc
    rcases hc with rfl | rfl | hc
    · exact .inl rfl
    · exact .inr (.inl rfl)
    · exact .inr (.inr (Numeral.isDigit_of_mem_render hc))
  cases t with
  | namedCaptureOpen name =>
    rw [atDepth, depthName, List.append_assoc]
    exact .captureOpen name htag
  | namedBackref name =>
    rw [atDepth]
    split
    · rw [depthName, List.append_assoc]
      exact .backref name htag
    · exact .same _
  | _ => exact .same _

/-- Where a closed form is split at a `>`, that is the closing one or stands before it. -/
theorem eq_or_of_append_angle {front a b : Text} (h : front ++ ['>'] = a ++ '>' :: b) :
    a = front ∨ ∃ c, front = a ++ '>' :: c := by
  rcases List.append_eq_append_iff.1 h with ⟨c, rfl, hc⟩ | ⟨c, rfl, hc⟩
  · have hnil : c = [] := by
      match c with
      | [] => rfl
      | d :: c => exact absurd (congrArg List.length hc) (by simp)
    exact .inl (by rw [hnil, List.append_nil])
  · match c with
    | [] => exact .inl (List.append_nil a).symm
    | d :: c =>
      obtain ⟨rfl, -⟩ := List.cons.inj hc
      exact .inr ⟨c, rfl⟩

/-- Up to a `>`, a tagged token goes on as the token without the tag, but for the tag. -/
theorem Tagged.spelling_of_angle {t t' : Token} (h : Tagged t t') {a b : Text}
    (hab : t.spelling = a ++ '>' :: b) :
    ∃ tag b', t'.spelling = a ++ tag ++ '>' :: b' ∧ ∀ c ∈ tag, c = '_' ∨ c = '$' ∨ c.isDigit := by
  -- The tag stands at the end of `front`, which the closing `>` follows.
  have hform : ∀ front tag : Text, t.spelling = front ++ ['>'] →
      t'.spelling = front ++ tag ++ ['>'] → (∀ c ∈ tag, c = '_' ∨ c = '$' ∨ c.isDigit) →
      ∃ tag b', t'.spelling = a ++ tag ++ '>' :: b' ∧
        ∀ c ∈ tag, c = '_' ∨ c = '$' ∨ c.isDigit := by
    intro front tag ht ht' htag
    rw [hab] at ht
    rcases eq_or_of_append_angle ht.symm with rfl | ⟨c, rfl⟩
    · exact ⟨tag, [], ht', htag⟩
    · exact ⟨[], c ++ tag ++ ['>'], by rw [ht']; simp, by simp⟩
  cases h with
  | same => exact ⟨[], b, by rw [hab, List.append_nil], by simp⟩
  | captureOpen name htag =>
    exact hform (['(', '?', '<'] ++ name) _ rfl (by simp [spelling]) htag
  | backref name htag =>
    exact hform (['\\', 'k', '<'] ++ name) _ rfl (by simp [spelling]) htag

/-- Without a `>` there is nothing to tag. -/
theorem Tagged.eq_of_not_mem {t t' : Token} (h : Tagged t t') (ht : '>' ∉ t.spelling) : t' = t := by
  cases h with
  | same => rfl
  | captureOpen name _ => exact absurd (by simp [spelling]) ht
  | backref name _ => exact absurd (by simp [spelling]) ht

end Token

section Tagging

variable {f : Token → Token} (hf : ∀ t, Token.Tagged t (f t))
include hf

/-- Tokens without a `>` are not tagged. -/
theorem map_eq_of_not_mem_spell {ts : List Token} (h : '>' ∉ spell ts) : ts.map f = ts := by
  induction ts with
  | nil => rfl
  | cons t ts ih =>
    rw [spell_cons, List.mem_append, not_or] at h
    rw [List.map_cons, (hf t).eq_of_not_mem h.1, ih h.2]

/-- Up to the first `>`, tagged tokens spell what they spell without tags, but for one tag. -/
theorem spell_map_of_angle {ts : List Token} {u v : Text} (h : spell ts = u ++ '>' :: v)
    (hu : '>' ∉ u) :
    ∃ tag v', spell (ts.map f) = u ++ tag ++ '>' :: v' ∧
      ∀ c ∈ tag, c = '_' ∨ c = '$' ∨ c.isDigit := by
  induction ts generalizing u with
  | nil => simp at h
  | cons t ts ih =>
    rw [spell_cons] at h
    rw [List.map_cons, spell_cons]
    rcases List.append_eq_append_iff.1 h with ⟨a, rfl, ha⟩ | ⟨b, ht, hb⟩
    · -- The `>` stands behind the token, which has none itself.
      have hnot : '>' ∉ t.spelling := fun hmem => hu (List.mem_append_left a hmem)
      obtain ⟨tag, v', hv', htag⟩ := ih ha fun hmem => hu (List.mem_append_right _ hmem)
      exact ⟨tag, v', by rw [(hf t).eq_of_not_mem hnot, hv']; simp, htag⟩
    · match b with
      | [] =>
        have hnot : '>' ∉ t.spelling := by rw [ht, List.append_nil]; exact hu
        obtain ⟨tag, v', hv', htag⟩ := ih (u := []) hb.symm (by simp)
        rw [List.append_nil] at ht
        exact ⟨tag, v', by rw [(hf t).eq_of_not_mem hnot, hv', ht]; simp, htag⟩
      | c :: b =>
        obtain ⟨rfl, -⟩ := List.cons.inj hb
        obtain ⟨tag, b', hb', htag⟩ := (hf t).spelling_of_angle ht
        exact ⟨tag, b' ++ spell (ts.map f), by rw [hb']; simp, htag⟩

end Tagging

/-! ## Where texts join -/

/-- The characters with which an opener may go on. -/
def goesOn : List Char := ['?', '<', 'R', '=']

/-- Whether the last form of `s` cannot go on with `u`: `u` does not begin like the rest of an
opener, or `s` ends with a closing delimiter. -/
def JoinsTo (s u : Text) : Prop := (∀ c ∈ u.head?, c ∉ goesOn) ∨ s.getLast? = some ')'

/-- What the end of a text joins to, the text joins to, and the other way round. -/
theorem joinsTo_append_iff {s t u : Text} (ht : t ≠ []) : JoinsTo (s ++ t) u ↔ JoinsTo t u := by
  rw [JoinsTo, JoinsTo, List.getLast?_append_of_ne_nil _ ht]

/-- What joins to the end of a text that tokens stand behind does not go on with its last form, if
there are no tokens. -/
theorem JoinsTo.not_mem_goesOn {s u : Text} {ts : List Token} (h : JoinsTo (s ++ spell ts) u)
    (hs : s.getLast? ≠ some ')') (hts : ts = []) : ∀ c ∈ u.head?, c ∉ goesOn := by
  rw [hts, spell_nil, List.append_nil] at h
  exact h.resolve_right hs

/-- Whether tokens stay what they are before every text that they join to: no backslash ends them,
and no opener among them waits for a closing delimiter. -/
def Settled : Nat → List Token → Prop
  | _, [] => True
  | depth, t :: ts =>
    (t ≠ .char '\\' ∧ (depth = 0 → ¬t.AwaitsAngle (spell ts) ∧ ¬t.AwaitsParen (spell ts))) ∧
      Settled (t.classDepthAfter depth) ts

/-- Tokens behind settled ones are settled. -/
theorem Settled.right_of_append {depth : Nat} {ts us : List Token} (h : Settled depth (ts ++ us)) :
    Settled (classDepthAfter depth ts) us := by
  induction ts generalizing depth with
  | nil => exact h
  | cons t ts ih => exact ih h.2

/-- Legible tokens whose text begins with a character that opens nothing begin with that
character. -/
theorem exists_eq_char_of_legible {ts : List Token} (h : Legible 0 ts) {c : Char} {r : Text}
    (hspell : spell ts = c :: r) (hc : c ∉ ['(', ')', '[', '\\']) :
    ∃ ts', ts = .char c :: ts' ∧ Legible 0 ts' ∧ spell ts' = r := by
  match ts with
  | [] => simp at hspell
  | t :: ts =>
    obtain ⟨hread, hrest⟩ := h
    cases t with
    | char d =>
      obtain ⟨rfl, rfl⟩ := List.cons.inj hspell
      exact ⟨ts, rfl, hrest, rfl⟩
    | classClose => exact hread.elim
    | _ =>
      obtain ⟨rfl, -⟩ := List.cons.inj hspell
      exact absurd (by simp) hc

/-- Where a text goes on with a tag before `>`, a directive's parameters lie before the tag. -/
theorem exists_of_append_tag {a tag target depth : Text}
    (htag : ∀ c ∈ tag, c = '_' ∨ c = '$' ∨ c.isDigit)
    (h : a ++ tag = target ++ ['&', 'R', '='] ++ depth) :
    ∃ depth', a = target ++ ['&', 'R', '='] ++ depth' := by
  rw [List.append_assoc] at h
  rcases List.append_eq_append_iff.1 h with ⟨c, -, hc⟩ | ⟨c, rfl, hc⟩
  · exact absurd (by rw [hc]; simp) (Token.not_mem_tag htag (c := '&') (by simp))
  · match c with
    | [] =>
      exact absurd (by rw [← List.nil_append tag, ← hc]; simp)
        (Token.not_mem_tag htag (c := '&') (by simp))
    | [d] =>
      have htail : ['R', '='] ++ depth = tag := (List.cons.inj hc).2
      exact absurd (by rw [← htail]; simp) (Token.not_mem_tag htag (c := 'R') (by simp))
    | [d, e] =>
      have htail : ['='] ++ depth = tag := (List.cons.inj (List.cons.inj hc).2).2
      exact absurd (by rw [← htail]; simp) (Token.not_mem_tag htag (c := '=') (by simp))
    | d :: e :: g :: c =>
      have h₁ := List.cons.inj hc
      have h₂ := List.cons.inj h₁.2
      have h₃ := List.cons.inj h₂.2
      exact ⟨c, by rw [← h₁.1, ← h₂.1, ← h₃.1]; simp⟩

/-- A text has one cut at the first place of a character. -/
theorem eq_of_append_cons {c : Char} {a a' b b' : Text} (h : a ++ c :: b = a' ++ c :: b')
    (ha : c ∉ a) (ha' : c ∉ a') : a = a' ∧ b = b' := by
  have hcut : Text.upTo? c (a ++ c :: b) = some (a, b) := Text.upTo?_eq_some_iff.2 ⟨rfl, ha⟩
  have hcut' : Text.upTo? c (a ++ c :: b) = some (a', b') := Text.upTo?_eq_some_iff.2 ⟨h, ha'⟩
  exact Prod.mk.inj (Option.some.inj (hcut.symm.trans hcut'))

/-- A depth that begins behind `&` begins in the text that ends there, where the text joins to what
follows. -/
theorem isPrefix_of_joinsTo {b u x : Text} (hjoin : JoinsTo ('&' :: b) u)
    (h : b ++ u = 'R' :: '=' :: x) : ['R', '='] <+: b := by
  match b with
  | [] =>
    have hfresh := hjoin.resolve_right (by simp)
    rw [List.nil_append] at h
    exact absurd (by simp [goesOn]) (hfresh 'R' (by rw [h]; rfl))
  | [d] =>
    have hfresh : ∀ c ∈ u.head?, c ∉ goesOn := by
      refine hjoin.resolve_right ?_
      rw [(List.cons.inj h).1]
      simp
    have hu : u = '=' :: x := (List.cons.inj h).2
    exact absurd (by simp [goesOn]) (hfresh '=' (by rw [hu]; rfl))
  | d :: e :: b =>
    have h₁ := List.cons.inj h
    have h₂ := List.cons.inj h₁.2
    exact ⟨b, by rw [← h₁.1, ← h₂.1]; simp⟩

/-- Where no name is opened behind `(?<` although nothing is waited for, the name would be empty or
that of a lookbehind. -/
theorem exists_head?_of_namedCaptureOpen?_eq_none {s : Text}
    (hread : Token.namedCaptureOpen? ('?' :: '<' :: s) = none)
    (hawaits : ¬Token.groupOpen.AwaitsAngle ('<' :: s)) :
    ∃ c ∈ ['>', '=', '!'], s.head? = some c := by
  by_cases hmem : '>' ∈ s
  · obtain ⟨a, b, rfl, ha⟩ := List.eq_append_cons_of_mem hmem
    have hnot : ¬Token.isGroupName a := by
      intro hgroup
      have hsome : Token.namedCaptureOpen? ('?' :: '<' :: (a ++ '>' :: b)) =
          some (.namedCaptureOpen a, b) :=
        Token.namedCaptureOpen?_eq_some_iff.2 ⟨a, rfl, rfl, ha, hgroup⟩
      exact absurd (hread.symm.trans hsome) (by simp)
    cases a with
    | nil => exact ⟨'>', by simp, rfl⟩
    | cons c a =>
      refine ⟨c, ?_, rfl⟩
      simp only [Token.isGroupName, Bool.and_eq_true, bne_iff_ne, not_and_or,
        Decidable.not_not] at hnot
      rcases hnot with rfl | rfl <;> simp
  · have hhead : s.head? = some '=' ∨ s.head? = some '!' := by
      by_contra hne
      rw [not_or] at hne
      exact hawaits ⟨s, rfl, hmem, hne⟩
    rcases hhead with hhead | hhead
    · exact ⟨'=', by simp, hhead⟩
    · exact ⟨'!', by simp, hhead⟩

section Joining

variable {f : Token → Token} (hf : ∀ t, Token.Tagged t (f t))
include hf

/-- Where tagged tokens and a text that they join to begin with a character with which an opener
goes on, that character is the first of the tokens. -/
theorem exists_eq_char_of_map {ts : List Token} (h : Legible 0 ts) {u : Text}
    (hjoin : ts = [] → ∀ c ∈ u.head?, c ∉ goesOn) {c : Char} {r : Text}
    (hspell : spell (ts.map f) ++ u = c :: r) (hc : c ∈ goesOn) :
    ∃ ts', ts = .char c :: ts' ∧ Legible 0 ts' ∧ spell (ts'.map f) ++ u = r := by
  match ts with
  | [] =>
    rw [List.map_nil, spell_nil, List.nil_append] at hspell
    exact absurd hc (hjoin rfl c (by rw [hspell]; rfl))
  | t :: ts =>
    have hplain : c ∉ ['(', ')', '[', '\\'] := by
      intro hmem
      simp only [goesOn, List.mem_cons, List.not_mem_nil, or_false] at hc hmem
      rcases hc with rfl | rfl | rfl | rfl <;> revert hmem <;> decide
    have hhead : (spell (t :: ts)).head? = some c := by
      obtain ⟨d, s, hd⟩ := List.exists_cons_of_ne_nil t.spelling_ne_nil
      obtain ⟨d', s', hd'⟩ := List.exists_cons_of_ne_nil (f t).spelling_ne_nil
      have heq := (hf t).head?_spelling_eq
      rw [List.map_cons, spell_cons, hd'] at hspell
      obtain ⟨rfl, -⟩ := List.cons.inj hspell
      rw [spell_cons, hd]
      rw [hd, hd'] at heq
      exact heq.symm
    obtain ⟨r', hr'⟩ := List.head?_eq_some_iff.1 hhead
    obtain ⟨ts', hts, hlegible, -⟩ := exists_eq_char_of_legible h hr' hplain
    obtain ⟨rfl, rfl⟩ := List.cons.inj hts
    refine ⟨ts, rfl, hlegible, ?_⟩
    rw [List.map_cons, (hf _).eq_char] at hspell
    exact (List.cons.inj hspell).2

/-- A group opening that waits for nothing does not become the opening of a named group. -/
theorem namedCaptureOpen?_map_eq_none {ts : List Token} (h : Legible 0 ts)
    (hread : Token.namedCaptureOpen? ('?' :: spell ts) = none)
    (hawaits : ¬Token.groupOpen.AwaitsAngle (spell ts)) {u : Text}
    (hjoin : JoinsTo ('?' :: spell ts) u) :
    Token.namedCaptureOpen? ('?' :: (spell (ts.map f) ++ u)) = none := by
  refine Option.eq_none_iff_forall_ne_some.2 fun ⟨t, r⟩ hsome => ?_
  obtain ⟨name, -, hform, hname, hgroup⟩ := Token.namedCaptureOpen?_eq_some_iff.1 hsome
  obtain ⟨ts₁, rfl, h₁, htail⟩ := exists_eq_char_of_map hf h
    (hjoin.not_mem_goesOn (s := ['?']) (by decide)) (List.cons.inj hform).2 (by simp [goesOn])
  -- The character behind `<` closes an empty name or begins a lookbehind, with tags or without.
  obtain ⟨c, hc, hhead⟩ := exists_head?_of_namedCaptureOpen?_eq_none hread hawaits
  obtain ⟨s, hs⟩ := List.head?_eq_some_iff.1 hhead
  obtain ⟨ts₂, rfl, -, -⟩ := exists_eq_char_of_legible h₁ hs (by
    simp only [List.mem_cons, List.not_mem_nil, or_false] at hc ⊢
    rcases hc with rfl | rfl | rfl <;> decide)
  rw [List.map_cons, (hf _).eq_char] at htail
  cases name with
  | nil => exact absurd hgroup (by simp [Token.isGroupName])
  | cons d name =>
    have hcd : c = d := (List.cons.inj htail).1
    subst hcd
    simp only [List.mem_cons, List.not_mem_nil, or_false] at hc
    rcases hc with rfl | rfl | rfl
    · exact hname (by simp)
    · exact absurd hgroup (by simp [Token.isGroupName])
    · exact absurd hgroup (by simp [Token.isGroupName])

/-- A group opening that waits for nothing does not become a directive. -/
theorem globalRecursion?_map_eq_none {ts : List Token} (h : Legible 0 ts)
    (hawaits : ¬Token.groupOpen.AwaitsParen (spell ts)) {u : Text}
    (hjoin : JoinsTo ('?' :: spell ts) u) :
    Token.globalRecursion? ('?' :: (spell (ts.map f) ++ u)) = none := by
  refine Option.eq_none_iff_forall_ne_some.2 fun ⟨t, r⟩ hsome => ?_
  obtain ⟨depth, -, hform, -⟩ := Token.globalRecursion?_eq_some_iff.1 hsome
  obtain ⟨ts₁, rfl, h₁, htail⟩ := exists_eq_char_of_map hf h
    (hjoin.not_mem_goesOn (s := ['?']) (by decide)) (List.cons.inj hform).2 (by simp [goesOn])
  obtain ⟨ts₂, rfl, -, -⟩ := exists_eq_char_of_map hf h₁
    (hjoin.not_mem_goesOn (s := ['?', 'R']) (by decide)) htail (by simp [goesOn])
  exact hawaits (by simp [Token.AwaitsParen, Token.spelling])

/-- An escaped `k` that waits for nothing does not become a named backreference. -/
theorem namedBackref?_map_eq_none {ts : List Token} (h : Legible 0 ts) {c : Char}
    (hread : Token.namedBackref? (c :: spell ts) = none)
    (hawaits : ¬(Token.escaped c).AwaitsAngle (spell ts)) {u : Text}
    (hjoin : JoinsTo ('\\' :: c :: spell ts) u) :
    Token.namedBackref? (c :: (spell (ts.map f) ++ u)) = none := by
  refine Option.eq_none_iff_forall_ne_some.2 fun ⟨t, r⟩ hsome => ?_
  obtain ⟨name, -, hform, hname, hne⟩ := Token.namedBackref?_eq_some_iff.1 hsome
  have hc : c = 'k' := (List.cons.inj hform).1
  subst hc
  obtain ⟨ts₁, rfl, h₁, htail⟩ := exists_eq_char_of_map hf h
    (hjoin.not_mem_goesOn (s := ['\\', 'k']) (by decide)) (List.cons.inj hform).2 (by simp [goesOn])
  rw [spell_cons] at hread hawaits
  have hmem : '>' ∈ spell ts₁ := by
    by_contra hmem
    exact hawaits ⟨spell ts₁, rfl, hmem, .inl rfl⟩
  obtain ⟨a, b, hab, ha⟩ := List.eq_append_cons_of_mem hmem
  -- The name is empty, and stays so, since the `>` behind it is a character of its own.
  have hnil : a = [] := by
    by_contra hne'
    have hsome' : Token.namedBackref? ('k' :: ((Token.char '<').spelling ++ spell ts₁)) =
        some (.namedBackref a, b) :=
      Token.namedBackref?_eq_some_iff.2 ⟨a, rfl, by rw [hab]; simp [Token.spelling], ha, hne'⟩
    rw [hread] at hsome'
    exact absurd hsome' (by simp)
  rw [hnil] at hab
  obtain ⟨ts₂, rfl, -, -⟩ := exists_eq_char_of_legible h₁ hab (by decide)
  rw [List.map_cons, (hf _).eq_char] at htail
  cases name with
  | nil => exact hne rfl
  | cons d name =>
    have hcd : '>' = d := (List.cons.inj htail).1
    rw [hcd] at hname
    exact hname List.mem_cons_self

/-- Tags keep clear of the parameters of a directive, so a directive that ends at the first `>` of
tagged tokens is one without tags too. -/
theorem exists_subpatternRecursion?_of_map {ts : List Token} (hmem : '>' ∈ spell ts)
    {u target depth r : Text}
    (htail : spell (ts.map f) ++ u = target ++ ['&', 'R', '='] ++ depth ++ '>' :: r)
    (hne : target ≠ []) (hgt : '>' ∉ target) (hamp : '&' ∉ target) (hdepth : '>' ∉ depth) :
    ∃ t, Token.subpatternRecursion? ('g' :: '<' :: spell ts) = some t := by
  obtain ⟨a, b, hab, ha⟩ := List.eq_append_cons_of_mem hmem
  obtain ⟨tag, v, hv, htag⟩ := spell_map_of_angle hf hab ha
  have hcut : a ++ tag ++ '>' :: (v ++ u) = target ++ ['&', 'R', '='] ++ depth ++ '>' :: r := by
    rw [← htail, hv, List.append_assoc (a ++ tag), List.cons_append]
  have hnot : '>' ∉ a ++ tag := by
    rw [List.mem_append, not_or]
    exact ⟨ha, Token.not_mem_tag htag (by simp)⟩
  obtain ⟨hparams, -⟩ := eq_of_append_cons hcut hnot (by simp [hgt, hdepth])
  obtain ⟨depth', rfl⟩ := exists_of_append_tag htag hparams
  have hdepth' : '>' ∉ depth' := fun hmem' => ha (List.mem_append_right _ hmem')
  exact ⟨(.subpatternRecursion target depth', b), Token.subpatternRecursion?_eq_some_iff.2
    ⟨target, depth', rfl, by rw [hab]; simp, hne, hgt, hamp, hdepth'⟩⟩

/-- An escaped `g` that waits for nothing does not become a directive. -/
theorem subpatternRecursion?_map_eq_none {ts : List Token} (h : Legible 0 ts) {c : Char}
    (hread : Token.subpatternRecursion? (c :: spell ts) = none)
    (hawaits : ¬(Token.escaped c).AwaitsAngle (spell ts)) {u : Text}
    (hjoin : JoinsTo ('\\' :: c :: spell ts) u) :
    Token.subpatternRecursion? (c :: (spell (ts.map f) ++ u)) = none := by
  refine Option.eq_none_iff_forall_ne_some.2 fun ⟨t, r⟩ hsome => ?_
  obtain ⟨target, depth, -, hform, hne, hgt, hamp, hdepth⟩ :=
    Token.subpatternRecursion?_eq_some_iff.1 hsome
  have hc : c = 'g' := (List.cons.inj hform).1
  subst hc
  obtain ⟨ts₁, rfl, h₁, htail⟩ := exists_eq_char_of_map hf h
    (hjoin.not_mem_goesOn (s := ['\\', 'g']) (by decide)) (List.cons.inj hform).2 (by simp [goesOn])
  rw [spell_cons] at hread hawaits
  by_cases hmem : '>' ∈ spell ts₁
  · -- The directive would end at the first `>`, and without its tag it would stand there too.
    obtain ⟨t', hsome'⟩ := exists_subpatternRecursion?_of_map hf hmem htail hne hgt hamp hdepth
    exact absurd (hread.symm.trans hsome') (by simp)
  · -- There is nothing to tag, and the first `&` neither begins a depth nor comes to begin one.
    rw [map_eq_of_not_mem_spell hf hmem] at htail
    obtain ⟨a, b, hab, ha, hdepth'⟩ : ∃ a b, spell ts₁ = a ++ '&' :: b ∧ '&' ∉ a ∧
        (a = [] ∨ ¬['R', '='] <+: b) := by
      by_contra hnot
      refine hawaits ⟨spell ts₁, rfl, hmem, .inr ⟨rfl, fun a b hab ha => ?_⟩⟩
      by_contra hor
      rw [not_and_or, not_not] at hor
      exact hnot ⟨a, b, hab, ha, hor⟩
    have hcut : a ++ '&' :: (b ++ u) = target ++ '&' :: (['R', '='] ++ depth ++ '>' :: r) := by
      rw [← List.cons_append, ← List.append_assoc, ← hab, htail]
      simp
    obtain ⟨rfl, hbu⟩ := eq_of_append_cons hcut ha hamp
    rw [spell_cons, hab, ← List.cons_append, ← List.cons_append, ← List.append_assoc,
      joinsTo_append_iff (by simp)] at hjoin
    exact hdepth'.resolve_left hne (isPrefix_of_joinsTo hjoin (by rw [hbu]; simp; rfl))

/-- Outside classes a token that waits for nothing is read before tagged tokens and a text that it
joins to. -/
theorem readsTopLevel_map_append {t : Token} {ts : List Token} (hread : t.ReadsTopLevel (spell ts))
    (hts : Legible (t.classDepthAfter 0) ts) (hbackslash : t ≠ .char '\\')
    (hangle : ¬t.AwaitsAngle (spell ts)) (hparen : ¬t.AwaitsParen (spell ts)) {u : Text}
    (hjoin : JoinsTo (spell (t :: ts)) u) : t.ReadsTopLevel (spell (ts.map f) ++ u) := by
  -- The condition of an opener without parameters is one on what follows.
  cases t with
  | captureOpen =>
    intro hhead
    obtain ⟨r, hr⟩ := List.head?_eq_some_iff.1 hhead
    obtain ⟨ts₁, rfl, -, -⟩ := exists_eq_char_of_map hf hts
      (hjoin.not_mem_goesOn (s := ['(']) (by decide)) hr (by simp [goesOn])
    exact hread rfl
  | groupOpen =>
    have hjoin' : JoinsTo ('?' :: spell ts) u :=
      (joinsTo_append_iff (s := ['(']) (by simp)).1 hjoin
    exact ⟨namedCaptureOpen?_map_eq_none hf hts hread.1 hangle hjoin',
      globalRecursion?_map_eq_none hf hts hparen hjoin'⟩
  | escaped c =>
    exact ⟨subpatternRecursion?_map_eq_none hf hts hread.1 hangle hjoin,
      namedBackref?_map_eq_none hf hts hread.2 hangle hjoin⟩
  | char c => exact .inl (hread.resolve_right fun hlone => hbackslash (by rw [hlone.1]))
  | _ => exact hread

/-- A token that waits for nothing is read, with a tag or without, before tagged tokens and a text
that it joins to. -/
theorem readsBefore_map_append {depth : Nat} {t : Token} {ts : List Token}
    (h : Legible depth (t :: ts)) (hbackslash : t ≠ .char '\\')
    (hawaits : depth = 0 → ¬t.AwaitsAngle (spell ts) ∧ ¬t.AwaitsParen (spell ts)) {u : Text}
    (hjoin : JoinsTo (spell (t :: ts)) u) :
    (f t).ReadsBefore (0 < depth) (spell (ts.map f) ++ u) := by
  refine (hf t).readsBefore ?_
  obtain ⟨hread, hrest⟩ := h
  rcases Nat.eq_zero_or_pos depth with rfl | hpos
  · obtain ⟨hangle, hparen⟩ := hawaits rfl
    exact readsTopLevel_map_append hf hread hrest hbackslash hangle hparen hjoin
  · rw [decide_eq_true hpos] at hread ⊢
    exact Token.ReadsInClass.of_ne_backslash hread hbackslash

/-- Settled tokens are legible, with tags or without, before all legible tokens that they join to.
-/
theorem Legible.map_append {depth : Nat} {ts us : List Token} (h : Legible depth ts)
    (hsettled : Settled depth ts) (hjoin : JoinsTo (spell ts) (spell us))
    (hus : Legible (classDepthAfter depth ts) us) : Legible depth (ts.map f ++ us) := by
  induction ts generalizing depth with
  | nil => exact hus
  | cons t ts ih =>
    rw [List.map_cons, List.cons_append, legible_cons, spell_append,
      (hf t).classDepthAfter_eq]
    refine ⟨readsBefore_map_append hf h hsettled.1.1 hsettled.1.2 hjoin, ?_⟩
    -- What the last token joins to, all of them join to.
    match ts with
    | [] => exact hus
    | t' :: ts =>
      have hne : spell (t' :: ts) ≠ [] := by simp [t'.spelling_ne_nil]
      exact ih h.2 hsettled.2 ((joinsTo_append_iff hne).1 hjoin) hus

end Joining

/-- Settled tokens are legible before all legible tokens that they join to. -/
theorem Legible.append {depth : Nat} {ts us : List Token} (h : Legible depth ts)
    (hsettled : Settled depth ts) (hjoin : JoinsTo (spell ts) (spell us))
    (hus : Legible (classDepthAfter depth ts) us) : Legible depth (ts ++ us) := by
  have hsame := h.map_append (f := id) Token.Tagged.same hsettled hjoin hus
  rwa [List.map_id] at hsame

end RegexUnroll
