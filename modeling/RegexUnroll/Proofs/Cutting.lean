import Mathlib.Data.List.Basic
import RegexUnroll.Proofs.Reading

/-!
# Cutting a text between two tokens

A text that is cut between two of its tokens falls into two texts with the tokens on either side
(`tokens_spell_left`, `tokens_spell_right`). For the right side, behind a cut outside classes, that
is so by definition. The left side loses its lookahead: but what was not recognised with the longer text
behind it is not recognised with the shorter one either. On lexemes, a cut keeps spans and class
flags (`Cursor.lexemes_drop`), and the lexemes between two cuts are those whose spans lie between
them (`lexemesIn_eq`).
-/

namespace RegexUnroll

namespace Token

/-! ## A form in a longer text -/

/-- The opening of a named group is still recognised in a longer text. -/
theorem namedCaptureOpen?_append {s rest : Text} {t : Token} (x : Text)
    (h : namedCaptureOpen? s = some (t, rest)) :
    namedCaptureOpen? (s ++ x) = some (t, rest ++ x) := by
  obtain ⟨name, ht, rfl, hname⟩ := namedCaptureOpen?_eq_some_iff.1 h
  exact namedCaptureOpen?_eq_some_iff.2 ⟨name, ht, by simp, hname⟩

/-- A directive for the whole pattern is still recognised in a longer text. -/
theorem globalRecursion?_append {s rest : Text} {t : Token} (x : Text)
    (h : globalRecursion? s = some (t, rest)) :
    globalRecursion? (s ++ x) = some (t, rest ++ x) := by
  obtain ⟨depth, ht, rfl, hdepth⟩ := globalRecursion?_eq_some_iff.1 h
  exact globalRecursion?_eq_some_iff.2 ⟨depth, ht, by simp, hdepth⟩

/-- A named backreference is still recognised in a longer text. -/
theorem namedBackref?_append {s rest : Text} {t : Token} (x : Text)
    (h : namedBackref? s = some (t, rest)) :
    namedBackref? (s ++ x) = some (t, rest ++ x) := by
  obtain ⟨name, ht, rfl, hname⟩ := namedBackref?_eq_some_iff.1 h
  exact namedBackref?_eq_some_iff.2 ⟨name, ht, by simp, hname⟩

/-- A directive for a group is still recognised in a longer text. -/
theorem subpatternRecursion?_append {s rest : Text} {t : Token} (x : Text)
    (h : subpatternRecursion? s = some (t, rest)) :
    subpatternRecursion? (s ++ x) = some (t, rest ++ x) := by
  obtain ⟨target, depth, ht, rfl, hform⟩ := subpatternRecursion?_eq_some_iff.1 h
  exact subpatternRecursion?_eq_some_iff.2 ⟨target, depth, ht, by simp, hform⟩

/-- What is recognised in no longer text is not recognised. -/
theorem eq_none_of_append {form : Text → Option (Token × Text)} {s x : Text}
    (hform : ∀ r, form s = some r → form (s ++ x) = some (r.1, r.2 ++ x))
    (h : form (s ++ x) = none) : form s = none := by
  refine Option.eq_none_iff_forall_ne_some.2 fun r hsome => ?_
  rw [hform r hsome] at h
  exact absurd h (Option.some_ne_none _)

/-- A token that is read before a text is read before every beginning of it. -/
theorem ReadsBefore.of_append {inClass : Bool} {rest x : Text} {t : Token}
    (h : t.ReadsBefore inClass (rest ++ x)) : t.ReadsBefore inClass rest := by
  -- Only an opener without parameters and a lone backslash depend on what stands behind them.
  cases inClass with
  | true =>
    cases t with
    | char c => exact Or.imp_right (And.imp_right fun hnil => (List.append_eq_nil_iff.1 hnil).1) h
    | _ => exact h
  | false =>
    cases t with
    | captureOpen =>
      intro hhead
      obtain ⟨r, rfl⟩ := List.head?_eq_some_iff.1 hhead
      exact h rfl
    | groupOpen =>
      exact ⟨eq_none_of_append (fun _ => namedCaptureOpen?_append x) h.1,
        eq_none_of_append (fun _ => globalRecursion?_append x) h.2⟩
    | escaped c =>
      exact ⟨eq_none_of_append (fun _ => subpatternRecursion?_append x) h.1,
        eq_none_of_append (fun _ => namedBackref?_append x) h.2⟩
    | char c => exact Or.imp_right (And.imp_right fun hnil => (List.append_eq_nil_iff.1 hnil).1) h
    | _ => exact h

end Token

/-! ## Legible tokens -/

/-- The tokens before a cut are legible. -/
theorem Legible.left_of_append {depth : Nat} {ts us : List Token} (h : Legible depth (ts ++ us)) :
    Legible depth ts := by
  induction ts generalizing depth with
  | nil => trivial
  | cons t ts ih =>
    rw [List.cons_append, legible_cons, spell_append] at h
    exact ⟨h.1.of_append, ih h.2⟩

/-- The tokens behind a cut are legible. -/
theorem Legible.right_of_append {depth : Nat} {ts us : List Token}
    (h : Legible depth (ts ++ us)) : Legible (classDepthAfter depth ts) us := by
  induction ts generalizing depth with
  | nil => exact h
  | cons t ts ih => exact ih h.2

/-- A token between others meets its condition. -/
theorem Legible.readsBefore {depth : Nat} {ts us : List Token} {t : Token}
    (h : Legible depth (ts ++ t :: us)) :
    t.ReadsBefore (0 < classDepthAfter depth ts) (spell us) :=
  h.right_of_append.1

/-! ## The texts on both sides of a cut -/

/-- The lexemes on both sides of a cut have the tokens of the pattern there. -/
theorem tokens_eq_append {p : Text} {xs ys : List Lexeme} (h : lexemes p = xs ++ ys) :
    tokens p = xs.map Lexeme.token ++ ys.map Lexeme.token := by
  rw [tokens, h, List.map_append]

section Cut

variable {p : Text} {ts us : List Token} (h : tokens p = ts ++ us)
include h

/-- The text of a pattern falls into what its tokens spell. -/
theorem eq_spell_append : p = spell ts ++ spell us := by
  rw [← spell_append, ← h]
  exact (spell_tokensFrom 0 p).symm

/-- The text before a cut is what the tokens there spell. -/
theorem takeBytes_eq_spell : p.takeBytes (Text.utf8Length (spell ts)) = spell ts := by
  conv_lhs => rw [eq_spell_append h]
  exact Text.takeBytes_append _ _

/-- The text behind a cut is what the tokens there spell. -/
theorem dropBytes_eq_spell : p.dropBytes (Text.utf8Length (spell ts)) = spell us := by
  conv_lhs => rw [eq_spell_append h]
  exact Text.dropBytes_append _ _

/-- The text before a cut is read as the tokens there. -/
theorem tokens_spell_left : tokens (spell ts) = ts := by
  have hlegible := legible_tokensFrom 0 p
  rw [← tokens_eq_tokensFrom, h] at hlegible
  exact tokensFrom_spell hlegible.left_of_append

/-- The text behind a cut outside classes is read as the tokens there. -/
theorem tokens_spell_right (hdepth : classDepthAfter 0 ts = 0) : tokens (spell us) = us := by
  have hlegible := legible_tokensFrom 0 p
  rw [← tokens_eq_tokensFrom, h] at hlegible
  have hright := hlegible.right_of_append
  rw [hdepth] at hright
  exact tokensFrom_spell hright

end Cut

/-! ## Lexemes -/

/-- Behind some of its lexemes a cursor has the others. -/
theorem Cursor.lexemes_drop {k : Cursor} {xs ys : List Lexeme} (h : k.lexemes = xs ++ ys) :
    (Cursor.mk (spell (ys.map Lexeme.token))
      (k.offset + Text.utf8Length (spell (xs.map Lexeme.token)))
      (classDepthAfter k.classDepth (xs.map Lexeme.token))).lexemes = ys := by
  induction xs generalizing k with
  | nil =>
    have hpending : spell (ys.map Lexeme.token) = k.pending := by
      rw [← spell_map_token_lexemes k, h, List.nil_append]
    rw [hpending]
    exact h
  | cons x xs ih =>
    -- One step of the cursor takes the first lexeme, and the others follow from where it stops.
    have hnext : ∃ k', k.next? = some (x, k') ∧ k'.lexemes = xs ++ ys := by
      match hk : k.next? with
      | none =>
        rw [lexemes_of_next?_eq_none hk] at h
        exact absurd h (by simp)
      | some (y, k') =>
        rw [lexemes_of_next?_eq_some hk, List.cons_append] at h
        obtain ⟨rfl, htail⟩ := List.cons.inj h
        exact ⟨k', rfl, htail⟩
    obtain ⟨k', hnext, htail⟩ := hnext
    obtain ⟨-, hspan, -, hoffset, hdepth⟩ := next?_eq_some hnext
    have hrest := ih htail
    rw [hoffset, hspan, hdepth] at hrest
    rw [List.map_cons, spell_cons, Text.utf8Length_append, classDepthAfter_cons, ← Nat.add_assoc]
    exact hrest

/-- A lexeme stands where the tokens before it end. -/
theorem span_eq_of_lexemes_append {p : Text} {xs ys : List Lexeme} {x : Lexeme}
    (h : lexemes p = xs ++ x :: ys) :
    x.span = ⟨Text.utf8Length (spell (xs.map Lexeme.token)),
      Text.utf8Length (spell (xs.map Lexeme.token)) + Text.utf8Length x.token.spelling⟩ := by
  have hspan := span_eq_of_lexemes_eq h
  rw [spell, List.flatMap_map]
  exact hspan

/-- A lexeme is inside a class when the tokens before it leave one open. -/
theorem inClass_eq_of_lexemes_append {p : Text} {xs ys : List Lexeme} {x : Lexeme}
    (h : lexemes p = xs ++ x :: ys) :
    x.inClass = decide (0 < classDepthAfter 0 (xs.map Lexeme.token)) := by
  have hdrop := Cursor.lexemes_drop (k := .ofText p) h
  match hnext : (Cursor.mk (spell ((x :: ys).map Lexeme.token))
      ((Cursor.ofText p).offset + Text.utf8Length (spell (xs.map Lexeme.token)))
      (classDepthAfter (Cursor.ofText p).classDepth (xs.map Lexeme.token))).next? with
  | none =>
    rw [Cursor.lexemes_of_next?_eq_none hnext] at hdrop
    exact absurd hdrop (by simp)
  | some (y, k') =>
    rw [Cursor.lexemes_of_next?_eq_some hnext] at hdrop
    obtain ⟨rfl, -⟩ := List.cons.inj hdrop
    exact (Cursor.next?_eq_some hnext).2.2.1

/-- The spelling of a lexeme is not empty, so it stops behind its start. -/
theorem utf8Length_spelling_pos (t : Token) : 0 < Text.utf8Length t.spelling :=
  Nat.pos_of_ne_zero fun h => t.spelling_ne_nil (Text.utf8Length_eq_zero_iff.1 h)

/-- The lexemes before a cut stop there at the latest, and the lexemes behind it start there at the
earliest. -/
theorem span_of_mem_append {p : Text} {xs ys : List Lexeme} (h : lexemes p = xs ++ ys) :
    (∀ x ∈ xs, x.span.start < x.span.stop ∧
      x.span.stop ≤ Text.utf8Length (spell (xs.map Lexeme.token))) ∧
    ∀ y ∈ ys, y.span.start < y.span.stop ∧
      Text.utf8Length (spell (xs.map Lexeme.token)) ≤ y.span.start := by
  constructor
  · intro x hx
    obtain ⟨as, bs, rfl⟩ := List.append_of_mem hx
    rw [List.append_assoc, List.cons_append] at h
    have hpos := utf8Length_spelling_pos x.token
    rw [span_eq_of_lexemes_append h]
    simp only [List.map_append, List.map_cons, spell_append, spell_cons, Text.utf8Length_append]
    omega
  · intro y hy
    obtain ⟨as, bs, rfl⟩ := List.append_of_mem hy
    rw [← List.append_assoc] at h
    have hpos := utf8Length_spelling_pos y.token
    rw [span_eq_of_lexemes_append h]
    simp only [List.map_append, spell_append, Text.utf8Length_append]
    omega

/-- The texts of lexemes behind each other add up. -/
theorem utf8Length_spell_append (xs ys : List Lexeme) :
    Text.utf8Length (spell ((xs ++ ys).map Lexeme.token)) =
      Text.utf8Length (spell (xs.map Lexeme.token)) +
        Text.utf8Length (spell (ys.map Lexeme.token)) := by
  rw [List.map_append, spell_append, Text.utf8Length_append]

/-- The lexemes of a pattern that lie within a span. -/
def lexemesIn (p : Text) (s : Span) : List Lexeme :=
  (lexemes p).filter fun x => s.start ≤ x.span.start ∧ x.span.stop ≤ s.stop

/-- The lexemes between two cuts lie within the span of the cuts, and the others do not. -/
theorem within_of_lexemes_eq {p : Text} {xs ys zs : List Lexeme} {a b : Nat}
    (h : lexemes p = xs ++ (ys ++ zs)) (ha : a = Text.utf8Length (spell (xs.map Lexeme.token)))
    (hb : b = Text.utf8Length (spell ((xs ++ ys).map Lexeme.token))) :
    (∀ x ∈ xs, ¬(a ≤ x.span.start ∧ x.span.stop ≤ b)) ∧
      (∀ y ∈ ys, a ≤ y.span.start ∧ y.span.stop ≤ b) ∧
      ∀ z ∈ zs, ¬(a ≤ z.span.start ∧ z.span.stop ≤ b) := by
  subst ha hb
  obtain ⟨hxs, hyszs⟩ := span_of_mem_append h
  have h' : lexemes p = (xs ++ ys) ++ zs := by rw [h, List.append_assoc]
  obtain ⟨hxsys, hzs⟩ := span_of_mem_append h'
  refine ⟨fun x hx hin => ?_, fun y hy => ?_, fun z hz hin => ?_⟩
  · have hpos := hxs x hx
    omega
  · exact ⟨(hyszs y (List.mem_append_left _ hy)).2, (hxsys y (List.mem_append_right _ hy)).2⟩
  · have hpos := hzs z hz
    omega

/-- The lexemes between two cuts are those within the span of the cuts. -/
theorem lexemesIn_eq {p : Text} {xs ys zs : List Lexeme} (h : lexemes p = xs ++ (ys ++ zs)) :
    lexemesIn p ⟨Text.utf8Length (spell (xs.map Lexeme.token)),
      Text.utf8Length (spell ((xs ++ ys).map Lexeme.token))⟩ = ys := by
  obtain ⟨hxs, hys, hzs⟩ := within_of_lexemes_eq h rfl rfl
  rw [lexemesIn, h, List.filter_append, List.filter_append, List.filter_eq_nil_iff.2,
    List.filter_eq_self.2, List.filter_eq_nil_iff.2, List.nil_append, List.append_nil]
  · exact fun z hz hin => hzs z hz (of_decide_eq_true hin)
  · exact fun y hy => decide_eq_true (hys y hy)
  · exact fun x hx hin => hxs x hx (of_decide_eq_true hin)

/-! ## Top-level lexemes -/

/-- A lexeme is a top-level one when the tokens before it leave no class open and it opens none. -/
theorem isTopLevel_iff_of_lexemes_append {p : Text} {xs ys : List Lexeme} {x : Lexeme}
    (h : lexemes p = xs ++ x :: ys) :
    x.isTopLevel ↔ classDepthAfter 0 (xs.map Lexeme.token) = 0 ∧ x.token ≠ .classOpen := by
  rw [Lexeme.isTopLevel, inClass_eq_of_lexemes_append h]
  simp

/-- A lexeme that is not a top-level one has a token that can be read inside a class. -/
theorem readsInClass_of_not_isTopLevel {p : Text} {x : Lexeme} (hx : x ∈ lexemes p)
    (h : ¬x.isTopLevel) : ∃ rest, x.token.ReadsInClass rest := by
  obtain ⟨xs, ys, hsplit⟩ := List.append_of_mem hx
  rw [isTopLevel_iff_of_lexemes_append hsplit, not_and, Decidable.not_not] at h
  have hlegible : Legible 0 (xs.map Lexeme.token ++ x.token :: ys.map Lexeme.token) := by
    have htokens := legible_tokensFrom 0 p
    rw [← tokens_eq_tokensFrom, tokens_eq_append hsplit, List.map_cons] at htokens
    exact htokens
  by_cases hdepth : classDepthAfter 0 (xs.map Lexeme.token) = 0
  · -- The lexeme opens a class.
    rw [h hdepth]
    exact ⟨[], trivial⟩
  · have hread := hlegible.readsBefore
    rw [decide_eq_true (Nat.pos_of_ne_zero hdepth)] at hread
    exact ⟨_, hread⟩

/-- What depends only on tokens that are never read inside a class can be collected from all
tokens. -/
theorem filterMap_topLevel {β : Type} (p : Text) {f : Token → Option β}
    (hf : ∀ t rest, t.ReadsInClass rest → f t = none) :
    (topLevel p).filterMap (fun x => f x.token) = (tokens p).filterMap f := by
  rw [topLevel, tokens, List.filterMap_filter, List.filterMap_map]
  refine List.filterMap_congr fun x hx => ?_
  by_cases htop : x.isTopLevel
  · rw [if_pos htop, Function.comp_apply]
  · obtain ⟨rest, hrest⟩ := readsInClass_of_not_isTopLevel hx htop
    rw [if_neg htop, Function.comp_apply, hf _ rest hrest]

/-- Tokens of a kind that is never read inside a class are counted on all lexemes. -/
theorem countP_filter_isTopLevel {p : Text} {xs : List Lexeme} {f : Token → Bool}
    (hf : ∀ t rest, t.ReadsInClass rest → f t = false) (h : ∀ x ∈ xs, x ∈ lexemes p) :
    (xs.filter Lexeme.isTopLevel).countP (fun x => f x.token) = xs.countP fun x => f x.token := by
  rw [List.countP_filter]
  refine List.countP_congr fun x hx => ?_
  by_cases htop : x.isTopLevel
  · simp [htop]
  · obtain ⟨rest, hrest⟩ := readsInClass_of_not_isTopLevel (h x hx) htop
    simp [hf _ rest hrest]

/-- Tokens of a kind that is never read inside a class are counted on all tokens of a pattern. -/
theorem countP_topLevel (p : Text) {f : Token → Bool}
    (hf : ∀ t rest, t.ReadsInClass rest → f t = false) :
    (topLevel p).countP (fun x => f x.token) = (tokens p).countP f := by
  rw [topLevel, countP_filter_isTopLevel hf fun _ h => h, tokens, List.countP_map]
  rfl

/-- No token that opens a capturing group is read inside a class. -/
theorem Token.isCaptureOpen_of_readsInClass (t : Token) (rest : Text) (h : t.ReadsInClass rest) :
    t.isCaptureOpen = false := by
  cases t <;> first | rfl | exact h.elim

/-- No directive is read inside a class. -/
theorem Token.isRecursion_of_readsInClass (t : Token) (rest : Text) (h : t.ReadsInClass rest) :
    t.isRecursion = false := by
  cases t <;> first | rfl | exact h.elim

/-- The capturing groups of a pattern are counted on its tokens. -/
theorem countCaptures_eq (p : Text) : countCaptures p = (tokens p).countP Token.isCaptureOpen :=
  countP_topLevel p Token.isCaptureOpen_of_readsInClass

/-- Tokens are spelled with at least as many bytes as they are. -/
theorem length_le_utf8Length_spell (ts : List Token) : ts.length ≤ Text.utf8Length (spell ts) := by
  induction ts with
  | nil => exact Nat.zero_le _
  | cons t ts ih =>
    have hpos := utf8Length_spelling_pos t
    rw [List.length_cons, spell_cons, Text.utf8Length_append]
    omega

/-- A text opens at most as many captures as it has bytes. -/
theorem countCaptures_le_utf8Length (p : Text) : countCaptures p ≤ p.utf8Length :=
  calc countCaptures p
    _ = (tokens p).countP Token.isCaptureOpen := countCaptures_eq p
    _ ≤ (tokens p).length := List.countP_le_length
    _ ≤ Text.utf8Length (spell (tokens p)) := length_le_utf8Length_spell _
    _ = p.utf8Length := congrArg Text.utf8Length (spell_tokensFrom 0 p)

end RegexUnroll
