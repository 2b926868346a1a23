import Mathlib.Data.List.Infix
import RegexUnroll.Proofs.Balance
import RegexUnroll.Proofs.DirectiveFree
import RegexUnroll.Proofs.Validation

/-!
# Patterns put behind each other

Where two texts behind each other are read as each is by itself (`ReadsApart`), the lexemes of the
whole are those of the first text and those of the second, shifted by the length of the first
(`ReadsApart.topLevel_append`). So the captures are counted in both
(`ReadsApart.countCaptures_append`) and the constructs found in both
(`ReadsApart.occursIn_append`).

What a text has to be for that is said in `Complete.readsApart`: it is complete, no opener in it
goes on with the other text, and it has no group opening that `(DEFINE)` comes to stand behind. If
its groups are closed behind their openings there is none (`not_completesDefine_of_balanced`).
-/

namespace RegexUnroll

/-! ## Where lexemes stand -/

/-- A span that starts `n` bytes later. -/
def Span.shift (n : Nat) (s : Span) : Span := ⟨s.start + n, s.stop + n⟩

/-- A lexeme that stands `n` bytes later. -/
def Lexeme.shift (n : Nat) (x : Lexeme) : Lexeme := ⟨x.token, x.span.shift n, x.inClass⟩

/-- The lexemes of tokens that stand behind each other from an offset on, where `depth` classes are
open before the first of them. -/
def layout : Nat → Nat → List Token → List Lexeme
  | _, _, [] => []
  | offset, depth, t :: ts =>
    ⟨t, ⟨offset, offset + Text.utf8Length t.spelling⟩, 0 < depth⟩ ::
      layout (offset + Text.utf8Length t.spelling) (t.classDepthAfter depth) ts

/-- The lexemes from a cursor on stand behind each other. -/
theorem Cursor.lexemes_eq_layout (k : Cursor) :
    k.lexemes = layout k.offset k.classDepth (k.lexemes.map Lexeme.token) := by
  fun_induction Cursor.lexemes k with
  | case1 => rfl
  | case2 k x k' h ih =>
    obtain ⟨-, hspan, hclass, hoffset, hdepth⟩ := next?_eq_some h
    rw [hoffset, hspan, hdepth] at ih
    rw [List.map_cons, layout, ← ih, ← hspan]
    obtain ⟨token, span, inClass⟩ := x
    obtain rfl : inClass = k.inClass := hclass
    rfl

/-- The lexemes of a pattern are its tokens where they stand. -/
theorem lexemes_eq_layout (p : Text) : lexemes p = layout 0 0 (tokens p) :=
  Cursor.lexemes_eq_layout (.ofText p)

/-- The lexemes go on where the tokens before them end. -/
theorem layout_append (offset depth : Nat) (ts us : List Token) :
    layout offset depth (ts ++ us) = layout offset depth ts ++
      layout (offset + Text.utf8Length (spell ts)) (classDepthAfter depth ts) us := by
  induction ts generalizing offset depth with
  | nil => rfl
  | cons t ts ih =>
    rw [List.cons_append, layout, ih, layout, List.cons_append, spell_cons,
      Text.utf8Length_append, classDepthAfter_cons, Nat.add_assoc]

/-- Tokens that stand later have the same lexemes later. -/
theorem layout_shift (n offset depth : Nat) (ts : List Token) :
    layout (offset + n) depth ts = (layout offset depth ts).map (Lexeme.shift n) := by
  induction ts generalizing offset depth with
  | nil => rfl
  | cons t ts ih =>
    rw [layout, layout, List.map_cons, ← ih, Lexeme.shift, Span.shift, Nat.add_right_comm]

/-- The lexeme stands where it stood, but for its offsets. -/
@[simp] theorem Lexeme.token_shift (n : Nat) (x : Lexeme) : (x.shift n).token = x.token := rfl

/-- A lexeme that is shifted twice is shifted by both lengths. -/
theorem Lexeme.shift_shift (m n : Nat) (x : Lexeme) : (x.shift m).shift n = x.shift (m + n) := by
  simp only [shift, Span.shift, Nat.add_assoc]

/-- Shifted lexemes have the same tokens. -/
@[simp] theorem map_token_map_shift (n : Nat) (xs : List Lexeme) :
    (xs.map (Lexeme.shift n)).map Lexeme.token = xs.map Lexeme.token := by
  rw [List.map_map]
  rfl

/-- The top-level lexemes among shifted ones are the shifted top-level ones. -/
theorem filter_isTopLevel_map_shift (n : Nat) (xs : List Lexeme) :
    (xs.map (Lexeme.shift n)).filter Lexeme.isTopLevel =
      (xs.filter Lexeme.isTopLevel).map (Lexeme.shift n) := by
  rw [List.filter_map]
  rfl

/-- A lexeme stops within the pattern. -/
theorem stop_le_utf8Length {p : Text} {x : Lexeme} (hx : x ∈ lexemes p) :
    x.span.stop ≤ p.utf8Length := by
  have hsplit : lexemes p = lexemes p ++ [] := (List.append_nil _).symm
  have hstop := ((span_of_mem_append hsplit).1 x hx).2
  have htext : spell ((lexemes p).map Lexeme.token) = p := spell_tokensFrom 0 p
  rwa [htext] at hstop

/-- Up to its end a text is cut as it is with more behind it. -/
theorem Text.dropBytes_append_of_le {n : Nat} {s : Text} (h : n ≤ Text.utf8Length s) (t : Text) :
    dropBytes n (s ++ t) = dropBytes n s ++ t := by
  induction s generalizing n with
  | nil =>
    obtain rfl : n = 0 := Nat.le_zero.1 h
    simp
  | cons c s ih =>
    cases n with
    | zero => rfl
    | succ n =>
      rw [utf8Length_cons] at h
      exact ih (by omega)

/-- Behind a text, what stands after an offset is the same later. -/
theorem Text.dropBytes_add_utf8Length (s t : Text) (n : Nat) :
    dropBytes (n + s.utf8Length) (s ++ t) = dropBytes n t := by
  rw [Nat.add_comm]
  exact dropBytes_utf8Length_add s n t

/-- Behind a lexeme of a pattern stands what the lexemes behind it spell. -/
theorem dropBytes_stop {p : Text} {as bs : List Lexeme} {x : Lexeme}
    (h : lexemes p = as ++ x :: bs) :
    p.dropBytes x.span.stop = spell (bs.map Lexeme.token) := by
  have htokens : tokens p = (as ++ [x]).map Lexeme.token ++ bs.map Lexeme.token := by
    rw [tokens, h]
    simp
  have hstop : x.span.stop = Text.utf8Length (spell ((as ++ [x]).map Lexeme.token)) := by
    rw [span_eq_of_lexemes_append h]
    simp
  rw [hstop]
  exact dropBytes_eq_spell htokens

/-! ## Groups of definitions across a joint -/

/-- What stands behind the opening of a group of definitions. -/
def defineTail : Text := ['(', 'D', 'E', 'F', 'I', 'N', 'E', ')']

/-- Whether the text `t` makes a group of definitions of a group that is opened in `s`. -/
def CompletesDefine (s t : Text) : Prop :=
  ∃ x ∈ topLevel s, x.token = .groupOpen ∧ defineTail <+: s.dropBytes x.span.stop ++ t ∧
    ¬defineTail <+: s.dropBytes x.span.stop

/-- Where `(DEFINE)` stands across a joint, it is cut there. -/
theorem CompletesDefine.exists_append {s t : Text} (h : CompletesDefine s t) :
    ∃ x ∈ topLevel s, x.token = .groupOpen ∧ ∃ back, defineTail = s.dropBytes x.span.stop ++ back ∧
      back ≠ [] ∧ back <+: t := by
  obtain ⟨x, hx, htoken, ⟨rest, hrest⟩, hnot⟩ := h
  refine ⟨x, hx, htoken, ?_⟩
  rcases List.append_eq_append_iff.1 hrest with ⟨c, hc, -⟩ | ⟨back, hback, ht⟩
  · exact absurd ⟨c, hc.symm⟩ hnot
  · refine ⟨back, hback, ?_, rest, ht.symm⟩
    rintro rfl
    rw [List.append_nil] at hback
    exact hnot ⟨[], by rw [List.append_nil, hback]⟩

/-- Nothing is completed by a text that does not begin as `(DEFINE)` ends. -/
theorem not_completesDefine_of_tails (s : Text) {t : Text}
    (h : ∀ back ∈ defineTail.tails, back ≠ [] → ¬back <+: t) : ¬CompletesDefine s t := by
  intro hcompletes
  obtain ⟨x, -, -, back, hsplit, hne, hprefix⟩ := hcompletes.exists_append
  exact h back ((List.mem_tails _ _).2 ⟨_, hsplit.symm⟩) hne hprefix

/-- Behind a `)` there is nothing to complete. -/
theorem not_completesDefine_of_mem {s : Text}
    (h : ∀ x ∈ topLevel s, x.token = .groupOpen → ')' ∈ s.dropBytes x.span.stop) (t : Text) :
    ¬CompletesDefine s t := by
  intro hcompletes
  obtain ⟨x, hx, htoken, back, hsplit, hne, -⟩ := hcompletes.exists_append
  -- The only `)` is the last character, and some of the text stands behind the joint.
  have hfront : s.dropBytes x.span.stop ++ back.dropLast = defineTail.dropLast := by
    rw [hsplit, List.dropLast_append_of_ne_nil hne]
  have hmem : ')' ∈ defineTail.dropLast := by
    rw [← hfront]
    exact List.mem_append_left _ (h x hx htoken)
  exact absurd hmem (by decide)

/-- Where the groups that a text opens are closed in it, there is nothing to complete. -/
theorem not_completesDefine_of_balanced (ts : List Token) {s : Text}
    (h : Balanced (ts ++ (topLevel s).map Lexeme.token)) (t : Text) : ¬CompletesDefine s t := by
  refine not_completesDefine_of_mem (fun x hx htoken => ?_) t
  obtain ⟨as, bs, hcut⟩ := List.append_of_mem hx
  obtain ⟨as', bs', hlexemes, -, -, rfl⟩ := exists_append_of_filter_eq hcut
  rw [hcut, List.map_append, List.map_cons, htoken, ← List.append_assoc] at h
  obtain ⟨ms, ns, hclose, -⟩ := h.exists_close rfl
  have hmem : Token.groupClose ∈ (bs'.filter Lexeme.isTopLevel).map Lexeme.token := by
    rw [hclose]
    simp
  obtain ⟨c, hc, hctoken⟩ := List.mem_map.1 hmem
  rw [dropBytes_stop hlexemes, spell, List.mem_flatMap]
  exact ⟨.groupClose, List.mem_map.2 ⟨c, (List.mem_filter.1 hc).1, hctoken⟩, by decide⟩

/-! ## Texts that are read apart -/

/-- Whether two texts behind each other are read as each is by itself. -/
structure ReadsApart (s t : Text) : Prop where
  /-- The first text leaves no class open. -/
  classDepth : classDepthAfter 0 (tokens s) = 0
  /-- The tokens are those of both texts. -/
  tokens_append : tokens (s ++ t) = tokens s ++ tokens t
  /-- The second text makes no group of definitions of a group of the first. -/
  define : ¬CompletesDefine s t

/-- A complete text is read apart from every text that it joins to, but for a group of
definitions. -/
theorem Complete.readsApart {s t : Text} (h : Complete s) (hjoin : JoinsTo s t)
    (hdefine : ¬CompletesDefine s t) : ReadsApart s t := by
  refine ⟨h.classDepth, tokensFrom_eq_iff.2 ⟨?_, ?_⟩, hdefine⟩
  · rw [spell_append, tokens_eq_tokensFrom, tokens_eq_tokensFrom, spell_tokensFrom,
      spell_tokensFrom]
  · have hs : spell (tokens s) = s := spell_tokensFrom 0 s
    have ht : spell (tokens t) = t := spell_tokensFrom 0 t
    have hlegible : Legible 0 (tokens s) := legible_tokensFrom 0 s
    refine hlegible.append h.settled (by rwa [hs, ht]) ?_
    rw [h.classDepth]
    exact legible_tokensFrom 0 t

/-- The lexeme of a token that stands outside classes at an offset. -/
def Token.lexemeAt (offset : Nat) (t : Token) : Lexeme :=
  ⟨t, ⟨offset, offset + Text.utf8Length t.spelling⟩, false⟩

/-- The lexeme of a token later is the lexeme at a later offset. -/
@[simp] theorem Token.shift_lexemeAt (m n : Nat) (t : Token) :
    (t.lexemeAt m).shift n = t.lexemeAt (m + n) := by
  simp only [lexemeAt, Lexeme.shift, Span.shift, Nat.add_right_comm]

section Token

variable {t : Token} {s : Text}

/-- A token that is read before a text is the one token of its spelling. -/
theorem Token.tokens_spelling (h : t.ReadsTopLevel s) : tokens t.spelling = [t] := by
  have hread : t.ReadsBefore (0 < 0) s := h
  refine tokensFrom_eq_iff.2 ⟨?_, Token.ReadsBefore.of_append hread, trivial⟩
  rw [spell_cons, spell_nil, List.append_nil]

/-- Its lexeme is the one top-level lexeme there, if it opens no class. -/
theorem Token.topLevel_spelling (h : t.ReadsTopLevel s) (hclass : t ≠ .classOpen) :
    topLevel t.spelling = [t.lexemeAt 0] := by
  rw [topLevel, lexemes_eq_layout, tokens_spelling h, layout, layout]
  exact List.filter_cons_of_pos (by simp [Lexeme.isTopLevel, hclass])

/-- A token that opens no group of other kinds is read apart from every text before which it is
read. -/
theorem Token.readsApart (h : t.ReadsTopLevel s) (hdepth : t.classDepthAfter 0 = 0)
    (hopen : t ≠ .groupOpen) : ReadsApart t.spelling s := by
  have hread : t.ReadsBefore (0 < 0) s := h
  have htokens := tokens_spelling h
  refine ⟨by rw [htokens]; exact hdepth, ?_, ?_⟩
  · rw [htokens, tokens_eq_tokensFrom, tokensFrom_append hread, hdepth]
    rfl
  · rintro ⟨x, hx, htoken, -⟩
    have hmem : x.token ∈ tokens t.spelling := List.mem_map_of_mem (List.mem_filter.1 hx).1
    rw [htokens, List.mem_singleton, htoken] at hmem
    exact hopen hmem.symm

end Token

namespace ReadsApart

variable {s t : Text}

/-- The lexemes are those of the first text and those of the second behind it. -/
theorem lexemes_append (h : ReadsApart s t) :
    lexemes (s ++ t) = lexemes s ++ (lexemes t).map (Lexeme.shift s.utf8Length) := by
  have htext : spell (tokens s) = s := spell_tokensFrom 0 s
  rw [lexemes_eq_layout, h.tokens_append, layout_append, h.classDepth, htext, layout_shift,
    ← lexemes_eq_layout, ← lexemes_eq_layout]

/-- So are the top-level lexemes. -/
theorem topLevel_append (h : ReadsApart s t) :
    topLevel (s ++ t) = topLevel s ++ (topLevel t).map (Lexeme.shift s.utf8Length) := by
  rw [topLevel, h.lexemes_append, List.filter_append, filter_isTopLevel_map_shift]
  rfl

/-- The capturing groups are those of both texts. -/
theorem countCaptures_append (h : ReadsApart s t) :
    countCaptures (s ++ t) = countCaptures s + countCaptures t := by
  rw [countCaptures_eq, h.tokens_append, List.countP_append, ← countCaptures_eq,
    ← countCaptures_eq]

/-- A construct begins at a lexeme of the first text where it begins there without the second. -/
theorem beginsAt_append (h : ReadsApart s t) (construct : Construct) {x : Lexeme}
    (hx : x ∈ topLevel s) : construct.beginsAt (s ++ t) x = construct.beginsAt s x := by
  cases construct with
  | recursion => rfl
  | numberedBackref => rfl
  | defineGroup =>
    have hdrop := Text.dropBytes_append_of_le
      (stop_le_utf8Length (List.mem_filter.1 hx).1) t
    simp only [Construct.beginsAt, hdrop]
    by_cases htoken : x.token = .groupOpen
    · refine congrArg _ (Bool.eq_iff_iff.2 ?_)
      rw [List.isPrefixOf_iff_prefix, List.isPrefixOf_iff_prefix]
      constructor
      · intro hprefix
        by_contra hnot
        exact h.define ⟨x, hx, htoken, hprefix, hnot⟩
      · exact fun hprefix => hprefix.trans (List.prefix_append _ _)
    · rw [beq_eq_false_iff_ne.2 htoken, Bool.false_and, Bool.false_and]

/-- Two texts that are read apart from each other are read apart from a third one, if the second is
and the first is read apart from both. -/
theorem append {u : Text} (hst : ReadsApart s t) (hsu : ReadsApart s (t ++ u))
    (htu : ReadsApart t u) : ReadsApart (s ++ t) u := by
  refine ⟨?_, ?_, ?_⟩
  · rw [hst.tokens_append, classDepthAfter_append, hst.classDepth, htu.classDepth]
  · rw [List.append_assoc, hsu.tokens_append, htu.tokens_append, hst.tokens_append,
      List.append_assoc]
  · rintro ⟨x, hx, htoken, hprefix, hnot⟩
    rw [hst.topLevel_append, List.mem_append, List.mem_map] at hx
    rcases hx with hx | ⟨y, hy, rfl⟩
    · rw [Text.dropBytes_append_of_le (stop_le_utf8Length (List.mem_filter.1 hx).1)] at hprefix hnot
      rw [List.append_assoc] at hprefix
      exact hsu.define ⟨x, hx, htoken, hprefix, fun h => hnot (h.trans (List.prefix_append _ _))⟩
    · rw [Lexeme.shift, Span.shift, Text.dropBytes_add_utf8Length] at hprefix hnot
      exact htu.define ⟨y, hy, htoken, hprefix, hnot⟩

end ReadsApart

/-- A construct begins at a lexeme of the second text where it begins there without the first. -/
theorem Construct.beginsAt_shift (construct : Construct) (s t : Text) (x : Lexeme) :
    construct.beginsAt (s ++ t) (x.shift s.utf8Length) = construct.beginsAt t x := by
  cases construct with
  | recursion => rfl
  | numberedBackref => rfl
  | defineGroup =>
    simp only [Construct.beginsAt, Lexeme.shift, Span.shift, Text.dropBytes_add_utf8Length]

/-- The constructs are those of both texts. -/
theorem ReadsApart.occursIn_append {s t : Text} (h : ReadsApart s t) (construct : Construct) :
    construct.occursIn (s ++ t) = (construct.occursIn s || construct.occursIn t) := by
  have hleft : (topLevel s).any (construct.beginsAt (s ++ t)) =
      (topLevel s).any (construct.beginsAt s) := by
    rw [Bool.eq_iff_iff, List.any_eq_true, List.any_eq_true]
    exact exists_congr fun x => and_congr_right fun hx => by rw [h.beginsAt_append construct hx]
  rw [Construct.occursIn, h.topLevel_append, List.any_append, List.any_map]
  refine congrArg₂ or hleft (congrArg (List.any _) (funext fun x => ?_))
  exact construct.beginsAt_shift s t x

/-- A construct occurs in the spelling of a token when it begins there. -/
theorem Token.occursIn_spelling {t : Token} {s : Text} (h : t.ReadsTopLevel s)
    (hclass : t ≠ .classOpen) (construct : Construct) :
    construct.occursIn t.spelling = construct.beginsAt t.spelling (t.lexemeAt 0) := by
  rw [Construct.occursIn, topLevel_spelling h hclass, List.any_cons, List.any_nil, Bool.or_false]

/-- A text uses no construct when none occurs in it. -/
theorem constructs_eq_nil_iff {p : Text} :
    constructs p = [] ↔ ∀ construct : Construct, construct.occursIn p = false := by
  rw [constructs, List.filter_eq_nil_iff]
  refine ⟨fun h construct => Bool.eq_false_iff.2 (h construct ?_), fun h construct _ => ?_⟩
  · cases construct <;> decide
  · rw [h construct]
    decide

/-- Two texts that are read apart use no construct when neither does. -/
theorem ReadsApart.constructs_append_eq_nil {s t : Text} (h : ReadsApart s t)
    (hs : constructs s = []) (ht : constructs t = []) : constructs (s ++ t) = [] := by
  refine constructs_eq_nil_iff.2 fun construct => ?_
  rw [h.occursIn_append, constructs_eq_nil_iff.1 hs, constructs_eq_nil_iff.1 ht, Bool.or_false]

/-- A text without constructs has no recursion lexemes. -/
theorem recursions_eq_nil_of_constructs_eq_nil {p : Text} (h : constructs p = []) :
    recursions p = [] := by
  have hnone := constructs_eq_nil_iff.1 h .recursion
  rw [Construct.occursIn, List.any_eq_false] at hnone
  exact List.filter_eq_nil_iff.2 hnone

end RegexUnroll
