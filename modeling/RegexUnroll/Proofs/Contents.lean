import RegexUnroll.Proofs.Concatenation
import RegexUnroll.Proofs.Tiling

/-!
# The contents of a group

Cutting out a group undoes writing one: where a complete and balanced text stands in parentheses,
in whatever surroundings, its contents are that text again (`groupContents_wrapped`). The text in
front of an offset does not bear on what is read from there on (`groupContents_append`), and what
stands behind the closing delimiter does not bear on how a complete text in front of it is read.

The other way round, whatever is cut out is matched (`MatchedContents`): a closing delimiter in it
closes a group that is opened in it, and unless it is all that is left of the pattern, a group that
is opened in it is closed in it and a closing delimiter follows. The search has passed over the
delimiters in it without going below the depth at which it began, which is what counting says too
(`closing?_eq_none_iff`).
-/

namespace RegexUnroll

/-! ## Matched delimiters -/

/-- Whether each closing delimiter among tokens closes a group that is opened among them. -/
def ClosersMatched (ts : List Token) : Prop :=
  ∀ us vs, ts = us ++ .groupClose :: vs →
    ∃ os o ms, us = os ++ o :: ms ∧ o.isGroupOpen ∧ Balanced ms

/-- Whether each group that is opened among tokens is closed among them. -/
def OpenersMatched (ts : List Token) : Prop :=
  ∀ us o vs, ts = us ++ o :: vs → o.isGroupOpen →
    ∃ ms ns, vs = ms ++ .groupClose :: ns ∧ Balanced ms

/-- Among balanced tokens each group is closed. -/
theorem Balanced.openersMatched {ts : List Token} (h : Balanced ts) : OpenersMatched ts := by
  rintro us o vs rfl ho
  exact h.exists_close ho

/-- Where counting does not fail, each closing delimiter closes a group. -/
theorem closersMatched_of_depthAfter? {depth : Nat} {ts : List Token}
    (h : depthAfter? 0 ts = some depth) : ClosersMatched ts := by
  rintro us vs rfl
  rw [depthAfter?_append, Option.bind_eq_some_iff] at h
  obtain ⟨i, hus, hvs⟩ := h
  cases i with
  | zero => simp [depthAfter?, Token.isGroupOpen] at hvs
  | succ i =>
    obtain ⟨os, o, ms, rfl, ho, hms, -⟩ := exists_open_of_depthAfter? hus
    exact ⟨os, o, ms, rfl, ho, hms⟩

/-! ## Reading from an offset on -/

/-- What stands behind a text is read from there on as by itself. -/
theorem Cursor.lexemes_ofOffset_append (s t : Text) :
    (Cursor.ofOffset (s ++ t) s.utf8Length).lexemes =
      (RegexUnroll.lexemes t).map (Lexeme.shift s.utf8Length) := by
  have hcursor : Cursor.ofOffset (s ++ t) s.utf8Length = ⟨t, s.utf8Length, 0⟩ := by
    rw [ofOffset, Text.dropBytes_append]
  have htokens : (Cursor.mk t s.utf8Length 0).lexemes.map Lexeme.token = tokens t :=
    map_token_lexemes_of_legible (legible_tokensFrom 0 t) (spell_tokensFrom 0 t)
  rw [hcursor, lexemes_eq_layout, htokens, RegexUnroll.lexemes_eq_layout, ← layout_shift,
    Nat.zero_add]

/-- The search for a closing delimiter finds the same one later. -/
theorem closing?_map_shift (n i : Nat) (xs : List Lexeme) :
    closing? i (xs.map (Lexeme.shift n)) = (closing? i xs).map (Lexeme.shift n) := by
  induction xs generalizing i with
  | nil => rfl
  | cons x xs ih =>
    rw [List.map_cons]
    by_cases hopen : x.token.isGroupOpen
    · have hopen' : (x.shift n).token.isGroupOpen := hopen
      rw [closing?_cons_of_isGroupOpen hopen, closing?_cons_of_isGroupOpen hopen', ih]
    · by_cases hclose : x.token = .groupClose
      · have hclose' : (x.shift n).token = .groupClose := hclose
        cases i with
        | zero => simp [closing?, hclose, Token.isGroupOpen]
        | succ i =>
          rw [closing?_succ_cons_of_groupClose hclose, closing?_succ_cons_of_groupClose hclose', ih]
      · have hopen' : ¬(x.shift n).token.isGroupOpen := hopen
        have hclose' : (x.shift n).token ≠ .groupClose := hclose
        rw [closing?_cons_of_not hopen hclose, closing?_cons_of_not hopen' hclose', ih]

/-- The contents of a group do not depend on what stands in front of them. They are the text up to
the closing delimiter that is found behind balanced lexemes, or all of it. -/
theorem groupContents_append (s t : Text) :
    groupContents (s ++ t) s.utf8Length =
      (closing? 0 (topLevel t)).elim t fun c => t.takeBytes c.span.start := by
  rw [groupContents, Cursor.lexemes_ofOffset_append, filter_isTopLevel_map_shift,
    closing?_map_shift, topLevel]
  cases closing? 0 ((lexemes t).filter Lexeme.isTopLevel) with
  | none => simp
  | some c => simp [Text.slice, Lexeme.shift, Span.shift]

/-! ## Cutting out what has been wrapped -/

/-- Behind a complete text whose groups are closed, a `)` is the delimiter that is found. -/
theorem closing?_topLevel_append_close {x : Text} (hcomplete : Complete x)
    (hbalanced : Balanced ((topLevel x).map Lexeme.token)) (y : Text) :
    closing? 0 (topLevel (x ++ ')' :: y)) = some (Token.groupClose.lexemeAt x.utf8Length) := by
  have happart : ReadsApart x (')' :: y) :=
    hcomplete.readsApart (.inl (by simp [goesOn])) (not_completesDefine_of_balanced [] hbalanced _)
  have hclose : ReadsApart Token.groupClose.spelling y :=
    Token.readsApart (t := .groupClose) trivial rfl (by simp)
  have htop : topLevel Token.groupClose.spelling = [Token.groupClose.lexemeAt 0] :=
    Token.topLevel_spelling (t := .groupClose) (s := y) trivial (by simp)
  have hbehind := hclose.topLevel_append
  rw [htop] at hbehind
  rw [happart.topLevel_append]
  change closing? 0 (topLevel x ++ (topLevel (Token.groupClose.spelling ++ y)).map _) = _
  rw [hbehind, closing?_append_of_balanced hbalanced, List.map_append, List.map_cons,
    Token.shift_lexemeAt, Nat.zero_add]
  rfl

/-- A complete text whose groups are closed is the contents of the parentheses around it. -/
theorem groupContents_wrapped {x : Text} (hcomplete : Complete x)
    (hbalanced : Balanced ((topLevel x).map Lexeme.token)) (a y : Text) :
    groupContents (a ++ x ++ ')' :: y) a.utf8Length = x := by
  rw [List.append_assoc, groupContents_append, closing?_topLevel_append_close hcomplete hbalanced]
  exact Text.takeBytes_append x _

/-- A text whose groups are closed is the contents of a group that it ends in. -/
theorem groupContents_unclosed {x : Text} (hbalanced : Balanced ((topLevel x).map Lexeme.token))
    (a : Text) : groupContents (a ++ x) a.utf8Length = x := by
  rw [groupContents_append, hbalanced.closing?_eq_none, Option.elim_none]

/-! ## What is cut out -/

/-- The lexemes from an offset of a pattern on that lie in the contents of the group there. -/
def contentLexemes (p : Text) (start : Nat) : List Lexeme :=
  (Cursor.ofOffset p start).lexemes.filter fun x =>
    (contentSpan p start).start ≤ x.span.start ∧ x.span.stop ≤ (contentSpan p start).stop

/-- How the contents of a group are matched, where a pattern is read from an offset on. -/
structure MatchedContents (p : Text) (start : Nat) : Prop where
  /-- The contents begin at the offset. -/
  isPrefix : groupContents p start <+: p.dropBytes start
  /-- They are made up of the lexemes that lie in them. -/
  flatMap_spelling :
    ((contentLexemes p start).flatMap fun x => x.token.spelling) = groupContents p start
  /-- Each closing delimiter in them closes a group that is opened in them. -/
  closersMatched :
    ClosersMatched (((contentLexemes p start).filter Lexeme.isTopLevel).map Lexeme.token)
  /-- They are all that is left of the pattern; or each group that is opened in them is closed in
  them, and a closing delimiter follows. -/
  all_or_closed :
    groupContents p start = p.dropBytes start ∨
      OpenersMatched (((contentLexemes p start).filter Lexeme.isTopLevel).map Lexeme.token) ∧
        ∃ c ∈ (Cursor.ofOffset p start).lexemes, c.isTopLevel ∧ c.token = .groupClose ∧
          c.span.start = (contentSpan p start).stop

/-- The contents of a group that a text goes on with are the text of some of its lexemes, among
which no delimiter is found. If there are more, they begin with the delimiter that is found, and the
others are balanced. -/
theorem exists_lexemes_eq_contents (t : Text) :
    ∃ xs ys, lexemes t = xs ++ ys ∧
      ((closing? 0 (topLevel t)).elim t fun c => t.takeBytes c.span.start) =
        spell (xs.map Lexeme.token) ∧
      closing? 0 (xs.filter Lexeme.isTopLevel) = none ∧
      (ys = [] ∨ ∃ c ys', ys = c :: ys' ∧ c.isTopLevel ∧ c.token = .groupClose ∧
        Balanced ((xs.filter Lexeme.isTopLevel).map Lexeme.token)) := by
  match hfound : closing? 0 (topLevel t) with
  | none =>
    exact ⟨lexemes t, [], (List.append_nil _).symm, (spell_tokensFrom 0 t).symm, hfound, .inl rfl⟩
  | some c =>
    obtain ⟨ms, ns, hsplit, hms, hc⟩ := closing?_zero_eq_some_iff.1 hfound
    obtain ⟨xs, ys, hlexemes, htop, rfl, -⟩ := exists_append_of_filter_eq hsplit
    have hstart : c.span.start = Text.utf8Length (spell (xs.map Lexeme.token)) :=
      congrArg Span.start (span_eq_of_lexemes_append hlexemes)
    refine ⟨xs, c :: ys, hlexemes, ?_, hms.closing?_eq_none, .inr ⟨c, ys, rfl, htop, hc, hms⟩⟩
    rw [Option.elim_some, hstart]
    exact takeBytes_eq_spell (tokens_eq_append hlexemes)

/-- The lexemes in the contents of a group are those that the contents are the text of. -/
theorem contentLexemes_append {s t : Text} {xs ys : List Lexeme} (hsplit : lexemes t = xs ++ ys)
    (hcontents : groupContents (s ++ t) s.utf8Length = spell (xs.map Lexeme.token)) :
    contentLexemes (s ++ t) s.utf8Length = xs.map (Lexeme.shift s.utf8Length) := by
  have hwhole : lexemes t = [] ++ (xs ++ ys) := hsplit
  have hin : lexemesIn t ⟨0, Text.utf8Length (spell (xs.map Lexeme.token))⟩ = xs :=
    lexemesIn_eq hwhole
  rw [contentLexemes, Cursor.lexemes_ofOffset_append, List.filter_map, contentSpan, hcontents]
  conv_rhs => rw [← hin, lexemesIn]
  refine congrArg _ (List.filter_congr fun x _ => ?_)
  simp only [Function.comp_apply, Lexeme.shift, Span.shift, Nat.zero_le, Nat.le_add_left, true_and,
    decide_eq_decide]
  omega

/-- What is cut out of a pattern at an offset between characters is matched. -/
theorem matchedContents {p : Text} {start : Nat} (h : BetweenChars p start) :
    MatchedContents p start := by
  obtain ⟨s, t, rfl, rfl⟩ := h
  obtain ⟨xs, ys, hsplit, hcontents, hnone, hends⟩ := exists_lexemes_eq_contents t
  rw [← groupContents_append s t] at hcontents
  have htext : t = spell (xs.map Lexeme.token) ++ spell (ys.map Lexeme.token) :=
    eq_spell_append (tokens_eq_append hsplit)
  have hlexemes := contentLexemes_append hsplit hcontents
  have htop : ((contentLexemes (s ++ t) s.utf8Length).filter Lexeme.isTopLevel).map Lexeme.token =
      (xs.filter Lexeme.isTopLevel).map Lexeme.token := by
    rw [hlexemes, filter_isTopLevel_map_shift, map_token_map_shift]
  refine ⟨?_, ?_, ?_, ?_⟩
  · rw [Text.dropBytes_append, hcontents]
    exact ⟨_, htext.symm⟩
  · rw [hlexemes, hcontents, List.flatMap_map, spell, List.flatMap_map]
    rfl
  · rw [htop]
    obtain ⟨depth, hdepth⟩ := closing?_eq_none_iff.1 hnone
    exact closersMatched_of_depthAfter? hdepth
  · rw [htop]
    rcases hends with rfl | ⟨c, ys, rfl, hctop, hc, hbalanced⟩
    · left
      rw [Text.dropBytes_append, hcontents, htext, List.map_nil, spell_nil, List.append_nil]
    · -- The delimiter stands where the lexemes in the contents end.
      refine .inr ⟨hbalanced.openersMatched, c.shift s.utf8Length, ?_, hctop, hc, ?_⟩
      · rw [Cursor.lexemes_ofOffset_append, hsplit]
        exact List.mem_map_of_mem (by simp)
      · rw [contentSpan, hcontents]
        show c.span.start + s.utf8Length = _
        rw [span_eq_of_lexemes_append hsplit, Nat.add_comm]

/-- A complete text whose groups are closed is cut out again where it is wrapped in parentheses or
stands at the end of a group that is not closed; and whatever is cut out at an offset between
characters is matched. -/
theorem groupContents_undoes_wrapping :
    (∀ a x y : Text, Complete x → Balanced ((topLevel x).map Lexeme.token) →
        groupContents (a ++ x ++ ')' :: y) a.utf8Length = x ∧
          groupContents (a ++ x) a.utf8Length = x) ∧
      ∀ (p : Text) (start : Nat), BetweenChars p start → MatchedContents p start :=
  ⟨fun a _ y hcomplete hbalanced =>
    ⟨groupContents_wrapped hcomplete hbalanced a y, groupContents_unclosed hbalanced a⟩,
    fun _ _ => matchedContents⟩

/-- Parentheses in a name, in a class, behind a backslash and around a directive, between an opening
whose name is cut off and delimiters that belong to nothing. In the other pattern the second group
is not closed. -/
theorem groupContents_undoes_wrapping_of_hidden_parentheses :
    ∃ (a x y p : Text) (start : Nat), a = "é](?<".toList ∧
      x = "(?<n)(>[)(])\\)(?R=2)b(?:c)".toList ∧ y = "]>)\\".toList ∧ Complete x ∧
      Balanced ((topLevel x).map Lexeme.token) ∧
      groupContents (a ++ x ++ ')' :: y) a.utf8Length = x ∧
      groupContents (a ++ x) a.utf8Length = x ∧
      p = "ü(a(?=b)[)](c".toList ∧ start = 3 ∧ BetweenChars p start ∧
      groupContents p start = "a(?=b)[)](c".toList ∧ MatchedContents p start := by
  let a : Text := "é](?<".toList
  let x : Text := "(?<n)(>[)(])\\)(?R=2)b(?:c)".toList
  let y : Text := "]>)\\".toList
  let p : Text := "ü(a(?=b)[)](c".toList
  have hcomplete : Complete x := by decide +kernel
  have hbalanced : Balanced ((topLevel x).map Lexeme.token) := by decide +kernel
  have hstart : BetweenChars p 3 := ⟨"ü(".toList, "a(?=b)[)](c".toList, rfl, rfl⟩
  obtain ⟨hwrap, hcut⟩ := groupContents_undoes_wrapping
  obtain ⟨hclosed, hunclosed⟩ := hwrap a x y hcomplete hbalanced
  exact ⟨a, x, y, p, 3, rfl, rfl, rfl, hcomplete, hbalanced, hclosed, hunclosed, rfl, rfl, hstart,
    by decide +kernel, hcut p 3 hstart⟩

end RegexUnroll
