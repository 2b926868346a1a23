import RegexUnroll.Proofs.Matching

/-!
# Balance by counting

Whether tokens are balanced is found by counting the groups that are open: `depthAfter?` counts them
and fails where a closing delimiter closes nothing, and balanced tokens are those that it takes from
zero to zero (`balanced_iff`). Counting goes on from one list to the next (`depthAfter?_append`), so
balance is decided, and what is awkward on the construction of balanced tokens is read off the
count: a token that is no delimiter stands anywhere among them (`Balanced.insert`), and every group
among them is closed (`Balanced.exists_close`).
-/

namespace RegexUnroll

/-- The number of open groups after tokens, from the number before them; nothing if a closing
delimiter among them closes no group. -/
def depthAfter? : Nat → List Token → Option Nat
  | depth, [] => some depth
  | depth, t :: ts =>
    if t.isGroupOpen then depthAfter? (depth + 1) ts
    else if t = .groupClose then
      match depth with
      | 0 => none
      | depth + 1 => depthAfter? depth ts
    else depthAfter? depth ts

section Step

variable {t : Token} {depth : Nat} {ts : List Token}

/-- The opening of a group counts up. -/
theorem depthAfter?_cons_of_isGroupOpen (h : t.isGroupOpen) :
    depthAfter? depth (t :: ts) = depthAfter? (depth + 1) ts := by
  cases depth <;> rw [depthAfter?, if_pos h]

/-- A closing delimiter counts down. -/
theorem depthAfter?_succ_cons_groupClose :
    depthAfter? (depth + 1) (.groupClose :: ts) = depthAfter? depth ts := by
  rw [depthAfter?, if_neg (by simp [Token.isGroupOpen]), if_pos rfl]

/-- Other tokens do not count. -/
theorem depthAfter?_cons_of_not (hopen : ¬t.isGroupOpen) (hclose : t ≠ .groupClose) :
    depthAfter? depth (t :: ts) = depthAfter? depth ts := by
  cases depth <;> rw [depthAfter?, if_neg hopen, if_neg hclose]

end Step

/-- Counting goes on behind tokens with what is open there. -/
theorem depthAfter?_append (depth : Nat) (ts us : List Token) :
    depthAfter? depth (ts ++ us) =
      (depthAfter? depth ts).bind fun depth => depthAfter? depth us := by
  fun_induction depthAfter? depth ts with
  | case1 => rfl
  | case2 depth t ts hopen ih => rw [List.cons_append, depthAfter?_cons_of_isGroupOpen hopen, ih]
  | case3 ts hopen => rw [List.cons_append, depthAfter?, if_neg hopen, if_pos rfl]; rfl
  | case4 ts hopen depth ih => rw [List.cons_append, depthAfter?_succ_cons_groupClose, ih]
  | case5 depth t ts hopen hclose ih =>
    rw [List.cons_append, depthAfter?_cons_of_not hopen hclose, ih]

/-- Balanced tokens leave as many groups open as there were. -/
theorem Balanced.depthAfter?_eq {ts : List Token} (h : Balanced ts) (depth : Nat) :
    depthAfter? depth ts = some depth := by
  induction h generalizing depth with
  | nil => rfl
  | cons hopen hclose _ ih => rw [depthAfter?_cons_of_not hopen hclose, ih]
  | group hopen _ _ iht ihu =>
    rw [depthAfter?_cons_of_isGroupOpen hopen, depthAfter?_append, iht, Option.bind_some,
      depthAfter?_succ_cons_groupClose, ihu]

/-- Where counting comes to fewer groups than were open, the first of them that is closed has
balanced tokens before its closing delimiter. -/
theorem exists_close_of_depthAfter? {depth depth' : Nat} {ts : List Token}
    (h : depthAfter? (depth + 1) ts = some depth') (hle : depth' ≤ depth) :
    ∃ ms ns, ts = ms ++ .groupClose :: ns ∧ Balanced ms ∧ depthAfter? depth ns = some depth' := by
  -- Behind a group that is passed over the tokens are fewer, but not those of a tail.
  induction hn : ts.length using Nat.strongRecOn generalizing depth ts with
  | _ n ih =>
    match ts with
    | [] =>
      obtain rfl : depth + 1 = depth' := Option.some.inj h
      omega
    | t :: ts =>
      rw [List.length_cons] at hn
      by_cases hopen : t.isGroupOpen
      · rw [depthAfter?_cons_of_isGroupOpen hopen] at h
        obtain ⟨ms, us, rfl, hms, hus⟩ := ih ts.length (by omega) h (by omega) rfl
        rw [List.length_append, List.length_cons] at hn
        obtain ⟨ms', ns, rfl, hms', hns⟩ := ih us.length (by omega) hus hle rfl
        exact ⟨t :: (ms ++ .groupClose :: ms'), ns, by simp, .group hopen hms hms', hns⟩
      · by_cases hclose : t = .groupClose
        · subst hclose
          rw [depthAfter?_succ_cons_groupClose] at h
          exact ⟨[], ts, rfl, .nil, h⟩
        · rw [depthAfter?_cons_of_not hopen hclose] at h
          obtain ⟨ms, ns, rfl, hms, hns⟩ := ih ts.length (by omega) h hle rfl
          exact ⟨t :: ms, ns, rfl, .cons hopen hclose hms, hns⟩

/-- Counting does not fail exactly where the search finds no closing delimiter. -/
theorem closing?_eq_none_iff {depth : Nat} {xs : List Lexeme} :
    closing? depth xs = none ↔ ∃ depth', depthAfter? depth (xs.map Lexeme.token) = some depth' := by
  induction xs generalizing depth with
  | nil => simp [closing?, depthAfter?]
  | cons x xs ih =>
    rw [List.map_cons]
    by_cases hopen : x.token.isGroupOpen
    · rw [closing?_cons_of_isGroupOpen hopen, depthAfter?_cons_of_isGroupOpen hopen, ih]
    · by_cases hclose : x.token = .groupClose
      · cases depth with
        | zero => simp [closing?, depthAfter?, hclose, Token.isGroupOpen]
        | succ depth =>
          rw [closing?_succ_cons_of_groupClose hclose, hclose,
            depthAfter?_succ_cons_groupClose, ih]
      · rw [closing?_cons_of_not hopen hclose, depthAfter?_cons_of_not hopen hclose, ih]

/-- Tokens are balanced when counting comes from no open group to none. -/
theorem balanced_iff {ts : List Token} : Balanced ts ↔ depthAfter? 0 ts = some 0 := by
  refine ⟨fun h => h.depthAfter?_eq 0, fun h => ?_⟩
  induction hn : ts.length using Nat.strongRecOn generalizing ts with
  | _ n ih =>
    match ts with
    | [] => exact .nil
    | t :: ts =>
      rw [List.length_cons] at hn
      by_cases hopen : t.isGroupOpen
      · rw [depthAfter?_cons_of_isGroupOpen hopen] at h
        obtain ⟨ms, ns, rfl, hms, hns⟩ := exists_close_of_depthAfter? h (Nat.le_refl 0)
        rw [List.length_append, List.length_cons] at hn
        exact .group hopen hms (ih ns.length (by omega) hns rfl)
      · by_cases hclose : t = .groupClose
        · rw [hclose, depthAfter?, if_neg (by simp [Token.isGroupOpen]), if_pos rfl] at h
          exact absurd h (by simp)
        · rw [depthAfter?_cons_of_not hopen hclose] at h
          exact .cons hopen hclose (ih ts.length (by omega) h rfl)

/-- Whether tokens are balanced is decided by counting. -/
instance (ts : List Token) : Decidable (Balanced ts) := decidable_of_iff' _ balanced_iff

namespace Balanced

variable {ts us : List Token} {t : Token}

/-- A token that neither opens nor closes a group stands anywhere among balanced tokens. -/
theorem insert (h : Balanced (ts ++ us)) (hopen : ¬t.isGroupOpen) (hclose : t ≠ .groupClose) :
    Balanced (ts ++ t :: us) := by
  rw [balanced_iff, depthAfter?_append] at h ⊢
  simp only [depthAfter?_cons_of_not hopen hclose]
  exact h

/-- Among balanced tokens the group that a token opens is closed, with balanced tokens before its
closing delimiter. -/
theorem exists_close (h : Balanced (ts ++ t :: us)) (hopen : t.isGroupOpen) :
    ∃ ms ns, us = ms ++ .groupClose :: ns ∧ Balanced ms := by
  rw [balanced_iff, depthAfter?_append, Option.bind_eq_some_iff] at h
  obtain ⟨depth, -, hus⟩ := h
  rw [depthAfter?_cons_of_isGroupOpen hopen] at hus
  obtain ⟨ms, ns, rfl, hms, -⟩ := exists_close_of_depthAfter? hus (Nat.zero_le depth)
  exact ⟨ms, ns, rfl, hms⟩

/-- Balanced tokens behind each other are balanced. -/
theorem append (hts : Balanced ts) (hus : Balanced us) : Balanced (ts ++ us) := by
  rw [balanced_iff, depthAfter?_append, hts.depthAfter?_eq, Option.bind_some, hus.depthAfter?_eq]

end Balanced

/-- Where counting comes to an open group, the innermost of them has balanced tokens behind its
opening, and one group less is open before it. -/
theorem exists_open_of_depthAfter? {depth : Nat} {ts : List Token}
    (h : depthAfter? 0 ts = some (depth + 1)) :
    ∃ us o ms, ts = us ++ o :: ms ∧ o.isGroupOpen ∧ Balanced ms ∧
      depthAfter? 0 us = some depth := by
  -- A group that is closed last is stepped over backwards, so the tokens are split at their end.
  induction hn : ts.length using Nat.strongRecOn generalizing depth ts with
  | _ n ih =>
    rcases List.eq_nil_or_concat ts with rfl | ⟨ts, t, rfl⟩
    · simp [depthAfter?] at h
    · rw [List.length_concat] at hn
      rw [List.concat_eq_append, depthAfter?_append, Option.bind_eq_some_iff] at h
      obtain ⟨i, hts, ht⟩ := h
      by_cases hopen : t.isGroupOpen
      · rw [depthAfter?_cons_of_isGroupOpen hopen, depthAfter?] at ht
        obtain rfl : i = depth := Nat.succ.inj (Option.some.inj ht)
        exact ⟨ts, t, [], by simp, hopen, .nil, hts⟩
      · by_cases hclose : t = .groupClose
        · subst hclose
          cases i with
          | zero => simp [depthAfter?, Token.isGroupOpen] at ht
          | succ i =>
            rw [depthAfter?_succ_cons_groupClose, depthAfter?] at ht
            obtain rfl : i = depth + 1 := Option.some.inj ht
            -- The group that the delimiter closes is the innermost one before it.
            obtain ⟨us, o, ms, rfl, ho, hms, hus⟩ := ih ts.length (by omega) hts rfl
            rw [List.length_append, List.length_cons] at hn
            obtain ⟨us', o', ms', rfl, ho', hms', hus'⟩ := ih us.length (by omega) hus rfl
            exact ⟨us', o', ms' ++ (o :: (ms ++ [.groupClose])), by simp, ho',
              hms'.append (.group ho hms .nil), hus'⟩
        · rw [depthAfter?_cons_of_not hopen hclose, depthAfter?] at ht
          obtain rfl : i = depth + 1 := Option.some.inj ht
          obtain ⟨us, o, ms, rfl, ho, hms, hus⟩ := ih ts.length (by omega) hts rfl
          exact ⟨us, o, ms ++ [t], by simp, ho, hms.append (.cons hopen hclose .nil), hus⟩

/-- Balanced tokens among others do not bear on whether all of them are balanced. -/
theorem balanced_append_iff {ts ms us : List Token} (h : Balanced ms) :
    Balanced (ts ++ (ms ++ us)) ↔ Balanced (ts ++ us) := by
  have hskip : ∀ depth, depthAfter? depth (ms ++ us) = depthAfter? depth us := fun depth => by
    rw [depthAfter?_append, h.depthAfter?_eq, Option.bind_some]
  rw [balanced_iff, balanced_iff, depthAfter?_append 0 ts, depthAfter?_append 0 ts, funext hskip]

/-- No delimiter of a group is read inside a class. -/
theorem Token.not_isGroupOpen_of_readsInClass {t : Token} {rest : Text} (h : t.ReadsInClass rest) :
    ¬t.isGroupOpen ∧ t ≠ .groupClose := by
  cases t <;> first | exact h.elim | simp [isGroupOpen]

/-- Lexemes of a pattern open and close groups as the top-level ones among them do. -/
theorem depthAfter?_filter_isTopLevel {p : Text} {xs : List Lexeme} (h : ∀ x ∈ xs, x ∈ lexemes p)
    (depth : Nat) :
    depthAfter? depth ((xs.filter Lexeme.isTopLevel).map Lexeme.token) =
      depthAfter? depth (xs.map Lexeme.token) := by
  induction xs generalizing depth with
  | nil => rfl
  | cons x xs ih =>
    obtain ⟨hx, hxs⟩ := List.forall_mem_cons.1 h
    rw [List.map_cons]
    by_cases htop : x.isTopLevel
    · rw [List.filter_cons_of_pos htop, List.map_cons]
      unfold depthAfter?
      simp only [ih hxs]
    · obtain ⟨rest, hrest⟩ := readsInClass_of_not_isTopLevel hx htop
      obtain ⟨hopen, hclose⟩ := Token.not_isGroupOpen_of_readsInClass hrest
      rw [List.filter_cons_of_neg htop, depthAfter?_cons_of_not hopen hclose, ih hxs]

/-- Lexemes of a pattern are balanced when the top-level ones among them are. -/
theorem balanced_filter_isTopLevel_iff {p : Text} {xs : List Lexeme}
    (h : ∀ x ∈ xs, x ∈ lexemes p) :
    Balanced ((xs.filter Lexeme.isTopLevel).map Lexeme.token) ↔ Balanced (xs.map Lexeme.token) := by
  rw [balanced_iff, balanced_iff, depthAfter?_filter_isTopLevel h]

/-- A pattern is balanced when all its tokens are. -/
theorem balanced_topLevel_iff (p : Text) :
    Balanced ((topLevel p).map Lexeme.token) ↔ Balanced (tokens p) :=
  balanced_filter_isTopLevel_iff fun _ hx => hx

/-- Where lexemes are balanced with more behind them, nothing closes a group opened before them. -/
theorem closing?_eq_none_of_balanced {xs ys : List Lexeme}
    (h : Balanced ((xs ++ ys).map Lexeme.token)) : closing? 0 xs = none := by
  refine Option.eq_none_iff_forall_ne_some.2 fun c hc => ?_
  have hfound := closing?_append_of_eq_some hc ys
  have hnone := closing?_append_of_balanced h 0 []
  rw [List.append_nil, closing?] at hnone
  exact absurd (hfound.symm.trans hnone) (by simp)

/-- Where lexemes are balanced, none of them closes a group opened before them. -/
theorem Balanced.closing?_eq_none {xs : List Lexeme} (h : Balanced (xs.map Lexeme.token)) :
    closing? 0 xs = none := by
  have hwhole : Balanced ((xs ++ []).map Lexeme.token) := by rwa [List.append_nil]
  exact closing?_eq_none_of_balanced hwhole

end RegexUnroll
