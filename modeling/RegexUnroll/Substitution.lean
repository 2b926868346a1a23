import RegexUnroll.Lexeme

/-!
# Replacing tokens of a pattern

`substitute` replaces the top-level tokens of a pattern and leaves everything else as written;
`substituteM` does so with a replacement that may have effects. Both walk over the top-level lexemes
only and copy the text between two replaced ones in one piece. That comes to the same as replacing
lexeme by lexeme, over all lexemes of the pattern in their order (`substituteM_eq`,
`substitute_eq_flatMap`).
-/

universe v

namespace RegexUnroll

/-- The pending text, which begins at `offset`, with the lexemes `xs` of it replaced. -/
def substituteFromM {m : Type → Type v} [Monad m] (replace : Token → m (Option Text)) :
    List Lexeme → Nat → Text → m Text
  | [], _, pending => pure pending
  | x :: xs, offset, pending => do
    match ← replace x.token with
    | none => substituteFromM replace xs offset pending
    | some s =>
      let rest ← substituteFromM replace xs x.span.stop (pending.dropBytes (x.span.stop - offset))
      pure (pending.takeBytes (x.span.start - offset) ++ s ++ rest)

/-- The pattern with its top-level tokens replaced, those for which `replace` answers `none` kept
as written. -/
def substituteM {m : Type → Type v} [Monad m] (replace : Token → m (Option Text)) (p : Text) :
    m Text :=
  substituteFromM replace (topLevel p) 0 p

/-- The pattern with its top-level tokens replaced, those without a replacement kept as written. -/
def substitute (replace : Token → Option Text) (p : Text) : Text :=
  Id.run (substituteM (fun t => pure (replace t)) p)

namespace Lexeme

/-- The text that stands for a lexeme after a replacement. -/
def replaceM {m : Type → Type v} [Monad m] (replace : Token → m (Option Text)) (x : Lexeme) :
    m Text :=
  if x.isTopLevel then (fun s => s.getD x.token.spelling) <$> replace x.token
  else pure x.token.spelling

/-- The text that stands for a lexeme after a replacement without effects. -/
def replace (replace : Token → Option Text) (x : Lexeme) : Text :=
  if x.isTopLevel then (replace x.token).getD x.token.spelling else x.token.spelling

end Lexeme

/-- Replacing goes on lexeme by lexeme behind the text that is copied as it stands. -/
theorem substituteFromM_lexemes {m : Type → Type v} [Monad m] [LawfulMonad m]
    (replace : Token → m (Option Text)) (k : Cursor) (copied : Text) (offset : Nat)
    (hoffset : offset + Text.utf8Length copied = k.offset) :
    substituteFromM replace (k.lexemes.filter Lexeme.isTopLevel) offset (copied ++ k.pending) =
      (fun parts => copied ++ parts.flatten) <$> k.lexemes.mapM (Lexeme.replaceM replace) := by
  fun_induction Cursor.lexemes k generalizing copied offset with
  | case1 k h => simp [substituteFromM, Cursor.next?_eq_none_iff.1 h]
  | case2 k x k' h ih =>
    obtain ⟨hpending, hspan, -, hstop, -⟩ := Cursor.next?_eq_some h
    have hkeep := ih (copied ++ x.token.spelling) offset (by
      rw [hstop, hspan, Text.utf8Length_append, ← hoffset, Nat.add_assoc])
    rw [List.append_assoc] at hkeep
    rw [hpending]
    by_cases htop : x.isTopLevel
    · simp only [List.filter_cons, htop, if_true, substituteFromM, List.mapM_cons,
        Lexeme.replaceM, map_bind, bind_map_left]
      refine bind_congr fun s => ?_
      cases s with
      | none =>
        -- The lexeme is kept and joins what is copied.
        simp [hkeep, List.append_assoc]
      | some s =>
        -- What is copied ends where the lexeme begins, and copying starts anew behind it.
        have hstart : x.span.start - offset = Text.utf8Length copied := by
          rw [hspan, ← hoffset]
          exact Nat.add_sub_cancel_left ..
        have hdrop : x.span.stop - offset = Text.utf8Length (copied ++ x.token.spelling) := by
          rw [hspan, ← hoffset, Text.utf8Length_append, Nat.add_assoc]
          exact Nat.add_sub_cancel_left ..
        have hrest := ih [] x.span.stop (by simp [hstop])
        simp only [List.nil_append] at hrest
        rw [← List.append_assoc, hdrop, Text.dropBytes_append, hrest, List.append_assoc, hstart]
        simp [List.append_assoc]
    · -- The walk does not see the lexeme, which joins what is copied.
      simp [htop, hkeep, Lexeme.replaceM, List.append_assoc]

/-- Replacing works lexeme by lexeme: `replace` is asked once for each top-level lexeme, in order,
and the results are joined. -/
theorem substituteM_eq {m : Type → Type v} [Monad m] [LawfulMonad m]
    (replace : Token → m (Option Text)) (p : Text) :
    substituteM replace p = List.flatten <$> (lexemes p).mapM (Lexeme.replaceM replace) := by
  simpa [substituteM, lexemes, topLevel, Cursor.ofText] using
    substituteFromM_lexemes replace (.ofText p) [] 0 rfl

/-- A replacement without effects works lexeme by lexeme. -/
theorem substitute_eq_flatMap (replace : Token → Option Text) (p : Text) :
    substitute replace p = (lexemes p).flatMap (Lexeme.replace replace) := by
  have h : Lexeme.replaceM (m := Id) (fun t => pure (replace t)) =
      fun x => pure (Lexeme.replace replace x) := by
    funext x
    unfold Lexeme.replaceM Lexeme.replace
    split <;> rfl
  rw [substitute, substituteM_eq, h, List.mapM_pure]
  simp [List.flatMap_def]

end RegexUnroll
