import Mathlib.Logic.Function.Iterate
import RegexUnroll.Expansion
import RegexUnroll.Proofs.Nest

/-!
# A nest that is written in one pass is the nest

`Nesting.write` writes a nest token by token, with the hidden captures as the state of the
computation. `Inserts` says that such a computation gives the same result whatever is hidden, and
puts in the same number of captures. It holds of the step by which a lexeme is written
(`inserts_replaceM_copyM`), it is kept when computations are run one after the other
(`Inserts.bind`), and so it is by loops (`Inserts.foldlM_append`). In the end it holds of the nest
as a whole: its text is `Nesting.text` and the captures are those that `Nesting.newCaptures` counts
(`Nesting.inserts_write`). So a pattern expanded in one pass is the pattern expanded
(`Expansion.expandInOnePass_eq`).
-/

namespace RegexUnroll

/-! ## Hidden captures as a state -/

namespace HiddenCaptures

/-- New captures are numbered one after the other. -/
theorem iterate_insertNext (existing : List Nat) (before count : Nat) :
    insertNext^[count] (ofExisting existing before) =
      ⟨(List.range' (before + 1) count).foldl (fun hidden n => shiftFrom n hidden) existing,
        List.range' (before + 1) count, before⟩ := by
  induction count with
  | zero => rfl
  | succ count ih =>
    have hnext : before + count + 1 = before + 1 + count := Nat.add_right_comm ..
    rw [Function.iterate_succ_apply', ih, List.range'_concat, List.foldl_append, insertNext,
      List.length_range', hnext, Nat.one_mul]
    rfl

/-- In the end the new captures are put in as `hideNew` does it. -/
theorem all_iterate_insertNext (existing : List Nat) (before count : Nat) :
    (insertNext^[count] (ofExisting existing before)).all = hideNew before count existing := by
  rw [iterate_insertNext]
  rfl

/-- As many captures are new as have been put in. -/
theorem length_added_iterate_insertNext (h : HiddenCaptures) (count : Nat) :
    (insertNext^[count] h).added.length = h.added.length + count := by
  induction count with
  | zero => rfl
  | succ count ih =>
    rw [Function.iterate_succ_apply', insertNext, List.length_append, ih]
    rfl

/-- At first no captures are new. -/
theorem length_added_iterate_ofExisting (existing : List Nat) (before count : Nat) :
    (insertNext^[count] (ofExisting existing before)).added.length = count :=
  (length_added_iterate_insertNext ..).trans (Nat.zero_add _)

end HiddenCaptures

/-! ## Computations that do not depend on what is hidden -/

/-- Whether a computation gives the result `a` and puts in `count` new captures, whatever is hidden
before it. -/
def Inserts {α : Type} (m : StateM HiddenCaptures α) (a : α) (count : Nat) : Prop :=
  ∀ h, m.run h = (a, HiddenCaptures.insertNext^[count] h)

namespace Inserts

variable {α β : Type}

/-- Nothing is put in where nothing is done. -/
theorem pure (a : α) : Inserts (pure a) a 0 := fun _ => rfl

/-- One step puts in one capture. -/
theorem modify_insertNext : Inserts (modify HiddenCaptures.insertNext) () 1 := fun _ => rfl

/-- Of two computations the second puts in its captures behind those of the first. -/
theorem bind {m : StateM HiddenCaptures α} {f : α → StateM HiddenCaptures β} {a : α} {b : β}
    {i j : Nat} (hm : Inserts m a i) (hf : Inserts (f a) b j) : Inserts (m >>= f) b (i + j) := by
  intro h
  calc
    (m >>= f).run h = (f a).run (HiddenCaptures.insertNext^[i] h) := by
      rw [StateT.run_bind, hm h]
      rfl
    _ = (b, HiddenCaptures.insertNext^[j] (HiddenCaptures.insertNext^[i] h)) := hf _
    -- The captures of the first computation are put in first, so its count is iterated inside.
    _ = (b, HiddenCaptures.insertNext^[i + j] h) := by
      rw [Nat.add_comm, Function.iterate_add_apply]

/-- A function on the result puts nothing in. -/
theorem map {m : StateM HiddenCaptures α} {a : α} {i : Nat} (hm : Inserts m a i) (f : α → β) :
    Inserts (f <$> m) (f a) i := by
  intro h
  rw [StateT.run_map, hm h]
  rfl

/-- To make another result of it puts nothing in. -/
theorem bind_pure {m : StateM HiddenCaptures α} {a : α} {i : Nat} (hm : Inserts m a i)
    (f : α → β) : Inserts (m >>= fun a => Pure.pure (f a)) (f a) i := by
  rw [bind_pure_comp]
  exact hm.map f

/-- Over a list the results are collected, and a capture is put in for each element of a kind. -/
theorem mapM {g : α → StateM HiddenCaptures β} {v : α → β} {P : α → Bool}
    (h : ∀ x, Inserts (g x) (v x) (if P x then 1 else 0)) (xs : List α) :
    Inserts (xs.mapM g) (xs.map v) (xs.countP P) := by
  induction xs with
  | nil => exact pure []
  | cons x xs ih =>
    rw [List.mapM_cons, List.countP_cons, Nat.add_comm]
    exact (h x).bind (ih.bind_pure _)

/-- Texts that are written one after the other stand behind each other. -/
theorem foldlM_append {g : α → StateM HiddenCaptures Text} {v : α → Text} {count : Nat}
    (h : ∀ x, Inserts (g x) (v x) count) (xs : List α) (out : Text) :
    Inserts (xs.foldlM (fun out x => do let s ← g x; Pure.pure (out ++ s)) out)
      (out ++ xs.flatMap v) (xs.length * count) := by
  induction xs generalizing out with
  | nil =>
    rw [List.flatMap_nil, List.append_nil, List.length_nil, Nat.zero_mul]
    exact pure out
  | cons x xs ih =>
    have hstep : Inserts (g x >>= fun s => Pure.pure (out ++ s)) (out ++ v x) count :=
      (h x).bind_pure _
    rw [List.foldlM_cons, List.flatMap_cons, ← List.append_assoc, List.length_cons, Nat.succ_mul,
      Nat.add_comm]
    exact hstep.bind (ih (out ++ v x))

end Inserts

/-! ## Copies -/

/-- A token is written as it stands in the copy, and the capture that it opens is put in. -/
theorem Token.inserts_copyM (names : CopiedNames) (depth : Nat) (t : Token) :
    ∃ s, Inserts (t.copyM names depth) s (if t.isCaptureOpen then 1 else 0) ∧
      s.getD t.spelling = (t.atDepth names depth).spelling := by
  cases t with
  | namedCaptureOpen name => exact ⟨_, Inserts.modify_insertNext.bind_pure _, rfl⟩
  | captureOpen => exact ⟨_, Inserts.modify_insertNext.bind_pure _, rfl⟩
  | namedBackref name =>
    refine ⟨_, .pure _, ?_⟩
    rw [atDepth]
    split <;> rfl
  | _ => exact ⟨none, .pure _, rfl⟩

/-- A lexeme is written as it stands in the copy. Inside a class nothing is put in. -/
theorem inserts_replaceM_copyM (names : CopiedNames) (depth : Nat) (x : Lexeme) :
    Inserts (x.replaceM (Token.copyM names depth))
      (x.replace fun t => some (t.atDepth names depth).spelling)
      (if x.token.isCaptureOpen && x.isTopLevel then 1 else 0) := by
  obtain ⟨s, hs, hspelling⟩ := x.token.inserts_copyM names depth
  unfold Lexeme.replaceM Lexeme.replace
  by_cases htop : x.isTopLevel
  · rw [if_pos htop, if_pos htop, htop, Bool.and_true, Option.getD_some, ← hspelling]
    exact hs.map _
  · rw [if_neg htop, if_neg htop, Bool.eq_false_iff.2 htop, Bool.and_false]
    exact .pure _

/-- A copy of a text puts in the captures that the text opens. -/
theorem inserts_substituteM_copyM (names : CopiedNames) (depth : Nat) (s : Text) :
    Inserts (substituteM (Token.copyM names depth) s) (atDepth names depth s)
      (countCaptures s) := by
  have hall := Inserts.mapM (inserts_replaceM_copyM names depth) (lexemes s)
  rw [substituteM_eq, atDepth, substitute_eq_flatMap, countCaptures, topLevel, List.countP_filter,
    List.flatMap_def]
  exact hall.map List.flatten

/-! ## The nest -/

/-- Forward the depths ascend from two on, and backward they descend to two. -/
theorem Direction.map_depth_range (copies : Nat) :
    (List.range copies).map (forward.depth copies) = List.range' 2 copies ∧
      (List.range copies).map (backward.depth copies) = (List.range' 2 copies).reverse := by
  constructor
  · rw [List.range'_eq_map_range]
    exact List.map_congr_left fun i _ => Nat.add_comm i 2
  · rw [List.reverse_range']
    refine List.map_congr_left fun i hi => ?_
    have hlt := List.mem_range.1 hi
    show copies - i + 1 = 2 + copies - 1 - i
    omega

/-- The copies of a piece bring its captures, once for each copy. -/
theorem inserts_writeCopies (out piece : Text) (direction : Direction) (copies : Nat)
    (names : CopiedNames) :
    Inserts (writeCopies out piece direction copies names)
      (out ++ (List.range copies).flatMap fun i => atDepth names (direction.depth copies i) piece)
      (copies * countCaptures piece) := by
  have hloop := Inserts.foldlM_append
    (fun i => inserts_substituteM_copyM names (direction.depth copies i) piece)
    (List.range copies) out
  rwa [List.length_range] at hloop

namespace Nesting

variable (n : Nesting)

/-- The copies before the middle are written in ascending order. -/
theorem render_leftCopies :
    n.render n.leftCopies = (List.range n.copies).flatMap fun i =>
      atDepth n.names (Direction.forward.depth n.copies i) (['(', '?', ':'] ++ n.left) := by
  rw [render, leftCopies, depths, ← (Direction.map_depth_range n.copies).1, List.flatMap_map,
    List.flatMap_map]

/-- The copies after the middle are written in descending order. -/
theorem render_rightCopies :
    n.render n.rightCopies = (List.range n.copies).flatMap fun i =>
      atDepth n.names (Direction.backward.depth n.copies i) (n.right ++ [')']) := by
  rw [render, rightCopies, depths, ← (Direction.map_depth_range n.copies).2, List.flatMap_map,
    List.flatMap_map]

/-- Whatever is hidden, the text of the nest is written, and its new captures are put in. -/
theorem inserts_write : Inserts n.write n.text n.newCaptures := by
  have hleft := inserts_writeCopies n.left (['(', '?', ':'] ++ n.left) .forward n.copies n.names
  rw [← n.render_leftCopies] at hleft
  have hright := inserts_writeCopies (n.left ++ n.render n.leftCopies ++ ['(', '?', ':', ')'])
    (n.right ++ [')']) .backward n.copies n.names
  rw [← n.render_rightCopies] at hright
  rw [newCaptures_eq, Nat.mul_add]
  exact hleft.bind (hright.bind_pure _)

/-- The loops put in the captures of all copies, whatever has been hidden before. -/
theorem length_added_write (existing : List Nat) (before : Nat) :
    (Id.run (n.write.run (.ofExisting existing before))).2.added.length = n.newCaptures := by
  rw [n.inserts_write (.ofExisting existing before)]
  exact HiddenCaptures.length_added_iterate_ofExisting ..

end Nesting

/-! ## The pattern -/

namespace Expansion

/-- Written in one pass the result is the same. -/
theorem writeRecursion_eq (r : Recursion) (hidden : List Nat) (transfers : CaptureTransfers) :
    writeRecursion r hidden transfers = ofRecursion r hidden transfers := by
  rw [writeRecursion, r.nesting.inserts_write]
  dsimp only [Id.run]
  rw [HiddenCaptures.length_added_iterate_ofExisting, HiddenCaptures.all_iterate_insertNext]
  rfl

/-- Every pattern is expanded as it is in one pass. -/
theorem expandInOnePass_eq (e : Expansion) (mode : Mode) :
    e.expandInOnePass mode = e.expand mode := by
  unfold expandInOnePass expand
  rcases Recursion.ofPattern e.pattern mode with _ | _ | r
  · rfl
  · rfl
  · exact congrArg Except.ok (writeRecursion_eq r e.hiddenCaptures e.captureTransfers)

end Expansion

end RegexUnroll
