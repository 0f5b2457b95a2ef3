import Mathlib.Data.Finset.Card
import Mathlib.Logic.Function.Basic
import Longhorn.Foundations.Ranges

/-!
Arrays of truth values with updates of whole ranges and the number of true entries
in a range.
-/

namespace Longhorn.Foundations.BoolArrays

open Longhorn.Foundations.Ranges

/-- An array of truth values, one for each index. -/
abbrev BoolArray := Nat → Bool

/-- Store `val` at every index of the range. -/
def BoolArray.setRange (a : BoolArray) (r : Range) (val : Bool) : BoolArray :=
  fun i => if r.Covers i then val else a i

/-- The number of true entries in the range. -/
def BoolArray.countRange (a : BoolArray) (r : Range) : Nat :=
  ((Finset.Ico r.start (r.start + r.len)).filter fun i => a i = true).card

theorem covers_succ (start len i : Nat) :
    (Range.mk start (len + 1)).Covers i ↔ i = start ∨ (Range.mk (start + 1) len).Covers i := by
  simp only [Range.Covers]
  omega

theorem not_covers_zero (start i : Nat) : ¬ (Range.mk start 0).Covers i := by
  simp only [Range.Covers]
  omega

@[simp] theorem BoolArray.setRange_zero (a : BoolArray) (start : Nat) (val : Bool) :
    a.setRange ⟨start, 0⟩ val = a := by
  funext i
  exact if_neg (not_covers_zero start i)

/-- Storing into a range one index after the other. -/
theorem BoolArray.setRange_succ (a : BoolArray) (start len : Nat) (val : Bool) :
    a.setRange ⟨start, len + 1⟩ val =
      (BoolArray.setRange (Function.update a start val) ⟨start + 1, len⟩ val : BoolArray) := by
  funext i
  simp only [BoolArray.setRange, covers_succ, Function.update_apply]
  by_cases hi : i = start <;> simp [hi]

@[simp] theorem BoolArray.countRange_zero (a : BoolArray) (start : Nat) :
    a.countRange ⟨start, 0⟩ = 0 := by
  simp [BoolArray.countRange]

/-- Counting a range one index after the other. -/
theorem BoolArray.countRange_succ (a : BoolArray) (start len : Nat) :
    a.countRange ⟨start, len + 1⟩ =
      (if a start then 1 else 0) + a.countRange ⟨start + 1, len⟩ := by
  have hsplit : Finset.Ico start (start + (len + 1)) =
      insert start (Finset.Ico (start + 1) (start + 1 + len)) := by
    ext i
    simp only [Finset.mem_Ico, Finset.mem_insert]
    omega
  have hnew : start ∉ (Finset.Ico (start + 1) (start + 1 + len)).filter fun i => a i = true := by
    simp
  simp only [BoolArray.countRange, hsplit, Finset.filter_insert]
  by_cases ha : a start = true
  · rw [if_pos ha, if_pos ha, Finset.card_insert_of_notMem hnew]
    omega
  · rw [if_neg ha, if_neg ha, Nat.zero_add]

end Longhorn.Foundations.BoolArrays
