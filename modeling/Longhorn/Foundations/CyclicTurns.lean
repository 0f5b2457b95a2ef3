import Mathlib.Data.List.Rotate

/-!
Turns taken in the order of a list, around its end.
-/

namespace Longhorn.Foundations.CyclicTurns

universe u

variable {α : Type u} {l turns pre win post : List α} {a : α}

/-- The turns go through the list from its second element on. -/
def TakesTurns (l turns : List α) : Prop :=
  ∀ j, j < turns.length → turns[j]? = l[(j + 1) % l.length]?

theorem takesTurns_nil (l : List α) : TakesTurns l [] := fun _ hj => absurd hj (Nat.not_lt_zero _)

theorem getElem?_rotate_mod (l : List α) (n j : Nat) (hl : l ≠ []) :
    (l.rotate n)[j % l.length]? = l[(j + n) % l.length]? := by
  rw [List.getElem?_rotate (Nat.mod_lt _ (List.length_pos_iff.mpr hl)), Nat.mod_add_mod]

/-- The first turn, and those of the list behind it. -/
theorem TakesTurns.cons (hl : l ≠ []) (ha : (l.rotate 1).head? = some a)
    (h : TakesTurns (l.rotate 1) turns) : TakesTurns l (a :: turns) := by
  intro j hj
  cases j with
  | zero =>
      have hrot := getElem?_rotate_mod l 1 0 hl
      rw [Nat.zero_mod, ← List.head?_eq_getElem?, ha] at hrot
      exact hrot
  | succ j =>
      have hturn := h j (by simpa using hj)
      rw [List.length_rotate, getElem?_rotate_mod l 1 (j + 1) hl] at hturn
      exact hturn

/-- As many turns in a row as there are elements: each has one. -/
theorem TakesTurns.window (h : TakesTurns l turns) (hturns : turns = pre ++ win ++ post)
    (hwin : win.length = l.length) : win = l.rotate (pre.length + 1) := by
  apply List.ext_getElem?
  intro j
  by_cases hj : j < win.length
  · have hturn := h (pre.length + j) (by rw [hturns]; simp; omega)
    have hin : turns[pre.length + j]? = win[j]? := by
      rw [hturns, List.append_assoc, List.getElem?_append_right (by omega),
        List.getElem?_append_left (by omega)]
      congr 1
      omega
    rw [← hin, hturn, List.getElem?_rotate (hwin ▸ hj)]
    congr 2
    omega
  · rw [List.getElem?_eq_none (by omega), List.getElem?_eq_none (by rw [List.length_rotate]; omega)]

theorem TakesTurns.window_perm (h : TakesTurns l turns) (hturns : turns = pre ++ win ++ post)
    (hwin : win.length = l.length) : win.Perm l := by
  rw [h.window hturns hwin]
  exact List.rotate_perm l _

end Longhorn.Foundations.CyclicTurns
