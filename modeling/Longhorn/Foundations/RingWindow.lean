import Mathlib.Data.List.Range
import Mathlib.Logic.Function.Basic

/-!
Ring buffers: the cells from the read position on, taken around the end of the buffer.
-/

namespace Longhorn.Foundations.RingWindow

universe u

variable {α : Type u} {n : Nat} {cell : Nat → α} {i o k len : Nat}

/-- The number of cells from the read position `o` up to the write position `i`. -/
def fill (n i o : Nat) : Nat := if o ≤ i then i - o else i + n - o

/-- The `len` cells from position `o` on. -/
def window (n : Nat) (cell : Nat → α) (o len : Nat) : List α :=
  (List.range len).map fun k => cell ((o + k) % n)

theorem add_mod_cases (ho : o < n) (hk : k ≤ n) :
    (o + k) % n = if o + k < n then o + k else o + k - n := by
  split
  case isTrue h => exact Nat.mod_eq_of_lt h
  case isFalse h =>
    rw [Nat.mod_eq_sub_mod (by omega)]
    exact Nat.mod_eq_of_lt (by omega)

theorem add_mod_ne (ho : o < n) (hk : k < len) (hlen : len < n) :
    (o + k) % n ≠ (o + len) % n := by
  rw [add_mod_cases ho (by omega), add_mod_cases ho (by omega)]
  split_ifs <;> omega

theorem fill_lt (hi : i < n) (ho : o < n) : fill n i o < n := by
  rw [fill]
  split_ifs <;> omega

theorem fill_self : fill n i i = 0 := by
  simp [fill]

theorem fill_eq_zero (ho : o < n) : fill n i o = 0 ↔ i = o := by
  rw [fill]
  split_ifs <;> omega

/-- The write position is the cell behind the window. -/
theorem add_fill (hi : i < n) (ho : o < n) : (o + fill n i o) % n = i := by
  rw [add_mod_cases ho (fill_lt hi ho).le, fill]
  split_ifs <;> omega

theorem fill_succ_in (hi : i < n) (ho : o < n) (hfull : fill n i o + 1 < n) :
    fill n ((i + 1) % n) o = fill n i o + 1 := by
  rw [add_mod_cases hi (by omega)]
  rw [fill] at hfull ⊢
  rw [fill]
  split_ifs at hfull ⊢ <;> omega

theorem fill_succ_out (hi : i < n) (ho : o < n) (hempty : i ≠ o) :
    fill n i ((o + 1) % n) + 1 = fill n i o := by
  rw [add_mod_cases ho (by omega), fill, fill]
  split_ifs <;> omega

/-- The write position is the cell before the read position when one cell is left. -/
theorem fill_full (hi : i < n) (ho : o < n) : i = (o + (n - 1)) % n ↔ fill n i o + 1 = n := by
  rw [add_mod_cases ho (by omega), fill]
  split_ifs <;> omega

@[simp] theorem length_window : (window n cell o len).length = len := by
  simp [window]

@[simp] theorem window_zero : window n cell o 0 = [] := rfl

theorem window_succ :
    window n cell o (len + 1) = window n cell o len ++ [cell ((o + len) % n)] := by
  simp [window, List.range_succ]

theorem window_cons :
    window n cell o (len + 1) = cell (o % n) :: window n cell ((o + 1) % n) len := by
  simp only [window, List.range_succ_eq_map, List.map_cons, List.map_map]
  congr 1
  apply List.map_congr_left
  intro k _
  simp only [Function.comp_apply, Nat.mod_add_mod]
  congr 2
  omega

theorem window_congr {cell' : Nat → α}
    (h : ∀ k, k < len → cell' ((o + k) % n) = cell ((o + k) % n)) :
    window n cell' o len = window n cell o len := by
  apply List.map_congr_left
  intro k hk
  exact h k (List.mem_range.mp hk)

/-- Writing the cell behind the window leaves the window alone. -/
theorem window_update (ho : o < n) (hlen : len < n) (hi : (o + len) % n = i) (c : α) :
    window n (Function.update cell i c) o len = window n cell o len := by
  apply window_congr
  intro k hk
  rw [← hi]
  exact Function.update_of_ne (add_mod_ne ho hk hlen) c cell

end Longhorn.Foundations.RingWindow
