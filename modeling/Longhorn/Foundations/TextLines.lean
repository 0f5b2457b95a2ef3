import Mathlib.Data.List.Induction

/-!
Text that is broken into lines of a fixed width, and the part of it that a window of some
rows shows.
-/

namespace Longhorn.Foundations.TextLines

universe u

/-- The lines of a text.  A place of a line can be empty. -/
structure Text (α : Type u) (cols : Nat) where
  /-- The lines above the current one, the last one first. -/
  above : List (List (Option α))
  /-- The current line, up to the cursor. -/
  line : List (Option α)
  above_le : ∀ l ∈ above, l.length ≤ cols
  line_le : line.length ≤ cols

namespace Text

variable {α : Type u} {cols : Nat}

def empty : Text α cols := ⟨[], [], fun _ h => absurd h List.not_mem_nil, Nat.zero_le cols⟩

/-- The lines, the current one first. -/
def lines (t : Text α cols) : List (List (Option α)) := t.line :: t.above

theorem lines_le (t : Text α cols) : ∀ l ∈ t.lines, l.length ≤ cols := by
  intro l hl
  rcases List.mem_cons.mp hl with rfl | hl
  · exact t.line_le
  · exact t.above_le l hl

/-- The current line is over. -/
def newline (t : Text α cols) : Text α cols := ⟨t.lines, [], t.lines_le, Nat.zero_le cols⟩

/-- Behind the last column there is no place, and what is drawn there hits the first one. -/
def erase (t : Text α cols) : Text α cols :=
  if t.line.length < cols then t
  else ⟨t.above, t.line.set 0 none, t.above_le,
    Nat.le_trans (Nat.le_of_eq List.length_set) t.line_le⟩

theorem length_concat_le {l : List (Option α)} (h : l.length < cols) (a : Option α) :
    (l ++ [a]).length ≤ cols := by
  rw [List.length_append, List.length_singleton]
  exact h

/-- Put `a` at the cursor; a full line is over. -/
def put (a : α) (t : Text α cols) : Text α cols :=
  if h : t.line.length < cols then
    let t' : Text α cols := ⟨t.above, t.line ++ [some a], t.above_le, length_concat_le h (some a)⟩
    if t'.line.length < cols then t' else t'.newline
  else t.erase.newline

/-- Take the last place off the line.  An empty line is over instead. -/
def backspace (t : Text α cols) : Text α cols :=
  if t.line = [] then t.newline
  else ⟨t.erase.above, t.erase.line.dropLast, t.erase.above_le,
    Nat.le_trans (Nat.le_of_eq List.length_dropLast)
      (Nat.le_trans (Nat.sub_le _ _) t.erase.line_le)⟩

def moveTo (x : Nat) (t : Text α cols) : Text α cols :=
  if h : t.line.length ≤ x ∧ x ≤ cols then
    ⟨t.above, t.line ++ List.replicate (x - t.line.length) none, t.above_le, by
      rw [List.length_append, List.length_replicate]
      omega⟩
  else t

@[simp] theorem erase_above (t : Text α cols) : t.erase.above = t.above := by
  rw [erase]
  split <;> rfl

@[simp] theorem length_erase_line (t : Text α cols) : t.erase.line.length = t.line.length := by
  rw [erase]
  split
  · rfl
  · exact List.length_set

theorem erase_of_lt {t : Text α cols} (h : t.line.length < cols) : t.erase = t := by
  rw [erase, if_pos h]

/-- The row of the window in which the current line is. -/
def row (rows : Nat) (t : Text α cols) : Nat := min t.above.length (rows - 1)

end Text

section Shown

variable {α : Type u} {cols : Nat} {lines : List (List (Option α))} {row x y : Nat} {a : α}

/-- With its first line in a row, a list of lines has `a` at a place of the window. -/
def At (lines : List (List (Option α))) (row x y : Nat) (a : α) : Prop :=
  y ≤ row ∧ ∃ l, lines[row - y]? = some l ∧ l[x]? = some (some a)

theorem At.lt (hlines : ∀ l ∈ lines, l.length ≤ cols) (h : At lines row x y a) : x < cols := by
  obtain ⟨-, l, hl, hx⟩ := h
  have hlt := (List.getElem?_eq_some_iff.mp hx).1
  exact Nat.lt_of_lt_of_le hlt (hlines l (List.mem_of_getElem? hl))

theorem at_row_iff {l : List (Option α)} :
    At (l :: lines) row x row a ↔ l[x]? = some (some a) := by
  rw [At, Nat.sub_self]
  constructor
  · rintro ⟨-, l', hl, hx⟩
    rw [List.getElem?_cons_zero, Option.some_inj] at hl
    rw [hl]
    exact hx
  · exact fun hx => ⟨Nat.le_refl row, l, List.getElem?_cons_zero, hx⟩

theorem at_cons_succ_iff {l : List (Option α)} (hy : y ≤ row) :
    At (l :: lines) (row + 1) x y a ↔ At lines row x y a := by
  rw [At, At, Nat.succ_sub hy, List.getElem?_cons_succ]
  exact and_congr_left fun _ => ⟨fun _ => hy, fun _ => Nat.le_succ_of_le hy⟩

theorem At.le_row (h : At lines row x y a) : y ≤ row := h.1

theorem At.of_next (h : At ([] :: lines) (row + 1) x y a) : At lines row x y a := by
  rcases Nat.lt_or_eq_of_le h.1 with hy | rfl
  · exact (at_cons_succ_iff (Nat.le_of_lt_succ hy)).mp h
  · exact absurd (at_row_iff.mp h) (by simp)

theorem At.of_scrolled (h : At ([] :: lines) row x y a) : At lines row x (y + 1) a := by
  rcases Nat.lt_or_eq_of_le h.1 with hy | rfl
  · obtain ⟨row, rfl⟩ := Nat.exists_eq_add_of_lt hy
    obtain ⟨-, l, hl, hx⟩ := h
    refine ⟨by omega, l, ?_, hx⟩
    rw [show y + row + 1 - y = row + 1 by omega, List.getElem?_cons_succ] at hl
    rw [show y + row + 1 - (y + 1) = row by omega]
    exact hl
  · exact absurd (at_row_iff.mp h) (by simp)

/-- A change of the first line is seen in its row only. -/
theorem At.replace {l l' : List (Option α)} (h : At (l' :: lines) row x y a)
    (hl : y = row → l'[x]? = some (some a) → l[x]? = some (some a)) :
    At (l :: lines) row x y a := by
  by_cases hy : y = row
  · subst hy
    exact at_row_iff.mpr (hl rfl (at_row_iff.mp h))
  · have hle := h.1
    obtain ⟨row, rfl⟩ := Nat.exists_eq_add_of_lt (Nat.lt_of_le_of_ne hle hy)
    exact (at_cons_succ_iff (by omega)).mpr ((at_cons_succ_iff (by omega)).mp h)

theorem At.of_concat {l : List (Option α)} {o : Option α} (h : At ((l ++ [o]) :: lines) row x y a) :
    (x = l.length ∧ y = row ∧ o = some a) ∨
      (At (l :: lines) row x y a ∧ ¬ (x = l.length ∧ y = row)) := by
  by_cases hnew : x = l.length ∧ y = row
  · obtain ⟨rfl, rfl⟩ := hnew
    have hlast := at_row_iff.mp h
    rw [List.getElem?_concat_length, Option.some_inj] at hlast
    exact Or.inl ⟨rfl, rfl, hlast⟩
  · refine Or.inr ⟨h.replace fun hy hx => ?_, hnew⟩
    have hne : x ≠ l.length := fun hlen => hnew ⟨hlen, hy⟩
    have hlt := (List.getElem?_eq_some_iff.mp hx).1
    rw [List.length_append, List.length_singleton] at hlt
    rw [List.getElem?_append_left (by omega)] at hx
    exact hx

theorem At.of_replicate {l : List (Option α)} {n : Nat}
    (h : At ((l ++ List.replicate n none) :: lines) row x y a) : At (l :: lines) row x y a := by
  refine h.replace fun _ hx => ?_
  by_cases hlt : x < l.length
  · rwa [List.getElem?_append_left hlt] at hx
  · rw [List.getElem?_append_right (Nat.le_of_not_lt hlt)] at hx
    have hnone := List.eq_of_mem_replicate (List.mem_of_getElem? hx)
    exact absurd hnone (Option.some_ne_none a)

theorem At.of_dropLast {l : List (Option α)} (h : At (l.dropLast :: lines) row x y a) :
    At (l :: lines) row x y a ∧ (y = row → x + 1 < l.length) := by
  constructor
  · refine h.replace fun _ hx => ?_
    have hlt := (List.getElem?_eq_some_iff.mp hx).1
    rw [List.length_dropLast] at hlt
    rw [List.getElem?_dropLast, if_pos hlt] at hx
    exact hx
  · rintro rfl
    have hlt := (List.getElem?_eq_some_iff.mp (at_row_iff.mp h)).1
    rw [List.length_dropLast] at hlt
    omega

theorem At.of_set {l : List (Option α)} (h : At (l.set 0 none :: lines) row x y a) :
    At (l :: lines) row x y a ∧ ¬ (x = 0 ∧ y = row) := by
  have hne : y = row → (l.set 0 none)[x]? = some (some a) → x ≠ 0 := by
    rintro - hx rfl
    cases l with
    | nil => exact absurd hx (by simp)
    | cons o l => exact absurd hx (by simp)
  constructor
  · refine h.replace fun hy hx => ?_
    rwa [List.getElem?_set_ne (hne hy hx).symm] at hx
  · rintro ⟨rfl, rfl⟩
    exact hne rfl (at_row_iff.mp h) rfl

/-- A place that is put at the end changes no other one. -/
theorem At.concat {l : List (Option α)} (h : At (l :: lines) row x y a) (o : Option α) :
    At ((l ++ [o]) :: lines) row x y a := by
  by_cases hy : y = row
  · subst hy
    have hx := at_row_iff.mp h
    have hlt := (List.getElem?_eq_some_iff.mp hx).1
    refine at_row_iff.mpr ?_
    rw [List.getElem?_append_left hlt]
    exact hx
  · have hle := h.1
    obtain ⟨row, rfl⟩ := Nat.exists_eq_add_of_lt (Nat.lt_of_le_of_ne hle hy)
    exact (at_cons_succ_iff (by omega)).mpr ((at_cons_succ_iff (by omega)).mp h)

/-- The same lines, seen through a window that has been moved down. -/
theorem At.window {n : Nat} (h : At lines n x y a) (hrow : row ≤ n) (hy : n - row ≤ y) :
    At lines row x (y - (n - row)) a := by
  obtain ⟨hle, l, hl, hx⟩ := h
  refine ⟨by omega, l, ?_, hx⟩
  rw [show row - (y - (n - row)) = n - y by omega]
  exact hl

theorem At.lt_line {l : List (Option α)} (h : At (l :: lines) row x row a) : x < l.length :=
  (List.getElem?_eq_some_iff.mp (at_row_iff.mp h)).1

/-- The places of a sequence that has been put into an empty text one by one. -/
structure Filled (s : List α) (t : Text α cols) : Prop where
  lt : t.line.length < cols
  length : s.length = t.above.length * cols + t.line.length
  at_place : ∀ k a, s[k]? = some a → At t.lines t.above.length (k % cols) (k / cols) a

theorem Filled.put {s : List α} {t : Text α cols} (h : Filled s t) (b : α) :
    Filled (s ++ [b]) (t.put b) := by
  have hpos : 0 < cols := Nat.zero_lt_of_lt h.lt
  have hlen : (t.line ++ [some b]).length = t.line.length + 1 := by
    rw [List.length_append, List.length_singleton]
  have hmod : s.length % cols = t.line.length := by
    rw [h.length, Nat.mul_comm, Nat.mul_add_mod, Nat.mod_eq_of_lt h.lt]
  have hdiv : s.length / cols = t.above.length := by
    rw [h.length, Nat.mul_comm, Nat.mul_add_div hpos, Nat.div_eq_of_lt h.lt, Nat.add_zero]
  have hall : ∀ k a, (s ++ [b])[k]? = some a →
      At ((t.line ++ [some b]) :: t.above) t.above.length (k % cols) (k / cols) a := by
    intro k a hk
    by_cases hlast : k = s.length
    · subst hlast
      rw [List.getElem?_concat_length, Option.some_inj] at hk
      rw [hmod, hdiv, hk]
      exact at_row_iff.mpr List.getElem?_concat_length
    · have hlt := (List.getElem?_eq_some_iff.mp hk).1
      rw [List.length_append, List.length_singleton] at hlt
      rw [List.getElem?_append_left (by omega)] at hk
      exact (h.at_place k a hk).concat _
  rw [Text.put, dif_pos h.lt]
  simp only [hlen]
  split
  · next hroom =>
      refine ⟨by simp only [hlen]; exact hroom, ?_, hall⟩
      simp only [List.length_append, List.length_singleton, h.length]
      omega
  · next hfull =>
      have hend : t.line.length + 1 = cols := by
        have hlt := h.lt
        omega
      refine ⟨hpos, ?_, fun k a hk => ?_⟩
      · simp only [Text.newline, Text.lines, List.length_append, List.length_cons,
          List.length_nil, h.length, Nat.add_mul]
        omega
      · have hplace := hall k a hk
        exact (at_cons_succ_iff hplace.le_row).mpr hplace

/-- A sequence fills the lines one after the other. -/
theorem filled_foldl (hcols : 0 < cols) (s : List α) :
    Filled s (s.foldl (fun t a => t.put a) (Text.empty : Text α cols)) := by
  induction s using List.reverseRecOn with
  | nil => exact ⟨hcols, (Nat.zero_mul cols).symm, nofun⟩
  | append_singleton s b ih =>
      rw [List.foldl_append]
      exact ih.put b

theorem Filled.length_above {s : List α} {t : Text α cols} (h : Filled s t) :
    t.above.length = s.length / cols := by
  rw [h.length, Nat.mul_comm, Nat.mul_add_div (Nat.zero_lt_of_lt h.lt), Nat.div_eq_of_lt h.lt,
    Nat.add_zero]

end Shown

end Longhorn.Foundations.TextLines
