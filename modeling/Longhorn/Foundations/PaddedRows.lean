import Longhorn.Foundations.CountedLoops

/-!
Loops over the cells of a grid with padded rows, which move one position through it.
-/

namespace Longhorn.Foundations.PaddedRows

open Longhorn.Foundations.CountedLoops

universe u v

variable {σ : Type u} {α : Type v}

/-- The loop over the cells of row `k`: each moves the position on by `step`. -/
def walkRow (step w : Nat) (visit : Nat → Nat → Nat → σ → σ) (k : Nat) (t : Nat × σ) : Nat × σ :=
  forUpTo w (fun j t => (t.1 + step, visit k j t.1 t.2)) t

/-- The loop over the rows: at the end of each the position is moved on by the padding. -/
def walkRows (step pad w h : Nat) (visit : Nat → Nat → Nat → σ → σ) (t : Nat × σ) : Nat × σ :=
  forUpTo h (fun k t => ((walkRow step w visit k t).1 + pad, (walkRow step w visit k t).2)) t

/-- The cells of a grid in the order of the loops. -/
def grid (w h : Nat) : List (Nat × Nat) :=
  (List.range h).flatMap fun k => (List.range w).map fun j => (k, j)

/-- Where a cell lies if the rows are `row` apart. -/
def place (p row step : Nat) (c : Nat × Nat) : Nat := p + c.1 * row + c.2 * step

variable {step pad w h k p row : Nat} {visit : Nat → Nat → Nat → σ → σ} {s : σ} {c : Nat × Nat}

theorem mem_grid : c ∈ grid w h ↔ c.1 < h ∧ c.2 < w := by
  obtain ⟨k, j⟩ := c
  simp [grid]

theorem grid_succ : grid w (h + 1) = grid w h ++ (List.range w).map fun j => (h, j) := by
  rw [grid, List.range_succ, List.flatMap_append, List.flatMap_singleton, grid]

theorem forUpTo_eq_foldl (n : Nat) (body : Nat → σ → σ) (s : σ) :
    forUpTo n body s = (List.range n).foldl (fun s i => body i s) s := by
  induction n with
  | zero => rfl
  | succ n ih => rw [forUpTo, ih, List.range_succ, List.foldl_append, List.foldl_cons,
      List.foldl_nil]

theorem walkRow_eq : walkRow step w visit k (p, s) =
    (p + w * step, forUpTo w (fun j => visit k j (p + j * step)) s) := by
  induction w with
  | zero => simp [walkRow, forUpTo]
  | succ w ih =>
      rw [walkRow] at ih ⊢
      rw [forUpTo, ih, forUpTo, Nat.succ_mul, Nat.add_assoc]

/-- The position in terms of row and column. -/
theorem walkRows_eq : walkRows step pad w h visit (p, s) =
    (p + h * (w * step + pad),
      (grid w h).foldl (fun s c => visit c.1 c.2 (place p (w * step + pad) step c) s) s) := by
  induction h with
  | zero => simp [walkRows, forUpTo, grid]
  | succ h ih =>
      rw [walkRows] at ih ⊢
      rw [forUpTo, ih, walkRow_eq, forUpTo_eq_foldl, grid_succ, List.foldl_append, List.foldl_map,
        Nat.succ_mul]
      simp only [place, Nat.add_assoc]

theorem place_add_le {c d : Nat × Nat} (hrow : w * step ≤ row) (hc : c.2 < w)
    (hlt : c.1 < d.1 ∨ c.1 = d.1 ∧ c.2 < d.2) :
    place p row step c + step ≤ place p row step d := by
  rw [place, place, Nat.add_assoc _ _ step, ← Nat.succ_mul]
  rcases hlt with hlt | ⟨heq, hlt⟩
  · have hend : c.2.succ * step ≤ row := Nat.le_trans (Nat.mul_le_mul_right step hc) hrow
    have hrows : (c.1 + 1) * row ≤ d.1 * row := Nat.mul_le_mul_right row hlt
    rw [Nat.succ_mul] at hrows
    omega
  · rw [heq]
    exact Nat.add_le_add_left (Nat.mul_le_mul_right step hlt) _

/-- Cells do not overlap, and come in the order of their places. -/
theorem pairwise_place (hrow : w * step ≤ row) :
    ((grid w h).map (place p row step)).Pairwise fun a b => a + step ≤ b := by
  rw [List.pairwise_map]
  induction h with
  | zero => exact List.Pairwise.nil
  | succ h ih =>
      rw [grid_succ, List.pairwise_append, List.pairwise_map]
      refine ⟨ih, ?_, ?_⟩
      · refine List.pairwise_lt_range.imp_of_mem fun hi _ hlt => ?_
        exact place_add_le hrow (List.mem_range.mp hi) (Or.inr ⟨rfl, hlt⟩)
      · intro c hc d hd
        obtain ⟨j, _, rfl⟩ := List.mem_map.mp hd
        obtain ⟨hk, hj⟩ := mem_grid.mp hc
        exact place_add_le hrow hj (Or.inl hk)

/-- An update of `step` bytes at a position that looks at no others. -/
structure LocalUpdate (step : Nat) (f : (Nat → α) → Nat → Nat → α) : Prop where
  keeps : ∀ m p a, a < p ∨ p + step ≤ a → f m p a = m a
  reads : ∀ m m' p, (∀ a, p ≤ a → a < p + step → m a = m' a) →
    ∀ a, p ≤ a → a < p + step → f m p a = f m' p a

/-- Updates at positions that do not overlap do not see each other. -/
theorem LocalUpdate.foldl {f : (Nat → α) → Nat → Nat → α} (hf : LocalUpdate step f) {ps : List Nat}
    (hps : ps.Pairwise fun p q => p + step ≤ q) (m : Nat → α) :
    (∀ p, p ∈ ps → ∀ a, p ≤ a → a < p + step → ps.foldl f m a = f m p a) ∧
      ∀ a, (∀ p, p ∈ ps → a < p ∨ p + step ≤ a) → ps.foldl f m a = m a := by
  induction ps generalizing m with
  | nil => exact ⟨nofun, fun _ _ => rfl⟩
  | cons q ps ih =>
      obtain ⟨hq, hps⟩ := List.pairwise_cons.mp hps
      obtain ⟨hin, hout⟩ := ih hps (f m q)
      rw [List.foldl_cons]
      constructor
      · intro p hp a ha hlt
        rcases List.mem_cons.mp hp with rfl | hp
        · exact hout a fun p' hp' => Or.inl (Nat.lt_of_lt_of_le hlt (hq p' hp'))
        · rw [hin p hp a ha hlt]
          refine hf.reads _ _ p (fun b hb _ => hf.keeps m q b (Or.inr ?_)) a ha hlt
          exact Nat.le_trans (hq p hp) hb
      · intro a ha
        rw [hout a fun p hp => ha p (List.mem_cons_of_mem _ hp)]
        exact hf.keeps m q a (ha q List.mem_cons_self)

/-- What a fold adds to a log, in whatever order. -/
theorem mem_log_foldl (log : σ → List α) (hits : Nat × Nat → α → Prop)
    {body : σ → Nat × Nat → σ} (hbody : ∀ t c a, a ∈ log (body t c) ↔ hits c a ∨ a ∈ log t)
    (cs : List (Nat × Nat)) (s : σ) (a : α) :
    a ∈ log (cs.foldl body s) ↔ (∃ c, c ∈ cs ∧ hits c a) ∨ a ∈ log s := by
  induction cs generalizing s with
  | nil => simp
  | cons c cs ih =>
      rw [List.foldl_cons, ih, hbody, ← or_assoc]
      simp [or_comm]

end Longhorn.Foundations.PaddedRows
