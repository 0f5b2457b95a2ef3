import Mathlib.Data.List.Basic

/-!
Loops that count up from zero, and what they leave behind in a log.
-/

namespace Longhorn.Foundations.CountedLoops

universe u v

variable {σ : Type u} {α : Type v}

/-- `for (i = 0; i < n; i++)` over a state. -/
def forUpTo (n : Nat) (body : Nat → σ → σ) (s : σ) : σ :=
  match n with
  | 0 => s
  | n + 1 => body n (forUpTo n body s)

/-- What every round carries on to the next one. -/
theorem forUpTo_invariant (Inv : Nat → σ → Prop) {body : Nat → σ → σ} {n : Nat} {s : σ}
    (hzero : Inv 0 s) (hbody : ∀ i t, i < n → Inv i t → Inv (i + 1) (body i t)) :
    Inv n (forUpTo n body s) := by
  induction n with
  | zero => exact hzero
  | succ n ih =>
      exact hbody n _ (Nat.lt_succ_self n) (ih fun i t hi => hbody i t (Nat.lt_succ_of_lt hi))

/-- The log of a loop whose round `i` adds the entries that `hits i` says. -/
theorem mem_log_forUpTo (log : σ → List α) (hits : Nat → α → Prop) {body : Nat → σ → σ}
    (hbody : ∀ i t a, a ∈ log (body i t) ↔ hits i a ∨ a ∈ log t) (n : Nat) (s : σ) (a : α) :
    a ∈ log (forUpTo n body s) ↔ (∃ i, i < n ∧ hits i a) ∨ a ∈ log s := by
  induction n with
  | zero => simp [forUpTo]
  | succ n ih =>
      rw [forUpTo, hbody, ih, ← or_assoc]
      refine or_congr_left ?_
      constructor
      · rintro (hit | ⟨i, hi, hit⟩)
        · exact ⟨n, Nat.lt_succ_self n, hit⟩
        · exact ⟨i, Nat.lt_succ_of_lt hi, hit⟩
      · rintro ⟨i, hi, hit⟩
        rcases Nat.lt_succ_iff_lt_or_eq.mp hi with hlt | rfl
        · exact Or.inr ⟨i, hlt, hit⟩
        · exact Or.inl hit

end Longhorn.Foundations.CountedLoops
