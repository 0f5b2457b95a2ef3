import Mathlib.Data.List.Basic

/-!
Finite runs of a labelled transition relation and the induction rules for them.
-/

namespace Longhorn.Foundations.TransitionRuns

universe u v

variable {σ : Type u} {ε : Type v}

/-- A finite run of a labelled transition relation, with its labels in order. -/
inductive Run (step : σ → ε → σ → Prop) : σ → List ε → σ → Prop
  | nil (s : σ) : Run step s [] s
  | cons {s t u : σ} {e : ε} {es : List ε} :
      step s e t → Run step t es u → Run step s (e :: es) u

/-- The steps of `step` that are taken from states satisfying the guard. -/
def Guarded (step : σ → ε → σ → Prop) (guard : σ → ε → Prop) (s : σ) (e : ε) (t : σ) : Prop :=
  guard s e ∧ step s e t

theorem Run.single {step : σ → ε → σ → Prop} {s t : σ} {e : ε} (h : step s e t) :
    Run step s [e] t :=
  .cons h (.nil t)

theorem Run.append {step : σ → ε → σ → Prop} {s t u : σ} {es fs : List ε}
    (hst : Run step s es t) (htu : Run step t fs u) : Run step s (es ++ fs) u := by
  induction hst with
  | nil s => exact htu
  | cons hstep _ ih => exact .cons hstep (ih htu)

theorem Run.split {step : σ → ε → σ → Prop} {s u : σ} {es fs : List ε}
    (h : Run step s (es ++ fs) u) : ∃ t, Run step s es t ∧ Run step t fs u := by
  induction es generalizing s with
  | nil => exact ⟨s, .nil s, h⟩
  | cons e es ih =>
      obtain _ | ⟨hfirst, hrest⟩ := h
      obtain ⟨t, hst, htu⟩ := ih hrest
      exact ⟨t, .cons hfirst hst, htu⟩

theorem Run.mono {step step' : σ → ε → σ → Prop}
    (hstep : ∀ s e t, step s e t → step' s e t) {s t : σ} {es : List ε}
    (hrun : Run step s es t) : Run step' s es t := by
  induction hrun with
  | nil s => exact .nil s
  | cons h _ ih => exact .cons (hstep _ _ _ h) ih

/-- What every step preserves, every run preserves. -/
theorem Run.invariant {step : σ → ε → σ → Prop} (Inv : σ → Prop)
    (hstep : ∀ s e t, Inv s → step s e t → Inv t) {s t : σ} {es : List ε}
    (hrun : Run step s es t) (hs : Inv s) : Inv t := by
  induction hrun with
  | nil s => exact hs
  | cons h _ ih => exact ih (hstep _ _ _ hs h)

/-- What every step preserves together with the labels so far. -/
theorem Run.trace_invariant {step : σ → ε → σ → Prop} (Inv : List ε → σ → Prop)
    (hstep : ∀ es s e t, Inv es s → step s e t → Inv (es ++ [e]) t) {s t : σ} {es fs : List ε}
    (hrun : Run step s es t) (hs : Inv fs s) : Inv (fs ++ es) t := by
  induction hrun generalizing fs with
  | nil s => rwa [List.append_nil]
  | @cons s t u e es hfirst _ ih =>
      rw [List.append_cons]
      exact ih (hstep _ _ _ _ hs hfirst)

theorem Run.of_guarded {step : σ → ε → σ → Prop} {guard : σ → ε → Prop} {s t : σ}
    {es : List ε} (hrun : Run (Guarded step guard) s es t) : Run step s es t :=
  hrun.mono fun _ _ _ h => h.2

end Longhorn.Foundations.TransitionRuns
