import Mathlib.Logic.Function.Basic
import Longhorn.Foundations.TransitionRuns

/-!
Threads over shared memory: one thread at a time takes a step, and a lock that at
most one of them holds.
-/

namespace Longhorn.Foundations.ThreadInterleaving

open Longhorn.Foundations.TransitionRuns

universe u v w x

/-- The shared memory and the place of each thread in its own code. -/
structure Threads (ι : Type u) (μ : Type v) (π : Type w) where
  mem : μ
  pc : ι → π

section Interleaving

variable {ι : Type u} {μ : Type v} {π : Type w} {ε : Type x} [DecidableEq ι]

def Threads.move (s : Threads ι μ π) (i : ι) (m : μ) (p : π) : Threads ι μ π :=
  ⟨m, Function.update s.pc i p⟩

/-- The thread of the label `e` takes a step of its code. -/
inductive ThreadStep (thread : ε → ι) (next : ε → μ → π → μ → π → Prop) :
    Threads ι μ π → ε → Threads ι μ π → Prop
  | step {s : Threads ι μ π} {e : ε} {m : μ} {p : π}
      (h : next e s.mem (s.pc (thread e)) m p) :
      ThreadStep thread next s e (s.move (thread e) m p)

/-- At most one thread holds the lock, and the lock is taken when one does. -/
structure Exclusive (taken : μ → Prop) (holds : π → Prop) (s : Threads ι μ π) : Prop where
  unique : ∀ i j, holds (s.pc i) → holds (s.pc j) → i = j
  taken_iff : taken s.mem ↔ ∃ i, holds (s.pc i)

variable {taken : μ → Prop} {holds : π → Prop} {s : Threads ι μ π} {i : ι} {m : μ} {p : π}

@[simp] theorem Threads.mem_move : (s.move i m p).mem = m := rfl

@[simp] theorem Threads.pc_move_self : (s.move i m p).pc i = p :=
  Function.update_self _ _ _

theorem Threads.pc_move_of_ne {j : ι} (h : j ≠ i) : (s.move i m p).pc j = s.pc j :=
  Function.update_of_ne h _ _

@[simp] theorem Threads.move_move {m' : μ} {p' : π} :
    (s.move i m p).move i m' p' = s.move i m' p' := by
  simp only [Threads.move, Function.update_idem]

/-- A step of a thread behind other steps of the same thread. -/
theorem ThreadStep.again {thread : ε → ι} {next : ε → μ → π → μ → π → Prop} {e : ε} {m' : μ}
    {p' : π} (h : next e m p m' p') :
    ThreadStep thread next (s.move (thread e) m p) e (s.move (thread e) m' p') := by
  have hpc : next e (s.move (thread e) m p).mem ((s.move (thread e) m p).pc (thread e)) m' p' := by
    rwa [Threads.pc_move_self]
  have hstep := ThreadStep.step hpc
  rwa [Threads.move_move] at hstep

/-- What holds of a moved thread and of the others holds of all. -/
theorem Threads.forall_move {P : ι → π → Prop} (hi : P i p)
    (hothers : ∀ j, j ≠ i → P j (s.pc j)) (j : ι) : P j ((s.move i m p).pc j) := by
  rcases eq_or_ne j i with rfl | hne
  · rwa [Threads.pc_move_self]
  · rw [Threads.pc_move_of_ne hne]
    exact hothers j hne

omit [DecidableEq ι] in
theorem Exclusive.not_taken_iff (h : Exclusive taken holds s) :
    ¬ taken s.mem ↔ ∀ i, ¬ holds (s.pc i) := by
  rw [h.taken_iff, not_exists]

/-- A step that neither takes nor gives back the lock. -/
theorem Exclusive.keep (h : Exclusive taken holds s) (hmem : taken m ↔ taken s.mem)
    (hpc : holds p ↔ holds (s.pc i)) : Exclusive taken holds (s.move i m p) := by
  have hsame : ∀ j, holds ((s.move i m p).pc j) ↔ holds (s.pc j) := by
    intro j
    rcases eq_or_ne j i with rfl | hne
    · rw [Threads.pc_move_self, hpc]
    · rw [Threads.pc_move_of_ne hne]
  constructor
  · intro j k hj hk
    exact h.unique j k ((hsame j).mp hj) ((hsame k).mp hk)
  · rw [Threads.mem_move, hmem, h.taken_iff]
    exact exists_congr fun j => (hsame j).symm

/-- A free lock is taken by one thread. -/
theorem Exclusive.acquire (h : Exclusive taken holds s) (hfree : ¬ taken s.mem)
    (hmem : taken m) (hpc : holds p) : Exclusive taken holds (s.move i m p) := by
  have honly : ∀ j, holds ((s.move i m p).pc j) → j = i := by
    intro j hj
    by_contra hne
    rw [Threads.pc_move_of_ne hne] at hj
    exact h.not_taken_iff.mp hfree j hj
  constructor
  · intro j k hj hk
    rw [honly j hj, honly k hk]
  · refine iff_of_true hmem ⟨i, ?_⟩
    rwa [Threads.pc_move_self]

/-- The holder gives the lock back. -/
theorem Exclusive.release (h : Exclusive taken holds s) (hold : holds (s.pc i))
    (hmem : ¬ taken m) (hpc : ¬ holds p) : Exclusive taken holds (s.move i m p) := by
  have hnone : ∀ j, ¬ holds ((s.move i m p).pc j) := by
    intro j hj
    rcases eq_or_ne j i with rfl | hne
    · rw [Threads.pc_move_self] at hj
      exact hpc hj
    · rw [Threads.pc_move_of_ne hne] at hj
      exact hne (h.unique j i hj hold)
  constructor
  · intro j k hj _
    exact absurd hj (hnone j)
  · exact iff_of_false hmem fun ⟨j, hj⟩ => hnone j hj

/-- The calls that have left the lock, in `order`, lead from `m0` to the memory that is
there while the lock is free.  What the holder does in the rest of its call completes a
call behind them. -/
structure Serialized (serial : μ → ε → μ → Prop) (holds : π → Prop) (rest : ι → π → μ → ε × μ)
    (m0 : μ) (order : List ε) (s : Threads ι μ π) : Prop where
  free : (∀ i, ¬ holds (s.pc i)) → Run serial m0 order s.mem
  busy : ∀ i, holds (s.pc i) →
    ∃ m, Run serial m0 order m ∧ serial m (rest i (s.pc i) s.mem).1 (rest i (s.pc i) s.mem).2

variable {serial : μ → ε → μ → Prop} {rest : ι → π → μ → ε × μ} {m0 : μ} {order : List ε}

omit [DecidableEq ι] in
theorem Serialized.init (hpc : ∀ i, ¬ holds (s.pc i)) :
    Serialized serial holds rest s.mem [] s :=
  ⟨fun _ => .nil _, fun i hi => absurd hi (hpc i)⟩

/-- A thread outside of the lock that leaves the memory alone. -/
theorem Serialized.keep (h : Serialized serial holds rest m0 order s) (hi : ¬ holds (s.pc i))
    (hp : ¬ holds p) : Serialized serial holds rest m0 order (s.move i s.mem p) := by
  constructor
  · intro hfree
    apply h.free
    intro j
    rcases eq_or_ne j i with rfl | hne
    · exact hi
    · rw [← Threads.pc_move_of_ne hne]
      exact hfree j
  · intro j hj
    rcases eq_or_ne j i with rfl | hne
    · rw [Threads.pc_move_self] at hj
      exact absurd hj hp
    · rw [Threads.pc_move_of_ne hne] at hj ⊢
      exact h.busy j hj

/-- Thread `i` holds the lock after the step, and nobody else does. -/
theorem Serialized.held (hp : holds p) (hothers : ∀ j, j ≠ i → ¬ holds (s.pc j))
    (hcall : ∃ m1, Run serial m0 order m1 ∧ serial m1 (rest i p m).1 (rest i p m).2) :
    Serialized serial holds rest m0 order (s.move i m p) := by
  constructor
  · intro hnone
    have hi := hnone i
    rw [Threads.pc_move_self] at hi
    exact absurd hp hi
  · intro j hj
    rcases eq_or_ne j i with rfl | hne
    · rw [Threads.pc_move_self, Threads.mem_move]
      exact hcall
    · rw [Threads.pc_move_of_ne hne] at hj
      exact absurd hj (hothers j hne)

theorem Serialized.acquire (h : Serialized serial holds rest m0 order s)
    (hfree : ∀ i, ¬ holds (s.pc i)) (hp : holds p)
    (hcall : serial s.mem (rest i p m).1 (rest i p m).2) :
    Serialized serial holds rest m0 order (s.move i m p) :=
  .held hp (fun j _ => hfree j) ⟨s.mem, h.free hfree, hcall⟩

/-- The holder takes a step of its call. -/
theorem Serialized.inside (h : Serialized serial holds rest m0 order s)
    (hlock : Exclusive taken holds s) (hi : holds (s.pc i)) (hp : holds p)
    (hrest : rest i p m = rest i (s.pc i) s.mem) :
    Serialized serial holds rest m0 order (s.move i m p) := by
  refine .held hp (fun j hne hj => hne (hlock.unique j i hj hi)) ?_
  rw [hrest]
  exact h.busy i hi

theorem Serialized.release (h : Serialized serial holds rest m0 order s)
    (hlock : Exclusive taken holds s) (hi : holds (s.pc i)) (hp : ¬ holds p)
    (hrest : (rest i (s.pc i) s.mem).2 = m) :
    Serialized serial holds rest m0 (order ++ [(rest i (s.pc i) s.mem).1]) (s.move i m p) := by
  constructor
  · intro _
    obtain ⟨m1, hrun, hcall⟩ := h.busy i hi
    rw [hrest] at hcall
    exact hrun.append (.single hcall)
  · intro j hj
    rcases eq_or_ne j i with rfl | hne
    · rw [Threads.pc_move_self] at hj
      exact absurd hj hp
    · rw [Threads.pc_move_of_ne hne] at hj
      exact absurd (hlock.unique j i hj hi) hne

end Interleaving

end Longhorn.Foundations.ThreadInterleaving
