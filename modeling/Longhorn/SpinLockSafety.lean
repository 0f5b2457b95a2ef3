import Longhorn.Foundations.ThreadInterleaving
import Longhorn.AtomicSpinLock

/-!
Mutual exclusion of the spin lock, for any number of threads and every order of
their steps.
-/

namespace Longhorn.SpinLockSafety

open Longhorn.Foundations.TransitionRuns
open Longhorn.Foundations.ThreadInterleaving
open Longhorn.AtomicSpinLock

/-- Where a thread is in `spin_lock_acquire`. -/
inductive AcquirePc where
  | entry
  | check (val : Int)
  | spin
  | ret (code : Int)

inductive AcquireNext : SpinLock → AcquirePc → SpinLock → AcquirePc → Prop
  | read (sl : SpinLock) : AcquireNext sl .entry sl (.check sl.val)
  | bad (sl : SpinLock) (val : Int) (h : ¬ (val = 0 ∨ val = 1)) :
      AcquireNext sl (.check val) sl (.ret (-lockAcqFail))
  | good (sl : SpinLock) (val : Int) (h : val = 0 ∨ val = 1) :
      AcquireNext sl (.check val) sl .spin
  | busy (sl : SpinLock) (h : (testAndSet sl.val).1 > 0) :
      AcquireNext sl .spin { sl with val := (testAndSet sl.val).2 } .spin
  | acquire (sl : SpinLock) (h : ¬ (testAndSet sl.val).1 > 0) :
      AcquireNext sl .spin { sl with val := (testAndSet sl.val).2 } (.ret lockAcqSucc)

/-- The call has returned with the lock. -/
def AcquirePc.Holds : AcquirePc → Prop
  | .ret code => code = lockAcqSucc
  | _ => False

/-- The value that was read and the code that is returned. -/
def AcquirePc.Fine : AcquirePc → Prop
  | .check val => val = 0 ∨ val = 1
  | .ret code => code = lockAcqSucc
  | _ => True

theorem testAndSet_pos_iff {val : Int} (h : val = 0 ∨ val = 1) :
    (testAndSet val).1 > 0 ↔ val = 1 := by
  rcases h with rfl | rfl <;> decide

/-- What a step of `spin_lock_acquire` can do: it leaves the lock word as it is, or it
takes the free lock. -/
theorem AcquireNext.cases {sl sl' : SpinLock} {p p' : AcquirePc} (h : AcquireNext sl p sl' p')
    (hval : sl.val = 0 ∨ sl.val = 1) (hp : p.Fine) :
    p'.Fine ∧ ¬ p.Holds ∧
      ((sl' = sl ∧ ¬ p'.Holds) ∨ (sl.val = 0 ∧ sl' = { sl with val := 1 } ∧ p'.Holds)) := by
  cases h with
  | read => exact ⟨hval, id, Or.inl ⟨rfl, id⟩⟩
  | bad val hbad => exact absurd hp hbad
  | good val hgood => exact ⟨trivial, id, Or.inl ⟨rfl, id⟩⟩
  | busy hbusy =>
      have hone := (testAndSet_pos_iff hval).mp hbusy
      refine ⟨trivial, id, Or.inl ⟨?_, id⟩⟩
      rw [testAndSet, ← hone]
  | acquire hfree =>
      have hzero := hval.resolve_right fun hone => hfree ((testAndSet_pos_iff hval).mpr hone)
      exact ⟨rfl, id, Or.inr ⟨hzero, rfl, rfl⟩⟩

/-- Where a thread is that acquires the lock and, after success, releases it. -/
inductive LockPc where
  | acquiring (p : AcquirePc)
  | released (code : Int)

/-- The thread is between its successful acquire and its release. -/
def LockPc.Holds : LockPc → Prop
  | .acquiring p => p.Holds
  | .released _ => False

inductive LockNext : SpinLock → LockPc → SpinLock → LockPc → Prop
  | acquire {sl sl' : SpinLock} {p p' : AcquirePc} (h : AcquireNext sl p sl' p') :
      LockNext sl (.acquiring p) sl' (.acquiring p')
  | giveUp (sl : SpinLock) (code : Int) (h : code ≠ lockAcqSucc) :
      LockNext sl (.acquiring (.ret code)) sl (.acquiring .entry)
  | release (sl : SpinLock) (code : Int) (h : code = lockAcqSucc) :
      LockNext sl (.acquiring (.ret code)) (spinLockRelease sl).2
        (.released (spinLockRelease sl).1)
  | again (sl : SpinLock) (code : Int) : LockNext sl (.released code) sl (.acquiring .entry)

section MutualExclusion

universe u

variable {ι : Type u} [DecidableEq ι]

abbrev LockState (ι : Type u) := Threads ι SpinLock LockPc

abbrev LockStep : LockState ι → ι → LockState ι → Prop :=
  ThreadStep id fun _ => LockNext

def lockInit : LockState ι := ⟨spinLockInit, fun _ => .acquiring .entry⟩

/-- The steps of a thread that nobody interrupts are those of `spinLockAcquire`. -/
theorem run_of_spinLockAcquire {s : LockState ι} {i : ι} {code : Int} {sl : SpinLock}
    (hpc : s.pc i = .acquiring .entry) (h : spinLockAcquire s.mem = some (code, sl)) :
    ∃ is, Run LockStep s is (s.move i sl (.acquiring (.ret code))) := by
  have hread : LockStep s i (s.move i s.mem (.acquiring (.check s.mem.val))) :=
    .step (by rw [id, hpc]; exact .acquire (.read _))
  rw [spinLockAcquire] at h
  split_ifs at h with hgood hbusy
  · rw [Option.some.injEq, Prod.mk.injEq] at h
    obtain ⟨rfl, rfl⟩ := h
    refine ⟨[i, i, i], .cons hread (.cons (.again (.acquire (.good _ _ hgood))) ?_)⟩
    exact .single (.again (.acquire (.acquire _ hbusy)))
  · rw [Option.some.injEq, Prod.mk.injEq] at h
    obtain ⟨rfl, rfl⟩ := h
    exact ⟨[i, i], .cons hread (.single (.again (.acquire (.bad _ _ hgood))))⟩

/-- The codes the calls have returned are those of success. -/
def LockPc.Fine : LockPc → Prop
  | .acquiring p => p.Fine
  | .released code => code = -lockRelSucc

structure LockInv (s : LockState ι) : Prop where
  val : s.mem.val = 0 ∨ s.mem.val = 1
  exclusive : Exclusive (fun sl : SpinLock => sl.val = 1) LockPc.Holds s
  fine : ∀ i, (s.pc i).Fine

omit [DecidableEq ι] in
theorem LockInv.init : LockInv (lockInit : LockState ι) := by
  constructor
  · exact Or.inl rfl
  · constructor
    · intro i j hi _
      exact hi.elim
    · exact iff_of_false (by simp [lockInit, spinLockInit]) fun ⟨_, hi⟩ => hi
  · intro i
    trivial

theorem LockInv.next {s : LockState ι} {i : ι} {sl sl' : SpinLock} {p p' : LockPc}
    (h : LockInv s) (hmem : s.mem = sl) (hpc : s.pc i = p) (hnext : LockNext sl p sl' p') :
    LockInv (s.move i sl' p') := by
  have hfine : ∀ {p : LockPc} (m : SpinLock), p.Fine → ∀ j, ((s.move i m p).pc j).Fine :=
    fun _ hp => Threads.forall_move (P := fun _ => LockPc.Fine) hp fun j _ => h.fine j
  have hi : p.Fine := hpc ▸ h.fine i
  have hval : sl.val = 0 ∨ sl.val = 1 := hmem ▸ h.val
  cases hnext with
  | acquire hacq =>
      obtain ⟨hp', hnot, ⟨rfl, hnot'⟩ | ⟨hfree, rfl, hholds⟩⟩ := hacq.cases hval hi
      · refine ⟨hval, h.exclusive.keep (by rw [hmem]) ?_, hfine _ hp'⟩
        rw [hpc]
        exact iff_of_false hnot' hnot
      · refine ⟨Or.inr rfl, h.exclusive.acquire ?_ rfl hholds, hfine _ hp'⟩
        rw [hmem, hfree]
        decide
  | giveUp code hcode => exact absurd hi hcode
  | release code hcode =>
      have hholds : (s.pc i).Holds := by
        rw [hpc]
        exact hcode
      have htaken : sl.val = 1 := hmem ▸ h.exclusive.taken_iff.mpr ⟨i, hholds⟩
      rw [spinLockRelease_taken htaken]
      refine ⟨Or.inl rfl, ?_, hfine _ rfl⟩
      exact h.exclusive.release hholds (by simp) id
  | again code =>
      refine ⟨hval, h.exclusive.keep (by rw [hmem]) ?_, hfine _ trivial⟩
      rw [hpc]
      exact Iff.rfl

theorem LockInv.step {s t : LockState ι} {i : ι} (h : LockInv s) (hstep : LockStep s i t) :
    LockInv t := by
  cases hstep with
  | step hnext => exact h.next rfl rfl hnext

/-- The lock word is 1 exactly while one thread holds the lock, and no call fails. -/
theorem spin_lock_exclusive {is : List ι} {s : LockState ι} (h : Run LockStep lockInit is s) :
    (s.mem.val = 0 ∨ s.mem.val = 1) ∧
      (s.mem.val = 1 ↔ ∃! i, (s.pc i).Holds) ∧
      (∀ i j, (s.pc i).Holds → (s.pc j).Holds → i = j) ∧
      ∀ i, s.pc i ≠ .acquiring (.ret (-lockAcqFail)) ∧ s.pc i ≠ .released (-lockRelFail) := by
  have hinv : LockInv s := h.invariant LockInv (fun _ _ _ hs hstep => hs.step hstep) .init
  refine ⟨hinv.val, ?_, hinv.exclusive.unique, ?_⟩
  · rw [hinv.exclusive.taken_iff]
    constructor
    · rintro ⟨i, hi⟩
      exact ⟨i, hi, fun j hj => hinv.exclusive.unique j i hj hi⟩
    · rintro ⟨i, hi, _⟩
      exact ⟨i, hi⟩
  · intro i
    have hi := hinv.fine i
    constructor
    · intro heq
      rw [heq, LockPc.Fine, AcquirePc.Fine] at hi
      exact absurd hi (by decide)
    · intro heq
      rw [heq, LockPc.Fine] at hi
      exact absurd hi (by decide)

/-- Thread 1 takes the lock that both threads have read as free. -/
theorem spin_lock_exclusive_two :
    ∃ s : LockState Nat, (s.mem.val = 1 ↔ ∃! i, (s.pc i).Holds) ∧ (s.pc 1).Holds := by
  have hrun : Run LockStep (lockInit : LockState Nat) [0, 1, 1, 1] _ :=
    .cons (.step (.acquire (.read _))) <| .cons (.step (.acquire (.read _))) <|
      .cons (.step (.acquire (.good _ _ (Or.inl rfl)))) <|
        .single (.step (.acquire (.acquire _ (by decide))))
  exact ⟨_, (spin_lock_exclusive hrun).2.1, rfl⟩

end MutualExclusion

end Longhorn.SpinLockSafety
