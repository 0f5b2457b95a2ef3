import Mathlib.Algebra.Group.Int.Defs
import Mathlib.Algebra.Group.Nat.Defs
import Mathlib.Data.Int.Basic

/-!
The spin lock of `libk/synch.c` over the atomic operations of `libk/atomic.c`.
-/

namespace Longhorn.AtomicSpinLock

def lockAcqSucc : Int := 0
def lockAcqFail : Int := 2
def lockRelSucc : Int := 0
def lockRelFail : Int := 3

/-- A 32-bit `int` after an addition that wraps around. -/
def wrapInt (n : Int) : Int := n.bmod (2 ^ 32)

/-- `struct spin_lock`; the owner is a thread pointer, `none` for `NULL`. -/
structure SpinLock where
  val : Int
  owner : Option Nat
  deriving DecidableEq

/-- The old value of the memory and the new one. -/
def testAndSet (dest : Int) : Int × Int := (dest, 1)

def fetchAndAdd (dest val : Int) : Int × Int := (dest, wrapInt (dest + val))

def spinLockInit : SpinLock := ⟨0, none⟩

/-- `spin_lock_acquire` while no other thread runs.  A lock found taken stays
taken, so the busy wait does not end and there is no result. -/
def spinLockAcquire (sl : SpinLock) : Option (Int × SpinLock) :=
  if ¬ (sl.val = 0 ∨ sl.val = 1) then some (-lockAcqFail, sl)
  else if (testAndSet sl.val).1 > 0 then none
  else some (lockAcqSucc, { sl with val := (testAndSet sl.val).2 })

def spinLockRelease (sl : SpinLock) : Int × SpinLock :=
  let r := fetchAndAdd sl.val (-1)
  (if r.1 ≠ 1 then -lockRelFail else -lockRelSucc, { sl with val := r.2 })

theorem wrapInt_of_nonneg {n : Int} (h0 : 0 ≤ n) (h : n < 2 ^ 31) : wrapInt n = n := by
  simp only [wrapInt, Int.bmod_def]
  omega

theorem wrapInt_of_large {n : Int} (h0 : 2 ^ 31 ≤ n) (h : n < 2 ^ 32) :
    wrapInt n = n - 2 ^ 32 := by
  simp only [wrapInt, Int.bmod_def]
  omega

theorem spinLockAcquire_free {sl : SpinLock} (h : sl.val = 0) :
    spinLockAcquire sl = some (lockAcqSucc, { sl with val := 1 }) := by
  simp [spinLockAcquire, testAndSet, h]

theorem spinLockRelease_taken {sl : SpinLock} (h : sl.val = 1) :
    spinLockRelease sl = (0, { sl with val := 0 }) := by
  simp [spinLockRelease, fetchAndAdd, wrapInt, lockRelSucc, h]

end Longhorn.AtomicSpinLock
