import Mathlib.Data.List.Basic
import Mathlib.Algebra.GroupWithZero.Nat
import Mathlib.Algebra.BigOperators.Group.List.Basic

/-!
The transmitting half of a serial controller of the 16550 kind: bytes wait in a queue until
they leave on the line, at times that only the device decides.
-/

namespace Longhorn.Foundations.Uart16550

/-- What the device does on its own: how many bytes leave before an access to its ports, and
what else its line status shows then. -/
structure Timing where
  leave : Nat → Nat
  other : Nat → BitVec 8

/-- `lost` has the bytes that were written to a full queue, `accesses` counts the accesses. -/
structure Uart where
  queue : List (BitVec 8)
  line : List (BitVec 8)
  lost : List (BitVec 8)
  accesses : Nat

/-- The bit of the line status that shows an empty queue. -/
def holdingEmpty : BitVec 8 := 0x20

namespace Uart

variable (t : Timing) (depth : Nat)

def advance (u : Uart) : Uart :=
  { u with
    queue := u.queue.drop (t.leave u.accesses)
    line := u.line ++ u.queue.take (t.leave u.accesses)
    accesses := u.accesses + 1 }

def readStatus (u : Uart) : BitVec 8 × Uart :=
  let flag := if (u.advance t).queue = [] then holdingEmpty else 0
  ((t.other u.accesses &&& ~~~holdingEmpty) ||| flag, u.advance t)

/-- A byte is written to a queue of `depth` places. -/
def writeData (b : BitVec 8) (u : Uart) : Uart :=
  let v := u.advance t
  if v.queue.length < depth then { v with queue := v.queue ++ [b] }
  else { v with lost := v.lost ++ [b] }

/-- The bytes that the device has taken, in order. -/
def taken (u : Uart) : List (BitVec 8) := u.line ++ u.queue

end Uart

/-- How many bytes can leave at `n` accesses from the access `a` on. -/
def Timing.leaves (t : Timing) (a n : Nat) : Nat :=
  ((List.range n).map fun i => t.leave (a + i)).sum

theorem Timing.leaves_succ (t : Timing) (a n : Nat) :
    t.leaves a (n + 1) = t.leave a + t.leaves (a + 1) n := by
  rw [leaves, List.range_succ_eq_map, List.map_cons, List.sum_cons, List.map_map]
  refine congrArg (t.leave a + ·) (congrArg List.sum (List.map_congr_left fun i _ => ?_))
  exact congrArg t.leave (show a + (i + 1) = a + 1 + i by omega)

namespace Uart

variable {t : Timing} {depth : Nat} {u : Uart}

@[simp] theorem taken_advance : (u.advance t).taken = u.taken := by
  rw [taken, advance, List.append_assoc, List.take_append_drop, taken]

@[simp] theorem lost_advance : (u.advance t).lost = u.lost := rfl

@[simp] theorem accesses_advance : (u.advance t).accesses = u.accesses + 1 := rfl

theorem length_queue_advance :
    (u.advance t).queue.length = u.queue.length - t.leave u.accesses :=
  List.length_drop

/-- The bit shows whether the queue is empty, whatever the other bits are. -/
theorem readStatus_ready_iff :
    (u.readStatus t).1 &&& holdingEmpty ≠ 0 ↔ (u.advance t).queue = [] := by
  by_cases hempty : (u.advance t).queue = []
  · simp only [readStatus, hempty, if_true, iff_true, ne_eq, BitVec.and_or_distrib_right]
    rw [BitVec.and_assoc, show ~~~holdingEmpty &&& holdingEmpty = 0#8 by decide, BitVec.and_zero]
    decide
  · simp only [readStatus, hempty, if_false, iff_false, not_not, BitVec.or_zero,
      BitVec.ofNat_eq_ofNat]
    rw [BitVec.and_assoc, show ~~~holdingEmpty &&& holdingEmpty = 0#8 by decide, BitVec.and_zero]

/-- A queue that is found empty stays so, and takes the byte. -/
theorem writeData_of_empty (hdepth : 0 < depth) (b : BitVec 8) (hempty : u.queue = []) :
    u.writeData t depth b = { u with queue := [b], accesses := u.accesses + 1 } := by
  have hadvance : u.advance t = { u with queue := [], accesses := u.accesses + 1 } := by
    rw [advance, hempty, List.drop_nil, List.take_nil, List.append_nil]
  rw [writeData, hadvance]
  exact if_pos hdepth

end Uart

end Longhorn.Foundations.Uart16550
