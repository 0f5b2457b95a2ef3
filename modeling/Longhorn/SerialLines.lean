import Mathlib.Algebra.Order.Group.Nat
import Mathlib.Algebra.Order.BigOperators.Group.List
import Longhorn.Foundations.Uart16550

/-!
Output on the serial line: the driver polls the controller before every byte, and gives a
byte up after some tries.
-/

namespace Longhorn.SerialLines

open Longhorn.Foundations.Uart16550

/-- `SERIAL_TIMEOUT`. -/
def serialTimeout : Nat := 50000

section Model

variable (t : Timing) (depth : Nat)

def serialTransmitEmpty (u : Uart) : Bool × Uart :=
  let r := u.readStatus t
  (r.1 &&& 0x20 ≠ 0, r.2)

def serialSend (byte : BitVec 8) (u : Uart) : Int × Uart :=
  match serialTransmitEmpty t u with
  | (false, u) => (-1, u)
  | (true, u) => (0, u.writeData t depth byte)

/-- The loop of `serial_putc`, with the tries that are left. -/
def serialPutcLoop (c : Int8) : Nat → Int × Uart → Int × Uart
  | 0, r => r
  | tries + 1, (ret, u) =>
      if ret = -1 then serialPutcLoop c tries (serialSend t depth c.toBitVec u) else (ret, u)

def serialPutc (c : Int8) (u : Uart) : Uart :=
  (serialPutcLoop t depth c serialTimeout (serialSend t depth c.toBitVec u)).2

def serialPuts (s : List Int8) (u : Uart) : Uart :=
  (s.takeWhile (· ≠ 0)).foldl (fun u c => serialPutc t depth c u) u

def serialClear (u : Uart) : Uart :=
  serialPuts t depth [27, 91, 50, 74, 27, 91, 72, 0] u

/-- The functions that send. -/
inductive SerialCall where
  | send (byte : BitVec 8)
  | putc (c : Int8)
  | puts (s : List Int8)
  | clear

def SerialCall.exec (u : Uart) : SerialCall → Uart
  | .send byte => (serialSend t depth byte u).2
  | .putc c => serialPutc t depth c u
  | .puts s => serialPuts t depth s u
  | .clear => serialClear t depth u

end Model

/-- What a call is to send. -/
def SerialCall.text : SerialCall → List (BitVec 8)
  | .send byte => [byte]
  | .putc c => [c.toBitVec]
  | .puts s => (s.takeWhile (· ≠ 0)).map Int8.toBitVec
  | .clear => [27, 91, 50, 74, 27, 91, 72]

section Calls

variable {t : Timing} {depth : Nat} {u v : Uart} {c : Int8}

/-- `serial_send` writes to an empty queue only. -/
theorem serialSend_of_empty (hdepth : 0 < depth) (byte : BitVec 8)
    (hempty : (u.advance t).queue = []) :
    serialSend t depth byte u =
      (0, { u.advance t with queue := [byte], accesses := u.accesses + 2 }) := by
  have hready : serialTransmitEmpty t u = (true, u.advance t) :=
    Prod.ext (decide_eq_true (Uart.readStatus_ready_iff.mpr hempty)) rfl
  rw [serialSend, hready]
  exact congrArg (Prod.mk 0) (Uart.writeData_of_empty hdepth byte hempty)

theorem serialSend_of_busy (byte : BitVec 8) (hbusy : (u.advance t).queue ≠ []) :
    serialSend t depth byte u = (-1, u.advance t) := by
  have hnot : serialTransmitEmpty t u = (false, u.advance t) :=
    Prod.ext (decide_eq_false (Uart.readStatus_ready_iff.not.mpr hbusy)) rfl
  rw [serialSend, hnot]

/-- What a byte that is offered at most `polls` times does to the device: it is taken when the
queue gets empty in that time, and otherwise nothing is written. -/
structure Offered (t : Timing) (u : Uart) (byte : BitVec 8) (polls : Nat) (v : Uart) : Prop where
  lost : v.lost = u.lost
  short : u.queue.length ≤ 1 → v.queue.length ≤ 1
  sent : u.queue.length ≤ t.leaves u.accesses polls → v.taken = u.taken ++ [byte]
  kept : t.leaves u.accesses polls < u.queue.length → v.taken = u.taken
  accesses : v.accesses ≤ u.accesses + polls + 1

theorem queue_advance_iff : (u.advance t).queue = [] ↔ u.queue.length ≤ t.leave u.accesses := by
  rw [← List.length_eq_zero_iff, Uart.length_queue_advance, Nat.sub_eq_zero_iff_le]

theorem offered_of_empty (byte : BitVec 8) (polls : Nat) (hempty : (u.advance t).queue = []) :
    Offered t u byte (polls + 1)
      { u.advance t with queue := [byte], accesses := u.accesses + 2 } := by
  have hleave := queue_advance_iff.mp hempty
  have htaken : (u.advance t).line = u.taken := by
    rw [← Uart.taken_advance (t := t), Uart.taken, hempty, List.append_nil]
  refine ⟨rfl, fun _ => le_rfl, fun _ => congrArg (· ++ [byte]) htaken, fun hlt => ?_, ?_⟩
  · rw [Timing.leaves_succ] at hlt
    omega
  · simp only
    omega

theorem Offered.of_advance {byte : BitVec 8} {polls : Nat}
    (h : Offered t (u.advance t) byte polls v) : Offered t u byte (polls + 1) v := by
  have hlen := Uart.length_queue_advance (t := t) (u := u)
  have hsucc := t.leaves_succ u.accesses polls
  obtain ⟨hlost, hshort, hsent, hkept, haccesses⟩ := h
  rw [Uart.accesses_advance, hlen] at hsent hkept
  rw [Uart.accesses_advance] at haccesses
  rw [Uart.taken_advance] at hsent hkept
  exact ⟨hlost, fun hle => hshort (by omega), fun hle => hsent (by omega),
    fun hlt => hkept (by omega), by omega⟩

theorem offered_serialSend (hdepth : 0 < depth) (byte : BitVec 8) :
    Offered t u byte 1 (serialSend t depth byte u).2 := by
  by_cases hempty : (u.advance t).queue = []
  · rw [serialSend_of_empty hdepth byte hempty]
    exact offered_of_empty byte 0 hempty
  · rw [serialSend_of_busy byte hempty]
    refine Offered.of_advance ⟨rfl, id, fun hle => ?_, fun _ => rfl, Nat.le_succ _⟩
    exact absurd (List.length_eq_zero_iff.mp (Nat.le_zero.mp hle)) hempty

theorem serialPutcLoop_zero (tries : Nat) :
    serialPutcLoop t depth c tries (0, u) = (0, u) := by
  cases tries <;> rfl

/-- Every try but the last one that fails is followed by another one. -/
theorem offered_serialPutcLoop (hdepth : 0 < depth) (tries : Nat) :
    Offered t u c.toBitVec (tries + 1)
      (serialPutcLoop t depth c tries (serialSend t depth c.toBitVec u)).2 := by
  induction tries generalizing u with
  | zero => exact offered_serialSend hdepth c.toBitVec
  | succ tries ih =>
      by_cases hempty : (u.advance t).queue = []
      · rw [serialSend_of_empty hdepth _ hempty, serialPutcLoop_zero]
        exact offered_of_empty _ _ hempty
      · rw [serialSend_of_busy _ hempty]
        exact ih.of_advance

theorem offered_serialPutc (hdepth : 0 < depth) :
    Offered t u c.toBitVec (serialTimeout + 1) (serialPutc t depth c u) :=
  offered_serialPutcLoop hdepth serialTimeout

end Calls

section Runs

variable {t : Timing} {depth : Nat} {u v : Uart}

/-- From `u` to `v` the device has taken a part of `text`, in order, and nothing was overrun. -/
structure Sent (u : Uart) (text : List (BitVec 8)) (v : Uart) : Prop where
  lost : v.lost = u.lost
  taken : ∃ sent, sent.Sublist text ∧ v.taken = u.taken ++ sent
  accesses : v.accesses ≤ u.accesses + (serialTimeout + 2) * text.length

theorem Sent.refl (u : Uart) : Sent u [] u :=
  ⟨rfl, ⟨[], .slnil, (List.append_nil _).symm⟩, le_rfl⟩

theorem Sent.append {w : Uart} {text more : List (BitVec 8)} (h : Sent u text v)
    (h' : Sent v more w) : Sent u (text ++ more) w := by
  obtain ⟨sent, hsub, htaken⟩ := h.taken
  obtain ⟨sent', hsub', htaken'⟩ := h'.taken
  refine ⟨h'.lost.trans h.lost, ⟨sent ++ sent', hsub.append hsub', ?_⟩, ?_⟩
  · rw [htaken', htaken, List.append_assoc]
  · have haccesses := h.accesses
    have haccesses' := h'.accesses
    rw [List.length_append, Nat.mul_add]
    omega

theorem Offered.toSent {byte : BitVec 8} {polls : Nat} (h : Offered t u byte polls v)
    (hpolls : polls ≤ serialTimeout + 1) : Sent u [byte] v := by
  refine ⟨h.lost, ?_, ?_⟩
  · rcases Nat.lt_or_ge (t.leaves u.accesses polls) u.queue.length with hlt | hle
    · exact ⟨[], List.nil_sublist _, (h.kept hlt).trans (List.append_nil _).symm⟩
    · exact ⟨[byte], .refl _, h.sent hle⟩
  · have haccesses := h.accesses
    rw [List.length_singleton, Nat.mul_one]
    omega

theorem sent_foldl (hdepth : 0 < depth) (s : List Int8) :
    Sent u (s.map Int8.toBitVec) (s.foldl (fun u c => serialPutc t depth c u) u) := by
  induction s generalizing u with
  | nil => exact .refl u
  | cons c s ih => exact ((offered_serialPutc hdepth).toSent le_rfl).append ih

theorem sent_exec (hdepth : 0 < depth) (call : SerialCall) :
    Sent u call.text (call.exec t depth u) := by
  cases call with
  | send byte => exact (offered_serialSend hdepth byte).toSent (by decide)
  | putc c => exact (offered_serialPutc hdepth).toSent le_rfl
  | puts s => exact sent_foldl hdepth _
  | clear => exact sent_foldl hdepth [27, 91, 50, 74, 27, 91, 72]

/-- Whatever the timing of the device, the calls never write to a full queue.  The line gets a
part of what they were to send, in order and each byte once, and no call waits for ever. -/
theorem serial_in_order (hdepth : 0 < depth) (u : Uart) (calls : List SerialCall) :
    let v := calls.foldl (SerialCall.exec t depth) u
    v.lost = u.lost ∧
      (∃ sent, sent.Sublist (calls.flatMap SerialCall.text) ∧
        v.line ++ v.queue = u.line ++ u.queue ++ sent) ∧
      v.accesses ≤
        u.accesses + (serialTimeout + 2) * (calls.flatMap SerialCall.text).length := by
  have hsent : Sent u (calls.flatMap SerialCall.text)
      (calls.foldl (SerialCall.exec t depth) u) := by
    induction calls generalizing u with
    | nil => exact .refl u
    | cons call calls ih =>
        rw [List.flatMap_cons, List.foldl_cons]
        exact (sent_exec hdepth call).append (ih _)
  exact ⟨hsent.lost, hsent.taken, hsent.accesses⟩

theorem serial_in_order_stuck : ∃ v : Uart, v.lost = [] ∧
    (∃ sent, sent.Sublist [27, 91, 50, 74, 27, 91, 72, 33] ∧ v.line ++ v.queue = sent) ∧
      v.accesses ≤ 50002 * 8 := by
  obtain ⟨hlost, htaken, haccesses⟩ := serial_in_order (t := ⟨fun _ => 0, fun _ => 0⟩)
    (show 0 < 16 by decide) ⟨[], [], [], 0⟩ [.clear, .putc 33]
  exact ⟨_, hlost, htaken, haccesses.trans_eq (Nat.zero_add _)⟩

end Runs

section Whole

variable {t : Timing} {depth : Nat} {u v : Uart}

/-- A byte leaves during every wait of `serial_putc`. -/
def InTime (t : Timing) : Prop := ∀ a, 0 < t.leaves a (serialTimeout + 1)

/-- From `u` to `v` the device has taken the whole of `text`. -/
structure SentAll (u : Uart) (text : List (BitVec 8)) (v : Uart) : Prop where
  short : v.queue.length ≤ 1
  taken : v.taken = u.taken ++ text

theorem SentAll.append {w : Uart} {text more : List (BitVec 8)} (h : SentAll u text v)
    (h' : SentAll v more w) : SentAll u (text ++ more) w :=
  ⟨h'.short, by rw [h'.taken, h.taken, List.append_assoc]⟩

theorem sentAll_serialPutc (hdepth : 0 < depth) (htime : InTime t) (hshort : u.queue.length ≤ 1)
    (c : Int8) : SentAll u [c.toBitVec] (serialPutc t depth c u) := by
  have hoffered := offered_serialPutc (t := t) (u := u) (c := c) hdepth
  exact ⟨hoffered.short hshort, hoffered.sent (hshort.trans (htime u.accesses))⟩

theorem sentAll_foldl (hdepth : 0 < depth) (htime : InTime t) (hshort : u.queue.length ≤ 1)
    (s : List Int8) :
    SentAll u (s.map Int8.toBitVec) (s.foldl (fun u c => serialPutc t depth c u) u) := by
  induction s generalizing u with
  | nil => exact ⟨hshort, (List.append_nil _).symm⟩
  | cons c s ih =>
      have hfirst := sentAll_serialPutc hdepth htime hshort c
      exact hfirst.append (ih hfirst.short)

/-- The calls that wait for the device. -/
def SerialCall.Waits : SerialCall → Prop
  | .send _ => False
  | _ => True

theorem sentAll_exec (hdepth : 0 < depth) (htime : InTime t) (hshort : u.queue.length ≤ 1)
    {call : SerialCall} (hcall : call.Waits) : SentAll u call.text (call.exec t depth u) := by
  cases call with
  | send byte => exact hcall.elim
  | putc c => exact sentAll_serialPutc hdepth htime hshort c
  | puts s => exact sentAll_foldl hdepth htime hshort _
  | clear => exact sentAll_foldl hdepth htime hshort [27, 91, 50, 74, 27, 91, 72]

/-- When a byte leaves during every wait, the line gets everything. -/
theorem serial_complete (hdepth : 0 < depth) (htime : InTime t) (hshort : u.queue.length ≤ 1)
    (calls : List SerialCall) (hcalls : ∀ call ∈ calls, call.Waits) :
    let v := calls.foldl (SerialCall.exec t depth) u
    v.line ++ v.queue = u.line ++ u.queue ++ calls.flatMap SerialCall.text := by
  have hall : SentAll u (calls.flatMap SerialCall.text)
      (calls.foldl (SerialCall.exec t depth) u) := by
    induction calls generalizing u with
    | nil => exact ⟨hshort, (List.append_nil _).symm⟩
    | cons call calls ih =>
        obtain ⟨hcall, hrest⟩ := List.forall_mem_cons.mp hcalls
        have hfirst := sentAll_exec hdepth htime hshort hcall
        rw [List.flatMap_cons, List.foldl_cons]
        exact hfirst.append (ih hfirst.short hrest)
  exact hall.taken

/-- A byte leaves before every fifth access. -/
theorem serial_complete_slow : ∃ v : Uart, v.line ++ v.queue = [72, 105] := by
  have htime : InTime ⟨fun k => if k % 5 = 0 then 1 else 0, fun _ => 0⟩ := by
    intro a
    obtain ⟨i, hi, hmod⟩ : ∃ i < serialTimeout + 1, (a + i) % 5 = 0 :=
      ⟨(5 - a % 5) % 5, by rw [serialTimeout]; omega, by omega⟩
    refine Nat.lt_of_lt_of_le ?_
      (List.le_sum_of_mem (List.mem_map_of_mem (List.mem_range.mpr hi)))
    simp only [hmod, if_true]
    exact Nat.one_pos
  have hshort : (Uart.mk [] [] [] 0).queue.length ≤ 1 := Nat.zero_le 1
  exact ⟨_, serial_complete (show 0 < 16 by decide) htime hshort [.puts [72, 105, 0]] (by
    rintro call (_ | ⟨_, ⟨⟩⟩)
    trivial)⟩

end Whole

end Longhorn.SerialLines
