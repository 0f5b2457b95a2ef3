import Mathlib.Data.List.Induction
import Longhorn.ContextResumption

/-!
The interrupt table and the handlers of `kernel/isr.c`: which code an interrupt reaches, and
with which frame.
-/

namespace Longhorn.InterruptDispatch

open Longhorn.Foundations.ByteMemory
open Longhorn.Foundations.Ia32
open Longhorn.Foundations.TransitionRuns
open Longhorn.SwitchModel
open Longhorn.SwitchRules
open Longhorn.ContextSwitching
open Longhorn.ContextResumption

/-- What the handlers of `isr.c` do, in order. -/
inductive Action where
  | call (handler : Word) (r : RegisterFrame)
  | outb (port : BitVec 16) (data : BitVec 8)
  | print (intNo : Nat) (message : String)
  | halt
  deriving DecidableEq

def exceptionMessages : List String :=
  ["Division By Zero", "Debug", "Non Maskable Interrupt", "Breakpoint",
   "Into Detected Overflow", "Out of Bounds", "Invalid Opcode", "Device Not Available",
   "Double Fault", "Coprocessor Segment Overrun", "Invalid TSS", "Segment Not Present",
   "Stack Fault", "General Protection Fault", "Page Fault", "Unknown Interrupt",
   "Coprocessor Fault", "Alignment Check", "Machine Check", "Reserved", "Reserved",
   "Reserved", "Reserved", "Reserved", "Reserved", "Reserved", "Reserved", "Reserved",
   "Reserved", "Reserved", "Reserved", "Reserved"]

/-- `isr_handler`; `none` is a read behind the table of messages. -/
def isrHandler (r : RegisterFrame) : Option (List Action) :=
  (exceptionMessages[r.intNo.toNat]?).map fun message =>
    [.print r.intNo.toNat message, .halt]

/-- `interrupt_handlers`, where 0 is no handler. -/
abbrev Handlers := Nat → Word

/-- `register_interrupt_handler` -/
def registerInterruptHandler (n : BitVec 8) (handler : Word) (handlers : Handlers) : Handlers :=
  Function.update handlers n.toNat handler

/-- `irq_handler` -/
def irqHandler (handlers : Handlers) (r : RegisterFrame) : List Action :=
  (if handlers r.intNo.toNat ≠ 0 then [.call (handlers r.intNo.toNat) r] else []) ++
    (if 49 ≤ r.intNo.toNat then [.outb 0xA0 0x20] else []) ++ [.outb 0x20 0x20]

/-- A gate to the routine of a vector, which clears the interrupt flag. -/
structure Installed (image : Image) (vector : Nat) (gate : IdtEntry) : Prop where
  target : gate.target = routineOf image vector
  selector : gate.selector = 0x08
  flags : gate.flags = 0b10001110

section Entry

variable {image : Image} {tops : StackTops} {idt : Nat → IdtEntry} {s s₀ : State}
  {es : List Event} {vector : Nat} {stub : Stub} {errorCode : Option Word} {ret : Word}

theorem irq_stubOf : ∀ vector < (isrs ++ irqs).length,
    (stubOf vector).map Stub.irq = some (decide (isrs.length ≤ vector)) := by
  decide

/-- A handler in C has been called with a frame, and no interrupt can come in. -/
structure Handling (handler ret : Word) (frame : RegisterFrame) (m : Machine) : Prop where
  eip : m.eip = handler
  masked : m.eflags &&& interruptFlag = 0
  seg : ∀ s, m.seg s = 0x10
  call : ∃ arg, arg.toNat = m.sp + 8 ∧ WordsAt m.mem m.sp (ret :: arg :: frame.words)

theorem interrupt_eflags (m : Machine) (selector : BitVec 16) (target : Word)
    (errorCode : Option Word) :
    (m.interrupt selector target errorCode).eflags = m.eflags &&& ~~~interruptFlag := by
  cases errorCode <;> rfl

theorem enter_masked {m : Machine} (hm : m.eflags &&& interruptFlag = 0) :
    (stub.enter image ret m).eflags &&& interruptFlag = 0 := by
  obtain ⟨m₁, hm₁⟩ : ∃ m₁, m₁ = m.run (stub.pushes.map .pushByte) := ⟨_, rfl⟩
  have hpush : m₁.eflags &&& interruptFlag = 0 := by
    rw [hm₁, run_pushBytes, pushAll_eflags]
    exact hm
  rw [Stub.enter, ← hm₁]
  split
  · have heq : (m₁.run irqCommonEntry).eflags = m₁.eflags := run_eflags (by decide) m₁
    rw [Machine.call, Machine.jmp, push_eflags, heq]
    exact hpush
  · have heq : (m₁.run isrCommonEntry).eflags = m₁.eflags &&& ~~~(1#32 <<< 10) := by
      rw [isrCommonEntry, run_append, run_cons, run_cons, run_nil, exec_eflags (by decide),
        Instr.exec, run_eflags (by decide)]
    rw [Machine.call, Machine.jmp, push_eflags, heq, BitVec.and_assoc,
      BitVec.and_comm (~~~(1#32 <<< 10)), ← BitVec.and_assoc, hpush]
    exact BitVec.zero_and

variable (image) (idt) in
/-- In every state an interrupt ends up in its handler, with the frame of what it found. -/
theorem interrupt_handling
    (hguard : s.Guard tops (.interrupt vector stub errorCode ret)) :
    Installed image vector (initIdt image idt vector) ∧
      Handling (if isrs.length ≤ vector then image.irqHandler else image.isrHandler) ret
        (frameOf s.m (BitVec.ofNat 32 vector) (errCodeOf vector errorCode))
        (s.apply image idt (.interrupt vector stub errorCode ret)).m := by
  have hlt := (List.getElem?_eq_some_iff.mp hguard.1).1
  obtain ⟨t, ht⟩ : ∃ t, t = s.apply image idt (.interrupt vector stub errorCode ret) := ⟨_, rfl⟩
  obtain ⟨hsp, hwords, -⟩ := interrupt_frame hguard ht
  have hgate : Installed image vector (initIdt image idt vector) := by
    obtain ⟨htarget, hselector, -, hflags⟩ := gate_of_vector hlt
    exact ⟨htarget, hselector, hflags⟩
  rw [ht] at hsp hwords
  refine ⟨hgate, ?_⟩
  rw [apply_interrupt hguard.1] at hsp hwords ⊢
  refine ⟨?_, ?_, ?_, ?_⟩
  · have hirq := irq_stubOf vector hlt
    rw [hguard.1, Option.map_some, Option.some_inj] at hirq
    refine (enter_eip stub image ret _).trans ?_
    rw [hirq]
    simp only [decide_eq_true_eq]
  · refine enter_masked ?_
    rw [interrupt_eflags, BitVec.and_assoc, BitVec.and_comm (~~~interruptFlag)]
    simp
  · exact enter_seg stub image ret _
  · have hroom := hguard.2.2
    refine ⟨s.m.reg .esp - 56#32, ?_, ?_⟩
    · rw [hsp, BitVec.toNat_sub_of_le (by exact (show 56 ≤ s.m.sp by omega))]
      change s.m.sp - 56 = s.m.sp - 64 + 8
      omega
    · rw [hsp]
      exact hwords

end Entry

section Dispatch

variable {image : Image} {tops : StackTops} {idt : Nat → IdtEntry} {s t : State}
  {vector : Nat} {stub : Stub} {errorCode : Option Word} {ret : Word}

def readFrame (mem : Memory) (a : Nat) : RegisterFrame :=
  { ds := readWord mem a, edi := readWord mem (a + 4), esi := readWord mem (a + 8)
    ebp := readWord mem (a + 12), useless := readWord mem (a + 16)
    ebx := readWord mem (a + 20), edx := readWord mem (a + 24), ecx := readWord mem (a + 28)
    eax := readWord mem (a + 32), intNo := readWord mem (a + 36)
    errCode := readWord mem (a + 40), eip := readWord mem (a + 44), cs := readWord mem (a + 48)
    eflags := readWord mem (a + 52) }

theorem readFrame_of_wordsAt {mem : Memory} {a : Nat} {frame : RegisterFrame}
    (hw : WordsAt mem a frame.words) : readFrame mem a = frame := by
  obtain ⟨h0, h1, h2, h3, h4, h5, h6, h7, h8, h9, h10, h11, h12, h13, -⟩ := hw
  simp only [Nat.add_assoc, Nat.reduceAdd] at h2 h3 h4 h5 h6 h7 h8 h9 h10 h11 h12 h13
  rw [readFrame, h0, h1, h2, h3, h4, h5, h6, h7, h8, h9, h10, h11, h12, h13]

/-- The table after some calls of `register_interrupt_handler`. -/
def registered (regs : List (BitVec 8 × Word)) : Handlers :=
  regs.foldl (fun handlers reg => registerInterruptHandler reg.1 reg.2 handlers) fun _ => 0

/-- The handler that was registered last for a vector. -/
def lastFor (regs : List (BitVec 8 × Word)) (vector : Nat) : Word :=
  ((regs.reverse.find? fun reg => reg.1.toNat = vector).map Prod.snd).getD 0

theorem registered_eq (regs : List (BitVec 8 × Word)) (vector : Nat) :
    registered regs vector = lastFor regs vector := by
  induction regs using List.reverseRecOn with
  | nil => rfl
  | append_singleton regs reg ih =>
      rw [registered, List.foldl_append, List.foldl_cons, List.foldl_nil, lastFor,
        List.reverse_append, List.reverse_singleton, List.singleton_append, List.find?_cons,
        registerInterruptHandler]
      by_cases hreg : reg.1.toNat = vector
      · subst hreg
        rw [Function.update_self]
        simp
      · rw [Function.update_of_ne (Ne.symm hreg)]
        simpa only [hreg, decide_false, registered, lastFor] using ih

theorem readFrame_of_interrupt
    (hguard : s.Guard tops (.interrupt vector stub errorCode ret))
    (ht : t = s.apply image idt (.interrupt vector stub errorCode ret)) :
    readFrame t.m.mem (readPtr t.m.mem (t.m.sp + 4)) =
      frameOf s.m (BitVec.ofNat 32 vector) (errCodeOf vector errorCode) := by
  obtain ⟨-, -, -, -, arg, harg, hwords⟩ :=
    interrupt_handling image idt hguard
  rw [← ht] at harg hwords
  obtain ⟨-, hread, hframe⟩ := hwords
  rw [readPtr, hread, harg]
  exact readFrame_of_wordsAt hframe

theorem toNat_intNo (hv : vector < (isrs ++ irqs).length) :
    (BitVec.ofNat 32 vector).toNat = vector := by
  have hlen : (isrs ++ irqs).length = 48 := rfl
  rw [BitVec.toNat_ofNat]
  exact Nat.mod_eq_of_lt (by omega)

/-- A hardware interrupt finds the gate of its routine and runs the handler that was registered
last for its vector, on what the interrupt found, and the master PIC is told once.  The slave
PIC is told in no case. -/
theorem irq_dispatch (regs : List (BitVec 8 × Word))
    (hguard : s.Guard tops (.interrupt vector stub errorCode ret))
    (hirq : isrs.length ≤ vector)
    (ht : t = s.apply image idt (.interrupt vector stub errorCode ret)) :
    Installed image vector (initIdt image idt vector) ∧ t.m.eip = image.irqHandler ∧
      irqHandler (registered regs) (readFrame t.m.mem (readPtr t.m.mem (t.m.sp + 4))) =
        (if lastFor regs vector ≠ 0 then
          [.call (lastFor regs vector)
            (frameOf s.m (BitVec.ofNat 32 vector) (errCodeOf vector errorCode))]
        else []) ++ [.outb 0x20 0x20] := by
  have hlt := (List.getElem?_eq_some_iff.mp hguard.1).1
  obtain ⟨hgate, hhandling⟩ := interrupt_handling image idt hguard
  rw [if_pos hirq, ← ht] at hhandling
  have hlen : (isrs ++ irqs).length = 48 := rfl
  have hno : (frameOf s.m (BitVec.ofNat 32 vector) (errCodeOf vector errorCode)).intNo.toNat =
      vector := toNat_intNo hlt
  refine ⟨hgate, hhandling.eip, ?_⟩
  rw [readFrame_of_interrupt hguard ht, irqHandler, hno, registered_eq,
    if_neg (show ¬ 49 ≤ vector by omega), List.append_nil]

theorem irq_dispatch_timer : ∃ t : State,
    Installed bootImage 32 (initIdt bootImage bootIdt 32) ∧ t.m.eip = bootImage.irqHandler ∧
    irqHandler (registered [(32, 0x7000), (33, 0x7100), (32, 0x7200)])
        (readFrame t.m.mem (readPtr t.m.mem (t.m.sp + 4))) =
      [.call 0x7200 (frameOf bootState.m 32 0), .outb 0x20 0x20] :=
  have hguard : bootState.Guard bootTops (.interrupt 32 ⟨[0, 32], true⟩ none 0x8300) :=
    ⟨rfl, by decide, by decide⟩
  have ht : _ = bootState.apply bootImage bootIdt (.interrupt 32 ⟨[0, 32], true⟩ none 0x8300) :=
    rfl
  ⟨_, irq_dispatch [(32, 0x7000), (33, 0x7100), (32, 0x7200)] hguard (by decide) ht⟩

/-- An exception finds the gate of its routine and a message, with the number of its vector, and
stops the machine. -/
theorem isr_dispatch (hguard : s.Guard tops (.interrupt vector stub errorCode ret))
    (hisr : vector < isrs.length)
    (ht : t = s.apply image idt (.interrupt vector stub errorCode ret)) :
    Installed image vector (initIdt image idt vector) ∧ t.m.eip = image.isrHandler ∧
      ∃ message, exceptionMessages[vector]? = some message ∧
        isrHandler (readFrame t.m.mem (readPtr t.m.mem (t.m.sp + 4))) =
          some [.print vector message, .halt] := by
  have hlt := (List.getElem?_eq_some_iff.mp hguard.1).1
  obtain ⟨hgate, hhandling⟩ := interrupt_handling image idt hguard
  rw [if_neg (Nat.not_le_of_lt hisr), ← ht] at hhandling
  have hno : (frameOf s.m (BitVec.ofNat 32 vector) (errCodeOf vector errorCode)).intNo.toNat =
      vector := toNat_intNo hlt
  have hbound : vector < exceptionMessages.length := hisr
  refine ⟨hgate, hhandling.eip, exceptionMessages[vector], List.getElem?_eq_getElem hbound, ?_⟩
  rw [readFrame_of_interrupt hguard ht, isrHandler, hno, List.getElem?_eq_getElem hbound,
    Option.map_some]

theorem isr_dispatch_fault : ∃ t : State,
    Installed bootImage 13 (initIdt bootImage bootIdt 13) ∧ t.m.eip = bootImage.isrHandler ∧
    ∃ message, exceptionMessages[13]? = some message ∧
      isrHandler (readFrame t.m.mem (readPtr t.m.mem (t.m.sp + 4))) =
        some [.print 13 message, .halt] :=
  have hguard : bootState.Guard bootTops (.interrupt 13 ⟨[13], false⟩ (some 0) 0x8300) :=
    ⟨rfl, by decide, by decide⟩
  have ht : _ = bootState.apply bootImage bootIdt (.interrupt 13 ⟨[13], false⟩ (some 0) 0x8300) :=
    rfl
  ⟨_, isr_dispatch hguard (by decide) ht⟩

end Dispatch

end Longhorn.InterruptDispatch
