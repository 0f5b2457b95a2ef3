import Longhorn.Foundations.Ia32

/-!
The assembly of `kernel/t_switch.asm` and `kernel/isr_asm.asm`, the interrupt table of
`kernel/isr.c`, and the stack that `thread_create` prepares.  The addresses that the linker
gives to functions are parameters.
-/

namespace Longhorn.SwitchModel

open Longhorn.Foundations.ByteMemory
open Longhorn.Foundations.Ia32

def stackSize : Nat := 4096

/-- A routine that the table of interrupts points to: the bytes that it pushes before it
jumps to the common code. -/
structure Stub where
  pushes : List (BitVec 8)
  irq : Bool

/-- `isr00`, …, `isr31` -/
def isrs : List Stub :=
  [⟨[0, 0], false⟩, ⟨[0, 1], false⟩, ⟨[0, 2], false⟩, ⟨[0, 3], false⟩,
   ⟨[0, 4], false⟩, ⟨[0, 5], false⟩, ⟨[0, 6], false⟩, ⟨[0, 7], false⟩,
   ⟨[8], false⟩, ⟨[0, 9], false⟩, ⟨[10], false⟩, ⟨[11], false⟩,
   ⟨[12], false⟩, ⟨[13], false⟩, ⟨[14], false⟩, ⟨[0, 15], false⟩,
   ⟨[0, 16], false⟩, ⟨[17], false⟩, ⟨[0, 18], false⟩, ⟨[0, 19], false⟩,
   ⟨[0, 20], false⟩, ⟨[21], false⟩, ⟨[0, 22], false⟩, ⟨[0, 23], false⟩,
   ⟨[0, 24], false⟩, ⟨[0, 25], false⟩, ⟨[0, 26], false⟩, ⟨[0, 27], false⟩,
   ⟨[0, 28], false⟩, ⟨[0, 29], false⟩, ⟨[0, 30], false⟩, ⟨[0, 31], false⟩]

/-- `irq00`, …, `irq15` -/
def irqs : List Stub :=
  [⟨[0, 32], true⟩, ⟨[1, 33], true⟩, ⟨[2, 34], true⟩, ⟨[3, 35], true⟩,
   ⟨[4, 36], true⟩, ⟨[5, 37], true⟩, ⟨[6, 38], true⟩, ⟨[7, 39], true⟩,
   ⟨[8, 40], true⟩, ⟨[9, 41], true⟩, ⟨[10, 42], true⟩, ⟨[11, 43], true⟩,
   ⟨[12, 44], true⟩, ⟨[13, 45], true⟩, ⟨[14, 46], true⟩, ⟨[15, 47], true⟩]

/-- The routine of a vector. -/
def stubOf (vector : Nat) : Option Stub := (isrs ++ irqs)[vector]?

/-- The addresses of the functions that the code below jumps to.  No two routines are at the
same address. -/
structure Image where
  threadExecute : Word
  firstSwitchEntry : Word
  isrHandler : Word
  irqHandler : Word
  isr : Nat → Word
  irq : Nat → Word
  apart : ∀ v < (isrs ++ irqs).length, ∀ w < (isrs ++ irqs).length,
    (if v < isrs.length then isr v else irq (v - isrs.length)) =
      (if w < isrs.length then isr w else irq (w - isrs.length)) → v = w

/-- The address of the routine of a vector. -/
def routineOf (image : Image) (vector : Nat) : Word :=
  if vector < isrs.length then image.isr vector else image.irq (vector - isrs.length)

/-- The routine at an address. -/
def stubAt (image : Image) (a : Word) : Option Stub :=
  ((List.range (isrs ++ irqs).length).find? fun v => routineOf image v = a).bind stubOf

/-- `get_running`: the page that `esp` points into. -/
def getRunning (m : Machine) : Nat := (m.reg .esp &&& ~~~(BitVec.ofNat 32 (stackSize - 1))).toNat

/-- `switch_threads`, from its first instruction on: the arguments lie above the return
address. -/
def switchThreads (m : Machine) : Machine :=
  (m.run [.push .ebp, .mov .ebp .esp, .push .ebx, .push .edi, .push .esi,
    .load .ebx .ebp 8, .store .ebx 0 .esp, .load .ebx .ebp 12, .load .esp .ebx 0,
    .pop .esi, .pop .edi, .pop .ebx, .pop .ebp]).ret

/-- `first_switch_entry` behind its call of `finish_schedule`. -/
def firstSwitchReturn (m : Machine) : Machine :=
  (m.run [.movByte .eax 0x20, .out 0x20]).ret

/-- `first_switch_entry`, for what `finish_schedule` does and the address behind the call. -/
def firstSwitchEntry (finishSchedule : Machine → Machine) (ret : Word) (m : Machine) : Machine :=
  firstSwitchReturn (finishSchedule (m.push ret))

/-- The offsets in `struct stack_frame`. -/
def offsetofEbp : Nat := 0
def offsetofEip : Nat := 16
def sizeofStackFrame : Nat := 20
def sizeofTailFrame : Nat := 4
def sizeofThreadFuncFrame : Nat := 12

/-- The stack pointer that `thread_create` leaves in the new thread. -/
def firstEsp (page : Nat) : Nat :=
  page + stackSize - sizeofThreadFuncFrame - sizeofTailFrame - sizeofStackFrame

/-- What `thread_create` stores on the stack of the new thread and in its `esp`. -/
def createStack (image : Image) (page : Nat) (func aux : Word) (mem : Memory) : Memory :=
  let f := page + stackSize - sizeofThreadFuncFrame
  let mem := writeWord mem f 0
  let mem := writeWord mem (f + 4) func
  let mem := writeWord mem (f + 8) aux
  let tf := f - sizeofTailFrame
  let mem := writeWord mem tf image.threadExecute
  let sf := tf - sizeofStackFrame
  let mem := writeWord mem (sf + offsetofEip) image.firstSwitchEntry
  let mem := writeWord mem (sf + offsetofEbp) 0
  writePtr mem page sf

/-- The part that `isr_common_stub` and `irq_common_stub` share: save the registers and load
the segments of the kernel. -/
def saveState : List Instr :=
  [.pusha, .fromSeg .eax .ds, .push .eax, .movHalf .eax 0x10,
   .toSeg .ds .eax, .toSeg .es .eax, .toSeg .fs .eax, .toSeg .gs .eax]

/-- `isr_common_stub` up to its call. -/
def isrCommonEntry : List Instr := saveState ++ [.cld, .push .esp]

/-- `irq_common_stub` up to its call. -/
def irqCommonEntry : List Instr := saveState ++ [.push .esp]

/-- What comes behind the call, with the register that holds the segment in between. -/
def restoreState (r : Reg) : List Instr :=
  [.pop .eax, .pop r, .toSeg .ds r, .toSeg .es r, .toSeg .fs r, .toSeg .gs r, .popa,
   .add .esp 8]

/-- `isr_common_stub` behind its call. -/
def isrCommonReturn (m : Machine) : Machine := (m.run (restoreState .eax)).iret

/-- `irq_common_stub` behind its call. -/
def irqCommonReturn (m : Machine) : Machine := (m.run (restoreState .ebx)).iret

def Stub.enter (stub : Stub) (image : Image) (ret : Word) (m : Machine) : Machine :=
  let m := m.run (stub.pushes.map .pushByte)
  if stub.irq then (m.run irqCommonEntry).call image.irqHandler ret
  else (m.run isrCommonEntry).call image.isrHandler ret

def Stub.leave (stub : Stub) (m : Machine) : Machine :=
  if stub.irq then irqCommonReturn m else isrCommonReturn m

/-- `struct idt_entry` -/
structure IdtEntry where
  offsetLow : BitVec 16
  selector : BitVec 16
  zero : BitVec 8
  flags : BitVec 8
  offsetHigh : BitVec 16
  deriving DecidableEq

/-- `set_idt_gate` -/
def setIdtGate (n : Nat) (handlerAddr : Word) (idt : Nat → IdtEntry) : Nat → IdtEntry :=
  Function.update idt n
    { offsetLow := (handlerAddr &&& 0xFFFF).setWidth 16
      selector := 0x08
      zero := 0
      flags := 0b10001110
      offsetHigh := ((handlerAddr >>> 16) &&& 0xFFFF).setWidth 16 }

/-- The gates of `n` routines from a vector on. -/
def installGates (first : Nat) (routine : Nat → Word) : Nat → (Nat → IdtEntry) → Nat → IdtEntry
  | 0, idt => idt
  | n + 1, idt => setIdtGate (first + n) (routine n) (installGates first routine n idt)

def installIsrs (image : Image) : (Nat → IdtEntry) → Nat → IdtEntry :=
  installGates 0 image.isr isrs.length

def installIrqs (image : Image) : (Nat → IdtEntry) → Nat → IdtEntry :=
  installGates isrs.length image.irq irqs.length

/-- The table after `init_idt`. -/
def initIdt (image : Image) (idt : Nat → IdtEntry) : Nat → IdtEntry :=
  installIrqs image (installIsrs image idt)

/-- The address that the processor jumps to through a gate. -/
def IdtEntry.target (e : IdtEntry) : Word := e.offsetHigh ++ e.offsetLow

end Longhorn.SwitchModel
