import Longhorn.Foundations.ByteMemory

/-!
A part of the IA-32 instruction set: moves, stack instructions, port output, and the
control transfers of calls and interrupts within one privilege level.  The status flags
that `add` sets are left out.
-/

namespace Longhorn.Foundations.Ia32

open Longhorn.Foundations.ByteMemory

/-- The general registers, in the order in which `pusha` stores them. -/
inductive Reg where
  | eax
  | ecx
  | edx
  | ebx
  | esp
  | ebp
  | esi
  | edi
  deriving DecidableEq, Repr

inductive Seg where
  | ds
  | es
  | fs
  | gs
  deriving DecidableEq, Repr

@[ext] structure Machine where
  reg : Reg → Word
  seg : Seg → BitVec 16
  cs : BitVec 16
  eflags : Word
  eip : Word
  mem : Memory
  /-- The bytes that have been written to ports, the last one first. -/
  ports : List (BitVec 16 × BitVec 8)

def Machine.sp (m : Machine) : Nat := (m.reg .esp).toNat

def Machine.set (m : Machine) (r : Reg) (w : Word) : Machine :=
  { m with reg := Function.update m.reg r w }

def Machine.setSeg (m : Machine) (s : Seg) (h : BitVec 16) : Machine :=
  { m with seg := Function.update m.seg s h }

def Machine.withMem (m : Machine) (mem : Memory) : Machine := { m with mem := mem }

def Machine.push (m : Machine) (w : Word) : Machine :=
  (m.set .esp (m.reg .esp - 4#32)).withMem (writeWord m.mem (m.reg .esp - 4#32).toNat w)

def Machine.top (m : Machine) : Word := readWord m.mem m.sp

/-- Take `n` bytes off the stack. -/
def Machine.drop (m : Machine) (n : Word) : Machine := m.set .esp (m.reg .esp + n)

def Machine.pop (m : Machine) (r : Reg) : Machine := (m.drop 4#32).set r m.top

inductive Instr where
  | push (r : Reg)
  /-- `push byte`, whose operand is sign-extended. -/
  | pushByte (b : BitVec 8)
  | pop (r : Reg)
  | mov (dst src : Reg)
  /-- `mov dst, [base + disp]` -/
  | load (dst base : Reg) (disp : Word)
  /-- `mov [base + disp], src` -/
  | store (base : Reg) (disp : Word) (src : Reg)
  | add (dst : Reg) (w : Word)
  /-- A move into the low byte of a register. -/
  | movByte (dst : Reg) (b : BitVec 8)
  /-- A move into the low half of a register. -/
  | movHalf (dst : Reg) (h : BitVec 16)
  | fromSeg (dst : Reg) (s : Seg)
  | toSeg (s : Seg) (src : Reg)
  /-- `out port, al` -/
  | out (port : BitVec 16)
  | pusha
  | popa
  | cld
  deriving DecidableEq

/-- A word with another low half. -/
def lowHalf (w : Word) (h : BitVec 16) : Word := w.extractLsb' 16 16 ++ h

def lowByte (w : Word) (b : BitVec 8) : Word := w.extractLsb' 8 24 ++ b

/-- `pusha` pushes the value that `esp` had before it. -/
def Machine.pusha (m : Machine) : Machine :=
  let esp := m.reg .esp
  ((((((((m.push (m.reg .eax)).push (m.reg .ecx)).push (m.reg .edx)).push (m.reg .ebx)).push
    esp).push (m.reg .ebp)).push (m.reg .esi)).push (m.reg .edi))

/-- `popa` skips the word for `esp`. -/
def Machine.popa (m : Machine) : Machine :=
  ((((((((m.pop .edi).pop .esi).pop .ebp).drop 4#32).pop .ebx).pop .edx).pop .ecx).pop .eax)

def Instr.exec : Instr → Machine → Machine
  | .push r, m => m.push (m.reg r)
  | .pushByte b, m => m.push (b.signExtend 32)
  | .pop r, m => m.pop r
  | .mov dst src, m => m.set dst (m.reg src)
  | .load dst base disp, m => m.set dst (readWord m.mem (m.reg base + disp).toNat)
  | .store base disp src, m =>
      m.withMem (writeWord m.mem (m.reg base + disp).toNat (m.reg src))
  | .add dst w, m => m.set dst (m.reg dst + w)
  | .movByte dst b, m => m.set dst (lowByte (m.reg dst) b)
  | .movHalf dst h, m => m.set dst (lowHalf (m.reg dst) h)
  | .fromSeg dst s, m => m.set dst (lowHalf (m.reg dst) (m.seg s))
  | .toSeg s src, m => m.setSeg s ((m.reg src).setWidth 16)
  | .out port, m => { m with ports := (port, (m.reg .eax).setWidth 8) :: m.ports }
  | .pusha, m => m.pusha
  | .popa, m => m.popa
  | .cld, m => { m with eflags := m.eflags &&& ~~~(1#32 <<< 10) }

/-- A piece of code without jumps. -/
def Machine.run (m : Machine) (code : List Instr) : Machine :=
  code.foldl (fun m i => i.exec m) m

def Machine.jmp (m : Machine) (target : Word) : Machine := { m with eip := target }

/-- A call from code behind which `ret` lies. -/
def Machine.call (m : Machine) (target ret : Word) : Machine := (m.push ret).jmp target

def Machine.ret (m : Machine) : Machine := (m.drop 4#32).jmp m.top

def interruptFlag : Word := 1#32 <<< 9

/-- An interrupt that finds an interrupt gate with this selector and address: the state
that `iret` needs is pushed, and behind it an error code if the interrupt has one. -/
def Machine.interrupt (m : Machine) (selector : BitVec 16) (target : Word)
    (errorCode : Option Word) : Machine :=
  let m' := ((m.push m.eflags).push (m.cs.setWidth 32)).push m.eip
  let m' := { m' with
    eflags := m'.eflags &&& ~~~interruptFlag, cs := selector, eip := target }
  match errorCode with
  | some w => m'.push w
  | none => m'

/-- `iret` to the same privilege level. -/
def Machine.iret (m : Machine) : Machine :=
  let m₁ := m.drop 4#32
  let m₂ := m₁.drop 4#32
  { m₂.drop 4#32 with eip := m.top, cs := m₁.top.setWidth 16, eflags := m₂.top }

section Stack

variable {m : Machine} {w : Word} {ws : List Word} {mem mem' : Memory} {a : Nat}

theorem run_append (m : Machine) (code code' : List Instr) :
    m.run (code ++ code') = (m.run code).run code' :=
  List.foldl_append

@[simp] theorem run_nil (m : Machine) : m.run [] = m := rfl

@[simp] theorem run_cons (m : Machine) (i : Instr) (code : List Instr) :
    m.run (i :: code) = (i.exec m).run code := rfl

/-- The words from an address on. -/
def WordsAt (mem : Memory) : Nat → List Word → Prop
  | _, [] => True
  | a, w :: ws => readWord mem a = w ∧ WordsAt mem (a + 4) ws

@[simp] theorem wordsAt_nil (mem : Memory) (a : Nat) : WordsAt mem a [] := trivial

@[simp] theorem wordsAt_cons :
    WordsAt mem a (w :: ws) ↔ readWord mem a = w ∧ WordsAt mem (a + 4) ws := Iff.rfl

theorem wordsAt_congr (h : ∀ c, a ≤ c → c < a + 4 * ws.length → mem' c = mem c)
    (hw : WordsAt mem a ws) : WordsAt mem' a ws := by
  induction ws generalizing a with
  | nil => trivial
  | cons w ws ih =>
      rw [List.length_cons] at h
      refine ⟨?_, ih (fun c h1 h2 => h c (by omega) (by omega)) hw.2⟩
      rw [readWord_congr fun c h1 h2 => h c (by omega) (by omega)]
      exact hw.1

theorem toNat_esp_sub (h : 4 ≤ m.sp) : (m.reg .esp - 4#32).toNat = m.sp - 4 :=
  BitVec.toNat_sub_of_le h

@[simp] theorem set_reg_same (m : Machine) (r : Reg) (w : Word) : (m.set r w).reg r = w := by
  simp [Machine.set]

@[simp] theorem set_reg_of_ne (m : Machine) {r q : Reg} (h : q ≠ r) (w : Word) :
    (m.set r w).reg q = m.reg q := by
  simp [Machine.set, h]

@[simp] theorem withMem_mem (m : Machine) (mem : Memory) : (m.withMem mem).mem = mem := rfl

@[simp] theorem withMem_reg (m : Machine) (mem : Memory) : (m.withMem mem).reg = m.reg := rfl

@[simp] theorem push_reg (m : Machine) (w : Word) {r : Reg} (hr : r ≠ .esp) :
    (m.push w).reg r = m.reg r :=
  set_reg_of_ne m hr _

@[simp] theorem push_reg_esp (m : Machine) (w : Word) : (m.push w).reg .esp = m.reg .esp - 4#32 :=
  set_reg_same m .esp _

@[simp] theorem push_seg (m : Machine) (w : Word) : (m.push w).seg = m.seg := rfl

@[simp] theorem push_eflags (m : Machine) (w : Word) : (m.push w).eflags = m.eflags := rfl

@[simp] theorem push_cs (m : Machine) (w : Word) : (m.push w).cs = m.cs := rfl

@[simp] theorem push_eip (m : Machine) (w : Word) : (m.push w).eip = m.eip := rfl

@[simp] theorem push_ports (m : Machine) (w : Word) : (m.push w).ports = m.ports := rfl

theorem sp_push (h : 4 ≤ m.sp) (w : Word) : (m.push w).sp = m.sp - 4 := by
  rw [Machine.sp, push_reg_esp]
  exact toNat_esp_sub h

theorem push_mem_of_outside (h : 4 ≤ m.sp) (w : Word) {c : Nat} (hc : c < m.sp - 4 ∨ m.sp ≤ c) :
    (m.push w).mem c = m.mem c := by
  refine writeWord_of_outside ?_ _ _
  rw [toNat_esp_sub h]
  omega

/-- A push puts its word in front of those on the stack. -/
theorem wordsAt_push (h : 4 ≤ m.sp) (hw : WordsAt m.mem m.sp ws) :
    WordsAt (m.push w).mem (m.push w).sp (w :: ws) := by
  have hsp := sp_push h w
  refine ⟨?_, ?_⟩
  · rw [Machine.sp, push_reg_esp]
    exact readWord_writeWord_same _ _ _
  · rw [hsp, Nat.sub_add_cancel h]
    exact wordsAt_congr (fun c h1 _ => push_mem_of_outside h w (Or.inr h1)) hw

def Machine.pushAll (m : Machine) (ws : List Word) : Machine := ws.foldl Machine.push m

@[simp] theorem pushAll_nil (m : Machine) : m.pushAll [] = m := rfl

@[simp] theorem pushAll_cons (m : Machine) (w : Word) (ws : List Word) :
    m.pushAll (w :: ws) = (m.push w).pushAll ws := rfl

theorem sp_pushAll (h : 4 * ws.length ≤ m.sp) : (m.pushAll ws).sp = m.sp - 4 * ws.length := by
  induction ws generalizing m with
  | nil => rfl
  | cons w ws ih =>
      rw [List.length_cons] at h ⊢
      have hsp := sp_push (m := m) (by omega) w
      rw [pushAll_cons, ih (by omega), hsp]
      omega

theorem pushAll_mem_of_outside (h : 4 * ws.length ≤ m.sp) {c : Nat}
    (hc : c < m.sp - 4 * ws.length ∨ m.sp ≤ c) : (m.pushAll ws).mem c = m.mem c := by
  induction ws generalizing m with
  | nil => rfl
  | cons w ws ih =>
      rw [List.length_cons] at h hc
      have hsp := sp_push (m := m) (by omega) w
      rw [pushAll_cons, ih (by omega) (by omega)]
      exact push_mem_of_outside (by omega) w (by omega)

/-- The words that have been pushed, the last one first. -/
theorem wordsAt_pushAll {vs : List Word} (h : 4 * ws.length ≤ m.sp)
    (hv : WordsAt m.mem m.sp vs) :
    WordsAt (m.pushAll ws).mem (m.pushAll ws).sp (ws.reverse ++ vs) := by
  induction ws generalizing m vs with
  | nil => exact hv
  | cons w ws ih =>
      rw [List.length_cons] at h
      have hsp := sp_push (m := m) (by omega) w
      rw [pushAll_cons, List.reverse_cons, List.append_assoc]
      exact ih (by omega) (wordsAt_push (by omega) hv)

/-- Instructions that only move words and registers keep the memory. -/
@[simp] theorem set_mem (m : Machine) (r : Reg) (w : Word) : (m.set r w).mem = m.mem := rfl

@[simp] theorem drop_mem (m : Machine) (n : Word) : (m.drop n).mem = m.mem := rfl

@[simp] theorem pop_mem (m : Machine) (r : Reg) : (m.pop r).mem = m.mem := rfl

@[simp] theorem drop_reg (m : Machine) (n : Word) {r : Reg} (hr : r ≠ .esp) :
    (m.drop n).reg r = m.reg r :=
  set_reg_of_ne m hr _

@[simp] theorem pop_reg_same (m : Machine) (r : Reg) : (m.pop r).reg r = m.top :=
  set_reg_same _ r _

@[simp] theorem pop_reg_of_ne (m : Machine) {r q : Reg} (hq : q ≠ r) (hesp : q ≠ .esp) :
    (m.pop r).reg q = m.reg q := by
  rw [Machine.pop, set_reg_of_ne _ hq, drop_reg m 4#32 hesp]

@[simp] theorem drop_reg_esp (m : Machine) (n : Word) : (m.drop n).reg .esp = m.reg .esp + n :=
  set_reg_same m .esp _

@[simp] theorem pop_reg_esp (m : Machine) {r : Reg} (hr : r ≠ .esp) :
    (m.pop r).reg .esp = m.reg .esp + 4#32 := by
  rw [Machine.pop, set_reg_of_ne _ hr.symm, drop_reg_esp]

@[simp] theorem ret_reg (m : Machine) {r : Reg} (hr : r ≠ .esp) : m.ret.reg r = m.reg r :=
  drop_reg m 4#32 hr

@[simp] theorem ret_reg_esp (m : Machine) : m.ret.reg .esp = m.reg .esp + 4#32 :=
  drop_reg_esp m 4#32

@[simp] theorem ret_eip (m : Machine) : m.ret.eip = m.top := rfl

@[simp] theorem ret_mem (m : Machine) : m.ret.mem = m.mem := rfl

theorem top_eq (m : Machine) : m.top = readWord m.mem (m.reg .esp).toNat := rfl

theorem toNat_add_of_lt {n : Nat} (h : w.toNat + n < 2 ^ 32) :
    (w + BitVec.ofNat 32 n).toNat = w.toNat + n := by
  have hn : n < 2 ^ 32 := by omega
  rw [BitVec.toNat_add, BitVec.toNat_ofNat, Nat.mod_eq_of_lt hn, Nat.mod_eq_of_lt h]

end Stack

/-- The two machines have the same memory and stack pointer. -/
structure SameStack (m m' : Machine) : Prop where
  mem : m.mem = m'.mem
  esp : m.reg .esp = m'.reg .esp

section SameStack

variable {m m' m'' : Machine} {ws : List Word}

theorem SameStack.refl (m : Machine) : SameStack m m := ⟨rfl, rfl⟩

theorem SameStack.trans (h : SameStack m m') (h' : SameStack m' m'') : SameStack m m'' :=
  ⟨h.mem.trans h'.mem, h.esp.trans h'.esp⟩

theorem SameStack.sp (h : SameStack m m') : m.sp = m'.sp :=
  congrArg BitVec.toNat h.esp

theorem SameStack.push (h : SameStack m m') (w : Word) : SameStack (m.push w) (m'.push w) := by
  constructor
  · rw [Machine.push, Machine.push, withMem_mem, withMem_mem, h.mem, h.esp]
  · rw [push_reg_esp, push_reg_esp, h.esp]

theorem SameStack.pushAll (h : SameStack m m') (ws : List Word) :
    SameStack (m.pushAll ws) (m'.pushAll ws) := by
  induction ws generalizing m m' with
  | nil => exact h
  | cons w ws ih => exact ih (h.push w)

theorem pushAll_append (m : Machine) (ws vs : List Word) :
    m.pushAll (ws ++ vs) = (m.pushAll ws).pushAll vs :=
  List.foldl_append

@[simp] theorem pushAll_reg (m : Machine) (ws : List Word) {r : Reg} (hr : r ≠ .esp) :
    (m.pushAll ws).reg r = m.reg r := by
  induction ws generalizing m with
  | nil => rfl
  | cons w ws ih => rw [pushAll_cons, ih, push_reg m w hr]

@[simp] theorem pushAll_seg (m : Machine) (ws : List Word) : (m.pushAll ws).seg = m.seg := by
  induction ws generalizing m with
  | nil => rfl
  | cons w ws ih => rw [pushAll_cons, ih, push_seg]

theorem pushAll_reg_esp (m : Machine) (ws : List Word) :
    (m.pushAll ws).reg .esp = m.reg .esp - BitVec.ofNat 32 (4 * ws.length) := by
  induction ws generalizing m with
  | nil => simp
  | cons w ws ih =>
      rw [pushAll_cons, ih, push_reg_esp, List.length_cons, Nat.mul_succ, BitVec.ofNat_add,
        BitVec.sub_sub, BitVec.add_comm]

theorem run_pushBytes (m : Machine) (bs : List (BitVec 8)) :
    m.run (bs.map .pushByte) = m.pushAll (bs.map (BitVec.signExtend 32)) := by
  induction bs generalizing m with
  | nil => rfl
  | cons b bs ih =>
      rw [List.map_cons, run_cons, ih]
      rfl

@[simp] theorem pushAll_eflags (m : Machine) (ws : List Word) :
    (m.pushAll ws).eflags = m.eflags := by
  induction ws generalizing m with
  | nil => rfl
  | cons w ws ih => rw [pushAll_cons, ih, push_eflags]

/-- Only `cld` changes the flags here. -/
theorem exec_eflags {i : Instr} (hi : i ≠ .cld) (m : Machine) : (i.exec m).eflags = m.eflags := by
  cases i with
  | cld => exact absurd rfl hi
  | pusha =>
      exact pushAll_eflags m [m.reg .eax, m.reg .ecx, m.reg .edx, m.reg .ebx, m.reg .esp,
        m.reg .ebp, m.reg .esi, m.reg .edi]
  | _ => rfl

theorem run_eflags {code : List Instr} (hcode : .cld ∉ code) (m : Machine) :
    (m.run code).eflags = m.eflags := by
  induction code generalizing m with
  | nil => rfl
  | cons i code ih =>
      rw [List.mem_cons, not_or] at hcode
      rw [run_cons, ih hcode.2, exec_eflags (Ne.symm hcode.1)]

/-- The words that an interrupt leaves on the stack. -/
def Machine.interruptWords (m : Machine) (errorCode : Option Word) : List Word :=
  [m.eflags, m.cs.setWidth 32, m.eip] ++ errorCode.toList

theorem sameStack_interrupt (m : Machine) (selector : BitVec 16) (target : Word)
    (errorCode : Option Word) :
    SameStack (m.interrupt selector target errorCode) (m.pushAll (m.interruptWords errorCode)) := by
  cases errorCode <;> exact ⟨rfl, rfl⟩

theorem interrupt_reg (m : Machine) (selector : BitVec 16) (target : Word)
    (errorCode : Option Word) {r : Reg} (hr : r ≠ .esp) :
    (m.interrupt selector target errorCode).reg r = m.reg r := by
  cases errorCode <;> cases r <;> first | rfl | exact absurd rfl hr

theorem interrupt_seg (m : Machine) (selector : BitVec 16) (target : Word)
    (errorCode : Option Word) : (m.interrupt selector target errorCode).seg = m.seg := by
  cases errorCode <;> rfl

end SameStack

end Longhorn.Foundations.Ia32
