import Longhorn.SwitchModel

/-!
What the assembly of the context switch and of the interrupt routines does to the registers
and to the stack.
-/

namespace Longhorn.SwitchRules

open Longhorn.Foundations.ByteMemory
open Longhorn.Foundations.Ia32
open Longhorn.SwitchModel

section Switch

variable {m : Machine} {cur next : Nat}

/-- `switch_threads` after its pushes. -/
def saved (m : Machine) : Machine :=
  m.pushAll [m.reg .ebp, m.reg .ebx, m.reg .edi, m.reg .esi]

/-- The memory in which `switch_threads` has parked the current thread. -/
def parkedMem (m : Machine) (cur : Nat) : Memory := writePtr (saved m).mem cur (m.sp - 16)

/-- The words from the `esp` of a parked thread on. -/
def parkedWords (m : Machine) : List Word :=
  [m.reg .esi, m.reg .edi, m.reg .ebx, m.reg .ebp, m.top]

/-- `switch_threads` with the `esp` of the next thread. -/
def loaded (m : Machine) (cur next : Nat) : Machine :=
  ((((saved m).set .ebp (m.reg .esp - 4#32)).set .ebx (BitVec.ofNat 32 next)).set .esp
    (readWord (parkedMem m cur) next)).withMem (parkedMem m cur)

theorem run_saved (m : Machine) :
    m.run [.push .ebp, .mov .ebp .esp, .push .ebx, .push .edi, .push .esi] =
      (saved m).set .ebp (m.reg .esp - 4#32) := by
  apply Machine.ext
  · funext r
    cases r <;> rfl
  all_goals rfl

theorem sp_saved (hroom : 16 ≤ m.sp) : (saved m).sp = m.sp - 16 :=
  sp_pushAll hroom

theorem saved_mem_of_outside (hroom : 16 ≤ m.sp) {c : Nat} (hc : c < m.sp - 16 ∨ m.sp ≤ c) :
    (saved m).mem c = m.mem c := by
  apply pushAll_mem_of_outside
  · exact hroom
  · exact hc

/-- `switch_threads` writes below the stack pointer and into the `esp` of the thread. -/
theorem parkedMem_of_outside (hroom : 16 ≤ m.sp) {c : Nat} (hc : c < m.sp - 16 ∨ m.sp ≤ c)
    (hcur : c < cur ∨ cur + 4 ≤ c) : parkedMem m cur c = m.mem c := by
  rw [parkedMem, writePtr_of_outside hcur]
  exact saved_mem_of_outside hroom hc

theorem readPtr_parkedMem (m : Machine) (cur : Nat) :
    readPtr (parkedMem m cur) cur = m.sp - 16 := by
  have hlt := (m.reg .esp).isLt
  exact readPtr_writePtr_same _ _ (lt_of_le_of_lt (Nat.sub_le _ _) hlt)

theorem wordsAt_parkedMem (hroom : 16 ≤ m.sp) (hoff : cur + 4 ≤ m.sp - 16) :
    WordsAt (parkedMem m cur) (m.sp - 16) (parkedWords m) := by
  have hwords : WordsAt (saved m).mem (saved m).sp (parkedWords m) :=
    wordsAt_pushAll hroom ⟨rfl, trivial⟩
  rw [sp_saved hroom] at hwords
  exact wordsAt_congr (fun c hc _ => writePtr_of_outside (Or.inr (by omega)) _ _) hwords

theorem readWord_eq_ofNat {mem : Memory} {a p : Nat} (h : readPtr mem a = p) :
    readWord mem a = BitVec.ofNat 32 p := by
  rw [← h, readPtr, BitVec.ofNat_toNat, BitVec.setWidth_eq]

theorem run_loaded (hroom : 16 ≤ m.sp) (hlt : m.sp + 12 ≤ 2 ^ 32)
    (hcur : readPtr m.mem (m.sp + 4) = cur) (hnext : readPtr m.mem (m.sp + 8) = next)
    (hoff : cur + 4 ≤ m.sp - 16) :
    ((saved m).set .ebp (m.reg .esp - 4#32)).run
        [.load .ebx .ebp 8, .store .ebx 0 .esp, .load .ebx .ebp 12, .load .esp .ebx 0] =
      loaded m cur next := by
  have hlt' := (m.reg .esp).isLt
  have hebp : (m.reg .esp - 4#32).toNat = m.sp - 4 := toNat_esp_sub (by omega)
  have harg8 : (m.reg .esp - 4#32 + 8).toNat = m.sp + 4 := by
    rw [show (8 : Word) = BitVec.ofNat 32 8 from rfl, toNat_add_of_lt (by omega)]
    omega
  have harg12 : (m.reg .esp - 4#32 + 12).toNat = m.sp + 8 := by
    rw [show (12 : Word) = BitVec.ofNat 32 12 from rfl, toNat_add_of_lt (by omega)]
    omega
  have hcurlt : cur < 2 ^ 32 := hcur ▸ BitVec.isLt _
  have hnextlt : next < 2 ^ 32 := hnext ▸ BitVec.isLt _
  have hword8 : readWord (saved m).mem (m.sp + 4) = BitVec.ofNat 32 cur := by
    rw [readWord_congr fun c hc _ => saved_mem_of_outside hroom (Or.inr (by omega))]
    exact readWord_eq_ofNat hcur
  have hword12 : readWord (parkedMem m cur) (m.sp + 8) = BitVec.ofNat 32 next := by
    rw [readWord_congr fun c hc _ =>
      parkedMem_of_outside hroom (Or.inr (by omega)) (Or.inr (by omega))]
    exact readWord_eq_ofNat hnext
  have hesp : (saved m).reg .esp = BitVec.ofNat 32 (m.sp - 16) := by
    apply BitVec.eq_of_toNat_eq
    rw [BitVec.toNat_ofNat, Nat.mod_eq_of_lt (by omega)]
    exact sp_saved hroom
  have hzero : ∀ {p : Nat}, p < 2 ^ 32 → (BitVec.ofNat 32 p + 0).toNat = p := by
    intro p hp
    rw [BitVec.toNat_add, BitVec.toNat_ofNat, Nat.mod_eq_of_lt hp]
    exact Nat.mod_eq_of_lt hp
  obtain ⟨m₁, hm₁⟩ : ∃ m₁, m₁ = (saved m).set .ebp (m.reg .esp - 4#32) := ⟨_, rfl⟩
  have hload : (Instr.load .ebx .ebp 8).exec m₁ = m₁.set .ebx (BitVec.ofNat 32 cur) := by
    rw [Instr.exec, hm₁, set_reg_same, set_mem, harg8, hword8]
  have hstore : (Instr.store .ebx 0 .esp).exec (m₁.set .ebx (BitVec.ofNat 32 cur)) =
      (m₁.set .ebx (BitVec.ofNat 32 cur)).withMem (parkedMem m cur) := by
    rw [Instr.exec, set_reg_same, set_reg_of_ne m₁ (by decide), hzero hcurlt, hm₁,
      set_reg_of_ne _ (by decide), hesp]
    rfl
  have hnextload : (Instr.load .ebx .ebp 12).exec
        ((m₁.set .ebx (BitVec.ofNat 32 cur)).withMem (parkedMem m cur)) =
      (m₁.set .ebx (BitVec.ofNat 32 next)).withMem (parkedMem m cur) := by
    rw [Instr.exec, withMem_mem, withMem_reg, set_reg_of_ne m₁ (by decide), hm₁, set_reg_same,
      harg12, hword12]
    apply Machine.ext
    · funext r
      cases r <;> rfl
    all_goals rfl
  have hesp' : (Instr.load .esp .ebx 0).exec
        ((m₁.set .ebx (BitVec.ofNat 32 next)).withMem (parkedMem m cur)) =
      loaded m cur next := by
    rw [Instr.exec, withMem_mem, withMem_reg, set_reg_same, hzero hnextlt, hm₁]
    rfl
  rw [← hm₁, run_cons, hload, run_cons, hstore, run_cons, hnextload, run_cons, hesp', run_nil]

theorem switchThreads_eq (hroom : 16 ≤ m.sp) (hlt : m.sp + 12 ≤ 2 ^ 32)
    (hcur : readPtr m.mem (m.sp + 4) = cur) (hnext : readPtr m.mem (m.sp + 8) = next)
    (hoff : cur + 4 ≤ m.sp - 16) :
    switchThreads m =
      (((((loaded m cur next).pop .esi).pop .edi).pop .ebx).pop .ebp).ret := by
  rw [← run_loaded hroom hlt hcur hnext hoff, ← run_saved]
  rfl

/-- The machine has taken the registers that a call keeps, and `eip`, from the stack of a parked
thread. -/
structure Resumed (mem : Memory) (sp : Nat) (m' : Machine) : Prop where
  esi : m'.reg .esi = readWord mem sp
  edi : m'.reg .edi = readWord mem (sp + 4)
  ebx : m'.reg .ebx = readWord mem (sp + 8)
  ebp : m'.reg .ebp = readWord mem (sp + 12)
  eip : m'.eip = readWord mem (sp + 16)
  sp : m'.sp = sp + 20
  mem : m'.mem = mem

theorem switchThreads_resumed {sp : Nat} (hroom : 16 ≤ m.sp) (hlt : m.sp + 12 ≤ 2 ^ 32)
    (hcur : readPtr m.mem (m.sp + 4) = cur) (hnext : readPtr m.mem (m.sp + 8) = next)
    (hoff : cur + 4 ≤ m.sp - 16) (hsp : readPtr (parkedMem m cur) next = sp)
    (hsplt : sp + 20 < 2 ^ 32) : Resumed (parkedMem m cur) sp (switchThreads m) := by
  rw [switchThreads_eq hroom hlt hcur hnext hoff]
  obtain ⟨l, hl⟩ : ∃ l, l = loaded m cur next := ⟨_, rfl⟩
  have hmem : l.mem = parkedMem m cur := by rw [hl, loaded, withMem_mem]
  have hesp : (l.reg .esp).toNat = sp := by
    rw [hl, loaded, withMem_reg, set_reg_same]
    exact hsp
  have h4 : (l.reg .esp + 4#32).toNat = sp + 4 := by bv_omega
  have h8 : (l.reg .esp + 4#32 + 4#32).toNat = sp + 8 := by bv_omega
  have h12 : (l.reg .esp + 4#32 + 4#32 + 4#32).toNat = sp + 12 := by bv_omega
  have h16 : (l.reg .esp + 4#32 + 4#32 + 4#32 + 4#32).toNat = sp + 16 := by bv_omega
  have h20 : (l.reg .esp + 4#32 + 4#32 + 4#32 + 4#32 + 4#32).toNat = sp + 20 := by bv_omega
  rw [← hl]
  constructor
  · simp [top_eq, hmem, hesp]
  · simp [top_eq, hmem, h4, -BitVec.toNat_add]
  · simp [top_eq, hmem, h8, -BitVec.toNat_add]
  · simp [top_eq, hmem, h12, -BitVec.toNat_add]
  · simp [top_eq, hmem, h16, -BitVec.toNat_add]
  · simpa [Machine.sp] using h20
  · simp [hmem]

end Switch

section Interrupt

variable {m : Machine} {stub : Stub} {image : Image} {errorCode : Option Word} {ret : Word}

/-- `struct register_frame`, up to what the processor pushes for an interrupt of the kernel. -/
structure RegisterFrame where
  ds : Word
  edi : Word
  esi : Word
  ebp : Word
  useless : Word
  ebx : Word
  edx : Word
  ecx : Word
  eax : Word
  intNo : Word
  errCode : Word
  eip : Word
  cs : Word
  eflags : Word
  deriving DecidableEq

def RegisterFrame.words (r : RegisterFrame) : List Word :=
  [r.ds, r.edi, r.esi, r.ebp, r.useless, r.ebx, r.edx, r.ecx, r.eax, r.intNo, r.errCode, r.eip,
    r.cs, r.eflags]

/-- The size of what is on the stack below the interrupted code while a handler runs. -/
def frameSize : Nat := 56

/-- The frame of an interrupt whose error code and number are known. -/
def frameOf (m : Machine) (intNo errCode : Word) : RegisterFrame :=
  { ds := lowHalf (m.reg .eax) (m.seg .ds), edi := m.reg .edi, esi := m.reg .esi
    ebp := m.reg .ebp, useless := m.reg .esp - 20#32, ebx := m.reg .ebx, edx := m.reg .edx
    ecx := m.reg .ecx, eax := m.reg .eax, intNo := intNo, errCode := errCode, eip := m.eip
    cs := m.cs.setWidth 32, eflags := m.eflags }

/-- The two words that the processor and the routine push for a vector. -/
def pushedWords (stub : Stub) (errorCode : Option Word) : List Word :=
  errorCode.toList ++ stub.pushes.map (BitVec.signExtend 32)

def savedRegs (m : Machine) : List Word :=
  [m.reg .eax, m.reg .ecx, m.reg .edx, m.reg .ebx, m.reg .esp, m.reg .ebp, m.reg .esi,
    m.reg .edi, lowHalf (m.reg .eax) (m.seg .ds)]

theorem sameStack_saveState (m : Machine) :
    SameStack (m.run saveState) (m.pushAll (savedRegs m)) :=
  ⟨rfl, rfl⟩

/-- Before the call both common parts have pushed the address of the frame. -/
theorem sameStack_enter (stub : Stub) (image : Image) (ret : Word) (m : Machine) :
    let m₁ := m.pushAll (stub.pushes.map (BitVec.signExtend 32))
    let m₂ := m₁.pushAll (savedRegs m₁)
    SameStack (stub.enter image ret m) (m₂.pushAll [m₂.reg .esp, ret]) := by
  intro m₁ m₂
  have hsave := sameStack_saveState m₁
  rw [Stub.enter, run_pushBytes]
  split
  · have hcall : SameStack ((m₁.run irqCommonEntry).call image.irqHandler ret)
        ((m₁.run saveState).pushAll [(m₁.run saveState).reg .esp, ret]) := ⟨rfl, rfl⟩
    refine hcall.trans ?_
    rw [hsave.esp]
    exact hsave.pushAll _
  · have hcall : SameStack ((m₁.run isrCommonEntry).call image.isrHandler ret)
        ((m₁.run saveState).pushAll [(m₁.run saveState).reg .esp, ret]) := ⟨rfl, rfl⟩
    refine hcall.trans ?_
    rw [hsave.esp]
    exact hsave.pushAll _

/-- What an interrupt and its routine leave on the stack when the handler starts. -/
theorem sameStack_interrupt_enter {selector : BitVec 16} {target intNo errCode : Word}
    (hwords : pushedWords stub errorCode = [errCode, intNo]) :
    SameStack (stub.enter image ret (m.interrupt selector target errorCode))
      (m.pushAll ((frameOf m intNo errCode).words.reverse ++ [m.reg .esp - 56#32, ret])) := by
  obtain ⟨mi, hmi⟩ : ∃ mi, mi = m.interrupt selector target errorCode := ⟨_, rfl⟩
  obtain ⟨m₁, hm₁⟩ : ∃ m₁, m₁ = mi.pushAll (stub.pushes.map (BitVec.signExtend 32)) := ⟨_, rfl⟩
  have hstack : SameStack m₁
      (m.pushAll [m.eflags, m.cs.setWidth 32, m.eip, errCode, intNo]) := by
    rw [hm₁, hmi]
    refine ((sameStack_interrupt m selector target errorCode).pushAll _).trans ?_
    rw [← pushAll_append, Machine.interruptWords, List.append_assoc]
    rw [pushedWords] at hwords
    rw [hwords]
    exact SameStack.refl _
  have hreg : ∀ r : Reg, r ≠ .esp → m₁.reg r = m.reg r := by
    intro r hr
    rw [hm₁, pushAll_reg _ _ hr, hmi, interrupt_reg _ _ _ _ hr]
  have hesp : m₁.reg .esp = m.reg .esp - 20#32 := by
    rw [hstack.esp, pushAll_reg_esp]
    rfl
  have hds : m₁.seg .ds = m.seg .ds := by
    rw [hm₁, pushAll_seg, hmi, interrupt_seg]
  have hsaved : savedRegs m₁ = [m.reg .eax, m.reg .ecx, m.reg .edx, m.reg .ebx,
      m.reg .esp - 20#32, m.reg .ebp, m.reg .esi, m.reg .edi,
      lowHalf (m.reg .eax) (m.seg .ds)] := by
    rw [savedRegs, hreg .eax (by decide), hreg .ecx (by decide), hreg .edx (by decide),
      hreg .ebx (by decide), hesp, hreg .ebp (by decide), hreg .esi (by decide),
      hreg .edi (by decide), hds]
  have henter := sameStack_enter stub image ret mi
  have hframe : SameStack (m₁.pushAll (savedRegs m₁))
      (m.pushAll (frameOf m intNo errCode).words.reverse) := by
    have hrev : (frameOf m intNo errCode).words.reverse =
        [m.eflags, m.cs.setWidth 32, m.eip, errCode, intNo] ++ savedRegs m₁ := by
      rw [hsaved]
      rfl
    rw [hrev, pushAll_append]
    exact hstack.pushAll _
  have htop : (m₁.pushAll (savedRegs m₁)).reg .esp = m.reg .esp - 56#32 := by
    rw [hframe.esp, pushAll_reg_esp]
    rfl
  rw [← hmi, pushAll_append]
  rw [← hm₁] at henter
  refine henter.trans ?_
  rw [htop]
  exact hframe.pushAll _

theorem setWidth_lowHalf (w : Word) (h : BitVec 16) : (lowHalf w h).setWidth 16 = h := by
  rw [lowHalf]
  exact BitVec.setWidth_append_eq_right

/-- The handler starts with the segments of the kernel. -/
theorem enter_seg (stub : Stub) (image : Image) (ret : Word) (m : Machine) (s : Seg) :
    (stub.enter image ret m).seg s = 0x10 := by
  rw [Stub.enter]
  split <;> cases s <;> exact setWidth_lowHalf _ _

theorem enter_eip (stub : Stub) (image : Image) (ret : Word) (m : Machine) :
    (stub.enter image ret m).eip = if stub.irq then image.irqHandler else image.isrHandler := by
  rw [Stub.enter]
  split <;> rfl

end Interrupt

section Return

variable {m : Machine} {stub : Stub} {frame : RegisterFrame} {arg : Word}

/-- The machine runs on with what a frame says. -/
structure Continued (frame : RegisterFrame) (m' : Machine) : Prop where
  eax : m'.reg .eax = frame.eax
  ecx : m'.reg .ecx = frame.ecx
  edx : m'.reg .edx = frame.edx
  ebx : m'.reg .ebx = frame.ebx
  ebp : m'.reg .ebp = frame.ebp
  esi : m'.reg .esi = frame.esi
  edi : m'.reg .edi = frame.edi
  seg : ∀ s, m'.seg s = frame.ds.setWidth 16
  eip : m'.eip = frame.eip
  cs : m'.cs = frame.cs.setWidth 16
  eflags : m'.eflags = frame.eflags

/-- The stack pointer `n` bytes further, when there are `k` more above. -/
theorem toNat_next {w : Word} {a n : Nat} (k : Nat) (h : w.toNat = a)
    (hlt : a + (n + k) < 2 ^ 32) :
    (w + BitVec.ofNat 32 n).toNat = a + n ∧ a + n + k < 2 ^ 32 := by
  rw [toNat_add_of_lt (by omega), h]
  exact ⟨rfl, by omega⟩

/-- What comes behind the call takes the frame off the stack. -/
theorem restoreState_continued {r : Reg} (hr : r = .eax ∨ r = .ebx)
    (hw : WordsAt m.mem m.sp (arg :: frame.words)) (hlt : m.sp + 60 < 2 ^ 32) :
    Continued frame (m.run (restoreState r)).iret := by
  obtain ⟨-, hds, hedi, hesi, hebp, -, hebx, hedx, hecx, heax, -, -, heip, hcs, heflags, -⟩ := hw
  have h4 := toNat_next (w := m.reg .esp) (a := m.sp) (n := 4) 56 rfl hlt
  have h8 := toNat_next (n := 4) 52 h4.1 h4.2
  have h12 := toNat_next (n := 4) 48 h8.1 h8.2
  have h16 := toNat_next (n := 4) 44 h12.1 h12.2
  have h20 := toNat_next (n := 4) 40 h16.1 h16.2
  have h24 := toNat_next (n := 4) 36 h20.1 h20.2
  have h28 := toNat_next (n := 4) 32 h24.1 h24.2
  have h32 := toNat_next (n := 4) 28 h28.1 h28.2
  have h36 := toNat_next (n := 4) 24 h32.1 h32.2
  have h40 := toNat_next (n := 4) 20 h36.1 h36.2
  have h48 := toNat_next (n := 8) 12 h40.1 h40.2
  have h52 := toNat_next (n := 4) 8 h48.1 h48.2
  have h56 := toNat_next (n := 4) 4 h52.1 h52.2
  have hseg : ∀ s, ((m.run (restoreState r)).iret).seg s =
      (readWord m.mem (m.reg .esp + 4#32).toNat).setWidth 16 := by
    intro s
    rcases hr with rfl | rfl <;> cases s <;> rfl
  rcases hr with rfl | rfl
  all_goals
    constructor
    · exact (congrArg (readWord m.mem) h36.1).trans heax
    · exact (congrArg (readWord m.mem) h32.1).trans hecx
    · exact (congrArg (readWord m.mem) h28.1).trans hedx
    · exact (congrArg (readWord m.mem) h24.1).trans hebx
    · exact (congrArg (readWord m.mem) h16.1).trans hebp
    · exact (congrArg (readWord m.mem) h12.1).trans hesi
    · exact (congrArg (readWord m.mem) h8.1).trans hedi
    · intro s
      rw [hseg, h4.1, hds]
    · exact (congrArg (readWord m.mem) h48.1).trans heip
    · exact congrArg (BitVec.setWidth 16) ((congrArg (readWord m.mem) h52.1).trans hcs)
    · exact (congrArg (readWord m.mem) h56.1).trans heflags

variable (stub) in
theorem leave_continued (hw : WordsAt m.mem m.sp (arg :: frame.words))
    (hlt : m.sp + 60 < 2 ^ 32) : Continued frame (stub.leave m) := by
  rw [Stub.leave]
  split
  · exact restoreState_continued (Or.inr rfl) hw hlt
  · exact restoreState_continued (Or.inl rfl) hw hlt

theorem leave_mem (stub : Stub) (m : Machine) : (stub.leave m).mem = m.mem := by
  rw [Stub.leave]
  split <;> rfl

theorem leave_sp (stub : Stub) (hlt : m.sp + 60 < 2 ^ 32) : (stub.leave m).sp = m.sp + 60 := by
  have hesp : (stub.leave m).reg .esp = m.reg .esp + 4#32 + 4#32 + 4#32 + 4#32 + 4#32 + 4#32 +
      4#32 + 4#32 + 4#32 + 4#32 + 8#32 + 4#32 + 4#32 + 4#32 := by
    rw [Stub.leave]
    split <;> rfl
  rw [Machine.sp, hesp]
  simp only [BitVec.add_assoc]
  exact toNat_add_of_lt (n := 60) hlt

end Return

section Create

variable {image : Image} {page : Nat} {func aux : Word} {mem : Memory}

theorem firstEsp_eq (page : Nat) : firstEsp page = page + 4060 := by
  simp only [firstEsp, stackSize, sizeofThreadFuncFrame, sizeofTailFrame, sizeofStackFrame]
  omega

/-- The words that `thread_create` stores, the `esp` of the thread last. -/
theorem createStack_eq (image : Image) (page : Nat) (func aux : Word) (mem : Memory) :
    createStack image page func aux mem =
      writePtr (writeWord (writeWord (writeWord (writeWord (writeWord (writeWord mem
        (page + 4084) 0) (page + 4088) func) (page + 4092) aux) (page + 4080)
        image.threadExecute) (page + 4076) image.firstSwitchEntry) (page + 4060) 0) page
        (firstEsp page) := by
  have hf : page + stackSize - sizeofThreadFuncFrame = page + 4084 := by
    simp only [stackSize, sizeofThreadFuncFrame]
    omega
  have htf : page + 4084 - sizeofTailFrame = page + 4080 := by
    simp only [sizeofTailFrame]
    omega
  have hsf : page + 4080 - sizeofStackFrame = page + 4060 := by
    simp only [sizeofStackFrame]
    omega
  simp only [createStack, hf, htf, hsf, firstEsp_eq, offsetofEip, offsetofEbp, Nat.add_assoc,
    Nat.reduceAdd, Nat.add_zero]

theorem createStack_of_outside {c : Nat} (hpage : c < page ∨ page + 4 ≤ c)
    (hstack : c < firstEsp page ∨ page + stackSize ≤ c) :
    createStack image page func aux mem c = mem c := by
  rw [firstEsp_eq, stackSize] at hstack
  rw [createStack_eq, writePtr_of_outside hpage, writeWord_of_outside (by omega),
    writeWord_of_outside (by omega), writeWord_of_outside (by omega),
    writeWord_of_outside (by omega), writeWord_of_outside (by omega),
    writeWord_of_outside (by omega)]

theorem readPtr_createStack (image : Image) (func aux : Word) (mem : Memory)
    (hpage : page + stackSize ≤ 2 ^ 32) :
    readPtr (createStack image page func aux mem) page = firstEsp page := by
  rw [createStack_eq]
  refine readPtr_writePtr_same _ _ ?_
  rw [firstEsp_eq]
  rw [stackSize] at hpage
  omega

theorem readWord_createStack (image : Image) (page : Nat) (func aux : Word) (mem : Memory) :
    readWord (createStack image page func aux mem) (firstEsp page) = 0 := by
  rw [createStack_eq, firstEsp_eq, writePtr,
    readWord_writeWord_of_disjoint (Or.inr (by omega)), readWord_writeWord_same]

theorem wordsAt_createStack (image : Image) (page : Nat) (func aux : Word) (mem : Memory) :
    WordsAt (createStack image page func aux mem) (firstEsp page + offsetofEip)
      [image.firstSwitchEntry, image.threadExecute, 0, func, aux] := by
  rw [createStack_eq, firstEsp_eq, writePtr, offsetofEip]
  refine ⟨?_, ?_, ?_, ?_, ?_, trivial⟩
  all_goals
    simp only [Nat.add_assoc, Nat.reduceAdd]
    repeat rw [readWord_writeWord_of_disjoint (by omega)]
    rw [readWord_writeWord_same]

end Create

section Gates

variable {image : Image} {idt : Nat → IdtEntry}

theorem getLsbD_halfMask : ∀ i < 16, (0xFFFF#32).getLsbD i = true := by
  decide

theorem setWidth_halfMask (w : Word) : (w &&& 0xFFFF).setWidth 16 = w.setWidth 16 := by
  apply BitVec.eq_of_getLsbD_eq
  intro i hi
  have hmask : (0xFFFF : Word).getLsbD i = true := getLsbD_halfMask i hi
  rw [BitVec.getLsbD_setWidth, BitVec.getLsbD_setWidth, BitVec.getLsbD_and, hmask, Bool.and_true]

theorem halves_append (w : Word) : (w >>> 16).setWidth 16 ++ w.setWidth 16 = w := by
  apply BitVec.eq_of_getLsbD_eq
  intro i hi
  rw [BitVec.getLsbD_append, BitVec.getLsbD_setWidth, BitVec.getLsbD_setWidth,
    BitVec.getLsbD_ushiftRight]
  by_cases hlow : i < 16
  · simp [hlow]
  · have hadd : 16 + (i - 16) = i := by omega
    have hsub : i - 16 < 16 := by omega
    simp [hlow, hadd, hsub]

theorem target_setIdtGate (n : Nat) (handlerAddr : Word) (idt : Nat → IdtEntry) :
    (setIdtGate n handlerAddr idt n).target = handlerAddr := by
  rw [setIdtGate, Function.update_self, IdtEntry.target, setWidth_halfMask, setWidth_halfMask]
  exact halves_append handlerAddr

theorem installGates_of_lt (first : Nat) (routine : Nat → Word) (idt : Nat → IdtEntry) {n k : Nat}
    (hk : k < n) :
    installGates first routine n idt (first + k) =
      setIdtGate (first + k) (routine k) idt (first + k) := by
  induction n with
  | zero => exact absurd hk (Nat.not_lt_zero k)
  | succ n ih =>
      rw [installGates]
      rcases Nat.lt_succ_iff_lt_or_eq.mp hk with hk | rfl
      · rw [setIdtGate, Function.update_of_ne (by omega), ih hk]
      · rw [setIdtGate, setIdtGate, Function.update_self, Function.update_self]

theorem installGates_of_outside (first : Nat) (routine : Nat → Word) (idt : Nat → IdtEntry)
    {n v : Nat} (hv : v < first ∨ first + n ≤ v) :
    installGates first routine n idt v = idt v := by
  induction n with
  | zero => rfl
  | succ n ih => rw [installGates, setIdtGate, Function.update_of_ne (by omega), ih (by omega)]

/-- Every vector of an exception or of an `irq` has its own routine behind a gate that clears
the interrupt flag. -/
theorem gate_of_vector {vector : Nat} (hv : vector < (isrs ++ irqs).length) :
    (initIdt image idt vector).target = routineOf image vector ∧
      (initIdt image idt vector).selector = 0x08 ∧ (initIdt image idt vector).zero = 0 ∧
      (initIdt image idt vector).flags = 0b10001110 := by
  rw [List.length_append] at hv
  have hgate : ∀ (routine : Word) (idt' : Nat → IdtEntry), initIdt image idt vector =
      setIdtGate vector routine idt' vector → routine = routineOf image vector →
      (initIdt image idt vector).target = routineOf image vector ∧
        (initIdt image idt vector).selector = 0x08 ∧ (initIdt image idt vector).zero = 0 ∧
        (initIdt image idt vector).flags = 0b10001110 := by
    intro routine idt' heq hroutine
    rw [heq, target_setIdtGate, setIdtGate, Function.update_self]
    exact ⟨hroutine, rfl, rfl, rfl⟩
  by_cases hlow : vector < isrs.length
  · have hisr := installGates_of_lt 0 image.isr idt hlow
    rw [Nat.zero_add] at hisr
    refine hgate (image.isr vector) idt ?_ (if_pos hlow).symm
    rw [initIdt, installIrqs, installGates_of_outside _ _ _ (Or.inl hlow), installIsrs, hisr]
  · have hirq := installGates_of_lt isrs.length image.irq (installIsrs image idt)
      (n := irqs.length) (k := vector - isrs.length) (by omega)
    rw [Nat.add_sub_cancel' (Nat.le_of_not_lt hlow)] at hirq
    refine hgate (image.irq (vector - isrs.length)) (installIsrs image idt) ?_ (if_neg hlow).symm
    rw [initIdt, installIrqs, hirq]

/-- Behind its gate every vector finds its own routine. -/
theorem stubAt_gate {vector : Nat} (hv : vector < (isrs ++ irqs).length) :
    stubAt image (initIdt image idt vector).target = stubOf vector := by
  have hfind : (List.range (isrs ++ irqs).length).find?
      (fun v => routineOf image v = routineOf image vector) = some vector := by
    rw [List.find?_eq_some_iff_getElem]
    refine ⟨decide_eq_true rfl, vector, by rwa [List.length_range], List.getElem_range _, ?_⟩
    intro v hlt
    rw [List.getElem_range, Bool.not_eq_true', decide_eq_false_iff_not]
    exact fun heq => (image.apart v (hlt.trans hv) vector hv heq).not_lt hlt
  rw [(gate_of_vector hv).1, stubAt, hfind, Option.bind_some]

end Gates

end Longhorn.SwitchRules
