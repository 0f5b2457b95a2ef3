import Longhorn.SwitchRules
import Longhorn.Foundations.TransitionRuns

/-!
The stacks of all threads while the kernel switches between them and interrupts come in.
Beside the machine, the state records for every thread what it was doing each time it stopped
running its own code.
-/

namespace Longhorn.ContextSwitching

open Longhorn.Foundations.ByteMemory
open Longhorn.Foundations.Ia32
open Longhorn.Foundations.TransitionRuns
open Longhorn.SwitchModel
open Longhorn.SwitchRules

/-- Why the code of a thread does not go on. -/
inductive Suspension where
  /-- It has called `switch_threads` in this state. -/
  | switched (m : Machine)
  /-- An interrupt has found it in this state. -/
  | interrupted (m : Machine) (stub : Stub) (intNo errCode : Word)
  /-- `thread_create` has prepared it. -/
  | created (func aux : Word)

structure State where
  m : Machine
  /-- The page of the thread that runs. -/
  current : Nat
  /-- The last suspension first. -/
  suspended : Nat → List Suspension

/-- The end of the stack of every thread.  A thread of `thread_create` has all of its page. -/
structure StackTops where
  top : Nat → Nat
  top_le (page : Nat) : top page ≤ page + stackSize

structure IsPage (page : Nat) : Prop where
  aligned : page % stackSize = 0
  lt : page < 2 ^ 32

namespace Suspension

/-- The first byte that has to stay for the thread to go on. -/
def bottom (page : Nat) : Suspension → Nat
  | .switched m => m.sp - 16
  | .interrupted m _ _ _ => m.sp - frameSize
  | .created _ _ => firstEsp page

/-- The stack pointer with which it goes on. -/
def resumeSp (page : Nat) : Suspension → Nat
  | .switched m => m.sp + 4
  | .interrupted m _ _ _ => m.sp
  | .created _ _ => firstEsp page + sizeofStackFrame

/-- The thread itself has been stopped, not only the code that an interrupt found. -/
def Parked : Suspension → Prop
  | .interrupted _ _ _ _ => False
  | _ => True

/-- The bytes that `switch_threads`, an interrupt or `thread_create` has left for the thread. -/
def Held (image : Image) (page top : Nat) (mem : Memory) : Suspension → Prop
  | .switched m =>
      WordsAt mem (m.sp - 16) (parkedWords m) ∧ ∀ c, m.sp + 4 ≤ c → c < top → mem c = m.mem c
  | .interrupted m _ intNo errCode =>
      WordsAt mem (m.sp - frameSize) (frameOf m intNo errCode).words ∧
        ∀ c, m.sp ≤ c → c < top → mem c = m.mem c
  | .created func aux =>
      top = page + stackSize ∧ readWord mem (firstEsp page) = 0 ∧
        WordsAt mem (firstEsp page + offsetofEip)
          [image.firstSwitchEntry, image.threadExecute, 0, func, aux]

end Suspension

/-- The interrupts for which the processor pushes an error code. -/
def errorVectors : List Nat := [8, 10, 11, 12, 13, 14, 17, 21]

/-- The error code in the frame: an exception without one has a zero there, and an `irq` its
own number. -/
def errCodeOf (vector : Nat) (errorCode : Option Word) : Word :=
  errorCode.getD (BitVec.ofNat 32 (vector - isrs.length))

inductive Event where
  /-- The running thread executes code that is not modelled here. -/
  | work (m' : Machine)
  | create (page : Nat) (func aux : Word)
  /-- The page of a thread that has ended goes back to the allocator. -/
  | free (page : Nat)
  | switch (next : Nat)
  | interrupt (vector : Nat) (stub : Stub) (errorCode : Option Word) (ret : Word)
  /-- The handler has returned to the routine. -/
  | iret (stub : Stub)

/-- What the routine of a vector pushes. -/
def pushesOf (vector : Nat) : List Word :=
  if errorVectors.contains vector then [BitVec.ofNat 32 vector]
  else [BitVec.ofNat 32 (vector - isrs.length), BitVec.ofNat 32 vector]

theorem pushes_stubOf : ∀ vector < (isrs ++ irqs).length,
    (stubOf vector).map (fun stub => stub.pushes.map (BitVec.signExtend 32)) =
      some (pushesOf vector) := by
  decide

/-- With the error code of the processor there are two words in every case. -/
theorem pushedWords_of_stubOf {vector : Nat} {stub : Stub} {errorCode : Option Word}
    (hstub : stubOf vector = some stub)
    (herror : errorCode.isSome = errorVectors.contains vector) :
    pushedWords stub errorCode = [errCodeOf vector errorCode, BitVec.ofNat 32 vector] := by
  obtain ⟨hlt, -⟩ := List.getElem?_eq_some_iff.mp hstub
  have hpushes := pushes_stubOf vector hlt
  rw [hstub, Option.map_some, Option.some_inj] at hpushes
  rw [pushedWords, hpushes, pushesOf, errCodeOf]
  cases errorCode with
  | none =>
      rw [← herror]
      rfl
  | some w =>
      rw [← herror]
      rfl

section Steps

variable (image : Image) (tops : StackTops) (idt : Nat → IdtEntry)

/-- The bytes of a thread from here on belong to what it was doing. -/
def StackTops.limit (page : Nat) : List Suspension → Nat
  | [] => tops.top page
  | x :: _ => x.bottom page

def State.apply (s : State) : Event → State
  | .work m' => { s with m := m' }
  | .create page func aux =>
      { s with
        m := s.m.withMem (createStack image page func aux s.m.mem)
        suspended := Function.update s.suspended page [.created func aux] }
  | .free page => { s with suspended := Function.update s.suspended page [] }
  | .switch next =>
      let parked := Function.update s.suspended s.current
        (.switched s.m :: s.suspended s.current)
      { m := switchThreads s.m
        current := next
        suspended := Function.update parked next (parked next).tail }
  | .interrupt vector stub errorCode ret =>
      let gate := initIdt image idt vector
      let m := s.m.interrupt gate.selector gate.target errorCode
      { s with
        m := (stubAt image m.eip).elim m fun routine => routine.enter image ret m
        suspended := Function.update s.suspended s.current
          (.interrupted s.m stub (BitVec.ofNat 32 vector) (errCodeOf vector errorCode) ::
            s.suspended s.current) }
  | .iret stub =>
      { s with
        m := stub.leave s.m
        suspended := Function.update s.suspended s.current (s.suspended s.current).tail }

/-- The bytes that the running thread may not change. -/
def State.Protected (s : State) (c : Nat) : Prop :=
  ∃ page, (tops.limit page (s.suspended page) ≤ c ∧ c < tops.top page) ∨
    (page ≠ s.current ∧ s.suspended page ≠ [] ∧ page ≤ c ∧ c < page + 4)

/-- The stack pointer is on the part of the stack of the running thread that is in use. -/
def State.OnStack (s : State) (m : Machine) : Prop :=
  s.current + 4 ≤ m.sp ∧ m.sp ≤ tops.limit s.current (s.suspended s.current) ∧
    m.sp < tops.top s.current

/-- What the code of the kernel and the processor promise. -/
def State.Guard (s : State) : Event → Prop
  | .work m' => s.OnStack tops m' ∧ ∀ c, s.Protected tops c → m'.mem c = s.m.mem c
  | .create page _ _ =>
      IsPage page ∧ page ≠ s.current ∧ s.suspended page = [] ∧
        tops.top page = page + stackSize
  | .free page => page ≠ s.current
  | .switch next =>
      readPtr s.m.mem (s.m.sp + 4) = s.current ∧ readPtr s.m.mem (s.m.sp + 8) = next ∧
        s.current + 20 ≤ s.m.sp ∧
        s.m.sp + 12 ≤ tops.limit s.current (s.suspended s.current) ∧
        (next = s.current ∨ s.suspended next ≠ [])
  | .interrupt vector stub errorCode _ =>
      stubOf vector = some stub ∧ errorCode.isSome = errorVectors.contains vector ∧
        s.current + 68 ≤ s.m.sp
  | .iret stub =>
      ∃ m₀ intNo errCode rest,
        s.suspended s.current = .interrupted m₀ stub intNo errCode :: rest ∧
        s.m.sp + 4 = m₀.sp - frameSize

def Step (s : State) (e : Event) (t : State) : Prop :=
  s.Guard tops e ∧ t = s.apply image idt e

/-- The stack of a thread, from what it did last to its first code. -/
def Nested (page : Nat) : List Suspension → Prop
  | [] => True
  | x :: rest =>
      page + 4 ≤ x.bottom page ∧ x.bottom page ≤ x.resumeSp page ∧
        x.resumeSp page ≤ tops.limit page rest ∧
        x.resumeSp page < tops.top page ∧ (∀ y ∈ rest, ¬ y.Parked) ∧ Nested page rest

structure Inv (s : State) : Prop where
  current_page : IsPage s.current
  page : ∀ page, s.suspended page ≠ [] → IsPage page
  onStack : s.OnStack tops s.m
  nested : ∀ page, Nested tops page (s.suspended page)
  held : ∀ page, ∀ x ∈ s.suspended page, x.Held image page (tops.top page) s.m.mem
  running : ∀ x ∈ s.suspended s.current, ¬ x.Parked
  parked : ∀ page, page ≠ s.current → ∀ x rest, s.suspended page = x :: rest →
    x.Parked ∧ readPtr s.m.mem page = x.bottom page

section Frames

variable {image} {tops} {page : Nat} {mem mem' : Memory} {x : Suspension}
  {rest : List Suspension}

theorem IsPage.top_le (h : IsPage page) (tops : StackTops) : tops.top page ≤ 2 ^ 32 := by
  have htop := tops.top_le page
  have haligned := h.aligned
  have hlt := h.lt
  rw [stackSize] at htop haligned
  omega

theorem IsPage.disjoint {p q : Nat} (hp : IsPage p) (hq : IsPage q) (hne : p ≠ q) :
    p + stackSize ≤ q ∨ q + stackSize ≤ p := by
  have hp' := hp.aligned
  have hq' := hq.aligned
  rw [stackSize] at *
  omega

theorem held_congr (hn : Nested tops page (x :: rest))
    (hmem : ∀ c, x.bottom page ≤ c → c < tops.top page → mem' c = mem c)
    (hx : x.Held image page (tops.top page) mem) : x.Held image page (tops.top page) mem' := by
  obtain ⟨hlo, -, -, htop, -⟩ := hn
  cases x with
  | switched m =>
      simp only [Suspension.bottom, Suspension.resumeSp] at hlo hmem htop
      refine ⟨wordsAt_congr (fun c h1 h2 => hmem c h1 ?_) hx.1, fun c h1 h2 => ?_⟩
      · rw [parkedWords] at h2
        simp only [List.length_cons, List.length_nil] at h2
        omega
      · rw [hmem c (by omega) h2]
        exact hx.2 c h1 h2
  | interrupted m stub intNo errCode =>
      simp only [Suspension.bottom, Suspension.resumeSp, frameSize] at hlo hmem htop
      refine ⟨wordsAt_congr (fun c h1 h2 => hmem c h1 ?_) hx.1, fun c h1 h2 => ?_⟩
      · simp only [RegisterFrame.words, List.length_cons, List.length_nil, frameSize] at h1 h2
        omega
      · rw [hmem c (by omega) h2]
        exact hx.2 c h1 h2
  | created func aux =>
      simp only [Suspension.bottom] at hmem
      obtain ⟨heq, hzero, hwords⟩ := hx
      have hsize : firstEsp page + 36 = tops.top page := by
        rw [heq]
        simp only [firstEsp, stackSize, sizeofThreadFuncFrame, sizeofTailFrame,
          sizeofStackFrame]
        omega
      refine ⟨heq, ?_, wordsAt_congr (fun c h1 h2 => hmem c ?_ ?_) hwords⟩
      · rw [readWord_congr fun c h1 h2 => hmem c h1 (by omega)]
        exact hzero
      · omega
      · simp only [List.length_cons, List.length_nil, offsetofEip] at h2
        omega

theorem limit_le_bottom (hn : Nested tops page (x :: rest)) :
    x.bottom page ≤ tops.limit page rest :=
  hn.2.1.trans hn.2.2.1

theorem heldAll_congr {l : List Suspension} (hn : Nested tops page l)
    (hmem : ∀ c, tops.limit page l ≤ c → c < tops.top page → mem' c = mem c)
    (hl : ∀ x ∈ l, x.Held image page (tops.top page) mem) :
    ∀ x ∈ l, x.Held image page (tops.top page) mem' := by
  induction l with
  | nil => exact fun x hx => absurd hx List.not_mem_nil
  | cons x rest ih =>
      have hx := held_congr hn hmem (hl x List.mem_cons_self)
      have hrest := ih hn.2.2.2.2.2 (fun c h1 h2 => hmem c ((limit_le_bottom hn).trans h1) h2)
        fun y hy => hl y (List.mem_cons_of_mem x hy)
      intro y hy
      rcases List.mem_cons.mp hy with rfl | hy
      · exact hx
      · exact hrest y hy

theorem page_le_limit {l : List Suspension} (hn : Nested tops page l) (hl : l ≠ []) :
    page + 4 ≤ tops.limit page l := by
  cases l with
  | nil => exact absurd rfl hl
  | cons x rest => exact hn.1

theorem limit_le_top {l : List Suspension} (hn : Nested tops page l) :
    tops.limit page l ≤ tops.top page := by
  cases l with
  | nil => exact Nat.le_refl _
  | cons x rest => exact hn.2.1.trans hn.2.2.2.1.le

end Frames

section Preservation

variable {image} {tops} {idt} {s : State}

/-- The invariant survives a change of memory that keeps what the suspended code needs. -/
theorem Inv.with_machine {m' : Machine} (hs : Inv image tops s) (hon : s.OnStack tops m')
    (hmem : ∀ page, ∀ c, tops.limit page (s.suspended page) ≤ c → c < tops.top page →
      m'.mem c = s.m.mem c)
    (hesp : ∀ page, page ≠ s.current → s.suspended page ≠ [] →
      ∀ c, page ≤ c → c < page + 4 → m'.mem c = s.m.mem c) :
    Inv image tops { s with m := m' } := by
  refine ⟨hs.current_page, hs.page, hon, hs.nested, fun page => ?_, hs.running,
    fun page hne x rest hx => ?_⟩
  · exact heldAll_congr (hs.nested page) (hmem page) (hs.held page)
  · obtain ⟨hparked, hread⟩ := hs.parked page hne x rest hx
    refine ⟨hparked, ?_⟩
    rw [readPtr_congr (hesp page hne (by rw [hx]; exact List.cons_ne_nil x rest))]
    exact hread

theorem inv_work {m' : Machine} (hs : Inv image tops s)
    (hguard : s.Guard tops (.work m')) : Inv image tops (s.apply image idt (.work m')) := by
  obtain ⟨hon, hmem⟩ := hguard
  refine hs.with_machine hon (fun page c h1 h2 => ?_) fun page hne hl c h1 h2 => ?_
  · exact hmem c ⟨page, Or.inl ⟨h1, h2⟩⟩
  · exact hmem c ⟨page, Or.inr ⟨hne, hl, h1, h2⟩⟩

theorem Inv.with_suspended {page : Nat} {l : List Suspension} (hs : Inv image tops s)
    (hpage : l ≠ [] → IsPage page) (hn : Nested tops page l)
    (hheld : ∀ x ∈ l, x.Held image page (tops.top page) s.m.mem)
    (hcur : page = s.current → (∀ x ∈ l, ¬ x.Parked) ∧ s.m.sp ≤ tops.limit page l)
    (hother : page ≠ s.current → ∀ x rest, l = x :: rest →
      x.Parked ∧ readPtr s.m.mem page = x.bottom page) :
    Inv image tops { s with suspended := Function.update s.suspended page l } := by
  have hcases : ∀ {motive : Nat → List Suspension → Prop}, motive page l →
      (∀ p, p ≠ page → motive p (s.suspended p)) →
      ∀ p, motive p (Function.update s.suspended page l p) := by
    intro motive hsame hne p
    by_cases hp : p = page
    · subst hp
      rw [Function.update_self]
      exact hsame
    · rw [Function.update_of_ne hp]
      exact hne p hp
  have hrunning : s.m.sp ≤ tops.limit s.current (Function.update s.suspended page l s.current) ∧
      ∀ x ∈ Function.update s.suspended page l s.current, ¬ x.Parked := by
    refine hcases (motive := fun p l' => p = s.current →
      s.m.sp ≤ tops.limit p l' ∧ ∀ x ∈ l', ¬ x.Parked) ?_ ?_ s.current rfl
    · exact fun heq => ⟨(hcur heq).2, (hcur heq).1⟩
    · intro p _ heq
      rw [heq]
      exact ⟨hs.onStack.2.1, hs.running⟩
  refine ⟨hs.current_page, ?_, ⟨hs.onStack.1, hrunning.1, hs.onStack.2.2⟩, ?_, ?_, hrunning.2,
    ?_⟩
  · exact hcases (motive := fun p l' => l' ≠ [] → IsPage p) hpage fun p _ => hs.page p
  · exact hcases (motive := Nested tops) hn fun p _ => hs.nested p
  · exact hcases (motive := fun p l' => ∀ x ∈ l', x.Held image p (tops.top p) s.m.mem) hheld
      fun p _ => hs.held p
  · exact hcases (motive := fun p l' => p ≠ s.current → ∀ x rest, l' = x :: rest →
      x.Parked ∧ readPtr s.m.mem p = x.bottom p) hother fun p _ => hs.parked p

theorem inv_free {page : Nat} (hs : Inv image tops s) (hguard : s.Guard tops (.free page)) :
    Inv image tops (s.apply image idt (.free page)) := by
  refine hs.with_suspended (fun h => absurd rfl h) trivial
    (fun x hx => absurd hx List.not_mem_nil) (fun h => absurd h hguard) fun _ x rest h => ?_
  exact absurd h.symm (List.cons_ne_nil x rest)

theorem inv_create {page : Nat} {func aux : Word} (hs : Inv image tops s)
    (hguard : s.Guard tops (.create page func aux)) :
    Inv image tops (s.apply image idt (.create page func aux)) := by
  obtain ⟨hpage, hne, hnil, htop⟩ := hguard
  have hfirst := firstEsp_eq page
  have hlt : page + stackSize ≤ 2 ^ 32 := htop ▸ hpage.top_le tops
  have hother : ∀ p, s.suspended p ≠ [] → ∀ c, p ≤ c → c < p + stackSize →
      createStack image page func aux s.m.mem c = s.m.mem c := by
    intro p hp c h1 h2
    have hpne : p ≠ page := fun heq => hp (heq ▸ hnil)
    have hdisjoint := (hs.page p hp).disjoint hpage hpne
    rw [stackSize] at h2 hdisjoint
    exact createStack_of_outside (by omega) (by rw [stackSize]; omega)
  have hkeep : Inv image tops
      { s with m := s.m.withMem (createStack image page func aux s.m.mem) } := by
    refine hs.with_machine hs.onStack (fun p c h1 h2 => ?_) fun p _ hl c h1 h2 => ?_
    · by_cases hp : s.suspended p = []
      · rw [hp, StackTops.limit] at h1
        omega
      · have hlimit := page_le_limit (hs.nested p) hp
        have htop' := tops.top_le p
        exact hother p hp c (by omega) (by omega)
    · exact hother p hl c h1 (by rw [stackSize]; omega)
  refine hkeep.with_suspended (fun _ => hpage) ?_ ?_ (fun heq => absurd heq hne) ?_
  · simp only [Nested, Suspension.bottom, Suspension.resumeSp, StackTops.limit, htop, hfirst,
      sizeofStackFrame, stackSize]
    refine ⟨by omega, by omega, by omega, by omega, fun y hy => ?_, trivial⟩
    exact absurd hy List.not_mem_nil
  · intro x hx
    rw [List.mem_singleton.mp hx]
    exact ⟨htop, readWord_createStack image page func aux s.m.mem,
      wordsAt_createStack image page func aux s.m.mem⟩
  · intro _ x rest hx
    obtain ⟨rfl, -⟩ := List.cons.inj hx
    exact ⟨trivial, readPtr_createStack image func aux s.m.mem hlt⟩

theorem Inv.other_esp {page : Nat} (hs : Inv image tops s) (hne : page ≠ s.current)
    (hl : s.suspended page ≠ []) {c : Nat} (h1 : page ≤ c) (h2 : c < page + stackSize) :
    c < s.current ∨ s.current + stackSize ≤ c := by
  have hdisjoint := (hs.page page hl).disjoint hs.current_page hne
  omega

/-- The stacks in use are above the stack pointer or in another page. -/
theorem Inv.other_stack {page : Nat} (hs : Inv image tops s) {c : Nat}
    (h1 : tops.limit page (s.suspended page) ≤ c) (h2 : c < tops.top page) :
    s.m.sp ≤ c ∨ c < s.current := by
  by_cases hcur : page = s.current
  · subst hcur
    exact Or.inl (hs.onStack.2.1.trans h1)
  · by_cases hl : s.suspended page = []
    · rw [hl, StackTops.limit] at h1
      omega
    · have hlimit := page_le_limit (hs.nested page) hl
      have htop := tops.top_le page
      have hother := hs.other_esp hcur hl (c := c) (by omega) (by omega)
      have hsp := hs.onStack.2.2
      have hcurtop := tops.top_le s.current
      omega

theorem interrupt_eip (m : Machine) (selector : BitVec 16) (target : Word)
    (errorCode : Option Word) : (m.interrupt selector target errorCode).eip = target := by
  cases errorCode <;> rfl

/-- The gate of a vector leads to the routine of the vector. -/
theorem apply_interrupt {vector : Nat} {stub : Stub} (hstub : stubOf vector = some stub)
    (errorCode : Option Word) (ret : Word) :
    (s.apply image idt (.interrupt vector stub errorCode ret)).m =
      stub.enter image ret (s.m.interrupt (initIdt image idt vector).selector
        (initIdt image idt vector).target errorCode) := by
  have hlt := (List.getElem?_eq_some_iff.mp hstub).1
  simp only [State.apply]
  rw [interrupt_eip, stubAt_gate hlt, hstub, Option.elim_some]

/-- The frame that an interrupt leaves, and the stack pointer with which the handler starts. -/
theorem interrupt_frame {vector : Nat} {stub : Stub} {errorCode : Option Word} {ret : Word}
    (hguard : s.Guard tops (.interrupt vector stub errorCode ret)) {t : State}
    (ht : t = s.apply image idt (.interrupt vector stub errorCode ret)) :
    t.m.sp = s.m.sp - 64 ∧
      WordsAt t.m.mem (s.m.sp - 64) (ret :: (s.m.reg .esp - 56#32) ::
        (frameOf s.m (BitVec.ofNat 32 vector) (errCodeOf vector errorCode)).words) ∧
      ∀ c, c < s.m.sp - 64 ∨ s.m.sp ≤ c → t.m.mem c = s.m.mem c := by
  obtain ⟨hstub, herror, hroom⟩ := hguard
  have hwords := pushedWords_of_stubOf hstub herror
  have hstack : SameStack t.m (s.m.pushAll ((frameOf s.m (BitVec.ofNat 32 vector)
      (errCodeOf vector errorCode)).words.reverse ++ [s.m.reg .esp - 56#32, ret])) := by
    rw [ht, apply_interrupt hstub]
    exact sameStack_interrupt_enter hwords
  have hlen : 4 * ((frameOf s.m (BitVec.ofNat 32 vector)
      (errCodeOf vector errorCode)).words.reverse ++ [s.m.reg .esp - 56#32, ret]).length = 64 :=
    rfl
  have hsp : t.m.sp = s.m.sp - 64 := by
    rw [hstack.sp, sp_pushAll (by omega), hlen]
  refine ⟨hsp, ?_, fun c hc => ?_⟩
  · have hnil : WordsAt s.m.mem s.m.sp [] := trivial
    have hpush := wordsAt_pushAll (hlen.trans_le (by omega)) hnil
    rw [← hstack.mem, ← hstack.sp, hsp, List.append_nil, List.reverse_append,
      List.reverse_reverse] at hpush
    exact hpush
  · rw [hstack.mem]
    exact pushAll_mem_of_outside (by omega) (by omega)

theorem inv_interrupt {vector : Nat} {stub : Stub} {errorCode : Option Word} {ret : Word}
    (hs : Inv image tops s) (hguard : s.Guard tops (.interrupt vector stub errorCode ret)) :
    Inv image tops (s.apply image idt (.interrupt vector stub errorCode ret)) := by
  obtain ⟨t, ht⟩ : ∃ t, t = s.apply image idt (.interrupt vector stub errorCode ret) := ⟨_, rfl⟩
  obtain ⟨hsp, hframe, hmem⟩ := interrupt_frame hguard ht
  have hroom := hguard.2.2
  obtain ⟨hlo, hlimit, htop⟩ := hs.onStack
  have hcurtop := tops.top_le s.current
  have hkeep : Inv image tops { s with m := t.m } := by
    refine hs.with_machine ⟨by omega, by omega, by omega⟩ (fun p c h1 h2 => hmem c ?_)
      fun p hne hl c h1 h2 => hmem c ?_
    · have hstack := hs.other_stack h1 h2
      omega
    · have hesp := hs.other_esp hne hl h1 (by rw [stackSize]; omega)
      omega
  have hinv : Inv image tops
      { s with
        m := t.m
        suspended := Function.update s.suspended s.current
          (.interrupted s.m stub (BitVec.ofNat 32 vector) (errCodeOf vector errorCode) ::
            s.suspended s.current) } := by
    refine hkeep.with_suspended (fun _ => hs.current_page) ?_ ?_ (fun _ => ⟨?_, ?_⟩)
      fun hne => absurd rfl hne
    · simp only [Nested, Suspension.bottom, Suspension.resumeSp, frameSize]
      exact ⟨by omega, by omega, hlimit, htop, hs.running, hs.nested s.current⟩
    · intro x hx
      rcases List.mem_cons.mp hx with rfl | hx
      · refine ⟨?_, fun c h1 _ => hmem c (Or.inr h1)⟩
        rw [show s.m.sp - frameSize = s.m.sp - 64 + 4 + 4 by rw [frameSize]; omega]
        exact hframe.2.2
      · exact hkeep.held s.current x hx
    · intro x hx
      rcases List.mem_cons.mp hx with rfl | hx
      · exact fun h => h
      · exact hs.running x hx
    · simp only [StackTops.limit, Suspension.bottom, frameSize]
      omega
  rw [ht] at hinv
  exact hinv

theorem inv_iret {stub : Stub} (hs : Inv image tops s) (hguard : s.Guard tops (.iret stub)) :
    Inv image tops (s.apply image idt (.iret stub)) := by
  obtain ⟨m₀, intNo, errCode, rest, hl, hsp⟩ := hguard
  have hn := hs.nested s.current
  have hheld := hs.held s.current
  have hrunning := hs.running
  rw [hl] at hn hheld hrunning
  obtain ⟨hlo, hmid, hlimit, htop, hparked, hrest⟩ := hn
  simp only [Suspension.bottom, Suspension.resumeSp, frameSize] at hlo hmid hlimit htop hsp
  have hlt : m₀.sp < 2 ^ 32 := (m₀.reg .esp).isLt
  have hpop : Inv image tops { s with
      suspended := Function.update s.suspended s.current (s.suspended s.current).tail } := by
    rw [hl, List.tail_cons]
    refine hs.with_suspended (fun _ => hs.current_page) hrest
      (fun x hx => hheld x (List.mem_cons_of_mem _ hx)) (fun _ => ⟨hparked, by omega⟩)
      fun hne => absurd rfl hne
  have hkeep (c : Nat) : (stub.leave s.m).mem c = s.m.mem c := congrFun (leave_mem stub s.m) c
  refine hpop.with_machine ?_ (fun _ c _ _ => hkeep c) fun _ _ _ c _ _ => hkeep c
  · have hleave := leave_sp (m := s.m) stub (by omega)
    refine ⟨?_, ?_, ?_⟩
    · rw [hleave]
      simp only
      omega
    · simp only [Function.update_self, hl, List.tail_cons]
      omega
    · simp only
      omega

/-- The threads and their suspensions once the running thread has been parked. -/
def State.parkedAt (s : State) : Nat → List Suspension :=
  Function.update s.suspended s.current (.switched s.m :: s.suspended s.current)

/-- No thread runs, and each can be continued. -/
structure AllParked (image : Image) (tops : StackTops) (suspended : Nat → List Suspension)
    (mem : Memory) : Prop where
  page : ∀ page, suspended page ≠ [] → IsPage page
  nested : ∀ page, Nested tops page (suspended page)
  held : ∀ page, ∀ x ∈ suspended page, x.Held image page (tops.top page) mem
  parked : ∀ page, ∀ x rest, suspended page = x :: rest →
    x.Parked ∧ readPtr mem page = x.bottom page

/-- What `switch_threads` stores on the stack and in the `esp` of the running thread. -/
theorem allParked_switch {next : Nat} (hs : Inv image tops s)
    (hguard : s.Guard tops (.switch next)) :
    AllParked image tops s.parkedAt (parkedMem s.m s.current) := by
  obtain ⟨-, -, hroom, hlimit, -⟩ := hguard
  obtain ⟨-, -, htop⟩ := hs.onStack
  have hcurtop := tops.top_le s.current
  have hkeep : ∀ c, c < s.m.sp - 16 ∨ s.m.sp ≤ c → c < s.current ∨ s.current + 4 ≤ c →
      parkedMem s.m s.current c = s.m.mem c :=
    fun c h1 h2 => parkedMem_of_outside (by omega) h1 h2
  have hothers : Inv image tops { s with m := s.m.withMem (parkedMem s.m s.current) } := by
    refine hs.with_machine hs.onStack (fun p c h1 h2 => ?_) fun p hne hl c h1 h2 => ?_
    · have hstack := hs.other_stack h1 h2
      exact hkeep c (by omega) (by omega)
    · have hesp := hs.other_esp hne hl h1 (by rw [stackSize]; omega)
      rw [stackSize] at hesp hcurtop
      exact hkeep c (by omega) (by omega)
  have hhead : (Suspension.switched s.m).Held image s.current (tops.top s.current)
      (parkedMem s.m s.current) :=
    ⟨wordsAt_parkedMem (by omega) (by omega), fun c h1 _ => hkeep c (by omega) (by omega)⟩
  have hlimit' := hlimit.trans (limit_le_top (hs.nested s.current))
  constructor
  · intro p hp
    by_cases hcur : p = s.current
    · exact hcur ▸ hs.current_page
    · rw [State.parkedAt, Function.update_of_ne hcur] at hp
      exact hs.page p hp
  · intro p
    by_cases hcur : p = s.current
    · rw [hcur, State.parkedAt, Function.update_self]
      simp only [Nested, Suspension.bottom, Suspension.resumeSp]
      exact ⟨by omega, by omega, by omega, by omega, hs.running, hs.nested s.current⟩
    · rw [State.parkedAt, Function.update_of_ne hcur]
      exact hs.nested p
  · intro p x hx
    by_cases hcur : p = s.current
    · subst hcur
      rw [State.parkedAt, Function.update_self] at hx
      rcases List.mem_cons.mp hx with rfl | hx
      · exact hhead
      · exact hothers.held s.current x hx
    · rw [State.parkedAt, Function.update_of_ne hcur] at hx
      exact hothers.held p x hx
  · intro p x rest hx
    by_cases hcur : p = s.current
    · subst hcur
      rw [State.parkedAt, Function.update_self] at hx
      obtain ⟨rfl, -⟩ := List.cons.inj hx
      exact ⟨trivial, readPtr_parkedMem s.m s.current⟩
    · rw [State.parkedAt, Function.update_of_ne hcur] at hx
      exact hothers.parked p hcur x rest hx

theorem parked_next {next : Nat} (hguard : s.Guard tops (.switch next)) :
    ∃ x rest, s.parkedAt next = x :: rest := by
  obtain ⟨-, -, -, -, hnext⟩ := hguard
  refine List.exists_cons_of_ne_nil ?_
  by_cases hcur : next = s.current
  · rw [hcur, State.parkedAt, Function.update_self]
    exact List.cons_ne_nil _ _
  · rw [State.parkedAt, Function.update_of_ne hcur]
    exact hnext.resolve_left hcur

/-- The machine goes on with what the next thread has left. -/
theorem switch_resumed {next : Nat} {x : Suspension} {rest : List Suspension}
    (hs : Inv image tops s) (hguard : s.Guard tops (.switch next))
    (hx : s.parkedAt next = x :: rest) :
    Resumed (parkedMem s.m s.current) (x.bottom next) (switchThreads s.m) ∧
      x.bottom next + sizeofStackFrame = x.resumeSp next := by
  have hall := allParked_switch hs hguard
  obtain ⟨hcur, hnext, hroom, hlimit, -⟩ := hguard
  obtain ⟨hparked, hread⟩ := hall.parked next x rest hx
  have hn := hall.nested next
  rw [hx] at hn
  have hpage := (hall.page next (by rw [hx]; exact List.cons_ne_nil x rest)).top_le tops
  have hcurpage := hs.current_page.top_le tops
  have hresume : x.bottom next + sizeofStackFrame = x.resumeSp next := by
    obtain ⟨hlo, -⟩ := hn
    cases x with
    | switched m =>
        simp only [Suspension.bottom, Suspension.resumeSp, sizeofStackFrame] at hlo ⊢
        omega
    | interrupted m stub intNo errCode => exact absurd hparked (fun h => h)
    | created func aux => rfl
  obtain ⟨-, -, -, hlt, -⟩ := hn
  have hargs := (hlimit.trans (limit_le_top (hs.nested s.current))).trans hcurpage
  rw [sizeofStackFrame] at hresume
  refine ⟨?_, hresume⟩
  exact switchThreads_resumed (by omega) hargs hcur hnext (by omega) hread (by omega)

theorem inv_switch {next : Nat} (hs : Inv image tops s)
    (hguard : s.Guard tops (.switch next)) :
    Inv image tops (s.apply image idt (.switch next)) := by
  obtain ⟨x, rest, hx⟩ := parked_next hguard
  have hall := allParked_switch hs hguard
  obtain ⟨hresumed, hsp⟩ := switch_resumed hs hguard hx
  have hn := hall.nested next
  rw [hx] at hn
  obtain ⟨hlo, hmid, hlimit, htop, hrunning, hrest⟩ := hn
  have hsp' : (switchThreads s.m).sp = x.resumeSp next := hresumed.sp.trans hsp
  have happly : s.apply image idt (.switch next) =
      ⟨switchThreads s.m, next, Function.update s.parkedAt next rest⟩ := by
    have htail : (s.parkedAt next).tail = rest := by rw [hx, List.tail_cons]
    rw [← htail]
    rfl
  have hpage := hall.page next (by rw [hx]; exact List.cons_ne_nil x rest)
  have hmem : (switchThreads s.m).mem = parkedMem s.m s.current := hresumed.mem
  have hheld := hall.held next
  rw [hx] at hheld
  rw [happly]
  refine ⟨hpage, fun p hp => ?_, ?_, fun p => ?_, fun p => ?_, ?_, fun p hp => ?_⟩
  · by_cases hnext : p = next
    · exact hnext ▸ hpage
    · simp only [Function.update_of_ne hnext] at hp
      exact hall.page p hp
  · refine ⟨?_, ?_, ?_⟩
    · simp only [hsp']
      omega
    · simp only [hsp', Function.update_self]
      exact hlimit
    · simp only [hsp']
      exact htop
  · by_cases hnext : p = next
    · subst hnext
      simp only [Function.update_self]
      exact hrest
    · simp only [Function.update_of_ne hnext]
      exact hall.nested p
  · simp only [hmem]
    by_cases hnext : p = next
    · subst hnext
      simp only [Function.update_self]
      exact fun y hy => hheld y (List.mem_cons_of_mem x hy)
    · simp only [Function.update_of_ne hnext]
      exact hall.held p
  · simp only [Function.update_self]
    exact hrunning
  · simp only [hmem, Function.update_of_ne hp]
    exact hall.parked p

theorem inv_step {e : Event} {t : State} (hs : Inv image tops s)
    (hstep : Step image tops idt s e t) : Inv image tops t := by
  obtain ⟨hguard, rfl⟩ := hstep
  cases e with
  | work m' => exact inv_work hs hguard
  | create page func aux => exact inv_create hs hguard
  | free page => exact inv_free hs hguard
  | switch next => exact inv_switch hs hguard
  | interrupt vector stub errorCode ret => exact inv_interrupt hs hguard
  | iret stub => exact inv_iret hs hguard

theorem inv_run {t : State} {es : List Event} (hrun : Run (Step image tops idt) s es t)
    (hs : Inv image tops s) : Inv image tops t :=
  hrun.invariant (Inv image tops) (fun _ _ _ h hstep => inv_step h hstep) hs

end Preservation

end Steps

end Longhorn.ContextSwitching
