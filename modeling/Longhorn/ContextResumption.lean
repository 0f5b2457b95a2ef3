import Longhorn.ContextSwitching

/-!
Every thread goes on where it stopped: after `switch_threads`, after an interrupt, and when it
runs for the first time.
-/

namespace Longhorn.ContextResumption

open Longhorn.Foundations.ByteMemory
open Longhorn.Foundations.Ia32
open Longhorn.Foundations.TransitionRuns
open Longhorn.SwitchModel
open Longhorn.SwitchRules
open Longhorn.ContextSwitching

/-- A call that was made in one state has returned in the other, as its caller relies on. -/
structure Returned (m₀ m : Machine) (top : Nat) : Prop where
  ebx : m.reg .ebx = m₀.reg .ebx
  esi : m.reg .esi = m₀.reg .esi
  edi : m.reg .edi = m₀.reg .edi
  ebp : m.reg .ebp = m₀.reg .ebp
  eip : m.eip = m₀.top
  sp : m.sp = m₀.sp + 4
  stack : ∀ c, m₀.sp + 4 ≤ c → c < top → m.mem c = m₀.mem c

/-- The code that an interrupt found in one state goes on in the other. -/
structure Undone (m₀ m : Machine) (top : Nat) : Prop where
  reg : m.reg = m₀.reg
  seg : ∀ s, m.seg s = m₀.seg .ds
  eip : m.eip = m₀.eip
  cs : m.cs = m₀.cs
  eflags : m.eflags = m₀.eflags
  stack : ∀ c, m₀.sp ≤ c → c < top → m.mem c = m₀.mem c

/-- The state in which the kernel starts its first thread. -/
structure Initial (tops : StackTops) (s : State) : Prop where
  page : IsPage s.current
  suspended : s.suspended = fun _ => []
  sp_ge : s.current + 4 ≤ s.m.sp
  sp_lt : s.m.sp < tops.top s.current

variable {image : Image} {tops : StackTops} {idt : Nat → IdtEntry} {s s₀ s₁ s₂ s₃ s₄ : State}
  {es es₀ : List Event}

theorem Initial.inv (h : Initial tops s) : Inv image tops s := by
  have hnil : ∀ page, s.suspended page = [] := fun page => congrFun h.suspended page
  refine ⟨h.page, fun page hp => absurd (hnil page) hp, ⟨h.sp_ge, ?_, h.sp_lt⟩, fun page => ?_,
    fun page x hx => ?_, fun x hx => ?_, fun page _ x rest hx => ?_⟩
  · rw [hnil]
    exact h.sp_lt.le
  · rw [hnil]
    trivial
  · rw [hnil] at hx
    exact absurd hx List.not_mem_nil
  · rw [hnil] at hx
    exact absurd hx List.not_mem_nil
  · rw [hnil] at hx
    exact absurd hx.symm (List.cons_ne_nil x rest)

theorem Initial.inv_of_run (h : Initial tops s₀) (hrun : Run (Step image tops idt) s₀ es s) :
    Inv image tops s :=
  inv_run hrun h.inv

theorem getLsbD_mask : ∀ i < 32, (4095#32).getLsbD i = decide (i < 12) := by
  decide

/-- The mask of `get_running` cuts off the low twelve bits. -/
theorem and_not_mask (w : Word) : w &&& ~~~4095#32 = (w >>> 12) <<< 12 := by
  apply BitVec.eq_of_getLsbD_eq
  intro i hi
  rw [BitVec.getLsbD_and, BitVec.getLsbD_not, getLsbD_mask i hi, BitVec.getLsbD_shiftLeft,
    BitVec.getLsbD_ushiftRight]
  by_cases hlow : i < 12
  · simp [hlow]
  · have hadd : 12 + (i - 12) = i := by omega
    simp [hlow, hi, hadd]

theorem getRunning_eq (m : Machine) : getRunning m = m.sp / stackSize * stackSize := by
  have hlt : m.sp < 2 ^ 32 := (m.reg .esp).isLt
  have hmask : BitVec.ofNat 32 (stackSize - 1) = 4095#32 := rfl
  rw [getRunning, hmask, and_not_mask, BitVec.toNat_shiftLeft, BitVec.toNat_ushiftRight,
    Nat.shiftRight_eq_div_pow, Nat.shiftLeft_eq, stackSize]
  exact Nat.mod_eq_of_lt (by rw [Machine.sp] at hlt; omega)

theorem getRunning_of_onStack (hpage : IsPage s.current) (hon : s.OnStack tops s.m) :
    getRunning s.m = s.current := by
  obtain ⟨hlo, -, hhi⟩ := hon
  have htop := tops.top_le s.current
  have haligned := hpage.aligned
  rw [getRunning_eq, stackSize] at *
  omega

section Calls

/-- `call switch_threads` with its two arguments. -/
def callSwitch (m : Machine) (cur next : Nat) (ret : Word) : Machine :=
  m.pushAll [BitVec.ofNat 32 next, BitVec.ofNat 32 cur, ret]

theorem step_setSp {w : Word} (hlo : s.current + 4 ≤ w.toNat)
    (hlimit : w.toNat ≤ tops.limit s.current (s.suspended s.current))
    (htop : w.toNat < tops.top s.current) :
    Step image tops idt s (.work (s.m.set .esp w)) { s with m := s.m.set .esp w } := by
  have hsp : (s.m.set .esp w).sp = w.toNat := congrArg BitVec.toNat (set_reg_same s.m .esp w)
  exact ⟨⟨⟨hsp ▸ hlo, hsp ▸ hlimit, hsp ▸ htop⟩, fun _ _ => rfl⟩, rfl⟩

variable (idt) in
theorem step_callSwitch {next : Nat} (ret : Word) (hs : Inv image tops s)
    (hroom : s.current + 32 ≤ s.m.sp) (hlt : next < 2 ^ 32)
    (hnext : next = s.current ∨ s.suspended next ≠ []) :
    Step image tops idt s (.work (callSwitch s.m s.current next ret))
        { s with m := callSwitch s.m s.current next ret } ∧
      State.Guard tops { s with m := callSwitch s.m s.current next ret } (.switch next) := by
  obtain ⟨-, hlimit, htop⟩ := hs.onStack
  have hlen : 4 * [BitVec.ofNat 32 next, BitVec.ofNat 32 s.current, ret].length = 12 := rfl
  have hsp : (callSwitch s.m s.current next ret).sp = s.m.sp - 12 := by
    rw [callSwitch, sp_pushAll (by omega), hlen]
  have hkeep : ∀ c, c < s.m.sp - 12 ∨ s.m.sp ≤ c →
      (callSwitch s.m s.current next ret).mem c = s.m.mem c :=
    fun c hc => pushAll_mem_of_outside (by omega) (by omega)
  have hnil : WordsAt s.m.mem s.m.sp [] := trivial
  obtain ⟨-, hcur, harg, -⟩ := wordsAt_pushAll (hlen.trans_le (by omega)) hnil
  refine ⟨⟨⟨⟨?_, ?_, ?_⟩, ?_⟩, rfl⟩, ?_, ?_, ?_, ?_, hnext⟩
  · omega
  · omega
  · omega
  · rintro c ⟨page, ⟨h1, h2⟩ | ⟨hne, hl, h1, h2⟩⟩
    · have hstack := hs.other_stack h1 h2
      exact hkeep c (by omega)
    · have hesp := hs.other_esp hne hl h1 (by rw [stackSize]; omega)
      have hcurtop := tops.top_le s.current
      exact hkeep c (by omega)
  · have hcurlt := hs.current_page.lt
    refine (congrArg BitVec.toNat hcur).trans ?_
    rw [BitVec.toNat_ofNat, Nat.mod_eq_of_lt hcurlt]
  · refine (congrArg BitVec.toNat harg).trans ?_
    rw [BitVec.toNat_ofNat, Nat.mod_eq_of_lt hlt]
  · simp only [hsp]
    omega
  · simp only [hsp]
    omega

/-- A kernel whose first thread has used 96 bytes of its stack. -/
def bootTops : StackTops := ⟨fun page => page + stackSize, fun _ => Nat.le_refl _⟩

def bootImage : Image where
  threadExecute := 0x8000
  firstSwitchEntry := 0x8100
  isrHandler := 0x8200
  irqHandler := 0x8300
  isr n := 0x8400 + n
  irq n := 0x8500 + n
  apart := by decide

def bootIdt : Nat → IdtEntry := fun _ => ⟨0, 0, 0, 0, 0⟩

def bootState : State where
  m :=
    { reg := fun r => if r = .esp then 0x100FA0 else 7, seg := fun _ => 0x10, cs := 0x08
      eflags := 0x202, eip := 0x8000, mem := fun _ => 0, ports := [] }
  current := 0x100000
  suspended := fun _ => []

theorem initial_bootState : Initial bootTops bootState :=
  ⟨⟨by decide, by decide⟩, rfl, by decide, by decide⟩

def bootCreate : Event := .create 0x200000 0x9000 5

def bootCreated : State := bootState.apply bootImage bootIdt bootCreate

theorem step_bootCreate : Step bootImage bootTops bootIdt bootState bootCreate bootCreated :=
  ⟨⟨⟨by decide, by decide⟩, by decide, rfl, rfl⟩, rfl⟩

def bootCalling : State :=
  { bootCreated with m := callSwitch bootCreated.m bootState.current 0x200000 0x8800 }

theorem step_bootCall :
    Step bootImage bootTops bootIdt bootCreated
        (.work (callSwitch bootCreated.m bootState.current 0x200000 0x8800)) bootCalling ∧
      State.Guard bootTops bootCalling (.switch 0x200000) :=
  step_callSwitch bootIdt _ (inv_step initial_bootState.inv step_bootCreate) (by decide) (by decide)
    (Or.inr (by decide))

/-- In every state that the kernel reaches, `THREAD_CUR` is the thread that has been given the
processor. -/
theorem getRunning_of_run (h : Initial tops s₀) (hrun : Run (Step image tops idt) s₀ es s) :
    getRunning s.m = s.current := by
  have hinv : Inv image tops s := h.inv_of_run hrun
  exact getRunning_of_onStack hinv.current_page hinv.onStack

theorem getRunning_of_run_boot : getRunning bootCalling.m = 0x100000 :=
  getRunning_of_run initial_bootState (.cons step_bootCreate (.single step_bootCall.1))

end Calls

section Switch

variable {page : Nat}

variable (image) (idt) in
theorem suspended_of_step {e : Event} (hguard : s.Guard tops e)
    (he : e ≠ .switch page ∧ e ≠ .free page) (hcur : s.current ≠ page)
    (hl : s.suspended page ≠ []) :
    (s.apply image idt e).suspended page = s.suspended page ∧
      (s.apply image idt e).current ≠ page := by
  cases e with
  | work m' => exact ⟨rfl, hcur⟩
  | create p func aux =>
      have hp : page ≠ p := fun heq => hl (heq ▸ hguard.2.2.1)
      exact ⟨Function.update_of_ne hp _ _, hcur⟩
  | free p =>
      have hp : page ≠ p := fun heq => he.2 (heq ▸ rfl)
      exact ⟨Function.update_of_ne hp _ _, hcur⟩
  | switch next =>
      have hnext : page ≠ next := fun heq => he.1 (heq ▸ rfl)
      refine ⟨?_, hnext.symm⟩
      exact (Function.update_of_ne hnext _ _).trans (Function.update_of_ne hcur.symm _ _)
  | interrupt vector stub errorCode ret => exact ⟨Function.update_of_ne hcur.symm _ _, hcur⟩
  | iret stub => exact ⟨Function.update_of_ne hcur.symm _ _, hcur⟩

theorem suspended_of_run (hrun : Run (Step image tops idt) s es s₃)
    (hes : ∀ e ∈ es, e ≠ .switch page ∧ e ≠ .free page) (hcur : s.current ≠ page)
    (hl : s.suspended page ≠ []) : s₃.suspended page = s.suspended page ∧ s₃.current ≠ page := by
  induction hrun with
  | nil s => exact ⟨rfl, hcur⟩
  | @cons s t u e es hstep hrun ih =>
      obtain ⟨hguard, rfl⟩ := hstep
      have hkeep := suspended_of_step image idt hguard
        (hes e List.mem_cons_self) hcur hl
      have htail := ih (fun e' he' => hes e' (List.mem_cons_of_mem e he')) hkeep.2
        (by rw [hkeep.1]; exact hl)
      exact ⟨htail.1.trans hkeep.1, htail.2⟩

theorem returned_of_switched {next : Nat} {m₀ : Machine} (rest : List Suspension)
    (hs : Inv image tops s) (hguard : s.Guard tops (.switch next))
    (hx : s.parkedAt next = .switched m₀ :: rest) :
    Returned m₀ (switchThreads s.m) (tops.top next) := by
  obtain ⟨hresumed, hsp⟩ := switch_resumed hs hguard hx
  have hheld := (allParked_switch hs hguard).held next (.switched m₀)
    (by rw [hx]; exact List.mem_cons_self)
  obtain ⟨⟨hesi, hedi, hebx, hebp, heip, -⟩, hstack⟩ := hheld
  constructor
  · exact hresumed.ebx.trans hebx
  · exact hresumed.esi.trans hesi
  · exact hresumed.edi.trans hedi
  · exact hresumed.ebp.trans hebp
  · exact hresumed.eip.trans heip
  · exact hresumed.sp.trans hsp
  · intro c h1 h2
    rw [hresumed.mem]
    exact hstack c h1 h2

/-- A call of `switch_threads` returns when the thread is next switched to, whatever the other
threads and the interrupts have done until then. -/
theorem switch_returns {next : Nat} (h₀ : Initial tops s₀)
    (hrun₀ : Run (Step image tops idt) s₀ es₀ s₁)
    (hout : Step image tops idt s₁ (.switch next) s₂) (hne : next ≠ s₁.current)
    (hrun : Run (Step image tops idt) s₂ es s₃)
    (hes : ∀ e ∈ es, e ≠ .switch s₁.current ∧ e ≠ .free s₁.current)
    (hback : Step image tops idt s₃ (.switch s₁.current) s₄) :
    Returned s₁.m s₄.m (tops.top s₁.current) := by
  have hinv₁ : Inv image tops s₁ := h₀.inv_of_run hrun₀
  have hinv₃ : Inv image tops s₃ := inv_run hrun (inv_step hinv₁ hout)
  obtain ⟨-, rfl⟩ := hout
  obtain ⟨hguard, rfl⟩ := hback
  have hparked : (s₁.apply image idt (.switch next)).suspended s₁.current =
      .switched s₁.m :: s₁.suspended s₁.current :=
    (Function.update_of_ne hne.symm _ _).trans (Function.update_self _ _ _)
  obtain ⟨hsame, hcur⟩ := suspended_of_run hrun hes hne
    (by rw [hparked]; exact List.cons_ne_nil _ _)
  refine returned_of_switched (s₁.suspended s₁.current) hinv₃ hguard ?_
  rw [State.parkedAt, Function.update_of_ne hcur.symm, hsame, hparked]

theorem switch_returns_boot : ∃ s₄ : State,
    Returned bootCalling.m s₄.m (bootTops.top bootCalling.current) := by
  obtain ⟨hcall, hguard⟩ := step_bootCall
  have hrun := Run.cons step_bootCreate (.single hcall)
  have hinv := inv_run hrun initial_bootState.inv
  have hout : Step bootImage bootTops bootIdt bootCalling (.switch 0x200000) _ := ⟨hguard, rfl⟩
  obtain ⟨t, ht⟩ : ∃ t, t = bootCalling.apply bootImage bootIdt (.switch 0x200000) := ⟨_, rfl⟩
  rw [← ht] at hout
  -- the second thread uses some of its stack and switches back
  have hlist : t.suspended t.current = [] := by
    rw [ht]
    rfl
  have hmove : Step bootImage bootTops bootIdt t _ _ :=
    step_setSp (w := 0x200F00) (by rw [ht]; decide) (by rw [hlist, ht]; decide)
      (by rw [ht]; decide)
  have hlt : bootState.current < 2 ^ 32 := by decide
  obtain ⟨hcall', hguard'⟩ := step_callSwitch bootIdt 0x8900 (inv_step (inv_step hinv hout) hmove)
    (by rw [ht]; decide) hlt (Or.inr (by rw [ht]; decide))
  have hback : Step bootImage bootTops bootIdt _ (.switch bootState.current) _ := ⟨hguard', rfl⟩
  have hreturned := switch_returns initial_bootState hrun hout (by decide)
    (.cons hmove (.single hcall')) (fun e he => by
      rcases List.mem_pair.mp he with rfl | rfl <;> exact ⟨nofun, nofun⟩) hback
  exact ⟨_, hreturned⟩

end Switch

section Interrupt

variable {page : Nat} {stub : Stub}

theorem undone_of_interrupted {m₀ : Machine} {intNo errCode : Word} {rest : List Suspension}
    (hs : Inv image tops s)
    (hl : s.suspended s.current = .interrupted m₀ stub intNo errCode :: rest)
    (hsp : s.m.sp + 4 = m₀.sp - frameSize) :
    Undone m₀ (stub.leave s.m) (tops.top s.current) := by
  have hn := hs.nested s.current
  have hheld := hs.held s.current (.interrupted m₀ stub intNo errCode)
    (by rw [hl]; exact List.mem_cons_self)
  rw [hl] at hn
  obtain ⟨hlo, -⟩ := hn
  obtain ⟨hframe, hstack⟩ := hheld
  simp only [Suspension.bottom, frameSize] at hlo hsp hframe
  have hlt : m₀.sp < 2 ^ 32 := (m₀.reg .esp).isLt
  have hwords : WordsAt s.m.mem s.m.sp
      (readWord s.m.mem s.m.sp :: (frameOf m₀ intNo errCode).words) := by
    refine ⟨rfl, ?_⟩
    rw [hsp]
    exact hframe
  have hcont := leave_continued stub hwords (by omega)
  have hesp : (stub.leave s.m).sp = m₀.sp := by
    rw [leave_sp stub (by omega)]
    omega
  constructor
  · funext r
    cases r with
    | eax => exact hcont.eax
    | ecx => exact hcont.ecx
    | edx => exact hcont.edx
    | ebx => exact hcont.ebx
    | esp => exact BitVec.eq_of_toNat_eq hesp
    | ebp => exact hcont.ebp
    | esi => exact hcont.esi
    | edi => exact hcont.edi
  · intro seg
    exact (hcont.seg seg).trans (setWidth_lowHalf _ _)
  · exact hcont.eip
  · refine hcont.cs.trans ?_
    rw [frameOf, BitVec.setWidth_setWidth_of_le _ (by decide), BitVec.setWidth_eq]
  · exact hcont.eflags
  · intro c h1 h2
    rw [leave_mem]
    exact hstack c h1 h2

theorem suffix_free (l : List Suspension) :
    l <:+ [] ∨ ([] : List Suspension).length < l.length := by
  cases l with
  | nil => exact Or.inl (List.suffix_refl [])
  | cons x l => exact Or.inr (Nat.succ_pos l.length)

theorem suffix_tail {l r : List Suspension} (hl : l <:+ r) :
    l <:+ r.tail ∨ r.tail.length < l.length := by
  cases r with
  | nil => exact Or.inl hl
  | cons x r =>
      rcases List.suffix_cons_iff.mp hl with rfl | hl
      · exact Or.inr (Nat.lt_succ_self r.length)
      · exact Or.inl hl

/-- A step takes off at most the last suspension, or all of them. -/
theorem suffix_of_step {e : Event} {l : List Suspension} (hguard : s.Guard tops e)
    (hl : s.suspended page ≠ []) (hsuffix : l <:+ s.suspended page) :
    l <:+ (s.apply image idt e).suspended page ∨
      ((s.apply image idt e).suspended page).length < l.length := by
  have hkeep : ∀ {r : List Suspension}, l <:+ r → l <:+ r ∨ r.length < l.length := Or.inl
  cases e with
  | work m' => exact hkeep hsuffix
  | create p func aux =>
      have hp : page ≠ p := fun heq => hl (heq ▸ hguard.2.2.1)
      have happly : (s.apply image idt (.create p func aux)).suspended page = s.suspended page :=
        Function.update_of_ne hp _ _
      rw [happly]
      exact hkeep hsuffix
  | free p =>
      by_cases hp : page = p
      · have happly : (s.apply image idt (.free p)).suspended page = [] :=
          hp ▸ Function.update_self _ _ _
        rw [happly]
        exact suffix_free l
      · have happly : (s.apply image idt (.free p)).suspended page = s.suspended page :=
          Function.update_of_ne hp _ _
        rw [happly]
        exact hkeep hsuffix
  | switch next =>
      have hparked : l <:+ s.parkedAt page := by
        by_cases hcur : page = s.current
        · subst hcur
          rw [State.parkedAt, Function.update_self]
          exact hsuffix.trans (List.suffix_cons _ _)
        · rw [State.parkedAt, Function.update_of_ne hcur]
          exact hsuffix
      by_cases hnext : page = next
      · have happly : (s.apply image idt (.switch next)).suspended page =
            (s.parkedAt page).tail := hnext ▸ Function.update_self _ _ _
        rw [happly]
        exact suffix_tail hparked
      · have happly : (s.apply image idt (.switch next)).suspended page = s.parkedAt page :=
          Function.update_of_ne hnext _ _
        rw [happly]
        exact hkeep hparked
  | interrupt vector stub errorCode ret =>
      by_cases hcur : page = s.current
      · subst hcur
        have happly : (s.apply image idt (.interrupt vector stub errorCode ret)).suspended
            s.current = _ :: s.suspended s.current := Function.update_self _ _ _
        rw [happly]
        exact hkeep (hsuffix.trans (List.suffix_cons _ _))
      · have happly : (s.apply image idt (.interrupt vector stub errorCode ret)).suspended page =
            s.suspended page := Function.update_of_ne hcur _ _
        rw [happly]
        exact hkeep hsuffix
  | iret stub =>
      by_cases hcur : page = s.current
      · subst hcur
        have happly : (s.apply image idt (.iret stub)).suspended s.current =
            (s.suspended s.current).tail := Function.update_self _ _ _
        rw [happly]
        exact suffix_tail hsuffix
      · have happly : (s.apply image idt (.iret stub)).suspended page = s.suspended page :=
          Function.update_of_ne hcur _ _
        rw [happly]
        exact hkeep hsuffix

/-- An `iret` that takes the stack of a thread back to where it was before an interrupt undoes
this interrupt. -/
theorem iret_undoes {vector : Nat} {stub' : Stub} {errorCode : Option Word} {ret : Word}
    (h₀ : Initial tops s₀) (hrun₀ : Run (Step image tops idt) s₀ es₀ s₁)
    (hin : Step image tops idt s₁ (.interrupt vector stub errorCode ret) s₂)
    (hrun : Run (Guarded (Step image tops idt) fun s _ =>
      (s₁.suspended s₁.current).length < (s.suspended s₁.current).length) s₂ es s₃)
    (hcur : s₃.current = s₁.current)
    (hlen : (s₃.suspended s₁.current).length = (s₁.suspended s₁.current).length + 1)
    (hout : Step image tops idt s₃ (.iret stub') s₄) :
    Undone s₁.m s₄.m (tops.top s₁.current) := by
  have hinv₁ : Inv image tops s₁ := h₀.inv_of_run hrun₀
  have hinv₃ : Inv image tops s₃ := inv_run hrun.of_guarded (inv_step hinv₁ hin)
  obtain ⟨-, rfl⟩ := hin
  obtain ⟨⟨m₀, intNo, errCode, rest, hl, hsp⟩, rfl⟩ := hout
  obtain ⟨x, hx⟩ : ∃ x, x = Suspension.interrupted s₁.m stub (BitVec.ofNat 32 vector)
    (errCodeOf vector errorCode) := ⟨_, rfl⟩
  have hstart : (s₁.apply image idt (.interrupt vector stub errorCode ret)).suspended s₁.current =
      x :: s₁.suspended s₁.current := by
    rw [hx]
    exact Function.update_self _ _ _
  -- while the guard holds, no step has reached the suspension of this interrupt
  have hkept : x :: s₁.suspended s₁.current <:+ s₃.suspended s₁.current ∨
      (s₃.suspended s₁.current).length < (x :: s₁.suspended s₁.current).length := by
    refine hrun.invariant (fun s => x :: s₁.suspended s₁.current <:+ s.suspended s₁.current ∨
      (s.suspended s₁.current).length < (x :: s₁.suspended s₁.current).length) ?_
      (Or.inl (hstart ▸ List.suffix_refl _))
    rintro s e t hs ⟨hdepth, hguard, rfl⟩
    have hsuffix := hs.resolve_right (Nat.not_lt.mpr hdepth)
    exact suffix_of_step hguard (List.length_pos_iff.mp (by omega)) hsuffix
  have hsame : x :: s₁.suspended s₁.current = s₃.suspended s₁.current :=
    (hkept.resolve_right (by rw [hlen]; exact Nat.lt_irrefl _)).eq_of_length hlen.symm
  rw [hcur, ← hsame, hx] at hl
  obtain ⟨hhead, -⟩ := List.cons.inj hl
  obtain ⟨rfl, rfl, rfl, rfl⟩ := Suspension.interrupted.inj hhead
  have hlist : s₃.suspended s₃.current = .interrupted s₁.m stub (BitVec.ofNat 32 vector)
      (errCodeOf vector errorCode) :: s₁.suspended s₁.current := by
    rw [hcur, ← hsame, hx]
  have hundone := undone_of_interrupted hinv₃ hlist hsp
  rw [hcur] at hundone
  exact hundone

theorem iret_undoes_boot : ∃ s₄ : State,
    Undone bootState.m s₄.m (bootTops.top bootState.current) := by
  obtain ⟨stub, hstub⟩ : ∃ stub, stub = Stub.mk [0, 32] true := ⟨_, rfl⟩
  have hin : Step bootImage bootTops bootIdt bootState (.interrupt 32 stub none 0x8300) _ :=
    ⟨⟨by rw [hstub]; rfl, by decide, by decide⟩, rfl⟩
  obtain ⟨t, ht⟩ : ∃ t, t = bootState.apply bootImage bootIdt
    (.interrupt 32 stub none 0x8300) := ⟨_, rfl⟩
  rw [← ht] at hin
  have hl : t.suspended bootState.current = [.interrupted bootState.m stub 32 0] := by
    rw [ht]
    rfl
  have hlen : (t.suspended bootState.current).length = 1 := by rw [hl, List.length_singleton]
  have hcur : t.current = bootState.current := by
    rw [ht]
    rfl
  have hlimit : bootTops.limit bootState.current [.interrupted bootState.m stub 32 0] =
      0x100F68 := rfl
  have hesp : (t.m.set .esp 0x100F64).sp = 0x100F64 :=
    congrArg BitVec.toNat (set_reg_same t.m .esp 0x100F64)
  -- the handler returns
  have hmove : Step bootImage bootTops bootIdt t _ _ :=
    step_setSp (w := 0x100F64) (by rw [hcur]; decide) (by rw [hcur, hl, hlimit]; decide)
      (by rw [hcur]; decide)
  have hout : Step bootImage bootTops bootIdt { t with m := t.m.set .esp 0x100F64 }
      (.iret stub) _ :=
    ⟨⟨bootState.m, 32, 0, [], by rw [← hl, ← hcur], by rw [hesp]; decide⟩, rfl⟩
  have hundone := iret_undoes initial_bootState (.nil bootState) hin
    (.single ⟨Nat.lt_of_lt_of_eq Nat.one_pos hlen.symm, hmove⟩) hcur hlen hout
  exact ⟨_, hundone⟩

end Interrupt

section FirstSwitch

variable {page : Nat} {func aux : Word}

/-- The machine calls `thread_execute` as the code of a thread that has no caller. -/
structure Executes (image : Image) (func aux : Word) (m : Machine) : Prop where
  eip : m.eip = image.threadExecute
  frame : WordsAt m.mem m.sp [0, func, aux]

theorem firstSwitchReturn_eq (m : Machine) :
    (firstSwitchReturn m).eip = m.top ∧ (firstSwitchReturn m).mem = m.mem ∧
      (firstSwitchReturn m).reg .esp = m.reg .esp + 4#32 ∧
      (firstSwitchReturn m).ports = (0x20, 0x20) :: m.ports := by
  refine ⟨rfl, rfl, rfl, ?_⟩
  have hal : (lowByte (m.reg .eax) 0x20).setWidth 8 = 0x20 := by
    rw [lowByte]
    exact BitVec.setWidth_append_eq_right
  rw [← hal]
  rfl

/-- `switch_threads` takes a new thread to `first_switch_entry`, and once `finish_schedule` has
returned there, the thread executes its function. -/
theorem executes_of_created {next : Nat} (rest : List Suspension) (hs : Inv image tops s)
    (hguard : s.Guard tops (.switch next)) (hx : s.parkedAt next = .created func aux :: rest) :
    (switchThreads s.m).eip = image.firstSwitchEntry ∧ (switchThreads s.m).reg .esi = 0 ∧
      ∀ (finish : Machine → Machine) (ret : Word),
        (finish ((switchThreads s.m).push ret)).sp = (switchThreads s.m).sp →
        (∀ c, (switchThreads s.m).sp ≤ c → c < tops.top next →
          (finish ((switchThreads s.m).push ret)).mem c = (switchThreads s.m).mem c) →
        Executes image func aux (firstSwitchEntry finish ret (switchThreads s.m)) ∧
          (firstSwitchEntry finish ret (switchThreads s.m)).ports =
            (0x20, 0x20) :: (finish ((switchThreads s.m).push ret)).ports := by
  obtain ⟨hresumed, hsp⟩ := switch_resumed hs hguard hx
  have hall := allParked_switch hs hguard
  obtain ⟨htop, hzero, hentry, hexec⟩ := hall.held next (.created func aux)
    (by rw [hx]; exact List.mem_cons_self)
  have hpage := (hall.page next (by rw [hx]; exact List.cons_ne_nil _ _)).top_le tops
  have hfirst := firstEsp_eq next
  simp only [Suspension.bottom, Suspension.resumeSp] at hresumed hsp
  have hmsp : (switchThreads s.m).sp = next + 4080 := by
    rw [hresumed.sp, hfirst]
  rw [offsetofEip, hfirst] at hentry hexec
  rw [hfirst] at hresumed hzero
  rw [htop, stackSize] at hpage
  refine ⟨hresumed.eip.trans hentry, hresumed.esi.trans hzero, fun finish ret hfsp hfmem => ?_⟩
  obtain ⟨m, hm⟩ : ∃ m, m = finish ((switchThreads s.m).push ret) := ⟨_, rfl⟩
  rw [← hm] at hfsp hfmem ⊢
  have hentry' : firstSwitchEntry finish ret (switchThreads s.m) = firstSwitchReturn m := by
    rw [hm]
    rfl
  obtain ⟨heip, hmem, hesp, hports⟩ := firstSwitchReturn_eq m
  have hwords : WordsAt m.mem m.sp [image.threadExecute, 0, func, aux] := by
    rw [hfsp, hmsp]
    rw [hmsp, hresumed.mem, htop, stackSize] at hfmem
    refine wordsAt_congr (fun c h1 h2 => hfmem c h1 ?_) hexec
    simp only [List.length_cons, List.length_nil] at h2
    omega
  rw [hentry']
  refine ⟨⟨heip.trans hwords.1, ?_⟩, hports⟩
  have hnext : (firstSwitchReturn m).sp = m.sp + 4 := by
    rw [Machine.sp, hesp]
    exact toNat_add_of_lt (n := 4) (by rw [Machine.sp] at hfsp; omega)
  rw [hmem, hnext]
  exact hwords.2

/-- A thread begins with `thread_execute` on the function and the argument that it was created
with, and acknowledges the interrupt that may have led to it. -/
theorem created_executes (h₀ : Initial tops s₀) (hrun₀ : Run (Step image tops idt) s₀ es₀ s₁)
    (hcreate : Step image tops idt s₁ (.create page func aux) s₂)
    (hrun : Run (Step image tops idt) s₂ es s₃)
    (hes : ∀ e ∈ es, e ≠ .switch page ∧ e ≠ .free page)
    (hswitch : Step image tops idt s₃ (.switch page) s₄) :
    s₄.m.eip = image.firstSwitchEntry ∧ s₄.m.reg .esi = 0 ∧
      ∀ (finish : Machine → Machine) (ret : Word),
        (finish (s₄.m.push ret)).sp = s₄.m.sp →
        (∀ c, s₄.m.sp ≤ c → c < tops.top page →
          (finish (s₄.m.push ret)).mem c = s₄.m.mem c) →
        Executes image func aux (firstSwitchEntry finish ret s₄.m) ∧
          (firstSwitchEntry finish ret s₄.m).ports =
            (0x20, 0x20) :: (finish (s₄.m.push ret)).ports := by
  have hinv₁ : Inv image tops s₁ := h₀.inv_of_run hrun₀
  have hinv₃ : Inv image tops s₃ := inv_run hrun (inv_step hinv₁ hcreate)
  obtain ⟨⟨-, hne, -⟩, rfl⟩ := hcreate
  obtain ⟨hguard, rfl⟩ := hswitch
  have hnew : (s₁.apply image idt (.create page func aux)).suspended page = [.created func aux] :=
    Function.update_self _ _ _
  obtain ⟨hsame, hcur⟩ := suspended_of_run hrun hes hne.symm
    (by rw [hnew]; exact List.cons_ne_nil _ _)
  refine executes_of_created [] hinv₃ hguard ?_
  rw [State.parkedAt, Function.update_of_ne hcur.symm, hsame, hnew]

theorem created_executes_boot : ∃ s₄ : State, s₄.m.eip = bootImage.firstSwitchEntry ∧
    Executes bootImage 0x9000 5 (firstSwitchEntry Machine.ret 0x8104 s₄.m) := by
  obtain ⟨hcall, hguard⟩ := step_bootCall
  have hswitch : Step bootImage bootTops bootIdt bootCalling (.switch 0x200000) _ :=
    ⟨hguard, rfl⟩
  obtain ⟨heip, -, hexec⟩ := created_executes initial_bootState (.nil bootState) step_bootCreate
    (.single hcall) (fun e he => by rw [List.mem_singleton.mp he]; exact ⟨nofun, nofun⟩) hswitch
  have hinv := inv_step (inv_run (.cons step_bootCreate (.single hcall)) initial_bootState.inv)
    hswitch
  obtain ⟨t, ht⟩ : ∃ t, t = bootCalling.apply bootImage bootIdt (.switch 0x200000) := ⟨_, rfl⟩
  rw [← ht] at heip hexec hinv
  have hlo : 4 ≤ t.m.sp := (Nat.le_add_left 4 t.current).trans hinv.onStack.1
  refine ⟨t, heip, (hexec Machine.ret 0x8104 ?_ fun c h1 _ => ?_).1⟩
  · rw [Machine.sp, ret_reg_esp, push_reg_esp, BitVec.sub_add_cancel]
    rfl
  · rw [ret_mem]
    exact push_mem_of_outside hlo _ (Or.inr h1)

end FirstSwitch

end Longhorn.ContextResumption
