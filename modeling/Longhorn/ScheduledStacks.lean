import Longhorn.ContextResumption
import Longhorn.SchedulerRuns

/-!
The scheduler and the machine below it.  The scheduler chooses threads by their place on its
lists; the machine has their stacks.
-/

namespace Longhorn.ScheduledStacks

open Longhorn.Foundations.ByteMemory
open Longhorn.Foundations.Ia32
open Longhorn.Foundations.TransitionRuns
open Longhorn.ListRefinement (represents_empty)
open Longhorn.ListPrograms (Wp)
open Longhorn.ThreadModel (Core KernelState)
open Longhorn.KernelRuns
open Longhorn.ProcessCalls (Started wp_initProcesses)
open Longhorn.SchedulerRuns
open Longhorn.SwitchModel
open Longhorn.SwitchRules
open Longhorn.ContextSwitching
open Longhorn.ContextResumption

def createdPage : Event → Option Nat
  | .create page _ _ => some page
  | _ => none

def freedPage : Event → Option Nat
  | .free page => some page
  | _ => none

def switchTarget : Event → Option Nat
  | .switch next => some next
  | _ => none

section Guards

variable (image : Image) (tops : StackTops) (idt : Nat → IdtEntry)

/-- What the code promises for an event, without the choice of the thread. -/
def OwnGuard (s : State) : Event → Prop
  | .create page _ _ => IsPage page ∧ tops.top page = page + stackSize
  | .free _ => True
  | .switch next =>
      readPtr s.m.mem (s.m.sp + 4) = s.current ∧ readPtr s.m.mem (s.m.sp + 8) = next ∧
        s.current + 20 ≤ s.m.sp ∧
        s.m.sp + 12 ≤ tops.limit s.current (s.suspended s.current)
  | .work m' => s.Guard tops (.work m')
  | .interrupt vector stub errorCode ret => s.Guard tops (.interrupt vector stub errorCode ret)
  | .iret stub => s.Guard tops (.iret stub)

def OwnStep (s : State) (e : Event) (t : State) : Prop :=
  OwnGuard tops s e ∧ t = s.apply image idt e

/-- The thread that an event is about is one that it may be about. -/
def Chosen (s : State) : Event → Prop
  | .create page _ _ => page ≠ s.current ∧ s.suspended page = []
  | .free page => page ≠ s.current
  | .switch next => next = s.current ∨ s.suspended next ≠ []
  | _ => True

variable {image} {tops} {idt} {s t : State} {e : Event} {es : List Event}

theorem guard_of_chosen (hown : OwnGuard tops s e) (hchosen : Chosen s e) : s.Guard tops e := by
  cases e with
  | work m' => exact hown
  | create page func aux => exact ⟨hown.1, hchosen.1, hchosen.2, hown.2⟩
  | free page => exact hchosen
  | switch next => exact ⟨hown.1, hown.2.1, hown.2.2.1, hown.2.2.2, hchosen⟩
  | interrupt vector stub errorCode ret => exact hown
  | iret stub => exact hown

theorem step_of_chosen (hstep : OwnStep image tops idt s e t) (hchosen : Chosen s e) :
    Step image tops idt s e t :=
  ⟨guard_of_chosen hstep.1 hchosen, hstep.2⟩

variable (image) (idt) in
theorem suspended_of_calm {page : Nat} (hswitch : switchTarget e = none)
    (hpage : page ≠ s.current) : (s.apply image idt e).suspended page ≠ [] ↔
      createdPage e = some page ∨ (s.suspended page ≠ [] ∧ freedPage e ≠ some page) := by
  have hsame : ∀ {l : List Suspension}, l = s.suspended page → createdPage e = none →
      freedPage e = none → (l ≠ [] ↔
        createdPage e = some page ∨ (s.suspended page ≠ [] ∧ freedPage e ≠ some page)) := by
    intro l hl hc hf
    simp [hl, hc, hf]
  cases e with
  | work m' => exact hsame rfl rfl rfl
  | create p func aux =>
      by_cases hp : page = p
      · subst hp
        have happly : (s.apply image idt (.create page func aux)).suspended page =
            [.created func aux] := Function.update_self _ _ _
        simp [happly, createdPage]
      · have happly : (s.apply image idt (.create p func aux)).suspended page =
            s.suspended page := Function.update_of_ne hp _ _
        simp [happly, createdPage, freedPage, Ne.symm hp]
  | free p =>
      by_cases hp : page = p
      · subst hp
        have happly : (s.apply image idt (.free page)).suspended page = [] :=
          Function.update_self _ _ _
        simp [happly, createdPage, freedPage]
      · have happly : (s.apply image idt (.free p)).suspended page = s.suspended page :=
          Function.update_of_ne hp _ _
        simp [happly, createdPage, freedPage, Ne.symm hp]
  | switch next => exact absurd hswitch nofun
  | interrupt vector stub errorCode ret =>
      exact hsame (Function.update_of_ne hpage _ _) rfl rfl
  | iret stub => exact hsame (Function.update_of_ne hpage _ _) rfl rfl

/-- While the thread runs on, what is created and what is freed decides which other threads have
a stack to go on with. -/
theorem run_calm (hrun : Run (OwnStep image tops idt) s es t)
    (hswitch : es.filterMap switchTarget = [])
    (hcreated : ∀ page ∈ es.filterMap createdPage, page ≠ s.current ∧ s.suspended page = [])
    (honce : (es.filterMap createdPage).Nodup) (hfreed : s.current ∉ es.filterMap freedPage)
    (hapart : ∀ page ∈ es.filterMap createdPage, page ∉ es.filterMap freedPage) :
    Run (Step image tops idt) s es t ∧ t.current = s.current ∧ ∀ page, page ≠ s.current →
      (t.suspended page ≠ [] ↔ page ∈ es.filterMap createdPage ∨
        (s.suspended page ≠ [] ∧ page ∉ es.filterMap freedPage)) := by
  induction hrun with
  | nil s => exact ⟨.nil s, rfl, fun page _ => by simp⟩
  | @cons s t u e es hstep _ ih =>
      have hnone : switchTarget e = none := by
        by_contra hsome
        obtain ⟨next, hnext⟩ := Option.ne_none_iff_exists'.mp hsome
        rw [List.filterMap_cons_some hnext] at hswitch
        exact absurd hswitch (List.cons_ne_nil _ _)
      rw [List.filterMap_cons_none hnone] at hswitch
      have hhead : ∀ page, createdPage e = some page →
          page ≠ s.current ∧ s.suspended page = [] ∧ page ∉ es.filterMap createdPage := by
        intro page hpage
        rw [List.filterMap_cons_some hpage] at hcreated honce
        have hmem := hcreated page List.mem_cons_self
        exact ⟨hmem.1, hmem.2, (List.nodup_cons.mp honce).1⟩
      have hmem : ∀ {f : Event → Option Nat} {page}, page ∈ (e :: es).filterMap f ↔
          f e = some page ∨ page ∈ es.filterMap f := by
        intro f page
        simp [List.mem_filterMap]
      have hchosen : Chosen s e := by
        cases e with
        | create page func aux => exact ⟨(hhead page rfl).1, (hhead page rfl).2.1⟩
        | free page =>
            rintro rfl
            exact hfreed (hmem.mpr (Or.inl rfl))
        | switch next => exact absurd hnone nofun
        | work m' => trivial
        | interrupt vector stub errorCode ret => trivial
        | iret stub => trivial
      have happly : t = s.apply image idt e := hstep.2
      subst happly
      have hcalm : ∀ page, page ≠ s.current → _ := fun page hpage =>
        suspended_of_calm image idt hnone hpage
      have hcur : (s.apply image idt e).current = s.current := by
        cases e <;> first | rfl | exact absurd hnone nofun
      obtain ⟨hrest, hcur', hsuspended⟩ := ih hswitch
        (fun page hpage => by
          have hne := (hcreated page (hmem.mpr (Or.inr hpage))).1
          have hempty := (hcreated page (hmem.mpr (Or.inr hpage))).2
          refine ⟨hcur ▸ hne, ?_⟩
          by_contra hsome
          rcases (hcalm page hne).mp hsome with hnew | ⟨hold, -⟩
          · exact (hhead page hnew).2.2 hpage
          · exact hold hempty)
        (by
          cases hc : createdPage e with
          | none => rwa [List.filterMap_cons_none hc] at honce
          | some page =>
              rw [List.filterMap_cons_some hc] at honce
              exact (List.nodup_cons.mp honce).2)
        (by rw [hcur]; exact fun hin => hfreed (hmem.mpr (Or.inr hin)))
        (fun page hpage hin => hapart page (hmem.mpr (Or.inr hpage)) (hmem.mpr (Or.inr hin)))
      refine ⟨.cons (step_of_chosen hstep hchosen) hrest, hcur'.trans hcur, fun page hpage => ?_⟩
      rw [hsuspended page (hcur.symm ▸ hpage), hcalm page hpage, hmem, hmem]
      have hkept := hapart page
      rw [hmem, hmem] at hkept
      grind

end Guards

section Calls

/-- What a call of the kernel does to the stacks, before and behind the point where it may hand
over the processor: the threads that it creates are prepared first, and what has ended is freed,
the thread that ends itself only behind that point. -/
structure Performs (c c' : Core) (before after : List Event) : Prop where
  creates : ∀ page, page ∈ before.filterMap createdPage ↔
    c.live page = false ∧ c'.live page = true
  once : (before.filterMap createdPage).Nodup
  frees : ∀ page, page ∈ before.filterMap freedPage ∨ page ∈ after.filterMap freedPage ↔
    c.live page = true ∧ c'.live page = false
  later : c.current ∉ before.filterMap freedPage
  prepared : after.filterMap createdPage = []
  calm : before.filterMap switchTarget = [] ∧ after.filterMap switchTarget = []

/-- `switch_threads` is called if another thread has been chosen. -/
def handover (c c' : Core) : List Event :=
  if c'.current = c.current then [] else [.switch c'.current]

/-- The threads that can go on are those of the scheduler, and the boot thread. -/
structure Follows (boot : Nat) (c : Core) (s : State) : Prop where
  current : s.current = c.current
  suspended : ∀ page, page ≠ c.current →
    (s.suspended page ≠ [] ↔ c.live page = true ∨ page = boot)

variable {image : Image} {tops : StackTops} {idt : Nat → IdtEntry} {boot : Nat} {c c' : Core}
  {s s' : State} {before after : List Event}

theorem suspended_iff_live (page : Nat) (hboot : c.live boot = false)
    (hboot' : c'.live boot = false) (hperforms : Performs c c' before after) :
    ((page ∈ before.filterMap createdPage ∨
        ((c.live page = true ∨ page = boot) ∧ page ∉ before.filterMap freedPage)) ∧
      page ∉ after.filterMap freedPage) ↔ c'.live page = true ∨ page = boot := by
  have hcreates := hperforms.creates page
  have hfrees := hperforms.frees page
  have hother : page = boot → c.live page = false ∧ c'.live page = false := by
    rintro rfl
    exact ⟨hboot, hboot'⟩
  grind

theorem run_handover {s₁ s₂ : State} (hcur : s₁.current = c.current)
    (hnext : c'.current ≠ c.current → s₁.suspended c'.current ≠ [])
    (hevents : Run (OwnStep image tops idt) s₁ (handover c c') s₂) :
    Run (Step image tops idt) s₁ (handover c c') s₂ ∧ s₂.current = c'.current ∧
      ∀ page, page ≠ c'.current →
        (s₂.suspended page ≠ [] ↔ page = c.current ∨ s₁.suspended page ≠ []) := by
  by_cases hsame : c'.current = c.current
  · rw [handover, if_pos hsame] at hevents ⊢
    cases hevents with
    | nil =>
        refine ⟨.nil s₁, hcur.trans hsame.symm, fun page hpage => ?_⟩
        rw [or_iff_right (hsame ▸ hpage)]
  · rw [handover, if_neg hsame] at hevents ⊢
    cases hevents with
    | @cons _ t _ _ _ hstep hnil =>
        cases hnil
        obtain ⟨-, happly⟩ := id hstep
        refine ⟨.single (step_of_chosen hstep (Or.inr (hnext hsame))), ?_, fun page hpage => ?_⟩
        · rw [happly]
          rfl
        · have hpark : s₂.suspended page = s₁.parkedAt page := by
            rw [happly]
            exact Function.update_of_ne hpage _ _
          rw [hpark, State.parkedAt, ← hcur]
          by_cases hleft : page = s₁.current
          · rw [hleft, Function.update_self]
            simp only [ne_eq, reduceCtorEq, not_false_eq_true, true_or]
          · rw [Function.update_of_ne hleft, or_iff_right hleft]

/-- The machine can follow the scheduler through a call. -/
theorem Follows.call (h : Follows boot c s) (hrun : c.current = boot ∨ c.live c.current = true)
    (hboot : c.live boot = false) (hrun' : c'.current = boot ∨ c'.live c'.current = true)
    (hboot' : c'.live boot = false) (hperforms : Performs c c' before after)
    (hevents : Run (OwnStep image tops idt) s (before ++ handover c c' ++ after) s') :
    Follows boot c' s' ∧
      Run (Step image tops idt) s (before ++ handover c c' ++ after) s' := by
  obtain ⟨s₂, hfirst, hafter⟩ := hevents.split
  obtain ⟨s₁, hbefore, hswitch⟩ := hfirst.split
  have hnew : ∀ page ∈ before.filterMap createdPage,
      page ≠ s.current ∧ s.suspended page = [] := by
    intro page hpage
    obtain ⟨hdead, hlive⟩ := (hperforms.creates page).mp hpage
    have hne : page ≠ c.current := by
      rintro rfl
      rcases hrun with hcur | hcur
      · rw [hcur, hboot'] at hlive
        exact absurd hlive Bool.false_ne_true
      · rw [hdead] at hcur
        exact absurd hcur Bool.false_ne_true
    refine ⟨h.current ▸ hne, ?_⟩
    by_contra hsome
    rcases (h.suspended page hne).mp hsome with hl | rfl
    · rw [hdead] at hl
      exact absurd hl Bool.false_ne_true
    · rw [hboot'] at hlive
      exact absurd hlive Bool.false_ne_true
  obtain ⟨hstep₁, hcur₁, hsuspended₁⟩ := run_calm hbefore hperforms.calm.1 hnew hperforms.once
    (h.current ▸ hperforms.later) fun page hpage hin => by
      have hdead := ((hperforms.creates page).mp hpage).1
      rw [((hperforms.frees page).mp (Or.inl hin)).1] at hdead
      exact absurd hdead (Ne.symm Bool.false_ne_true)
  rw [h.current] at hcur₁ hsuspended₁
  have hnext : c'.current ≠ c.current → s₁.suspended c'.current ≠ [] := by
    intro hother
    rw [hsuspended₁ _ hother, h.suspended _ hother]
    exact ((suspended_iff_live _ hboot hboot' hperforms).mpr hrun'.symm).1
  obtain ⟨hstep₂, hcur₂, hsuspended₂⟩ := run_handover hcur₁ hnext hswitch
  have hstays : c'.current ∉ after.filterMap freedPage := by
    intro hin
    have hiff := suspended_iff_live c'.current hboot hboot' hperforms
    exact (hiff.mpr hrun'.symm).2 hin
  obtain ⟨hstep₃, hcur₃, hsuspended₃⟩ := run_calm hafter hperforms.calm.2
    (by rw [hperforms.prepared]; exact fun page hpage => absurd hpage List.not_mem_nil)
    (by rw [hperforms.prepared]; exact List.nodup_nil) (hcur₂.symm ▸ hstays)
    (by rw [hperforms.prepared]; exact fun page hpage => absurd hpage List.not_mem_nil)
  rw [hcur₂] at hcur₃ hsuspended₃
  refine ⟨⟨hcur₃, fun page hpage => ?_⟩, (hstep₁.append hstep₂).append hstep₃⟩
  rw [hsuspended₃ page hpage, hperforms.prepared, hsuspended₂ page hpage,
    ← suspended_iff_live _ hboot hboot' hperforms]
  by_cases hleft : page = c.current
  · have hlater := hperforms.later
    rw [← hleft] at hlater hrun
    simp only [hleft, List.not_mem_nil, false_or, true_or, true_and]
    rw [← hleft]
    grind
  · rw [or_iff_right hleft, hsuspended₁ page hleft, h.suspended page hleft]
    simp only [List.not_mem_nil, false_or]

end Calls

section Runs

/-- The kernel on its machine. -/
structure Joint where
  k : KernelState
  s : State

inductive JointEvent where
  /-- An event in which the scheduler has no part. -/
  | machine (e : Event)
  | call (op : KernelOp)

variable (image : Image) (tops : StackTops) (idt : Nat → IdtEntry) (boot : Nat)

inductive JointStep : Joint → JointEvent → Joint → Prop
  | machine {k : KernelState} {s s' : State} {e : Event} (hstep : OwnStep image tops idt s e s')
      (hcreate : createdPage e = none) (hfree : freedPage e = none)
      (hswitch : switchTarget e = none) : JointStep ⟨k, s⟩ (.machine e) ⟨k, s'⟩
  | call {k k' : KernelState} {s s' : State} {op : KernelOp} {before after : List Event}
      (hstep : Guarded KernelStep (Sound boot) k op k')
      (hperforms : Performs k.core k'.core before after)
      (hevents : Run (OwnStep image tops idt) s
        (before ++ handover k.core k'.core ++ after) s') : JointStep ⟨k, s⟩ (.call op) ⟨k', s'⟩

/-- `init_processes` has been called on the stack of the boot thread. -/
structure Boots (s0 : KernelState) (init t : Nat) (old : ThreadModel.Thread) (b : State)
    (j : Joint) : Prop where
  starts : Starts s0 init t old j.k
  initial : Initial tops b
  current : b.current = s0.core.current
  performs : ∃ before after, Performs s0.core j.k.core before after ∧
    Run (OwnStep image tops idt) b (before ++ handover s0.core j.k.core ++ after) j.s

/-- What scheduler and machine agree on between calls. -/
structure Agrees (j : Joint) : Prop where
  sched : Sched boot j.k
  follows : Follows boot j.k.core j.s
  inv : Inv image tops j.s

variable {image} {tops} {idt} {boot} {s0 : KernelState} {init t : Nat} {old : ThreadModel.Thread}
  {b : State} {j j' : Joint} {e : JointEvent} {es : List JointEvent}

theorem Boots.agrees (h : Boots image tops idt s0 init t old b j) :
    Agrees image tops s0.core.current j := by
  obtain ⟨before, after, hperforms, hevents⟩ := h.performs
  have hsched := sched_of_starts h.starts
  obtain ⟨q, -, hq⟩ := id hsched
  have hfollows : Follows s0.core.current s0.core b := by
    refine ⟨h.current, fun page hpage => ?_⟩
    rw [h.initial.suspended, h.starts.fresh.live]
    simp only [ne_eq, not_true_eq_false, Bool.false_eq_true, false_or, false_iff]
    exact hpage
  obtain ⟨hafter, hrun⟩ := hfollows.call (Or.inl rfl) (h.starts.fresh.live _)
    (hq.running.imp And.left And.left) hq.boot hperforms hevents
  exact ⟨hsched, hafter, inv_run hrun h.initial.inv⟩

theorem Agrees.step (h : Agrees image tops boot j)
    (hstep : JointStep image tops idt boot j e j') : Agrees image tops boot j' := by
  cases hstep with
  | @machine k s s' e hown hcreate hfree hswitch =>
      have hchosen : Chosen s e := by
        cases e with
        | create page func aux => exact absurd hcreate nofun
        | free page => exact absurd hfree nofun
        | switch next => exact absurd hswitch nofun
        | work m' => trivial
        | interrupt vector stub errorCode ret => trivial
        | iret stub => trivial
      obtain ⟨-, hcur, hsuspended⟩ := run_calm (.single hown)
        (List.filterMap_cons_none hswitch)
        (by rw [List.filterMap_cons_none hcreate]; exact fun _ hin => absurd hin List.not_mem_nil)
        (by rw [List.filterMap_cons_none hcreate]; exact List.nodup_nil)
        (by rw [List.filterMap_cons_none hfree]; exact List.not_mem_nil)
        (by rw [List.filterMap_cons_none hcreate]; exact fun _ hin => absurd hin List.not_mem_nil)
      refine ⟨h.sched, ⟨hcur.trans h.follows.current, fun page hpage => ?_⟩,
        inv_step h.inv (step_of_chosen hown hchosen)⟩
      rw [hsuspended page (h.follows.current.symm ▸ hpage), List.filterMap_cons_none hcreate,
        List.filterMap_cons_none hfree, h.follows.suspended page hpage]
      simp only [List.filterMap_nil, List.not_mem_nil, not_false_eq_true, and_true, false_or]
  | @call k k' s s' op before after hkernel hperforms hevents =>
      obtain ⟨q, -, hq⟩ := id h.sched
      have hsched : Sched boot k' := sched_run (.single hkernel) h.sched
      obtain ⟨q', -, hq'⟩ := id hsched
      obtain ⟨hafter, hrun⟩ := h.follows.call (hq.running.imp And.left And.left) hq.boot
        (hq'.running.imp And.left And.left) hq'.boot hperforms hevents
      exact ⟨hsched, hafter, inv_run hrun h.inv⟩

/-- Whatever calls are made, `THREAD_CUR` is the thread that the scheduler has chosen, and every
other thread that exists can go on: its `esp` leads to what was saved for it, at the end of what
it was doing. -/
theorem scheduled_stacks (hboot : Boots image tops idt s0 init t old b j)
    (hrun : Run (JointStep image tops idt s0.core.current) j es j') :
    getRunning j'.s.m = j'.k.core.current ∧
      ∀ u, j'.k.core.live u = true → u ≠ j'.k.core.current →
        ∃ x rest, j'.s.suspended u = x :: rest ∧ x.Parked ∧
          readPtr j'.s.m.mem u = x.bottom u ∧ x.Held image u (tops.top u) j'.s.m.mem := by
  have hagrees : Agrees image tops s0.core.current j' :=
    hrun.invariant (Agrees image tops s0.core.current) (fun _ _ _ h hstep => h.step hstep)
      hboot.agrees
  have hcur := hagrees.follows.current
  refine ⟨(getRunning_of_onStack hagrees.inv.current_page hagrees.inv.onStack).trans hcur, ?_⟩
  intro u hlive hne
  have hsome := (hagrees.follows.suspended u hne).mpr (Or.inl hlive)
  obtain ⟨x, rest, hx⟩ := List.exists_cons_of_ne_nil hsome
  obtain ⟨hparked, hesp⟩ := hagrees.inv.parked u (hcur.symm ▸ hne) x rest hx
  refine ⟨x, rest, hx, hparked, hesp, hagrees.inv.held u x ?_⟩
  rw [hx]
  exact List.mem_cons_self

/-- The kernel before `init_processes`, with the boot thread on its stack. -/
def bootKernel : KernelState :=
  { zeroedState with core := { zeroedState.core with current := bootState.current } }

theorem exists_boots : ∃ k q, Boots bootImage bootTops bootIdt bootKernel 0 0x200000 blankThread
    bootState ⟨k, bootCreated⟩ ∧ HoldsSeqs k q ∧ Started 0x200000 0 k.core q ∧
    k.core.current = bootState.current := by
  have hfresh : Fresh bootKernel.core := ⟨fun _ => rfl, fun _ => rfl, fun _ => rfl, rfl⟩
  have hwp : Wp ThreadModel.listAt (execOp (.init 0 (some (0x200000, blankThread))))
      (fun _ c' q' => Started 0x200000 0 c' q' ∧ c'.current = bootKernel.core.current ∧
        (c'.procs 0).numLiveThreads = (bootKernel.core.procs 0).numLiveThreads)
      bootKernel.core fun _ => none :=
    wp_initProcesses hfresh.live hfresh.liveProcs hfresh.log (by decide) (by decide)
  obtain ⟨k, hstep⟩ := step_of_wp (represents_empty ThreadModel.listAt bootKernel.heap) hwp
  have hstarts : Starts bootKernel 0 0x200000 blankThread k :=
    ⟨hfresh, by decide, by decide, hstep⟩
  obtain ⟨q, hq, hstarted, hcur, -⟩ := started_of_starts hstarts
  refine ⟨k, q, ⟨hstarts, initial_bootState, rfl, [bootCreate], [], ?_, ?_⟩, hq, hstarted, hcur⟩
  · refine ⟨fun page => ?_, List.nodup_singleton _, fun page => ?_, List.not_mem_nil, rfl,
      rfl, rfl⟩
    · have hlive := hstarted.live page
      exact ⟨fun hpage => ⟨rfl, hlive.mpr (List.mem_singleton.mp hpage)⟩,
        fun hpage => List.mem_singleton.mpr (hlive.mp hpage.2)⟩
    · refine ⟨fun hpage => ?_, fun hpage => absurd hpage.1 Bool.false_ne_true⟩
      exact absurd hpage (by simp [bootCreate, freedPage])
  · rw [handover, if_pos hcur]
    exact .single ⟨⟨⟨by decide, by decide⟩, rfl⟩, rfl⟩

theorem scheduled_stacks_idle : ∃ j : Joint, j.k.core.current = 0x200000 ∧
    getRunning j.s.m = 0x200000 := by
  obtain ⟨k, q, hboots, hq, hstarted, hcur⟩ := exists_boots
  have hsched := hstarted.schedInv
  have hblocked := hstarted.boot
  rw [hcur] at hsched hblocked
  have hready := hstarted.ready
  have hsound : Sound bootState.current k .yield := by
    intro q' hq'
    rw [hq'.unique hq]
    refine Or.inl ?_
    rw [hready, hcur]
    decide
  have hwp : Wp ThreadModel.listAt (execOp .yield)
      (fun _ c' _ => c'.current = 0x200000 ∧ c'.live = k.core.live) k.core q := by
    apply wp_ignore
    apply SchedulerInvariant.wp_schedule_leave (by rwa [hcur])
      (hsched.inv.lists .readyThreads trivial) hready (by rw [hcur]; decide) hstarted.state
      (hsched.inv.lists .dyingThreads trivial) hsched.dying
    intro c₁ c' ha _ hruns
    exact ⟨hruns.current, hruns.live.trans ha.live⟩
  obtain ⟨k', -, -, hkernel, -, -, ⟨hcur', hlive⟩, -⟩ := step_post hq hsched hsound hwp
  obtain ⟨hcall, hguard⟩ := step_bootCall
  have hstep : JointStep bootImage bootTops bootIdt bootState.current ⟨k, bootCreated⟩
      (.call .yield) ⟨k', bootCalling.apply bootImage bootIdt (.switch 0x200000)⟩ := by
    have hperforms : Performs k.core k'.core [.work bootCalling.m] [] := by
      have hsame : ∀ page b, k.core.live page = b ∧ k'.core.live page = !b → False := by
        rintro page b ⟨h1, h2⟩
        rw [hlive, h1] at h2
        exact (Bool.eq_not_self b).mp h2
      refine ⟨fun page => ⟨fun hin => absurd hin List.not_mem_nil, fun h => ?_⟩, List.nodup_nil,
        fun page => ⟨fun hin => ?_, fun h => ?_⟩, List.not_mem_nil, rfl, rfl, rfl⟩
      · exact (hsame page false h).elim
      · exact absurd hin (by simp [freedPage])
      · exact (hsame page true h).elim
    refine .call hkernel hperforms ?_
    rw [handover, hcur', hcur, if_neg (by decide)]
    exact .cons ⟨hcall.1, hcall.2⟩ (.single ⟨⟨hguard.1, hguard.2.1, hguard.2.2.1,
      hguard.2.2.2.1⟩, rfl⟩)
  have hruns := (scheduled_stacks hboots (.single hstep)).1
  exact ⟨_, hcur', hruns.trans hcur'⟩

end Runs

end Longhorn.ScheduledStacks
