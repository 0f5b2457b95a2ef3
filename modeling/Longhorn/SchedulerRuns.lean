import Longhorn.KernelRuns
import Longhorn.ProcessCalls

/-!
Runs of the kernel in which every call may be made: the invariant of the scheduler
holds in every state.
-/

namespace Longhorn.SchedulerRuns

open Longhorn.Foundations.LinkedNodes
open Longhorn.Foundations.TransitionRuns
open Longhorn.IntrusiveList
open Longhorn.ListRefinement
open Longhorn.ListPrograms
open Longhorn.ThreadModel
open Longhorn.KernelRuns
open Longhorn.SchedulerRules
open Longhorn.ThreadCounts
open Longhorn.SchedulerInvariant
open Longhorn.ThreadCalls
open Longhorn.ProcessCalls

/-- The sequences of all lists that lie in memory in use. -/
structure HoldsSeqs (s : KernelState) (q : KernelSeqs) : Prop where
  represents : Represents listAt s.heap q
  domain : ∀ i, (q i).isSome ↔ Core.Accessible s.core i

/-- The page for a thread is not in use. -/
def NewThread (boot : Nat) (c : Core) (page : Option (Nat × Thread)) : Prop :=
  ∀ t old, page = some (t, old) → c.live t = false ∧ t ≠ boot

/-- The page for a process is not in use, and names no thread that exists. -/
def NewProcess (boot : Nat) (c : Core) (page : Option (Nat × Process)) : Prop :=
  ∀ p old, page = some (p, old) → c.liveProcs p = false ∧
    ∀ i, i < maxNumThreads → ∀ t, old.threads i = some t → c.live t = false ∧ t ≠ boot

/-- The running thread may register as a waiter and block. -/
structure MayWait (c : Core) (q : KernelSeqs) : Prop where
  live : c.live c.current = true
  off : ∀ i, .waitNode c.current ∉ q.get i
  block : MayBlock c q

/-- The call may be made. -/
def MayCall (boot : Nat) (c : Core) (q : KernelSeqs) : KernelOp → Prop
  | .init _ _ => False
  | .create page proc _ => c.liveProcs proc = true ∧ NewThread boot c page
  | .block => c.live c.current = true ∧ MayBlock c q
  | .unblock t => c.live t = true
  | .exit => MayEnd c.current c q
  | .wait t => c.live t = true ∧ MayWait c q
  | .notify t _ _ => c.live t = true
  | .kill t => MayEnd t c q
  | .yield => MayYield c q
  | .timer => (c.threadTicks + 1) % 256 % maxThreadTicks = 0 → MayYield c q
  | .procCreate page stack => NewProcess boot c page ∧ NewThread boot c stack
  | .procCreateThread stack => c.live c.current = true ∧ NewThread boot c stack
  | .procWait p => c.liveProcs p = true ∧ MayWait c q
  | .procNotify p _ _ => c.liveProcs p = true
  | .procKill p => MayKillProc p c q

/-- The processes whose count the call may get wrong. -/
def Miscounts (c : Core) : KernelOp → Nat → Prop
  | .create _ proc _, p => p = proc
  | .procCreate page _, p => ∃ old, page = some (p, old)
  | .procCreateThread _, p => p = c.procOf c.current
  | _, _ => False

section Calls

variable {boot : Nat} {c c' : Core} {q q' : KernelSeqs}

theorem wp_ignore {β : Type} {p : Kernel β} {Q : Core → KernelSeqs → Prop}
    (h : Wp listAt p (fun _ c q => Q c q) c q) : Wp listAt (ignore p) (fun _ c q => Q c q) c q := by
  apply Wp.bind
  exact h.mono fun _ _ _ hQ => wp_pure hQ

/-- One call keeps the invariant. -/
theorem wp_execOp {op : KernelOp} (h : SchedInv boot c q) (hop : MayCall boot c q op) :
    Wp listAt (execOp op) (fun _ c' q' => Kept boot (Miscounts c op) c q c' q') c q := by
  have hkept : ∀ {out : Nat → Prop} c' q', SchedInv boot c' q' ∧ Carried c q c' q' →
      Kept boot out c q c' q' := fun _ _ hc => Kept.of_carried hc.1 hc.2
  cases op with
  | init proc stack => exact hop.elim
  | create page proc childNum =>
      apply wp_ignore
      exact (wp_create h hop.1 hop.2).mono fun _ _ _ hc => hc.1
  | block =>
      apply wp_ignore
      exact (wp_threadBlock h hop.1 hop.2).mono fun _ _ _ hc => hkept _ _ ⟨hc.1, hc.2.1⟩
  | unblock t => exact (wp_unblock h hop).mono fun _ _ _ hc => hkept _ _ hc
  | exit =>
      apply wp_ignore
      exact (wp_threadExit h hop).mono fun _ _ _ hc => hkept _ _ hc.2
  | wait t =>
      apply wp_ignore
      refine (wp_wait h hop.2.live
        (show HoldsWaiters (.threadWaiters t) from trivial) hop.1 hop.2.off
        hop.2.block).mono ?_
      exact fun _ _ _ hc => ⟨hc.1, hc.2.1, fun p _ => hc.2.2.1 p⟩
  | notify t all ret =>
      apply wp_ignore
      exact (wp_notifyWaiters h
        (show HoldsWaiters (.threadWaiters t) from trivial) hop all ret).mono
        fun _ _ _ hc => hkept _ _ hc
  | kill t =>
      apply wp_ignore
      exact (wp_threadKill h hop).mono fun _ _ _ hc => hkept _ _ ⟨hc.1, hc.2.1⟩
  | yield =>
      apply wp_ignore
      exact (wp_schedule h hop).mono fun _ _ _ hc => hkept _ _ ⟨hc.1, hc.2.1⟩
  | timer =>
      apply wp_ignore
      exact (wp_timerInterruptHandler h hop).mono fun _ _ _ hc => hkept _ _ hc
  | procCreate page stack =>
      apply wp_ignore
      exact (wp_procCreate h hop.1 hop.2).mono fun _ _ _ hc => hc.1
  | procCreateThread stack =>
      apply wp_ignore
      exact (wp_procCreateThread h hop.1 hop.2).mono fun _ _ _ hc => hc.1
  | procWait p =>
      apply wp_ignore
      refine (wp_wait h hop.2.live (show HoldsWaiters (.procWaiters p) from trivial) hop.1 hop.2.off
        hop.2.block).mono ?_
      exact fun _ _ _ hc => ⟨hc.1, hc.2.1, fun p _ => hc.2.2.1 p⟩
  | procNotify p all ret =>
      apply wp_ignore
      exact (wp_notifyWaiters h (show HoldsWaiters (.procWaiters p) from trivial) hop all ret).mono
        fun _ _ _ hc => hkept _ _ hc
  | procKill p =>
      apply wp_ignore
      exact (wp_procKill h hop).mono fun _ _ _ hc => hkept _ _ hc

end Calls
/-- Whatever sequences the lists hold, the call may be made. -/
def Sound (boot : Nat) (s : KernelState) (op : KernelOp) : Prop :=
  ∀ q, HoldsSeqs s q → MayCall boot s.core q op

/-- The invariant of the scheduler, of a state. -/
def Sched (boot : Nat) (s : KernelState) : Prop :=
  ∃ q, HoldsSeqs s q ∧ SchedInv boot s.core q

section Steps

variable {boot : Nat} {s s' : KernelState} {op : KernelOp} {q q' : KernelSeqs}

/-- The sequences without those that lie in memory that is not in use. -/
noncomputable def inUse (c : Core) (q : KernelSeqs) : KernelSeqs := by
  classical
  exact fun i => if Core.Accessible c i then q i else none

theorem get_inUse {out : Nat → Prop} {c : Core} (h : Inv out c q) (i : ListId) :
    (inUse c q).get i = q.get i := by
  by_cases hi : Core.Accessible c i
  · rw [Seqs.get, inUse, if_pos hi, Seqs.get]
  · rw [h.stale i hi, Seqs.get, inUse, if_neg hi, Option.getD_none]

theorem holdsSeqs_inUse {out : Nat → Prop} {h : Heap NodeAddr} {c : Core}
    (hr : Represents listAt h q) (hi : Inv out c q) : HoldsSeqs ⟨c, h⟩ (inUse c q) := by
  refine ⟨⟨fun i xs hxs => ?_, fun i a ha => ?_, fun i j hij => ?_⟩,
    fun i => ⟨fun hs => ?_, fun hacc => ?_⟩⟩
  · rw [inUse] at hxs
    split at hxs
    · exact hr.lists i xs hxs
    · cases hxs
  · rw [get_inUse hi] at ha
    exact hr.members i a ha
  · rw [get_inUse hi, get_inUse hi]
    exact hr.disjoint i j hij
  · rw [inUse] at hs
    split at hs
    · next hacc => exact hacc
    · cases hs
  · rw [inUse, if_pos hacc]
    exact hi.lists i hacc

theorem HoldsSeqs.isList (h : HoldsSeqs s q) {i : ListId} (hi : Core.Accessible s.core i) :
    IsList s.heap (listAt i) (q.get i) := by
  obtain ⟨xs, hxs⟩ := Option.isSome_iff_exists.mp ((h.domain i).mpr hi)
  rw [Seqs.get_of_eq hxs]
  exact h.represents.lists i xs hxs

theorem HoldsSeqs.unique (h : HoldsSeqs s q) (h' : HoldsSeqs s q') : q = q' := by
  funext i
  have hdom := (h.domain i).trans (h'.domain i).symm
  rcases hi : q i with _ | xs <;> rcases hi' : q' i with _ | ys
  · rfl
  · simp [hi, hi'] at hdom
  · simp [hi, hi'] at hdom
  · rw [(h.represents.lists i xs hi).unique (h'.represents.lists i ys hi')]

/-- The invariant speaks of the members of lists, and of which lists there are. -/
theorem SchedInv.congr (h : SchedInv boot s.core q) (hget : ∀ i, q'.get i = q.get i)
    (hlists : ∀ i, Core.Accessible s.core i → (q' i).isSome) : SchedInv boot s.core q' := by
  refine h.of_current ?_ rfl (hget _) rfl ?_ rfl id
  · refine ⟨hlists, fun i hi => ?_, fun i a ha => ?_, fun t ht hn => ?_, h.inv.idle, h.inv.procs,
      h.inv.released⟩
    · rw [hget]
      exact h.inv.stale i hi
    · rw [hget] at ha
      exact h.inv.fits i a ha
    · rw [Placed, hget, hget]
      exact h.inv.placed t ht hn
  · rw [hget]
    exact id

theorem Kept.congr {out : Nat → Prop} {c : Core} (h : Kept boot out c q s.core q')
    {q1 : KernelSeqs} (hget : ∀ i, q1.get i = q'.get i)
    (hlists : ∀ i, Core.Accessible s.core i → (q1 i).isSome) : Kept boot out c q s.core q1 := by
  refine ⟨SchedInv.congr h.sched hget hlists, h.later, fun p hp hc hl => ?_⟩
  have htallied := h.counted p hp hc hl
  refine ⟨htallied.toSlotted, htallied.count, htallied.positive, ?_⟩
  rw [hget]
  exact htallied.listed

/-- What is known of a call holds of every step that makes it. -/
theorem post_of_step {c : Core} {h : Heap NodeAddr} {Q : Unit → Core → KernelSeqs → Prop}
    (hr : Represents listAt h q) (hwp : Wp listAt (execOp op) Q c q)
    (hstep : KernelStep ⟨c, h⟩ op s') : ∃ q', Represents listAt s'.heap q' ∧ Q () s'.core q' := by
  obtain ⟨_, hrun⟩ := hstep
  obtain ⟨_, c', h', q', heq, hr', hQ⟩ := hwp h hr
  have hsame := heq.symm.trans hrun
  simp only [Option.some.injEq, Prod.mk.injEq, true_and] at hsame
  subst hsame
  exact ⟨q', hr', hQ⟩

theorem step_of_wp {c : Core} {h : Heap NodeAddr} {Q : Unit → Core → KernelSeqs → Prop}
    (hr : Represents listAt h q) (hwp : Wp listAt (execOp op) Q c q) :
    ∃ s', KernelStep ⟨c, h⟩ op s' := by
  obtain ⟨_, c', h', _, heq, _⟩ := hwp h hr
  exact ⟨_, .call op heq⟩

/-- A call that may be made returns. -/
theorem exists_step (hq : HoldsSeqs s q) (h : SchedInv boot s.core q) (hop : Sound boot s op) :
    ∃ s', KernelStep s op s' :=
  step_of_wp hq.represents (wp_execOp h (hop q hq))

theorem kept_of_wp {out : Nat → Prop} (hq : HoldsSeqs s q) (hstep : KernelStep s op s')
    (hwp : Wp listAt (execOp op) (fun _ c' q' => Kept boot out s.core q c' q') s.core q) :
    ∃ q', HoldsSeqs s' q' ∧ Kept boot out s.core q s'.core q' := by
  obtain ⟨q', hr, hkept⟩ := post_of_step hq.represents hwp hstep
  have hholds := holdsSeqs_inUse hr hkept.sched.inv
  refine ⟨_, hholds, Kept.congr hkept (get_inUse hkept.sched.inv) ?_⟩
  exact fun i hi => (hholds.domain i).mpr hi

/-- A call that may be made keeps what later calls rely on. -/
theorem step_kept (hq : HoldsSeqs s q) (h : SchedInv boot s.core q)
    (hstep : Guarded KernelStep (Sound boot) s op s') :
    ∃ q', HoldsSeqs s' q' ∧ Kept boot (Miscounts s.core op) s.core q s'.core q' :=
  kept_of_wp hq hstep.2 (wp_execOp h (hstep.1 q hq))

/-- A call that may be made leads to a state of which all that is known of the call
holds. -/
theorem step_post {Q : Unit → Core → KernelSeqs → Prop} (hq : HoldsSeqs s q)
    (h : SchedInv boot s.core q) (hop : Sound boot s op)
    (hwp : Wp listAt (execOp op) Q s.core q) :
    ∃ s' q' q1, Guarded KernelStep (Sound boot) s op s' ∧ HoldsSeqs s' q' ∧
      SchedInv boot s'.core q' ∧ Q () s'.core q1 ∧
      ∀ i, Core.Accessible s'.core i → (q1 i).isSome → q'.get i = q1.get i := by
  obtain ⟨s', hstep⟩ := step_of_wp hq.represents hwp
  obtain ⟨q', hq', hkept⟩ := step_kept hq h ⟨hop, hstep⟩
  obtain ⟨q1, hr, hQ⟩ := post_of_step hq.represents hwp hstep
  refine ⟨s', q', q1, ⟨hop, hstep⟩, hq', hkept.sched, hQ, fun i hi h1 => ?_⟩
  obtain ⟨xs, hxs⟩ := Option.isSome_iff_exists.mp ((hq'.domain i).mpr hi)
  obtain ⟨ys, hys⟩ := Option.isSome_iff_exists.mp h1
  rw [Seqs.get_of_eq hxs, Seqs.get_of_eq hys]
  exact (hq'.represents.lists i xs hxs).unique (hr.lists i ys hys)

theorem sched_run {es : List KernelOp} (hrun : Run (Guarded KernelStep (Sound boot)) s es s')
    (h : Sched boot s) : Sched boot s' := by
  refine hrun.invariant (Sched boot) ?_ h
  rintro s op s' ⟨q, hq, hsched⟩ hstep
  obtain ⟨q', hq', hkept⟩ := step_kept hq hsched hstep
  exact ⟨q', hq', hkept.sched⟩

end Steps

section Start

variable {s0 s : KernelState} {init t : Nat} {old : Thread}

/-- `init_processes` is called on a fresh machine, with a page for the idle thread that is
not the stack of the boot thread. -/
structure Starts (s0 : KernelState) (init t : Nat) (old : Thread) (s : KernelState) : Prop where
  fresh : Fresh s0.core
  apart : t ≠ s0.core.current
  page : old.tid ≠ maxTid + 1
  step : KernelStep s0 (.init init (some (t, old))) s

theorem started_of_starts (h : Starts s0 init t old s) :
    ∃ q, HoldsSeqs s q ∧ Started t init s.core q ∧ s.core.current = s0.core.current ∧
      (s.core.procs init).numLiveThreads = (s0.core.procs init).numLiveThreads := by
  obtain ⟨hfresh, hapart, hold, hstep⟩ := h
  have hwp : Wp listAt (execOp (.init init (some (t, old))))
      (fun _ c' q' => Started t init c' q' ∧ c'.current = s0.core.current ∧
        (c'.procs init).numLiveThreads = (s0.core.procs init).numLiveThreads) s0.core
      fun _ => none :=
    wp_initProcesses hfresh.live hfresh.liveProcs hfresh.log hapart hold
  obtain ⟨q', hr, hstarted, hcur⟩ := post_of_step (represents_empty listAt s0.heap) hwp hstep
  have hinv := hstarted.schedInv.inv
  have hholds := holdsSeqs_inUse hr hinv
  refine ⟨_, hholds, ⟨hstarted.live, hstarted.liveProcs, hstarted.state, hstarted.procOf,
    hstarted.idleT, hstarted.boot, hstarted.other, hstarted.released, ?_, ?_, ?_, ?_⟩, hcur⟩
  · exact fun i hi => (hholds.domain i).mpr hi
  · rw [get_inUse hinv]
    exact hstarted.ready
  · rw [get_inUse hinv]
    exact hstarted.allProcs
  · intro i hir hia
    rw [get_inUse hinv]
    exact hstarted.empty i hir hia

/-- The boot thread has handed over to the thread `x` of the process `p`, and the idle
thread `t` is the only one on the ready list. -/
structure Entered (x t p count : Nat) (c : Core) (q : KernelSeqs) : Prop where
  current : c.current = x
  live : c.live x = true
  liveIdle : c.live t = true
  idle : c.idleT = some t
  proc : c.procOf x = p
  count : (c.procs p).numLiveThreads = count
  lists : ∀ i, Core.Accessible c i → (q i).isSome
  ready : q.get .readyThreads = [.node t]
  waits : ∀ i u, .waitNode u ∉ q.get i

theorem Entered.congr {x p count : Nat} {c : Core} {q q' : KernelSeqs}
    (h : Entered x t p count c q) (hinv : SchedInv boot c q')
    (hsame : ∀ i, Core.Accessible c i → (q i).isSome → q'.get i = q.get i) :
    Entered x t p count c q' := by
  refine ⟨h.current, h.live, h.liveIdle, h.idle, h.proc, h.count, hinv.inv.lists, ?_,
    fun i u hu => ?_⟩
  · rw [hsame .readyThreads trivial (h.lists .readyThreads trivial)]
    exact h.ready
  · by_cases hi : Core.Accessible c i
    · rw [hsame i hi (h.lists i hi)] at hu
      exact h.waits i u hu
    · rw [hinv.inv.stale i hi] at hu
      exact List.not_mem_nil hu

/-- The boot thread gives up the processor to the first ready thread. -/
theorem exists_entered {x p count : Nat} {q : KernelSeqs} {rest : List NodeAddr}
    (hq : HoldsSeqs s q) (h : SchedInv boot s.core q) (hcur : s.core.current = boot)
    (hboot : s.core.state boot = .blocked) (hready : q.get .readyThreads = .node x :: rest)
    (hrest : (if rest = [] then [.node x] else rest) = [.node t]) (hne : boot ≠ x)
    (hstate : s.core.state x = .ready) (hx : s.core.live x = true) (ht : s.core.live t = true)
    (hidle : s.core.idleT = some t) (hp : s.core.procOf x = p)
    (hcount : (s.core.procs p).numLiveThreads = count)
    (hoff : .node boot ∉ q.get .readyThreads) (hwaits : ∀ i u, .waitNode u ∉ q.get i) :
    ∃ s1 q1, Guarded KernelStep (Sound boot) s .yield s1 ∧ HoldsSeqs s1 q1 ∧
      SchedInv boot s1.core q1 ∧ Entered x t p count s1.core q1 := by
  have hsound : Sound boot s .yield := by
    intro q' hq'
    rw [hq'.unique hq]
    refine Or.inl ?_
    rwa [hcur]
  rw [← hcur] at hboot hne
  have hwp : Wp listAt (execOp .yield) (fun _ c' q' => Entered x t p count c' q') s.core q := by
    apply wp_ignore
    apply wp_schedule_leave hboot (h.inv.lists .readyThreads trivial) hready hne hstate
      (h.inv.lists .dyingThreads trivial) h.dying
    intro c1 c' ha _ hr
    have hlive : c'.live = s.core.live := hr.live.trans ha.live
    have hprocs : c'.liveProcs = s.core.liveProcs := hr.liveProcs.trans ha.liveProcs
    refine ⟨hr.current, ?_, ?_, hr.idleT.trans (ha.idleT.trans hidle),
      (hr.procOf x).trans ((ha.procOf x).trans hp), ?_, fun i hi => ?_, ?_, ?_⟩
    · rwa [hlive]
    · rwa [hlive]
    · rw [hr.counts]
      change (c1.procs p).numLiveThreads = _
      rwa [ha.procs]
    · have hs := h.inv.lists i ((accessible_congr hlive hprocs i).mp hi)
      split
      · exact hs
      · exact Seqs.isSome_set hs
    · rw [← hrest]
      split
      · next hnil => rw [hready, hnil]
      · rw [Seqs.get_set_same]
    · intro i u hu
      split at hu
      · exact hwaits i u hu
      · refine hwaits i u (waits_set (fun v hv => ?_) i u hu)
        rw [hready]
        exact List.mem_cons_of_mem _ hv
  obtain ⟨s1, q1, _, hstep, hq1, hsched1, hent, hsame⟩ := step_post hq h hsound hwp
  exact ⟨s1, q1, hstep, hq1, hsched1, hent.congr hsched1 hsame⟩

/-- Alone, the idle thread stays on the ready list when it is chosen. -/
theorem entered_idle (h : Starts s0 init t old s) :
    ∃ s1 q, Guarded KernelStep (Sound s0.core.current) s .yield s1 ∧ HoldsSeqs s1 q ∧
      SchedInv s0.core.current s1.core q ∧
      Entered t t init (s0.core.procs init).numLiveThreads s1.core q := by
  obtain ⟨q, hq, hstarted, hcur, hcount⟩ := started_of_starts h
  have hsched := hstarted.schedInv
  rw [hcur] at hsched
  have hlive : s.core.live t = true := (hstarted.live t).mpr rfl
  have hne := hstarted.other
  have hboot := hstarted.boot
  rw [hcur] at hne hboot
  refine exists_entered hq hsched hcur hboot hstarted.ready (if_pos rfl) hne.symm hstarted.state
    hlive hlive hstarted.idleT hstarted.procOf hcount ?_ hstarted.no_waits
  rw [hstarted.ready]
  simp [hne.symm]

/-- A thread may be created in any live process. -/
theorem exists_created {x p : Nat} {page : Thread} (slot : Nat) (hq : HoldsSeqs s q)
    (h : SchedInv boot s.core q) (hp : s.core.liveProcs p = true) (hdead : s.core.live x = false)
    (hboot : x ≠ boot) (hpage : page.tid ≠ maxTid + 1) (hwaits : ∀ i u, .waitNode u ∉ q.get i) :
    ∃ s1 q1, Guarded KernelStep (Sound boot) s (.create (some (x, page)) p slot) s1 ∧
      HoldsSeqs s1 q1 ∧ SchedInv boot s1.core q1 ∧ Created x p slot s.core s1.core ∧
      q1.get .readyThreads = .node x :: q.get .readyThreads ∧ ∀ i u, .waitNode u ∉ q1.get i := by
  have hsound : Sound boot s (.create (some (x, page)) p slot) := by
    refine fun _ _ => ⟨hp, fun u o heq => ?_⟩
    cases heq
    exact ⟨hdead, hboot⟩
  have hwp : Wp listAt (execOp (.create (some (x, page)) p slot)) (fun _ c' q' =>
      Created x p slot s.core c' ∧ q' = (q.set (.threadWaiters x) []).set .readyThreads
        (.node x :: q.get .readyThreads)) s.core q := by
    apply wp_ignore
    apply wp_threadCreate (h.inv.lists .readyThreads trivial)
    · exact fun i => (h.inv.off_of_dead hdead i).1
    · exact fun hold => absurd hold hpage
    · exact fun tid c' _ hc => ⟨hc, rfl⟩
  obtain ⟨s1, q1, _, hstep, hq1, hsched1, ⟨hc, rfl⟩, hsame⟩ := step_post hq h hsound hwp
  have hready : q1.get .readyThreads = .node x :: q.get .readyThreads := by
    rw [hsame .readyThreads trivial (by simp [Seqs.set]), Seqs.get_set_same]
  refine ⟨s1, q1, hstep, hq1, hsched1, hc, hready, fun i u hu => ?_⟩
  by_cases hi : Core.Accessible s1.core i
  · rcases eq_or_ne i .readyThreads with rfl | hir
    · rw [hready] at hu
      rcases List.mem_cons.mp hu with heq | hu
      · cases heq
      · exact hwaits _ u hu
    rcases eq_or_ne i (.threadWaiters x) with rfl | hiw
    · rw [hsame _ hi (by simp [Seqs.set]), Seqs.get_set_of_ne (by simp), Seqs.get_set_same] at hu
      exact List.not_mem_nil hu
    have hacc : Core.Accessible s.core i := by
      cases i with
      | threadWaiters u =>
          have hne : u ≠ x := fun heq => hiw (congrArg _ heq)
          rwa [Core.Accessible, hc.live, Function.update_of_ne hne] at hi
      | procWaiters p => rwa [Core.Accessible, hc.liveProcs] at hi
      | _ => trivial
    have hset : ((q.set (.threadWaiters x) []).set .readyThreads
        (.node x :: q.get .readyThreads)) i = q i := by
      rw [Seqs.set_of_ne hir, Seqs.set_of_ne hiw]
    have hsome : (((q.set (.threadWaiters x) []).set .readyThreads
        (.node x :: q.get .readyThreads)) i).isSome := by
      rw [hset]
      exact h.inv.lists i hacc
    rw [hsame i hi hsome, Seqs.get, hset] at hu
    exact hwaits i u hu
  · rw [hsched1.inv.stale i hi] at hu
    exact List.not_mem_nil hu

theorem created_beside_idle {x : Nat} {page : Thread} (slot : Nat) (h : Starts s0 init t old s)
    (hx : x ≠ t) (hboot : x ≠ s0.core.current) (hpage : page.tid ≠ maxTid + 1) :
    ∃ s1 q, Guarded KernelStep (Sound s0.core.current) s (.create (some (x, page)) init slot) s1 ∧
      HoldsSeqs s1 q ∧ SchedInv s0.core.current s1.core q ∧ Created x init slot s.core s1.core ∧
      q.get .readyThreads = [.node x, .node t] ∧ ∀ i u, .waitNode u ∉ q.get i := by
  obtain ⟨q, hq, hstarted, hcur, _⟩ := started_of_starts h
  have hsched := hstarted.schedInv
  rw [hcur] at hsched
  have hdead : s.core.live x = false := by
    rw [← Bool.not_eq_true, hstarted.live]
    exact hx
  have hcreated := exists_created slot hq hsched ((hstarted.liveProcs init).mpr rfl) hdead hboot
    hpage hstarted.no_waits
  rwa [hstarted.ready] at hcreated

/-- A thread created beside the idle thread is chosen first, and taken off the ready list. -/
theorem entered_created {x : Nat} {page : Thread} (slot : Nat) (h : Starts s0 init t old s)
    (hx : x ≠ t) (hboot : x ≠ s0.core.current) (hpage : page.tid ≠ maxTid + 1) :
    ∃ s1 s2 q,
      Guarded KernelStep (Sound s0.core.current) s (.create (some (x, page)) init slot) s1 ∧
      Guarded KernelStep (Sound s0.core.current) s1 .yield s2 ∧ HoldsSeqs s2 q ∧
      SchedInv s0.core.current s2.core q ∧
      Entered x t init (s0.core.procs init).numLiveThreads s2.core q := by
  obtain ⟨_, _, hstarted, hcur, hcount⟩ := started_of_starts h
  have hne := hstarted.other
  have hstate := hstarted.boot
  rw [hcur] at hne hstate
  obtain ⟨s1, q1, hstep, hq1, hsched1, hc, hready, hwaits⟩ :=
    created_beside_idle slot h hx hboot hpage
  have hothers : ∀ u, u ≠ x → s1.core.threads u = s.core.threads u := hc.others
  have hstate1 : s1.core.state s0.core.current = .blocked := by
    rw [Core.state, hothers _ hboot.symm]
    exact hstate
  have hlivex : s1.core.live x = true := by rw [hc.live, Function.update_self]
  have hlivet : s1.core.live t = true := by
    rw [hc.live, Function.update_of_ne hx.symm]
    exact (hstarted.live t).mpr rfl
  have hcount1 : (s1.core.procs init).numLiveThreads = (s0.core.procs init).numLiveThreads := by
    rw [hc.procs, Function.update_self]
    exact hcount
  have hoff : .node s0.core.current ∉ q1.get .readyThreads := by
    rw [hready]
    simp [hboot.symm, hne.symm]
  obtain ⟨s2, q2, hstep2, hq2, hsched2, hent⟩ := exists_entered hq1 hsched1 (hc.current.trans hcur)
    hstate1 hready (if_neg (by simp)) hboot.symm hc.state hlivex hlivet
    (hc.idleT.trans hstarted.idleT) hc.procOf hcount1 hoff hwaits
  exact ⟨s1, s2, q2, hstep, hstep2, hq2, hsched2, hent⟩

theorem exists_starts : ∃ s, Starts zeroedState 0 1 blankThread s := by
  have hfresh : Fresh zeroedState.core := ⟨fun _ => rfl, fun _ => rfl, fun _ => rfl, rfl⟩
  have hwp : Wp listAt (execOp (.init 0 (some (1, blankThread))))
      (fun _ c' q' => Started 1 0 c' q' ∧ c'.current = zeroedState.core.current ∧
        (c'.procs 0).numLiveThreads = (zeroedState.core.procs 0).numLiveThreads)
      zeroedState.core fun _ => none :=
    wp_initProcesses hfresh.live hfresh.liveProcs hfresh.log (by decide) (by decide)
  obtain ⟨s, hstep⟩ := step_of_wp (represents_empty listAt zeroedState.heap) hwp
  exact ⟨s, hfresh, by decide, by decide, hstep⟩

theorem sched_of_starts (h : Starts s0 init t old s) : Sched s0.core.current s := by
  obtain ⟨q, hq, hstarted, hcur, _⟩ := started_of_starts h
  have hsched := hstarted.schedInv
  rw [hcur] at hsched
  exact ⟨q, hq, hsched⟩

end Start

end Longhorn.SchedulerRuns
