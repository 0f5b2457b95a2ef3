import Longhorn.SchedulerRuns

/-!
Threads that have been cleaned up: their nodes are on no list, unless they ended while
they were registered as waiters of another thread.
-/

namespace Longhorn.TerminatedThreads

open Longhorn.Foundations.TransitionRuns
open Longhorn.IntrusiveList
open Longhorn.ListRefinement
open Longhorn.ListPrograms
open Longhorn.ThreadModel
open Longhorn.KernelRuns
open Longhorn.SchedulerRules
open Longhorn.SchedulerInvariant
open Longhorn.ThreadCalls
open Longhorn.ProcessCalls
open Longhorn.SchedulerRuns

/-- The lists in memory in use hold no node of a thread that is not alive, and no thread has
been cleaned up that was not alive. -/
structure DeadUnlinked (s : KernelState) : Prop where
  lists : ∀ i, Core.Accessible s.core i → ∃ xs, IsList s.heap (listAt i) xs ∧
    ∀ t, s.core.live t = false → .node t ∉ xs ∧ .waitNode t ∉ xs
  once : ∀ t b, .release t b ∈ s.core.log → b = true

section Exit

variable {c : Core} {q : KernelSeqs} {x n : Nat}

/-- A dying thread is cleaned up, and its process goes on. -/
theorem wp_threadCleanup_of {Q : Int → Core → KernelSeqs → Prop} (hstate : c.state x = .dying)
    (hgo : ¬ Core.EndsProc c x)
    (h : ∀ c', c'.live = Function.update c.live x false → c'.liveProcs = c.liveProcs → Q 0 c' q) :
    Wp listAt (threadCleanup x) Q c q := by
  apply Wp.bind
  apply wp_reads
  rw [if_neg (not_not_intro hstate)]
  apply Wp.bind
  apply wp_reads
  apply Wp.bind
  apply wp_modifyCore
  apply Wp.bind
  apply wp_reads
  rw [if_neg]
  · apply Wp.bind
    apply wp_modifyCore
    exact wp_pure (h _ rfl rfl)
  · intro hzero
    refine hgo ?_
    rw [Core.EndsProc]
    simpa [Core.withProc, Process.endThread] using hzero

/-- `finish_schedule` cleans up the thread that has ended. -/
theorem wp_finishSchedule_of {Q : Unit → Core → KernelSeqs → Prop} (hne : x ≠ c.current)
    (hlist : (q .dyingThreads).isSome) (hdying : q.get .dyingThreads = [.node x])
    (hstate : c.state x = .dying) (hgo : ¬ Core.EndsProc c x)
    (h : ∀ c', c'.live = Function.update c.live x false → c'.liveProcs = c.liveProcs →
      Q () c' (q.set .dyingThreads [])) : Wp listAt finishSchedule Q c q := by
  refine wp_finishSchedule_cases hlist fun c1 hr => Or.inr ⟨x, hdying, fun c2 ha _ => ?_⟩
  apply wp_threadCleanup_of
  · rw [ha.state, hr.state, state_setState_of_ne hne]
    exact hstate
  · rw [Core.EndsProc, ha.procOf, ha.procs, hr.procOf, hr.counts]
    exact hgo
  intro c' hlive hprocs
  refine h _ (hlive.trans ?_) (hprocs.trans ?_)
  · rw [ha.live, hr.live]
  · rw [ha.liveProcs, hr.liveProcs]

/-- A thread that nobody waits for ends, whatever it waits for itself. -/
theorem wp_threadExit_of {Q : Flow → Core → KernelSeqs → Prop} (hcur : c.current = x)
    (hlists : ∀ i, Core.Accessible c i → (q i).isSome) (hlive : c.live x = true)
    (hoff : ∀ i, .node x ∉ q.get i) (hwaiters : q.get (.threadWaiters x) = [])
    (hdying : q.get .dyingThreads = []) (hready : q.get .readyThreads = [.node n])
    (hstate : c.state n = .ready) (hne : x ≠ n) (hgo : ¬ Core.EndsProc c x)
    (h : ∀ c' q', c'.live = Function.update c.live x false → c'.liveProcs = c.liveProcs →
      (∀ i, i ≠ .dyingThreads → q' i = q i) → Q .switched c' q') :
    Wp listAt threadExit Q c q := by
  have hlistReady := hlists .readyThreads trivial
  have hlistWaiters := hlists (.threadWaiters x) hlive
  apply Wp.bind
  apply wp_reads
  rw [hcur]
  apply Wp.bind
  apply wp_modifyCore
  apply Wp.bind
  apply wp_delete hlistReady fun hon => absurd hon (hoff _)
  intro _
  apply Wp.bind
  apply wp_modifyCore
  obtain ⟨c1, hc1⟩ : ∃ c1, c1 =
    ((c.withInterrupts false).noteCall (.delete .readyThreads (.node x))).setState x .dying :=
    ⟨_, rfl⟩
  have ha1 : Alike (c.setState x .dying) c1 :=
    hc1 ▸ ((alike_withInterrupts c false).trans (alike_noteCall _ _)).setState x .dying
  rw [← hc1]
  apply Wp.bind
  apply Wp.bind
  apply wp_pop hlistWaiters
  rw [hwaiters]
  apply wp_pure
  apply Wp.bind
  apply wp_modifyCore
  obtain ⟨c2, hc2⟩ : ∃ c2, c2 =
    (c1.noteCall (.pop (.threadWaiters x))).withInterrupts false := ⟨_, rfl⟩
  have ha2 : Alike (c.setState x .dying) c2 :=
    hc2 ▸ ha1.trans ((alike_noteCall _ _).trans (alike_withInterrupts _ false))
  have hset : q.set (.threadWaiters x) ([] : List NodeAddr).tail = q := by
    rw [List.tail_nil, ← hwaiters, set_get_self hlistWaiters]
  have hstate2 : c2.state x = .dying := (ha2.state x).trans (state_setState _ _ _)
  rw [← hc2, hset]
  apply Wp.bind
  apply wp_pickNext_one hlistReady hready
  apply Wp.bind
  apply wp_reads
  rw [show c2.current = x from ha2.current.trans hcur]
  apply Wp.bind
  apply wp_requeue_dying hstate2 (hlists .dyingThreads trivial) hoff
  rw [hdying]
  obtain ⟨c3, hc3⟩ : ∃ c3, c3 = c2.noteCall (.insert .dyingThreads (.node x)) := ⟨_, rfl⟩
  have ha3 : Alike (c.setState x .dying) c3 := hc3 ▸ ha2.trans (alike_noteCall _ _)
  rw [← hc3]
  apply wp_dispatch_switch hne
  · rw [ha3.state, state_setState_of_ne hne.symm]
    exact hstate
  apply wp_finishSchedule_of (x := x) hne
  · simp [Seqs.set]
  · rw [Seqs.get_set_same]
  · exact (ha3.state x).trans (state_setState _ _ _)
  · change ¬ Core.EndsProc c3 x
    rw [Core.EndsProc, ha3.procOf, ha3.procs, procOf_setState]
    exact hgo
  intro c4 hlive4 hprocs4
  refine h c4 _ (hlive4.trans ?_) (hprocs4.trans ?_) fun i hid => ?_
  · change Function.update c3.live x false = _
    rw [ha3.live]
    rfl
  · exact ha3.liveProcs
  · rw [Seqs.set_of_ne hid, Seqs.set_of_ne hid]

variable {boot t p count : Nat} {s : KernelState}

/-- The running thread ends beside the idle thread. -/
theorem wp_exit_beside_idle (h : SchedInv boot c q) (hcur : c.current = x)
    (hlive : c.live x = true) (hidle : c.live t = true) (hready : q.get .readyThreads = [.node t])
    (hwaiters : q.get (.threadWaiters x) = []) (hgo : ¬ Core.EndsProc c x) (hne : x ≠ t) :
    Wp listAt (execOp .exit) (fun _ c' q' => c'.live = Function.update c.live x false ∧
      ∀ i, i ≠ .dyingThreads → q' i = q i) c q := by
  have hcurrent := h.current (hcur ▸ hlive)
  rw [hcur] at hcurrent
  have hoff : ∀ i, .node x ∉ q.get i := by
    refine (h.inv.detached_node ?_ hcurrent.2 ?_).2
    · rw [hready]
      simp [hne]
    · rw [h.dying]
      exact List.not_mem_nil
  have hstate : c.state t = .ready := by
    have hother : t ≠ c.current := by
      rw [hcur]
      exact hne.symm
    obtain ⟨hs, _⟩ | ⟨_, hout, _⟩ := h.inv.placed t hidle hother
    · exact hs
    · rw [hready] at hout
      exact absurd List.mem_cons_self hout
  apply wp_ignore
  exact wp_threadExit_of hcur h.inv.lists hlive hoff hwaiters h.dying hready hstate hne hgo
    fun c' q' hlive' _ hsame => ⟨hlive', hsame⟩

/-- Nobody waits for a thread that has just been chosen. -/
theorem waiters_nil (h : SchedInv boot s.core q) (hent : Entered x t p count s.core q) :
    q.get (.threadWaiters x) = [] := by
  refine List.eq_nil_iff_forall_not_mem.mpr fun a ha => ?_
  obtain ⟨u, rfl, _⟩ := h.inv.fits _ a ha
  exact hent.waits _ u ha

end Exit

section Unlinked

variable {s s0 s1 : KernelState} {init t : Nat} {old : Thread} {es : List KernelOp}

/-- As long as every call may be made, no list holds a node of a thread that has been cleaned
up. -/
theorem dead_unlinked (hstart : Starts s0 init t old s)
    (hrun : Run (Guarded KernelStep (Sound s0.core.current)) s es s1) : DeadUnlinked s1 := by
  obtain ⟨q, hq, hsched⟩ := sched_run hrun (sched_of_starts hstart)
  refine ⟨fun i hi => ⟨q.get i, hq.isList hi, fun u hu => ?_⟩, hsched.inv.released⟩
  exact hsched.inv.off_of_dead hu i

/-- A thread ends and is cleaned up by the idle thread. -/
theorem dead_unlinked_exit : ∃ s s1 : KernelState, Starts zeroedState 0 1 blankThread s ∧
    Run (Guarded KernelStep (Sound 0)) s [.create (some (2, blankThread)) 0 1, .yield, .exit] s1 ∧
    s1.core.live 2 = false ∧ DeadUnlinked s1 := by
  obtain ⟨s, hs⟩ := exists_starts
  obtain ⟨s1, s2, q, hcreate, hyield, hq, hsched, hent⟩ := entered_created (x := 2) 1 hs
    (by decide) (by decide) (show blankThread.tid ≠ maxTid + 1 by decide)
  have hgo : ¬ Core.EndsProc s2.core 2 := by
    rw [Core.EndsProc, hent.proc, hent.count]
    decide
  have hsound : Sound 0 s2 .exit := by
    intro q' hq'
    rw [hq'.unique hq, MayCall, hent.current]
    refine ⟨hent.live, ?_, fun i hi => absurd hi (hent.waits i 2), fun hends => absurd hends hgo⟩
    rw [hent.idle]
    decide
  have hwp := wp_exit_beside_idle hsched hent.current hent.live hent.liveIdle hent.ready
    (waiters_nil hsched hent) hgo (by decide)
  obtain ⟨s3, _, _, hexit, _, _, ⟨hlive, _⟩, _⟩ := step_post hq hsched hsound hwp
  have hrun : Run (Guarded KernelStep (Sound 0)) s _ s3 :=
    .cons hcreate (.cons hyield (.single hexit))
  refine ⟨s, s3, hs, hrun, ?_, dead_unlinked hs hrun⟩
  rw [hlive, Function.update_self]

end Unlinked

section Linked

variable {q : KernelSeqs} {x : Nat}

/-- A thread of the initial process that is not on the ready list waits for the idle thread:
it stays registered, and goes on. -/
theorem exists_registered {boot t p count : Nat} {s : KernelState} (hq : HoldsSeqs s q)
    (h : SchedInv boot s.core q) (hent : Entered x t p count s.core q) (hne : x ≠ t) :
    ∃ s1 q1, Guarded KernelStep (Sound boot) s (.wait t) s1 ∧ HoldsSeqs s1 q1 ∧
      SchedInv boot s1.core q1 ∧ s1.core.current = x ∧ s1.core.live x = true ∧
      s1.core.live t = true ∧ (s1.core.procs (s1.core.procOf x)).numLiveThreads = count ∧
      q1.get .readyThreads = [.node t] ∧ .waitNode x ∈ q1.get (.threadWaiters t) ∧
      q1.get (.threadWaiters x) = [] := by
  have hoff : .node s.core.current ∉ q.get .readyThreads := by
    rw [hent.ready, hent.current]
    simp [hne]
  have hwaiters := waiters_nil h hent
  have hsound : Sound boot s (.wait t) := by
    intro q' hq'
    rw [hq'.unique hq]
    refine ⟨hent.liveIdle, hent.current ▸ hent.live, fun i => hent.waits i _, fun hidle => ?_⟩
    rw [hent.idle, hent.current, Option.some.injEq] at hidle
    exact absurd hidle.symm hne
  have hlist : (q .readyThreads).isSome := hent.lists .readyThreads trivial
  have hwp : Wp listAt (execOp (.wait t)) (fun _ c' q' => Alike s.core c' ∧
      q' = q.set (.threadWaiters t) (.waitNode x :: q.get (.threadWaiters t))) s.core q := by
    apply wp_ignore
    apply Wp.bind
    apply wp_reads
    rw [hent.current]
    apply Wp.bind
    apply wp_insert (hent.lists (.threadWaiters t) hent.liveIdle)
      ⟨not_isSentinel_waitNode x, fun i => hent.waits i x⟩
    have ha := alike_noteCall s.core (.insert (.threadWaiters t) (NodeAddr.waitNode x))
    apply wp_threadBlock_absent
    · exact Seqs.isSome_set hlist
    · rwa [ha.current, Seqs.get_set_of_ne (by simp)]
    · exact fun c' ha' _ => ⟨ha.trans ha', rfl⟩
  obtain ⟨s1, q1, _, hstep, hq1, hsched1, ⟨ha, rfl⟩, hsame⟩ := step_post hq h hsound hwp
  have hlive1 : s1.core.live x = true := by
    rw [ha.live]
    exact hent.live
  have hlive2 : s1.core.live t = true := by
    rw [ha.live]
    exact hent.liveIdle
  refine ⟨s1, q1, hstep, hq1, hsched1, ha.current.trans hent.current, hlive1, hlive2, ?_, ?_, ?_,
    ?_⟩
  · rw [ha.procOf, ha.procs, hent.proc]
    exact hent.count
  · rw [hsame .readyThreads trivial, Seqs.get_set_of_ne (by simp)]
    · exact hent.ready
    · exact Seqs.isSome_set hlist
  · rw [hsame (.threadWaiters t) hlive2 (by simp [Seqs.set]), Seqs.get_set_same]
    exact List.mem_cons_self
  · have hother : ListId.threadWaiters x ≠ .threadWaiters t := by simpa using hne
    rw [hsame (.threadWaiters x) hlive1, Seqs.get_set_of_ne hother]
    · exact hwaiters
    · rw [Seqs.set_of_ne hother]
      exact hent.lists _ hent.live

/-- A thread waits for the idle thread, which does not block it, and ends: its wait node
stays on the list of the idle thread. -/
theorem not_dead_unlinked : ∃ s s' : KernelState, Starts zeroedState 0 1 blankThread s ∧
    Run KernelStep s [.create (some (2, blankThread)) 0 1, .yield, .wait 1, .exit] s' ∧
    ¬ DeadUnlinked s' := by
  obtain ⟨s, hs⟩ := exists_starts
  have hnew : blankThread.tid ≠ maxTid + 1 := by decide
  obtain ⟨s1, s2, q2, ⟨_, hcreate⟩, ⟨_, hyield⟩, hq2, hsched2, hent⟩ :=
    entered_created (x := 2) 1 hs (by decide) (by decide) hnew
  obtain ⟨s3, q3, ⟨_, hwait⟩, hq3, hsched3, hcur, hlive, hidle, hcount, hready, hin, hwaiters⟩ :=
    exists_registered hq2 hsched2 hent (by decide)
  have hgo : ¬ Core.EndsProc s3.core 2 := by
    rw [Core.EndsProc, hcount]
    decide
  have hwp := wp_exit_beside_idle hsched3 hcur hlive hidle hready hwaiters hgo (by decide)
  obtain ⟨s4, hexit⟩ := step_of_wp hq3.represents hwp
  obtain ⟨q4, hr, hlive4, hsame⟩ := post_of_step hq3.represents hwp hexit
  have hdead : s4.core.live 2 = false := by rw [hlive4, Function.update_self]
  have hidle' : s4.core.live 1 = true := by
    rw [hlive4, Function.update_of_ne (by decide)]
    exact hidle
  have hwaits : q4 (.threadWaiters 1) = q3 (.threadWaiters 1) := hsame _ (by simp)
  refine ⟨s, s4, hs, .cons hcreate (.cons hyield (.cons hwait (.single hexit))), fun hno => ?_⟩
  obtain ⟨xs, hxs, hnone⟩ := hno.lists (.threadWaiters 1) hidle'
  obtain ⟨ys, hys⟩ := Option.isSome_iff_exists.mp (hsched3.inv.lists (.threadWaiters 1) hidle)
  rw [Seqs.get_of_eq hys, ← hxs.unique (hr.lists _ ys (hwaits.trans hys))] at hin
  exact (hnone 2 hdead).2 hin

end Linked

end Longhorn.TerminatedThreads
