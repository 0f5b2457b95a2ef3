import Longhorn.SchedulerRuns

/-!
When `thread_block` blocks: it does so to a thread that it finds on the ready list, and
that thread then sleeps until it is woken.
-/

namespace Longhorn.BlockedThreads

open Longhorn.Foundations.TransitionRuns
open Longhorn.IntrusiveList
open Longhorn.ListRefinement
open Longhorn.ListPrograms
open Longhorn.ThreadModel
open Longhorn.KernelRuns
open Longhorn.SchedulerRules
open Longhorn.SchedulerInvariant
open Longhorn.ThreadCalls
open Longhorn.ProcessCalls
open Longhorn.SchedulerRuns

/-- The calls that block the running thread. -/
def Blocking : KernelOp → Prop
  | .block => True
  | .wait _ => True
  | .procWait _ => True
  | _ => False

/-- The thread is blocked, another one runs, and whatever calls may be made next, it runs again
only after it has been unblocked or cleaned up. -/
structure FallsAsleep (boot x : Nat) (s : KernelState) : Prop where
  state : s.core.state x = .blocked
  listed : ∃ xs, IsList s.heap (listAt .blockedThreads) xs ∧ .node x ∈ xs
  other : s.core.current ≠ x
  sleeps : ∀ es s', Run (Guarded KernelStep (Sound boot)) s es s' → s'.core.current = x →
    wakeCount x s.core.log < wakeCount x s'.core.log

/-- The running thread is still on the ready list. -/
def OnReady (s : KernelState) : Prop :=
  ∃ xs, IsList s.heap (listAt .readyThreads) xs ∧ .node s.core.current ∈ xs

section Blocks

variable {boot init t x : Nat} {old : Thread} {c : Core} {q : KernelSeqs} {op : KernelOp}
  {s s0 s1 s2 : KernelState} {es : List KernelOp}

theorem wp_blocking (hop : Blocking op) (h : SchedInv boot c q) (hlive : c.live c.current = true)
    (hmay : MayCall boot c q op) :
    Wp listAt (execOp op) (fun _ c' q' => ∃ flow, BlockOutcome c q flow c' q') c q := by
  cases op with
  | block =>
      apply wp_ignore
      exact (wp_threadBlock h hmay.1 hmay.2).mono fun flow _ _ hc => ⟨flow, hc.2.2⟩
  | wait u =>
      apply wp_ignore
      exact (wp_wait h hlive (show HoldsWaiters (.threadWaiters u) from trivial) hmay.1 hmay.2.off
        hmay.2.block).mono fun flow _ _ hc => ⟨flow, hc.2.2.2⟩
  | procWait p =>
      apply wp_ignore
      exact (wp_wait h hlive (show HoldsWaiters (.procWaiters p) from trivial) hmay.1 hmay.2.off
        hmay.2.block).mono fun flow _ _ hc => ⟨flow, hc.2.2.2⟩
  | _ => exact hop.elim

theorem later_run (hrun : Run (Guarded KernelStep (Sound boot)) s es s1) (hs : Sched boot s) :
    Later s.core s1.core := by
  induction hrun with
  | nil s => exact Later.refl _
  | cons hstep _ ih =>
      obtain ⟨q, hq, hsched⟩ := hs
      obtain ⟨q', hq', hkept⟩ := step_kept hq hsched hstep
      exact hkept.later.trans (ih ⟨q', hq', hkept.sched⟩)

/-- A blocked thread that has not been woken does not run. -/
theorem sleeps_run (hs : Sched boot s) (hstate : s.core.state x = .blocked)
    (hlive : s.core.live x = true) (hrun : Run (Guarded KernelStep (Sound boot)) s es s1)
    (hcur : s1.core.current = x) : wakeCount x s.core.log < wakeCount x s1.core.log := by
  have hlater := later_run hrun hs
  refine lt_of_le_of_ne (hlater.woken x) fun heq => ?_
  obtain ⟨hasleep, hlive1⟩ := hlater.asleep x hstate hlive heq.symm
  obtain ⟨_, _, hsched⟩ := sched_run hrun hs
  subst hcur
  rw [(hsched.current hlive1).1] at hasleep
  cases hasleep

/-- After the boot thread has given up the processor, a call of a thread other than the idle
thread blocks it if and only if it is still on the ready list. -/
theorem falls_asleep_iff (hstart : Starts s0 init t old s)
    (hrun : Run (Guarded KernelStep (Sound s0.core.current)) s es s1)
    (hleft : s1.core.current ≠ s0.core.current) (hop : Blocking op)
    (hstep : Guarded KernelStep (Sound s0.core.current) s1 op s2) :
    FallsAsleep s0.core.current s1.core.current s2 ↔ OnReady s1 := by
  obtain ⟨q, hq, hsched⟩ := sched_run hrun (sched_of_starts hstart)
  have hlive : s1.core.live s1.core.current = true := by
    obtain ⟨hboot, _⟩ | ⟨hlive, _⟩ := hsched.running
    · exact absurd hboot hleft
    · exact hlive
  obtain ⟨q2, hq2, hkept⟩ := step_kept hq hsched hstep
  obtain ⟨_, _, flow, hblocks, hreturns⟩ :=
    post_of_step hq.represents (wp_blocking hop hsched hlive (hstep.1 q hq)) hstep.2
  constructor
  · intro hasleep
    by_contra hno
    refine hasleep.other (hreturns fun hin => hno ⟨_, hq.isList trivial, hin⟩).2
  · rintro ⟨xs, hxs, hin⟩
    rw [hxs.unique (hq.isList trivial)] at hin
    obtain ⟨_, hother, hstate, hlive2⟩ := hblocks hin
    refine ⟨hstate, ⟨_, hq2.isList trivial, ?_⟩, hother, fun es s3 hrun3 hcur => ?_⟩
    · obtain ⟨hs, _⟩ | ⟨_, _, hlisted⟩ := hkept.sched.inv.placed _ hlive2 hother.symm
      · rw [hstate] at hs
        cases hs
      · exact hlisted
    · exact sleeps_run ⟨q2, hq2, hkept.sched⟩ hstate hlive2 hrun3 hcur

theorem falls_asleep_iff_block : ∃ s s1 s2 : KernelState, Starts zeroedState 0 1 blankThread s ∧
    Run (Guarded KernelStep (Sound 0)) s [.create (some (2, blankThread)) 0 1, .yield] s1 ∧
    Guarded KernelStep (Sound 0) s1 .block s2 ∧
    (FallsAsleep 0 s1.core.current s2 ↔ OnReady s1) := by
  obtain ⟨s, hs⟩ := exists_starts
  have hnew : blankThread.tid ≠ maxTid + 1 := by decide
  obtain ⟨a, s1, q, hcreate, hyield, hq, hsched, hent⟩ :=
    entered_created (x := 2) 1 hs (by decide) (by decide) hnew
  have hsound : Sound 0 s1 .block := by
    intro q' _
    rw [MayCall, hent.current, MayBlock, hent.idle, hent.current]
    exact ⟨hent.live, fun hidle => absurd hidle (by decide)⟩
  obtain ⟨s2, hstep⟩ := exists_step hq hsched hsound
  have hleft : s1.core.current ≠ zeroedState.core.current := by
    rw [hent.current]
    decide
  have hrun := Run.cons hcreate (.single hyield)
  exact ⟨s, s1, s2, hs, hrun, ⟨hsound, hstep⟩,
    falls_asleep_iff hs hrun hleft (show Blocking .block from trivial) ⟨hsound, hstep⟩⟩

/-- A thread that was chosen among several is no longer on the ready list, and goes on
running. -/
theorem not_falls_asleep : ∃ s s1 s2 : KernelState, Starts zeroedState 0 1 blankThread s ∧
    Run KernelStep s [.create (some (2, blankThread)) 0 1, .yield] s1 ∧
    s1.core.current = 2 ∧ s1.core.idleT = some 1 ∧ KernelStep s1 .block s2 ∧
    ¬ FallsAsleep 0 2 s2 := by
  obtain ⟨s, hs⟩ := exists_starts
  have hnew : blankThread.tid ≠ maxTid + 1 := by decide
  obtain ⟨a, s1, q, ⟨_, hcreate⟩, ⟨_, hyield⟩, hq, _, hent⟩ :=
    entered_created (x := 2) 1 hs (by decide) (by decide) hnew
  have hwp : Wp listAt (execOp .block) (fun _ c' _ => c'.current = 2) s1.core q := by
    apply wp_ignore
    apply wp_threadBlock_absent (hent.lists .readyThreads trivial)
    · rw [hent.current, hent.ready]
      decide
    · exact fun c' ha _ => ha.current.trans hent.current
  obtain ⟨s2, hblock⟩ := step_of_wp hq.represents hwp
  obtain ⟨_, _, hcur⟩ := post_of_step hq.represents hwp hblock
  exact ⟨s, s1, s2, hs, .cons hcreate (.single hyield), hent.current, hent.idle, hblock,
    fun hasleep => hasleep.other hcur⟩

end Blocks

end Longhorn.BlockedThreads
