import Longhorn.SchedulerRuns

/-!
The count of live threads of a process, over whole runs.
-/

namespace Longhorn.LiveThreadCounts

open Longhorn.Foundations.TransitionRuns
open Longhorn.IntrusiveList
open Longhorn.ListRefinement
open Longhorn.ListPrograms
open Longhorn.ThreadModel
open Longhorn.KernelRuns
open Longhorn.SchedulerRules
open Longhorn.ThreadCounts
open Longhorn.SchedulerInvariant
open Longhorn.ProcessCalls
open Longhorn.SchedulerRuns

/-- The count of a process is the number of its slots in use, these hold live threads of the
process, and a process is on the list of all processes exactly while it exists, with a count
above zero. -/
structure CountExact (s : KernelState) (p : Nat) (procs : List NodeAddr) : Prop where
  list : IsList s.heap (listAt .allProcs) procs
  count : s.core.liveProcs p = true →
    (s.core.procs p).numLiveThreads = occupied (s.core.procs p)
  slots : s.core.liveProcs p = true → ∀ i t, i < maxNumThreads →
    (s.core.procs p).threads i = some t → s.core.live t = true ∧ s.core.procOf t = p
  positive : s.core.liveProcs p = true → 0 < (s.core.procs p).numLiveThreads
  listed : .procNode p ∈ procs ↔ s.core.liveProcs p = true

/-- A thread can be made on the page. -/
def GoodStack (stack : Option (Nat × Thread)) : Prop :=
  ∃ t old, stack = some (t, old) ∧ old.tid ≠ maxTid + 1

/-- A new process has empty slots, and where a thread is made there is a page for it; under
processes other than the initial one threads are made with `proc_create_thread`. -/
def MakesThread (init : Nat) (c : Core) : KernelOp → Prop
  | .create _ proc _ => proc = init
  | .procCreate page stack => ∀ p old, page = some (p, old) →
      (∀ i, i < maxNumThreads → old.threads i = none) ∧ GoodStack stack
  | .procCreateThread stack =>
      (∃ i, i < maxNumThreads ∧ (c.procs (c.procOf c.current)).threads i = none) →
        GoodStack stack
  | _ => True

/-- The call may be made, and what it makes is counted. -/
def SoundCount (boot init : Nat) (s : KernelState) (op : KernelOp) : Prop :=
  Sound boot s op ∧ MakesThread init s.core op

section Exact

variable {boot init t p : Nat} {old : Thread} {c : Core} {q : KernelSeqs} {op : KernelOp}
  {s s0 s1 : KernelState} {es : List KernelOp}

/-- A call that makes threads only on pages keeps the counts exact. -/
theorem wp_counts (h : SchedInv boot c q) (hmay : MayCall boot c q op)
    (hmakes : MakesThread init c op) :
    Wp listAt (execOp op) (fun _ c' q' => Kept boot (fun r => r = init) c q c' q') c q := by
  cases op with
  | create page proc childNum =>
      have hproc : proc = init := hmakes
      have hwp := wp_execOp h hmay
      rw [← hproc]
      exact hwp
  | procCreate page stack =>
      apply wp_ignore
      refine (wp_procCreate h hmay.1 hmay.2).mono ?_
      rintro _ c' q' ⟨hkept, htallied⟩
      refine hkept.narrow ?_
      rintro r ⟨o, hpage⟩ _ _ _
      obtain ⟨hnone, hstack⟩ := hmakes r o hpage
      exact htallied r o hpage hnone hstack
  | procCreateThread stack =>
      apply wp_ignore
      refine (wp_procCreateThread h hmay.1 hmay.2).mono ?_
      rintro _ c' q' ⟨hkept, hcounted⟩
      refine hkept.narrow ?_
      rintro r rfl _ hr
      exact hcounted hmakes hr
  | _ => exact (wp_execOp h hmay).mono fun _ _ _ hkept => hkept.narrow fun _ hr => hr.elim

/-- The invariant of the scheduler, with exact counts. -/
def SchedCounts (boot init : Nat) (s : KernelState) : Prop :=
  ∃ q, HoldsSeqs s q ∧ SchedInv boot s.core q ∧ ∀ p, p ≠ init → Counted p s.core q

theorem schedCounts_run (hrun : Run (Guarded KernelStep (SoundCount boot init)) s es s1)
    (h : SchedCounts boot init s) : SchedCounts boot init s1 := by
  refine hrun.invariant (SchedCounts boot init) ?_ h
  rintro s op s' ⟨q, hq, hsched, hcounts⟩ ⟨⟨hsound, hmakes⟩, hstep⟩
  obtain ⟨q', hq', hkept⟩ := kept_of_wp hq hstep (wp_counts hsched (hsound q hq) hmakes)
  exact ⟨q', hq', hkept.sched, fun p hp => hkept.counted p hp (hcounts p hp)⟩

theorem schedCounts_of_starts (h : Starts s0 init t old s) :
    SchedCounts s0.core.current init s := by
  obtain ⟨q, hq, hstarted, hcur, _⟩ := started_of_starts h
  have hsched := hstarted.schedInv
  rw [hcur] at hsched
  refine ⟨q, hq, hsched, fun p hp hlive => ?_⟩
  exact absurd ((hstarted.liveProcs p).mp hlive) hp

/-- As long as every thread that is counted is made, the counts of all processes but the
initial one are exact. -/
theorem live_counts_exact (hstart : Starts s0 init t old s)
    (hrun : Run (Guarded KernelStep (SoundCount s0.core.current init)) s es s1) :
    ∀ p, p ≠ init → ∃ procs, CountExact s1 p procs := by
  obtain ⟨q, hq, hsched, hcounts⟩ := schedCounts_run hrun (schedCounts_of_starts hstart)
  refine fun p hp => ⟨q.get .allProcs, hq.isList trivial, fun hl => (hcounts p hp hl).count,
    fun hl i u hi hu => ?_, fun hl => (hcounts p hp hl).positive, fun hin => ?_,
    fun hl => (hcounts p hp hl).listed⟩
  · obtain ⟨hlive, hproc, _⟩ := (hcounts p hp hl).slots i u hi hu
    exact ⟨hlive, hproc⟩
  · obtain ⟨r, hr, hl⟩ := hsched.inv.fits .allProcs _ hin
    rw [NodeAddr.procNode.injEq] at hr
    exact hr ▸ hl

def blankProcess : Process := ⟨0, none, fun _ => none, 0, 0⟩

theorem live_counts_exact_create : ∃ s s1 : KernelState, Starts zeroedState 0 1 blankThread s ∧
    Guarded KernelStep (SoundCount 0 0) s
      (.procCreate (some (5, blankProcess)) (some (2, blankThread))) s1 ∧
    ∃ procs, CountExact s1 5 procs := by
  obtain ⟨s, hs⟩ := exists_starts
  obtain ⟨q, hq, hstarted, hcur, _⟩ := started_of_starts hs
  have hsched := hstarted.schedInv
  rw [hcur] at hsched
  have hsound : Sound 0 s (.procCreate (some (5, blankProcess)) (some (2, blankThread))) := by
    refine fun _ _ => ⟨?_, ?_⟩
    · rintro p old ⟨⟩
      refine ⟨?_, nofun⟩
      rw [← Bool.not_eq_true, hstarted.liveProcs]
      decide
    · rintro u old ⟨⟩
      refine ⟨?_, by decide⟩
      rw [← Bool.not_eq_true, hstarted.live]
      decide
  have hmakes : MakesThread 0 s.core
      (.procCreate (some (5, blankProcess)) (some (2, blankThread))) := by
    rintro p old ⟨⟩
    exact ⟨fun _ _ => rfl, _, _, rfl, by decide⟩
  obtain ⟨s1, hstep⟩ := exists_step hq hsched hsound
  have hguarded : Guarded KernelStep (SoundCount 0 0) s _ s1 := ⟨⟨hsound, hmakes⟩, hstep⟩
  exact ⟨s, s1, hs, hguarded, live_counts_exact hs (.single hguarded) 5 (by decide)⟩

/-- `proc_create` counts a thread for which there was no page. -/
theorem wp_procCreate_none {boot : Nat} (h : SchedInv boot c q) (hp : c.liveProcs p = false) :
    Wp listAt (procCreate (some (p, blankProcess)) none) (fun _ c' _ =>
      c'.liveProcs p = true ∧ (c'.procs p).numLiveThreads = 1 ∧ occupied (c'.procs p) = 0) c q := by
  apply Wp.bind
  apply wp_modifyCore
  obtain ⟨c0, hc0⟩ : ∃ c0, c0 = { c.withProc p fun _ => { blankProcess with pid := c.pidCount } with
    pidCount := (c.pidCount + 1) % 2 ^ 32 } := ⟨_, rfl⟩
  have hproc0 : c0.procs p = { blankProcess with pid := c.pidCount } := by
    rw [hc0]
    simp [Core.withProc]
  have hslots : ∀ i ∈ List.range maxNumThreads, ∀ t, (c0.procs p).threads i = some t →
      c0.live t = false ∧ t ≠ boot := by
    intro i _ t ht
    rw [hproc0] at ht
    cases ht
  rw [← hc0]
  apply Wp.bind
  refine (wp_terminateSlots hslots).mono ?_
  rintro _ c1 _ ⟨_, hprocs1, rfl⟩
  apply Wp.bind
  apply wp_init
  apply Wp.bind
  apply wp_modifyCore
  apply Wp.bind
  apply wp_pure
  rw [if_pos (by decide)]
  apply Wp.bind
  apply wp_modifyCore
  apply Wp.bind
  apply wp_insertEnd
  · exact Seqs.isSome_set (h.inv.lists .allProcs trivial)
  · refine ⟨not_isSentinel_procNode p, fun i hi => ?_⟩
    rcases eq_or_ne i (.procWaiters p) with rfl | hne
    · rw [Seqs.get_set_same] at hi
      exact List.not_mem_nil hi
    rw [Seqs.get_set_of_ne hne] at hi
    have hfit := h.inv.fits i _ hi
    cases i with
    | allProcs =>
        obtain ⟨r, hr, hlive⟩ := hfit
        cases hr
        rw [hp] at hlive
        cases hlive
    | _ =>
        obtain ⟨u, hu, _⟩ := hfit
        cases hu
  apply wp_pure
  refine ⟨?_, ?_, ?_⟩
  · simp [Core.withProc, Core.noteCall, changes, Core.note]
  · simp [Core.withProc, Core.noteCall, changes, Core.note]
  · have hnone : ∀ i, (c1.procs p).threads i = none := by
      rw [hprocs1, hproc0]
      exact fun _ => rfl
    simp [occupied, Core.withProc, Core.noteCall, changes, Core.note, hnone]

/-- There is a page for the process, but none for its thread. -/
theorem not_live_counts_exact : ∃ s s1 : KernelState, Starts zeroedState 0 1 blankThread s ∧
    KernelStep s (.procCreate (some (5, blankProcess)) none) s1 ∧
    ¬ ∃ procs, CountExact s1 5 procs := by
  obtain ⟨s, hs⟩ := exists_starts
  obtain ⟨q, hq, hstarted, hcur, _⟩ := started_of_starts hs
  have hdead : s.core.liveProcs 5 = false := by
    rw [← Bool.not_eq_true, hstarted.liveProcs]
    decide
  have hwp : Wp listAt (execOp (.procCreate (some (5, blankProcess)) none)) (fun _ c' _ =>
      c'.liveProcs 5 = true ∧ (c'.procs 5).numLiveThreads = 1 ∧ occupied (c'.procs 5) = 0)
      s.core q := by
    apply wp_ignore
    exact wp_procCreate_none hstarted.schedInv hdead
  obtain ⟨s1, hstep⟩ := step_of_wp hq.represents hwp
  obtain ⟨_, _, hlive, hcount, hnone⟩ := post_of_step hq.represents hwp hstep
  refine ⟨s, s1, hs, hstep, ?_⟩
  rintro ⟨procs, hexact⟩
  have hsame := hexact.count hlive
  rw [hcount, hnone] at hsame
  cases hsame

end Exact

end Longhorn.LiveThreadCounts
