import Longhorn.SchedulerRuns

/-!
The lists of the scheduler in every state of a run, and how a thread that yields while it
is still on the ready list breaks them.
-/

namespace Longhorn.SchedulerLists

open Longhorn.Foundations.LinkedNodes
open Longhorn.Foundations.TransitionRuns
open Longhorn.IntrusiveList
open Longhorn.ListRefinement
open Longhorn.ListPrograms
open Longhorn.ThreadModel
open Longhorn.KernelRuns
open Longhorn.SchedulerRules
open Longhorn.SchedulerInvariant
open Longhorn.ProcessCalls
open Longhorn.SchedulerRuns

/-- The lists of the scheduler are well formed, no node is on two of them, and every
thread is where its state says. -/
structure ListsSound (s : KernelState) (ready blocked dying : List NodeAddr) : Prop where
  readyList : IsList s.heap (listAt .readyThreads) ready
  blockedList : IsList s.heap (listAt .blockedThreads) blocked
  dyingList : IsList s.heap (listAt .dyingThreads) dying
  nodup : (ready ++ blocked ++ dying).Nodup
  onReady : ∀ t, s.core.live t = true → t ≠ s.core.current → s.core.state t = .ready →
    ready.count (.node t) = 1
  onBlocked : ∀ t, s.core.live t = true → s.core.state t = .blocked →
    blocked.count (.node t) = 1
  live : s.core.live s.core.current = true
  running : ∀ t, s.core.live t = true → (s.core.state t = .running ↔ t = s.core.current)

section Sound

variable {s s0 s1 : KernelState} {boot init t : Nat} {old : Thread} {es : List KernelOp}
  {q : KernelSeqs}

theorem listsSound_of_sched (hq : HoldsSeqs s q) (h : SchedInv boot s.core q)
    (hleft : s.core.current ≠ boot) :
    ListsSound s (q.get .readyThreads) (q.get .blockedThreads) (q.get .dyingThreads) := by
  have hapart := apart_of_represents hq.represents
  obtain ⟨hboot, _⟩ | ⟨hlive, hrunning, hoff⟩ := h.running
  · exact absurd hboot hleft
  have hplaced : ∀ t, s.core.live t = true → t ≠ s.core.current → Placed s.core q t := h.inv.placed
  refine ⟨hq.isList trivial, hq.isList trivial, hq.isList trivial, ?_, ?_, ?_, hlive, ?_⟩
  · rw [h.dying, List.append_nil, List.nodup_append']
    exact ⟨hapart.nodup _, hapart.nodup _, hapart.disjoint _ _ (by decide)⟩
  · intro t ht hne hs
    obtain ⟨_, hin, _⟩ | ⟨hb, _⟩ := hplaced t ht hne
    · exact List.count_eq_one_of_mem (hapart.nodup _) hin
    · rw [hs] at hb
      cases hb
  · intro t ht hs
    have hne : t ≠ s.core.current := by
      rintro rfl
      rw [hrunning] at hs
      cases hs
    obtain ⟨hr, _⟩ | ⟨_, _, hin⟩ := hplaced t ht hne
    · rw [hs] at hr
      cases hr
    · exact List.count_eq_one_of_mem (hapart.nodup _) hin
  · intro t ht
    constructor
    · intro hs
      by_contra hne
      obtain ⟨hr, _⟩ | ⟨hb, _⟩ := hplaced t ht hne
      · rw [hs] at hr
        cases hr
      · rw [hs] at hb
        cases hb
    · rintro rfl
      exact hrunning

/-- As long as every call may be made, the lists of the scheduler are sound in every
state after the boot thread has given up the processor. -/
theorem lists_sound (hstart : Starts s0 init t old s)
    (hrun : Run (Guarded KernelStep (Sound s0.core.current)) s es s1)
    (hleft : s1.core.current ≠ s0.core.current) :
    ∃ ready blocked dying, ListsSound s1 ready blocked dying := by
  obtain ⟨q, hq, hsched⟩ := sched_run hrun (sched_of_starts hstart)
  exact ⟨_, _, _, listsSound_of_sched hq hsched hleft⟩

theorem lists_sound_yield : ∃ s s1 : KernelState, Starts zeroedState 0 1 blankThread s ∧
    Guarded KernelStep (Sound 0) s .yield s1 ∧
    ∃ ready blocked dying, ListsSound s1 ready blocked dying := by
  obtain ⟨s, hs⟩ := exists_starts
  obtain ⟨s1, q, hstep, _, _, hent⟩ := entered_idle hs
  refine ⟨s, s1, hs, hstep, lists_sound hs (.single hstep) ?_⟩
  rw [hent.current]
  decide

end Sound

section Broken

variable {c : Core} {q : KernelSeqs} {x init t : Nat} {old : Thread} {s s0 : KernelState}

/-- The last thread of a list is put at its end once more. -/
theorem leads_insertEnd_again {i : ListId} {a : NodeAddr} (hi : (q i).isSome)
    (hlast : (q.get i).getLast? = some a) :
    Leads listAt (list (.insertEnd i a)) (fun _ c' h' => c' = c.noteCall (.insertEnd i a) ∧
      ∀ ys, ¬ IsList h' (listAt i) ys) c q := by
  apply Leads.bind
  apply wp_modifyCore
  intro h hr
  obtain ⟨xs, hxs⟩ := Option.isSome_iff_exists.mp hi
  rw [Seqs.get_of_eq hxs] at hlast
  obtain ⟨h', heq, hbroken⟩ := listInsertEnd_again (hr.lists i xs hxs) hlast
  refine ⟨(), _, h', ?_, rfl, hbroken⟩
  have hexec : exec listAt (.insertEnd i a) h = some ((), h') := by
    rw [exec, heq, Option.map_some]
  rw [call, hexec, Option.map_some]

theorem leads_requeue_again (hstate : c.state x = .running) (hi : (q .readyThreads).isSome)
    (hlast : (q.get .readyThreads).getLast? = some (.node x)) :
    Leads listAt (requeue x) (fun _ c' h' => c'.state x = .ready ∧ c'.current = c.current ∧
      ∀ ys, ¬ IsList h' (listAt .readyThreads) ys) c q := by
  apply Leads.bind
  apply wp_reads
  rw [if_pos hstate]
  apply Leads.bind
  apply wp_modifyCore
  apply Leads.bind
  apply wp_reads
  rw [state_setState, if_neg (by decide)]
  apply Leads.bind
  apply wp_reads
  rw [state_setState, if_pos rfl]
  refine (leads_insertEnd_again hi hlast).mono ?_
  rintro _ c' h' ⟨rfl, hbroken⟩
  have ha := alike_noteCall (c.setState x .ready) (.insertEnd .readyThreads (.node x))
  exact ⟨(ha.state x).trans (state_setState _ _ _), ha.current, hbroken⟩

/-- A thread that is chosen again goes on. -/
theorem dispatch_self {h : Heap NodeAddr} (hstate : c.state x ≠ .dying) :
    dispatch x x ⟨c, h⟩ = some (.returned, ⟨(c.setState x .running).withInterrupts true, h⟩) := by
  have hne : ¬ (x = x ∧ c.state x = .dying) := fun hs => hstate hs.2
  change (if x = x ∧ c.state x = .dying then _ else _ : Kernel Flow) ⟨c, h⟩ = _
  rw [if_neg hne]
  change (if x = x ∨ c.state x ≠ .ready then _ else _ : Kernel Flow) ⟨c, h⟩ = _
  rw [if_pos (Or.inl rfl)]
  rfl

/-- The running thread yields while it is alone on the ready list. -/
theorem leads_schedule_alone (hcur : c.current = x) (hstate : c.state x = .running)
    (hi : (q .readyThreads).isSome) (hready : q.get .readyThreads = [.node x]) :
    Leads listAt schedule (fun _ c' h' => c'.current = x ∧
      ∀ ys, ¬ IsList h' (listAt .readyThreads) ys) c q := by
  apply Leads.bind
  apply wp_modifyCore
  apply Leads.bind
  apply wp_pickNext_one hi hready
  apply Leads.bind
  apply wp_reads
  rw [show (c.withInterrupts false).current = x from hcur]
  apply Leads.andThen
  have hlast : (q.get .readyThreads).getLast? = some (.node x) := by
    rw [hready]
    rfl
  refine (leads_requeue_again (c := c.withInterrupts false) hstate hi hlast).mono ?_
  rintro _ c' h' ⟨hs, hcur', hbroken⟩
  refine ⟨_, _, _, dispatch_self (by rw [hs]; decide), ?_, hbroken⟩
  exact hcur'.trans hcur

/-- The idle thread alone is left on the ready list when it is chosen, and yielding then
puts it there twice. -/
theorem not_lists_sound : ∃ s s' : KernelState, Starts zeroedState 0 1 blankThread s ∧
    Run KernelStep s [.yield, .yield] s' ∧ s'.core.current ≠ zeroedState.core.current ∧
    ¬ ∃ ready blocked dying, ListsSound s' ready blocked dying := by
  obtain ⟨s, hs⟩ := exists_starts
  obtain ⟨s1, q, ⟨_, hstep⟩, hq, hsched, hent⟩ := entered_idle hs
  have hstate : s1.core.state 1 = .running := by
    have hrunning := (hsched.current (hent.current ▸ hent.live)).1
    rwa [hent.current] at hrunning
  have hleads : Leads listAt (execOp .yield) (fun _ c' h' => c'.current = 1 ∧
      ∀ ys, ¬ IsList h' (listAt .readyThreads) ys) s1.core q := by
    apply Leads.andThen
    refine (leads_schedule_alone hent.current hstate (hsched.inv.lists _ trivial)
      hent.ready).mono ?_
    exact fun _ c' h' hc => ⟨(), c', h', rfl, hc⟩
  obtain ⟨_, c', h', heq, hcur, hbroken⟩ := hleads s1.heap hq.represents
  refine ⟨s, ⟨c', h'⟩, hs, .cons hstep (.single (.call _ heq)), ?_, ?_⟩
  · rw [hcur]
    decide
  · rintro ⟨ready, _, _, hsound⟩
    exact hbroken ready hsound.readyList

end Broken

end Longhorn.SchedulerLists
