import Longhorn.Foundations.CyclicTurns
import Longhorn.SchedulerInvariant

/-!
Timer ticks while the threads only run: the ready threads take turns.
-/

namespace Longhorn.RoundRobin

open Longhorn.Foundations.CyclicTurns
open Longhorn.Foundations.LinkedNodes
open Longhorn.IntrusiveList
open Longhorn.ListRefinement
open Longhorn.ListPrograms
open Longhorn.ThreadModel
open Longhorn.SchedulerRules
open Longhorn.SchedulerInvariant

/-- Thread `t` runs, and `ts` are the ready threads in the order of their list. -/
structure Rotating (t : Nat) (ts : List Nat) (c : Core) (q : KernelSeqs) : Prop where
  current : c.current = t
  running : c.state t = .running
  off : ∀ i, .node t ∉ q.get i
  lists : (q .readyThreads).isSome ∧ (q .dyingThreads).isSome
  order : q.get .readyThreads = ts.map .node
  ready : ∀ u, u ∈ ts → c.state u = .ready
  several : 2 ≤ ts.length
  dying : q.get .dyingThreads = []

/-- The timer interrupts of `k` ticks; for each the thread that `schedule` made current,
if it was entered. -/
def runTicks : Nat → Kernel (List (Option Nat))
  | 0 => pure []
  | k + 1 => do
      let flow ← timerInterruptHandler
      let cur ← threadCur
      let rest ← runTicks k
      pure ((if flow = .switched then some cur else none) :: rest)

section Rotation

variable {t u : Nat} {ts : List Nat} {c c' : Core} {q : KernelSeqs}

theorem threadTicks_noteCall (c : Core) {β : Type} (k : ListCall ListId NodeAddr β) :
    (c.noteCall k).threadTicks = c.threadTicks := by
  rw [Core.noteCall]
  split <;> rfl

/-- `schedule` makes the first ready thread current and puts the running one at the
end. -/
theorem wp_schedule_rotating (h : Rotating t (u :: ts) c q) :
    Wp listAt schedule (fun flow c' q' => flow = .switched ∧ c'.threadTicks = c.threadTicks ∧
      Rotating u (ts ++ [t]) c' q') c q := by
  apply wp_of_apart
  intro hq
  obtain ⟨hlr, hld⟩ := h.lists
  have hne : t ≠ u := by
    rintro rfl
    apply h.off .readyThreads
    rw [h.order]
    exact List.mem_map_of_mem List.mem_cons_self
  obtain ⟨v, rest, rfl⟩ : ∃ v rest, ts = v :: rest :=
    List.exists_cons_of_length_pos (Nat.lt_of_succ_le (Nat.le_of_succ_le_succ h.several))
  have hready := h.order
  rw [List.map_cons, List.map_cons] at hready
  have hnodup := hq.nodup .readyThreads
  rw [hready, List.nodup_cons] at hnodup
  obtain ⟨q1, hq1⟩ : ∃ q1, q1 = q.set .readyThreads (.node v :: rest.map .node) := ⟨_, rfl⟩
  have hoff1 : ∀ i, .node t ∉ q1.get i := by
    intro i hi
    rcases eq_or_ne i .readyThreads with rfl | hi'
    · rw [hq1, Seqs.get_set_same] at hi
      apply h.off .readyThreads
      rw [hready]
      exact List.mem_cons_of_mem _ hi
    · rw [hq1, Seqs.get_set_of_ne hi'] at hi
      exact h.off i hi
  apply Wp.bind
  apply wp_modifyCore
  apply Wp.bind
  apply wp_pickNext_several hlr hready
  rw [← hq1]
  apply Wp.bind
  apply wp_reads
  obtain ⟨c1, hc1⟩ : ∃ c1, c1 = (c.withInterrupts false).noteCall (.pop .readyThreads) := ⟨_, rfl⟩
  have ha1 : Alike c c1 := hc1 ▸ (alike_withInterrupts c false).trans (alike_noteCall _ _)
  have hticks1 : c1.threadTicks = c.threadTicks := hc1 ▸ threadTicks_noteCall _ _
  rw [← hc1, ha1.current, h.current]
  apply Wp.bind
  apply wp_requeue_running ((ha1.state t).trans h.running) (by rw [hq1]; simp [Seqs.set]) hoff1
  obtain ⟨c2, hc2⟩ : ∃ c2, c2 = (c1.setState t .ready).noteCall
    (.insertEnd .readyThreads (.node t)) := ⟨_, rfl⟩
  have ha2 : Alike (c.setState t .ready) c2 :=
    hc2 ▸ (ha1.setState t .ready).trans (alike_noteCall _ _)
  have hticks2 : c2.threadTicks = c.threadTicks :=
    hc2 ▸ (threadTicks_noteCall _ _).trans hticks1
  have hstate2 : ∀ w, w ∈ t :: u :: v :: rest → c2.state w = .ready := by
    intro w hw
    rw [ha2.state]
    rcases eq_or_ne w t with rfl | hwt
    · exact state_setState c w .ready
    · rw [state_setState_of_ne hwt]
      exact h.ready w (List.mem_of_ne_of_mem hwt hw)
  have hq2 : q1.set .readyThreads (q1.get .readyThreads ++ [.node t]) =
      q.set .readyThreads ((v :: rest ++ [t]).map .node) := by
    rw [hq1, Seqs.get_set_same, Seqs.set_set]
    simp
  rw [← hc2, hq2]
  apply wp_dispatch_switch hne (hstate2 u (by simp))
  apply wp_finishSchedule_idle
  · exact Seqs.isSome_set hld
  · rw [Seqs.get_set_of_ne (by decide)]
    exact h.dying
  intro c' hr
  have hstate : ∀ w, c'.state w = ((c2.switchTo u).setState u .running).state w := hr.state
  refine ⟨rfl, hr.threadTicks.trans hticks2, ?_⟩
  constructor
  · exact hr.current
  · rw [hstate]
    exact state_setState _ u .running
  · intro i hi
    have hmem : NodeAddr.node u ∈ q.get .readyThreads := by
      rw [hready]
      exact List.mem_cons_self
    rcases eq_or_ne i .readyThreads with rfl | hi'
    · rw [Seqs.get_set_same, List.map_append, List.mem_append] at hi
      rcases hi with hi | hi
      · exact hnodup.1 hi
      · simp [hne.symm] at hi
    · rw [Seqs.get_set_of_ne hi'] at hi
      exact hq.disjoint _ _ hi' hi hmem
  · refine ⟨by simp [Seqs.set], ?_⟩
    rw [Seqs.set_of_ne (by decide)]
    exact hld
  · exact Seqs.get_set_same _ _ _
  · intro w hw
    have hwu : w ≠ u := by
      rintro rfl
      rcases List.mem_append.mp hw with hw | hw
      · exact hnodup.1 (List.mem_map_of_mem hw)
      · exact hne (List.mem_singleton.mp hw).symm
    rw [hstate]
    refine (state_setState_of_ne hwu _).trans (hstate2 w ?_)
    rw [List.mem_append, List.mem_singleton] at hw
    rw [List.mem_cons, List.mem_cons (a := w) (b := u)]
    tauto
  · simp
  · rw [Seqs.get_set_of_ne (by decide)]
    exact h.dying

theorem Rotating.alike (h : Rotating t ts c q) (ha : Alike c c') : Rotating t ts c' q := by
  constructor
  · exact ha.current.trans h.current
  · exact (ha.state t).trans h.running
  · exact h.off
  · exact h.lists
  · exact h.order
  · exact fun w hw => (ha.state w).trans (h.ready w hw)
  · exact h.several
  · exact h.dying

/-- What one tick does, by the 8-bit count of ticks. -/
theorem wp_tick (h : Rotating t (u :: ts) c q) :
    Wp listAt timerInterruptHandler (fun flow c' q' =>
      c'.threadTicks = (c.threadTicks + 1) % 256 ∧
        if (c.threadTicks + 1) % 256 % maxThreadTicks = 0 then
          flow = .switched ∧ Rotating u (ts ++ [t]) c' q'
        else flow = .returned ∧ Rotating t (u :: ts) c' q') c q := by
  have h1 := h.alike (alike_ticked c (((c.threads c.current).ticks + 1) % 2 ^ 32)
    ((c.threadTicks + 1) % 256))
  apply Wp.bind
  apply wp_modifyCore
  apply Wp.bind
  apply wp_reads
  split
  case isTrue =>
    refine (wp_schedule_rotating h1).mono ?_
    rintro flow c' q' ⟨hflow, hticks, hrot⟩
    exact ⟨hticks, hflow, hrot⟩
  case isFalse =>
    exact wp_pure ⟨rfl, rfl, h1⟩

end Rotation

/-- The threads that the calls of `schedule` made current. -/
def scheduled (turns : List (Option Nat)) : List Nat := turns.reduceOption

/-- After `k` ticks: `schedule` was entered on the ticks that the counter names, and the
threads, the running one first, have been rotated once for each entry. -/
structure TakenTurns (l : List Nat) (start k : Nat) (turns : List (Option Nat)) (c : Core)
    (q : KernelSeqs) : Prop where
  length : turns.length = k
  entered : ∀ i, i < k → ((∃ t, turns[i]? = some (some t)) ↔
    (start + (i + 1)) % 256 % maxThreadTicks = 0)
  order : TakesTurns l (scheduled turns)
  rotated : ∃ t ts, Rotating t ts c q ∧ t :: ts = l.rotate (scheduled turns).length

section Run

variable {t u : Nat} {ts : List Nat} {c c' : Core} {q q' : KernelSeqs} {k start : Nat}
  {turns : List (Option Nat)} {l : List Nat}

/-- One more tick in front. -/
theorem TakenTurns.entered_cons {turn : Option Nat}
    (h : TakenTurns l ((start + 1) % 256) k turns c q)
    (hturn : (∃ t, turn = some t) ↔ (start + 1) % 256 % maxThreadTicks = 0) (i : Nat)
    (hi : i < k + 1) :
    (∃ t, (turn :: turns)[i]? = some (some t)) ↔ (start + (i + 1)) % 256 % maxThreadTicks = 0 := by
  cases i with
  | zero => simpa using hturn
  | succ i =>
      rw [List.getElem?_cons_succ, h.entered i (by omega), Nat.mod_add_mod]
      congr! 3
      omega

theorem TakenTurns.kept (h : TakenTurns l ((start + 1) % 256) k turns c q)
    (hstart : (start + 1) % 256 % maxThreadTicks ≠ 0) :
    TakenTurns l start (k + 1) (none :: turns) c q := by
  constructor
  · rw [List.length_cons, h.length]
  · exact h.entered_cons (by simpa using hstart)
  · exact h.order
  · exact h.rotated

theorem TakenTurns.turn (h : TakenTurns (u :: ts ++ [t]) ((start + 1) % 256) k turns c q)
    (hstart : (start + 1) % 256 % maxThreadTicks = 0) :
    TakenTurns (t :: u :: ts) start (k + 1) (some u :: turns) c q := by
  have hrot : (t :: u :: ts).rotate 1 = u :: ts ++ [t] := by simp
  constructor
  · rw [List.length_cons, h.length]
  · exact h.entered_cons (by simpa using hstart)
  · exact TakesTurns.cons (List.cons_ne_nil _ _) (by rw [hrot]; rfl) (hrot ▸ h.order)
  · obtain ⟨w, ws, hw, heq⟩ := h.rotated
    refine ⟨w, ws, hw, ?_⟩
    rw [heq, ← hrot, List.rotate_rotate, Nat.add_comm]
    rfl

theorem wp_runTicks (h : Rotating t ts c q) (k : Nat) :
    Wp listAt (runTicks k)
      (fun turns c' q' => TakenTurns (t :: ts) c.threadTicks k turns c' q') c q := by
  induction k generalizing t ts c q with
  | zero =>
      apply wp_pure
      refine ⟨rfl, fun i hi => absurd hi (Nat.not_lt_zero i), takesTurns_nil _, t, ts, h, ?_⟩
      exact (List.rotate_zero _).symm
  | succ k ih =>
      obtain ⟨u, us, rfl⟩ : ∃ u us, ts = u :: us :=
        List.exists_cons_of_length_pos (Nat.lt_of_succ_lt h.several)
      apply Wp.bind
      refine (wp_tick h).mono ?_
      rintro flow c1 q1 ⟨hticks, hflow⟩
      apply Wp.bind
      apply wp_reads
      split at hflow
      case isTrue hzero =>
        obtain ⟨rfl, hrot⟩ := hflow
        apply Wp.bind
        refine (ih hrot).mono ?_
        intro turns c2 q2 hturns
        apply wp_pure
        rw [if_pos rfl, hrot.current]
        rw [hticks] at hturns
        exact hturns.turn hzero
      case isFalse hne =>
        obtain ⟨rfl, hrot⟩ := hflow
        apply Wp.bind
        refine (ih hrot).mono ?_
        intro turns c2 q2 hturns
        apply wp_pure
        rw [if_neg (by decide)]
        rw [hticks] at hturns
        exact hturns.kept hne

end Run

theorem Rotating.nodup {t : Nat} {ts : List Nat} {c : Core} {q : KernelSeqs}
    (h : Rotating t ts c q) (hq : Apart q) : (t :: ts).Nodup := by
  have hnodup := hq.nodup .readyThreads
  rw [h.order] at hnodup
  refine List.nodup_cons.mpr ⟨fun ht => ?_, hnodup.of_map⟩
  apply h.off .readyThreads
  rw [h.order]
  exact List.mem_map_of_mem ht

/-- While there are only timer ticks, `schedule` is entered on every eighth of them, each
entry takes the head of the ready list and puts the thread that ran at its tail, and as
many entries in a row as there are threads run each of them once. -/
theorem round_robin {t : Nat} {ts : List Nat} {c : Core} {h : Heap NodeAddr} {q : KernelSeqs}
    (hr : Represents listAt h q) (hrot : Rotating t ts c q) (k : Nat) :
    ∃ turns c' h' q', runTicks k ⟨c, h⟩ = some (turns, ⟨c', h'⟩) ∧ Represents listAt h' q' ∧
      TakenTurns (t :: ts) c.threadTicks k turns c' q' ∧
      ∀ pre win post, scheduled turns = pre ++ win ++ post → win.length = ts.length + 1 →
        win.Nodup ∧ ∀ u, u ∈ win ↔ u ∈ t :: ts := by
  obtain ⟨turns, c', h', q', heq, hr', hturns⟩ := wp_runTicks hrot k h hr
  refine ⟨turns, c', h', q', heq, hr', hturns, ?_⟩
  intro pre win post hsplit hwin
  have hperm := hturns.order.window_perm hsplit hwin
  exact ⟨hperm.nodup_iff.mpr (hrot.nodup (apart_of_represents hr)), fun u => hperm.mem_iff⟩

/-- Thread 0 runs, 1 and 2 are ready, and the counter of ticks is about to wrap. -/
def threeThreads : Core where
  threads t := ⟨t, 0, 0, if t = 0 then .running else .ready, 0, 0, 0⟩
  procs _ := ⟨0, none, fun _ => none, 3, 0⟩
  current := 0
  idleT := none
  tids _ := true
  threadTicks := 250
  pidCount := 1
  interrupts := true
  live t := t < 3
  liveProcs _ := true
  log := []

def threeCalls : List (AnyCall ListId NodeAddr) :=
  [⟨_, .init .readyThreads⟩, ⟨_, .init .dyingThreads⟩, ⟨_, .insert .readyThreads (.node 2)⟩,
    ⟨_, .insert .readyThreads (.node 1)⟩]

theorem round_robin_three : ∃ h turns c' h',
    runTicks 32 ⟨threeThreads, h⟩ = some (turns, ⟨c', h'⟩) ∧
      TakesTurns [0, 1, 2] (scheduled turns) := by
  have hallowed : AllAllowed listAt threeCalls fun _ => none := by
    simp only [threeCalls, AllAllowed, Allowed, Detached, IsSentinel, listAt, absExec, Seqs.set,
      Seqs.get, Function.update_apply]
    refine ⟨trivial, trivial, ⟨rfl, by simp, fun i => ?_⟩, ⟨rfl, by simp, fun i => ?_⟩, trivial⟩
    · split_ifs <;> simp
    · split_ifs <;> simp
  obtain ⟨h, _, hr⟩ :=
    (represents_empty listAt fun _ => ⟨none, none⟩).execAll sentinels_listAt hallowed
  have hrot : Rotating 0 [1, 2] threeThreads (absExecAll threeCalls fun _ => none).2 := by
    refine ⟨rfl, rfl, fun i => ?_, ⟨rfl, rfl⟩, rfl, by decide, by decide, rfl⟩
    simp only [threeCalls, absExecAll, absExec, Seqs.get, Seqs.set, Function.update_apply]
    split_ifs <;> simp
  obtain ⟨turns, c', h', _, heq, _, hturns, _⟩ := round_robin hr hrot 32
  exact ⟨h, turns, c', h', heq, hturns.order⟩

end Longhorn.RoundRobin
