import Longhorn.SchedulerRuns

/-!
What `thread_kill` leaves behind when it fails.
-/

namespace Longhorn.KillFailures

open Longhorn.Foundations.LinkedNodes
open Longhorn.Foundations.TransitionRuns
open Longhorn.IntrusiveList
open Longhorn.ListRefinement
open Longhorn.ListPrograms
open Longhorn.ThreadModel
open Longhorn.KernelRuns
open Longhorn.SchedulerRules
open Longhorn.SchedulerInvariant
open Longhorn.SchedulerRuns

/-- The links from the head of the list come to an end without passing the node of the
thread. -/
def OffList (s : KernelState) (i : ListId) (t : Nat) : Prop :=
  EndsWithout s.heap (listAt i).head (.node t)

/-- The thread is ready or blocked, but not on the list of such threads. -/
def Misplaced (s : KernelState) (t : Nat) : Prop :=
  (s.core.state t = .ready ∧ OffList s .readyThreads t) ∨
    (s.core.state t = .blocked ∧ OffList s .blockedThreads t)

/-- The thread, its places on lists, the slots and count of its process and all other threads
are as before. -/
structure LeftAlone (t : Nat) (s s' : KernelState) : Prop where
  state : s'.core.state t = s.core.state t
  lists : ∀ i xs, IsList s'.heap (listAt i) xs ↔ IsList s.heap (listAt i) xs
  slots : (s'.core.procs (s.core.procOf t)).threads = (s.core.procs (s.core.procOf t)).threads
  count : (s'.core.procs (s.core.procOf t)).numLiveThreads =
    (s.core.procs (s.core.procOf t)).numLiveThreads
  others : ∀ u, u ≠ t → s'.core.threads u = s.core.threads u

/-- Where `thread_kill` of the thread returns -1, it has changed nothing. -/
def FailsCleanly (s : KernelState) (t : Nat) : Prop :=
  ∀ s', threadKill t s = some (some (-1), s') → LeftAlone t s s'

section Detaching

variable {s s' : KernelState} {i : ListId} {t : Nat} {state : ThreadState}

theorem listDelete_off_iff {h' : Heap NodeAddr} :
    listDelete (listAt i) (some (.node t)) s.heap = some (none, h') ↔
      OffList s i t ∧ h' = s.heap :=
  listDelete_none_iff (by simp [listAt]) (by simp [listAt])

theorem list_delete_off (hoff : OffList s i t) : list (.delete i (.node t)) s =
    some (none, ⟨s.core.noteCall (.delete i (.node t)), s.heap⟩) := by
  change (exec listAt (.delete i (.node t)) s.heap).map _ = _
  rw [exec, listDelete_off_iff.mpr ⟨hoff, rfl⟩, Option.map_some]

theorem off_of_list_delete (h : list (.delete i (.node t)) s = some (none, s')) :
    OffList s i t := by
  obtain ⟨r, hexec, hr⟩ := Option.map_eq_some_iff.mp h
  obtain ⟨_, h'⟩ := r
  cases hr
  exact (listDelete_off_iff.mp hexec).1

theorem detach_off (hstate : s.core.state t = state) (hoff : OffList s i t) :
    detach t state i s = some (false, ⟨(s.core.setState t .dying).noteCall (.delete i (.node t)),
      s.heap⟩) := by
  have hoff' : OffList ⟨s.core.setState t .dying, s.heap⟩ i t := hoff
  refine bind_some_iff.mpr ⟨s.core.state t, s, rfl, ?_⟩
  rw [if_pos hstate]
  exact bind_some_iff.mpr ⟨(), _, rfl, bind_some_iff.mpr ⟨none, _, list_delete_off hoff', rfl⟩⟩

theorem detach_other (hstate : s.core.state t ≠ state) : detach t state i s = some (true, s) := by
  refine bind_some_iff.mpr ⟨s.core.state t, s, rfl, ?_⟩
  rw [if_neg hstate]
  rfl

theorem dying_noteCall (c : Core) (t : Nat) (i : ListId) :
    ((c.setState t .dying).noteCall (ListCall.delete i (NodeAddr.node t))).state t = .dying :=
  ((alike_noteCall _ _).state t).trans (state_setState c t .dying)

/-- A thread that is not where its state says stays there, a thread in another state is left
alone, and one that leaves its list is dying. -/
theorem detach_cases {b : Bool} (h : detach t state i s = some (b, s')) :
    (b = false ∧ s.core.state t = state ∧ OffList s i t) ∨
      (b = true ∧ s.core.state t ≠ state ∧ s' = s) ∨
      (b = true ∧ s'.core.state t = .dying) := by
  by_cases hstate : s.core.state t = state
  · obtain ⟨_, _, hread, h⟩ := bind_some_iff.mp h
    cases hread
    rw [if_pos hstate] at h
    obtain ⟨_, _, hset, h⟩ := bind_some_iff.mp h
    cases hset
    obtain ⟨r, s2, hdel, h⟩ := bind_some_iff.mp h
    cases h
    rcases r with _ | node
    · have hoff : OffList ⟨s.core.setState t .dying, s.heap⟩ i t := off_of_list_delete hdel
      exact Or.inl ⟨rfl, hstate, hoff⟩
    · refine Or.inr (Or.inr ⟨rfl, ?_⟩)
      obtain ⟨_, _, hr⟩ := Option.map_eq_some_iff.mp hdel
      obtain rfl := (Prod.mk.inj hr).2
      exact dying_noteCall s.core t i
  · rw [detach_other hstate] at h
    cases h
    exact Or.inr (Or.inl ⟨rfl, hstate, rfl⟩)

/-- `thread_kill` fails for a thread that is not on its list, and has marked it as dying. -/
theorem killOther_misplaced (h : Misplaced s t) :
    ∃ s', killOther t s = some (-1, s') ∧ s'.core.state t = .dying := by
  rcases h with ⟨hstate, hoff⟩ | ⟨hstate, hoff⟩
  · refine ⟨_, bind_some_iff.mpr ⟨false, _, detach_off hstate hoff, rfl⟩, ?_⟩
    exact dying_noteCall s.core t .readyThreads
  · have hready : detach t .ready .readyThreads s = some (true, s) := by
      apply detach_other
      rw [hstate]
      decide
    refine ⟨_, bind_some_iff.mpr ⟨true, s, hready,
      bind_some_iff.mpr ⟨false, _, detach_off hstate hoff, rfl⟩⟩, ?_⟩
    exact dying_noteCall s.core t .blockedThreads

/-- It fails for no other thread. -/
theorem misplaced_of_killOther (h : killOther t s = some (-1, s')) : Misplaced s t := by
  obtain ⟨b, s1, hready, h⟩ := bind_some_iff.mp h
  rcases detach_cases hready with ⟨_, hstate, hoff⟩ | ⟨rfl, hgo⟩ | ⟨rfl, hdying⟩
  · exact Or.inl ⟨hstate, hoff⟩
  all_goals
    rw [if_neg (by simp)] at h
    obtain ⟨b, s2, hblocked, h⟩ := bind_some_iff.mp h
    have hfails : b = false := by
      by_contra hb
      rw [if_neg hb] at h
      obtain ⟨_, _, _, h⟩ := bind_some_iff.mp h
      obtain ⟨_, _, _, h⟩ := bind_some_iff.mp h
      obtain ⟨_, _, _, h⟩ := bind_some_iff.mp h
      cases h
    obtain ⟨_, hstate, hoff⟩ := (detach_cases hblocked).resolve_right (by simp [hfails])
  · obtain rfl := hgo.2
    exact Or.inr ⟨hstate, hoff⟩
  · rw [hdying] at hstate
    cases hstate

end Detaching

section Exiting

variable {x t : Nat}

/-- The thread `x` is the current one, and `t` runs, if it is another one. -/
def RunsBeside (x t : Nat) (c : Core) : Prop := c.current = x ∧ (t ≠ x → c.state t = .running)

theorem keeps_same {f : Core → Core} (hcur : ∀ c, (f c).current = c.current)
    (hstate : ∀ c u, (f c).state u = c.state u) :
    Keeps (RunsBeside x t) (modifyCore f : Kernel Unit) :=
  keeps_modifyCore fun c ⟨hx, ht⟩ => ⟨(hcur c).trans hx, fun hne => (hstate c t).trans (ht hne)⟩

theorem keeps_list {β : Type} (k : ListCall ListId NodeAddr β) :
    Keeps (RunsBeside x t) (list k) :=
  Keeps.bind (keeps_same (fun c => (alike_noteCall c k).current)
    fun c u => (alike_noteCall c k).state u) fun _ => ensures_call fun _ _ h => h

theorem keeps_note (e : Event) :
    Keeps (RunsBeside x t) (modifyCore fun c => c.note e : Kernel Unit) :=
  keeps_same (fun _ => rfl) fun _ _ => rfl

theorem keeps_interrupts (b : Bool) :
    Keeps (RunsBeside x t) (modifyCore fun c => c.withInterrupts b : Kernel Unit) :=
  keeps_same (fun _ => rfl) fun _ _ => rfl

/-- Another thread than `t` changes its state, or `t` is the current one. -/
theorem keeps_setState {u : Nat} (hu : u = t → t = x) (state : ThreadState) :
    Keeps (RunsBeside x t) (setState u state) := by
  refine keeps_modifyCore fun c ⟨hx, ht⟩ => ⟨hx, fun hne => ?_⟩
  rw [state_setState_of_ne fun htu => hne (hu htu.symm)]
  exact ht hne

/-- The thread that is woken was blocked, so it is not `t`. -/
theorem keeps_threadUnblock (u : Nat) : Keeps (RunsBeside x t) (threadUnblock u) := by
  apply Keeps.bind (keeps_note _)
  intro _
  apply Keeps.bind (keeps_interrupts false)
  intro _
  have hread : Ensures (stateOf u) (RunsBeside x t)
      fun state c => RunsBeside x t c ∧ (state = .blocked → u = t → t = x) := by
    refine ensures_reads fun c hc => ⟨hc, ?_⟩
    rintro hblocked rfl
    by_contra hne
    rw [hc.2 hne] at hblocked
    cases hblocked
  refine Ensures.bind hread fun state => Ensures.of_and fun hu => ?_
  split
  · exact keeps_interrupts true
  · next hblocked =>
      apply Keeps.bind (keeps_list _)
      rintro (_ | node)
      · exact keeps_interrupts true
      apply Keeps.bind (keeps_setState (hu (not_not.mp hblocked)) .ready)
      intro _
      apply Keeps.bind (keeps_list _)
      intro _
      exact keeps_interrupts true

theorem keepsParts_runsBeside : KeepsParts (RunsBeside x t) fun _ => True where
  call k _ := keeps_list k
  withProc _ _ := keeps_same (fun _ => rfl) fun _ _ => rfl
  waitCode u ret := keeps_same (fun c => (alike_setWaitCode c u ret).current)
    fun c => (alike_setWaitCode c u ret).state
  freeProc _ := keeps_same (fun _ => rfl) fun _ _ => rfl
  freeThread _ := keeps_same (fun _ => rfl) fun _ _ => rfl
  unblock := keeps_threadUnblock

theorem keeps_finishSchedule : Keeps (RunsBeside x t) finishSchedule := by
  refine keepsParts_runsBeside.finishes (Q := fun cur => cur = x) ?_ ?_ keeps_interrupts
  · exact ensures_reads fun _ hc => ⟨hc, hc.1⟩
  · rintro _ rfl
    exact keeps_setState Eq.symm _

/-- When `schedule` comes back, the thread that has called it runs, and `t` still does. -/
theorem ensures_dispatch (next : Nat) : Ensures (dispatch x next) (RunsBeside x t)
    fun flow c => flow = .returned → c.state t = .running := by
  have hend : Ensures (do
      if x = next ∨ (← stateOf next) ≠ .ready then
        setState x .running
        enableInterrupts
        pure .returned
      else
        modifyCore fun c => c.switchTo next
        finishSchedule
        pure .switched : Kernel Flow) (RunsBeside x t)
      fun flow c => flow = .returned → c.state t = .running := by
    refine Keeps.andThen (keeps_reads _) fun _ => ?_
    split
    · have hset : Ensures (setState x .running) (RunsBeside x t)
          fun _ c => c.state t = .running := by
        refine ensures_modifyCore fun c hc => ?_
        rcases eq_or_ne t x with rfl | hne
        · exact state_setState c t .running
        · rw [state_setState_of_ne hne]
          exact hc.2 hne
      have hon : Keeps (fun c => c.state t = .running) enableInterrupts :=
        keeps_modifyCore fun _ h => h
      refine Ensures.bind hset fun _ => Keeps.andThen hon fun _ => ?_
      exact ensures_pure fun _ h _ => h
    · refine Ensures.bind (ensures_trivial _) fun _ => Ensures.bind (ensures_trivial _) fun _ => ?_
      exact ensures_pure fun _ _ h => by cases h
  refine Keeps.andThen (keeps_reads _) fun _ => ?_
  split
  · exact Keeps.andThen keeps_finishSchedule fun _ => hend
  · exact hend

/-- `thread_exit` comes back only to a thread that runs. -/
theorem ensures_threadExit : Ensures threadExit (fun c => c.state t = .running)
    fun flow c => flow = .returned → c.state t = .running := by
  have hcur : Ensures threadCur (fun c => c.state t = .running) fun x c => RunsBeside x t c :=
    ensures_reads fun c hc => ⟨rfl, fun _ => hc⟩
  refine Ensures.bind hcur fun x => ?_
  refine Keeps.andThen (keeps_interrupts false) fun _ => ?_
  refine Keeps.andThen (keeps_list _) fun _ => ?_
  refine Keeps.andThen (keeps_setState Eq.symm _) fun _ => ?_
  refine Keeps.andThen (keepsParts_runsBeside.notifies trivial _ _) fun _ => ?_
  refine Keeps.andThen (keeps_interrupts false) fun _ => ?_
  refine Keeps.andThen (keepsParts_runsBeside.picks trivial (keeps_note _)) fun next => ?_
  have hcur' : Ensures threadCur (RunsBeside x t) fun y c => RunsBeside x t c ∧ y = x :=
    ensures_reads fun c hc => ⟨hc, hc.1⟩
  refine Ensures.bind hcur' fun y => Ensures.of_and ?_
  rintro rfl
  refine Keeps.andThen (keeps_requeue_of (keeps_setState Eq.symm _) fun k => keeps_list k) ?_
  exact fun _ => ensures_dispatch next

end Exiting

section Failing

variable {s s' : KernelState} {t : Nat}

/-- `thread_kill` returns -1 for a thread that is not on the list that its state names, and has
then marked it as dying. -/
theorem threadKill_misplaced (h : Misplaced s t) :
    ∃ s', threadKill t s = some (some (-1), s') ∧ s'.core.state t = .dying := by
  have hmis : Misplaced ⟨s.core.withInterrupts false, s.heap⟩ t := h
  obtain ⟨s', heq, hdying⟩ := killOther_misplaced hmis
  have hrun : s.core.state t ≠ .running := by
    rcases h with ⟨hs, _⟩ | ⟨hs, _⟩
    · simp [hs]
    · simp [hs]
  refine ⟨s', bind_some_iff.mpr ⟨(), _, rfl, bind_some_iff.mpr ⟨_, _, rfl, ?_⟩⟩, hdying⟩
  rw [if_neg (show (s.core.withInterrupts false).state t ≠ .running from hrun)]
  exact map_some_iff.mpr ⟨-1, s', heq, rfl⟩

/-- It returns -1 for no other thread. -/
theorem misplaced_of_threadKill (h : threadKill t s = some (some (-1), s')) : Misplaced s t := by
  obtain ⟨_, _, hoff, h⟩ := bind_some_iff.mp h
  cases hoff
  obtain ⟨_, _, hread, h⟩ := bind_some_iff.mp h
  cases hread
  have hother : ∀ s1 : KernelState, (some <$> killOther t) s1 = some (some (-1), s') →
      Misplaced s1 t := by
    intro s1 hmap
    obtain ⟨code, s2, hkill, hcode⟩ := map_some_iff.mp hmap
    cases hcode
    exact misplaced_of_killOther hkill
  split at h
  · next hrun =>
      obtain ⟨flow, s1, hexit, h⟩ := bind_some_iff.mp h
      cases flow with
      | switched => cases h
      | returned =>
          have hstate := ensures_threadExit (t := t) _ _ _ hrun hexit rfl
          rcases hother s1 h with ⟨hs, _⟩ | ⟨hs, _⟩
          · rw [hstate] at hs
            cases hs
          · rw [hstate] at hs
            cases hs
  · have hmis : Misplaced ⟨s.core.withInterrupts false, s.heap⟩ t := hother _ h
    exact hmis

/-- Exactly the failures for threads that are not where their state says change anything. -/
theorem failsCleanly_iff : FailsCleanly s t ↔ ¬ Misplaced s t := by
  constructor
  · intro hclean hmis
    obtain ⟨s', heq, hdying⟩ := threadKill_misplaced hmis
    have hstate := (hclean s' heq).state
    rw [hdying] at hstate
    rcases hmis with ⟨hs, _⟩ | ⟨hs, _⟩
    · rw [hs] at hstate
      cases hstate
    · rw [hs] at hstate
      cases hstate
  · exact fun hno s' heq => absurd (misplaced_of_threadKill heq) hno

theorem offList_iff {q : KernelSeqs} (hq : HoldsSeqs s q) {j : ListId}
    (hj : Core.Accessible s.core j) : OffList s j t ↔ .node t ∉ q.get j :=
  endsWithout_iff_not_mem (hq.isList hj) (by simp [listAt]) (by simp [listAt])

theorem not_misplaced_of_sched {boot : Nat} {q : KernelSeqs} (hq : HoldsSeqs s q)
    (h : SchedInv boot s.core q) (hlive : s.core.live t = true) : ¬ Misplaced s t := by
  rw [Misplaced, offList_iff hq (j := .readyThreads) trivial,
    offList_iff hq (j := .blockedThreads) trivial]
  rcases eq_or_ne t s.core.current with rfl | hne
  · simp [(h.current hlive).1]
  · obtain ⟨hs, hin, _⟩ | ⟨hs, _, hin⟩ := h.inv.placed t hlive hne
    · simp [hs, hin]
    · simp [hs, hin]

/-- A failing `thread_kill` leaves a thread alone if and only if the thread is not misplaced, in
every state; and no thread that exists in a run whose calls may be made is. -/
theorem failed_kills_leave_alone (s1 : KernelState) (t : Nat) :
    (FailsCleanly s1 t ↔ ¬ Misplaced s1 t) ∧
    ∀ {s0 s init i old es}, Starts s0 init i old s →
      Run (Guarded KernelStep (Sound s0.core.current)) s es s1 →
      s1.core.live t = true → FailsCleanly s1 t := by
  refine ⟨failsCleanly_iff, ?_⟩
  intro s0 s init i old es hstart hrun hlive
  obtain ⟨q, hq, hsched⟩ := sched_run hrun (sched_of_starts hstart)
  exact failsCleanly_iff.mpr (not_misplaced_of_sched hq hsched hlive)

/-- A created thread that runs in place of the boot thread. -/
theorem failed_kills_leave_alone_created : ∃ s s1 : KernelState,
    Starts zeroedState 0 1 blankThread s ∧ Run (Guarded KernelStep (Sound 0)) s
      [.create (some (2, blankThread)) 0 1, .yield] s1 ∧ FailsCleanly s1 2 := by
  obtain ⟨s, hs⟩ := exists_starts
  have hnew : blankThread.tid ≠ maxTid + 1 := by decide
  obtain ⟨a, s1, q, hcreate, hyield, hq, hsched, hent⟩ :=
    entered_created (x := 2) 1 hs (by decide) (by decide) hnew
  have hrun := Run.cons hcreate (.single hyield)
  exact ⟨s, s1, hs, hrun, (failed_kills_leave_alone s1 2).2 hs hrun hent.live⟩

/-- The boot thread is marked as blocked, but has never been put on a list. -/
theorem not_failed_kill_leaves_alone : ∃ s s' : KernelState, Starts zeroedState 0 1 blankThread s ∧
    s.core.current = 0 ∧ s.core.state 0 = .blocked ∧
    threadKill 0 s = some (some (-1), s') ∧ s'.core.state 0 = .dying ∧ ¬ FailsCleanly s 0 := by
  obtain ⟨s, hs⟩ := exists_starts
  obtain ⟨q, hq, hstarted, hcur, _⟩ := started_of_starts hs
  have hboot := hstarted.boot
  rw [hcur] at hboot
  have hmis : Misplaced s 0 := by
    refine Or.inr ⟨hboot, (offList_iff hq (j := .blockedThreads) trivial).mpr ?_⟩
    rw [hstarted.empty _ (by decide) (by decide)]
    exact List.not_mem_nil
  obtain ⟨s', heq, hdying⟩ := threadKill_misplaced hmis
  exact ⟨s, s', hs, hcur, hboot, heq, hdying, fun hclean => failsCleanly_iff.mp hclean hmis⟩

end Failing

end Longhorn.KillFailures
