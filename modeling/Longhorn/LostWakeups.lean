import Longhorn.WaitScenes

/-!
No wake-up is lost as long as a notification takes off its list only threads that have
blocked.
-/

namespace Longhorn.LostWakeups

open Longhorn.Foundations.TransitionRuns
open Longhorn.IntrusiveList
open Longhorn.ListRefinement
open Longhorn.ListPrograms
open Longhorn.ThreadModel
open Longhorn.KernelRuns
open Longhorn.SchedulerRules
open Longhorn.SchedulerInvariant
open Longhorn.SchedulerRuns
open Longhorn.WaitModel
open Longhorn.WaitRules
open Longhorn.WaitInvariant
open Longhorn.WaitScenes

/-- Nobody waits, and a thread runs. -/
structure Waitless (c : Core) (q : KernelSeqs) : Prop where
  fits : ∀ i, ∀ a ∈ q.get i, Core.Fits c i a
  off : ∀ i t, .waitNode t ∉ q.get i
  home : ∀ t, c.live t = true → c.liveProcs (c.procOf t) = true
  codes : ∀ p, c.liveProcs p = true → (c.procs p).waitCode = 0
  idle : ∃ t, c.idleT = some t ∧ c.live t = true
  live : c.live c.current = true
  running : c.state c.current = .running

def Quiescent (m : KernelState) : Prop := ∃ q, HoldsSeqs m q ∧ Waitless m.core q

/-- All threads are outside of kernel code. -/
def waitStart (m : KernelState) : WaitState where
  mem := m
  stack := fun _ => []
  pc := fun _ => .outside
  due := fun _ => none

section Runs

variable {m : KernelState} {s : WaitState} {es : List WaitAct}

theorem waitInv_start {q : KernelSeqs} (hq : HoldsSeqs m q) (h : Waitless m.core q) :
    WaitInv m.core (waitStart m) q := by
  have hrunning : (waitStart m).state (waitStart m).cur = .running := h.running
  refine ⟨hq.represents, fun i hi => (hq.domain i).mpr hi, h.fits, fun _ => id, fun _ => id, h.home,
    h.codes, ?_, h.live, fun u f hf => absurd hf List.not_mem_nil, fun u => List.nodup_nil,
    fun u v _ => List.disjoint_nil_left _, ⟨fun _ => 0, fun u f hf => absurd hf List.not_mem_nil⟩,
    fun u _ _ f hf => absurd hf List.not_mem_nil, fun hs => ?_, fun hs => ?_, fun w => ?_⟩
  · obtain ⟨t, ht, hlive⟩ := h.idle
    exact ⟨t, ht, hlive, rfl⟩
  · rw [hrunning] at hs
    cases hs
  · rw [hrunning] at hs
    cases hs
  · exact .outside (fun j => h.off j w) fun u => List.not_mem_nil

/-- A state of the scheduler in which nobody waits. -/
theorem quiescent_of_sched {boot : Nat} {q : KernelSeqs} (hq : HoldsSeqs m q)
    (h : SchedInv boot m.core q) (hcur : m.core.current ≠ boot)
    (hoff : ∀ i t, .waitNode t ∉ q.get i)
    (hcodes : ∀ p, m.core.liveProcs p = true → (m.core.procs p).waitCode = 0) : Quiescent m := by
  obtain ⟨hboot, _⟩ | ⟨hlive, hrunning, _⟩ := h.running
  · exact absurd hboot hcur
  · exact ⟨q, hq, h.inv.fits, hoff, h.inv.procs, hcodes, h.inv.idle, hlive, hrunning⟩

end Runs

section Example

/-- Thread 2 runs, threads 1 and 3 are ready, and thread 1 is the idle thread.  They belong to
one process. -/
def threeThreads : Core :=
  { zeroedState.core with
    threads := fun t => ⟨t, 0, 0, if t = 2 then .running else .ready, 0, 0, 0⟩
    procs := fun _ => ⟨0, none, fun _ => none, 3, 0⟩
    current := 2
    idleT := some 1
    interrupts := true
    live := fun t => decide (t = 1 ∨ t = 2 ∨ t = 3)
    liveProcs := fun p => decide (p = 0) }

def threeLists : KernelSeqs
  | .readyThreads => some [.node 3, .node 1]
  | .blockedThreads => some []
  | .dyingThreads => some []
  | .allProcs => some []
  | .threadWaiters t => if t = 1 ∨ t = 2 ∨ t = 3 then some [] else none
  | .procWaiters p => if p = 0 then some [] else none

def initLists : Kernel Unit := do
  list (.init .readyThreads)
  list (.init .blockedThreads)
  list (.init .dyingThreads)
  list (.init .allProcs)
  list (.init (.threadWaiters 1))
  list (.init (.threadWaiters 2))
  list (.init (.threadWaiters 3))
  list (.init (.procWaiters 0))
  list (.insert .readyThreads (.node 1))
  list (.insert .readyThreads (.node 3))
  modifyCore fun _ => threeThreads

/-- The insertions into lists that are empty. -/
theorem wp_insert_three {c : Core} {q : KernelSeqs}
    (hq : ∀ i, q i = (threeLists i).map fun _ => []) :
    Wp listAt (do
      list (.insert .readyThreads (.node 1))
      list (.insert .readyThreads (.node 3))
      modifyCore fun _ => threeThreads) (fun _ c q => c = threeThreads ∧ q = threeLists) c q := by
  have hready : q .readyThreads = some [] := hq .readyThreads
  have hnone : ∀ i, q.get i = [] := by
    intro i
    rw [Seqs.get, hq i]
    cases threeLists i <;> rfl
  apply Wp.bind
  apply wp_insert (by rw [hready]; rfl) ⟨not_isSentinel_node 1, fun i => by
    rw [hnone i]
    exact List.not_mem_nil⟩
  apply Wp.bind
  apply wp_insert (by simp [Seqs.set])
  · refine ⟨not_isSentinel_node 3, fun i => ?_⟩
    rcases eq_or_ne i .readyThreads with rfl | hi
    · rw [Seqs.get_set_same, hnone]
      decide
    · rw [Seqs.get_set_of_ne hi, hnone]
      exact List.not_mem_nil
  · apply wp_modifyCore
    refine ⟨rfl, ?_⟩
    rw [Seqs.get_set_same, Seqs.set_set, hnone]
    funext i
    rcases eq_or_ne i .readyThreads with rfl | hi
    · exact Function.update_self _ _ _
    · rw [Seqs.set_of_ne hi, hq i]
      cases i <;> simp [threeLists] at hi ⊢

theorem exists_three : ∃ m, m.core = threeThreads ∧ HoldsSeqs m threeLists := by
  have hwp : Wp listAt initLists (fun _ c q => c = threeThreads ∧ q = threeLists) zeroedState.core
      fun _ => none := by
    iterate 8
      apply Wp.bind
      apply wp_init
    apply wp_insert_three
    intro i
    cases i <;> simp only [Seqs.set, Function.update_apply, threeLists] <;> grind
  obtain ⟨_, c, h, q, _, hr, rfl, rfl⟩ := hwp zeroedState.heap (represents_empty listAt _)
  refine ⟨⟨threeThreads, h⟩, rfl, hr, fun i => ?_⟩
  cases i <;> simp [threeLists, Core.Accessible, threeThreads]

theorem waitless_three : Waitless threeThreads threeLists := by
  refine ⟨fun i a ha => ?_, fun i t ht => ?_, fun t ht => ?_, fun p hp => rfl, ⟨1, rfl, rfl⟩, rfl,
    rfl⟩
  · revert ha
    cases i <;> simp [Seqs.get, threeLists, Core.Fits, threeThreads] <;> grind
  · revert ht
    cases i <;> simp [Seqs.get, threeLists] <;> grind
  · rfl

/-- Only the ready list has members. -/
theorem get_three {i : ListId} (hi : i ≠ .readyThreads) : Seqs.get threeLists i = [] := by
  cases i with
  | readyThreads => exact absurd rfl hi
  | threadWaiters t =>
      rw [Seqs.get, threeLists]
      split <;> rfl
  | procWaiters p =>
      rw [Seqs.get, threeLists]
      split <;> rfl
  | _ => rfl

theorem notMem_set {q : KernelSeqs} {i j : ListId} {a : NodeAddr} {xs : List NodeAddr}
    (hj : j ≠ i → a ∉ q.get j) (hxs : j = i → a ∉ xs) : a ∉ (q.set i xs).get j := by
  rcases eq_or_ne j i with rfl | hne
  · rw [Seqs.get_set_same]
    exact hxs rfl
  · rw [Seqs.get_set_of_ne hne]
    exact hj hne

/-- Thread 2 is on the ready list, as after a `schedule` that found no other thread there. -/
def runningLists : KernelSeqs :=
  Seqs.set threeLists .readyThreads [.node 2, .node 3, .node 1]

theorem waitless_running : Waitless threeThreads runningLists := by
  refine { waitless_three with fits := fun i a ha => ?_, off := fun i t => ?_ }
  · rcases eq_or_ne i .readyThreads with rfl | hi
    · rw [runningLists, Seqs.get_set_same] at ha
      simp only [List.mem_cons, List.not_mem_nil, or_false] at ha
      rcases ha with rfl | rfl | rfl <;> exact ⟨_, rfl, rfl⟩
    · rw [runningLists, Seqs.get_set_of_ne hi] at ha
      exact waitless_three.fits i a ha
  · exact notMem_set (fun _ => waitless_three.off i t) fun _ => by simp

theorem exists_running : ∃ h, HoldsSeqs ⟨threeThreads, h⟩ runningLists := by
  obtain ⟨⟨c, heap⟩, rfl, hq⟩ := exists_three
  have hoff : ∀ i, .node 2 ∉ Seqs.get threeLists i := by
    intro i
    rcases eq_or_ne i .readyThreads with rfl | hi
    · decide
    · rw [get_three hi]
      exact List.not_mem_nil
  have hwp : Wp listAt (list (.insert .readyThreads (.node 2))) (fun _ _ q => q = runningLists)
      threeThreads threeLists := wp_insert rfl ⟨not_isSentinel_node 2, hoff⟩ rfl
  obtain ⟨_, _, h, _, _, hr, rfl⟩ := hwp heap hq.represents
  refine ⟨h, hr, fun i => ?_⟩
  rw [← hq.domain i]
  cases i <;> rfl

/-- Thread 2 has registered with thread 3 and is asleep; thread 3 has got the processor. -/
def asleepCore : Core :=
  (((((((threeThreads.noteCall (.insert (.threadWaiters 3) (.waitNode 2))).withInterrupts
    false).noteCall (.delete .readyThreads (.node 2))).setState 2 .blocked).noteCall
      (.insert .blockedThreads (.node 2))).withInterrupts false).noteCall
        (.pop .readyThreads)).switchTo 3

def asleepLists : KernelSeqs :=
  (((Seqs.set runningLists (.threadWaiters 3) [.waitNode 2]).set .readyThreads
    [.node 3, .node 1]).set .blockedThreads [.node 2]).set .readyThreads [.node 1]

/-- Thread 3 is dying and has woken thread 2. -/
def wokenCore : Core :=
  let c1 := (((((resumed asleepCore).withInterrupts true).withInterrupts false).noteCall
    (.delete .readyThreads (.node 3))).setState 3 .dying).noteCall (.pop (.threadWaiters 3))
  let c2 := ((((c1.setWaitCode 2 threadKillSucc).note (.unblock 2)).withInterrupts false).noteCall
    (.delete .blockedThreads (.node 2))).setState 2 .ready
  ((c2.noteCall (.insert .readyThreads (.node 2))).withInterrupts true).noteCall
    (.pop (.threadWaiters 3))

def wokenLists : KernelSeqs :=
  (((asleepLists.set (.threadWaiters 3) []).set .blockedThreads []).set .readyThreads
    [.node 2, .node 1]).set (.threadWaiters 3) []

/-- Node 3 is off its lists once thread 2 has been picked. -/
theorem notMem_woken (i : ListId) :
    .node 3 ∉ Seqs.get (wokenLists.set .readyThreads [.node 1]) i := by
  refine notMem_set (fun hi => ?_) fun _ => by decide
  iterate 3
    refine notMem_set (fun _ => notMem_set (fun _ => ?_) fun _ => by decide) fun _ => by decide
  refine notMem_set (fun _ => notMem_set (fun _ => ?_) fun _ => by decide) fun h => absurd h hi
  rw [runningLists, Seqs.get_set_of_ne hi, get_three hi]
  exact List.not_mem_nil

theorem reaches_asleep : Scene.Reaches WaitSound
    ⟨threeThreads, runningLists, fun _ => [], fun _ => .outside, fun _ => none⟩
    (.call (.threadWait 3) :: List.replicate 5 .code) fun y =>
      y.core = asleepCore ∧ y.lists = asleepLists ∧ y.stack 3 = [.finish] ∧ y.stack 2 = [] ∧
        y.pc 3 = .outside ∧ y.pc 2 = .ret (.threadWaiters 3) ∧ y.due 2 = none := by
  have hidle : threeThreads.idleT ≠ some 2 := by decide
  refine Scene.reaches_call rfl rfl (fun _ => hidle) ?_
  apply wp_pure
  refine Scene.reaches_pc rfl rfl (fun _ _ => rfl) ?_
  apply Wp.bind
  apply wp_reads
  apply Wp.bind
  apply wp_insert rfl ⟨not_isSentinel_waitNode 2, fun i => waitless_running.off i 2⟩
  apply wp_pure
  -- thread 2 blocks, and thread 3 is next
  refine Scene.reaches_pc rfl rfl (fun _ hr =>
    ⟨rfl, _, hr.lists .readyThreads _ rfl, List.mem_cons_self⟩) ?_
  apply Wp.bind
  apply wp_block_ready rfl (by decide) rfl rfl
  apply wp_pure
  refine Scene.reaches_frame rfl (fun _ _ => trivial) ?_
  apply wp_schedule_several (n := 3) rfl rfl
  refine Scene.reaches_frame rfl (fun _ _ =>
    ⟨fun _ => ⟨show 3 ≠ 2 by decide, rfl⟩, fun hne => absurd rfl hne⟩) ?_
  apply wp_switch_blocked rfl
  refine Scene.reaches_frame rfl (fun _ _ _ => ⟨show 3 ≠ 2 by decide, rfl⟩) ?_
  apply wp_leave_ready (by decide) rfl
  exact Scene.reaches_nil ⟨rfl, rfl, rfl, rfl, rfl, rfl, rfl⟩

/-- Thread 3 exits, and its notification takes thread 2 off the list. -/
theorem reaches_woken {stack : Nat → List Frame} {pc : Nat → WaitPc} {due : Nat → Option Int}
    (hstack : stack 3 = [.finish]) (hpc3 : pc 3 = .outside) (hpc2 : pc 2 = .ret (.threadWaiters 3))
    (hdue : due 2 = none) :
    Scene.Reaches WaitSound ⟨asleepCore, asleepLists, stack, pc, due⟩
      (.code :: .code :: .call .exit :: List.replicate 5 .code) fun y =>
        y.core = wokenCore ∧ y.lists = wokenLists ∧ y.stack 3 = [.schedule] ∧
          y.stack 2 = stack 2 ∧ y.pc 2 = .ret (.threadWaiters 3) ∧
          y.due 2 = some threadKillSucc := by
  refine Scene.reaches_frame hstack (fun _ _ => Scene.frame_sound hstack trivial) ?_
  refine wp_finish_of (l := []) rfl rfl (fun _ => ?_) fun t rest h => absurd h (by simp)
  refine Scene.reaches_frame rfl (fun _ _ => trivial) ?_
  apply wp_enable
  refine Scene.reaches_call rfl hpc3 (fun _ => trivial) ?_
  apply Wp.bind
  refine wp_exit_running rfl (show .node 3 ∉ Seqs.get asleepLists .readyThreads by decide) ?_
  apply wp_pure
  refine Scene.reaches_frame rfl (fun _ _ => trivial) ?_
  apply wp_pure
  refine Scene.reaches_frame rfl (fun _ hr => Scene.pop_sound threadKillSucc hr rfl ?_) ?_
  · rintro w rest ⟨⟩ hblock
    have hret : WaitPc.ret (.threadWaiters 3) = .block (.threadWaiters 3) := hpc2.symm.trans hblock
    cases hret
  apply wp_pop_cons (w := 2) rfl rfl
  refine Scene.reaches_frame rfl (fun _ _ => trivial) ?_
  apply Wp.bind
  apply wp_modifyCore
  apply wp_pure
  refine Scene.reaches_frame rfl (fun _ _ => trivial) ?_
  apply wp_unblock_asleep rfl List.mem_cons_self rfl rfl
  refine Scene.reaches_frame rfl (fun _ hr => Scene.pop_sound threadKillSucc hr rfl ?_) ?_
  · rintro w rest ⟨⟩
  apply wp_pop_nil rfl rfl
  refine Scene.reaches_nil ⟨rfl, rfl, rfl, rfl, hpc2, ?_⟩
  -- the notification has marked thread 2, which was registered
  have hmark : (if (pc 2 = .block (.threadWaiters 3) ∨ pc 2 = .ret (.threadWaiters 3)) ∧
      due 2 = none then some threadKillSucc else due 2) = some threadKillSucc :=
    if_pos ⟨Or.inr hpc2, hdue⟩
  exact (if_neg fun h => by cases hmark.symm.trans h.2).trans hmark

/-- Thread 2 gets the processor back, and cleans up thread 3. -/
theorem reaches_returning {stack : Nat → List Frame} (pc : Nat → WaitPc) (due : Nat → Option Int)
    (hstack3 : stack 3 = [.schedule]) (hstack2 : stack 2 = []) :
    Scene.Reaches WaitSound ⟨wokenCore, wokenLists, stack, pc, due⟩ (List.replicate 7 .code)
      fun z => z.core.current = 2 ∧ z.stack 2 = [] ∧ z.pc 2 = pc 2 ∧ z.due 2 = due 2 := by
  refine Scene.reaches_frame hstack3 (fun _ _ => Scene.frame_sound hstack3 trivial) ?_
  apply wp_schedule_several (n := 2) rfl rfl
  refine Scene.reaches_switch_dying rfl rfl (show 2 ≠ 3 by decide) rfl (fun i hi => ?_)
    notMem_woken ?_
  · cases i <;> first | exact hi.elim | rfl
  refine Scene.reaches_frame rfl (fun _ _ _ => ⟨show 2 ≠ 3 by decide, rfl⟩) ?_
  refine wp_leave_ready (show 3 ≠ 2 by decide) rfl ?_
  refine Scene.reaches_frame rfl (fun _ _ => trivial) ?_
  refine wp_finish_of (l := [3]) rfl rfl (fun h => absurd h (by simp)) ?_
  rintro _ _ ⟨⟩
  refine Scene.reaches_frame rfl (fun _ _ => trivial) ?_
  refine wp_cleanup_dying (k := 1) rfl rfl (by decide) ?_
  refine Scene.reaches_frame rfl (fun _ _ => trivial) ?_
  apply Wp.bind
  apply wp_modifyCore
  apply wp_pure
  refine Scene.reaches_frame rfl (fun _ _ => trivial) ?_
  apply wp_enable
  exact Scene.reaches_nil ⟨rfl, hstack2, rfl, rfl⟩

theorem reaches_lost : Scene.Reaches (fun _ _ => True)
    ⟨threeThreads, threeLists, fun _ => [], fun _ => .outside, fun _ => none⟩
    [.call (.threadWait 3), .code, .code] fun y =>
      y.core.current = 2 ∧ y.stack 2 = [] ∧ y.pc 2 = .ret (.threadWaiters 3) ∧ y.due 2 = none ∧
        y.core.state 2 = .running ∧ waitValue y.core 2 (.threadWaiters 3) = 0 ∧
        y.Reaches (fun _ _ => True) [.code, .call (.kill 3), .code, .code, .code] fun z =>
          z.stack 2 = [.wake (-1) 2, .pop (.threadWaiters 3) (-1), .cleanup 3, .enable] := by
  refine Scene.reaches_call rfl rfl (fun _ => trivial) ?_
  apply wp_pure
  refine Scene.reaches_pc rfl rfl (fun _ _ => trivial) ?_
  apply Wp.bind
  apply wp_reads
  apply Wp.bind
  apply wp_insert rfl ⟨not_isSentinel_waitNode 2, fun i => waitless_three.off i 2⟩
  apply wp_pure
  -- `thread_block` does not find the thread on the ready list
  refine Scene.reaches_pc rfl rfl (fun _ _ => trivial) ?_
  apply Wp.bind
  apply wp_block_off rfl (by decide)
  apply wp_pure
  refine Scene.reaches_nil ⟨rfl, rfl, rfl, rfl, rfl, rfl, ?_⟩
  refine Scene.reaches_pc rfl rfl (fun _ _ => trivial) ?_
  apply wp_pure
  -- the target is killed, and the notification takes the node off the list
  refine Scene.reaches_call rfl rfl (fun _ => trivial) ?_
  apply wp_kill_other (by decide)
  refine Scene.reaches_frame rfl (fun _ _ => trivial) ?_
  apply wp_killOther_ready rfl rfl (by decide)
  refine Scene.reaches_frame rfl (fun _ _ => trivial) ?_
  apply wp_pure
  refine Scene.reaches_frame rfl (fun _ _ => trivial) ?_
  apply wp_pop_cons (w := 2) rfl rfl
  exact Scene.reaches_nil rfl

end Example

end Longhorn.LostWakeups
