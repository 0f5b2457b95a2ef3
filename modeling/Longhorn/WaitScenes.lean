import Longhorn.SchedulerRuns
import Longhorn.WaitInvariant

/-!
Waiting piece by piece on the sequences that the lists hold: what each piece of code leads to, and
from it the runs of the threads.
-/

namespace Longhorn.WaitScenes

open Longhorn.Foundations.LinkedNodes
open Longhorn.Foundations.TransitionRuns
open Longhorn.IntrusiveList
open Longhorn.ListRefinement
open Longhorn.ListPrograms
open Longhorn.ThreadModel
open Longhorn.KernelRuns
open Longhorn.SchedulerRules
open Longhorn.SchedulerInvariant
open Longhorn.ThreadCalls
open Longhorn.WaitModel
open Longhorn.WaitRules
open Longhorn.WaitInvariant

/-- `finish_schedule` makes its thread the running one, and that of its process. -/
def resumed (c : Core) : Core :=
  let c1 := c.setState c.current .running
  c1.withProc (c1.procOf c.current) fun p =>
    { p with activeThread := p.threads ((c1.threads c.current).childNum % 256) }

section Pieces

variable {c : Core} {q : KernelSeqs} {n t : Nat} {Q : List Frame → Core → KernelSeqs → Prop}

/-- `thread_block` of a thread that is not on the ready list. -/
theorem wp_block_off (hready : (q .readyThreads).isSome)
    (hoff : .node c.current ∉ q.get .readyThreads)
    (h : Q [] (((c.withInterrupts false).noteCall (.delete .readyThreads
      (.node c.current))).withInterrupts true) q) : Wp listAt blockCode Q c q := by
  apply Wp.bind
  apply wp_modifyCore
  apply Wp.bind
  apply wp_reads
  apply Wp.bind
  apply wp_delete hready (fun hin => absurd hin hoff) fun _ => ?_
  apply Wp.bind
  apply wp_modifyCore
  exact wp_pure h

/-- `schedule` with several ready threads. -/
theorem wp_schedule_several {a : NodeAddr} {rest : List NodeAddr}
    (hlist : (q .readyThreads).isSome) (hready : q.get .readyThreads = .node n :: a :: rest)
    (h : Q [.switch n] ((c.withInterrupts false).noteCall (.pop .readyThreads))
      (q.set .readyThreads (a :: rest))) : Wp listAt Frame.schedule.run Q c q := by
  apply Wp.bind
  apply wp_modifyCore
  apply Wp.bind
  apply wp_pickNext_several hlist hready
  exact wp_pure h

theorem wp_switch_blocked (hs : c.state c.current = .blocked) (h : Q [.leave n] c q) :
    Wp listAt (Frame.switch n).run Q c q := by
  apply Wp.bind
  apply wp_reads
  apply Wp.bind
  apply wp_requeue_blocked hs
  apply Wp.bind
  apply wp_reads
  rw [hs, if_neg (by simp)]
  exact wp_pure h

/-- A thread that has ended goes to the list of dying threads. -/
theorem wp_switch_dying (hs : c.state c.current = .dying) (hne : c.current ≠ n)
    (hlist : (q .dyingThreads).isSome) (hoff : ∀ i, .node c.current ∉ q.get i)
    (h : Q [.leave n] (c.noteCall (.insert .dyingThreads (.node c.current)))
      (q.set .dyingThreads (.node c.current :: q.get .dyingThreads))) :
    Wp listAt (Frame.switch n).run Q c q := by
  apply Wp.bind
  apply wp_reads
  apply Wp.bind
  apply wp_requeue_dying hs hlist hoff
  apply Wp.bind
  apply wp_reads
  rw [if_neg fun hstays => hne hstays.1]
  exact wp_pure h

theorem wp_leave_ready (hne : c.current ≠ n) (hs : c.state n = .ready)
    (h : Q [] (c.switchTo n) q) : Wp listAt (Frame.leave n).run Q c q := by
  apply Wp.bind
  apply wp_reads
  apply Wp.bind
  apply wp_reads
  rw [if_neg (not_or.mpr ⟨hne, not_not_intro hs⟩)]
  apply Wp.bind
  apply wp_modifyCore
  exact wp_pure h

/-- `finish_schedule` hands the first of the dying threads to `thread_cleanup`. -/
theorem wp_finish_of {l : List Nat} (hlist : (q .dyingThreads).isSome)
    (hdying : q.get .dyingThreads = l.map .node) (hnil : l = [] → Q [.enable] (resumed c) q)
    (hcons : ∀ t rest, l = t :: rest → Q [.cleanup t, .enable]
      (((resumed c).withInterrupts false).noteCall (.pop .dyingThreads))
      (q.set .dyingThreads (rest.map .node))) : Wp listAt Frame.finish.run Q c q := by
  apply Wp.bind
  apply wp_reads
  apply Wp.bind
  apply wp_modifyCore
  apply Wp.bind
  apply wp_reads
  apply Wp.bind
  apply wp_reads
  apply Wp.bind
  apply wp_modifyCore
  apply Wp.bind
  apply wp_isEmpty hlist
  rw [hdying]
  cases l with
  | nil => exact wp_pure (hnil rfl)
  | cons t rest =>
      rw [List.map_cons, if_pos (by simp)]
      apply Wp.bind
      apply wp_modifyCore
      apply Wp.bind
      apply wp_pop hlist
      rw [hdying]
      exact wp_pure (hcons t rest rfl)

/-- `thread_cleanup` of a thread whose process has another one. -/
theorem wp_cleanup_dying {k : Nat} (hs : c.state t = .dying)
    (hcount : (c.procs (c.procOf t)).numLiveThreads = k + 2) (hk : k < 254)
    (h : Q [.freeThread t]
      (c.withProc (c.procOf t) fun p => p.endThread (c.threads t).childNum) q) :
    Wp listAt (Frame.cleanup t).run Q c q := by
  apply Wp.bind
  apply wp_reads
  rw [if_neg (not_not_intro hs)]
  apply Wp.bind
  apply wp_reads
  apply Wp.bind
  apply wp_modifyCore
  apply Wp.bind
  apply wp_reads
  rw [if_neg (by
    simp only [Core.withProc, Function.update_self, Process.endThread, hcount]
    omega)]
  exact wp_pure h

theorem wp_pop_cons {i : ListId} {ret : Int} {w : Nat} {rest : List NodeAddr}
    (hlist : (q i).isSome) (hq : q.get i = .waitNode w :: rest)
    (h : Q [.wake ret w, .pop i ret] (c.noteCall (.pop i)) (q.set i rest)) :
    Wp listAt (Frame.pop i ret).run Q c q := by
  apply Wp.bind
  apply wp_pop hlist
  rw [hq]
  exact wp_pure h

theorem wp_pop_nil {i : ListId} {ret : Int} (hlist : (q i).isSome) (hq : q.get i = [])
    (h : Q [] (c.noteCall (.pop i)) (q.set i [])) : Wp listAt (Frame.pop i ret).run Q c q := by
  apply Wp.bind
  apply wp_pop hlist
  rw [hq]
  exact wp_pure h

theorem wp_unblock_asleep (hs : c.state t = .blocked) (hin : .node t ∈ q.get .blockedThreads)
    (hready : (q .readyThreads).isSome) (hblocked : (q .blockedThreads).isSome)
    (h : Q [] ((((((c.note (.unblock t)).withInterrupts false).noteCall (.delete .blockedThreads
        (.node t))).setState t .ready).noteCall (.insert .readyThreads (.node t))).withInterrupts
          true) ((q.set .blockedThreads ((q.get .blockedThreads).erase (.node t))).set .readyThreads
        (.node t :: q.get .readyThreads))) : Wp listAt (Frame.unblock t).run Q c q := by
  apply wp_of_apart
  intro hq
  apply Wp.bind
  apply Wp.bind
  apply wp_modifyCore
  apply Wp.bind
  apply wp_modifyCore
  apply Wp.bind
  apply wp_reads
  rw [if_neg (not_not_intro (show ((c.note (.unblock t)).withInterrupts false).state t = .blocked
    from hs))]
  apply Wp.bind
  apply wp_delete hblocked (fun _ => ?_) fun hout => absurd hin hout
  apply Wp.bind
  apply wp_modifyCore
  apply Wp.bind
  apply wp_insert
  · exact Seqs.isSome_set hready
  · exact ⟨not_isSentinel_node t, hq.erased hin⟩
  apply wp_modifyCore
  rw [Seqs.get_set_of_ne (by decide)]
  exact wp_pure h

theorem wp_exit_running (hready : (q .readyThreads).isSome)
    (hoff : .node c.current ∉ q.get .readyThreads)
    (h : Q [.notify (.threadWaiters c.current) threadKillSucc, .schedule]
      (((c.withInterrupts false).noteCall (.delete .readyThreads (.node c.current))).setState
        c.current .dying) q) : Wp listAt exitCode Q c q := by
  apply Wp.bind
  apply wp_reads
  apply Wp.bind
  apply wp_modifyCore
  apply Wp.bind
  apply wp_delete hready (fun hin => absurd hin hoff) fun _ => ?_
  apply Wp.bind
  apply wp_modifyCore
  exact wp_pure h

theorem wp_enable (h : Q [] (c.withInterrupts true) q) : Wp listAt Frame.enable.run Q c q := by
  apply Wp.bind
  apply wp_modifyCore
  exact wp_pure h

theorem wp_kill_other {Q : List Frame × WaitPc → Core → KernelSeqs → Prop}
    (hs : c.state t ≠ .running) (h : Q ([.killOther t], .outside) (c.withInterrupts false) q) :
    Wp listAt (callCode (.kill t)) Q c q := by
  apply Wp.bind
  apply wp_modifyCore
  apply Wp.bind
  apply wp_reads
  rw [if_neg (show (c.withInterrupts false).state t ≠ .running from hs)]
  exact wp_pure h

/-- `thread_kill` of a thread on the ready list. -/
theorem wp_killOther_ready (hs : c.state t = .ready) (hready : (q .readyThreads).isSome)
    (hin : .node t ∈ q.get .readyThreads)
    (h : Q [.notify (.threadWaiters t) (-1), .cleanup t, .enable]
      ((c.setState t .dying).noteCall (.delete .readyThreads (.node t)))
      (q.set .readyThreads ((q.get .readyThreads).erase (.node t)))) :
    Wp listAt (Frame.killOther t).run Q c q := by
  apply Wp.bind
  apply wp_detach_here hs hready hin
  rw [if_neg (by simp)]
  apply Wp.bind
  apply wp_detach_other
  · rw [(alike_noteCall _ _).state, state_setState]
    decide
  rw [if_neg (by simp)]
  exact wp_pure h

end Pieces

/-- A state of the threads with its lists in place of the heap. -/
structure Scene where
  core : Core
  lists : KernelSeqs
  stack : Nat → List Frame
  pc : Nat → WaitPc
  due : Nat → Option Int

def Scene.on (x : Scene) (h : Heap NodeAddr) : WaitState where
  mem := ⟨x.core, h⟩
  stack := x.stack
  pc := x.pc
  due := x.due

/-- From every heap that holds the lists, the steps lead to a scene with `P`. -/
def Scene.Reaches (sound : WaitState → WaitAct → Prop) (x : Scene) (es : List WaitAct)
    (P : Scene → Prop) : Prop :=
  ∀ h, Represents listAt h x.lists → ∃ y h', Represents listAt h' y.lists ∧
    Run (Guarded WaitStep sound) (x.on h) es (y.on h') ∧ P y

/-- The scene behind a piece of code of the running thread. -/
def Scene.after (x : Scene) (fs : List Frame) (pc : WaitPc) (c : Core) (q : KernelSeqs)
    (due : Nat → Option Int) : Scene where
  core := c
  lists := q
  stack := fun t =>
    if t = x.core.current then fs
    else if t = c.current then .finish :: x.stack t else x.stack t
  pc := Function.update x.pc x.core.current pc
  due := due

def Scene.marks (x : Scene) (f : Frame) (fs : List Frame) : Nat → Option Int :=
  (x.on zeroedState.heap).marks f fs

def Scene.pcMarks (x : Scene) (pc : WaitPc) : Nat → Option Int :=
  (x.on zeroedState.heap).pcMarks pc

section Scenes

variable {sound : WaitState → WaitAct → Prop} {x : Scene} {es : List WaitAct} {P : Scene → Prop}
  {h : Heap NodeAddr} {i : ListId}

theorem Scene.marks_on (x : Scene) (f : Frame) (fs : List Frame) (h : Heap NodeAddr) :
    (x.on h).marks f fs = x.marks f fs := by
  cases f <;> cases fs <;> rfl

theorem Scene.reaches_nil (hx : P x) : x.Reaches sound [] P :=
  fun heap hr => ⟨x, heap, hr, .nil _, hx⟩

theorem Scene.Reaches.cons {e : WaitAct} {h' : Heap NodeAddr} {y : Scene}
    (hy : y.Reaches sound es P) (hr : Represents listAt h' y.lists)
    (hstep : Guarded WaitStep sound (x.on h) e (y.on h')) :
    ∃ z heap, Represents listAt heap z.lists ∧
      Run (Guarded WaitStep sound) (x.on h) (e :: es) (z.on heap) ∧ P z := by
  obtain ⟨z, heap, hr', hrun, hP⟩ := hy h' hr
  exact ⟨z, heap, hr', .cons hstep hrun, hP⟩

/-- The running thread goes on with the first of its frames. -/
theorem Scene.reaches_frame {f : Frame} {rest : List Frame}
    (hstack : x.stack x.core.current = f :: rest)
    (hsound : ∀ h, Represents listAt h x.lists → sound (x.on h) .code)
    (hwp : Wp listAt f.run (fun fs c q => (x.after (fs ++ rest) (x.pc x.core.current) c q
      (x.marks f fs)).Reaches sound es P) x.core x.lists) : x.Reaches sound (.code :: es) P := by
  intro h hr
  obtain ⟨fs, c, h', q, hrun, hr', hreaches⟩ := hwp h hr
  refine hreaches.cons hr' ⟨hsound h hr, ?_⟩
  rw [← x.marks_on f fs h]
  exact .frame hstack hrun

/-- The running thread goes on in its wait call. -/
theorem Scene.reaches_pc {pc : WaitPc} (hstack : x.stack x.core.current = [])
    (hpc : x.pc x.core.current = pc)
    (hsound : ∀ h, Represents listAt h x.lists → sound (x.on h) .code)
    (hwp : Wp listAt (pcCode pc) (fun r c q =>
      (x.after r.1 r.2 c q (x.pcMarks pc)).Reaches sound es P) x.core x.lists) :
    x.Reaches sound (.code :: es) P := by
  subst hpc
  intro h hr
  obtain ⟨r, c, h', q, hrun, hr', hreaches⟩ := hwp h hr
  exact hreaches.cons hr' ⟨hsound h hr, .pc hstack hrun⟩

theorem Scene.reaches_call {a : WaitCall} (hstack : x.stack x.core.current = [])
    (hpc : x.pc x.core.current = .outside) (hsound : ∀ h, sound (x.on h) (.call a))
    (hwp : Wp listAt (callCode a) (fun r c q =>
      (x.after r.1 r.2 c q x.due).Reaches sound es P) x.core x.lists) :
    x.Reaches sound (.call a :: es) P := by
  intro h hr
  obtain ⟨r, c, h', q, hrun, hr', hreaches⟩ := hwp h hr
  exact hreaches.cons hr' ⟨hsound h, .call hstack hpc hrun⟩

theorem Scene.frame_sound {f : Frame} {rest : List Frame}
    (hstack : x.stack x.core.current = f :: rest) (hf : FrameSound (x.on h) f) :
    WaitSound (x.on h) .code := by
  rw [WaitSound, show (x.on h).stack (x.on h).cur = f :: rest from hstack]
  exact hf

/-- A notification may take the first waiter off the list when it is not about to block. -/
theorem Scene.pop_sound (ret : Int) {ws : List NodeAddr} (hr : Represents listAt h x.lists)
    (hi : x.lists i = some ws) (hpc : ∀ w rest, ws = .waitNode w :: rest → x.pc w ≠ .block i) :
    FrameSound (x.on h) (.pop i ret) :=
  fun w rest hlist => hpc w rest ((hr.lists i ws hi).unique hlist)

theorem Scene.not_onList {a : NodeAddr} (hr : Represents listAt h x.lists)
    (hi : (x.lists i).isSome) (hoff : a ∉ Seqs.get x.lists i) : ¬ OnList (x.on h) i a := by
  obtain ⟨ys, hys⟩ := Option.isSome_iff_exists.mp hi
  rw [Seqs.get_of_eq hys] at hoff
  rintro ⟨xs, hlist, hin⟩
  rw [hlist.unique (hr.lists i ys hys)] at hin
  exact hoff hin

/-- A thread that has ended gives up the processor. -/
theorem Scene.reaches_switch_dying {n : Nat} {rest : List Frame}
    (hstack : x.stack x.core.current = .switch n :: rest)
    (hs : x.core.state x.core.current = .dying) (hne : n ≠ x.core.current)
    (hready : x.core.state n = .ready) (hlists : ∀ i, HoldsThreads i → (x.lists i).isSome)
    (hoff : ∀ i, .node x.core.current ∉ Seqs.get x.lists i)
    (hreaches : (x.after (.leave n :: rest) (x.pc x.core.current)
      (x.core.noteCall (.insert .dyingThreads (.node x.core.current)))
      (Seqs.set x.lists .dyingThreads (.node x.core.current :: Seqs.get x.lists .dyingThreads))
      x.due).Reaches WaitSound es P) : x.Reaches WaitSound (.code :: es) P := by
  refine Scene.reaches_frame hstack (fun h hr => ?_)
    (wp_switch_dying hs hne.symm (hlists _ trivial) hoff hreaches)
  exact Scene.frame_sound hstack
    ⟨fun _ => ⟨hne, hready⟩, fun _ i hi => Scene.not_onList hr (hlists i hi) (hoff i)⟩

end Scenes

end Longhorn.WaitScenes
