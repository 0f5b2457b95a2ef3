import Longhorn.Foundations.TransitionRuns
import Longhorn.WaitRules

/-!
Where waiting threads are while others notify them: an invariant of waiting piece by piece.
-/

namespace Longhorn.WaitInvariant

open Longhorn.Foundations.TransitionRuns
open Longhorn.IntrusiveList
open Longhorn.ListRefinement
open Longhorn.ListPrograms
open Longhorn.ThreadModel
open Longhorn.SchedulerRules
open Longhorn.WaitModel
open Longhorn.WaitRules

/-- A blocked or dying thread gives up the processor to another one, which is ready. -/
def HandsOver (s : WaitState) (next : Nat) : Prop :=
  s.state s.cur = .blocked ∨ s.state s.cur = .dying → next ≠ s.cur ∧ s.state next = .ready

/-- What is asked of the state before a piece of code: a thread goes to the end of a list only
if it is on none, a notification takes off no thread between registering and blocking,
and `thread_kill` ends a thread that neither waits nor notifies. -/
def FrameSound (s : WaitState) : Frame → Prop
  | .switch next => HandsOver s next ∧
      (s.state s.cur ≠ .blocked → ∀ i, HoldsThreads i → ¬ OnList s i (.node s.cur))
  | .leave next => HandsOver s next
  | .pop i _ => ∀ w rest, IsList s.mem.heap (listAt i) (.waitNode w :: rest) → s.pc w ≠ .block i
  | .killOther t => t ≠ s.cur ∧ (s.state t = .ready ∨ s.state t = .blocked) ∧
      s.mem.core.live t = true ∧ (∀ f ∈ s.stack t, Quiet f) ∧ ∀ i, ¬ Registered s t i
  | _ => True

/-- A thread registers with a target that is alive, and is on the ready list when it blocks. -/
def PcSound (s : WaitState) : WaitPc → Prop
  | .register i => Core.Accessible s.mem.core i
  | .block _ => s.state s.cur = .running ∧ OnList s .readyThreads (.node s.cur)
  | _ => True

/-- The idle thread does not wait. -/
def CallSound (s : WaitState) : WaitCall → Prop
  | .threadWait _ => s.mem.core.idleT ≠ some s.cur
  | .procWait _ => s.mem.core.idleT ≠ some s.cur
  | _ => True

/-- The timer does not preempt a thread that is dying. -/
def WaitSound (s : WaitState) : WaitAct → Prop
  | .call a => CallSound s a
  | .code => match s.stack s.cur with
      | [] => PcSound s (s.pc s.cur)
      | f :: _ => FrameSound s f
  | .timer => (s.mem.core.threadTicks + 1) % 256 % maxThreadTicks = 0 → s.state s.cur ≠ .dying

/-- The notification that the frame is part of. -/
def notes : Frame → Option (ListId × Int)
  | .notify i ret => some (i, ret)
  | .pop i ret => some (i, ret)
  | _ => none

/-- The thread that the frame is to wake. -/
def wakes : Frame → Option Nat
  | .wake _ t => some t
  | .unblock t => some t
  | _ => none

def wakeTargets (fs : List Frame) : List Nat := fs.filterMap wakes

/-- The frame may yet wake the thread. -/
def Serves (w : Nat) : Frame → Prop
  | .pop _ _ => True
  | f => wakes f = some w

/-- The frames of `schedule`. -/
def Leaves : Frame → Prop
  | .schedule => True
  | .switch _ => True
  | .leave _ => True
  | _ => False

def Leaving (fs : List Frame) : Prop := ∃ f rest, fs = f :: rest ∧ Leaves f

/-- What a dying thread has still to run: its notification, then `schedule`. -/
def Exiting (fs : List Frame) : Prop :=
  ∃ before f rest, fs = before ++ f :: rest ∧ (∀ g ∈ before, ¬ Quiet g) ∧ Leaves f ∧
    ∀ g ∈ rest, Quiet g

/-- No frame is to wake the thread. -/
def NotTaken (s : WaitState) (w : Nat) : Prop := ∀ u, w ∉ wakeTargets (s.stack u)

/-- If the thread is due to be woken, the notification goes on. -/
def DueOk (s : WaitState) (w : Nat) (i : ListId) : Prop :=
  ∀ ret, s.due w = some ret → ∃ u, Active s u ∧ .pop i ret ∈ s.stack u

/-- The frame is to wake the thread with the code. -/
def WakesWith (c : Core) (w : Nat) (ret : Int) (f : Frame) : Prop :=
  f = .wake ret w ∨ f = .unblock w ∧ (c.threads w).waitCode = ret

/-- Where the wait node of a thread is, by where the thread is in its wait call. -/
inductive WaitOk (c0 : Core) (s : WaitState) (q : KernelSeqs) (w : Nat) : WaitPc → Prop
  | outside (hoff : ∀ j, .waitNode w ∉ q.get j) (hno : NotTaken s w) : WaitOk c0 s q w .outside
  | register {i : ListId} (hi : HoldsWaiters i) (hoff : ∀ j, .waitNode w ∉ q.get j)
      (hno : NotTaken s w) : WaitOk c0 s q w (.register i)
  | listed {i : ListId} (hin : .waitNode w ∈ q.get i) (hdue : DueOk s w i) (hno : NotTaken s w) :
      WaitOk c0 s q w (.block i)
  | asleep {i : ListId} (hasleep : Asleep s.mem.core q w) (hin : .waitNode w ∈ q.get i)
      (hdue : DueOk s w i) (hno : NotTaken s w) : WaitOk c0 s q w (.ret i)
  | taken {i : ListId} {ret : Int} {u : Nat} {f : Frame} (hasleep : Asleep s.mem.core q w)
      (hoff : ∀ j, .waitNode w ∉ q.get j) (hdue : s.due w = some ret)
      (hknown : Known c0 (.pop i ret)) (hactive : Active s u) (hf : f ∈ s.stack u)
      (hwakes : WakesWith s.mem.core w ret f) : WaitOk c0 s q w (.ret i)
  | woken {i : ListId} {ret : Int} (hstate : s.state w ≠ .blocked)
      (hcode : (s.mem.core.threads w).waitCode = ret) (hoff : ∀ j, .waitNode w ∉ q.get j)
      (hdue : s.due w = some ret) (hknown : Known c0 (.pop i ret)) (hno : NotTaken s w) :
      WaitOk c0 s q w (.ret i)

structure WaitInv (c0 : Core) (s : WaitState) (q : KernelSeqs) : Prop where
  represents : Represents listAt s.mem.heap q
  lists : ∀ i, Core.Accessible c0 i → (q i).isSome
  fits : ∀ i, ∀ a ∈ q.get i, Core.Fits c0 i a
  live : ∀ t, s.mem.core.live t = true → c0.live t = true
  liveProcs : ∀ p, s.mem.core.liveProcs p = true → c0.liveProcs p = true
  home : ∀ t, c0.live t = true → c0.liveProcs (s.mem.core.procOf t) = true
  codes : ∀ p, c0.liveProcs p = true → (s.mem.core.procs p).waitCode = 0
  idle : ∃ t, s.mem.core.idleT = some t ∧ c0.live t = true ∧ s.pc t = .outside
  cur : c0.live s.cur = true
  known : ∀ u, ∀ f ∈ s.stack u, Known c0 f
  once : ∀ u, (wakeTargets (s.stack u)).Nodup
  apart : ∀ u v, u ≠ v → List.Disjoint (wakeTargets (s.stack u)) (wakeTargets (s.stack v))
  told : ∃ code : Nat → Int, ∀ u, ∀ f ∈ s.stack u, ∀ t ret,
    notes f = some (.threadWaiters t, ret) → s.state t = .dying ∧ ret = code t
  quiet : ∀ u, s.state u = .dying → u ≠ s.cur → ∀ f ∈ s.stack u, Quiet f
  exiting : s.state s.cur = .dying → Exiting (s.stack s.cur)
  leaving : s.state s.cur = .blocked → Leaving (s.stack s.cur)
  waits : ∀ w, WaitOk c0 s q w (s.pc w)

section Frames

variable {fs rest : List Frame} {f : Frame} {w : Nat}

theorem not_quiet_of_serves (h : Serves w f) : ¬ Quiet f := by
  cases f <;> first | exact id | cases h

theorem quiet_of_leaves (h : Leaves f) : Quiet f := by
  cases f <;> first | exact h.elim | trivial

theorem notes_of_quiet (h : Quiet f) : notes f = none := by
  cases f <;> first | exact h.elim | rfl

theorem wakes_of_quiet (h : Quiet f) : wakes f = none := by
  cases f <;> first | exact h.elim | rfl

theorem WakesWith.serves {c : Core} {ret : Int} (h : WakesWith c w ret f) : Serves w f := by
  rcases h with rfl | ⟨rfl, _⟩
  · rfl
  · rfl

theorem wakeTargets_append (fs rest : List Frame) :
    wakeTargets (fs ++ rest) = wakeTargets fs ++ wakeTargets rest :=
  List.filterMap_append

theorem wakeTargets_of_quiet (h : ∀ f ∈ fs, Quiet f) : wakeTargets fs = [] :=
  List.filterMap_eq_nil_iff.mpr fun f hf => wakes_of_quiet (h f hf)

theorem Exiting.push (h : Exiting rest) (hfs : ∀ f ∈ fs, ¬ Quiet f) : Exiting (fs ++ rest) := by
  obtain ⟨before, f, after, rfl, hbefore, hf, hafter⟩ := h
  refine ⟨fs ++ before, f, after, (List.append_assoc _ _ _).symm, fun g hg => ?_, hf, hafter⟩
  exact (List.mem_append.mp hg).elim (hfs g) (hbefore g)

/-- A dying thread notifies, or gives up the processor and has nobody left to notify. -/
theorem Exiting.head (h : Exiting (f :: rest)) :
    (Leaves f ∧ ∀ g ∈ rest, Quiet g) ∨ (¬ Quiet f ∧ Exiting rest) := by
  obtain ⟨_ | ⟨g, before⟩, l, after, heq, hbefore, hl, hafter⟩ := h
  · cases heq
    exact Or.inl ⟨hl, hafter⟩
  · cases heq
    refine Or.inr ⟨hbefore f List.mem_cons_self, before, l, after, rfl, fun g hg => ?_, hl, hafter⟩
    exact hbefore g (List.mem_cons_of_mem _ hg)

end Frames

section Invariant

variable {c0 : Core} {s s' : WaitState} {q q' : KernelSeqs} {w : Nat} {pc : WaitPc}

theorem WaitInv.safe (h : WaitInv c0 s q) : NoLostWakeup s := by
  refine ⟨fun w i ret hreg hdue hover hs => ?_, fun i hstack hpc => ?_⟩
  · have hw := h.waits w
    rcases hreg with hpc | hpc
    · rw [hpc] at hw
      cases hw with
      | listed _ hdueOk _ =>
          obtain ⟨u, hactive, hin⟩ := hdueOk ret hdue
          exact hover u hactive _ hin rfl
    · rw [hpc] at hw
      cases hw with
      | asleep _ _ hdueOk _ =>
          obtain ⟨u, hactive, hin⟩ := hdueOk ret hdue
          exact hover u hactive _ hin rfl
      | taken _ _ _ _ hactive hf hwakes =>
          refine hover _ hactive _ hf ?_
          rcases hwakes with rfl | ⟨rfl, _⟩
          · rfl
          · rfl
      | woken hstate => exact hstate hs
  · have hw := h.waits s.cur
    have hawake : s.state s.cur ≠ .blocked := by
      intro hs
      obtain ⟨f, rest, heq, _⟩ := h.leaving hs
      rw [hstack] at heq
      cases heq
    rw [hpc] at hw
    cases hw with
    | asleep hasleep => exact absurd hasleep.1 hawake
    | taken hasleep => exact absurd hasleep.1 hawake
    | woken _ hcode _ hdue hknown _ =>
        obtain ⟨hi, hacc, hret⟩ := hknown
        rw [hdue]
        cases i with
        | threadWaiters t => exact congrArg some hcode.symm
        | procWaiters p => rw [hret p rfl, waitValue, h.codes p hacc]
        | _ => exact hi.elim

/-- A thread that a step does nothing to stays where it is in its wait call. -/
theorem WaitOk.carry (h : WaitOk c0 s q w pc)
    (hstate : ∀ i, pc = .ret i → (s'.state w = .blocked → s.state w = .blocked) ∧
      (Asleep s.mem.core q w → Asleep s'.mem.core q' w))
    (hcode : (s'.mem.core.threads w).waitCode = (s.mem.core.threads w).waitCode)
    (hon : ∀ j, .waitNode w ∈ q'.get j ↔ .waitNode w ∈ q.get j)
    (hdue : s'.due w = s.due w ∨ ∃ i ret u, s.due w = none ∧ (pc = .block i ∨ pc = .ret i) ∧
      s'.due w = some ret ∧ Active s' u ∧ .pop i ret ∈ s'.stack u)
    (hno : NotTaken s w → NotTaken s' w)
    (hframes : ∀ u f, Active s u → f ∈ s.stack u → Serves w f →
      (∃ v, Active s' v ∧ f ∈ s'.stack v) ∨ ∃ i ret, f = .pop i ret ∧ .waitNode w ∉ q.get i) :
    WaitOk c0 s' q' w pc := by
  have hoff' : (∀ j, .waitNode w ∉ q.get j) → ∀ j, .waitNode w ∉ q'.get j :=
    fun hoff j hj => hoff j ((hon j).mp hj)
  have hdueOk' : ∀ i, (pc = .block i ∨ pc = .ret i) → .waitNode w ∈ q.get i → DueOk s w i →
      DueOk s' w i := by
    intro i hpc hin hdueOk ret hret
    rcases hdue with hsame | ⟨j, ret', u, _, hpc', hret', hactive, hpop⟩
    · rw [hsame] at hret
      obtain ⟨u, hactive, hpop⟩ := hdueOk ret hret
      rcases hframes u _ hactive hpop trivial with hv | ⟨j, ret', heq, hnot⟩
      · exact hv
      · cases heq
        exact absurd hin hnot
    · have hij : j = i := by
        rcases hpc with rfl | rfl <;> rcases hpc' with heq | heq <;> cases heq <;> rfl
      rw [hret'] at hret
      cases hret
      rw [← hij]
      exact ⟨u, hactive, hpop⟩
  have hdue' : ∀ ret, s.due w = some ret → s'.due w = some ret := by
    intro ret hret
    rcases hdue with hsame | ⟨_, _, _, hnone, _⟩
    · exact hsame.trans hret
    · rw [hnone] at hret
      cases hret
  cases h with
  | outside hoff hnot => exact .outside (hoff' hoff) (hno hnot)
  | register hi hoff hnot => exact .register hi (hoff' hoff) (hno hnot)
  | listed hin hdueOk hnot =>
      exact .listed ((hon _).mpr hin) (hdueOk' _ (Or.inl rfl) hin hdueOk) (hno hnot)
  | asleep hasleep hin hdueOk hnot =>
      exact .asleep ((hstate _ rfl).2 hasleep) ((hon _).mpr hin)
        (hdueOk' _ (Or.inr rfl) hin hdueOk) (hno hnot)
  | taken hasleep hoff hret hknown hactive hf hwakes =>
      rcases hframes _ _ hactive hf hwakes.serves with ⟨v, hv, hfv⟩ | ⟨j, ret', heq, _⟩
      · refine .taken ((hstate _ rfl).2 hasleep) (hoff' hoff) (hdue' _ hret) hknown hv hfv ?_
        rwa [WakesWith, hcode]
      · rw [heq] at hwakes
        rcases hwakes with heq | ⟨heq, _⟩ <;> cases heq
  | woken hawake hc hoff hret hknown hnot =>
      exact .woken (fun hs => hawake ((hstate _ rfl).1 hs)) (hcode.trans hc) (hoff' hoff)
        (hdue' _ hret) hknown (hno hnot)

end Invariant

/-- What code leaves to be run in the place of `head`. -/
structure Follows (c0 : Core) (s : WaitState) (c : Core) (head fs : List Frame) : Prop where
  known : ∀ f ∈ fs, Known c0 f
  wakes : wakeTargets fs = [] ∨ ∃ w, wakeTargets fs = [w] ∧ (wakeTargets head = [w] ∨ NotTaken s w)
  notes : ∃ code, ∀ f ∈ fs, ∀ t ret, notes f = some (.threadWaiters t, ret) →
    (∃ g ∈ head, notes g = notes f) ∨ (s.state t ≠ .dying ∧ c.state t = .dying ∧ ret = code)

section Steps

variable {c0 : Core} {s : WaitState} {q q' : KernelSeqs} {m : KernelState} {w u : Nat}
  {pc : WaitPc} {due : Nat → Option Int} {out new : Nat → Prop} {head fs rest : List Frame}

theorem stack_after_cur : (s.after fs pc m due).stack s.cur = fs := if_pos rfl

theorem stack_after_of_ne (hcur : m.core.current = s.cur) (hu : u ≠ s.cur) :
    (s.after fs pc m due).stack u = s.stack u := by
  simp only [WaitState.after, hcur, if_neg hu]

theorem pc_after_cur : (s.after fs pc m due).pc s.cur = pc := Function.update_self _ _ _

theorem pc_after_of_ne (hu : u ≠ s.cur) : (s.after fs pc m due).pc u = s.pc u :=
  Function.update_of_ne hu _ _

theorem pc_after_same : (s.after fs (s.pc s.cur) m due).pc u = s.pc u :=
  congrFun (Function.update_eq_self _ _) u

theorem follows_of_quiet {c : Core} (hfs : ∀ f ∈ fs, Quiet f ∧ Known c0 f) :
    Follows c0 s c head fs := by
  refine ⟨fun f hf => (hfs f hf).2, Or.inl (wakeTargets_of_quiet fun f hf => (hfs f hf).1), 0,
    fun f hf t ret hn => ?_⟩
  rw [notes_of_quiet (hfs f hf).1] at hn
  cases hn

theorem mem_stack_after (hcur : m.core.current = s.cur) {f : Frame}
    (hf : f ∈ (s.after (fs ++ rest) pc m due).stack u) :
    (u = s.cur ∧ f ∈ fs) ∨ (u = s.cur ∧ f ∈ rest) ∨ (u ≠ s.cur ∧ f ∈ s.stack u) := by
  rcases eq_or_ne u s.cur with rfl | hu
  · rw [stack_after_cur] at hf
    rcases List.mem_append.mp hf with hf | hf
    · exact Or.inl ⟨rfl, hf⟩
    · exact Or.inr (Or.inl ⟨rfl, hf⟩)
  · rw [stack_after_of_ne hcur hu] at hf
    exact Or.inr (Or.inr ⟨hu, hf⟩)

/-- The threads that frames of a stack are to wake, after a step. -/
theorem wakes_after (hstack : s.stack s.cur = head ++ rest) (h : Follows c0 s m.core head fs)
    (honce : (wakeTargets (s.stack s.cur)).Nodup) :
    (wakeTargets (fs ++ rest)).Nodup ∧
      ∀ w ∈ wakeTargets (fs ++ rest), w ∈ wakeTargets (s.stack s.cur) ∨ NotTaken s w := by
  rw [hstack, wakeTargets_append] at honce
  rw [hstack, wakeTargets_append, wakeTargets_append]
  rcases h.wakes with hnil | ⟨w, hfs, hhead | hno⟩
  · rw [hnil]
    exact ⟨honce.of_append_right, fun w hw => Or.inl (List.mem_append_right _ hw)⟩
  · rw [hfs, ← hhead]
    exact ⟨honce, fun w hw => Or.inl hw⟩
  · have hnot := hno s.cur
    rw [hstack, wakeTargets_append] at hnot
    rw [hfs, List.singleton_append]
    refine ⟨honce.of_append_right.cons fun hin => hnot (List.mem_append_right _ hin),
      fun v hv => ?_⟩
    rcases List.mem_cons.mp hv with rfl | hv
    · exact Or.inr hno
    · exact Or.inl (List.mem_append_right _ hv)

/-- The invariant after code of one thread, but for the threads that wait. -/
theorem WaitInv.next (h : WaitInv c0 s q) (head fs rest : List Frame)
    (hstack : s.stack s.cur = head ++ rest)
    (hr : Represents listAt m.heap q') (hst : Steady c0 new s.mem.core q m.core q')
    (hfs : Follows c0 s m.core head fs)
    (hnew : ∀ u, new u → u ≠ s.cur → ∀ f ∈ s.stack u, Quiet f)
    (hidle : s.mem.core.idleT = some s.cur → pc = .outside)
    (hexiting : m.core.state s.cur = .dying → Exiting (fs ++ rest))
    (hleaving : m.core.state s.cur = .blocked → Leaving (fs ++ rest))
    (hwaits : ∀ w, WaitOk c0 (s.after (fs ++ rest) pc m due) q' w
      ((s.after (fs ++ rest) pc m due).pc w)) :
    WaitInv c0 (s.after (fs ++ rest) pc m due) q' := by
  have hcur : m.core.current = s.cur := hst.current
  have hrest : ∀ f ∈ rest, f ∈ s.stack s.cur := by
    intro f hf
    rw [hstack]
    exact List.mem_append_right _ hf
  obtain ⟨honce, hwakes⟩ := wakes_after hstack hfs (h.once s.cur)
  -- no other thread is to wake one that the running thread is to wake now
  have hapart : ∀ v, v ≠ s.cur →
      List.Disjoint (wakeTargets (fs ++ rest)) (wakeTargets (s.stack v)) := by
    intro v hv w hw hwv
    rcases hwakes w hw with hin | hno
    · exact h.apart s.cur v hv.symm hin hwv
    · exact hno v hwv
  refine ⟨hr, fun i hi => hst.lists i (h.lists i hi), hst.fits,
    fun t ht => h.live t (hst.live t ht),
    fun p hp => h.liveProcs p (hst.liveProcs p hp), fun t ht => ?_, fun p hp => ?_, ?_, ?_,
    fun u f hf => ?_, fun u => ?_, fun u v huv => ?_, ?_, fun u hu hne => ?_, ?_, ?_, hwaits⟩
  · change c0.liveProcs (m.core.procOf t) = true
    rw [hst.procOf]
    exact h.home t ht
  · change (m.core.procs p).waitCode = 0
    rw [hst.procCode]
    exact h.codes p hp
  · obtain ⟨t, ht, hlive, hpc⟩ := h.idle
    refine ⟨t, hst.idleT.trans ht, hlive, ?_⟩
    rcases eq_or_ne t s.cur with rfl | hne
    · rw [pc_after_cur]
      exact hidle ht
    · rwa [pc_after_of_ne hne]
  · change c0.live m.core.current = true
    rw [hcur]
    exact h.cur
  · rcases mem_stack_after hcur hf with ⟨_, hf⟩ | ⟨_, hf⟩ | ⟨_, hf⟩
    · exact hfs.known f hf
    · exact h.known s.cur f (hrest f hf)
    · exact h.known u f hf
  · rcases eq_or_ne u s.cur with rfl | hu
    · rwa [stack_after_cur]
    · rw [stack_after_of_ne hcur hu]
      exact h.once u
  · rcases eq_or_ne u s.cur with rfl | hu
    · rw [stack_after_cur, stack_after_of_ne hcur huv.symm]
      exact hapart v huv.symm
    · rcases eq_or_ne v s.cur with rfl | hv
      · rw [stack_after_cur, stack_after_of_ne hcur hu]
        exact (hapart u hu).symm
      · rw [stack_after_of_ne hcur hu, stack_after_of_ne hcur hv]
        exact h.apart u v huv
  · obtain ⟨code, hcode⟩ := h.told
    obtain ⟨new, hnotes⟩ := hfs.notes
    have hold : ∀ u, ∀ f ∈ s.stack u, ∀ t ret, notes f = some (.threadWaiters t, ret) →
        m.core.state t = .dying ∧ ret = if s.state t = .dying then code t else new := by
      intro u f hf t ret hn
      obtain ⟨hdying, hret⟩ := hcode u f hf t ret hn
      rw [if_pos hdying]
      exact ⟨hst.dying t hdying, hret⟩
    refine ⟨fun t => if s.state t = .dying then code t else new, fun u f hf t ret hn => ?_⟩
    rcases mem_stack_after hcur hf with ⟨_, hf⟩ | ⟨_, hf⟩ | ⟨_, hf⟩
    · rcases hnotes f hf t ret hn with ⟨g, hg, heq⟩ | ⟨halive, hdying, hret⟩
      · refine hold s.cur g ?_ t ret (heq.trans hn)
        rw [hstack]
        exact List.mem_append_left _ hg
      · exact ⟨hdying, hret.trans (if_neg halive).symm⟩
    · exact hold s.cur f (hrest f hf) t ret hn
    · exact hold u f hf t ret hn
  · change u ≠ m.core.current at hne
    rw [hcur] at hne
    rw [stack_after_of_ne hcur hne]
    rcases hst.dead u hu with hd | hn
    · exact h.quiet u hd hne
    · exact hnew u hn hne
  · change m.core.state m.core.current = .dying → _
    rw [show (s.after (fs ++ rest) pc m due).cur = s.cur from hcur, hcur, stack_after_cur]
    exact hexiting
  · change m.core.state m.core.current = .blocked → _
    rw [show (s.after (fs ++ rest) pc m due).cur = s.cur from hcur, hcur, stack_after_cur]
    exact hleaving

theorem active_after (hst : Steady c0 new s.mem.core q m.core q') (ha : Active s u)
    (hu : ¬ new u ∨ u = s.cur) : Active (s.after fs pc m due) u := by
  rcases eq_or_ne u s.cur with rfl | hne
  · exact Or.inr hst.current.symm
  · refine Or.inl fun hd => ?_
    rcases hst.dead u hd with hd | hn
    · exact (ha.resolve_right hne) hd
    · exact (hu.resolve_right hne) hn

/-- What is to wake a thread still is to. -/
theorem serves_after (head fs rest : List Frame) (hstack : s.stack s.cur = head ++ rest)
    (hst : Steady c0 new s.mem.core q m.core q')
    (hnew : ∀ u, new u → u ≠ s.cur → ∀ f ∈ s.stack u, Quiet f)
    (hhead : ∀ f ∈ head, Serves w f → ∃ i ret, f = .pop i ret ∧ .waitNode w ∉ q.get i)
    {f : Frame} (ha : Active s u) (hf : f ∈ s.stack u) (hserves : Serves w f) :
    (∃ v, Active (s.after (fs ++ rest) pc m due) v ∧
      f ∈ (s.after (fs ++ rest) pc m due).stack v) ∨
    ∃ i ret, f = .pop i ret ∧ .waitNode w ∉ q.get i := by
  rcases eq_or_ne u s.cur with rfl | hu
  · rw [hstack] at hf
    rcases List.mem_append.mp hf with hf | hf
    · exact Or.inr (hhead f hf hserves)
    · refine Or.inl ⟨s.cur, active_after hst ha (Or.inr rfl), ?_⟩
      rw [stack_after_cur]
      exact List.mem_append_right _ hf
  · refine Or.inl ⟨u, active_after hst ha (Or.inl fun hn => ?_), ?_⟩
    · exact not_quiet_of_serves hserves (hnew u hn hu f hf)
    · rwa [stack_after_of_ne hst.current hu]

theorem notTaken_after (head fs rest : List Frame) (hstack : s.stack s.cur = head ++ rest)
    (hcur : m.core.current = s.cur)
    (hfs : w ∉ wakeTargets fs) (hno : NotTaken s w) :
    NotTaken (s.after (fs ++ rest) pc m due) w := by
  intro u hin
  rcases eq_or_ne u s.cur with rfl | hu
  · rw [stack_after_cur, wakeTargets_append] at hin
    refine (List.mem_append.mp hin).elim hfs fun hin => hno s.cur ?_
    rw [hstack, wakeTargets_append]
    exact List.mem_append_right _ hin
  · rw [stack_after_of_ne hcur hu] at hin
    exact hno u hin

/-- A thread that the code does nothing to stays where it is in its wait call. -/
theorem WaitInv.kept (h : WaitInv c0 s q) (head fs rest : List Frame)
    (hstack : s.stack s.cur = head ++ rest)
    (hst : Steady c0 new s.mem.core q m.core q')
    (hnew : ∀ u, new u → u ≠ s.cur → ∀ f ∈ s.stack u, Quiet f)
    (hpc : w = s.cur → pc = s.pc w)
    (hasleep : ∀ i, s.pc w = .ret i → ¬ new w ∧ (Asleep s.mem.core q w → Asleep m.core q' w))
    (hcode : (m.core.threads w).waitCode = (s.mem.core.threads w).waitCode)
    (hon : ∀ j, .waitNode w ∈ q'.get j ↔ .waitNode w ∈ q.get j)
    (hdue : due w = s.due w ∨ ∃ i ret, s.due w = none ∧ Registered s w i ∧ due w = some ret ∧
      .pop i ret ∈ fs)
    (hfs : w ∉ wakeTargets fs)
    (hhead : ∀ f ∈ head, Serves w f → ∃ i ret, f = .pop i ret ∧ .waitNode w ∉ q.get i) :
    WaitOk c0 (s.after (fs ++ rest) pc m due) q' w ((s.after (fs ++ rest) pc m due).pc w) := by
  have hsame : (s.after (fs ++ rest) pc m due).pc w = s.pc w := by
    rcases eq_or_ne w s.cur with rfl | hw
    · rw [pc_after_cur, hpc rfl]
    · exact pc_after_of_ne hw
  rw [hsame]
  refine (h.waits w).carry (fun i hi => ⟨fun hb => ?_, (hasleep i hi).2⟩) hcode hon ?_
    (notTaken_after head fs rest hstack hst.current hfs)
    (fun u f ha hf hs => serves_after head fs rest hstack hst hnew hhead ha hf hs)
  · exact (hst.blocked w hb).resolve_right (hasleep i hi).1
  · rcases hdue with hdue | ⟨i, ret, hnone, hreg, hdue, hpop⟩
    · exact Or.inl hdue
    · refine Or.inr ⟨i, ret, s.cur, hnone, hreg, hdue, Or.inr hst.current.symm, ?_⟩
      rw [stack_after_cur]
      exact List.mem_append_left _ hpop

theorem WaitInv.idle_outside (h : WaitInv c0 s q) (hidle : s.mem.core.idleT = some s.cur) :
    s.pc s.cur = .outside := by
  obtain ⟨t, ht, _, hpc⟩ := h.idle
  rw [hidle] at ht
  cases ht
  exact hpc

/-- Code that notifies nobody. -/
theorem WaitInv.calm (h : WaitInv c0 s q) (head fs rest : List Frame)
    (hstack : s.stack s.cur = head ++ rest)
    (hr : Represents listAt m.heap q') (hc : Calm c0 out new s.mem.core q m.core q')
    (hfs : Follows c0 s m.core head fs) (hwakes : wakeTargets fs = [])
    (hnew : ∀ u, new u → u ≠ s.cur → ∀ f ∈ s.stack u, Quiet f)
    (hout : ∀ w i, s.pc w = .ret i → ¬ out w ∧ ¬ new w)
    (hdue : ∀ w, due w = s.due w ∨ ∃ i ret, s.due w = none ∧ Registered s w i ∧
      due w = some ret ∧ .pop i ret ∈ fs)
    (hhead : ∀ f ∈ head, ∀ w, Serves w f → ∃ i ret, f = .pop i ret ∧ q.get i = [])
    (hexiting : m.core.state s.cur = .dying → Exiting (fs ++ rest))
    (hleaving : m.core.state s.cur = .blocked → Leaving (fs ++ rest)) :
    WaitInv c0 (s.after (fs ++ rest) (s.pc s.cur) m due) q' := by
  refine h.next head fs rest hstack hr hc.toSteady hfs hnew h.idle_outside hexiting hleaving
    fun w => ?_
  refine h.kept head fs rest hstack hc.toSteady hnew (fun hw => by rw [hw]) (fun i hi => ?_)
    (hc.waitCode w)
    (hc.mem_waiters h.fits) (hdue w) (by simp [hwakes]) fun f hf hs => ?_
  · exact ⟨(hout w i hi).2, hc.asleep w (hout w i hi).1⟩
  · obtain ⟨i, ret, heq, hnil⟩ := hhead f hf w hs
    exact ⟨i, ret, heq, by simp [hnil]⟩

/-- What is known of code holds of the state that it leads to. -/
theorem post_of_run {β : Type} {p : Kernel β} {b : β} {Q : β → Core → KernelSeqs → Prop}
    (hr : Represents listAt s.mem.heap q) (hwp : Wp listAt p Q s.mem.core q)
    (hrun : p s.mem = some (b, m)) : ∃ q', Represents listAt m.heap q' ∧ Q b m.core q' := by
  obtain ⟨b', c', h', q', heq, hr', hQ⟩ := hwp s.mem.heap hr
  have hsame := heq.symm.trans hrun
  simp only [Option.some.injEq, Prod.mk.injEq] at hsame
  obtain ⟨rfl, rfl⟩ := hsame
  exact ⟨q', hr', hQ⟩

theorem onList_iff {i : ListId} {a : NodeAddr} (hr : Represents listAt s.mem.heap q)
    (hi : (q i).isSome) : OnList s i a ↔ a ∈ q.get i := by
  obtain ⟨xs, hxs⟩ := Option.isSome_iff_exists.mp hi
  rw [Seqs.get_of_eq hxs]
  refine ⟨fun ⟨ys, hys, ha⟩ => ?_, fun ha => ⟨xs, hr.lists i xs hxs, ha⟩⟩
  rwa [(hr.lists i xs hxs).unique hys]

theorem accessible_of_threads {i : ListId} (hi : HoldsThreads i) : Core.Accessible c0 i := by
  cases i <;> first | exact hi.elim | trivial

variable {f : Frame}

/-- A thread that has left `schedule` runs. -/
theorem WaitInv.runs (h : WaitInv c0 s q) (hstack : s.stack s.cur = f :: rest) (hq : Quiet f)
    (hf : ¬ Leaves f) : s.state s.cur ≠ .blocked ∧ s.state s.cur ≠ .dying := by
  refine ⟨fun hs => ?_, fun hs => ?_⟩
  · obtain ⟨g, after, heq, hg⟩ := h.leaving hs
    rw [hstack] at heq
    cases heq
    exact hf hg
  · have hexit := h.exiting hs
    rw [hstack] at hexit
    rcases hexit.head with ⟨hg, _⟩ | ⟨hno, _⟩
    · exact hf hg
    · exact hno hq

/-- Code outside of `schedule` that notifies nobody. -/
theorem WaitInv.ordinary (h : WaitInv c0 s q) (hstack : s.stack s.cur = f :: rest) (hq : Quiet f)
    (hf : ¬ Leaves f) (hr : Represents listAt m.heap q')
    (hc : Calm c0 out new s.mem.core q m.core q') (hfs : Follows c0 s m.core [f] fs)
    (hwakes : wakeTargets fs = []) (hcur : ¬ new s.cur)
    (hnew : ∀ u, new u → ∀ f ∈ s.stack u, Quiet f)
    (hout : ∀ w i, s.pc w = .ret i → ¬ out w ∧ ¬ new w) :
    WaitInv c0 (s.after (fs ++ rest) (s.pc s.cur) m s.due) q' := by
  obtain ⟨hb, hd⟩ := h.runs hstack hq hf
  refine h.calm [f] _ _ hstack hr hc hfs hwakes (fun u hu _ => hnew u hu) hout
    (fun w => Or.inl rfl) (fun g hg w hs => ?_) (fun hs => ?_) fun hs => ?_
  · rw [List.mem_singleton.mp hg] at hs
    exact absurd hq (not_quiet_of_serves hs)
  · exact absurd ((hc.dead _ hs).resolve_right hcur) hd
  · exact absurd ((hc.blocked _ hs).resolve_right hcur) hb

/-- A piece of `schedule`, before it leaves its thread. -/
theorem WaitInv.leaves (h : WaitInv c0 s q) {g : Frame} (hstack : s.stack s.cur = f :: rest)
    (hf : Leaves f) (hg : Leaves g) (hr : Represents listAt m.heap q')
    (hc : Calm c0 out (fun _ => False) s.mem.core q m.core q') (hknown : Known c0 g)
    (hout : ∀ w i, s.pc w = .ret i → ¬ out w) :
    WaitInv c0 (s.after (g :: rest) (s.pc s.cur) m s.due) q' := by
  have hquiet : ∀ f' ∈ [g], Quiet f' ∧ Known c0 f' := by
    intro f' hf'
    rw [List.mem_singleton.mp hf']
    exact ⟨quiet_of_leaves hg, hknown⟩
  refine h.calm [f] [g] _ hstack hr hc (follows_of_quiet hquiet)
    (wakeTargets_of_quiet fun f' hf' => (hquiet f' hf').1) (fun u hu => hu.elim)
    (fun w i hi => ⟨hout w i hi, id⟩) (fun w => Or.inl rfl) (fun f' hf' w hs => ?_) (fun hs => ?_)
    fun _ => ⟨g, rest, rfl, hg⟩
  · rw [List.mem_singleton.mp hf'] at hs
    exact absurd (quiet_of_leaves hf) (not_quiet_of_serves hs)
  · have hexit := h.exiting ((hc.dead _ hs).resolve_right id)
    rw [hstack] at hexit
    rcases hexit.head with ⟨_, hrest⟩ | ⟨hno, _⟩
    · exact ⟨[], g, rest, rfl, by simp, hg, hrest⟩
    · exact absurd (quiet_of_leaves hf) hno

/-- The running thread gives up the processor. -/
theorem WaitInv.switched {n : Nat} (h : WaitInv c0 s q) (hstack : s.stack s.cur = .leave n :: rest)
    (hn : n ≠ s.cur) (hready : s.state n = .ready) (hm : m.core = s.mem.core.switchTo n)
    (hr : Represents listAt m.heap q) :
    WaitInv c0 (s.after rest (s.pc s.cur) m s.due) q := by
  obtain ⟨c, heap⟩ := m
  obtain rfl : c = s.mem.core.switchTo n := hm
  set s' := s.after rest (s.pc s.cur) ⟨s.mem.core.switchTo n, heap⟩ s.due with hs'
  have hcur : s'.stack s.cur = rest := stack_after_cur
  have hnext : s'.stack n = .finish :: s.stack n := (if_neg hn).trans (if_pos rfl)
  have hother : ∀ u, u ≠ s.cur → u ≠ n → s'.stack u = s.stack u :=
    fun u hu hun => (if_neg hu).trans (if_neg hun)
  have hpc : ∀ u, s'.pc u = s.pc u := fun u => pc_after_same
  have hmem : ∀ u, ∀ f ∈ s'.stack u, f = .finish ∨ f ∈ s.stack u := by
    intro u f hf
    rcases eq_or_ne u s.cur with rfl | hu
    · rw [hcur] at hf
      rw [hstack]
      exact Or.inr (List.mem_cons_of_mem _ hf)
    rcases eq_or_ne u n with rfl | hun
    · rw [hnext] at hf
      exact List.mem_cons.mp hf
    · rw [hother u hu hun] at hf
      exact Or.inr hf
  have htargets : ∀ u, wakeTargets (s'.stack u) = wakeTargets (s.stack u) := by
    intro u
    rcases eq_or_ne u s.cur with rfl | hu
    · rw [hcur, hstack]
      rfl
    rcases eq_or_ne u n with rfl | hun
    · rw [hnext]
      rfl
    · rw [hother u hu hun]
  have hquiet : s.state s.cur = .dying → ∀ f ∈ rest, Quiet f := by
    intro hs
    have hexit := h.exiting hs
    rw [hstack] at hexit
    exact hexit.head.elim And.right fun hno => absurd trivial hno.1
  have hserves : ∀ w u f, Active s u → f ∈ s.stack u → Serves w f →
      Active s' u ∧ f ∈ s'.stack u := by
    intro w u f ha hf hs
    rcases eq_or_ne u s.cur with rfl | hu
    · rw [hstack] at hf
      rw [hcur]
      rcases List.mem_cons.mp hf with rfl | hf
      · cases hs
      · exact ⟨Or.inl fun hd => not_quiet_of_serves hs (hquiet hd f hf), hf⟩
    refine ⟨Or.inl (ha.resolve_right hu), ?_⟩
    rcases eq_or_ne u n with rfl | hun
    · rw [hnext]
      exact List.mem_cons_of_mem _ hf
    · rwa [hother u hu hun]
  refine ⟨hr, h.lists, h.fits, h.live, h.liveProcs, h.home, h.codes, ?_, ?_, fun u f hf => ?_,
    fun u => ?_, fun u v huv => ?_, ?_, fun u hu hne f hf => ?_, fun hs => ?_, fun hs => ?_,
    fun w => ?_⟩
  · obtain ⟨t, ht, hlive, hout⟩ := h.idle
    exact ⟨t, ht, hlive, (hpc t).trans hout⟩
  · exact h.known s.cur (.leave n) (by rw [hstack]; exact List.mem_cons_self)
  · rcases hmem u f hf with rfl | hf
    · trivial
    · exact h.known u f hf
  · rw [htargets]
    exact h.once u
  · rw [htargets, htargets]
    exact h.apart u v huv
  · obtain ⟨code, hcode⟩ := h.told
    refine ⟨code, fun u f hf t ret hnote => ?_⟩
    rcases hmem u f hf with rfl | hf
    · cases hnote
    · exact hcode u f hf t ret hnote
  · rcases hmem u f hf with rfl | hold
    · trivial
    rcases eq_or_ne u s.cur with rfl | huc
    · rw [hcur] at hf
      exact hquiet hu f hf
    · exact h.quiet u hu huc f hold
  · exact absurd (hready.symm.trans hs) (by decide)
  · exact absurd (hready.symm.trans hs) (by decide)
  · rw [hpc]
    refine (h.waits w).carry (fun _ _ => ⟨id, id⟩) rfl (fun _ => Iff.rfl) (Or.inl rfl)
      (fun hno u => ?_) fun u f ha hf hs => Or.inl ⟨u, hserves w u f ha hf hs⟩
    rw [htargets]
    exact hno u

/-- Code of a notification. -/
theorem WaitInv.notifies (h : WaitInv c0 s q) (fs : List Frame) (hstack : s.stack s.cur = f :: rest)
    (hf : ¬ Quiet f) (hst : Steady c0 (fun _ => False) s.mem.core q m.core q')
    (hfs : ∀ g ∈ fs, ¬ Quiet g) :
    (m.core.state s.cur = .dying → Exiting (fs ++ rest)) ∧
      (m.core.state s.cur = .blocked → Leaving (fs ++ rest)) := by
  refine ⟨fun hs => ?_, fun hs => ?_⟩
  · have hexit := h.exiting ((hst.dead _ hs).resolve_right id)
    rw [hstack] at hexit
    rcases hexit.head with ⟨hl, _⟩ | ⟨_, hrest⟩
    · exact absurd (quiet_of_leaves hl) hf
    · exact hrest.push hfs
  · obtain ⟨g, after, heq, hg⟩ := h.leaving ((hst.blocked _ hs).resolve_right id)
    rw [hstack] at heq
    cases heq
    exact absurd (quiet_of_leaves hg) hf

theorem WaitInv.known_head (h : WaitInv c0 s q) (hstack : s.stack s.cur = f :: rest) :
    Known c0 f := by
  refine h.known s.cur f ?_
  rw [hstack]
  exact List.mem_cons_self

/-- All that are registered are due to be woken from now on. -/
theorem WaitInv.notify {i : ListId} {ret : Int} (h : WaitInv c0 s q)
    (hstack : s.stack s.cur = .notify i ret :: rest)
    (hrun : (Frame.notify i ret).run s.mem = some (fs, m)) :
    ∃ q', WaitInv c0 (s.after (fs ++ rest) (s.pc s.cur) m (s.marks (.notify i ret) fs)) q' := by
  have heq : some ([Frame.pop i ret], s.mem) = some (fs, m) := hrun
  simp only [Option.some.injEq, Prod.mk.injEq] at heq
  obtain ⟨rfl, rfl⟩ := heq
  have hknown : Known c0 (.notify i ret) := h.known_head hstack
  have hc : Calm c0 (fun _ => False) (fun _ => False) s.mem.core q s.mem.core q :=
    Calm.refl h.fits
  have hfs : Follows c0 s s.mem.core [.notify i ret] [.pop i ret] := by
    refine ⟨fun f hf => ?_, Or.inl rfl, 0, fun f hf t code hn => Or.inl ⟨_, List.mem_cons_self, ?_⟩⟩
    · rw [List.mem_singleton.mp hf]
      exact hknown
    · rw [List.mem_singleton.mp hf]
      rfl
  obtain ⟨hexit, hleave⟩ := h.notifies [.pop i ret] hstack id hc.toSteady (by simp [Quiet])
  refine ⟨q, h.calm [.notify i ret] _ _ hstack h.represents hc hfs rfl (fun u hu => hu.elim)
    (fun _ _ _ => ⟨id, id⟩) (fun w => ?_) (fun f hf w hs => ?_) hexit hleave⟩
  · by_cases hw : Registered s w i ∧ s.due w = none
    · exact Or.inr ⟨i, ret, hw.2, hw.1, if_pos hw, List.mem_cons_self⟩
    · exact Or.inl (if_neg hw)
  · rw [List.mem_singleton.mp hf] at hs
    cases hs

/-- The list of a waiter is the one that its node is on. -/
theorem WaitInv.list_eq {i j : ListId} {a : NodeAddr} (h : WaitInv c0 s q) (hi : a ∈ q.get i)
    (hj : a ∈ q.get j) : i = j := by
  by_contra hne
  exact h.represents.disjoint i j hne hi hj

/-- A waiter that a notification takes off its list is due to be woken by it. -/
theorem WaitInv.due_of_told {i : ListId} {ret : Int} (h : WaitInv c0 s q)
    (hstack : s.stack s.cur = .pop i ret :: rest) (hdue : DueOk s w i) :
    s.due w = none ∨ s.due w = some ret := by
  rcases hw : s.due w with _ | code
  · exact Or.inl rfl
  · refine Or.inr (congrArg some ?_)
    obtain ⟨u, _, hpop⟩ := hdue code hw
    obtain ⟨hi, _, hret⟩ := h.known_head hstack
    have hcur : .pop i ret ∈ s.stack s.cur := by
      rw [hstack]
      exact List.mem_cons_self
    cases i with
    | threadWaiters t =>
        obtain ⟨told, htold⟩ := h.told
        rw [(htold u _ hpop t code rfl).2, (htold s.cur _ hcur t ret rfl).2]
    | procWaiters p => rw [hret p rfl, (h.known u _ hpop).2.2 p rfl]
    | _ => exact hi.elim

/-- The waiter whose node a notification may take off has gone to sleep. -/
theorem WaitInv.asleep_of_first {i : ListId} {ret : Int} {xs : List NodeAddr} (h : WaitInv c0 s q)
    (hstack : s.stack s.cur = .pop i ret :: rest) (hi : (q i).isSome)
    (hsound : FrameSound s (.pop i ret)) (hq : q.get i = .waitNode w :: xs) :
    s.pc w = .ret i ∧ Asleep s.mem.core q w ∧ NotTaken s w ∧
      (s.due w = none ∨ s.due w = some ret) := by
  have hin : .waitNode w ∈ q.get i := by
    rw [hq]
    exact List.mem_cons_self
  have hlist : IsList s.mem.heap (listAt i) (.waitNode w :: xs) := by
    obtain ⟨ys, hys⟩ := Option.isSome_iff_exists.mp hi
    rw [← hq, Seqs.get_of_eq hys]
    exact h.represents.lists i ys hys
  have hpc := hsound w xs hlist
  have hw := h.waits w
  revert hw hpc
  generalize s.pc w = pc
  intro hpc hw
  cases hw with
  | outside hoff => exact absurd hin (hoff i)
  | register _ hoff => exact absurd hin (hoff i)
  | listed hj =>
      obtain rfl := h.list_eq hin hj
      exact absurd rfl hpc
  | asleep hasleep hj hdue hno =>
      obtain rfl := h.list_eq hin hj
      exact ⟨rfl, hasleep, hno, h.due_of_told hstack hdue⟩
  | taken _ hoff => exact absurd hin (hoff i)
  | woken _ _ hoff => exact absurd hin (hoff i)

theorem WaitInv.pop_some {i : ListId} {ret : Int} {xs : List NodeAddr} (h : WaitInv c0 s q)
    (hstack : s.stack s.cur = .pop i ret :: rest) (hi : (q i).isSome)
    (hsound : FrameSound s (.pop i ret)) (hq : q.get i = .waitNode w :: xs)
    (hstill : Still s.mem.core m.core) (hr : Represents listAt m.heap (q.set i xs)) :
    WaitInv c0 (s.after (.wake ret w :: .pop i ret :: rest) (s.pc s.cur) m
      (s.marks (.pop i ret) [.wake ret w, .pop i ret])) (q.set i xs) := by
  obtain ⟨hpc, hasleep, hno, hdue⟩ := h.asleep_of_first hstack hi hsound hq
  have hknown : Known c0 (.pop i ret) := h.known_head hstack
  have hblocked : (q.set i xs).get .blockedThreads = q.get .blockedThreads :=
    Seqs.get_set_of_ne hknown.1.ne_blocked.symm _
  have hfits : ∀ a ∈ xs, Core.Fits c0 i a := fun a ha => h.fits i a <| by
    rw [hq]
    exact List.mem_cons_of_mem _ ha
  have hst : Steady c0 (fun _ => False) s.mem.core q m.core (q.set i xs) :=
    ((Steady.refl h.fits).alike hstill.1).set hfits
  have hfs : Follows c0 s m.core [] [.wake ret w] := by
    refine ⟨fun f hf => ?_, Or.inr ⟨w, rfl, Or.inr hno⟩, 0, fun f hf t code hn => ?_⟩
    · rw [List.mem_singleton.mp hf]
      trivial
    · rw [List.mem_singleton.mp hf] at hn
      cases hn
  obtain ⟨hexit, hleave⟩ := h.notifies [.wake ret w, .pop i ret] hstack id hst
    (by simp [Quiet])
  refine h.next [] [.wake ret w] (.pop i ret :: rest) hstack hr hst hfs
    (fun u hu => hu.elim) h.idle_outside hexit hleave fun v => ?_
  rcases eq_or_ne v w with rfl | hv
  · rw [pc_after_same, hpc]
    refine .taken (u := s.cur) (f := .wake ret v) ⟨(hstill.1.state v).trans hasleep.1, ?_⟩
      (fun j => ?_) ?_ hknown (Or.inr hst.current.symm) ?_ (Or.inl rfl)
    · rw [hblocked]
      exact hasleep.2
    · rcases eq_or_ne j i with rfl | hji
      · rw [Seqs.get_set_same]
        have hnodup := (apart_of_represents h.represents).nodup j
        rw [hq] at hnodup
        exact (List.nodup_cons.mp hnodup).1
      · rw [Seqs.get_set_of_ne hji]
        intro hj
        refine hji (h.list_eq hj ?_)
        rw [hq]
        exact List.mem_cons_self
    · change (if v = v ∧ s.due v = none then some ret else s.due v) = some ret
      rcases hdue with hnone | hsome
      · rw [if_pos ⟨rfl, hnone⟩]
      · rw [hsome, ite_self]
    · rw [stack_after_cur]
      exact List.mem_cons_self
  · refine h.kept [] _ _ hstack hst (fun u hu => hu.elim) (fun hw => by rw [hw])
      (fun j _ => ⟨id, fun ha => ⟨(hstill.1.state v).trans ha.1, ?_⟩⟩) (hstill.2 v) (fun j => ?_)
      (Or.inl (if_neg fun heq => hv heq.1)) ?_ fun f hf => absurd hf List.not_mem_nil
    · rw [hblocked]
      exact ha.2
    · rcases eq_or_ne j i with rfl | hji
      · rw [Seqs.get_set_same, hq]
        simp [hv]
      · rw [Seqs.get_set_of_ne hji]
    · exact fun hin => hv (List.mem_singleton.mp hin)

/-- The loop of a notification takes off the next waiter, or ends. -/
theorem WaitInv.pop {i : ListId} {ret : Int} (h : WaitInv c0 s q)
    (hstack : s.stack s.cur = .pop i ret :: rest) (hsound : FrameSound s (.pop i ret))
    (hrun : (Frame.pop i ret).run s.mem = some (fs, m)) :
    ∃ q', WaitInv c0 (s.after (fs ++ rest) (s.pc s.cur) m (s.marks (.pop i ret) fs)) q' := by
  have hknown : Known c0 (.pop i ret) := h.known_head hstack
  have hi := h.lists i hknown.2.1
  obtain ⟨q', hr, hstill, ⟨rfl, hnil, rfl⟩ | ⟨w, xs, rfl, hq, rfl⟩⟩ :=
    post_of_run h.represents (wp_run_pop ret h.fits hknown.1 hi) hrun
  · have h0 : Calm c0 (fun _ => False) (fun _ => False) s.mem.core q' s.mem.core q' :=
      Calm.refl h.fits
    have hc := h0.still hstill
    obtain ⟨hexit, hleave⟩ := h.notifies [] hstack id hc.toSteady (by simp)
    refine ⟨q', h.calm [.pop i ret] _ _ hstack hr hc (follows_of_quiet (by simp)) rfl
      (fun u hu => hu.elim) (fun _ _ _ => ⟨id, id⟩) (fun w => Or.inl rfl) (fun f hf w _ => ?_)
      hexit hleave⟩
    exact ⟨i, ret, List.mem_singleton.mp hf, hnil⟩
  · exact ⟨_, h.pop_some hstack hi hsound hq hstill hr⟩

/-- A thread that the next piece of code is to wake is asleep, and gets the code that it is
due to get. -/
theorem WaitInv.taken_of_wakes (h : WaitInv c0 s q) (hstack : s.stack s.cur = f :: rest)
    (hf : wakes f = some w) : ∃ i ret, s.pc w = .ret i ∧ Asleep s.mem.core q w ∧
      (∀ j, .waitNode w ∉ q.get j) ∧ s.due w = some ret ∧ Known c0 (.pop i ret) ∧
      WakesWith s.mem.core w ret f := by
  have hcur : w ∈ wakeTargets (s.stack s.cur) := by
    rw [hstack]
    exact List.mem_filterMap.mpr ⟨f, List.mem_cons_self, hf⟩
  have hw := h.waits w
  generalize s.pc w = pc at hw ⊢
  cases hw with
  | outside _ hno => exact absurd hcur (hno s.cur)
  | register _ _ hno => exact absurd hcur (hno s.cur)
  | listed _ _ hno => exact absurd hcur (hno s.cur)
  | asleep _ _ _ hno => exact absurd hcur (hno s.cur)
  | woken _ _ _ _ _ hno => exact absurd hcur (hno s.cur)
  | @taken i ret u g hasleep hoff hdue hknown _ hg hwakes =>
      refine ⟨i, ret, rfl, hasleep, hoff, hdue, hknown, ?_⟩
      have hgw : wakes g = some w := by
        rcases hwakes with rfl | ⟨rfl, _⟩
        · rfl
        · rfl
      -- it is in one place of one stack only
      obtain rfl : u = s.cur := by
        by_contra hne
        exact h.apart u s.cur hne (List.mem_filterMap.mpr ⟨g, hg, hgw⟩) hcur
      have honce := h.once s.cur
      rw [hstack, wakeTargets, List.filterMap_cons_some hf] at honce
      rw [hstack] at hg
      rcases List.mem_cons.mp hg with rfl | hg
      · exact hwakes
      · exact absurd (List.mem_filterMap.mpr ⟨g, hg, hgw⟩) (List.nodup_cons.mp honce).1

theorem WaitInv.wake {ret : Int} (h : WaitInv c0 s q) (hstack : s.stack s.cur = .wake ret w :: rest)
    (hrun : (Frame.wake ret w).run s.mem = some (fs, m)) :
    ∃ q', WaitInv c0 (s.after (fs ++ rest) (s.pc s.cur) m s.due) q' := by
  obtain ⟨i, code, hpc, hasleep, hoff, hdue, hknown, hwakes⟩ := h.taken_of_wakes hstack rfl
  obtain rfl : ret = code := by
    rcases hwakes with heq | ⟨heq, _⟩
    · cases heq
      rfl
    · cases heq
  obtain ⟨_, hr, rfl, hcore, rfl⟩ := post_of_run h.represents wp_run_wake hrun
  have ha : Alike s.mem.core m.core := hcore ▸ alike_setWaitCode _ _ _
  have hst : Steady c0 (fun _ => False) s.mem.core _ m.core _ := (Steady.refl h.fits).alike ha
  have hfs : Follows c0 s m.core [.wake ret w] [.unblock w] := by
    refine ⟨fun f hf => ?_, Or.inr ⟨w, rfl, Or.inl rfl⟩, 0, fun f hf t code hn => ?_⟩
    · rw [List.mem_singleton.mp hf]
      trivial
    · rw [List.mem_singleton.mp hf] at hn
      cases hn
  obtain ⟨hexit, hleave⟩ := h.notifies [.unblock w] hstack id hst (by simp [Quiet])
  refine ⟨_, h.next [.wake ret w] _ _ hstack hr hst hfs (fun u hu => hu.elim)
    h.idle_outside hexit hleave fun v => ?_⟩
  rcases eq_or_ne v w with rfl | hv
  · rw [pc_after_same, hpc]
    refine .taken (u := s.cur) (f := .unblock v) ⟨(ha.state v).trans hasleep.1, hasleep.2⟩ hoff
      hdue hknown (Or.inr hst.current.symm) ?_ (Or.inr ⟨rfl, ?_⟩)
    · rw [stack_after_cur]
      exact List.mem_cons_self
    · change (m.core.threads v).waitCode = ret
      simp [hcore, Core.setWaitCode, Core.withThread]
  · refine h.kept [.wake ret w] _ _ hstack hst (fun u hu => hu.elim) (fun hw => by rw [hw])
      (fun j _ => ⟨id, fun hsleep => ⟨(ha.state v).trans hsleep.1, hsleep.2⟩⟩) ?_
      (fun j => Iff.rfl) (Or.inl rfl) (fun hin => hv (List.mem_singleton.mp hin)) fun f hf hs => ?_
    · simp [hcore, Core.setWaitCode, Core.withThread, Function.update_of_ne hv]
    · rw [List.mem_singleton.mp hf] at hs
      cases hs
      exact absurd rfl hv

theorem WaitInv.notTaken_of_wakes (h : WaitInv c0 s q) (hstack : s.stack s.cur = f :: rest)
    (hf : wakes f = some w) (hcur : m.core.current = s.cur) :
    NotTaken (s.after rest pc m due) w := by
  intro u hin
  have honce := h.once s.cur
  rw [hstack, wakeTargets, List.filterMap_cons_some hf] at honce
  rcases eq_or_ne u s.cur with rfl | hu
  · rw [stack_after_cur] at hin
    exact (List.nodup_cons.mp honce).1 hin
  · rw [stack_after_of_ne hcur hu] at hin
    refine h.apart u s.cur hu hin ?_
    rw [hstack, wakeTargets, List.filterMap_cons_some hf]
    exact List.mem_cons_self

/-- `thread_unblock` wakes the waiter. -/
theorem WaitInv.unblock (h : WaitInv c0 s q) (hstack : s.stack s.cur = .unblock w :: rest)
    (hrun : (Frame.unblock w).run s.mem = some (fs, m)) :
    ∃ q', WaitInv c0 (s.after (fs ++ rest) (s.pc s.cur) m s.due) q' := by
  obtain ⟨i, ret, hpc, hasleep, hoff, hdue, hknown, hwakes⟩ := h.taken_of_wakes hstack rfl
  obtain ⟨q', hr, rfl, hstill, rfl⟩ := post_of_run h.represents
    (wp_run_unblock (h.lists .readyThreads trivial) (h.lists .blockedThreads trivial) hasleep) hrun
  have h0 : Steady c0 (fun _ => False) s.mem.core q s.mem.core q := Steady.refl h.fits
  have hst : Steady c0 (fun _ => False) s.mem.core q m.core ((q.set .blockedThreads
      ((q.get .blockedThreads).erase (.node w))).set .readyThreads
      (.node w :: q.get .readyThreads)) := by
    refine (((h0.setState .ready (by simp) fun hd => ?_).set fun a ha => ?_).set
      fun a ha => ?_).alike hstill.1
    · rw [hasleep.1] at hd
      cases hd
    · exact h.fits .blockedThreads a (List.mem_of_mem_erase ha)
    · rcases List.mem_cons.mp ha with rfl | ha
      · exact h.fits .blockedThreads _ hasleep.2
      · exact h.fits .readyThreads a ha
  have hon : ∀ v j, .waitNode v ∈ ((q.set .blockedThreads ((q.get .blockedThreads).erase
      (.node w))).set .readyThreads (.node w :: q.get .readyThreads)).get j ↔
      .waitNode v ∈ q.get j := by
    intro v j
    by_cases hj : HoldsWaiters j
    · rw [Seqs.get_set_of_ne hj.ne_ready, Seqs.get_set_of_ne hj.ne_blocked]
    · exact iff_of_false (not_waitNode_of_fits hst.fits hj) (not_waitNode_of_fits h.fits hj)
  obtain ⟨hexit, hleave⟩ := h.notifies [] hstack id hst (by simp)
  refine ⟨_, h.next [.unblock w] _ _ hstack hr hst (follows_of_quiet (by simp))
    (fun u hu => hu.elim) h.idle_outside hexit hleave fun v => ?_⟩
  rcases eq_or_ne v w with rfl | hv
  · rw [pc_after_same, hpc]
    have hcode : (s.mem.core.threads v).waitCode = ret := by
      rcases hwakes with heq | ⟨_, hcode⟩
      · cases heq
      · exact hcode
    refine .woken (fun hb => ?_) (((hstill.2 v).trans (waitCode_setState _ _ _ _)).trans hcode)
      (fun j hj => hoff j ((hon v j).mp hj)) hdue hknown
      (h.notTaken_of_wakes hstack rfl hst.current)
    rw [WaitState.state, WaitState.after, hstill.1.state, state_setState] at hb
    cases hb
  · have hstate : m.core.state v = s.mem.core.state v :=
      (hstill.1.state v).trans (state_setState_of_ne hv _)
    refine h.kept [.unblock w] _ _ hstack hst (fun u hu => hu.elim) (fun hw => by rw [hw])
      (fun j _ => ⟨id, fun ha => ⟨hstate.trans ha.1, ?_⟩⟩)
      ((hstill.2 v).trans (waitCode_setState _ _ _ _)) (hon v) (Or.inl rfl) List.not_mem_nil
      fun f hf hs => ?_
    · rw [Seqs.get_set_of_ne (by decide), Seqs.get_set_same]
      refine (List.mem_erase_of_ne ?_).mpr ha.2
      simpa using hv
    · rw [List.mem_singleton.mp hf] at hs
      cases hs
      exact absurd rfl hv

theorem WaitInv.wp_lists (h : WaitInv c0 s q) (i : ListId) (hi : HoldsThreads i) :
    (q i).isSome := h.lists i (accessible_of_threads hi)

/-- A piece of `schedule`. -/
theorem WaitInv.schedule (h : WaitInv c0 s q) (hstack : s.stack s.cur = f :: rest)
    (hf : Leaves f) (hsound : FrameSound s f) (hrun : f.run s.mem = some (fs, m)) :
    ∃ q', WaitInv c0 (s.after (fs ++ rest) (s.pc s.cur) m s.due) q' := by
  cases f with
  | schedule =>
      obtain ⟨t, ht, hlive, hpc⟩ := h.idle
      obtain ⟨q', hr, ⟨n, rfl, hn⟩, hc⟩ := post_of_run h.represents (wp_run_schedule h.fits
        (h.wp_lists _ trivial) (h.wp_lists _ trivial) ⟨t, ht, hlive⟩) hrun
      refine ⟨q', h.leaves (g := .switch n) hstack trivial trivial hr hc hn fun w i hi hidle => ?_⟩
      rw [ht] at hidle
      cases hidle
      rw [hpc] at hi
      cases hi
  | switch n =>
      obtain ⟨hands, hoff⟩ := hsound
      have hknown : Known c0 (.switch n) := h.known_head hstack
      obtain ⟨q', hr, rfl, hc⟩ := post_of_run h.represents (wp_run_switch (n := n) h.fits h.wp_lists
        h.cur (fun hs => (hands (Or.inr hs)).1) fun hs i hi hin =>
          hoff hs i hi ((onList_iff h.represents (h.wp_lists i hi)).mpr hin)) hrun
      exact ⟨q', h.leaves (g := .leave n) hstack trivial trivial hr hc hknown fun _ _ _ => id⟩
  | leave n =>
      obtain ⟨q', hr, rfl, rfl, ⟨hc, hrunning⟩ | ⟨hn, hready, hm⟩⟩ :=
        post_of_run h.represents (wp_run_leave h.fits hsound) hrun
      · refine ⟨q', h.calm [.leave n] _ _ hstack hr hc (follows_of_quiet (by simp)) rfl
          (fun u hu => hu.elim) (fun _ _ _ => ⟨id, id⟩) (fun w => Or.inl rfl) (fun f hf w hs => ?_)
          (fun hs => ?_) fun hs => ?_⟩
        · rw [List.mem_singleton.mp hf] at hs
          cases hs
        · exact absurd (hrunning.symm.trans hs) (by decide)
        · exact absurd (hrunning.symm.trans hs) (by decide)
      · exact ⟨q', h.switched hstack hn hready hm hr⟩
  | _ => exact hf.elim

/-- Code that is neither of `schedule` nor of a notification. -/
theorem WaitInv.frame_other (h : WaitInv c0 s q) (hstack : s.stack s.cur = f :: rest)
    (hq : Quiet f) (hf : ¬ Leaves f) (hsound : FrameSound s f)
    (hrun : f.run s.mem = some (fs, m)) :
    ∃ q', WaitInv c0 (s.after (fs ++ rest) (s.pc s.cur) m s.due) q' := by
  obtain ⟨hb, hd⟩ := h.runs hstack hq hf
  -- code that goes on with quiet frames only
  have hquiet : ∀ {q' : KernelSeqs}, Represents listAt m.heap q' →
      (∀ g ∈ fs, Quiet g ∧ Known c0 g) →
      Calm c0 (fun _ => False) (fun _ => False) s.mem.core q m.core q' →
      WaitInv c0 (s.after (fs ++ rest) (s.pc s.cur) m s.due) q' := fun hr hfs hc =>
    h.ordinary hstack hq hf hr hc (follows_of_quiet hfs)
      (wakeTargets_of_quiet fun g hg => (hfs g hg).1) id (fun u hu => hu.elim)
      fun _ _ _ => ⟨id, id⟩
  cases f with
  | finish =>
      obtain ⟨q', hr, hfs, _, hc⟩ := post_of_run h.represents
        (wp_run_finish h.fits (h.wp_lists _ trivial) hb hd) hrun
      refine ⟨q', hquiet hr ?_ hc⟩
      rcases hfs with rfl | ⟨t, rfl, ht⟩
      · simp [Quiet, Known]
      · simp [Quiet, Known, ht]
  | killOther t =>
      obtain ⟨hne, hs, hlive, hidle, hpc⟩ := hsound
      obtain ⟨q', hr, hc, hdying, hfs⟩ := post_of_run h.represents
        (wp_run_killOther h.fits h.wp_lists hs) hrun
      replace hfs := hfs.imp_left And.left
      refine ⟨q', h.ordinary hstack hq hf hr hc ?_ ?_ (fun heq => hne heq.symm)
        (fun u hu => by rwa [hu]) fun w i hi => ?_⟩
      · rcases hfs with rfl | rfl
        · exact follows_of_quiet (by simp)
        · refine ⟨?_, Or.inl rfl, -1, fun g hg u ret hn => Or.inr ?_⟩
          · simp [Known, HoldsWaiters, Core.Accessible, h.live t hlive]
          · rcases List.mem_cons.mp hg with rfl | hg
            · cases hn
              refine ⟨fun hd => ?_, hdying, rfl⟩
              rcases hs with hs | hs <;> exact absurd (hs.symm.trans hd) (by decide)
            · rw [notes_of_quiet (by revert hg; simp [Quiet]; rintro (rfl | rfl) <;> trivial)] at hn
              cases hn
      · rcases hfs with rfl | rfl <;> rfl
      · have hwt : w ≠ t := fun heq => hpc i (Or.inr (heq ▸ hi))
        exact ⟨hwt, hwt⟩
  | cleanup t =>
      have hknown : Known c0 (.cleanup t) := h.known_head hstack
      obtain ⟨q', hr, hfs, hc⟩ := post_of_run h.represents
        (wp_run_cleanup h.fits (h.home t hknown)) hrun
      exact ⟨q', hquiet hr hfs hc⟩
  | procCleanup p =>
      have hknown : Known c0 (.procCleanup p) := h.known_head hstack
      obtain ⟨q', hr, hcore, rfl, hfs⟩ := post_of_run h.represents wp_run_procCleanup hrun
      have hc : Calm c0 (fun _ => False) (fun _ => False) s.mem.core q' m.core q' :=
        hcore ▸ Calm.refl h.fits
      rcases hfs with rfl | rfl
      · exact ⟨q', hquiet hr (by simp) hc⟩
      · refine ⟨q', h.ordinary hstack hq hf hr hc
          ⟨?_, Or.inl rfl, 0, fun g hg t ret hn => ?_⟩ rfl id
          (fun u hu => hu.elim) fun _ _ _ => ⟨id, id⟩⟩
        · have hp : c0.liveProcs p = true := hknown
          simp [Known, HoldsWaiters, Core.Accessible, hp]
        · revert hn
          revert hg
          simp
          rintro (rfl | rfl) <;> simp [notes]
  | unlink p =>
      obtain ⟨q', hr, rfl, hc⟩ := post_of_run h.represents
        (wp_run_unlink h.fits (h.lists .allProcs trivial)) hrun
      exact ⟨q', hquiet hr (by simp) hc⟩
  | freeProc p =>
      obtain ⟨q', hr, hfs, hcore, rfl⟩ := post_of_run h.represents (show Wp listAt
        (Frame.freeProc p).run (fun fs c' q' => fs = [] ∧ c' = s.mem.core.freeProc p ∧ q' = q) _ _
        from Wp.bind (wp_modifyCore (wp_pure ⟨rfl, rfl, rfl⟩))) hrun
      subst hfs
      exact ⟨q', hquiet hr (by simp) (hcore ▸ (Calm.refl h.fits).freeProc p)⟩
  | freeThread t =>
      obtain ⟨q', hr, hfs, hcore, rfl⟩ := post_of_run h.represents (show Wp listAt
        (Frame.freeThread t).run
          (fun fs c' q' => fs = [] ∧ c' = s.mem.core.freeThread t ∧ q' = q) _ _
        from Wp.bind (wp_modifyCore (wp_pure ⟨rfl, rfl, rfl⟩))) hrun
      subst hfs
      exact ⟨q', hquiet hr (by simp) (hcore ▸ (Calm.refl h.fits).freeThread t)⟩
  | enable =>
      obtain ⟨q', hr, hfs, hcore, rfl⟩ := post_of_run h.represents (show Wp listAt
        Frame.enable.run
          (fun fs c' q' => fs = [] ∧ c' = s.mem.core.withInterrupts true ∧ q' = q) _ _
        from Wp.bind (wp_modifyCore (wp_pure ⟨rfl, rfl, rfl⟩))) hrun
      subst hfs
      exact ⟨q', hquiet hr (by simp)
        (hcore ▸ (Calm.refl h.fits).still (still_withInterrupts _ true))⟩
  | notify i ret => exact hq.elim
  | pop i ret => exact hq.elim
  | wake ret w => exact hq.elim
  | unblock w => exact hq.elim
  | _ => exact absurd trivial hf

theorem WaitInv.frame (h : WaitInv c0 s q) (hstack : s.stack s.cur = f :: rest)
    (hsound : FrameSound s f) (hrun : f.run s.mem = some (fs, m)) :
    ∃ q', WaitInv c0 (s.after (fs ++ rest) (s.pc s.cur) m (s.marks f fs)) q' := by
  cases f with
  | notify i ret => exact h.notify hstack hrun
  | pop i ret => exact h.pop hstack hsound hrun
  | wake ret w => exact h.wake hstack hrun
  | unblock w => exact h.unblock hstack hrun
  | schedule => exact h.schedule hstack trivial hsound hrun
  | switch n => exact h.schedule hstack trivial hsound hrun
  | leave n => exact h.schedule hstack trivial hsound hrun
  | _ => exact h.frame_other hstack trivial id hsound hrun

/-- A thread outside of kernel code runs. -/
theorem WaitInv.runs_nil (h : WaitInv c0 s q) (hstack : s.stack s.cur = []) :
    s.state s.cur ≠ .blocked ∧ s.state s.cur ≠ .dying := by
  refine ⟨fun hs => ?_, fun hs => ?_⟩
  · obtain ⟨f, rest, heq, _⟩ := h.leaving hs
    rw [hstack] at heq
    cases heq
  · obtain ⟨before, f, rest, heq, _⟩ := h.exiting hs
    rw [hstack] at heq
    simp at heq

theorem WaitInv.accessible {i : ListId} (h : WaitInv c0 s q)
    (hi : Core.Accessible s.mem.core i) : Core.Accessible c0 i := by
  cases i with
  | threadWaiters t => exact h.live t hi
  | procWaiters p => exact h.liveProcs p hi
  | _ => trivial

/-- The running thread registers. -/
theorem WaitInv.register {i : ListId} (h : WaitInv c0 s q) (hstack : s.stack s.cur = [])
    (hpc : s.pc s.cur = .register i) (hacc : Core.Accessible s.mem.core i)
    (hrun : pcCode (.register i) s.mem = some ((fs, pc), m)) :
    ∃ q', WaitInv c0 (s.after fs pc m (s.pcMarks (.register i))) q' := by
  have hwait := h.waits s.cur
  rw [hpc] at hwait
  obtain ⟨hi, hoff, hno⟩ : HoldsWaiters i ∧ (∀ j, .waitNode s.cur ∉ q.get j) ∧
      NotTaken s s.cur := by
    cases hwait with
    | register hi hoff hno => exact ⟨hi, hoff, hno⟩
  obtain ⟨q', hr, heq, hstill, rfl⟩ :=
    post_of_run h.represents (wp_register (h.lists i (h.accessible hacc)) hoff) hrun
  cases heq
  have hfits : ∀ a ∈ .waitNode s.cur :: q.get i, Core.Fits c0 i a := by
    intro a ha
    rcases List.mem_cons.mp ha with rfl | ha
    · cases i <;> first | exact hi.elim | exact ⟨_, rfl, h.cur⟩
    · exact h.fits i a ha
  have hst : Steady c0 (fun _ => False) s.mem.core q m.core
      (q.set i (.waitNode s.cur :: q.get i)) :=
    ((Steady.refl h.fits).alike hstill.1).set hfits
  have hblocked : (q.set i (.waitNode s.cur :: q.get i)).get .blockedThreads =
      q.get .blockedThreads := Seqs.get_set_of_ne hi.ne_blocked.symm _
  obtain ⟨hb, hd⟩ := h.runs_nil hstack
  refine ⟨q.set i (.waitNode s.cur :: q.get i), h.next [] [] [] hstack
    hr hst (follows_of_quiet (by simp)) (fun u hu => hu.elim) (fun hidle => ?_) (fun hs => ?_)
    (fun hs => ?_) fun w => ?_⟩
  · exact absurd (hpc.symm.trans (h.idle_outside hidle)) (by simp)
  · exact absurd ((hstill.1.state _).symm.trans hs) hd
  · exact absurd ((hstill.1.state _).symm.trans hs) hb
  rcases eq_or_ne w s.cur with rfl | hw
  · rw [pc_after_cur]
    refine .listed ?_ (fun ret hret => ?_)
      (notTaken_after [] _ _ hstack hst.current List.not_mem_nil hno)
    · rw [Seqs.get_set_same]
      exact List.mem_cons_self
    · change Function.update s.due s.cur none s.cur = some ret at hret
      rw [Function.update_self] at hret
      cases hret
  · refine h.kept [] [] [] hstack hst (fun u hu => hu.elim)
      (fun heq => absurd heq hw) (fun j _ => ⟨id, fun ha => ⟨(hstill.1.state w).trans ha.1, ?_⟩⟩)
      (hstill.2 w) (fun j => ?_) (Or.inl (Function.update_of_ne hw _ _)) List.not_mem_nil
      fun f hf => absurd hf List.not_mem_nil
    · rw [hblocked]
      exact ha.2
    · rcases eq_or_ne j i with rfl | hji
      · rw [Seqs.get_set_same]
        simp [hw]
      · rw [Seqs.get_set_of_ne hji]

/-- The running thread goes to sleep. -/
theorem WaitInv.block {i : ListId} (h : WaitInv c0 s q) (hstack : s.stack s.cur = [])
    (hpc : s.pc s.cur = .block i) (hsound : PcSound s (.block i))
    (hrun : pcCode (.block i) s.mem = some ((fs, pc), m)) :
    ∃ q', WaitInv c0 (s.after fs pc m s.due) q' := by
  have hready := h.wp_lists .readyThreads trivial
  have hwp : Wp listAt (pcCode (.block i)) (fun r c' q' => r = ([.schedule], .ret i) ∧
      Asleep c' q' s.cur ∧ Calm c0 (fun u => u = s.cur) (fun u => u = s.cur) s.mem.core q c' q')
      s.mem.core q := by
    apply Wp.bind
    refine (wp_blockCode h.fits hready (h.wp_lists _ trivial) hsound.1
      ((onList_iff h.represents hready).mp hsound.2)).mono ?_
    rintro _ c' q' ⟨rfl, hasleep, hc⟩
    exact wp_pure ⟨rfl, hasleep, hc⟩
  obtain ⟨q', hr, heq, hasleep, hc⟩ := post_of_run h.represents hwp hrun
  cases heq
  have hwait := h.waits s.cur
  rw [hpc] at hwait
  obtain ⟨hin, hdue, hno⟩ : .waitNode s.cur ∈ q.get i ∧ DueOk s s.cur i ∧ NotTaken s s.cur := by
    cases hwait with
    | listed hin hdue hno => exact ⟨hin, hdue, hno⟩
  have hquiet : ∀ f ∈ [Frame.schedule], Quiet f ∧ Known c0 f := by simp [Quiet, Known]
  refine ⟨q', h.next [] [.schedule] [] hstack hr hc.toSteady
    (follows_of_quiet hquiet) (fun u hu hne => absurd hu hne) (fun hidle => ?_) (fun hs => ?_)
    (fun _ => ⟨.schedule, [], rfl, trivial⟩) fun w => ?_⟩
  · exact absurd (hpc.symm.trans (h.idle_outside hidle)) (by simp)
  · exact absurd (hasleep.1.symm.trans hs) (by decide)
  rcases eq_or_ne w s.cur with rfl | hw
  · rw [pc_after_cur]
    refine .asleep hasleep ((hc.mem_waiters h.fits i).mpr hin) (fun ret hret => ?_)
      (notTaken_after [] _ _ hstack hc.current List.not_mem_nil hno)
    obtain ⟨u, hactive, hpop⟩ := hdue ret hret
    refine (serves_after [] [.schedule] [] (w := s.cur) hstack hc.toSteady
      (fun u hu hne => absurd hu hne) (fun f hf => absurd hf List.not_mem_nil) hactive hpop
      trivial).elim id ?_
    rintro ⟨j, code, heq, hnot⟩
    cases heq
    exact absurd hin hnot
  · exact h.kept [] [.schedule] [] hstack hc.toSteady
      (fun u hu hne => absurd hu hne) (fun heq => absurd heq hw) (fun j _ => ⟨hw, hc.asleep w hw⟩)
      (hc.waitCode w) (hc.mem_waiters h.fits) (Or.inl rfl) List.not_mem_nil
      fun f hf => absurd hf List.not_mem_nil

/-- A wait call returns. -/
theorem WaitInv.ret {i : ListId} (h : WaitInv c0 s q) (hstack : s.stack s.cur = [])
    (hpc : s.pc s.cur = .ret i) (hrun : pcCode (.ret i) s.mem = some ((fs, pc), m)) :
    WaitInv c0 (s.after fs pc m s.due) q := by
  have heq : some ((([], .outside) : List Frame × WaitPc), s.mem) = some ((fs, pc), m) := hrun
  cases heq
  obtain ⟨hb, hd⟩ := h.runs_nil hstack
  have hst : Steady c0 (fun _ => False) s.mem.core q s.mem.core q := Steady.refl h.fits
  have hwait := h.waits s.cur
  rw [hpc] at hwait
  refine h.next [] [] [] hstack h.represents hst
    (follows_of_quiet (by simp)) (fun u hu => hu.elim) (fun _ => rfl) (fun hs => absurd hs hd)
    (fun hs => absurd hs hb) fun w => ?_
  rcases eq_or_ne w s.cur with rfl | hw
  · rw [pc_after_cur]
    cases hwait with
    | asleep hasleep => exact absurd hasleep.1 hb
    | taken hasleep => exact absurd hasleep.1 hb
    | woken _ _ hoff _ _ hno =>
        exact .outside hoff (notTaken_after [] _ _ hstack rfl List.not_mem_nil hno)
  · exact h.kept [] [] [] hstack hst (fun u hu => hu.elim)
      (fun heq => absurd heq hw) (fun _ _ => ⟨id, id⟩) rfl (fun _ => Iff.rfl) (Or.inl rfl)
      List.not_mem_nil fun f hf => absurd hf List.not_mem_nil

/-- A wait call begins. -/
theorem WaitInv.wait {i : ListId} (h : WaitInv c0 s q) (hstack : s.stack s.cur = [])
    (hpc : s.pc s.cur = .outside) (hi : HoldsWaiters i)
    (hidle : s.mem.core.idleT ≠ some s.cur) :
    WaitInv c0 (s.after [] (.register i) s.mem s.due) q := by
  obtain ⟨hb, hd⟩ := h.runs_nil hstack
  have hst : Steady c0 (fun _ => False) s.mem.core q s.mem.core q := Steady.refl h.fits
  have hwait := h.waits s.cur
  rw [hpc] at hwait
  refine h.next [] [] [] hstack h.represents hst
    (follows_of_quiet (by simp)) (fun u hu => hu.elim) (fun heq => absurd heq hidle)
    (fun hs => absurd hs hd) (fun hs => absurd hs hb) fun w => ?_
  rcases eq_or_ne w s.cur with rfl | hw
  · rw [pc_after_cur]
    cases hwait with
    | outside hoff hno =>
        exact .register hi hoff (notTaken_after [] _ _ hstack rfl List.not_mem_nil hno)
  · exact h.kept [] [] [] hstack hst (fun u hu => hu.elim)
      (fun heq => absurd heq hw) (fun _ _ => ⟨id, id⟩) rfl (fun _ => Iff.rfl) (Or.inl rfl)
      List.not_mem_nil fun f hf => absurd hf List.not_mem_nil

/-- The running thread exits. -/
theorem WaitInv.exits {after : List Frame} (h : WaitInv c0 s q) (hstack : s.stack s.cur = [])
    (hpc : s.pc s.cur = .outside) (hr : Represents listAt m.heap q')
    (hc : Calm c0 (fun u => u = s.cur) (fun u => u = s.cur) s.mem.core q m.core q')
    (hdying : m.core.state s.cur = .dying) (hafter : ∀ f ∈ after, Quiet f ∧ Known c0 f) :
    WaitInv c0 (s.after (.notify (.threadWaiters s.cur) threadKillSucc :: .schedule :: after)
      .outside m s.due) q' := by
  have hquiet : ∀ f ∈ .schedule :: after, Quiet f ∧ Known c0 f := by
    intro f hf
    rcases List.mem_cons.mp hf with rfl | hf
    · exact ⟨trivial, trivial⟩
    · exact hafter f hf
  have hwakes := wakeTargets_of_quiet fun f hf => (hquiet f hf).1
  have hfs : Follows c0 s m.core []
      (.notify (.threadWaiters s.cur) threadKillSucc :: .schedule :: after) := by
    refine ⟨fun f hf => ?_, Or.inl hwakes, threadKillSucc, fun f hf t ret hn => ?_⟩
    · rcases List.mem_cons.mp hf with rfl | hf
      · exact ⟨trivial, h.cur, by simp⟩
      · exact (hquiet f hf).2
    · rcases List.mem_cons.mp hf with rfl | hf
      · cases hn
        exact Or.inr ⟨(h.runs_nil hstack).2, hdying, rfl⟩
      · rw [notes_of_quiet (hquiet f hf).1] at hn
        cases hn
  have hgoes := h.calm [] _ [] hstack hr hc hfs hwakes
    (fun u hu hne => absurd hu hne) (fun w i hi => ?_) (fun w => Or.inl rfl)
    (fun f hf => absurd hf List.not_mem_nil) (fun _ => ?_) fun hs => ?_
  · rwa [List.append_nil, hpc] at hgoes
  · have hw : w ≠ s.cur := by
      rintro rfl
      rw [hpc] at hi
      cases hi
    exact ⟨hw, hw⟩
  · refine ⟨[.notify (.threadWaiters s.cur) threadKillSucc], .schedule, after, ?_, ?_, trivial,
      fun f hf => (hafter f hf).1⟩
    · rw [List.append_nil]
      rfl
    · simp [Quiet]
  · exact absurd (hdying.symm.trans hs) (by decide)

/-- The running thread goes on with quiet code. -/
theorem WaitInv.pushes (h : WaitInv c0 s q) (hr : Represents listAt m.heap q)
    (hstill : Still s.mem.core m.core) (hfs : ∀ f ∈ fs, Quiet f ∧ Known c0 f)
    (hexiting : s.state s.cur = .dying → fs = [])
    (hleaving : s.state s.cur = .blocked → Leaving (fs ++ s.stack s.cur)) :
    WaitInv c0 (s.after (fs ++ s.stack s.cur) (s.pc s.cur) m s.due) q := by
  have h0 : Calm c0 (fun _ => False) (fun _ => False) s.mem.core q s.mem.core q := Calm.refl h.fits
  have hc := h0.still hstill
  refine h.calm [] _ _ rfl hr hc (follows_of_quiet hfs)
    (wakeTargets_of_quiet fun f hf => (hfs f hf).1) (fun u hu => hu.elim)
    (fun _ _ _ => ⟨id, id⟩) (fun w => Or.inl rfl) (fun f hf => absurd hf List.not_mem_nil)
    (fun hs => ?_) fun hs => hleaving ((hstill.1.state _).symm.trans hs)
  have hs' := (hstill.1.state _).symm.trans hs
  rw [hexiting hs']
  exact h.exiting hs'

/-- A call of the running thread begins. -/
theorem WaitInv.call {a : WaitCall} (h : WaitInv c0 s q) (hstack : s.stack s.cur = [])
    (hpc : s.pc s.cur = .outside) (hsound : CallSound s a)
    (hrun : callCode a s.mem = some ((fs, pc), m)) :
    ∃ q', WaitInv c0 (s.after fs pc m s.due) q' := by
  have hready := h.wp_lists .readyThreads trivial
  obtain ⟨hb, hd⟩ := h.runs_nil hstack
  -- code that only goes on
  have hpushes : ∀ {fs : List Frame} {m : KernelState}, Represents listAt m.heap q →
      Still s.mem.core m.core → (∀ f ∈ fs, Quiet f ∧ Known c0 f) →
      WaitInv c0 (s.after fs .outside m s.due) q := by
    intro fs m hr hstill hfs
    have hgoes := h.pushes hr hstill hfs (fun hs => absurd hs hd) fun hs => absurd hs hb
    rwa [hstack, List.append_nil, hpc] at hgoes
  cases a with
  | threadWait t =>
      have heq : some ((([], .register (.threadWaiters t)) : List Frame × WaitPc), s.mem) =
        some ((fs, pc), m) := hrun
      cases heq
      exact ⟨q, h.wait hstack hpc trivial hsound⟩
  | procWait p =>
      have heq : some ((([], .register (.procWaiters p)) : List Frame × WaitPc), s.mem) =
        some ((fs, pc), m) := hrun
      cases heq
      exact ⟨q, h.wait hstack hpc trivial hsound⟩
  | exit =>
      have hwp : Wp listAt (callCode .exit) (fun r c' q' =>
          r = ([.notify (.threadWaiters s.cur) threadKillSucc, .schedule], .outside) ∧
          c'.state s.cur = .dying ∧
          Calm c0 (fun u => u = s.cur) (fun u => u = s.cur) s.mem.core q c' q') s.mem.core q := by
        apply Wp.bind
        refine (wp_exitCode h.fits hready).mono ?_
        rintro _ c' q' ⟨rfl, hdying, hc⟩
        exact wp_pure ⟨rfl, hdying, hc⟩
      obtain ⟨q', hr, heq, hdying, hc⟩ := post_of_run h.represents hwp hrun
      cases heq
      exact ⟨q', h.exits hstack hpc hr hc hdying (by simp)⟩
  | kill t =>
      obtain ⟨q', hr, hout, ⟨hfs, hstill, rfl⟩ | ⟨_, hfs, hdying, hc⟩⟩ :=
        post_of_run h.represents (wp_killCode t h.fits hready) hrun
      · obtain rfl : fs = _ := hfs
        obtain rfl : pc = _ := hout
        exact ⟨q', hpushes hr hstill (by simp [Quiet, Known])⟩
      · obtain rfl : fs = _ := hfs
        obtain rfl : pc = _ := hout
        exact ⟨q', h.exits hstack hpc hr hc hdying (by simp [Quiet, Known])⟩
  | yield =>
      have heq : some ((([.schedule], .outside) : List Frame × WaitPc), s.mem) =
        some ((fs, pc), m) := hrun
      cases heq
      exact ⟨q, hpushes h.represents ⟨Alike.refl _, fun _ => rfl⟩ (by simp [Quiet, Known])⟩

theorem WaitInv.timer (h : WaitInv c0 s q) (hsound : WaitSound s .timer)
    (hrun : timerCode s.mem = some (fs, m)) :
    ∃ q', WaitInv c0 (s.after (fs ++ s.stack s.cur) (s.pc s.cur) m s.due) q' := by
  obtain ⟨q', hr, hstill, rfl, rfl | ⟨rfl, hfires⟩⟩ := post_of_run h.represents wp_timerCode hrun
  · exact ⟨q', h.pushes hr hstill (by simp) (fun _ => rfl) h.leaving⟩
  · exact ⟨q', h.pushes hr hstill (by simp [Quiet, Known])
      (fun hs => absurd hs (hsound hfires)) fun _ => ⟨.schedule, _, rfl, trivial⟩⟩

/-- One step keeps the invariant. -/
theorem WaitInv.step {e : WaitAct} {s' : WaitState} (h : WaitInv c0 s q)
    (hstep : Guarded WaitStep WaitSound s e s') : ∃ q', WaitInv c0 s' q' := by
  obtain ⟨hsound, hstep⟩ := hstep
  cases hstep with
  | call hstack hpc hrun => exact h.call hstack hpc hsound hrun
  | pc hstack hrun =>
      rw [WaitSound, hstack] at hsound
      generalize hpc : s.pc s.cur = p at hrun hsound ⊢
      cases p with
      | outside => cases hrun
      | register i => exact h.register hstack hpc hsound hrun
      | block i => exact h.block hstack hpc hsound hrun
      | ret i => exact ⟨q, h.ret hstack hpc hrun⟩
  | frame hstack hrun =>
      rw [WaitSound, hstack] at hsound
      exact h.frame hstack hsound hrun
  | timer _ hrun => exact h.timer hsound hrun

end Steps

end Longhorn.WaitInvariant
