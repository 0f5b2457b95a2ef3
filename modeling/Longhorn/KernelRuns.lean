import Longhorn.Foundations.TransitionRuns
import Longhorn.ThreadModel

/-!
Runs of the kernel: the calls that threads and interrupts make, one after another.
-/

namespace Longhorn.KernelRuns

open Longhorn.ListRefinement
open Longhorn.ListPrograms
open Longhorn.ThreadModel

/-- A call with its arguments; `page` and `stack` are what the page allocator returns in
it, with what the memory reads as. -/
inductive KernelOp where
  | init (proc : Nat) (stack : Option (Nat × Thread))
  | create (page : Option (Nat × Thread)) (proc childNum : Nat)
  | block
  | unblock (t : Nat)
  | exit
  | wait (t : Nat)
  | notify (t : Nat) (all : Bool) (ret : Int)
  | kill (t : Nat)
  | yield
  | timer
  | procCreate (page : Option (Nat × Process)) (stack : Option (Nat × Thread))
  | procCreateThread (stack : Option (Nat × Thread))
  | procWait (p : Nat)
  | procNotify (p : Nat) (all : Bool) (ret : Int)
  | procKill (p : Nat)

def ignore {β : Type} (p : Kernel β) : Kernel Unit := do
  let _ ← p
  pure ()

/-- What a call does to the kernel. -/
def execOp : KernelOp → Kernel Unit
  | .init proc stack => initProcesses proc stack
  | .create page proc childNum => ignore (threadCreate page proc childNum)
  | .block => ignore threadBlock
  | .unblock t => threadUnblock t
  | .exit => ignore threadExit
  | .wait t => ignore (threadWait t)
  | .notify t all ret => ignore (threadNotify t all ret)
  | .kill t => ignore (threadKill t)
  | .yield => ignore threadYield
  | .timer => ignore timerInterruptHandler
  | .procCreate page stack => ignore (procCreate page stack)
  | .procCreateThread stack => ignore (procCreateThread stack)
  | .procWait p => ignore (procWait p)
  | .procNotify p all ret => ignore (procNotify p all ret)
  | .procKill p => ignore (procKill p)

/-- The stack page that a call may make a thread of. -/
def KernelOp.stack : KernelOp → Option (Nat × Thread)
  | .init _ stack => stack
  | .create page _ _ => page
  | .procCreate _ stack => stack
  | .procCreateThread stack => stack
  | _ => none

inductive KernelStep : KernelState → KernelOp → KernelState → Prop
  | call {s s' : KernelState} (op : KernelOp) (h : execOp op s = some ((), s')) : KernelStep s op s'

/-- The kernel before `init_processes`: `tids` is zeroed, no thread exists, and all else
may hold anything. -/
structure Fresh (c : Core) : Prop where
  tids : ∀ i, c.tids i = false
  live : ∀ t, c.live t = false
  liveProcs : ∀ p, c.liveProcs p = false
  log : c.log = []

/-- The page allocator gives out no page that is in use. -/
def NewStack (s : KernelState) (op : KernelOp) : Prop :=
  ∀ t old, op.stack = some (t, old) → s.core.live t = false

theorem of_choose {α : Type} {p Q : α → Prop} (h : ∃ x, p x) (hQ : ∀ x, p x → Q x) :
    Q (Classical.choose h) :=
  hQ _ (Classical.choose_spec h)

theorem ensures_reads {β : Type} {P : Core → Prop} {Q : β → Core → Prop} {f : Core → β}
    (h : ∀ c, P c → Q (f c) c) : Ensures (reads f) P Q :=
  Ensures.bind (ensures_readCore (Q := fun b c => Q (f b) c) h) fun _ => ensures_pure fun _ h => h

theorem keeps_reads {P : Core → Prop} {β : Type} (f : Core → β) : Keeps P (reads f) :=
  ensures_reads fun _ h => h

theorem keeps_threadOfNode {P : Core → Prop} (node : NodeAddr) : Keeps P (threadOfNode node) := by
  cases node <;> first | exact keeps_pure _ | exact keeps_fault

theorem keeps_threadOfWaitNode {P : Core → Prop} (node : NodeAddr) :
    Keeps P (threadOfWaitNode node) := by
  cases node <;> first | exact keeps_pure _ | exact keeps_fault

/-- One round of `notifyLoop`, with `loop` for the rounds after it. -/
def notifyRound (waiters : ListId) (all : Bool) (ret : Int) (loop : NodeAddr → Kernel Unit)
    (node : NodeAddr) : Kernel Unit := do
  let waitT ← threadOfWaitNode node
  modifyCore fun c => c.setWaitCode waitT ret
  threadUnblock waitT
  match ← list (.pop waiters) with
  | none => pure ()
  | some node => if all then loop node else pure ()

/-- What holds of every result of the loop, if a round keeps it. -/
theorem notifyLoop_partial {waiters : ListId} {all : Bool} {ret : Int}
    (P : NodeAddr → KernelState → Unit × KernelState → Prop)
    (hstep : ∀ loop, (∀ node m r, loop node m = some r → P node m r) →
      ∀ node m r, notifyRound waiters all ret loop node m = some r → P node m r)
    (node : NodeAddr) (m : KernelState) (r : Unit × KernelState)
    (h : waiters.notifyLoop all ret node m = some r) : P node m r := by
  refine ListId.notifyLoop.fixpoint_induct waiters all ret
    (fun loop => ∀ node m r, loop node m = some r → P node m r) ?_ hstep node m r h
  intro c hc hall
  refine of_choose (Q := fun loop : NodeAddr → Kernel Unit =>
    ∀ node m r, loop node m = some r → P node m r) _ fun s hs => ?_
  intro node m r hr
  by_contra hno
  classical
  -- the loops of the chain agree with one that has no result at `node` and `m`
  have hself := (hs s).mp (by intro n k; constructor)
  have hle := (hs fun n k => if n = node ∧ k = m then none else s n k).mpr ?_
  · have hnone := hle node m
    beta_reduce at hnone
    rw [hr, if_pos ⟨rfl, rfl⟩] at hnone
    cases hnone
  · intro loop hloop n k
    have hn := hself loop hloop n k
    beta_reduce
    by_cases hnk : n = node ∧ k = m
    · obtain ⟨rfl, rfl⟩ := hnk
      rw [if_pos ⟨rfl, rfl⟩]
      rw [hr] at hn
      have hrun := hall loop hloop n k r
      generalize loop n k = o at hn hrun
      cases hn with
      | bot => constructor
      | refl => exact absurd (hrun rfl) hno
    · rw [if_neg hnk]
      exact hn

theorem keeps_notifyLoop_of_round {P : Core → Prop} {waiters : ListId} {all : Bool} {ret : Int}
    (hround : ∀ loop, (∀ node, Keeps P (loop node)) →
      ∀ node, Keeps P (notifyRound waiters all ret loop node)) (node : NodeAddr) :
    Keeps P (waiters.notifyLoop all ret node) := by
  suffices hall : ∀ node m r, waiters.notifyLoop all ret node m = some r →
      P m.core → P r.2.core from fun m b m' hm heq => hall node m (b, m') heq hm
  apply notifyLoop_partial
  intro loop hloop node m r heq hm
  exact hround loop (fun next m b m' hm heq => hloop next m (b, m') heq hm) node m r.1 r.2 hm heq

/-- What a property has to survive for the clean-up of threads and processes to keep it: calls
on the lists in `L`, and the other changes that the clean-up is made of. -/
structure KeepsParts (P : Core → Prop) (L : ListId → Prop) : Prop where
  call : ∀ {β : Type} (k : ListCall ListId NodeAddr β), L k.list → Keeps P (list k)
  withProc : ∀ (p : Core → Nat) (f : Core → Process → Process),
    Keeps P (modifyCore fun c => c.withProc (p c) (f c) : Kernel Unit)
  waitCode : ∀ t code, Keeps P (modifyCore fun c => c.setWaitCode t code : Kernel Unit)
  freeProc : ∀ p, Keeps P (pfreeProc p)
  freeThread : ∀ t, Keeps P (pfreeThread t)
  unblock : ∀ t, Keeps P (threadUnblock t)

section Walks

variable {P : Core → Prop} {L : ListId → Prop}

theorem KeepsParts.notifies (h : KeepsParts P L) {waiters : ListId} (hw : L waiters) (all : Bool)
    (ret : Int) : Keeps P (notify waiters all ret) := by
  apply Keeps.bind (h.call (.pop waiters) hw)
  rintro (_ | node)
  · exact keeps_pure _
  refine Keeps.bind (keeps_notifyLoop_of_round (fun loop hloop node => ?_) node)
    fun _ => keeps_pure _
  apply Keeps.bind (keeps_threadOfWaitNode node)
  intro t
  apply Keeps.bind (h.waitCode t ret)
  intro _
  apply Keeps.bind (h.unblock t)
  intro _
  apply Keeps.bind (h.call (.pop waiters) hw)
  rintro (_ | next)
  · exact keeps_pure _
  · exact keeps_ite (hloop next) (keeps_pure _)

theorem KeepsParts.cleansUp (h : KeepsParts P L) (hwaiters : ∀ p, L (.procWaiters p))
    (hprocs : L .allProcs) (t : Nat) : Keeps P (threadCleanup t) := by
  have hproc : ∀ p, Keeps P (procCleanup p) := by
    intro p
    apply Keeps.bind (keeps_reads _)
    intro _
    apply keeps_ite (keeps_pure _)
    apply Keeps.bind (h.notifies (hwaiters p) _ _)
    intro _
    exact Keeps.bind (h.call _ hprocs) fun _ => keeps_pure _
  have hend : Keeps P (do pfreeThread t; pure 0 : Kernel Int) :=
    Keeps.bind (h.freeThread t) fun _ => keeps_pure _
  apply Keeps.bind (keeps_reads _)
  intro _
  apply keeps_ite (keeps_pure _)
  apply Keeps.bind (keeps_reads _)
  intro p
  apply Keeps.bind (h.withProc _ _)
  intro _
  apply Keeps.bind (keeps_reads _)
  intro _
  split
  · apply Keeps.bind (hproc p)
    intro _
    exact Keeps.bind (h.freeProc p) fun _ => hend
  · exact hend

theorem KeepsParts.picks (h : KeepsParts P L) (hready : L .readyThreads)
    (hempty : Keeps P (modifyCore fun c => c.note .readyEmpty : Kernel Unit)) :
    Keeps P pickNext := by
  apply Keeps.bind (h.call (.size .readyThreads) hready)
  intro _
  split
  all_goals
    refine Keeps.bind (h.call _ ?_) ?_
    · exact hready
    rintro (_ | node)
    · apply Keeps.bind hempty
      intro _
      apply Keeps.bind (keeps_reads _)
      rintro (_ | idle)
      · exact keeps_fault
      apply Keeps.bind (h.unblock idle)
      intro _
      exact keeps_pure _
    · exact keeps_threadOfNode node

theorem keeps_requeue_of {t : Nat} (hset : Keeps P (setState t .ready))
    (hcall : ∀ k : ListCall ListId NodeAddr Unit, Keeps P (list k)) : Keeps P (requeue t) := by
  have hready : Keeps P (do
      if (← stateOf t) = .ready then list (.insertEnd .readyThreads (.node t)) : Kernel Unit) :=
    Keeps.bind (keeps_reads _) fun _ => keeps_ite (hcall _) (keeps_pure _)
  have hdying : Keeps P (do
      if (← stateOf t) = .dying then list (.insert .dyingThreads (.node t))
      if (← stateOf t) = .ready then list (.insertEnd .readyThreads (.node t)) : Kernel Unit) := by
    apply Keeps.bind (keeps_reads _)
    intro _
    split
    · exact Keeps.bind (hcall _) fun _ => hready
    · exact hready
  apply Keeps.bind (keeps_reads _)
  intro _
  split
  · exact Keeps.bind hset fun _ => hdying
  · exact hdying

/-- The current thread is one whose state may be set, by `Q`. -/
theorem KeepsParts.finishes (h : KeepsParts P fun _ => True) {Q : Nat → Prop}
    (hcur : Ensures threadCur P fun cur c => P c ∧ Q cur)
    (hset : ∀ cur, Q cur → Keeps P (setState cur .running))
    (hinterrupts : ∀ b, Keeps P (modifyCore fun c => c.withInterrupts b : Kernel Unit)) :
    Keeps P finishSchedule := by
  refine Ensures.bind hcur fun cur => Ensures.of_and fun hQ => ?_
  apply Keeps.bind (hset cur hQ)
  intro _
  apply Keeps.bind (keeps_reads _)
  intro _
  apply Keeps.bind (keeps_reads _)
  intro _
  apply Keeps.bind (h.withProc _ _)
  intro _
  apply Keeps.bind (h.call _ trivial)
  intro _
  split
  · apply Keeps.bind (hinterrupts false)
    intro _
    apply Keeps.bind (h.call _ trivial)
    rintro (_ | node)
    · exact keeps_fault
    apply Keeps.bind (keeps_threadOfNode node)
    intro t
    apply Keeps.bind (h.cleansUp (fun _ => trivial) trivial t)
    intro _
    exact hinterrupts true
  · exact hinterrupts true

end Walks

/-- Memory that reads as zero everywhere. -/
def zeroedState : KernelState where
  core :=
    { threads := fun _ => ⟨0, 0, 0, .ready, 0, 0, 0⟩
      procs := fun _ => ⟨0, none, fun _ => none, 0, 0⟩
      current := 0
      idleT := none
      tids := fun _ => false
      threadTicks := 0
      pidCount := 0
      interrupts := false
      live := fun _ => false
      liveProcs := fun _ => false
      log := [] }
  heap := fun _ => ⟨none, none⟩

def blankThread : Thread := ⟨0, 0, 0, .ready, 0, 0, 0⟩

end Longhorn.KernelRuns
