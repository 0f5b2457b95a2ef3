import Longhorn.Foundations.TransitionRuns
import Longhorn.ThreadModel

/-!
Waiting and notification piece by piece: every thread has a stack of the kernel code that
it has still to run, and the timer may fire wherever interrupts are enabled.
-/

namespace Longhorn.WaitModel

open Longhorn.IntrusiveList
open Longhorn.ListRefinement
open Longhorn.ListPrograms
open Longhorn.ThreadModel

/-- The code that a thread goes on with; `pop` is the head of the loop of `thread_notify`
and `proc_notify`, `wake` and `unblock` its body. -/
inductive Frame where
  | schedule
  | switch (next : Nat)
  | leave (next : Nat)
  | finish
  | notify (waiters : ListId) (ret : Int)
  | pop (waiters : ListId) (ret : Int)
  | wake (ret : Int) (waitT : Nat)
  | unblock (waitT : Nat)
  | killOther (t : Nat)
  | cleanup (t : Nat)
  | procCleanup (p : Nat)
  | unlink (p : Nat)
  | freeProc (p : Nat)
  | freeThread (t : Nat)
  | enable
  deriving DecidableEq

/-- Where a thread is in `thread_wait` or `proc_wait`: before it registers, before it
blocks, and before it returns. -/
inductive WaitPc where
  | outside
  | register (waiters : ListId)
  | block (waiters : ListId)
  | ret (waiters : ListId)
  deriving DecidableEq

inductive WaitCall where
  | threadWait (t : Nat)
  | procWait (p : Nat)
  | exit
  | kill (t : Nat)
  | yield

/-- The code of a frame up to the next point at which interrupts may be enabled, with what
remains of it. -/
def Frame.run : Frame → Kernel (List Frame)
  | .schedule => do
      disableInterrupts
      pure [.switch (← pickNext)]
  | .switch next => do
      let current ← threadCur
      requeue current
      if current = next ∧ (← stateOf current) = .dying then pure [.finish, .leave next]
      else pure [.leave next]
  | .leave next => do
      let current ← threadCur
      if current = next ∨ (← stateOf next) ≠ .ready then
        setState current .running
        enableInterrupts
        pure []
      else
        modifyCore fun c => c.switchTo next
        pure []
  | .finish => do
      let cur ← threadCur
      setState cur .running
      procSetActiveThread (← reads fun c => c.procOf cur)
        (← reads fun c => (c.threads cur).childNum)
      if (← list (.isEmpty .dyingThreads)) = false then
        disableInterrupts
        match ← list (.pop .dyingThreads) with
        | none => fault
        | some node => pure [.cleanup (← threadOfNode node), .enable]
      else pure [.enable]
  | .notify waiters ret => pure [.pop waiters ret]
  | .pop waiters ret => do
      match ← list (.pop waiters) with
      | none => pure []
      | some node => pure [.wake ret (← threadOfWaitNode node), .pop waiters ret]
  | .wake ret waitT => do
      modifyCore fun c => c.setWaitCode waitT ret
      pure [.unblock waitT]
  | .unblock waitT => do
      threadUnblock waitT
      pure []
  | .killOther t => do
      if (← detach t .ready .readyThreads) = false then
        enableInterrupts
        pure []
      else if (← detach t .blocked .blockedThreads) = false then
        enableInterrupts
        pure []
      else pure [.notify (.threadWaiters t) (-1), .cleanup t, .enable]
  | .cleanup t => do
      if (← stateOf t) ≠ .dying then pure []
      else
        let tProc ← reads fun c => c.procOf t
        modifyCore fun c => c.withProc tProc fun p => p.endThread (c.threads t).childNum
        if (← reads fun c => (c.procs tProc).numLiveThreads) = 0 then
          pure [.procCleanup tProc, .freeProc tProc, .freeThread t]
        else pure [.freeThread t]
  | .procCleanup p => do
      if (← reads fun c => (c.procs p).numLiveThreads) ≠ 0 then pure []
      else pure [.notify (.procWaiters p) 0, .unlink p]
  | .unlink p => do
      let _ ← list (.delete .allProcs (.procNode p))
      pure []
  | .freeProc p => do
      pfreeProc p
      pure []
  | .freeThread t => do
      pfreeThread t
      pure []
  | .enable => do
      enableInterrupts
      pure []

/-- `thread_exit`. -/
def exitCode : Kernel (List Frame) := do
  let t ← threadCur
  disableInterrupts
  let _ ← list (.delete .readyThreads (.node t))
  setState t .dying
  pure [.notify (.threadWaiters t) threadKillSucc, .schedule]

/-- `thread_block`. -/
def blockCode : Kernel (List Frame) := do
  disableInterrupts
  let cur ← threadCur
  match ← list (.delete .readyThreads (.node cur)) with
  | none =>
      enableInterrupts
      pure []
  | some node =>
      if (← stateOf cur) ≠ .running then
        enableInterrupts
        pure []
      else
        setState cur .blocked
        list (.insert .blockedThreads node)
        pure [.schedule]

def callCode : WaitCall → Kernel (List Frame × WaitPc)
  | .threadWait t => pure ([], .register (.threadWaiters t))
  | .procWait p => pure ([], .register (.procWaiters p))
  | .exit => do pure (← exitCode, .outside)
  | .kill t => do
      disableInterrupts
      if (← stateOf t) = .running then pure ((← exitCode) ++ [.killOther t], .outside)
      else pure ([.killOther t], .outside)
  | .yield => pure ([.schedule], .outside)

/-- The next piece of `thread_wait` or `proc_wait`. -/
def pcCode : WaitPc → Kernel (List Frame × WaitPc)
  | .outside => fault
  | .register waiters => do
      list (.insert waiters (.waitNode (← threadCur)))
      pure ([], .block waiters)
  | .block waiters => do pure (← blockCode, .ret waiters)
  | .ret _ => pure ([], .outside)

/-- `timer_interrupt_handler`; the processor masks interrupts in it. -/
def timerCode : Kernel (List Frame) := do
  modifyCore fun c =>
    { c.withThread c.current fun ti => { ti with ticks := (ti.ticks + 1) % 2 ^ 32 } with
      threadTicks := (c.threadTicks + 1) % 256 }
  if (← reads Core.threadTicks) % maxThreadTicks = 0 then
    disableInterrupts
    pure [.schedule]
  else pure []

/-- What the wait call of a thread returns. -/
def waitValue (c : Core) (t : Nat) : ListId → Int
  | .procWaiters p => (c.procs p).waitCode
  | _ => (c.threads t).waitCode

/-- The kernel, what each thread has still to run, and where it is in a wait call.  No code
reads `due`: the code of the notification that a waiter is due to be woken by. -/
structure WaitState where
  mem : KernelState
  stack : Nat → List Frame
  pc : Nat → WaitPc
  due : Nat → Option Int

def WaitState.cur (s : WaitState) : Nat := s.mem.core.current

def WaitState.state (s : WaitState) (t : Nat) : ThreadState := s.mem.core.state t

/-- The thread has put its wait node on the list, and its wait call has not returned. -/
def Registered (s : WaitState) (w : Nat) (waiters : ListId) : Prop :=
  s.pc w = .block waiters ∨ s.pc w = .ret waiters

instance (s : WaitState) (w : Nat) (waiters : ListId) : Decidable (Registered s w waiters) :=
  inferInstanceAs (Decidable (_ ∨ _))

/-- All threads that are registered when a notification begins are due to be woken by it,
and so is every other thread that it takes off the list. -/
def WaitState.marks (s : WaitState) : Frame → List Frame → Nat → Option Int
  | .notify waiters ret, _ => fun w =>
      if Registered s w waiters ∧ s.due w = none then some ret else s.due w
  | .pop _ _, .wake ret waitT :: _ => fun w =>
      if w = waitT ∧ s.due w = none then some ret else s.due w
  | _, _ => s.due

def WaitState.pcMarks (s : WaitState) : WaitPc → Nat → Option Int
  | .register _ => Function.update s.due s.cur none
  | _ => s.due

/-- The running thread goes on with `fs`.  Behind `switch_threads` it is another thread, which
begins with `finish_schedule`. -/
def WaitState.after (s : WaitState) (fs : List Frame) (pc : WaitPc) (mem : KernelState)
    (due : Nat → Option Int) : WaitState where
  mem := mem
  stack := fun t =>
    if t = s.cur then fs
    else if t = mem.core.current then .finish :: s.stack t else s.stack t
  pc := Function.update s.pc s.cur pc
  due := due

inductive WaitAct where
  | call (a : WaitCall)
  | code
  | timer

/-- The steps of the running thread, and the timer. -/
inductive WaitStep : WaitState → WaitAct → WaitState → Prop
  | call {s : WaitState} {a : WaitCall} {fs : List Frame} {pc : WaitPc} {m : KernelState}
      (hstack : s.stack s.cur = []) (hpc : s.pc s.cur = .outside)
      (h : callCode a s.mem = some ((fs, pc), m)) :
      WaitStep s (.call a) (s.after fs pc m s.due)
  | pc {s : WaitState} {fs : List Frame} {pc : WaitPc} {m : KernelState}
      (hstack : s.stack s.cur = []) (h : pcCode (s.pc s.cur) s.mem = some ((fs, pc), m)) :
      WaitStep s .code (s.after fs pc m (s.pcMarks (s.pc s.cur)))
  | frame {s : WaitState} {f : Frame} {fs rest : List Frame} {m : KernelState}
      (hstack : s.stack s.cur = f :: rest) (h : f.run s.mem = some (fs, m)) :
      WaitStep s .code (s.after (fs ++ rest) (s.pc s.cur) m (s.marks f fs))
  | timer {s : WaitState} {fs : List Frame} {m : KernelState}
      (hon : s.mem.core.interrupts = true) (h : timerCode s.mem = some (fs, m)) :
      WaitStep s .timer (s.after (fs ++ s.stack s.cur) (s.pc s.cur) m s.due)

/-- The step, computed. -/
def WaitState.exec (s : WaitState) : WaitAct → Option WaitState
  | .call a =>
      if s.stack s.cur = [] ∧ s.pc s.cur = .outside then
        (callCode a s.mem).map fun r => s.after r.1.1 r.1.2 r.2 s.due
      else none
  | .code =>
      match s.stack s.cur with
      | [] => (pcCode (s.pc s.cur) s.mem).map fun r =>
          s.after r.1.1 r.1.2 r.2 (s.pcMarks (s.pc s.cur))
      | f :: rest => (f.run s.mem).map fun r =>
          s.after (r.1 ++ rest) (s.pc s.cur) r.2 (s.marks f r.1)
  | .timer =>
      if s.mem.core.interrupts = true then
        (timerCode s.mem).map fun r => s.after (r.1 ++ s.stack s.cur) (s.pc s.cur) r.2 s.due
      else none

theorem step_of_exec {s s' : WaitState} {e : WaitAct} (h : s.exec e = some s') :
    WaitStep s e s' := by
  cases e with
  | call a =>
      rw [WaitState.exec] at h
      split at h
      · next hidle =>
          obtain ⟨⟨⟨fs, pc⟩, m⟩, hrun, rfl⟩ := Option.map_eq_some_iff.mp h
          exact .call hidle.1 hidle.2 hrun
      · cases h
  | code =>
      rw [WaitState.exec] at h
      split at h
      · next hstack =>
          obtain ⟨⟨⟨fs, pc⟩, m⟩, hrun, rfl⟩ := Option.map_eq_some_iff.mp h
          exact .pc hstack hrun
      · next f rest hstack =>
          obtain ⟨⟨fs, m⟩, hrun, rfl⟩ := Option.map_eq_some_iff.mp h
          exact .frame hstack hrun
  | timer =>
      rw [WaitState.exec] at h
      split at h
      · next hon =>
          obtain ⟨⟨fs, m⟩, hrun, rfl⟩ := Option.map_eq_some_iff.mp h
          exact .timer hon hrun
      · cases h

/-- The thread will go on: a thread that is dying runs only until it gives up the
processor. -/
def Active (s : WaitState) (u : Nat) : Prop := s.state u ≠ .dying ∨ u = s.cur

/-- The frame belongs to a notification of the list, or is to wake the thread. -/
def Frame.Notifies (waiters : ListId) (w : Nat) : Frame → Prop
  | .notify i _ => i = waiters
  | .pop i _ => i = waiters
  | .wake _ t => t = w
  | .unblock t => t = w
  | _ => False

/-- No notification of the list, nor one that has taken the thread off it, will go on. -/
def Over (s : WaitState) (waiters : ListId) (w : Nat) : Prop :=
  ∀ u, Active s u → ∀ f ∈ s.stack u, ¬ f.Notifies waiters w

/-- A waiter that was registered when a notification began is not left blocked after it, and a
wait call returns the code of the notification. -/
structure NoLostWakeup (s : WaitState) : Prop where
  awake : ∀ w waiters ret, Registered s w waiters → s.due w = some ret → Over s waiters w →
    s.state w ≠ .blocked
  value : ∀ waiters, s.stack s.cur = [] → s.pc s.cur = .ret waiters →
    s.due s.cur = some (waitValue s.mem.core s.cur waiters)

/-- The node is on the list. -/
def OnList (s : WaitState) (i : ListId) (a : NodeAddr) : Prop :=
  ∃ xs, IsList s.mem.heap (listAt i) xs ∧ a ∈ xs

end Longhorn.WaitModel
