import Mathlib.Algebra.Group.Nat.Defs
import Mathlib.Data.List.Range
import Longhorn.ListPrograms

/-!
Threads and processes: `kernel/thread.c` and `kernel/proc.c` as programs over the
thread and process structures and the heap of their list nodes.
-/

namespace Longhorn.ThreadModel

open Longhorn.Foundations.LinkedNodes
open Longhorn.IntrusiveList
open Longhorn.ListRefinement
open Longhorn.ListPrograms

def maxTid : Nat := 512
def maxThreadTicks : Nat := 8
def maxNumThreads : Nat := 8
def threadFailure : Int := 1
def threadCreateFail : Int := 2
def threadKillSucc : Int := 0

inductive ThreadState where
  | ready
  | running
  | blocked
  | dying
  | terminated
  deriving DecidableEq, Repr

/-- The lists of the kernel; a thread or process is named by its address. -/
inductive ListId where
  | readyThreads
  | blockedThreads
  | dyingThreads
  | allProcs
  | threadWaiters (t : Nat)
  | procWaiters (p : Nat)
  deriving DecidableEq, Repr

/-- The list nodes: the sentinels, and the nodes inside threads and processes. -/
inductive NodeAddr where
  | head (i : ListId)
  | tail (i : ListId)
  | node (t : Nat)
  | waitNode (t : Nat)
  | procNode (p : Nat)
  deriving DecidableEq, Repr

def listAt (i : ListId) : ListRef NodeAddr := ⟨.head i, .tail i⟩

/-- `struct thread_info`. -/
structure Thread where
  tid : Nat
  pid : Nat
  ticks : Nat
  state : ThreadState
  childNum : Nat
  waitCode : Int
  proc : Nat

structure Process where
  pid : Nat
  activeThread : Option Nat
  threads : Nat → Option Nat
  numLiveThreads : Nat
  waitCode : Int

/-- What a run has done: changes of lists and of the state of threads, with the
interrupt flag at that moment, and the calls that later steps are judged by. -/
inductive Event where
  | changed (i : ListId) (interrupts : Bool)
  | stateSet (t : Nat) (interrupts : Bool)
  | readyEmpty
  | unblock (t : Nat)
  | release (t : Nat) (wasLive : Bool)
  deriving DecidableEq, Repr

/-- The globals and the structures in memory.  `live`, `liveProcs` and `log` record
what has happened; no code reads them. -/
structure Core where
  threads : Nat → Thread
  procs : Nat → Process
  current : Nat
  idleT : Option Nat
  tids : Nat → Bool
  threadTicks : Nat
  pidCount : Nat
  interrupts : Bool
  live : Nat → Bool
  liveProcs : Nat → Bool
  log : List Event

def Core.state (c : Core) (t : Nat) : ThreadState := (c.threads t).state

def Core.procOf (c : Core) (t : Nat) : Nat := (c.threads t).proc

def Core.note (c : Core) (e : Event) : Core := { c with log := e :: c.log }

def Core.withThread (c : Core) (t : Nat) (f : Thread → Thread) : Core :=
  { c with threads := Function.update c.threads t (f (c.threads t)) }

def Core.withProc (c : Core) (p : Nat) (f : Process → Process) : Core :=
  { c with procs := Function.update c.procs p (f (c.procs p)) }

def Core.withInterrupts (c : Core) (b : Bool) : Core := { c with interrupts := b }

def Core.switchTo (c : Core) (t : Nat) : Core := { c with current := t }

def Core.setWaitCode (c : Core) (t : Nat) (code : Int) : Core :=
  c.withThread t fun ti => { ti with waitCode := code }

/-- The thread exists from now on. -/
def Core.claim (c : Core) (t : Nat) : Core :=
  { c with live := Function.update c.live t true }

abbrev KernelState := Machine Core NodeAddr

/-- Code of the kernel.  `none` is a run that follows a bad pointer or never ends. -/
abbrev Kernel := Prog Core NodeAddr

def reads {β : Type} (f : Core → β) : Kernel β := do
  let c ← readCore
  pure (f c)

/-- The calls that change their list. -/
def changes {β : Type} : ListCall ListId NodeAddr β → Bool
  | .init _ => true
  | .insert _ _ => true
  | .insertEnd _ _ => true
  | .delete _ _ => true
  | .pop _ => true
  | .size _ => false
  | .isEmpty _ => false
  | .first _ => false

def Core.setState (c : Core) (t : Nat) (s : ThreadState) : Core :=
  (c.note (.stateSet t c.interrupts)).withThread t fun ti => { ti with state := s }

def Core.noteCall (c : Core) {β : Type} (k : ListCall ListId NodeAddr β) : Core :=
  if changes k then c.note (.changed k.list c.interrupts) else c

def list {β : Type} (k : ListCall ListId NodeAddr β) : Kernel β := do
  modifyCore fun c => c.noteCall k
  call listAt k

def enableInterrupts : Kernel Unit := modifyCore fun c => c.withInterrupts true

def disableInterrupts : Kernel Unit := modifyCore fun c => c.withInterrupts false

/-- `THREAD_CUR`. -/
def threadCur : Kernel Nat := reads Core.current

def stateOf (t : Nat) : Kernel ThreadState := reads fun c => c.state t

def setState (t : Nat) (s : ThreadState) : Kernel Unit := modifyCore fun c => c.setState t s

/-- `LIST_ENTRY(ptr, struct thread, node)`. -/
def threadOfNode : NodeAddr → Kernel Nat
  | .node t => pure t
  | _ => fault

/-- `LIST_ENTRY(ptr, struct thread, wait_node)`. -/
def threadOfWaitNode : NodeAddr → Kernel Nat
  | .waitNode t => pure t
  | _ => fault

def threadUnblock (thread : Nat) : Kernel Unit := do
  modifyCore fun c => c.note (.unblock thread)
  disableInterrupts
  if (← stateOf thread) ≠ .blocked then enableInterrupts
  else
    match ← list (.delete .blockedThreads (.node thread)) with
    | none => enableInterrupts
    | some node =>
        setState thread .ready
        list (.insert .readyThreads node)
        enableInterrupts

/-- The loop of `thread_notify` and `proc_notify`. -/
def ListId.notifyLoop (waiters : ListId) (all : Bool) (ret : Int) (node : NodeAddr) :
    Kernel Unit := do
  let waitT ← threadOfWaitNode node
  modifyCore fun c => c.setWaitCode waitT ret
  threadUnblock waitT
  match ← list (.pop waiters) with
  | none => pure ()
  | some node => if all then waiters |>.notifyLoop all ret node else pure ()
partial_fixpoint

def notify (waiters : ListId) (all : Bool) (ret : Int) : Kernel Int := do
  match ← list (.pop waiters) with
  | none => pure (-1)
  | some node =>
      waiters.notifyLoop all ret node
      pure 0

def threadNotify (t : Nat) (all : Bool) (ret : Int) : Kernel Int :=
  notify (.threadWaiters t) all ret

def procNotify (p : Nat) (all : Bool) (ret : Int) : Kernel Int :=
  notify (.procWaiters p) all ret

def procCleanup (p : Nat) : Kernel Unit := do
  if (← reads fun c => (c.procs p).numLiveThreads) ≠ 0 then pure ()
  else
    let _ ← procNotify p true 0
    let _ ← list (.delete .allProcs (.procNode p))
    pure ()

/-- The page of a process is given back. -/
def Core.freeProc (c : Core) (p : Nat) : Core :=
  { c with liveProcs := Function.update c.liveProcs p false }

/-- The pages of a thread are given back. -/
def Core.freeThread (c : Core) (t : Nat) : Core :=
  { c.note (.release t (c.live t)) with live := Function.update c.live t false }

def pfreeProc (p : Nat) : Kernel Unit := modifyCore fun c => c.freeProc p

def pfreeThread (t : Nat) : Kernel Unit := modifyCore fun c => c.freeThread t

/-- `num_live_threads` is a `uint8_t`. -/
def Process.endThread (p : Process) (childNum : Nat) : Process :=
  { p with
    threads := Function.update p.threads childNum none
    numLiveThreads := (p.numLiveThreads + 255) % 256 }

def threadCleanup (t : Nat) : Kernel Int := do
  if (← stateOf t) ≠ .dying then pure (-1)
  else
    let tProc ← reads fun c => c.procOf t
    modifyCore fun c => c.withProc tProc fun p => p.endThread (c.threads t).childNum
    if (← reads fun c => (c.procs tProc).numLiveThreads) = 0 then
      procCleanup tProc
      pfreeProc tProc
    pfreeThread t
    pure 0

/-- `num` is a `uint8_t`. -/
def procSetActiveThread (p num : Nat) : Kernel Unit := modifyCore fun c =>
  c.withProc p fun proc => { proc with activeThread := proc.threads (num % 256) }

def finishSchedule : Kernel Unit := do
  let cur ← threadCur
  setState cur .running
  procSetActiveThread (← reads fun c => c.procOf cur) (← reads fun c => (c.threads cur).childNum)
  if (← list (.isEmpty .dyingThreads)) = false then
    disableInterrupts
    match ← list (.pop .dyingThreads) with
    | none => fault
    | some node =>
        let _ ← threadCleanup (← threadOfNode node)
        pure ()
  enableInterrupts

/-- Whether a call that schedules comes back in its own thread, or another thread
runs on. -/
inductive Flow where
  | returned
  | switched
  deriving DecidableEq, Repr

/-- The thread that `schedule` picks, and where it leaves it. -/
def pickNext : Kernel Nat := do
  let next ← if (← list (.size .readyThreads)) = 1 then list (.first .readyThreads)
    else list (.pop .readyThreads)
  match next with
  | none =>
      modifyCore fun c => c.note .readyEmpty
      match ← reads Core.idleT with
      | none => fault
      | some idle =>
          threadUnblock idle
          pure idle
  | some node => threadOfNode node

/-- What `schedule` does with the thread that gives up the processor. -/
def requeue (current : Nat) : Kernel Unit := do
  if (← stateOf current) = .running then setState current .ready
  if (← stateOf current) = .dying then list (.insert .dyingThreads (.node current))
  if (← stateOf current) = .ready then list (.insertEnd .readyThreads (.node current))

/-- The end of `schedule`; behind `switch_threads` the next thread runs. -/
def dispatch (current nextThread : Nat) : Kernel Flow := do
  if current = nextThread ∧ (← stateOf current) = .dying then finishSchedule
  if current = nextThread ∨ (← stateOf nextThread) ≠ .ready then
    setState current .running
    enableInterrupts
    pure .returned
  else
    modifyCore fun c => c.switchTo nextThread
    finishSchedule
    pure .switched

def schedule : Kernel Flow := do
  disableInterrupts
  let nextThread ← pickNext
  let current ← threadCur
  requeue current
  dispatch current nextThread

def threadBlock : Kernel Flow := do
  disableInterrupts
  let cur ← threadCur
  match ← list (.delete .readyThreads (.node cur)) with
  | none =>
      enableInterrupts
      pure .returned
  | some node =>
      if (← stateOf cur) ≠ .running then
        enableInterrupts
        pure .returned
      else
        setState cur .blocked
        list (.insert .blockedThreads node)
        schedule

def threadExit : Kernel Flow := do
  let t ← threadCur
  disableInterrupts
  let _ ← list (.delete .readyThreads (.node t))
  setState t .dying
  let _ ← threadNotify t true threadKillSucc
  schedule

/-- A thread in `state` becomes `THREAD_DYING` and leaves its list; `false` when it
was not there. -/
def detach (thread : Nat) (state : ThreadState) (i : ListId) : Kernel Bool := do
  if (← stateOf thread) = state then
    setState thread .dying
    return (← list (.delete i (.node thread))).isSome
  else pure true

/-- The part of `thread_kill` for a thread that is not running. -/
def killOther (thread : Nat) : Kernel Int := do
  if (← detach thread .ready .readyThreads) = false then
    enableInterrupts
    pure (-1)
  else if (← detach thread .blocked .blockedThreads) = false then
    enableInterrupts
    pure (-1)
  else
    let _ ← threadNotify thread true (-1)
    let _ ← threadCleanup thread
    enableInterrupts
    pure 0

/-- `none` when the calling thread has ended itself. -/
def threadKill (thread : Nat) : Kernel (Option Int) := do
  disableInterrupts
  if (← stateOf thread) = .running then
    match ← threadExit with
    | .switched => pure none
    | .returned => some <$> killOther thread
  else some <$> killOther thread

/-- The part of `thread_wait` before the thread goes on. -/
def threadWait (t : Nat) : Kernel Flow := do
  let cur ← threadCur
  list (.insert (.threadWaiters t) (.waitNode cur))
  threadBlock

def procWait (p : Nat) : Kernel Flow := do
  let cur ← threadCur
  list (.insert (.procWaiters p) (.waitNode cur))
  threadBlock

def allocateTid : Kernel Nat := do
  let tids ← reads Core.tids
  match (List.range maxTid).find? fun i => !tids i with
  | some i =>
      modifyCore fun c => { c with tids := Function.update c.tids i true }
      pure i
  | none => pure (maxTid + 1)

/-- `page` is what `palloc_mult` returns: a page and what its bytes read as. -/
def threadCreate (page : Option (Nat × Thread)) (proc childNum : Nat) : Kernel Int := do
  match page with
  | none => pure (-1)
  | some (t, old) =>
      modifyCore fun c => c.withThread t fun _ => old
      if (← reads fun c => (c.threads t).tid) = maxTid + 1 then pure (-1)
      else
        let tid ← allocateTid
        let pid ← reads fun c => (c.procs proc).pid
        modifyCore fun c => c.withThread t fun ti =>
          { ti with tid := tid, state := .ready, pid := pid, childNum := childNum, proc := proc }
        modifyCore fun c => c.withProc proc fun p =>
          { p with threads := Function.update p.threads childNum (some t) }
        list (.init (.threadWaiters t))
        modifyCore fun c => (c.setWaitCode t 0).claim t
        disableInterrupts
        list (.insert .readyThreads (.node t))
        enableInterrupts
        pure tid

/-- The loop of `proc_create` over the slots of the new page. -/
def terminateSlots (p : Nat) : List Nat → Kernel Unit
  | [] => pure ()
  | i :: rest => do
      match ← reads fun c => (c.procs p).threads i with
      | none => pure ()
      | some t =>
          modifyCore fun c => c.withThread t fun ti =>
            { ti with state := .terminated, childNum := i }
      terminateSlots p rest

def procCreate (page : Option (Nat × Process)) (stack : Option (Nat × Thread)) :
    Kernel (Option Nat) := do
  match page with
  | none => pure none
  | some (p, old) =>
      modifyCore fun c => { c.withProc p fun _ => { old with pid := c.pidCount } with
        pidCount := (c.pidCount + 1) % 2 ^ 32 }
      terminateSlots p (List.range maxNumThreads)
      list (.init (.procWaiters p))
      modifyCore fun c => { c.withProc p fun proc => { proc with waitCode := 0 } with
        liveProcs := Function.update c.liveProcs p true }
      if (← threadCreate stack p 0) ≠ -threadCreateFail then
        modifyCore fun c => c.withProc p fun proc =>
          { proc with numLiveThreads := 1, activeThread := proc.threads 0 }
        list (.insertEnd .allProcs (.procNode p))
        pure (some p)
      else pure none

def procCreateThread (stack : Option (Nat × Thread)) : Kernel Int := do
  let p ← reads fun c => c.procOf c.current
  let slots ← reads fun c => (c.procs p).threads
  match (List.range maxNumThreads).find? fun i => (slots i).isNone with
  | none => pure (-1)
  | some slot =>
      let tid ← threadCreate stack p slot
      if tid ≠ -threadCreateFail then
        modifyCore fun c => c.withProc p fun proc =>
          { proc with numLiveThreads := (proc.numLiveThreads + 1) % 256 }
      pure tid

/-- One round of the loop of `proc_kill`; `some` is the count of threads that are
still alive. -/
def procKillRound (p i : Nat) (numAlive : Int) : Kernel (Option Int) := do
  match ← reads fun c => (c.procs p).threads i with
  | none => pure (some numAlive)
  | some t =>
      if (← stateOf t) ≠ .dying ∧ (← stateOf t) ≠ .running then
        match ← threadKill t with
        | none => pure none
        | some code => pure (some (if code ≠ -1 then numAlive - 1 else numAlive))
      else pure (some numAlive)

def procKillLoop (p : Nat) : List Nat → Int → Kernel (Option Int)
  | [], numAlive => pure (some numAlive)
  | i :: rest, numAlive => do
      match ← procKillRound p i numAlive with
      | none => pure none
      | some numAlive => procKillLoop p rest numAlive

/-- The value stored behind `ret`, unless the thread has ended before. -/
def procKill (p : Nat) : Kernel (Option Int × Flow) := do
  let numAlive ← reads fun c => ((c.procs p).numLiveThreads : Int)
  match ← procKillLoop p (List.range maxNumThreads) numAlive with
  | none => pure (none, .switched)
  | some numAlive =>
      if (← reads fun c => c.procOf c.current) = p ∧ numAlive = 1 then
        return (some (numAlive - 1), ← threadExit)
      else pure (some numAlive, .returned)

def timerInterruptHandler : Kernel Flow := do
  modifyCore fun c =>
    { c.withThread c.current fun ti => { ti with ticks := (ti.ticks + 1) % 2 ^ 32 } with
      threadTicks := (c.threadTicks + 1) % 256 }
  if (← reads Core.threadTicks) % maxThreadTicks = 0 then schedule else pure .returned

def threadYield : Kernel Flow := schedule

def initThreads (init : Nat) (stack : Option (Nat × Thread)) : Kernel Unit := do
  list (.init .readyThreads)
  list (.init .blockedThreads)
  list (.init .dyingThreads)
  let _ ← threadCreate stack init 0
  modifyCore fun c => { c with idleT := (c.procs init).threads 0 }
  modifyCore fun c => c.withThread c.current fun ti => { ti with state := .blocked }

def initProcesses (init : Nat) (stack : Option (Nat × Thread)) : Kernel Unit := do
  list (.init .allProcs)
  modifyCore fun c => { c.withProc init fun p => { p with pid := 0, threads := fun _ => none } with
    pidCount := 1 }
  list (.init (.procWaiters init))
  modifyCore fun c => { c.withProc init fun p => { p with waitCode := 0 } with
    liveProcs := Function.update c.liveProcs init true }
  initThreads init stack
  modifyCore fun c => c.withProc init fun p => { p with activeThread := p.threads 0 }
  list (.insert .allProcs (.procNode init))

end Longhorn.ThreadModel
