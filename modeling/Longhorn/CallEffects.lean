import Longhorn.KernelRuns

/-!
Which threads and processes there are after a call of the kernel: those that were there before,
less those that have ended, and those that the call has made.
-/

namespace Longhorn.CallEffects

open Longhorn.ListRefinement
open Longhorn.ListPrograms
open Longhorn.ThreadModel
open Longhorn.KernelRuns

/-- No thread and no process has come to be. -/
structure Shrinks (c c' : Core) : Prop where
  live : ∀ t, c'.live t = true → c.live t = true
  liveProcs : ∀ p, c'.liveProcs p = true → c.liveProcs p = true

theorem Shrinks.of_eq {c c' : Core} (hlive : c'.live = c.live)
    (hprocs : c'.liveProcs = c.liveProcs) :
    Shrinks c c' := by
  refine ⟨fun t ht => ?_, fun p hp => ?_⟩
  · rwa [hlive] at ht
  · rwa [hprocs] at hp

/-- The property says at most that some threads and processes are not there. -/
def OfLives (P : Core → Prop) : Prop := ∀ c c', Shrinks c c' → P c → P c'

theorem ofLives_shrinks (c : Core) : OfLives (Shrinks c) := fun _ _ hs h =>
  ⟨fun t ht => h.live t (hs.live t ht), fun p hp => h.liveProcs p (hs.liveProcs p hp)⟩

theorem noteCall_lives (c : Core) {β : Type} (k : ListCall ListId NodeAddr β) :
    (c.noteCall k).live = c.live ∧ (c.noteCall k).liveProcs = c.liveProcs := by
  unfold Core.noteCall
  split <;> exact ⟨rfl, rfl⟩

section Calls

variable {P : Core → Prop}

theorem OfLives.modify (hP : OfLives P) {f : Core → Core} (hf : ∀ c, Shrinks c (f c)) :
    Keeps P (modifyCore f : Kernel Unit) :=
  keeps_modifyCore fun c h => hP c (f c) (hf c) h

/-- The update has to do with no thread's or process's coming or going. -/
theorem OfLives.same (hP : OfLives P) {f : Core → Core} (hlive : ∀ c, (f c).live = c.live)
    (hprocs : ∀ c, (f c).liveProcs = c.liveProcs) : Keeps P (modifyCore f : Kernel Unit) :=
  hP.modify fun c => .of_eq (hlive c) (hprocs c)

theorem OfLives.list (hP : OfLives P) {β : Type} (k : ListCall ListId NodeAddr β) :
    Keeps P (ThreadModel.list k) :=
  Keeps.bind (hP.same (fun c => (noteCall_lives c k).1) fun c => (noteCall_lives c k).2)
    fun _ => ensures_call fun _ _ h => h

theorem OfLives.setState (hP : OfLives P) (t : Nat) (s : ThreadState) :
    Keeps P (ThreadModel.setState t s) :=
  hP.same (fun _ => rfl) fun _ => rfl

theorem OfLives.enableInterrupts (hP : OfLives P) : Keeps P ThreadModel.enableInterrupts :=
  hP.same (fun _ => rfl) fun _ => rfl

theorem OfLives.disableInterrupts (hP : OfLives P) : Keeps P ThreadModel.disableInterrupts :=
  hP.same (fun _ => rfl) fun _ => rfl

theorem OfLives.threadUnblock (hP : OfLives P) (t : Nat) :
    Keeps P (ThreadModel.threadUnblock t) := by
  refine Keeps.bind (hP.same (fun _ => rfl) fun _ => rfl) fun _ => ?_
  apply Keeps.bind hP.disableInterrupts
  intro _
  apply Keeps.bind (keeps_reads _)
  intro _
  apply keeps_ite hP.enableInterrupts
  apply Keeps.bind (hP.list _)
  rintro (_ | node)
  · exact hP.enableInterrupts
  apply Keeps.bind (hP.setState _ _)
  intro _
  apply Keeps.bind (hP.list _)
  intro _
  exact hP.enableInterrupts

theorem shrinks_freeProc (c : Core) (p : Nat) : Shrinks c (c.freeProc p) := by
  refine ⟨fun _ ht => ht, fun q hq => ?_⟩
  simp only [Core.freeProc, Function.update_apply] at hq
  split at hq
  · cases hq
  · exact hq

theorem shrinks_freeThread (c : Core) (t : Nat) : Shrinks c (c.freeThread t) := by
  refine ⟨fun u hu => ?_, fun _ hp => hp⟩
  simp only [Core.freeThread, Core.note, Function.update_apply] at hu
  split at hu
  · cases hu
  · exact hu

theorem OfLives.parts (hP : OfLives P) : KeepsParts P fun _ => True where
  call k _ := hP.list k
  withProc _ _ := hP.same (fun _ => rfl) fun _ => rfl
  waitCode _ _ := hP.same (fun _ => rfl) fun _ => rfl
  freeProc p := hP.modify fun c => shrinks_freeProc c p
  freeThread t := hP.modify fun c => shrinks_freeThread c t
  unblock := hP.threadUnblock

theorem OfLives.notify (hP : OfLives P) (waiters : ListId) (all : Bool) (ret : Int) :
    Keeps P (ThreadModel.notify waiters all ret) :=
  hP.parts.notifies trivial all ret

theorem OfLives.finishSchedule (hP : OfLives P) : Keeps P ThreadModel.finishSchedule := by
  refine hP.parts.finishes (Q := fun _ => True) ?_ (fun _ _ => hP.setState _ _) ?_
  · exact ensures_reads fun _ h => ⟨h, trivial⟩
  · exact fun _ => hP.same (fun _ => rfl) fun _ => rfl

theorem OfLives.dispatch (hP : OfLives P) (current next : Nat) :
    Keeps P (ThreadModel.dispatch current next) := by
  have hrest : Keeps P (do
      if current = next ∨ (← stateOf next) ≠ .ready then
        ThreadModel.setState current .running
        ThreadModel.enableInterrupts
        pure .returned
      else
        modifyCore fun c => c.switchTo next
        ThreadModel.finishSchedule
        pure .switched : Kernel Flow) := by
    apply Keeps.bind (keeps_reads _)
    intro _
    split
    · apply Keeps.bind (hP.setState _ _)
      intro _
      apply Keeps.bind hP.enableInterrupts
      intro _
      exact keeps_pure _
    · refine Keeps.bind (hP.same (fun _ => rfl) fun _ => rfl) fun _ => ?_
      apply Keeps.bind hP.finishSchedule
      intro _
      exact keeps_pure _
  apply Keeps.bind (keeps_reads _)
  intro _
  split
  · exact Keeps.bind hP.finishSchedule fun _ => hrest
  · exact hrest

theorem OfLives.schedule (hP : OfLives P) : Keeps P ThreadModel.schedule := by
  apply Keeps.bind hP.disableInterrupts
  intro _
  apply Keeps.bind (hP.parts.picks trivial (hP.same (fun _ => rfl) fun _ => rfl))
  intro next
  apply Keeps.bind (keeps_reads _)
  intro current
  apply Keeps.bind (keeps_requeue_of (hP.setState _ _) hP.list)
  intro _
  exact hP.dispatch current next

theorem OfLives.threadBlock (hP : OfLives P) : Keeps P ThreadModel.threadBlock := by
  have hreturn : Keeps P (do ThreadModel.enableInterrupts; pure .returned : Kernel Flow) :=
    Keeps.bind hP.enableInterrupts fun _ => keeps_pure _
  apply Keeps.bind hP.disableInterrupts
  intro _
  apply Keeps.bind (keeps_reads _)
  intro cur
  apply Keeps.bind (hP.list _)
  rintro (_ | node)
  · exact hreturn
  apply Keeps.bind (keeps_reads _)
  intro _
  split
  · exact hreturn
  · apply Keeps.bind (hP.setState _ _)
    intro _
    apply Keeps.bind (hP.list _)
    intro _
    exact hP.schedule

theorem OfLives.threadExit (hP : OfLives P) : Keeps P ThreadModel.threadExit := by
  apply Keeps.bind (keeps_reads _)
  intro t
  apply Keeps.bind hP.disableInterrupts
  intro _
  apply Keeps.bind (hP.list _)
  intro _
  apply Keeps.bind (hP.setState _ _)
  intro _
  apply Keeps.bind (hP.notify _ _ _)
  intro _
  exact hP.schedule

theorem OfLives.detach (hP : OfLives P) (t : Nat) (state : ThreadState) (i : ListId) :
    Keeps P (ThreadModel.detach t state i) := by
  apply Keeps.bind (keeps_reads _)
  intro _
  split
  · apply Keeps.bind (hP.setState _ _)
    intro _
    apply Keeps.bind (hP.list _)
    intro _
    exact keeps_pure _
  · exact keeps_pure _

theorem OfLives.killOther (hP : OfLives P) (t : Nat) : Keeps P (ThreadModel.killOther t) := by
  have hfail : Keeps P (do ThreadModel.enableInterrupts; pure (-1) : Kernel Int) :=
    Keeps.bind hP.enableInterrupts fun _ => keeps_pure _
  apply Keeps.bind (hP.detach _ _ _)
  intro _
  apply keeps_ite hfail
  apply Keeps.bind (hP.detach _ _ _)
  intro _
  apply keeps_ite hfail
  apply Keeps.bind (hP.notify _ _ _)
  intro _
  apply Keeps.bind (hP.parts.cleansUp (fun _ => trivial) trivial t)
  intro _
  apply Keeps.bind hP.enableInterrupts
  intro _
  exact keeps_pure _

theorem OfLives.threadKill (hP : OfLives P) (t : Nat) : Keeps P (ThreadModel.threadKill t) := by
  have hother : Keeps P (some <$> ThreadModel.killOther t) := by
    rw [map_eq_pure_bind]
    exact Keeps.bind (hP.killOther t) fun _ => keeps_pure _
  apply Keeps.bind hP.disableInterrupts
  intro _
  apply Keeps.bind (keeps_reads _)
  intro _
  split
  · apply Keeps.bind hP.threadExit
    rintro (_ | _)
    · exact hother
    · exact keeps_pure _
  · exact hother

theorem OfLives.procKillLoop (hP : OfLives P) (p : Nat) (slots : List Nat) (numAlive : Int) :
    Keeps P (ThreadModel.procKillLoop p slots numAlive) := by
  induction slots generalizing numAlive with
  | nil => exact keeps_pure _
  | cons i rest ih =>
      have hround : Keeps P (procKillRound p i numAlive) := by
        apply Keeps.bind (keeps_reads _)
        rintro (_ | t)
        · exact keeps_pure _
        apply Keeps.bind (keeps_reads _)
        intro _
        apply Keeps.bind (keeps_reads _)
        intro _
        split
        · apply Keeps.bind (hP.threadKill t)
          rintro (_ | code)
          · exact keeps_pure _
          · exact keeps_pure _
        · exact keeps_pure _
      apply Keeps.bind hround
      rintro (_ | numAlive)
      · exact keeps_pure _
      · exact ih numAlive

theorem OfLives.procKill (hP : OfLives P) (p : Nat) : Keeps P (ThreadModel.procKill p) := by
  apply Keeps.bind (keeps_reads _)
  intro numAlive
  apply Keeps.bind (hP.procKillLoop _ _ _)
  rintro (_ | numAlive)
  · exact keeps_pure _
  apply Keeps.bind (keeps_reads _)
  intro _
  split
  · apply Keeps.bind hP.threadExit
    intro _
    exact keeps_pure _
  · exact keeps_pure _

theorem OfLives.wait (hP : OfLives P) (waiters : ListId) : Keeps P (do
    let cur ← threadCur
    ThreadModel.list (.insert waiters (.waitNode cur))
    ThreadModel.threadBlock : Kernel Flow) := by
  apply Keeps.bind (keeps_reads _)
  intro cur
  apply Keeps.bind (hP.list _)
  intro _
  exact hP.threadBlock

theorem OfLives.timer (hP : OfLives P) : Keeps P timerInterruptHandler := by
  refine Keeps.bind (hP.same (fun _ => rfl) fun _ => rfl) fun _ => ?_
  apply Keeps.bind (keeps_reads _)
  intro _
  exact keeps_ite hP.schedule (keeps_pure _)

end Calls

/-- A slot of the process of the running thread is free. -/
def HasSlot (c : Core) : Prop :=
  ∃ i, i < maxNumThreads ∧ (c.procs (c.procOf c.current)).threads i = none

instance (c : Core) : Decidable (HasSlot c) :=
  decidable_of_iff (∃ i ∈ List.range maxNumThreads,
      (c.procs (c.procOf c.current)).threads i = none) <| by
    simp only [List.mem_range, HasSlot]

/-- Whether `thread_create` is called, with the page that it gets. -/
def stackAsked (c : Core) : KernelOp → Option (Option (Nat × Thread))
  | .init _ stack => some stack
  | .create page _ _ => some page
  | .procCreate page stack => page.map fun _ => stack
  | .procCreateThread stack => if HasSlot c then some stack else none
  | _ => none

/-- Whether a page for a process is asked for, and which one is got. -/
def procAsked : KernelOp → Option (Option Nat)
  | .init proc _ => some (some proc)
  | .procCreate page _ => some (page.map Prod.fst)
  | _ => none

/-- The thread that `thread_create` makes on a page: none when the page reads as that of a thread
that got no id. -/
def threadOn : Option (Nat × Thread) → Option Nat
  | some (t, old) => if old.tid = maxTid + 1 then none else some t
  | none => none

/-- The page that `thread_create` does not make a thread of. -/
def refusedPage : Option (Nat × Thread) → Option Nat
  | some (t, old) => if old.tid = maxTid + 1 then some t else none
  | none => none

def threadMade (c : Core) (op : KernelOp) : Option Nat := (stackAsked c op).bind threadOn

/-- The page of `thread_create` in a call. -/
def stackPage (c : Core) (op : KernelOp) : Option Nat :=
  (stackAsked c op).bind (Option.map Prod.fst)

def stackRefused (c : Core) (op : KernelOp) : Option Nat := (stackAsked c op).bind refusedPage

def procMade (op : KernelOp) : Option Nat := (procAsked op).join

theorem stack_of_stackAsked {c : Core} {op : KernelOp} {stack : Option (Nat × Thread)}
    (h : stackAsked c op = some stack) : op.stack = stack := by
  cases op with
  | procCreate page stack' =>
      obtain ⟨_, _, rfl⟩ := Option.map_eq_some_iff.mp h
      rfl
  | procCreateThread stack' =>
      rw [stackAsked] at h
      split at h
      · exact Option.some_inj.mp h
      · cases h
  | init => exact Option.some_inj.mp h
  | create => exact Option.some_inj.mp h
  | _ => cases h

/-- A page that `thread_create` gets is that of a new thread or is refused. -/
theorem stackPage_eq_some_iff {c : Core} {op : KernelOp} {a : Nat} :
    stackPage c op = some a ↔ threadMade c op = some a ∨ stackRefused c op = some a := by
  unfold stackPage threadMade stackRefused
  rcases stackAsked c op with _ | _ | ⟨t, old⟩
  · simp only [Option.bind_none, reduceCtorEq, or_self]
  · simp only [threadOn, refusedPage, Option.bind_some, Option.map_none, reduceCtorEq, or_self]
  · by_cases hold : old.tid = maxTid + 1 <;> simp [threadOn, refusedPage, hold]

theorem stackRefused_of_made {c : Core} {op : KernelOp} {a : Nat}
    (h : threadMade c op = some a) : stackRefused c op = none := by
  unfold threadMade at h
  unfold stackRefused
  rcases hs : stackAsked c op with _ | _ | ⟨t, old⟩
  · rfl
  · rfl
  · by_cases hold : old.tid = maxTid + 1
    · simp [hs, threadOn, hold] at h
    · simp [refusedPage, hold]

/-- `x`, if there is one, is there from now on. -/
def including (x : Option Nat) (f : Nat → Bool) : Nat → Bool :=
  match x with
  | some a => Function.update f a true
  | none => f

theorem including_iff {x : Option Nat} {f : Nat → Bool} {a : Nat} :
    including x f a = true ↔ x = some a ∨ f a = true := by
  cases x with
  | none => simp [including]
  | some b =>
      rw [including, Function.update_apply, Option.some_inj]
      split
      · next h => exact iff_of_true rfl (Or.inl h.symm)
      · next h => exact ⟨Or.inr, fun ha => ha.resolve_left fun hb => h hb.symm⟩

/-- These threads and processes are there. -/
def Lives (l m : Nat → Bool) (c : Core) : Prop := c.live = l ∧ c.liveProcs = m

section Creation

variable {l m : Nat → Bool}

theorem Lives.same {f : Core → Core} (hlive : ∀ c, (f c).live = c.live)
    (hprocs : ∀ c, (f c).liveProcs = c.liveProcs) :
    Keeps (Lives l m) (modifyCore f : Kernel Unit) :=
  keeps_modifyCore fun c h => ⟨(hlive c).trans h.1, (hprocs c).trans h.2⟩

theorem Lives.list {β : Type} (k : ListCall ListId NodeAddr β) :
    Keeps (Lives l m) (ThreadModel.list k) :=
  Keeps.bind (Lives.same (fun c => (noteCall_lives c k).1) fun c => (noteCall_lives c k).2)
    fun _ => ensures_call fun _ _ h => h

theorem Lives.allocateTid : Keeps (Lives l m) ThreadModel.allocateTid := by
  apply Keeps.bind (keeps_reads _)
  intro tids
  cases (List.range maxTid).find? fun i => !tids i with
  | none => exact keeps_pure _
  | some i =>
      exact Keeps.bind (Lives.same (fun _ => rfl) fun _ => rfl) fun _ => keeps_pure _

theorem ensures_threadCreate (page : Option (Nat × Thread)) (p slot : Nat) :
    Ensures (threadCreate page p slot) (Lives l m)
      fun _ => Lives (including (threadOn page) l) m := by
  rcases page with _ | ⟨t, old⟩
  · exact ensures_pure fun _ h => h
  refine Ensures.bind (ensures_modifyCore (Q := fun _ c => Lives l m c ∧
    (c.threads t).tid = old.tid) fun _ h => ⟨h, ?_⟩) fun _ => ?_
  · simp [Core.withThread]
  refine Ensures.bind (Q := fun tid c => Lives l m c ∧ tid = old.tid)
    (ensures_reads fun _ h => h) fun tid => ?_
  refine Ensures.of_and ?_
  rintro rfl
  split
  · next htid => exact ensures_pure fun _ h => by rwa [threadOn, if_pos htid]
  next htid =>
  rw [threadOn, if_neg htid]
  refine Keeps.andThen Lives.allocateTid fun _ => ?_
  refine Keeps.andThen (keeps_reads _) fun _ => ?_
  refine Keeps.andThen (Lives.same (fun _ => rfl) fun _ => rfl) fun _ => ?_
  refine Keeps.andThen (Lives.same (fun _ => rfl) fun _ => rfl) fun _ => ?_
  refine Keeps.andThen (Lives.list _) fun _ => ?_
  refine Ensures.bind (ensures_modifyCore (Q := fun _ => Lives (including (some t) l) m) ?_)
    fun _ => ?_
  · rintro c ⟨rfl, rfl⟩
    exact ⟨rfl, rfl⟩
  refine Keeps.bind (Lives.same (fun _ => rfl) fun _ => rfl) fun _ => ?_
  refine Keeps.bind (Lives.list _) fun _ => ?_
  exact Keeps.bind (Lives.same (fun _ => rfl) fun _ => rfl) fun _ => keeps_pure _

theorem Lives.terminateSlots (p : Nat) (slots : List Nat) :
    Keeps (Lives l m) (ThreadModel.terminateSlots p slots) := by
  induction slots with
  | nil => exact keeps_pure _
  | cons i rest ih =>
      apply Keeps.bind (keeps_reads _)
      rintro (_ | t)
      · exact ih
      · exact Keeps.bind (Lives.same (fun _ => rfl) fun _ => rfl) fun _ => ih

theorem ensures_procCreate (page : Option (Nat × Process)) (stack : Option (Nat × Thread)) :
    Ensures (procCreate page stack) (Lives l m) fun _ =>
      Lives (including (page.bind fun _ => threadOn stack) l)
        (including (page.map Prod.fst) m) := by
  rcases page with _ | ⟨p, old⟩
  · exact ensures_pure fun _ h => h
  refine Keeps.andThen (Lives.same (fun _ => rfl) fun _ => rfl) fun _ => ?_
  refine Keeps.andThen (Lives.terminateSlots p _) fun _ => ?_
  refine Keeps.andThen (Lives.list _) fun _ => ?_
  refine Ensures.bind (ensures_modifyCore (Q := fun _ => Lives l (including (some p) m)) ?_)
    fun _ => ?_
  · rintro c ⟨rfl, rfl⟩
    exact ⟨rfl, rfl⟩
  refine Ensures.bind (ensures_threadCreate stack p 0) fun _ => ?_
  split
  · refine Keeps.bind (Lives.same (fun _ => rfl) fun _ => rfl) fun _ => ?_
    exact Keeps.bind (Lives.list _) fun _ => keeps_pure _
  · exact keeps_pure _

theorem ensures_procCreateThread (c0 : Core) (stack : Option (Nat × Thread)) :
    Ensures (procCreateThread stack) (fun c => c = c0) fun _ =>
      Lives (including (threadMade c0 (.procCreateThread stack)) c0.live) c0.liveProcs := by
  have hreads : ∀ {β : Type} (f : Core → β),
      Ensures (reads f) (fun c => c = c0) fun b c => c = c0 ∧ b = f c0 :=
    fun f => ensures_reads fun c h => ⟨h, by rw [h]⟩
  refine Ensures.bind (hreads _) fun p => Ensures.of_and ?_
  rintro rfl
  refine Ensures.bind (hreads _) fun slots => Ensures.of_and ?_
  rintro rfl
  split
  · next hnone =>
      have hslot : ¬ HasSlot c0 := by
        rintro ⟨i, hi, hfree⟩
        have hfull := List.find?_eq_none.mp hnone i (List.mem_range.mpr hi)
        rw [hfree] at hfull
        exact hfull rfl
      rw [threadMade, stackAsked, if_neg hslot]
      apply ensures_pure
      rintro c rfl
      exact ⟨rfl, rfl⟩
  next slot hfind =>
  have hslot : HasSlot c0 :=
    ⟨slot, List.mem_range.mp (List.mem_of_find?_eq_some hfind),
      by simpa using List.find?_some hfind⟩
  rw [threadMade, stackAsked, if_pos hslot, Option.bind_some]
  have hcreate := ensures_threadCreate (l := c0.live) (m := c0.liveProcs) stack
    (c0.procOf c0.current) slot
  refine Ensures.bind (hcreate.mono ?_ fun _ _ h => h) fun tid => ?_
  · rintro c rfl
    exact ⟨rfl, rfl⟩
  split
  · exact Keeps.bind (Lives.same (fun _ => rfl) fun _ => rfl) fun _ => keeps_pure _
  · exact keeps_pure _

theorem ensures_initProcesses (init : Nat) (stack : Option (Nat × Thread)) :
    Ensures (initProcesses init stack) (Lives l m) fun _ =>
      Lives (including (threadOn stack) l) (including (some init) m) := by
  refine Keeps.andThen (Lives.list _) fun _ => ?_
  refine Keeps.andThen (Lives.same (fun _ => rfl) fun _ => rfl) fun _ => ?_
  refine Keeps.andThen (Lives.list _) fun _ => ?_
  refine Ensures.bind (ensures_modifyCore (Q := fun _ => Lives l (including (some init) m)) ?_)
    fun _ => ?_
  · rintro c ⟨rfl, rfl⟩
    exact ⟨rfl, rfl⟩
  refine Ensures.bind (Q := fun _ => Lives (including (threadOn stack) l) (including (some init) m))
    ?_ fun _ => ?_
  · refine Keeps.andThen (Lives.list _) fun _ => ?_
    refine Keeps.andThen (Lives.list _) fun _ => ?_
    refine Keeps.andThen (Lives.list _) fun _ => ?_
    refine Ensures.bind (ensures_threadCreate stack init 0) fun _ => ?_
    refine Keeps.bind (Lives.same (fun _ => rfl) fun _ => rfl) fun _ => ?_
    exact Lives.same (fun _ => rfl) fun _ => rfl
  · exact Keeps.bind (Lives.same (fun _ => rfl) fun _ => rfl) fun _ => Lives.list _

end Creation

/-- What a call does to the threads and processes: it makes those that it is to make, and no
others come to be. -/
structure Effects (c : Core) (op : KernelOp) (c' : Core) : Prop where
  live : ∀ t, c'.live t = true → threadMade c op = some t ∨ c.live t = true
  liveProcs : ∀ p, c'.liveProcs p = true → procMade op = some p ∨ c.liveProcs p = true
  made : ∀ t, threadMade c op = some t → c'.live t = true
  procMade : ∀ p, procMade op = some p → c'.liveProcs p = true

theorem effects_of_lives {c c' : Core} {op : KernelOp}
    (h : Lives (including (threadMade c op) c.live) (including (procMade op) c.liveProcs) c') :
    Effects c op c' := by
  obtain ⟨hlive, hprocs⟩ := h
  refine ⟨fun t ht => ?_, fun p hp => ?_, fun t ht => ?_, fun p hp => ?_⟩
  · rwa [hlive, including_iff] at ht
  · rwa [hprocs, including_iff] at hp
  · rw [hlive, including_iff]
    exact Or.inl ht
  · rw [hprocs, including_iff]
    exact Or.inl hp

theorem ensures_execOp (c : Core) (op : KernelOp) :
    Ensures (execOp op) (fun c' => c' = c) fun _ => Effects c op := by
  have hmade : ∀ {β : Type} {p : Kernel β} {l m : Nat → Bool},
      Ensures p (Lives c.live c.liveProcs) (fun _ => Lives l m) →
      l = including (threadMade c op) c.live → m = including (procMade op) c.liveProcs →
      Ensures (ignore p) (fun c' => c' = c) fun _ => Effects c op := by
    rintro β p l m hp rfl rfl
    refine Ensures.bind (hp.mono ?_ fun _ _ h => h) fun _ => ensures_pure fun _ h =>
      effects_of_lives h
    rintro c' rfl
    exact ⟨rfl, rfl⟩
  have hkeeps : ∀ {β : Type} {p : Kernel β}, Keeps (Shrinks c) p → threadMade c op = none →
      procMade op = none → Ensures p (fun c' => c' = c) fun _ => Effects c op := by
    intro β p hp hthread hproc
    refine hp.mono ?_ fun _ c' hs => ?_
    · rintro c' rfl
      exact .of_eq rfl rfl
    · refine ⟨fun t ht => Or.inr (hs.live t ht), fun p hp => Or.inr (hs.liveProcs p hp), ?_, ?_⟩
      · rw [hthread]
        rintro t ⟨⟩
      · rw [hproc]
        rintro p ⟨⟩
  have hignore : ∀ {β : Type} {p : Kernel β}, Keeps (Shrinks c) p → threadMade c op = none →
      procMade op = none → Ensures (ignore p) (fun c' => c' = c) fun _ => Effects c op :=
    fun hp => hkeeps (Keeps.bind hp fun _ => keeps_pure _)
  have hP := ofLives_shrinks c
  cases op with
  | init proc stack =>
      refine (ensures_initProcesses proc stack).mono ?_ fun _ _ h => effects_of_lives h
      rintro c' rfl
      exact ⟨rfl, rfl⟩
  | create page proc childNum => exact hmade (ensures_threadCreate page proc childNum) rfl rfl
  | block => exact hignore hP.threadBlock rfl rfl
  | unblock t => exact hkeeps (hP.threadUnblock t) rfl rfl
  | exit => exact hignore hP.threadExit rfl rfl
  | wait t => exact hignore (hP.wait _) rfl rfl
  | notify t all ret => exact hignore (hP.notify _ _ _) rfl rfl
  | kill t => exact hignore (hP.threadKill t) rfl rfl
  | yield => exact hignore hP.schedule rfl rfl
  | timer => exact hignore hP.timer rfl rfl
  | procCreate page stack =>
      refine hmade (ensures_procCreate page stack) ?_ rfl
      cases page <;> rfl
  | procCreateThread stack =>
      refine Ensures.bind (ensures_procCreateThread c stack) fun _ => ensures_pure fun _ h => ?_
      exact effects_of_lives h
  | procWait p => exact hignore (hP.wait _) rfl rfl
  | procNotify p all ret => exact hignore (hP.notify _ _ _) rfl rfl
  | procKill p => exact hignore (hP.procKill p) rfl rfl

theorem effects_of_step {s s' : KernelState} {op : KernelOp} (h : KernelStep s op s') :
    Effects s.core op s'.core := by
  obtain ⟨_, hrun⟩ := h
  exact ensures_execOp s.core op s () s' rfl hrun

end Longhorn.CallEffects
