import Longhorn.SchedulerRuns

/-!
What `proc_create` returns and what it leaves behind, for any page and any result of
`thread_create`.
-/

namespace Longhorn.ProcessCreation

open Longhorn.Foundations.LinkedNodes
open Longhorn.Foundations.TransitionRuns
open Longhorn.IntrusiveList
open Longhorn.ListRefinement
open Longhorn.ListPrograms
open Longhorn.ThreadModel
open Longhorn.KernelRuns
open Longhorn.SchedulerRules
open Longhorn.SchedulerInvariant
open Longhorn.ProcessCalls
open Longhorn.SchedulerRuns

/-- The list of all processes is well formed, and `ready_threads`, which may be broken, has a
first node of its own. -/
structure Usable (h : Heap NodeAddr) (ps : List NodeAddr) : Prop where
  procs : IsList h (listAt .allProcs) ps
  members : ∀ a ∈ ps, ∃ p, a = .procNode p
  first : ∃ a, (h (.head .readyThreads)).next = some a ∧ a ∉ row (listAt .allProcs) ps

/-- The thread exists: it has been created, or it is the boot thread that still runs. -/
def Existing (c : Core) (u : Nat) : Prop := c.live u = true ∨ u = c.current

/-- What existing threads and processes hold does not change. -/
structure OthersKept (c c' : Core) : Prop where
  threads : ∀ u, Existing c u → c'.threads u = c.threads u
  procs : ∀ r, c.liveProcs r = true → c'.procs r = c.procs r

/-- The process has its first thread and no other, and is on the list of all processes. -/
structure MadeProcess (p : Nat) (s s' : KernelState) : Prop where
  listed : ∃ ps, IsList s'.heap (listAt .allProcs) ps ∧ .procNode p ∈ ps
  main : ∃ t, (s'.core.procs p).threads 0 = some t ∧ s.core.live t = false ∧
    s'.core.live t = true ∧ s'.core.state t = .ready ∧ s'.core.procOf t = p
  others : ∀ i, 0 < i → i < maxNumThreads → (s'.core.procs p).threads i = none
  count : (s'.core.procs p).numLiveThreads = 1

/-- `NULL` is returned with no page taken and all lists as before, or a process has been made;
nobody else is touched. -/
structure AllOrNothing (page : Option (Nat × Process)) (s : KernelState) (r : Option Nat)
    (s' : KernelState) : Prop where
  result : (r = none ∧ page = none ∧ s'.heap = s.heap) ∨ ∃ p, r = some p ∧ MadeProcess p s s'
  others : OthersKept s.core s'.core

/-- No page is left, or the page holds no slot but perhaps one for the first thread, which does
not name a thread that exists, and there is a page for the thread. -/
def Creates (page : Option (Nat × Process)) (stack : Option (Nat × Thread)) (c : Core) : Prop :=
  ∀ p old, page = some (p, old) →
    (∃ t oldT, stack = some (t, oldT) ∧ oldT.tid ≠ maxTid + 1) ∧
    (∀ i, 0 < i → i < maxNumThreads → old.threads i = none) ∧
    ∀ u, old.threads 0 = some u → Existing c u →
      c.state u = .terminated ∧ (c.threads u).childNum = 0

section Lists

variable {h : Heap NodeAddr} {ps : List NodeAddr} {i : ListId} {t p : Nat}

theorem Usable.ne_of_mem_row (hu : Usable h ps) {a : NodeAddr}
    (ha : a ∈ row (listAt .allProcs) ps) :
    a = .head .allProcs ∨ a = .tail .allProcs ∨ ∃ p, a = .procNode p := by
  rcases mem_row_iff.mp ha with ha | ha | ha
  · exact Or.inl ha
  · exact Or.inr (Or.inr (hu.members a ha))
  · exact Or.inr (Or.inl ha)

theorem Usable.init (hu : Usable h ps) (hready : i ≠ .readyThreads) (hprocs : i ≠ .allProcs) :
    Usable (listInit (listAt i) h) ps := by
  refine ⟨hu.procs.congr fun a ha => ?_, hu.members, ?_⟩
  · rcases hu.ne_of_mem_row ha with rfl | rfl | ⟨p, rfl⟩
    all_goals exact listInit_of_ne (by simp [listAt, hprocs.symm]) (by simp [listAt, hprocs.symm]) h
  · obtain ⟨a, ha, hout⟩ := hu.first
    refine ⟨a, ?_, hout⟩
    rwa [listInit_of_ne (by simp [listAt, hready.symm]) (by simp [listAt])]

theorem Usable.insertReady (hu : Usable h ps) :
    ∃ h', exec listAt (.insert .readyThreads (.node t)) h = some ((), h') ∧ Usable h' ps := by
  obtain ⟨a, ha, hout⟩ := hu.first
  refine ⟨setPrev (setNext (setNext (setPrev h a (some (.node t))) (.node t) (some a))
    (.head .readyThreads) (some (.node t))) (.node t) (some (.head .readyThreads)), ?_, ?_⟩
  · simp [exec, listInsert, listInsertFront, listAt, ha]
  · refine ⟨hu.procs.congr fun b hb => ?_, hu.members, .node t, ?_, fun hin => ?_⟩
    · have hne : b ≠ a := fun heq => hout (heq ▸ hb)
      obtain ⟨hnode, hhead⟩ : b ≠ .node t ∧ b ≠ .head .readyThreads := by
        rcases hu.ne_of_mem_row hb with rfl | rfl | ⟨p, rfl⟩ <;> simp
      rw [setPrev_of_ne hnode, setNext_of_ne hhead, setNext_of_ne hnode, setPrev_of_ne hne]
    · simp
    · rcases hu.ne_of_mem_row hin with heq | heq | ⟨p, heq⟩ <;> cases heq

theorem Usable.insertEnd (hu : Usable h ps) (hp : .procNode p ∉ ps) :
    ∃ h', exec listAt (.insertEnd .allProcs (.procNode p)) h = some ((), h') ∧
      IsList h' (listAt .allProcs) (ps ++ [.procNode p]) := by
  have hout : NodeAddr.procNode p ∉ row (listAt .allProcs) ps := by
    simpa [listAt, mem_row_iff] using hp
  obtain ⟨h', heq, hlist, _⟩ := listInsertEnd_spec hu.procs hout
  exact ⟨h', by rw [exec, heq, Option.map_some], hlist⟩

end Lists

section Slots

variable {slots : Nat → Option Nat} {threads : Nat → Thread} {is : List Nat} {u : Nat}

/-- What the loop of `proc_create` writes through the slots of the new page. -/
def markSlots (slots : Nat → Option Nat) : List Nat → (Nat → Thread) → Nat → Thread
  | [], threads => threads
  | i :: rest, threads =>
      match slots i with
      | none => markSlots slots rest threads
      | some t => markSlots slots rest
          (Function.update threads t { threads t with state := .terminated, childNum := i })

theorem markSlots_of_not_named (hno : ∀ i ∈ is, slots i ≠ some u) :
    markSlots slots is threads u = threads u := by
  induction is generalizing threads with
  | nil => rfl
  | cons i rest ih =>
      have hrest : ∀ j ∈ rest, slots j ≠ some u := fun j hj => hno j (List.mem_cons_of_mem i hj)
      rcases ht : slots i with _ | t
      · simp only [markSlots, ht]
        exact ih hrest
      · simp only [markSlots, ht]
        rw [ih hrest, Function.update_of_ne]
        rintro rfl
        exact hno i List.mem_cons_self ht

theorem markSlots_first (hnone : ∀ i ∈ is, slots i = none) (hu : slots 0 = some u) :
    markSlots slots (0 :: is) threads u =
      { threads u with state := .terminated, childNum := 0 } := by
  have hrest : ∀ i ∈ is, slots i ≠ some u := by
    intro i hi
    rw [hnone i hi]
    simp
  simp only [markSlots, hu]
  rw [markSlots_of_not_named hrest, Function.update_self]

theorem yields_reads {β : Type} {f : Core → β} {S : β → KernelState → Prop} {m : KernelState}
    (h : S (f m.core) m) : Yields (reads f) S m := by
  apply Yields.bind
  apply yields_readCore
  exact yields_pure h

theorem yields_list {β : Type} {k : ListCall ListId NodeAddr β} {b : β} {h' : Heap NodeAddr}
    {S : β → KernelState → Prop} {m : KernelState} (hexec : exec listAt k m.heap = some (b, h'))
    (h : S b ⟨m.core.noteCall k, h'⟩) : Yields (list k) S m := by
  apply Yields.bind
  apply yields_modifyCore
  exact yields_call hexec h

theorem yields_terminateSlots {p : Nat} {S : Unit → KernelState → Prop} {c : Core}
    {h : Heap NodeAddr}
    (hS : S () ⟨{ c with threads := markSlots (c.procs p).threads is c.threads }, h⟩) :
    Yields (terminateSlots p is) S ⟨c, h⟩ := by
  induction is generalizing c with
  | nil => exact yields_pure hS
  | cons i rest ih =>
      apply Yields.bind
      apply yields_reads
      rw [markSlots] at hS
      rcases hi : (c.procs p).threads i with _ | t
      · rw [hi] at hS
        exact ih hS
      · rw [hi] at hS
        apply Yields.bind
        apply yields_modifyCore
        exact ih (c := c.withThread t fun ti =>
          { ti with state := .terminated, childNum := i }) hS

end Slots

section Creating

variable {ps : List NodeAddr} {p t slot : Nat} {old : Thread} {c : Core} {h : Heap NodeAddr}

theorem yields_allocateTid {S : Nat → KernelState → Prop}
    (hS : ∀ tid tids, S tid ⟨{ c with tids := tids }, h⟩) : Yields allocateTid S ⟨c, h⟩ := by
  apply Yields.bind
  apply yields_reads
  split
  · apply Yields.bind
    apply yields_modifyCore
    exact yields_pure (hS _ _)
  · exact yields_pure (hS _ c.tids)

/-- No thread is made: there is no page for it, or the page reads as one of a thread with the
last id. -/
def Refused (stack : Option (Nat × Thread)) : Prop :=
  ∀ t old, stack = some (t, old) → old.tid = maxTid + 1

/-- `thread_create` never returns `-THREAD_CREATE_FAIL`. -/
theorem yields_threadCreate (hu : Usable h ps) {stack : Option (Nat × Thread)}
    {S : Int → KernelState → Prop}
    (hrefused : ∀ c' h', Refused stack → c'.live = c.live → c'.procs = c.procs →
      Usable h' ps → S (-1) ⟨c', h'⟩)
    (hmade : ∀ t old (tid : Nat) c' h', stack = some (t, old) → old.tid ≠ maxTid + 1 →
      Created t p slot c c' → Usable h' ps → S tid ⟨c', h'⟩) :
    Yields (threadCreate stack p slot) S ⟨c, h⟩ := by
  rcases stack with _ | ⟨t, old⟩
  · exact yields_pure (hrefused c h nofun rfl rfl hu)
  apply Yields.bind
  apply yields_modifyCore
  apply Yields.bind
  apply yields_reads
  have htid : ((c.withThread t fun _ => old).threads t).tid = old.tid := by
    simp [Core.withThread]
  dsimp only
  rw [htid]
  split
  · next hold =>
      refine yields_pure (hrefused _ h ?_ rfl rfl hu)
      rintro u o ⟨⟩
      exact hold
  next hold =>
  apply Yields.bind
  apply yields_allocateTid
  intro tid tids
  apply Yields.bind
  apply yields_reads
  apply Yields.bind
  apply yields_modifyCore
  apply Yields.bind
  apply yields_modifyCore
  apply Yields.bind
  refine yields_list (k := .init (.threadWaiters t)) rfl ?_
  apply Yields.bind
  apply yields_modifyCore
  apply Yields.bind
  apply yields_modifyCore
  obtain ⟨h', hexec, hu'⟩ := (hu.init (i := .threadWaiters t) (by simp) (by simp)).insertReady
    (t := t)
  apply Yields.bind
  refine yields_list hexec ?_
  apply Yields.bind
  apply yields_modifyCore
  exact yields_pure (hmade t old tid _ h' rfl hold (created_steps c t p slot old tids tid _) hu')

/-- The new process has the thread `t`; the slots of its page were `slots`, and have been written
through. -/
structure Built (t p : Nat) (slots : Nat → Option Nat) (c c' : Core) : Prop where
  threads : ∀ u, u ≠ t →
    c'.threads u = markSlots slots (List.range maxNumThreads) c.threads u
  procs : ∀ r, r ≠ p → c'.procs r = c.procs r
  slots : (c'.procs p).threads = Function.update slots 0 (some t)
  state : c'.state t = .ready
  procOf : c'.procOf t = p
  live : c'.live = Function.update c.live t true

/-- `proc_create` from its `thread_create` on. -/
theorem yields_mainThread (hu : Usable h ps) (hp : .procNode p ∉ ps)
    {stack : Option (Nat × Thread)} :
    Yields (do
      if (← threadCreate stack p 0) ≠ -threadCreateFail then
        modifyCore fun c => c.withProc p fun proc =>
          { proc with numLiveThreads := 1, activeThread := proc.threads 0 }
        list (.insertEnd .allProcs (.procNode p))
        pure (some p)
      else pure none : Kernel (Option Nat)) (fun r m' => r = some p ∧
      IsList m'.heap (listAt .allProcs) (ps ++ [.procNode p]) ∧
      (m'.core.procs p).numLiveThreads = 1 ∧
      ((Refused stack ∧ m'.core.live = c.live) ∨ ∃ t oldT c1, stack = some (t, oldT) ∧
        oldT.tid ≠ maxTid + 1 ∧ Created t p 0 c c1 ∧ m'.core.threads = c1.threads ∧
        m'.core.live = c1.live ∧ (∀ r, r ≠ p → m'.core.procs r = c1.procs r) ∧
        (m'.core.procs p).threads = (c1.procs p).threads)) ⟨c, h⟩ := by
  have hend : ∀ (c1 : Core) h1, Usable h1 ps → Yields (do
      modifyCore fun c => c.withProc p fun proc =>
        { proc with numLiveThreads := 1, activeThread := proc.threads 0 }
      list (.insertEnd .allProcs (.procNode p))
      pure (some p) : Kernel (Option Nat)) (fun r m' => r = some p ∧
        IsList m'.heap (listAt .allProcs) (ps ++ [.procNode p]) ∧
        (m'.core.procs p).numLiveThreads = 1 ∧ m'.core.threads = c1.threads ∧
        m'.core.live = c1.live ∧ (∀ r, r ≠ p → m'.core.procs r = c1.procs r) ∧
        (m'.core.procs p).threads = (c1.procs p).threads) ⟨c1, h1⟩ := by
    intro c1 h1 hu1
    obtain ⟨h2, hexec, hlist⟩ := hu1.insertEnd hp
    apply Yields.bind
    apply yields_modifyCore
    apply Yields.bind
    refine yields_list hexec ?_
    have hproc : (c1.withProc p fun proc =>
        { proc with numLiveThreads := 1, activeThread := proc.threads 0 }).procs p =
        { c1.procs p with numLiveThreads := 1, activeThread := (c1.procs p).threads 0 } :=
      procs_withProc c1 p _
    refine yields_pure ⟨rfl, hlist, ?_, rfl, rfl, fun r hr => Function.update_of_ne hr _ _, ?_⟩
    · exact congrArg Process.numLiveThreads hproc
    · exact (congrArg Process.threads hproc :)
  apply Yields.bind
  apply yields_threadCreate hu
  · intro c1 h1 hrefused hlive _ hu1
    rw [if_pos (by decide)]
    refine (hend c1 h1 hu1).mono ?_
    rintro r m' ⟨rfl, hlist, hcount, _, hlive', _⟩
    exact ⟨rfl, hlist, hcount, Or.inl ⟨hrefused, hlive'.trans hlive⟩⟩
  · intro t oldT tid c1 h1 hstack hold hcreated hu1
    have hcode : (tid : Int) ≠ -threadCreateFail := by
      simp only [threadCreateFail]
      omega
    rw [if_pos hcode]
    refine (hend c1 h1 hu1).mono ?_
    rintro r m' ⟨rfl, hlist, hcount, hrest⟩
    exact ⟨rfl, hlist, hcount, Or.inr ⟨t, oldT, c1, hstack, hold, hcreated, hrest⟩⟩

/-- Once it has a page, `proc_create` returns a process with a count of one, whether or not a
thread has been made. -/
theorem yields_procCreate (hu : Usable h ps) (hp : .procNode p ∉ ps) {old : Process}
    {stack : Option (Nat × Thread)} :
    Yields (procCreate (some (p, old)) stack) (fun r m' => r = some p ∧
      IsList m'.heap (listAt .allProcs) (ps ++ [.procNode p]) ∧
      (m'.core.procs p).numLiveThreads = 1 ∧
      ((Refused stack ∧ m'.core.live = c.live) ∨ ∃ t oldT, stack = some (t, oldT) ∧
        oldT.tid ≠ maxTid + 1 ∧ Built t p old.threads c m'.core)) ⟨c, h⟩ := by
  apply Yields.bind
  apply yields_modifyCore
  obtain ⟨c1, hc1⟩ : ∃ c1, c1 = { c.withProc p fun _ => { old with pid := c.pidCount } with
    pidCount := (c.pidCount + 1) % 2 ^ 32 } := ⟨_, rfl⟩
  have hslots1 : (c1.procs p).threads = old.threads := by simp [hc1, Core.withProc]
  have hprocs1 : ∀ r, r ≠ p → c1.procs r = c.procs r := by
    intro r hr
    rw [hc1]
    exact Function.update_of_ne hr _ _
  dsimp only
  rw [← hc1]
  apply Yields.bind
  apply yields_terminateSlots
  rw [hslots1]
  apply Yields.bind
  refine yields_list (k := .init (.procWaiters p)) rfl ?_
  apply Yields.bind
  apply yields_modifyCore
  refine (yields_mainThread (hu.init (by simp) (by simp)) hp).mono ?_
  rintro r m' ⟨rfl, hlist, hcount, hout⟩
  refine ⟨rfl, hlist, hcount, ?_⟩
  rcases hout with ⟨hrefused, hlive⟩ |
    ⟨t, oldT, c3, hstack, hold, hc, hthreads, hlive, hprocs, hslots⟩
  · refine Or.inl ⟨hrefused, ?_⟩
    rw [hlive, hc1]
    rfl
  · refine Or.inr ⟨t, oldT, hstack, hold, ⟨fun u hne => ?_, fun r hr => ?_, ?_, ?_, ?_, ?_⟩⟩
    · rw [hthreads, hc.others u hne, hc1]
      rfl
    · rw [hprocs r hr, hc.procs, Function.update_of_ne hr]
      exact (Function.update_of_ne hr _ _).trans (hprocs1 r hr)
    · rw [hslots, hc.procs, Function.update_self]
      have hkept : ∀ threads, ((({ c1 with threads := threads } : Core).withProc p fun proc =>
          { proc with waitCode := 0 }).procs p).threads = old.threads := by
        intro threads
        rw [procs_withProc]
        exact hslots1
      exact congrArg (fun f : Nat → Option Nat => Function.update f 0 (some t))
        (hkept (markSlots old.threads (List.range maxNumThreads) c1.threads))
    · rw [Core.state, hthreads]
      exact hc.state
    · rw [Core.procOf, hthreads]
      exact hc.procOf
    · rw [hlive, hc.live, hc1]
      rfl

end Creating

section Outcome

variable {ps : List NodeAddr} {p t : Nat} {old : Process} {oldT : Thread} {c c' : Core}
  {stack : Option (Nat × Thread)} {s s' : KernelState}

/-- The pages are of no process and no thread that exists. -/
structure FreshPages (page : Option (Nat × Process)) (stack : Option (Nat × Thread)) (c : Core)
    (ps : List NodeAddr) : Prop where
  proc : ∀ p old, page = some (p, old) → c.liveProcs p = false ∧ .procNode p ∉ ps
  thread : ∀ t oldT, stack = some (t, oldT) → c.live t = false ∧ t ≠ c.current

theorem range_slots : List.range maxNumThreads = 0 :: List.range' 1 (maxNumThreads - 1) := rfl

/-- Existing threads keep what they hold if and only if the one that the first slot names, if
there is one, is already as the loop leaves it. -/
theorem Built.kept_iff (h : Built t p old.threads c c')
    (hnone : ∀ i, 0 < i → i < maxNumThreads → old.threads i = none) (ht : ¬ Existing c t) :
    (∀ u, Existing c u → c'.threads u = c.threads u) ↔ ∀ u, old.threads 0 = some u →
      Existing c u → c.state u = .terminated ∧ (c.threads u).childNum = 0 := by
  have hrest : ∀ i ∈ List.range' 1 (maxNumThreads - 1), old.threads i = none := by
    intro i hi
    obtain ⟨hpos, hlt⟩ := List.mem_range'_1.mp hi
    refine hnone i hpos ?_
    simp only [maxNumThreads] at hlt ⊢
    omega
  have hne : ∀ u, Existing c u → u ≠ t := by
    rintro u hu rfl
    exact ht hu
  constructor
  · intro hkept u hu hexists
    have hsame := hkept u hexists
    rw [h.threads u (hne u hexists), range_slots, markSlots_first hrest hu] at hsame
    exact ⟨(congrArg Thread.state hsame).symm, (congrArg Thread.childNum hsame).symm⟩
  · intro hfirst u hexists
    rw [h.threads u (hne u hexists), range_slots]
    by_cases hu : old.threads 0 = some u
    · obtain ⟨hstate, hslot⟩ := hfirst u hu hexists
      rw [markSlots_first hrest hu, ← hslot, ← hstate]
      rfl
    · refine markSlots_of_not_named fun i hi hnamed => ?_
      rcases List.mem_cons.mp hi with rfl | hi
      · exact hu hnamed
      · rw [hrest i hi] at hnamed
        cases hnamed

/-- A process with a thread is as it should be if and only if the other slots of its page were
empty. -/
theorem Built.made_iff (h : Built t p old.threads s.core s'.core)
    (hlist : IsList s'.heap (listAt .allProcs) (ps ++ [.procNode p]))
    (hcount : (s'.core.procs p).numLiveThreads = 1) (ht : s.core.live t = false) :
    MadeProcess p s s' ↔ ∀ i, 0 < i → i < maxNumThreads → old.threads i = none := by
  have hslot : ∀ i, 0 < i → (s'.core.procs p).threads i = old.threads i := by
    intro i hi
    rw [h.slots, Function.update_of_ne (by omega)]
  constructor
  · intro hmade i hi hlt
    rw [← hslot i hi]
    exact hmade.others i hi hlt
  · intro hnone
    refine ⟨⟨_, hlist, List.mem_append_right _ List.mem_cons_self⟩, ⟨t, ?_, ht, ?_, h.state,
      h.procOf⟩, fun i hi hlt => (hslot i hi).trans (hnone i hi hlt), hcount⟩
    · rw [h.slots, Function.update_self]
    · rw [h.live, Function.update_self]

/-- With a page for the process, all comes down to the page for the thread and to what the
slots of the process's page held. -/
theorem allOrNothing_iff_of_outcome (hfresh : FreshPages (some (p, old)) stack s.core ps)
    (hlist : IsList s'.heap (listAt .allProcs) (ps ++ [.procNode p]))
    (hcount : (s'.core.procs p).numLiveThreads = 1)
    (hout : (Refused stack ∧ s'.core.live = s.core.live) ∨ ∃ t oldT, stack = some (t, oldT) ∧
      oldT.tid ≠ maxTid + 1 ∧ Built t p old.threads s.core s'.core) :
    AllOrNothing (some (p, old)) s (some p) s' ↔ Creates (some (p, old)) stack s.core := by
  have hmade : AllOrNothing (some (p, old)) s (some p) s' ↔
      MadeProcess p s s' ∧ OthersKept s.core s'.core := by
    constructor
    · rintro ⟨⟨-, hpage, -⟩ | ⟨p', heq, hmade⟩, hothers⟩
      · cases hpage
      · cases heq
        exact ⟨hmade, hothers⟩
    · exact fun ⟨hmade, hothers⟩ => ⟨Or.inr ⟨p, rfl, hmade⟩, hothers⟩
  rw [hmade]
  rcases hout with ⟨hrefused, hlive⟩ | ⟨t, oldT, rfl, hold, hbuilt⟩
  · constructor
    · rintro ⟨⟨_, ⟨t, _, hnew, hmain, _⟩, _, _⟩, _⟩
      rw [hlive, hnew] at hmain
      cases hmain
    · intro hcreates
      obtain ⟨⟨t, oldT, hstack, hold⟩, _⟩ := hcreates p old rfl
      exact absurd (hrefused t oldT hstack) hold
  · obtain ⟨hlive, hcur⟩ := hfresh.thread t oldT rfl
    have ht : ¬ Existing s.core t := by
      simp [Existing, hlive, hcur]
    rw [hbuilt.made_iff hlist hcount hlive]
    constructor
    · rintro ⟨hnone, hothers⟩ p' old' ⟨⟩
      exact ⟨⟨t, oldT, rfl, hold⟩, hnone, (hbuilt.kept_iff hnone ht).mp hothers.threads⟩
    · intro hcreates
      obtain ⟨_, hnone, hfirst⟩ := hcreates p old rfl
      refine ⟨hnone, (hbuilt.kept_iff hnone ht).mpr hfirst, fun r hr => hbuilt.procs r ?_⟩
      rintro rfl
      rw [(hfresh.proc r old rfl).1] at hr
      cases hr

/-- In a state with usable lists `proc_create` returns its page, and is all or nothing under
exactly that condition. -/
theorem procCreate_iff {page : Option (Nat × Process)} (hu : Usable s.heap ps)
    (hfresh : FreshPages page stack s.core ps) :
    ∃ s', procCreate page stack s = some (page.map Prod.fst, s') ∧
      (AllOrNothing page s (page.map Prod.fst) s' ↔ Creates page stack s.core) := by
  rcases page with _ | ⟨p, old⟩
  · refine ⟨s, rfl, ?_⟩
    have hnothing : AllOrNothing none s none s :=
      ⟨Or.inl ⟨rfl, rfl, rfl⟩, fun _ _ => rfl, fun _ _ => rfl⟩
    exact iff_of_true hnothing nofun
  · have hyields : Yields (procCreate (some (p, old)) stack) _ s :=
      yields_procCreate hu (hfresh.proc p old rfl).2
    obtain ⟨r, s', heq, rfl, hlist, hcount, hout⟩ := hyields
    exact ⟨s', heq, allOrNothing_iff_of_outcome hfresh hlist hcount hout⟩

theorem usable_of_sched {boot : Nat} {q : KernelSeqs} (hq : HoldsSeqs s q)
    (h : SchedInv boot s.core q) : Usable s.heap (q.get .allProcs) := by
  have hmembers : ∀ a ∈ q.get .allProcs, ∃ p, a = NodeAddr.procNode p := by
    intro a ha
    obtain ⟨r, hr, _⟩ := h.inv.fits .allProcs a ha
    exact ⟨r, hr⟩
  have hready := (hq.isList (i := .readyThreads) trivial).next_head
  refine ⟨hq.isList trivial, hmembers, ?_⟩
  rcases hxs : q.get .readyThreads with _ | ⟨a, xs⟩
  · rw [hxs] at hready
    refine ⟨_, hready, fun hin => ?_⟩
    rcases mem_row_iff.mp hin with heq | hin | heq
    · cases heq
    · obtain ⟨r, hr⟩ := hmembers _ hin
      cases hr
    · cases heq
  · rw [hxs] at hready
    refine ⟨_, hready, fun hin => ?_⟩
    obtain ⟨u, rfl, _⟩ := h.inv.fits .readyThreads a (by rw [hxs]; exact List.mem_cons_self)
    rcases mem_row_iff.mp hin with heq | hin | heq
    · cases heq
    · obtain ⟨r, hr⟩ := hmembers _ hin
      cases hr
    · cases heq

/-- The nodes of a process that does not exist are not on the list of all processes. -/
theorem procNode_not_mem {boot : Nat} {q : KernelSeqs} (h : SchedInv boot s.core q)
    (hp : s.core.liveProcs p = false) : .procNode p ∉ q.get .allProcs := by
  intro hin
  obtain ⟨r, hr, hlive⟩ := h.inv.fits .allProcs _ hin
  cases hr
  rw [hp] at hlive
  cases hlive

def zeroedProcess : Process := ⟨0, none, fun _ => none, 0, 0⟩

/-- The pages are zeroed and not in use. -/
theorem exists_zeroed_pages : ∃ s ps, Starts zeroedState 0 1 blankThread s ∧ Usable s.heap ps ∧
    FreshPages (some (5, zeroedProcess)) (some (2, blankThread)) s.core ps := by
  obtain ⟨s, hs⟩ := exists_starts
  obtain ⟨q, hq, hstarted, hcur, _⟩ := started_of_starts hs
  refine ⟨s, q.get .allProcs, hs, usable_of_sched hq hstarted.schedInv, ?_, ?_⟩
  · rintro p old ⟨⟩
    have hdead : s.core.liveProcs 5 = false := by
      rw [← Bool.not_eq_true, hstarted.liveProcs]
      decide
    exact ⟨hdead, procNode_not_mem hstarted.schedInv hdead⟩
  · rintro u old ⟨⟩
    refine ⟨?_, ?_⟩
    · rw [← Bool.not_eq_true, hstarted.live]
      decide
    · rw [hcur]
      decide

end Outcome

end Longhorn.ProcessCreation
