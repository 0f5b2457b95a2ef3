import Longhorn.ThreadModel

/-!
The invariant of the scheduler's lists, and what waking, notifying and cleaning up
do to it.
-/

namespace Longhorn.SchedulerRules

open Longhorn.IntrusiveList
open Longhorn.ListRefinement
open Longhorn.ListPrograms
open Longhorn.ThreadModel

abbrev KernelSeqs := Seqs ListId NodeAddr

theorem sentinels_listAt : Sentinels listAt := by
  refine ⟨?_, ?_, ?_⟩
  · intro i j h
    simpa [listAt] using h
  · intro i j h
    simpa [listAt] using h
  · intro i j h
    simp [listAt] at h

section Steps

variable {β : Type} {Q : β → Core → KernelSeqs → Prop} {c : Core} {q : KernelSeqs}

theorem wp_reads {f : Core → β} (h : Q (f c) c q) : Wp listAt (reads f) Q c q := by
  apply Wp.bind
  apply wp_readCore
  exact wp_pure h

theorem wp_list {k : ListCall ListId NodeAddr β} (hk : Allowed listAt k q)
    (h : Q (absExec k q).1 (c.noteCall k) (absExec k q).2) : Wp listAt (list k) Q c q := by
  apply Wp.bind
  apply wp_modifyCore
  exact wp_call sentinels_listAt hk h

end Steps

section Calls

variable {c : Core} {q : KernelSeqs} {i : ListId} {n : NodeAddr} {xs : List NodeAddr}

theorem wp_init {Q : Unit → Core → KernelSeqs → Prop}
    (h : Q () (c.noteCall (.init i)) (q.set i [])) : Wp listAt (list (.init i)) Q c q :=
  wp_list (k := .init i) trivial h

theorem wp_delete {Q : Option NodeAddr → Core → KernelSeqs → Prop} (hi : (q i).isSome)
    (hin : n ∈ q.get i → Q (some n) (c.noteCall (.delete i n)) (q.set i ((q.get i).erase n)))
    (hout : n ∉ q.get i → Q none (c.noteCall (.delete i n)) q) :
    Wp listAt (list (.delete i n)) Q c q := by
  apply wp_list
  · exact hi
  · rw [absExec]
    split
    · next hn => exact hin hn
    · next hn => exact hout hn

theorem wp_insert {Q : Unit → Core → KernelSeqs → Prop} (hi : (q i).isSome)
    (hn : Detached listAt q n)
    (h : Q () (c.noteCall (.insert i n)) (q.set i (n :: q.get i))) :
    Wp listAt (list (.insert i n)) Q c q :=
  wp_list ⟨hi, hn⟩ h

theorem wp_insertEnd {Q : Unit → Core → KernelSeqs → Prop} (hi : (q i).isSome)
    (hn : Detached listAt q n)
    (h : Q () (c.noteCall (.insertEnd i n)) (q.set i (q.get i ++ [n]))) :
    Wp listAt (list (.insertEnd i n)) Q c q :=
  wp_list ⟨hi, hn⟩ h

theorem wp_pop {Q : Option NodeAddr → Core → KernelSeqs → Prop} (hi : (q i).isSome)
    (h : Q (q.get i).head? (c.noteCall (.pop i)) (q.set i (q.get i).tail)) :
    Wp listAt (list (.pop i)) Q c q := by
  apply wp_list
  · exact hi
  · exact h

end Calls

/-- The event ends a sleep of the thread. -/
def Event.wakes (t : Nat) : Event → Bool
  | .unblock u => u = t
  | .release u _ => u = t
  | _ => false

/-- How often the thread has been unblocked or cleaned up. -/
def wakeCount (t : Nat) (log : List Event) : Nat := log.countP (Event.wakes t)

/-- The list lies in memory that is in use. -/
def Core.Accessible (c : Core) : ListId → Prop
  | .threadWaiters t => c.live t = true
  | .procWaiters p => c.liveProcs p = true
  | _ => True

/-- The nodes that belong on a list: those of live threads and processes. -/
def Core.Fits (c : Core) : ListId → NodeAddr → Prop
  | .threadWaiters _, a => ∃ t, a = .waitNode t ∧ c.live t = true
  | .procWaiters _, a => ∃ t, a = .waitNode t ∧ c.live t = true
  | .allProcs, a => ∃ p, a = .procNode p ∧ c.liveProcs p = true
  | _, a => ∃ t, a = .node t ∧ c.live t = true

/-- A thread that does not run is on the list that its state names, and only there. -/
def Placed (c : Core) (q : KernelSeqs) (t : Nat) : Prop :=
  (c.state t = .ready ∧ .node t ∈ q.get .readyThreads ∧ .node t ∉ q.get .blockedThreads) ∨
    (c.state t = .blocked ∧ .node t ∉ q.get .readyThreads ∧ .node t ∈ q.get .blockedThreads)

/-- The invariant, but for the places of the threads in `out`. -/
structure Inv (out : Nat → Prop) (c : Core) (q : KernelSeqs) : Prop where
  lists : ∀ i, Core.Accessible c i → (q i).isSome
  stale : ∀ i, ¬ Core.Accessible c i → q.get i = []
  fits : ∀ i, ∀ a ∈ q.get i, Core.Fits c i a
  placed : ∀ t, c.live t = true → ¬ out t → Placed c q t
  idle : ∃ t, c.idleT = some t ∧ c.live t = true
  procs : ∀ t, c.live t = true → c.liveProcs (c.procOf t) = true
  released : ∀ t b, .release t b ∈ c.log → b = true

/-- The cores differ in nothing that the invariant speaks of, but the log. -/
structure Alike (c c' : Core) : Prop where
  state : ∀ t, c'.state t = c.state t
  procOf : ∀ t, c'.procOf t = c.procOf t
  childNum : ∀ t, (c'.threads t).childNum = (c.threads t).childNum
  procs : c'.procs = c.procs
  current : c'.current = c.current
  idleT : c'.idleT = c.idleT
  live : c'.live = c.live
  liveProcs : c'.liveProcs = c.liveProcs

/-- A thread that was blocked still is, unless it has been unblocked or cleaned up
since. -/
structure Later (c c' : Core) : Prop where
  woken : ∀ t, wakeCount t c.log ≤ wakeCount t c'.log
  asleep : ∀ t, c.state t = .blocked → c.live t = true → wakeCount t c'.log = wakeCount t c.log →
    c'.state t = .blocked ∧ c'.live t = true

/-- Neither the state nor the place of the thread changes. -/
structure Stays (c : Core) (q : KernelSeqs) (c' : Core) (q' : KernelSeqs) (t : Nat) : Prop where
  state : c'.state t = c.state t
  ready : .node t ∈ q'.get .readyThreads ↔ .node t ∈ q.get .readyThreads
  blocked : .node t ∈ q'.get .blockedThreads ↔ .node t ∈ q.get .blockedThreads

/-- What no call changes before a thread is cleaned up or another one runs. -/
structure Framed (c : Core) (q : KernelSeqs) (c' : Core) (q' : KernelSeqs) : Prop where
  procOf : ∀ t, c'.procOf t = c.procOf t
  childNum : ∀ t, (c'.threads t).childNum = (c.threads t).childNum
  procs : c'.procs = c.procs
  current : c'.current = c.current
  idleT : c'.idleT = c.idleT
  live : c'.live = c.live
  liveProcs : c'.liveProcs = c.liveProcs
  dying : q'.get .dyingThreads = q.get .dyingThreads
  procList : q'.get .allProcs = q.get .allProcs
  waits : ∀ i u, .waitNode u ∈ q'.get i → .waitNode u ∈ q.get i
  later : Later c c'

/-- The thread is blocked, so that others may wake it. -/
def Core.Sleeps (c : Core) (t : Nat) : Prop := c.state t = .blocked ∧ c.live t = true

/-- What waking threads changes at most. -/
structure Woken (c : Core) (q : KernelSeqs) (c' : Core) (q' : KernelSeqs) : Prop extends
    Framed c q c' q' where
  stays : ∀ t, ¬ Core.Sleeps c t → Stays c q c' q' t

theorem Alike.refl (c : Core) : Alike c c := by
  constructor <;> intros <;> rfl

theorem Alike.trans {c c1 c2 : Core} (h1 : Alike c c1) (h2 : Alike c1 c2) : Alike c c2 := by
  constructor
  · exact fun t => (h2.state t).trans (h1.state t)
  · exact fun t => (h2.procOf t).trans (h1.procOf t)
  · exact fun t => (h2.childNum t).trans (h1.childNum t)
  · exact h2.procs.trans h1.procs
  · exact h2.current.trans h1.current
  · exact h2.idleT.trans h1.idleT
  · exact h2.live.trans h1.live
  · exact h2.liveProcs.trans h1.liveProcs

theorem alike_note (c : Core) (e : Event) : Alike c (c.note e) := by
  constructor <;> intros <;> rfl

theorem alike_withInterrupts (c : Core) (b : Bool) : Alike c (c.withInterrupts b) := by
  constructor <;> intros <;> rfl

theorem alike_noteCall (c : Core) {β : Type} (k : ListCall ListId NodeAddr β) :
    Alike c (c.noteCall k) := by
  rw [Core.noteCall]
  split
  · exact alike_note c _
  · constructor <;> intros <;> rfl

theorem Later.refl (c : Core) : Later c c :=
  ⟨fun _ => le_rfl, fun _ h hl _ => ⟨h, hl⟩⟩

theorem Later.trans {c c1 c2 : Core} (h1 : Later c c1) (h2 : Later c1 c2) : Later c c2 := by
  refine ⟨fun t => (h1.woken t).trans (h2.woken t), fun t hs hl hw => ?_⟩
  have hw1 := h1.woken t
  have hw2 := h2.woken t
  obtain ⟨hs1, hl1⟩ := h1.asleep t hs hl (by omega)
  exact h2.asleep t hs1 hl1 (by omega)

theorem Later.of_alike {c c' : Core} (h : Alike c c')
    (hw : ∀ t, wakeCount t c.log ≤ wakeCount t c'.log) :
    Later c c' := by
  refine ⟨hw, fun t hs hl _ => ?_⟩
  rw [h.state, h.live]
  exact ⟨hs, hl⟩

theorem Stays.trans {c c1 c2 : Core} {q q1 q2 : KernelSeqs} {t : Nat} (h1 : Stays c q c1 q1 t)
    (h2 : Stays c1 q1 c2 q2 t) : Stays c q c2 q2 t :=
  ⟨h2.state.trans h1.state, h2.ready.trans h1.ready, h2.blocked.trans h1.blocked⟩

theorem Framed.trans {c c1 c2 : Core} {q q1 q2 : KernelSeqs} (h1 : Framed c q c1 q1)
    (h2 : Framed c1 q1 c2 q2) : Framed c q c2 q2 := by
  constructor
  · exact fun t => (h2.procOf t).trans (h1.procOf t)
  · exact fun t => (h2.childNum t).trans (h1.childNum t)
  · exact h2.procs.trans h1.procs
  · exact h2.current.trans h1.current
  · exact h2.idleT.trans h1.idleT
  · exact h2.live.trans h1.live
  · exact h2.liveProcs.trans h1.liveProcs
  · exact h2.dying.trans h1.dying
  · exact h2.procList.trans h1.procList
  · exact fun i u hu => h1.waits i u (h2.waits i u hu)
  · exact h1.later.trans h2.later

theorem Woken.trans {c c1 c2 : Core} {q q1 q2 : KernelSeqs} (h1 : Woken c q c1 q1)
    (h2 : Woken c1 q1 c2 q2) : Woken c q c2 q2 := by
  refine ⟨h1.toFramed.trans h2.toFramed, fun t ht => ?_⟩
  have hs1 := h1.stays t ht
  refine hs1.trans (h2.stays t ?_)
  rwa [Core.Sleeps, hs1.state, h1.live]

theorem Framed.of_agree {c c' : Core} {q q' : KernelSeqs} (h : Alike c c')
    (hd : q'.get .dyingThreads = q.get .dyingThreads)
    (hp : q'.get .allProcs = q.get .allProcs)
    (hwaits : ∀ i u, .waitNode u ∈ q'.get i → .waitNode u ∈ q.get i)
    (hw : ∀ t, wakeCount t c.log ≤ wakeCount t c'.log) : Framed c q c' q' := by
  constructor
  · exact h.procOf
  · exact h.childNum
  · exact h.procs
  · exact h.current
  · exact h.idleT
  · exact h.live
  · exact h.liveProcs
  · exact hd
  · exact hp
  · exact hwaits
  · exact Later.of_alike h hw

theorem Woken.of_agree {c c' : Core} {q q' : KernelSeqs} (h : Alike c c')
    (hr : q'.get .readyThreads = q.get .readyThreads)
    (hb : q'.get .blockedThreads = q.get .blockedThreads)
    (hd : q'.get .dyingThreads = q.get .dyingThreads)
    (hp : q'.get .allProcs = q.get .allProcs)
    (hwaits : ∀ i u, .waitNode u ∈ q'.get i → .waitNode u ∈ q.get i)
    (hw : ∀ t, wakeCount t c.log ≤ wakeCount t c'.log) : Woken c q c' q' :=
  ⟨Framed.of_agree h hd hp hwaits hw, fun t _ => ⟨h.state t, by rw [hr], by rw [hb]⟩⟩

theorem Woken.of_alike {c c' : Core} (h : Alike c c') (q : KernelSeqs)
    (hw : ∀ t, wakeCount t c.log ≤ wakeCount t c'.log) : Woken c q c' q :=
  Woken.of_agree h rfl rfl rfl rfl (fun _ _ hu => hu) hw

theorem accessible_congr {c c' : Core} (hlive : c'.live = c.live)
    (hprocs : c'.liveProcs = c.liveProcs) (i : ListId) :
    Core.Accessible c' i ↔ Core.Accessible c i := by
  cases i with
  | threadWaiters t => rw [Core.Accessible, Core.Accessible, hlive]
  | procWaiters p => rw [Core.Accessible, Core.Accessible, hprocs]
  | _ => exact Iff.rfl

theorem Framed.accessible {c c' : Core} {q q' : KernelSeqs} (h : Framed c q c' q') {i : ListId}
    (hi : Core.Accessible c i) : Core.Accessible c' i :=
  (accessible_congr h.live h.liveProcs i).mpr hi

theorem fits_congr {c c' : Core} (hlive : c'.live = c.live) (hprocs : c'.liveProcs = c.liveProcs)
    (i : ListId) (a : NodeAddr) : Core.Fits c' i a ↔ Core.Fits c i a := by
  cases i <;> simp only [Core.Fits, hlive, hprocs]

theorem Inv.alike {out : Nat → Prop} {c c' : Core} {q : KernelSeqs} (h : Inv out c q)
    (ha : Alike c c') (hrel : ∀ t b, .release t b ∈ c'.log → .release t b ∈ c.log) :
    Inv out c' q := by
  constructor
  · exact fun i hi => h.lists i ((accessible_congr ha.live ha.liveProcs i).mp hi)
  · exact fun i hi => h.stale i fun hi' => hi ((accessible_congr ha.live ha.liveProcs i).mpr hi')
  · exact fun i a hai => (fits_congr ha.live ha.liveProcs i a).mpr (h.fits i a hai)
  · intro t ht hout
    rw [ha.live] at ht
    rw [Placed, ha.state]
    exact h.placed t ht hout
  · rw [ha.idleT, ha.live]
    exact h.idle
  · intro t ht
    rw [ha.live] at ht
    rw [ha.liveProcs, ha.procOf]
    exact h.procs t ht
  · exact fun t b hb => h.released t b (hrel t b hb)

/-- The lists that hold the nodes of threads. -/
def HoldsThreads : ListId → Prop
  | .readyThreads => True
  | .blockedThreads => True
  | .dyingThreads => True
  | _ => False

/-- The lists that hold the wait nodes of threads. -/
def HoldsWaiters : ListId → Prop
  | .threadWaiters _ => True
  | .procWaiters _ => True
  | _ => False

theorem HoldsWaiters.ne_ready {i : ListId} (h : HoldsWaiters i) : i ≠ .readyThreads := by
  rintro rfl
  exact h

theorem HoldsWaiters.ne_blocked {i : ListId} (h : HoldsWaiters i) : i ≠ .blockedThreads := by
  rintro rfl
  exact h

theorem HoldsWaiters.ne_dying {i : ListId} (h : HoldsWaiters i) : i ≠ .dyingThreads := by
  rintro rfl
  exact h

theorem HoldsWaiters.ne_procs {i : ListId} (h : HoldsWaiters i) : i ≠ .allProcs := by
  rintro rfl
  exact h

theorem not_isSentinel_node (t : Nat) : ¬ IsSentinel listAt (.node t) := by
  rintro ⟨i, h | h⟩ <;> simp [listAt] at h

theorem not_isSentinel_waitNode (t : Nat) : ¬ IsSentinel listAt (.waitNode t) := by
  rintro ⟨i, h | h⟩ <;> simp [listAt] at h

theorem not_isSentinel_procNode (p : Nat) : ¬ IsSentinel listAt (.procNode p) := by
  rintro ⟨i, h | h⟩ <;> simp [listAt] at h

/-- The nodes inside threads and processes. -/
def NodeAddr.isMember : NodeAddr → Bool
  | .head _ => false
  | .tail _ => false
  | _ => true

/-- The lists may hold any nodes of threads and processes, each at most once. -/
theorem exists_heap {rows : List (ListId × List NodeAddr)} (hnodes : (rows.flatMap Prod.snd).Nodup)
    (hmember : ∀ a ∈ rows.flatMap Prod.snd, NodeAddr.isMember a = true) :
    ∃ h, Represents listAt h fun i => rows.lookup i := by
  refine exists_represents sentinels_listAt hnodes (fun a ha => ?_) fun _ => ⟨none, none⟩
  cases a with
  | head _ => cases hmember _ ha
  | tail _ => cases hmember _ ha
  | node t => exact not_isSentinel_node t
  | waitNode t => exact not_isSentinel_waitNode t
  | procNode p => exact not_isSentinel_procNode p

theorem wakeCount_cons_le (t : Nat) (e : Event) (log : List Event) :
    wakeCount t log ≤ wakeCount t (e :: log) := by
  rw [wakeCount, wakeCount, List.countP_cons]
  omega

theorem wakeCount_cons_of_wakes {t : Nat} {e : Event} (he : Event.wakes t e = true)
    (log : List Event) : wakeCount t (e :: log) = wakeCount t log + 1 := by
  rw [wakeCount, wakeCount, List.countP_cons_of_pos he]

@[simp] theorem state_setState (c : Core) (t : Nat) (s : ThreadState) :
    (c.setState t s).state t = s := by
  simp [Core.state, Core.setState, Core.withThread]

theorem state_setState_of_ne {c : Core} {t t' : Nat} (h : t' ≠ t) (s : ThreadState) :
    (c.setState t s).state t' = c.state t' := by
  simp [Core.state, Core.setState, Core.withThread, Core.note, h]

@[simp] theorem procOf_setState (c : Core) (t t' : Nat) (s : ThreadState) :
    (c.setState t s).procOf t' = c.procOf t' := by
  simp only [Core.procOf, Core.setState, Core.withThread, Function.update_apply, Core.note]
  split
  · next heq => rw [heq]
  · rfl

@[simp] theorem childNum_setState (c : Core) (t t' : Nat) (s : ThreadState) :
    ((c.setState t s).threads t').childNum = (c.threads t').childNum := by
  simp only [Core.setState, Core.withThread, Function.update_apply, Core.note]
  split
  · next heq => rw [heq]
  · rfl

theorem Alike.setState {c c' : Core} (h : Alike c c') (t : Nat) (s : ThreadState) :
    Alike (c.setState t s) (c'.setState t s) := by
  constructor
  · intro u
    rcases eq_or_ne u t with rfl | hne
    · rw [state_setState, state_setState]
    · rw [state_setState_of_ne hne, state_setState_of_ne hne, h.state]
  · exact fun u => by rw [procOf_setState, procOf_setState, h.procOf]
  · exact fun u => by rw [childNum_setState, childNum_setState, h.childNum]
  · exact h.procs
  · exact h.current
  · exact h.idleT
  · exact h.live
  · exact h.liveProcs

/-- The events that the invariant and the sleeps of threads do not count. -/
structure Silent (log log' : List Event) : Prop where
  wakes : ∀ t, wakeCount t log' = wakeCount t log
  release : ∀ t b, .release t b ∈ log' ↔ .release t b ∈ log

theorem Silent.refl (log : List Event) : Silent log log :=
  ⟨fun _ => rfl, fun _ _ => Iff.rfl⟩

theorem Silent.trans {log log1 log2 : List Event} (h1 : Silent log log1) (h2 : Silent log1 log2) :
    Silent log log2 :=
  ⟨fun t => (h2.wakes t).trans (h1.wakes t), fun t b => (h2.release t b).trans (h1.release t b)⟩

theorem silent_changed (log : List Event) (i : ListId) (b : Bool) :
    Silent log (.changed i b :: log) :=
  ⟨fun t => List.countP_cons_of_neg (by simp [Event.wakes]), by simp⟩

theorem silent_noteCall (c : Core) {β : Type} (k : ListCall ListId NodeAddr β) :
    Silent c.log (c.noteCall k).log := by
  rw [Core.noteCall]
  split
  · exact silent_changed c.log k.list c.interrupts
  · exact Silent.refl c.log

theorem silent_setState (c : Core) (t : Nat) (s : ThreadState) :
    Silent c.log (c.setState t s).log :=
  ⟨fun u => List.countP_cons_of_neg (by simp [Event.wakes]),
    by simp [Core.setState, Core.note, Core.withThread]⟩

section Places

variable {out : Nat → Prop} {c : Core} {q : KernelSeqs} {u : Nat}

theorem Inv.mono {out' : Nat → Prop} (h : Inv out c q) (hout : ∀ t, out t → out' t) :
    Inv out' c q :=
  ⟨h.lists, h.stale, h.fits, fun t ht hn => h.placed t ht fun ho => hn (hout t ho), h.idle,
    h.procs, h.released⟩

/-- A thread that has been put in its place is no exception any more. -/
theorem Inv.put (h : Inv (fun t => out t ∨ t = u) c q) (hu : ¬ out u → Placed c q u) :
    Inv out c q := by
  refine ⟨h.lists, h.stale, h.fits, fun t ht hn => ?_, h.idle, h.procs, h.released⟩
  rcases eq_or_ne t u with rfl | hne
  · exact hu hn
  · exact h.placed t ht (by simp [hn, hne])

/-- A list gets other nodes: what fits on it, and the threads in their places. -/
theorem Inv.set {out' : Nat → Prop} {i : ListId} {l : List NodeAddr} (h : Inv out c q)
    (hstale : ¬ Core.Accessible c i → l = []) (hfit : ∀ a ∈ l, Core.Fits c i a ∨ a ∈ q.get i)
    (hplaced : ∀ t, c.live t = true → ¬ out' t → Placed c (q.set i l) t) :
    Inv out' c (q.set i l) := by
  refine ⟨fun j hj => Seqs.isSome_set (h.lists j hj), ?_, ?_, hplaced, h.idle, h.procs, h.released⟩
  · intro j hj
    rcases eq_or_ne j i with rfl | hji
    · rw [Seqs.get_set_same, hstale hj]
    · rw [Seqs.get_set_of_ne hji]
      exact h.stale j hj
  · intro j a ha
    rcases eq_or_ne j i with rfl | hji
    · rw [Seqs.get_set_same] at ha
      exact (hfit a ha).elim id (h.fits j a)
    · rw [Seqs.get_set_of_ne hji] at ha
      exact h.fits j a ha

/-- The list of a thread node changes at this node only. -/
theorem Inv.setNodes {i : ListId} {l : List NodeAddr} (h : Inv out c q) (hi : HoldsThreads i)
    (hfit : ∀ a ∈ l, (a = .node u ∧ c.live u = true) ∨ a ∈ q.get i)
    (hkeep : ∀ t, t ≠ u → (.node t ∈ l ↔ .node t ∈ q.get i)) :
    Inv (fun t => out t ∨ t = u) c (q.set i l) := by
  have hall : Core.Accessible c i := by
    cases i <;> first | exact trivial | exact hi.elim
  refine h.set (fun hacc => absurd hall hacc) (fun a ha => ?_) fun t ht hn => ?_
  · refine (hfit a ha).imp_left ?_
    rintro ⟨rfl, hu⟩
    cases i <;> first | exact ⟨u, rfl, hu⟩ | exact hi.elim
  · rw [not_or] at hn
    have hsame : ∀ j, .node t ∈ (q.set i l).get j ↔ .node t ∈ q.get j := by
      intro j
      rcases eq_or_ne j i with rfl | hji
      · rw [Seqs.get_set_same]
        exact hkeep t hn.2
      · rw [Seqs.get_set_of_ne hji]
    rw [Placed, hsame, hsame]
    exact h.placed t ht hn.1

/-- A list of waiters loses nodes. -/
theorem Inv.setWaiters {i : ListId} {l : List NodeAddr} (h : Inv out c q) (hi : HoldsWaiters i)
    (hfit : ∀ a ∈ l,
      (∃ u, a = .waitNode u ∧ c.live u = true ∧ Core.Accessible c i) ∨ a ∈ q.get i) :
    Inv out c (q.set i l) := by
  refine h.set (fun hacc => ?_) (fun a ha => ?_) fun t ht hn => ?_
  · refine List.eq_nil_iff_forall_not_mem.mpr fun a ha => ?_
    rcases hfit a ha with ⟨_, _, _, hacc'⟩ | ha
    · exact hacc hacc'
    · rw [h.stale i hacc] at ha
      exact List.not_mem_nil ha
  · refine (hfit a ha).imp_left ?_
    rintro ⟨u, rfl, hu, _⟩
    cases i <;> first | exact ⟨u, rfl, hu⟩ | exact hi.elim
  · rw [Placed, Seqs.get_set_of_ne hi.ne_ready.symm, Seqs.get_set_of_ne hi.ne_blocked.symm]
    exact h.placed t ht hn

theorem Inv.setState (h : Inv out c q) (s : ThreadState) :
    Inv (fun t => out t ∨ t = u) (c.setState u s) q := by
  refine ⟨h.lists, h.stale, h.fits, ?_, h.idle, ?_, ?_⟩
  · intro t ht hn
    rw [not_or] at hn
    rw [Placed, state_setState_of_ne hn.2]
    exact h.placed t ht hn.1
  · intro t ht
    rw [procOf_setState]
    exact h.procs t ht
  · intro t b hb
    simp only [Core.setState, Core.note, Core.withThread, List.mem_cons, reduceCtorEq,
      false_or] at hb
    exact h.released t b hb

/-- A thread leaves its list and changes its state. -/
theorem Inv.detach {i : ListId} (h : Inv out c q) (hi : HoldsThreads i) (s : ThreadState) :
    Inv (fun t => out t ∨ t = u) (c.setState u s) (q.set i ((q.get i).erase (.node u))) := by
  refine ((h.setState (u := u) s).setNodes (u := u) hi
    (fun a ha => Or.inr (List.mem_of_mem_erase ha)) fun t ht => ?_).mono ?_
  · exact List.mem_erase_of_ne (by simpa using ht)
  · rintro t (ht | ht)
    · exact ht
    · exact Or.inr ht

/-- It goes to the front of another list. -/
theorem Inv.moved {i j : ListId} (h : Inv out c q) (hu : c.live u = true) (s : ThreadState)
    (hi : HoldsThreads i) (hj : HoldsThreads j) (hji : j ≠ i) :
    Inv (fun t => out t ∨ t = u) (c.setState u s)
      ((q.set i ((q.get i).erase (.node u))).set j (.node u :: q.get j)) := by
  refine ((h.detach (u := u) hi s).setNodes (u := u) hj ?_ fun t ht => ?_).mono ?_
  · intro a ha
    rw [Seqs.get_set_of_ne hji]
    rcases List.mem_cons.mp ha with rfl | ha
    · exact Or.inl ⟨rfl, hu⟩
    · exact Or.inr ha
  · rw [Seqs.get_set_of_ne hji, List.mem_cons]
    simp [ht]
  · rintro t (ht | ht)
    · exact ht
    · exact Or.inr ht

/-- No list gets a wait node, if the one that changes does not. -/
theorem waits_set {i : ListId} {xs : List NodeAddr}
    (hxs : ∀ u, .waitNode u ∈ xs → .waitNode u ∈ q.get i) (j : ListId) (w : Nat)
    (hw : .waitNode w ∈ (q.set i xs).get j) : .waitNode w ∈ q.get j := by
  rcases eq_or_ne j i with rfl | hji
  · rw [Seqs.get_set_same] at hw
    exact hxs w hw
  · rwa [Seqs.get_set_of_ne hji] at hw

theorem Inv.detached_node (h : Inv out c q) {t : Nat} (hr : .node t ∉ q.get .readyThreads)
    (hb : .node t ∉ q.get .blockedThreads) (hd : .node t ∉ q.get .dyingThreads) :
    Detached listAt q (.node t) := by
  refine ⟨not_isSentinel_node t, fun i hi => ?_⟩
  have hfit := h.fits i _ hi
  cases i with
  | readyThreads => exact hr hi
  | blockedThreads => exact hb hi
  | dyingThreads => exact hd hi
  | allProcs => obtain ⟨p, hp, _⟩ := hfit; simp at hp
  | threadWaiters _ => obtain ⟨p, hp, _⟩ := hfit; simp at hp
  | procWaiters _ => obtain ⟨p, hp, _⟩ := hfit; simp at hp

/-- No node of a thread that does not exist is on a list. -/
theorem Inv.off_of_dead (h : Inv out c q) {t : Nat} (ht : c.live t = false) (i : ListId) :
    .node t ∉ q.get i ∧ .waitNode t ∉ q.get i := by
  have hno : c.live t ≠ true := by simp [ht]
  refine ⟨fun hin => ?_, fun hin => ?_⟩
  all_goals
    have hfit := h.fits i _ hin
    cases i with
    | allProcs =>
        obtain ⟨p, hp, _⟩ := hfit
        cases hp
    | _ =>
        obtain ⟨u, hu, hl⟩ := hfit
        simp only [NodeAddr.node.injEq, NodeAddr.waitNode.injEq, reduceCtorEq] at hu
        try exact hno (hu ▸ hl)

end Places

section Waking

variable {out : Nat → Prop} {c : Core} {q : KernelSeqs} {u : Nat}

/-- A blocked thread moves to the ready list. -/
theorem Inv.unblocked (h : Inv out c q) (hq : Apart q) (hu : c.live u = true) :
    Inv out (c.setState u .ready)
      ((q.set .blockedThreads ((q.get .blockedThreads).erase (.node u))).set .readyThreads
        (.node u :: q.get .readyThreads)) := by
  have hmoved := h.moved hu .ready (i := .blockedThreads) (j := .readyThreads) trivial trivial
    (by decide)
  refine hmoved.put fun _ => Or.inl ⟨state_setState c u .ready, ?_, ?_⟩
  · rw [Seqs.get_set_same]
    exact List.mem_cons_self
  · rw [Seqs.get_set_of_ne (by decide), Seqs.get_set_same]
    exact (hq.nodup .blockedThreads).not_mem_erase

/-- Every other thread stays where it is. -/
theorem stays_unblocked {c' : Core} (ha : Alike (c.setState u .ready) c') {t : Nat} (ht : t ≠ u) :
    Stays c q c'
      ((q.set .blockedThreads ((q.get .blockedThreads).erase (.node u))).set .readyThreads
      (.node u :: q.get .readyThreads)) t := by
  refine ⟨(ha.state t).trans (state_setState_of_ne ht .ready), ?_, ?_⟩
  · rw [Seqs.get_set_same, List.mem_cons]
    simp [ht]
  · rw [Seqs.get_set_of_ne (by decide), Seqs.get_set_same]
    exact List.mem_erase_of_ne (by simpa using ht)

/-- That is all that waking a thread changes. -/
theorem Woken.unblocked {c' : Core} (hlive : c.live u = true) (hstate : c.state u = .blocked)
    (ha : Alike (c.setState u .ready) c')
    (hw : ∀ t, wakeCount t c.log ≤ wakeCount t c'.log)
    (hu : wakeCount u c.log < wakeCount u c'.log) (hstays : ∀ t, t ≠ u → Stays c q c'
      ((q.set .blockedThreads ((q.get .blockedThreads).erase (.node u))).set .readyThreads
        (.node u :: q.get .readyThreads)) t) :
    Woken c q c'
      ((q.set .blockedThreads ((q.get .blockedThreads).erase (.node u))).set .readyThreads
      (.node u :: q.get .readyThreads)) := by
  have hne : ∀ t, ¬ Core.Sleeps c t → t ≠ u := by
    rintro t ht rfl
    exact ht ⟨hstate, hlive⟩
  refine ⟨?_, fun t ht => hstays t (hne t ht)⟩
  constructor
  · exact fun t => (ha.procOf t).trans (procOf_setState c u t .ready)
  · exact fun t => (ha.childNum t).trans (childNum_setState c u t .ready)
  · exact ha.procs
  · exact ha.current
  · exact ha.idleT
  · exact ha.live
  · exact ha.liveProcs
  · rw [Seqs.get_set_of_ne (by decide), Seqs.get_set_of_ne (by decide)]
  · rw [Seqs.get_set_of_ne (by decide), Seqs.get_set_of_ne (by decide)]
  · intro i w hi
    refine waits_set (fun v hv => List.mem_of_mem_erase hv) i w (waits_set (fun v hv => ?_) i w hi)
    rw [Seqs.get_set_of_ne (by decide)]
    simpa using hv
  · refine ⟨hw, fun t hs hl heq => ?_⟩
    have htu : t ≠ u := by
      rintro rfl
      omega
    rw [(hstays t htu).state, ha.live]
    exact ⟨hs, hl⟩

/-- `thread_unblock` keeps the invariant, and a thread that was in its place as
`THREAD_BLOCKED` is ready afterwards. -/
theorem wp_threadUnblock (h : Inv out c q) (hu : c.live u = true) :
    Wp listAt (threadUnblock u) (fun _ c' q' => Inv out c' q' ∧ Woken c q c' q' ∧
      (c.state u = .blocked → .node u ∈ q.get .blockedThreads → c'.state u = .ready) ∧
      (∀ i, HoldsWaiters i → q'.get i = q.get i) ∧ ∀ t, t ≠ u → Stays c q c' q' t) c q := by
  apply wp_of_apart
  intro hq
  apply Wp.bind
  apply wp_modifyCore
  apply Wp.bind
  apply wp_modifyCore
  apply Wp.bind
  apply wp_reads
  have hcount : ∀ t, wakeCount t c.log ≤ wakeCount t (Event.unblock u :: c.log) :=
    fun t => wakeCount_cons_le t _ c.log
  obtain ⟨c0, hc0⟩ : ∃ c0, c0 = (c.note (.unblock u)).withInterrupts false := ⟨_, rfl⟩
  have ha0 : Alike c c0 := by
    rw [hc0]
    exact (alike_note c _).trans (alike_withInterrupts _ _)
  have hlog0 : Silent (Event.unblock u :: c.log) c0.log := by
    rw [hc0]
    exact Silent.refl _
  rw [← hc0, ha0.state]
  by_cases hstate : c.state u = .blocked
  · rw [if_neg (not_not_intro hstate)]
    have ha1 : Alike c (c0.noteCall (ListCall.delete .blockedThreads (.node u))) :=
      ha0.trans (alike_noteCall c0 _)
    have hlog1 := hlog0.trans (silent_noteCall c0 (ListCall.delete .blockedThreads (.node u)))
    obtain ⟨c1, hc1⟩ : ∃ c1, c1 = c0.noteCall (ListCall.delete .blockedThreads (.node u)) :=
      ⟨_, rfl⟩
    apply Wp.bind
    apply wp_delete (h.lists .blockedThreads trivial)
    all_goals
      rw [← hc1] at ha1 hlog1 ⊢
      intro hon
    · apply Wp.bind
      apply wp_modifyCore
      apply Wp.bind
      apply wp_insert
      · exact Seqs.isSome_set (h.lists .readyThreads trivial)
      · exact ⟨not_isSentinel_node u, hq.erased hon⟩
      · apply wp_modifyCore
        rw [Seqs.get_set_of_ne (by decide)]
        have ha := ((ha1.setState u .ready).trans (alike_noteCall _
          (ListCall.insert .readyThreads (.node u)))).trans (alike_withInterrupts _ true)
        have hlog := (hlog1.trans (silent_setState c1 u .ready)).trans (silent_noteCall _
          (ListCall.insert .readyThreads (.node u)))
        refine ⟨(h.unblocked hq hu).alike ha fun t b hb => ?_,
          Woken.unblocked hu hstate ha (fun t => ?_) ?_ (fun t ht => stays_unblocked ha ht),
          fun _ _ => ?_, fun i hi => ?_, fun t ht => stays_unblocked ha ht⟩
        · have hb' := (hlog.release t b).mp hb
          simpa [Core.setState, Core.note, Core.withThread] using hb'
        · exact (hcount t).trans (hlog.wakes t).ge
        · refine lt_of_lt_of_eq ?_ (hlog.wakes u).symm
          rw [wakeCount_cons_of_wakes (by simp [Event.wakes])]
          exact Nat.lt_succ_self _
        · rw [ha.state, state_setState]
        · rw [Seqs.get_set_of_ne hi.ne_ready, Seqs.get_set_of_ne hi.ne_blocked]
    · apply wp_modifyCore
      have ha := ha1.trans (alike_withInterrupts c1 true)
      refine ⟨h.alike ha fun t b hb => ?_, Woken.of_alike ha q fun t => ?_,
        fun _ hon' => absurd hon' hon, fun _ _ => rfl,
        fun t _ => ⟨ha.state t, Iff.rfl, Iff.rfl⟩⟩
      · simpa using (hlog1.release t b).mp hb
      · exact (hcount t).trans (hlog1.wakes t).ge
  · rw [if_pos hstate]
    apply wp_modifyCore
    have ha := ha0.trans (alike_withInterrupts c0 true)
    refine ⟨h.alike ha fun t b hb => ?_, Woken.of_alike ha q fun t => ?_,
      fun hb => absurd hb hstate, fun _ _ => rfl, fun t _ => ⟨ha.state t, Iff.rfl, Iff.rfl⟩⟩
    · simpa using (hlog0.release t b).mp hb
    · exact (hcount t).trans (hlog0.wakes t).ge

/-- A list of waiters loses nodes, and no thread changes. -/
theorem Woken.of_waiters {c' : Core} {i : ListId} {xs : List NodeAddr} (ha : Alike c c')
    (hi : HoldsWaiters i) (hxs : ∀ a ∈ xs, a ∈ q.get i)
    (hw : ∀ t, wakeCount t c.log ≤ wakeCount t c'.log) : Woken c q c' (q.set i xs) := by
  refine Woken.of_agree ha ?_ ?_ ?_ ?_ ?_ hw
  · rw [Seqs.get_set_of_ne hi.ne_ready.symm]
  · rw [Seqs.get_set_of_ne hi.ne_blocked.symm]
  · rw [Seqs.get_set_of_ne hi.ne_dying.symm]
  · rw [Seqs.get_set_of_ne hi.ne_procs.symm]
  · exact waits_set fun u hu => hxs _ hu

/-- `list_pop` on a list of waiters. -/
theorem wp_popWaiters {Q : Option NodeAddr → Core → KernelSeqs → Prop} {i : ListId}
    (h : Inv out c q) (hi : HoldsWaiters i) (hacc : Core.Accessible c i)
    (hnone : ∀ c' q', Inv out c' q' → Woken c q c' q' → q.get i = [] → q'.get i = [] →
      Q none c' q')
    (hsome : ∀ u c' q', Inv out c' q' → Woken c q c' q' → c.live u = true →
      q.get i = .waitNode u :: q'.get i → Q (some (.waitNode u)) c' q') :
    Wp listAt (list (.pop i)) Q c q := by
  have hlog := silent_noteCall c (.pop i)
  have ha := alike_noteCall c (.pop i)
  have hwoken := Woken.of_waiters (q := q) ha hi (fun a ha => List.mem_of_mem_tail ha)
    fun t => (hlog.wakes t).ge
  have hinv : Inv out (c.noteCall (.pop i)) (q.set i (q.get i).tail) := by
    refine Inv.alike (h.setWaiters hi fun a ha => Or.inr (List.mem_of_mem_tail ha)) ha ?_
    exact fun t b hb => (hlog.release t b).mp hb
  apply wp_pop (h.lists i hacc)
  rcases hq : q.get i with _ | ⟨a, rest⟩
  · refine hnone _ _ ?_ ?_ hq ?_
    · simpa [hq] using hinv
    · simpa [hq] using hwoken
    · simp
  · have hfit := h.fits i a (by rw [hq]; exact List.mem_cons_self)
    obtain ⟨u, rfl, hu⟩ : ∃ u, a = .waitNode u ∧ c.live u = true := by
      cases i <;> first | exact hfit | exact hi.elim
    refine hsome u _ _ ?_ ?_ hu ?_
    · simpa [hq] using hinv
    · simpa [hq] using hwoken
    · rw [Seqs.get_set_same, hq, List.tail_cons]

theorem Woken.awake {c' : Core} {q' : KernelSeqs} {t : Nat} (hw : Woken c q c' q')
    (h : ¬ Core.Sleeps c t) : ¬ Core.Sleeps c' t := by
  rw [Core.Sleeps, (hw.stays t h).state, hw.live]
  exact h

theorem alike_setWaitCode (c : Core) (t : Nat) (code : Int) : Alike c (c.setWaitCode t code) := by
  have hthread : ∀ u, ((c.setWaitCode t code).threads u).state = (c.threads u).state ∧
      ((c.setWaitCode t code).threads u).proc = (c.threads u).proc ∧
      ((c.setWaitCode t code).threads u).childNum = (c.threads u).childNum := by
    intro u
    simp only [Core.setWaitCode, Core.withThread, Function.update_apply]
    split
    · next heq => simp [heq]
    · simp
  constructor
  · exact fun u => (hthread u).1
  · exact fun u => (hthread u).2.1
  · exact fun u => (hthread u).2.2
  all_goals rfl

/-- The loop wakes one waiter after the other; with `all` it empties the list, and wakes
every thread on it that was in its place. -/
theorem wp_notifyLoop {waiters : ListId} (hw : HoldsWaiters waiters) (all : Bool) (ret : Int)
    (h : Inv out c q) (hacc : Core.Accessible c waiters) (hu : c.live u = true) :
    Wp listAt (waiters.notifyLoop all ret (.waitNode u)) (fun _ c' q' => Inv out c' q' ∧
      Woken c q c' q' ∧ (all = true → q'.get waiters = [] ∧
        ∀ v, .waitNode v ∈ .waitNode u :: q.get waiters → ¬ out v → ¬ Core.Sleeps c' v)) c q := by
  obtain ⟨k, hk⟩ : ∃ k, k = (q.get waiters).length := ⟨_, rfl⟩
  induction k using Nat.strong_induction_on generalizing c q u with
  | _ k ih =>
      rw [ListId.notifyLoop]
      apply Wp.bind
      apply wp_pure
      apply Wp.bind
      apply wp_modifyCore
      have ha := alike_setWaitCode c u ret
      have h0 := h.alike ha fun t b hb => hb
      have hw0 := Woken.of_alike ha q fun t => le_rfl
      apply Wp.bind
      refine (wp_threadUnblock h0 (ha.live ▸ hu)).mono ?_
      rintro _ c1 q1 ⟨h1, hw1, hwakes, hsame, _⟩
      have hw01 := hw0.trans hw1
      have hfirst : ¬ out u → ¬ Core.Sleeps c1 u := by
        intro hout
        by_cases hsleeps : Core.Sleeps c u
        · obtain ⟨hr, _⟩ | ⟨_, _, hin⟩ := h.placed u hu hout
          · rw [hsleeps.1] at hr
            cases hr
          · rw [Core.Sleeps, hwakes ((ha.state u).trans hsleeps.1) hin]
            simp
        · exact hw01.awake hsleeps
      apply Wp.bind
      apply wp_popWaiters h1 hw (hw01.accessible hacc)
      · intro c2 q2 h2 hw2 hnone hempty
        refine wp_pure ⟨h2, hw01.trans hw2, fun _ => ⟨hempty, fun v hv hout => ?_⟩⟩
        rw [← hsame waiters hw, hnone, List.mem_singleton, NodeAddr.waitNode.injEq] at hv
        subst hv
        exact hw2.awake (hfirst hout)
      · intro v c2 q2 h2 hw2 hv hpop
        cases all with
        | false => exact wp_pure ⟨h2, hw01.trans hw2, by simp⟩
        | true =>
            have hlive : c2.live v = true := by
              rw [hw2.live]
              exact hv
            refine (ih _ ?_ h2 ((hw01.trans hw2).accessible hacc) hlive rfl).mono ?_
            · rw [hk, ← hsame waiters hw, hpop]
              exact Nat.lt_succ_self _
            · rintro _ c3 q3 ⟨h3, hw3, hawake⟩
              obtain ⟨hempty, hawake⟩ := hawake rfl
              refine ⟨h3, (hw01.trans hw2).trans hw3, fun _ => ⟨hempty, fun x hx hout => ?_⟩⟩
              rcases List.mem_cons.mp hx with heq | hx
              · cases heq
                exact hw3.awake (hw2.awake (hfirst hout))
              · rw [← hsame waiters hw, hpop] at hx
                exact hawake x hx hout

/-- `thread_notify` and `proc_notify`. -/
theorem wp_notify {waiters : ListId} (hw : HoldsWaiters waiters) (all : Bool) (ret : Int)
    (h : Inv out c q) (hacc : Core.Accessible c waiters) :
    Wp listAt (notify waiters all ret) (fun _ c' q' => Inv out c' q' ∧ Woken c q c' q' ∧
      (all = true → q'.get waiters = [] ∧
        ∀ v, .waitNode v ∈ q.get waiters → ¬ out v → ¬ Core.Sleeps c' v)) c q := by
  apply Wp.bind
  apply wp_popWaiters h hw hacc
  · intro c1 q1 h1 hw1 hnone hempty
    refine wp_pure ⟨h1, hw1, fun _ => ⟨hempty, fun v hv => ?_⟩⟩
    rw [hnone] at hv
    exact absurd hv List.not_mem_nil
  · intro u c1 q1 h1 hw1 hu hpop
    apply Wp.bind
    refine (wp_notifyLoop hw all ret h1 (hw1.accessible hacc) (hw1.live ▸ hu)).mono ?_
    rintro _ c2 q2 ⟨h2, hw2, hawake⟩
    rw [← hpop] at hawake
    exact wp_pure ⟨h2, hw1.trans hw2, hawake⟩

end Waking

/-- Cleaning up the thread takes the count of its process to zero. -/
def Core.EndsProc (c : Core) (x : Nat) : Prop :=
  ((c.procs (c.procOf x)).numLiveThreads + 255) % 256 = 0

/-- A thread that may be cleaned up: it is dying, its nodes are on no list that
outlives it, nobody waits for it, and its process ends with its last thread. -/
structure Doomed (x : Nat) (c : Core) (q : KernelSeqs) : Prop where
  live : c.live x = true
  state : c.state x = .dying
  off : ∀ i, .node x ∉ q.get i
  waits : ∀ i, .waitNode x ∈ q.get i → i = .procWaiters (c.procOf x) ∧ Core.EndsProc c x
  waiters : q.get (.threadWaiters x) = []
  last : Core.EndsProc c x → ∀ t, c.live t = true → c.procOf t = c.procOf x → t = x
  notIdle : c.idleT ≠ some x

/-- What cleaning up a thread changes at most. -/
structure Cleaned (x : Nat) (c : Core) (q : KernelSeqs) (c' : Core) (q' : KernelSeqs) : Prop where
  procOf : ∀ t, c'.procOf t = c.procOf t
  childNum : ∀ t, (c'.threads t).childNum = (c.threads t).childNum
  current : c'.current = c.current
  idleT : c'.idleT = c.idleT
  live : c'.live = Function.update c.live x false
  stays : ∀ t, ¬ Core.Sleeps c t → Stays c q c' q' t
  dying : q'.get .dyingThreads = q.get .dyingThreads
  waits : ∀ i u, .waitNode u ∈ q'.get i → .waitNode u ∈ q.get i
  later : Later c c'
  woken : wakeCount x c.log < wakeCount x c'.log
  released : .release x true ∈ c'.log
  procs : c'.procs = Function.update c.procs (c.procOf x)
    ((c.procs (c.procOf x)).endThread (c.threads x).childNum)
  proceeds : ¬ Core.EndsProc c x →
    c'.liveProcs = c.liveProcs ∧ q'.get .allProcs = q.get .allProcs
  ends : Core.EndsProc c x → c'.liveProcs = Function.update c.liveProcs (c.procOf x) false ∧
    q'.get .allProcs = (q.get .allProcs).erase (.procNode (c.procOf x))

section Cleaning

variable {out : Nat → Prop} {c : Core} {q : KernelSeqs} {x : Nat}

/-- Giving back a thread whose nodes are on no list. -/
theorem Inv.free {c' : Core} (h : Inv (fun t => out t ∨ t = x) c q)
    (hstate : ∀ t, c'.state t = c.state t) (hprocOf : ∀ t, c'.procOf t = c.procOf t)
    (hidle : c'.idleT = c.idleT) (hnotIdle : c.idleT ≠ some x)
    (hlive : c'.live = Function.update c.live x false)
    (hprocs : ∀ t, c.live t = true → t ≠ x → c'.liveProcs (c.procOf t) = true)
    (hsub : ∀ p, c'.liveProcs p = true → c.liveProcs p = true)
    (hempty : ∀ p, ¬ c'.liveProcs p = true → q.get (.procWaiters p) = [])
    (hall : ∀ p, .procNode p ∈ q.get .allProcs → c'.liveProcs p = true)
    (hoff : ∀ i, .node x ∉ q.get i) (hwaits : ∀ i, .waitNode x ∉ q.get i)
    (hwaiters : q.get (.threadWaiters x) = [])
    (hrel : ∀ t b, .release t b ∈ c'.log → .release t b ∈ c.log ∨ b = true) : Inv out c' q := by
  have hlive_iff : ∀ t, c'.live t = true ↔ t ≠ x ∧ c.live t = true := by
    intro t
    rw [hlive, Function.update_apply]
    split
    · next heq => simp [heq]
    · next hne => simp [hne]
  constructor
  · intro i hi
    refine h.lists i ?_
    cases i with
    | threadWaiters t => exact ((hlive_iff t).mp hi).2
    | procWaiters p => exact hsub p hi
    | _ => trivial
  · intro i hi
    cases i with
    | threadWaiters t =>
        rcases eq_or_ne t x with rfl | hne
        · exact hwaiters
        · exact h.stale _ fun hacc => hi ((hlive_iff t).mpr ⟨hne, hacc⟩)
    | procWaiters p => exact hempty p hi
    | _ => exact absurd trivial hi
  · have hnode : ∀ i t, .node t ∈ q.get i → c.live t = true → c'.live t = true := by
      refine fun i t ht hl => (hlive_iff t).mpr ⟨?_, hl⟩
      rintro rfl
      exact hoff i ht
    have hwait : ∀ i t, .waitNode t ∈ q.get i → c.live t = true → c'.live t = true := by
      refine fun i t ht hl => (hlive_iff t).mpr ⟨?_, hl⟩
      rintro rfl
      exact hwaits i ht
    intro i a ha
    have hfit := h.fits i a ha
    cases i with
    | allProcs =>
        obtain ⟨p, rfl, _⟩ := hfit
        exact ⟨p, rfl, hall p ha⟩
    | threadWaiters _ =>
        obtain ⟨t, rfl, hl⟩ := hfit
        exact ⟨t, rfl, hwait _ t ha hl⟩
    | procWaiters _ =>
        obtain ⟨t, rfl, hl⟩ := hfit
        exact ⟨t, rfl, hwait _ t ha hl⟩
    | _ =>
        obtain ⟨t, rfl, hl⟩ := hfit
        exact ⟨t, rfl, hnode _ t ha hl⟩
  · intro t ht hout
    obtain ⟨hne, hl⟩ := (hlive_iff t).mp ht
    rw [Placed, hstate]
    exact h.placed t hl (by simp [hout, hne])
  · obtain ⟨t, hid, hl⟩ := h.idle
    refine ⟨t, hidle.trans hid, (hlive_iff t).mpr ⟨?_, hl⟩⟩
    rintro rfl
    exact hnotIdle hid
  · intro t ht
    obtain ⟨hne, hl⟩ := (hlive_iff t).mp ht
    rw [hprocOf]
    exact hprocs t hl hne
  · intro t b hb
    rcases hrel t b hb with hb | hb
    · exact h.released t b hb
    · exact hb

/-- Processes leave the list of all processes. -/
theorem Inv.setProcs {xs : List NodeAddr} (h : Inv out c q)
    (hxs : ∀ a ∈ xs, (∃ p, a = .procNode p ∧ c.liveProcs p = true) ∨ a ∈ q.get .allProcs) :
    Inv out c (q.set .allProcs xs) := by
  refine h.set (absurd trivial) hxs fun t ht hout => ?_
  rw [Placed, Seqs.get_set_of_ne (by decide), Seqs.get_set_of_ne (by decide)]
  exact h.placed t ht hout

/-- A list of waiters that was empty stays so. -/
theorem Inv.nil_of_framed {c' : Core} {q' : KernelSeqs} (h' : Inv out c' q')
    (hw : Framed c q c' q') {i : ListId} (hi : HoldsWaiters i) (hnil : q.get i = []) :
    q'.get i = [] := by
  refine List.eq_nil_iff_forall_not_mem.mpr fun a ha => ?_
  have hfit := h'.fits i a ha
  obtain ⟨t, rfl, _⟩ : ∃ t, a = .waitNode t ∧ c'.live t = true := by
    cases i <;> first | exact hfit | exact hi.elim
  have hold := hw.waits i t ha
  rw [hnil] at hold
  exact List.not_mem_nil hold

/-- A thread that is on no list and not blocked stays so while others are woken. -/
theorem Inv.off_of_woken {c' : Core} {q' : KernelSeqs} (h' : Inv out c' q')
    (hw : Woken c q c' q') (hne : ¬ Core.Sleeps c x) (hoff : ∀ i, .node x ∉ q.get i)
    (i : ListId) : .node x ∉ q'.get i := by
  refine (h'.detached_node ?_ ?_ ?_).2 i
  · exact fun hi => hoff _ ((hw.stays x hne).ready.mp hi)
  · exact fun hi => hoff _ ((hw.stays x hne).blocked.mp hi)
  · exact fun hi => hoff _ (hw.dying ▸ hi)

/-- The end of `thread_cleanup` for a thread whose process goes on. -/
theorem Inv.freeThread (h : Inv (fun t => out t ∨ t = x) c q) (hlive : c.live x = true)
    (hnotIdle : c.idleT ≠ some x) (hoff : ∀ i, .node x ∉ q.get i)
    (hwaits : ∀ i, .waitNode x ∉ q.get i) (hwaiters : q.get (.threadWaiters x) = []) :
    Inv out (c.freeThread x) q := by
  refine h.free (fun _ => rfl) (fun _ => rfl) rfl hnotIdle rfl (fun t ht _ => h.procs t ht)
    (fun _ hp => hp) (fun p hp => h.stale _ hp) ?_ hoff hwaits hwaiters ?_
  · intro p hp
    obtain ⟨p', hp', hl⟩ := h.fits _ _ hp
    simp only [NodeAddr.procNode.injEq] at hp'
    rwa [hp']
  · intro t b hb
    simp only [Core.freeThread, Core.note, List.mem_cons, Event.release.injEq] at hb
    rcases hb with ⟨_, rfl⟩ | hb
    · exact Or.inr hlive
    · exact Or.inl hb

/-- The same for the last thread of its process. -/
theorem Inv.freeThreadProc (h : Inv (fun t => out t ∨ t = x) c q) (hlive : c.live x = true)
    (hnotIdle : c.idleT ≠ some x) (hoff : ∀ i, .node x ∉ q.get i)
    (hwaits : ∀ i, .waitNode x ∉ q.get i) (hwaiters : q.get (.threadWaiters x) = [])
    (hlast : ∀ t, c.live t = true → c.procOf t = c.procOf x → t = x)
    (hproc : q.get (.procWaiters (c.procOf x)) = [])
    (hnode : .procNode (c.procOf x) ∉ q.get .allProcs) :
    Inv out ((c.freeProc (c.procOf x)).freeThread x) q := by
  have hlive_iff : ∀ p, ((c.freeProc (c.procOf x)).freeThread x).liveProcs p = true ↔
      p ≠ c.procOf x ∧ c.liveProcs p = true := by
    intro p
    change Function.update c.liveProcs (c.procOf x) false p = true ↔ _
    rw [Function.update_apply]
    split
    · next heq => simp [heq]
    · next hne => simp [hne]
  refine h.free (fun _ => rfl) (fun _ => rfl) rfl hnotIdle rfl ?_ ?_ ?_ ?_ hoff hwaits hwaiters ?_
  · exact fun t ht hne => (hlive_iff _).mpr ⟨fun heq => hne (hlast t ht heq), h.procs t ht⟩
  · exact fun p hp => ((hlive_iff p).mp hp).2
  · intro p hp
    rcases eq_or_ne p (c.procOf x) with rfl | hne
    · exact hproc
    · exact h.stale _ fun hl => hp ((hlive_iff p).mpr ⟨hne, hl⟩)
  · intro p hp
    obtain ⟨p', hp', hl⟩ := h.fits _ _ hp
    simp only [NodeAddr.procNode.injEq] at hp'
    refine (hlive_iff p).mpr ⟨?_, hp' ▸ hl⟩
    rintro rfl
    exact hnode hp
  · intro t b hb
    simp only [Core.freeThread, Core.freeProc, Core.note, List.mem_cons, Event.release.injEq] at hb
    rcases hb with ⟨_, rfl⟩ | hb
    · exact Or.inr hlive
    · exact Or.inl hb

theorem Inv.withProc (h : Inv out c q) (p : Nat) (f : Process → Process) :
    Inv out (c.withProc p f) q :=
  ⟨h.lists, h.stale, h.fits, h.placed, h.idle, h.procs, h.released⟩

theorem set_get_self {q : KernelSeqs} {i : ListId} (hi : (q i).isSome) : q.set i (q.get i) = q := by
  obtain ⟨xs, hxs⟩ := Option.isSome_iff_exists.mp hi
  rw [Seqs.get_of_eq hxs]
  exact Seqs.set_get hxs

/-- The process of the thread is dealt with as its count of threads says. -/
structure ProcCleaned (x : Nat) (c : Core) (q : KernelSeqs) (c' : Core) (q' : KernelSeqs) :
    Prop where
  procs : c'.procs = Function.update c.procs (c.procOf x)
    ((c.procs (c.procOf x)).endThread (c.threads x).childNum)
  proceeds : ¬ Core.EndsProc c x →
    c'.liveProcs = c.liveProcs ∧ q'.get .allProcs = q.get .allProcs
  ends : Core.EndsProc c x → c'.liveProcs = Function.update c.liveProcs (c.procOf x) false ∧
    q'.get .allProcs = (q.get .allProcs).erase (.procNode (c.procOf x))

theorem Cleaned.of_woken {c1 c2 c' : Core} {q1 q' : KernelSeqs} (hw : Woken c1 q c2 q1)
    (hthreads : c1.threads = c.threads) (hcurrent : c1.current = c.current)
    (hidle : c1.idleT = c.idleT) (hlive : c1.live = c.live) (hlog : c1.log = c.log)
    (hdying : c.state x = .dying) (hthreads' : c'.threads = c2.threads)
    (hcurrent' : c'.current = c2.current) (hidle' : c'.idleT = c2.idleT)
    (hlive' : c'.live = Function.update c2.live x false)
    (hlog' : c'.log = .release x true :: c2.log) (hq : ∀ i, i ≠ .allProcs → q'.get i = q1.get i)
    (hwaits : ∀ u, .waitNode u ∉ q'.get .allProcs) (hproc : ProcCleaned x c q c' q') :
    Cleaned x c q c' q' := by
  have hstate : ∀ t, c1.state t = c.state t := fun t => by rw [Core.state, hthreads, Core.state]
  have hstate' : ∀ t, c'.state t = c2.state t :=
    fun t => by rw [Core.state, hthreads', Core.state]
  have hne : ∀ t, ¬ Core.Sleeps c t → ¬ Core.Sleeps c1 t := by
    intro t ht
    rwa [Core.Sleeps, hstate, hlive]
  have hcount : ∀ t, wakeCount t c2.log ≤ wakeCount t c'.log := by
    rw [hlog']
    exact fun t => wakeCount_cons_le t _ _
  constructor
  · intro t
    rw [Core.procOf, hthreads', ← Core.procOf, hw.procOf, Core.procOf, hthreads, Core.procOf]
  · intro t
    rw [hthreads', hw.childNum, hthreads]
  · rw [hcurrent', hw.current, hcurrent]
  · rw [hidle', hw.idleT, hidle]
  · rw [hlive', hw.live, hlive]
  · intro t ht
    have hs := hw.stays t (hne t ht)
    refine ⟨((hstate' t).trans hs.state).trans (hstate t), ?_, ?_⟩
    · rw [hq _ (by decide)]
      exact hs.ready
    · rw [hq _ (by decide)]
      exact hs.blocked
  · rw [hq _ (by decide)]
    exact hw.dying
  · intro i u hu
    rcases eq_or_ne i .allProcs with rfl | hi
    · exact absurd hu (hwaits u)
    · rw [hq i hi] at hu
      exact hw.waits i u hu
  · refine ⟨fun t => (hlog ▸ hw.later.woken t).trans (hcount t), fun t hs hl heq => ?_⟩
    have hle := hw.later.woken t
    have hle' := hcount t
    rw [hlog] at hle
    obtain ⟨hs2, hl2⟩ := hw.later.asleep t ((hstate t).trans hs) (hlive ▸ hl) (by rw [hlog]; omega)
    refine ⟨(hstate' t).trans hs2, ?_⟩
    have hne : t ≠ x := by
      rintro rfl
      rw [hdying] at hs
      exact absurd hs (by decide)
    rwa [hlive', Function.update_of_ne hne]
  · have hle := hw.later.woken x
    rw [hlog', wakeCount_cons_of_wakes (by simp [Event.wakes]), ← hlog]
    omega
  · rw [hlog']
    exact List.mem_cons_self
  · exact hproc.procs
  · exact hproc.proceeds
  · exact hproc.ends

/-- `proc_cleanup` of a process without live threads. -/
theorem wp_procCleanup {p : Nat} (h : Inv out c q) (hp : c.liveProcs p = true)
    (hcount : (c.procs p).numLiveThreads = 0) :
    Wp listAt (procCleanup p) (fun _ c' q' => Inv out c' q' ∧
      q'.get (.procWaiters p) = [] ∧ .procNode p ∉ q'.get .allProcs ∧
      ∃ q1, Woken c q c' q1 ∧ q' = q1.set .allProcs ((q.get .allProcs).erase (.procNode p)))
      c q := by
  have hwaiters : HoldsWaiters (.procWaiters p) := trivial
  apply Wp.bind
  apply wp_reads
  rw [if_neg (not_not_intro hcount)]
  apply Wp.bind
  refine (wp_notify hwaiters true 0 h hp).mono ?_
  rintro _ c1 q1 ⟨h1, hw1, hempty⟩
  replace hempty := (hempty rfl).1
  apply wp_of_apart
  intro hq1
  have ha : Alike c1 (c1.noteCall (.delete .allProcs (.procNode p))) := alike_noteCall _ _
  have hlog : Silent c1.log (c1.noteCall (.delete .allProcs (.procNode p))).log :=
    silent_noteCall _ _
  have hw : Woken c q (c1.noteCall (.delete .allProcs (.procNode p))) q1 :=
    hw1.trans (Woken.of_alike ha q1 fun t => (hlog.wakes t).ge)
  have hlist := h1.lists .allProcs trivial
  apply Wp.bind
  apply wp_delete hlist
  · intro _
    apply wp_pure
    refine ⟨?_, ?_, ?_, q1, hw, by rw [hw1.procList]⟩
    · refine (h1.setProcs fun a ha => Or.inr (List.mem_of_mem_erase ha)).alike ha ?_
      exact fun t b hb => (hlog.release t b).mp hb
    · rw [Seqs.get_set_of_ne (by simp)]
      exact hempty
    · rw [Seqs.get_set_same]
      exact (hq1.nodup .allProcs).not_mem_erase
  · intro hnode
    apply wp_pure
    refine ⟨?_, hempty, hnode, q1, hw, ?_⟩
    · exact h1.alike ha fun t b hb => (hlog.release t b).mp hb
    · rw [← hw1.procList, List.erase_of_not_mem hnode, set_get_self hlist]

/-- Cleaning up a doomed thread leaves the invariant for the others. -/
theorem wp_threadCleanup (h : Inv (fun t => out t ∨ t = x) c q) (hx : Doomed x c q) :
    Wp listAt (threadCleanup x) (fun _ c' q' => Inv out c' q' ∧ Cleaned x c q c' q') c q := by
  apply Wp.bind
  apply wp_reads
  rw [if_neg (not_not_intro hx.state)]
  apply Wp.bind
  apply wp_reads
  apply Wp.bind
  apply wp_modifyCore
  apply Wp.bind
  apply wp_reads
  obtain ⟨c1, hc1⟩ : ∃ c1, c1 = c.withProc (c.procOf x) fun p =>
    p.endThread (c.threads x).childNum := ⟨_, rfl⟩
  have h1 : Inv (fun t => out t ∨ t = x) c1 q := hc1 ▸ h.withProc _ _
  have hcount : (c1.procs (c.procOf x)).numLiveThreads =
      ((c.procs (c.procOf x)).numLiveThreads + 255) % 256 := by
    rw [hc1]
    simp [Core.withProc, Process.endThread]
  have hlive1 : c1.live = c.live := by rw [hc1]; rfl
  have hprocs1 : c1.liveProcs = c.liveProcs := by rw [hc1]; rfl
  have hidle1 : c1.idleT = c.idleT := by rw [hc1]; rfl
  have hthreads1 : c1.threads = c.threads := by rw [hc1]; rfl
  have hproclist1 : c1.procs = Function.update c.procs (c.procOf x)
      ((c.procs (c.procOf x)).endThread (c.threads x).childNum) := by rw [hc1]; rfl
  have hcleaned : ∀ c2 c' q1 q', Woken c1 q c2 q1 → c'.threads = c2.threads →
      c'.current = c2.current → c'.idleT = c2.idleT → c'.live = Function.update c2.live x false →
      c'.log = .release x (c2.live x) :: c2.log → (∀ i, i ≠ .allProcs → q'.get i = q1.get i) →
      (∀ u, .waitNode u ∉ q'.get .allProcs) → ProcCleaned x c q c' q' → Cleaned x c q c' q' := by
    intro c2 c' q1 q' hw h2 h3 h4 h5 h6 h7 h8 h9
    rw [hw.live, hlive1, hx.live] at h6
    exact Cleaned.of_woken hw hthreads1 (by rw [hc1]; rfl) hidle1 hlive1 (by rw [hc1]; rfl)
      hx.state h2 h3 h4 h5 h6 h7 h8 h9
  have hnoWait : ∀ u, .waitNode u ∉ q.get .allProcs := by
    intro u hu
    obtain ⟨p, hp, _⟩ := h.fits .allProcs _ hu
    cases hp
  rw [← hc1, hcount]
  split
  · next hends =>
      apply Wp.bind
      refine (wp_procCleanup h1 ?_ (hcount.trans hends)).mono ?_
      · rw [hprocs1]
        exact h.procs x hx.live
      rintro _ c2 q2 ⟨h2, hempty, hnode, q1, hw2, hq2⟩
      have hsame : ∀ i, i ≠ .allProcs → q2.get i = q1.get i := by
        intro i hi
        rw [hq2, Seqs.get_set_of_ne hi]
      have hlist : q2.get .allProcs = (q.get .allProcs).erase (.procNode (c.procOf x)) := by
        rw [hq2, Seqs.get_set_same]
      have hnoWait2 : ∀ u, .waitNode u ∉ q2.get .allProcs := by
        intro u hu
        rw [hlist] at hu
        exact hnoWait u (List.mem_of_mem_erase hu)
      apply Wp.bind
      apply wp_modifyCore
      apply Wp.bind
      apply wp_modifyCore
      apply wp_pure
      have hproc : ∀ t, c2.procOf t = c.procOf t := by
        intro t
        rw [hw2.procOf, Core.procOf, hthreads1, Core.procOf]
      have hstate : ¬ Core.Sleeps c1 x := by
        rw [Core.Sleeps, Core.state, hthreads1, ← Core.state, hx.state]
        simp
      have hoff2 : ∀ i, .node x ∉ q2.get i := by
        have hs := hw2.stays x hstate
        refine (h2.detached_node ?_ ?_ ?_).2
        · rw [hsame _ (by decide)]
          exact fun hi => hx.off _ (hs.ready.mp hi)
        · rw [hsame _ (by decide)]
          exact fun hi => hx.off _ (hs.blocked.mp hi)
        · rw [hsame _ (by decide), hw2.dying]
          exact hx.off _
      refine ⟨?_, hcleaned c2 _ q1 q2 hw2 rfl rfl rfl rfl rfl hsame hnoWait2 ⟨?_, ?_, ?_⟩⟩
      · rw [← hproc x]
        refine h2.freeThreadProc ?_ ?_ hoff2 ?_ ?_ ?_ ?_ ?_
        · rw [hw2.live, hlive1]
          exact hx.live
        · rw [hw2.idleT, hidle1]
          exact hx.notIdle
        · intro i hi
          rcases eq_or_ne i .allProcs with rfl | hne
          · exact hnoWait2 x hi
          · have hi1 := hi
            rw [hsame i hne] at hi1
            obtain ⟨rfl, _⟩ := hx.waits i (hw2.waits i x hi1)
            rw [hempty] at hi
            exact List.not_mem_nil hi
        · rw [hsame _ (by simp)]
          have hnil : q1.get (.threadWaiters x) = [] := by
            refine List.eq_nil_iff_forall_not_mem.mpr fun a ha => ?_
            have hfit := h2.fits (.threadWaiters x) a (by rw [hsame _ (by simp)]; exact ha)
            obtain ⟨u, rfl, _⟩ := hfit
            have hold := hw2.waits _ u ha
            rw [hx.waiters] at hold
            exact List.not_mem_nil hold
          exact hnil
        · intro t ht heq
          rw [hw2.live, hlive1] at ht
          rw [hproc, hproc] at heq
          exact hx.last hends t ht heq
        · rwa [hproc x]
        · rwa [hproc x]
      · exact hw2.procs.trans hproclist1
      · exact fun hgo => absurd hends hgo
      · refine fun _ => ⟨?_, hlist⟩
        change Function.update c2.liveProcs (c.procOf x) false = _
        rw [hw2.liveProcs, hprocs1]
  · next hends =>
      apply Wp.bind
      apply wp_modifyCore
      apply wp_pure
      have hw : Woken c1 q c1 q := Woken.of_alike (Alike.refl c1) q fun _ => le_rfl
      refine ⟨h1.freeThread (hlive1 ▸ hx.live) (hidle1 ▸ hx.notIdle) hx.off ?_ hx.waiters,
        hcleaned c1 _ q q hw rfl rfl rfl rfl rfl (fun _ _ => rfl) hnoWait ⟨?_, ?_, ?_⟩⟩
      · exact fun i hi => hends (hx.waits i hi).2
      · exact hproclist1
      · exact fun _ => ⟨hprocs1, rfl⟩
      · exact fun hend => absurd hend hends

end Cleaning

theorem Framed.refl (c : Core) (q : KernelSeqs) : Framed c q c q :=
  Framed.of_agree (Alike.refl c) rfl rfl (fun _ _ hu => hu) fun _ => le_rfl

end Longhorn.SchedulerRules
