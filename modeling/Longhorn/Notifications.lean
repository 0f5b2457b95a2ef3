import Longhorn.KernelRuns
import Longhorn.WaitRules

/-!
How many threads a notification wakes, and what it leaves on the list of waiters.
-/

namespace Longhorn.Notifications

open Longhorn.IntrusiveList
open Longhorn.ListRefinement
open Longhorn.ListPrograms
open Longhorn.ThreadModel
open Longhorn.KernelRuns
open Longhorn.SchedulerRules
open Longhorn.WaitRules

/-- The threads `ws` wait on the list, each blocked and on the list of blocked threads. -/
structure Awaited (waiters : ListId) (ws : List Nat) (c : Core) (q : KernelSeqs) : Prop where
  list : q waiters = some (ws.map .waitNode)
  ready : (q .readyThreads).isSome
  blocked : (q .blockedThreads).isSome
  asleep : ∀ w ∈ ws, Asleep c q w

/-- The thread is ready and has been given the code. -/
def WokenWith (ret : Int) (c : Core) (w : Nat) : Prop :=
  c.state w = .ready ∧ (c.threads w).waitCode = ret

/-- One of the waiters is woken, and the others stay on the list in their order, blocked. -/
def WakesOne (waiters : ListId) (ret : Int) (ws : List Nat) (s' : KernelState) : Prop :=
  ∃ w ∈ ws, WokenWith ret s'.core w ∧
    IsList s'.heap (listAt waiters) ((ws.erase w).map .waitNode) ∧
    ∀ v ∈ ws.erase w, s'.core.state v = .blocked

/-- All waiters are woken, and the list is left empty. -/
def WakesAll (waiters : ListId) (ret : Int) (ws : List Nat) (s' : KernelState) : Prop :=
  (∀ w ∈ ws, WokenWith ret s'.core w) ∧ IsList s'.heap (listAt waiters) []

/-- The notification wakes as many waiters as it is asked to. -/
def Notified (waiters : ListId) (all : Bool) (ret : Int) (ws : List Nat) (s' : KernelState) :
    Prop :=
  if all then WakesAll waiters ret ws s' else WakesOne waiters ret ws s'

section Rounds

variable {c c' : Core} {q q' : KernelSeqs} {waiters : ListId} {ws vs : List Nat} {w : Nat}
  {all : Bool} {ret : Int}

/-- The threads `ws` have been woken with the code, and no other thread has changed. -/
structure Roused (ret : Int) (ws : List Nat) (c c' : Core) : Prop where
  woken : ∀ w ∈ ws, WokenWith ret c' w
  state : ∀ v, v ∉ ws → c'.state v = c.state v
  waitCode : ∀ v, v ∉ ws → (c'.threads v).waitCode = (c.threads v).waitCode

theorem Roused.refl (ret : Int) (c : Core) : Roused ret [] c c :=
  ⟨fun _ hw => absurd hw List.not_mem_nil, fun _ _ => rfl, fun _ _ => rfl⟩

theorem Roused.cons {c1 : Core} (h : Roused ret [w] c c1) (h' : Roused ret vs c1 c')
    (hw : w ∉ vs) : Roused ret (w :: vs) c c' := by
  constructor
  · intro v hv
    rcases List.mem_cons.mp hv with rfl | hv
    · rw [WokenWith, h'.state v hw, h'.waitCode v hw]
      exact h.woken v List.mem_cons_self
    · exact h'.woken v hv
  · intro v hv
    rw [List.mem_cons, not_or] at hv
    rw [h'.state v hv.2, h.state v (by simpa using hv.1)]
  · intro v hv
    rw [List.mem_cons, not_or] at hv
    rw [h'.waitCode v hv.2, h.waitCode v (by simpa using hv.1)]

theorem roused_setWaitCode (hawake : Still ((c.setWaitCode w ret).setState w .ready) c') :
    Roused ret [w] c c' := by
  constructor
  · intro v hv
    obtain rfl := List.mem_singleton.mp hv
    refine ⟨(hawake.1.state v).trans (state_setState _ v _), ?_⟩
    rw [hawake.2, waitCode_setState]
    simp [Core.setWaitCode, Core.withThread]
  · intro v hv
    have hne : v ≠ w := by simpa using hv
    rw [hawake.1.state, state_setState_of_ne hne, (alike_setWaitCode c w ret).state]
  · intro v hv
    have hne : v ≠ w := by simpa using hv
    rw [hawake.2, waitCode_setState]
    simp [Core.setWaitCode, Core.withThread, hne]

/-- One round of the loop: the thread is woken, and the next node is taken off the list before
`all` is looked at. -/
theorem wp_notifyLoop_round {Q : Unit → Core → KernelSeqs → Prop} (hw : HoldsWaiters waiters)
    (h : Awaited waiters vs c q) (hasleep : Asleep c q w) (hout : w ∉ vs)
    (hnone : ∀ c' q', vs = [] → Roused ret [w] c c' → Awaited waiters [] c' q' → Q () c' q')
    (hnext : ∀ v rest c' q', vs = v :: rest → Roused ret [w] c c' → Awaited waiters rest c' q' →
      Asleep c' q' v → if all then Wp listAt (waiters.notifyLoop all ret (.waitNode v)) Q c' q'
        else Q () c' q') :
    Wp listAt (waiters.notifyLoop all ret (.waitNode w)) Q c q := by
  have hsleeps : Asleep (c.setWaitCode w ret) q w :=
    ⟨((alike_setWaitCode c w ret).state w).trans hasleep.1, hasleep.2⟩
  have hround : ∀ c1 q1, Unblocks w (c.setWaitCode w ret) q c1 q1 → Roused ret [w] c c1 ∧
      (∀ v, v ≠ w → Asleep c q v → ∀ xs, Asleep c1 (q1.set waiters xs) v) ∧
      ∀ rest, (∀ v ∈ rest, v ∈ vs) →
        Awaited waiters rest c1 (q1.set waiters (rest.map .waitNode)) := by
    rintro c1 q1 (⟨_, hstill, rfl⟩ | ⟨hawake, _⟩)
    · have hroused := roused_setWaitCode hstill
      have hasleep1 : ∀ v, v ≠ w → Asleep c q v → ∀ xs, Asleep c1
          (((q.set .blockedThreads ((q.get .blockedThreads).erase (.node w))).set .readyThreads
            (.node w :: q.get .readyThreads)).set waiters xs) v := by
        intro v hne hv xs
        refine ⟨?_, ?_⟩
        · rw [hroused.state v (by simpa using hne)]
          exact hv.1
        · rw [Seqs.get_set_of_ne hw.ne_blocked.symm, Seqs.get_set_of_ne (by decide),
            Seqs.get_set_same]
          exact (List.mem_erase_of_ne (by simpa using hne)).mpr hv.2
      refine ⟨hroused, hasleep1, fun rest hsub => ⟨by simp [Seqs.set], ?_, ?_, fun v hv =>
        hasleep1 v ?_ (h.asleep v (hsub v hv)) _⟩⟩
      · rw [Seqs.set_of_ne hw.ne_ready.symm]
        simp [Seqs.set]
      · rw [Seqs.set_of_ne hw.ne_blocked.symm, Seqs.set_of_ne (by decide)]
        simp [Seqs.set]
      · rintro rfl
        exact hout (hsub v hv)
    · exact absurd hsleeps hawake
  apply wp_notifyLoop_step hw h.list h.ready h.blocked
  · intro c1 q1 hnil hunblocks
    obtain ⟨hroused, _, hleft⟩ := hround c1 q1 hunblocks
    exact hnone _ _ hnil hroused (hleft [] fun _ hv => absurd hv List.not_mem_nil)
  · rintro v rest c1 q1 rfl hunblocks
    obtain ⟨hroused, hasleep1, hleft⟩ := hround c1 q1 hunblocks
    have hne : v ≠ w := by
      rintro rfl
      exact hout List.mem_cons_self
    exact hnext v rest _ _ rfl hroused (hleft rest fun u hu => List.mem_cons_of_mem v hu)
      (hasleep1 v hne (h.asleep v List.mem_cons_self) _)

theorem wp_notifyLoop_all (hw : HoldsWaiters waiters) (h : Awaited waiters vs c q)
    (hasleep : Asleep c q w) (hnodup : (w :: vs).Nodup) :
    Wp listAt (waiters.notifyLoop true ret (.waitNode w))
      (fun _ c' q' => Roused ret (w :: vs) c c' ∧ Awaited waiters [] c' q') c q := by
  induction vs generalizing c q w with
  | nil =>
      apply wp_notifyLoop_round hw h hasleep List.not_mem_nil
      · exact fun c' q' _ hr ha => ⟨hr, ha⟩
      · intro v rest c' q' heq
        cases heq
  | cons v rest ih =>
      obtain ⟨hout, hnodup⟩ := List.nodup_cons.mp hnodup
      apply wp_notifyLoop_round hw h hasleep hout
      · intro c' q' heq
        cases heq
      · rintro _ _ c1 q1 ⟨⟩ hr ha hv
        rw [if_pos rfl]
        exact (ih ha hv hnodup).mono fun _ c2 q2 ⟨hr2, ha2⟩ => ⟨hr.cons hr2 hout, ha2⟩

/-- Without it the first waiter is woken, and the second one is lost. -/
theorem wp_notifyLoop_one (hw : HoldsWaiters waiters) (h : Awaited waiters vs c q)
    (hasleep : Asleep c q w) (hout : w ∉ vs) :
    Wp listAt (waiters.notifyLoop false ret (.waitNode w))
      (fun _ c' q' => Roused ret [w] c c' ∧ Awaited waiters vs.tail c' q') c q := by
  apply wp_notifyLoop_round hw h hasleep hout
  · rintro c' q' rfl hr ha
    exact ⟨hr, ha⟩
  · rintro v rest c' q' rfl hr ha _
    rw [if_neg (by simp)]
    exact ⟨hr, ha⟩

theorem Awaited.nodup (h : Awaited waiters ws c q) (hq : Apart q) : ws.Nodup := by
  have hnodup := hq.nodup waiters
  rw [Seqs.get_of_eq h.list] at hnodup
  exact hnodup.of_map _

/-- A notification of at least one waiter. -/
theorem wp_notify_cons (hw : HoldsWaiters waiters) (h : Awaited waiters (w :: vs) c q) :
    Wp listAt (notify waiters all ret) (fun code c' q' => code = 0 ∧
      if all then Roused ret (w :: vs) c c' ∧ Awaited waiters [] c' q'
      else Roused ret [w] c c' ∧ Awaited waiters vs.tail c' q') c q := by
  apply wp_of_apart
  intro hq
  obtain ⟨hout, _⟩ := List.nodup_cons.mp (h.nodup hq)
  apply Wp.bind
  apply wp_pop (by simp [h.list])
  rw [Seqs.get_of_eq h.list, List.map_cons, List.head?_cons, List.tail_cons]
  have hstill := still_noteCall c (.pop waiters)
  have hasleep : ∀ v ∈ w :: vs, Asleep (c.noteCall (.pop waiters))
      (q.set waiters (vs.map .waitNode)) v := by
    intro v hv
    obtain ⟨hs, hin⟩ := h.asleep v hv
    refine ⟨(hstill.1.state v).trans hs, ?_⟩
    rwa [Seqs.get_set_of_ne hw.ne_blocked.symm]
  have h1 : Awaited waiters vs (c.noteCall (.pop waiters)) (q.set waiters (vs.map .waitNode)) := by
    refine ⟨by simp [Seqs.set], ?_, ?_, fun v hv => hasleep v (List.mem_cons_of_mem w hv)⟩
    · exact Seqs.isSome_set h.ready
    · exact Seqs.isSome_set h.blocked
  have hroused : ∀ ws c', Roused ret ws (c.noteCall (.pop waiters)) c' → Roused ret ws c c' :=
    fun ws c' hr => ⟨hr.woken, fun v hv => (hr.state v hv).trans (hstill.1.state v),
      fun v hv => (hr.waitCode v hv).trans (hstill.2 v)⟩
  apply Wp.bind
  cases all with
  | true =>
      refine (wp_notifyLoop_all hw h1 (hasleep w List.mem_cons_self) (h.nodup hq)).mono ?_
      rintro _ c' q' ⟨hr, ha⟩
      exact wp_pure ⟨rfl, hroused _ c' hr, ha⟩
  | false =>
      refine (wp_notifyLoop_one hw h1 (hasleep w List.mem_cons_self) hout).mono ?_
      rintro _ c' q' ⟨hr, ha⟩
      exact wp_pure ⟨rfl, hroused _ c' hr, ha⟩

end Rounds

section Counts

variable {s : KernelState} {q : KernelSeqs} {waiters : ListId} {ws : List Nat} {all : Bool}
  {ret : Int}

/-- A notification wakes as many waiters as it is asked to if and only if it is asked to wake
all of them, or there is only one. -/
theorem notify_notified_iff (hw : HoldsWaiters waiters) (hr : Represents listAt s.heap q)
    (h : Awaited waiters ws s.core q) (hne : ws ≠ []) :
    ∃ s', notify waiters all ret s = some (0, s') ∧
      (Notified waiters all ret ws s' ↔ all = true ∨ ws.length = 1) := by
  obtain ⟨w, vs, rfl⟩ := List.exists_cons_of_ne_nil hne
  obtain ⟨hout, _⟩ := List.nodup_cons.mp (h.nodup (apart_of_represents hr))
  have hwp : Wp listAt (notify waiters all ret) _ s.core q := wp_notify_cons hw h
  obtain ⟨_, c', h', q', heq, hr', rfl, hpost⟩ := hwp s.heap hr
  refine ⟨⟨c', h'⟩, heq, ?_⟩
  cases all with
  | true =>
      obtain ⟨hroused, hawaited⟩ := hpost
      have hnil : Awaited waiters [] c' q' := hawaited
      exact iff_of_true ⟨hroused.woken, hr'.lists _ _ hnil.list⟩ (Or.inl rfl)
  | false =>
      obtain ⟨hroused, hawaited⟩ := hpost
      have hlist := hr'.lists _ _ hawaited.list
      constructor
      · -- the second waiter is neither woken nor on the list
        rintro ⟨v, hv, _, hothers, _⟩
        have hlength := congrArg List.length (hlist.unique hothers)
        rw [List.length_map, List.length_map, List.length_erase_of_mem hv, List.length_tail,
          List.length_cons] at hlength
        refine Or.inr ?_
        rw [List.length_cons]
        omega
      · rintro (hall | hone)
        · cases hall
        · obtain rfl : vs = [] := by simpa using hone
          refine ⟨w, List.mem_singleton_self w, hroused.woken w List.mem_cons_self, ?_, ?_⟩
          · rw [List.erase_cons_head]
            exact hlist
          · rw [List.erase_cons_head]
            exact fun v hv => absurd hv List.not_mem_nil

/-- `thread_notify` and `proc_notify`, with any number of waiters. -/
theorem notified_iff (hr : Represents listAt s.heap q) (hne : ws ≠ []) :
    (∀ t, Awaited (.threadWaiters t) ws s.core q → ∃ s', threadNotify t all ret s = some (0, s') ∧
      (Notified (.threadWaiters t) all ret ws s' ↔ all = true ∨ ws.length = 1)) ∧
    ∀ p, Awaited (.procWaiters p) ws s.core q → ∃ s', procNotify p all ret s = some (0, s') ∧
      (Notified (.procWaiters p) all ret ws s' ↔ all = true ∨ ws.length = 1) :=
  ⟨fun _ h => notify_notified_iff trivial hr h hne, fun _ h => notify_notified_iff trivial hr h hne⟩

/-- Threads 2 and 3 are blocked. -/
def blockedCore : Core :=
  { zeroedState.core with
    threads := fun t => ⟨t, 0, 0, if t = 2 ∨ t = 3 then .blocked else .ready, 0, 0, 0⟩
    current := 1
    idleT := some 1
    live := fun t => decide (t = 1 ∨ t = 2 ∨ t = 3)
    liveProcs := fun p => decide (p = 0) }

def blockedLists (waiters : ListId) : KernelSeqs := fun i =>
  List.lookup i [(.readyThreads, []), (.blockedThreads, [.node 3, .node 2]),
    (waiters, [.waitNode 3, .waitNode 2])]

theorem exists_blocked (hw : HoldsWaiters waiters) :
    ∃ s : KernelState, Represents listAt s.heap (blockedLists waiters) ∧
      Awaited waiters [3, 2] s.core (blockedLists waiters) := by
  obtain ⟨h, hr⟩ : ∃ h, Represents listAt h (blockedLists waiters) :=
    exists_heap (by simp) (by simp [NodeAddr.isMember])
  refine ⟨⟨blockedCore, h⟩, hr, ?_, rfl, rfl, ?_⟩
  · simp [blockedLists, List.lookup_cons, beq_false_of_ne hw.ne_ready,
      beq_false_of_ne hw.ne_blocked]
  · intro w hw
    simp only [List.mem_cons, List.not_mem_nil, or_false] at hw
    rcases hw with rfl | rfl
    · exact ⟨rfl, List.mem_cons_self⟩
    · exact ⟨rfl, List.mem_cons_of_mem _ List.mem_cons_self⟩

theorem notified_iff_all : ∃ (s : KernelState) (q : KernelSeqs), Represents listAt s.heap q ∧
    Awaited (.threadWaiters 1) [3, 2] s.core q ∧
    ∃ s', threadNotify 1 true (-1) s = some (0, s') ∧
      (Notified (.threadWaiters 1) true (-1) [3, 2] s' ↔ true = true ∨ [3, 2].length = 1) := by
  obtain ⟨s, hr, h⟩ := exists_blocked (show HoldsWaiters (.threadWaiters 1) from trivial)
  exact ⟨s, _, hr, h, (notified_iff hr (List.cons_ne_nil 3 [2])).1 1 h⟩

/-- Of two waiters one is woken, and the other is on no list of waiters any more. -/
theorem not_notified : (∃ (s : KernelState) (q : KernelSeqs), Represents listAt s.heap q ∧
      Awaited (.threadWaiters 1) [3, 2] s.core q ∧ ∃ s', threadNotify 1 false 0 s = some (0, s') ∧
        ¬ Notified (.threadWaiters 1) false 0 [3, 2] s') ∧
    ∃ (s : KernelState) (q : KernelSeqs), Represents listAt s.heap q ∧
      Awaited (.procWaiters 0) [3, 2] s.core q ∧ ∃ s', procNotify 0 false 0 s = some (0, s') ∧
        ¬ Notified (.procWaiters 0) false 0 [3, 2] s' := by
  have hno : ∀ waiters, HoldsWaiters waiters → ∃ (s : KernelState) (q : KernelSeqs),
      Represents listAt s.heap q ∧ Awaited waiters [3, 2] s.core q ∧
      ∃ s', notify waiters false 0 s = some (0, s') ∧
        ¬ Notified waiters false 0 [3, 2] s' := by
    intro waiters hw
    obtain ⟨s, hr, h⟩ := exists_blocked hw
    obtain ⟨s', heq, hiff⟩ : ∃ s', notify waiters false 0 s = some (0, s') ∧
        (Notified waiters false 0 [3, 2] s' ↔ false = true ∨ [3, 2].length = 1) :=
      notify_notified_iff hw hr h (List.cons_ne_nil 3 [2])
    exact ⟨s, _, hr, h, s', heq, fun hnotified => absurd (hiff.mp hnotified) (by decide)⟩
  exact ⟨hno (.threadWaiters 1) trivial, hno (.procWaiters 0) trivial⟩

end Counts

end Longhorn.Notifications
