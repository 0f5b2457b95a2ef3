import Longhorn.SchedulerInvariant
import Longhorn.WaitModel

/-!
What the pieces of kernel code do to the lists and to the threads that wait.
-/

namespace Longhorn.WaitRules

open Longhorn.IntrusiveList
open Longhorn.ListRefinement
open Longhorn.ListPrograms
open Longhorn.ThreadModel
open Longhorn.SchedulerRules
open Longhorn.SchedulerInvariant
open Longhorn.WaitModel

/-- The thread is blocked, and on the list of blocked threads. -/
def Asleep (c : Core) (q : KernelSeqs) (t : Nat) : Prop :=
  c.state t = .blocked ∧ .node t ∈ q.get .blockedThreads

/-- The cores agree on all that the code reads of threads. -/
def Still (c c' : Core) : Prop :=
  Alike c c' ∧ ∀ t, (c'.threads t).waitCode = (c.threads t).waitCode

/-- The thread has been unblocked: if it was asleep, it is ready. -/
def Unblocks (t : Nat) (c : Core) (q : KernelSeqs) (c' : Core) (q' : KernelSeqs) : Prop :=
  (Asleep c q t ∧ Still (c.setState t .ready) c' ∧
    q' = (q.set .blockedThreads ((q.get .blockedThreads).erase (.node t))).set .readyThreads
      (.node t :: q.get .readyThreads)) ∨
  (¬ Asleep c q t ∧ Still c c' ∧ q' = q)

/-- What no code changes beside the lists of waiters and the threads that wait; `new` are the
threads that it may make blocked or dying. -/
structure Steady (c0 : Core) (new : Nat → Prop) (c : Core) (q : KernelSeqs) (c' : Core)
    (q' : KernelSeqs) : Prop where
  lists : ∀ i, (q i).isSome → (q' i).isSome
  fits : ∀ i, ∀ a ∈ q'.get i, Core.Fits c0 i a
  procCode : ∀ p, (c'.procs p).waitCode = (c.procs p).waitCode
  procOf : ∀ t, c'.procOf t = c.procOf t
  idleT : c'.idleT = c.idleT
  current : c'.current = c.current
  live : ∀ t, c'.live t = true → c.live t = true
  liveProcs : ∀ p, c'.liveProcs p = true → c.liveProcs p = true
  blocked : ∀ t, c'.state t = .blocked → c.state t = .blocked ∨ new t
  dying : ∀ t, c.state t = .dying → c'.state t = .dying
  dead : ∀ t, c'.state t = .dying → c.state t = .dying ∨ new t

/-- What code does that notifies nobody; `out` are the threads that it may wake. -/
structure Calm (c0 : Core) (out new : Nat → Prop) (c : Core) (q : KernelSeqs) (c' : Core)
    (q' : KernelSeqs) : Prop extends Steady c0 new c q c' q' where
  waiters : ∀ i, HoldsWaiters i → q'.get i = q.get i
  waitCode : ∀ t, (c'.threads t).waitCode = (c.threads t).waitCode
  asleep : ∀ t, ¬ out t → Asleep c q t → Asleep c' q' t

/-- A frame whose lists and threads exist; notifications of a process have the code that
processes keep. -/
def Known (c0 : Core) : Frame → Prop
  | .notify i ret => HoldsWaiters i ∧ Core.Accessible c0 i ∧ ∀ p, i = .procWaiters p → ret = 0
  | .pop i ret => HoldsWaiters i ∧ Core.Accessible c0 i ∧ ∀ p, i = .procWaiters p → ret = 0
  | .switch n => c0.live n = true
  | .leave n => c0.live n = true
  | .cleanup t => c0.live t = true
  | .procCleanup p => c0.liveProcs p = true
  | _ => True

/-- A frame of no notification. -/
def Quiet : Frame → Prop
  | .notify _ _ => False
  | .pop _ _ => False
  | .wake _ _ => False
  | .unblock _ => False
  | _ => True

section Cores

variable {c c' c'' : Core}

theorem still_note (c : Core) (e : Event) : Still c (c.note e) :=
  ⟨alike_note c e, fun _ => rfl⟩

theorem still_withInterrupts (c : Core) (b : Bool) : Still c (c.withInterrupts b) :=
  ⟨alike_withInterrupts c b, fun _ => rfl⟩

theorem still_noteCall (c : Core) {β : Type} (k : ListCall ListId NodeAddr β) :
    Still c (c.noteCall k) := by
  refine ⟨alike_noteCall c k, fun t => ?_⟩
  rw [Core.noteCall]
  split
  · rfl
  · rfl

theorem waitCode_setState (c : Core) (t u : Nat) (s : ThreadState) :
    ((c.setState t s).threads u).waitCode = (c.threads u).waitCode := by
  simp only [Core.setState, Core.withThread, Function.update_apply, Core.note]
  split
  · next heq => rw [heq]
  · rfl

theorem Still.trans (h : Still c c') (h' : Still c' c'') : Still c c'' :=
  ⟨h.1.trans h'.1, fun t => (h'.2 t).trans (h.2 t)⟩

theorem Still.setState (h : Still c c') (t : Nat) (s : ThreadState) :
    Still (c.setState t s) (c'.setState t s) := by
  refine ⟨h.1.setState t s, fun u => ?_⟩
  rw [waitCode_setState, waitCode_setState, h.2]

end Cores

section Steady

variable {c0 c c' c'' : Core} {q q' : KernelSeqs} {new : Nat → Prop} {i : ListId}
  {xs : List NodeAddr} {t : Nat}

theorem Steady.refl (hfits : ∀ i, ∀ a ∈ q.get i, Core.Fits c0 i a) : Steady c0 new c q c q :=
  ⟨fun _ h => h, hfits, fun _ => rfl, fun _ => rfl, rfl, rfl, fun _ h => h, fun _ h => h,
    fun _ h => Or.inl h, fun _ h => h, fun _ h => Or.inl h⟩

theorem Steady.alike (h : Steady c0 new c q c' q') (ha : Alike c' c'') :
    Steady c0 new c q c'' q' := by
  refine ⟨h.lists, h.fits, fun p => ?_, fun t => (ha.procOf t).trans (h.procOf t),
    ha.idleT.trans h.idleT, ha.current.trans h.current, fun t ht => h.live t ?_,
    fun p hp => h.liveProcs p ?_, fun t ht => ?_, fun t ht => ?_, fun t ht => ?_⟩
  · rw [ha.procs]
    exact h.procCode p
  · rwa [ha.live] at ht
  · rwa [ha.liveProcs] at hp
  · exact h.blocked t ((ha.state t).symm.trans ht)
  · exact (ha.state t).trans (h.dying t ht)
  · exact h.dead t ((ha.state t).symm.trans ht)

theorem Steady.set (h : Steady c0 new c q c' q') (hfits : ∀ a ∈ xs, Core.Fits c0 i a) :
    Steady c0 new c q c' (q'.set i xs) := by
  refine ⟨fun j hj => Seqs.isSome_set (h.lists j hj), fun j a ha => ?_, h.procCode, h.procOf,
    h.idleT, h.current, h.live, h.liveProcs, h.blocked, h.dying, h.dead⟩
  rcases eq_or_ne j i with rfl | hji
  · rw [Seqs.get_set_same] at ha
    exact hfits a ha
  · rw [Seqs.get_set_of_ne hji] at ha
    exact h.fits j a ha

theorem Steady.setState (h : Steady c0 new c q c' q') (s : ThreadState)
    (hnew : s = .blocked ∨ s = .dying → new t) (hdying : c'.state t = .dying → s = .dying) :
    Steady c0 new c q (c'.setState t s) q' := by
  refine ⟨h.lists, h.fits, h.procCode, fun u => (procOf_setState c' t u s).trans (h.procOf u),
    h.idleT, h.current, h.live, h.liveProcs, fun u hu => ?_, fun u hu => ?_, fun u hu => ?_⟩
  all_goals rcases eq_or_ne u t with rfl | hne
  · rw [state_setState] at hu
    exact Or.inr (hnew (Or.inl hu))
  · rw [state_setState_of_ne hne] at hu
    exact h.blocked u hu
  · rw [state_setState]
    exact hdying (h.dying u hu)
  · rw [state_setState_of_ne hne]
    exact h.dying u hu
  · rw [state_setState] at hu
    exact Or.inr (hnew (Or.inr hu))
  · rw [state_setState_of_ne hne] at hu
    exact h.dead u hu

/-- A process changes, but for its wait code. -/
theorem Steady.withProc (h : Steady c0 new c q c' q') (p : Nat) {f : Process → Process}
    (hf : ∀ a, (f a).waitCode = a.waitCode) : Steady c0 new c q (c'.withProc p f) q' := by
  refine ⟨h.lists, h.fits, fun r => ?_, h.procOf, h.idleT, h.current, h.live, h.liveProcs,
    h.blocked, h.dying, h.dead⟩
  rw [← h.procCode]
  change (Function.update c'.procs p (f (c'.procs p)) r).waitCode = _
  rw [Function.update_apply]
  split
  · next heq => rw [hf, heq]
  · rfl

theorem Steady.freeProc (h : Steady c0 new c q c' q') (p : Nat) :
    Steady c0 new c q (c'.freeProc p) q' := by
  refine ⟨h.lists, h.fits, h.procCode, h.procOf, h.idleT, h.current, h.live,
    fun r hr => h.liveProcs r ?_, h.blocked, h.dying, h.dead⟩
  change Function.update c'.liveProcs p false r = true at hr
  rw [Function.update_apply] at hr
  split at hr
  · cases hr
  · exact hr

theorem Steady.freeThread (h : Steady c0 new c q c' q') (t : Nat) :
    Steady c0 new c q (c'.freeThread t) q' := by
  refine ⟨h.lists, h.fits, h.procCode, h.procOf, h.idleT, h.current, fun r hr => h.live r ?_,
    h.liveProcs, h.blocked, h.dying, h.dead⟩
  change Function.update c'.live t false r = true at hr
  rw [Function.update_apply] at hr
  split at hr
  · cases hr
  · exact hr

end Steady

section Calm

variable {c0 c c' c'' : Core} {q q' : KernelSeqs} {out new : Nat → Prop} {i : ListId}
  {xs : List NodeAddr} {t : Nat}

theorem Calm.refl (hfits : ∀ i, ∀ a ∈ q.get i, Core.Fits c0 i a) :
    Calm c0 out new c q c q :=
  ⟨Steady.refl hfits, fun _ _ => rfl, fun _ => rfl, fun _ _ h => h⟩

theorem Calm.still (h : Calm c0 out new c q c' q') (hs : Still c' c'') :
    Calm c0 out new c q c'' q' := by
  refine ⟨h.toSteady.alike hs.1, h.waiters, fun t => (hs.2 t).trans (h.waitCode t),
    fun t ht hb => ?_⟩
  obtain ⟨hstate, hin⟩ := h.asleep t ht hb
  exact ⟨(hs.1.state t).trans hstate, hin⟩

/-- A list that holds no waiters changes. -/
theorem Calm.set (h : Calm c0 out new c q c' q') (hi : ¬ HoldsWaiters i)
    (hfits : ∀ a ∈ xs, Core.Fits c0 i a)
    (hblocked : i = .blockedThreads → ∀ t, ¬ out t → .node t ∈ q'.get i → .node t ∈ xs) :
    Calm c0 out new c q c' (q'.set i xs) := by
  refine ⟨h.toSteady.set hfits, fun j hj => ?_, h.waitCode, fun t ht hb => ?_⟩
  · have hji : j ≠ i := fun heq => hi (heq ▸ hj)
    rw [Seqs.get_set_of_ne hji]
    exact h.waiters j hj
  · obtain ⟨hs, hin⟩ := h.asleep t ht hb
    refine ⟨hs, ?_⟩
    rcases eq_or_ne .blockedThreads i with rfl | hne
    · rw [Seqs.get_set_same]
      exact hblocked rfl t ht hin
    · rwa [Seqs.get_set_of_ne hne]

/-- A thread changes its state. -/
theorem Calm.setState (h : Calm c0 out new c q c' q') (s : ThreadState)
    (hout : out t ∨ c'.state t ≠ .blocked) (hnew : s = .blocked ∨ s = .dying → new t)
    (hdying : c'.state t = .dying → s = .dying) : Calm c0 out new c q (c'.setState t s) q' := by
  refine ⟨h.toSteady.setState s hnew hdying, h.waiters,
    fun u => (waitCode_setState c' t u s).trans (h.waitCode u), fun u hu hb => ?_⟩
  obtain ⟨hs, hin⟩ := h.asleep u hu hb
  rcases eq_or_ne u t with rfl | hne
  · exact absurd hs (hout.resolve_left hu)
  · exact ⟨(state_setState_of_ne hne s).trans hs, hin⟩

theorem Calm.withProc (h : Calm c0 out new c q c' q') (p : Nat) {f : Process → Process}
    (hf : ∀ a, (f a).waitCode = a.waitCode) : Calm c0 out new c q (c'.withProc p f) q' :=
  ⟨h.toSteady.withProc p hf, h.waiters, h.waitCode, h.asleep⟩

theorem Calm.freeProc (h : Calm c0 out new c q c' q') (p : Nat) :
    Calm c0 out new c q (c'.freeProc p) q' :=
  ⟨h.toSteady.freeProc p, h.waiters, h.waitCode, h.asleep⟩

theorem Calm.freeThread (h : Calm c0 out new c q c' q') (t : Nat) :
    Calm c0 out new c q (c'.freeThread t) q' :=
  ⟨h.toSteady.freeThread t, h.waiters, h.waitCode, h.asleep⟩

end Calm

section Pieces

variable {c0 c c' c1 : Core} {q q' q1 : KernelSeqs} {out new : Nat → Prop} {t : Nat}

/-- `thread_unblock` wakes the thread if it is asleep. -/
theorem wp_unblocked {Q : Unit → Core → KernelSeqs → Prop}
    (hready : (q .readyThreads).isSome) (hblocked : (q .blockedThreads).isSome)
    (hasleep : Asleep c q t → ∀ c', Still (c.setState t .ready) c' →
      Q () c' ((q.set .blockedThreads ((q.get .blockedThreads).erase (.node t))).set .readyThreads
        (.node t :: q.get .readyThreads)))
    (hawake : ¬ Asleep c q t → ∀ c', Still c c' → Q () c' q) :
    Wp listAt (threadUnblock t) Q c q := by
  apply wp_of_apart
  intro hq
  have hstill := (still_note c (.unblock t)).trans (still_withInterrupts _ false)
  apply Wp.bind
  apply wp_modifyCore
  apply Wp.bind
  apply wp_modifyCore
  apply Wp.bind
  apply wp_reads
  rw [hstill.1.state]
  by_cases hstate : c.state t = .blocked
  · rw [if_neg (not_not_intro hstate)]
    apply Wp.bind
    apply wp_delete hblocked
    all_goals intro hin
    · apply Wp.bind
      apply wp_modifyCore
      apply Wp.bind
      apply wp_insert
      · exact Seqs.isSome_set hready
      · exact ⟨not_isSentinel_node t, hq.erased hin⟩
      · apply wp_modifyCore
        rw [Seqs.get_set_of_ne (by decide)]
        exact hasleep ⟨hstate, hin⟩ _ <| (((hstill.trans (still_noteCall _ _)).setState t
          .ready).trans (still_noteCall _ _)).trans (still_withInterrupts _ true)
    · apply wp_modifyCore
      exact hawake (fun h => hin h.2) _
        ((hstill.trans (still_noteCall _ _)).trans (still_withInterrupts _ true))
  · rw [if_pos hstate]
    apply wp_modifyCore
    exact hawake (fun h => hstate h.1) _ (hstill.trans (still_withInterrupts _ true))

theorem wp_unblocks (hready : (q .readyThreads).isSome) (hblocked : (q .blockedThreads).isSome) :
    Wp listAt (threadUnblock t) (fun _ c' q' => Unblocks t c q c' q') c q := by
  apply wp_unblocked hready hblocked
  · exact fun hasleep c' hstill => Or.inl ⟨hasleep, hstill, rfl⟩
  · exact fun hawake c' hstill => Or.inr ⟨hawake, hstill, rfl⟩

theorem Unblocks.still (h : Unblocks t c q c1 q1) (hstill : Still c1 c') :
    Unblocks t c q c' q1 := by
  rcases h with ⟨hasleep, hstill1, hq⟩ | ⟨hawake, hstill1, hq⟩
  · exact Or.inl ⟨hasleep, hstill1.trans hstill, hq⟩
  · exact Or.inr ⟨hawake, hstill1.trans hstill, hq⟩

theorem Unblocks.waiters (h : Unblocks t c q c1 q1) {i : ListId} (hi : HoldsWaiters i) :
    q1 i = q i := by
  rcases h with ⟨_, _, rfl⟩ | ⟨_, _, rfl⟩
  · rw [Seqs.set_of_ne hi.ne_ready, Seqs.set_of_ne hi.ne_blocked]
  · rfl

/-- One round of the loop of `thread_notify` and `proc_notify`: the thread is unblocked, and the
next node is taken off the list before `all` is looked at. -/
theorem wp_notifyLoop_step {Q : Unit → Core → KernelSeqs → Prop} {waiters : ListId} {all : Bool}
    {ret : Int} {vs : List Nat} (hw : HoldsWaiters waiters)
    (hlist : q waiters = some (vs.map .waitNode)) (hready : (q .readyThreads).isSome)
    (hblocked : (q .blockedThreads).isSome)
    (hnil : ∀ c1 q1, vs = [] → Unblocks t (c.setWaitCode t ret) q c1 q1 →
      Q () c1 (q1.set waiters []))
    (hcons : ∀ v rest c1 q1, vs = v :: rest → Unblocks t (c.setWaitCode t ret) q c1 q1 →
      if all then
        Wp listAt (waiters.notifyLoop all ret (.waitNode v)) Q c1
          (q1.set waiters (rest.map .waitNode))
      else Q () c1 (q1.set waiters (rest.map .waitNode))) :
    Wp listAt (waiters.notifyLoop all ret (.waitNode t)) Q c q := by
  rw [ListId.notifyLoop]
  apply Wp.bind
  apply wp_pure
  apply Wp.bind
  apply wp_modifyCore
  apply Wp.bind
  refine (wp_unblocks hready hblocked).mono ?_
  intro _ c1 q1 hunblocks
  have hlist1 := (hunblocks.waiters hw).trans hlist
  have hpopped := hunblocks.still (still_noteCall c1 (.pop waiters))
  apply Wp.bind
  apply wp_pop (by simp [hlist1])
  rw [Seqs.get_of_eq hlist1]
  rcases vs with _ | ⟨v, rest⟩
  · exact wp_pure (hnil _ _ rfl hpopped)
  · have hgo := hcons v rest _ _ rfl hpopped
    rw [List.map_cons, List.head?_cons, List.tail_cons]
    dsimp only
    split at hgo
    · next hall =>
        rw [if_pos hall]
        exact hgo
    · next hall =>
        rw [if_neg hall]
        exact wp_pure hgo

/-- `pick_next` of `schedule` may wake the idle thread only. -/
theorem wp_picked (h : Calm c0 out new c q c1 q1) (hready : (q .readyThreads).isSome)
    (hblocked : (q .blockedThreads).isSome)
    (hidle : ∃ t, c.idleT = some t ∧ c0.live t = true ∧ out t) :
    Wp listAt pickNext (fun n c' q' => c0.live n = true ∧ Calm c0 out new c q c' q') c1 q1 := by
  have hready1 := h.lists _ hready
  have hcall : ∀ xs, (∀ a ∈ xs, a ∈ q1.get .readyThreads) → ∀ {β : Type}
      (k : ListCall ListId NodeAddr β),
      Calm c0 out new c q (c1.noteCall k) (q1.set .readyThreads xs) :=
    fun xs hxs _ k => (h.still (still_noteCall c1 k)).set id
      (fun a ha => h.fits .readyThreads a (hxs a ha)) fun heq => absurd heq (by decide)
  apply Wp.bind
  apply wp_size hready1
  rcases hq : q1.get .readyThreads with _ | ⟨a, _ | ⟨b, rest⟩⟩
  · rw [if_neg (by simp)]
    apply Wp.bind
    apply wp_pop hready1
    rw [hq, List.head?_nil, List.tail_nil]
    obtain ⟨t, ht, hlive, hout⟩ := hidle
    have h2 := (hcall [] (by simp) (.pop .readyThreads)).still (still_note _ .readyEmpty)
    apply Wp.bind
    apply wp_modifyCore
    apply Wp.bind
    apply wp_reads
    rw [h2.idleT, ht]
    apply Wp.bind
    apply wp_unblocked (h2.lists _ hready) (h2.lists _ hblocked)
    · intro hasleep c' hs
      refine wp_pure ⟨hlive, (((h2.setState .ready (Or.inl hout) (by simp) fun hd => ?_).still
        hs).set id ?_ fun _ u hu hin => ?_).set id ?_ fun heq => absurd heq (by decide)⟩
      · rw [hasleep.1] at hd
        cases hd
      · exact fun a ha => h2.fits .blockedThreads a (List.mem_of_mem_erase ha)
      · refine (List.mem_erase_of_ne ?_).mpr hin
        rintro ⟨⟩
        exact hu hout
      · intro a ha
        rcases List.mem_cons.mp ha with rfl | ha
        · exact ⟨t, rfl, hlive⟩
        · exact h2.fits .readyThreads a ha
    · exact fun _ c' hs => wp_pure ⟨hlive, h2.still hs⟩
  · rw [if_pos (by rfl)]
    apply Wp.bind
    apply wp_first hready1 hq
    obtain ⟨n, rfl, hlive⟩ := h.fits .readyThreads a (by rw [hq]; exact List.mem_cons_self)
    exact wp_pure ⟨hlive, h⟩
  · rw [if_neg (by simp)]
    apply Wp.bind
    apply wp_pop hready1
    rw [hq, List.head?_cons, List.tail_cons]
    obtain ⟨n, rfl, hlive⟩ := h.fits .readyThreads a (by rw [hq]; exact List.mem_cons_self)
    refine wp_pure ⟨hlive, hcall _ (fun a ha => ?_) _⟩
    rw [hq]
    exact List.mem_cons_of_mem _ ha

theorem not_node_of_fits {i : ListId} (hfits : ∀ i, ∀ a ∈ q.get i, Core.Fits c0 i a)
    (hi : ¬ HoldsThreads i) : .node t ∉ q.get i := by
  intro hin
  have hfit := hfits i _ hin
  cases i with
  | readyThreads => exact hi trivial
  | blockedThreads => exact hi trivial
  | dyingThreads => exact hi trivial
  | _ => obtain ⟨p, hp, _⟩ := hfit; simp at hp

theorem not_waitNode_of_fits {i : ListId} (hfits : ∀ i, ∀ a ∈ q.get i, Core.Fits c0 i a)
    (hi : ¬ HoldsWaiters i) : .waitNode t ∉ q.get i := by
  intro hin
  have hfit := hfits i _ hin
  cases i with
  | threadWaiters _ => exact hi trivial
  | procWaiters _ => exact hi trivial
  | _ => obtain ⟨p, hp, _⟩ := hfit; simp at hp

/-- Code that notifies nobody leaves the wait nodes where they are. -/
theorem Calm.mem_waiters (h : Calm c0 out new c q c' q')
    (hfits : ∀ i, ∀ a ∈ q.get i, Core.Fits c0 i a) (i : ListId) :
    .waitNode t ∈ q'.get i ↔ .waitNode t ∈ q.get i := by
  by_cases hi : HoldsWaiters i
  · rw [h.waiters i hi]
  · exact iff_of_false (not_waitNode_of_fits h.fits hi) (not_waitNode_of_fits hfits hi)

/-- A thread leaves its list as dying, if it has the state. -/
theorem wp_detached {s : ThreadState} {i : ListId} (h : Calm c0 out new c q c1 q1) (hout : out t)
    (hnew : new t) (hi : HoldsThreads i) (hlist : (q i).isSome) :
    Wp listAt (detach t s i) (fun ok c' q' => Calm c0 out new c q c' q' ∧
      (c1.state t = s → c'.state t = .dying) ∧
      (c1.state t ≠ s → ok = true ∧ c'.state t = c1.state t) ∧
      (.node t ∈ q1.get i → ok = true)) c1 q1 := by
  have hwait : ¬ HoldsWaiters i := by cases i <;> first | exact id | exact hi.elim
  apply Wp.bind
  apply wp_reads
  split
  · next hs =>
    have h2 := h.setState (t := t) .dying (Or.inl hout) (fun _ => hnew) fun _ => rfl
    apply Wp.bind
    apply wp_modifyCore
    apply Wp.bind
    apply wp_delete (h.lists _ hlist)
    all_goals
      intro _
      apply wp_pure
    · refine ⟨(h2.still (still_noteCall _ _)).set hwait ?_ fun _ u hu hin => ?_, fun _ =>
        ((still_noteCall _ _).1.state t).trans (state_setState c1 t .dying),
        fun hne => absurd hs hne, fun _ => rfl⟩
      · exact fun a ha => h.fits i a (List.mem_of_mem_erase ha)
      · refine (List.mem_erase_of_ne ?_).mpr ‹_›
        rintro ⟨⟩
        exact hu hout
    · exact ⟨h2.still (still_noteCall _ _), fun _ =>
        ((still_noteCall _ _).1.state t).trans (state_setState c1 t .dying),
        fun hne => absurd hs hne, fun hin => absurd hin ‹_›⟩
  · next hs =>
    exact wp_pure ⟨h, fun heq => absurd heq hs, fun _ => ⟨rfl, rfl⟩, fun _ => rfl⟩

end Pieces

section Frames

variable {c0 c : Core} {q : KernelSeqs} {n t p : Nat}

theorem wp_run_schedule (hfits : ∀ i, ∀ a ∈ q.get i, Core.Fits c0 i a)
    (hready : (q .readyThreads).isSome) (hblocked : (q .blockedThreads).isSome)
    (hidle : ∃ t, c.idleT = some t ∧ c0.live t = true) :
    Wp listAt Frame.schedule.run (fun fs c' q' => (∃ n, fs = [.switch n] ∧ c0.live n = true) ∧
      Calm c0 (fun t => c.idleT = some t) (fun _ => False) c q c' q') c q := by
  obtain ⟨t, ht, hlive⟩ := hidle
  apply Wp.bind
  apply wp_modifyCore
  apply Wp.bind
  have h1 : Calm c0 (fun t => c.idleT = some t) (fun _ => False) c q (c.withInterrupts false) q :=
    (Calm.refl hfits).still (still_withInterrupts c false)
  refine (wp_picked h1 hready hblocked ⟨t, ht, hlive, ht⟩).mono ?_
  rintro n c' q' ⟨hn, h'⟩
  exact wp_pure ⟨⟨n, rfl, hn⟩, h'⟩

/-- The thread that gives up the processor goes to the list that its state names, if it is on
no list. -/
theorem wp_requeued (hfits : ∀ i, ∀ a ∈ q.get i, Core.Fits c0 i a)
    (hlists : ∀ i, HoldsThreads i → (q i).isSome) (hlive : c0.live t = true)
    (hoff : c.state t ≠ .blocked → ∀ i, HoldsThreads i → .node t ∉ q.get i) :
    Wp listAt (requeue t) (fun _ c' q' => Calm c0 (fun _ => False) (fun _ => False) c q c' q')
      c q := by
  have h0 : Calm c0 (fun _ => False) (fun _ => False) c q c q := Calm.refl hfits
  have hnode : c.state t ≠ .blocked → ∀ i, .node t ∉ q.get i := fun hs i hin => by
    by_cases hi : HoldsThreads i
    · exact hoff hs i hi hin
    · exact not_node_of_fits hfits hi hin
  have hset : ∀ {i : ListId} {xs : List NodeAddr} {c' : Core},
      Calm c0 (fun _ => False) (fun _ => False) c q c' q → HoldsThreads i → i ≠ .blockedThreads →
      (∀ a ∈ xs, a = .node t ∨ a ∈ q.get i) →
      Calm c0 (fun _ => False) (fun _ => False) c q c' (q.set i xs) := by
    intro i xs c' h' hi hne hxs
    refine h'.set ?_ (fun a ha => ?_) fun heq => absurd heq hne
    · cases i <;> first | exact id | exact hi.elim
    · rcases hxs a ha with rfl | ha
      · cases i <;> first | exact ⟨_, rfl, hlive⟩ | exact hi.elim
      · exact hfits i a ha
  cases hs : c.state t with
  | ready =>
      apply Wp.bind
      apply wp_reads
      rw [hs, if_neg (by decide)]
      apply Wp.bind
      apply wp_reads
      rw [hs, if_neg (by decide)]
      apply Wp.bind
      apply wp_reads
      rw [hs, if_pos rfl]
      apply wp_insertEnd (hlists .readyThreads trivial)
        ⟨not_isSentinel_node t, hnode (by simp [hs])⟩
      exact hset (h0.still (still_noteCall _ _)) trivial (by decide) (by simp [or_comm])
  | running =>
      apply wp_requeue_running hs (hlists .readyThreads trivial) (hnode (by simp [hs]))
      exact hset ((h0.setState .ready (Or.inr (by simp [hs])) (by simp) (by simp [hs])).still
        (still_noteCall _ _)) trivial (by decide) (by simp [or_comm])
  | blocked => exact wp_requeue_blocked hs h0
  | dying =>
      apply wp_requeue_dying hs (hlists .dyingThreads trivial) (hnode (by simp [hs]))
      exact hset (h0.still (still_noteCall _ _)) trivial (by decide) (by simp)
  | terminated =>
      apply Wp.bind
      apply wp_reads
      rw [hs, if_neg (by decide)]
      apply Wp.bind
      apply wp_reads
      rw [hs, if_neg (by decide)]
      apply Wp.bind
      apply wp_reads
      rw [hs, if_neg (by decide)]
      exact wp_pure h0

theorem wp_run_switch (hfits : ∀ i, ∀ a ∈ q.get i, Core.Fits c0 i a)
    (hlists : ∀ i, HoldsThreads i → (q i).isSome) (hlive : c0.live c.current = true)
    (hands : c.state c.current = .dying → n ≠ c.current)
    (hoff : c.state c.current ≠ .blocked → ∀ i, HoldsThreads i → .node c.current ∉ q.get i) :
    Wp listAt (Frame.switch n).run (fun fs c' q' => fs = [.leave n] ∧
      Calm c0 (fun _ => False) (fun _ => False) c q c' q') c q := by
  apply Wp.bind
  apply wp_reads
  apply Wp.bind
  refine (wp_requeued hfits hlists hlive hoff).mono ?_
  intro _ c' q' h'
  apply Wp.bind
  apply wp_reads
  rw [if_neg]
  · exact wp_pure ⟨rfl, h'⟩
  · rintro ⟨heq, hs⟩
    exact hands ((h'.dead _ hs).resolve_right id) heq.symm

/-- `schedule` lets its thread run on, or switches to one that is ready. -/
theorem wp_run_leave (hfits : ∀ i, ∀ a ∈ q.get i, Core.Fits c0 i a)
    (hands : c.state c.current = .blocked ∨ c.state c.current = .dying →
      n ≠ c.current ∧ c.state n = .ready) :
    Wp listAt (Frame.leave n).run (fun fs c' q' => fs = [] ∧ q' = q ∧
      ((Calm c0 (fun _ => False) (fun _ => False) c q c' q ∧ c'.state c.current = .running) ∨
        (n ≠ c.current ∧ c.state n = .ready ∧ c' = c.switchTo n))) c q := by
  apply Wp.bind
  apply wp_reads
  apply Wp.bind
  apply wp_reads
  split
  · next hstays =>
      have hleft : ¬ (n ≠ c.current ∧ c.state n = .ready) := fun h =>
        hstays.elim (fun heq => h.1 heq.symm) fun hne => hne h.2
      have hs : c.state c.current ≠ .blocked := fun hs => hleft (hands (Or.inl hs))
      have hd : c.state c.current ≠ .dying := fun hs => hleft (hands (Or.inr hs))
      apply Wp.bind
      apply wp_modifyCore
      apply Wp.bind
      apply wp_modifyCore
      refine wp_pure ⟨rfl, rfl, Or.inl ⟨((Calm.refl hfits).setState .running (Or.inr hs) (by simp)
        fun h => absurd h hd).still (still_withInterrupts _ true), ?_⟩⟩
      exact state_setState c _ _
  · next hgo =>
      rw [not_or, not_not] at hgo
      apply Wp.bind
      apply wp_modifyCore
      exact wp_pure ⟨rfl, rfl, Or.inr ⟨fun heq => hgo.1 heq.symm, hgo.2, rfl⟩⟩

theorem wp_run_finish (hfits : ∀ i, ∀ a ∈ q.get i, Core.Fits c0 i a)
    (hdying : (q .dyingThreads).isSome) (hs : c.state c.current ≠ .blocked)
    (hd : c.state c.current ≠ .dying) :
    Wp listAt Frame.finish.run (fun fs c' q' =>
      (fs = [.enable] ∨ ∃ t, fs = [.cleanup t, .enable] ∧ c0.live t = true) ∧
      c'.state c.current = .running ∧
      Calm c0 (fun _ => False) (fun _ => False) c q c' q') c q := by
  have h1 : Calm c0 (fun _ => False) (fun _ => False) c q (c.setState c.current .running) q :=
    (Calm.refl hfits).setState .running (Or.inr hs) (by simp) fun h => absurd h hd
  apply Wp.bind
  apply wp_reads
  apply Wp.bind
  apply wp_modifyCore
  apply Wp.bind
  apply wp_reads
  apply Wp.bind
  apply wp_reads
  apply Wp.bind
  refine wp_modifyCore_of (P := fun c2 => Calm c0 (fun _ => False) (fun _ => False) c q c2 q ∧
    c2.state c.current = .running) ⟨h1.withProc _ fun _ => rfl, state_setState c _ _⟩ ?_
  rintro c2 ⟨h2, hrunning⟩
  apply Wp.bind
  apply wp_isEmpty hdying
  rcases hq : q.get .dyingThreads with _ | ⟨a, rest⟩
  · rw [if_neg (by simp)]
    exact wp_pure ⟨Or.inl rfl, hrunning, h2⟩
  · rw [if_pos (by simp)]
    obtain ⟨t, rfl, hlive⟩ := hfits .dyingThreads a (by rw [hq]; exact List.mem_cons_self)
    apply Wp.bind
    apply wp_modifyCore
    apply Wp.bind
    apply wp_pop hdying
    rw [hq, List.head?_cons, List.tail_cons]
    refine wp_pure ⟨Or.inr ⟨t, rfl, hlive⟩, ?_, ((h2.still (still_withInterrupts _ false)).still
      (still_noteCall _ _)).set id (fun a ha => ?_) fun heq => absurd heq (by decide)⟩
    · exact ((still_noteCall _ _).1.state _).trans hrunning
    · refine hfits .dyingThreads a ?_
      rw [hq]
      exact List.mem_cons_of_mem _ ha

theorem wp_run_pop {i : ListId} (ret : Int) (hfits : ∀ i, ∀ a ∈ q.get i, Core.Fits c0 i a)
    (hi : HoldsWaiters i) (hlist : (q i).isSome) :
    Wp listAt (Frame.pop i ret).run (fun fs c' q' => Still c c' ∧
      ((fs = [] ∧ q.get i = [] ∧ q' = q) ∨ ∃ w rest, fs = [.wake ret w, .pop i ret] ∧
        q.get i = .waitNode w :: rest ∧ q' = q.set i rest)) c q := by
  apply Wp.bind
  apply wp_pop hlist
  rcases hq : q.get i with _ | ⟨a, rest⟩
  · rw [List.head?_nil, List.tail_nil]
    refine wp_pure ⟨still_noteCall _ _, Or.inl ⟨rfl, rfl, ?_⟩⟩
    rw [← hq, set_get_self hlist]
  · obtain ⟨w, rfl⟩ : ∃ w, a = .waitNode w := by
      have hfit := hfits i a (by rw [hq]; exact List.mem_cons_self)
      cases i with
      | threadWaiters _ => exact ⟨hfit.choose, hfit.choose_spec.1⟩
      | procWaiters _ => exact ⟨hfit.choose, hfit.choose_spec.1⟩
      | _ => exact hi.elim
    rw [List.head?_cons, List.tail_cons]
    exact wp_pure ⟨still_noteCall _ _, Or.inr ⟨w, rest, rfl, rfl, rfl⟩⟩

theorem wp_run_wake {ret : Int} :
    Wp listAt (Frame.wake ret t).run (fun fs c' q' => fs = [.unblock t] ∧
      c' = c.setWaitCode t ret ∧ q' = q) c q := by
  apply Wp.bind
  apply wp_modifyCore
  exact wp_pure ⟨rfl, rfl, rfl⟩

theorem wp_run_unblock (hready : (q .readyThreads).isSome)
    (hblocked : (q .blockedThreads).isSome) (hasleep : Asleep c q t) :
    Wp listAt (Frame.unblock t).run (fun fs c' q' => fs = [] ∧ Still (c.setState t .ready) c' ∧
      q' = (q.set .blockedThreads ((q.get .blockedThreads).erase (.node t))).set .readyThreads
        (.node t :: q.get .readyThreads)) c q := by
  apply Wp.bind
  apply wp_unblocked hready hblocked
  · exact fun _ c' hs => wp_pure ⟨rfl, hs, rfl⟩
  · exact fun hno => absurd hasleep hno

theorem wp_run_killOther (hfits : ∀ i, ∀ a ∈ q.get i, Core.Fits c0 i a)
    (hlists : ∀ i, HoldsThreads i → (q i).isSome)
    (hs : c.state t = .ready ∨ c.state t = .blocked) :
    Wp listAt (Frame.killOther t).run (fun fs c' q' =>
      Calm c0 (fun u => u = t) (fun u => u = t) c q c' q' ∧ c'.state t = .dying ∧
      (fs = [] ∧ (c.state t = .ready → .node t ∉ q.get .readyThreads) ∨
        fs = [.notify (.threadWaiters t) (-1), .cleanup t, .enable])) c q := by
  have h0 : Calm c0 (fun u => u = t) (fun u => u = t) c q c q := Calm.refl hfits
  apply Wp.bind
  refine (wp_detached (s := .ready) h0 rfl rfl (i := .readyThreads) trivial
    (hlists .readyThreads trivial)).mono ?_
  rintro ok c1 q1 ⟨h1, hready1, hother1, hok1⟩
  split
  · next hok =>
      apply Wp.bind
      apply wp_modifyCore
      refine wp_pure ⟨h1.still (still_withInterrupts _ true), hready1 ?_,
        Or.inl ⟨rfl, fun _ hin => ?_⟩⟩
      · by_contra hne
        rw [(hother1 hne).1] at hok
        cases hok
      · rw [hok1 hin] at hok
        cases hok
  · apply Wp.bind
    refine (wp_detached (s := .blocked) h1 rfl rfl (i := .blockedThreads) trivial
      (hlists .blockedThreads trivial)).mono ?_
    rintro ok2 c2 q2 ⟨h2, hblocked2, hother2, _⟩
    have hdying2 : c2.state t = .dying := by
      rcases hs with hs | hs
      · have hdying1 := hready1 hs
        rw [(hother2 (by simp [hdying1])).2, hdying1]
      · exact hblocked2 ((hother1 (by simp [hs])).2.trans hs)
    split
    · next hok =>
      apply Wp.bind
      apply wp_modifyCore
      refine wp_pure ⟨h2.still (still_withInterrupts _ true), hdying2, Or.inl ⟨rfl, fun hs => ?_⟩⟩
      rw [(hother2 (by simp [hready1 hs])).1] at hok
      cases hok
    · exact wp_pure ⟨h2, hdying2, Or.inr rfl⟩

theorem wp_run_cleanup (hfits : ∀ i, ∀ a ∈ q.get i, Core.Fits c0 i a)
    (hhome : c0.liveProcs (c.procOf t) = true) :
    Wp listAt (Frame.cleanup t).run (fun fs c' q' => (∀ f ∈ fs, Quiet f ∧ Known c0 f) ∧
      Calm c0 (fun _ => False) (fun _ => False) c q c' q') c q := by
  have h0 : Calm c0 (fun _ => False) (fun _ => False) c q c q := Calm.refl hfits
  apply Wp.bind
  apply wp_reads
  split
  · exact wp_pure ⟨by simp, h0⟩
  · apply Wp.bind
    apply wp_reads
    have h1 := h0.withProc (c.procOf t) (f := fun p => p.endThread (c.threads t).childNum)
      fun _ => rfl
    apply Wp.bind
    apply wp_modifyCore
    apply Wp.bind
    apply wp_reads
    split
    · refine wp_pure ⟨?_, h1⟩
      simp [Quiet, Known, hhome]
    · refine wp_pure ⟨?_, h1⟩
      simp [Quiet, Known]

theorem wp_run_procCleanup :
    Wp listAt (Frame.procCleanup p).run (fun fs c' q' => c' = c ∧ q' = q ∧
      (fs = [] ∨ fs = [.notify (.procWaiters p) 0, .unlink p])) c q := by
  apply Wp.bind
  apply wp_reads
  split
  · exact wp_pure ⟨rfl, rfl, Or.inl rfl⟩
  · exact wp_pure ⟨rfl, rfl, Or.inr rfl⟩

theorem wp_run_unlink (hfits : ∀ i, ∀ a ∈ q.get i, Core.Fits c0 i a)
    (hlist : (q .allProcs).isSome) :
    Wp listAt (Frame.unlink p).run (fun fs c' q' => fs = [] ∧
      Calm c0 (fun _ => False) (fun _ => False) c q c' q') c q := by
  have h0 : Calm c0 (fun _ => False) (fun _ => False) c q c q := Calm.refl hfits
  have h1 := h0.still (still_noteCall c (.delete .allProcs (.procNode p)))
  apply Wp.bind
  apply wp_delete hlist
  all_goals
    intro _
    apply wp_pure
  · exact ⟨rfl, h1.set id (fun a ha => hfits .allProcs a (List.mem_of_mem_erase ha))
      fun heq => absurd heq (by decide)⟩
  · exact ⟨rfl, h1⟩

end Frames

section Calls

variable {c0 c : Core} {q : KernelSeqs}

theorem wp_exitCode (hfits : ∀ i, ∀ a ∈ q.get i, Core.Fits c0 i a)
    (hready : (q .readyThreads).isSome) :
    Wp listAt exitCode (fun fs c' q' =>
      fs = [.notify (.threadWaiters c.current) threadKillSucc, .schedule] ∧
      c'.state c.current = .dying ∧
      Calm c0 (fun u => u = c.current) (fun u => u = c.current) c q c' q') c q := by
  have h0 : Calm c0 (fun u => u = c.current) (fun u => u = c.current) c q
      (c.withInterrupts false) q := (Calm.refl hfits).still (still_withInterrupts c false)
  apply Wp.bind
  apply wp_reads
  apply Wp.bind
  apply wp_modifyCore
  apply Wp.bind
  apply wp_delete hready
  all_goals
    intro _
    apply Wp.bind
    apply wp_modifyCore
    apply wp_pure
  · refine ⟨rfl, state_setState _ _ _,
      ((h0.still (still_noteCall _ _)).set id ?_ ?_).setState .dying
      (Or.inl rfl) (fun _ => rfl) fun _ => rfl⟩
    · exact fun a ha => hfits .readyThreads a (List.mem_of_mem_erase ha)
    · exact fun heq => absurd heq (by decide)
  · exact ⟨rfl, state_setState _ _ _, (h0.still (still_noteCall _ _)).setState .dying (Or.inl rfl)
      (fun _ => rfl) fun _ => rfl⟩

/-- `thread_kill` ends the running thread first when the thread to kill runs. -/
theorem wp_killCode (t : Nat) (hfits : ∀ i, ∀ a ∈ q.get i, Core.Fits c0 i a)
    (hready : (q .readyThreads).isSome) :
    Wp listAt (callCode (.kill t)) (fun r c' q' => r.2 = .outside ∧
      ((r.1 = [.killOther t] ∧ Still c c' ∧ q' = q) ∨
        (c.state t = .running ∧
          r.1 = [.notify (.threadWaiters c.current) threadKillSucc, .schedule, .killOther t] ∧
          c'.state c.current = .dying ∧
          Calm c0 (fun u => u = c.current) (fun u => u = c.current) c q c' q'))) c q := by
  have hstill := still_withInterrupts c false
  apply Wp.bind
  apply wp_modifyCore
  apply Wp.bind
  apply wp_reads
  split
  · next hs =>
    apply Wp.bind
    refine (wp_exitCode (c := c.withInterrupts false) hfits hready).mono ?_
    rintro _ c' q' ⟨rfl, hdying, hc⟩
    refine wp_pure ⟨rfl, Or.inr ⟨hs, rfl, hdying, ?_⟩⟩
    exact ⟨⟨hc.lists, hc.fits, hc.procCode, hc.procOf, hc.idleT, hc.current, hc.live, hc.liveProcs,
      hc.blocked, hc.dying, hc.dead⟩, hc.waiters, hc.waitCode, hc.asleep⟩
  · exact wp_pure ⟨rfl, Or.inl ⟨rfl, hstill, rfl⟩⟩

/-- `thread_block` of a running thread that is on the ready list. -/
theorem wp_block_ready {Q : List Frame → Core → KernelSeqs → Prop}
    (hready : (q .readyThreads).isSome)
    (hon : .node c.current ∈ q.get .readyThreads) (hblocked : (q .blockedThreads).isSome)
    (hs : c.state c.current = .running)
    (h : Q [.schedule] ((((c.withInterrupts false).noteCall (.delete .readyThreads
        (.node c.current))).setState c.current .blocked).noteCall
          (.insert .blockedThreads (.node c.current)))
      ((q.set .readyThreads ((q.get .readyThreads).erase (.node c.current))).set .blockedThreads
        (.node c.current :: q.get .blockedThreads))) : Wp listAt blockCode Q c q := by
  apply wp_of_apart
  intro hq
  apply Wp.bind
  apply wp_modifyCore
  apply Wp.bind
  apply wp_reads
  rw [show (c.withInterrupts false).current = c.current from rfl]
  apply Wp.bind
  apply wp_delete hready (fun _ => ?_) fun hoff => absurd hon hoff
  have hs1 := ((still_noteCall (c.withInterrupts false)
    (.delete .readyThreads (.node c.current))).1.state c.current).trans hs
  apply Wp.bind
  apply wp_reads
  rw [if_neg (not_not_intro hs1)]
  apply Wp.bind
  apply wp_modifyCore
  apply Wp.bind
  apply wp_insert
  · exact Seqs.isSome_set hblocked
  · exact ⟨not_isSentinel_node _, hq.erased hon⟩
  rw [Seqs.get_set_of_ne (by decide)]
  exact wp_pure h

theorem wp_blockCode (hfits : ∀ i, ∀ a ∈ q.get i, Core.Fits c0 i a)
    (hready : (q .readyThreads).isSome) (hblocked : (q .blockedThreads).isSome)
    (hs : c.state c.current = .running) (hon : .node c.current ∈ q.get .readyThreads) :
    Wp listAt blockCode (fun fs c' q' => fs = [.schedule] ∧ Asleep c' q' c.current ∧
      Calm c0 (fun u => u = c.current) (fun u => u = c.current) c q c' q') c q := by
  have h0 : Calm c0 (fun u => u = c.current) (fun u => u = c.current) c q
      (c.withInterrupts false) q := (Calm.refl hfits).still (still_withInterrupts c false)
  have hfits1 : ∀ a ∈ (q.get .readyThreads).erase (.node c.current), Core.Fits c0 .readyThreads a :=
    fun a ha => hfits .readyThreads a (List.mem_of_mem_erase ha)
  have h1 := (h0.still (still_noteCall _ (.delete .readyThreads (.node c.current)))).set id hfits1
    fun heq => absurd heq (by decide)
  have hs1 := ((still_noteCall (c.withInterrupts false)
    (.delete .readyThreads (.node c.current))).1.state c.current).trans hs
  have h2 := h1.setState .blocked (Or.inl rfl) (fun _ => rfl) fun hd => by
    rw [hs1] at hd
    cases hd
  refine wp_block_ready hready hon hblocked hs ⟨rfl, ⟨?_, ?_⟩,
    (h2.still (still_noteCall _ _)).set id (fun a ha => ?_) fun _ u _ hin => ?_⟩
  · exact ((still_noteCall _ _).1.state _).trans (state_setState _ _ _)
  · rw [Seqs.get_set_same]
    exact List.mem_cons_self
  · rcases List.mem_cons.mp ha with rfl | ha
    · obtain ⟨t, heq, hlive⟩ := hfits .readyThreads _ hon
      exact ⟨t, heq, hlive⟩
    · exact hfits .blockedThreads a ha
  · rw [Seqs.get_set_of_ne (by decide)] at hin
    exact List.mem_cons_of_mem _ hin

theorem wp_register {i : ListId} (hlist : (q i).isSome)
    (hoff : ∀ j, .waitNode c.current ∉ q.get j) :
    Wp listAt (pcCode (.register i)) (fun r c' q' => r = ([], .block i) ∧ Still c c' ∧
      q' = q.set i (.waitNode c.current :: q.get i)) c q := by
  apply Wp.bind
  apply wp_reads
  apply Wp.bind
  apply wp_insert hlist ⟨not_isSentinel_waitNode _, hoff⟩
  exact wp_pure ⟨rfl, still_noteCall _ _, rfl⟩

theorem wp_timerCode : Wp listAt timerCode (fun fs c' q' => Still c c' ∧ q' = q ∧ (fs = [] ∨
    (fs = [.schedule] ∧ (c.threadTicks + 1) % 256 % maxThreadTicks = 0))) c q := by
  have ha := alike_ticked c (((c.threads c.current).ticks + 1) % 2 ^ 32)
    ((c.threadTicks + 1) % 256)
  have hstill : Still c { c.withThread c.current fun ti =>
      { ti with ticks := (ti.ticks + 1) % 2 ^ 32 } with
        threadTicks := (c.threadTicks + 1) % 256 } := by
    refine ⟨ha, fun t => ?_⟩
    simp only [Core.withThread, Function.update_apply]
    split
    · next heq => rw [heq]
    · rfl
  apply Wp.bind
  apply wp_modifyCore
  apply Wp.bind
  apply wp_reads
  split
  · next hfires =>
      apply Wp.bind
      apply wp_modifyCore
      exact wp_pure ⟨hstill.trans (still_withInterrupts _ false), rfl, Or.inr ⟨rfl, hfires⟩⟩
  · exact wp_pure ⟨hstill, rfl, Or.inl rfl⟩

end Calls

end Longhorn.WaitRules
