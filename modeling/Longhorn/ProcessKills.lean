import Mathlib.Data.Set.List
import Longhorn.KernelRuns
import Longhorn.ProcessCalls
import Longhorn.WaitRules

/-!
`proc_kill` of a process that does not run, whatever its threads and others wait for.
-/

namespace Longhorn.ProcessKills

open Longhorn.IntrusiveList
open Longhorn.ListRefinement
open Longhorn.ListPrograms
open Longhorn.ThreadModel
open Longhorn.KernelRuns
open Longhorn.SchedulerRules
open Longhorn.ThreadCounts
open Longhorn.ThreadCalls
open Longhorn.ProcessCalls
open Longhorn.WaitRules

/-- The thread is ready, and on the list of ready threads. -/
def Awake (c : Core) (q : KernelSeqs) (t : Nat) : Prop :=
  c.state t = .ready ∧ .node t ∈ q.get .readyThreads

/-- Threads that sleep may be woken, and nothing else happens to any thread. -/
structure Rouses (c : Core) (q : KernelSeqs) (c' : Core) (q' : KernelSeqs) : Prop where
  lists : ∀ i, (q i).isSome → (q' i).isSome
  current : c'.current = c.current
  procOf : ∀ t, c'.procOf t = c.procOf t
  childNum : ∀ t, (c'.threads t).childNum = (c.threads t).childNum
  asleep : ∀ v, Asleep c q v → Asleep c' q' v ∨ Awake c' q' v
  stays : ∀ v, ¬ Asleep c q v → Stays c q c' q' v

section Rousing

variable {c c' c1 : Core} {q q' q1 : KernelSeqs} {v : Nat}

theorem stays_asleep (h : Stays c q c' q' v) (hv : Asleep c q v) : Asleep c' q' v :=
  ⟨h.state.trans hv.1, h.blocked.mpr hv.2⟩

theorem stays_awake (h : Stays c q c' q' v) (hv : Awake c q v) : Awake c' q' v :=
  ⟨h.state.trans hv.1, h.ready.mpr hv.2⟩

theorem Awake.not_asleep (h : Awake c q v) : ¬ Asleep c q v := by
  rw [Asleep, h.1]
  rintro ⟨hs, _⟩
  cases hs

theorem Rouses.awake (h : Rouses c q c' q') (hv : Awake c q v) : Awake c' q' v :=
  stays_awake (h.stays v hv.not_asleep) hv

theorem Rouses.of_stays (hlists : ∀ i, (q i).isSome → (q' i).isSome)
    (hcurrent : c'.current = c.current) (hprocOf : ∀ t, c'.procOf t = c.procOf t)
    (hchild : ∀ t, (c'.threads t).childNum = (c.threads t).childNum)
    (hstays : ∀ v, Stays c q c' q' v) : Rouses c q c' q' :=
  ⟨hlists, hcurrent, hprocOf, hchild, fun v hv => Or.inl (stays_asleep (hstays v) hv),
    fun v _ => hstays v⟩

theorem Rouses.of_alike (ha : Alike c c') (hlists : ∀ i, (q i).isSome → (q' i).isSome)
    (hready : q'.get .readyThreads = q.get .readyThreads)
    (hblocked : q'.get .blockedThreads = q.get .blockedThreads) : Rouses c q c' q' :=
  Rouses.of_stays hlists ha.current ha.procOf ha.childNum fun v =>
    ⟨ha.state v, by rw [hready], by rw [hblocked]⟩

theorem Rouses.trans (h : Rouses c q c1 q1) (h' : Rouses c1 q1 c' q') : Rouses c q c' q' := by
  refine ⟨fun i hi => h'.lists i (h.lists i hi), h'.current.trans h.current,
    fun t => (h'.procOf t).trans (h.procOf t), fun t => (h'.childNum t).trans (h.childNum t),
    fun v hv => ?_, fun v hv => ?_⟩
  · rcases h.asleep v hv with hv | hv
    · exact h'.asleep v hv
    · exact Or.inr (h'.awake hv)
  · have hstays := h.stays v hv
    refine Stays.trans hstays (h'.stays v fun hv' => hv ?_)
    exact ⟨hstays.state ▸ hv'.1, hstays.blocked.mp hv'.2⟩

end Rousing

/-- The threads in `who` that sleep have been woken, and of the other lists only that of the
waiters has changed. -/
structure Wakes (waiters : ListId) (who : Nat → Prop) (c : Core) (q : KernelSeqs) (c' : Core)
    (q' : KernelSeqs) : Prop extends Rouses c q c' q' where
  procs : c'.procs = c.procs
  woken : ∀ v, who v → Asleep c q v → Awake c' q' v
  others : ∀ i, i ≠ .readyThreads → i ≠ .blockedThreads → i ≠ waiters → q' i = q i

section Notifying

variable {c c' c1 : Core} {q q' q1 : KernelSeqs} {waiters : ListId} {ws vs : List Nat} {w t : Nat}
  {ret : Int} {who who' : Nat → Prop}

theorem Wakes.trans (h : Wakes waiters who c q c1 q1) (h' : Wakes waiters who' c1 q1 c' q') :
    Wakes waiters (fun v => who v ∨ who' v) c q c' q' := by
  refine ⟨h.toRouses.trans h'.toRouses, h'.procs.trans h.procs, fun v hv hs => ?_,
    fun i hr hb hi => (h'.others i hr hb hi).trans (h.others i hr hb hi)⟩
  rcases hv with hv | hv
  · exact h'.awake (h.woken v hv hs)
  · rcases h.asleep v hs with hs | hs
    · exact h'.woken v hv hs
    · exact h'.awake hs

theorem Wakes.mono (h : Wakes waiters who c q c' q') (hwho : ∀ v, who' v → who v) :
    Wakes waiters who' c q c' q' :=
  ⟨h.toRouses, h.procs, fun v hv => h.woken v (hwho v hv), h.others⟩

/-- Only the thread itself may have been woken. -/
theorem rouses_unblocks (h : Unblocks t c q c' q') :
    Rouses c q c' q' ∧ c'.procs = c.procs ∧ (Asleep c q t → Awake c' q' t) ∧
      ∀ i, i ≠ .readyThreads → i ≠ .blockedThreads → q' i = q i := by
  rcases h with ⟨hasleep, hstill, rfl⟩ | ⟨hno, hstill, rfl⟩
  · have hawake : Awake c' ((q.set .blockedThreads ((q.get .blockedThreads).erase (.node t))).set
        .readyThreads (.node t :: q.get .readyThreads)) t := by
      refine ⟨(hstill.1.state t).trans (state_setState c t .ready), ?_⟩
      rw [Seqs.get_set_same]
      exact List.mem_cons_self
    refine ⟨⟨fun i hi => Seqs.isSome_set (Seqs.isSome_set hi), hstill.1.current, fun u => ?_,
      fun u => ?_, fun v hv => ?_, fun v hv => ?_⟩, hstill.1.procs, fun _ => hawake,
      fun i hr hb => ?_⟩
    · exact (hstill.1.procOf u).trans (procOf_setState c t u .ready)
    · exact (hstill.1.childNum u).trans (childNum_setState c t u .ready)
    · rcases eq_or_ne v t with rfl | hne
      · exact Or.inr hawake
      · exact Or.inl (stays_asleep (stays_unblocked hstill.1 hne) hv)
    · refine stays_unblocked hstill.1 ?_
      rintro rfl
      exact hv hasleep
    · rw [Seqs.set_of_ne hr, Seqs.set_of_ne hb]
  · exact ⟨Rouses.of_alike hstill.1 (fun _ hi => hi) rfl rfl, hstill.1.procs,
      fun hasleep => absurd hasleep hno, fun _ _ _ => rfl⟩

theorem wakes_set {waiters : ListId} (ha : Alike c c') (hw : HoldsWaiters waiters)
    (xs : List NodeAddr) : Wakes waiters (fun _ => False) c q c' (q.set waiters xs) := by
  refine ⟨Rouses.of_alike ha (fun i hi => Seqs.isSome_set hi) ?_ ?_, ha.procs, fun _ hv => hv.elim,
    fun i _ _ hi => Seqs.set_of_ne hi _⟩
  · rw [Seqs.get_set_of_ne hw.ne_ready.symm]
  · rw [Seqs.get_set_of_ne hw.ne_blocked.symm]

/-- One round of the loop of `thread_notify` and `proc_notify`. -/
theorem wakes_round (hw : HoldsWaiters waiters) (h : Unblocks w (c.setWaitCode w ret) q c' q')
    (xs : List NodeAddr) : Wakes waiters (fun v => v = w) c q c' (q'.set waiters xs) := by
  have ha := alike_setWaitCode c w ret
  have hcode : Wakes waiters (fun _ => False) c q (c.setWaitCode w ret) q :=
    ⟨Rouses.of_alike ha (fun _ hi => hi) rfl rfl, ha.procs, fun _ hv => hv.elim,
      fun _ _ _ _ => rfl⟩
  obtain ⟨hrouses, hprocs, hawake, hothers⟩ := rouses_unblocks h
  have hwoken : Wakes waiters (fun v => v = w) (c.setWaitCode w ret) q c' q' := by
    refine ⟨hrouses, hprocs, ?_, fun i hr hb _ => hothers i hr hb⟩
    rintro v rfl
    exact hawake
  refine ((hcode.trans hwoken).trans (wakes_set (Alike.refl c') hw xs)).mono ?_
  exact fun v hv => Or.inl (Or.inr hv)

/-- The loop wakes all that sleep among `w` and the threads on the list, by induction on the
list. -/
theorem wp_notifyLoop_wakes (hw : HoldsWaiters waiters)
    (hlist : q waiters = some (vs.map .waitNode)) (hready : (q .readyThreads).isSome)
    (hblocked : (q .blockedThreads).isSome) :
    Wp listAt (waiters.notifyLoop true ret (.waitNode w))
      (fun _ c' q' => Wakes waiters (fun v => v ∈ w :: vs) c q c' q') c q := by
  induction vs generalizing c q w with
  | nil =>
      apply wp_notifyLoop_step hw hlist hready hblocked
      · exact fun c' q' _ hround =>
          (wakes_round hw hround []).mono fun v hv => List.mem_singleton.mp hv
      · intro v rest c' q' heq
        cases heq
  | cons v rest ih =>
      apply wp_notifyLoop_step hw hlist hready hblocked
      · intro c' q' heq
        cases heq
      · rintro _ _ c1 q1 ⟨⟩ hround
        have hwakes := wakes_round hw hround (rest.map .waitNode)
        rw [if_pos rfl]
        refine (ih (by simp [Seqs.set]) (hwakes.lists _ hready) (hwakes.lists _ hblocked)).mono ?_
        exact fun _ c2 q2 hwakes2 => (hwakes.trans hwakes2).mono fun u hu => List.mem_cons.mp hu

theorem exists_waiters (hlist : (q waiters).isSome)
    (hnodes : ∀ a ∈ q.get waiters, ∃ v, a = .waitNode v) :
    ∃ ws : List Nat, q waiters = some (ws.map .waitNode) := by
  obtain ⟨xs, hxs⟩ := Option.isSome_iff_exists.mp hlist
  rw [Seqs.get_of_eq hxs] at hnodes
  have hrange : xs ∈ Set.range (List.map NodeAddr.waitNode) := by
    rw [Set.range_list_map]
    exact fun a ha => (hnodes a ha).imp fun _ hv => hv.symm
  obtain ⟨ws, rfl⟩ := hrange
  exact ⟨ws, hxs⟩

theorem wp_notifies (hw : HoldsWaiters waiters) (hlist : (q waiters).isSome)
    (hnodes : ∀ a ∈ q.get waiters, ∃ v, a = .waitNode v) (hready : (q .readyThreads).isSome)
    (hblocked : (q .blockedThreads).isSome) :
    Wp listAt (notify waiters true ret)
      (fun _ c' q' => Wakes waiters (fun v => .waitNode v ∈ q.get waiters) c q c' q') c q := by
  obtain ⟨ws, hws⟩ := exists_waiters hlist hnodes
  apply Wp.bind
  apply wp_pop hlist
  rw [Seqs.get_of_eq hws]
  rcases ws with _ | ⟨w, vs⟩
  · refine wp_pure ((wakes_set (alike_noteCall c _) hw _).mono fun v hv => ?_)
    exact absurd hv List.not_mem_nil
  · apply Wp.bind
    have hpopped := wakes_set (q := q) (alike_noteCall c (.pop waiters)) hw (vs.map .waitNode)
    have hrest : q.set waiters (vs.map .waitNode) waiters = some (vs.map .waitNode) := by
      simp [Seqs.set]
    refine (wp_notifyLoop_wakes hw hrest (hpopped.lists _ hready)
      (hpopped.lists _ hblocked)).mono ?_
    intro _ c1 q1 hwakes
    refine wp_pure ((hpopped.trans hwakes).mono fun v hv => Or.inr ?_)
    simpa using hv

end Notifying

/-- The thread has been cleaned up, and with the last thread of its process the process. -/
structure Cleans (x : Nat) (c : Core) (q : KernelSeqs) (c' : Core) (q' : KernelSeqs) : Prop extends
    Rouses c q c' q' where
  procs : c'.procs = Function.update c.procs (c.procOf x)
    ((c.procs (c.procOf x)).endThread (c.threads x).childNum)
  waiters : ∀ i, HoldsWaiters i → (i = .procWaiters (c.procOf x) → ¬ Core.EndsProc c x) →
    q' i = q i
  unlisted : Core.EndsProc c x → .procNode (c.procOf x) ∉ q'.get .allProcs
  woken : Core.EndsProc c x → ∀ v, .waitNode v ∈ q.get (.procWaiters (c.procOf x)) →
    Asleep c q v → Awake c' q' v

section Cleaning

variable {c : Core} {q : KernelSeqs} {x p : Nat}

/-- The list of waiters of a thread or process can be notified. -/
structure Ringable (waiters : ListId) (q : KernelSeqs) : Prop where
  list : (q waiters).isSome
  nodes : ∀ a ∈ q.get waiters, ∃ v, a = .waitNode v

theorem Ringable.congr {i : ListId} {q' : KernelSeqs} (h : Ringable i q) (hsame : q' i = q i) :
    Ringable i q' := by
  refine ⟨hsame ▸ h.list, ?_⟩
  rw [Seqs.get, hsame]
  exact h.nodes

/-- The lists that every kill uses are well formed. -/
structure Basic (q : KernelSeqs) : Prop where
  ready : (q .readyThreads).isSome
  blocked : (q .blockedThreads).isSome
  procs : (q .allProcs).isSome

/-- `proc_cleanup` of a process without live threads. -/
theorem wp_procCleanup_wakes (hb : Basic q) (hring : Ringable (.procWaiters p) q)
    (hcount : (c.procs p).numLiveThreads = 0) :
    Wp listAt (procCleanup p) (fun _ c' q' => Rouses c q c' q' ∧ c'.procs = c.procs ∧
      (∀ v, .waitNode v ∈ q.get (.procWaiters p) → Asleep c q v → Awake c' q' v) ∧
      .procNode p ∉ q'.get .allProcs ∧
      ∀ i, HoldsWaiters i → i ≠ .procWaiters p → q' i = q i) c q := by
  have hw : HoldsWaiters (.procWaiters p) := trivial
  apply Wp.bind
  apply wp_reads
  rw [if_neg (not_not_intro hcount)]
  apply Wp.bind
  refine (wp_notifies hw hring.list hring.nodes hb.ready hb.blocked).mono ?_
  intro _ c1 q1 hwakes
  apply wp_of_apart
  intro hq1
  have ha := alike_noteCall c1 (.delete .allProcs (.procNode p))
  apply Wp.bind
  apply wp_erase (hwakes.lists _ hb.procs)
  intro _ _
  have herased : Rouses c1 q1 (c1.noteCall (.delete .allProcs (.procNode p)))
      (q1.set .allProcs ((q1.get .allProcs).erase (.procNode p))) := by
    refine Rouses.of_alike ha (fun i hi => Seqs.isSome_set hi) ?_ ?_
    · rw [Seqs.get_set_of_ne (by decide)]
    · rw [Seqs.get_set_of_ne (by decide)]
  refine wp_pure ⟨hwakes.toRouses.trans herased, ha.procs.trans hwakes.procs,
    fun v hv hs => herased.awake (hwakes.woken v hv hs), ?_, fun i hi hne => ?_⟩
  · rw [Seqs.get_set_same]
    exact (hq1.nodup .allProcs).not_mem_erase
  · rw [Seqs.set_of_ne hi.ne_procs]
    exact hwakes.others i hi.ne_ready hi.ne_blocked hne

theorem wp_cleans (hb : Basic q) (hring : Ringable (.procWaiters (c.procOf x)) q)
    (hstate : c.state x = .dying) :
    Wp listAt (threadCleanup x) (fun _ c' q' => Cleans x c q c' q') c q := by
  apply Wp.bind
  apply wp_reads
  rw [if_neg (not_not_intro hstate)]
  apply Wp.bind
  apply wp_reads
  apply Wp.bind
  apply wp_modifyCore
  apply Wp.bind
  apply wp_reads
  obtain ⟨c1, hc1⟩ : ∃ c1, c1 = c.withProc (c.procOf x) fun p =>
    p.endThread (c.threads x).childNum := ⟨_, rfl⟩
  have hprocs1 : c1.procs = Function.update c.procs (c.procOf x)
      ((c.procs (c.procOf x)).endThread (c.threads x).childNum) := by
    rw [hc1]
    rfl
  have hcount : (c1.procs (c.procOf x)).numLiveThreads =
      ((c.procs (c.procOf x)).numLiveThreads + 255) % 256 := by
    rw [hprocs1, Function.update_self, Process.endThread]
  have hstart : Rouses c q c1 q := by
    rw [hc1]
    exact Rouses.of_stays (fun _ hi => hi) rfl (fun _ => rfl) (fun _ => rfl)
      fun v => ⟨rfl, Iff.rfl, Iff.rfl⟩
  have hasleep : ∀ v, Asleep c q v → Asleep c1 q v := by
    rw [hc1]
    exact fun _ hv => hv
  have hfreed : ∀ (c2 c3 : Core) (q2 : KernelSeqs), c3.threads = c2.threads →
      c3.current = c2.current → Rouses c2 q2 c3 q2 := by
    intro c2 c3 q2 hthreads hcurrent
    refine Rouses.of_stays (fun _ hi => hi) hcurrent (fun t => ?_) (fun t => ?_)
      fun v => ⟨?_, Iff.rfl, Iff.rfl⟩
    · rw [Core.procOf, hthreads, Core.procOf]
    · rw [hthreads]
    · rw [Core.state, hthreads, Core.state]
  rw [← hc1, hcount]
  split
  · next hends =>
      apply Wp.bind
      refine (wp_procCleanup_wakes hb hring (hcount.trans hends)).mono ?_
      rintro _ c2 q2 ⟨hrouses, hprocs, hwoken, hunlisted, hothers⟩
      apply Wp.bind
      apply wp_modifyCore
      apply Wp.bind
      apply wp_modifyCore
      have hfree := hfreed c2 ((c2.freeProc (c.procOf x)).freeThread x) q2 rfl rfl
      refine wp_pure ⟨(hstart.trans hrouses).trans hfree, hprocs.trans hprocs1, fun i hi hgo => ?_,
        fun _ => hunlisted, fun _ v hv hs => hfree.awake (hwoken v hv (hasleep v hs))⟩
      exact hothers i hi fun heq => hgo heq hends
  · next hgoes =>
      apply Wp.bind
      apply wp_modifyCore
      refine wp_pure ⟨hstart.trans (hfreed c1 (c1.freeThread x) q rfl rfl), hprocs1,
        fun _ _ _ => rfl, fun hends => absurd hends hgoes, fun hends => absurd hends hgoes⟩

end Cleaning

/-- The thread has left its list as dying. -/
structure Detaches (x : Nat) (c : Core) (q : KernelSeqs) (c' : Core) (q' : KernelSeqs) : Prop where
  lists : ∀ i, (q i).isSome → (q' i).isSome
  current : c'.current = c.current
  procOf : ∀ t, c'.procOf t = c.procOf t
  childNum : ∀ t, (c'.threads t).childNum = (c.threads t).childNum
  procs : c'.procs = c.procs
  dead : c'.state x = .dying ∧ .node x ∉ q'.get .readyThreads ∧ .node x ∉ q'.get .blockedThreads
  stays : ∀ v, v ≠ x → Stays c q c' q' v
  waiters : ∀ i, HoldsWaiters i → q' i = q i

/-- The thread has been killed: those that slept on its list of waiters are awake, and if it was
the last one of its process, so are those that slept on that of the process. -/
structure Kills (x : Nat) (c : Core) (q : KernelSeqs) (c' : Core) (q' : KernelSeqs) : Prop where
  lists : ∀ i, (q i).isSome → (q' i).isSome
  current : c'.current = c.current
  procOf : ∀ t, c'.procOf t = c.procOf t
  childNum : ∀ t, (c'.threads t).childNum = (c.threads t).childNum
  procs : c'.procs = Function.update c.procs (c.procOf x)
    ((c.procs (c.procOf x)).endThread (c.threads x).childNum)
  dead : c'.state x = .dying ∧ .node x ∉ q'.get .readyThreads ∧ .node x ∉ q'.get .blockedThreads
  asleep : ∀ v, v ≠ x → Asleep c q v → Asleep c' q' v ∨ Awake c' q' v
  stays : ∀ v, v ≠ x → ¬ Asleep c q v → Stays c q c' q' v
  waiters : ∀ i, HoldsWaiters i → i ≠ .threadWaiters x →
    (i = .procWaiters (c.procOf x) → ¬ Core.EndsProc c x) → q' i = q i
  woken : ∀ v, v ≠ x → .waitNode v ∈ q.get (.threadWaiters x) → Asleep c q v → Awake c' q' v
  unlisted : Core.EndsProc c x → .procNode (c.procOf x) ∉ q'.get .allProcs
  released : Core.EndsProc c x → ∀ v, v ≠ x → .waitNode v ∈ q.get (.procWaiters (c.procOf x)) →
    Asleep c q v → Awake c' q' v

section Killing

variable {c c1 c2 c' : Core} {q q1 q2 q' : KernelSeqs} {x v : Nat} {i : ListId}

theorem detaches_erase (hq : Apart q) (hi : i = .readyThreads ∨ i = .blockedThreads)
    (hin : .node x ∈ q.get i) (ha : Alike (c.setState x .dying) c') :
    Detaches x c q c' (q.set i ((q.get i).erase (.node x))) := by
  have hstate : ∀ v, v ≠ x → c'.state v = c.state v :=
    fun v hv => (ha.state v).trans (state_setState_of_ne hv .dying)
  have hkept : ∀ v j, v ≠ x →
      (.node v ∈ (q.set i ((q.get i).erase (.node x))).get j ↔ .node v ∈ q.get j) := by
    intro v j hv
    rcases eq_or_ne j i with rfl | hne
    · rw [Seqs.get_set_same]
      exact List.mem_erase_of_ne (by simpa using hv)
    · rw [Seqs.get_set_of_ne hne]
  refine ⟨fun j hj => Seqs.isSome_set hj, ha.current,
    fun t => (ha.procOf t).trans (procOf_setState c x t .dying),
    fun t => (ha.childNum t).trans (childNum_setState c x t .dying), ha.procs,
    ⟨(ha.state x).trans (state_setState c x .dying), hq.erased hin _, hq.erased hin _⟩,
    fun v hv => ⟨hstate v hv, hkept v _ hv, hkept v _ hv⟩, fun j hj => Seqs.set_of_ne ?_ _⟩
  rintro rfl
  rcases hi with rfl | rfl
  · exact hj
  · exact hj

theorem Detaches.asleep_iff (h : Detaches x c q c1 q1) (hv : v ≠ x) :
    Asleep c1 q1 v ↔ Asleep c q v := by
  have hstays := h.stays v hv
  rw [Asleep, hstays.state, hstays.blocked, Asleep]

theorem Cleans.withInterrupts (h : Cleans x c q c' q') (b : Bool) :
    Cleans x c q (c'.withInterrupts b) q' := by
  have hset : Rouses c' q' (c'.withInterrupts b) q' :=
    Rouses.of_alike (alike_withInterrupts c' b) (fun _ hi => hi) rfl rfl
  exact ⟨h.toRouses.trans hset, h.procs, h.waiters, h.unlisted,
    fun hends v hv hs => hset.awake (h.woken hends v hv hs)⟩

/-- The notification and the cleaning up of a thread that has left its list. -/
theorem Kills.of_steps (h : Detaches x c q c1 q1)
    (hwakes : Wakes (.threadWaiters x) (fun v => .waitNode v ∈ q1.get (.threadWaiters x))
      c1 q1 c2 q2)
    (hcleans : Cleans x c2 q2 c' q') : Kills x c q c' q' := by
  have hrouses := hwakes.toRouses.trans hcleans.toRouses
  have hprocOf : ∀ t, c2.procOf t = c.procOf t := fun t => (hwakes.procOf t).trans (h.procOf t)
  have hchild : ∀ t, (c2.threads t).childNum = (c.threads t).childNum :=
    fun t => (hwakes.childNum t).trans (h.childNum t)
  have hprocs : c2.procs = c.procs := hwakes.procs.trans h.procs
  have hends : Core.EndsProc c2 x ↔ Core.EndsProc c x := by
    rw [Core.EndsProc, hprocOf, hprocs, Core.EndsProc]
  have hlists : ∀ i, HoldsWaiters i → i ≠ .threadWaiters x → q2 i = q i :=
    fun i hi hne => (hwakes.others i hi.ne_ready hi.ne_blocked hne).trans (h.waiters i hi)
  have hproc : q2.get (.procWaiters (c.procOf x)) = q.get (.procWaiters (c.procOf x)) :=
    congrArg (fun o => o.getD []) (hlists (.procWaiters (c.procOf x)) trivial (by simp))
  constructor
  · exact fun i hi => hrouses.lists i (h.lists i hi)
  · exact hrouses.current.trans h.current
  · exact fun t => (hcleans.procOf t).trans (hprocOf t)
  · exact fun t => (hcleans.childNum t).trans (hchild t)
  · rw [hcleans.procs, hprocOf, hchild, hprocs]
  · have hstays := hrouses.stays x fun hs => by
      rw [Asleep, h.dead.1] at hs
      cases hs.1
    rw [hstays.state, hstays.ready, hstays.blocked]
    exact h.dead
  · exact fun v hv hs => hrouses.asleep v ((h.asleep_iff hv).mpr hs)
  · exact fun v hv hs => Stays.trans (h.stays v hv)
      (hrouses.stays v fun hs' => hs ((h.asleep_iff hv).mp hs'))
  · intro i hi hne hgo
    rw [hcleans.waiters i hi, hlists i hi hne]
    rw [hprocOf, hends]
    exact hgo
  · intro v hv hin hs
    refine hcleans.awake (hwakes.woken v ?_ ((h.asleep_iff hv).mpr hs))
    rw [Seqs.get, h.waiters (.threadWaiters x) trivial]
    exact hin
  · rw [← hends, ← hprocOf]
    exact hcleans.unlisted
  · intro hend v hv hin hs
    rw [← hproc, ← hprocOf] at hin
    rcases hwakes.asleep v ((h.asleep_iff hv).mpr hs) with hs | hs
    · exact hcleans.woken (hends.mpr hend) v hin hs
    · exact hcleans.awake hs

/-- What a kill of the thread needs. -/
structure Killable (x : Nat) (c : Core) (q : KernelSeqs) : Prop where
  basic : Basic q
  threadWaiters : Ringable (.threadWaiters x) q
  procWaiters : Ringable (.procWaiters (c.procOf x)) q
  placed : Awake c q x ∨ Asleep c q x

theorem wp_killed (h : Killable x c q) (hd : Detaches x c q c1 q1) :
    Wp listAt (do
      let _ ← threadNotify x true (-1)
      let _ ← threadCleanup x
      enableInterrupts
      pure 0 : Kernel Int) (fun code c' q' => code = 0 ∧ Kills x c q c' q') c1 q1 := by
  have hw : HoldsWaiters (.threadWaiters x) := trivial
  have hwp : HoldsWaiters (.procWaiters (c.procOf x)) := trivial
  have hthread := h.threadWaiters.congr (hd.waiters _ hw)
  have hproc := h.procWaiters.congr (hd.waiters _ hwp)
  apply Wp.bind
  refine (wp_notifies hw hthread.list hthread.nodes (hd.lists _ h.basic.ready)
    (hd.lists _ h.basic.blocked)).mono ?_
  intro _ c2 q2 hwakes
  have hbasic2 : Basic q2 := ⟨hwakes.lists _ (hd.lists _ h.basic.ready),
    hwakes.lists _ (hd.lists _ h.basic.blocked), hwakes.lists _ (hd.lists _ h.basic.procs)⟩
  have hproc2 : Ringable (.procWaiters (c2.procOf x)) q2 := by
    have hprocOf : c2.procOf x = c.procOf x := (hwakes.procOf x).trans (hd.procOf x)
    have hsame : q2 (.procWaiters (c.procOf x)) = q1 (.procWaiters (c.procOf x)) :=
      hwakes.others _ (by simp) (by simp) (by simp)
    rw [hprocOf]
    exact hproc.congr hsame
  have hstate2 : c2.state x = .dying := by
    refine (hwakes.stays x fun hs => ?_).state.trans hd.dead.1
    rw [Asleep, hd.dead.1] at hs
    cases hs.1
  apply Wp.bind
  refine (wp_cleans hbasic2 hproc2 hstate2).mono ?_
  intro _ c3 q3 hcleans
  apply Wp.bind
  apply wp_modifyCore
  exact wp_pure ⟨rfl, Kills.of_steps hd hwakes (hcleans.withInterrupts true)⟩

/-- `thread_kill` of a thread that does not run. -/
theorem wp_kills (h : Killable x c q) :
    Wp listAt (threadKill x) (fun r c' q' => r = some 0 ∧ Kills x c q c' q') c q := by
  apply wp_of_apart
  intro hq
  obtain ⟨c0, hc0⟩ : ∃ c0, c0 = c.withInterrupts false := ⟨_, rfl⟩
  have ha0 : Alike c c0 := hc0 ▸ alike_withInterrupts c false
  have hkilled : ∀ i c1, Detaches x c q c1 (q.set i ((q.get i).erase (.node x))) →
      Wp listAt (do
        let _ ← threadNotify x true (-1)
        let _ ← threadCleanup x
        enableInterrupts
        pure 0 : Kernel Int) (fun code c' q' => some code = some 0 ∧ Kills x c q c' q') c1
        (q.set i ((q.get i).erase (.node x))) :=
    fun i c1 hd => (wp_killed h hd).mono fun _ _ _ hk => ⟨congrArg some hk.1, hk.2⟩
  apply Wp.bind
  apply wp_modifyCore
  rw [← hc0]
  apply Wp.bind
  apply wp_reads
  rw [ha0.state]
  rcases h.placed with ⟨hs, hin⟩ | ⟨hs, hin⟩
  · rw [if_neg (by simp [hs])]
    apply Wp.map
    apply Wp.bind
    have ha1 := (ha0.setState x .dying).trans (alike_noteCall (c0.setState x .dying)
      (ListCall.delete .readyThreads (.node x)))
    apply wp_detach_here ((ha0.state x).trans hs) h.basic.ready hin
    rw [if_neg (by simp)]
    apply Wp.bind
    apply wp_detach_other
    · rw [ha1.state, state_setState]
      decide
    rw [if_neg (by simp)]
    exact hkilled _ _ (detaches_erase hq (Or.inl rfl) hin ha1)
  · rw [if_neg (by simp [hs])]
    apply Wp.map
    apply Wp.bind
    have ha1 := (ha0.setState x .dying).trans (alike_noteCall (c0.setState x .dying)
      (ListCall.delete .blockedThreads (.node x)))
    apply wp_detach_other
    · rw [ha0.state, hs]
      decide
    rw [if_neg (by simp)]
    apply Wp.bind
    apply wp_detach_here ((ha0.state x).trans hs) h.basic.blocked hin
    rw [if_neg (by simp)]
    exact hkilled _ _ (detaches_erase hq (Or.inr rfl) hin ha1)

end Killing

def InSlot (c : Core) (p i t : Nat) : Prop :=
  i < maxNumThreads ∧ (c.procs p).threads i = some t

def Survives (c : Core) (p v : Nat) : Prop := ∀ i, ¬ InSlot c p i v

/-- The process can be killed: its threads are where their states say, it counts the slots that it
uses, and all that wait for it or for its threads sleep. -/
structure Victim (p : Nat) (c : Core) (q : KernelSeqs) : Prop where
  basic : Basic q
  slots : ∀ i t, InSlot c p i t → c.procOf t = p ∧ (c.threads t).childNum = i
  placed : ∀ i t, InSlot c p i t → Awake c q t ∨ Asleep c q t
  count : (c.procs p).numLiveThreads = occupied (c.procs p)
  threadWaiters : ∀ i t, InSlot c p i t → Ringable (.threadWaiters t) q
  procWaiters : Ringable (.procWaiters p) q
  waiting : ∀ i t v, InSlot c p i t → .waitNode v ∈ q.get (.threadWaiters t) → Asleep c q v
  procWaiting : ∀ v, .waitNode v ∈ q.get (.procWaiters p) → Asleep c q v

/-- The loop of `proc_kill` has the slots `rest` before it. -/
structure Ending (p : Nat) (c0 : Core) (q0 : KernelSeqs) (rest : List Nat) (c : Core)
    (q : KernelSeqs) : Prop where
  lists : ∀ i, (q0 i).isSome → (q i).isSome
  current : c.current = c0.current
  procOf : ∀ t, c.procOf t = c0.procOf t
  childNum : ∀ t, (c.threads t).childNum = (c0.threads t).childNum
  left : ∀ i ∈ rest, (c.procs p).threads i = (c0.procs p).threads i
  cleared : ∀ i, i < maxNumThreads → i ∉ rest → (c.procs p).threads i = none
  count : (c.procs p).numLiveThreads = occupied (c.procs p)
  placed : ∀ i t, i ∈ rest → InSlot c0 p i t → Awake c q t ∨ Asleep c q t
  dead : ∀ i t, i ∉ rest → InSlot c0 p i t → c.state t = .dying ∧
    .node t ∉ q.get .readyThreads ∧ .node t ∉ q.get .blockedThreads
  threadWaiters : ∀ i t, i ∈ rest → InSlot c0 p i t → q (.threadWaiters t) = q0 (.threadWaiters t)
  procWaiters : 0 < occupied (c.procs p) → q (.procWaiters p) = q0 (.procWaiters p)
  sleepers : ∀ v, Survives c0 p v → Asleep c0 q0 v → Asleep c q v ∨ Awake c q v
  woken : ∀ i t v, i ∉ rest → InSlot c0 p i t → .waitNode v ∈ q0.get (.threadWaiters t) →
    Survives c0 p v → Awake c q v
  unlisted : occupied (c.procs p) = 0 → (∃ i t, InSlot c0 p i t) → .procNode p ∉ q.get .allProcs
  released : occupied (c.procs p) = 0 → (∃ i t, InSlot c0 p i t) →
    ∀ v, .waitNode v ∈ q0.get (.procWaiters p) → Survives c0 p v → Awake c q v

section Looping

variable {c0 c c' : Core} {q0 q q' : KernelSeqs} {p i x : Nat} {rest : List Nat}

theorem ending_start (h : Victim p c q) : Ending p c q (List.range maxNumThreads) c q := by
  have hout : ∀ i t, i ∉ List.range maxNumThreads → ¬ InSlot c p i t :=
    fun i t hi hs => hi (List.mem_range.mpr hs.1)
  have hnone : occupied (c.procs p) = 0 → ¬ ∃ i t, InSlot c p i t := by
    rintro hzero ⟨i, t, hi, ht⟩
    have hpos := occupied_pos hi ht
    omega
  exact ⟨fun _ hi => hi, rfl, fun _ => rfl, fun _ => rfl, fun _ _ => rfl,
    fun i hi hno => absurd (List.mem_range.mpr hi) hno, h.count, fun i t _ => h.placed i t,
    fun i t hi hs => absurd hs (hout i t hi), fun _ _ _ _ => rfl, fun _ => rfl,
    fun _ _ hs => Or.inl hs, fun i t _ hi hs => absurd hs (hout i t hi),
    fun hzero hs => absurd hs (hnone hzero), fun hzero hs => absurd hs (hnone hzero)⟩

theorem Ending.skip (h : Ending p c0 q0 (i :: rest) c q) (hslot : (c.procs p).threads i = none) :
    Ending p c0 q0 rest c q := by
  have hno : ∀ t, ¬ InSlot c0 p i t := by
    rintro t ⟨_, ht⟩
    rw [← h.left i List.mem_cons_self, hslot] at ht
    cases ht
  have hout : ∀ j t, j ∉ rest → InSlot c0 p j t → j ∉ i :: rest := by
    rintro j t hj hs (_ | ⟨_, hin⟩)
    · exact hno t hs
    · exact hj hin
  refine ⟨h.lists, h.current, h.procOf, h.childNum,
    fun j hj => h.left j (List.mem_cons_of_mem i hj), fun j hj hnot => ?_, h.count,
    fun j t hj => h.placed j t (List.mem_cons_of_mem i hj),
    fun j t hj hs => h.dead j t (hout j t hj hs) hs,
    fun j t hj => h.threadWaiters j t (List.mem_cons_of_mem i hj), h.procWaiters, h.sleepers,
    fun j t v hj hs => h.woken j t v (hout j t hj hs) hs, h.unlisted, h.released⟩
  rcases eq_or_ne j i with rfl | hne
  · exact hslot
  · exact h.cleared j hj (by simp [hne, hnot])

theorem Kills.awake {v : Nat} (h : Kills x c q c' q') (hne : v ≠ x) (hv : Awake c q v) :
    Awake c' q' v :=
  stays_awake (h.stays v hne hv.not_asleep) hv

theorem Ending.endThread (hvictim : Victim p c0 q0) (h : Ending p c0 q0 (i :: rest) c q)
    (hx : InSlot c0 p i x) (hk : Kills x c q c' q') :
    c'.procs p = (c.procs p).endThread i ∧
      occupied (c'.procs p) + 1 = occupied (c.procs p) := by
  obtain ⟨hprocOf, hchild⟩ := hvictim.slots i x hx
  have hslot : (c.procs p).threads i = some x := (h.left i List.mem_cons_self).trans hx.2
  have hproc : c'.procs p = (c.procs p).endThread i := by
    rw [hk.procs, h.procOf, h.childNum, hprocOf, hchild, Function.update_self]
  refine ⟨hproc, occupied_clear hx.1 (by rw [hslot]; rfl) ?_⟩
  rw [hproc, Process.endThread]

/-- The thread in the next slot has been killed. -/
theorem Ending.killed (hvictim : Victim p c0 q0) (h : Ending p c0 q0 (i :: rest) c q)
    (hi : i ∉ rest) (hx : InSlot c0 p i x) (hk : Kills x c q c' q') :
    Ending p c0 q0 rest c' q' := by
  obtain ⟨hprocOf0, hchild0⟩ := hvictim.slots i x hx
  have hprocOf : c.procOf x = p := (h.procOf x).trans hprocOf0
  obtain ⟨hproc, hoccupied⟩ := h.endThread hvictim hx hk
  have hthreads : (c'.procs p).threads = Function.update (c.procs p).threads i none := by
    rw [hproc, Process.endThread]
  have hcount : (c'.procs p).numLiveThreads = ((c.procs p).numLiveThreads + 255) % 256 := by
    rw [hproc, Process.endThread]
  have hle := occupied_le (c.procs p)
  rw [maxNumThreads] at hle
  have hends : Core.EndsProc c x ↔ occupied (c'.procs p) = 0 := by
    rw [Core.EndsProc, hprocOf, h.count]
    omega
  have hpos : 0 < occupied (c.procs p) := by omega
  have hother : ∀ j t, j ≠ i → InSlot c0 p j t → t ≠ x := by
    rintro j t hj hs rfl
    exact hj ((hvictim.slots j t hs).2.symm.trans hchild0)
  have hne : ∀ j ∈ rest, j ≠ i := by
    rintro j hj rfl
    exact hi hj
  have hsurvives : ∀ v, Survives c0 p v → v ≠ x := by
    rintro v hv rfl
    exact hv i hx
  have hwaiters : q.get (.threadWaiters x) = q0.get (.threadWaiters x) :=
    congrArg (fun o => o.getD []) (h.threadWaiters i x List.mem_cons_self hx)
  have hprocWaiters : q.get (.procWaiters p) = q0.get (.procWaiters p) :=
    congrArg (fun o => o.getD []) (h.procWaiters hpos)
  -- an earlier kill may have woken a survivor already; then this one leaves it awake
  have hwakes : ∀ v, Survives c0 p v → Asleep c0 q0 v → (Asleep c q v → Awake c' q' v) →
      Awake c' q' v := by
    intro v hv hs hwoken
    rcases h.sleepers v hv hs with hs | hs
    · exact hwoken hs
    · exact hk.awake (hsurvives v hv) hs
  refine ⟨fun j hj => hk.lists j (h.lists j hj), hk.current.trans h.current,
    fun t => (hk.procOf t).trans (h.procOf t), fun t => (hk.childNum t).trans (h.childNum t),
    fun j hj => ?_, fun j hj hnot => ?_, ?_, fun j t hj hs => ?_, fun j t hj hs => ?_,
    fun j t hj hs => ?_, fun hgo => ?_, fun v hv hs => ?_, fun j t v hj hs hin hv => ?_,
    fun hzero _ => ?_, fun hzero _ v hin hv => ?_⟩
  · rw [hthreads, Function.update_of_ne (hne j hj)]
    exact h.left j (List.mem_cons_of_mem i hj)
  · rw [hthreads]
    rcases eq_or_ne j i with rfl | hji
    · rw [Function.update_self]
    · rw [Function.update_of_ne hji]
      exact h.cleared j hj (by simp [hji, hnot])
  · rw [hcount, h.count]
    omega
  · have htx := hother j t (hne j hj) hs
    rcases h.placed j t (List.mem_cons_of_mem i hj) hs with hp | hp
    · exact Or.inl (hk.awake htx hp)
    · exact (hk.asleep t htx hp).symm
  · rcases eq_or_ne j i with rfl | hji
    · obtain rfl : t = x := Option.some.inj (hs.2.symm.trans hx.2)
      exact hk.dead
    · -- its wait node may still be on a list, but a dying thread is not woken
      have hdead := h.dead j t (by simp [hji, hj]) hs
      have hstays := hk.stays t (hother j t hji hs) fun hs' => by
        rw [Asleep, hdead.1] at hs'
        cases hs'.1
      rw [hstays.state, hstays.ready, hstays.blocked]
      exact hdead
  · have htx := hother j t (hne j hj) hs
    rw [hk.waiters (.threadWaiters t) trivial (by simpa using htx) (by simp)]
    exact h.threadWaiters j t (List.mem_cons_of_mem i hj) hs
  · rw [hk.waiters (.procWaiters p) trivial (by simp) fun _ hend => by have := hends.mp hend; omega]
    exact h.procWaiters hpos
  · rcases h.sleepers v hv hs with hs | hs
    · exact hk.asleep v (hsurvives v hv) hs
    · exact Or.inr (hk.awake (hsurvives v hv) hs)
  · rcases eq_or_ne j i with rfl | hji
    · obtain rfl : t = x := Option.some.inj (hs.2.symm.trans hx.2)
      refine hwakes v hv (hvictim.waiting j t v hs hin) (hk.woken v (hsurvives v hv) ?_)
      rw [hwaiters]
      exact hin
    · exact hk.awake (hsurvives v hv) (h.woken j t v (by simp [hji, hj]) hs hin hv)
  · rw [← hprocOf]
    exact hk.unlisted (hends.mpr hzero)
  · refine hwakes v hv (hvictim.procWaiting v hin)
      (hk.released (hends.mpr hzero) v (hsurvives v hv) ?_)
    rw [hprocOf, hprocWaiters]
    exact hin

theorem Ending.killable (hvictim : Victim p c0 q0) (h : Ending p c0 q0 (i :: rest) c q)
    (hx : InSlot c0 p i x) : Killable x c q := by
  have hslot : (c.procs p).threads i = some x := (h.left i List.mem_cons_self).trans hx.2
  refine ⟨⟨h.lists _ hvictim.basic.ready, h.lists _ hvictim.basic.blocked,
    h.lists _ hvictim.basic.procs⟩, ?_, ?_, h.placed i x List.mem_cons_self hx⟩
  · exact (hvictim.threadWaiters i x hx).congr (h.threadWaiters i x List.mem_cons_self hx)
  · rw [h.procOf, (hvictim.slots i x hx).1]
    exact hvictim.procWaiters.congr (h.procWaiters (occupied_pos hx.1 hslot))

theorem wp_procKillRound_ending (hvictim : Victim p c0 q0) (hi : i < maxNumThreads)
    (hrest : i ∉ rest) (h : Ending p c0 q0 (i :: rest) c q) :
    Wp listAt (procKillRound p i (occupied (c.procs p) : Int)) (fun r c' q' =>
      r = some (occupied (c'.procs p) : Int) ∧ Ending p c0 q0 rest c' q') c q := by
  apply Wp.bind
  apply wp_reads
  rcases hslot : (c.procs p).threads i with _ | t
  · exact wp_pure ⟨rfl, h.skip hslot⟩
  have hx : InSlot c0 p i t := ⟨hi, (h.left i List.mem_cons_self).symm.trans hslot⟩
  have hstate : c.state t ≠ .dying ∧ c.state t ≠ .running := by
    rcases h.placed i t List.mem_cons_self hx with ⟨hs, _⟩ | ⟨hs, _⟩
    · rw [hs]
      decide
    · rw [hs]
      decide
  apply Wp.bind
  apply wp_reads
  apply Wp.bind
  apply wp_reads
  rw [if_pos hstate]
  apply Wp.bind
  refine (wp_kills (h.killable hvictim hx)).mono ?_
  rintro _ c' q' ⟨rfl, hk⟩
  have hnext := h.killed hvictim hrest hx hk
  obtain ⟨_, hoccupied⟩ := h.endThread hvictim hx hk
  have hless : (occupied (c.procs p) : Int) - 1 = occupied (c'.procs p) := by
    omega
  dsimp only
  rw [if_pos (by decide), hless]
  exact wp_pure ⟨rfl, hnext⟩

theorem wp_procKillLoop_ending (hvictim : Victim p c0 q0) {slots : List Nat}
    (hslots : ∀ i ∈ slots, i < maxNumThreads) (hnodup : slots.Nodup)
    (h : Ending p c0 q0 slots c q) :
    Wp listAt (procKillLoop p slots (occupied (c.procs p) : Int)) (fun r c' q' =>
      r = some (occupied (c'.procs p) : Int) ∧ Ending p c0 q0 [] c' q') c q := by
  induction slots generalizing c q with
  | nil => exact wp_pure ⟨rfl, h⟩
  | cons i rest ih =>
      obtain ⟨hrest, hnodup⟩ := List.nodup_cons.mp hnodup
      apply Wp.bind
      refine (wp_procKillRound_ending hvictim (hslots i List.mem_cons_self) hrest h).mono ?_
      rintro _ c1 q1 ⟨rfl, h1⟩
      exact ih (fun j hj => hslots j (List.mem_cons_of_mem i hj)) hnodup h1

/-- What `proc_kill` leaves: no slot is in use, no thread of the process is on a list of threads,
and those that waited for one of them are awake. -/
structure Emptied (p : Nat) (c : Core) (q : KernelSeqs) (c' : Core) (q' : KernelSeqs) : Prop where
  slots : ∀ i, i < maxNumThreads → (c'.procs p).threads i = none
  off : ∀ i t, InSlot c p i t →
    .node t ∉ q'.get .readyThreads ∧ .node t ∉ q'.get .blockedThreads
  woken : ∀ i t v, InSlot c p i t → .waitNode v ∈ q.get (.threadWaiters t) → Survives c p v →
    Awake c' q' v

/-- The process is off the list of all processes, and those that waited for it are awake. -/
structure Released (p : Nat) (c : Core) (q : KernelSeqs) (c' : Core) (q' : KernelSeqs) : Prop where
  unlisted : .procNode p ∉ q'.get .allProcs
  woken : ∀ v, .waitNode v ∈ q.get (.procWaiters p) → Survives c p v → Awake c' q' v

theorem occupied_eq_zero {a : Process} (h : ∀ i, i < maxNumThreads → a.threads i = none) :
    occupied a = 0 := by
  refine Finset.card_eq_zero.mpr (Finset.filter_eq_empty_iff.mpr fun i hi => ?_)
  rw [h i (Finset.mem_range.mp hi)]
  simp

theorem wp_procKill_victim (h : Victim p c q) (hother : c.procOf c.current ≠ p) :
    Wp listAt (procKill p) (fun r c' q' => r = (some 0, .returned) ∧
      (∀ i, (q i).isSome → (q' i).isSome) ∧ Emptied p c q c' q' ∧
      ((∃ i t, InSlot c p i t) → Released p c q c' q')) c q := by
  apply Wp.bind
  apply wp_reads
  rw [h.count]
  apply Wp.bind
  refine (wp_procKillLoop_ending h (fun i hi => List.mem_range.mp hi) List.nodup_range
    (ending_start h)).mono ?_
  rintro _ c1 q1 ⟨rfl, h1⟩
  have hslots : ∀ i, i < maxNumThreads → (c1.procs p).threads i = none :=
    fun i hi => h1.cleared i hi List.not_mem_nil
  have hzero := occupied_eq_zero hslots
  apply Wp.bind
  apply wp_reads
  rw [h1.current, h1.procOf, hzero, if_neg (fun hcur => hother hcur.1)]
  refine wp_pure ⟨rfl, h1.lists, ⟨hslots, fun i t hs => (h1.dead i t List.not_mem_nil hs).2,
    fun i t v hs hin hv => h1.woken i t v List.not_mem_nil hs hin hv⟩, fun hs => ?_⟩
  exact ⟨h1.unlisted hzero hs, h1.released hzero hs⟩

theorem wp_procKillLoop_empty {slots : List Nat} {n : Int}
    (hnone : ∀ i ∈ slots, (c.procs p).threads i = none) :
    Wp listAt (procKillLoop p slots n) (fun r c' q' => r = some n ∧ c' = c ∧ q' = q) c q := by
  induction slots with
  | nil => exact wp_pure ⟨rfl, rfl, rfl⟩
  | cons i rest ih =>
      have hround : Wp listAt (procKillRound p i n)
          (fun r c' q' => r = some n ∧ c' = c ∧ q' = q) c q := by
        apply Wp.bind
        apply wp_reads
        rw [hnone i List.mem_cons_self]
        exact wp_pure ⟨rfl, rfl, rfl⟩
      apply Wp.bind
      refine hround.mono ?_
      rintro _ c1 q1 ⟨rfl, rfl, rfl⟩
      exact ih fun j hj => hnone j (List.mem_cons_of_mem i hj)

/-- A process without threads stays as it is. -/
theorem wp_procKill_empty (hnone : ∀ i, i < maxNumThreads → (c.procs p).threads i = none)
    (hother : c.procOf c.current ≠ p) :
    Wp listAt (procKill p) (fun r c' q' =>
      r = (some ((c.procs p).numLiveThreads : Int), .returned) ∧ c' = c ∧ q' = q) c q := by
  apply Wp.bind
  apply wp_reads
  apply Wp.bind
  refine (wp_procKillLoop_empty fun i hi => hnone i (List.mem_range.mp hi)).mono ?_
  rintro _ c1 q1 ⟨rfl, rfl, rfl⟩
  apply Wp.bind
  apply wp_reads
  rw [if_neg fun hcur => hother hcur.1]
  exact wp_pure ⟨rfl, rfl, rfl⟩

end Looping

/-- The lists of what exists are well formed, threads are where their states say, processes count
the slots that they use, and threads on lists of waiters sleep. -/
structure WellFormed (c : Core) (q : KernelSeqs) : Prop where
  lists : ∀ i, Core.Accessible c i → (q i).isSome
  ready : ∀ t, c.live t = true → c.state t = .ready → .node t ∈ q.get .readyThreads
  blocked : ∀ t, c.live t = true → c.state t = .blocked → .node t ∈ q.get .blockedThreads
  slots : ∀ p i t, c.liveProcs p = true → InSlot c p i t →
    c.live t = true ∧ c.procOf t = p ∧ (c.threads t).childNum = i
  count : ∀ p, c.liveProcs p = true → (c.procs p).numLiveThreads = occupied (c.procs p)
  waiting : ∀ i, HoldsWaiters i → Core.Accessible c i → ∀ a ∈ q.get i,
    ∃ t, a = .waitNode t ∧ Asleep c q t

section Claims

variable {s : KernelState} {c : Core} {q : KernelSeqs} {p : Nat}

theorem WellFormed.victim (h : WellFormed c q) (hp : c.liveProcs p = true)
    (hstates : ∀ i t, InSlot c p i t → c.state t = .ready ∨ c.state t = .blocked) :
    Victim p c q := by
  have hring : ∀ i, HoldsWaiters i → Core.Accessible c i → Ringable i q :=
    fun i hi hacc => ⟨h.lists i hacc, fun a ha => (h.waiting i hi hacc a ha).imp fun _ hv => hv.1⟩
  have hasleep : ∀ i v, HoldsWaiters i → Core.Accessible c i → .waitNode v ∈ q.get i →
      Asleep c q v := by
    intro i v hi hacc hin
    obtain ⟨t, ht, hs⟩ := h.waiting i hi hacc _ hin
    cases ht
    exact hs
  have hlive : ∀ i t, InSlot c p i t → Core.Accessible c (.threadWaiters t) :=
    fun i t hs => (h.slots p i t hp hs).1
  refine ⟨⟨h.lists _ trivial, h.lists _ trivial, h.lists _ trivial⟩,
    fun i t hs => (h.slots p i t hp hs).2, fun i t hs => ?_, h.count p hp,
    fun i t hs => hring _ trivial (hlive i t hs), hring _ trivial hp,
    fun i t v hs => hasleep _ v trivial (hlive i t hs), fun v => hasleep _ v trivial hp⟩
  rcases hstates i t hs with hstate | hstate
  · exact Or.inl ⟨hstate, h.ready t (hlive i t hs) hstate⟩
  · exact Or.inr ⟨hstate, h.blocked t (hlive i t hs) hstate⟩

/-- `proc_kill` of a process that does not run: it returns zero and empties the process, and if
there was a thread to kill, it has released the process. -/
theorem proc_kill_finishes (hr : Represents listAt s.heap q) (h : WellFormed s.core q)
    (hp : s.core.liveProcs p = true) (hother : s.core.procOf s.core.current ≠ p)
    (hstates : ∀ i t, InSlot s.core p i t → s.core.state t = .ready ∨ s.core.state t = .blocked) :
    ∃ s' q', procKill p s = some ((some 0, .returned), s') ∧ Represents listAt s'.heap q' ∧
      (∀ i, (q i).isSome → (q' i).isSome) ∧ Emptied p s.core q s'.core q' ∧
      ((∃ i t, InSlot s.core p i t) → Released p s.core q s'.core q') := by
  obtain ⟨_, c', h', q', heq, hr', rfl, hpost⟩ :=
    wp_procKill_victim (h.victim hp hstates) hother s.heap hr
  exact ⟨⟨c', h'⟩, q', heq, hr', hpost⟩

/-- Thread 1 runs; of process 5 thread 2 is ready, and thread 3 waits for it; thread 4 waits for
process 5; process 6 has no threads. -/
def waitingCore : Core :=
  { zeroedState.core with
    threads := fun t => ⟨t, 0, 0, if t = 1 then .running else if t = 2 then .ready else .blocked,
      if t ≤ 2 then 0 else 1, 0, if t = 2 ∨ t = 3 then 5 else 0⟩
    procs := fun p => ⟨p, none,
      fun i => (if p = 0 then [1, 4] else if p = 5 then [2, 3] else [])[i]?,
      if p = 6 then 0 else 2, 0⟩
    current := 1
    live := fun t => decide (t ∈ [1, 2, 3, 4])
    liveProcs := fun p => decide (p ∈ [0, 5, 6]) }

def waitingRows : List (ListId × List NodeAddr) :=
  [(.readyThreads, [.node 2]), (.blockedThreads, [.node 3, .node 4]), (.dyingThreads, []),
    (.allProcs, [.procNode 0, .procNode 5, .procNode 6]), (.threadWaiters 1, []),
    (.threadWaiters 2, [.waitNode 3]), (.threadWaiters 3, []), (.threadWaiters 4, []),
    (.procWaiters 0, []), (.procWaiters 5, [.waitNode 4]), (.procWaiters 6, [])]

def waitingLists : KernelSeqs := fun i => waitingRows.lookup i

theorem wellFormed_waiting : WellFormed waitingCore waitingLists := by
  have hlive : ∀ t, waitingCore.live t = true → t ∈ [1, 2, 3, 4] := fun t ht => of_decide_eq_true ht
  have hprocs : ∀ p, waitingCore.liveProcs p = true → p ∈ [0, 5, 6] :=
    fun p hp => of_decide_eq_true hp
  have hthreads : ∀ t ∈ [1, 2, 3, 4],
      (waitingCore.state t = .ready → .node t ∈ waitingLists.get .readyThreads) ∧
      (waitingCore.state t = .blocked → .node t ∈ waitingLists.get .blockedThreads) := by
    decide
  have hslots : ∀ p ∈ [0, 5, 6], ∀ i ∈ List.range maxNumThreads,
      ∀ t ∈ ((waitingCore.procs p).threads i).toList, waitingCore.live t = true ∧
        waitingCore.procOf t = p ∧ (waitingCore.threads t).childNum = i := by
    decide
  have hcount : ∀ p ∈ [0, 5, 6],
      (waitingCore.procs p).numLiveThreads = occupied (waitingCore.procs p) := by
    decide
  have hwaiters : (∀ t ∈ [1, 2, 3, 4], (waitingLists (.threadWaiters t)).isSome = true ∧
      waitingLists.get (.threadWaiters t) ∈ [[], [.waitNode 3], [.waitNode 4]]) ∧
      ∀ p ∈ [0, 5, 6], (waitingLists (.procWaiters p)).isSome = true ∧
        waitingLists.get (.procWaiters p) ∈ [[], [.waitNode 3], [.waitNode 4]] := by
    decide
  refine ⟨fun i hi => ?_, fun t ht => (hthreads t (hlive t ht)).1,
    fun t ht => (hthreads t (hlive t ht)).2, fun p i t hp hs => ?_,
    fun p hp => hcount p (hprocs p hp),
    fun i hi hacc a ha => ?_⟩
  · cases i with
    | threadWaiters t => exact (hwaiters.1 t (hlive t hi)).1
    | procWaiters p => exact (hwaiters.2 p (hprocs p hi)).1
    | _ => rfl
  · exact hslots p (hprocs p hp) i (List.mem_range.mpr hs.1) t (Option.mem_toList.mpr hs.2)
  · have hget : waitingLists.get i ∈ [[], [.waitNode 3], [.waitNode 4]] := by
      cases i with
      | threadWaiters t => exact (hwaiters.1 t (hlive t hacc)).2
      | procWaiters p => exact (hwaiters.2 p (hprocs p hacc)).2
      | _ => exact hi.elim
    simp only [List.mem_cons, List.not_mem_nil, or_false] at hget
    rcases hget with hget | hget | hget
    · rw [hget] at ha
      exact absurd ha List.not_mem_nil
    all_goals
      rw [hget, List.mem_singleton] at ha
      exact ⟨_, ha, by decide, by decide⟩

theorem exists_waiting : ∃ s : KernelState, s.core = waitingCore ∧
    Represents listAt s.heap waitingLists := by
  obtain ⟨h, hr⟩ : ∃ h, Represents listAt h waitingLists := exists_heap (by decide) (by decide)
  exact ⟨⟨waitingCore, h⟩, rfl, hr⟩

/-- Process 5 is killed. -/
theorem proc_kill_finishes_waiting : ∃ (s s' : KernelState) (q' : KernelSeqs),
    s.core = waitingCore ∧ procKill 5 s = some ((some 0, .returned), s') ∧
    Represents listAt s'.heap q' ∧ Released 5 waitingCore waitingLists s'.core q' := by
  obtain ⟨s, hs, hr⟩ := exists_waiting
  have hwell : WellFormed s.core waitingLists := hs ▸ wellFormed_waiting
  have hstates : ∀ i t, InSlot s.core 5 i t →
      s.core.state t = .ready ∨ s.core.state t = .blocked := by
    rw [hs]
    rintro i t ⟨hi, ht⟩
    have hall : ∀ i ∈ List.range maxNumThreads, ∀ t ∈ ((waitingCore.procs 5).threads i).toList,
        waitingCore.state t = .ready ∨ waitingCore.state t = .blocked := by
      decide
    exact hall i (List.mem_range.mpr hi) t (Option.mem_toList.mpr ht)
  have hlive : s.core.liveProcs 5 = true := by
    rw [hs]
    decide
  have hother : s.core.procOf s.core.current ≠ 5 := by
    rw [hs]
    decide
  obtain ⟨s', q', heq, hr', _, _, hreleased⟩ := proc_kill_finishes hr hwell hlive hother hstates
  rw [hs] at hreleased
  exact ⟨s, s', q', hs, heq, hr', hreleased ⟨0, 2, by decide, by decide⟩⟩

/-- Process 6 has no threads, and stays on the list of all processes. -/
theorem not_proc_kill_finishes : ∃ (s s' : KernelState) (q' : KernelSeqs),
    Represents listAt s.heap waitingLists ∧ WellFormed s.core waitingLists ∧
    s.core.liveProcs 6 = true ∧ s.core.procOf s.core.current ≠ 6 ∧
    (∀ i t, InSlot s.core 6 i t → s.core.state t = .ready ∨ s.core.state t = .blocked) ∧
    procKill 6 s = some ((some 0, .returned), s') ∧ Represents listAt s'.heap q' ∧
    .procNode 6 ∈ q'.get .allProcs := by
  obtain ⟨s, hs, hr⟩ := exists_waiting
  have hwell : WellFormed s.core waitingLists := hs ▸ wellFormed_waiting
  have hlive : s.core.liveProcs 6 = true := by
    rw [hs]
    decide
  have hother : s.core.procOf s.core.current ≠ 6 := by
    rw [hs]
    decide
  have hslots : ∀ i, (s.core.procs 6).threads i = none := by
    rw [hs]
    exact fun i => List.getElem?_nil
  have hcount : (s.core.procs 6).numLiveThreads = 0 := by
    rw [hs]
    rfl
  obtain ⟨_, c', h', q', heq, hr', rfl, rfl, rfl⟩ :=
    wp_procKill_empty (fun i _ => hslots i) hother s.heap hr
  rw [hcount] at heq
  refine ⟨s, _, waitingLists, hr, hwell, hlive, hother, fun i t hin => ?_, heq, hr', by decide⟩
  rw [InSlot, hslots] at hin
  cases hin.2

end Claims

end Longhorn.ProcessKills
