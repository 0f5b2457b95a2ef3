import Longhorn.SchedulerInvariant

/-!
The calls of threads: blocking, waking, waiting, ending and killing keep the
invariant of the scheduler.
-/

namespace Longhorn.ThreadCalls

open Longhorn.IntrusiveList
open Longhorn.ListRefinement
open Longhorn.ListPrograms
open Longhorn.ThreadModel
open Longhorn.SchedulerRules
open Longhorn.ThreadCounts
open Longhorn.SchedulerInvariant

/-- If the idle thread can block, another thread is ready. -/
def MayBlock (c : Core) (q : KernelSeqs) : Prop :=
  c.idleT = some c.current → .node c.current ∈ q.get .readyThreads →
    ∃ a ∈ q.get .readyThreads, a ≠ .node c.current

/-- The thread may be ended: it is not the idle thread, it waits for nobody who outlives
it, and its process ends with its last thread. -/
structure MayEnd (x : Nat) (c : Core) (q : KernelSeqs) : Prop where
  live : c.live x = true
  notIdle : c.idleT ≠ some x
  waits : ∀ i, .waitNode x ∈ q.get i → i = .threadWaiters x ∨
    (i = .procWaiters (c.procOf x) ∧ Core.EndsProc c x)
  last : Core.EndsProc c x → ∀ t, c.live t = true → c.procOf t = c.procOf x → t = x

/-- What `thread_block` does to the thread that calls it, by whether it finds it among the
ready threads. -/
structure BlockOutcome (c : Core) (q : KernelSeqs) (flow : Flow) (c' : Core) (q' : KernelSeqs) :
    Prop where
  blocks : .node c.current ∈ q.get .readyThreads →
    flow = .switched ∧ c'.current ≠ c.current ∧ c'.state c.current = .blocked ∧
      c'.live c.current = true
  returns : .node c.current ∉ q.get .readyThreads → flow = .returned ∧ c'.current = c.current

section Calls

variable {boot x : Nat} {c c' : Core} {q q' : KernelSeqs}

theorem wp_erase {Q : Option NodeAddr → Core → KernelSeqs → Prop} {i : ListId} {n : NodeAddr}
    (hi : (q i).isSome) (h : ∀ r, (r.isSome ↔ n ∈ q.get i) →
      Q r (c.noteCall (.delete i n)) (q.set i ((q.get i).erase n))) :
    Wp listAt (list (.delete i n)) Q c q := by
  apply wp_delete hi
  · exact fun hin => h _ (by simpa using hin)
  · intro hout
    have hnone := h none (by simpa using hout)
    rwa [List.erase_of_not_mem hout, set_get_self hi] at hnone

/-- `thread_block` returns at once when it does not find the thread among the ready ones. -/
theorem wp_threadBlock_absent {Q : Flow → Core → KernelSeqs → Prop}
    (hlist : (q .readyThreads).isSome) (hoff : .node c.current ∉ q.get .readyThreads)
    (h : ∀ c', Alike c c' → Silent c.log c'.log → Q .returned c' q) :
    Wp listAt threadBlock Q c q := by
  apply Wp.bind
  apply wp_modifyCore
  apply Wp.bind
  apply wp_reads
  rw [show (c.withInterrupts false).current = c.current from rfl]
  have hlog := silent_noteCall (c.withInterrupts false) (.delete .readyThreads (.node c.current))
  apply Wp.bind
  apply wp_delete hlist fun hon => absurd hon hoff
  intro _
  apply Wp.bind
  apply wp_modifyCore
  apply wp_pure
  exact h _ (((alike_withInterrupts c false).trans (alike_noteCall _ _)).trans
    (alike_withInterrupts _ true)) hlog

/-- `thread_block` of the running thread. -/
theorem wp_threadBlock (h : SchedInv boot c q) (hlive : c.live c.current = true)
    (hidle : MayBlock c q) :
    Wp listAt threadBlock (fun flow c' q' => SchedInv boot c' q' ∧ Carried c q c' q' ∧
      BlockOutcome c q flow c' q') c q := by
  apply wp_of_apart
  intro hq
  obtain ⟨hrunning, hblocked⟩ := h.current hlive
  have ha0 := alike_withInterrupts c false
  apply Wp.bind
  apply wp_modifyCore
  apply Wp.bind
  apply wp_reads
  rw [show (c.withInterrupts false).current = c.current from rfl]
  obtain ⟨c1, hc1⟩ : ∃ c1, c1 =
    (c.withInterrupts false).noteCall (.delete .readyThreads (.node c.current)) := ⟨_, rfl⟩
  have ha1 : Alike c c1 := hc1 ▸ ha0.trans (alike_noteCall _ _)
  have hlog1 : Silent c.log c1.log := by
    rw [hc1]
    exact silent_noteCall (c.withInterrupts false) _
  apply Wp.bind
  apply wp_delete (h.inv.lists .readyThreads trivial)
  all_goals
    rw [← hc1]
    intro hon
  · apply Wp.bind
    apply wp_reads
    rw [ha1.state, hrunning, if_neg (not_not_intro rfl)]
    apply Wp.bind
    apply wp_modifyCore
    apply Wp.bind
    apply wp_insert
    · exact Seqs.isSome_set (h.inv.lists .blockedThreads trivial)
    · exact ⟨not_isSentinel_node _, hq.erased hon⟩
    rw [Seqs.get_set_of_ne (by decide)]
    obtain ⟨c2, hc2⟩ : ∃ c2, c2 = (c1.setState c.current .blocked).noteCall
      (.insert .blockedThreads (.node c.current)) := ⟨_, rfl⟩
    obtain ⟨q2, hq2⟩ : ∃ q2, q2 =
      (q.set .readyThreads ((q.get .readyThreads).erase (.node c.current))).set .blockedThreads
        (.node c.current :: q.get .blockedThreads) := ⟨_, rfl⟩
    have ha2 : Alike (c.setState c.current .blocked) c2 :=
      hc2 ▸ (ha1.setState c.current .blocked).trans (alike_noteCall _ _)
    have hlog2 : Silent c.log c2.log := by
      rw [hc2]
      exact (hlog1.trans (silent_setState c1 c.current .blocked)).trans (silent_noteCall _ _)
    rw [← hc2, ← hq2]
    have hcurrent2 : c2.current = c.current := ha2.current
    have hready2 : q2.get .readyThreads = (q.get .readyThreads).erase (.node c.current) := by
      rw [hq2, Seqs.get_set_of_ne (by decide), Seqs.get_set_same]
    have hstate2 : c2.state c.current = .blocked :=
      (ha2.state _).trans (state_setState c _ _)
    have hout : .node c.current ∉ q2.get .readyThreads := by
      rw [hready2]
      exact (hq.nodup .readyThreads).not_mem_erase
    have hinv2 : Inv (fun t => t = c.current) c2 q2 := by
      have hmoved := h.inv.moved hlive .blocked (i := .readyThreads) (j := .blockedThreads) trivial
        trivial (by decide)
      rw [← hq2] at hmoved
      refine (hmoved.mono fun t ht => ht.elim id id).alike ha2 fun t b hb => ?_
      exact ((silent_setState c c.current .blocked).release t b).mpr ((hlog2.release t b).mp hb)
    have hcarried2 : Carried c q c2 q2 := by
      refine Carried.of_setState ?_ ha2 hlog2 ?_ ?_
      · rw [hrunning]
        decide
      · intro i u hu
        rw [hq2] at hu
        refine waits_set (fun v hv => List.mem_of_mem_erase hv) i u
          (waits_set (fun v hv => ?_) i u hu)
        rw [Seqs.get_set_of_ne (by decide)]
        simpa using hv
      · rw [hq2, Seqs.get_set_of_ne (by decide), Seqs.get_set_of_ne (by decide)]
    rw [← hcurrent2] at hinv2 hstate2 hout
    have hboot2 : c2.live boot = false := by
      rw [ha2.live]
      exact h.boot
    refine (wp_schedule_blocked hinv2 ?_ (fun _ => Or.inr ⟨hstate2, hout, ?_⟩)
      hstate2 hout hboot2 ?_).mono ?_
    · rw [hq2, Seqs.get_set_of_ne (by decide), Seqs.get_set_of_ne (by decide)]
      exact h.dying
    · rw [hq2, Seqs.get_set_same, hcurrent2]
      exact List.mem_cons_self
    · intro hi
      rw [ha2.idleT, hcurrent2] at hi
      obtain ⟨a, ha, hne⟩ := hidle hi hon
      rw [hready2]
      exact List.ne_nil_of_mem ((List.mem_erase_of_ne hne).mpr ha)
    · rintro flow c3 q3 ⟨hflow, hsched, hcarried3, hcur3, hstate3, hlive3⟩
      rw [hcurrent2, hq2, Seqs.get_set_same] at hlive3
      rw [hcurrent2] at hcur3 hstate3
      exact ⟨hsched, hcarried2.trans hcarried3,
        fun _ => ⟨hflow, hcur3, hstate3, hlive3 List.mem_cons_self⟩,
        fun hoff => absurd hon hoff⟩
  · apply Wp.bind
    apply wp_modifyCore
    apply wp_pure
    have ha := ha1.trans (alike_withInterrupts c1 true)
    refine ⟨h.alike ha fun t b hb => (hlog1.release t b).mp hb,
      Carried.of_framed (Framed.of_agree ha rfl rfl (fun _ _ hu => hu)
        fun t => (hlog1.wakes t).ge), fun hin => absurd hin hon, fun _ => ⟨rfl, ha.current⟩⟩

theorem MayEnd.keep (h : MayEnd x c q) (hprocOf : ∀ t, c'.procOf t = c.procOf t)
    (hcount : ∀ p, (c'.procs p).numLiveThreads = (c.procs p).numLiveThreads)
    (hlive : c'.live = c.live) (hidle : c'.idleT = c.idleT)
    (hwaits : ∀ i, .waitNode x ∈ q'.get i → .waitNode x ∈ q.get i) : MayEnd x c' q' := by
  have hends : Core.EndsProc c' x ↔ Core.EndsProc c x := by
    rw [Core.EndsProc, Core.EndsProc, hprocOf, hcount]
  constructor
  · rw [hlive]
    exact h.live
  · rw [hidle]
    exact h.notIdle
  · intro i hi
    rw [hprocOf, hends]
    exact h.waits i (hwaits i hi)
  · intro hend t ht heq
    rw [hlive] at ht
    rw [hprocOf, hprocOf] at heq
    exact h.last (hends.mp hend) t ht heq

/-- The waiters of a thread that has left its list are notified, and it can be cleaned
up. -/
theorem wp_notify_doomed {out : Nat → Prop} (h : Inv out c q) (hstate : c.state x = .dying)
    (hoff : ∀ i, .node x ∉ q.get i) (hend : MayEnd x c q) (ret : Int) :
    Wp listAt (threadNotify x true ret)
      (fun _ c' q' => Inv out c' q' ∧ Woken c q c' q' ∧ Doomed x c' q' ∧
        ∀ v, .waitNode v ∈ q.get (.threadWaiters x) → ¬ out v → ¬ Core.Sleeps c' v) c q := by
  have hwaiters : HoldsWaiters (.threadWaiters x) := trivial
  refine (wp_notify hwaiters true ret h hend.live).mono ?_
  rintro _ c' q' ⟨h', hw, hnotified⟩
  obtain ⟨hempty, hwaked⟩ := hnotified rfl
  have hawake : ¬ Core.Sleeps c x := by
    rw [Core.Sleeps, hstate]
    simp
  have hcount : ∀ p, (c'.procs p).numLiveThreads = (c.procs p).numLiveThreads := by
    intro p
    rw [hw.procs]
  have hend' : MayEnd x c' q' :=
    hend.keep hw.procOf hcount hw.live hw.idleT fun i hi => hw.waits i x hi
  refine ⟨h', hw, ⟨hend'.live, ?_, h'.off_of_woken hw hawake hoff, fun i hi => ?_, hempty,
    hend'.last, hend'.notIdle⟩, hwaked⟩
  · exact (hw.stays x hawake).state.trans hstate
  · rcases hend'.waits i hi with rfl | hproc
    · rw [hempty] at hi
      exact absurd hi List.not_mem_nil
    · exact hproc

/-- A thread leaves its list as dying. -/
structure Leaves (out : Nat → Prop) (x : Nat) (c : Core) (q : KernelSeqs) (c' : Core)
    (q' : KernelSeqs) : Prop where
  inv : Inv (fun t => out t ∨ t = x) c' q'
  alike : Alike (c.setState x .dying) c'
  log : Silent c.log c'.log
  off : ∀ i, .node x ∉ q'.get i
  mayEnd : MayEnd x c' q'
  sub : ∀ i, ∀ a ∈ q'.get i, a ∈ q.get i
  dying : q'.get .dyingThreads = q.get .dyingThreads
  listed : q'.get .allProcs = q.get .allProcs

theorem leaves_erase {out : Nat → Prop} {i : ListId} (h : Inv out c q) (hq : Apart q)
    (hi : HoldsThreads i) (hother : ∀ j, HoldsThreads j → j ≠ i → .node x ∉ q.get j)
    (hdying : i ≠ .dyingThreads) (hend : MayEnd x c q) (ha : Alike (c.setState x .dying) c')
    (hlog : Silent c.log c'.log) :
    Leaves out x c q c' (q.set i ((q.get i).erase (.node x))) := by
  have hsub : ∀ j, ∀ a ∈ (q.set i ((q.get i).erase (.node x))).get j, a ∈ q.get j := by
    intro j a ha
    rcases eq_or_ne j i with rfl | hji
    · rw [Seqs.get_set_same] at ha
      exact List.mem_of_mem_erase ha
    · rwa [Seqs.get_set_of_ne hji] at ha
  have hinv : Inv (fun t => out t ∨ t = x) c' (q.set i ((q.get i).erase (.node x))) :=
    (h.detach (u := x) hi .dying).alike ha fun t b hb =>
      ((silent_setState c x .dying).release t b).mpr ((hlog.release t b).mp hb)
  have hoff : ∀ j, HoldsThreads j → .node x ∉ (q.set i ((q.get i).erase (.node x))).get j := by
    intro j hj hin
    rcases eq_or_ne j i with rfl | hji
    · rw [Seqs.get_set_same] at hin
      exact (hq.nodup j).not_mem_erase hin
    · rw [Seqs.get_set_of_ne hji] at hin
      exact hother j hj hji hin
  refine ⟨hinv, ha, hlog, (hinv.detached_node (hoff _ trivial) (hoff _ trivial)
    (hoff _ trivial)).2, ?_, hsub, Seqs.get_set_of_ne hdying.symm _, Seqs.get_set_of_ne ?_ _⟩
  · exact hend.keep (fun t => (ha.procOf t).trans (procOf_setState c x t _))
      (fun p => congrArg (fun f => (f p).numLiveThreads) ha.procs) ha.live ha.idleT
      fun j hj => hsub j _ hj
  · rintro rfl
    exact hi

/-- The running thread has left the lists as dying, and its waiters have been notified. -/
structure Ended (c : Core) (q : KernelSeqs) (c' : Core) (q' : KernelSeqs) : Prop where
  inv : Inv (fun t => t = c'.current) c' q'
  doomed : Doomed c'.current c' q'
  current : c'.current = c.current
  live : c'.live = c.live
  dying : q'.get .dyingThreads = q.get .dyingThreads
  carried : Carried c q c' q'
  stays : ∀ t, t ≠ c.current → ¬ Core.Sleeps c t → Stays c q c' q' t
  awake : ∀ t, .waitNode t ∈ q.get (.threadWaiters c.current) → t ≠ c.current →
    ¬ Core.Sleeps c' t

/-- `thread_exit` before it calls `schedule`. -/
theorem wp_endRunning (h : SchedInv boot c q) (hend : MayEnd c.current c q) :
    Wp listAt (do
      let t ← threadCur
      disableInterrupts
      let _ ← list (.delete .readyThreads (.node t))
      setState t .dying
      threadNotify t true threadKillSucc : Kernel Int) (fun _ c' q' => Ended c q c' q') c q := by
  apply wp_of_apart
  intro hq
  obtain ⟨hrunning, hblocked⟩ := h.current hend.live
  apply Wp.bind
  apply wp_reads
  apply Wp.bind
  apply wp_modifyCore
  obtain ⟨c1, hc1⟩ : ∃ c1, c1 =
    (c.withInterrupts false).noteCall (.delete .readyThreads (.node c.current)) := ⟨_, rfl⟩
  have ha1 : Alike c c1 := hc1 ▸ (alike_withInterrupts c false).trans (alike_noteCall _ _)
  have hlog1 : Silent c.log c1.log := by
    rw [hc1]
    exact silent_noteCall (c.withInterrupts false) _
  apply Wp.bind
  apply wp_erase (h.inv.lists .readyThreads trivial)
  intro _ _
  rw [← hc1]
  apply Wp.bind
  apply wp_modifyCore
  obtain ⟨c2, hc2⟩ : ∃ c2, c2 = c1.setState c.current .dying := ⟨_, rfl⟩
  have ha2 : Alike (c.setState c.current .dying) c2 := hc2 ▸ ha1.setState c.current .dying
  have hlog2 : Silent c.log c2.log := by
    rw [hc2]
    exact hlog1.trans (silent_setState c1 c.current .dying)
  obtain ⟨q2, hq2⟩ : ∃ q2, q2 =
    q.set .readyThreads ((q.get .readyThreads).erase (.node c.current)) := ⟨_, rfl⟩
  have hl : Leaves (fun t => t = c.current) c.current c q c2 q2 := by
    rw [hq2]
    refine leaves_erase h.inv hq trivial ?_ (by decide) hend ha2 hlog2
    rintro (_ | _ | _ | _ | _ | _) hj hne
    · exact absurd rfl hne
    · exact hblocked
    · rw [h.dying]
      exact List.not_mem_nil
    all_goals exact hj.elim
  rw [← hc2, ← hq2]
  have hcurrent2 : c2.current = c.current := ha2.current
  have hcarried2 : Carried c q c2 q2 := by
    refine Carried.of_setState ?_ ha2 hlog2 (fun i u hu => hl.sub i _ hu) hl.listed
    rw [hrunning]
    decide
  have hstate2 : ∀ t, t ≠ c.current → c2.state t = c.state t :=
    fun t ht => (ha2.state t).trans (state_setState_of_ne ht _)
  have hstays2 : ∀ t, t ≠ c.current → Stays c q c2 q2 t := by
    refine fun t ht => ⟨hstate2 t ht, ?_, ?_⟩
    · rw [hq2, Seqs.get_set_same]
      exact List.mem_erase_of_ne (by simpa using ht)
    · rw [hq2, Seqs.get_set_of_ne (by decide)]
  have hinv2 : Inv (fun t => t = c.current) c2 q2 := hl.inv.mono fun t ht => ht.elim id id
  refine (wp_notify_doomed hinv2 ((ha2.state _).trans (state_setState c _ _)) hl.off hl.mayEnd
    threadKillSucc).mono ?_
  rintro _ c3 q3 ⟨hinv3, hw3, hdoomed3, hawake3⟩
  have hcurrent3 : c3.current = c.current := hw3.current.trans hcurrent2
  rw [← hcurrent3] at hinv3 hdoomed3
  refine ⟨hinv3, hdoomed3, hcurrent3, hw3.live.trans ha2.live, hw3.dying.trans hl.dying,
    hcarried2.trans (Carried.of_framed hw3.toFramed), fun t ht hs => ?_, fun t ht hne => ?_⟩
  · have hs2 : ¬ Core.Sleeps c2 t := by
      rwa [Core.Sleeps, hstate2 t ht, ha2.live]
    exact (hstays2 t ht).trans (hw3.stays t hs2)
  · refine hawake3 t ?_ hne
    rw [hq2, Seqs.get_set_of_ne (by simp)]
    exact ht

theorem threadExit_eq : threadExit = (do
    let t ← threadCur
    disableInterrupts
    let _ ← list (.delete .readyThreads (.node t))
    setState t .dying
    threadNotify t true threadKillSucc : Kernel Int) >>= fun _ => schedule := by
  simp only [threadExit, bind_assoc]

/-- `thread_exit` of the running thread. -/
theorem wp_threadExit (h : SchedInv boot c q) (hend : MayEnd c.current c q) :
    Wp listAt threadExit (fun flow c' q' => flow = .switched ∧ SchedInv boot c' q' ∧
      Carried c q c' q') c q := by
  rw [threadExit_eq]
  apply Wp.bind
  refine (wp_endRunning h hend).mono ?_
  intro _ c1 q1 he
  have hboot : c1.live boot = false := by
    rw [he.live]
    exact h.boot
  refine (wp_schedule_dying he.inv (he.dying.trans h.dying) he.doomed hboot).mono ?_
  rintro flow c2 q2 ⟨hflow, hsched, hcarried, _⟩
  exact ⟨hflow, hsched, he.carried.trans hcarried⟩

theorem wp_detach_other {Q : Bool → Core → KernelSeqs → Prop} {s : ThreadState} {i : ListId}
    (hne : c.state x ≠ s) (h : Q true c q) : Wp listAt (detach x s i) Q c q := by
  apply Wp.bind
  apply wp_reads
  rw [if_neg hne]
  exact wp_pure h

theorem wp_detach_here {Q : Bool → Core → KernelSeqs → Prop} {s : ThreadState} {i : ListId}
    (hs : c.state x = s) (hi : (q i).isSome) (hin : .node x ∈ q.get i)
    (h : Q true ((c.setState x .dying).noteCall (.delete i (.node x)))
      (q.set i ((q.get i).erase (.node x)))) : Wp listAt (detach x s i) Q c q := by
  apply Wp.bind
  apply wp_reads
  rw [if_pos hs]
  apply Wp.bind
  apply wp_modifyCore
  apply Wp.bind
  apply wp_erase hi
  intro r hr
  apply wp_pure
  rw [hr.mpr hin]
  exact h

/-- What the end of a thread that does not run changes at most. -/
structure Killed (x : Nat) (c c' : Core) : Prop where
  current : c'.current = c.current
  idleT : c'.idleT = c.idleT
  live : c'.live = Function.update c.live x false
  procOf : ∀ t, c'.procOf t = c.procOf t
  childNum : ∀ t, (c'.threads t).childNum = (c.threads t).childNum
  procs : c'.procs = Function.update c.procs (c.procOf x)
    ((c.procs (c.procOf x)).endThread (c.threads x).childNum)
  proceeds : ¬ Core.EndsProc c x → c'.liveProcs = c.liveProcs
  released : .release x true ∈ c'.log
  state : ∀ t, t ≠ x → ¬ Core.Sleeps c t → c'.state t = c.state t

/-- The thread that has left its list is notified about and cleaned up. -/
theorem wp_endThread (h : SchedInv boot c q) (hx : x ≠ c.current)
    {c1 : Core} {q1 : KernelSeqs} (hl : Leaves (fun t => t = c.current) x c q c1 q1) :
    Wp listAt (do
      let _ ← threadNotify x true (-1)
      let _ ← threadCleanup x
      enableInterrupts
      pure 0 : Kernel Int)
      (fun code c' q' => code = 0 ∧ SchedInv boot c' q' ∧ Carried c q c' q' ∧ Killed x c c')
      c1 q1 := by
  have ha := hl.alike
  apply Wp.bind
  refine (wp_notify_doomed hl.inv ((ha.state x).trans (state_setState c x _)) hl.off
    hl.mayEnd (-1)).mono ?_
  rintro _ c2 q2 ⟨hinv2, hw2, hdoomed2, _⟩
  apply Wp.bind
  refine (wp_threadCleanup hinv2 hdoomed2).mono ?_
  rintro _ c3 q3 ⟨hinv3, hc3⟩
  apply Wp.bind
  apply wp_modifyCore
  apply wp_pure
  have ha3 := alike_withInterrupts c3 true
  have hprocOf2 : ∀ t, c2.procOf t = c.procOf t :=
    fun t => ((hw2.procOf t).trans (ha.procOf t)).trans (procOf_setState c x t _)
  have hchild2 : ∀ t, (c2.threads t).childNum = (c.threads t).childNum :=
    fun t => ((hw2.childNum t).trans (ha.childNum t)).trans (childNum_setState c x t _)
  have hlive2 : c2.live = c.live := hw2.live.trans ha.live
  have hprocs2 : c2.procs = c.procs := hw2.procs.trans ha.procs
  have hcurrent2 : c2.current = c.current := hw2.current.trans ha.current
  have hstate1 : ∀ t, t ≠ x → c1.state t = c.state t :=
    fun t ht => (ha.state t).trans (state_setState_of_ne ht _)
  have hawake1 : ∀ t, t ≠ x → ¬ Core.Sleeps c t → Stays c1 q1 c2 q2 t := by
    intro t ht hs
    refine hw2.stays _ ?_
    rw [Core.Sleeps, hstate1 t ht, ha.live]
    exact hs
  have hawake2 : ∀ t, t ≠ x → ¬ Core.Sleeps c t → Stays c2 q2 c3 q3 t := by
    intro t ht hs
    refine hc3.stays _ ?_
    rw [Core.Sleeps, (hawake1 t ht hs).state, hstate1 t ht, hlive2]
    exact hs
  have hstays1 := hawake1 _ hx.symm h.awake
  have hstays2 := hawake2 _ hx.symm h.awake
  have hlater : Later c c3 := by
    refine ⟨fun t => ?_, fun t hs hlive heq => ?_⟩
    · exact ((hl.log.wakes t).ge.trans (hw2.later.woken t)).trans (hc3.later.woken t)
    · have hle1 := (hl.log.wakes t).ge.trans (hw2.later.woken t)
      have hle2 := hc3.later.woken t
      have htx : t ≠ x := by
        rintro rfl
        have hlt := hc3.woken
        omega
      refine (hw2.later.trans hc3.later).asleep t ((hstate1 t htx).trans hs) ?_ ?_
      · rw [ha.live]
        exact hlive
      · rw [hl.log.wakes]
        exact heq
  refine ⟨rfl, h.of_current ?_ (hc3.current.trans hcurrent2) ?_ ?_ ?_ ?_ ?_, ?_, ?_⟩
  · exact hinv3.alike ha3 fun _ _ hb => hb
  · rw [hc3.dying, hw2.dying, hl.dying]
  · exact (hstays2.state.trans hstays1.state).trans (hstate1 _ hx.symm)
  · exact fun hin => hl.sub _ _ (hstays1.blocked.mp (hstays2.blocked.mp hin))
  · change c3.live c.current = _
    rw [hc3.live, Function.update_of_ne hx.symm, hlive2]
  · change c3.live boot = true → _
    rw [hc3.live, hlive2, Function.update_apply]
    split
    · exact fun hf => by cases hf
    · exact id
  · refine ⟨⟨hlater.woken, hlater.asleep⟩,
      fun i u hu => hl.sub i _ (hw2.waits i u (hc3.waits i u hu)), fun p hp => ?_⟩
    have hp2 : Counted p c2 q2 := (hp.setState ha hl.listed).framed hw2.toFramed
    exact ((Carried.of_cleaned hinv2 hdoomed2 hc3).counted p hp2).framed
      (Framed.of_agree ha3 rfl rfl (fun _ _ hu => hu) fun _ => le_rfl)
  · constructor
    · exact hc3.current.trans hcurrent2
    · exact (hc3.idleT.trans hw2.idleT).trans ha.idleT
    · exact hc3.live.trans (congrArg (fun f => Function.update f x false) hlive2)
    · exact fun t => (hc3.procOf t).trans (hprocOf2 t)
    · exact fun t => (hc3.childNum t).trans (hchild2 t)
    · have hprocs3 := hc3.procs
      rw [hprocOf2, hchild2, hprocs2] at hprocs3
      exact hprocs3
    · intro hgo
      have hgo2 : ¬ Core.EndsProc c2 x := by
        rwa [Core.EndsProc, hprocOf2, hprocs2]
      exact (hc3.proceeds hgo2).1.trans (hw2.liveProcs.trans ha.liveProcs)
    · exact hc3.released
    · intro t ht hs
      exact ((hawake2 t ht hs).state.trans (hawake1 t ht hs).state).trans (hstate1 t ht)

/-- `thread_kill` of a thread that does not run. -/
theorem wp_killOther (h : SchedInv boot c q) (hend : MayEnd x c q) (hx : x ≠ c.current) :
    Wp listAt (killOther x) (fun code c' q' => code = 0 ∧ SchedInv boot c' q' ∧
      Carried c q c' q' ∧ Killed x c c') c q := by
  apply wp_of_apart
  intro hq
  have hnotDying : .node x ∉ q.get .dyingThreads := by
    rw [h.dying]
    exact List.not_mem_nil
  obtain ⟨hs, hin, hout⟩ | ⟨hs, hout, hin⟩ := h.inv.placed x hend.live hx
  · apply Wp.bind
    apply wp_detach_here hs (h.inv.lists .readyThreads trivial) hin
    obtain ⟨c1, hc1⟩ : ∃ c1, c1 =
      (c.setState x .dying).noteCall (.delete .readyThreads (.node x)) := ⟨_, rfl⟩
    have ha1 : Alike (c.setState x .dying) c1 := hc1 ▸ alike_noteCall _ _
    have hlog1 : Silent c.log c1.log := by
      rw [hc1]
      exact (silent_setState c x .dying).trans (silent_noteCall _ _)
    rw [← hc1, if_neg (by simp)]
    apply Wp.bind
    apply wp_detach_other
    · rw [ha1.state, state_setState]
      decide
    rw [if_neg (by simp)]
    refine wp_endThread h hx (leaves_erase h.inv hq trivial ?_ (by decide) hend ha1 hlog1)
    rintro (_ | _ | _ | _ | _ | _) hj hne
    · exact absurd rfl hne
    · exact hout
    · exact hnotDying
    all_goals exact hj.elim
  · apply Wp.bind
    apply wp_detach_other
    · rw [hs]
      decide
    rw [if_neg (by simp)]
    apply Wp.bind
    apply wp_detach_here hs (h.inv.lists .blockedThreads trivial) hin
    obtain ⟨c1, hc1⟩ : ∃ c1, c1 =
      (c.setState x .dying).noteCall (.delete .blockedThreads (.node x)) := ⟨_, rfl⟩
    have ha1 : Alike (c.setState x .dying) c1 := hc1 ▸ alike_noteCall _ _
    have hlog1 : Silent c.log c1.log := by
      rw [hc1]
      exact (silent_setState c x .dying).trans (silent_noteCall _ _)
    rw [← hc1, if_neg (by simp)]
    refine wp_endThread h hx (leaves_erase h.inv hq trivial ?_ (by decide) hend ha1 hlog1)
    rintro (_ | _ | _ | _ | _ | _) hj hne
    · exact hout
    · exact absurd rfl hne
    · exact hnotDying
    all_goals exact hj.elim

/-- `thread_kill`; the running thread does not come back from ending itself. -/
theorem wp_threadKill (h : SchedInv boot c q) (hend : MayEnd x c q) :
    Wp listAt (threadKill x) (fun code c' q' => SchedInv boot c' q' ∧ Carried c q c' q' ∧
      (x ≠ c.current → code = some 0 ∧ Killed x c c')) c q := by
  have ha := alike_withInterrupts c false
  have h0 : SchedInv boot (c.withInterrupts false) q := h.alike ha fun _ _ hb => hb
  have hend0 : MayEnd x (c.withInterrupts false) q :=
    ⟨hend.live, hend.notIdle, hend.waits, hend.last⟩
  have hcarried0 : Carried c q (c.withInterrupts false) q := Carried.of_framed
    (Framed.of_agree ha rfl rfl (fun _ _ hu => hu) fun _ => le_rfl)
  apply Wp.bind
  apply wp_modifyCore
  apply Wp.bind
  apply wp_reads
  split
  · next hs =>
      obtain rfl := (h0.running_iff hend.live).mp hs
      apply Wp.bind
      refine (wp_threadExit h0 hend0).mono ?_
      rintro flow c' q' ⟨rfl, hsched, hcarried⟩
      exact wp_pure ⟨hsched, hcarried0.trans hcarried, fun hne => absurd rfl hne⟩
  · next hs =>
      have hx : x ≠ c.current := fun heq => hs ((h0.running_iff hend.live).mpr heq)
      apply Wp.map
      refine (wp_killOther h0 hend0 hx).mono ?_
      rintro code c' q' ⟨rfl, hsched, hcarried, hkilled⟩
      refine ⟨hsched, hcarried0.trans hcarried, fun _ => ⟨rfl, ?_⟩⟩
      exact ⟨hkilled.current, hkilled.idleT, hkilled.live, hkilled.procOf, hkilled.childNum,
        hkilled.procs, hkilled.proceeds, hkilled.released, hkilled.state⟩

/-- A call that keeps all but the log and what no list speaks of. -/
theorem carried_of_alike (ha : Alike c c') (hlog : Silent c.log c'.log) : Carried c q c' q :=
  Carried.of_framed (Framed.of_agree ha rfl rfl (fun _ _ hu => hu) fun t => (hlog.wakes t).ge)

/-- `schedule` from a call that lets the thread run on. -/
theorem wp_schedule (h : SchedInv boot c q) (hyield : MayYield c q) :
    Wp listAt schedule (fun _ c' q' => SchedInv boot c' q' ∧ Carried c q c' q' ∧
      (c.current = boot → c'.current ≠ boot)) c q := by
  rcases h.running with ⟨heq, hs⟩ | ⟨hlive, hs, hblocked⟩
  · have hnotLive : c.live c.current ≠ true := by
      rw [heq, h.boot]
      simp
    have hready : .node c.current ∉ q.get .readyThreads := by
      intro hin
      obtain ⟨t, ht, hl⟩ := h.inv.fits .readyThreads _ hin
      rw [NodeAddr.node.injEq] at ht
      exact hnotLive (ht ▸ hl)
    rw [← heq] at hs
    refine (wp_schedule_blocked h.inv h.dying (fun hl => absurd hl hnotLive) hs hready h.boot
      fun hi => ?_).mono ?_
    · obtain ⟨t, ht, hl⟩ := h.inv.idle
      rw [hi, Option.some.injEq] at ht
      exact absurd (ht ▸ hl) hnotLive
    · rintro flow c' q' ⟨_, hsched, hcarried, hne, _⟩
      exact ⟨hsched, hcarried, fun _ => heq ▸ hne⟩
  · refine (wp_schedule_running h.inv h.dying hlive hs hblocked h.boot hyield).mono ?_
    rintro flow c' q' ⟨hsched, hcarried⟩
    refine ⟨hsched, hcarried, fun heq => ?_⟩
    rw [heq, h.boot] at hlive
    cases hlive

theorem wp_timerInterruptHandler (h : SchedInv boot c q)
    (hyield : (c.threadTicks + 1) % 256 % maxThreadTicks = 0 → MayYield c q) :
    Wp listAt timerInterruptHandler (fun _ c' q' => SchedInv boot c' q' ∧ Carried c q c' q')
      c q := by
  have ha := alike_ticked c (((c.threads c.current).ticks + 1) % 2 ^ 32)
    ((c.threadTicks + 1) % 256)
  have hcarried1 := carried_of_alike (q := q) ha (Silent.refl c.log)
  have h1 := h.alike ha fun _ _ hb => hb
  apply Wp.bind
  apply wp_modifyCore
  apply Wp.bind
  apply wp_reads
  split
  · next hfires =>
      refine (wp_schedule h1 (hyield hfires)).mono ?_
      rintro flow c' q' ⟨hsched, hcarried, _⟩
      exact ⟨hsched, hcarried1.trans hcarried⟩
  · exact wp_pure ⟨h1, hcarried1⟩

theorem wp_unblock (h : SchedInv boot c q) (hx : c.live x = true) :
    Wp listAt (threadUnblock x) (fun _ c' q' => SchedInv boot c' q' ∧ Carried c q c' q') c q := by
  refine (wp_threadUnblock h.inv hx).mono ?_
  rintro _ c' q' ⟨hinv, hw, _⟩
  exact ⟨h.woken hinv hw, Carried.of_framed hw.toFramed⟩

theorem wp_notifyWaiters {waiters : ListId} (h : SchedInv boot c q) (hw : HoldsWaiters waiters)
    (hacc : Core.Accessible c waiters) (all : Bool) (ret : Int) :
    Wp listAt (notify waiters all ret)
      (fun _ c' q' => SchedInv boot c' q' ∧ Carried c q c' q') c q := by
  refine (wp_notify hw all ret h.inv hacc).mono ?_
  rintro _ c' q' ⟨hinv, hwoken, _⟩
  exact ⟨h.woken hinv hwoken, Carried.of_framed hwoken.toFramed⟩

/-- The running thread registers as a waiter. -/
theorem schedInv_registered {waiters : ListId} (h : SchedInv boot c q)
    (hlive : c.live c.current = true) (hw : HoldsWaiters waiters)
    (hacc : Core.Accessible c waiters) (ha : Alike c c') (hlog : Silent c.log c'.log) :
    SchedInv boot c' (q.set waiters (.waitNode c.current :: q.get waiters)) := by
  have hinv : Inv (fun t => t = c.current) c'
      (q.set waiters (.waitNode c.current :: q.get waiters)) := by
    refine (h.inv.setWaiters hw fun a hin => ?_).alike ha fun t b hb => (hlog.release t b).mp hb
    rcases List.mem_cons.mp hin with rfl | hin
    · exact Or.inl ⟨_, rfl, hlive, hacc⟩
    · exact Or.inr hin
  refine h.of_current hinv ha.current ?_ (ha.state _) ?_ ?_ ?_
  · rw [Seqs.get_set_of_ne hw.ne_dying.symm]
  · rw [Seqs.get_set_of_ne hw.ne_blocked.symm]
    exact id
  · rw [ha.live]
  · rw [ha.live]
    exact id

/-- `thread_wait` and `proc_wait`: the running thread registers and blocks. -/
theorem wp_wait {waiters : ListId} (h : SchedInv boot c q) (hlive : c.live c.current = true)
    (hw : HoldsWaiters waiters) (hacc : Core.Accessible c waiters)
    (hoff : ∀ i, .waitNode c.current ∉ q.get i) (hidle : MayBlock c q) :
    Wp listAt (do
      let cur ← threadCur
      list (.insert waiters (.waitNode cur))
      threadBlock : Kernel Flow)
      (fun flow c' q' => SchedInv boot c' q' ∧ Later c c' ∧
        (∀ p, Counted p c q → Counted p c' q') ∧ BlockOutcome c q flow c' q') c q := by
  apply Wp.bind
  apply wp_reads
  apply Wp.bind
  apply wp_insert (h.inv.lists waiters hacc) ⟨not_isSentinel_waitNode _, hoff⟩
  obtain ⟨c1, hc1⟩ : ∃ c1, c1 = c.noteCall (.insert waiters (.waitNode c.current)) := ⟨_, rfl⟩
  have ha1 : Alike c c1 := hc1 ▸ alike_noteCall _ _
  have hlog1 : Silent c.log c1.log := hc1 ▸ silent_noteCall _ _
  have h1 := schedInv_registered h hlive hw hacc ha1 hlog1
  obtain ⟨q1, hq1⟩ : ∃ q1, q1 = q.set waiters (.waitNode c.current :: q.get waiters) := ⟨_, rfl⟩
  rw [← hq1] at h1
  rw [← hc1, ← hq1]
  have hready1 : q1.get .readyThreads = q.get .readyThreads := by
    rw [hq1, Seqs.get_set_of_ne hw.ne_ready.symm]
  refine (wp_threadBlock h1 ?_ ?_).mono ?_
  · rwa [ha1.live, ha1.current]
  · rw [MayBlock, ha1.idleT, ha1.current, hready1]
    exact hidle
  · rintro flow c' q' ⟨hsched, hcarried, hblocks, hreturns⟩
    rw [ha1.current, hready1] at hblocks hreturns
    refine ⟨hsched, (Later.of_alike ha1 fun t => (hlog1.wakes t).ge).trans hcarried.later,
      fun p hp => hcarried.counted p ?_, hblocks, hreturns⟩
    refine hp.keep ha1.procOf ha1.childNum (fun p => ?_) (fun p => ?_) ha1.live ha1.liveProcs ?_
    · rw [ha1.procs]
    · rw [ha1.procs]
    · rw [hq1, Seqs.get_set_of_ne hw.ne_procs.symm]

end Calls

end Longhorn.ThreadCalls
