import Longhorn.ThreadCalls

/-!
Ending a process and creating threads and processes keep the invariant of the
scheduler.
-/

namespace Longhorn.ProcessCalls

open Longhorn.IntrusiveList
open Longhorn.ListRefinement
open Longhorn.ListPrograms
open Longhorn.ThreadModel
open Longhorn.SchedulerRules
open Longhorn.ThreadCounts
open Longhorn.SchedulerInvariant
open Longhorn.ThreadCalls

/-- The process may be killed: its count is exact, the idle thread is none of its threads,
and these wait for nobody but each for itself. -/
structure MayKillProc (p : Nat) (c : Core) (q : KernelSeqs) : Prop where
  tallied : Tallied p c q
  notIdle : ∀ i t, i < maxNumThreads → (c.procs p).threads i = some t → c.idleT ≠ some t
  waits : ∀ i t, i < maxNumThreads → (c.procs p).threads i = some t →
    ∀ j, .waitNode t ∈ q.get j → j = .threadWaiters t

section Killing

variable {boot p i x : Nat} {rest : List Nat} {n : Int} {c0 c c' : Core} {q0 q q' : KernelSeqs}

/-- The loop of `proc_kill` has the slots `rest` before it, and `n` threads are left. -/
structure Killing (boot p : Nat) (c0 : Core) (q0 : KernelSeqs) (rest : List Nat) (n : Int)
    (c : Core) (q : KernelSeqs) : Prop where
  sched : SchedInv boot c q
  carried : Carried c0 q0 c q
  current : c.current = c0.current
  idleT : c.idleT = c0.idleT
  count : (occupied (c.procs p) : Int) = n
  tallied : 0 < occupied (c.procs p) → Tallied p c q
  kept : ∀ i t, (c.procs p).threads i = some t → (c0.procs p).threads i = some t
  done : ∀ i t, i < maxNumThreads → i ∉ rest → (c.procs p).threads i = some t → t = c.current
  procOf : ∀ t, c.procOf t = c0.procOf t
  ready : ∀ t, c0.procOf t ≠ p → c0.live t = true → c0.state t = .ready →
    c.live t = true ∧ c.state t = .ready

theorem occupied_pos {a : Process} {t : Nat} (hi : i < maxNumThreads) (h : a.threads i = some t) :
    0 < occupied a := by
  refine Finset.card_pos.mpr ⟨i, ?_⟩
  rw [Finset.mem_filter, Finset.mem_range, h]
  exact ⟨hi, rfl⟩

theorem Killing.mayEnd (h : Killing boot p c0 q0 rest n c q) (hmay : MayKillProc p c0 q0) {t : Nat}
    (hi : i < maxNumThreads) (ht : (c.procs p).threads i = some t) : MayEnd t c q := by
  have htallied := h.tallied (occupied_pos hi ht)
  obtain ⟨hl, hp, _⟩ := htallied.slots i t hi ht
  refine ⟨hl, ?_, fun j hj => Or.inl ?_, htallied.last hl hp⟩
  · rw [h.idleT]
    exact hmay.notIdle i t hi (h.kept i t ht)
  · exact hmay.waits i t hi (h.kept i t ht) j (h.carried.waits j t hj)

/-- Nothing is to be done about the next slot. -/
theorem Killing.skip (h : Killing boot p c0 q0 (i :: rest) n c q)
    (hslot : ∀ t, (c.procs p).threads i = some t → t = c.current) :
    Killing boot p c0 q0 rest n c q := by
  refine ⟨h.sched, h.carried, h.current, h.idleT, h.count, h.tallied, h.kept,
    fun j t hj hout ht => ?_, h.procOf, h.ready⟩
  rcases eq_or_ne j i with rfl | hji
  · exact hslot t ht
  · exact h.done j t hj (by simp [hji, hout]) ht

/-- The thread in the next slot has been killed. -/
theorem Killing.killed (h : Killing boot p c0 q0 (i :: rest) n c q) (hi : i < maxNumThreads)
    (hx : (c.procs p).threads i = some x) (hsched : SchedInv boot c' q')
    (hcarried : Carried c q c' q') (hkilled : Killed x c c') :
    Killing boot p c0 q0 rest (n - 1) c' q' := by
  have htallied := h.tallied (occupied_pos hi hx)
  obtain ⟨hl, hp, hchild⟩ := htallied.slots i x hi hx
  have hprocs : c'.procs p = (c.procs p).endThread i := by
    rw [hkilled.procs, hp, hchild, Function.update_self]
  have hthreads : (c'.procs p).threads = Function.update (c.procs p).threads i none := by
    rw [hprocs, Process.endThread]
  have hoccupied := occupied_clear hi (by rw [hx]; rfl) hthreads
  have hle := occupied_le (c.procs p)
  have hcount := htallied.count
  have hslots : ∀ j t, (c'.procs p).threads j = some t →
      j ≠ i ∧ (c.procs p).threads j = some t := by
    intro j t ht
    rw [hthreads, Function.update_apply] at ht
    split at ht
    · cases ht
    · next hne => exact ⟨hne, ht⟩
  refine ⟨hsched, h.carried.trans hcarried, hkilled.current.trans h.current,
    hkilled.idleT.trans h.idleT, ?_, fun hpos => ?_, fun j t ht => h.kept j t (hslots j t ht).2,
    fun j t hj hout ht => ?_, fun t => (hkilled.procOf t).trans (h.procOf t),
    fun t hother hlive hready => ?_⟩
  · rw [← h.count]
    omega
  · refine hcarried.counted p (fun _ => htallied) ?_
    have hgo : ¬ Core.EndsProc c x := by
      rw [Core.EndsProc, hp, hcount]
      rw [maxNumThreads] at hle
      omega
    rw [hkilled.proceeds hgo, ← hp]
    exact h.sched.inv.procs x hl
  · obtain ⟨hji, ht⟩ := hslots j t ht
    rw [hkilled.current]
    exact h.done j t hj (by simp [hji, hout]) ht
  · obtain ⟨hl', hs'⟩ := h.ready t hother hlive hready
    have hne : t ≠ x := by
      rintro rfl
      rw [← h.procOf, hp] at hother
      exact hother rfl
    have hawake : ¬ Core.Sleeps c t := by
      rw [Core.Sleeps, hs']
      simp
    refine ⟨?_, (hkilled.state t hne hawake).trans hs'⟩
    rw [hkilled.live, Function.update_of_ne hne]
    exact hl'

theorem wp_procKillRound (h : Killing boot p c0 q0 (i :: rest) n c q)
    (hmay : MayKillProc p c0 q0) (hi : i < maxNumThreads) :
    Wp listAt (procKillRound p i n)
      (fun r c' q' => ∃ n', r = some n' ∧ Killing boot p c0 q0 rest n' c' q') c q := by
  apply Wp.bind
  apply wp_reads
  rcases hslot : (c.procs p).threads i with _ | t
  · exact wp_pure ⟨n, rfl, h.skip fun t ht => by rw [hslot] at ht; cases ht⟩
  have hend := h.mayEnd hmay hi hslot
  apply Wp.bind
  apply wp_reads
  apply Wp.bind
  apply wp_reads
  rcases eq_or_ne t c.current with heq | hne
  · have hrunning : c.state t = .running := (h.sched.running_iff hend.live).mpr heq
    rw [if_neg (by simp [hrunning])]
    refine wp_pure ⟨n, rfl, h.skip fun u hu => ?_⟩
    rw [hslot, Option.some.injEq] at hu
    exact hu ▸ heq
  · have hstate : c.state t ≠ .dying ∧ c.state t ≠ .running := by
      obtain ⟨hs, _⟩ | ⟨hs, _⟩ := h.sched.inv.placed t hend.live hne
      · rw [hs]
        decide
      · rw [hs]
        decide
    rw [if_pos hstate]
    apply Wp.bind
    refine (wp_threadKill h.sched hend).mono ?_
    rintro code c' q' ⟨hsched, hcarried, hkill⟩
    obtain ⟨rfl, hkilled⟩ := hkill hne
    exact wp_pure ⟨n - 1, rfl, h.killed hi hslot hsched hcarried hkilled⟩

theorem wp_procKillLoop (hmay : MayKillProc p c0 q0) {slots : List Nat}
    (hslots : ∀ i ∈ slots, i < maxNumThreads) (h : Killing boot p c0 q0 slots n c q) :
    Wp listAt (procKillLoop p slots n)
      (fun r c' q' => ∃ n', r = some n' ∧ Killing boot p c0 q0 [] n' c' q') c q := by
  induction slots generalizing n c q with
  | nil => exact wp_pure ⟨n, rfl, h⟩
  | cons i rest ih =>
      apply Wp.bind
      refine (wp_procKillRound h hmay (hslots i List.mem_cons_self)).mono ?_
      rintro r c1 q1 ⟨n1, rfl, h1⟩
      exact ih (fun j hj => hslots j (List.mem_cons_of_mem i hj)) h1

theorem killing_start (h : SchedInv boot c q) (hmay : MayKillProc p c q) :
    Killing boot p c q (List.range maxNumThreads) ((c.procs p).numLiveThreads : Int) c q := by
  refine ⟨h, Carried.refl c q, rfl, rfl, ?_, fun _ => hmay.tallied, fun _ _ ht => ht,
    fun i t hi hout _ => absurd (List.mem_range.mpr hi) hout, fun _ => rfl,
    fun _ _ hl hs => ⟨hl, hs⟩⟩
  rw [hmay.tallied.count]

/-- The thread that is left is the running one. -/
theorem Killing.mayEnd_last (h : Killing boot p c0 q0 [] 1 c q) (hmay : MayKillProc p c0 q0) :
    MayEnd c.current c q := by
  obtain ⟨i, hi⟩ : ∃ i, i ∈ (Finset.range maxNumThreads).filter fun i =>
      ((c.procs p).threads i).isSome := by
    refine Finset.card_pos.mp ?_
    have hcount := h.count
    rw [occupied] at hcount
    omega
  rw [Finset.mem_filter, Finset.mem_range] at hi
  obtain ⟨t, ht⟩ := Option.isSome_iff_exists.mp hi.2
  obtain rfl := h.done i t hi.1 List.not_mem_nil ht
  exact h.mayEnd hmay hi.1 ht

/-- `proc_kill` of a process whose count is exact. -/
theorem wp_procKill (h : SchedInv boot c q) (hmay : MayKillProc p c q) :
    Wp listAt (procKill p) (fun _ c' q' => SchedInv boot c' q' ∧ Carried c q c' q') c q := by
  apply Wp.bind
  apply wp_reads
  apply Wp.bind
  refine (wp_procKillLoop hmay (fun i hi => List.mem_range.mp hi) (killing_start h hmay)).mono ?_
  rintro r c1 q1 ⟨n, rfl, h1⟩
  apply Wp.bind
  apply wp_reads
  split
  · next hlast =>
      obtain ⟨_, rfl⟩ := hlast
      apply Wp.bind
      refine (wp_threadExit h1.sched (h1.mayEnd_last hmay)).mono ?_
      rintro flow c2 q2 ⟨_, hsched, hcarried⟩
      exact wp_pure ⟨hsched, h1.carried.trans hcarried⟩
  · exact wp_pure ⟨h1.sched, h1.carried⟩

end Killing

section Creating

variable {boot t p slot : Nat} {old : Thread} {c c' : Core} {q q' : KernelSeqs}

/-- Thread `t` has been made in a slot of process `p`. -/
structure Created (t p slot : Nat) (c c' : Core) : Prop where
  others : ∀ u, u ≠ t → c'.threads u = c.threads u
  state : c'.state t = .ready
  procOf : c'.procOf t = p
  childNum : (c'.threads t).childNum = slot
  procs : c'.procs = Function.update c.procs p
    { c.procs p with threads := Function.update (c.procs p).threads slot (some t) }
  current : c'.current = c.current
  idleT : c'.idleT = c.idleT
  live : c'.live = Function.update c.live t true
  liveProcs : c'.liveProcs = c.liveProcs
  log : Silent c.log c'.log

theorem ne_of_live (hlive : c.live t = false) (hu : c.live u = true) : u ≠ t := by
  rintro rfl
  rw [hlive] at hu
  cases hu

theorem Created.live_iff (hc : Created t p slot c c') (u : Nat) :
    c'.live u = true ↔ u = t ∨ c.live u = true := by
  rw [hc.live]
  rcases eq_or_ne u t with rfl | hut
  · simp
  · simp [hut]

/-- `allocate_tid` changes the table of ids only. -/
theorem wp_allocateTid {Q : Nat → Core → KernelSeqs → Prop}
    (h : ∀ i tids, Q i { c with tids := tids } q) : Wp listAt allocateTid Q c q := by
  apply Wp.bind
  apply wp_reads
  split
  · apply Wp.bind
    apply wp_modifyCore
    exact wp_pure (h _ _)
  · exact wp_pure (h _ c.tids)

/-- All that `thread_create` writes after it has taken an id. -/
theorem created_steps (c : Core) (t p slot : Nat) (old : Thread) (tids : Nat → Bool)
    (tid pid : Nat) :
    Created t p slot c (((((((({ (c.withThread t fun _ => old) with tids := tids }.withThread t
      fun ti => { ti with
        tid := tid, state := .ready, pid := pid, childNum := slot,
        proc := p }).withProc p fun proc =>
          { proc with threads := Function.update proc.threads slot (some t) }).noteCall
        (.init (.threadWaiters t))).setWaitCode t 0).claim t).withInterrupts false).noteCall
        (.insert .readyThreads (.node t))).withInterrupts true) := by
  constructor
  · intro u hu
    simp [Core.withInterrupts, Core.noteCall, changes, Core.note, Core.claim, Core.setWaitCode,
      Core.withThread, Core.withProc, hu]
  · simp [Core.state, Core.withInterrupts, Core.noteCall, changes, Core.note, Core.claim,
      Core.setWaitCode, Core.withThread, Core.withProc]
  · simp [Core.procOf, Core.withInterrupts, Core.noteCall, changes, Core.note, Core.claim,
      Core.setWaitCode, Core.withThread, Core.withProc]
  · simp [Core.withInterrupts, Core.noteCall, changes, Core.note, Core.claim,
      Core.setWaitCode, Core.withThread, Core.withProc]
  · rfl
  · rfl
  · rfl
  · rfl
  · rfl
  · exact (silent_changed c.log (.threadWaiters t) c.interrupts).trans
      (silent_changed _ .readyThreads false)

/-- `thread_create` with a page that is not in use. -/
theorem wp_threadCreate {Q : Int → Core → KernelSeqs → Prop} (hready : (q .readyThreads).isSome)
    (hoff : ∀ i, .node t ∉ q.get i)
    (hfail : old.tid = maxTid + 1 → Q (-1) (c.withThread t fun _ => old) q)
    (hok : ∀ (tid : Nat) c', old.tid ≠ maxTid + 1 → Created t p slot c c' → Q tid c'
      ((q.set (.threadWaiters t) []).set .readyThreads (.node t :: q.get .readyThreads))) :
    Wp listAt (threadCreate (some (t, old)) p slot) Q c q := by
  apply Wp.bind
  apply wp_modifyCore
  apply Wp.bind
  apply wp_reads
  have htid : ((c.withThread t fun _ => old).threads t).tid = old.tid := by
    simp [Core.withThread]
  rw [htid]
  split
  · next hold => exact wp_pure (hfail hold)
  next hold =>
  apply Wp.bind
  apply wp_allocateTid
  intro i tids
  apply Wp.bind
  apply wp_reads
  apply Wp.bind
  apply wp_modifyCore
  apply Wp.bind
  apply wp_modifyCore
  apply Wp.bind
  apply wp_init
  apply Wp.bind
  apply wp_modifyCore
  apply Wp.bind
  apply wp_modifyCore
  apply Wp.bind
  apply wp_insert
  · exact Seqs.isSome_set hready
  · refine ⟨not_isSentinel_node t, fun j hj => ?_⟩
    rcases eq_or_ne j (.threadWaiters t) with rfl | hne
    · rw [Seqs.get_set_same] at hj
      exact List.not_mem_nil hj
    · rw [Seqs.get_set_of_ne hne] at hj
      exact hoff j hj
  apply Wp.bind
  apply wp_modifyCore
  apply wp_pure
  rw [Seqs.get_set_of_ne (by simp)]
  exact hok i _ hold (created_steps c t p slot old tids i _)

/-- Memory is written that belongs to no thread and no process. -/
structure Scribbled (boot : Nat) (c c' : Core) : Prop where
  threads : ∀ u, c.live u = true ∨ u = boot → c'.threads u = c.threads u
  procs : ∀ r, c.liveProcs r = true → c'.procs r = c.procs r
  current : c'.current = c.current
  idleT : c'.idleT = c.idleT
  live : c'.live = c.live
  liveProcs : c'.liveProcs = c.liveProcs
  log : c'.log = c.log

theorem Scribbled.refl (boot : Nat) (c : Core) : Scribbled boot c c :=
  ⟨fun _ _ => rfl, fun _ _ => rfl, rfl, rfl, rfl, rfl, rfl⟩

theorem Scribbled.trans {c1 : Core} (h1 : Scribbled boot c c1) (h2 : Scribbled boot c1 c') :
    Scribbled boot c c' := by
  refine ⟨fun u hu => ?_, fun r hr => ?_, h2.current.trans h1.current, h2.idleT.trans h1.idleT,
    h2.live.trans h1.live, h2.liveProcs.trans h1.liveProcs, h2.log.trans h1.log⟩
  · rw [h2.threads u (by rwa [h1.live]), h1.threads u hu]
  · rw [h2.procs r (by rwa [h1.liveProcs]), h1.procs r hr]

theorem scribbled_thread (c : Core) (hlive : c.live t = false) (hboot : t ≠ boot)
    (f : Thread → Thread) : Scribbled boot c (c.withThread t f) := by
  refine ⟨fun u hu => Function.update_of_ne ?_ _ _, fun _ _ => rfl, rfl, rfl, rfl, rfl, rfl⟩
  rintro rfl
  rw [hlive] at hu
  exact hu.elim (fun h => by cases h) hboot

theorem Kept.of_scribbled {out : Nat → Prop} (h : SchedInv boot c q) (hs : Scribbled boot c c') :
    Kept boot out c q c' q := by
  have hstate : ∀ u, c.live u = true ∨ u = boot → c'.state u = c.state u :=
    fun u hu => congrArg Thread.state (hs.threads u hu)
  have hprocOf : ∀ u, c.live u = true → c'.procOf u = c.procOf u :=
    fun u hu => congrArg Thread.proc (hs.threads u (Or.inl hu))
  refine ⟨h.of_current ?_ hs.current rfl (hstate _ ?_) id (by rw [hs.live])
    (by rw [hs.live]; exact id),
    ⟨fun u => by rw [hs.log], fun u hu hl _ => ?_⟩, fun r _ hr hl => ?_⟩
  · constructor
    · exact fun i hi => h.inv.lists i ((accessible_congr hs.live hs.liveProcs i).mp hi)
    · exact fun i hi => h.inv.stale i fun hi' => hi
        ((accessible_congr hs.live hs.liveProcs i).mpr hi')
    · exact fun i a ha => (fits_congr hs.live hs.liveProcs i a).mpr (h.inv.fits i a ha)
    · intro u hu hn
      rw [hs.live] at hu
      rw [Placed, hstate u (Or.inl hu)]
      exact h.inv.placed u hu hn
    · rw [hs.idleT, hs.live]
      exact h.inv.idle
    · intro u hu
      rw [hs.live] at hu
      rw [hs.liveProcs, hprocOf u hu]
      exact h.inv.procs u hu
    · rw [hs.log]
      exact h.inv.released
  · exact h.running.symm.imp And.left And.left
  · rw [hstate u (Or.inl hl), hs.live]
    exact ⟨hu, hl⟩
  · rw [hs.liveProcs] at hl
    refine (hr hl).same ⟨fun u => ?_, fun u hu => ?_, ?_, ?_⟩ id
    · rw [hs.live]
      exact and_congr_right fun hu => by rw [hprocOf u hu]
    · rw [hs.threads u (Or.inl hu)]
    · rw [hs.procs r hl]
    · rw [hs.procs r hl]

/-- More threads or processes exist than before. -/
theorem fits_mono (hlive : ∀ u, c.live u = true → c'.live u = true)
    (hprocs : ∀ r, c.liveProcs r = true → c'.liveProcs r = true) {i : ListId} {a : NodeAddr}
    (h : Core.Fits c i a) : Core.Fits c' i a := by
  cases i with
  | allProcs =>
      obtain ⟨r, rfl, hr⟩ := h
      exact ⟨r, rfl, hprocs r hr⟩
  | _ =>
      obtain ⟨u, rfl, hu⟩ := h
      exact ⟨u, rfl, hlive u hu⟩

/-- The new thread is in its place. -/
theorem Created.kept (hc : Created t p slot c c') (h : SchedInv boot c q)
    (hlive : c.live t = false) (hboot : t ≠ boot) (hp : c.liveProcs p = true) :
    Kept boot (fun r => r = p) c q c'
      ((q.set (.threadWaiters t) []).set .readyThreads (.node t :: q.get .readyThreads)) := by
  have hne : ∀ u, c.live u = true → u ≠ t := fun u hu => ne_of_live hlive hu
  have hlive' : ∀ u, c'.live u = true ↔ u = t ∨ c.live u = true := hc.live_iff
  have hstate : ∀ u, u ≠ t → c'.state u = c.state u :=
    fun u hu => congrArg Thread.state (hc.others u hu)
  have hprocOf : ∀ u, u ≠ t → c'.procOf u = c.procOf u :=
    fun u hu => congrArg Thread.proc (hc.others u hu)
  have hcur : c.current ≠ t := by
    rcases h.running with ⟨heq, _⟩ | ⟨hl, _⟩
    · exact heq.trans_ne hboot.symm
    · exact hne _ hl
  have hstale : q.get (.threadWaiters t) = [] := h.inv.stale _ (by simp [Core.Accessible, hlive])
  have hoff : ∀ i, .node t ∉ q.get i := fun i => (h.inv.off_of_dead hlive i).1
  obtain ⟨q1, hq1⟩ : ∃ q1, q1 =
    (q.set (.threadWaiters t) []).set .readyThreads (.node t :: q.get .readyThreads) := ⟨_, rfl⟩
  have hready1 : q1.get .readyThreads = .node t :: q.get .readyThreads := by
    rw [hq1, Seqs.get_set_same]
  have hget1 : ∀ i, i ≠ .readyThreads → q1.get i = q.get i := by
    intro i hi
    rw [hq1, Seqs.get_set_of_ne hi, Seqs.get_set_get hstale]
  rw [← hq1]
  have hacc : ∀ i, Core.Accessible c' i → i = .threadWaiters t ∨ Core.Accessible c i := by
    intro i hi
    cases i with
    | threadWaiters u => exact ((hlive' u).mp hi).imp (congrArg _) id
    | procWaiters r =>
        rw [Core.Accessible, hc.liveProcs] at hi
        exact Or.inr hi
    | _ => exact Or.inr trivial
  refine ⟨h.of_current ?_ hc.current (hget1 _ (by decide)) (hstate _ hcur) ?_ ?_ ?_,
    ⟨fun u => (hc.log.wakes u).ge, fun u hu hl _ => ?_⟩, fun r hrp hr hl => ?_⟩
  · constructor
    · intro i hi
      rw [hq1]
      refine Seqs.isSome_set ?_
      rcases hacc i hi with rfl | hi
      · simp [Seqs.set]
      · exact Seqs.isSome_set (h.inv.lists i hi)
    · intro i hi
      rw [hget1 i (by rintro rfl; exact hi trivial)]
      refine h.inv.stale i fun hi' => hi ?_
      cases i with
      | threadWaiters u => exact (hlive' u).mpr (Or.inr hi')
      | procWaiters r =>
          rw [Core.Accessible, hc.liveProcs]
          exact hi'
      | _ => trivial
    · intro i a ha
      have hmono : Core.Fits c i a → Core.Fits c' i a :=
        fits_mono (fun u hu => (hlive' u).mpr (Or.inr hu)) fun r hr => by rwa [hc.liveProcs]
      rcases eq_or_ne i .readyThreads with rfl | hir
      · rw [hready1, List.mem_cons] at ha
        rcases ha with rfl | ha
        · exact ⟨t, rfl, (hlive' t).mpr (Or.inl rfl)⟩
        · exact hmono (h.inv.fits _ a ha)
      · rw [hget1 i hir] at ha
        exact hmono (h.inv.fits i a ha)
    · intro u hu hn
      rw [Placed, hready1, hget1 _ (by decide), List.mem_cons]
      rcases (hlive' u).mp hu with rfl | hu
      · exact Or.inl ⟨hc.state, Or.inl rfl, hoff _⟩
      · have hut := hne u hu
        rw [hstate u hut]
        simpa [Placed, hut] using h.inv.placed u hu hn
    · obtain ⟨i, hi, hl⟩ := h.inv.idle
      exact ⟨i, hc.idleT.trans hi, (hlive' i).mpr (Or.inr hl)⟩
    · intro u hu
      rw [hc.liveProcs]
      rcases (hlive' u).mp hu with rfl | hu
      · rw [hc.procOf]
        exact hp
      · rw [hprocOf u (hne u hu)]
        exact h.inv.procs u hu
    · exact fun u b hb => h.inv.released u b ((hc.log.release u b).mp hb)
  · rw [hget1 _ (by decide)]
    exact id
  · rw [hc.live, Function.update_of_ne hcur]
  · rw [hc.live, Function.update_of_ne hboot.symm]
    exact id
  · rw [hstate u (hne u hl)]
    exact ⟨hu, (hlive' u).mpr (Or.inr hl)⟩
  · rw [hc.liveProcs] at hl
    have hprocs : c'.procs r = c.procs r := by
      rw [hc.procs, Function.update_of_ne hrp]
    refine (hr hl).same ⟨fun u => ?_, fun u hu => ?_, ?_, ?_⟩ fun hin => ?_
    · rw [hlive' u]
      rcases eq_or_ne u t with rfl | hut
      · rw [hc.procOf, hlive]
        simp [Ne.symm hrp]
      · rw [hprocOf u hut]
        simp [hut]
    · rw [hc.others u (hne u hu)]
    · rw [hprocs]
    · rw [hprocs]
    · rwa [hget1 _ (by decide)]

/-- What `thread_create` has done, by whether there was a page for the thread. -/
structure CreateOutcome (page : Option (Nat × Thread)) (p slot : Nat) (c : Core) (q : KernelSeqs)
    (code : Int) (c' : Core) (q' : KernelSeqs) : Prop where
  code : code ≠ -threadCreateFail
  created : ∀ t old, page = some (t, old) → old.tid ≠ maxTid + 1 → Created t p slot c c'
  listed : q'.get .allProcs = q.get .allProcs
  liveProcs : c'.liveProcs = c.liveProcs
  current : c'.current = c.current

/-- `thread_create` under a process that exists. -/
theorem wp_create (h : SchedInv boot c q) (hp : c.liveProcs p = true)
    {page : Option (Nat × Thread)}
    (hpage : ∀ t old, page = some (t, old) → c.live t = false ∧ t ≠ boot) :
    Wp listAt (threadCreate page p slot)
      (fun code c' q' => Kept boot (fun r => r = p) c q c' q' ∧
        CreateOutcome page p slot c q code c' q') c q := by
  rcases page with _ | ⟨t, old⟩
  · refine wp_pure ⟨Kept.of_carried h (Carried.refl c q), by decide, ?_, rfl, rfl, rfl⟩
    intro t old hpage'
    cases hpage'
  obtain ⟨hlive, hboot⟩ := hpage t old rfl
  apply wp_threadCreate (h.inv.lists .readyThreads trivial)
  · exact fun i => (h.inv.off_of_dead hlive i).1
  · intro hold
    have hs := scribbled_thread c hlive hboot fun _ => old
    refine ⟨Kept.of_scribbled h hs, by decide, ?_, rfl, hs.liveProcs, hs.current⟩
    rintro u old' ⟨⟩ hne
    exact absurd hold hne
  · intro tid c' _ hc
    refine ⟨hc.kept h hlive hboot hp, ?_, ?_, ?_, hc.liveProcs, hc.current⟩
    · simp only [threadCreateFail]
      omega
    · rintro u old' ⟨⟩ _
      exact hc
    · rw [Seqs.get_set_of_ne (by decide), Seqs.get_set_of_ne (by simp)]

/-- The new thread is in its slot. -/
theorem Created.slotted (hc : Created t p slot c c') (h : Slotted p c) (hlive : c.live t = false)
    (hslot : slot < maxNumThreads) (hfree : (c.procs p).threads slot = none) : Slotted p c' := by
  have hfill : (c'.procs p).threads = Function.update (c.procs p).threads slot (some t) := by
    rw [hc.procs, Function.update_self]
  have hne : ∀ u, c.live u = true → u ≠ t := fun u hu => ne_of_live hlive hu
  have hlive' : ∀ u, c'.live u = true ↔ u = t ∨ c.live u = true := hc.live_iff
  constructor
  · intro i u hi hu
    rw [hfill, Function.update_apply] at hu
    split at hu
    · next heq =>
        cases hu
        exact ⟨(hlive' t).mpr (Or.inl rfl), hc.procOf, hc.childNum.trans heq.symm⟩
    · obtain ⟨hl, hp, hi'⟩ := h.slots i u hi hu
      rw [Core.procOf, hc.others u (hne u hl)]
      exact ⟨(hlive' u).mpr (Or.inr hl), hp, hi'⟩
  · intro u hu hp
    rcases (hlive' u).mp hu with rfl | hl
    · rw [hc.childNum, hfill, Function.update_self]
      exact ⟨hslot, rfl⟩
    · rw [Core.procOf, hc.others u (hne u hl)] at hp
      obtain ⟨hi, hu'⟩ := h.members u hl hp
      rw [hc.others u (hne u hl), hfill, Function.update_of_ne]
      · exact ⟨hi, hu'⟩
      · rintro heq
        rw [heq, hfree] at hu'
        cases hu'

/-- With it the slots in use are one more. -/
theorem Created.occupied_succ (hc : Created t p slot c c') (hslot : slot < maxNumThreads)
    (hfree : (c.procs p).threads slot = none) :
    occupied (c'.procs p) = occupied (c.procs p) + 1 := by
  refine occupied_fill (t := t) hslot hfree ?_
  rw [hc.procs, Function.update_self]

/-- The slots and members of a process are those of another state. -/
theorem slotted_congr (h : Slotted p c) (hthreads : c'.threads = c.threads)
    (hlive : c'.live = c.live) (hslots : (c'.procs p).threads = (c.procs p).threads) :
    Slotted p c' := by
  constructor
  · rw [hthreads, hlive, hslots]
    intro i u hi hu
    rw [Core.procOf, hthreads]
    exact h.slots i u hi hu
  · rw [hthreads, hlive, hslots]
    intro u hu hp
    rw [Core.procOf, hthreads] at hp
    exact h.members u hu hp

@[simp] theorem procs_withProc (c : Core) (p : Nat) (f : Process → Process) :
    (c.withProc p f).procs p = f (c.procs p) :=
  Function.update_self _ _ _

/-- The process itself may change. -/
theorem Kept.withProc (h : Kept boot (fun r => r = p) c q c' q') (f : Process → Process) :
    Kept boot (fun r => r = p) c q (c'.withProc p f) q' := by
  refine ⟨⟨h.sched.inv.withProc p f, h.sched.dying, h.sched.running, h.sched.boot⟩,
    ⟨h.later.woken, h.later.asleep⟩, fun r hr hc hl => ?_⟩
  have hprocs : (c'.withProc p f).procs r = c'.procs r := Function.update_of_ne hr _ _
  refine (h.counted r hr hc hl).same (sameMembers_of_eq (fun _ => rfl) (fun _ => rfl) ?_ ?_ rfl) id
  · rw [hprocs]
  · rw [hprocs]

/-- `proc_create_thread`: the new thread is counted, if there was a page for it whenever a slot
was free. -/
theorem wp_procCreateThread (h : SchedInv boot c q) (hlive : c.live c.current = true)
    {stack : Option (Nat × Thread)}
    (hstack : ∀ t old, stack = some (t, old) → c.live t = false ∧ t ≠ boot) :
    Wp listAt (procCreateThread stack) (fun _ c' q' =>
      Kept boot (fun r => r = c.procOf c.current) c q c' q' ∧
        (((∃ i, i < maxNumThreads ∧ (c.procs (c.procOf c.current)).threads i = none) →
          ∃ t old, stack = some (t, old) ∧ old.tid ≠ maxTid + 1) →
          Counted (c.procOf c.current) c q → Counted (c.procOf c.current) c' q')) c q := by
  have hp := h.inv.procs c.current hlive
  apply Wp.bind
  apply wp_reads
  apply Wp.bind
  apply wp_reads
  split
  · exact wp_pure ⟨Kept.of_carried h (Carried.refl c q), fun _ hr => hr⟩
  next slot hfind =>
  have hslot : slot < maxNumThreads := List.mem_range.mp (List.mem_of_find?_eq_some hfind)
  have hfree : (c.procs (c.procOf c.current)).threads slot = none := by
    simpa using List.find?_some hfind
  apply Wp.bind
  refine (wp_create h hp hstack).mono ?_
  rintro code c1 q1 ⟨hkept, hcreated⟩
  rw [if_pos hcreated.code]
  apply Wp.bind
  apply wp_modifyCore
  apply wp_pure
  refine ⟨Kept.withProc hkept _, fun hmade hcounted _ => ?_⟩
  obtain ⟨t, old, hs, hold⟩ := hmade ⟨slot, hslot, hfree⟩
  have hc := hcreated.created t old hs hold
  have htallied := hcounted hp
  obtain ⟨c2, hc2⟩ : ∃ c2, c2 = c1.withProc (c.procOf c.current) fun proc =>
    { proc with numLiveThreads := (proc.numLiveThreads + 1) % 256 } := ⟨_, rfl⟩
  have hslots2 : (c2.procs (c.procOf c.current)).threads =
      (c1.procs (c.procOf c.current)).threads := by rw [hc2, procs_withProc]
  have hslotted : Slotted (c.procOf c.current) c2 :=
    slotted_congr (hc.slotted htallied.toSlotted (hstack t old hs).1 hslot hfree)
      (by rw [hc2]; rfl) (by rw [hc2]; rfl) hslots2
  have hoccupied : occupied (c2.procs (c.procOf c.current)) =
      occupied (c.procs (c.procOf c.current)) + 1 :=
    (occupied_congr fun i _ => congrFun hslots2 i).trans (hc.occupied_succ hslot hfree)
  have hle := occupied_le (c2.procs (c.procOf c.current))
  have hcount := htallied.count
  have hcount2 : (c2.procs (c.procOf c.current)).numLiveThreads =
      ((c.procs (c.procOf c.current)).numLiveThreads + 1) % 256 := by
    rw [hc2, procs_withProc, hc.procs, Function.update_self]
  rw [maxNumThreads] at hle
  rw [← hc2]
  refine ⟨hslotted, by omega, by omega, ?_⟩
  rw [hcreated.listed]
  exact htallied.listed

/-- `proc_create` marks the threads in the slots of its page, which do not exist. -/
theorem wp_terminateSlots {slots : List Nat}
    (hslots : ∀ i ∈ slots, ∀ t, (c.procs p).threads i = some t → c.live t = false ∧ t ≠ boot) :
    Wp listAt (terminateSlots p slots)
      (fun _ c' q' => Scribbled boot c c' ∧ c'.procs = c.procs ∧ q' = q) c q := by
  induction slots generalizing c with
  | nil => exact wp_pure ⟨Scribbled.refl boot c, rfl, rfl⟩
  | cons i rest ih =>
      apply Wp.bind
      apply wp_reads
      rcases hi : (c.procs p).threads i with _ | t
      · exact ih fun j hj => hslots j (List.mem_cons_of_mem i hj)
      · obtain ⟨hlive, hboot⟩ := hslots i List.mem_cons_self t hi
        apply Wp.bind
        apply wp_modifyCore
        refine (ih (c := c.withThread t _) fun j hj => hslots j (List.mem_cons_of_mem i hj)).mono ?_
        rintro _ c' q' ⟨hs, hprocs, rfl⟩
        exact ⟨(scribbled_thread c hlive hboot _).trans hs, hprocs, rfl⟩

/-- A new process exists from now on. -/
theorem kept_newProcess (h : SchedInv boot c q) (hp : c.liveProcs p = false)
    (hthreads : c'.threads = c.threads) (hprocs : ∀ r, r ≠ p → c'.procs r = c.procs r)
    (hcurrent : c'.current = c.current) (hidle : c'.idleT = c.idleT) (hlive : c'.live = c.live)
    (hliveProcs : c'.liveProcs = Function.update c.liveProcs p true) (hlog : Silent c.log c'.log) :
    Kept boot (fun r => r = p) c q c' (q.set (.procWaiters p) []) := by
  have hmono : ∀ r, c.liveProcs r = true → c'.liveProcs r = true := by
    intro r hr
    rw [hliveProcs, Function.update_apply]
    split
    · rfl
    · exact hr
  have hstale : q.get (.procWaiters p) = [] := h.inv.stale _ (by simp [Core.Accessible, hp])
  have hget : ∀ i, (q.set (.procWaiters p) []).get i = q.get i := Seqs.get_set_get hstale
  have hstate : ∀ u, c'.state u = c.state u := fun u => by rw [Core.state, hthreads, Core.state]
  have hprocOf : ∀ u, c'.procOf u = c.procOf u :=
    fun u => by rw [Core.procOf, hthreads, Core.procOf]
  refine ⟨h.of_current ?_ hcurrent (hget _) (hstate _) ?_ ?_ ?_,
    ⟨fun u => (hlog.wakes u).ge, fun u hu hl _ => ?_⟩, fun r hr hc hl => ?_⟩
  · constructor
    · intro i hi
      rcases eq_or_ne i (.procWaiters p) with rfl | hip
      · simp [Seqs.set]
      · rw [Seqs.set_of_ne hip]
        refine h.inv.lists i ?_
        cases i with
        | threadWaiters u => rwa [Core.Accessible, hlive] at hi
        | procWaiters r =>
            rw [Core.Accessible, hliveProcs, Function.update_of_ne] at hi
            · exact hi
            · rintro rfl
              exact hip rfl
        | _ => trivial
    · intro i hi
      rw [hget]
      refine h.inv.stale i fun hi' => hi ?_
      cases i with
      | threadWaiters u => rwa [Core.Accessible, hlive]
      | procWaiters r => exact hmono r hi'
      | _ => trivial
    · intro i a ha
      rw [hget] at ha
      exact fits_mono (fun u hu => by rwa [hlive]) hmono (h.inv.fits i a ha)
    · intro u hu hn
      rw [hlive] at hu
      rw [Placed, hget, hget, hstate]
      exact h.inv.placed u hu hn
    · rw [hidle, hlive]
      exact h.inv.idle
    · intro u hu
      rw [hlive] at hu
      rw [hprocOf]
      exact hmono _ (h.inv.procs u hu)
    · exact fun u b hb => h.inv.released u b ((hlog.release u b).mp hb)
  · rw [hget]
    exact id
  · rw [hlive]
  · rw [hlive]
    exact id
  · rw [hstate, hlive]
    exact ⟨hu, hl⟩
  · rw [hliveProcs, Function.update_of_ne hr] at hl
    refine (hc hl).same (sameMembers_of_eq hprocOf (fun u => by rw [hthreads]) ?_ ?_ hlive)
      fun hin => ?_
    · rw [hprocs r hr]
    · rw [hprocs r hr]
    · rwa [hget]

/-- The process goes to the end of the list of all processes. -/
theorem Kept.listed (h : Kept boot (fun r => r = p) c q c' q') (hp : c'.liveProcs p = true) :
    Kept boot (fun r => r = p) c q (c'.noteCall (.insertEnd .allProcs (.procNode p)))
      (q'.set .allProcs (q'.get .allProcs ++ [.procNode p])) := by
  have ha := alike_noteCall c' (.insertEnd .allProcs (.procNode p))
  have hlog := silent_noteCall c' (.insertEnd .allProcs (.procNode p))
  refine ⟨h.sched.of_current ?_ ha.current (Seqs.get_set_of_ne (by decide) _) (ha.state _) ?_
    (by rw [ha.live]) (by rw [ha.live]; exact id),
    h.later.trans (Later.of_alike ha fun t => (hlog.wakes t).ge), fun r hr hc hl => ?_⟩
  · refine (h.sched.inv.setProcs fun a hin => ?_).alike ha fun t b hb => (hlog.release t b).mp hb
    rcases List.mem_append.mp hin with hin | hin
    · exact Or.inr hin
    · exact Or.inl ⟨p, List.mem_singleton.mp hin, hp⟩
  · rw [Seqs.get_set_of_ne (by decide)]
    exact id
  · rw [ha.liveProcs] at hl
    refine (h.counted r hr hc hl).same (sameMembers_of_eq ha.procOf ha.childNum ?_ ?_ ha.live)
      fun hin => ?_
    · rw [ha.procs]
    · rw [ha.procs]
    · rw [Seqs.get_set_same]
      exact List.mem_append_left _ hin

/-- The first thread of a process without threads is counted. -/
theorem Created.first {c1 : Core} (hc : Created t p 0 c c1)
    (hslots : ∀ i, i < maxNumThreads → (c.procs p).threads i = none)
    (hnone : ∀ u, c.live u = true → c.procOf u ≠ p) (hdead : c.live t = false)
    (hthreads : c'.threads = c1.threads) (hlive : c'.live = c1.live)
    (hsame : (c'.procs p).threads = (c1.procs p).threads)
    (hcount : (c'.procs p).numLiveThreads = 1) (hlisted : .procNode p ∈ q'.get .allProcs) :
    Tallied p c' q' := by
  have hzero : (0 : Nat) < maxNumThreads := by decide
  have hempty : Slotted p c := by
    refine ⟨fun i u hi hu => ?_, fun u hu heq => absurd heq (hnone u hu)⟩
    rw [hslots i hi] at hu
    cases hu
  have hslotted :=
    slotted_congr (hc.slotted hempty hdead hzero (hslots 0 hzero)) hthreads hlive hsame
  have hone : occupied (c'.procs p) = 1 := by
    have hnothing : occupied (c.procs p) = 0 := by
      refine Finset.card_eq_zero.mpr (Finset.filter_eq_empty_iff.mpr fun i hi => ?_)
      rw [hslots i (Finset.mem_range.mp hi)]
      simp
    rw [occupied_congr fun i _ => congrFun hsame i, hc.occupied_succ hzero (hslots 0 hzero),
      hnothing]
  refine ⟨hslotted, hcount.trans hone.symm, ?_, hlisted⟩
  rw [hcount]
  exact Nat.one_pos

/-- `proc_create` with a page that is not in use and whose slots name no thread that
exists. -/
theorem wp_procCreate (h : SchedInv boot c q) {page : Option (Nat × Process)}
    {stack : Option (Nat × Thread)}
    (hpage : ∀ p old, page = some (p, old) → c.liveProcs p = false ∧
      ∀ i, i < maxNumThreads → ∀ t, old.threads i = some t → c.live t = false ∧ t ≠ boot)
    (hstack : ∀ t old, stack = some (t, old) → c.live t = false ∧ t ≠ boot) :
    Wp listAt (procCreate page stack) (fun _ c' q' =>
      Kept boot (fun r => ∃ old, page = some (r, old)) c q c' q' ∧
        ∀ p old, page = some (p, old) → (∀ i, i < maxNumThreads → old.threads i = none) →
          (∃ t old', stack = some (t, old') ∧ old'.tid ≠ maxTid + 1) → Tallied p c' q') c q := by
  rcases page with _ | ⟨p, old⟩
  · refine wp_pure ⟨Kept.of_carried h (Carried.refl c q), fun p old hp => ?_⟩
    cases hp
  obtain ⟨hp, hslots⟩ := hpage p old rfl
  have hself : (fun r => ∃ old', some (p, old) = some (r, old')) = fun r => r = p := by
    funext r
    simp [eq_comm]
  rw [hself]
  apply Wp.bind
  apply wp_modifyCore
  obtain ⟨c0, hc0⟩ : ∃ c0, c0 = { c.withProc p fun _ => { old with pid := c.pidCount } with
    pidCount := (c.pidCount + 1) % 2 ^ 32 } := ⟨_, rfl⟩
  have hs0 : Scribbled boot c c0 := by
    rw [hc0]
    refine ⟨fun _ _ => rfl, fun r hr => Function.update_of_ne ?_ _ _, rfl, rfl, rfl, rfl, rfl⟩
    rintro rfl
    rw [hp] at hr
    cases hr
  have hslots0 : (c0.procs p).threads = old.threads := by
    rw [hc0]
    simp [Core.withProc]
  rw [← hc0]
  apply Wp.bind
  have hfree : ∀ i ∈ List.range maxNumThreads, ∀ t, (c0.procs p).threads i = some t →
      c0.live t = false ∧ t ≠ boot := by
    intro i hi t ht
    rw [hslots0] at ht
    rw [hs0.live]
    exact hslots i (List.mem_range.mp hi) t ht
  refine (wp_terminateSlots hfree).mono ?_
  rintro _ c1 _ ⟨hs1, hprocs1, rfl⟩
  have hs : Scribbled boot c c1 := hs0.trans hs1
  have h1 : Kept boot (fun r => r = p) c _ c1 _ := Kept.of_scribbled h hs
  apply Wp.bind
  apply wp_init
  apply Wp.bind
  apply wp_modifyCore
  obtain ⟨c2, hc2⟩ : ∃ c2, c2 =
    { (c1.noteCall (.init (.procWaiters p))).withProc p fun proc => { proc with waitCode := 0 } with
      liveProcs := Function.update (c1.noteCall (.init (.procWaiters p))).liveProcs p true } :=
    ⟨_, rfl⟩
  rw [← hc2]
  have h2 : Kept boot (fun r => r = p) c1 _ c2 _ :=
    kept_newProcess h1.sched (by rw [hs.liveProcs]; exact hp) (by rw [hc2]; rfl)
      (fun r hr => by rw [hc2]; exact Function.update_of_ne hr _ _) (by rw [hc2]; rfl)
      (by rw [hc2]; rfl) (by rw [hc2]; rfl) (by rw [hc2]; rfl)
      (by rw [hc2]; exact silent_noteCall c1 (.init (.procWaiters p)))
  have hlive2 : c2.live = c.live := by
    rw [hc2]
    exact hs.live
  have hp2 : c2.liveProcs p = true := by
    rw [hc2]
    exact Function.update_self _ _ _
  have hslots2 : (c2.procs p).threads = old.threads := by
    have hsame : (c2.procs p).threads = (c1.procs p).threads := by
      rw [hc2]
      simp [Core.withProc, Core.noteCall, changes, Core.note]
    rw [hsame, hprocs1, hslots0]
  apply Wp.bind
  refine (wp_create h2.sched hp2 fun t old' ht => ?_).mono ?_
  · rw [hlive2]
    exact hstack t old' ht
  rintro code c3 q3 ⟨h3, hcreated⟩
  rw [if_pos hcreated.code]
  apply Wp.bind
  apply wp_modifyCore
  obtain ⟨c4, hc4⟩ : ∃ c4, c4 = c3.withProc p fun proc =>
    { proc with numLiveThreads := 1, activeThread := proc.threads 0 } := ⟨_, rfl⟩
  have h4 : Kept boot (fun r => r = p) c2 _ c4 q3 := hc4 ▸ Kept.withProc h3 _
  have hp4 : c4.liveProcs p = true := by
    rw [hc4]
    exact (congrFun hcreated.liveProcs p).trans hp2
  rw [← hc4]
  apply Wp.bind
  apply wp_insertEnd (h4.sched.inv.lists .allProcs trivial)
  · refine ⟨not_isSentinel_procNode p, fun i hi => ?_⟩
    have hfit := h4.sched.inv.fits i _ hi
    cases i with
    | allProcs =>
        rw [hcreated.listed, Seqs.get_set_of_ne (by simp)] at hi
        obtain ⟨r, hr, hlive⟩ := h.inv.fits .allProcs _ hi
        cases hr
        rw [hp] at hlive
        cases hlive
    | _ =>
        obtain ⟨u, hu, _⟩ := hfit
        cases hu
  apply wp_pure
  refine ⟨(h1.trans h2).trans (Kept.listed h4 hp4), ?_⟩
  rintro r old' ⟨⟩ hnone hmade
  obtain ⟨t, oldT, ht, hold⟩ := hmade
  have hc := hcreated.created t oldT ht hold
  have hthreads4 : c4.threads = c3.threads := by
    rw [hc4]
    rfl
  have hlive4 : c4.live = c3.live := by
    rw [hc4]
    rfl
  have hslots4 : (c4.procs p).threads = (c3.procs p).threads := by
    rw [hc4, procs_withProc]
  have hcount4 : (c4.procs p).numLiveThreads = 1 := by
    rw [hc4, procs_withProc]
  have hdead : c2.live t = false := by
    rw [hlive2]
    exact (hstack t oldT ht).1
  have hnobody : ∀ u, c2.live u = true → c2.procOf u ≠ p := by
    rintro u hu rfl
    rw [hlive2] at hu
    have hprocOf : c2.procOf u = c.procOf u := by
      rw [hc2]
      exact congrArg Thread.proc (hs.threads u (Or.inl hu))
    have hlive := h.inv.procs u hu
    rw [← hprocOf, hp] at hlive
    cases hlive
  refine hc.first (fun i hi => by rw [hslots2, hnone i hi]) hnobody hdead hthreads4 hlive4 hslots4
    hcount4 ?_
  rw [Seqs.get_set_same]
  exact List.mem_append_right _ (List.mem_singleton.mpr rfl)

end Creating

section Starting

variable {t init : Nat} {old : Thread} {c c' : Core} {q q' : KernelSeqs}

/-- The kernel has one process and one thread, which is the idle thread and ready; the boot
thread runs on. -/
structure Started (t init : Nat) (c : Core) (q : KernelSeqs) : Prop where
  live : ∀ u, c.live u = true ↔ u = t
  liveProcs : ∀ p, c.liveProcs p = true ↔ p = init
  state : c.state t = .ready
  procOf : c.procOf t = init
  idleT : c.idleT = some t
  boot : c.state c.current = .blocked
  other : t ≠ c.current
  released : ∀ u b, .release u b ∉ c.log
  lists : ∀ i, Core.Accessible c i → (q i).isSome
  ready : q.get .readyThreads = [.node t]
  allProcs : q.get .allProcs = [.procNode init]
  empty : ∀ i, i ≠ .readyThreads → i ≠ .allProcs → q.get i = []

theorem Started.schedInv (h : Started t init c q) : SchedInv c.current c q := by
  have hplaced : Placed c q t := by
    refine Or.inl ⟨h.state, ?_, ?_⟩
    · rw [h.ready]
      exact List.mem_cons_self
    · rw [h.empty _ (by decide) (by decide)]
      exact List.not_mem_nil
  refine ⟨?_, h.empty _ (by decide) (by decide), Or.inl ⟨rfl, h.boot⟩, ?_⟩
  · refine ⟨h.lists, fun i hi => h.empty i ?_ ?_, fun i a ha => ?_, fun u hu _ => ?_,
      ⟨t, h.idleT, (h.live t).mpr rfl⟩, fun u hu => ?_, fun u b hb => absurd hb (h.released u b)⟩
    · rintro rfl
      exact hi trivial
    · rintro rfl
      exact hi trivial
    · rcases eq_or_ne i .readyThreads with rfl | hir
      · rw [h.ready, List.mem_singleton] at ha
        exact ⟨t, ha, (h.live t).mpr rfl⟩
      · rcases eq_or_ne i .allProcs with rfl | hia
        · rw [h.allProcs, List.mem_singleton] at ha
          exact ⟨init, ha, (h.liveProcs init).mpr rfl⟩
        · rw [h.empty i hir hia] at ha
          exact absurd ha List.not_mem_nil
    · rw [(h.live u).mp hu]
      exact hplaced
    · rw [(h.live u).mp hu, h.procOf]
      exact (h.liveProcs init).mpr rfl
  · rw [← Bool.not_eq_true, h.live]
    exact h.other.symm

theorem Started.no_waits (h : Started t init c q) (i : ListId)
    (u : Nat) : .waitNode u ∉ q.get i := by
  intro hu
  rcases eq_or_ne i .readyThreads with rfl | hir
  · rw [h.ready] at hu
    simp at hu
  rcases eq_or_ne i .allProcs with rfl | hia
  · rw [h.allProcs] at hu
    simp at hu
  rw [h.empty i hir hia] at hu
  exact List.not_mem_nil hu

/-- The lists are initialised and empty, and the process exists. -/
structure Prepared (init : Nat) (c c' : Core) (q' : KernelSeqs) : Prop where
  live : c'.live = c.live
  liveProcs : c'.liveProcs = Function.update c.liveProcs init true
  current : c'.current = c.current
  log : Silent c.log c'.log
  count : (c'.procs init).numLiveThreads = (c.procs init).numLiveThreads
  lists : ∀ i, (∀ u, i ≠ .threadWaiters u) → (∀ p, p ≠ init → i ≠ .procWaiters p) → (q' i).isSome
  empty : ∀ i, q'.get i = []

theorem wp_generalize {β : Type} {p : Kernel β} {Q : β → Core → KernelSeqs → Prop}
    {P : Core → KernelSeqs → Prop} (hP : P c q)
    (h : ∀ c' q', P c' q' → Wp listAt p Q c' q') : Wp listAt p Q c q :=
  h c q hP

theorem get_set_nil {i : ListId} (h : ∀ j, q.get j = []) (j : ListId) :
    (q.set i []).get j = [] :=
  (Seqs.get_set_get (h i) j).trans (h j)

theorem Created.started (hc : Created t init 0 c c') {c0 : Core} (hp : Prepared init c0 c q)
    (hlive : ∀ u, c0.live u = false) (hprocs : ∀ p, c0.liveProcs p = false) (hlog : c0.log = [])
    (hpage : t ≠ c0.current) {c1 : Core} {q1 : KernelSeqs}
    (hstate : ∀ u, c1.state u = if u = c0.current then .blocked else c'.state u)
    (hprocOf : c1.procOf t = c'.procOf t) (hcurrent : c1.current = c'.current)
    (hidle : c1.idleT = some t) (hlive' : c1.live = c'.live) (hprocs' : c1.liveProcs = c'.liveProcs)
    (hlog' : Silent c'.log c1.log)
    (hcount : (c1.procs init).numLiveThreads = (c'.procs init).numLiveThreads)
    (hq1 : q1 = ((q.set (.threadWaiters t) []).set .readyThreads [.node t]).set .allProcs
      [.procNode init]) : Started t init c1 q1 ∧ c1.current = c0.current ∧
        (c1.procs init).numLiveThreads = (c0.procs init).numLiveThreads := by
  have hcur : c1.current = c0.current := (hcurrent.trans hc.current).trans hp.current
  have hlive1 : ∀ u, c1.live u = true ↔ u = t := by
    intro u
    rw [hlive', hc.live, hp.live, Function.update_apply]
    split
    · next heq => simp [heq]
    · next hne => simp [hne, hlive u]
  have hprocs1 : ∀ p, c1.liveProcs p = true ↔ p = init := by
    intro p
    rw [hprocs', hc.liveProcs, hp.liveProcs, Function.update_apply]
    split
    · next heq => simp [heq]
    · next hne => simp [hne, hprocs p]
  refine ⟨⟨hlive1, hprocs1, ?_, hprocOf.trans hc.procOf, hidle, ?_, ?_, ?_, ?_, ?_, ?_, ?_⟩, hcur,
    ?_⟩
  · rw [hstate, if_neg hpage, hc.state]
  · rw [hcur, hstate, if_pos rfl]
  · rwa [hcur]
  · intro u b hb
    have hb' := (hp.log.release u b).mp ((hc.log.release u b).mp ((hlog'.release u b).mp hb))
    rw [hlog] at hb'
    exact List.not_mem_nil hb'
  · intro i hi
    rw [hq1]
    rcases eq_or_ne i .allProcs with rfl | hia
    · simp [Seqs.set]
    rcases eq_or_ne i .readyThreads with rfl | hir
    · simp [Seqs.set]
    rcases eq_or_ne i (.threadWaiters t) with rfl | hit
    · simp [Seqs.set]
    rw [Seqs.set_of_ne hia, Seqs.set_of_ne hir, Seqs.set_of_ne hit]
    refine hp.lists i ?_ ?_
    · rintro u rfl
      exact hit (congrArg _ ((hlive1 u).mp hi))
    · rintro p hne rfl
      exact hne ((hprocs1 p).mp hi)
  · rw [hq1, Seqs.get_set_of_ne (by decide), Seqs.get_set_same]
  · rw [hq1, Seqs.get_set_same]
  · intro i hir hia
    rw [hq1, Seqs.get_set_of_ne hia, Seqs.get_set_of_ne hir]
    exact get_set_nil hp.empty i
  · rw [hcount, hc.procs, Function.update_self]
    exact hp.count

/-- `init_processes` with a page for the idle thread. -/
theorem wp_initProcesses (hlive : ∀ u, c.live u = false) (hprocs : ∀ p, c.liveProcs p = false)
    (hlog : c.log = []) (hpage : t ≠ c.current) (hold : old.tid ≠ maxTid + 1) :
    Wp listAt (initProcesses init (some (t, old)))
      (fun _ c' q' => Started t init c' q' ∧ c'.current = c.current ∧
        (c'.procs init).numLiveThreads = (c.procs init).numLiveThreads) c fun _ => none := by
  apply Wp.bind
  apply wp_init
  apply Wp.bind
  apply wp_modifyCore
  apply Wp.bind
  apply wp_init
  apply Wp.bind
  apply wp_modifyCore
  apply Wp.bind
  apply Wp.bind
  apply wp_init
  apply Wp.bind
  apply wp_init
  apply Wp.bind
  apply wp_init
  refine wp_generalize (P := Prepared init c) ?_ fun c0 q0 hp => ?_
  · constructor
    · rfl
    · rfl
    · rfl
    · exact ((((silent_changed c.log _ _).trans (silent_changed _ _ _)).trans
        (silent_changed _ _ _)).trans (silent_changed _ _ _)).trans (silent_changed _ _ _)
    · simp [Core.withProc, Core.noteCall, changes, Core.note]
    · intro i hit hip
      cases i with
      | threadWaiters u => exact absurd rfl (hit u)
      | procWaiters p =>
          rcases eq_or_ne p init with rfl | hne
          · simp [Seqs.set]
          · exact absurd rfl (hip p hne)
      | _ => simp [Seqs.set]
    · exact get_set_nil (get_set_nil (get_set_nil (get_set_nil (get_set_nil fun _ => rfl))))
  apply Wp.bind
  apply wp_threadCreate (hp.lists _ (by simp) (by simp))
  · intro i
    rw [hp.empty i]
    exact List.not_mem_nil
  · exact fun h => absurd h hold
  intro tid c1 _ hc
  apply Wp.bind
  apply wp_modifyCore
  apply wp_modifyCore
  apply Wp.bind
  apply wp_modifyCore
  have hcur : c1.current = c.current := hc.current.trans hp.current
  apply wp_insert
  · rw [Seqs.set_of_ne (by decide), Seqs.set_of_ne (by simp)]
    exact hp.lists _ (by simp) (by simp)
  · refine ⟨not_isSentinel_procNode init, fun i hi => ?_⟩
    rcases eq_or_ne i .readyThreads with rfl | hir
    · rw [Seqs.get_set_same, hp.empty] at hi
      simp at hi
    · rw [Seqs.get_set_of_ne hir, get_set_nil hp.empty] at hi
      exact List.not_mem_nil hi
  refine hc.started hp hlive hprocs hlog hpage (fun u => ?_) ?_ rfl ?_ rfl rfl
    (silent_changed _ _ _) ?_ ?_
  · change Thread.state (Function.update c1.threads c1.current _ u) = _
    rw [Function.update_apply, hcur]
    split
    · rfl
    · rfl
  · change Thread.proc (Function.update c1.threads c1.current _ t) = _
    rw [Function.update_of_ne (hcur ▸ hpage)]
    rfl
  · change (c1.procs init).threads 0 = _
    rw [hc.procs]
    simp
  · simp [Core.withProc, Core.withThread, Core.noteCall, changes, Core.note]
  · rw [Seqs.get_set_of_ne (by decide), get_set_nil hp.empty, hp.empty]

end Starting

end Longhorn.ProcessCalls
