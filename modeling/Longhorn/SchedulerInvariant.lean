import Longhorn.ThreadCounts

/-!
What `schedule` and the calls built on it do to the invariant of the scheduler.
-/

namespace Longhorn.SchedulerInvariant

open Longhorn.IntrusiveList
open Longhorn.ListRefinement
open Longhorn.ListPrograms
open Longhorn.ThreadModel
open Longhorn.SchedulerRules
open Longhorn.ThreadCounts

/-- The state between calls: the current thread runs, or it is the boot thread
that has not yet given up the processor. -/
structure SchedInv (boot : Nat) (c : Core) (q : KernelSeqs) : Prop where
  inv : Inv (fun t => t = c.current) c q
  dying : q.get .dyingThreads = []
  running : (c.current = boot ∧ c.state boot = .blocked) ∨
    (c.live c.current = true ∧ c.state c.current = .running ∧
      .node c.current ∉ q.get .blockedThreads)
  boot : c.live boot = false

/-- The running thread may give up the processor: it is not on the ready list, or
it is the first of several there. -/
def MayYield (c : Core) (q : KernelSeqs) : Prop :=
  .node c.current ∉ q.get .readyThreads ∨
    ∃ a rest, q.get .readyThreads = .node c.current :: a :: rest

/-- `schedule` has picked `n`. -/
structure Picked (n : Nat) (c : Core) (q : KernelSeqs) (c' : Core) (q' : KernelSeqs) : Prop where
  inv : Inv (fun t => t = c.current ∨ t = n) c' q'
  next : n ≠ c.current → c'.live n = true ∧ c'.state n = .ready ∧ .node n ∉ q'.get .blockedThreads
  self : n = c.current → c.state c.current = .running
  off : .node c.current ∉ q'.get .readyThreads
  state : c'.state c.current = c.state c.current
  blocked : .node c.current ∈ q'.get .blockedThreads ↔ .node c.current ∈ q.get .blockedThreads
  framed : Framed c q c' q'

section Schedule

variable {boot n : Nat} {c : Core} {q : KernelSeqs}

theorem wp_size {Q : Nat → Core → KernelSeqs → Prop} {i : ListId} (hi : (q i).isSome)
    (h : Q (q.get i).length c q) : Wp listAt (list (.size i)) Q c q :=
  wp_list hi h

theorem wp_first {Q : Option NodeAddr → Core → KernelSeqs → Prop} {i : ListId} {a : NodeAddr}
    {rest : List NodeAddr} (hi : (q i).isSome) (hq : q.get i = a :: rest)
    (h : Q (some a) c q) : Wp listAt (list (.first i)) Q c q := by
  apply wp_list
  · exact ⟨hi, by simp [hq]⟩
  · rw [absExec, hq]
    exact h

theorem wp_isEmpty {Q : Bool → Core → KernelSeqs → Prop} {i : ListId} (hi : (q i).isSome)
    (h : Q (q.get i).isEmpty c q) : Wp listAt (list (.isEmpty i)) Q c q :=
  wp_list hi h

/-- The ready list is empty: the idle thread is next. -/
theorem picked_idle {c1 c' : Core} {q' : KernelSeqs} {i : Nat}
    (h : Inv (fun t => t = c.current) c q)
    (hready : q.get .readyThreads = []) (hl : c.live i = true)
    (hself : i = c.current → c.state c.current = .running) (ha : Alike c c1)
    (hlog : ∀ t, wakeCount t c.log ≤ wakeCount t c1.log)
    (h' : Inv (fun t => t = c.current) c' q') (hw : Woken c1 q c' q')
    (hstate : c1.state i = .blocked → .node i ∈ q.get .blockedThreads → c'.state i = .ready)
    (hstays : ∀ t, t ≠ i → Stays c1 q c' q' t) : Picked i c q c' q' := by
  have hcur : Stays c1 q c' q' c.current := by
    rcases eq_or_ne c.current i with heq | hne
    · refine hw.stays _ ?_
      rw [Core.Sleeps, ha.state, hself heq.symm]
      simp
    · exact hstays _ hne
  constructor
  · exact h'.mono fun t ht => Or.inl ht
  · intro hne
    obtain ⟨_, hin, _⟩ | ⟨hs, _, hin⟩ := h.placed i hl hne
    · rw [hready] at hin
      exact absurd hin List.not_mem_nil
    · have hlive : c'.live i = true := by
        rw [hw.live, ha.live]
        exact hl
      have hs' := hstate ((ha.state i).trans hs) hin
      refine ⟨hlive, hs', ?_⟩
      obtain ⟨_, _, hout⟩ | ⟨hb, _⟩ := h'.placed i hlive hne
      · exact hout
      · rw [hs'] at hb
        exact absurd hb (by decide)
  · exact hself
  · rw [hcur.ready, hready]
    exact List.not_mem_nil
  · rw [hcur.state, ha.state]
  · exact hcur.blocked
  · exact (Framed.of_agree ha rfl rfl (fun _ _ hu => hu) hlog).trans hw.toFramed

/-- The first of the ready list is next. -/
theorem picked_first {c' : Core} {xs rest : List NodeAddr}
    (h : Inv (fun t => t = c.current) c q) (hready : q.get .readyThreads = .node n :: rest)
    (hself : n = c.current → c.state c.current = .running) (ha : Alike c c')
    (hlog : Silent c.log c'.log) (hxs : ∀ a, a ∈ xs → a ∈ q.get .readyThreads)
    (hkeep : ∀ t, t ≠ n → (.node t ∈ xs ↔ .node t ∈ q.get .readyThreads))
    (hoff : .node c.current ∉ xs) : Picked n c q c' (q.set .readyThreads xs) := by
  have hin : .node n ∈ q.get .readyThreads := by
    rw [hready]
    exact List.mem_cons_self
  constructor
  · have hset : Inv (fun t => t = c.current ∨ t = n) c (q.set .readyThreads xs) :=
      h.setNodes trivial (fun a hax => Or.inr (hxs a hax)) hkeep
    exact hset.alike ha fun t b hb => (hlog.release t b).mp hb
  · intro hne
    obtain ⟨t, ht, hl⟩ := h.fits .readyThreads _ hin
    simp only [NodeAddr.node.injEq] at ht
    subst ht
    obtain ⟨hs, _, hout⟩ | ⟨_, hout, _⟩ := h.placed n hl hne
    · rw [ha.live, ha.state, Seqs.get_set_of_ne (by decide)]
      exact ⟨hl, hs, hout⟩
    · exact absurd hin hout
  · exact hself
  · rwa [Seqs.get_set_same]
  · exact ha.state _
  · rw [Seqs.get_set_of_ne (by decide)]
  · refine Framed.of_agree ha ?_ ?_ ?_ fun t => (hlog.wakes t).ge
    · rw [Seqs.get_set_of_ne (by decide)]
    · rw [Seqs.get_set_of_ne (by decide)]
    · exact waits_set fun u hu => hxs _ hu

theorem wp_pickNext (h : Inv (fun t => t = c.current) c q)
    (hyield : MayYield c q)
    (hself : c.state c.current = .running ∨ (.node c.current ∉ q.get .readyThreads ∧
      (c.idleT = some c.current → q.get .readyThreads ≠ []))) :
    Wp listAt pickNext (fun n c' q' => Picked n c q c' q') c q := by
  apply wp_of_apart
  intro hq
  have hlists := h.lists .readyThreads trivial
  apply Wp.bind
  apply wp_size hlists
  rcases hready : q.get .readyThreads with _ | ⟨a, _ | ⟨b, rest⟩⟩
  · rw [if_neg (by simp)]
    apply Wp.bind
    apply wp_pop hlists
    have hsame : q.set .readyThreads (q.get .readyThreads).tail = q := by
      rw [hready, List.tail_nil, ← hready]
      exact set_get_self hlists
    rw [hsame, hready]
    obtain ⟨i, hi, hl⟩ := h.idle
    apply Wp.bind
    apply wp_modifyCore
    obtain ⟨c1, hc1⟩ : ∃ c1, c1 = (c.noteCall (.pop .readyThreads)).note .readyEmpty := ⟨_, rfl⟩
    have ha : Alike c c1 := hc1 ▸ (alike_noteCall c _).trans (alike_note _ _)
    have hlog : Silent c.log c1.log := by
      rw [hc1]
      refine (silent_noteCall c (.pop .readyThreads)).trans ⟨fun t => ?_, fun t b => ?_⟩
      · exact List.countP_cons_of_neg (by simp [Event.wakes])
      · simp [Core.note]
    have h1 : Inv (fun t => t = c.current) c1 q :=
      h.alike ha fun t b hb => (hlog.release t b).mp hb
    rw [← hc1]
    apply Wp.bind
    apply wp_reads
    rw [ha.idleT, hi]
    apply Wp.bind
    refine (wp_threadUnblock h1 (ha.live ▸ hl)).mono ?_
    rintro _ c2 q2 ⟨h2, hw2, hstate, _, hstays⟩
    apply wp_pure
    refine picked_idle h hready hl ?_ ha (fun t => (hlog.wakes t).ge) h2 hw2 hstate hstays
    rintro rfl
    exact hself.resolve_right fun hne => hne.2 hi hready
  · obtain ⟨n, rfl, hl⟩ := h.fits .readyThreads a (by rw [hready]; exact List.mem_cons_self)
    have hne : n ≠ c.current := by
      rintro rfl
      rcases hyield with hout | ⟨a, rest, hfirst⟩
      · rw [hready] at hout
        exact hout List.mem_cons_self
      · simp [hready] at hfirst
    rw [if_pos (by rfl)]
    apply Wp.bind
    apply wp_first hlists hready
    apply wp_pure
    have hoff : .node c.current ∉ q.get .readyThreads := by
      rw [hready]
      simpa using hne.symm
    have hpicked : Picked n c q c (q.set .readyThreads (q.get .readyThreads)) :=
      picked_first h hready (fun heq => absurd heq hne)
        (Alike.refl c) (Silent.refl c.log) (fun _ ha => ha) (fun _ _ => Iff.rfl) hoff
    rwa [set_get_self hlists] at hpicked
  · obtain ⟨n, rfl, hl⟩ := h.fits .readyThreads a (by rw [hready]; exact List.mem_cons_self)
    have hnodup := hq.nodup .readyThreads
    rw [hready, List.nodup_cons] at hnodup
    rw [if_neg (by simp)]
    apply Wp.bind
    apply wp_pop hlists
    rw [hready]
    apply wp_pure
    refine picked_first h hready ?_ (alike_noteCall c _) (silent_noteCall c _) ?_ ?_ ?_
    · rintro rfl
      refine hself.resolve_right fun hout => hout.1 ?_
      rw [hready]
      exact List.mem_cons_self
    · intro a ha
      rw [hready]
      exact List.mem_cons_of_mem _ ha
    · intro t ht
      rw [hready, List.tail_cons, List.mem_cons (b := NodeAddr.node n)]
      simp [ht]
    · rcases hyield with hout | ⟨a, rest', hfirst⟩
      · rw [hready] at hout
        exact fun hin => hout (List.mem_cons_of_mem _ hin)
      · rw [hready, List.cons.injEq] at hfirst
        obtain ⟨heq, _⟩ := hfirst
        rw [List.tail_cons, ← heq]
        exact hnodup.1

end Schedule
section Between

variable {boot x : Nat} {c c' : Core} {q q' : KernelSeqs}

theorem SchedInv.alike (h : SchedInv boot c q) (ha : Alike c c')
    (hrel : ∀ t b, .release t b ∈ c'.log → .release t b ∈ c.log) : SchedInv boot c' q := by
  refine ⟨?_, h.dying, ?_, ?_⟩
  · rw [ha.current]
    exact h.inv.alike ha hrel
  · rw [ha.current, ha.state, ha.state, ha.live]
    exact h.running
  · rw [ha.live]
    exact h.boot

/-- The current thread runs, once the boot thread has gone. -/
theorem SchedInv.current (h : SchedInv boot c q) (hlive : c.live c.current = true) :
    c.state c.current = .running ∧ .node c.current ∉ q.get .blockedThreads := by
  rcases h.running with ⟨heq, _⟩ | ⟨_, hs, hb⟩
  · rw [heq, h.boot] at hlive
    cases hlive
  · exact ⟨hs, hb⟩

/-- No other thread runs. -/
theorem SchedInv.running_iff (h : SchedInv boot c q) (hlive : c.live x = true) :
    c.state x = .running ↔ x = c.current := by
  constructor
  · intro hs
    by_contra hne
    obtain ⟨hr, _⟩ | ⟨hb, _⟩ := h.inv.placed x hlive hne
    · rw [hs] at hr
      cases hr
    · rw [hs] at hb
      cases hb
  · rintro rfl
    exact (h.current hlive).1

theorem SchedInv.awake (h : SchedInv boot c q) : ¬ Core.Sleeps c c.current := by
  rintro ⟨hs, hl⟩
  rw [(h.current hl).1] at hs
  cases hs

theorem alike_ticked (c : Core) (ticks threadTicks : Nat) :
    Alike c { c.withThread c.current fun ti => { ti with ticks := ticks } with
      threadTicks := threadTicks } := by
  have hthread : ∀ w, ((c.withThread c.current fun ti => { ti with ticks := ticks }).threads w) =
      { c.threads w with ticks := if w = c.current then ticks else (c.threads w).ticks } := by
    intro w
    rw [Core.withThread]
    rcases eq_or_ne w c.current with rfl | hne
    · simp
    · simp [hne]
  constructor
  · exact fun w => (congrArg Thread.state (hthread w)).trans rfl
  · exact fun w => (congrArg Thread.proc (hthread w)).trans rfl
  · exact fun w => (congrArg Thread.childNum (hthread w)).trans rfl
  · rfl
  · rfl
  · rfl
  · rfl
  · rfl

/-- What does not touch the current thread keeps the invariant. -/
theorem SchedInv.of_current (h : SchedInv boot c q) (h' : Inv (fun t => t = c.current) c' q')
    (hcurrent : c'.current = c.current) (hdying : q'.get .dyingThreads = q.get .dyingThreads)
    (hstate : c'.state c.current = c.state c.current)
    (hblocked : .node c.current ∈ q'.get .blockedThreads → .node c.current ∈ q.get .blockedThreads)
    (hlive : c'.live c.current = c.live c.current)
    (hboot : c'.live boot = true → c.live boot = true) : SchedInv boot c' q' := by
  refine ⟨?_, hdying.trans h.dying, ?_, ?_⟩
  · rw [hcurrent]
    exact h'
  · rw [hcurrent, hlive, hstate]
    rcases h.running with ⟨heq, hb⟩ | ⟨hl, hr, hb⟩
    · refine Or.inl ⟨heq, ?_⟩
      rw [← heq] at hb ⊢
      exact hstate.trans hb
    · exact Or.inr ⟨hl, hr, fun hin => hb (hblocked hin)⟩
  · rw [← Bool.not_eq_true]
    intro hl
    rw [h.boot] at hboot
    cases hboot hl

/-- Waking threads keeps the invariant. -/
theorem SchedInv.woken (h : SchedInv boot c q) (h' : Inv (fun t => t = c.current) c' q')
    (hw : Woken c q c' q') : SchedInv boot c' q' := by
  have hs := hw.stays c.current h.awake
  refine h.of_current h' hw.current hw.dying hs.state hs.blocked.mp ?_ fun hl => ?_
  · rw [hw.live]
  · rwa [hw.live] at hl

end Between

section Switching

variable {boot n x : Nat} {c c' : Core} {q q' : KernelSeqs}

/-- The cores and lists agree on all that makes the thread ready to be cleaned up. -/
theorem doomed_congr (h : Doomed x c q) (hstate : c'.state x = c.state x)
    (hprocOf : ∀ t, c'.procOf t = c.procOf t)
    (hcount : ∀ p, (c'.procs p).numLiveThreads = (c.procs p).numLiveThreads)
    (hlive : c'.live = c.live) (hidle : c'.idleT = c.idleT)
    (hoff : ∀ i, .node x ∉ q'.get i)
    (hwaits : ∀ i, .waitNode x ∈ q'.get i → .waitNode x ∈ q.get i)
    (hwaiters : q'.get (.threadWaiters x) = []) : Doomed x c' q' := by
  have hends : Core.EndsProc c' x ↔ Core.EndsProc c x := by
    rw [Core.EndsProc, Core.EndsProc, hprocOf, hcount]
  constructor
  · rw [hlive]
    exact h.live
  · rw [hstate]
    exact h.state
  · exact hoff
  · intro i hi
    rw [hprocOf, hends]
    exact h.waits i (hwaits i hi)
  · exact hwaiters
  · intro hend t ht heq
    rw [hlive] at ht
    rw [hprocOf, hprocOf] at heq
    exact h.last (hends.mp hend) t ht heq
  · rw [hidle]
    exact h.notIdle

/-- The current thread is marked as running. -/
structure NowRuns (c c1 : Core) : Prop where
  state : ∀ t, c1.state t = (c.setState c.current .running).state t
  procOf : ∀ t, c1.procOf t = c.procOf t
  childNum : ∀ t, (c1.threads t).childNum = (c.threads t).childNum
  slots : ∀ p, (c1.procs p).threads = (c.procs p).threads
  counts : ∀ p, (c1.procs p).numLiveThreads = (c.procs p).numLiveThreads
  current : c1.current = c.current
  idleT : c1.idleT = c.idleT
  live : c1.live = c.live
  liveProcs : c1.liveProcs = c.liveProcs
  threadTicks : c1.threadTicks = c.threadTicks
  log : Silent c.log c1.log

theorem nowRuns_active (c : Core) (p : Nat) (f : Process → Option Nat) :
    NowRuns c ((c.setState c.current .running).withProc p fun proc =>
      { proc with activeThread := f proc }) := by
  have hproc : ∀ r : Nat,
      (((c.setState c.current .running).withProc p fun proc =>
        { proc with activeThread := f proc }).procs r).threads = (c.procs r).threads ∧
      (((c.setState c.current .running).withProc p fun proc =>
        { proc with activeThread := f proc }).procs r).numLiveThreads =
          (c.procs r).numLiveThreads := by
    intro r
    simp only [Core.withProc, Function.update_apply]
    split
    · next heq =>
        rw [heq]
        exact ⟨rfl, rfl⟩
    · exact ⟨rfl, rfl⟩
  constructor
  · exact fun _ => rfl
  · exact fun t => procOf_setState c c.current t .running
  · exact fun t => childNum_setState c c.current t .running
  · exact fun r => (hproc r).1
  · exact fun r => (hproc r).2
  · rfl
  · rfl
  · rfl
  · rfl
  · rfl
  · exact silent_setState c c.current .running

theorem NowRuns.running {c1 : Core} (h : NowRuns c c1) : c1.state c1.current = .running := by
  rw [h.current, h.state]
  exact state_setState c _ _

theorem NowRuns.carried {c1 : Core} (h : NowRuns c c1) (hstate : c.state c.current ≠ .blocked) :
    Carried c q c1 q :=
  Carried.of_keep (later_setState hstate .running h.state h.live h.log) (fun _ _ hu => hu)
    h.procOf h.childNum h.slots h.counts h.live h.liveProcs rfl

theorem NowRuns.inv {out : Nat → Prop} {c1 : Core} (h : NowRuns c c1) (hinv : Inv out c q)
    (hout : out c.current) : Inv out c1 q := by
  refine ⟨fun i hi => ?_, fun i hi => ?_, fun i a ha => ?_, fun t ht hn => ?_, ?_, fun t ht => ?_,
    fun t b hb => hinv.released t b ((h.log.release t b).mp hb)⟩
  · exact hinv.lists i ((accessible_congr h.live h.liveProcs i).mp hi)
  · exact hinv.stale i fun hi' => hi ((accessible_congr h.live h.liveProcs i).mpr hi')
  · exact (fits_congr h.live h.liveProcs i a).mpr (hinv.fits i a ha)
  · have hne : t ≠ c.current := by
      rintro rfl
      exact hn hout
    rw [h.live] at ht
    rw [Placed, h.state, state_setState_of_ne hne]
    exact hinv.placed t ht hn
  · rw [h.idleT, h.live]
    exact hinv.idle
  · rw [h.live] at ht
    rw [h.liveProcs, h.procOf]
    exact hinv.procs t ht

theorem wp_modifyCore_of {P : Core → Prop} {f : Core → Core}
    {Q : Unit → Core → KernelSeqs → Prop} (hP : P (f c)) (h : ∀ c1, P c1 → Q () c1 q) :
    Wp listAt (modifyCore f) Q c q :=
  wp_modifyCore (h (f c) hP)

theorem wp_enableInterrupts {Q : Unit → Core → KernelSeqs → Prop}
    (h : Q () (c.withInterrupts true) q) : Wp listAt enableInterrupts Q c q :=
  wp_modifyCore h

/-- `finish_schedule`: the current thread runs, and then the thread that has ended is cleaned up,
if there is one. -/
theorem wp_finishSchedule_cases {Q : Unit → Core → KernelSeqs → Prop}
    (hlist : (q .dyingThreads).isSome)
    (h : ∀ c1, NowRuns c c1 →
      (q.get .dyingThreads = [] ∧ Q () (c1.withInterrupts true) q) ∨
      ∃ d, q.get .dyingThreads = [.node d] ∧ ∀ c2, Alike c1 c2 → Silent c1.log c2.log →
        Wp listAt (threadCleanup d) (fun _ c' q' => Q () (c'.withInterrupts true) q') c2
          (q.set .dyingThreads [])) :
    Wp listAt finishSchedule Q c q := by
  apply Wp.bind
  apply wp_reads
  apply Wp.bind
  apply wp_modifyCore
  apply Wp.bind
  apply wp_reads
  apply Wp.bind
  apply wp_reads
  apply Wp.bind
  refine wp_modifyCore_of (P := NowRuns c) (nowRuns_active c _ _) fun c1 hr => ?_
  apply Wp.bind
  apply wp_isEmpty hlist
  rcases h c1 hr with ⟨hnil, hQ⟩ | ⟨d, hd, hclean⟩
  · rw [hnil, if_neg (by simp)]
    exact wp_enableInterrupts hQ
  · rw [hd, if_pos (by simp)]
    apply Wp.bind
    apply wp_modifyCore
    apply Wp.bind
    apply wp_pop hlist
    rw [hd, List.tail_cons]
    apply Wp.bind
    apply wp_pure
    apply Wp.bind
    refine (hclean _ ((alike_withInterrupts c1 false).trans (alike_noteCall _ _))
      (silent_noteCall (c1.withInterrupts false) (.pop .dyingThreads))).mono ?_
    intro _ c' q' hQ
    exact wp_enableInterrupts hQ

/-- The other side of the switch, when no thread is to be cleaned up. -/
theorem wp_finishSchedule_idle {Q : Unit → Core → KernelSeqs → Prop}
    (hlist : (q .dyingThreads).isSome) (hdying : q.get .dyingThreads = [])
    (h : ∀ c', NowRuns c c' → Q () c' q) : Wp listAt finishSchedule Q c q := by
  refine wp_finishSchedule_cases hlist fun c1 hr => Or.inl ⟨hdying, h _ ?_⟩
  exact ⟨hr.state, hr.procOf, hr.childNum, hr.slots, hr.counts, hr.current, hr.idleT, hr.live,
    hr.liveProcs, hr.threadTicks, hr.log⟩

/-- `finish_schedule` behind a switch: the current thread runs, and the thread that has
ended is cleaned up. -/
theorem wp_finishSchedule
    (h : Inv (fun t => t = c.current ∨ .node t ∈ q.get .dyingThreads) c q)
    (hlive : c.live c.current = true) (hstate : c.state c.current ≠ .blocked)
    (hblocked : .node c.current ∉ q.get .blockedThreads) (hboot : c.live boot = false)
    (hdying : q.get .dyingThreads = [] ∨ ∃ d, d ≠ c.current ∧
      q.get .dyingThreads = [.node d] ∧ Doomed d c (q.set .dyingThreads [])) :
    Wp listAt finishSchedule (fun _ c' q' => SchedInv boot c' q' ∧ Carried c q c' q' ∧
      c'.current = c.current ∧
      (q.get .dyingThreads = [] → ∀ t, t ≠ c.current → Stays c q c' q' t)) c q := by
  refine wp_finishSchedule_cases (h.lists .dyingThreads trivial) fun c1 hr => ?_
  have h1 := hr.inv h (Or.inl rfl)
  have hlive1 : c1.live c1.current = true := by
    rw [hr.live, hr.current]
    exact hlive
  have hboot1 : c1.live boot = false := by
    rw [hr.live]
    exact hboot
  rcases hdying with hnil | ⟨d, hne, hd, hdoomed⟩
  · have ha := alike_withInterrupts c1 true
    refine Or.inl ⟨hnil, ⟨?_, hnil, Or.inr ⟨hlive1, hr.running, ?_⟩, hboot1⟩,
      (hr.carried hstate).trans (Carried.of_framed ?_), hr.current, fun _ t ht => ?_⟩
    · refine (h1.mono fun t ht => ?_).alike ha fun t b hb => hb
      rw [hnil] at ht
      exact (ht.resolve_right List.not_mem_nil).trans hr.current.symm
    · change NodeAddr.node c1.current ∉ _
      rwa [hr.current]
    · exact Framed.of_agree ha rfl rfl (fun _ _ hu => hu) fun _ => le_rfl
    · exact ⟨(hr.state t).trans (state_setState_of_ne ht _), Iff.rfl, Iff.rfl⟩
  · refine Or.inr ⟨d, hd, fun c2 ha2 hlog2 => ?_⟩
    have hset : Inv (fun t => t = c2.current ∨ t = d) c2 (q.set .dyingThreads []) := by
      have hsub := h1.setNodes (u := d) (i := .dyingThreads) (l := []) trivial
        (fun a ha => absurd ha List.not_mem_nil) ?_
      · refine (hsub.mono ?_).alike ha2 fun t b hb => (hlog2.release t b).mp hb
        rintro t ((ht | ht) | ht)
        · exact Or.inl (ht.trans (ha2.current.trans hr.current).symm)
        · rw [hd, List.mem_singleton, NodeAddr.node.injEq] at ht
          exact Or.inr ht
        · exact Or.inr ht
      · intro t ht
        rw [hd]
        simp [ht]
    have hdoomed2 : Doomed d c2 (q.set .dyingThreads []) := by
      refine doomed_congr hdoomed ?_ (fun t => ?_) (fun p => ?_) ?_ ?_ hdoomed.off
        (fun _ hi => hi) hdoomed.waiters
      · rw [ha2.state, hr.state, state_setState_of_ne hne]
      · rw [ha2.procOf, hr.procOf]
      · rw [ha2.procs, hr.counts]
      · rw [ha2.live, hr.live]
      · rw [ha2.idleT, hr.idleT]
    refine (wp_threadCleanup hset hdoomed2).mono ?_
    rintro _ c3 q3 ⟨hinv3, hcleaned⟩
    have hcurrent3 : c3.current = c1.current := hcleaned.current.trans ha2.current
    have hstays : Stays c2 (q.set .dyingThreads []) c3 q3 c1.current := by
      refine hcleaned.stays _ ?_
      rw [Core.Sleeps, ha2.state, hr.running]
      simp
    have ha3 := alike_withInterrupts c3 true
    refine ⟨⟨?_, ?_, Or.inr ⟨?_, ?_, ?_⟩, ?_⟩, ?_, hcurrent3.trans hr.current,
      fun hnil => absurd (hd.symm.trans hnil) (List.cons_ne_nil _ _)⟩
    · refine (hinv3.mono fun t ht => ?_).alike ha3 fun t b hb => hb
      exact ht.trans hcleaned.current.symm
    · rw [hcleaned.dying, Seqs.get_set_same]
    · change c3.live c3.current = true
      rw [hcleaned.live, hcurrent3, Function.update_of_ne, ha2.live]
      · exact hlive1
      · rw [hr.current]
        exact hne.symm
    · change c3.state c3.current = .running
      rw [hcurrent3, hstays.state, ha2.state]
      exact hr.running
    · change NodeAddr.node c3.current ∉ _
      rw [hcurrent3, hstays.blocked, Seqs.get_set_of_ne (by decide), hr.current]
      exact hblocked
    · change c3.live boot = false
      rw [hcleaned.live, ha2.live, Function.update_apply]
      split
      · rfl
      · exact hboot1
    · have hpopped : Carried c1 q c2 (q.set .dyingThreads []) := by
        refine Carried.of_keep (Later.of_alike ha2 fun t => (hlog2.wakes t).ge) ?_ ha2.procOf
          ha2.childNum (fun p => ?_) (fun p => ?_) ha2.live ha2.liveProcs ?_
        · exact waits_set fun u hu => absurd hu List.not_mem_nil
        · rw [ha2.procs]
        · rw [ha2.procs]
        · rw [Seqs.get_set_of_ne (by decide)]
      have hlast : Carried c3 q3 (c3.withInterrupts true) q3 := Carried.of_framed
        (Framed.of_agree ha3 rfl rfl (fun _ _ hu => hu) fun _ => le_rfl)
      exact (((hr.carried hstate).trans hpopped).trans
        (Carried.of_cleaned hset hdoomed2 hcleaned)).trans hlast

/-- A running thread goes to the end of the ready list. -/
theorem wp_requeue_running {Q : Unit → Core → KernelSeqs → Prop} (hstate : c.state x = .running)
    (hlist : (q .readyThreads).isSome) (hoff : ∀ i, .node x ∉ q.get i)
    (h : Q () ((c.setState x .ready).noteCall (.insertEnd .readyThreads (.node x)))
      (q.set .readyThreads (q.get .readyThreads ++ [.node x]))) :
    Wp listAt (requeue x) Q c q := by
  apply Wp.bind
  apply wp_reads
  rw [if_pos hstate]
  apply Wp.bind
  apply wp_modifyCore
  apply Wp.bind
  apply wp_reads
  rw [state_setState, if_neg (by decide)]
  apply Wp.bind
  apply wp_reads
  rw [state_setState, if_pos rfl]
  exact wp_insertEnd hlist ⟨not_isSentinel_node x, hoff⟩ h

theorem wp_dispatch_switch {Q : Flow → Core → KernelSeqs → Prop} (hne : x ≠ n)
    (hready : c.state n = .ready)
    (h : Wp listAt finishSchedule (fun _ c' q' => Q .switched c' q') (c.switchTo n) q) :
    Wp listAt (dispatch x n) Q c q := by
  apply Wp.bind
  apply wp_reads
  rw [if_neg (fun heq => hne heq.1)]
  apply Wp.bind
  apply wp_reads
  rw [if_neg (by simp [hne, hready])]
  apply Wp.bind
  apply wp_modifyCore
  apply Wp.bind
  exact h.mono fun _ _ _ hQ => wp_pure hQ

/-- A blocked thread stays where it is. -/
theorem wp_requeue_blocked {Q : Unit → Core → KernelSeqs → Prop} (hstate : c.state x = .blocked)
    (h : Q () c q) : Wp listAt (requeue x) Q c q := by
  apply Wp.bind
  apply wp_reads
  rw [hstate, if_neg (by decide)]
  apply Wp.bind
  apply wp_reads
  rw [hstate, if_neg (by decide)]
  apply Wp.bind
  apply wp_reads
  rw [hstate, if_neg (by decide)]
  exact wp_pure h

/-- A dying thread goes to the dying list. -/
theorem wp_requeue_dying {Q : Unit → Core → KernelSeqs → Prop} (hstate : c.state x = .dying)
    (hlist : (q .dyingThreads).isSome) (hoff : ∀ i, .node x ∉ q.get i)
    (h : Q () (c.noteCall (.insert .dyingThreads (.node x)))
      (q.set .dyingThreads (.node x :: q.get .dyingThreads))) :
    Wp listAt (requeue x) Q c q := by
  apply Wp.bind
  apply wp_reads
  rw [hstate, if_neg (by decide)]
  apply Wp.bind
  apply wp_reads
  rw [hstate, if_pos rfl]
  apply Wp.bind
  apply wp_insert hlist ⟨not_isSentinel_node x, hoff⟩
  apply Wp.bind
  apply wp_reads
  rw [(alike_noteCall c _).state, hstate, if_neg (by decide)]
  exact wp_pure h

/-- The switch to another thread. -/
theorem wp_dispatch_other
    (h : Inv (fun t => t = n ∨ .node t ∈ q.get .dyingThreads) c q) (hne : x ≠ n)
    (hlive : c.live n = true) (hready : c.state n = .ready)
    (hblocked : .node n ∉ q.get .blockedThreads) (hboot : c.live boot = false)
    (hdying : q.get .dyingThreads = [] ∨ ∃ d, d ≠ n ∧
      q.get .dyingThreads = [.node d] ∧ Doomed d c (q.set .dyingThreads [])) :
    Wp listAt (dispatch x n) (fun flow c' q' => flow = .switched ∧ SchedInv boot c' q' ∧
      Carried c q c' q' ∧ c'.current = n ∧
      (q.get .dyingThreads = [] → ∀ t, t ≠ n → Stays c q c' q' t)) c q := by
  apply wp_dispatch_switch hne hready
  have hinv : Inv (fun t => t = n ∨ .node t ∈ q.get .dyingThreads) (c.switchTo n) q :=
    ⟨h.lists, h.stale, h.fits, h.placed, h.idle, h.procs, h.released⟩
  have hcarried : Carried c q (c.switchTo n) q :=
    Carried.of_keep ⟨fun _ => le_rfl, fun _ hs hl _ => ⟨hs, hl⟩⟩ (fun _ _ hu => hu)
      (fun _ => rfl) (fun _ => rfl)
      (fun _ => rfl) (fun _ => rfl) rfl rfl rfl
  refine (wp_finishSchedule (c := c.switchTo n) hinv hlive ?_ hblocked hboot ?_).mono ?_
  · change c.state n ≠ .blocked
    rw [hready]
    decide
  · rcases hdying with hnil | ⟨d, hdn, hd, hdoomed⟩
    · exact Or.inl hnil
    · refine Or.inr ⟨d, hdn, hd, doomed_congr hdoomed rfl (fun _ => rfl) (fun _ => rfl) rfl rfl
        hdoomed.off (fun _ hi => hi) hdoomed.waiters⟩
  · rintro _ c' q' ⟨hsched, hcarried', hcurrent, hstays⟩
    refine ⟨rfl, hsched, hcarried.trans hcarried', hcurrent, fun hnil t ht => ?_⟩
    obtain ⟨hs, hr, hb⟩ := hstays hnil t ht
    exact ⟨hs, hr, hb⟩

theorem Picked.detached (h : Picked n c q c' q') (hdying : q.get .dyingThreads = [])
    (hblocked : .node c.current ∉ q.get .blockedThreads) :
    ∀ i, .node c.current ∉ q'.get i := by
  refine (h.inv.detached_node h.off ?_ ?_).2
  · rwa [h.blocked]
  · rw [h.framed.dying, hdying]
    exact List.not_mem_nil

/-- `schedule` leaves the only ready thread on its list. -/
theorem wp_pickNext_one {Q : Nat → Core → KernelSeqs → Prop}
    (hlist : (q .readyThreads).isSome) (hready : q.get .readyThreads = [.node n])
    (h : Q n c q) : Wp listAt pickNext Q c q := by
  apply Wp.bind
  apply wp_size hlist
  rw [hready, if_pos (by rfl)]
  apply Wp.bind
  apply wp_first hlist hready
  exact wp_pure h

/-- `schedule` pops when more than one thread is ready. -/
theorem wp_pickNext_several {Q : Nat → Core → KernelSeqs → Prop} {a : NodeAddr}
    {rest : List NodeAddr} (hlist : (q .readyThreads).isSome)
    (hready : q.get .readyThreads = .node n :: a :: rest)
    (h : Q n (c.noteCall (.pop .readyThreads)) (q.set .readyThreads (a :: rest))) :
    Wp listAt pickNext Q c q := by
  apply Wp.bind
  apply wp_size hlist
  rw [hready, if_neg (by simp)]
  apply Wp.bind
  apply wp_pop hlist
  rw [hready]
  exact wp_pure h

/-- `schedule` up to its choice of the next thread. -/
theorem wp_schedule_of {Q : Flow → Core → KernelSeqs → Prop} (h : Inv (fun t => t = c.current) c q)
    (hyield : MayYield c q)
    (hself : c.state c.current = .running ∨ (.node c.current ∉ q.get .readyThreads ∧
      (c.idleT = some c.current → q.get .readyThreads ≠ [])))
    (hrest : ∀ n c' q', Picked n c q c' q' →
      Wp listAt (do requeue c.current; dispatch c.current n) Q c' q') :
    Wp listAt schedule Q c q := by
  apply Wp.bind
  apply wp_modifyCore
  have ha := alike_withInterrupts c false
  have h0 : Inv (fun t => t = (c.withInterrupts false).current) (c.withInterrupts false) q :=
    h.alike ha fun _ _ hb => hb
  apply Wp.bind
  refine (wp_pickNext h0 hyield hself).mono ?_
  intro n c1 q1 hp
  have hpicked : Picked n c q c1 q1 := by
    refine ⟨hp.inv, hp.next, hp.self, hp.off, hp.state, hp.blocked, ?_⟩
    exact (Framed.of_agree ha rfl rfl (fun _ _ hu => hu) fun _ => le_rfl).trans hp.framed
  apply Wp.bind
  apply wp_reads
  rw [show c1.current = c.current from hpicked.framed.current]
  exact hrest n c1 q1 hpicked

/-- `schedule` called by the running thread. -/
theorem wp_schedule_running (h : Inv (fun t => t = c.current) c q)
    (hdying : q.get .dyingThreads = []) (hlive : c.live c.current = true)
    (hstate : c.state c.current = .running) (hblocked : .node c.current ∉ q.get .blockedThreads)
    (hboot : c.live boot = false) (hyield : MayYield c q) :
    Wp listAt schedule (fun _ c' q' => SchedInv boot c' q' ∧ Carried c q c' q') c q := by
  apply wp_schedule_of h hyield (Or.inl hstate)
  intro n c1 q1 hp
  have hcurrent1 : c1.current = c.current := hp.framed.current
  have hoff1 : ∀ i, .node c.current ∉ q1.get i := hp.detached hdying hblocked
  have hlive1 : c1.live = c.live := hp.framed.live
  have hdying1 : q1.get .dyingThreads = [] := hp.framed.dying.trans hdying
  have hstate1 : c1.state c.current = .running := hp.state.trans hstate
  apply Wp.bind
  apply wp_requeue_running hstate1 (hp.inv.lists .readyThreads trivial) hoff1
  obtain ⟨c2, hc2⟩ : ∃ c2, c2 = (c1.setState c.current .ready).noteCall
    (.insertEnd .readyThreads (.node c.current)) := ⟨_, rfl⟩
  obtain ⟨q2, hq2⟩ : ∃ q2, q2 =
    q1.set .readyThreads (q1.get .readyThreads ++ [.node c.current]) := ⟨_, rfl⟩
  have ha2 : Alike (c1.setState c.current .ready) c2 := hc2 ▸ alike_noteCall _ _
  have hlog2 : Silent c1.log c2.log := by
    rw [hc2]
    exact (silent_setState c1 c.current .ready).trans (silent_noteCall _ _)
  rw [← hc2, ← hq2]
  have hget2 : ∀ i, i ≠ .readyThreads → q2.get i = q1.get i := by
    intro i hi
    rw [hq2, Seqs.get_set_of_ne hi]
  have hready2 : q2.get .readyThreads = q1.get .readyThreads ++ [.node c.current] := by
    rw [hq2, Seqs.get_set_same]
  have hstate2 : ∀ t, c2.state t = (c1.setState c.current .ready).state t := ha2.state
  have hlive2 : c2.live = c.live := ha2.live.trans hlive1
  have hcarried2 : Carried c1 q1 c2 q2 := by
    refine Carried.of_setState ?_ ha2 hlog2 ?_ (hget2 _ (by decide))
    · rw [hstate1]
      decide
    · rw [hq2]
      exact waits_set fun u hu => by simpa using hu
  have hinv2 : Inv (fun t => t = n) c2 q2 := by
    have hset : Inv (fun t => t = n ∨ t = c.current) c2 q2 := by
      have hnodes := (hp.inv.setState (u := c.current) .ready).setNodes (u := c.current)
        (i := .readyThreads) (l := q1.get .readyThreads ++ [.node c.current]) trivial ?_ ?_
      · rw [← hq2] at hnodes
        refine (hnodes.mono ?_).alike ha2 fun t b hb => ?_
        · rintro t (((ht | ht) | ht) | ht)
          · exact Or.inr ht
          · exact Or.inl ht
          · exact Or.inr ht
          · exact Or.inr ht
        · rw [hc2] at hb
          exact ((silent_noteCall _ _).release t b).mp hb
      · intro a ha'
        rcases List.mem_append.mp ha' with ha' | ha'
        · exact Or.inr ha'
        · refine Or.inl ⟨List.mem_singleton.mp ha', ?_⟩
          change c1.live c.current = true
          rwa [hlive1]
      · intro t ht
        rw [List.mem_append]
        simp [ht]
    refine hset.put fun _ => Or.inl ⟨?_, ?_, ?_⟩
    · rw [hstate2]
      exact state_setState c1 _ _
    · rw [hready2]
      simp
    · rw [hget2 _ (by decide)]
      exact hoff1 _
  have hcarried : Carried c q c2 q2 := (Carried.of_framed hp.framed).trans hcarried2
  rcases eq_or_ne c.current n with heq | hne
  · subst heq
    have hcurrent2 : c2.current = c.current := ha2.current.trans hcurrent1
    apply Wp.bind
    apply wp_reads
    rw [hstate2, state_setState, if_neg (by simp)]
    apply Wp.bind
    apply wp_reads
    rw [if_pos (Or.inl rfl)]
    apply Wp.bind
    apply wp_modifyCore
    apply Wp.bind
    apply wp_modifyCore
    apply wp_pure
    have hreadied : c2.state c.current ≠ .blocked := by
      rw [hstate2, state_setState]
      decide
    refine ⟨⟨?_, ?_, Or.inr ⟨?_, ?_, ?_⟩, ?_⟩, hcarried.trans ?_⟩
    · refine (Inv.mono (hinv2.setState .running) ?_).alike (alike_withInterrupts _ true)
        fun _ _ hb => hb
      rintro t (ht | ht)
      · exact ht.trans hcurrent2.symm
      · exact ht.trans hcurrent2.symm
    · rwa [hget2 _ (by decide)]
    · change c2.live c2.current = true
      rwa [hcurrent2, hlive2]
    · change (c2.setState c.current .running).state c2.current = .running
      rw [hcurrent2]
      exact state_setState _ _ _
    · change NodeAddr.node c2.current ∉ _
      rw [hcurrent2, hget2 _ (by decide)]
      exact hoff1 _
    · change c2.live boot = false
      rwa [hlive2]
    · exact Carried.of_setState hreadied
        (alike_withInterrupts (c2.setState c.current .running) true)
        (silent_setState c2 c.current .running) (fun _ _ hu => hu) rfl
  · obtain ⟨hn, hnready, hnblocked⟩ := hp.next hne.symm
    have hboot2 : c2.live boot = false := by rwa [hlive2]
    refine (wp_dispatch_other (hinv2.mono fun t ht => Or.inl ht) hne ?_ ?_ ?_ hboot2
      (Or.inl ?_)).mono ?_
    · rw [hlive2, ← hlive1]
      exact hn
    · rw [hstate2, state_setState_of_ne hne.symm]
      exact hnready
    · rwa [hget2 _ (by decide)]
    · rwa [hget2 _ (by decide)]
    · rintro flow c3 q3 ⟨_, hsched, hcarried3, _, _⟩
      exact ⟨hsched, hcarried.trans hcarried3⟩

/-- `schedule` called by a thread that does not want to go on: it is blocked, or it is the
boot thread. -/
theorem wp_schedule_blocked (h : Inv (fun t => t = c.current) c q)
    (hdying : q.get .dyingThreads = []) (hplaced : c.live c.current = true → Placed c q c.current)
    (hstate : c.state c.current = .blocked) (hready : .node c.current ∉ q.get .readyThreads)
    (hboot : c.live boot = false) (hidle : c.idleT = some c.current → q.get .readyThreads ≠ []) :
    Wp listAt schedule (fun flow c' q' => flow = .switched ∧ SchedInv boot c' q' ∧
      Carried c q c' q' ∧ c'.current ≠ c.current ∧ c'.state c.current = .blocked ∧
      (.node c.current ∈ q.get .blockedThreads → c'.live c.current = true)) c q := by
  apply wp_schedule_of h (Or.inl hready) (Or.inr ⟨hready, hidle⟩)
  intro n c1 q1 hp
  have hstate1 : c1.state c.current = .blocked := hp.state.trans hstate
  have hlive1 : c1.live = c.live := hp.framed.live
  have hdying1 : q1.get .dyingThreads = [] := hp.framed.dying.trans hdying
  have hne : n ≠ c.current := by
    rintro rfl
    have hrun : c.state c.current = .running := hp.self rfl
    rw [hstate] at hrun
    cases hrun
  apply Wp.bind
  apply wp_requeue_blocked hstate1
  obtain ⟨hn, hnready, hnblocked⟩ := hp.next hne
  have hinv1 : Inv (fun t => t = n) c1 q1 := by
    have hor : Inv (fun t => t = n ∨ t = c.current) c1 q1 := hp.inv.mono fun t ht => ht.symm
    have hput : Inv (fun t => t = n ∨ t = c.current) c1 q1 := hor
    by_cases hl : c.live c.current = true
    · refine hput.put fun _ => Or.inr ⟨hstate1, hp.off, ?_⟩
      obtain ⟨hs, _⟩ | ⟨_, _, hin⟩ := hplaced hl
      · rw [hstate] at hs
        cases hs
      · exact hp.blocked.mpr hin
    · refine ⟨hor.lists, hor.stale, hor.fits, fun t ht hn => hor.placed t ht ?_, hor.idle,
        hor.procs, hor.released⟩
      rintro (htn | rfl)
      · exact hn htn
      · rw [hlive1] at ht
        exact hl ht
  have hboot1 : c1.live boot = false := by rwa [hlive1]
  refine (wp_dispatch_other (hinv1.mono fun t ht => Or.inl ht) hne.symm hn hnready
    hnblocked hboot1 (Or.inl hdying1)).mono ?_
  · rintro flow c3 q3 ⟨hflow, hsched, hcarried3, hcurrent, hstays⟩
    have hstay := hstays hdying1 _ hne.symm
    refine ⟨hflow, hsched, (Carried.of_framed hp.framed).trans hcarried3, ?_,
      hstay.state.trans hstate1, fun hin => ?_⟩
    · rwa [hcurrent]
    · obtain ⟨u, hu, hl⟩ :=
        hsched.inv.fits .blockedThreads _ (hstay.blocked.mpr (hp.blocked.mpr hin))
      rw [NodeAddr.node.injEq] at hu
      exact hu ▸ hl

/-- `schedule` called by a thread that has ended. -/
theorem wp_schedule_dying (h : Inv (fun t => t = c.current) c q)
    (hdying : q.get .dyingThreads = []) (hdoomed : Doomed c.current c q)
    (hboot : c.live boot = false) :
    Wp listAt schedule (fun flow c' q' => flow = .switched ∧ SchedInv boot c' q' ∧
      Carried c q c' q' ∧ c'.current ≠ c.current) c q := by
  apply wp_schedule_of h (Or.inl (hdoomed.off _))
    (Or.inr ⟨hdoomed.off _, fun hi => absurd hi hdoomed.notIdle⟩)
  intro n c1 q1 hp
  have hlive1 : c1.live = c.live := hp.framed.live
  have hdying1 : q1.get .dyingThreads = [] := hp.framed.dying.trans hdying
  have hlist1 : (q1 .dyingThreads).isSome := hp.inv.lists .dyingThreads trivial
  have hstate1 : c1.state c.current = .dying := hp.state.trans hdoomed.state
  have hoff1 : ∀ i, .node c.current ∉ q1.get i := hp.detached hdying (hdoomed.off _)
  have hdoomed1 : Doomed c.current c1 q1 := by
    refine doomed_congr hdoomed hp.state hp.framed.procOf (fun p => ?_) hlive1 hp.framed.idleT hoff1
      (fun i hi => hp.framed.waits i _ hi) (hp.inv.nil_of_framed hp.framed trivial hdoomed.waiters)
    rw [hp.framed.procs]
  have hne : n ≠ c.current := by
    rintro rfl
    have hrun : c.state c.current = .running := hp.self rfl
    rw [hdoomed.state] at hrun
    cases hrun
  obtain ⟨hn, hnready, hnblocked⟩ := hp.next hne
  apply Wp.bind
  apply wp_requeue_dying hstate1 hlist1 hoff1
  obtain ⟨c2, hc2⟩ : ∃ c2, c2 = c1.noteCall (.insert .dyingThreads (.node c.current)) := ⟨_, rfl⟩
  obtain ⟨q2, hq2⟩ : ∃ q2, q2 = q1.set .dyingThreads [.node c.current] := ⟨_, rfl⟩
  rw [hdying1, ← hc2, ← hq2]
  have ha2 : Alike c1 c2 := hc2 ▸ alike_noteCall _ _
  have hlog2 : Silent c1.log c2.log := hc2 ▸ silent_noteCall _ _
  have hdying2 : q2.get .dyingThreads = [.node c.current] := by
    rw [hq2, Seqs.get_set_same]
  have hget2 : ∀ i, i ≠ .dyingThreads → q2.get i = q1.get i := by
    intro i hi
    rw [hq2, Seqs.get_set_of_ne hi]
  have hback : q2.set .dyingThreads [] = q1 := by
    rw [hq2, Seqs.set_set, ← hdying1, set_get_self hlist1]
  have hinv2 : Inv (fun t => t = n ∨ .node t ∈ q2.get .dyingThreads) c2 q2 := by
    have hnodes := hp.inv.setNodes (u := c.current) (i := .dyingThreads)
      (l := [.node c.current]) trivial ?_ ?_
    · rw [← hq2] at hnodes
      refine (hnodes.mono ?_).alike ha2 fun t b hb => (hlog2.release t b).mp hb
      rw [hdying2]
      rintro t ((rfl | rfl) | rfl)
      · exact Or.inr List.mem_cons_self
      · exact Or.inl rfl
      · exact Or.inr List.mem_cons_self
    · intro a ha
      exact Or.inl ⟨List.mem_singleton.mp ha, hdoomed1.live⟩
    · intro t ht
      rw [hdying1]
      simp [ht]
  have hcarried2 : Carried c1 q1 c2 q2 := by
    refine Carried.of_keep (Later.of_alike ha2 fun t => (hlog2.wakes t).ge) ?_ ha2.procOf
      ha2.childNum (fun p => ?_) (fun p => ?_) ha2.live ha2.liveProcs (hget2 _ (by decide))
    · rw [hq2]
      exact waits_set fun u hu => by simp at hu
    · rw [ha2.procs]
    · rw [ha2.procs]
  have hdoomed2 : Doomed c.current c2 (q2.set .dyingThreads []) := by
    rw [hback]
    refine doomed_congr hdoomed1 (ha2.state _) ha2.procOf (fun p => ?_) ha2.live ha2.idleT hoff1
      (fun _ hi => hi) hdoomed1.waiters
    rw [ha2.procs]
  have hboot2 : c2.live boot = false := by rwa [ha2.live, hlive1]
  refine (wp_dispatch_other hinv2 hne.symm ?_ ?_ ?_ hboot2
    (Or.inr ⟨c.current, hne.symm, hdying2, hdoomed2⟩)).mono ?_
  · rwa [ha2.live]
  · rwa [ha2.state]
  · rwa [hget2 _ (by decide)]
  · rintro flow c3 q3 ⟨hflow, hsched, hcarried3, hcurrent, _⟩
    refine ⟨hflow, hsched, ((Carried.of_framed hp.framed).trans hcarried2).trans hcarried3, ?_⟩
    rwa [hcurrent]

/-- A thread that is blocked hands over to the first ready thread. -/
theorem wp_schedule_leave {Q : Flow → Core → KernelSeqs → Prop} {rest : List NodeAddr}
    (hstate : c.state c.current = .blocked) (hlist : (q .readyThreads).isSome)
    (hready : q.get .readyThreads = .node n :: rest) (hne : c.current ≠ n)
    (hn : c.state n = .ready) (hlistDying : (q .dyingThreads).isSome)
    (hdying : q.get .dyingThreads = [])
    (h : ∀ c1 c', Alike c c1 → Silent c.log c1.log → NowRuns (c1.switchTo n) c' →
      Q .switched c' (if rest = [] then q else q.set .readyThreads rest)) :
    Wp listAt schedule Q c q := by
  have hrest : ∀ c1 q1, Alike c c1 → Silent c.log c1.log → (q1 .dyingThreads).isSome →
      q1.get .dyingThreads = [] → q1 = (if rest = [] then q else q.set .readyThreads rest) →
      Wp listAt (do
        let current ← threadCur
        requeue current
        dispatch current n) Q c1 q1 := by
    intro c1 q1 ha hlog hlist1 hdying1 hq1
    apply Wp.bind
    apply wp_reads
    rw [ha.current]
    apply Wp.bind
    apply wp_requeue_blocked ((ha.state _).trans hstate)
    apply wp_dispatch_switch hne ((ha.state n).trans hn)
    apply wp_finishSchedule_idle hlist1 hdying1
    intro c' hr
    rw [hq1]
    exact h c1 c' ha hlog hr
  apply Wp.bind
  apply wp_modifyCore
  have ha := alike_withInterrupts c false
  apply Wp.bind
  rcases rest with _ | ⟨a, rest⟩
  · apply wp_pickNext_one hlist hready
    exact hrest _ q ha (Silent.refl _) hlistDying hdying (by simp)
  · apply wp_pickNext_several hlist hready
    refine hrest _ _ (ha.trans (alike_noteCall _ _))
      (silent_noteCall (c.withInterrupts false) (.pop .readyThreads)) ?_ ?_ (by simp)
    · exact Seqs.isSome_set hlistDying
    · rw [Seqs.get_set_of_ne (by decide)]
      exact hdying

end Switching
/-- What a call leaves to the next one, the counts of some processes apart. -/
structure Kept (boot : Nat) (out : Nat → Prop) (c : Core) (q : KernelSeqs) (c' : Core)
    (q' : KernelSeqs) : Prop where
  sched : SchedInv boot c' q'
  later : Later c c'
  counted : ∀ p, ¬ out p → Counted p c q → Counted p c' q'

theorem Kept.of_carried {boot : Nat} {out : Nat → Prop} {c c' : Core} {q q' : KernelSeqs}
    (h : SchedInv boot c' q') (hc : Carried c q c' q') : Kept boot out c q c' q' :=
  ⟨h, hc.later, fun p _ hp => hc.counted p hp⟩

theorem Kept.narrow {boot : Nat} {out out' : Nat → Prop} {c c' : Core} {q q' : KernelSeqs}
    (h : Kept boot out c q c' q')
    (hout : ∀ p, out p → ¬ out' p → Counted p c q → Counted p c' q') :
    Kept boot out' c q c' q' := by
  refine ⟨h.sched, h.later, fun p hp hc => ?_⟩
  by_cases ho : out p
  · exact hout p ho hp hc
  · exact h.counted p ho hc

theorem Kept.trans {boot : Nat} {out : Nat → Prop} {c c1 c2 : Core} {q q1 q2 : KernelSeqs}
    (h1 : Kept boot out c q c1 q1) (h2 : Kept boot out c1 q1 c2 q2) : Kept boot out c q c2 q2 :=
  ⟨h2.sched, h1.later.trans h2.later, fun p hp hc => h2.counted p hp (h1.counted p hp hc)⟩

end Longhorn.SchedulerInvariant
