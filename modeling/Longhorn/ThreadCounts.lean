import Mathlib.Data.Finset.Card
import Mathlib.Data.Finset.Range
import Longhorn.SchedulerRules

/-!
The count of live threads of a process, and what the scheduler leaves to every later
call: sleeps, links of waiters and counts.
-/

namespace Longhorn.ThreadCounts

open Longhorn.ListRefinement
open Longhorn.ListPrograms
open Longhorn.ThreadModel
open Longhorn.SchedulerRules

/-- The number of slots that are not `NULL`. -/
def occupied (p : Process) : Nat :=
  ((Finset.range maxNumThreads).filter fun i => (p.threads i).isSome).card

/-- The slots of the process hold its live threads and nothing else. -/
structure Slotted (p : Nat) (c : Core) : Prop where
  slots : ∀ i t, i < maxNumThreads → (c.procs p).threads i = some t →
    c.live t = true ∧ c.procOf t = p ∧ (c.threads t).childNum = i
  members : ∀ t, c.live t = true → c.procOf t = p →
    (c.threads t).childNum < maxNumThreads ∧ (c.procs p).threads (c.threads t).childNum = some t

/-- The count of the process is that of its slots in use, and it is on the list of all
processes. -/
structure Tallied (p : Nat) (c : Core) (q : KernelSeqs) : Prop extends Slotted p c where
  count : (c.procs p).numLiveThreads = occupied (c.procs p)
  positive : 0 < (c.procs p).numLiveThreads
  listed : .procNode p ∈ q.get .allProcs

/-- The count of the process is exact as long as the process exists. -/
def Counted (p : Nat) (c : Core) (q : KernelSeqs) : Prop :=
  c.liveProcs p = true → Tallied p c q

/-- What a call that creates nothing and registers no waiter leaves to later calls. -/
structure Carried (c : Core) (q : KernelSeqs) (c' : Core) (q' : KernelSeqs) : Prop where
  later : Later c c'
  waits : ∀ i u, .waitNode u ∈ q'.get i → .waitNode u ∈ q.get i
  counted : ∀ p, Counted p c q → Counted p c' q'

theorem Carried.refl (c : Core) (q : KernelSeqs) : Carried c q c q :=
  ⟨Later.refl c, fun _ _ h => h, fun _ h => h⟩

theorem Carried.trans {c c1 c2 : Core} {q q1 q2 : KernelSeqs} (h1 : Carried c q c1 q1)
    (h2 : Carried c1 q1 c2 q2) : Carried c q c2 q2 :=
  ⟨h1.later.trans h2.later, fun i u hu => h1.waits i u (h2.waits i u hu),
    fun p hp => h2.counted p (h1.counted p hp)⟩

section Counts

variable {c c' : Core} {q q' : KernelSeqs} {p x : Nat}

theorem occupied_congr {a b : Process} (h : ∀ i, i < maxNumThreads → a.threads i = b.threads i) :
    occupied a = occupied b := by
  refine congrArg Finset.card (Finset.filter_congr fun i hi => ?_)
  rw [h i (Finset.mem_range.mp hi)]

theorem occupied_le (a : Process) : occupied a ≤ maxNumThreads := by
  refine (Finset.card_filter_le _ _).trans ?_
  rw [Finset.card_range]

/-- A slot in use is given up. -/
theorem occupied_clear {a b : Process} {k : Nat} (hk : k < maxNumThreads)
    (hused : (a.threads k).isSome) (hb : b.threads = Function.update a.threads k none) :
    occupied b + 1 = occupied a := by
  have hmem : k ∈ (Finset.range maxNumThreads).filter fun i => (a.threads i).isSome := by
    rw [Finset.mem_filter, Finset.mem_range]
    exact ⟨hk, hused⟩
  have herase : ((Finset.range maxNumThreads).filter fun i => (b.threads i).isSome) =
      ((Finset.range maxNumThreads).filter fun i => (a.threads i).isSome).erase k := by
    ext i
    rw [Finset.mem_filter, Finset.mem_erase, Finset.mem_filter, hb]
    rcases eq_or_ne i k with rfl | hne
    · simp
    · simp [hne]
  rw [occupied, herase, Finset.card_erase_add_one hmem, occupied]

/-- A free slot is taken. -/
theorem occupied_fill {a b : Process} {k t : Nat} (hk : k < maxNumThreads)
    (hfree : a.threads k = none) (hb : b.threads = Function.update a.threads k (some t)) :
    occupied b = occupied a + 1 := by
  have hmem : k ∉ (Finset.range maxNumThreads).filter fun i => (a.threads i).isSome := by
    simp [hfree]
  have hinsert : ((Finset.range maxNumThreads).filter fun i => (b.threads i).isSome) =
      insert k ((Finset.range maxNumThreads).filter fun i => (a.threads i).isSome) := by
    ext i
    rw [Finset.mem_filter, Finset.mem_insert, Finset.mem_filter, hb]
    rcases eq_or_ne i k with rfl | hne
    · simpa using hk
    · simp [hne]
  rw [occupied, hinsert, Finset.card_insert_of_notMem hmem, occupied]

/-- The process has the same threads, in the same slots. -/
structure SameMembers (p : Nat) (c c' : Core) : Prop where
  members : ∀ t, (c'.live t = true ∧ c'.procOf t = p) ↔ (c.live t = true ∧ c.procOf t = p)
  childNum : ∀ t, c.live t = true → (c'.threads t).childNum = (c.threads t).childNum
  slots : (c'.procs p).threads = (c.procs p).threads
  count : (c'.procs p).numLiveThreads = (c.procs p).numLiveThreads

theorem Tallied.same (h : Tallied p c q) (hs : SameMembers p c c')
    (hlisted : .procNode p ∈ q.get .allProcs → .procNode p ∈ q'.get .allProcs) :
    Tallied p c' q' := by
  refine ⟨⟨fun i t hi ht => ?_, fun t hl' hp' => ?_⟩, ?_, ?_, hlisted h.listed⟩
  · rw [hs.slots] at ht
    obtain ⟨hl, hp, hc⟩ := h.slots i t hi ht
    obtain ⟨hl', hp'⟩ := (hs.members t).mpr ⟨hl, hp⟩
    exact ⟨hl', hp', (hs.childNum t hl).trans hc⟩
  · obtain ⟨hl, hp⟩ := (hs.members t).mp ⟨hl', hp'⟩
    rw [hs.childNum t hl, hs.slots]
    exact h.members t hl hp
  · rw [hs.count, h.count]
    exact occupied_congr fun i _ => by rw [hs.slots]
  · rw [hs.count]
    exact h.positive

theorem sameMembers_of_eq (hprocOf : ∀ t, c'.procOf t = c.procOf t)
    (hchild : ∀ t, (c'.threads t).childNum = (c.threads t).childNum)
    (hslots : (c'.procs p).threads = (c.procs p).threads)
    (hcount : (c'.procs p).numLiveThreads = (c.procs p).numLiveThreads)
    (hlive : c'.live = c.live) : SameMembers p c c' := by
  refine ⟨fun t => ?_, fun t _ => hchild t, hslots, hcount⟩
  rw [hlive, hprocOf]

theorem Counted.framed (h : Counted p c q) (hf : Framed c q c' q') : Counted p c' q' := by
  intro hp
  rw [hf.liveProcs] at hp
  refine (h hp).same (sameMembers_of_eq hf.procOf hf.childNum ?_ ?_ hf.live) fun hin => ?_
  · rw [hf.procs]
  · rw [hf.procs]
  · rwa [hf.procList]

theorem Carried.of_framed (hf : Framed c q c' q') : Carried c q c' q' :=
  ⟨hf.later, hf.waits, fun _ hp => hp.framed hf⟩

theorem Counted.keep (h : Counted p c q) (hprocOf : ∀ t, c'.procOf t = c.procOf t)
    (hchild : ∀ t, (c'.threads t).childNum = (c.threads t).childNum)
    (hslots : ∀ p, (c'.procs p).threads = (c.procs p).threads)
    (hcount : ∀ p, (c'.procs p).numLiveThreads = (c.procs p).numLiveThreads)
    (hlive : c'.live = c.live) (hprocs : c'.liveProcs = c.liveProcs)
    (hlisted : q'.get .allProcs = q.get .allProcs) : Counted p c' q' := by
  intro hp
  rw [hprocs] at hp
  refine (h hp).same (sameMembers_of_eq hprocOf hchild (hslots p) (hcount p) hlive) fun hin => ?_
  rwa [hlisted]

theorem Carried.of_keep (hlater : Later c c')
    (hwaits : ∀ i u, .waitNode u ∈ q'.get i → .waitNode u ∈ q.get i)
    (hprocOf : ∀ t, c'.procOf t = c.procOf t)
    (hchild : ∀ t, (c'.threads t).childNum = (c.threads t).childNum)
    (hslots : ∀ p, (c'.procs p).threads = (c.procs p).threads)
    (hcount : ∀ p, (c'.procs p).numLiveThreads = (c.procs p).numLiveThreads)
    (hlive : c'.live = c.live) (hprocs : c'.liveProcs = c.liveProcs)
    (hlisted : q'.get .allProcs = q.get .allProcs) : Carried c q c' q' :=
  ⟨hlater, hwaits, fun _ hp => hp.keep hprocOf hchild hslots hcount hlive hprocs hlisted⟩

/-- The state of a thread is no concern of the counts. -/
theorem Counted.setState {s : ThreadState} (h : Counted p c q) (ha : Alike (c.setState x s) c')
    (hlisted : q'.get .allProcs = q.get .allProcs) : Counted p c' q' :=
  h.keep (fun t => (ha.procOf t).trans (procOf_setState c x t s))
    (fun t => (ha.childNum t).trans (childNum_setState c x t s))
    (fun p => congrArg (fun f => (f p).threads) ha.procs)
    (fun p => congrArg (fun f => (f p).numLiveThreads) ha.procs) ha.live ha.liveProcs hlisted

/-- The state of one thread changes, from another than `THREAD_BLOCKED`. -/
theorem later_setState (hne : c.state x ≠ .blocked) (s : ThreadState)
    (hstate : ∀ t, c'.state t = (c.setState x s).state t) (hlive : c'.live = c.live)
    (hlog : Silent c.log c'.log) : Later c c' := by
  refine ⟨fun t => (hlog.wakes t).ge, fun t ht hl _ => ?_⟩
  have htx : t ≠ x := by
    rintro rfl
    exact hne ht
  rw [hstate, state_setState_of_ne htx, hlive]
  exact ⟨ht, hl⟩

theorem Carried.of_setState {s : ThreadState} (hne : c.state x ≠ .blocked)
    (ha : Alike (c.setState x s) c') (hlog : Silent c.log c'.log)
    (hwaits : ∀ i u, .waitNode u ∈ q'.get i → .waitNode u ∈ q.get i)
    (hlisted : q'.get .allProcs = q.get .allProcs) : Carried c q c' q' :=
  ⟨later_setState hne s ha.state ha.live hlog, hwaits, fun _ hp => hp.setState ha hlisted⟩

/-- The thread that is cleaned up leaves its slot, and its process ends with the last
one. -/
theorem Tallied.cleaned (h : Tallied p c q) (hx : Doomed x c q) (hproc : c.procOf x = p)
    (hc : Cleaned x c q c' q') (hgo : ¬ Core.EndsProc c x) : Tallied p c' q' := by
  subst hproc
  obtain ⟨hchild, hslot⟩ := h.members x hx.live rfl
  have hprocs : c'.procs (c.procOf x) =
      (c.procs (c.procOf x)).endThread (c.threads x).childNum := by
    rw [hc.procs, Function.update_self]
  have hthreads : (c'.procs (c.procOf x)).threads =
      Function.update (c.procs (c.procOf x)).threads (c.threads x).childNum none := by
    rw [hprocs, Process.endThread]
  have hoccupied := occupied_clear hchild (by rw [hslot]; rfl) hthreads
  have hle := occupied_le (c.procs (c.procOf x))
  have hcount : (c'.procs (c.procOf x)).numLiveThreads =
      ((c.procs (c.procOf x)).numLiveThreads + 255) % 256 := by
    rw [hprocs, Process.endThread]
  have hcount' := h.count
  have hlive : ∀ t, c'.live t = true ↔ t ≠ x ∧ c.live t = true := by
    intro t
    rw [hc.live]
    rcases eq_or_ne t x with rfl | hne
    · simp
    · simp [hne]
  rw [maxNumThreads] at hle
  refine ⟨⟨fun i t hi ht => ?_, fun t hl hp => ?_⟩, ?_, ?_, ?_⟩
  · rw [hthreads, Function.update_apply] at ht
    split at ht
    · cases ht
    · next hne =>
        obtain ⟨hl, hp, hi'⟩ := h.slots i t hi ht
        refine ⟨(hlive t).mpr ⟨?_, hl⟩, (hc.procOf t).trans hp, (hc.childNum t).trans hi'⟩
        rintro rfl
        exact hne hi'.symm
  · obtain ⟨hne, hl⟩ := (hlive t).mp hl
    rw [hc.procOf] at hp
    obtain ⟨hi, ht⟩ := h.members t hl hp
    rw [hc.childNum]
    refine ⟨hi, ?_⟩
    rw [hthreads, Function.update_of_ne, ht]
    intro heq
    rw [heq, hslot, Option.some.injEq] at ht
    exact hne ht.symm
  · rw [hcount]
    omega
  · rw [hcount]
    exact Nat.pos_of_ne_zero hgo
  · rw [(hc.proceeds hgo).2]
    exact h.listed

/-- When the count reaches zero with the thread, no other thread is left. -/
theorem Tallied.last (h : Tallied p c q) (hl : c.live x = true) (hp : c.procOf x = p)
    (hends : Core.EndsProc c x) (t : Nat) (ht : c.live t = true) (heq : c.procOf t = c.procOf x) :
    t = x := by
  subst hp
  obtain ⟨hx, hslotx⟩ := h.members x hl rfl
  obtain ⟨htl, hslott⟩ := h.members t ht heq
  have hle := occupied_le (c.procs (c.procOf x))
  have hcount := h.count
  have hpos := h.positive
  rw [maxNumThreads] at hle
  rw [Core.EndsProc] at hends
  have hone : occupied (c.procs (c.procOf x)) ≤ 1 := by omega
  have hsame := Finset.card_le_one.mp hone (c.threads t).childNum ?_ (c.threads x).childNum ?_
  · rw [hsame, hslotx, Option.some.injEq] at hslott
    exact hslott.symm
  · rw [Finset.mem_filter, Finset.mem_range, hslott]
    exact ⟨htl, rfl⟩
  · rw [Finset.mem_filter, Finset.mem_range, hslotx]
    exact ⟨hx, rfl⟩

theorem Counted.cleaned (h : Counted p c q) (hx : Doomed x c q) (hc : Cleaned x c q c' q')
    (hother : p ≠ c.procOf x → c'.liveProcs p = true → c.liveProcs p = true)
    (hself : p = c.procOf x → c.liveProcs p = true) : Counted p c' q' := by
  intro hp
  rcases eq_or_ne p (c.procOf x) with rfl | hne
  · refine (h (hself rfl)).cleaned hx rfl hc fun hends => ?_
    rw [(hc.ends hends).1, Function.update_self] at hp
    cases hp
  · have hprocs : c'.procs p = c.procs p := by
      rw [hc.procs, Function.update_of_ne hne]
    refine (h (hother hne hp)).same ⟨fun t => ?_, fun t _ => hc.childNum t, ?_, ?_⟩ fun hin => ?_
    · rw [hc.live, hc.procOf]
      rcases eq_or_ne t x with rfl | htx
      · simp [hne.symm]
      · rw [Function.update_of_ne htx]
    · rw [hprocs]
    · rw [hprocs]
    · by_cases hends : Core.EndsProc c x
      · rw [(hc.ends hends).2]
        exact (List.mem_erase_of_ne (by simpa using hne)).mpr hin
      · rwa [(hc.proceeds hends).2]

theorem Carried.of_cleaned {out : Nat → Prop} (h : Inv out c q) (hx : Doomed x c q)
    (hc : Cleaned x c q c' q') : Carried c q c' q' := by
  refine ⟨hc.later, hc.waits, fun p hp => hp.cleaned hx hc (fun hne hlive => ?_) ?_⟩
  · by_cases hends : Core.EndsProc c x
    · rwa [(hc.ends hends).1, Function.update_of_ne hne] at hlive
    · rwa [(hc.proceeds hends).1] at hlive
  · rintro rfl
    exact h.procs x hx.live

end Counts

end Longhorn.ThreadCounts
