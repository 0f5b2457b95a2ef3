import Mathlib.Data.List.ReduceOption
import Longhorn.CallEffects
import Longhorn.HeapAccounts
import Longhorn.SchedulerRuns

/-!
The kernel on its memory manager: threads and processes live on pages that `palloc` hands out
while other code uses pages and blocks of its own.
-/

namespace Longhorn.KernelMemory

open Longhorn.Foundations.ByteMemory
open Longhorn.Foundations.TransitionRuns
open Longhorn.ThreadModel (Core KernelState Thread maxTid maxNumThreads)
open Longhorn.KernelRuns
open Longhorn.SchedulerInvariant
open Longhorn.SchedulerRuns
open Longhorn.CallEffects
open Longhorn.KallocModel
open Longhorn.PageMap
open Longhorn.PageSafety
open Longhorn.HeapSafety
open Longhorn.PageAccounts
open Longhorn.HeapAccounts

/-- The page of a thread or process. -/
def pageAt (a : Nat) : PageRange := ⟨a, 1⟩

/-- The calls of the memory manager that a call of the kernel makes; `palloc` with the page that
it returns, and `none` for `NULL`. -/
inductive PageCall where
  | palloc (page : Option Nat)
  | kfree (page : Nat)
  | pfree (page : Nat)

inductive CallStep (allocations : Nat) : HeapState → PageCall → HeapState → Prop
  | null {t : HeapState} {st' : AllocState} (h : palloc t.st = some (0, st')) :
      CallStep allocations t (.palloc none) { t with st := st' }
  | palloc {t : HeapState} {q : Nat} {st' : AllocState} (hq : q ≠ 0)
      (h : palloc t.st = some (q, st')) :
      CallStep allocations t (.palloc (some q))
        { t with st := st', pages := pageAt q :: t.pages }
  | kfree {t : HeapState} {a : Nat} {code : Int} {st' : AllocState}
      (h : kfree allocations a t.st = some (code, st')) :
      CallStep allocations t (.kfree a) { t with st := st', pages := t.pages.erase (pageAt a) }
  | pfree {t : HeapState} {a : Nat} {code : Int} {st' : AllocState}
      (h : pfree a t.st = some (code, st')) :
      CallStep allocations t (.pfree a) { t with st := st', pages := t.pages.erase (pageAt a) }

/-- The pages that `thread_cleanup` gives back in a call: those of the threads that end in it and
of the processes that end with them. -/
def Ended (c c' : Core) (pages : List Nat) : Prop :=
  ∃ threads procs : List Nat, pages.Perm (threads ++ procs) ∧ threads.Nodup ∧ procs.Nodup ∧
    (∀ t, t ∈ threads ↔ c.live t = true ∧ c'.live t = false) ∧
    ∀ p, p ∈ procs ↔ c.liveProcs p = true ∧ c'.liveProcs p = false

/-- What a call asks of the memory manager: the page of a process, the page of a thread, which
`thread_create` may give back at once, and at last what is given back of those that have ended. -/
def pageCalls (c : Core) (op : KernelOp) (ended : List Nat) : List PageCall :=
  ((procAsked op).toList ++ ((stackAsked c op).map (Option.map Prod.fst)).toList).map .palloc ++
    ((stackRefused c op).toList.map .kfree ++ ended.map .pfree)

/-- The kernel and its memory manager. -/
structure Joint where
  kernel : KernelState
  heap : HeapState

inductive JointOp where
  | kernel (op : KernelOp)
  | client (op : HeapOp)

/-- A call of the kernel, or a call or a store of other code. -/
inductive JointStep (allocations : Nat) : Joint → JointOp → Joint → Prop
  | kernel {j : Joint} {op : KernelOp} {k : KernelState} {ended : List Nat} {t : HeapState}
      (hstep : KernelStep j.kernel op k) (hended : Ended j.kernel.core k.core ended)
      (hcalls : Run (CallStep allocations) j.heap (pageCalls j.kernel.core op ended) t) :
      JointStep allocations j (.kernel op) ⟨k, t⟩
  | client {j : Joint} {op : HeapOp} {t : HeapState} (hstep : HeapStep allocations j.heap op t) :
      JointStep allocations j (.client op) ⟨j.kernel, t⟩

/-- The call may be made, whatever pages it gets; the page of a new process reads as that of no
process with threads that exist. -/
def MayAsk (boot : Nat) (c : Core) (q : SchedulerRules.KernelSeqs) : KernelOp → Prop
  | .create _ proc _ => c.liveProcs proc = true
  | .procCreate page _ => ∀ p old, page = some (p, old) →
      ∀ i, i < maxNumThreads → ∀ t, old.threads i = some t → c.live t = false ∧ t ≠ boot
  | .procCreateThread _ => c.live c.current = true
  | op => MayCall boot c q op

/-- The pages that other code gives back are not those of a thread or process. -/
def NotKernels (c : Core) : HeapOp → Prop
  | .pfreeMult r => ∀ a, r = pageAt a → c.live a = false ∧ c.liveProcs a = false
  | _ => True

def JointGuard (boot : Nat) (j : Joint) : JointOp → Prop
  | .kernel op => (∀ q, HoldsSeqs j.kernel q → MayAsk boot j.kernel.core q op) ∧
      (stackAsked j.kernel.core op = none → op.stack = none)
  | .client op => HeapGuard j.heap op ∧ NotKernels j.kernel.core op

/-- `init_alloc` and `init_processes` have run; the boot thread's stack is in the kernel's
image. -/
structure JointBoots (allocations memUpper pool : Nat) (mem : Memory) (s0 : KernelState)
    (init t : Nat) (old : Thread) (j : Joint) : Prop where
  starts : Starts s0 init t old j.kernel
  image : s0.core.current < startAddr
  heap : ∃ h0, HeapInit allocations memUpper mem h0 ∧ h0.st.slab.mem = pool ∧
    Run (CallStep allocations) h0 (pageCalls s0.core (.init init (some (t, old))) []) j.heap

section Calls

variable {np pool list : Nat} {h h' : HeapState} {xs : List Nat} {others lost : List PageRange}

theorem pageAt_contains (a : Nat) : (pageAt a).Contains a :=
  ⟨le_rfl, by simp only [pageAt, pgSize]; omega⟩

/-- The pages at `xs` are handed out, and so are `others`. -/
def Holds (h : HeapState) (xs : List Nat) (others : List PageRange) : Prop :=
  h.pages.Perm (xs.map pageAt ++ others)

/-- Pages that are handed out differ, and lie in the managed memory. -/
theorem Holds.places (hx : Holds h xs others) (hb : Balanced np pool list h lost) :
    xs.Nodup ∧ ∀ a ∈ xs, startAddr ≤ a := by
  have hsafe := hb.ledger.inv.safe
  have hmem : ∀ a ∈ xs, pageAt a ∈ h.allPages pool ++ lost := fun a ha =>
    List.mem_append_left _ (List.mem_append_right _ (List.mem_append_left _
      (hx.mem_iff.mpr (List.mem_append_left _ (List.mem_map_of_mem ha)))))
  refine ⟨?_, fun a ha => (hsafe.inMemory _ (hmem a ha) a (pageAt_contains a)).1⟩
  have hpages := (List.pairwise_append.mp (List.pairwise_append.mp
    (List.pairwise_append.mp hsafe.disjoint).1).2.1).1
  have hpair := hx.pairwise hpages fun hd c hc hc' => hd c hc' hc
  have hxs := (List.pairwise_append.mp hpair).1
  rw [List.pairwise_map] at hxs
  refine hxs.imp fun {a b} hd heq => ?_
  subst heq
  exact hd a (pageAt_contains a) (pageAt_contains a)

theorem Holds.erase (hx : Holds h xs others) {a : Nat} (ha : a ∈ xs) :
    (h.pages.erase (pageAt a)).Perm ((xs.erase a).map pageAt ++ others) := by
  have hcons : (xs.map pageAt ++ others).Perm (pageAt a :: ((xs.erase a).map pageAt ++ others)) :=
    ((List.perm_cons_erase ha).map pageAt).append_right others
  have herase := (hx.trans hcons).erase (pageAt a)
  rwa [List.erase_cons_head] at herase

theorem Holds.give (hx : Holds h xs others) (hb : Balanced np pool list h lost) {a : Nat}
    (ha : a ∈ xs) {code : Int} {st' : AllocState} (heq : pfree a h.st = some (code, st')) :
    Holds { h with st := st', pages := h.pages.erase (pageAt a) } (xs.erase a) others ∧
      ∃ lost', Balanced np pool list
        { h with st := st', pages := h.pages.erase (pageAt a) } lost' := by
  have hmem : pageAt a ∈ h.pages := hx.mem_iff.mpr (List.mem_append_left _ (List.mem_map_of_mem ha))
  refine ⟨hx.erase ha, hb.pfreeMult (r := pageAt a) heq (List.mem_append_left _ hmem) ?_⟩
  exact (List.perm_cons_erase hmem).append_right _

theorem Holds.freed {ended : List Nat} (hx : Holds h xs others)
    (hb : ∃ lost, Balanced np pool list h lost) (hin : ∀ a ∈ ended, a ∈ xs) (hnd : ended.Nodup)
    (hrun : Run (CallStep list) h (ended.map .pfree) h') :
    Holds h' (xs.diff ended) others ∧ ∃ lost, Balanced np pool list h' lost := by
  induction ended generalizing h xs with
  | nil =>
      obtain ⟨⟩ := hrun
      exact ⟨hx, hb⟩
  | cons a ended ih =>
      obtain ⟨lost, hb⟩ := hb
      obtain ⟨hnot, hnd⟩ := List.nodup_cons.mp hnd
      obtain _ | ⟨hstep, hrest⟩ := hrun
      obtain ⟨⟩ | ⟨⟩ | ⟨⟩ | heq := hstep
      obtain ⟨hx', hb'⟩ := hx.give hb (hin a List.mem_cons_self) heq
      rw [List.diff_cons]
      refine ih hx' hb' (fun b hb => ?_) hnd hrest
      refine (List.mem_erase_of_ne ?_).mpr (hin b (List.mem_cons_of_mem a hb))
      rintro rfl
      exact hnot hb

theorem Holds.refused {page : Option Nat} (hx : Holds h xs others)
    (hb : ∃ lost, Balanced np pool list h lost) (hin : ∀ a ∈ page, a ∈ xs)
    (hrun : Run (CallStep list) h (page.toList.map .kfree) h') :
    Holds h' (xs.diff page.toList) others ∧ ∃ lost, Balanced np pool list h' lost := by
  rcases page with _ | a
  · obtain ⟨⟩ := hrun
    exact ⟨hx, hb⟩
  · obtain ⟨lost, hb⟩ := hb
    have ha := hin a rfl
    obtain _ | ⟨hstep, ⟨⟩⟩ := hrun
    obtain ⟨⟩ | ⟨⟩ | heq | ⟨⟩ := hstep
    rw [hb.kfree_eq (List.mem_append_left _
      (hx.mem_iff.mpr (List.mem_append_left _ (List.mem_map_of_mem ha))))] at heq
    rw [Option.toList_some, List.diff_cons, List.diff_nil]
    exact hx.give hb ha heq

/-- Pages that are asked for are held from now on. -/
theorem Holds.allocated {asked : List (Option Nat)} (hx : Holds h xs others)
    (hb : ∃ lost, Balanced np pool list h lost)
    (hrun : Run (CallStep list) h (asked.map .palloc) h') :
    Holds h' (asked.reduceOption ++ xs) others ∧ ∃ lost, Balanced np pool list h' lost := by
  induction asked generalizing h xs with
  | nil =>
      obtain ⟨⟩ := hrun
      exact ⟨hx, hb⟩
  | cons page asked ih =>
      obtain ⟨lost, hb⟩ := hb
      obtain _ | ⟨hstep, hrest⟩ := hrun
      cases hstep with
      | @null st' heq =>
          have hb' := hb.pallocMult Nat.one_pos heq
          rw [if_pos rfl] at hb'
          have hx' : Holds { h with st := st' } xs others := hx
          exact ih hx' ⟨lost, hb'⟩ hrest
      | @palloc q st' hq heq =>
          have hb' := hb.pallocMult Nat.one_pos heq
          rw [if_neg hq] at hb'
          have hx' : Holds { h with st := st', pages := pageAt q :: h.pages } (q :: xs) others :=
            hx.cons (pageAt q)
          obtain ⟨hx', hb'⟩ := ih hx' ⟨lost, hb'⟩ hrest
          refine ⟨hx'.trans ?_, hb'⟩
          rw [List.reduceOption_cons_of_some]
          exact (List.perm_middle.map pageAt).append_right others

end Calls

/-- Whose the pages are: those at `xs` belong to threads and processes. -/
structure Owners (c : Core) (pages : List PageRange) (xs : List Nat) (others : List PageRange) :
    Prop where
  pages : pages.Perm (xs.map pageAt ++ others)
  mem : ∀ a, a ∈ xs ↔ c.live a = true ∨ c.liveProcs a = true
  apart : ∀ a, c.live a = true → c.liveProcs a = false

section Owners

variable {c c' : Core} {op : KernelOp} {xs ended : List Nat}

/-- The places of the pages during a call: those of what the call makes, and the old ones. -/
def placesIn (c : Core) (op : KernelOp) (xs : List Nat) : List Nat :=
  (procMade op).toList ++ ((stackPage c op).toList ++ xs)

theorem Ended.nodup (h : Ended c c' ended)
    (happart : ∀ a, c.live a = true → c.liveProcs a = false) :
    ended.Nodup := by
  obtain ⟨threads, procs, hperm, hthreads, hprocs, hlive, hliveProcs⟩ := h
  rw [hperm.nodup_iff]
  refine hthreads.append hprocs fun a ha ha' => ?_
  have hfalse := happart a ((hlive a).mp ha).1
  rw [((hliveProcs a).mp ha').1] at hfalse
  cases hfalse

theorem Ended.mem_iff (h : Ended c c' ended) {a : Nat} :
    a ∈ ended ↔ (c.live a = true ∧ c'.live a = false) ∨
      (c.liveProcs a = true ∧ c'.liveProcs a = false) := by
  obtain ⟨threads, procs, hperm, _, _, hlive, hliveProcs⟩ := h
  rw [hperm.mem_iff, List.mem_append, hlive, hliveProcs]

/-- What is held after a call are the pages of the threads and processes that there are. -/
theorem effects_places (heff : Effects c op c') (hended : Ended c c' ended)
    (hmem : ∀ a, a ∈ xs ↔ c.live a = true ∨ c.liveProcs a = true)
    (happart : ∀ a, c.live a = true → c.liveProcs a = false)
    (hnd : (placesIn c op xs).Nodup) :
    (∀ a, a ∈ ((placesIn c op xs).diff (stackRefused c op).toList).diff ended ↔
        c'.live a = true ∨ c'.liveProcs a = true) ∧
      ∀ a, c'.live a = true → c'.liveProcs a = false := by
  obtain ⟨-, hrest, hproc⟩ := List.nodup_append'.mp hnd
  obtain ⟨-, -, hstack⟩ := List.nodup_append'.mp hrest
  have hprocPage : ∀ a, procMade op = some a → stackPage c op ≠ some a ∧ a ∉ xs := by
    intro a ha
    have hin := Option.mem_toList.mpr ha
    refine ⟨fun hs => hproc hin (List.mem_append_left _ (Option.mem_toList.mpr hs)), fun hx => ?_⟩
    exact hproc hin (List.mem_append_right _ hx)
  have hstackPage : ∀ a, stackPage c op = some a → a ∉ xs := fun a ha =>
    hstack (Option.mem_toList.mpr ha)
  have hthread : ∀ a, threadMade c op = some a → stackPage c op = some a := fun a ha =>
    stackPage_eq_some_iff.mpr (Or.inl ha)
  have hrefused : ∀ a, stackRefused c op = some a → stackPage c op = some a := fun a ha =>
    stackPage_eq_some_iff.mpr (Or.inr ha)
  have hold : ∀ a, a ∈ ended → a ∈ xs := fun a ha =>
    (hmem a).mpr ((hended.mem_iff.mp ha).imp And.left And.left)
  refine ⟨fun a => ?_, fun a hlive => ?_⟩
  · rw [(hnd.diff).mem_sdiff_iff, hnd.mem_sdiff_iff, Option.mem_toList, placesIn, List.mem_append,
      List.mem_append, Option.mem_toList, Option.mem_toList]
    constructor
    · rintro ⟨⟨hp | hs | hx, hkept⟩, hstays⟩
      · exact Or.inr (heff.procMade a hp)
      · exact Or.inl (heff.made a ((stackPage_eq_some_iff.mp hs).resolve_right hkept))
      · rw [hended.mem_iff, not_or, not_and, not_and, Bool.not_eq_false, Bool.not_eq_false]
          at hstays
        exact ((hmem a).mp hx).imp hstays.1 hstays.2
    · rintro (hl | hp)
      · rcases heff.live a hl with hmade | hwas
        · refine ⟨⟨Or.inr (Or.inl (hthread a hmade)), ?_⟩, ?_⟩
          · rw [stackRefused_of_made hmade]
            rintro ⟨⟩
          · exact fun hin => hstackPage a (hthread a hmade) (hold a hin)
        · have hx := (hmem a).mpr (Or.inl hwas)
          refine ⟨⟨Or.inr (Or.inr hx), fun href => hstackPage a (hrefused a href) hx⟩, ?_⟩
          rw [hended.mem_iff, hl, happart a hwas]
          simp
      · rcases heff.liveProcs a hp with hmade | hwas
        · refine ⟨⟨Or.inl hmade, fun href => (hprocPage a hmade).1 (hrefused a href)⟩, ?_⟩
          exact fun hin => (hprocPage a hmade).2 (hold a hin)
        · have hx := (hmem a).mpr (Or.inr hwas)
          refine ⟨⟨Or.inr (Or.inr hx), fun href => hstackPage a (hrefused a href) hx⟩, ?_⟩
          have hno : ¬ c.live a = true := fun hl => by
            rw [happart a hl] at hwas
            cases hwas
          rw [hended.mem_iff, hp]
          simp [hno]
  · by_contra hp
    rw [Bool.not_eq_false] at hp
    rcases heff.live a hlive with hmade | hwas <;> rcases heff.liveProcs a hp with hmade' | hwas'
    · exact (hprocPage a hmade').1 (hthread a hmade)
    · exact hstackPage a (hthread a hmade) ((hmem a).mpr (Or.inr hwas'))
    · exact (hprocPage a hmade').2 ((hmem a).mpr (Or.inl hwas))
    · rw [happart a hwas] at hwas'
      cases hwas'

theorem reduceOption_toList {α : Type} (x : Option (Option α)) :
    x.toList.reduceOption = x.join.toList := by
  rcases x with _ | _ | a <;> rfl

/-- What the calls of the memory manager in a call of the kernel do: the pages that are held
after them are those of the threads and processes that there are. -/
theorem Holds.calls {np pool list : Nat} {h h' : HeapState} {others : List PageRange}
    (hx : Holds h xs others) (hb : ∃ lost, Balanced np pool list h lost) (heff : Effects c op c')
    (hended : Ended c c' ended) (hmem : ∀ a, a ∈ xs ↔ c.live a = true ∨ c.liveProcs a = true)
    (happart : ∀ a, c.live a = true → c.liveProcs a = false)
    (hrun : Run (CallStep list) h (pageCalls c op ended) h') :
    ((placesIn c op xs).Nodup ∧ ∀ a ∈ placesIn c op xs, startAddr ≤ a) ∧
      (∃ xs', Owners c' h'.pages xs' others) ∧ ∃ lost, Balanced np pool list h' lost := by
  obtain ⟨h1, hrun1, hrun⟩ := hrun.split
  obtain ⟨h2, hrun2, hrun3⟩ := hrun.split
  obtain ⟨hx1, hb1⟩ := hx.allocated hb hrun1
  have hjoin : ((procAsked op).toList ++
      ((stackAsked c op).map (Option.map Prod.fst)).toList).reduceOption =
      (procMade op).toList ++ (stackPage c op).toList := by
    rw [List.reduceOption_append, reduceOption_toList, reduceOption_toList, procMade, stackPage]
    cases stackAsked c op <;> rfl
  rw [hjoin, List.append_assoc] at hx1
  obtain ⟨lost1, hlost1⟩ := hb1
  have hplaces := hx1.places hlost1
  have hrefused : ∀ a ∈ stackRefused c op, a ∈ placesIn c op xs := fun a ha =>
    List.mem_append_right _ (List.mem_append_left _
      (Option.mem_toList.mpr (stackPage_eq_some_iff.mpr (Or.inr ha))))
  obtain ⟨hx2, hb2⟩ := hx1.refused ⟨lost1, hlost1⟩ hrefused hrun2
  have hin : ∀ a ∈ ended, a ∈ (placesIn c op xs).diff (stackRefused c op).toList := by
    intro a ha
    have hold : a ∈ xs := (hmem a).mpr ((hended.mem_iff.mp ha).imp And.left And.left)
    refine hplaces.1.mem_sdiff_iff.mpr
      ⟨List.mem_append_right _ (List.mem_append_right _ hold), fun href => ?_⟩
    -- what ends was there before, and the page that was refused is new
    have hstack := (List.nodup_append'.mp (List.nodup_append'.mp hplaces.1).2.1).2.2
    exact hstack (Option.mem_toList.mpr (stackPage_eq_some_iff.mpr
      (Or.inr (Option.mem_toList.mp href)))) hold
  obtain ⟨hx3, hb3⟩ := hx2.freed hb2 hin (hended.nodup happart) hrun3
  obtain ⟨hafter, happart'⟩ := effects_places heff hended hmem happart hplaces.1
  exact ⟨hplaces, ⟨_, hx3, hafter, happart'⟩, hb3⟩

end Owners

structure JointInv (np pool list boot : Nat) (j : Joint) : Prop where
  image : boot < startAddr
  sched : Sched boot j.kernel
  balanced : ∃ lost, Balanced np pool list j.heap lost
  owners : ∃ xs others, Owners j.kernel.core j.heap.pages xs others

def JointOp.kernelOp : JointOp → Option KernelOp
  | .kernel op => some op
  | .client _ => none

section Steps

variable {np pool list boot : Nat} {j j' : Joint}

/-- The pages that the memory manager returns are not in use, as the scheduler relies on. -/
theorem sound_of_places {op : KernelOp} {xs : List Nat} (himage : boot < startAddr)
    (hguard : JointGuard boot j (.kernel op))
    (hmem : ∀ a, a ∈ xs ↔ j.kernel.core.live a = true ∨ j.kernel.core.liveProcs a = true)
    (hnd : (placesIn j.kernel.core op xs).Nodup)
    (hplace : ∀ a ∈ placesIn j.kernel.core op xs, startAddr ≤ a) : Sound boot j.kernel op := by
  obtain ⟨hask, hunasked⟩ := hguard
  obtain ⟨-, hrest, hproc⟩ := List.nodup_append'.mp hnd
  obtain ⟨-, -, hstack⟩ := List.nodup_append'.mp hrest
  have hthread : NewThread boot j.kernel.core op.stack := by
    intro t old ht
    have hpage : stackPage j.kernel.core op = some t := by
      rcases hs : stackAsked j.kernel.core op with _ | stack
      · rw [hunasked hs] at ht
        cases ht
      · rw [stack_of_stackAsked hs] at ht
        rw [stackPage, hs, ht]
        rfl
    have hin := Option.mem_toList.mpr hpage
    have hnew : t ∉ xs := hstack hin
    rw [hmem, not_or, Bool.not_eq_true] at hnew
    refine ⟨hnew.1, ?_⟩
    rintro rfl
    have hlo := hplace t (List.mem_append_right _ (List.mem_append_left _ hin))
    omega
  intro q hq
  have hcall := hask q hq
  cases op with
  | create page proc slot => exact ⟨hcall, hthread⟩
  | procCreate page stack =>
      refine ⟨fun p old hp => ⟨?_, hcall p old hp⟩, hthread⟩
      have hin : p ∈ (procMade (.procCreate page stack)).toList := by
        rw [hp]
        exact List.mem_singleton_self p
      have hnew : p ∉ xs := fun hx => hproc hin (List.mem_append_right _ hx)
      rw [hmem, not_or, Bool.not_eq_true, Bool.not_eq_true] at hnew
      exact hnew.2
  | procCreateThread stack => exact ⟨hcall, hthread⟩
  | _ => exact hcall

/-- Other code changes only what is its own. -/
theorem Owners.client {c : Core} {h h' : HeapState} {xs : List Nat} {others : List PageRange}
    {op : HeapOp} (ho : Owners c h.pages xs others) (hop : NotKernels c op)
    (hstep : HeapStep list h op h') : ∃ others', Owners c h'.pages xs others' := by
  have hgiven : ∀ size q st', (h.given size q st').pages = h.pages := by
    intro size q st'
    unfold HeapState.given
    split
    · rfl
    · split <;> rfl
  cases hstep with
  | @pallocMult cnt q st' hcnt heq =>
      by_cases hq : q = 0
      · rw [if_pos hq]
        exact ⟨others, ho⟩
      · rw [if_neg hq]
        refine ⟨⟨q, cnt⟩ :: others, ?_, ho.mem, ho.apart⟩
        exact (ho.pages.cons _).trans List.perm_middle.symm
  | pallocNone heq => exact ⟨others, ho⟩
  | pfreeNone heq => exact ⟨others, ho⟩
  | @pfreeMult r code st' hr heq =>
      have hother : r ∈ others := by
        refine (List.mem_append.mp (ho.pages.mem_iff.mp hr)).resolve_left fun hin => ?_
        obtain ⟨a, ha, rfl⟩ := List.mem_map.mp hin
        obtain ⟨hlive, hproc⟩ := hop a rfl
        have hused := (ho.mem a).mp ha
        simp [hlive, hproc] at hused
      refine ⟨others.erase r, ?_, ho.mem, ho.apart⟩
      have hperm : h.pages.Perm (r :: (xs.map pageAt ++ others.erase r)) :=
        ho.pages.trans (((List.perm_cons_erase hother).append_left _).trans List.perm_middle)
      have herase := hperm.erase r
      rwa [List.erase_cons_head] at herase
  | kmalloc heq =>
      rw [hgiven]
      exact ⟨others, ho⟩
  | kcalloc heq =>
      rw [hgiven]
      exact ⟨others, ho⟩
  | kfreePage hb heq => exact ⟨others, ho⟩
  | kfreeBlock hb heq => exact ⟨others, ho⟩
  | write ha => exact ⟨others, ho⟩

/-- One step keeps the invariant, and a call of the kernel is one that its scheduler expects. -/
theorem JointInv.step {op : JointOp} (h : JointInv np pool list boot j)
    (hstep : Guarded (JointStep list) (JointGuard boot) j op j') :
    JointInv np pool list boot j' ∧
      Run (Guarded KernelStep (Sound boot)) j.kernel op.kernelOp.toList j'.kernel := by
  obtain ⟨himage, hsched, hbalanced, xs, others, howners⟩ := h
  obtain ⟨hguard, hstep⟩ := hstep
  cases hstep with
  | @kernel op k ended t hstep hended hcalls =>
      obtain ⟨hplaces, howners', hbalanced'⟩ := Holds.calls (h := j.heap) howners.pages hbalanced
        (effects_of_step hstep) hended howners.mem howners.apart hcalls
      have hsound := sound_of_places himage hguard howners.mem hplaces.1 hplaces.2
      have hrun : Run (Guarded KernelStep (Sound boot)) j.kernel [op] k := .single ⟨hsound, hstep⟩
      obtain ⟨xs', howners'⟩ := howners'
      exact ⟨⟨himage, sched_run hrun hsched, hbalanced', xs', others, howners'⟩, hrun⟩
  | @client op t hstep =>
      obtain ⟨lost, hlost⟩ := hbalanced
      obtain ⟨others', howners'⟩ := howners.client hguard.2 hstep
      exact ⟨⟨himage, hsched, hlost.step ⟨hguard.1, hstep⟩, xs, others', howners'⟩, .nil _⟩

theorem JointBoots.inv {memUpper init t : Nat} {mem : Memory} {s0 : KernelState} {old : Thread}
    (hboot : Boots memUpper mem) (hlist : InImage list)
    (h : JointBoots list memUpper pool mem s0 init t old j) :
    JointInv (numPages memUpper) pool list s0.core.current j := by
  obtain ⟨hstarts, himage, h0, hinit, rfl, hcalls⟩ := h
  have hbalanced := balanced_of_init hboot hlist hinit
  have hlive := hstarts.fresh.live
  have hprocs := hstarts.fresh.liveProcs
  have hended : Ended s0.core j.kernel.core [] := by
    refine ⟨[], [], List.Perm.refl _, List.nodup_nil, List.nodup_nil, fun u => ?_, fun p => ?_⟩
    · simp [hlive u]
    · simp [hprocs p]
  have hheld : Holds h0 [] [] := by
    rw [Holds, hinit.2.1]
    exact List.Perm.refl _
  obtain ⟨-, ⟨xs, howners⟩, hbalanced'⟩ := hheld.calls ⟨[], hbalanced⟩
    (effects_of_step hstarts.step) hended (by simp [hlive, hprocs]) (by simp [hlive]) hcalls
  exact ⟨himage, sched_of_starts hstarts, hbalanced', xs, [], howners⟩

end Steps

section Runs

variable {np pool list memUpper init t : Nat} {mem : Memory} {s0 : KernelState} {old : Thread}
  {j0 j : Joint} {es : List JointOp}

/-- Which pages the threads, the processes and other code hold. -/
structure Shares (j : Joint) (threads procs : List Nat) (others : List PageRange) : Prop where
  pages : j.heap.pages.Perm (threads.map pageAt ++ procs.map pageAt ++ others)
  nodup : (threads ++ procs).Nodup
  threads : ∀ t, t ∈ threads ↔ j.kernel.core.live t = true
  procs : ∀ p, p ∈ procs ↔ j.kernel.core.liveProcs p = true

theorem JointInv.shares {boot : Nat} (h : JointInv np pool list boot j) :
    ∃ threads procs others, Shares j threads procs others := by
  obtain ⟨xs, others, howners⟩ := h.owners
  have hsplit : xs.Perm
      (xs.filter j.kernel.core.live ++ xs.filter fun a => !j.kernel.core.live a) :=
    (List.filter_append_perm _ xs).symm
  obtain ⟨lost, hlost⟩ := h.balanced
  have hnd : xs.Nodup := (Holds.places (h := j.heap) howners.pages hlost).1
  refine ⟨xs.filter j.kernel.core.live, xs.filter fun a => !j.kernel.core.live a, others, ?_,
    hsplit.nodup_iff.mp hnd, fun t => ?_, fun p => ?_⟩
  · rw [← List.map_append]
    exact howners.pages.trans ((hsplit.map pageAt).append_right others)
  · rw [List.mem_filter, howners.mem]
    exact ⟨And.right, fun ht => ⟨Or.inl ht, ht⟩⟩
  · rw [List.mem_filter, howners.mem, Bool.not_eq_true']
    constructor
    · rintro ⟨hlive | hproc, hdead⟩
      · rw [hdead] at hlive
        cases hlive
      · exact hproc
    · intro hp
      refine ⟨Or.inr hp, ?_⟩
      rw [← Bool.not_eq_true]
      intro hlive
      rw [howners.apart p hlive] at hp
      cases hp

theorem inv_of_run (hboot : Boots memUpper mem) (hlist : InImage list)
    (hstart : JointBoots list memUpper pool mem s0 init t old j0)
    (hrun : Run (Guarded (JointStep list) (JointGuard s0.core.current)) j0 es j) :
    JointInv (numPages memUpper) pool list s0.core.current j ∧
      Run (Guarded KernelStep (Sound s0.core.current)) j0.kernel (es.filterMap JointOp.kernelOp)
        j.kernel := by
  obtain ⟨fs, hfs⟩ : ∃ fs : List JointOp, fs = [] := ⟨_, rfl⟩
  rw [← List.nil_append es, ← hfs]
  refine hrun.trace_invariant (fun es j => JointInv (numPages memUpper) pool list
    s0.core.current j ∧ Run (Guarded KernelStep (Sound s0.core.current)) j0.kernel
      (es.filterMap JointOp.kernelOp) j.kernel) ?_ ⟨hstart.inv hboot hlist, hfs ▸ .nil _⟩
  rintro es j op j' ⟨hinv, hsched⟩ hstep
  obtain ⟨hinv', hop⟩ := hinv.step hstep
  refine ⟨hinv', ?_⟩
  rw [List.filterMap_append]
  refine hsched.append ?_
  cases op <;> exact hop

theorem pageCount_append (a b : List PageRange) :
    pageCount (a ++ b) = pageCount a + pageCount b := by
  rw [pageCount, List.map_append, List.sum_append]
  rfl

theorem pageCount_singles {α : Type} (f : α → PageRange) (hf : ∀ a, (f a).pages = 1) (xs : List α) :
    pageCount (xs.map f) = xs.length := by
  induction xs with
  | nil => rfl
  | cons a xs ih =>
      rw [pageCount] at ih ⊢
      rw [List.map_cons, List.map_cons, List.sum_cons, ih, hf, List.length_cons, Nat.add_comm]

theorem exists_palloc {h : HeapState} (hb : Balanced np pool list h []) (hfall : h.fallbacks = [])
    (hroom : (mapPages np).len + 10 + pageCount h.pages < np) :
    ∃ q st', q ≠ 0 ∧ palloc h.st = some (q, st') ∧
      Balanced np pool list { h with st := st', pages := pageAt q :: h.pages } [] := by
  have hfit : Foundations.Ranges.HasFit (PageFree h.st) 0 np 1 := by
    have hpool := pageCount_poolPages pool
    rw [hb.ledger.hasFit_iff, hb.ledger.numAllocated_eq, HeapState.allPages, hfall, List.map_nil,
      List.append_nil, List.append_nil, pageCount_append]
    omega
  rcases hb.ledger.alloc Nat.one_pos with ⟨k, _, heq, _⟩ | ⟨hnone, _⟩
  · have hb' := hb.pallocMult Nat.one_pos heq
    rw [if_neg (pageAddr_ne_zero k)] at hb'
    exact ⟨_, _, pageAddr_ne_zero k, heq, hb'⟩
  · exact absurd hfit hnone

theorem exists_starts_at (init t : Nat) (ht : t ≠ 0) :
    ∃ s, Starts zeroedState init t blankThread s := by
  have hfresh : Fresh zeroedState.core := ⟨fun _ => rfl, fun _ => rfl, fun _ => rfl, rfl⟩
  have hwp : ListPrograms.Wp ThreadModel.listAt (execOp (.init init (some (t, blankThread))))
      (fun _ c' q' => ProcessCalls.Started t init c' q' ∧ c'.current = zeroedState.core.current ∧
        (c'.procs init).numLiveThreads = (zeroedState.core.procs init).numLiveThreads)
      zeroedState.core fun _ => none :=
    ProcessCalls.wp_initProcesses hfresh.live hfresh.liveProcs hfresh.log ht (by decide)
  obtain ⟨s, hstep⟩ :=
    step_of_wp (ListRefinement.represents_empty ThreadModel.listAt zeroedState.heap) hwp
  exact ⟨s, hfresh, ht, by decide, hstep⟩

/-- On a machine with 64 pages a thread is created after the start. -/
theorem exists_created : ∃ pool init t x j0 j,
    JointBoots 1048576 4352 pool (fun _ => 0#8) zeroedState init t blankThread j0 ∧
      Run (Guarded (JointStep 1048576) (JointGuard zeroedState.core.current)) j0
        [.kernel (.create (some (x, blankThread)) init 1)] j := by
  have hboot : Boots 4352 fun _ => 0#8 := ⟨by decide, by decide, by decide, fun _ _ => rfl⟩
  have hlist : InImage 1048576 := by decide
  have hnp : numPages 4352 = 64 := by decide
  obtain ⟨h0, hinit⟩ := exists_heapInit hboot hlist
  have hb0 := balanced_of_init hboot hlist hinit
  obtain ⟨-, hpages, hfall, -⟩ := id hinit
  rw [hnp] at hb0
  have hroom : ∀ r rs, pageCount (pageAt r :: rs) = 1 + pageCount rs := fun _ _ => List.sum_cons
  obtain ⟨init, st1, hinit0, heq1, hb1⟩ := exists_palloc hb0 hfall (by rw [hpages]; decide)
  obtain ⟨t, st2, ht0, heq2, hb2⟩ :=
    exists_palloc hb1 hfall (by rw [hpages]; simp only [hroom]; decide)
  obtain ⟨x, st3, hx0, heq3, hb3⟩ :=
    exists_palloc hb2 hfall (by rw [hpages]; simp only [hroom]; decide)
  obtain ⟨k, hstarts⟩ := exists_starts_at init t ht0
  have hne : x ≠ t := by
    have hheld : Holds { h0 with st := st3, pages := pageAt x :: pageAt t :: pageAt init ::
        h0.pages } [x, t, init] [] := by
      rw [Holds, hpages]
      exact List.Perm.refl _
    rintro rfl
    exact (List.nodup_cons.mp (hheld.places hb3).1).1 List.mem_cons_self
  obtain ⟨k', q, hcreate, hq, -, hc, -⟩ :=
    created_beside_idle 1 hstarts hne hx0 (show blankThread.tid ≠ maxTid + 1 by decide)
  have hended : Ended k.core k'.core [] := by
    refine ⟨[], [], List.Perm.refl _, List.nodup_nil, List.nodup_nil, fun u => ?_, fun p => ?_⟩
    · rw [hc.live, Function.update_apply]
      refine ⟨fun hin => absurd hin List.not_mem_nil, ?_⟩
      rintro ⟨hlive, hdead⟩
      rw [hlive, ite_self] at hdead
      cases hdead
    · rw [hc.liveProcs]
      simp
  refine ⟨h0.st.slab.mem, init, t, x,
    ⟨k, { h0 with st := st2, pages := pageAt t :: pageAt init :: h0.pages }⟩,
    ⟨k', { h0 with st := st3, pages := pageAt x :: pageAt t :: pageAt init :: h0.pages }⟩,
    ⟨hstarts, by decide, h0, hinit, rfl, ?_⟩, .single ⟨⟨fun q hq => ?_, ?_⟩, ?_⟩⟩
  · exact .cons (.palloc hinit0 heq1) (.single (.palloc ht0 heq2))
  · exact (hcreate.1 q hq).1
  · rintro ⟨⟩
  · exact .kernel hcreate.2 hended (.single (.palloc hx0 heq3))

end Runs

end Longhorn.KernelMemory
