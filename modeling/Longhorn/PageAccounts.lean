import Longhorn.PageSafety

/-!
What the pages in use are: those of the free map, those handed out, and those that
`pfree_mult` did not take back.
-/

namespace Longhorn.PageAccounts

open Longhorn.Foundations.ByteMemory
open Longhorn.Foundations.Ranges
open Longhorn.Foundations.TransitionRuns
open Longhorn.AtomicSpinLock
open Longhorn.PackedBitmap
open Longhorn.SlabModel
open Longhorn.SlabSafety
open Longhorn.KallocModel
open Longhorn.PageMap
open Longhorn.PageSafety

def numAllocated (st : AllocState) : Nat :=
  bitmapCountRange st.freeMap 0 st.freeMap.bits st.mem

def mapSize (st : AllocState) : Nat := st.freeMap.bits

/-- The pages end with the last one of the map, or begin 2 GB or more behind the first. -/
def Unreturnable (np : Nat) (r : PageRange) : Prop :=
  r.addr + pgSize * r.pages = pageAddr np ∨ startAddr + 2 ^ 31 ≤ r.addr

def pageCount (held : List PageRange) : Nat := (held.map PageRange.pages).sum

/-- The pages in use are those of the map and of `held`. -/
structure Ledger (np : Nat) (st : AllocState) (held : List PageRange) : Prop where
  inv : PageInv np st held
  covered : ∀ i, PageUsed st i → (mapPages np).Covers i ∨ ∃ r ∈ held, r.Contains (pageAddr i)

instance (st : AllocState) : DecidablePred (PageUsed st) :=
  fun _ => inferInstanceAs (Decidable (_ ∧ _))

section Ledger

variable {np : Nat} {st : AllocState} {held : List PageRange}

theorem pagesOf_contains (run : Range) {i : Nat} :
    (pagesOf run).Contains (pageAddr i) ↔ run.Covers i := by
  simp only [pagesOf, PageRange.Contains, pageAddr, pgSize, Range.Covers]
  omega

theorem countP_range (p : Nat → Bool) (n : Nat) :
    (List.range n).countP p = Nat.count (fun i => p i = true) n := by
  induction n with
  | zero => rfl
  | succ n ih =>
      rw [List.range_succ, List.countP_append, ih, Nat.count_succ, List.countP_singleton]

/-- `num_allocated` counts the pages whose bit is set. -/
theorem numAllocated_eq_count (hmap : st.freeMap = ⟨startAddr, np⟩) (hnp : np < 2 ^ 32) :
    numAllocated st = Nat.count (PageUsed st) np := by
  rw [numAllocated, hmap, bitmapCountRange, Nat.zero_add, wrap_of_lt hnp, Nat.sub_zero,
    countRangeLoop_eq, Nat.zero_add, ← List.range_eq_range', countP_range]
  refine le_antisymm (Nat.count_mono_left fun i hi hbit => ?_)
    (Nat.count_mono_left fun i _ hused => ?_)
  · rw [PageUsed, hmap]
    exact ⟨hi, hbit⟩
  · rw [PageUsed, hmap] at hused
    exact hused.2

theorem Ledger.numAllocated_eq (h : Ledger np st held) :
    numAllocated st = (mapPages np).len + pageCount held := by
  obtain ⟨runs, hheld, howned, hbound⟩ := h.inv.live
  have hlt := h.inv.fits.lt
  rw [numAllocated_eq_count h.inv.map (by omega)]
  refine (howned.count_of_covered ?_ fun i _ hused => ?_).trans ?_
  · intro r hr
    rcases List.mem_cons.mp hr with rfl | hr
    · exact mapPages_le h.inv.fits
    · exact (hbound r hr).1
  · rcases h.covered i hused with hmap | ⟨r, hr, hin⟩
    · exact ⟨_, List.mem_cons_self, hmap⟩
    · obtain ⟨run, hrun, rfl⟩ := List.mem_map.mp (hheld.mem_iff.mp hr)
      exact ⟨run, List.mem_cons_of_mem _ hrun, (pagesOf_contains _).mp hin⟩
  · rw [pageCount, (hheld.map PageRange.pages).sum_eq, List.map_map, List.map_cons, List.sum_cons]
    rfl

theorem Ledger.perm {held' : List PageRange} (h : Ledger np st held) (hp : held'.Perm held) :
    Ledger np st held' := by
  refine ⟨h.inv.perm hp, fun i hi => (h.covered i hi).imp_right ?_⟩
  rintro ⟨r, hr, hin⟩
  exact ⟨r, hp.mem_iff.mpr hr, hin⟩

theorem Ledger.congr {st' : AllocState} (h : Ledger np st held) (hmap : st'.freeMap = st.freeMap)
    (hlock : st'.pallocLock.val = 0) (hmem : AgreeOn (MapByte np) st.mem st'.mem) :
    Ledger np st' held := by
  refine ⟨h.inv.congr hmap hlock hmem, fun i hi => h.covered i ?_⟩
  obtain ⟨hlt, hbit⟩ := hi
  rw [hmap] at hlt hbit
  have hi : i < np := by rwa [h.inv.map] at hlt
  refine ⟨hlt, ?_⟩
  rw [h.inv.map] at hbit ⊢
  rwa [bitmapTest_congr hmem hi] at hbit

/-- Pages that are handed out are entered, and none are when no run of them is free. -/
theorem Ledger.alloc (h : Ledger np st held) {cnt : Nat} (hcnt : 0 < cnt) :
    (∃ k, HasFit (PageFree st) 0 np cnt ∧
        pallocMult cnt st = some (pageAddr k, setPages st k cnt true) ∧
        Ledger np (setPages st k cnt true) (⟨pageAddr k, cnt⟩ :: held)) ∨
      (¬ HasFit (PageFree st) 0 np cnt ∧ pallocMult cnt st = some (0, st)) := by
  refine (h.inv.alloc hcnt).imp_left ?_
  rintro ⟨k, hfit, hend, heq, hinv⟩
  refine ⟨k, hfit, heq, hinv, fun i hi => ?_⟩
  have hlt := h.inv.fits.lt
  have hbits : k + cnt ≤ st.freeMap.bits := by rw [h.inv.map]; exact hend
  rcases (pageUsed_setPages_true k cnt (by omega) hbits i).mp hi with hnew | hold
  · exact Or.inr ⟨_, List.mem_cons_self, (pagesOf_contains ⟨k, cnt⟩).mpr hnew⟩
  · refine (h.covered i hold).imp_right ?_
    rintro ⟨r, hr, hin⟩
    exact ⟨r, List.mem_cons_of_mem _ hr, hin⟩

/-- Pages that are given back are taken out, unless they lie where `pfree_mult` accepts
none. -/
theorem Ledger.free (h : Ledger np st held) {r : PageRange} (hr : r ∈ held) :
    ∃ code mem', pfreeMult r.addr r.pages st = some (code, { st with mem := mem' }) ∧
      AgreeOn (fun a => ¬ MapByte np a) st.mem mem' ∧
      (Ledger np { st with mem := mem' } (held.erase r) ∨ mem' = st.mem ∧ Unreturnable np r) := by
  obtain ⟨code, mem', heq, hinv, hagree⟩ := h.inv.free hr
  refine ⟨code, mem', heq, hagree, ?_⟩
  obtain ⟨run, rfl, hend, hused, _⟩ := h.inv.exists_run hr
  obtain ⟨code', hspec⟩ := pfreeMult_spec h.inv.lock (pagesOf run).addr (pagesOf run).pages
  rw [heq, Option.some_inj, Prod.mk.injEq] at hspec
  have hiff := pfreeAccepts_iff h.inv.fits h.inv.map hend
  by_cases hacc : pfreeAccepts st (pageAddr run.start) run.len
  · obtain ⟨hnear, _, _⟩ := hiff.mp hacc
    have hlt := h.inv.fits.lt
    have hst : { st with mem := mem' } = setPages st run.start run.len false := by
      rw [hspec.2]
      exact (if_pos hacc).trans (by rw [pagesOf, pageIdx_pageAddr hnear])
    refine Or.inl ⟨hinv, fun i hi => ?_⟩
    rw [hst, pageUsed_setPages_false (by omega)] at hi
    refine (h.covered i hi.2).imp_right ?_
    rintro ⟨q, hq, hin⟩
    refine ⟨q, (List.mem_erase_of_ne ?_).mpr hq, hin⟩
    rintro rfl
    exact hi.1 ((pagesOf_contains _).mp hin)
  · refine Or.inr ⟨?_, ?_⟩
    · have hst : { st with mem := mem' } = st := by
        rw [hspec.2]
        exact if_neg hacc
      exact congrArg AllocState.mem hst
    · rw [hiff] at hacc
      simp only [Unreturnable, pagesOf, pageAddr]
      have hfar : 2 ^ 31 ≤ pgSize * run.start ∨ run.start + run.len = np := by
        by_contra hno
        exact hacc ⟨by omega, by omega, hused⟩
      unfold startAddr pgSize at *
      omega

theorem Ledger.hasFit_iff (h : Ledger np st held) :
    HasFit (PageFree st) 0 np 1 ↔ numAllocated st ≠ np := by
  have hlt := h.inv.fits.lt
  rw [numAllocated_eq_count h.inv.map (by omega), ne_eq, Nat.count_iff_forall]
  simp only [not_forall, HasFit, AllOn, Range.Covers, PageFree, PageUsed]
  constructor
  · rintro ⟨b, _, hend, hfree⟩
    refine ⟨b, by omega, fun hused => ?_⟩
    rw [hfree b ⟨le_rfl, by omega⟩] at hused
    exact Bool.false_ne_true hused.2
  · rintro ⟨b, hb, hfree⟩
    refine ⟨b, b.zero_le, hb, fun i hi => ?_⟩
    obtain rfl : i = b := by omega
    rw [← Bool.not_eq_true]
    intro hbit
    refine hfree ⟨?_, hbit⟩
    rwa [h.inv.map]

theorem Ledger.palloc_null_iff (h : Ledger np st held) :
    (∃ st', palloc st = some (0, st')) ↔ numAllocated st = mapSize st := by
  have hsize : mapSize st = np := by rw [mapSize, h.inv.map]
  rw [hsize, ← not_iff_not, ← ne_eq, ← h.hasFit_iff]
  rcases h.alloc Nat.one_pos with ⟨k, hfit, heq, _⟩ | ⟨hnone, heq⟩
  · refine iff_of_true ?_ hfit
    rintro ⟨st', hnull⟩
    rw [palloc, heq, Option.some_inj, Prod.mk.injEq] at hnull
    exact pageAddr_ne_zero k hnull.1
  · exact iff_of_false (not_not_intro ⟨st, heq⟩) hnone

/-- Below 2 GB only one run of pages can end where `pfree_mult` accepts none. -/
theorem Ledger.length_le_one {live lost : List PageRange} (h : Ledger np st (live ++ lost))
    (hlost : ∀ r ∈ lost, Unreturnable np r) (hnp : np ≤ 2 ^ 19) : lost.length ≤ 1 := by
  have hlast : ∀ r ∈ lost, r.Contains (pageAddr np - 1) := by
    intro r hr
    obtain ⟨k, hk, hend, hpos⟩ := h.inv.exists_page (List.mem_append_right live hr)
    have hout := hlost r hr
    simp only [Unreturnable, PageRange.Contains, hk, pageAddr, startAddr, pgSize] at *
    omega
  have hdisj := (List.pairwise_append.mp h.inv.safe.disjoint).2.1
  rcases lost with _ | ⟨r, _ | ⟨q, rest⟩⟩
  · exact Nat.zero_le 1
  · exact le_rfl
  · have hrq := (List.pairwise_cons.mp hdisj).1 q List.mem_cons_self
    exact absurd (hlast q (by simp)) (hrq _ (hlast r List.mem_cons_self))

end Ledger

section Start

variable {allocations memUpper : Nat} {mem : Memory}

theorem ledger_mapReady (hboot : Boots memUpper mem) (hlist : InImage allocations) :
    Ledger (numPages memUpper) (mapReady allocations memUpper mem) [] := by
  refine ⟨mapReady_inv hboot hlist, fun i hi => Or.inl ?_⟩
  by_contra hout
  have hbit := hi.2.symm.trans (pageFree_mapReady hboot hlist hi.1 hout)
  exact Bool.false_ne_true hbit.symm

/-- After `init_alloc` the pages in use are those of the map and those of the pool. -/
theorem ledger_initAlloc (hboot : Boots memUpper mem) (hlist : InImage allocations)
    {st : AllocState} (hst : initAlloc allocations memUpper (bootState mem) = some st) :
    Ledger (numPages memUpper) st (poolPages st.slab.mem) := by
  have hready := ledger_mapReady hboot hlist
  have hmade : ∀ pool st', pool + poolSize < 2 ^ 32 →
      pallocMult 10 (mapReady allocations memUpper mem) = some (pool, st') →
      Ledger (numPages memUpper) st' (poolPages pool) →
      Ledger (numPages memUpper) st (poolPages st.slab.mem) := by
    intro pool st' hpool heq hledger
    rw [initAlloc_eq_bind, heq, Option.bind_some, slabInit_pool hpool, Option.bind_some,
      Option.some_inj] at hst
    rw [← hst]
    have hagree := poolTable_agreeOn_map hledger.inv
    exact hledger.congr rfl rfl (by simpa only using hagree)
  rcases hready.alloc (show 0 < 10 by decide) with ⟨k, _, heq, hledger⟩ | ⟨_, heq⟩
  · obtain ⟨i, hi, hend, _⟩ := hledger.inv.exists_page List.mem_cons_self
    have hspace := hready.inv.fits.inSpace
    refine hmade _ _ ?_ heq ?_
    · simp only [pageAddr, startAddr, pgSize, poolSize] at *
      omega
    · rwa [poolPages, if_neg (pageAddr_ne_zero k)]
  · exact hmade _ _ (by decide) heq hready

end Start

/-- One call keeps the accounts, and what it loses was given back where `pfree_mult`
accepts none. -/
theorem Ledger.step {np : Nat} {t u : PageState} {op : PageOp} {lost : List PageRange}
    (h : Ledger np t.st (t.live ++ lost)) (hstep : PageStep t op u) :
    Ledger np u.st (u.live ++ lost) ∨
      ∃ r, op = .pfreeMult r ∧ Unreturnable np r ∧ Ledger np u.st (u.live ++ r :: lost) := by
  cases hstep with
  | pallocMult hcnt heq =>
      left
      rcases h.alloc hcnt with ⟨k, _, heq', hledger⟩ | ⟨_, heq'⟩
      · rw [heq', Option.some_inj, Prod.mk.injEq] at heq
        obtain ⟨rfl, rfl⟩ := heq
        simpa only [pageAddr_ne_zero, ↓reduceIte, List.cons_append] using hledger
      · rw [heq', Option.some_inj, Prod.mk.injEq] at heq
        obtain ⟨rfl, rfl⟩ := heq
        exact h
  | @pfreeMult r code st' hr heq =>
      obtain ⟨code', mem', heq', _, hout⟩ := h.free (List.mem_append_left lost hr)
      rw [heq', Option.some_inj, Prod.mk.injEq] at heq
      obtain ⟨_, rfl⟩ := heq
      refine hout.imp (fun hledger => ?_) ?_
      · rwa [List.erase_append_left _ hr] at hledger
      · rintro ⟨rfl, hlast⟩
        refine ⟨r, rfl, hlast, h.perm ?_⟩
        exact List.perm_middle.trans ((List.perm_cons_erase hr).symm.append_right lost)
  | write hr ha =>
      exact Or.inl (h.congr rfl h.inv.lock
        (h.inv.agreeOn_write (List.mem_append_left lost hr) ha _))

/-- In every run the pages in use are those of the map, those handed out, and those of the
calls of `pfree_mult` that ended with the last page or lay behind 2 GB: the count adds up,
`palloc` fails only when it has reached the size of the map, and below 2 GB at most one
call in the run has lost its pages. -/
theorem num_allocated_of_run {allocations memUpper : Nat} {mem : Memory} {t u : PageState}
    {ops : List PageOp} (hboot : Boots memUpper mem) (hlist : InImage allocations)
    (hinit : PageInit allocations memUpper mem t) (hrun : Run PageStep t ops u) :
    ∃ lost, (∀ r ∈ lost, .pfreeMult r ∈ ops ∧ Unreturnable (numPages memUpper) r) ∧
      PageSafe (numPages memUpper) (u.live ++ lost) ∧
      numAllocated u.st =
        (mapPages (numPages memUpper)).len + pageCount u.live + pageCount lost ∧
      ((∃ st', palloc u.st = some (0, st')) ↔ numAllocated u.st = mapSize u.st) ∧
      (numPages memUpper ≤ 2 ^ 19 → lost.length ≤ 1) := by
  have hledger : ∃ lost, (∀ r ∈ lost, .pfreeMult r ∈ [] ++ ops ∧
      Unreturnable (numPages memUpper) r) ∧ Ledger (numPages memUpper) u.st (u.live ++ lost) := by
    refine hrun.trace_invariant (fun ops u => ∃ lost, (∀ r ∈ lost, .pfreeMult r ∈ ops ∧
      Unreturnable (numPages memUpper) r) ∧
      Ledger (numPages memUpper) u.st (u.live ++ lost)) ?_ ⟨[], by simp, ?_⟩
    · rintro ops s op s' ⟨lost, hlost, hledger⟩ hstep
      have hlater : ∀ r ∈ lost, .pfreeMult r ∈ ops ++ [op] ∧ Unreturnable (numPages memUpper) r :=
        fun r hr => ⟨List.mem_append_left _ (hlost r hr).1, (hlost r hr).2⟩
      rcases hledger.step hstep with hledger' | ⟨r, rfl, hlast, hledger'⟩
      · exact ⟨lost, hlater, hledger'⟩
      · refine ⟨r :: lost, fun q hq => ?_, hledger'⟩
        rcases List.mem_cons.mp hq with rfl | hq
        · exact ⟨List.mem_append_right _ List.mem_cons_self, hlast⟩
        · exact hlater q hq
    · rw [List.append_nil, hinit.2]
      exact ledger_initAlloc hboot hlist hinit.1
  obtain ⟨lost, hlost, hledger⟩ := hledger
  refine ⟨lost, hlost, hledger.inv.safe, ?_, hledger.palloc_null_iff,
    hledger.length_le_one fun r hr => (hlost r hr).2⟩
  rw [hledger.numAllocated_eq, pageCount, List.map_append, List.sum_append, Nat.add_assoc]
  rfl

theorem pageCount_poolPages (pool : Nat) : pageCount (poolPages pool) ≤ 10 := by
  unfold poolPages
  split <;> simp [pageCount]

/-- On a machine with twelve pages a page is taken and given back. -/
theorem num_allocated_of_run_free : ∃ t u r, PageInit 1048576 4144 (fun _ => 0#8) t ∧
    Run PageStep t [.pallocMult 1, .pfreeMult r] u ∧ ∃ lost, (∀ q ∈ lost, q = r) ∧
      numAllocated u.st = 1 + pageCount u.live + pageCount lost := by
  have hboot : Boots 4144 fun _ => 0#8 := ⟨by decide, by decide, by decide, fun _ _ => rfl⟩
  have hlist : InImage 1048576 := by decide
  have hnp : numPages 4144 = 12 := by decide
  obtain ⟨t, hinit⟩ := exists_pageInit hboot hlist
  have hledger := ledger_initAlloc hboot hlist hinit.1
  rw [← hinit.2] at hledger
  have hfit : HasFit (PageFree t.st) 0 (numPages 4144) 1 := by
    have hpool := pageCount_poolPages t.st.slab.mem
    rw [hledger.hasFit_iff, hledger.numAllocated_eq, hinit.2, hnp]
    simp only [mapPages, pgSize]
    omega
  rcases hledger.alloc Nat.one_pos with ⟨k, _, heq, htaken⟩ | ⟨hnone, _⟩
  · obtain ⟨code, mem', hfree, _, _⟩ := htaken.free List.mem_cons_self
    have htake := PageStep.pallocMult Nat.one_pos heq
    rw [if_neg (pageAddr_ne_zero k)] at htake
    have hrun := Run.cons htake (.single (.pfreeMult List.mem_cons_self hfree))
    obtain ⟨lost, hlost, _, hcount, _⟩ := num_allocated_of_run hboot hlist hinit hrun
    refine ⟨t, _, ⟨pageAddr k, 1⟩, hinit, hrun, lost, fun q hq => ?_, hcount⟩
    have hop := (hlost q hq).1
    simp only [List.mem_cons, reduceCtorEq, PageOp.pfreeMult.injEq, List.not_mem_nil,
      or_false, false_or] at hop
    exact hop
  · exact absurd hfit hnone

end Longhorn.PageAccounts
