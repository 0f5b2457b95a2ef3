import Longhorn.PageMap
import Longhorn.SlabSafety

/-!
Runs of the page allocator after `init_alloc`: the runs of pages handed out stay
apart, inside the managed memory, and off the pages of the free map.
-/

namespace Longhorn.PageSafety

open Longhorn.Foundations.ByteMemory
open Longhorn.Foundations.Ranges
open Longhorn.Foundations.TransitionRuns
open Longhorn.AtomicSpinLock
open Longhorn.PackedBitmap
open Longhorn.SlabModel
open Longhorn.SlabTable
open Longhorn.SlabSafety
open Longhorn.KallocModel
open Longhorn.PageMap

/-- Pages handed out: their address and their number. -/
structure PageRange where
  addr : Nat
  pages : Nat
  deriving DecidableEq

def PageRange.Contains (r : PageRange) (a : Nat) : Prop :=
  r.addr ≤ a ∧ a < r.addr + pgSize * r.pages

/-- The memory manager and the pages that are handed out. -/
structure PageState where
  st : AllocState
  live : List PageRange

inductive PageOp where
  | pallocMult (cnt : Nat)
  | pfreeMult (r : PageRange)
  | write (a : Nat) (b : BitVec 8)

/-- One call, or one store of an owner into its pages.  What is given back no
longer counts as handed out, whatever code `pfree_mult` returns. -/
inductive PageStep : PageState → PageOp → PageState → Prop
  | pallocMult {t : PageState} {cnt q : Nat} {st' : AllocState} (hcnt : 0 < cnt)
      (h : pallocMult cnt t.st = some (q, st')) :
      PageStep t (.pallocMult cnt) ⟨st', if q = 0 then t.live else ⟨q, cnt⟩ :: t.live⟩
  | pfreeMult {t : PageState} {r : PageRange} {code : Int} {st' : AllocState} (hr : r ∈ t.live)
      (h : pfreeMult r.addr r.pages t.st = some (code, st')) :
      PageStep t (.pfreeMult r) ⟨st', t.live.erase r⟩
  | write {t : PageState} {r : PageRange} {a : Nat} {b : BitVec 8} (hr : r ∈ t.live)
      (ha : r.Contains a) :
      PageStep t (.write a b) { t with st := { t.st with mem := writeByte t.st.mem a b } }

/-- The boot record leaves at least one page, its size does not wrap around, and
the memory of the free map is zero. -/
structure Boots (memUpper : Nat) (mem : Memory) : Prop where
  lower : startAddr ≤ memUpper * 1024
  upper : memUpper * 1024 < 2 ^ 32
  pos : 0 < numPages memUpper
  zeroed : ∀ a, MapByte (numPages memUpper) a → mem a = 0#8

/-- Where the linker puts the kernel's data: above 1 MB and below the pages. -/
def InImage (list : Nat) : Prop := 2 ^ 20 ≤ list ∧ list + 16 ≤ startAddr

instance (list : Nat) : Decidable (InImage list) :=
  inferInstanceAs (Decidable (_ ∧ _))

/-- The pages of the slab pool; the pool is at `NULL` when no ten pages were
free. -/
def poolPages (pool : Nat) : List PageRange := if pool = 0 then [] else [⟨pool, 10⟩]

/-- The state after `init_alloc`, which has handed out the pool. -/
def PageInit (allocations memUpper : Nat) (mem : Memory) (t : PageState) : Prop :=
  initAlloc allocations memUpper (bootState mem) = some t.st ∧ t.live = poolPages t.st.slab.mem

structure PageSafe (np : Nat) (live : List PageRange) : Prop where
  inMemory : ∀ r ∈ live, ∀ a, r.Contains a → startAddr ≤ a ∧ a < startAddr + pgSize * np
  disjoint : live.Pairwise fun r q => ∀ a, r.Contains a → ¬ q.Contains a
  offMap : ∀ r ∈ live, ∀ a c, r.Contains a → MapByte np c → a / pgSize ≠ c / pgSize

/-- The pages of a run of bits. -/
def pagesOf (r : Range) : PageRange := ⟨pageAddr r.start, r.len⟩

/-- The invariant of the runs: the pages handed out are those of disjoint runs of
set bits, behind the pages of the map. -/
structure PageInv (np : Nat) (st : AllocState) (live : List PageRange) : Prop where
  fits : Fits np
  map : st.freeMap = ⟨startAddr, np⟩
  lock : st.pallocLock.val = 0
  live : ∃ runs : List Range, live.Perm (runs.map pagesOf) ∧
    Owned (PageUsed st) (mapPages np :: runs) ∧
    ∀ r ∈ runs, r.start + r.len ≤ np ∧ 0 < r.len

theorem pagesOf_injective : Function.Injective pagesOf := by
  rintro ⟨a, n⟩ ⟨b, m⟩ h
  simp only [pagesOf, pageAddr, pgSize, PageRange.mk.injEq] at h
  simp only [Range.mk.injEq]
  omega

theorem covers_of_contains {r : Range} {a : Nat} (h : (pagesOf r).Contains a) :
    startAddr ≤ a ∧ r.Covers ((a - startAddr) / pgSize) := by
  simp only [pagesOf, PageRange.Contains, pageAddr, startAddr, pgSize] at h
  simp only [Range.Covers, startAddr, pgSize]
  omega

theorem PageInv.safe {np : Nat} {st : AllocState} {live : List PageRange}
    (h : PageInv np st live) : PageSafe np live := by
  obtain ⟨runs, hlive, howned, hbound⟩ := h.live
  obtain ⟨hmap, hdisj⟩ := List.pairwise_cons.mp howned.disjoint
  refine ⟨?_, ?_, ?_⟩
  · intro r hr a ha
    obtain ⟨run, hrun, rfl⟩ := List.mem_map.mp (hlive.mem_iff.mp hr)
    obtain ⟨hle, hcov⟩ := covers_of_contains ha
    have hend := (hbound run hrun).1
    refine ⟨hle, ?_⟩
    unfold Range.Covers startAddr pgSize at *
    omega
  · refine hlive.symm.pairwise ?_ fun hd a hb ha => hd a ha hb
    rw [List.pairwise_map]
    refine hdisj.imp fun hd a ha hb => ?_
    exact hd _ (covers_of_contains ha).2 (covers_of_contains hb).2
  · intro r hr a c ha hc heq
    obtain ⟨run, hrun, rfl⟩ := List.mem_map.mp (hlive.mem_iff.mp hr)
    obtain ⟨hle, hcov⟩ := covers_of_contains ha
    refine hmap run hrun _ ?_ hcov
    simp only [MapByte, mapPages, Range.Covers, startAddr, pgSize] at *
    omega

theorem PageInv.exists_page {np : Nat} {st : AllocState} {live : List PageRange}
    (h : PageInv np st live) {r : PageRange} (hr : r ∈ live) :
    ∃ k, r.addr = pageAddr k ∧ k + r.pages ≤ np ∧ 0 < r.pages := by
  obtain ⟨runs, hlive, _, hbound⟩ := h.live
  obtain ⟨run, hrun, rfl⟩ := List.mem_map.mp (hlive.mem_iff.mp hr)
  exact ⟨run.start, rfl, hbound run hrun⟩

/-- The pages of a run that is handed out, and those of the map, are in use. -/
theorem PageInv.exists_run {np : Nat} {st : AllocState} {live : List PageRange}
    (h : PageInv np st live) {r : PageRange} (hr : r ∈ live) :
    ∃ run, r = pagesOf run ∧ run.start + run.len ≤ np ∧ AllOn (PageUsed st) run ∧
      AllOn (PageUsed st) (mapPages np) ∧ (mapPages np).Disjoint run := by
  obtain ⟨runs, hlive, howned, hbound⟩ := h.live
  obtain ⟨run, hrun, rfl⟩ := List.mem_map.mp (hlive.mem_iff.mp hr)
  exact ⟨run, rfl, (hbound run hrun).1, howned.used run (List.mem_cons_of_mem _ hrun),
    howned.used _ List.mem_cons_self, (List.pairwise_cons.mp howned.disjoint).1 run hrun⟩

theorem PageInv.perm {np : Nat} {st : AllocState} {live live' : List PageRange}
    (h : PageInv np st live) (hp : live'.Perm live) : PageInv np st live' := by
  obtain ⟨runs, hlive, hrest⟩ := h.live
  exact ⟨h.fits, h.map, h.lock, runs, hp.trans hlive, hrest⟩

/-- The invariant depends only on the map. -/
theorem PageInv.congr {np : Nat} {st st' : AllocState} {live : List PageRange}
    (h : PageInv np st live) (hmap : st'.freeMap = st.freeMap) (hlock : st'.pallocLock.val = 0)
    (hmem : AgreeOn (MapByte np) st.mem st'.mem) : PageInv np st' live := by
  obtain ⟨runs, hlive, howned, hbound⟩ := h.live
  refine ⟨h.fits, hmap.trans h.map, hlock, runs, hlive, howned.mono fun i hi => ?_, hbound⟩
  obtain ⟨hlt, hbit⟩ := hi
  have hi : i < np := by rwa [h.map] at hlt
  refine ⟨by rwa [hmap], ?_⟩
  rw [hmap, h.map, bitmapTest_congr hmem hi, ← h.map]
  exact hbit

theorem PageInv.alloc {np : Nat} {st : AllocState} {live : List PageRange}
    (h : PageInv np st live) {cnt : Nat} (hcnt : 0 < cnt) :
    (∃ k, HasFit (PageFree st) 0 np cnt ∧ k + cnt ≤ np ∧
        pallocMult cnt st = some (pageAddr k, setPages st k cnt true) ∧
        PageInv np (setPages st k cnt true) (⟨pageAddr k, cnt⟩ :: live)) ∨
      (¬ HasFit (PageFree st) 0 np cnt ∧ pallocMult cnt st = some (0, st)) := by
  refine (pallocMult_spec h.fits h.map h.lock hcnt).imp_left ?_
  rintro ⟨k, hfirst, heq⟩
  obtain ⟨runs, hlive, howned, hbound⟩ := h.live
  have hlt := h.fits.lt
  have hend : k + cnt ≤ np := hfirst.1.2.1
  have hused := pageUsed_setPages_true k cnt (by omega) (by rw [h.map]; exact hend)
  refine ⟨k, hfirst.hasFit, hend, heq, h.fits, h.map, h.lock, ⟨k, cnt⟩ :: runs, ?_, ?_, ?_⟩
  · rw [List.map_cons]
    exact hlive.cons _
  · suffices howned' : Owned (PageUsed (setPages st k cnt true))
        (⟨k, cnt⟩ :: mapPages np :: runs) from howned'.perm (List.Perm.swap _ _ _)
    refine howned.cons ?_ ?_ ?_
    · intro i hi hni
      have hfree := hfirst.1.2.2 i hi
      rw [PageFree, hni.2] at hfree
      exact absurd hfree (by decide)
    · exact fun i hi => (hused i).mpr (Or.inr hi)
    · exact fun i hi => (hused i).mpr (Or.inl hi)
  · intro r hr
    rcases List.mem_cons.mp hr with rfl | hr
    · exact ⟨hend, hcnt⟩
    · exact hbound r hr

/-- Giving pages back returns a code and changes bytes of the map only. -/
theorem PageInv.free {np : Nat} {st : AllocState} {live : List PageRange}
    (h : PageInv np st live) {r : PageRange} (hr : r ∈ live) :
    ∃ code mem', pfreeMult r.addr r.pages st = some (code, { st with mem := mem' }) ∧
      PageInv np { st with mem := mem' } (live.erase r) ∧
      AgreeOn (fun a => ¬ MapByte np a) st.mem mem' := by
  obtain ⟨runs, hlive, howned, hbound⟩ := h.live
  obtain ⟨⟨k, cnt⟩, hrun, rfl⟩ := List.mem_map.mp (hlive.mem_iff.mp hr)
  have hlt := h.fits.lt
  have hend : k + cnt ≤ np := (hbound _ hrun).1
  obtain ⟨code, heq⟩ := pfreeMult_spec h.lock (pageAddr k) cnt
  have hperm : (mapPages np :: runs).Perm (⟨k, cnt⟩ :: mapPages np :: runs.erase ⟨k, cnt⟩) :=
    ((List.perm_cons_erase hrun).cons _).trans (List.Perm.swap _ _ _)
  have hbound' : ∀ r ∈ runs.erase ⟨k, cnt⟩, r.start + r.len ≤ np ∧ 0 < r.len :=
    fun r hr => hbound r (List.mem_of_mem_erase hr)
  have hlive' : (live.erase (pagesOf ⟨k, cnt⟩)).Perm ((runs.erase ⟨k, cnt⟩).map pagesOf) := by
    rw [List.map_erase pagesOf_injective]
    exact hlive.erase _
  by_cases hacc : pfreeAccepts st (pageAddr k) cnt
  · have hnear := ((pfreeAccepts_iff h.fits h.map hend).mp hacc).1
    rw [if_pos hacc, pageIdx_pageAddr hnear] at heq
    refine ⟨code, _, heq, ⟨h.fits, h.map, h.lock, _, hlive', ?_, hbound'⟩, ?_⟩
    · refine (howned.perm hperm).tail fun i hi hui => ?_
      exact (pageUsed_setPages_false (by omega) i).mpr ⟨hi, hui⟩
    · exact fun a ha => setPages_of_outside h.fits h.map hend ha false
  · rw [if_neg hacc] at heq
    refine ⟨code, st.mem, heq, ⟨h.fits, h.map, h.lock, _, hlive', ?_, hbound'⟩, AgreeOn.refl _ _⟩
    exact (howned.perm hperm).of_cons

/-- A store into pages that are handed out misses the map. -/
theorem PageInv.agreeOn_write {np : Nat} {st : AllocState} {live : List PageRange}
    (h : PageInv np st live) {r : PageRange} (hr : r ∈ live) {a : Nat} (ha : r.Contains a)
    (b : BitVec 8) : AgreeOn (MapByte np) st.mem (writeByte st.mem a b) := by
  intro c hc
  refine writeByte_of_ne ?_ st.mem b
  rintro rfl
  exact h.safe.offMap r hr c c ha hc rfl

theorem PageInv.write {np : Nat} {st : AllocState} {live : List PageRange}
    (h : PageInv np st live) {r : PageRange} (hr : r ∈ live) {a : Nat} (ha : r.Contains a)
    (b : BitVec 8) : PageInv np { st with mem := writeByte st.mem a b } live :=
  h.congr rfl h.lock (h.agreeOn_write hr ha b)

theorem PageInv.step {np : Nat} {t u : PageState} {op : PageOp} (h : PageInv np t.st t.live)
    (hstep : PageStep t op u) : PageInv np u.st u.live := by
  cases hstep with
  | pallocMult hcnt heq =>
      rcases h.alloc hcnt with ⟨k, _, _, heq', hinv⟩ | ⟨_, heq'⟩
      · rw [heq', Option.some_inj, Prod.mk.injEq] at heq
        obtain ⟨rfl, rfl⟩ := heq
        simpa only [pageAddr_ne_zero, ↓reduceIte] using hinv
      · rw [heq', Option.some_inj, Prod.mk.injEq] at heq
        obtain ⟨rfl, rfl⟩ := heq
        exact h
  | pfreeMult hr heq =>
      obtain ⟨code, mem', heq', hinv, _⟩ := h.free hr
      rw [heq', Option.some_inj, Prod.mk.injEq] at heq
      obtain ⟨_, rfl⟩ := heq
      exact hinv
  | write hr ha => exact h.write hr ha _

theorem numPages_eq {memUpper : Nat} (hlo : startAddr ≤ memUpper * 1024)
    (hhi : memUpper * 1024 < 2 ^ 32) :
    numPages memUpper = (memUpper * 1024 - startAddr) / pgSize := by
  rw [numPages, wrap_of_lt hhi, wrapSub_of_le hhi hlo]

theorem Boots.fits {memUpper : Nat} {mem : Memory} (h : Boots memUpper mem) :
    Fits (numPages memUpper) := by
  refine ⟨h.pos, ?_⟩
  have hlo := h.lower
  have hhi := h.upper
  rw [numPages_eq hlo hhi]
  unfold startAddr pgSize at *
  omega

/-- The four words that `list_init` writes. -/
theorem listInit_of_outside {list a : Nat} (hlist : InImage list) (ha : a < list ∨ list + 16 ≤ a)
    (mem : Memory) : listInit list mem a = mem a := by
  obtain ⟨_, hhi⟩ := hlist
  unfold startAddr at hhi
  simp only [listInit]
  rw [wrap_of_lt (by omega), wrap_of_lt (by omega), wrap_of_lt (by omega),
    writePtr_of_outside (by omega), writePtr_of_outside (by omega), writePtr_of_outside (by omega),
    writePtr_of_outside (by omega)]

/-- The state of `init_alloc` when it asks for the pool. -/
def mapReady (allocations memUpper : Nat) (mem : Memory) : AllocState :=
  { bootState mem with
    freeMap := ⟨startAddr, numPages memUpper⟩
    mem := listInit allocations
      (bitmapSetRange ⟨startAddr, numPages memUpper⟩ 0
        (numPages memUpper / pgSize + 1) true mem).1 }

/-- The bits of the pages of the map are set, the others are as they were. -/
theorem bitmapTest_mapReady_of_lt {allocations memUpper : Nat} (mem : Memory)
    (hlist : InImage allocations) {i : Nat} (hi : i < numPages memUpper) :
    bitmapTest ⟨startAddr, numPages memUpper⟩ i (mapReady allocations memUpper mem).mem =
      if (mapPages (numPages memUpper)).Covers i then true
      else bitmapTest ⟨startAddr, numPages memUpper⟩ i mem := by
  have hnp : numPages memUpper < 2 ^ 20 := by
    unfold numPages wrapSub wrap pgSize
    omega
  have hagree : AgreeOn (MapByte (numPages memUpper))
      (bitmapSetRange ⟨startAddr, numPages memUpper⟩ 0 (numPages memUpper / pgSize + 1) true mem).1
      (mapReady allocations memUpper mem).mem := by
    intro a ha
    refine listInit_of_outside hlist (Or.inr ?_) _
    exact hlist.2.trans ha.1
  rw [bitmapTest_congr hagree hi, bitmapTest_bitmapSetRange _ (by unfold pgSize; omega), ← mapPages]

/-- The bits that are set when `init_alloc` asks for the pool. -/
theorem bitmapTest_mapReady {allocations memUpper : Nat} {mem : Memory} (h : Boots memUpper mem)
    (hlist : InImage allocations) {i : Nat} (hi : i < numPages memUpper) :
    bitmapTest ⟨startAddr, numPages memUpper⟩ i (mapReady allocations memUpper mem).mem =
      decide ((mapPages (numPages memUpper)).Covers i) := by
  have hzero : AgreeOn (MapByte (numPages memUpper)) (fun _ => 0#8) mem := h.zeroed
  rw [bitmapTest_mapReady_of_lt mem hlist hi]
  split
  · next hcov => exact (decide_eq_true hcov).symm
  · next hcov =>
      rw [bitmapTest_congr hzero hi, bitmapTest_eq_getLsbD, decide_eq_false hcov]
      simp [readWord]

theorem mapReady_inv {allocations memUpper : Nat} {mem : Memory} (h : Boots memUpper mem)
    (hlist : InImage allocations) :
    PageInv (numPages memUpper) (mapReady allocations memUpper mem) [] := by
  have hpre := mapPages_le h.fits
  refine ⟨h.fits, rfl, rfl, [], List.Perm.refl _, ?_, by simp⟩
  refine ⟨List.pairwise_singleton _ _, fun r hr i hi => ?_⟩
  obtain rfl := List.mem_singleton.mp hr
  have hinp : i < numPages memUpper := by
    obtain ⟨_, hi⟩ := hi
    omega
  exact ⟨hinp, (bitmapTest_mapReady h hlist hinp).trans (decide_eq_true hi)⟩

/-- Behind the pages of the map every bit is clear. -/
theorem pageFree_mapReady {allocations memUpper : Nat} {mem : Memory} (h : Boots memUpper mem)
    (hlist : InImage allocations) {i : Nat} (hi : i < numPages memUpper)
    (hout : ¬ (mapPages (numPages memUpper)).Covers i) :
    PageFree (mapReady allocations memUpper mem) i :=
  (bitmapTest_mapReady h hlist hi).trans (decide_eq_false hout)

theorem poolTable_of_outside {p a : Nat} (ha : a < p ∨ p + sizeofSlab * poolEntries ≤ a)
    (mem : Memory) : poolTable p mem a = mem a :=
  writeTable_of_outside ha mem

/-- `init_alloc` asks for the pool and hands it to `slab_init`. -/
theorem initAlloc_eq_bind (allocations memUpper : Nat) (mem : Memory) :
    initAlloc allocations memUpper (bootState mem) =
      (pallocMult 10 (mapReady allocations memUpper mem)).bind fun pages =>
        (slabInit pages.1 poolSize poolSlabSize pages.2.slab pages.2.mem).bind fun made =>
          some { pages.2 with
            slab := made.2.1
            mem := made.2.2
            mallocLock := spinLockInit
            pallocLock := spinLockInit } :=
  rfl

/-- `init_alloc` ends, with the pool at the first ten free pages or at `NULL`. -/
theorem initAlloc_spec {allocations memUpper : Nat} {mem : Memory} (h : Boots memUpper mem)
    (hlist : InImage allocations) :
    ∃ pool st, PageInv (numPages memUpper) st (poolPages pool) ∧
      (pool = 0 ↔ ¬ HasFit (PageFree (mapReady allocations memUpper mem)) 0
        (numPages memUpper) 10) ∧
      pool % pgSize = 0 ∧ pool + poolSize < 2 ^ 32 ∧
      AgreeOn (fun a => ¬ MapByte (numPages memUpper) a)
        (mapReady allocations memUpper mem).mem st.mem ∧
      initAlloc allocations memUpper (bootState mem) =
        some { st with
          slab := poolAllocator pool
          mem := poolTable pool st.mem
          mallocLock := spinLockInit
          pallocLock := spinLockInit } := by
  have hready := mapReady_inv h hlist
  have hfits := h.fits
  have hinit : ∀ pool st, pool + poolSize < 2 ^ 32 →
      pallocMult 10 (mapReady allocations memUpper mem) = some (pool, st) →
      initAlloc allocations memUpper (bootState mem) =
        some { st with
          slab := poolAllocator pool
          mem := poolTable pool st.mem
          mallocLock := spinLockInit
          pallocLock := spinLockInit } := by
    intro pool st hpool heq
    rw [initAlloc_eq_bind, heq, Option.bind_some, slabInit_pool hpool, Option.bind_some]
  rcases hready.alloc (show 0 < 10 by decide) with ⟨k, hfit, hend, heq, hinv⟩ | ⟨hnone, heq⟩
  · have hpool : pageAddr k + poolSize < 2 ^ 32 := by
      have hlo := h.lower
      have hhi := h.upper
      rw [numPages_eq hlo hhi] at hend
      unfold pageAddr poolSize
      unfold startAddr pgSize at *
      omega
    have haligned : pageAddr k % pgSize = 0 := by
      simp only [pageAddr, startAddr, pgSize]
      omega
    refine ⟨pageAddr k, _, ?_, ?_, haligned, hpool, ?_, hinit _ _ hpool heq⟩
    · rw [poolPages, if_neg (pageAddr_ne_zero k)]
      exact hinv
    · exact iff_of_false (pageAddr_ne_zero k) (not_not_intro hfit)
    · exact fun a ha => setPages_of_outside hfits rfl hend ha true
  · refine ⟨0, _, hready, iff_of_true rfl hnone, rfl, by decide, AgreeOn.refl _ _, ?_⟩
    exact hinit _ _ (by decide) heq

/-- The table of the pool is in the pages of the pool, or below the map. -/
theorem poolTable_agreeOn_map {np pool : Nat} {st : AllocState}
    (h : PageInv np st (poolPages pool)) :
    AgreeOn (MapByte np) st.mem (poolTable pool st.mem) := by
  intro a ha
  refine poolTable_of_outside ?_ st.mem
  have htable : sizeofSlab * poolEntries = 4480 := rfl
  by_cases hpool : pool = 0
  · have := ha.1
    unfold startAddr at this
    omega
  · by_contra hin
    refine h.safe.offMap ⟨pool, 10⟩ (by simp [poolPages, hpool]) a a ⟨?_, ?_⟩ ha rfl
    · simp only
      omega
    · simp only [pgSize]
      omega

theorem PageInit.inv {allocations memUpper : Nat} {mem : Memory} {t : PageState}
    (hboot : Boots memUpper mem) (hlist : InImage allocations)
    (h : PageInit allocations memUpper mem t) : PageInv (numPages memUpper) t.st t.live := by
  obtain ⟨pool, st, hinv, _, _, _, _, heq⟩ := initAlloc_spec hboot hlist
  obtain ⟨hst, hlive⟩ := h
  rw [heq, Option.some_inj] at hst
  rw [hlive, ← hst]
  have hagree := poolTable_agreeOn_map hinv
  exact hinv.congr rfl rfl (by simpa only using hagree)

theorem exists_pageInit {allocations memUpper : Nat} {mem : Memory} (hboot : Boots memUpper mem)
    (hlist : InImage allocations) : ∃ t, PageInit allocations memUpper mem t := by
  obtain ⟨pool, st, _, _, _, _, _, heq⟩ := initAlloc_spec hboot hlist
  exact ⟨⟨_, poolPages pool⟩, heq, rfl⟩

theorem PageInv.exists_step {np : Nat} {t : PageState} (h : PageInv np t.st t.live) {cnt : Nat}
    (hcnt : 0 < cnt) : ∃ u, PageStep t (.pallocMult cnt) u := by
  rcases h.alloc hcnt with ⟨k, _, _, heq, _⟩ | ⟨_, heq⟩
  · exact ⟨_, .pallocMult hcnt heq⟩
  · exact ⟨_, .pallocMult hcnt heq⟩

/-- Every state reached is safe, and `palloc_mult` returns `NULL` exactly when the
free map has no `cnt` consecutive clear bits. -/
theorem page_safe_of_run {allocations memUpper : Nat} {mem : Memory} {t u : PageState}
    {ops : List PageOp} (hboot : Boots memUpper mem) (hlist : InImage allocations)
    (hinit : PageInit allocations memUpper mem t) (hrun : Run PageStep t ops u) :
    PageSafe (numPages memUpper) u.live ∧
      ∀ cnt, 0 < cnt → ∃ q st', pallocMult cnt u.st = some (q, st') ∧
        (q = 0 ↔ ¬ HasFit (PageFree u.st) 0 (numPages memUpper) cnt) := by
  have hinv : PageInv (numPages memUpper) u.st u.live :=
    Run.invariant (fun t => PageInv (numPages memUpper) t.st t.live)
      (fun _ _ _ h hstep => h.step hstep) hrun (hinit.inv hboot hlist)
  refine ⟨hinv.safe, fun cnt hcnt => ?_⟩
  rcases hinv.alloc hcnt with ⟨k, hfit, _, heq, _⟩ | ⟨hnone, heq⟩
  · exact ⟨_, _, heq, iff_of_false (pageAddr_ne_zero k) (not_not_intro hfit)⟩
  · exact ⟨_, _, heq, iff_of_true rfl hnone⟩

/-- A machine with twelve pages. -/
theorem page_safe_of_run_palloc : ∃ t u, PageInit 1048576 4144 (fun _ => 0#8) t ∧
    Run PageStep t [.pallocMult 1] u ∧ PageSafe (numPages 4144) u.live := by
  have hboot : Boots 4144 fun _ => 0#8 := ⟨by decide, by decide, by decide, fun _ _ => rfl⟩
  have hlist : InImage 1048576 := by decide
  obtain ⟨t, hinit⟩ := exists_pageInit hboot hlist
  obtain ⟨u, hstep⟩ := (hinit.inv hboot hlist).exists_step Nat.one_pos
  exact ⟨t, u, hinit, .single hstep, (page_safe_of_run hboot hlist hinit (.single hstep)).1⟩

end Longhorn.PageSafety
