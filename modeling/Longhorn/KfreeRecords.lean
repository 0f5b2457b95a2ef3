import Longhorn.HeapSafety
import Longhorn.PageFrees

/-!
What `kfree` does with a block of the pool.  The records stay on their list for ever,
also after `pfree` has cleared the bit of a page of the pool.
-/

namespace Longhorn.KfreeRecords

open Longhorn.Foundations.ByteMemory
open Longhorn.Foundations.Ranges
open Longhorn.Foundations.TransitionRuns
open Longhorn.AtomicSpinLock
open Longhorn.PackedBitmap
open Longhorn.SlabModel
open Longhorn.SlabTable
open Longhorn.SlabSafety
open Longhorn.KallocModel
open Longhorn.PageMap
open Longhorn.PageSafety
open Longhorn.PageFrees
open Longhorn.KmallocRecords
open Longhorn.HeapSafety

/-- The slabs of the block and of its record at `a` are free again, and no others; the
record has left the list; and the page map is the same. -/
structure GivesBack (list : Nat) (st st' : AllocState) (b : Block) (a : Nat) : Prop where
  record : ∃ records, RecordList list st.mem records ∧ a ∈ records ∧
    readPtr st.mem (a + offsetofAddr) = b.addr ∧ RecordList list st'.mem (records.erase a)
  flags : ∀ k, k < poolEntries →
    (slabIsFree st'.slab st'.mem k = true ↔ slabIsFree st.slab st.mem k = true ∨
      b.region.Contains (slabAddr st.slab st.mem k) ∨
        (recordRegion a).Contains (slabAddr st.slab st.mem k))
  freeMem : st'.slab.freeMemSize =
    st.slab.freeMemSize + poolSlabSize * (b.region.slabs + (recordRegion a).slabs)
  map : ∀ i, PageUsed st' i ↔ PageUsed st i

/-- `kfree` succeeds and gives back what `kmalloc` took. -/
def KfreeGivesBack (list : Nat) (st : AllocState) (b : Block) : Prop :=
  ∃ st', kfree list b.addr st = some (memFreeSucc, st') ∧ ∃ a, GivesBack list st st' b a

/-- `kfree` fails, and the allocator, its table and the records are as before. -/
def KfreeKeepsAll (pool list : Nat) (st : AllocState) (b : Block) : Prop :=
  ∃ st', kfree list b.addr st = some (-memFreeFail, st') ∧ st'.slab = st.slab ∧
    AgreeOn (HeapByte pool list) st.mem st'.mem

/-- No scan of `kmalloc` leaves the table, and nobody stores into the pool but the owners
of its blocks: not through a page that `pfree` has cut out of it either. -/
def PoolGuard (pool list : Nat) (t : HeapState) : HeapOp → Prop
  | .pallocMult _ => True
  | .pfreeMult _ => True
  | .kmalloc size => ScansStayInTable t.st size
  | .kcalloc num size =>
      ScansStayInTable t.st (wrap (num * size)) ∧
        (fallsBack t.st (wrap (num * size)) → ∀ q st',
          kmalloc list (wrap (num * size)) t.st = some (q, st') →
            q + zeroedBytes (wrap (num * size)) < 2 ^ 32 ∧
              ∀ a, q ≤ a → a < q + zeroedBytes (wrap (num * size)) → ¬ HeapByte pool list a)
  | .kfree _ => True
  | .write a _ => (∃ r ∈ t.blocks.map Block.region, r.Contains a) ∨ ¬ HeapByte pool list a

/-- The invariant of the runs.  The pages of the pool need not be in use. -/
structure KfreeInv (np pool list : Nat) (records : List Nat) (t : HeapState) : Prop where
  heap : PoolRecords pool list records t
  fits : Fits np
  map : t.st.freeMap = ⟨startAddr, np⟩
  lock : t.st.pallocLock.val = 0
  offMap : ∀ a, HeapByte pool list a → ¬ MapByte np a
  pages : ∀ r ∈ t.pages, r.pages < 2 ^ 32
  fallbacks : ∀ b ∈ t.fallbacks, ∃ k, b.addr = pageAddr k

section Inv

variable {np pool list : Nat} {records : List Nat} {t u : HeapState}

/-- The page allocator changes bytes of the map only, whatever address it is given. -/
theorem pfreeMult_agreeOn {st : AllocState} (hmap : st.freeMap = ⟨startAddr, np⟩) (hfits : Fits np)
    (hlock : st.pallocLock.val = 0) (addr : Nat) {cnt : Nat} (hcnt : cnt < 2 ^ 32) :
    ∃ mem', pfreeMult addr cnt st = some (
        if pfreeAccepts st addr cnt ∧ pageIdx addr = 0 then memFreeSucc else -memFreeFail,
        { st with mem := mem' }) ∧
      AgreeOn (fun a => ¬ MapByte np a) st.mem mem' := by
  rw [pfreeMult_eq hlock hcnt]
  by_cases hacc : pfreeAccepts st addr cnt
  · have hlt := accepts_lt hcnt hacc
    have hend : pageIdx addr + cnt < np := by
      have hsize := hacc.1
      rwa [wrap_of_lt hlt, bitmapGetSize, hmap] at hsize
    refine ⟨(setPages st (pageIdx addr) cnt false).mem, by rw [if_pos hacc]; rfl, ?_⟩
    exact fun a ha => setPages_of_outside hfits hmap hend.le ha false
  · exact ⟨st.mem, by rw [if_neg hacc], AgreeOn.refl _ _⟩

theorem KfreeInv.agreeOn_heap (h : KfreeInv np pool list records t) {mem mem' : Memory}
    (hmem : AgreeOn (fun a => ¬ MapByte np a) mem mem') : AgreeOn (HeapByte pool list) mem mem' :=
  hmem.mono h.offMap

/-- A state that differs in the map, the pages and bytes off the pool only. -/
theorem KfreeInv.withMem (h : KfreeInv np pool list records t) {mem' : Memory}
    {pages : List PageRange} {fallbacks : List Block}
    (hmem : AgreeOn (HeapByte pool list) t.st.mem mem') (hpages : ∀ r ∈ pages, r.pages < 2 ^ 32)
    (hfallbacks : ∀ b ∈ fallbacks, ∃ k, b.addr = pageAddr k) :
    KfreeInv np pool list records ⟨{ t.st with mem := mem' }, pages, fallbacks, t.blocks⟩ :=
  ⟨h.heap.withPages rfl rfl hmem, h.fits, h.map, h.lock, h.offMap, hpages, hfallbacks⟩

/-- `palloc_mult` returns `NULL` or a page, and changes bytes of the map only. -/
theorem KfreeInv.palloc (h : KfreeInv np pool list records t) {cnt : Nat} (hcnt : 0 < cnt) :
    ∃ q mem', pallocMult cnt t.st = some (q, { t.st with mem := mem' }) ∧
      AgreeOn (HeapByte pool list) t.st.mem mem' ∧
      (q ≠ 0 → cnt < 2 ^ 32 ∧ ∃ k, q = pageAddr k) := by
  have hlt := h.fits.lt
  rcases pallocMult_spec h.fits h.map h.lock hcnt with ⟨k, hfirst, heq⟩ | ⟨_, heq⟩
  · have hend := hfirst.1.2.1
    refine ⟨pageAddr k, _, heq, h.agreeOn_heap fun a ha => ?_, fun _ => ⟨by omega, k, rfl⟩⟩
    exact setPages_of_outside h.fits h.map hend ha true
  · exact ⟨0, t.st.mem, heq, AgreeOn.refl _ _, fun hne => absurd rfl hne⟩

theorem KfreeInv.pallocMult (h : KfreeInv np pool list records t) {cnt q : Nat} {st' : AllocState}
    (hcnt : 0 < cnt) (heq : KallocModel.pallocMult cnt t.st = some (q, st')) :
    KfreeInv np pool list records
      { t with st := st', pages := if q = 0 then t.pages else ⟨q, cnt⟩ :: t.pages } := by
  obtain ⟨q', mem', heq', hmem, hpage⟩ := h.palloc hcnt
  rw [heq', Option.some_inj, Prod.mk.injEq] at heq
  obtain ⟨rfl, rfl⟩ := heq
  refine h.withMem hmem ?_ h.fallbacks
  split
  · exact h.pages
  · next hq => exact List.forall_mem_cons.mpr ⟨(hpage hq).1, h.pages⟩

/-- `kmalloc` returns `NULL`, a block of the pool, or a page. -/
theorem KfreeInv.kmalloc (h : KfreeInv np pool list records t) {size : Nat}
    (hguard : ScansStayInTable t.st size) :
    ∃ q st' records', KallocModel.kmalloc list size t.st = some (q, st') ∧
      KfreeInv np pool list records' (t.given size q st') := by
  obtain ⟨hacq, hrel⟩ := spinLock_section h.heap.lock
  by_cases hfall : fallsBack t.st size
  · obtain ⟨q, mem', heq, hmem, hpage⟩ := h.palloc Nat.one_pos
    refine ⟨q, { t.st with mem := mem' }, records, ?_, ?_⟩
    · unfold fallsBack at hfall
      simp only [KallocModel.kmalloc, hacq, ne_eq, not_true_eq_false, ↓reduceIte, hfall, hrel]
      exact heq
    · unfold HeapState.given
      rw [if_pos hfall]
      split
      · exact h.withMem hmem h.pages h.fallbacks
      · next hq =>
          exact h.withMem hmem h.pages (List.forall_mem_cons.mpr ⟨(hpage hq).2, h.fallbacks⟩)
  · have hfall' : ¬ roundUp size t.st.slab.slabSize > t.st.slab.freeMemSize := hfall
    rcases (hguard.resolve_left hfall).1 with hfit | hnone
    · obtain ⟨q, s', mem', records', heq, hrecords, _, _⟩ :=
        h.heap.kmalloc_of_fit hfall hguard hfit
      obtain ⟨hpages, hfallbacks⟩ :=
        given_pages hfall q { t.st with slab := s', mem := mem' }
      refine ⟨q, _, records', heq, hrecords, h.fits, ?_, ?_, h.offMap, ?_, ?_⟩
      · rw [given_st]
        exact h.map
      · rw [given_st]
        exact h.lock
      · rw [hpages]
        exact h.pages
      · rw [hfallbacks]
        exact h.fallbacks
    · refine ⟨0, t.st, records, ?_, h⟩
      simp only [KallocModel.kmalloc, hacq, ne_eq, not_true_eq_false, ↓reduceIte, hfall', hrel,
        slabAlloc_of_no_run (numSlabsFor_pos _ _) hnone]

/-- A store into a block. -/
theorem KfreeInv.storeBlock (h : KfreeInv np pool list records t) {r : Region}
    (hr : r ∈ t.blocks.map Block.region) {mem' : Memory}
    (hmem : AgreeOn (fun a => ¬ r.Contains a) t.st.mem mem') :
    KfreeInv np pool list records { t with st := { t.st with mem := mem' } } :=
  ⟨h.heap.storeBlock hr hmem, h.fits, h.map, h.lock, h.offMap, h.pages, h.fallbacks⟩

theorem KfreeInv.kcalloc (h : KfreeInv np pool list records t) {num size : Nat}
    (hguard : PoolGuard pool list t (.kcalloc num size)) :
    ∃ q st' records', KallocModel.kcalloc list num size t.st = some (q, st') ∧
      KfreeInv np pool list records' (t.given (wrap (num * size)) q st') := by
  obtain ⟨hscan, hzero⟩ := hguard
  obtain ⟨q, st', records', heq, hinv⟩ := h.kmalloc hscan
  by_cases hq : q = 0
  · subst hq
    exact ⟨0, st', records', kcalloc_of_null heq, hinv⟩
  · refine ⟨q, _, records', kcalloc_of_kmalloc hq heq, ?_⟩
    rw [HeapState.given, if_neg hq] at hinv ⊢
    by_cases hfall : fallsBack t.st (wrap (num * size))
    · rw [if_pos hfall] at hinv ⊢
      obtain ⟨hspace, hoff⟩ := hzero hfall q st' heq
      refine hinv.withMem ((zeroLoop_agreeOn le_rfl hspace _).mono ?_) hinv.pages hinv.fallbacks
      exact fun a ha hin => hoff a hin.1 hin.2 ha
    · rw [if_neg hfall] at hinv ⊢
      exact hinv.storeBlock List.mem_cons_self
        (hinv.heap.zeroLoop_agreeOn List.mem_cons_self _)

/-- `kfree` never finds a record: it hands the address to `pfree`. -/
theorem KfreeInv.kfree (h : KfreeInv np pool list records t) {addr : Nat}
    (haddr : addr % poolSlabSize = 0) (hne : addr ≠ list + 8) :
    ∃ mem', KallocModel.kfree list addr t.st = some (
        if pfreeAccepts t.st addr 1 ∧ pageIdx addr = 0 then memFreeSucc else -memFreeFail,
        { t.st with mem := mem' }) ∧
      AgreeOn (HeapByte pool list) t.st.mem mem' := by
  obtain ⟨mem', heq, hmem⟩ := pfreeMult_agreeOn h.map h.fits h.lock addr (show 1 < 2 ^ 32 by decide)
  exact ⟨mem', (h.heap.kfree_eq_pfree haddr hne).trans heq, h.agreeOn_heap hmem⟩

/-- One call keeps the invariant. -/
theorem KfreeInv.step (h : KfreeInv np pool list records t) {op : HeapOp}
    (hstep : Guarded (HeapStep list) (PoolGuard pool list) t op u) :
    ∃ records', KfreeInv np pool list records' u := by
  obtain ⟨hguard, hstep⟩ := hstep
  cases hstep with
  | pallocMult hcnt heq => exact ⟨records, h.pallocMult hcnt heq⟩
  | pallocNone heq =>
      obtain rfl := pallocMult_none h.lock heq
      exact ⟨records, h⟩
  | pfreeNone heq =>
      obtain rfl := pfreeMult_none h.lock heq
      exact ⟨records, h⟩
  | @pfreeMult r code st' hr heq =>
      obtain ⟨mem', heq', hmem⟩ := pfreeMult_agreeOn h.map h.fits h.lock r.addr (h.pages r hr)
      rw [heq', Option.some_inj, Prod.mk.injEq] at heq
      obtain ⟨_, rfl⟩ := heq
      exact ⟨records, h.withMem (h.agreeOn_heap hmem)
        (fun q hq => h.pages q (List.mem_of_mem_erase hq)) h.fallbacks⟩
  | kmalloc heq =>
      obtain ⟨q', st'', records', heq', hinv⟩ := h.kmalloc hguard
      rw [heq', Option.some_inj, Prod.mk.injEq] at heq
      obtain ⟨rfl, rfl⟩ := heq
      exact ⟨records', hinv⟩
  | kcalloc heq =>
      obtain ⟨q', st'', records', heq', hinv⟩ := h.kcalloc hguard
      rw [heq', Option.some_inj, Prod.mk.injEq] at heq
      obtain ⟨rfl, rfl⟩ := heq
      exact ⟨records', hinv⟩
  | @kfreePage b code st' hb heq =>
      obtain ⟨k, hk⟩ := h.fallbacks b hb
      obtain ⟨haddr, hne⟩ := pageAddr_place h.heap.image k
      obtain ⟨mem', heq', hmem⟩ := h.kfree (hk ▸ haddr) (hk ▸ hne)
      rw [heq', Option.some_inj, Prod.mk.injEq] at heq
      obtain ⟨_, rfl⟩ := heq
      exact ⟨records, h.withMem hmem h.pages fun c hc =>
        h.fallbacks c (List.mem_of_mem_erase hc)⟩
  | @kfreeBlock b code st' hb heq =>
      obtain ⟨haddr, hne⟩ := h.heap.block_addr hb
      obtain ⟨mem', heq', hmem⟩ := h.kfree haddr hne
      rw [heq', Option.some_inj, Prod.mk.injEq] at heq
      obtain ⟨_, rfl⟩ := heq
      have hkept := h.withMem hmem h.pages h.fallbacks
      exact ⟨records, hkept.heap.forget hb, hkept.fits, hkept.map, hkept.lock, hkept.offMap,
        hkept.pages, hkept.fallbacks⟩
  | @write a c _ =>
      rcases hguard with ⟨r, hr, ha⟩ | ha
      · refine ⟨records, h.storeBlock hr fun x hx => writeByte_of_ne ?_ t.st.mem c⟩
        rintro rfl
        exact hx ha
      · refine ⟨records, h.withMem (fun x hx => writeByte_of_ne ?_ t.st.mem c) h.pages h.fallbacks⟩
        rintro rfl
        exact ha hx

/-- No block of the pool lies on the page at index 0 of the map. -/
theorem KfreeInv.pageIdx_ne_zero (h : KfreeInv np pool list records t) {b : Block}
    (hb : b ∈ t.blocks) : pageIdx b.addr ≠ 0 := by
  have hr := List.mem_append_left (records.map recordRegion)
    (List.mem_map_of_mem (f := Block.region) hb)
  obtain ⟨_, _, hpos⟩ := h.heap.slab.exists_slot hr
  have hin := h.heap.region_inPool hr (a := b.addr) ⟨le_rfl, by
    change b.addr < b.addr + poolSlabSize * b.region.slabs
    unfold poolSlabSize
    omega⟩
  have hend := h.heap.poolEnd
  have hplace := h.heap.place
  rw [ne_eq, pageIdx_eq_zero_iff (by omega)]
  unfold startAddr poolDataOffset poolSize pgSize at *
  omega

/-- So `kfree` of a block fails and gives nothing back. -/
theorem KfreeInv.keepsAll (h : KfreeInv np pool list records t) {b : Block} (hb : b ∈ t.blocks) :
    KfreeKeepsAll pool list t.st b := by
  obtain ⟨haddr, hne⟩ := h.heap.block_addr hb
  obtain ⟨mem', heq, hmem⟩ := h.kfree haddr hne
  rw [if_neg fun hc => h.pageIdx_ne_zero hb hc.2] at heq
  exact ⟨_, heq, rfl, hmem⟩

end Inv

theorem KfreeKeepsAll.not_givesBack {pool list : Nat} {st : AllocState} {b : Block}
    (h : KfreeKeepsAll pool list st b) : ¬ KfreeGivesBack list st b := by
  rintro ⟨st', hsucc, _⟩
  obtain ⟨st'', hfail, _⟩ := h
  rw [hfail, Option.some_inj, Prod.mk.injEq] at hsucc
  exact absurd hsucc.1 (by decide)

/-- While the pages of the pool are in use, the pages handed out are those of the map. -/
theorem kfreeInv_of_heapInv {np pool list : Nat} {records : List Nat} {t : HeapState}
    (h : HeapInv np pool list records t) : KfreeInv np pool list records t := by
  have hpage : ∀ r ∈ t.pages ++ t.fallbacks.map Block.page,
      r.pages < 2 ^ 32 ∧ ∃ k, r.addr = pageAddr k := by
    intro r hr
    obtain ⟨k, haddr, hend, _⟩ := h.page.exists_page (List.mem_append_right _ hr)
    have hlt := h.page.fits.lt
    exact ⟨by omega, k, haddr⟩
  refine ⟨h.poolRecords, h.page.fits, h.page.map, h.page.lock, fun a => h.heapByte_offMap, ?_, ?_⟩
  · exact fun r hr => (hpage r (List.mem_append_left _ hr)).1
  · exact fun b hb => (hpage b.page (List.mem_append_right _ (List.mem_map_of_mem hb))).2

/-- Every state that the calls lead to from `init_alloc` on. -/
theorem kfreeInv_of_guarded {list memUpper : Nat} {mem : Memory} {t u : HeapState}
    {ops : List HeapOp} (hboot : Boots memUpper mem) (hlist : InImage list)
    (hinit : HeapInit list memUpper mem t)
    (hrun : Run (Guarded (HeapStep list) (PoolGuard t.st.slab.mem list)) t ops u) :
    ∃ records, KfreeInv (numPages memUpper) t.st.slab.mem list records u :=
  Run.invariant (fun u => ∃ records, KfreeInv (numPages memUpper) t.st.slab.mem list records u)
    (fun _ _ _ ⟨_, h⟩ hstep => h.step hstep) hrun
    ⟨[], kfreeInv_of_heapInv (hinit.inv hboot hlist)⟩

/-- In every state that the calls reach, `kfree` of a block of the pool fails and gives
nothing back. -/
theorem kfree_never_gives_back {list memUpper : Nat} {mem : Memory} {t u : HeapState}
    {ops : List HeapOp} (hboot : Boots memUpper mem) (hlist : InImage list)
    (hinit : HeapInit list memUpper mem t)
    (hrun : Run (Guarded (HeapStep list) (PoolGuard t.st.slab.mem list)) t ops u) {b : Block}
    (hb : b ∈ u.blocks) :
    ¬ KfreeGivesBack list u.st b ∧ KfreeKeepsAll t.st.slab.mem list u.st b := by
  obtain ⟨records, hinv⟩ := kfreeInv_of_guarded hboot hlist hinit hrun
  have hkeeps := hinv.keepsAll hb
  exact ⟨hkeeps.not_givesBack, hkeeps⟩

/-- A region that is handed out has an entry that is not free. -/
theorem freeEntries_lt {p : Nat} {u : PoolState} (h : PoolInv p u) {r : Region} (hr : r ∈ u.live) :
    freeEntries u.s u.mem poolEntries < poolEntries := by
  refine lt_of_le_of_ne (freeEntries_le _ _ _) fun hall => ?_
  obtain ⟨runs, hlive, howned, hbound⟩ := h.live
  obtain ⟨run, hrun, rfl⟩ := List.mem_map.mp (hlive.mem_iff.mp hr)
  obtain ⟨hlt, hused⟩ := howned.used run hrun run.start
    ⟨le_rfl, Nat.lt_add_of_pos_right (hbound run hrun).2⟩
  exact hused (Nat.count_iff_forall.mp hall _ hlt)

/-- The first call after `init_alloc`, for one byte. -/
theorem exists_first_block : ∃ t q st', HeapInit 1048576 4140 (fun _ => 0#8) t ∧
    PoolGuard t.st.slab.mem 1048576 t (.kmalloc 1) ∧
      HeapStep 1048576 t (.kmalloc 1) { t with st := st', blocks := [⟨q, 1⟩] } := by
  have hboot := boots_zeroed (show startAddr ≤ 4140 * 1024 by decide) (by decide) (by decide)
  have hlist : InImage 1048576 := by decide
  obtain ⟨t, hinit⟩ := exists_heapInit hboot hlist
  have hguard : ScansStayInTable t.st 1 := hinit.scansStayInTable hboot hlist (by decide)
  have hslab := (hinit.inv hboot hlist).poolRecords.slabSize_eq
  have hfall := hinit.not_fallsBack hboot hlist (show roundUp 1 poolSlabSize ≤ _ by decide)
  obtain ⟨q, st', _, heq, _, hfirst⟩ := (hinit.inv hboot hlist).kmalloc_of_fit hfall hguard
    (hinit.hasFit hboot hlist (by rw [hslab]; decide))
  obtain ⟨k, _, hq⟩ := hfirst (by rw [hinit.freeEntries hboot hlist]; decide)
  refine ⟨t, q, st', hinit, hguard, ?_⟩
  have hstep := HeapStep.kmalloc heq
  rwa [HeapState.given, if_neg (hq ▸ poolSlot_ne_zero _ _), if_neg hfall, hinit.2.2.2] at hstep

theorem kfree_never_gives_back_kmalloc : ∃ t q st', HeapInit 1048576 4140 (fun _ => 0#8) t ∧
    HeapStep 1048576 t (.kmalloc 1) { t with st := st', blocks := [⟨q, 1⟩] } ∧
      ¬ KfreeGivesBack 1048576 st' ⟨q, 1⟩ ∧ KfreeKeepsAll t.st.slab.mem 1048576 st' ⟨q, 1⟩ := by
  have hboot := boots_zeroed (show startAddr ≤ 4140 * 1024 by decide) (by decide) (by decide)
  have hlist : InImage 1048576 := by decide
  obtain ⟨t, q, st', hinit, hguard, hstep⟩ := exists_first_block
  exact ⟨t, q, st', hinit, hstep, kfree_never_gives_back hboot hlist hinit
    (.single ⟨hguard, hstep⟩) List.mem_cons_self⟩

/-- `kmalloc(1)` and `kfree` of its result: the call fails, and with nothing handed out
any more the pool has less free memory than before. -/
theorem not_kfree_gives_back :
    (¬ ∀ (list memUpper : Nat) (mem : Memory) (t u : HeapState) (ops : List HeapOp),
      Boots memUpper mem → InImage list → HeapInit list memUpper mem t →
        Run (HeapStep list) t ops u → ∀ b ∈ u.blocks, KfreeGivesBack list u.st b) ∧
    ∃ t u b, HeapInit 1048576 4140 (fun _ => 0#8) t ∧
      Run (HeapStep 1048576) t [.kmalloc 1, .kfree b] u ∧
      u.pages = [] ∧ u.fallbacks = [] ∧ u.blocks = [] ∧
      u.st.slab.freeMemSize < t.st.slab.freeMemSize := by
  have hboot := boots_zeroed (show startAddr ≤ 4140 * 1024 by decide) (by decide) (by decide)
  have hlist : InImage 1048576 := by decide
  obtain ⟨t, q, st', hinit, hguard, hstep⟩ := exists_first_block
  obtain ⟨records, hinv⟩ := kfreeInv_of_guarded hboot hlist hinit (.single ⟨hguard, hstep⟩)
  have hkeeps := hinv.keepsAll (b := ⟨q, 1⟩) List.mem_cons_self
  constructor
  · exact fun hall => hkeeps.not_givesBack
      (hall _ _ _ _ _ _ hboot hlist hinit (.single hstep) ⟨q, 1⟩ List.mem_cons_self)
  · obtain ⟨st'', heq, hslab, _⟩ := hkeeps
    refine ⟨t, _, ⟨q, 1⟩, hinit,
      .cons hstep (.single (.kfreeBlock List.mem_cons_self heq)), hinit.2.1, hinit.2.2.1,
      List.erase_cons_head _ _, ?_⟩
    have hinit' := (hinit.inv hboot hlist).slab.freeMem
    have hlt := freeEntries_lt hinv.heap.slab (r := Block.region ⟨q, 1⟩) List.mem_cons_self
    have hfree := hinv.heap.slab.freeMem
    simp only [HeapState.poolState] at hinit' hlt hfree
    rw [hinit.freeEntries hboot hlist] at hinit'
    simp only [hslab, hfree, hinit']
    exact Nat.mul_lt_mul_of_pos_left hlt (by decide)

end Longhorn.KfreeRecords
