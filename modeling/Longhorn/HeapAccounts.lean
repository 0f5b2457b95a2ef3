import Longhorn.HeapSafety
import Longhorn.PageAccounts

/-!
The accounts of the pages in runs that also use `kmalloc`, `kcalloc` and `kfree`.
-/

namespace Longhorn.HeapAccounts

open Longhorn.Foundations.ByteMemory
open Longhorn.Foundations.Ranges
open Longhorn.Foundations.TransitionRuns
open Longhorn.SlabTable
open Longhorn.SlabSafety
open Longhorn.KallocModel
open Longhorn.PageMap
open Longhorn.PageSafety
open Longhorn.HeapSafety
open Longhorn.PageAccounts

/-- The memory manager with its accounts: the pages of `lost` were given back, but are still in
use. -/
structure Balanced (np pool list : Nat) (t : HeapState) (lost : List PageRange) : Prop where
  inv : ∃ records, HeapInv np pool list records t
  ledger : Ledger np t.st (t.allPages pool ++ lost)
  lost : ∀ r ∈ lost, Unreturnable np r

section Steps

variable {np pool list : Nat} {t : HeapState} {lost : List PageRange}

theorem allPages_cons (r : PageRange) (st : AllocState) (pages : List PageRange)
    (fallbacks blocks : List Block) :
    (HeapState.allPages pool ⟨st, r :: pages, fallbacks, blocks⟩ ++ lost).Perm
      (r :: (HeapState.allPages pool ⟨st, pages, fallbacks, blocks⟩ ++ lost)) :=
  List.perm_middle.append_right lost

theorem allPages_cons_fallback (b : Block) (st : AllocState) (pages : List PageRange)
    (fallbacks blocks : List Block) :
    (HeapState.allPages pool ⟨st, pages, b :: fallbacks, blocks⟩ ++ lost).Perm
      (b.page :: (HeapState.allPages pool ⟨st, pages, fallbacks, blocks⟩ ++ lost)) := by
  have hinner : (pages ++ b.page :: fallbacks.map Block.page).Perm
      (b.page :: (pages ++ fallbacks.map Block.page)) := List.perm_middle
  exact ((hinner.append_left (poolPages pool)).trans List.perm_middle).append_right lost

theorem Balanced.ledger_congr (h : Balanced np pool list t lost) {st' : AllocState}
    (hmap : st'.freeMap = t.st.freeMap) (hlock : st'.pallocLock = t.st.pallocLock)
    (hmem : AgreeOn (MapByte np) t.st.mem st'.mem) :
    Ledger np st' (t.allPages pool ++ lost) := by
  refine h.ledger.congr hmap ?_ hmem
  rw [hlock]
  exact h.ledger.inv.lock

theorem Balanced.owns_offMap (h : Balanced np pool list t lost) {a : Nat} (ha : t.Owns a) :
    ¬ MapByte np a := by
  obtain ⟨records, hinv⟩ := h.inv
  rcases ha with ⟨r, hr, ha⟩ | ⟨r, hr, ha⟩
  · exact fun hmap => hinv.page.safe.offMap r (List.mem_append_right _ hr) a a ha hmap rfl
  · have hin := hinv.poolRecords.region_inPool
      (List.mem_append_left (records.map recordRegion) hr) ha
    exact hinv.heapByte_offMap (Or.inl ⟨by omega, hin.2⟩)

theorem Balanced.ledger_pallocMult (h : Balanced np pool list t lost) {cnt q : Nat}
    {st' : AllocState} (hcnt : 0 < cnt)
    (heq : KallocModel.pallocMult cnt t.st = some (q, st')) :
    Ledger np st' (if q = 0 then t.allPages pool ++ lost
      else ⟨q, cnt⟩ :: (t.allPages pool ++ lost)) := by
  rcases h.ledger.alloc hcnt with ⟨k, _, heq', hledger⟩ | ⟨_, heq'⟩
  · rw [heq', Option.some_inj, Prod.mk.injEq] at heq
    obtain ⟨rfl, rfl⟩ := heq
    rwa [if_neg (pageAddr_ne_zero k)]
  · rw [heq', Option.some_inj, Prod.mk.injEq] at heq
    obtain ⟨rfl, rfl⟩ := heq
    exact h.ledger

theorem Balanced.pallocMult (h : Balanced np pool list t lost) {cnt q : Nat} {st' : AllocState}
    (hcnt : 0 < cnt) (heq : KallocModel.pallocMult cnt t.st = some (q, st')) :
    Balanced np pool list
      { t with st := st', pages := if q = 0 then t.pages else ⟨q, cnt⟩ :: t.pages } lost := by
  obtain ⟨records, hinv⟩ := h.inv
  refine ⟨⟨records, hinv.pallocMult hcnt heq⟩, ?_, h.lost⟩
  have hledger := h.ledger_pallocMult hcnt heq
  by_cases hq : q = 0
  · rw [if_pos hq] at hledger ⊢
    exact hledger
  · rw [if_neg hq] at hledger ⊢
    exact hledger.perm (allPages_cons _ _ _ _ _)

/-- What `pfree_mult` does to pages that are held: they are taken out, or are lost. -/
theorem Balanced.pfreeMult (h : Balanced np pool list t lost) {r : PageRange} {code : Int}
    {st' : AllocState} (heq : KallocModel.pfreeMult r.addr r.pages t.st = some (code, st'))
    {pages : List PageRange} {fallbacks : List Block}
    (hr : r ∈ t.pages ++ t.fallbacks.map Block.page)
    (hperm : (t.pages ++ t.fallbacks.map Block.page).Perm
      (r :: (pages ++ fallbacks.map Block.page))) :
    ∃ lost', Balanced np pool list ⟨st', pages, fallbacks, t.blocks⟩ lost' := by
  obtain ⟨records, hinv⟩ := h.inv
  have hinv' := hinv.pfree hr heq hperm
  have hall : (t.allPages pool ++ lost).Perm
      (r :: (HeapState.allPages pool ⟨st', pages, fallbacks, t.blocks⟩ ++ lost)) :=
    ((hperm.append_left (poolPages pool)).trans List.perm_middle).append_right lost
  obtain ⟨code', mem', heq', _, hout⟩ :=
    h.ledger.free (List.mem_append_left lost (List.mem_append_right _ hr))
  rw [heq', Option.some_inj, Prod.mk.injEq] at heq
  obtain ⟨_, rfl⟩ := heq
  rcases hout with hledger | ⟨rfl, hlast⟩
  · refine ⟨lost, ⟨records, hinv'⟩, hledger.perm ?_, h.lost⟩
    have herase := hall.erase r
    rw [List.erase_cons_head] at herase
    exact herase.symm
  · refine ⟨r :: lost, ⟨records, hinv'⟩, h.ledger.perm ?_, ?_⟩
    · exact List.perm_middle.trans hall.symm
    · intro q hq
      rcases List.mem_cons.mp hq with rfl | hq
      · exact hlast
      · exact h.lost q hq

theorem Balanced.kfree_eq (h : Balanced np pool list t lost) {a : Nat}
    (ha : ⟨a, 1⟩ ∈ t.pages ++ t.fallbacks.map Block.page) :
    KallocModel.kfree list a t.st = KallocModel.pfreeMult a 1 t.st := by
  obtain ⟨records, hinv⟩ := h.inv
  obtain ⟨k, hk, _⟩ := hinv.page.exists_page (List.mem_append_right _ ha)
  obtain rfl : a = pageAddr k := hk
  obtain ⟨haddr, hne⟩ := pageAddr_place hinv.image k
  exact hinv.poolRecords.kfree_eq_pfree haddr hne

/-- What `kmalloc` takes from the pool leaves the map alone. -/
theorem Balanced.kmalloc_pool (h : Balanced np pool list t lost) {size : Nat}
    (hguard : ScansStayInTable t.st size) (hfall : ¬ fallsBack t.st size) :
    ∃ q s' mem', KallocModel.kmalloc list size t.st =
        some (q, { t.st with slab := s', mem := mem' }) ∧ AgreeOn (MapByte np) t.st.mem mem' := by
  obtain ⟨records, hinv⟩ := h.inv
  rcases (hguard.resolve_left hfall).1 with hfit | hnone
  · obtain ⟨q, s', mem', _, heq, _, hmem, _⟩ :=
      hinv.poolRecords.kmalloc_of_fit hfall hguard hfit
    exact ⟨q, s', mem', heq, hmem.mono fun a ha hheap => hinv.heapByte_offMap hheap ha⟩
  · have hregion := slabAlloc_of_no_run (numSlabsFor_pos _ _) hnone
    exact ⟨0, t.st.slab, t.st.mem, kmalloc_of_no_region hinv.lock hfall hregion,
      AgreeOn.refl _ _⟩

theorem Balanced.kmalloc (h : Balanced np pool list t lost) {size q : Nat} {st' : AllocState}
    (hguard : ScansStayInTable t.st size)
    (heq : KallocModel.kmalloc list size t.st = some (q, st')) :
    Balanced np pool list (t.given size q st') lost := by
  obtain ⟨records, hinv⟩ := h.inv
  obtain ⟨q', st'', records', heq', hinv'⟩ := hinv.kmalloc hguard
  rw [heq, Option.some_inj, Prod.mk.injEq] at heq'
  obtain ⟨rfl, rfl⟩ := heq'
  refine ⟨⟨records', hinv'⟩, ?_, h.lost⟩
  rw [given_st]
  by_cases hfall : fallsBack t.st size
  · rw [kmalloc_of_fallsBack hinv.lock hfall] at heq
    have hledger := h.ledger_pallocMult Nat.one_pos heq
    unfold HeapState.given
    by_cases hq : q = 0
    · rw [if_pos hq] at hledger ⊢
      exact hledger
    · rw [if_neg hq] at hledger
      rw [if_neg hq, if_pos hfall]
      exact hledger.perm (allPages_cons_fallback ⟨q, size⟩ _ _ _ _)
  · obtain ⟨q', s', mem', heq', hmem⟩ := h.kmalloc_pool hguard hfall
    rw [heq, Option.some_inj, Prod.mk.injEq] at heq'
    obtain ⟨rfl, rfl⟩ := heq'
    obtain ⟨hpages, hfallbacks⟩ := given_pages hfall q { t.st with slab := s', mem := mem' }
    rw [HeapState.allPages, hpages, hfallbacks]
    exact h.ledger_congr rfl rfl hmem

/-- Which pages are handed out does not depend on the rest of the state. -/
theorem given_allPages (n q : Nat) (st st' : AllocState) :
    (t.given n q st').allPages pool = (t.given n q st).allPages pool := by
  unfold HeapState.given
  split
  · rfl
  · split <;> rfl

theorem Balanced.zeroed (h : Balanced np pool list t lost) {q n : Nat} {st : AllocState}
    (hgiven : Balanced np pool list (t.given n q st) lost) (hq : q ≠ 0)
    (hzero : fallsBack t.st n → zeroedBytes n ≤ pgSize) :
    AgreeOn (MapByte np) st.mem
      (zeroLoop q (roundUp (n / SlabModel.poolSlabSize) SlabModel.poolSlabSize) 0 st.mem) := by
  obtain ⟨records, hinv⟩ := hgiven.inv
  suffices hblock : (∀ a, q ≤ a → a < q + zeroedBytes n → (t.given n q st).Owns a) ∧
      q + zeroedBytes n < 2 ^ 32 by
    refine (zeroLoop_agreeOn le_rfl hblock.2 st.mem).mono fun a ha hin => ?_
    exact hgiven.owns_offMap (hblock.1 a hin.1 hin.2) ha
  rw [HeapState.given, if_neg hq] at hinv ⊢
  by_cases hfall : fallsBack t.st n
  · rw [if_pos hfall] at hinv ⊢
    have hlen := hzero hfall
    have hmem : (⟨q, n⟩ : Block).page ∈ t.pages ++ ((⟨q, n⟩ : Block) :: t.fallbacks).map
        Block.page := List.mem_append_right _ List.mem_cons_self
    refine ⟨fun a hlo hhi => Or.inl ⟨_, hmem, hlo, ?_⟩, ?_⟩
    · simp only [Block.page]
      omega
    · have hend := (hinv.page.safe.inMemory _ (List.mem_append_right _ hmem) (q + 4095)
        ⟨Nat.le_add_right _ _, by simp only [Block.page, pgSize]; omega⟩).2
      have hspace := h.ledger.inv.fits.inSpace
      unfold pgSize at *
      omega
  · rw [if_neg hfall] at hinv ⊢
    have hmem : (⟨q, n⟩ : Block).region ∈ ((⟨q, n⟩ : Block) :: t.blocks).map Block.region :=
      List.mem_cons_self
    have hlen := zeroedBytes_le n
    refine ⟨fun a hlo hhi => Or.inr ⟨_, hmem, hlo, ?_⟩, ?_⟩
    · simp only [Block.region]
      omega
    · have hend := hinv.poolRecords.region_end hmem
      have hpool := hinv.poolEnd
      simp only [Block.region] at hend
      omega

theorem Balanced.kcalloc (h : Balanced np pool list t lost) {num size q : Nat} {st' : AllocState}
    (hguard : HeapGuard t (.kcalloc num size))
    (heq : KallocModel.kcalloc list num size t.st = some (q, st')) :
    Balanced np pool list (t.given (wrap (num * size)) q st') lost := by
  obtain ⟨records, hinv⟩ := h.inv
  obtain ⟨q', st1, _, hkmalloc, _⟩ := hinv.kmalloc hguard.1
  have hgiven := h.kmalloc hguard.1 hkmalloc
  by_cases hq : q' = 0
  · subst hq
    rw [kcalloc_of_null hkmalloc, Option.some_inj, Prod.mk.injEq] at heq
    obtain ⟨rfl, rfl⟩ := heq
    exact hgiven
  · obtain ⟨_, _, records', heq', hinv'⟩ := hinv.kcalloc hguard
    rw [heq, Option.some_inj, Prod.mk.injEq] at heq'
    obtain ⟨rfl, rfl⟩ := heq'
    rw [kcalloc_of_kmalloc hq hkmalloc, Option.some_inj, Prod.mk.injEq] at heq
    obtain ⟨rfl, rfl⟩ := heq
    refine ⟨⟨records', hinv'⟩, ?_, h.lost⟩
    rw [given_st, given_allPages _ _ st1]
    exact hgiven.ledger_congr (by rw [given_st]) (by rw [given_st])
      (by rw [given_st]; exact h.zeroed hgiven hq hguard.2)

theorem Balanced.step (h : Balanced np pool list t lost) {u : HeapState} {op : HeapOp}
    (hstep : Guarded (HeapStep list) HeapGuard t op u) :
    ∃ lost', Balanced np pool list u lost' := by
  obtain ⟨records, hinv⟩ := h.inv
  have hinv' := hinv.step hstep
  obtain ⟨hguard, hstep⟩ := hstep
  cases hstep with
  | pallocMult hcnt heq => exact ⟨lost, h.pallocMult hcnt heq⟩
  | pallocNone heq =>
      obtain rfl := pallocMult_none h.ledger.inv.lock heq
      exact ⟨lost, h⟩
  | pfreeNone heq =>
      obtain rfl := pfreeMult_none h.ledger.inv.lock heq
      exact ⟨lost, h⟩
  | pfreeMult hr heq =>
      refine h.pfreeMult heq (List.mem_append_left _ hr) ?_
      exact (List.perm_cons_erase hr).append_right _
  | kmalloc heq => exact ⟨lost, h.kmalloc hguard heq⟩
  | kcalloc heq => exact ⟨lost, h.kcalloc hguard heq⟩
  | @kfreePage b code st' hb heq =>
      have hpage : b.page ∈ t.pages ++ t.fallbacks.map Block.page :=
        List.mem_append_right _ (List.mem_map_of_mem hb)
      rw [h.kfree_eq hpage] at heq
      refine h.pfreeMult (r := b.page) heq hpage ?_
      exact (((List.perm_cons_erase hb).map Block.page).append_left _).trans List.perm_middle
  | @kfreeBlock b code st' hb heq =>
      obtain ⟨haddr, hne⟩ := hinv.poolRecords.block_addr hb
      rw [hinv.poolRecords.kfree_eq_pfree haddr hne, KallocModel.pfree] at heq
      obtain ⟨code', heq'⟩ := pfreeMult_spec h.ledger.inv.lock b.addr 1
      rw [if_neg (hguard hb)] at heq'
      rw [heq', Option.some_inj, Prod.mk.injEq] at heq
      obtain ⟨_, rfl⟩ := heq
      exact ⟨lost, hinv', h.ledger, h.lost⟩
  | @write a b ha =>
      refine ⟨lost, hinv', h.ledger_congr rfl rfl fun c hc => ?_, h.lost⟩
      refine writeByte_of_ne ?_ t.st.mem b
      rintro rfl
      exact h.owns_offMap ha hc

end Steps

/-- After `init_alloc` nothing is lost. -/
theorem balanced_of_init {list memUpper : Nat} {mem : Memory} {t : HeapState}
    (hboot : Boots memUpper mem) (hlist : InImage list) (h : HeapInit list memUpper mem t) :
    Balanced (numPages memUpper) t.st.slab.mem list t [] := by
  refine ⟨⟨[], h.inv hboot hlist⟩, ?_, by simp⟩
  obtain ⟨hst, hpages, hfallbacks, _⟩ := h
  refine (ledger_initAlloc hboot hlist hst).perm ?_
  rw [HeapState.allPages, hpages, hfallbacks]
  simp

end Longhorn.HeapAccounts
