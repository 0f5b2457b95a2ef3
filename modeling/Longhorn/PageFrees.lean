import Longhorn.PageSafety

/-!
What `pfree_mult` answers: the code it returns next to what it does to the free map, in
every state that calls of the page allocator can reach.
-/

namespace Longhorn.PageFrees

open Longhorn.Foundations.ByteMemory
open Longhorn.Foundations.Ranges
open Longhorn.Foundations.TransitionRuns
open Longhorn.AtomicSpinLock
open Longhorn.PackedBitmap
open Longhorn.KallocModel
open Longhorn.PageMap
open Longhorn.PageSafety

/-- One call for any number of pages, zero included, or one store of an owner. -/
inductive AnyPageStep : PageState → PageOp → PageState → Prop
  | pallocMult {t : PageState} {cnt q : Nat} {st' : AllocState}
      (h : pallocMult cnt t.st = some (q, st')) :
      AnyPageStep t (.pallocMult cnt) ⟨st', if q = 0 then t.live else ⟨q, cnt⟩ :: t.live⟩
  | pfreeMult {t : PageState} {r : PageRange} {code : Int} {st' : AllocState} (hr : r ∈ t.live)
      (h : pfreeMult r.addr r.pages t.st = some (code, st')) :
      AnyPageStep t (.pfreeMult r) ⟨st', t.live.erase r⟩
  | write {t : PageState} {r : PageRange} {a : Nat} {b : BitVec 8} (hr : r ∈ t.live)
      (ha : r.Contains a) :
      AnyPageStep t (.write a b) { t with st := { t.st with mem := writeByte t.st.mem a b } }

/-- The bits of the pages have been cleared, and no others have changed. -/
def ClearsExactly (np : Nat) (st st' : AllocState) (r : PageRange) : Prop :=
  ∀ i, i < np → (PageUsed st' i ↔ PageUsed st i ∧ ¬ r.Contains (pageAddr i))

def SameMap (np : Nat) (st st' : AllocState) : Prop :=
  ∀ i, i < np → (PageUsed st' i ↔ PageUsed st i)

/-- What `pfree_mult` owes its caller: pages that are handed out are given back with
success, and a failure changes nothing. -/
structure ReportsFree (np : Nat) (t : PageState) (addr cnt : Nat) : Prop where
  live : ⟨addr, cnt⟩ ∈ t.live → ∃ st', pfreeMult addr cnt t.st = some (memFreeSucc, st') ∧
    ClearsExactly np t.st st' ⟨addr, cnt⟩
  fail : ∀ st', pfreeMult addr cnt t.st = some (-memFreeFail, st') → SameMap np t.st st'

/-- The bits of at least one page, a page or more away from the first one, pass the test
of `pfree_mult`. -/
def ClearsUnreported (st : AllocState) (addr cnt : Nat) : Prop :=
  0 < cnt ∧ (addr + pgSize ≤ startAddr ∨ startAddr + pgSize ≤ addr) ∧ pfreeAccepts st addr cnt

section Calls

variable {st : AllocState} {addr cnt : Nat}

theorem pageIdx_lt (addr : Nat) : pageIdx addr < 2 ^ 32 := by
  unfold pageIdx
  omega

theorem tdiv_pgSize_eq_zero_iff {d : Int} (hlo : -2 ^ 31 ≤ d) (hhi : d < 2 ^ 31) :
    (d.tdiv pgSize % 2 ^ 32).toNat = 0 ↔ -4096 < d ∧ d < 4096 := by
  unfold pgSize
  rcases Int.le_total 0 d with hpos | hneg
  · rw [Int.tdiv_eq_ediv_of_nonneg hpos]
    omega
  · obtain ⟨e, rfl⟩ : ∃ e, d = -e := ⟨-d, by omega⟩
    rw [Int.neg_tdiv, Int.tdiv_eq_ediv_of_nonneg (by omega)]
    omega

/-- The quotient is rounded towards zero, so the page below the first one has index 0
as well. -/
theorem pageIdx_eq_zero_iff (haddr : addr < 2 ^ 32) :
    pageIdx addr = 0 ↔ startAddr < addr + pgSize ∧ addr < startAddr + pgSize := by
  have hdiff : wrapInt ((addr : Int) - startAddr) = addr - 4194304 ∨
      (2 ^ 31 + 4194304 ≤ addr ∧ wrapInt ((addr : Int) - startAddr) = addr - 4194304 - 2 ^ 32) := by
    simp only [wrapInt, Int.bmod_def, startAddr]
    split_ifs <;> omega
  have hbound : -2 ^ 31 ≤ wrapInt ((addr : Int) - startAddr) ∧
      wrapInt ((addr : Int) - startAddr) < 2 ^ 31 := by
    simp only [wrapInt, Int.bmod_def]
    split_ifs <;> omega
  rw [pageIdx, tdiv_pgSize_eq_zero_iff hbound.1 hbound.2]
  unfold startAddr pgSize at *
  omega

/-- A range whose end wraps around has no bits to count. -/
theorem accepts_lt (hcnt : cnt < 2 ^ 32) (h : pfreeAccepts st addr cnt) :
    pageIdx addr + cnt < 2 ^ 32 := by
  by_contra hge
  have hidx := pageIdx_lt addr
  have hcount := h.2
  have hnone : wrap (pageIdx addr + cnt) - pageIdx addr = 0 := by
    unfold wrap
    omega
  rw [bitmapCountRange, hnone, countRangeLoop] at hcount
  omega

/-- `bitmap_set_range` returns the end of the range, so the call succeeds only at
index 0. -/
theorem pfreeMult_eq (hlock : st.pallocLock.val = 0) (hcnt : cnt < 2 ^ 32) :
    pfreeMult addr cnt st = some (
      if pfreeAccepts st addr cnt ∧ pageIdx addr = 0 then memFreeSucc else -memFreeFail,
      if pfreeAccepts st addr cnt then setPages st (pageIdx addr) cnt false else st) := by
  obtain ⟨hacq, hrel⟩ := spinLock_section hlock
  by_cases hacc : pfreeAccepts st addr cnt
  · have hlt := accepts_lt hcnt hacc
    have hend : (bitmapSetRange st.freeMap (pageIdx addr) cnt false st.mem).2 =
        pageIdx addr + cnt := by
      rw [bitmapSetRange, wrap_of_lt hlt]
      exact Nat.max_eq_right (Nat.le_add_right _ _)
    have hcode : pageIdx addr + cnt = cnt ↔ pageIdx addr = 0 := by omega
    simp only [pfreeMult, hacq, ne_eq, not_true_eq_false, ↓reduceIte, hacc, hrel, setPages, hend,
      hcode, true_and]
  · simp only [pfreeMult, hacq, ne_eq, not_true_eq_false, ↓reduceIte, hacc, hrel, false_and]

/-- No pages at all: the first index behind the bits of the map that are set. -/
theorem pallocMult_zero {np : Nat} {live : List PageRange} (h : PageInv np st live) :
    pallocMult 0 st = some (pageAddr 1, st) := by
  obtain ⟨hacq, hrel⟩ := spinLock_section h.lock
  have hlt := h.fits.lt
  have hpos := h.fits.pos
  obtain ⟨runs, _, howned, _⟩ := h.live
  have hused : bitmapTest st.freeMap 0 st.mem = true :=
    (howned.used _ List.mem_cons_self 0 ⟨le_rfl, Nat.succ_pos _⟩).2
  have hsize : bitmapGetSize st.freeMap = np := by
    rw [h.map]
    rfl
  have hloop : ∀ left, 0 < left → findRangeLoop st.freeMap 0 false st.mem left 0 0 0 = some 1 := by
    intro left hleft
    obtain ⟨left, rfl⟩ := Nat.exists_eq_succ_of_ne_zero (Nat.ne_of_gt hleft)
    simp [findRangeLoop, hused]
  have hfind : bitmapFindRange st.freeMap 0 np 0 false st.mem = 1 := by
    rw [bitmapFindRange, wrap_of_lt (by omega), hloop _ (by omega)]
    rfl
  have hbits : wrap (np + 1) = np + 1 := wrap_of_lt (by omega)
  have hne : ¬ 1 = np + 1 := by omega
  have hmem : (bitmapSetRange st.freeMap 1 0 true st.mem).1 = st.mem := by
    rw [bitmapSetRange, wrap_of_lt (by decide)]
    rfl
  have haddr : wrap (startAddr + 1 * pgSize) = pageAddr 1 := by decide
  simp only [pallocMult, hacq, ne_eq, not_true_eq_false, ↓reduceIte, hsize, hfind, hbits, hne,
    not_false_eq_true, hmem, hrel, haddr]

theorem setPages_zero (start : Nat) (val : Bool) : setPages st start 0 val = st := by
  rw [setPages, bitmapSetRange_none]

/-- Giving back no pages leaves the state as it is. -/
theorem pfreeMult_zero (hlock : st.pallocLock.val = 0) (addr : Nat) :
    ∃ code, pfreeMult addr 0 st = some (code, st) := by
  rw [pfreeMult_eq hlock (by decide), setPages_zero, ite_self]
  exact ⟨_, rfl⟩

end Calls

/-- The invariant of the runs: the ranges with pages are those of disjoint runs of set
bits, the others are at the second page. -/
structure FreesInv (np : Nat) (t : PageState) : Prop where
  page : PageInv np t.st (t.live.filter fun r => 0 < r.pages)
  empty : ∀ r ∈ t.live, r.pages = 0 → r.addr = pageAddr 1

section Inv

variable {np : Nat} {t u : PageState}

theorem filter_cons_of_pos {live : List PageRange} {r : PageRange} (hr : 0 < r.pages) :
    (r :: live).filter (fun r => 0 < r.pages) = r :: live.filter fun r => 0 < r.pages :=
  List.filter_cons_of_pos (decide_eq_true hr)

theorem filter_cons_of_zero {live : List PageRange} {r : PageRange} (hr : r.pages = 0) :
    (r :: live).filter (fun r => 0 < r.pages) = live.filter fun r => 0 < r.pages :=
  List.filter_cons_of_neg (by simp [hr])

theorem filter_perm_cons_erase {live : List PageRange} {r : PageRange} (hr : r ∈ live) :
    (live.filter fun r => 0 < r.pages).Perm
      ((r :: live.erase r).filter fun r => 0 < r.pages) :=
  (List.perm_cons_erase hr).filter _

theorem FreesInv.pallocMult (h : FreesInv np t) {cnt q : Nat} {st' : AllocState}
    (heq : KallocModel.pallocMult cnt t.st = some (q, st')) :
    FreesInv np ⟨st', if q = 0 then t.live else ⟨q, cnt⟩ :: t.live⟩ := by
  rcases Nat.eq_zero_or_pos cnt with rfl | hcnt
  · rw [pallocMult_zero h.page, Option.some_inj, Prod.mk.injEq] at heq
    obtain ⟨rfl, rfl⟩ := heq
    rw [if_neg (pageAddr_ne_zero 1)]
    refine ⟨by rw [filter_cons_of_zero rfl]; exact h.page, fun r hr hzero => ?_⟩
    rcases List.mem_cons.mp hr with rfl | hr
    · rfl
    · exact h.empty r hr hzero
  · rcases h.page.alloc hcnt with ⟨k, _, _, heq', hinv⟩ | ⟨_, heq'⟩
    · rw [heq', Option.some_inj, Prod.mk.injEq] at heq
      obtain ⟨rfl, rfl⟩ := heq
      rw [if_neg (pageAddr_ne_zero k)]
      refine ⟨by rw [filter_cons_of_pos hcnt]; exact hinv, fun r hr hzero => ?_⟩
      rcases List.mem_cons.mp hr with rfl | hr
      · exact absurd hzero (Nat.ne_of_gt hcnt)
      · exact h.empty r hr hzero
    · rw [heq', Option.some_inj, Prod.mk.injEq] at heq
      obtain ⟨rfl, rfl⟩ := heq
      rw [if_pos rfl]
      exact h

theorem FreesInv.pfreeMult (h : FreesInv np t) {r : PageRange} {code : Int} {st' : AllocState}
    (hr : r ∈ t.live) (heq : KallocModel.pfreeMult r.addr r.pages t.st = some (code, st')) :
    FreesInv np ⟨st', t.live.erase r⟩ := by
  have hperm := filter_perm_cons_erase hr
  refine ⟨?_, fun q hq => h.empty q (List.mem_of_mem_erase hq)⟩
  rcases Nat.eq_zero_or_pos r.pages with hzero | hpos
  · obtain ⟨code', heq'⟩ := pfreeMult_zero h.page.lock r.addr
    rw [hzero, heq', Option.some_inj, Prod.mk.injEq] at heq
    obtain ⟨_, rfl⟩ := heq
    rw [filter_cons_of_zero hzero] at hperm
    exact h.page.perm hperm.symm
  · have hmem : r ∈ t.live.filter fun r => 0 < r.pages :=
      List.mem_filter.mpr ⟨hr, decide_eq_true hpos⟩
    obtain ⟨code', mem', heq', hinv, _⟩ := h.page.free hmem
    rw [heq', Option.some_inj, Prod.mk.injEq] at heq
    obtain ⟨_, rfl⟩ := heq
    rw [filter_cons_of_pos hpos] at hperm
    exact hinv.perm (List.Perm.cons_inv (hperm.symm.trans (List.perm_cons_erase hmem)))

theorem FreesInv.write (h : FreesInv np t) {r : PageRange} {a : Nat} (hr : r ∈ t.live)
    (ha : r.Contains a) (b : BitVec 8) :
    FreesInv np { t with st := { t.st with mem := writeByte t.st.mem a b } } := by
  have hpos : 0 < r.pages := by
    obtain ⟨hlo, hhi⟩ := ha
    unfold pgSize at hhi
    omega
  exact ⟨h.page.write (List.mem_filter.mpr ⟨hr, decide_eq_true hpos⟩) ha b, h.empty⟩

theorem FreesInv.step (h : FreesInv np t) {op : PageOp} (hstep : AnyPageStep t op u) :
    FreesInv np u := by
  cases hstep with
  | pallocMult heq => exact h.pallocMult heq
  | pfreeMult hr heq => exact h.pfreeMult hr heq
  | write hr ha => exact h.write hr ha _

theorem PageInit.freesInv {allocations memUpper : Nat} {mem : Memory} (hboot : Boots memUpper mem)
    (hlist : InImage allocations) (h : PageInit allocations memUpper mem t) :
    FreesInv (numPages memUpper) t := by
  have hpos : ∀ r ∈ t.live, 0 < r.pages := by
    intro r hr
    rw [h.2, poolPages] at hr
    split at hr
    · exact absurd hr List.not_mem_nil
    · rw [List.mem_singleton.mp hr]
      exact Nat.succ_pos 9
  have hall : t.live.filter (fun r => 0 < r.pages) = t.live :=
    List.filter_eq_self.mpr fun r hr => decide_eq_true (hpos r hr)
  refine ⟨?_, fun r hr hzero => absurd hzero (Nat.ne_of_gt (hpos r hr))⟩
  rw [hall]
  exact h.inv hboot hlist

/-- Pages that are handed out never have index 0. -/
theorem FreesInv.pageIdx_ne_zero (h : FreesInv np t) {r : PageRange} (hr : r ∈ t.live) :
    pageIdx r.addr ≠ 0 := by
  rcases Nat.eq_zero_or_pos r.pages with hzero | hpos
  · rw [h.empty r hr hzero]
    decide
  · have hmem : r ∈ t.live.filter fun r => 0 < r.pages :=
      List.mem_filter.mpr ⟨hr, decide_eq_true hpos⟩
    obtain ⟨⟨k, n⟩, rfl, hend, _, _, hdisj⟩ := h.page.exists_run hmem
    have hlt := h.page.fits.lt
    have hn : 0 < n := hpos
    have hk : k ≠ 0 := by
      rintro rfl
      exact hdisj 0 ⟨le_rfl, Nat.succ_pos _⟩ ⟨le_rfl, by simp only; omega⟩
    simp only [pagesOf] at hend ⊢
    by_cases hnear : pgSize * k < 2 ^ 31
    · rwa [pageIdx_pageAddr hnear]
    · rw [pageIdx_pageAddr_of_far (by omega) (by unfold pgSize; omega)]
      omega

end Inv

section Reports

variable {np : Nat} {t : PageState} {addr cnt : Nat}

theorem memFreeSucc_ne_fail : memFreeSucc ≠ -memFreeFail := by decide

/-- Pages that are handed out are never given back with success. -/
theorem FreesInv.code_of_live (h : FreesInv np t) {r : PageRange} (hr : r ∈ t.live)
    (hcnt : r.pages < 2 ^ 32) {code : Int} {st' : AllocState}
    (heq : KallocModel.pfreeMult r.addr r.pages t.st = some (code, st')) : code = -memFreeFail := by
  rw [pfreeMult_eq h.page.lock hcnt, Option.some_inj, Prod.mk.injEq,
    if_neg fun hzero => h.pageIdx_ne_zero hr hzero.2] at heq
  exact heq.1.symm

/-- A failure has changed the map exactly when the test was passed by at least one page
at an index other than 0. -/
theorem FreesInv.fail_iff (h : FreesInv np t) (haddr : addr < 2 ^ 32) (hcnt : cnt < 2 ^ 32) :
    (∀ st', KallocModel.pfreeMult addr cnt t.st = some (-memFreeFail, st') → SameMap np t.st st') ↔
      ¬ ClearsUnreported t.st addr cnt := by
  have hidx : pageIdx addr ≠ 0 ↔ addr + pgSize ≤ startAddr ∨ startAddr + pgSize ≤ addr := by
    rw [ne_eq, pageIdx_eq_zero_iff haddr]
    omega
  rw [pfreeMult_eq h.page.lock hcnt]
  constructor
  · rintro hsame ⟨hpos, hfar, hacc⟩
    rw [if_neg fun hzero => hidx.mpr hfar hzero.2, if_pos hacc] at hsame
    have hlt := accepts_lt hcnt hacc
    have hend : pageIdx addr + cnt < np := by
      have hbound := hacc.1
      rwa [wrap_of_lt hlt, bitmapGetSize, h.page.map] at hbound
    have hcov : (Range.mk (pageIdx addr) cnt).Covers (pageIdx addr) := ⟨le_rfl, by simp only; omega⟩
    have hset := (bitmapCountRange_eq_len_iff _ hlt _).mp hacc.2 _ hcov
    have hused : PageUsed t.st (pageIdx addr) := ⟨by rw [h.page.map]; simp only; omega, hset⟩
    have hstill := (hsame _ rfl (pageIdx addr) (by omega)).mpr hused
    exact ((pageUsed_setPages_false hlt _).mp hstill).1 hcov
  · intro hno st' heq
    rw [Option.some_inj, Prod.mk.injEq] at heq
    obtain ⟨hcode, rfl⟩ := heq
    by_cases hacc : pfreeAccepts t.st addr cnt
    · have hne : pageIdx addr ≠ 0 := by
        intro hzero
        rw [if_pos ⟨hacc, hzero⟩] at hcode
        exact memFreeSucc_ne_fail hcode
      have hzero : cnt = 0 := by
        by_contra hpos
        exact hno ⟨Nat.pos_of_ne_zero hpos, hidx.mp hne, hacc⟩
      subst hzero
      rw [if_pos hacc, setPages_zero]
      exact fun _ _ => Iff.rfl
    · rw [if_neg hacc]
      exact fun _ _ => Iff.rfl

end Reports

/-- In every state reached, `pfree_mult` does what it owes exactly when the pages are not
handed out and it clears no bits without saying so. -/
theorem pfree_reports_iff {allocations memUpper : Nat} {mem : Memory} {t u : PageState}
    {ops : List PageOp} (hboot : Boots memUpper mem) (hlist : InImage allocations)
    (hinit : PageInit allocations memUpper mem t) (hrun : Run AnyPageStep t ops u) {addr cnt : Nat}
    (haddr : addr < 2 ^ 32) (hcnt : cnt < 2 ^ 32) :
    ReportsFree (numPages memUpper) u addr cnt ↔
      ⟨addr, cnt⟩ ∉ u.live ∧ ¬ ClearsUnreported u.st addr cnt := by
  have hinv : FreesInv (numPages memUpper) u :=
    Run.invariant (FreesInv (numPages memUpper)) (fun _ _ _ h hstep => h.step hstep) hrun
      (PageInit.freesInv hboot hlist hinit)
  have hfail := hinv.fail_iff haddr hcnt
  constructor
  · intro h
    refine ⟨fun hr => ?_, hfail.mp h.fail⟩
    obtain ⟨st', heq, _⟩ := h.live hr
    exact memFreeSucc_ne_fail (hinv.code_of_live hr hcnt heq)
  · rintro ⟨hr, hno⟩
    exact ⟨fun hlive => absurd hlive hr, hfail.mpr hno⟩

/-- The first page, which holds the free map, is at index 0: giving it back is the one
call that can succeed. -/
theorem pfree_reports_iff_first : ∃ t, PageInit 1048576 4144 (fun _ => 0#8) t ∧
    ReportsFree (numPages 4144) t startAddr 1 := by
  have hboot : Boots 4144 fun _ => 0#8 := ⟨by decide, by decide, by decide, fun _ _ => rfl⟩
  have hlist : InImage 1048576 := by decide
  obtain ⟨t, hinit⟩ := exists_pageInit hboot hlist
  refine ⟨t, hinit,
    (pfree_reports_iff hboot hlist hinit (.nil t) (by decide) (by decide)).mpr ⟨?_, ?_⟩⟩
  · rw [hinit.2, poolPages]
    split
    · exact List.not_mem_nil
    · simp
  · rintro ⟨_, hfar, _⟩
    exact absurd hfar (by decide)

/-- With ten pages behind those of the map `init_alloc` finds a place for the pool. -/
theorem exists_pool {allocations memUpper : Nat} {mem : Memory} {t : PageState}
    (hboot : Boots memUpper mem) (hlist : InImage allocations)
    (hinit : PageInit allocations memUpper mem t)
    (hroom : (mapPages (numPages memUpper)).len + 10 ≤ numPages memUpper) :
    ⟨t.st.slab.mem, 10⟩ ∈ t.live := by
  obtain ⟨pool, st, _, hzero, _, _, _, heq⟩ := initAlloc_spec hboot hlist
  have hst := hinit.1
  rw [heq, Option.some_inj] at hst
  have hpool : t.st.slab.mem = pool := by
    rw [← hst]
    rfl
  have hne : pool ≠ 0 := by
    refine fun hnull => hzero.mp hnull
      ⟨(mapPages (numPages memUpper)).len, Nat.zero_le _, hroom, ?_⟩
    rintro i ⟨hlo, hhi⟩
    simp only at hlo hhi
    refine pageFree_mapReady hboot hlist (by omega) fun hcov => ?_
    have hin := hcov.2
    simp only [mapPages] at hin hlo
    omega
  rw [hinit.2, hpool, poolPages, if_neg hne]
  exact List.mem_singleton.mpr rfl

/-- Right after `init_alloc` the pool, ten pages from `palloc_mult(10)`, cannot be given
back with success. -/
theorem not_pfree_reports : ¬ ∀ (allocations memUpper : Nat) (mem : Memory) (t u : PageState)
    (ops : List PageOp), Boots memUpper mem → InImage allocations →
    PageInit allocations memUpper mem t → Run AnyPageStep t ops u →
    ∀ addr cnt, addr < 2 ^ 32 → cnt < 2 ^ 32 → ReportsFree (numPages memUpper) u addr cnt := by
  intro hall
  have hboot : Boots 4144 fun _ => 0#8 := ⟨by decide, by decide, by decide, fun _ _ => rfl⟩
  have hlist : InImage 1048576 := by decide
  obtain ⟨t, hinit⟩ := exists_pageInit hboot hlist
  have hpool := exists_pool hboot hlist hinit (by decide)
  have hinv := PageInit.freesInv hboot hlist hinit
  obtain ⟨run, hrun, hend, _⟩ := (hinit.inv hboot hlist).exists_page hpool
  have haddr : t.st.slab.mem < 2 ^ 32 := by
    have hspace := hboot.fits.inSpace
    simp only at hrun hend
    rw [hrun]
    unfold pageAddr pgSize at *
    omega
  have hreports := hall 1048576 4144 _ t t [] hboot hlist hinit (.nil t) _ 10 haddr (by decide)
  obtain ⟨st', heq, _⟩ := hreports.live hpool
  exact memFreeSucc_ne_fail (hinv.code_of_live hpool (show 10 < 2 ^ 32 by decide) heq)

end Longhorn.PageFrees
