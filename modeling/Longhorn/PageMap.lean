import Longhorn.KallocModel

/-!
What the page allocator does to its free map: the bits that are set are the pages
in use, and the first pages hold the map itself.
-/

namespace Longhorn.PageMap

open Longhorn.Foundations.ByteMemory
open Longhorn.Foundations.Ranges
open Longhorn.AtomicSpinLock
open Longhorn.PackedBitmap
open Longhorn.KallocModel

/-- The pages end inside the address space, and there is one. -/
structure Fits (np : Nat) : Prop where
  pos : 0 < np
  inSpace : startAddr + pgSize * np < 2 ^ 32

/-- A page whose bit is clear. -/
def PageFree (st : AllocState) (i : Nat) : Prop := bitmapTest st.freeMap i st.mem = false

def PageUsed (st : AllocState) (i : Nat) : Prop :=
  i < st.freeMap.bits ∧ bitmapTest st.freeMap i st.mem = true

/-- The state after the bits of a run of pages have been stored. -/
def setPages (st : AllocState) (start cnt : Nat) (val : Bool) : AllocState :=
  { st with mem := (bitmapSetRange st.freeMap start cnt val st.mem).1 }

/-- The bytes of the free map. -/
def MapByte (np a : Nat) : Prop := startAddr ≤ a ∧ a < startAddr + 4 * ((np + 31) / 32)

/-- The pages that `init_alloc` reserves for the map. -/
def mapPages (np : Nat) : Range := ⟨0, np / pgSize + 1⟩

def pageAddr (k : Nat) : Nat := startAddr + pgSize * k

variable {np : Nat} {st : AllocState}

theorem Fits.lt (h : Fits np) : np < 2 ^ 20 - 1024 := by
  have := h.inSpace
  unfold startAddr pgSize at this
  omega

theorem pageAddr_ne_zero (k : Nat) : pageAddr k ≠ 0 := by
  unfold pageAddr startAddr
  omega

theorem mapPages_le (h : Fits np) : (mapPages np).start + (mapPages np).len ≤ np := by
  have := h.pos
  simp only [mapPages, pgSize]
  omega

/-- A critical section leaves the lock as it was. -/
theorem spinLock_section {sl : SpinLock} (h : sl.val = 0) :
    spinLockAcquire sl = some (lockAcqSucc, { sl with val := 1 }) ∧
      (spinLockRelease { sl with val := 1 }).2 = sl := by
  refine ⟨spinLockAcquire_free h, ?_⟩
  rw [spinLockRelease_taken rfl]
  simp only [← h]

/-- With the lock free, `palloc_mult` marks the first fit and computes its address modulo
`2^32`, or nothing fits. -/
theorem pallocMult_of_lock (hbits : st.freeMap.bits + 1 < 2 ^ 32)
    (hlock : st.pallocLock.val = 0) {cnt : Nat} (hcnt : 0 < cnt) :
    (∃ k, IsFirstFit (PageFree st) 0 st.freeMap.bits cnt k ∧
        pallocMult cnt st = some (wrap (startAddr + k * pgSize), setPages st k cnt true)) ∨
      (¬ HasFit (PageFree st) 0 st.freeMap.bits cnt ∧ pallocMult cnt st = some (0, st)) := by
  obtain ⟨hacq, hrel⟩ := spinLock_section hlock
  have hfind := bitmapFindRange_spec st.freeMap 0 st.freeMap.bits cnt false st.mem (by omega) hcnt
  rw [Nat.zero_add] at hfind
  have hwrap : wrap (st.freeMap.bits + 1) = st.freeMap.bits + 1 := wrap_of_lt hbits
  rcases hfind with hfirst | ⟨hidx, hnone⟩
  · refine Or.inl ⟨_, hfirst, ?_⟩
    have hend := hfirst.1.2.1
    have hne : bitmapFindRange st.freeMap 0 st.freeMap.bits cnt false st.mem ≠
        st.freeMap.bits + 1 := by omega
    simp only [pallocMult, hacq, ne_eq, not_true_eq_false, ↓reduceIte, bitmapGetSize, hwrap, hne,
      not_false_eq_true, hrel, setPages]
  · refine Or.inr ⟨hnone, ?_⟩
    rw [hwrap] at hidx
    simp only [pallocMult, hacq, ne_eq, not_true_eq_false, ↓reduceIte, bitmapGetSize, hwrap, hidx,
      hrel]

theorem bitmapSetRange_none (m : Bitmap) (idx : Nat) (val : Bool) (mem : Memory) :
    (bitmapSetRange m idx 0 val mem).1 = mem := by
  have hrounds : wrap idx - idx = 0 := Nat.sub_eq_zero_of_le (Nat.mod_le _ _)
  rw [bitmapSetRange, Nat.add_zero, hrounds, setRangeLoop]

/-- A call for no pages changes nothing, whatever address it returns. -/
theorem pallocMult_none (hlock : st.pallocLock.val = 0) {q : Nat} {st' : AllocState}
    (h : pallocMult 0 st = some (q, st')) : st' = st := by
  obtain ⟨hacq, hrel⟩ := spinLock_section hlock
  simp only [pallocMult, hacq, ne_eq, not_true_eq_false, ↓reduceIte, bitmapSetRange_none,
    hrel] at h
  split at h
  · exact (congrArg Prod.snd (Option.some.inj h)).symm
  · exact (congrArg Prod.snd (Option.some.inj h)).symm

theorem pfreeMult_none (hlock : st.pallocLock.val = 0) {addr : Nat} {code : Int}
    {st' : AllocState} (h : pfreeMult addr 0 st = some (code, st')) : st' = st := by
  obtain ⟨hacq, hrel⟩ := spinLock_section hlock
  simp only [pfreeMult, hacq, ne_eq, not_true_eq_false, ↓reduceIte, bitmapSetRange_none,
    hrel] at h
  split at h
  · exact (congrArg Prod.snd (Option.some.inj h)).symm
  · exact (congrArg Prod.snd (Option.some.inj h)).symm

/-- When the pages end inside the address space, no address of a page wraps around. -/
theorem pallocMult_spec (hfits : Fits np) (hmap : st.freeMap = ⟨startAddr, np⟩)
    (hlock : st.pallocLock.val = 0) {cnt : Nat} (hcnt : 0 < cnt) :
    (∃ k, IsFirstFit (PageFree st) 0 np cnt k ∧
        pallocMult cnt st = some (pageAddr k, setPages st k cnt true)) ∨
      (¬ HasFit (PageFree st) 0 np cnt ∧ pallocMult cnt st = some (0, st)) := by
  have hlt := hfits.lt
  have hsize : st.freeMap.bits = np := by rw [hmap]
  have hspec := pallocMult_of_lock (by omega) hlock hcnt
  rw [hsize] at hspec
  refine hspec.imp_left ?_
  rintro ⟨k, hfirst, heq⟩
  have hend := hfirst.1.2.1
  have hspace := hfits.inSpace
  refine ⟨k, hfirst, heq.trans ?_⟩
  rw [Nat.mul_comm, wrap_of_lt]
  · rfl
  · unfold startAddr pgSize at *
    omega

/-- The index of a page less than 2 GB behind the first one. -/
theorem pageIdx_pageAddr {k : Nat} (hk : pgSize * k < 2 ^ 31) : pageIdx (pageAddr k) = k := by
  have hdiff : ((pageAddr k : Nat) : Int) - startAddr = pgSize * (k : Int) := by
    simp only [pageAddr]
    omega
  have hlt : (pgSize : Int) * k < 2 ^ 31 := by exact_mod_cast hk
  have hk' : k < 2 ^ 32 := by
    unfold pgSize at hk
    omega
  rw [pageIdx, hdiff, wrapInt_of_nonneg (by omega) hlt,
    Int.mul_tdiv_cancel_left _ (by decide)]
  omega

/-- The index that `pfree_mult` computes for a page farther behind is no index of
the map: the difference of the addresses is negative. -/
theorem pageIdx_pageAddr_of_far {k : Nat} (hk : 2 ^ 31 ≤ pgSize * k)
    (hk' : pgSize * k < 2 ^ 32) : pageIdx (pageAddr k) = 2 ^ 32 - 2 ^ 20 + k := by
  have hdiff : ((pageAddr k : Nat) : Int) - startAddr = pgSize * (k : Int) := by
    simp only [pageAddr]
    omega
  have hle : 2 ^ 31 ≤ (pgSize : Int) * k := by exact_mod_cast hk
  have hlt : (pgSize : Int) * k < 2 ^ 32 := by exact_mod_cast hk'
  have hwrap : (pgSize : Int) * k - 2 ^ 32 = pgSize * ((k : Int) - 2 ^ 20) := by
    simp only [pgSize]
    omega
  have hk20 : k < 2 ^ 20 := by
    unfold pgSize at hk'
    omega
  rw [pageIdx, hdiff, wrapInt_of_large hle hlt, hwrap, Int.mul_tdiv_cancel_left _ (by decide)]
  omega

/-- What the test of `pfree_mult` means for a run of pages: the last page of the
map is never given back. -/
theorem pfreeAccepts_iff (hfits : Fits np) (hmap : st.freeMap = ⟨startAddr, np⟩) {k cnt : Nat}
    (hk : k + cnt ≤ np) :
    pfreeAccepts st (pageAddr k) cnt ↔
      pgSize * k < 2 ^ 31 ∧ k + cnt < np ∧ AllOn (PageUsed st) ⟨k, cnt⟩ := by
  have hlt := hfits.lt
  have hsize : bitmapGetSize st.freeMap = np := by
    rw [hmap]
    rfl
  have hused : AllOn (PageUsed st) ⟨k, cnt⟩ ↔
      AllOn (fun i => bitmapTest st.freeMap i st.mem = true) ⟨k, cnt⟩ := by
    refine ⟨fun h => h.mono fun _ _ hi => hi.2, fun h => h.mono fun i hi hi' => ⟨?_, hi'⟩⟩
    obtain ⟨_, hi⟩ := hi
    rw [hmap]
    simp only at hi ⊢
    omega
  have hkcnt : k + cnt < 2 ^ 32 := by omega
  rw [pfreeAccepts, hsize, hused]
  by_cases hnear : pgSize * k < 2 ^ 31
  · rw [pageIdx_pageAddr hnear, wrap_of_lt hkcnt, bitmapCountRange_eq_len_iff _ hkcnt]
    simp only [hnear, true_and]
  · have hfar : pgSize * k < 2 ^ 32 := by
      unfold pgSize
      omega
    rw [pageIdx_pageAddr_of_far (by omega) hfar]
    simp only [hnear, false_and, iff_false]
    rintro ⟨h, _⟩
    rw [wrap_of_lt (by omega)] at h
    omega

/-- With the lock free, `pfree_mult` clears the bits of the run exactly when its
test accepts it. -/
theorem pfreeMult_spec (hlock : st.pallocLock.val = 0) (addr cnt : Nat) :
    ∃ code, pfreeMult addr cnt st = some (code,
      if pfreeAccepts st addr cnt then setPages st (pageIdx addr) cnt false else st) := by
  obtain ⟨hacq, hrel⟩ := spinLock_section hlock
  by_cases hacc : pfreeAccepts st addr cnt
  · simp only [pfreeMult, hacq, ne_eq, not_true_eq_false, ↓reduceIte, hacc, hrel, setPages]
    exact ⟨_, rfl⟩
  · simp only [pfreeMult, hacq, ne_eq, not_true_eq_false, ↓reduceIte, hacc, hrel]
    exact ⟨_, rfl⟩

/-- The bits after a run of them has been stored. -/
theorem bitmapTest_setPages {start cnt : Nat} (h : start + cnt < 2 ^ 32) (val : Bool) (i : Nat) :
    bitmapTest (setPages st start cnt val).freeMap i (setPages st start cnt val).mem =
      if (Range.mk start cnt).Covers i then val else bitmapTest st.freeMap i st.mem :=
  bitmapTest_bitmapSetRange st.freeMap h val i st.mem

theorem pageUsed_setPages_true (start cnt : Nat) (h : start + cnt < 2 ^ 32)
    (hle : start + cnt ≤ st.freeMap.bits) (i : Nat) :
    PageUsed (setPages st start cnt true) i ↔ (Range.mk start cnt).Covers i ∨ PageUsed st i := by
  unfold PageUsed
  rw [bitmapTest_setPages h]
  constructor
  · rintro ⟨hi, hbit⟩
    by_cases hc : (Range.mk start cnt).Covers i
    · exact Or.inl hc
    · rw [if_neg hc] at hbit
      exact Or.inr ⟨hi, hbit⟩
  · rintro (hc | ⟨hi, hbit⟩)
    · refine ⟨?_, if_pos hc⟩
      obtain ⟨_, hc⟩ := hc
      exact Nat.lt_of_lt_of_le hc hle
    · refine ⟨hi, ?_⟩
      split
      · rfl
      · exact hbit

theorem pageUsed_setPages_false {start cnt : Nat} (h : start + cnt < 2 ^ 32) (i : Nat) :
    PageUsed (setPages st start cnt false) i ↔ ¬ (Range.mk start cnt).Covers i ∧ PageUsed st i := by
  unfold PageUsed
  rw [bitmapTest_setPages h]
  by_cases hc : (Range.mk start cnt).Covers i
  · simp [hc]
  · simp [hc, setPages]

/-- Storing bits of the map changes no byte outside it. -/
theorem setPages_of_outside (hfits : Fits np) (hmap : st.freeMap = ⟨startAddr, np⟩)
    {start cnt a : Nat} (h : start + cnt ≤ np) (ha : ¬ MapByte np a) (val : Bool) :
    (setPages st start cnt val).mem a = st.mem a := by
  have hlt := hfits.lt
  refine bitmapSetRange_of_outside (by omega) ?_ val st.mem
  rw [hmap]
  unfold MapByte at ha
  simp only
  omega

/-- The bits of the map depend only on its bytes. -/
theorem bitmapTest_congr {mem mem' : Memory} (hmem : AgreeOn (MapByte np) mem mem') {i : Nat}
    (hi : i < np) :
    bitmapTest ⟨startAddr, np⟩ i mem' = bitmapTest ⟨startAddr, np⟩ i mem := by
  unfold bitmapTest
  rw [readWord_congr fun c h1 h2 => hmem c ?_]
  unfold MapByte
  simp only [elemAddr, elemIdx] at h1 h2
  omega

end Longhorn.PageMap
