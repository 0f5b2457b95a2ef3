import Longhorn.PageSafety

/-!
The boot records for which the arithmetic of `init_alloc` is safe.
-/

namespace Longhorn.BootMemory

open Longhorn.Foundations.ByteMemory
open Longhorn.Foundations.Ranges
open Longhorn.PackedBitmap
open Longhorn.KallocModel
open Longhorn.PageMap
open Longhorn.PageSafety

/-- The size of the memory above 1 MB in bytes, as `init_alloc` computes it. -/
def upperBytes (memUpper : Nat) : Nat := wrap (memUpper * 1024)

/-- What `init_alloc` should leave for a boot record: the pages, at the addresses that
`palloc_mult` computes, lie in the memory that the record describes; the reserved pages are
pages of the map and hold all its words; and the pool is one that was handed out. -/
structure InitSafe (allocations memUpper : Nat) (mem : Memory) : Prop where
  pages : ∀ k, k < numPages memUpper → ∀ a, wrap (startAddr + k * pgSize) ≤ a →
    a < wrap (startAddr + k * pgSize) + pgSize → startAddr ≤ a ∧ a < 2 ^ 20 + memUpper * 1024
  reserved : (mapPages (numPages memUpper)).len ≤ numPages memUpper
  covers : ∀ a, MapByte (numPages memUpper) a →
    a < startAddr + pgSize * (mapPages (numPages memUpper)).len
  pool : ∃ pool st, pallocMult 10 (mapReady allocations memUpper mem) = some (pool, st) ∧ pool ≠ 0

/-- The size in bytes is at least 4 MB and one page, or the size wraps around to less than a
page. -/
def SizeFits (memUpper : Nat) : Prop :=
  startAddr + pgSize ≤ upperBytes memUpper ∨ 2 ^ 22 ≤ memUpper ∧ upperBytes memUpper < pgSize

instance (memUpper : Nat) : Decidable (SizeFits memUpper) :=
  inferInstanceAs (Decidable (_ ∨ _))

/-- The memory that becomes the map, which nobody clears, holds ten clear bits in a row
behind those of the reserved pages. -/
def TenClearBits (memUpper : Nat) (mem : Memory) : Prop :=
  HasFit (fun i => bitmapTest ⟨startAddr, numPages memUpper⟩ i mem = false)
    (mapPages (numPages memUpper)).len (numPages memUpper) 10

section Sizes

variable {memUpper : Nat}

/-- Below 4 MB the difference wraps around. -/
theorem numPages_eq_ite (memUpper : Nat) :
    numPages memUpper =
      if startAddr ≤ upperBytes memUpper then (upperBytes memUpper - startAddr) / pgSize
      else 2 ^ 20 - 1024 + upperBytes memUpper / pgSize := by
  have hlt : upperBytes memUpper < 2 ^ 32 := Nat.mod_lt _ (by decide)
  unfold numPages
  change wrapSub (upperBytes memUpper) startAddr / pgSize = _
  generalize upperBytes memUpper = w at *
  unfold wrapSub wrap startAddr pgSize
  split <;> omega

/-- The reserved pages hold the map, whatever its size is. -/
theorem mapByte_lt (np : Nat) {a : Nat} (ha : MapByte np a) :
    a < startAddr + pgSize * (mapPages np).len := by
  obtain ⟨_, ha⟩ := ha
  simp only [mapPages, pgSize]
  omega

/-- Where the size fits, the pages end at the end of the address space or before. -/
theorem SizeFits.numPages_le (h : SizeFits memUpper) :
    0 < numPages memUpper ∧ startAddr + pgSize * numPages memUpper ≤ 2 ^ 32 := by
  have hlt : upperBytes memUpper < 2 ^ 32 := Nat.mod_lt _ (by decide)
  unfold SizeFits at h
  rw [numPages_eq_ite]
  generalize upperBytes memUpper = w at *
  unfold startAddr pgSize at *
  split <;> omega

theorem SizeFits.pages (h : SizeFits memUpper) {k a : Nat} (hk : k < numPages memUpper)
    (h1 : wrap (startAddr + k * pgSize) ≤ a) (h2 : a < wrap (startAddr + k * pgSize) + pgSize) :
    startAddr ≤ a ∧ a < 2 ^ 20 + memUpper * 1024 := by
  have hend := h.numPages_le.2
  have hle : upperBytes memUpper ≤ memUpper * 1024 := Nat.mod_le _ _
  have hlt : upperBytes memUpper < 2 ^ 32 := Nat.mod_lt _ (by decide)
  rw [wrap_of_lt (by unfold pgSize at *; omega)] at h1 h2
  unfold SizeFits at h
  rw [numPages_eq_ite] at hk
  generalize upperBytes memUpper = w at *
  unfold startAddr pgSize at *
  split at hk <;> omega

/-- A boot record that keeps the pages in the memory has a size that fits. -/
theorem sizeFits_of_safe {allocations : Nat} {mem : Memory}
    (h : InitSafe allocations memUpper mem) : SizeFits memUpper := by
  by_contra hnot
  have hpages := h.pages
  have hreserved := h.reserved
  have hle : upperBytes memUpper ≤ memUpper * 1024 := Nat.mod_le _ _
  unfold SizeFits at hnot
  simp only [mapPages, numPages_eq_ite] at hpages hreserved
  by_cases hlow : startAddr ≤ upperBytes memUpper
  · -- there is no page at all, but one is reserved
    simp only [if_pos hlow] at hreserved
    unfold startAddr pgSize at *
    omega
  by_cases hpage : upperBytes memUpper < pgSize
  · -- the first page lies behind the memory
    have hwrap : upperBytes memUpper = memUpper * 1024 := by
      refine wrap_of_lt ?_
      unfold pgSize at *
      omega
    have hpos : 0 < 2 ^ 20 - 1024 + upperBytes memUpper / pgSize :=
      Nat.lt_of_lt_of_le (by decide) (Nat.le_add_right _ _)
    have hfirst := (hpages 0 (by rwa [if_neg hlow]) startAddr le_rfl (by decide)).2
    unfold startAddr pgSize at *
    omega
  · -- one of the pages is at `NULL`
    have hnull := (hpages (2 ^ 20 - 1024) (by
      rw [if_neg hlow]
      have := Nat.div_pos (Nat.le_of_not_lt hpage) (by decide)
      omega) 0 (by decide) (by decide)).1
    exact absurd hnull (by decide)

end Sizes

section Pool

variable {allocations memUpper : Nat} {mem : Memory}

/-- The ten pages for the pool are found behind the reserved ones. -/
theorem hasFit_mapReady_iff (hlist : InImage allocations) :
    HasFit (PageFree (mapReady allocations memUpper mem)) 0 (numPages memUpper) 10 ↔
      TenClearBits memUpper mem := by
  have hbit : ∀ i, i < numPages memUpper → (PageFree (mapReady allocations memUpper mem) i ↔
      (mapPages (numPages memUpper)).len ≤ i ∧
        bitmapTest ⟨startAddr, numPages memUpper⟩ i mem = false) := by
    intro i hi
    have htest := bitmapTest_mapReady_of_lt mem hlist hi
    rw [PageFree]
    change bitmapTest ⟨startAddr, numPages memUpper⟩ i _ = false ↔ _
    rw [htest]
    by_cases hc : (mapPages (numPages memUpper)).Covers i
    · rw [if_pos hc]
      refine iff_of_false (by decide) fun h => ?_
      have := hc.2
      simp only [mapPages] at this h
      omega
    · rw [if_neg hc]
      refine ⟨fun h => ⟨?_, h⟩, fun h => h.2⟩
      by_contra hlt
      exact hc ⟨Nat.zero_le i, by simp only [mapPages] at hlt ⊢; omega⟩
  constructor
  · rintro ⟨b, _, hend, hall⟩
    have hfirst := (hbit b (by omega)).mp (hall b ⟨le_rfl, by simp only; omega⟩)
    refine ⟨b, hfirst.1, hend, fun i hi => ?_⟩
    have hlt := hi.2
    simp only at hlt
    exact ((hbit i (by omega)).mp (hall i hi)).2
  · rintro ⟨b, hlo, hend, hall⟩
    refine ⟨b, Nat.zero_le b, hend, fun i hi => ?_⟩
    obtain ⟨h1, h2⟩ := hi
    simp only at h1 h2
    exact (hbit i (by omega)).mpr ⟨by omega, hall i ⟨h1, h2⟩⟩

/-- Of a map that ends inside the address space `palloc_mult` hands out the pool exactly
when the bits are there. -/
theorem pool_iff (hlist : InImage allocations) (hfits : SizeFits memUpper) :
    (∃ pool st, pallocMult 10 (mapReady allocations memUpper mem) = some (pool, st) ∧ pool ≠ 0) ↔
      TenClearBits memUpper mem := by
  rw [← hasFit_mapReady_iff hlist]
  have hend := hfits.numPages_le.2
  have hbits : (mapReady allocations memUpper mem).freeMap.bits = numPages memUpper := rfl
  have hspec := pallocMult_of_lock
    (show (mapReady allocations memUpper mem).freeMap.bits + 1 < 2 ^ 32 by
      rw [hbits]
      unfold pgSize at hend
      omega) rfl (show 0 < 10 by decide)
  rw [hbits] at hspec
  rcases hspec with ⟨k, hfirst, heq⟩ | ⟨hnone, heq⟩
  · refine iff_of_true ⟨_, _, heq, ?_⟩ hfirst.hasFit
    have hlast := hfirst.1.2.1
    rw [wrap_of_lt (by unfold pgSize at *; omega)]
    unfold startAddr
    omega
  · refine iff_of_false ?_ hnone
    rintro ⟨pool, st, hpool, hne⟩
    rw [heq, Option.some_inj, Prod.mk.injEq] at hpool
    exact hne hpool.1.symm

/-- `init_alloc` is safe exactly for the boot records whose size fits, when the memory of
the map holds the bits for the pool. -/
theorem init_alloc_safe_iff (hlist : InImage allocations) :
    InitSafe allocations memUpper mem ↔ SizeFits memUpper ∧ TenClearBits memUpper mem := by
  constructor
  · intro h
    have hfits := sizeFits_of_safe h
    exact ⟨hfits, (pool_iff hlist hfits).mp h.pool⟩
  · rintro ⟨hfits, hbits⟩
    refine ⟨fun k hk a => hfits.pages hk, ?_, fun a => mapByte_lt _,
      (pool_iff hlist hfits).mpr hbits⟩
    have hpos := hfits.numPages_le.1
    simp only [mapPages, pgSize]
    omega

/-- A machine with 128 MB and zeroed memory. -/
theorem init_alloc_safe_iff_zeroed : InitSafe 1048576 130048 fun _ => 0#8 := by
  refine (init_alloc_safe_iff (by decide)).mpr ⟨by decide, 8, by decide, by decide, fun i _ => ?_⟩
  simp [bitmapTest_eq_getLsbD, readWord]

/-- With 3 MB above the first the number of pages wraps around, and one page is at `NULL`. -/
theorem not_init_alloc_safe : ¬ ∀ (allocations memUpper : Nat) (mem : Memory),
    InImage allocations → memUpper < 2 ^ 32 → InitSafe allocations memUpper mem := by
  intro hclaim
  have hsafe := hclaim 1048576 3072 (fun _ => 0#8) (by decide) (by decide)
  exact absurd (hsafe.pages (2 ^ 20 - 1024) (by decide) 0 (by decide) (by decide)).1 (by decide)

end Pool

end Longhorn.BootMemory
