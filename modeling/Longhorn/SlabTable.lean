import Longhorn.SlabModel

/-!
What the operations of the slab allocator do to a table of a known number of
entries, as long as they stay inside it.
-/

namespace Longhorn.SlabTable

open Longhorn.Foundations.ByteMemory
open Longhorn.Foundations.Ranges
open Longhorn.SlabModel

/-- The memory holds a table of `count` entries, entry `k` for the slab at
`slot k`, and the scan of `slab_alloc` does not end before the table does. -/
structure HasTable (s : SlabAllocator) (mem : Memory) (count : Nat) (slot : Nat → Nat) :
    Prop where
  inSpace : s.data + sizeofSlab * count < 2 ^ 32
  scanned : count ≤ totalNumSlabs s
  addr : ∀ k, k < count → slabAddr s mem k = slot k

variable {s : SlabAllocator} {mem : Memory} {count : Nat} {slot : Nat → Nat}

/-- The entries of the table that are marked free. -/
def freeEntries (s : SlabAllocator) (mem : Memory) (count : Nat) : Nat :=
  Nat.count (fun k => slabIsFree s mem k = true) count

theorem freeEntries_withFreeMem (s : SlabAllocator) (f : Nat) (mem : Memory) (count : Nat) :
    freeEntries { s with freeMemSize := f } mem count = freeEntries s mem count :=
  rfl

/-- The counter of free memory is read by none of these. -/
theorem slabIsFree_withFreeMem (s : SlabAllocator) (f : Nat) (mem : Memory) (k : Nat) :
    slabIsFree { s with freeMemSize := f } mem k = slabIsFree s mem k :=
  rfl

theorem slabAddr_withFreeMem (s : SlabAllocator) (f : Nat) (mem : Memory) (k : Nat) :
    slabAddr { s with freeMemSize := f } mem k = slabAddr s mem k :=
  rfl

theorem totalNumSlabs_withFreeMem (s : SlabAllocator) (f : Nat) :
    totalNumSlabs { s with freeMemSize := f } = totalNumSlabs s :=
  rfl

/-- Every run of `n` free entries that the scan of `slab_alloc` can find implies
that one lies inside the table. -/
def ScanStaysInTable (s : SlabAllocator) (mem : Memory) (count n : Nat) : Prop :=
  HasFit (fun k => slabIsFree s mem k = true) 0 count n ∨
    ∀ c, c < totalNumSlabs s → ¬ AllOn (fun k => slabIsFree s mem k = true) ⟨c, n⟩

theorem entryPtr_eq (hspace : s.data + sizeofSlab * count < 2 ^ 32) {k : Nat} (hk : k < count) :
    entryPtr s k = s.data + sizeofSlab * k := by
  unfold sizeofSlab at *
  exact wrap_of_lt (by unfold sizeofSlab; omega)

theorem flagPtr_eq (hspace : s.data + sizeofSlab * count < 2 ^ 32) {k : Nat} (hk : k < count) :
    flagPtr s k = s.data + sizeofSlab * k + 4 := by
  unfold sizeofSlab at *
  exact wrap_of_lt (by unfold sizeofSlab; omega)

theorem setFlags_of_ne {val : BitVec 8} {left k a : Nat}
    (h : ∀ j, k ≤ j → j < k + left → a ≠ flagPtr s j) (mem : Memory) :
    setFlags s val left k mem a = mem a := by
  induction left generalizing k mem with
  | zero => rfl
  | succ left ih =>
      rw [setFlags, ih fun j h1 h2 => h j (by omega) (by omega)]
      exact writeByte_of_ne (h k le_rfl (by omega)) mem val

/-- Every flag of the run holds the value. -/
theorem setFlags_flag {val : BitVec 8} {left k j : Nat} (h1 : k ≤ j) (h2 : j < k + left)
    (mem : Memory) : setFlags s val left k mem (flagPtr s j) = val := by
  induction left generalizing k j mem with
  | zero => omega
  | succ left ih =>
      rw [setFlags]
      by_cases hlater : ∃ i, k + 1 ≤ i ∧ i < k + 1 + left ∧ flagPtr s j = flagPtr s i
      · obtain ⟨i, hi1, hi2, heq⟩ := hlater
        rw [heq]
        exact ih hi1 hi2 _
      · have hj : j = k := by
          by_contra hne
          exact hlater ⟨j, by omega, by omega, rfl⟩
        rw [setFlags_of_ne fun i hi1 hi2 heq => hlater ⟨i, hi1, hi2, heq⟩, hj, writeByte_same]

/-- The scan of `slab_alloc` is shorter than the number of entries that have addresses
of their own. -/
theorem totalNumSlabs_lt (s : SlabAllocator) : totalNumSlabs s < 2 ^ 29 := by
  unfold totalNumSlabs wrap sizeofSlab
  omega

/-- Wherever the table lies, its flags have addresses of their own. -/
theorem flagPtr_inj {i j : Nat} (hi : i < 2 ^ 29) (hj : j < 2 ^ 29)
    (h : flagPtr s i = flagPtr s j) : i = j := by
  unfold flagPtr wrap sizeofSlab at h
  omega

/-- The address stored in an entry shares no byte with a flag. -/
theorem entryByte_ne_flagPtr {i j c : Nat} (h1 : entryPtr s j ≤ c) (h2 : c < entryPtr s j + 4) :
    c ≠ flagPtr s i := by
  unfold entryPtr flagPtr wrap sizeofSlab at *
  omega

theorem slabIsFree_setFlags_of_lt {val : BitVec 8} {left k j : Nat} (hk : k + left ≤ 2 ^ 29)
    (hj : j < 2 ^ 29) (mem : Memory) :
    slabIsFree s (setFlags s val left k mem) j =
      if (Range.mk k left).Covers j then val != 0#8 else slabIsFree s mem j := by
  unfold slabIsFree
  split
  · next hcov => rw [setFlags_flag hcov.1 hcov.2]
  · next hcov =>
      rw [setFlags_of_ne]
      rintro i hi1 hi2 heq
      obtain rfl := flagPtr_inj hj (by omega) heq
      exact hcov ⟨hi1, hi2⟩

/-- Storing flags leaves the addresses in the entries alone. -/
theorem slabAddr_setFlags (val : BitVec 8) (left k j : Nat) (mem : Memory) :
    slabAddr s (setFlags s val left k mem) j = slabAddr s mem j :=
  readPtr_congr fun _ h1 h2 => setFlags_of_ne (fun _ _ _ => entryByte_ne_flagPtr h1 h2) mem

/-- The flags of the table after a run of them has been stored. -/
theorem slabIsFree_setFlags (hspace : s.data + sizeofSlab * count < 2 ^ 32) {val : BitVec 8}
    {left k j : Nat} (hk : k + left ≤ count) (hj : j < count) (mem : Memory) :
    slabIsFree s (setFlags s val left k mem) j =
      if (Range.mk k left).Covers j then val != 0#8 else slabIsFree s mem j := by
  unfold sizeofSlab at hspace
  exact slabIsFree_setFlags_of_lt (by omega) (by omega) mem

/-- What is free after a run was marked allocated. -/
theorem slabIsFree_clear (hspace : s.data + sizeofSlab * count < 2 ^ 32) {k n i : Nat}
    (hk : k + n ≤ count) (hi : i < count) (mem : Memory) :
    slabIsFree s (setFlags s 0#8 n k mem) i = true ↔
      slabIsFree s mem i = true ∧ ¬ (Range.mk k n).Covers i := by
  rw [slabIsFree_setFlags hspace hk hi]
  split
  · next hcov => simp [hcov]
  · next hcov => simp [hcov]

/-- What is free after a run was marked free. -/
theorem slabIsFree_set (hspace : s.data + sizeofSlab * count < 2 ^ 32) {k n i : Nat}
    (hk : k + n ≤ count) (hi : i < count) (mem : Memory) :
    slabIsFree s (setFlags s 1#8 n k mem) i = true ↔
      slabIsFree s mem i = true ∨ (Range.mk k n).Covers i := by
  rw [slabIsFree_setFlags hspace hk hi]
  split
  · next hcov => simp [hcov]
  · next hcov => simp [hcov]

/-- Storing flags of the table leaves every byte outside the table alone. -/
theorem setFlags_of_outside (hspace : s.data + sizeofSlab * count < 2 ^ 32) {val : BitVec 8}
    {left k a : Nat} (hk : k + left ≤ count)
    (ha : a < s.data ∨ s.data + sizeofSlab * count ≤ a) (mem : Memory) :
    setFlags s val left k mem a = mem a := by
  refine setFlags_of_ne (fun j h1 h2 => ?_) mem
  rw [flagPtr_eq hspace (by omega)]
  unfold sizeofSlab at *
  omega

/-- A table depends only on the bytes it occupies. -/
theorem HasTable.congr (h : HasTable s mem count slot) {mem' : Memory}
    (hmem : AgreeOn (fun a => s.data ≤ a ∧ a < s.data + sizeofSlab * count) mem mem') :
    HasTable s mem' count slot := by
  refine ⟨h.inSpace, h.scanned, fun k hk => ?_⟩
  rw [← h.addr k hk]
  refine hmem.readPtr fun c h1 h2 => ?_
  rw [entryPtr_eq h.inSpace hk] at h1 h2
  unfold sizeofSlab at *
  omega

theorem slabIsFree_congr (hspace : s.data + sizeofSlab * count < 2 ^ 32) {mem' : Memory}
    (hmem : AgreeOn (fun a => s.data ≤ a ∧ a < s.data + sizeofSlab * count) mem mem') {k : Nat}
    (hk : k < count) : slabIsFree s mem' k = slabIsFree s mem k := by
  unfold slabIsFree
  rw [hmem]
  rw [flagPtr_eq hspace hk]
  unfold sizeofSlab at *
  omega

theorem HasTable.setFlags (h : HasTable s mem count slot) (val : BitVec 8) (left k : Nat) :
    HasTable s (setFlags s val left k mem) count slot :=
  ⟨h.inSpace, h.scanned, fun _ hj => (slabAddr_setFlags val left k _ mem).trans (h.addr _ hj)⟩

/-- The free-memory counter is no part of the table. -/
theorem HasTable.withFreeMem (h : HasTable s mem count slot) (f : Nat) :
    HasTable { s with freeMemSize := f } mem count slot :=
  ⟨h.inSpace, h.scanned, h.addr⟩

/-- The entries of the table that are not free. -/
def TableUsed (s : SlabAllocator) (mem : Memory) (count k : Nat) : Prop :=
  k < count ∧ ¬ slabIsFree s mem k = true

/-- Clearing the flags of a run marks its entries used and keeps the others. -/
theorem tableUsed_clear (hspace : s.data + sizeofSlab * count < 2 ^ 32) (mem : Memory)
    {k n : Nat} (hk : k + n ≤ count) (i : Nat) :
    TableUsed s (SlabModel.setFlags s 0#8 n k mem) count i ↔
      (Range.mk k n).Covers i ∨ TableUsed s mem count i := by
  unfold TableUsed
  by_cases hi : i < count
  · rw [slabIsFree_clear hspace hk hi, not_and_or, not_not]
    simp only [hi, true_and]
    exact or_comm
  · simp only [hi, false_and, or_false, false_iff]
    rintro ⟨_, h⟩
    simp only at h
    omega

/-- Setting the flags of a run gives its entries up and keeps the others. -/
theorem tableUsed_set (hspace : s.data + sizeofSlab * count < 2 ^ 32) (mem : Memory)
    {k n : Nat} (hk : k + n ≤ count) (i : Nat) :
    TableUsed s (SlabModel.setFlags s 1#8 n k mem) count i ↔
      ¬ (Range.mk k n).Covers i ∧ TableUsed s mem count i := by
  unfold TableUsed
  by_cases hi : i < count
  · rw [slabIsFree_set hspace hk hi, not_or]
    simp only [hi, true_and]
    exact and_comm
  · simp [hi]

/-- `slab_alloc` takes the first run that starts below the scan limit, or nothing. -/
theorem slabAlloc_cases (s : SlabAllocator) (mem : Memory) {n : Nat} (hn : 0 < n) :
    (∃ k, k < totalNumSlabs s ∧
        IsFirstFit (fun k => slabIsFree s mem k = true) 0 (k + n) n k ∧
        slabAlloc s n mem =
          (slabAddr s mem k,
            { s with freeMemSize := wrapSub s.freeMemSize (n * s.slabSize) },
            SlabModel.setFlags s 0#8 n k mem)) ∨
      (∀ c, c < totalNumSlabs s → ¬ AllOn (fun k => slabIsFree s mem k = true) ⟨c, n⟩) ∧
        slabAlloc s n mem = (0, s, mem) := by
  have hspec := allocSearch_spec (slabIsFree s mem) (totalNumSlabs s) 0 hn (by omega)
  cases hsearch : allocSearch (slabIsFree s mem) n (totalNumSlabs s) 0 with
  | none =>
      rw [hsearch] at hspec
      exact Or.inr ⟨hspec, by rw [slabAlloc, hsearch]⟩
  | some k =>
      rw [hsearch] at hspec
      exact Or.inl ⟨k, hspec.1, hspec.2, by rw [slabAlloc, hsearch]⟩

/-- With a fit inside the table `slab_alloc` takes the first one. -/
theorem slabAlloc_of_fit (h : HasTable s mem count slot) {n : Nat} (hn : 0 < n)
    (hfit : HasFit (fun k => slabIsFree s mem k = true) 0 count n) :
    ∃ k, IsFirstFit (fun k => slabIsFree s mem k = true) 0 count n k ∧
      slabAlloc s n mem =
        (slot k,
          { s with freeMemSize := wrapSub s.freeMemSize (n * s.slabSize) },
          SlabModel.setFlags s 0#8 n k mem) := by
  rcases slabAlloc_cases s mem hn with ⟨k, _, hfirst, heq⟩ | ⟨hnone, _⟩
  · have hfirst' := hfirst.of_hasFit hfit
    have hend := hfirst'.1.2.1
    exact ⟨k, hfirst', by rw [heq, h.addr k (by omega)]⟩
  · obtain ⟨c, _, hc, hall⟩ := hfit
    have hscan := h.scanned
    exact absurd hall (hnone c (by omega))

theorem slabAlloc_fst_of_search {n k : Nat}
    (h : allocSearch (slabIsFree s mem) n (totalNumSlabs s) 0 = some k) :
    (slabAlloc s n mem).1 = slabAddr s mem k := by
  rw [slabAlloc, h]

theorem slabAlloc_of_no_run {n : Nat} (hn : 0 < n)
    (hnone : ∀ c, c < totalNumSlabs s → ¬ AllOn (fun k => slabIsFree s mem k = true) ⟨c, n⟩) :
    slabAlloc s n mem = (0, s, mem) := by
  rcases slabAlloc_cases s mem hn with ⟨k, hk, hfirst, _⟩ | ⟨_, heq⟩
  · exact absurd hfirst.1.2.2 (hnone k hk)
  · exact heq

theorem freeSearch_eq {addr k : Nat} (fuel i : Nat) (hk : slabAddr s mem k = addr) (hik : i ≤ k)
    (hfuel : k < i + fuel) (hfirst : ∀ j, i ≤ j → j < k → slabAddr s mem j ≠ addr) :
    freeSearch s addr mem fuel i = some k := by
  induction fuel generalizing i with
  | zero => omega
  | succ fuel ih =>
      rw [freeSearch]
      by_cases hi : i = k
      · rw [if_pos (hi ▸ hk), hi]
      · rw [if_neg (hfirst i le_rfl (by omega))]
        exact ih (i + 1) (by omega) (by omega) fun j h1 h2 => hfirst j (by omega) h2

/-- Freeing a run of allocated entries succeeds when the first entry for the address is
the first one of the run. -/
theorem slabFree_of_first {k n : Nat} (hk : k < 2 ^ 29) (htotal : totalNumSlabs s ≠ 0)
    (hfirst : ∀ j, j < k → slabAddr s mem j ≠ slabAddr s mem k)
    (hall : AllOn (fun i => ¬ slabIsFree s mem i = true) ⟨k, n⟩) :
    slabFree s (slabAddr s mem k) n mem =
      some (slabSucc,
        { s with freeMemSize := wrap (s.freeMemSize + n * s.slabSize) },
        SlabModel.setFlags s 1#8 n k mem) := by
  have hsearch : freeSearch s (slabAddr s mem k) mem (2 ^ 29) 0 = some k :=
    freeSearch_eq (2 ^ 29) 0 rfl (Nat.zero_le k) (by omega) fun j _ hj => hfirst j hj
  rw [slabFree, if_neg htotal, hsearch]
  simp only
  rw [if_pos ((allAllocated_eq_true_iff _ _ _).mpr hall)]

/-- Freeing a run of allocated entries of a table with distinct slabs succeeds. -/
theorem slabFree_of_allocated (h : HasTable s mem count slot)
    (hslot : ∀ i j, i < count → j < count → slot i = slot j → i = j) {k n : Nat}
    (hk : k < count) (hall : AllOn (fun i => ¬ slabIsFree s mem i = true) ⟨k, n⟩) :
    slabFree s (slot k) n mem =
      some (slabSucc,
        { s with freeMemSize := wrap (s.freeMemSize + n * s.slabSize) },
        SlabModel.setFlags s 1#8 n k mem) := by
  have hscan := h.scanned
  have hlt := totalNumSlabs_lt s
  rw [← h.addr k hk]
  refine slabFree_of_first (by omega) (by omega) (fun j hj heq => ?_) hall
  rw [h.addr j (by omega), h.addr k hk] at heq
  exact absurd (hslot j k (by omega) hk heq) (by omega)

/-- Clearing the flags of a free run lowers the number of free entries by its
length. -/
theorem freeEntries_clear (hspace : s.data + sizeofSlab * count < 2 ^ 32) {k n : Nat}
    (hk : k + n ≤ count) (hall : AllOn (fun i => slabIsFree s mem i = true) ⟨k, n⟩) :
    freeEntries s (setFlags s 0#8 n k mem) count + n = freeEntries s mem count := by
  classical
  have hcount := count_add_len (p := fun i => slabIsFree s mem i = true)
    (q := fun i => slabIsFree s mem i = true ∧ ¬ (Range.mk k n).Covers i) (r := ⟨k, n⟩) hk hall
    (fun i => Iff.rfl)
  rw [freeEntries, freeEntries, ← hcount]
  congr 1
  rw [Nat.count_eq_card_filter_range, Nat.count_eq_card_filter_range]
  congr 1
  ext i
  simp only [Finset.mem_filter, Finset.mem_range]
  exact and_congr_right fun hi => slabIsFree_clear hspace hk hi mem

/-- Setting the flags of an allocated run raises it by its length. -/
theorem freeEntries_set (hspace : s.data + sizeofSlab * count < 2 ^ 32) {k n : Nat}
    (hk : k + n ≤ count) (hall : AllOn (fun i => ¬ slabIsFree s mem i = true) ⟨k, n⟩) :
    freeEntries s (setFlags s 1#8 n k mem) count = freeEntries s mem count + n := by
  classical
  have hcount := count_add_len (p := fun i => slabIsFree s mem i = true ∨ (Range.mk k n).Covers i)
    (q := fun i => slabIsFree s mem i = true) (r := ⟨k, n⟩) hk (fun i hi => Or.inr hi) (fun i => by
      constructor
      · exact fun hi => ⟨Or.inl hi, fun hc => hall i hc hi⟩
      · rintro ⟨hi | hc, hnc⟩
        · exact hi
        · exact absurd hc hnc)
  rw [freeEntries, freeEntries, hcount, Nat.count_eq_card_filter_range,
    Nat.count_eq_card_filter_range]
  congr 1
  ext i
  simp only [Finset.mem_filter, Finset.mem_range]
  exact and_congr_right fun hi => slabIsFree_set hspace hk hi mem

/-- The table that `slab_init` leaves: `left` entries from `slab` on, for slabs
from `startingAddr` on. -/
def writeTable (slabSize : Nat) : Nat → Nat → Nat → Memory → Memory
  | 0, _, _, mem => mem
  | left + 1, slab, startingAddr, mem =>
      writeTable slabSize left (slab + sizeofSlab) (startingAddr + slabSize)
        (writeByte (writePtr mem slab startingAddr) (slab + 4) 1#8)

theorem writeTable_of_outside {slabSize left slab startingAddr a : Nat}
    (ha : a < slab ∨ slab + sizeofSlab * left ≤ a) (mem : Memory) :
    writeTable slabSize left slab startingAddr mem a = mem a := by
  induction left generalizing slab startingAddr mem with
  | zero => rfl
  | succ left ih =>
      unfold sizeofSlab at *
      rw [writeTable, ih (by unfold sizeofSlab; omega), writeByte_of_ne (by omega),
        writePtr_of_outside (by omega)]

theorem readPtr_writeTable (slabSize left slab startingAddr k : Nat)
    (hstart : startingAddr + slabSize * left < 2 ^ 32) (hk : k < left) (mem : Memory) :
    readPtr (writeTable slabSize left slab startingAddr mem) (slab + sizeofSlab * k) =
      startingAddr + slabSize * k := by
  induction left generalizing slab startingAddr k mem with
  | zero => omega
  | succ left ih =>
      rw [writeTable]
      cases k with
      | zero =>
          have hlt : startingAddr < 2 ^ 32 := by
            rw [Nat.mul_succ] at hstart
            omega
          rw [readPtr_congr fun c h1 h2 => writeTable_of_outside (by
            unfold sizeofSlab at *
            omega) _]
          rw [Nat.mul_zero, Nat.mul_zero, Nat.add_zero, Nat.add_zero, readPtr,
            readWord_writeByte_of_outside (by omega)]
          exact readPtr_writePtr_same mem slab hlt
      | succ k =>
          have hnext := ih (slab + sizeofSlab) (startingAddr + slabSize) k
            (by rw [Nat.mul_succ] at hstart; omega) (Nat.lt_of_succ_lt_succ hk)
            (writeByte (writePtr mem slab startingAddr) (slab + 4) 1#8)
          rw [show slab + sizeofSlab * (k + 1) = slab + sizeofSlab + sizeofSlab * k by
            rw [Nat.mul_succ]; omega, hnext, Nat.mul_succ]
          omega

theorem flag_writeTable {slabSize left slab startingAddr k : Nat} (hk : k < left)
    (mem : Memory) :
    writeTable slabSize left slab startingAddr mem (slab + sizeofSlab * k + 4) = 1#8 := by
  induction left generalizing slab startingAddr k mem with
  | zero => omega
  | succ left ih =>
      rw [writeTable]
      cases k with
      | zero =>
          rw [writeTable_of_outside (by unfold sizeofSlab; omega), Nat.mul_zero, Nat.add_zero,
            writeByte_same]
      | succ k =>
          rw [show slab + sizeofSlab * (k + 1) + 4 = slab + sizeofSlab + sizeofSlab * k + 4 by
            rw [Nat.mul_succ]; omega]
          exact ih (Nat.lt_of_succ_lt_succ hk) _

/-- When no address wraps around, the loop of `slab_init` ends and leaves the
table. -/
theorem initLoop_eq_writeTable (slabSize limit left fuel slab startingAddr : Nat)
    (mem : Memory) (hfuel : left < fuel) (hslab : slab + sizeofSlab * left < 2 ^ 32)
    (hstart : startingAddr + slabSize * left < 2 ^ 32)
    (hend : limit ≤ startingAddr + slabSize * left)
    (hbefore : ∀ i, i < left → startingAddr + slabSize * i < limit) :
    initLoop slabSize limit fuel slab startingAddr mem =
      some (writeTable slabSize left slab startingAddr mem) := by
  induction left generalizing fuel slab startingAddr mem with
  | zero =>
      obtain ⟨fuel, rfl⟩ := Nat.exists_eq_succ_of_ne_zero (show fuel ≠ 0 by omega)
      rw [initLoop, if_neg (by omega), writeTable]
  | succ left ih =>
      obtain ⟨fuel, rfl⟩ := Nat.exists_eq_succ_of_ne_zero (show fuel ≠ 0 by omega)
      rw [Nat.mul_succ] at hslab hstart hend
      have hlt := hbefore 0 (by omega)
      have hslab4 : slab + 4 < 2 ^ 32 := by
        unfold sizeofSlab at hslab
        omega
      rw [initLoop, if_pos (by simpa using hlt), wrap_of_lt (by omega), wrap_of_lt (by omega),
        wrap_of_lt hslab4, writeTable]
      refine ih fuel _ _ _ (by omega) (by omega) (by omega) (by omega) fun i hi => ?_
      have := hbefore (i + 1) (by omega)
      rw [Nat.mul_succ] at this
      omega

end Longhorn.SlabTable
