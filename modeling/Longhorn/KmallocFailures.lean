import Longhorn.KfreeRecords
import Longhorn.KmallocSizes

/-!
When `kmalloc` returns `NULL`, and what it leaves behind then.
-/

namespace Longhorn.KmallocFailures

open Longhorn.Foundations.ByteMemory
open Longhorn.Foundations.Ranges
open Longhorn.Foundations.TransitionRuns
open Longhorn.AtomicSpinLock
open Longhorn.PackedBitmap
open Longhorn.SlabModel
open Longhorn.SlabTable
open Longhorn.SlabSafety
open Longhorn.SlabCalls
open Longhorn.KallocModel
open Longhorn.PageMap
open Longhorn.PageSafety
open Longhorn.KmallocRecords
open Longhorn.HeapSafety
open Longhorn.KfreeRecords
open Longhorn.KmallocSizes

/-- What a scan reads behind the table is not free. -/
def NoneFreeBehind (s : SlabAllocator) (mem : Memory) (count : Nat) : Prop :=
  ∀ c, count ≤ c → c < max (count + 1) (totalNumSlabs s) → ¬ slabIsFree s mem c = true

/-- The state is as before: the locks, the page map, the counter and the table, and all of
the memory where the flags of free entries hold `true`. -/
structure Unchanged (count : Nat) (st st' : AllocState) : Prop where
  fields : st' = { st with mem := st'.mem }
  table : SameTable st.slab count st.mem st'.mem
  others : ∀ a, (∀ i, i < count → a ≠ flagPtr st.slab i) → st'.mem a = st.mem a
  bools : (∀ i, i < count → slabIsFree st.slab st.mem i = true → st.mem (flagPtr st.slab i) = 1#8) →
    st' = st

section Rollback

variable {s : SlabAllocator} {mem : Memory} {count k n c list size : Nat} {st st' : AllocState}

/-- A run that the scan finds lies in the table. -/
theorem NoneFreeBehind.run_le (h : NoneFreeBehind s mem count) (hk : k < totalNumSlabs s)
    (hn : 0 < n) (hall : AllOn (fun i => slabIsFree s mem i = true) ⟨k, n⟩) : k + n ≤ count := by
  by_contra hlt
  rcases Nat.lt_or_ge k count with hin | hbehind
  · exact h count le_rfl (by omega) (hall count ⟨hin.le, by simp only; omega⟩)
  · exact h k hbehind (by omega) (hall k ⟨le_rfl, by simp only; omega⟩)

theorem slabIsFree_of_cleared (h : slabIsFree s (setFlags s 0#8 n k mem) c = true) :
    slabIsFree s mem c = true := by
  by_cases hc : ∃ i, k ≤ i ∧ i < k + n ∧ flagPtr s c = flagPtr s i
  · obtain ⟨i, hlo, hhi, heq⟩ := hc
    rw [slabIsFree, heq, setFlags_flag hlo hhi] at h
    exact absurd h (by decide)
  · rw [slabIsFree, setFlags_of_ne fun i hlo hhi heq => hc ⟨i, hlo, hhi, heq⟩] at h
    exact h

theorem Unchanged.refl (st : AllocState) : Unchanged count st st :=
  ⟨rfl, fun _ _ => ⟨rfl, rfl⟩, fun _ _ => rfl, fun _ => rfl⟩

/-- Page number 1047552 is at `NULL`. -/
theorem bits_le_of_pages (h : ∀ i, i < st.freeMap.bits → wrap (startAddr + i * pgSize) ≠ 0) :
    st.freeMap.bits ≤ 1047552 := by
  by_contra hlt
  exact h 1047552 (by omega) rfl

/-- A `NULL` from `kmalloc` has changed nothing. -/
theorem kmalloc_null_unchanged (hmalloc : st.mallocLock.val = 0) (hpalloc : st.pallocLock.val = 0)
    (hslot : DistinctSlabs st.slab st.mem count) (hbehind : NoneFreeBehind st.slab st.mem count)
    (hfree : st.slab.freeMemSize < 2 ^ 32)
    (haddr : ∀ i, i < count → slabAddr st.slab st.mem i ≠ 0)
    (hpage : ∀ i, i < st.freeMap.bits → wrap (startAddr + i * pgSize) ≠ 0)
    (h : kmalloc list size st = some (0, st')) : Unchanged count st st' := by
  by_cases hfall : fallsBack st size
  · have hbits := bits_le_of_pages hpage
    rw [kmalloc_of_fallsBack hmalloc hfall, palloc] at h
    rcases pallocMult_of_lock (by omega) hpalloc Nat.one_pos with ⟨k, hfirst, heq⟩ | ⟨_, heq⟩
    · rw [heq, Option.some_inj, Prod.mk.injEq] at h
      exact absurd h.1 (hpage k (by have := hfirst.1.2.1; omega))
    · rw [heq, Option.some_inj, Prod.mk.injEq] at h
      rw [← h.2]
      exact Unchanged.refl st
  have hn := numSlabsFor_pos size st.slab.slabSize
  rcases slabAlloc_cases st.slab st.mem hn with ⟨k, hk, hfirst, hregion⟩ | ⟨_, hregion⟩
  · have hall := hfirst.1.2.2
    have hend := hbehind.run_le hk hn hall
    have hq := haddr k (by omega)
    -- the slabs taken for the region are not free, the others are as before
    obtain ⟨s₁, hs₁⟩ : ∃ s₁, s₁ = { st.slab with
        freeMemSize := wrapSub st.slab.freeMemSize
          (numSlabsFor size st.slab.slabSize * st.slab.slabSize) } := ⟨_, rfl⟩
    obtain ⟨mem₁, hmem₁⟩ : ∃ mem₁, mem₁ = setFlags st.slab 0#8 (numSlabsFor size st.slab.slabSize) k
        st.mem := ⟨_, rfl⟩
    rw [← hs₁, ← hmem₁] at hregion
    have hless : ∀ c, slabIsFree s₁ mem₁ c = true → slabIsFree st.slab st.mem c = true := by
      intro c hc
      rw [hs₁, slabIsFree_withFreeMem, hmem₁] at hc
      exact slabIsFree_of_cleared hc
    have hbehind₁ : NoneFreeBehind s₁ mem₁ count := by
      intro c hle hlt hc
      rw [hs₁, totalNumSlabs_withFreeMem] at hlt
      exact hbehind c hle hlt (hless c hc)
    have hn' := numSlabsFor_pos sizeofAllocation st.slab.slabSize
    rcases slabAlloc_cases s₁ mem₁ hn' with ⟨k', hk', hfirst', hrecord⟩ | ⟨_, hrecord⟩
    · have hend' := hbehind₁.run_le hk' hn' hfirst'.1.2.2
      have ha : slabAddr s₁ mem₁ k' ≠ 0 := by
        rw [hs₁, slabAddr_withFreeMem, hmem₁, slabAddr_setFlags]
        exact haddr k' (by omega)
      rw [kmalloc_of_record hmalloc hfall hq ha hregion hrecord, Option.some_inj,
        Prod.mk.injEq] at h
      exact absurd h.1 hq
    · have hfit : HasFit (fun i => slabIsFree st.slab st.mem i = true) 0 count
          (numSlabsFor size st.slab.slabSize) := ⟨k, Nat.zero_le k, hend, hall⟩
      obtain ⟨k₂, hend₂, hall₂, hback⟩ :=
        slabFree_slabAlloc hslot hfree hn hfit hregion (Or.inr hq)
      rw [kmalloc_of_no_record hmalloc hfall hq hregion hrecord, hback, Option.map_some,
        Option.some_inj, Prod.mk.injEq] at h
      obtain ⟨hsame, hothers, hbools⟩ := setFlags_restores hslot.count_le hend₂ hall₂
      rw [← h.2]
      refine ⟨rfl, hsame, hothers, fun hflags => ?_⟩
      change { st with mem := _ } = st
      rw [hbools hflags]
  · rw [kmalloc_of_no_region hmalloc hfall hregion, Option.some_inj, Prod.mk.injEq] at h
    rw [← h.2]
    exact Unchanged.refl st

/-- A table of one entry. -/
def oneSlab : SlabAllocator := ⟨4198400, 64, 64, 64, 4198400⟩

/-- The slab at `addr` is free. -/
def oneSlabMemory (addr : Nat) : Memory :=
  writeByte (writePtr (fun _ => 0#8) 4198400 addr) 4198404 1#8

def oneSlabState (addr : Nat) : AllocState :=
  ⟨⟨startAddr, 0⟩, spinLockInit, spinLockInit, oneSlab, oneSlabMemory addr⟩

theorem oneSlab_free (addr : Nat) :
    AllOn (fun i => slabIsFree oneSlab (oneSlabMemory addr) i = true) ⟨0, 1⟩ := by
  rintro i ⟨_, hi⟩
  obtain rfl : i = 0 := Nat.lt_one_iff.mp hi
  rfl

theorem oneSlab_not_free (addr c : Nat) (hc : 1 ≤ c) (hlt : c < 8) :
    ¬ slabIsFree oneSlab (oneSlabMemory addr) c = true := by
  have hflag : flagPtr oneSlab c = 4198400 + 8 * c + 4 := wrap_of_lt (by
    change 4198400 + 8 * c + 4 < 2 ^ 32
    omega)
  rw [slabIsFree, hflag, oneSlabMemory, writeByte_of_ne (by omega), writePtr_of_outside (by omega)]
  decide

theorem oneSlab_noneFreeBehind (addr : Nat) : NoneFreeBehind oneSlab (oneSlabMemory addr) 1 := by
  intro c hle hlt
  have htotal : totalNumSlabs oneSlab = 8 := by decide
  rw [htotal] at hlt
  exact oneSlab_not_free addr c hle (by omega)

theorem oneSlab_distinct (addr : Nat) : DistinctSlabs oneSlab (oneSlabMemory addr) 1 := by
  intro i j hi hj _
  omega

theorem oneSlab_region (addr : Nat) :
    slabAlloc oneSlab (numSlabsFor 1 poolSlabSize) (oneSlabMemory addr) =
      (slabAddr oneSlab (oneSlabMemory addr) 0, { oneSlab with freeMemSize := 0 },
        setFlags oneSlab 0#8 1 0 (oneSlabMemory addr)) := by
  have hfirst : IsFirstFit (fun i => slabIsFree oneSlab (oneSlabMemory addr) i = true) 0 1 1 0 :=
    ⟨⟨le_rfl, le_rfl, oneSlab_free addr⟩, fun c _ hc => absurd hc (Nat.not_lt_zero c)⟩
  have hone : numSlabsFor 1 poolSlabSize = 1 := by decide
  rw [hone]
  exact slabAlloc_of_firstFit (by decide) Nat.one_pos hfirst

theorem oneSlab_record (addr : Nat) :
    slabAlloc { oneSlab with freeMemSize := 0 } (numSlabsFor sizeofAllocation poolSlabSize)
        (setFlags oneSlab 0#8 1 0 (oneSlabMemory addr)) =
      (0, { oneSlab with freeMemSize := 0 }, setFlags oneSlab 0#8 1 0 (oneSlabMemory addr)) := by
  have hone : numSlabsFor sizeofAllocation poolSlabSize = 1 := by decide
  rw [hone]
  refine slabAlloc_of_no_run Nat.one_pos fun c hc hall => ?_
  have htotal : totalNumSlabs { oneSlab with freeMemSize := 0 } = 8 := by decide
  rw [htotal] at hc
  have hfree : slabIsFree oneSlab (setFlags oneSlab 0#8 1 0 (oneSlabMemory addr)) c = true :=
    hall c ⟨le_rfl, Nat.lt_succ_self c⟩
  rcases Nat.eq_zero_or_pos c with rfl | hpos
  · rw [slabIsFree, setFlags_flag le_rfl Nat.one_pos] at hfree
    exact absurd hfree (by decide)
  · exact oneSlab_not_free addr c hpos hc (slabIsFree_of_cleared hfree)

/-- The only slab is given back when there is none for the record. -/
theorem kmalloc_null_unchanged_one : ∃ st',
    kmalloc 1048576 1 (oneSlabState 4198464) = some (0, st') ∧
      Unchanged 1 (oneSlabState 4198464) st' := by
  have haddr : slabAddr oneSlab (oneSlabMemory 4198464) 0 ≠ 0 := by decide
  have hfall : ¬ fallsBack (oneSlabState 4198464) 1 := by decide
  have hone : numSlabsFor 1 poolSlabSize = 1 := by decide
  obtain ⟨k, _, _, hback⟩ := slabFree_slabAlloc (oneSlab_distinct 4198464) (by decide)
    (numSlabsFor_pos 1 poolSlabSize) (hone ▸ ⟨0, le_rfl, le_rfl, oneSlab_free 4198464⟩)
    (oneSlab_region 4198464) (Or.inl (by decide))
  have hnull : kmalloc 1048576 1 (oneSlabState 4198464) = _ :=
    kmalloc_of_no_record rfl hfall haddr (oneSlab_region 4198464) (oneSlab_record 4198464)
  have hback' : slabFree { oneSlab with freeMemSize := 0 }
      (slabAddr oneSlab (oneSlabMemory 4198464) 0)
      (numSlabsFor 1 (oneSlabState 4198464).slab.slabSize)
      (setFlags oneSlab 0#8 1 0 (oneSlabMemory 4198464)) = _ := hback
  rw [hback'] at hnull
  refine ⟨_, hnull, kmalloc_null_unchanged rfl rfl (oneSlab_distinct 4198464)
    (oneSlab_noneFreeBehind 4198464) (by decide) ?_ ?_ hnull⟩
  · intro i hi
    obtain rfl : i = 0 := Nat.lt_one_iff.mp hi
    exact haddr
  · exact fun i hi => absurd hi (Nat.not_lt_zero i)

/-- An entry that holds `NULL` is taken for a failure. -/
theorem not_kmalloc_null_unchanged : ¬ ∀ (list size count : Nat) (st st' : AllocState),
    st.mallocLock.val = 0 → st.pallocLock.val = 0 → DistinctSlabs st.slab st.mem count →
    NoneFreeBehind st.slab st.mem count → st.slab.freeMemSize < 2 ^ 32 →
    st.freeMap.bits < 2 ^ 32 → kmalloc list size st = some (0, st') → Unchanged count st st' := by
  intro h
  have hnull : slabAddr oneSlab (oneSlabMemory 0) 0 = 0 := by decide
  have hregion := oneSlab_region 0
  rw [hnull] at hregion
  have hsame := h 1048576 1 1 (oneSlabState 0) _ rfl rfl (oneSlab_distinct 0)
    (oneSlab_noneFreeBehind 0) (by decide) (by decide)
    (kmalloc_of_no_region rfl (by decide) hregion)
  exact absurd (congrArg (fun st => st.slab.freeMemSize) hsame.fields) (by decide)

end Rollback

/-- The table has the slabs for a request and others for its record. -/
def RoomFor (st : AllocState) (size : Nat) : Prop :=
  ∃ k l,
    k + numSlabsFor size st.slab.slabSize ≤ poolEntries ∧
    l + numSlabsFor sizeofAllocation st.slab.slabSize ≤ poolEntries ∧
    AllOn (fun i => slabIsFree st.slab st.mem i = true) ⟨k, numSlabsFor size st.slab.slabSize⟩ ∧
    AllOn (fun i => slabIsFree st.slab st.mem i = true)
      ⟨l, numSlabsFor sizeofAllocation st.slab.slabSize⟩ ∧
    (Range.mk k (numSlabsFor size st.slab.slabSize)).Disjoint
      ⟨l, numSlabsFor sizeofAllocation st.slab.slabSize⟩

def NoFreePage (st : AllocState) : Prop := ∀ i, i < st.freeMap.bits → ¬ PageFree st i

/-- A `NULL` from `kmalloc` means that neither the table nor the map has room. -/
def NullOnlyWhenFull (list size : Nat) (st : AllocState) : Prop :=
  ∀ st', kmalloc list size st = some (0, st') → ¬ RoomFor st size ∧ NoFreePage st

section Full

variable {np pool list size n : Nat} {records : List Nat} {t : HeapState}

theorem le_freeEntries {s : SlabAllocator} {mem : Memory} {count : Nat}
    (hspace : s.data + sizeofSlab * count < 2 ^ 32)
    (hfit : HasFit (fun i => slabIsFree s mem i = true) 0 count n) :
    n ≤ freeEntries s mem count := by
  obtain ⟨k, _, hend, hall⟩ := hfit
  have hcount := freeEntries_clear hspace hend hall
  omega

/-- There is room when a run is free and some entry besides. -/
theorem roomFor_iff (h : PoolRecords pool list records t) :
    RoomFor t.st size ↔
      HasFit (fun i => slabIsFree t.st.slab t.st.mem i = true) 0 poolEntries
          (numSlabsFor size t.st.slab.slabSize) ∧
        numSlabsFor size poolSlabSize < freeEntries t.st.slab t.st.mem poolEntries := by
  have hone : numSlabsFor sizeofAllocation poolSlabSize = 1 := by decide
  have hspace : t.st.slab.data + sizeofSlab * poolEntries < 2 ^ 32 := h.slab.table.inSpace
  rw [RoomFor, h.slabSize_eq, hone]
  constructor
  · rintro ⟨k, l, hk, hl, hall, hrest, hdisj⟩
    refine ⟨⟨k, Nat.zero_le k, hk, hall⟩, ?_⟩
    have hcount := freeEntries_clear hspace hk hall
    -- the other entry is still free when the run is taken
    have hleft : HasFit (fun i => slabIsFree t.st.slab
        (setFlags t.st.slab 0#8 (numSlabsFor size poolSlabSize) k t.st.mem) i = true)
        0 poolEntries 1 := by
      refine ⟨l, Nat.zero_le l, hl, fun i hi => ?_⟩
      have hlt : i < poolEntries := by
        have := hi.2
        simp only at this
        omega
      change slabIsFree _ (setFlags _ _ _ _ _) i = true
      rw [slabIsFree_setFlags hspace hk hlt, if_neg fun hcov => hdisj i hcov hi]
      exact hrest i hi
    have := le_freeEntries hspace hleft
    omega
  · rintro ⟨⟨k, _, hk, hall⟩, hlt⟩
    have hcount := freeEntries_clear hspace hk hall
    have hpos : 0 < freeEntries t.st.slab
        (setFlags t.st.slab 0#8 (numSlabsFor size poolSlabSize) k t.st.mem) poolEntries := by omega
    obtain ⟨l, hl, hleft⟩ := exists_fit_of_freeEntries_pos hpos
    have hother : ∀ i, (Range.mk l 1).Covers i →
        ¬ (Range.mk k (numSlabsFor size poolSlabSize)).Covers i ∧
          slabIsFree t.st.slab t.st.mem i = true := by
      intro i hi
      have hlt : i < poolEntries := by
        have := hi.2
        simp only at this
        omega
      have hfree := hleft i hi
      simp only [slabIsFree_setFlags hspace hk hlt] at hfree
      split at hfree
      · exact absurd hfree (by decide)
      · next hcov => exact ⟨hcov, hfree⟩
    exact ⟨k, l, hk, hl, hall, fun i hi => (hother i hi).2, fun i hk hi => (hother i hi).1 hk⟩

/-- Where it asks the slab allocator, `kmalloc` returns `NULL` exactly when the table has no
room. -/
theorem kmalloc_null_iff (h : PoolRecords pool list records t)
    (hfall : ¬ fallsBack t.st size) (hguard : ScansStayInTable t.st size) :
    (∃ st', kmalloc list size t.st = some (0, st')) ↔ ¬ RoomFor t.st size := by
  have hsize := h.slabSize_eq
  rw [roomFor_iff h]
  constructor
  · rintro ⟨st', hnull⟩ ⟨hfit, hlt⟩
    obtain ⟨q, s', mem', records', heq, -, -, hfirst⟩ := h.kmalloc_of_fit hfall hguard hfit
    obtain ⟨k, -, rfl⟩ := hfirst hlt
    rw [heq, Option.some_inj, Prod.mk.injEq] at hnull
    exact poolSlot_ne_zero pool k hnull.1
  · intro hroom
    obtain ⟨hscan, hmore⟩ := hguard.resolve_left hfall
    rcases hscan with hfit | hnone
    · have hle := Nat.not_lt.mp fun hlt => hroom ⟨hfit, hlt⟩
      have hmore := hmore hfit
      rw [hsize] at hfit hmore
      obtain ⟨k, s', mem', heq, hinv, -, hout, hcount⟩ := h.slab.alloc (numSlabsFor_pos _ _) hfit
      rcases scan_record h.slab h.poolEnd hinv hout hcount hmore with hfit' | hnone
      · have hpos := le_freeEntries hinv.table.inSpace hfit'
        change freeEntries s' mem' poolEntries + _ =
          freeEntries t.st.slab t.st.mem poolEntries at hcount
        change 1 ≤ freeEntries s' mem' poolEntries at hpos
        omega
      · obtain ⟨s'', mem'', hnull, -⟩ := h.kmalloc_gives_back hfall heq hinv hout hnone
        exact ⟨_, hnull⟩
    · exact ⟨_, kmalloc_of_no_region h.lock hfall (slabAlloc_of_no_run (numSlabsFor_pos _ _) hnone)⟩

/-- Up to a page, the slabs of a request are at least its rounded size. -/
theorem roundUp_le_slabs (hsize : size ≤ pgSize) :
    roundUp size poolSlabSize ≤ poolSlabSize * numSlabsFor size poolSlabSize := by
  unfold pgSize at hsize
  rw [roundUp_eq (by decide) (by unfold poolSlabSize; omega),
    numSlabsFor_eq (by decide) (by decide) (by omega)]
  unfold poolSlabSize
  split_ifs with hzero
  · omega
  · have hup : (size / 64 + 64 - 1) / 64 = 1 := by omega
    rw [hup]
    omega

/-- More is asked for than is free: the table has no room. -/
theorem not_roomFor_of_fallsBack (h : PoolRecords pool list records t) (hsize : size ≤ pgSize)
    (hfall : fallsBack t.st size) : ¬ RoomFor t.st size := by
  have hfree : t.st.slab.freeMemSize = poolSlabSize * freeEntries t.st.slab t.st.mem poolEntries :=
    h.slab.freeMem
  rw [fallsBack, h.slabSize_eq, hfree] at hfall
  rw [roomFor_iff h]
  rintro ⟨-, hlt⟩
  have hle := roundUp_le_slabs hsize
  have hmul := Nat.mul_le_mul_left poolSlabSize hlt.le
  omega

theorem noFreePage_of_palloc (h : KfreeInv np pool list records t) {st' : AllocState}
    (hnull : palloc t.st = some (0, st')) : NoFreePage t.st := by
  rcases pallocMult_spec h.fits h.map h.lock Nat.one_pos with
    ⟨k, _, heq⟩ | ⟨hnone, _⟩
  · rw [palloc, heq, Option.some_inj, Prod.mk.injEq] at hnull
    exact absurd hnull.1 (pageAddr_ne_zero k)
  · intro i hi hfree
    rw [h.map] at hi
    refine hnone ⟨i, Nat.zero_le i, hi, fun j hj => ?_⟩
    obtain rfl : j = i := by
      obtain ⟨hlo, hhi⟩ := hj
      simp only at hlo hhi
      omega
    exact hfree

/-- Room for both keeps the scans in the table. -/
theorem scansStayInTable_of_roomFor (h : PoolRecords pool list records t)
    (hroom : RoomFor t.st size) : ScansStayInTable t.st size := by
  obtain ⟨hfit, hlt⟩ := (roomFor_iff h).mp hroom
  rw [← h.slabSize_eq] at hlt
  exact Or.inr ⟨Or.inl hfit, fun _ => Or.inl hlt⟩

theorem nullOnlyWhenFull_of_cases (h : KfreeInv np pool list records t) (hsize : size ≤ pgSize)
    (hcases : fallsBack t.st size ∨ RoomFor t.st size ∨ NoFreePage t.st) :
    NullOnlyWhenFull list size t.st := by
  intro st' hnull
  by_cases hfall : fallsBack t.st size
  · rw [kmalloc_of_fallsBack h.heap.lock hfall] at hnull
    exact ⟨not_roomFor_of_fallsBack h.heap hsize hfall, noFreePage_of_palloc h hnull⟩
  have hroom : ¬ RoomFor t.st size := fun hroom =>
    (kmalloc_null_iff h.heap hfall (scansStayInTable_of_roomFor h.heap hroom)).mp ⟨st', hnull⟩ hroom
  exact ⟨hroom, (hcases.resolve_left hfall).resolve_left hroom⟩

/-- `kmalloc` does not ask for a page when the slab allocator turns a request down. -/
theorem cases_of_nullOnlyWhenFull (h : KfreeInv np pool list records t)
    (hguard : ScansStayInTable t.st size) (hfull : NullOnlyWhenFull list size t.st) :
    fallsBack t.st size ∨ RoomFor t.st size ∨ NoFreePage t.st := by
  by_cases hfall : fallsBack t.st size
  · exact Or.inl hfall
  by_cases hroom : RoomFor t.st size
  · exact Or.inr (Or.inl hroom)
  · obtain ⟨st', heq⟩ := (kmalloc_null_iff h.heap hfall hguard).mpr hroom
    exact Or.inr (Or.inr (hfull st' heq).2)

/-- For requests up to a page, in every state that the calls lead to: where the condition
fails, a scan of the request may still find something behind the table. -/
theorem null_only_when_full_iff {memUpper : Nat} {mem : Memory} {u : HeapState} {ops : List HeapOp}
    (hboot : Boots memUpper mem) (hlist : InImage list) (hinit : HeapInit list memUpper mem t)
    (hrun : Run (Guarded (HeapStep list) (PoolGuard t.st.slab.mem list)) t ops u)
    (hsize : size ≤ pgSize) :
    (fallsBack u.st size ∨ RoomFor u.st size ∨ NoFreePage u.st → NullOnlyWhenFull list size u.st) ∧
      (ScansStayInTable u.st size →
        (NullOnlyWhenFull list size u.st ↔
          fallsBack u.st size ∨ RoomFor u.st size ∨ NoFreePage u.st)) := by
  obtain ⟨records, hinv⟩ := kfreeInv_of_guarded hboot hlist hinit hrun
  have hfull := nullOnlyWhenFull_of_cases hinv hsize
  exact ⟨hfull, fun hguard => ⟨cases_of_nullOnlyWhenFull hinv hguard, hfull⟩⟩

end Full

section Boot

variable {list memUpper : Nat} {mem : Memory} {t : HeapState}

/-- `init_alloc` leaves the bytes of the pool behind the table as they are. -/
theorem poolByte_of_init (hboot : Boots memUpper mem) (hlist : InImage list)
    (h : HeapInit list memUpper mem t) {a : Nat}
    (hlo : t.st.slab.mem + sizeofSlab * poolEntries ≤ a)
    (hhi : a < t.st.slab.mem + poolSize) : t.st.mem a = mem a := by
  have hinv := h.inv hboot hlist
  have hmap : ¬ MapByte (numPages memUpper) a := hinv.heapByte_offMap (Or.inl ⟨by omega, hhi⟩)
  have himage := hinv.poolRecords.pool_offImage (by omega) hhi
  obtain ⟨pool, st, _, _, _, _, hmem, heq⟩ := initAlloc_spec hboot hlist
  have hst := h.1
  rw [heq, Option.some_inj] at hst
  have hpool : t.st.slab.mem = pool := by
    rw [← hst]
    rfl
  have htable : t.st.mem = poolTable pool st.mem := by
    rw [← hst]
  rw [hpool] at hlo
  rw [htable]
  have hlt := hboot.fits.lt
  rw [poolTable_of_outside (Or.inr hlo), hmem a hmap]
  change listInit list _ a = mem a
  rw [listInit_of_outside hlist himage]
  refine bitmapSetRange_of_outside (by unfold pgSize; omega) ?_ true mem
  have hpages := mapPages_le hboot.fits
  unfold MapByte at hmap
  simp only [mapPages] at hpages ⊢
  omega

/-- A page that neither the map nor the pool has taken. -/
theorem exists_pageFree_of_init (hboot : Boots memUpper mem) (hlist : InImage list)
    (h : HeapInit list memUpper mem t)
    (hroom : (mapPages (numPages memUpper)).len + 10 < numPages memUpper) :
    ∃ i, i < numPages memUpper ∧ PageFree t.st i := by
  have hready := mapReady_inv hboot hlist
  have hbehind : ∀ i, i < numPages memUpper → (mapPages (numPages memUpper)).len ≤ i →
      PageFree (mapReady list memUpper mem) i := by
    intro i hi hle
    refine pageFree_mapReady hboot hlist hi fun hcov => ?_
    have hin := hcov.2
    simp only [mapPages] at hin hle
    omega
  rcases hready.alloc (show 0 < 10 by decide) with ⟨k, _, hend, heq, hinv⟩ | ⟨hnone, _⟩
  · have hpool : pageAddr k + poolSize < 2 ^ 32 := by
      have hspace := hboot.fits.inSpace
      unfold pageAddr poolSize
      unfold startAddr pgSize at *
      omega
    have hst := h.1
    rw [initAlloc_eq_bind, heq, Option.bind_some, slabInit_pool hpool, Option.bind_some,
      Option.some_inj] at hst
    have htable : t.st.mem =
        poolTable (pageAddr k) (setPages (mapReady list memUpper mem) k 10 true).mem := by
      rw [← hst]
    have hpages : poolPages (pageAddr k) = [⟨pageAddr k, 10⟩] := if_neg (pageAddr_ne_zero k)
    have hagree : AgreeOn (MapByte (numPages memUpper))
        (setPages (mapReady list memUpper mem) k 10 true).mem t.st.mem := by
      rw [htable]
      exact poolTable_agreeOn_map (hpages ▸ hinv)
    have hfree : ∀ i, i < numPages memUpper → (mapPages (numPages memUpper)).len ≤ i →
        (i < k ∨ k + 10 ≤ i) → PageFree t.st i := by
      intro i hi hle hout
      have hlt := hboot.fits.lt
      have hset : bitmapTest ⟨startAddr, numPages memUpper⟩ i
          (setPages (mapReady list memUpper mem) k 10 true).mem = _ :=
        bitmapTest_setPages (by omega) true i
      rw [if_neg fun hcov => ?_] at hset
      · rw [PageFree, (h.inv hboot hlist).page.map, bitmapTest_congr hagree hi, hset]
        exact hbehind i hi hle
      · obtain ⟨hlo, hhi⟩ := hcov
        simp only at hlo hhi
        omega
    by_cases hfirst : (mapPages (numPages memUpper)).len < k ∨
        k + 10 ≤ (mapPages (numPages memUpper)).len
    · exact ⟨_, by omega, hfree _ (by omega) le_rfl hfirst⟩
    · exact ⟨k + 10, by omega, hfree _ (by omega) (by omega) (Or.inr le_rfl)⟩
  · refine absurd ⟨(mapPages (numPages memUpper)).len, Nat.zero_le _, hroom.le,
      fun i hi => ?_⟩ hnone
    exact hbehind i (Nat.lt_of_lt_of_le hi.2 hroom.le) hi.1

/-- Behind the table there are only zeros and one record of 16 bytes, so that no run is
longer than the number of free entries. -/
theorem no_run_of_zeroed {pool n a : Nat} {records : List Nat} (h : PoolRecords pool list records t)
    (ha : pool + poolDataOffset ≤ a ∧ a + poolSlabSize ≤ pool + poolSize)
    (hzero : ∀ c, pool + sizeofSlab * poolEntries ≤ c → c < pool + poolSize →
      (c < a ∨ a + 16 ≤ c) → t.st.mem c = 0#8)
    (hn : 3 ≤ n) (hcount : freeEntries t.st.slab t.st.mem poolEntries < n) {c : Nat}
    (hc : c < totalNumSlabs t.st.slab) :
    ¬ AllOn (fun i => slabIsFree t.st.slab t.st.mem i = true) ⟨c, n⟩ := by
  intro hall
  have hdata : t.st.slab.data = pool := h.slab.data_eq
  have htotal : totalNumSlabs t.st.slab = 5120 := h.slab.totalNumSlabs_eq
  have hend := h.poolEnd
  unfold poolDataOffset poolSlabSize poolSize sizeofSlab poolEntries at *
  have hbehind : ∀ i, 560 ≤ i → i < 5120 → (pool + 8 * i + 4 < a ∨ a + 16 ≤ pool + 8 * i + 4) →
      ¬ slabIsFree t.st.slab t.st.mem i = true := by
    intro i hlo hhi hoff
    have hflag : flagPtr t.st.slab i = pool + 8 * i + 4 := by
      rw [flagPtr, hdata, sizeofSlab, wrap_of_lt (by omega)]
    rw [slabIsFree, hflag, hzero _ (by omega) (by omega) hoff]
    decide
  rw [htotal] at hc
  by_cases hin : c + n ≤ 560
  · have hle := le_freeEntries h.slab.table.inSpace ⟨c, Nat.zero_le c, hin, hall⟩
    exact absurd hle (Nat.not_le.mpr hcount)
  have hfree : ∀ i, c ≤ i → i < c + n → slabIsFree t.st.slab t.st.mem i = true :=
    fun i hlo hhi => hall i ⟨hlo, hhi⟩
  rcases Nat.lt_or_ge c 560 with hlow | hhigh
  · exact hbehind 560 le_rfl (by omega) (by omega) (hfree 560 hlow.le (by omega))
  · -- the flags of `c` and `c + 2` are 16 bytes apart
    by_cases hoff : pool + 8 * c + 4 < a ∨ a + 16 ≤ pool + 8 * c + 4
    · exact hbehind c hhigh hc hoff (hfree c le_rfl (by omega))
    · exact hbehind (c + 2) (by omega) (by omega) (by omega) (hfree (c + 2) (by omega) (by omega))

/-- With 512 slabs taken from a new pool of 560, 64 more are refused though a page is free. -/
theorem not_nullOnlyWhenFull_of_init (hboot : Boots memUpper fun _ => 0#8) (hlist : InImage list)
    (h : HeapInit list memUpper (fun _ => 0#8) t)
    (hroom : (mapPages (numPages memUpper)).len + 10 < numPages memUpper) :
    ∃ u, Run (HeapStep list) t [.kmalloc 32768] u ∧ ¬ NullOnlyWhenFull list 100 u.st := by
  have hinv := h.inv hboot hlist
  have hslabs : numSlabsFor 32768 poolSlabSize = 512 := by decide
  have hslabs' : numSlabsFor 100 poolSlabSize = 64 := by decide
  have hfall := h.not_fallsBack hboot hlist (show roundUp 32768 poolSlabSize ≤ _ by decide)
  obtain ⟨k, s', mem', heq, hinv', -, hout, hcount⟩ :=
    hinv.slab.alloc (numSlabsFor_pos 32768 poolSlabSize) (h.hasFit hboot hlist (by decide))
  have hleft : freeEntries s' mem' poolEntries = 48 := by
    change freeEntries s' mem' poolEntries + _ =
      freeEntries t.st.slab t.st.mem poolEntries at hcount
    rw [h.freeEntries hboot hlist, hslabs] at hcount
    unfold poolEntries at *
    omega
  have hpos : 0 < freeEntries s' mem' poolEntries := by omega
  obtain ⟨c, hc, hall⟩ := exists_fit_of_freeEntries_pos hpos
  obtain ⟨s'', mem'', a, hkmalloc, hrecords, hfits, hagree, htaken⟩ :=
    hinv.poolRecords.kmalloc_takes hfall heq hinv' hout ⟨c, Nat.zero_le c, hc, hall⟩
  have hgiven := given_st t 32768 (poolSlot t.st.slab.mem k) { t.st with slab := s'', mem := mem'' }
  have hmem := hagree.mono (t := fun c => ¬ HeapByte t.st.slab.mem list c) fun c hc =>
    ⟨fun htable => hc (tableByte_heapByte htable), fun hw => hc (hfits.heap c hw)⟩
  have hinvu := hinv.withSlab hrecords hgiven (given_pages hfall _ _) hmem
  have hplace := hrecords.slab_place hrecords.slab
    (List.mem_append_right _ (List.mem_singleton.mpr rfl) : recordRegion a ∈ _)
  obtain ⟨u, hu⟩ : ∃ u, u = t.given 32768 (poolSlot t.st.slab.mem k)
      { t.st with slab := s'', mem := mem'' } := ⟨_, rfl⟩
  rw [← hu] at hgiven hinvu
  refine ⟨u, hu ▸ .single (.kmalloc hkmalloc), fun hnull => ?_⟩
  have hfree : freeEntries u.st.slab u.st.mem poolEntries = 47 := by
    rw [hgiven]
    exact Nat.succ.inj (htaken.trans hleft)
  have hzero : ∀ c, t.st.slab.mem + sizeofSlab * poolEntries ≤ c → c < t.st.slab.mem + poolSize →
      (c < a ∨ a + 16 ≤ c) → u.st.mem c = 0#8 := by
    intro c hlo hhi hoff
    have himage := hinv.poolRecords.pool_offImage (by omega) hhi
    have hwrite : ¬ RecordWrite list a (firstNode list []) c := by
      simp only [RecordWrite, firstNode, sizeofAllocation]
      omega
    have htable : ¬ TableByte t.st.slab.mem c := fun h => Nat.not_lt.mpr hlo h.2
    rw [hgiven]
    exact (hagree c ⟨htable, hwrite⟩).trans (poolByte_of_init hboot hlist h hlo hhi)
  have hrun : ∀ c, c < totalNumSlabs u.st.slab →
      ¬ AllOn (fun i => slabIsFree u.st.slab u.st.mem i = true) ⟨c, 64⟩ :=
    fun c => no_run_of_zeroed hinvu.poolRecords ⟨hplace.2.1, hplace.2.2.1⟩ hzero (by decide)
      (by rw [hfree]; decide)
  have hslab := hinvu.poolRecords.slabSize_eq
  have hguard : ScansStayInTable u.st 100 := by
    refine Or.inr ⟨Or.inr ?_, fun hfit => absurd (le_freeEntries hinvu.slab.table.inSpace hfit) ?_⟩
    · rw [hslab, hslabs']
      exact hrun
    · change ¬ numSlabsFor 100 u.st.slab.slabSize ≤ freeEntries u.st.slab u.st.mem poolEntries
      rw [hslab, hslabs', hfree]
      decide
  rcases cases_of_nullOnlyWhenFull (kfreeInv_of_heapInv hinvu) hguard hnull with
    hfall' | hroom' | hpages
  · have hsize : u.st.slab.freeMemSize =
        poolSlabSize * freeEntries u.st.slab u.st.mem poolEntries := hinvu.slab.freeMem
    rw [fallsBack, hslab, hsize, hfree] at hfall'
    exact absurd hfall' (by decide)
  · have hlt := ((roomFor_iff hinvu.poolRecords).mp hroom').2
    rw [hslabs', hfree] at hlt
    exact absurd hlt (by decide)
  · obtain ⟨i, hi, hpage⟩ := exists_pageFree_of_init hboot hlist h hroom
    refine hpages i (by rw [hinvu.page.map]; exact hi) ?_
    rw [PageFree, hinvu.page.map, hgiven]
    rw [PageFree, hinv.page.map] at hpage
    exact (bitmapTest_congr
      (hmem.mono fun c hc hheap => hinv.heapByte_offMap hheap hc) hi).trans hpage

/-- A request behind a block that has been taken and given back. -/
theorem null_only_when_full_iff_freed : ∃ t u q,
    HeapInit 1048576 4140 (fun _ => 0#8) t ∧
    Run (HeapStep 1048576) t [.kmalloc 1, .kfree ⟨q, 1⟩] u ∧
    (fallsBack u.st 100 ∨ RoomFor u.st 100 ∨ NoFreePage u.st →
      NullOnlyWhenFull 1048576 100 u.st) ∧
    (ScansStayInTable u.st 100 →
      (NullOnlyWhenFull 1048576 100 u.st ↔
        fallsBack u.st 100 ∨ RoomFor u.st 100 ∨ NoFreePage u.st)) := by
  have hboot := boots_zeroed (show startAddr ≤ 4140 * 1024 by decide) (by decide) (by decide)
  have hlist : InImage 1048576 := by decide
  obtain ⟨t, q, st', hinit, hguard, hstep⟩ := exists_first_block
  have hfirst : Run (Guarded (HeapStep 1048576) (PoolGuard t.st.slab.mem 1048576)) t [.kmalloc 1]
      _ := .single ⟨hguard, hstep⟩
  obtain ⟨records, hinv⟩ := kfreeInv_of_guarded hboot hlist hinit hfirst
  obtain ⟨st'', heq, _⟩ := hinv.keepsAll (b := ⟨q, 1⟩) List.mem_cons_self
  have hfreed : Guarded (HeapStep 1048576) (PoolGuard t.st.slab.mem 1048576) _ (.kfree ⟨q, 1⟩) _ :=
    ⟨trivial, .kfreeBlock List.mem_cons_self heq⟩
  have hrun := hfirst.append (.single hfreed)
  exact ⟨t, _, q, hinit, hrun.of_guarded,
    null_only_when_full_iff hboot hlist hinit hrun (by decide)⟩

/-- A machine with twelve pages: one for the map, ten for the pool, and one left. -/
theorem not_null_only_when_full : ¬ ∀ (list memUpper : Nat) (mem : Memory) (t u : HeapState)
    (ops : List HeapOp) (size : Nat), Boots memUpper mem → InImage list →
    HeapInit list memUpper mem t → Run (HeapStep list) t ops u → 1 ≤ size → size ≤ pgSize →
    NullOnlyWhenFull list size u.st := by
  intro hall
  have hboot := boots_zeroed (show startAddr ≤ 4144 * 1024 by decide) (by decide) (by decide)
  have hlist : InImage 1048576 := by decide
  obtain ⟨t, hinit⟩ := exists_heapInit hboot hlist
  obtain ⟨u, hrun, hnot⟩ := not_nullOnlyWhenFull_of_init hboot hlist hinit (by decide)
  exact hnot (hall 1048576 4144 _ t u _ 100 hboot hlist hinit hrun (by decide) (by decide))

end Boot

end Longhorn.KmallocFailures
