import Longhorn.SlabSafety

/-!
The pool that `slab_init` lays out, for any region and any size of a slab.
-/

namespace Longhorn.SlabLayout

open Longhorn.Foundations.ByteMemory
open Longhorn.SlabModel
open Longhorn.SlabTable
open Longhorn.SlabSafety

/-- Where the first slab begins, relative to the region. -/
def dataOffset (memSize slabSize : Nat) : Nat := memSize / slabSize * slabSize / sizeofSlab

/-- The addresses that the loop of `slab_init` records, in order. -/
def initEntries (slabSize limit : Nat) : Nat → Nat → Option (List Nat)
  | 0, _ => none
  | fuel + 1, startingAddr =>
      if startingAddr < limit then
        (initEntries slabSize limit fuel (wrap (startingAddr + slabSize))).map (startingAddr :: ·)
      else some []

/-- The table of these addresses, every entry marked free. -/
def writeEntries : List Nat → Nat → Memory → Memory
  | [], _, mem => mem
  | a :: entries, slab, mem =>
      writeEntries entries (wrap (slab + sizeofSlab))
        (writeByte (writePtr mem slab a) (wrap (slab + 4)) 1#8)

/-- A sound pool: the slabs lie in the region, apart from one another and behind the
table, the region is not at `NULL`, and the counter covers the slabs. -/
structure SoundPool (mem memSize slabSize : Nat) (entries : List Nat) (s : SlabAllocator) :
    Prop where
  inside : ∀ a ∈ entries, mem ≤ a ∧ a + slabSize ≤ mem + memSize
  disjoint : entries.Pairwise fun a b => a + slabSize ≤ b ∨ b + slabSize ≤ a
  table : ∀ a ∈ entries.head?, mem + sizeofSlab * entries.length ≤ a
  notNull : mem ≠ 0
  freeMem : s.freeMemSize = slabSize * entries.length

/-- The region is not at `NULL` and does not wrap around, its slabs fill it to its end,
and their table fits before them. -/
def FillsRegion (mem memSize slabSize : Nat) : Prop :=
  mem ≠ 0 ∧ mem + memSize < 2 ^ 32 ∧ slabSize ∣ memSize - dataOffset memSize slabSize ∧
    sizeofSlab * ((memSize - dataOffset memSize slabSize) / slabSize) ≤ dataOffset memSize slabSize

section Loop

variable {slabSize limit : Nat}

/-- The loop of `slab_init` writes the table of the addresses it records. -/
theorem initLoop_eq_writeEntries (fuel slab startingAddr : Nat) (mem : Memory) :
    initLoop slabSize limit fuel slab startingAddr mem =
      (initEntries slabSize limit fuel startingAddr).map fun entries =>
        writeEntries entries slab mem := by
  induction fuel generalizing slab startingAddr mem with
  | zero => rfl
  | succ fuel ih =>
      rw [initLoop, initEntries]
      split
      · rw [ih, Option.map_map]
        rfl
      · rfl

/-- Every address before the limit that the steps meet is recorded. -/
theorem mem_initEntries (hlimit : limit < 2 ^ 32) {i fuel startingAddr : Nat} {entries : List Nat}
    (h : initEntries slabSize limit fuel startingAddr = some entries)
    (hi : startingAddr + slabSize * i < limit) : startingAddr + slabSize * i ∈ entries := by
  induction i generalizing fuel startingAddr entries with
  | zero =>
      cases fuel with
      | zero => exact absurd h (by simp [initEntries])
      | succ fuel =>
          rw [Nat.mul_zero, Nat.add_zero] at hi ⊢
          rw [initEntries, if_pos hi, Option.map_eq_some_iff] at h
          obtain ⟨rest, _, rfl⟩ := h
          exact List.mem_cons_self
  | succ i ih =>
      rw [Nat.mul_succ] at hi ⊢
      cases fuel with
      | zero => exact absurd h (by simp [initEntries])
      | succ fuel =>
          rw [initEntries, if_pos (by omega), wrap_of_lt (by omega), Option.map_eq_some_iff] at h
          obtain ⟨rest, hrest, rfl⟩ := h
          have hmem := ih hrest (by omega)
          rw [show startingAddr + (slabSize * i + slabSize) =
            startingAddr + slabSize + slabSize * i by
            omega]
          exact List.mem_cons_of_mem _ hmem

/-- When the steps meet the limit, the loop records all of them and ends. -/
theorem initEntries_eq_range' (hlimit : limit < 2 ^ 32) (hslab : 0 < slabSize)
    (left fuel startingAddr : Nat) (hfuel : left < fuel)
    (hend : startingAddr + slabSize * left = limit) :
    initEntries slabSize limit fuel startingAddr =
      some (List.range' startingAddr left slabSize) := by
  induction left generalizing fuel startingAddr with
  | zero =>
      obtain ⟨fuel, rfl⟩ := Nat.exists_eq_succ_of_ne_zero (Nat.ne_of_gt hfuel)
      rw [initEntries, if_neg (by omega), List.range'_zero]
  | succ left ih =>
      obtain ⟨fuel, rfl⟩ := Nat.exists_eq_succ_of_ne_zero (show fuel ≠ 0 by omega)
      rw [Nat.mul_succ] at hend
      rw [initEntries, if_pos (by omega), wrap_of_lt (by omega), ih fuel _ (by omega) (by omega),
        List.range'_succ]
      rfl

/-- Steps of the size of a slab keep the slabs apart. -/
theorem pairwise_range' (start left slabSize : Nat) :
    (List.range' start left slabSize).Pairwise fun a b => a + slabSize ≤ b ∨ b + slabSize ≤ a := by
  induction left generalizing start with
  | zero => exact List.Pairwise.nil
  | succ left ih =>
      rw [List.range'_succ, List.pairwise_cons]
      refine ⟨fun b hb => Or.inl ?_, ih (start + slabSize)⟩
      obtain ⟨i, _, rfl⟩ := List.mem_range'.mp hb
      exact Nat.le_add_right _ _

/-- Without a wrap-around the table is the one of `SlabTable`. -/
theorem writeEntries_range' (left slab startingAddr : Nat)
    (hslab : slab + sizeofSlab * left < 2 ^ 32)
    (mem : Memory) : writeEntries (List.range' startingAddr left slabSize) slab mem =
      writeTable slabSize left slab startingAddr mem := by
  induction left generalizing slab startingAddr mem with
  | zero => rfl
  | succ left ih =>
      unfold sizeofSlab at *
      rw [List.range'_succ, writeEntries, writeTable, wrap_of_lt (by unfold sizeofSlab; omega),
        wrap_of_lt (by omega), ih _ _ (by unfold sizeofSlab; omega)]

/-- The loop records nothing, or the address it starts at first. -/
theorem initEntries_head {fuel startingAddr : Nat} {entries : List Nat}
    (h : initEntries slabSize limit fuel startingAddr = some entries) :
    entries = [] ∨ startingAddr < limit ∧ startingAddr ∈ entries := by
  cases fuel with
  | zero => exact absurd h (by simp [initEntries])
  | succ fuel =>
      rw [initEntries] at h
      split at h
      · next hlt =>
          obtain ⟨rest, _, rfl⟩ := Option.map_eq_some_iff.mp h
          exact Or.inr ⟨hlt, List.mem_cons_self⟩
      · exact Or.inl (Option.some_inj.mp h).symm

end Loop

section Init

variable {mem memSize slabSize : Nat}

theorem dataOffset_le (memSize slabSize : Nat) :
    sizeofSlab * dataOffset memSize slabSize ≤ memSize := by
  have hdiv := Nat.div_mul_le_self memSize slabSize
  unfold dataOffset sizeofSlab
  omega

/-- A successful call writes the table of the addresses its loop records. -/
theorem slabInit_eq_some {s s' : SlabAllocator} {m m' : Memory} (hsize : memSize < 2 ^ 32)
    (h : slabInit mem memSize slabSize s m = some (slabSucc, s', m')) :
    sizeofSlab ≤ slabSize ∧
      s' = ⟨mem, memSize, memSize - dataOffset memSize slabSize, slabSize, mem⟩ ∧
      ∃ entries, initEntries slabSize (wrap (mem + memSize)) (2 ^ 32)
          (wrap (mem + dataOffset memSize slabSize)) = some entries ∧
        m' = writeEntries entries mem m := by
  have hdiv := Nat.div_mul_le_self memSize slabSize
  have hoffset : wrap (memSize / slabSize * slabSize) / sizeofSlab =
      dataOffset memSize slabSize := by
    rw [wrap_of_lt (by omega)]
    rfl
  have hle := dataOffset_le memSize slabSize
  simp only [slabInit, hoffset] at h
  split at h
  · exact absurd h (by simp [slabSucc, slabInitFail])
  · next hlarge =>
      split at h
      · exact absurd h (by simp [slabSucc, slabInitFail])
      · rw [initLoop_eq_writeEntries, Option.map_map, Option.map_eq_some_iff] at h
        obtain ⟨entries, hentries, heq⟩ := h
        simp only [Function.comp_apply, Prod.mk.injEq, true_and] at heq
        refine ⟨Nat.le_of_not_lt hlarge, ?_, entries, hentries, heq.2.symm⟩
        rw [← heq.1, wrapSub_of_le hsize (by unfold sizeofSlab at hle; omega)]

/-- A region that wraps around gets no sound pool. -/
theorem not_soundPool_of_wrap {s : SlabAllocator} {entries : List Nat} (hmem : mem < 2 ^ 32)
    (hsize : memSize < 2 ^ 32) (hwrap : 2 ^ 32 ≤ mem + memSize)
    (hfree : s.freeMemSize = memSize - dataOffset memSize slabSize)
    (hentries : initEntries slabSize (wrap (mem + memSize)) (2 ^ 32)
      (wrap (mem + dataOffset memSize slabSize)) = some entries) :
    ¬ SoundPool mem memSize slabSize entries s := by
  intro hsound
  have hle := dataOffset_le memSize slabSize
  rcases initEntries_head hentries with rfl | ⟨hlt, hhead⟩
  · -- nothing is recorded, but the counter is not zero
    have hcount := hsound.freeMem
    rw [hfree, List.length_nil, Nat.mul_zero] at hcount
    unfold sizeofSlab at hle
    omega
  · -- the first address lies before the region
    have hin := (hsound.inside _ hhead).1
    have hlimit : wrap (mem + memSize) < mem := by
      unfold wrap
      omega
    omega

/-- Slabs that do not fill the region leave it with the last one. -/
theorem not_soundPool_of_not_dvd {s : SlabAllocator} {entries : List Nat}
    (hend : mem + memSize < 2 ^ 32) (hslab : 0 < slabSize)
    (hdvd : ¬ slabSize ∣ memSize - dataOffset memSize slabSize)
    (hentries : initEntries slabSize (wrap (mem + memSize)) (2 ^ 32)
      (wrap (mem + dataOffset memSize slabSize)) = some entries) :
    ¬ SoundPool mem memSize slabSize entries s := by
  intro hsound
  have hle := dataOffset_le memSize slabSize
  unfold sizeofSlab at hle
  rw [wrap_of_lt hend, wrap_of_lt (by omega)] at hentries
  have hdiv := Nat.div_add_mod (memSize - dataOffset memSize slabSize) slabSize
  have hmod : 0 < (memSize - dataOffset memSize slabSize) % slabSize :=
    Nat.pos_of_ne_zero fun hzero => hdvd (Nat.dvd_of_mod_eq_zero hzero)
  have hlt := Nat.mod_lt (memSize - dataOffset memSize slabSize) hslab
  have hlast := mem_initEntries hend hentries
    (i := (memSize - dataOffset memSize slabSize) / slabSize) (by omega)
  have hin := (hsound.inside _ hlast).2
  omega

/-- The addresses recorded when the slabs fill the region. -/
theorem entries_of_dvd {entries : List Nat} {slabs : Nat} (hend : mem + memSize < 2 ^ 32)
    (hslab : 0 < slabSize) (hslabs : memSize - dataOffset memSize slabSize = slabSize * slabs)
    (hentries : initEntries slabSize (wrap (mem + memSize)) (2 ^ 32)
      (wrap (mem + dataOffset memSize slabSize)) = some entries) :
    entries = List.range' (mem + dataOffset memSize slabSize) slabs slabSize := by
  have hle := dataOffset_le memSize slabSize
  unfold sizeofSlab at hle
  have hcount := Nat.le_mul_of_pos_left slabs hslab
  rw [wrap_of_lt hend, wrap_of_lt (by omega),
    initEntries_eq_range' hend hslab slabs _ _ (by omega) (by omega)] at hentries
  exact (Option.some_inj.mp hentries).symm

/-- Slabs that fill the region are sound when their table fits before them. -/
theorem soundPool_range'_iff {s : SlabAllocator} {slabs : Nat} (hslab : sizeofSlab ≤ slabSize)
    (hslabs : memSize - dataOffset memSize slabSize = slabSize * slabs)
    (hfree : s.freeMemSize = memSize - dataOffset memSize slabSize) :
    SoundPool mem memSize slabSize
        (List.range' (mem + dataOffset memSize slabSize) slabs slabSize) s ↔
      mem ≠ 0 ∧ sizeofSlab * slabs ≤ dataOffset memSize slabSize := by
  have hle := dataOffset_le memSize slabSize
  unfold sizeofSlab at hle hslab ⊢
  constructor
  · intro hsound
    refine ⟨hsound.notNull, ?_⟩
    cases slabs with
    | zero => exact Nat.zero_le _
    | succ slabs =>
        have htable := hsound.table (mem + dataOffset memSize slabSize) (by
          rw [List.range'_succ]
          rfl)
        unfold sizeofSlab at htable
        rw [List.length_range'] at htable
        omega
  · rintro ⟨hnull, htable⟩
    refine ⟨fun a ha => ?_, pairwise_range' _ _ _, fun a ha => ?_, hnull, ?_⟩
    · obtain ⟨i, hi, rfl⟩ := List.mem_range'.mp ha
      have hlast := Nat.mul_le_mul_left slabSize (Nat.succ_le_of_lt hi)
      rw [Nat.mul_succ] at hlast
      omega
    · obtain ⟨i, _, rfl⟩ := List.mem_range'.mp (List.mem_of_mem_head? ha)
      unfold sizeofSlab
      rw [List.length_range']
      omega
    · rw [hfree, List.length_range', hslabs]

/-- `slab_init` leaves a sound pool exactly for a region that its slabs fill. -/
theorem soundPool_iff {s : SlabAllocator} {entries : List Nat} (hmem : mem < 2 ^ 32)
    (hsize : memSize < 2 ^ 32) (hslab : sizeofSlab ≤ slabSize)
    (hfree : s.freeMemSize = memSize - dataOffset memSize slabSize)
    (hentries : initEntries slabSize (wrap (mem + memSize)) (2 ^ 32)
      (wrap (mem + dataOffset memSize slabSize)) = some entries) :
    SoundPool mem memSize slabSize entries s ↔ FillsRegion mem memSize slabSize := by
  have hpos : 0 < slabSize := by
    unfold sizeofSlab at hslab
    omega
  by_cases hend : mem + memSize < 2 ^ 32
  · by_cases hdvd : slabSize ∣ memSize - dataOffset memSize slabSize
    · obtain ⟨slabs, hslabs⟩ := hdvd
      rw [entries_of_dvd hend hpos hslabs hentries, soundPool_range'_iff hslab hslabs hfree,
        FillsRegion, hslabs, Nat.mul_div_cancel_left _ hpos]
      exact ⟨fun ⟨hnull, htable⟩ => ⟨hnull, hend, Nat.dvd_mul_right _ _, htable⟩,
        fun ⟨hnull, _, _, htable⟩ => ⟨hnull, htable⟩⟩
    · exact iff_of_false (not_soundPool_of_not_dvd hend hpos hdvd hentries) fun h => hdvd h.2.2.1
  · exact iff_of_false (not_soundPool_of_wrap hmem hsize (by omega) hfree hentries) fun h =>
      hend h.2.1

/-- What the allocator reads back from a table it can use. -/
theorem read_of_fillsRegion {entries : List Nat} {f : Nat} {m : Memory}
    (hslab : sizeofSlab ≤ slabSize) (hfills : FillsRegion mem memSize slabSize)
    (hentries : initEntries slabSize (wrap (mem + memSize)) (2 ^ 32)
      (wrap (mem + dataOffset memSize slabSize)) = some entries)
    (k : Nat) (hk : k < entries.length) :
    slabAddr ⟨mem, memSize, f, slabSize, mem⟩ (writeEntries entries mem m) k = entries[k] ∧
      slabIsFree ⟨mem, memSize, f, slabSize, mem⟩ (writeEntries entries mem m) k = true := by
  obtain ⟨_, hend, ⟨slabs, hslabs⟩, htable⟩ := hfills
  have hle := dataOffset_le memSize slabSize
  have hpos : 0 < slabSize := by
    unfold sizeofSlab at hslab
    omega
  rw [hslabs, Nat.mul_div_cancel_left _ hpos] at htable
  obtain rfl := entries_of_dvd hend hpos hslabs hentries
  rw [List.length_range'] at hk
  have hspace : mem + sizeofSlab * slabs < 2 ^ 32 := by
    unfold sizeofSlab at *
    omega
  constructor
  · rw [slabAddr, entryPtr_eq hspace hk, writeEntries_range' _ _ _ hspace,
      readPtr_writeTable _ _ _ _ _ (by unfold sizeofSlab at hle; omega) hk, List.getElem_range']
  · rw [slabIsFree, flagPtr_eq hspace hk, writeEntries_range' _ _ _ hspace, flag_writeTable hk]
    decide

/-- The pool a successful `slab_init` leaves is sound exactly for a region that the
slabs fill, and its table then holds the recorded slabs, all of them free. -/
theorem slab_init_sound_iff {s s' : SlabAllocator} {m m' : Memory} (hmem : mem < 2 ^ 32)
    (hsize : memSize < 2 ^ 32)
    (h : slabInit mem memSize slabSize s m = some (slabSucc, s', m')) :
    ∃ entries, initEntries slabSize (wrap (mem + memSize)) (2 ^ 32)
        (wrap (mem + dataOffset memSize slabSize)) = some entries ∧
      m' = writeEntries entries mem m ∧
      (SoundPool mem memSize slabSize entries s' ↔ FillsRegion mem memSize slabSize) ∧
      (FillsRegion mem memSize slabSize → ∀ k (hk : k < entries.length),
        slabAddr s' m' k = entries[k] ∧ slabIsFree s' m' k = true) := by
  obtain ⟨hslab, rfl, entries, hentries, rfl⟩ := slabInit_eq_some hsize h
  exact ⟨entries, hentries, rfl, soundPool_iff hmem hsize hslab rfl hentries,
    fun hfills => read_of_fillsRegion hslab hfills hentries⟩

/-- A call whose slabs fill the region succeeds, also at `NULL` when the region has room
for its table. -/
theorem slabInit_of_dvd (mem memSize slabSize slabs : Nat) (hend : mem + memSize < 2 ^ 32)
    (hslab : sizeofSlab ≤ slabSize) (hroom : sizeofSlab * (memSize / slabSize) ≤ memSize)
    (hslabs : memSize - dataOffset memSize slabSize = slabSize * slabs) (s : SlabAllocator)
    (m : Memory) : slabInit mem memSize slabSize s m =
      some (slabSucc, ⟨mem, memSize, memSize - dataOffset memSize slabSize, slabSize, mem⟩,
        writeEntries (List.range' (mem + dataOffset memSize slabSize) slabs slabSize) mem m) := by
  have hpos : 0 < slabSize := by
    unfold sizeofSlab at hslab
    omega
  have hdiv := Nat.div_mul_le_self memSize slabSize
  have hle := dataOffset_le memSize slabSize
  have hcount := Nat.le_mul_of_pos_left slabs hpos
  have hoffset : wrap (memSize / slabSize * slabSize) / sizeofSlab =
      dataOffset memSize slabSize := by
    rw [wrap_of_lt (by omega)]
    rfl
  unfold sizeofSlab at hle
  simp only [slabInit, hoffset]
  rw [if_neg (by omega), if_neg (by omega), initLoop_eq_writeEntries, wrap_of_lt hend,
    wrap_of_lt (by omega), initEntries_eq_range' hend hpos slabs _ _ (by omega) (by omega),
    wrapSub_of_le (by omega) (by omega)]
  rfl

end Init

theorem slab_init_sound_iff_pool : ∃ entries,
    initEntries poolSlabSize (wrap (4198400 + poolSize)) (2 ^ 32)
        (wrap (4198400 + dataOffset poolSize poolSlabSize)) = some entries ∧
      SoundPool 4198400 poolSize poolSlabSize entries (poolAllocator 4198400) := by
  have hinit := slabInit_pool (p := 4198400) (by decide) (poolAllocator 4198400) fun _ => 0#8
  obtain ⟨entries, hentries, _, hsound, _⟩ := slab_init_sound_iff (by decide) (by decide) hinit
  refine ⟨entries, hentries, hsound.mpr ⟨by decide, by decide, ?_, by decide⟩⟩
  exact ⟨poolEntries, by decide⟩

/-- `slab_init` accepts the `NULL` of a failed `palloc_mult`, and slabs as small as the
entries of the table, which then lies over them. -/
theorem not_slab_init_sound :
    (∃ s m s' m' entries, slabInit 0 poolSize poolSlabSize s m = some (slabSucc, s', m') ∧
      initEntries poolSlabSize (wrap (0 + poolSize)) (2 ^ 32)
        (wrap (0 + dataOffset poolSize poolSlabSize)) = some entries ∧
      ¬ SoundPool 0 poolSize poolSlabSize entries s') ∧
    (∃ s m s' m' entries, slabInit 4096 64 8 s m = some (slabSucc, s', m') ∧
      initEntries 8 (wrap (4096 + 64)) (2 ^ 32) (wrap (4096 + dataOffset 64 8)) = some entries ∧
      ¬ SoundPool 4096 64 8 entries s') := by
  have hnull := slabInit_of_dvd 0 poolSize poolSlabSize poolEntries (by decide) (by decide)
    (by decide) (by decide) (poolAllocator 0) fun _ => 0#8
  have hsmall := slabInit_of_dvd 4096 64 8 7 (by decide) (by decide) (by decide) (by decide)
    (poolAllocator 0) fun _ => 0#8
  constructor
  · obtain ⟨_, _, entries, hentries, _⟩ := slabInit_eq_some (by decide) hnull
    exact ⟨_, _, _, _, entries, hnull, hentries, fun hsound => hsound.notNull rfl⟩
  · obtain ⟨_, _, entries, hentries, _⟩ := slabInit_eq_some (by decide) hsmall
    refine ⟨_, _, _, _, entries, hsmall, hentries, fun hsound => ?_⟩
    have hfills := (soundPool_iff (by decide) (by decide) (by decide) rfl hentries).mp hsound
    exact absurd hfills.2.2.2 (by decide)

end Longhorn.SlabLayout
