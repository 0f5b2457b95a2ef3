import Longhorn.Foundations.TransitionRuns
import Longhorn.SlabTable

/-!
Runs of the slab allocator with the parameters of the kernel: clients allocate
slabs, give them back and write into the regions they own.
-/

namespace Longhorn.SlabSafety

open Longhorn.Foundations.ByteMemory
open Longhorn.Foundations.Ranges
open Longhorn.Foundations.TransitionRuns
open Longhorn.SlabModel
open Longhorn.SlabTable

/-- How many entries `slab_init` creates in a pool of this size. -/
def poolEntries : Nat := 560

/-- Where the slabs begin, relative to the pool. -/
def poolDataOffset : Nat := 5120

/-- The address of the slab number `k` of the pool at `p`. -/
def poolSlot (p k : Nat) : Nat := p + poolDataOffset + poolSlabSize * k

/-- A region handed out: its address and its length in slabs. -/
structure Region where
  addr : Nat
  slabs : Nat
  deriving DecidableEq

def Region.Contains (r : Region) (a : Nat) : Prop :=
  r.addr ≤ a ∧ a < r.addr + poolSlabSize * r.slabs

/-- The allocator, the memory, and the regions the clients own. -/
structure PoolState where
  s : SlabAllocator
  mem : Memory
  live : List Region

inductive PoolOp where
  | alloc (n : Nat)
  | free (r : Region)
  | write (a : Nat) (b : BitVec 8)

/-- One operation of a client.  Nobody frees what it does not own, and nobody
writes outside the regions handed out. -/
inductive PoolStep : PoolState → PoolOp → PoolState → Prop
  | alloc {t : PoolState} {n p : Nat} {s' : SlabAllocator} {mem' : Memory} (hn : 0 < n)
      (h : slabAlloc t.s n t.mem = (p, s', mem')) :
      PoolStep t (.alloc n) ⟨s', mem', if p = 0 then t.live else ⟨p, n⟩ :: t.live⟩
  | free {t : PoolState} {r : Region} {code : Int} {s' : SlabAllocator} {mem' : Memory}
      (hr : r ∈ t.live) (h : slabFree t.s r.addr r.slabs t.mem = some (code, s', mem')) :
      PoolStep t (.free r) ⟨s', mem', t.live.erase r⟩
  | write {t : PoolState} {r : Region} {a : Nat} {b : BitVec 8} (hr : r ∈ t.live)
      (ha : r.Contains a) : PoolStep t (.write a b) { t with mem := writeByte t.mem a b }

/-- The states `slab_init` leaves, whatever the memory held before. -/
def PoolInit (p : Nat) (t : PoolState) : Prop :=
  t.live = [] ∧ ∃ s mem, slabInit p poolSize poolSlabSize s mem = some (slabSucc, t.s, t.mem)

/-- What the allocator owes its clients in every state. -/
structure PoolSafe (p : Nat) (t : PoolState) : Prop where
  inPool : ∀ r ∈ t.live, ∀ a, r.Contains a → p + poolDataOffset ≤ a ∧ a < p + poolSize
  disjoint : t.live.Pairwise fun r q => ∀ a, r.Contains a → ¬ q.Contains a
  entries : ∀ k, k < poolEntries → slabAddr t.s t.mem k = poolSlot p k
  writes : ∀ a b u, PoolStep t (.write a b) u → ∀ k, k < poolEntries →
    slabAddr u.s u.mem k = slabAddr t.s t.mem k ∧ slabIsFree u.s u.mem k = slabIsFree t.s t.mem k
  freeMem : t.s.freeMemSize = t.s.slabSize * freeEntries t.s t.mem poolEntries

/-- An allocation whose scan does not take a run that leaves the table. -/
def ScanGuard (t : PoolState) : PoolOp → Prop
  | .alloc n => ScanStaysInTable t.s t.mem poolEntries n
  | .free _ => True
  | .write _ _ => True

/-- The region of a run of table entries. -/
def regionOf (p : Nat) (r : Range) : Region := ⟨poolSlot p r.start, r.len⟩

/-- The invariant of the runs: the live regions are the regions of disjoint runs
of entries that are not free. -/
structure PoolInv (p : Nat) (t : PoolState) : Prop where
  params : t.s = ⟨p, poolSize, t.s.freeMemSize, poolSlabSize, p⟩
  table : HasTable t.s t.mem poolEntries (poolSlot p)
  freeMem : t.s.freeMemSize = poolSlabSize * freeEntries t.s t.mem poolEntries
  live : ∃ runs : List Range, t.live.Perm (runs.map (regionOf p)) ∧
    Owned (TableUsed t.s t.mem poolEntries) runs ∧
    ∀ r ∈ runs, r.start + r.len ≤ poolEntries ∧ 0 < r.len

theorem regionOf_injective (p : Nat) : Function.Injective (regionOf p) := by
  rintro ⟨a, n⟩ ⟨b, m⟩ h
  simp only [regionOf, poolSlot, poolDataOffset, poolSlabSize, Region.mk.injEq] at h
  simp only [Range.mk.injEq]
  omega

theorem poolSlot_ne_zero (p k : Nat) : poolSlot p k ≠ 0 := by
  unfold poolSlot poolDataOffset
  omega

theorem freeEntries_le (s : SlabAllocator) (mem : Memory) (count : Nat) :
    freeEntries s mem count ≤ count :=
  Nat.count_le _

theorem freeEntries_congr {s : SlabAllocator} {mem mem' : Memory} {count : Nat}
    (h : ∀ k, k < count → slabIsFree s mem' k = slabIsFree s mem k) :
    freeEntries s mem' count = freeEntries s mem count := by
  simp only [freeEntries, Nat.count_eq_card_filter_range]
  congr 1
  ext k
  simp only [Finset.mem_filter, Finset.mem_range]
  exact and_congr_right fun hk => by rw [h k hk]

theorem wrap_free_sub {f c n : Nat} (h : c + n = f) (hf : f ≤ poolEntries) :
    wrapSub (poolSlabSize * f) (n * poolSlabSize) = poolSlabSize * c := by
  unfold poolSlabSize poolEntries at *
  rw [wrapSub_of_le (by omega) (by omega)]
  omega

theorem wrap_free_add {f c n : Nat} (h : c = f + n) (hc : c ≤ poolEntries) :
    wrap (poolSlabSize * f + n * poolSlabSize) = poolSlabSize * c := by
  unfold poolSlabSize poolEntries at *
  rw [wrap_of_lt (by omega)]
  omega

/-- A byte of a region lies in a slab of its run. -/
theorem covers_of_contains {p : Nat} {r : Range} {a : Nat} (h : (regionOf p r).Contains a) :
    p + poolDataOffset ≤ a ∧ r.Covers ((a - (p + poolDataOffset)) / poolSlabSize) := by
  simp only [regionOf, Region.Contains, poolSlot, poolDataOffset, poolSlabSize] at h
  simp only [Range.Covers, poolDataOffset, poolSlabSize]
  omega

theorem inPool_of_contains {p : Nat} {r : Range} (hr : r.start + r.len ≤ poolEntries) {a : Nat}
    (h : (regionOf p r).Contains a) : p + poolDataOffset ≤ a ∧ a < p + poolSize := by
  simp only [regionOf, Region.Contains, poolSlot, poolDataOffset, poolSlabSize] at h
  simp only [poolDataOffset, poolSize, poolEntries] at *
  omega

theorem PoolInv.data_eq {p : Nat} {t : PoolState} (h : PoolInv p t) : t.s.data = p := by
  rw [h.params]

theorem PoolInv.totalNumSlabs_eq {p : Nat} {t : PoolState} (h : PoolInv p t) :
    totalNumSlabs t.s = 5120 := by
  rw [h.params]
  exact (by decide : totalNumSlabs ⟨0, poolSize, 0, poolSlabSize, 0⟩ = 5120)

theorem PoolInv.inPool {p : Nat} {t : PoolState} (h : PoolInv p t) {r : Region} (hr : r ∈ t.live)
    {a : Nat} (ha : r.Contains a) : p + poolDataOffset ≤ a ∧ a < p + poolSize := by
  obtain ⟨runs, hlive, _, hbound⟩ := h.live
  obtain ⟨run, hrun, rfl⟩ := List.mem_map.mp (hlive.mem_iff.mp hr)
  exact inPool_of_contains (hbound run hrun).1 ha

theorem PoolInv.exists_slot {p : Nat} {t : PoolState} (h : PoolInv p t) {r : Region}
    (hr : r ∈ t.live) : ∃ k, r.addr = poolSlot p k ∧ 0 < r.slabs := by
  obtain ⟨runs, hlive, _, hbound⟩ := h.live
  obtain ⟨run, hrun, rfl⟩ := List.mem_map.mp (hlive.mem_iff.mp hr)
  exact ⟨run.start, rfl, (hbound run hrun).2⟩

/-- No more regions than entries are handed out. -/
theorem PoolInv.length_le {p : Nat} {t : PoolState} (h : PoolInv p t) :
    t.live.length ≤ poolEntries := by
  obtain ⟨runs, hlive, howned, hbound⟩ := h.live
  have hnodup : (runs.map Range.start).Nodup := by
    rw [List.Nodup, List.pairwise_map]
    refine howned.disjoint.imp_of_mem fun {r q} hr hq hd heq => ?_
    have hr' := hbound r hr
    have hq' := hbound q hq
    exact hd r.start ⟨le_rfl, by omega⟩ ⟨by omega, by omega⟩
  have hsub : ∀ i ∈ runs.map Range.start, i ∈ List.range poolEntries := by
    intro i hi
    obtain ⟨r, hr, rfl⟩ := List.mem_map.mp hi
    have := hbound r hr
    exact List.mem_range.mpr (by omega)
  have hle := (List.subperm_of_subset hnodup hsub).length_le
  rw [List.length_map, List.length_range] at hle
  rwa [hlive.length_eq, List.length_map]

/-- The bytes of the table of the pool. -/
def TableByte (p a : Nat) : Prop := p ≤ a ∧ a < p + sizeofSlab * poolEntries

/-- A write into a live region leaves the bytes of the table alone. -/
theorem PoolInv.agreeOn_write {p : Nat} {t : PoolState} (h : PoolInv p t) {r : Region}
    (hr : r ∈ t.live) {a : Nat} (ha : r.Contains a) (b : BitVec 8) :
    AgreeOn (TableByte p) t.mem (writeByte t.mem a b) := by
  rintro c ⟨hc1, hc2⟩
  have hin := h.inPool hr ha
  refine writeByte_of_ne ?_ t.mem b
  simp only [sizeofSlab, poolEntries, poolDataOffset] at *
  omega

theorem PoolInv.table_congr {p : Nat} {t : PoolState} (h : PoolInv p t) {mem' : Memory}
    (hagree : AgreeOn (TableByte p) t.mem mem') :
    HasTable t.s mem' poolEntries (poolSlot p) ∧
      ∀ k, k < poolEntries → slabIsFree t.s mem' k = slabIsFree t.s t.mem k := by
  have hagree' : AgreeOn (fun c => t.s.data ≤ c ∧ c < t.s.data + sizeofSlab * poolEntries) t.mem
      mem' := by
    rw [h.data_eq]
    exact hagree
  exact ⟨h.table.congr hagree', fun k hk => slabIsFree_congr h.table.inSpace hagree' hk⟩

/-- The invariant depends only on the table. -/
theorem PoolInv.congr {p : Nat} {t : PoolState} (h : PoolInv p t) {mem' : Memory}
    (hagree : AgreeOn (TableByte p) t.mem mem') : PoolInv p { t with mem := mem' } := by
  obtain ⟨htable, hflag⟩ := h.table_congr hagree
  obtain ⟨runs, hlive, howned, hbound⟩ := h.live
  refine ⟨h.params, htable, ?_, runs, hlive, howned.mono ?_, hbound⟩
  · rw [h.freeMem]
    exact congrArg _ (freeEntries_congr hflag).symm
  · exact fun i hi => ⟨hi.1, by rw [hflag i hi.1]; exact hi.2⟩

theorem PoolInv.perm {p : Nat} {s : SlabAllocator} {mem : Memory} {live live' : List Region}
    (h : PoolInv p ⟨s, mem, live⟩) (hp : live'.Perm live) : PoolInv p ⟨s, mem, live'⟩ := by
  obtain ⟨runs, hlive, hrest⟩ := h.live
  exact ⟨h.params, h.table, h.freeMem, runs, hp.trans hlive, hrest⟩

/-- A region that nobody will give back stays allocated. -/
theorem PoolInv.forget {p : Nat} {s : SlabAllocator} {mem : Memory} {live : List Region}
    {r : Region} (h : PoolInv p ⟨s, mem, r :: live⟩) : PoolInv p ⟨s, mem, live⟩ := by
  obtain ⟨runs, hlive, howned, hbound⟩ := h.live
  obtain ⟨run, hrun, rfl⟩ := List.mem_map.mp (hlive.mem_iff.mp List.mem_cons_self)
  have herase := hlive.erase (regionOf p run)
  rw [List.erase_cons_head, ← List.map_erase (regionOf_injective p)] at herase
  refine ⟨h.params, h.table, h.freeMem, runs.erase run, herase, ?_, ?_⟩
  · exact (howned.perm (List.perm_cons_erase hrun)).of_cons
  · exact fun q hq => hbound q (List.mem_of_mem_erase hq)

theorem PoolInv.safe {p : Nat} {t : PoolState} (h : PoolInv p t) : PoolSafe p t := by
  obtain ⟨runs, hlive, howned, hbound⟩ := h.live
  refine ⟨fun r hr a ha => h.inPool hr ha, ?_, h.table.addr, ?_, ?_⟩
  · refine hlive.symm.pairwise ?_ fun hd a hb ha => hd a ha hb
    rw [List.pairwise_map]
    refine howned.disjoint.imp fun hd a ha hb => ?_
    exact hd _ (covers_of_contains ha).2 (covers_of_contains hb).2
  · intro a b u hu k hk
    cases hu with
    | write hr ha =>
        obtain ⟨htable, hflag⟩ := h.table_congr (h.agreeOn_write hr ha b)
        exact ⟨(htable.addr k hk).trans (h.table.addr k hk).symm, hflag k hk⟩
  · rw [h.freeMem, h.params]

theorem PoolInv.alloc {p n : Nat} {t : PoolState} (h : PoolInv p t) (hn : 0 < n)
    (hfit : HasFit (fun k => slabIsFree t.s t.mem k = true) 0 poolEntries n) :
    ∃ k s' mem', slabAlloc t.s n t.mem = (poolSlot p k, s', mem') ∧
      PoolInv p ⟨s', mem', regionOf p ⟨k, n⟩ :: t.live⟩ ∧
      IsFirstFit (fun k => slabIsFree t.s t.mem k = true) 0 poolEntries n k ∧
      AgreeOn (fun a => ¬ TableByte p a) t.mem mem' ∧
      freeEntries s' mem' poolEntries + n = freeEntries t.s t.mem poolEntries := by
  obtain ⟨k, hfirst, heq⟩ := slabAlloc_of_fit h.table hn hfit
  obtain ⟨_, hend, hall⟩ := hfirst.1
  obtain ⟨runs, hlive, howned, hbound⟩ := h.live
  have hspace := h.table.inSpace
  have hused := tableUsed_clear hspace t.mem hend
  have hcount := freeEntries_clear hspace hend hall
  have hout : AgreeOn (fun a => ¬ TableByte p a) t.mem (setFlags t.s 0#8 n k t.mem) := by
    intro a ha
    refine setFlags_of_outside hspace hend ?_ t.mem
    rw [h.data_eq]
    unfold TableByte at ha
    omega
  refine ⟨k, _, _, heq,
    ⟨?_, (h.table.setFlags _ _ _).withFreeMem _, ?_, ⟨k, n⟩ :: runs, ?_, ?_, ?_⟩,
    hfirst, hout, hcount⟩
  · simp only
    rw [h.params]
  · have hle := freeEntries_le t.s t.mem poolEntries
    have hsize : t.s.slabSize = poolSlabSize := by rw [h.params]
    simp only [freeEntries_withFreeMem]
    rw [h.freeMem, hsize]
    exact wrap_free_sub hcount hle
  · rw [List.map_cons]
    exact hlive.cons _
  · refine howned.cons (fun i hi hni => hni.2 (hall i hi)) ?_ ?_
    · exact fun i hi => (hused i).mpr (Or.inr hi)
    · exact fun i hi => (hused i).mpr (Or.inl hi)
  · intro r hr
    rcases List.mem_cons.mp hr with rfl | hr
    · exact ⟨hend, hn⟩
    · exact hbound r hr

theorem PoolInv.free {p : Nat} {t : PoolState} (h : PoolInv p t) {r : Region}
    (hr : r ∈ t.live) :
    ∃ s' mem', slabFree t.s r.addr r.slabs t.mem = some (slabSucc, s', mem') ∧
      PoolInv p ⟨s', mem', t.live.erase r⟩ ∧ AgreeOn (fun a => ¬ TableByte p a) t.mem mem' := by
  obtain ⟨runs, hlive, howned, hbound⟩ := h.live
  obtain ⟨⟨k, n⟩, hrun, rfl⟩ := List.mem_map.mp (hlive.mem_iff.mp hr)
  have hend : k + n ≤ poolEntries := (hbound _ hrun).1
  have hn : 0 < n := (hbound _ hrun).2
  have hspace := h.table.inSpace
  have hall : AllOn (fun i => ¬ slabIsFree t.s t.mem i = true) ⟨k, n⟩ :=
    (howned.used _ hrun).mono fun _ _ hi => hi.2
  have hslot : ∀ i j, i < poolEntries → j < poolEntries → poolSlot p i = poolSlot p j → i = j := by
    intro i j _ _ hij
    unfold poolSlot poolSlabSize at hij
    omega
  have hused := tableUsed_set hspace t.mem hend
  have hout : AgreeOn (fun a => ¬ TableByte p a) t.mem (setFlags t.s 1#8 n k t.mem) := by
    intro a ha
    refine setFlags_of_outside hspace hend ?_ t.mem
    rw [h.data_eq]
    unfold TableByte at ha
    omega
  refine ⟨_, _, slabFree_of_allocated h.table hslot (show k < poolEntries by omega) hall, ⟨?_,
    (h.table.setFlags _ _ _).withFreeMem _, ?_, runs.erase ⟨k, n⟩, ?_, ?_, ?_⟩, hout⟩
  · simp only
    rw [h.params]
  · have hcount := freeEntries_set hspace hend hall
    have hle := freeEntries_le t.s (setFlags t.s 1#8 n k t.mem) poolEntries
    have hsize : t.s.slabSize = poolSlabSize := by rw [h.params]
    simp only [freeEntries_withFreeMem]
    rw [h.freeMem, hsize]
    exact wrap_free_add hcount hle
  · rw [List.map_erase (regionOf_injective p)]
    exact hlive.erase _
  · exact howned.erase hrun fun i hi hui => (hused i).mpr ⟨hi, hui⟩
  · exact fun q hq => hbound q (List.mem_of_mem_erase hq)

theorem PoolInv.write {p : Nat} {t : PoolState} (h : PoolInv p t) {r : Region}
    (hr : r ∈ t.live) {a : Nat} (ha : r.Contains a) (b : BitVec 8) :
    PoolInv p { t with mem := writeByte t.mem a b } :=
  h.congr (h.agreeOn_write hr ha b)

/-- The allocator that `slab_init` sets up. -/
def poolAllocator (p : Nat) : SlabAllocator := ⟨p, poolSize, 35840, poolSlabSize, p⟩

/-- The memory with the table that `slab_init` writes. -/
def poolTable (p : Nat) (mem : Memory) : Memory :=
  writeTable poolSlabSize poolEntries p (p + poolDataOffset) mem

theorem slabInit_pool {p : Nat} (hp : p + poolSize < 2 ^ 32) (s : SlabAllocator)
    (mem : Memory) :
    slabInit p poolSize poolSlabSize s mem =
      some (slabSucc, poolAllocator p, poolTable p mem) := by
  have hslabs : poolSlabSize * poolEntries = 35840 := rfl
  have htable : sizeofSlab * poolEntries = 4480 := rfl
  have hoffset : poolDataOffset = 5120 := rfl
  have hsize : poolSize = 40960 := rfl
  have hloop := initLoop_eq_writeTable poolSlabSize (p + poolSize) poolEntries (2 ^ 32) p
    (p + poolDataOffset) mem (by decide) (by omega) (by omega) (by omega)
    (by unfold poolSize poolDataOffset poolSlabSize poolEntries; omega)
  have hdata : wrap (p + wrap (poolSize / poolSlabSize * poolSlabSize) / sizeofSlab) =
      p + poolDataOffset := by
    unfold poolSize at hp
    unfold wrap poolSize poolSlabSize sizeofSlab poolDataOffset
    omega
  have hnonnull : ¬ (p = 0 ∧ poolSize < sizeofSlab * (poolSize / poolSlabSize)) :=
    fun h => absurd h.2 (by decide)
  simp only [slabInit]
  rw [if_neg (by decide), if_neg hnonnull, hdata, wrap_of_lt hp, hloop, Option.map_some,
    show wrapSub poolSize (wrap (poolSize / poolSlabSize * poolSlabSize) / sizeofSlab) = 35840 by
      decide]
  simp only [poolAllocator, poolTable]

theorem poolTable_init {p : Nat} (hp : p + poolSize < 2 ^ 32) (mem : Memory) :
    PoolInit p ⟨poolAllocator p, poolTable p mem, []⟩ := by
  have hinit := slabInit_pool hp (poolAllocator p) mem
  exact ⟨rfl, poolAllocator p, mem, by simpa only using hinit⟩

theorem slabIsFree_poolTable {p : Nat} (hp : p + poolSize < 2 ^ 32) (mem : Memory) {k : Nat}
    (hk : k < poolEntries) : slabIsFree (poolAllocator p) (poolTable p mem) k = true := by
  have hspace : p + sizeofSlab * poolEntries < 2 ^ 32 := by
    unfold poolSize at hp
    unfold sizeofSlab poolEntries
    omega
  simp only [poolAllocator, poolTable, slabIsFree]
  rw [flagPtr_eq hspace hk, flag_writeTable hk]
  decide

theorem poolTable_inv {p : Nat} (hp : p + poolSize < 2 ^ 32) (mem : Memory) :
    PoolInv p ⟨poolAllocator p, poolTable p mem, []⟩ := by
  have hspace : p + sizeofSlab * poolEntries < 2 ^ 32 := by
    unfold poolSize at hp
    unfold sizeofSlab poolEntries
    omega
  have hscan : poolEntries ≤ poolSize / poolSlabSize * poolSlabSize % 2 ^ 32 / sizeofSlab := by
    decide
  have hall : freeEntries (poolAllocator p) (poolTable p mem) poolEntries = poolEntries := by
    rw [freeEntries, Nat.count_iff_forall]
    exact fun k hk => slabIsFree_poolTable hp mem hk
  refine ⟨?_, ⟨?_, ?_, ?_⟩, ?_, [], ?_, Owned.nil _, by simp⟩
  · simp only [poolAllocator]
  · simpa only [poolAllocator] using hspace
  · simpa only [poolAllocator, totalNumSlabs, wrap] using hscan
  · intro k hk
    simp only [poolAllocator, poolTable, slabAddr]
    rw [entryPtr_eq hspace hk]
    refine readPtr_writeTable poolSlabSize poolEntries p (p + poolDataOffset) k ?_ hk mem
    have hslabs : poolSlabSize * poolEntries = 35840 := rfl
    have hoffset : poolDataOffset = 5120 := rfl
    have hsize : poolSize = 40960 := rfl
    omega
  · rw [hall]
    simp only [poolAllocator, poolSlabSize, poolEntries]
  · rw [List.map_nil]

theorem PoolStep.alloc_of_ne_zero {s s' : SlabAllocator} {mem mem' : Memory}
    (live : List Region) {n q : Nat} (hn : 0 < n) (h : slabAlloc s n mem = (q, s', mem'))
    (hq : q ≠ 0) : PoolStep ⟨s, mem, live⟩ (.alloc n) ⟨s', mem', ⟨q, n⟩ :: live⟩ := by
  have hstep := PoolStep.alloc (t := ⟨s, mem, live⟩) hn h
  rwa [if_neg hq] at hstep

theorem poolTable_hasFit {p : Nat} (hp : p + poolSize < 2 ^ 32) (mem : Memory) :
    HasFit (fun k => slabIsFree (poolAllocator p) (poolTable p mem) k = true) 0 poolEntries
      poolEntries := by
  refine ⟨0, le_rfl, (Nat.zero_add _).le, fun k hk => slabIsFree_poolTable hp mem ?_⟩
  exact hk.2.trans_eq (Nat.zero_add _)

/-- The first allocation may take every slab of the pool. -/
theorem slabAlloc_poolTable {p : Nat} (hp : p + poolSize < 2 ^ 32) (mem : Memory) :
    slabAlloc (poolAllocator p) poolEntries (poolTable p mem) =
      (poolSlot p 0, { poolAllocator p with
        freeMemSize := wrapSub (poolAllocator p).freeMemSize
          (poolEntries * (poolAllocator p).slabSize) },
        setFlags (poolAllocator p) 0#8 poolEntries 0 (poolTable p mem)) := by
  have hinv := poolTable_inv hp mem
  have htable : HasTable (poolAllocator p) (poolTable p mem) poolEntries (poolSlot p) := by
    simpa only using hinv.table
  obtain ⟨k, hfirst, halloc⟩ :=
    slabAlloc_of_fit htable (show 0 < poolEntries by decide) (poolTable_hasFit hp mem)
  obtain rfl : k = 0 := by
    have := hfirst.1.2.1
    omega
  exact halloc

theorem PoolInit.inv {p : Nat} (hp : p + poolSize < 2 ^ 32) {t : PoolState}
    (h : PoolInit p t) : PoolInv p t := by
  obtain ⟨hlive, s, mem, hinit⟩ := h
  rw [slabInit_pool hp, Option.some_inj] at hinit
  simp only [Prod.mk.injEq, true_and] at hinit
  rcases t with ⟨ts, tm, tl⟩
  obtain ⟨rfl, rfl⟩ := hinit
  obtain rfl : tl = [] := hlive
  exact poolTable_inv hp mem

/-- One guarded operation keeps the invariant. -/
theorem PoolInv.step {p : Nat} {t u : PoolState} {op : PoolOp} (h : PoolInv p t)
    (hstep : Guarded PoolStep ScanGuard t op u) : PoolInv p u := by
  obtain ⟨hguard, hstep⟩ := hstep
  cases hstep with
  | @alloc n q s' mem' hn heq =>
      rcases hguard with hfit | hnone
      · obtain ⟨k, s'', mem'', heq', hinv, _⟩ := h.alloc hn hfit
        obtain ⟨rfl, rfl, rfl⟩ : poolSlot p k = q ∧ s'' = s' ∧ mem'' = mem' := by
          rw [heq'] at heq
          simpa using heq
        rw [if_neg (poolSlot_ne_zero p k)]
        exact hinv
      · rw [slabAlloc_of_no_run hn hnone] at heq
        obtain ⟨rfl, rfl, rfl⟩ : 0 = q ∧ t.s = s' ∧ t.mem = mem' := by simpa using heq
        rw [if_pos rfl]
        exact h
  | free hr heq =>
      obtain ⟨s'', mem'', heq', hinv, _⟩ := h.free hr
      rw [heq'] at heq
      simp only [Option.some.injEq, Prod.mk.injEq] at heq
      rw [← heq.2.1, ← heq.2.2]
      exact hinv
  | write hr ha => exact h.write hr ha _

/-- As long as no scan takes a run that leaves the table, every state reached is
safe and every live region can be given back. -/
theorem pool_safe_of_scans_in_table {p : Nat} (hp : p + poolSize < 2 ^ 32) {t u : PoolState}
    {ops : List PoolOp} (hinit : PoolInit p t) (hrun : Run (Guarded PoolStep ScanGuard) t ops u) :
    PoolSafe p u ∧ ∀ r ∈ u.live, ∃ s' mem',
      slabFree u.s r.addr r.slabs u.mem = some (slabSucc, s', mem') := by
  have hinv : PoolInv p u :=
    Run.invariant (PoolInv p) (fun _ _ _ h hstep => h.step hstep) hrun (hinit.inv hp)
  refine ⟨hinv.safe, fun r hr => ?_⟩
  obtain ⟨s', mem', heq, _⟩ := hinv.free hr
  exact ⟨s', mem', heq⟩

theorem pool_safe_of_scans_in_table_alloc : ∃ u, u.live = [⟨poolSlot 4198400 0, poolEntries⟩] ∧
    PoolSafe 4198400 u := by
  have hp : 4198400 + poolSize < 2 ^ 32 := by decide
  have hfit := poolTable_hasFit hp fun _ => 0#8
  have halloc := slabAlloc_poolTable hp fun _ => 0#8
  have hstep := PoolStep.alloc_of_ne_zero [] (show 0 < poolEntries by decide) halloc
    (poolSlot_ne_zero _ 0)
  have hguard : ScanGuard ⟨poolAllocator 4198400, poolTable 4198400 fun _ => 0#8, []⟩
      (.alloc poolEntries) := Or.inl (by simpa only using hfit)
  exact ⟨_, rfl, (pool_safe_of_scans_in_table hp (poolTable_init hp fun _ => 0#8)
    (.single ⟨hguard, hstep⟩)).1⟩

/-- Zeroed memory after `slab_init` and an allocation of every slab of the pool,
and the owner's bytes `0xff` and `1` at offsets 3 and 4 of its region. -/
def forgedMemory (p : Nat) : Memory :=
  writeByte (writeByte (setFlags (poolAllocator p) 0#8 poolEntries 0
    (poolTable p fun _ => 0#8)) (p + poolDataOffset + 3) 0xff#8) (p + poolDataOffset + 4) 1#8

theorem forgedMemory_of_outside {p a : Nat} (hp : p + poolSize < 2 ^ 32)
    (ha : p + sizeofSlab * poolEntries ≤ a) (h3 : a ≠ p + poolDataOffset + 3)
    (h4 : a ≠ p + poolDataOffset + 4) : forgedMemory p a = 0#8 := by
  have hspace : (poolAllocator p).data + sizeofSlab * poolEntries < 2 ^ 32 :=
    (poolTable_inv hp fun _ => 0#8).table.inSpace
  rw [forgedMemory, writeByte_of_ne h4, writeByte_of_ne h3,
    setFlags_of_outside hspace (by omega) (Or.inr ha), poolTable,
    writeTable_of_outside (Or.inr ha)]

/-- No entry of the table is free, and the bytes of the client read as a free
entry for the address `0xff000000` behind it. -/
theorem slabIsFree_forgedMemory {p : Nat} (hp : p + poolSize < 2 ^ 32) {k : Nat} (hk : k ≤ 640) :
    slabIsFree (poolAllocator p) (forgedMemory p) k = decide (k = 640) := by
  have hspace : (poolAllocator p).data + sizeofSlab * poolEntries < 2 ^ 32 :=
    (poolTable_inv hp fun _ => 0#8).table.inSpace
  have htable : sizeofSlab * poolEntries = 4480 := rfl
  have hoffset : poolDataOffset = 5120 := rfl
  have hsize : poolSize = 40960 := rfl
  have hentries : poolEntries = 560 := rfl
  have hflag : flagPtr (poolAllocator p) k = p + sizeofSlab * k + 4 := by
    refine wrap_of_lt ?_
    change p + sizeofSlab * k + 4 < 2 ^ 32
    unfold sizeofSlab
    omega
  rw [slabIsFree, hflag]
  unfold sizeofSlab at hflag ⊢
  rcases Nat.lt_trichotomy k 640 with hlt | rfl | hgt
  · have hne : k ≠ 640 := by omega
    rw [decide_eq_false hne]
    by_cases hin : k < poolEntries
    · rw [forgedMemory, writeByte_of_ne (by omega), writeByte_of_ne (by omega), ← hflag,
        setFlags_flag (by omega) (by omega)]
      decide
    · rw [forgedMemory_of_outside hp (by omega) (by omega) (by omega)]
      decide
  · rw [forgedMemory, show p + 8 * 640 + 4 = p + poolDataOffset + 4 by omega, writeByte_same]
    decide
  · omega

theorem readPtr_forgedMemory {p : Nat} (hp : p + poolSize < 2 ^ 32) :
    readPtr (forgedMemory p) (p + poolDataOffset) = 0xff000000 := by
  have htable : sizeofSlab * poolEntries = 4480 := rfl
  have hoffset : poolDataOffset = 5120 := rfl
  rw [readPtr, readWord, forgedMemory_of_outside (a := p + poolDataOffset) hp (by omega)
    (by omega) (by omega), forgedMemory_of_outside (a := p + poolDataOffset + 1) hp (by omega)
    (by omega) (by omega), forgedMemory_of_outside (a := p + poolDataOffset + 2) hp (by omega)
    (by omega) (by omega), forgedMemory, writeByte_of_ne (by omega), writeByte_same]
  decide

/-- The scan runs past the table and takes the forged entry. -/
theorem slabAlloc_forgedMemory {p : Nat} (hp : p + poolSize < 2 ^ 32) (f : Nat) :
    (slabAlloc { poolAllocator p with freeMemSize := f } 1 (forgedMemory p)).1 =
      0xff000000 := by
  have hspec := allocSearch_spec (slabIsFree (poolAllocator p) (forgedMemory p))
    (totalNumSlabs (poolAllocator p)) 0 Nat.one_pos (by omega)
  have hrun : AllOn (fun k => slabIsFree (poolAllocator p) (forgedMemory p) k = true)
      ⟨640, 1⟩ := by
    rintro k ⟨h1, h2⟩
    obtain rfl : k = 640 := by
      simp only at h1 h2
      omega
    exact (slabIsFree_forgedMemory hp le_rfl).trans (decide_eq_true rfl)
  have hfirst : IsFirstFit (fun k => slabIsFree (poolAllocator p) (forgedMemory p) k = true)
      0 641 1 640 := by
    refine ⟨⟨Nat.zero_le _, le_rfl, hrun⟩, fun c _ hc hall => ?_⟩
    have hfree := (slabIsFree_forgedMemory hp (show c ≤ 640 by omega)).symm.trans
      (hall c ⟨le_rfl, by simp only; omega⟩)
    have := of_decide_eq_true hfree
    omega
  have htotal : 640 < totalNumSlabs (poolAllocator p) :=
    (by decide : 640 < totalNumSlabs (poolAllocator 0))
  cases hsearch : allocSearch (slabIsFree (poolAllocator p) (forgedMemory p)) 1
      (totalNumSlabs (poolAllocator p)) 0 with
  | none =>
      rw [hsearch] at hspec
      exact absurd hrun (hspec 640 htotal)
  | some k =>
      rw [hsearch] at hspec
      obtain rfl : k = 640 := hspec.2.unique hfirst
      have hsize : poolSize = 40960 := rfl
      have hentry : entryPtr (poolAllocator p) 640 = p + poolDataOffset :=
        wrap_of_lt (by change p + 5120 < 2 ^ 32; omega)
      refine (slabAlloc_fst_of_search (s := { poolAllocator p with freeMemSize := f })
        hsearch).trans ?_
      change readPtr (forgedMemory p) (entryPtr (poolAllocator p) 640) = _
      rw [hentry, readPtr_forgedMemory hp]

/-- Two stores of a client into the region it has just been given, and another
allocation. -/
theorem exists_run_alloc_write_alloc {s s' s'' : SlabAllocator} {mem mem' mem'' : Memory}
    (live : List Region) {n m q r a c : Nat} {b d : BitVec 8} (hn : 0 < n) (hm : 0 < m)
    (h : slabAlloc s n mem = (q, s', mem')) (hq : q ≠ 0)
    (ha : Region.Contains ⟨q, n⟩ a) (hc : Region.Contains ⟨q, n⟩ c)
    (h' : slabAlloc s' m (writeByte (writeByte mem' a b) c d) = (r, s'', mem''))
    (hr : r ≠ 0) :
    ∃ ops, Run PoolStep ⟨s, mem, live⟩ ops ⟨s'', mem'', ⟨r, m⟩ :: ⟨q, n⟩ :: live⟩ := by
  have hmem : (⟨q, n⟩ : Region) ∈ ⟨q, n⟩ :: live := List.mem_cons_self
  refine ⟨_, .cons (PoolStep.alloc_of_ne_zero _ hn h hq) (.cons (PoolStep.write hmem ha (b := b))
    (.cons (PoolStep.write hmem hc (b := d)) (.single (PoolStep.alloc_of_ne_zero _ hm ?_ hr))))⟩
  exact h'

/-- A client that owns the whole pool and stores two bytes into it makes the next
allocation hand out an address outside the pool. -/
theorem exists_unsafe_run {p : Nat} (hp : p + poolSize < 0xff000000) :
    ∃ t u ops, PoolInit p t ∧ Run PoolStep t ops u ∧ ¬ PoolSafe p u := by
  have hp' : p + poolSize < 2 ^ 32 := by omega
  have halloc := slabAlloc_poolTable hp' fun _ => 0#8
  have hforged := slabAlloc_forgedMemory hp'
    (wrapSub (poolAllocator p).freeMemSize (poolEntries * (poolAllocator p).slabSize))
  have hslabs : poolSlabSize * poolEntries = 35840 := rfl
  have hslot : poolSlot p 0 = p + poolDataOffset := rfl
  have h3 : Region.Contains ⟨poolSlot p 0, poolEntries⟩ (p + poolDataOffset + 3) := by
    constructor <;> simp only <;> omega
  have h4 : Region.Contains ⟨poolSlot p 0, poolEntries⟩ (p + poolDataOffset + 4) := by
    constructor <;> simp only <;> omega
  generalize hres : slabAlloc { poolAllocator p with
    freeMemSize := wrapSub (poolAllocator p).freeMemSize
      (poolEntries * (poolAllocator p).slabSize) } 1 (forgedMemory p) = res at hforged
  obtain ⟨q, s', mem'⟩ := res
  obtain rfl : q = 0xff000000 := hforged
  rw [forgedMemory] at hres
  obtain ⟨ops, hrun⟩ := exists_run_alloc_write_alloc [] (show 0 < poolEntries by decide)
    Nat.one_pos halloc (poolSlot_ne_zero p 0) h3 h4 hres (by decide)
  refine ⟨_, _, ops, poolTable_init hp' fun _ => 0#8, hrun, fun hsafe => ?_⟩
  have hin := hsafe.inPool ⟨0xff000000, 1⟩ List.mem_cons_self 0xff000000 ⟨le_rfl, by decide⟩
  omega

theorem not_pool_safe_of_run :
    ¬ ∀ (p : Nat) (t u : PoolState) (ops : List PoolOp), p + poolSize < 2 ^ 32 → PoolInit p t →
      Run PoolStep t ops u → PoolSafe p u := by
  intro hclaim
  obtain ⟨t, u, ops, hinit, hrun, hunsafe⟩ := exists_unsafe_run (p := 4198400) (by decide)
  exact hunsafe (hclaim _ t u ops (by decide) hinit hrun)

end Longhorn.SlabSafety
