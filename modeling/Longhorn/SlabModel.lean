import Longhorn.Foundations.ByteMemory
import Longhorn.Foundations.Ranges

/-!
The slab allocator of `libk/slab.c`.  Its table of `struct slab` entries and the
slabs themselves share one memory.
-/

namespace Longhorn.SlabModel

open Longhorn.Foundations.ByteMemory
open Longhorn.Foundations.Ranges

def slabSucc : Int := 0
def slabFreeFail : Int := 1
def slabInitFail : Int := 2

/-- `10 * PG_SIZE`, the memory `init_alloc` gives to `slab_init`. -/
def poolSize : Nat := 40960

/-- `SLAB_SIZE`. -/
def poolSlabSize : Nat := 64

/-- The fields of `struct slab_allocator` that hold data. -/
structure SlabAllocator where
  mem : Nat
  memSize : Nat
  freeMemSize : Nat
  slabSize : Nat
  data : Nat
  deriving DecidableEq

/-- `sizeof(struct slab)`: an address and a `bool`, padded. -/
def sizeofSlab : Nat := 8

/-- The address of the entry number `k`, `(struct slab *) s->data + k`. -/
def entryPtr (s : SlabAllocator) (k : Nat) : Nat := wrap (s.data + sizeofSlab * k)

/-- The address of its `free` flag. -/
def flagPtr (s : SlabAllocator) (k : Nat) : Nat := wrap (s.data + sizeofSlab * k + 4)

def slabAddr (s : SlabAllocator) (mem : Memory) (k : Nat) : Nat := readPtr mem (entryPtr s k)

def slabIsFree (s : SlabAllocator) (mem : Memory) (k : Nat) : Bool := mem (flagPtr s k) != 0#8

def totalNumSlabs (s : SlabAllocator) : Nat :=
  wrap (s.memSize / s.slabSize * s.slabSize) / sizeofSlab

/-- The inner loop of `slab_alloc`: how many of the next `left` entries are free,
counted up to the first one that is not. -/
def freeRun (free : Nat → Bool) : Nat → Nat → Nat
  | 0, _ => 0
  | left + 1, i => if free i then freeRun free left (i + 1) + 1 else 0

theorem freeRun_le (free : Nat → Bool) (left i : Nat) : freeRun free left i ≤ left := by
  induction left generalizing i with
  | zero => exact le_rfl
  | succ left ih =>
      rw [freeRun]
      split
      · exact Nat.succ_le_succ (ih (i + 1))
      · exact Nat.zero_le _

/-- The outer loop of `slab_alloc`: the entry at which the allocation starts. -/
def allocSearch (free : Nat → Bool) (numSlabs total i : Nat) : Option Nat :=
  if i < total then
    if free i then
      if freeRun free numSlabs i = numSlabs then some i
      else allocSearch free numSlabs total (i + freeRun free numSlabs i + 1)
    else allocSearch free numSlabs total (i + 1)
  else none
termination_by total - i

/-- Store `val` into the `free` flags of `left` entries from `k` on. -/
def setFlags (s : SlabAllocator) (val : BitVec 8) : Nat → Nat → Memory → Memory
  | 0, _, mem => mem
  | left + 1, k, mem => setFlags s val left (k + 1) (writeByte mem (flagPtr s k) val)

def slabAlloc (s : SlabAllocator) (numSlabs : Nat) (mem : Memory) :
    Nat × SlabAllocator × Memory :=
  match allocSearch (slabIsFree s mem) numSlabs (totalNumSlabs s) 0 with
  | some k =>
      (slabAddr s mem k,
        { s with freeMemSize := wrapSub s.freeMemSize (numSlabs * s.slabSize) },
        setFlags s 0#8 numSlabs k mem)
  | none => (0, s, mem)

/-- The search loop of `slab_free`.  Its counter `i` is never increased, so the
loop only ends at an entry with the requested address; the entry pointer is back
at the start of the table after `2^29` steps, hence `none` means that it never
ends. -/
def freeSearch (s : SlabAllocator) (addr : Nat) (mem : Memory) : Nat → Nat → Option Nat
  | 0, _ => none
  | fuel + 1, k => if slabAddr s mem k = addr then some k else freeSearch s addr mem fuel (k + 1)

def allAllocated (free : Nat → Bool) : Nat → Nat → Bool
  | 0, _ => true
  | left + 1, k => if free k then false else allAllocated free left (k + 1)

def slabFree (s : SlabAllocator) (addr numSlabs : Nat) (mem : Memory) :
    Option (Int × SlabAllocator × Memory) :=
  if totalNumSlabs s = 0 then some (-slabFreeFail, s, mem)
  else
    match freeSearch s addr mem (2 ^ 29) 0 with
    | none => none
    | some k =>
        if allAllocated (slabIsFree s mem) numSlabs k then
          some (slabSucc,
            { s with freeMemSize := wrap (s.freeMemSize + numSlabs * s.slabSize) },
            setFlags s 1#8 numSlabs k mem)
        else some (-slabFreeFail, s, mem)

/-- The loop of `slab_init` that writes the table.  After `2^32` steps of a 32-bit
address it has been in every state it can reach, hence `none` means that it
never ends. -/
def initLoop (slabSize limit : Nat) : Nat → Nat → Nat → Memory → Option Memory
  | 0, _, _, _ => none
  | fuel + 1, slab, startingAddr, mem =>
      if startingAddr < limit then
        initLoop slabSize limit fuel (wrap (slab + sizeofSlab)) (wrap (startingAddr + slabSize))
          (writeByte (writePtr mem slab startingAddr) (wrap (slab + 4)) 1#8)
      else some mem

def slabInit (mem memSize slabSize : Nat) (s : SlabAllocator) (m : Memory) :
    Option (Int × SlabAllocator × Memory) :=
  let numSlabs := memSize / slabSize
  if slabSize < sizeofSlab then some (-slabInitFail, s, m)
  else if mem = 0 ∧ memSize < sizeofSlab * numSlabs then some (-slabInitFail, s, m)
  else
    let tableSize := wrap (numSlabs * slabSize) / sizeofSlab
    (initLoop slabSize (wrap (mem + memSize)) (2 ^ 32) mem (wrap (mem + tableSize)) m).map
      fun m' => (slabSucc, ⟨mem, memSize, wrapSub memSize tableSize, slabSize, mem⟩, m')

/-- The counting loop sees a full run exactly when all its entries are free. -/
theorem freeRun_eq_iff (free : Nat → Bool) (left i : Nat) :
    freeRun free left i = left ↔ AllOn (fun k => free k = true) ⟨i, left⟩ := by
  induction left generalizing i with
  | zero =>
      simp only [freeRun, true_iff]
      rintro k ⟨h1, h2⟩
      simp only at h1 h2
      omega
  | succ left ih =>
      rw [freeRun]
      by_cases hfree : free i = true
      · simp only [hfree, ↓reduceIte, Nat.succ_inj, ih]
        constructor
        · rintro hall k ⟨h1, h2⟩
          simp only at h1 h2
          by_cases hk : k = i
          · exact hk ▸ hfree
          · exact hall k ⟨by simp only; omega, by simp only; omega⟩
        · rintro hall k ⟨h1, h2⟩
          simp only at h1 h2
          exact hall k ⟨by simp only; omega, by simp only; omega⟩
      · simp only [hfree]
        constructor
        · simp
        · intro hall
          exact absurd (hall i ⟨le_rfl, by simp only; omega⟩) hfree

/-- A short run ends at an entry that is not free. -/
theorem not_free_at_freeRun {free : Nat → Bool} {left i : Nat}
    (h : freeRun free left i ≠ left) : free (i + freeRun free left i) ≠ true := by
  induction left generalizing i with
  | zero => exact absurd rfl h
  | succ left ih =>
      rw [freeRun] at h ⊢
      by_cases hfree : free i = true
      · simp only [hfree, ↓reduceIte] at h ⊢
        have := ih (i := i + 1) (by omega)
        rwa [show i + 1 + freeRun free left (i + 1) = i + (freeRun free left (i + 1) + 1) by
          omega] at this
      · simp [hfree]

/-- `slab_alloc` finds the first run of free entries that starts below the scan
limit; nothing bounds where the run ends. -/
theorem allocSearch_spec (free : Nat → Bool) {numSlabs : Nat} (total i : Nat)
    (hpos : 0 < numSlabs)
    (hearlier : ∀ c, c < i → ¬ AllOn (fun k => free k = true) ⟨c, numSlabs⟩) :
    match allocSearch free numSlabs total i with
    | some k => k < total ∧ IsFirstFit (fun k => free k = true) 0 (k + numSlabs) numSlabs k
    | none => ∀ c, c < total → ¬ AllOn (fun k => free k = true) ⟨c, numSlabs⟩ := by
  induction i using allocSearch.induct free numSlabs total with
  | case1 i hlt hfree hfull =>
      rw [allocSearch, if_pos hlt, if_pos hfree, if_pos hfull]
      exact ⟨hlt, ⟨Nat.zero_le _, le_rfl, (freeRun_eq_iff _ _ _).mp hfull⟩,
        fun c _ hc => hearlier c hc⟩
  | case2 i hlt hfree hshort ih =>
      rw [allocSearch, if_pos hlt, if_pos hfree, if_neg hshort]
      refine ih fun c hc hall => ?_
      by_cases hci : c < i
      · exact hearlier c hci hall
      · have hle := freeRun_le free numSlabs i
        exact not_free_at_freeRun hshort
          (hall _ ⟨by simp only; omega, by simp only; omega⟩)
  | case3 i hlt hfree ih =>
      rw [allocSearch, if_pos hlt, if_neg hfree]
      refine ih fun c hc hall => ?_
      by_cases hci : c < i
      · exact hearlier c hci hall
      · exact hfree (hall i ⟨by simp only; omega, by simp only; omega⟩)
  | case4 i hlt =>
      rw [allocSearch, if_neg hlt]
      exact fun c hc => hearlier c (by omega)

theorem allAllocated_eq_true_iff (free : Nat → Bool) (left k : Nat) :
    allAllocated free left k = true ↔ AllOn (fun i => ¬ free i = true) ⟨k, left⟩ := by
  induction left generalizing k with
  | zero =>
      simp only [allAllocated, true_iff]
      rintro i ⟨h1, h2⟩
      simp only at h1 h2
      omega
  | succ left ih =>
      rw [allAllocated]
      by_cases hfree : free k = true
      · simp only [hfree, ↓reduceIte, Bool.false_eq_true, false_iff]
        exact fun hall => hall k ⟨le_rfl, by simp only; omega⟩ hfree
      · rw [if_neg hfree, ih]
        constructor
        · rintro hall i ⟨h1, h2⟩
          simp only at h1 h2
          by_cases hi : i = k
          · exact hi ▸ hfree
          · exact hall i ⟨by simp only; omega, by simp only; omega⟩
        · rintro hall i ⟨h1, h2⟩
          simp only at h1 h2
          exact hall i ⟨by simp only; omega, by simp only; omega⟩

end Longhorn.SlabModel
