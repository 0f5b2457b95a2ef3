import Longhorn.HeapSafety
import Longhorn.SlabCalls

/-!
How much memory `kmalloc` and `kcalloc` set aside for a request, and how much of it
`kcalloc` zeroes.
-/

namespace Longhorn.KmallocSizes

open Longhorn.Foundations.ByteMemory
open Longhorn.Foundations.Ranges
open Longhorn.AtomicSpinLock
open Longhorn.PackedBitmap
open Longhorn.SlabModel
open Longhorn.SlabTable
open Longhorn.SlabSafety
open Longhorn.SlabCalls
open Longhorn.KallocModel
open Longhorn.PageMap
open Longhorn.PageSafety
open Longhorn.KmallocRecords
open Longhorn.HeapSafety

/-- The bytes set aside for a request: one page, or a run of slabs. -/
def reservedBytes (st : AllocState) (size : Nat) : Nat :=
  if fallsBack st size then pgSize else numSlabsFor size st.slab.slabSize * st.slab.slabSize

/-- Where they are: `kmalloc` returns the page of `palloc`, or the slabs of `slab_alloc`. -/
def Reserved (st : AllocState) (size q : Nat) (st' : AllocState) : Prop :=
  if fallsBack st size then palloc st = some (q, st')
  else (slabAlloc st.slab (numSlabsFor size st.slab.slabSize) st.mem).1 = q

/-- The sizes for which the number of slabs is rounded up.  The size is divided first, and
the quotient, not the size, is rounded to a multiple of the size of a slab. -/
def RoundsUp (slabSize size : Nat) : Prop :=
  size < slabSize ∨ slabSize ∣ size ∨ ¬ slabSize ∣ size / slabSize

instance (slabSize size : Nat) : Decidable (RoundsUp slabSize size) :=
  inferInstanceAs (Decidable (_ ∨ _))

/-- A request that is given enough: at most a page where `kmalloc` falls back to one, and
a size that is rounded up elsewhere. -/
def EnoughReserved (st : AllocState) (size : Nat) : Prop :=
  if fallsBack st size then size ≤ pgSize else RoundsUp st.slab.slabSize size

instance (st : AllocState) (size : Nat) : Decidable (EnoughReserved st size) :=
  inferInstanceAs (Decidable (ite _ _ _))

section Sizes

variable {slabSize size : Nat}

theorem roundUp_eq {x a : Nat} (ha : 0 < a) (h : x + a ≤ 2 ^ 32) :
    roundUp x a = (x + a - 1) / a * a := by
  have hsub : wrapSub (wrap (x + a)) 1 = x + a - 1 := by
    unfold wrapSub wrap
    omega
  have hle := Nat.div_mul_le_self (x + a - 1) a
  rw [roundUp, hsub, wrap_of_lt (by omega)]

/-- The number of slabs without the 32-bit arithmetic, which does not wrap around here. -/
theorem numSlabsFor_eq (hslab : 0 < slabSize) (hlt : slabSize < 2 ^ 32) (hsize : size < 2 ^ 32) :
    numSlabsFor size slabSize =
      if size / slabSize = 0 then 1
      else (size / slabSize + slabSize - 1) / slabSize * slabSize := by
  have hsum : size / slabSize + slabSize ≤ 2 ^ 32 := by
    rcases Nat.eq_zero_or_pos (size / slabSize) with hzero | hpos
    · omega
    · have hmul := Nat.div_mul_le_self size slabSize
      have hadd := Nat.add_sub_one_le_mul hpos.ne' hslab.ne'
      omega
  rw [numSlabsFor, roundUp_eq hslab hsum]
  rcases Nat.eq_zero_or_pos (size / slabSize) with hzero | hpos
  · rw [if_pos hzero, hzero, Nat.zero_add, Nat.div_eq_of_lt (by omega), Nat.zero_mul, if_pos rfl]
  · have hup : 0 < (size / slabSize + slabSize - 1) / slabSize :=
      Nat.div_pos (by omega) hslab
    rw [if_neg (Nat.mul_pos hup hslab).ne', if_neg hpos.ne']

/-- Rounding up to a multiple of `a`, for a number that is one and for one that is not. -/
theorem roundUp_of_dvd {q a : Nat} (ha : 0 < a) (h : a ∣ q) : (q + a - 1) / a * a = q := by
  obtain ⟨c, rfl⟩ := h
  rw [Nat.add_sub_assoc ha, Nat.mul_add_div ha, Nat.div_eq_of_lt (by omega), Nat.add_zero,
    Nat.mul_comm]

theorem lt_roundUp_of_not_dvd {q a : Nat} (ha : 0 < a) (h : ¬ a ∣ q) : q < (q + a - 1) / a * a := by
  have hmod : 0 < q % a := Nat.pos_of_ne_zero fun hzero => h (Nat.dvd_of_mod_eq_zero hzero)
  have hdiv := Nat.div_add_mod q a
  have hlt := Nat.mod_lt q ha
  have hle : q / a + 1 ≤ (q + a - 1) / a := by
    rw [Nat.le_div_iff_mul_le ha, Nat.add_mul, Nat.one_mul, Nat.mul_comm]
    omega
  calc q < (q / a + 1) * a := by rw [Nat.add_mul, Nat.one_mul, Nat.mul_comm]; omega
    _ ≤ (q + a - 1) / a * a := Nat.mul_le_mul_right a hle

/-- The slabs are enough exactly for the sizes that are rounded up. -/
theorem size_le_slabs_iff (hslab : 0 < slabSize) (hlt : slabSize < 2 ^ 32) (hsize : size < 2 ^ 32) :
    size ≤ numSlabsFor size slabSize * slabSize ↔ RoundsUp slabSize size := by
  rw [numSlabsFor_eq hslab hlt hsize, RoundsUp]
  have hdiv := Nat.div_add_mod size slabSize
  have hmod := Nat.mod_lt size hslab
  rw [Nat.mul_comm] at hdiv
  by_cases hzero : size / slabSize = 0
  · rw [if_pos hzero]
    have hsmall := (Nat.div_eq_zero_iff_lt hslab).mp hzero
    omega
  have hlarge : ¬ size < slabSize := fun h => hzero (Nat.div_eq_of_lt h)
  rw [if_neg hzero]
  by_cases hdvd : slabSize ∣ size / slabSize
  · rw [roundUp_of_dvd hslab hdvd]
    constructor
    · intro hle
      exact Or.inr (Or.inl (Nat.dvd_of_mod_eq_zero (by omega)))
    · rintro (hsmall | hmul | hnot)
      · exact absurd hsmall hlarge
      · rw [Nat.div_mul_cancel hmul]
      · exact absurd hdvd hnot
  · have hup := lt_roundUp_of_not_dvd hslab hdvd
    have hle := Nat.mul_le_mul_right slabSize hup
    rw [Nat.succ_mul] at hle
    exact ⟨fun _ => Or.inr (Or.inr hdvd), fun _ => by omega⟩

end Sizes

section Kmalloc

variable {list size q : Nat} {st st' : AllocState}

/-- Only a call that finds the lock free returns an address. -/
theorem kmalloc_lock_free (h : kmalloc list size st = some (q, st')) (hq : q ≠ 0) :
    st.mallocLock.val = 0 := by
  by_contra hlock
  by_cases hone : st.mallocLock.val = 1
  · simp [kmalloc, spinLockAcquire, testAndSet, hone] at h
  · simp [kmalloc, spinLockAcquire, hlock, hone, lockAcqFail, lockAcqSucc] at h
    exact hq h.1.symm

/-- What an address returned by `kmalloc` is the address of. -/
theorem kmalloc_reserved (h : kmalloc list size st = some (q, st')) (hq : q ≠ 0) :
    Reserved st size q st' := by
  have hlock := kmalloc_lock_free h hq
  unfold Reserved
  split
  · next hfall => rwa [kmalloc_of_fallsBack hlock hfall] at h
  · next hfall =>
      rcases hregion : slabAlloc st.slab (numSlabsFor size st.slab.slabSize) st.mem with ⟨r, s, mem⟩
      rcases hrecord : slabAlloc s (numSlabsFor sizeofAllocation st.slab.slabSize) mem with
        ⟨a, s', mem'⟩
      by_cases hr : r = 0
      · rw [hr] at hregion
        rw [kmalloc_of_no_region hlock hfall hregion, Option.some_inj, Prod.mk.injEq] at h
        exact absurd h.1.symm hq
      by_cases ha : a = 0
      · rw [ha] at hrecord
        rw [kmalloc_of_no_record hlock hfall hr hregion hrecord, Option.map_eq_some_iff] at h
        obtain ⟨_, _, heq⟩ := h
        exact absurd (Prod.mk.inj heq).1.symm hq
      · rw [kmalloc_of_record hlock hfall hr ha hregion hrecord, Option.some_inj,
          Prod.mk.injEq] at h
        exact h.1

/-- What is set aside is at least as long as the request exactly for the requests that
`EnoughReserved` describes. -/
theorem kmalloc_reserves_enough_iff (hslab : sizeofSlab ≤ st.slab.slabSize)
    (hlt : st.slab.slabSize < 2 ^ 32) (hsize : size < 2 ^ 32)
    (h : kmalloc list size st = some (q, st')) (hq : q ≠ 0) :
    Reserved st size q st' ∧ (size ≤ reservedBytes st size ↔ EnoughReserved st size) := by
  refine ⟨kmalloc_reserved h hq, ?_⟩
  unfold reservedBytes EnoughReserved
  split
  · exact Iff.rfl
  · exact size_le_slabs_iff (Nat.lt_of_lt_of_le (by decide) hslab) hlt hsize

/-- A request of 100 bytes to the pool that has just been set up. -/
theorem kmalloc_reserves_enough_iff_pool : ∃ st q st', kmalloc 1048576 100 st = some (q, st') ∧
    q ≠ 0 ∧ Reserved st 100 q st' ∧ (100 ≤ reservedBytes st 100 ↔ EnoughReserved st 100) := by
  have hboot := boots_zeroed (show startAddr ≤ 4140 * 1024 by decide) (by decide) (by decide)
  have hlist : InImage 1048576 := by decide
  obtain ⟨t, hinit⟩ := exists_heapInit hboot hlist
  have hslab := (hinit.inv hboot hlist).poolRecords.slabSize_eq
  obtain ⟨st', _, heq, _⟩ := hinit.kmalloc hboot hlist 100 (by decide) (by decide)
  have hq := poolSlot_ne_zero t.st.slab.mem 0
  exact ⟨t.st, _, st', heq, hq, kmalloc_reserves_enough_iff (by rw [hslab]; decide)
    (by rw [hslab]; decide) (by decide) heq hq⟩

/-- For 4097 bytes `kmalloc` sets 64 slabs aside, which are 4096 bytes. -/
theorem not_kmalloc_reserves_enough : ¬ ∀ (list size q : Nat) (st st' : AllocState),
    st.slab.slabSize = poolSlabSize → size < 2 ^ 32 → kmalloc list size st = some (q, st') →
    q ≠ 0 → size ≤ reservedBytes st size := by
  intro hclaim
  have hboot := boots_zeroed (show startAddr ≤ 4140 * 1024 by decide) (by decide) (by decide)
  have hlist : InImage 1048576 := by decide
  obtain ⟨t, hinit⟩ := exists_heapInit hboot hlist
  have hslab := (hinit.inv hboot hlist).poolRecords.slabSize_eq
  have hfall := hinit.not_fallsBack hboot hlist (show roundUp 4097 poolSlabSize ≤ _ by decide)
  obtain ⟨st', _, heq, _⟩ := hinit.kmalloc hboot hlist 4097 (by decide) (by decide)
  have hle := hclaim _ _ _ _ st' hslab (by decide) heq (poolSlot_ne_zero _ _)
  rw [reservedBytes, if_neg hfall, hslab] at hle
  exact absurd hle (by decide)

end Kmalloc

section Kcalloc

/-- For any contents of the memory, what `kcalloc` returns is long enough, zero up to the
length that was asked for, and `kcalloc` stores nothing outside of it.  The address is one
that 64-bit words can be stored at. -/
def KcallocZeroes (num size : Nat) : Prop :=
  ∀ (list q : Nat) (st st' : AllocState), st.slab.slabSize = poolSlabSize →
    kcalloc list num size st = some (q, st') → q ≠ 0 → q % 8 = 0 →
    num * size ≤ reservedBytes st (wrap (num * size)) ∧
      (∀ i, i < num * size → st'.mem (wrap (q + i)) = 0#8) ∧
      ∃ st1, kmalloc list (wrap (num * size)) st = some (q, st1) ∧
        ∀ a, (∀ i, i < reservedBytes st (wrap (num * size)) → a ≠ wrap (q + i)) →
          st'.mem a = st1.mem a

theorem writePtr_zero {a c : Nat} (h1 : a ≤ c) (h2 : c < a + 4) (mem : Memory) :
    writePtr mem a 0 c = 0#8 := by
  obtain rfl | rfl | rfl | rfl : c = a ∨ c = a + 1 ∨ c = a + 2 ∨ c = a + 3 := by omega
  all_goals simp [writePtr, writeWord, writeByte, Function.update]

/-- The two halves of a 64-bit word. -/
theorem wrap_add_four {addr : Nat} (haddr : addr % 8 = 0) (i : Nat) :
    wrap (addr + 8 * i + 4) = wrap (addr + 8 * i) + 4 := by
  unfold wrap
  omega

/-- The loop of `kcalloc` changes no byte outside the 64-bit words that it counts. -/
theorem zeroLoop_of_ne {addr left i c : Nat} (haddr : addr % 8 = 0)
    (h : ∀ j, i ≤ j → j < i + left → c / 8 * 8 ≠ wrap (addr + 8 * j)) (mem : Memory) :
    zeroLoop addr left i mem c = mem c := by
  induction left generalizing i mem with
  | zero => rfl
  | succ left ih =>
      have hthis := h i le_rfl (by omega)
      have hword : wrap (addr + 8 * i) % 8 = 0 := by
        unfold wrap
        omega
      rw [zeroLoop, ih fun j h1 h2 => h j (by omega) (by omega), wrap_add_four haddr,
        writePtr_of_outside (by omega), writePtr_of_outside (by omega)]

/-- It stores zeros into them. -/
theorem zeroLoop_word {addr left i j c : Nat} (haddr : addr % 8 = 0) (h1 : i ≤ j)
    (h2 : j < i + left) (hc : c / 8 * 8 = wrap (addr + 8 * j)) (mem : Memory) :
    zeroLoop addr left i mem c = 0#8 := by
  induction left generalizing i j mem with
  | zero => omega
  | succ left ih =>
      rw [zeroLoop]
      by_cases hlater : ∃ k, i + 1 ≤ k ∧ k < i + 1 + left ∧ c / 8 * 8 = wrap (addr + 8 * k)
      · obtain ⟨k, hk1, hk2, heq⟩ := hlater
        exact ih hk1 hk2 heq _
      · have hj : j = i := by
          by_contra hne
          exact hlater ⟨j, by omega, by omega, hc⟩
        rw [hj] at hc
        rw [zeroLoop_of_ne haddr fun k hk1 hk2 heq => hlater ⟨k, hk1, hk2, heq⟩,
          wrap_add_four haddr]
        by_cases hlow : c < wrap (addr + 8 * i) + 4
        · rw [writePtr_of_outside (Or.inl hlow), writePtr_zero (by omega) hlow]
        · exact writePtr_zero (by omega) (by omega) _

/-- What `kcalloc` returns is what `kmalloc` returns, and the memory differs by the zeros. -/
theorem kmalloc_of_kcalloc {list num size q : Nat} {st st' : AllocState} (hq : q ≠ 0)
    (h : kcalloc list num size st = some (q, st')) :
    ∃ st1, kmalloc list (wrap (num * size)) st = some (q, st1) ∧
      st'.mem = zeroLoop q (roundUp (wrap (num * size) / poolSlabSize) poolSlabSize) 0 st1.mem := by
  rcases hkmalloc : kmalloc list (wrap (num * size)) st with _ | ⟨r, st1⟩
  · simp [kcalloc, hkmalloc] at h
  by_cases hr : r = 0
  · simp only [kcalloc, hkmalloc, hr, ↓reduceIte, Option.some.injEq, Prod.mk.injEq] at h
    exact absurd h.1.symm hq
  · rw [kcalloc_of_kmalloc hr hkmalloc, Option.some_inj, Prod.mk.injEq] at h
    obtain ⟨rfl, rfl⟩ := h
    exact ⟨st1, rfl, rfl⟩

/-- Between 64 and 512 bytes, and for none, `kcalloc` does what it should. -/
theorem kcallocZeroes_of_small {num size : Nat}
    (h : num * size = 0 ∨ 64 ≤ num * size ∧ num * size ≤ 512) : KcallocZeroes num size := by
  intro list q st st' hslab heq hq halign
  obtain ⟨st1, hkmalloc, hmem⟩ := kmalloc_of_kcalloc hq heq
  rw [hmem]
  rcases h with hzero | ⟨hlo, hhi⟩
  · rw [hzero]
    exact ⟨Nat.zero_le _, fun i hi => absurd hi (Nat.not_lt_zero i), st1, hzero ▸ hkmalloc,
      fun _ _ => rfl⟩
  have hwrap : wrap (num * size) = num * size := wrap_of_lt (by omega)
  have hloop : roundUp (num * size / poolSlabSize) poolSlabSize = 64 := by
    rw [roundUp_eq (by decide) (by unfold poolSlabSize; omega)]
    unfold poolSlabSize
    omega
  have hreserved : reservedBytes st (num * size) = 4096 := by
    unfold reservedBytes
    split
    · rfl
    · rw [hslab, numSlabsFor, hloop]
      rfl
  rw [hwrap] at hkmalloc ⊢
  rw [hloop, hreserved]
  refine ⟨by omega, fun i hi => ?_, st1, hkmalloc, fun a ha => ?_⟩
  · refine zeroLoop_word (j := i / 8) halign (Nat.zero_le _) (by omega) ?_ _
    unfold wrap
    omega
  · refine zeroLoop_of_ne halign (fun j _ hj hword => ?_) _
    refine ha (8 * j + a % 8) (by omega) ?_
    unfold wrap at *
    omega

/-- One free page, full of ones, and no free slabs. -/
def dirtyPage : AllocState :=
  ⟨⟨startAddr, 2⟩, spinLockInit, spinLockInit, ⟨0, 0, 0, poolSlabSize, 0⟩,
    writePtr (fun _ => 1#8) startAddr 1⟩

/-- `kcalloc` gets the dirty page unless the rounded size is zero. -/
theorem kcalloc_dirtyPage {num size : Nat} (hup : 0 < roundUp (wrap (num * size)) poolSlabSize)
    (list : Nat) :
    ∃ st', kcalloc list num size dirtyPage = some (pageAddr 1, st') ∧
      reservedBytes dirtyPage (wrap (num * size)) = 4096 ∧
      ∀ i, 8 * roundUp (wrap (num * size) / poolSlabSize) poolSlabSize ≤ i → i < 4096 →
        st'.mem (wrap (pageAddr 1 + i)) = 1#8 := by
  have hfall : fallsBack dirtyPage (wrap (num * size)) := hup
  have hfits : Fits 2 := ⟨by decide, by decide⟩
  have hfree : bitmapTest dirtyPage.freeMap 1 dirtyPage.mem = false := by decide
  have hused : bitmapTest dirtyPage.freeMap 0 dirtyPage.mem = true := by decide
  have halloc : pallocMult 1 dirtyPage = some (pageAddr 1, setPages dirtyPage 1 1 true) := by
    rcases pallocMult_spec hfits (rfl : dirtyPage.freeMap = _) rfl Nat.one_pos with
      ⟨k, hfirst, heq⟩ | ⟨hnone, _⟩
    · have hend := hfirst.1.2.1
      have hk : k ≠ 0 := by
        rintro rfl
        have hzero : bitmapTest dirtyPage.freeMap 0 dirtyPage.mem = false :=
          hfirst.1.2.2 0 ⟨le_rfl, Nat.one_pos⟩
        rw [hused] at hzero
        exact absurd hzero (by decide)
      obtain rfl : k = 1 := by omega
      exact heq
    · refine absurd ⟨1, Nat.zero_le 1, le_rfl, fun i hi => ?_⟩ hnone
      obtain ⟨h1, h2⟩ := hi
      obtain rfl : i = 1 := by
        simp only at h1 h2
        omega
      exact hfree
  have hkmalloc : kmalloc list (wrap (num * size)) dirtyPage = _ :=
    (kmalloc_of_fallsBack rfl hfall).trans halloc
  refine ⟨_, kcalloc_of_kmalloc (pageAddr_ne_zero 1) hkmalloc, ?_, ?_⟩
  · rw [reservedBytes, if_pos hfall]
    rfl
  · intro i hlo hhi
    have haddr : pageAddr 1 = 4198400 := rfl
    have hwrap : wrap (pageAddr 1 + i) = pageAddr 1 + i := wrap_of_lt (by omega)
    have hout : ¬ MapByte 2 (pageAddr 1 + i) := by
      unfold MapByte startAddr
      omega
    simp only
    rw [hwrap, zeroLoop_of_ne (by rw [haddr]), setPages_of_outside hfits rfl (by decide) hout]
    · exact writePtr_of_outside (by unfold startAddr; omega) _ _
    · intro j _ hj hword
      unfold wrap at hword
      omega

/-- All bytes are 8, except for the flag of the second entry of a table at 0. -/
def openMemory : Memory := writeByte (fun _ => 8#8) 12 0#8

/-- A table without an end in this memory. -/
def openTable : AllocState :=
  ⟨⟨startAddr, 0⟩, spinLockInit, spinLockInit, ⟨0, 2 ^ 31, 0, poolSlabSize, 0⟩, openMemory⟩

theorem openMemory_of_ne {c : Nat} (hc : c ≠ 12) : openMemory c = 8#8 :=
  writeByte_of_ne hc _ _

theorem readPtr_eights {mem : Memory} {a : Nat} (h : ∀ c, a ≤ c → c < a + 4 → mem c = 8#8) :
    readPtr mem a = 134744072 := by
  have hcongr : readPtr mem a = readPtr (fun _ => 8#8) a := readPtr_congr h
  rw [hcongr, readPtr, readWord]
  decide

theorem flagPtr_openTable {k : Nat} (hk : k < 2 ^ 29) :
    flagPtr openTable.slab k = 8 * k + 4 := by
  unfold flagPtr wrap sizeofSlab
  change (0 + 8 * k + 4) % 2 ^ 32 = 8 * k + 4
  omega

theorem slabIsFree_openTable {k : Nat} (hk : k < 2 ^ 29) (hne : k ≠ 1) :
    slabIsFree openTable.slab openTable.mem k = true := by
  rw [slabIsFree, flagPtr_openTable hk]
  change (openMemory (8 * k + 4) != 0#8) = true
  rw [openMemory_of_ne (by omega)]
  decide

theorem slabAddr_openTable {k : Nat} (hk : k < 2 ^ 29) :
    slabAddr openTable.slab openTable.mem k = 134744072 := by
  have hentry : entryPtr openTable.slab k = 8 * k := by
    unfold entryPtr wrap sizeofSlab
    change (0 + 8 * k) % 2 ^ 32 = 8 * k
    omega
  rw [slabAddr, hentry]
  exact readPtr_eights fun c h1 h2 => openMemory_of_ne (by omega)

/-- A run of any length up to `2^26` entries is found, and an entry for the record behind
it. -/
theorem kmalloc_openTable {size : Nat} (hsize : size < 2 ^ 32)
    (hup : roundUp size poolSlabSize = 0) :
    ∃ st', kmalloc 1048576 size openTable = some (134744072, st') ∧
      st'.mem 671614984 = 8#8 := by
  have hfall : ¬ fallsBack openTable size := by
    rw [fallsBack]
    change ¬ roundUp size poolSlabSize > 0
    omega
  have hpos := numSlabsFor_pos size poolSlabSize
  have hcount : numSlabsFor size poolSlabSize ≤ 2 ^ 26 := by
    unfold numSlabsFor roundUp poolSlabSize wrapSub wrap
    split <;> omega
  have htotal : totalNumSlabs openTable.slab = 2 ^ 28 := by decide
  have hrun : AllOn (fun i => slabIsFree openTable.slab openTable.mem i = true)
      ⟨2, numSlabsFor size poolSlabSize⟩ := by
    rintro i ⟨h1, h2⟩
    simp only at h1 h2
    exact slabIsFree_openTable (by omega) (by omega)
  rcases slabAlloc_cases openTable.slab openTable.mem hpos with
    ⟨k, hk, hfirst, hregion⟩ | ⟨hnone, _⟩
  swap
  · exact absurd hrun (hnone 2 (by rw [htotal]; decide))
  have hend := (hfirst.of_hasFit ⟨2, Nat.zero_le 2, le_rfl, hrun⟩).1.2.1
  rw [slabAddr_openTable (by omega)] at hregion
  obtain ⟨f, hf⟩ : ∃ f, wrapSub openTable.slab.freeMemSize
      (numSlabsFor size poolSlabSize * openTable.slab.slabSize) = f := ⟨_, rfl⟩
  rw [hf] at hregion
  generalize hmem : setFlags openTable.slab 0#8 (numSlabsFor size poolSlabSize) k openTable.mem =
    mem at hregion
  have hone : numSlabsFor sizeofAllocation openTable.slab.slabSize = 1 := by decide
  have hcases := slabAlloc_cases { openTable.slab with freeMemSize := f } mem Nat.one_pos
  simp only [slabIsFree_withFreeMem, slabAddr_withFreeMem, totalNumSlabs_withFreeMem,
    setFlags_withFreeMem, htotal] at hcases
  rcases hcases with ⟨l, hl, _, hrecord⟩ | ⟨hnone, _⟩
  swap
  · -- the entry `2 ^ 27` lies behind the run
    refine absurd ?_ (hnone (2 ^ 27) (by decide))
    rintro i ⟨h1, h2⟩
    simp only at h1 h2
    rw [← hmem, slabIsFree_setFlags_of_lt (by omega) (by omega), if_neg]
    · exact slabIsFree_openTable (by omega) (by omega)
    · rintro ⟨_, h⟩
      simp only at h
      omega
  have haddr : slabAddr openTable.slab mem l = 134744072 := by
    rw [← hmem, slabAddr_setFlags, slabAddr_openTable (by omega)]
  rw [haddr, ← hone] at hrecord
  refine ⟨_, kmalloc_of_record rfl hfall (by decide) (by decide) hregion hrecord, ?_⟩
  -- no flag is stored in the lower half of an entry
  have hlow : ∀ c, c % 8 < 4 →
      setFlags openTable.slab 0#8 (numSlabsFor sizeofAllocation openTable.slab.slabSize) l mem c =
        8#8 := by
    intro c hc
    have hne : ∀ j, c ≠ flagPtr openTable.slab j := by
      intro j
      unfold flagPtr wrap sizeofSlab
      change c ≠ (0 + 8 * j + 4) % 2 ^ 32
      omega
    rw [setFlags_of_ne fun j _ _ => hne j, ← hmem, setFlags_of_ne fun j _ _ => hne j]
    exact openMemory_of_ne (by omega)
  have hhead := readPtr_eights (a := 1048576) fun c h1 h2 => hlow c (by omega)
  have hroom : RecordRoom 1048576 134744072 134744072 := by
    constructor <;> decide
  simp only
  rw [recordAllocation_of_outside hroom hhead, hlow _ (by decide)]
  unfold RecordWrite sizeofAllocation
  omega

/-- Where the rounded size of a request is zero. -/
theorem slabs_of_roundUp_zero {n : Nat} (hn : n < 2 ^ 32) (hup : roundUp n poolSlabSize = 0) :
    n = 0 ∧ numSlabsFor n poolSlabSize = 1 ∨
      2 ^ 32 - 64 < n ∧ roundUp (n / poolSlabSize) poolSlabSize = 2 ^ 26 ∧
        numSlabsFor n poolSlabSize = 2 ^ 26 := by
  have hcases : n = 0 ∨ 2 ^ 32 - 64 < n := by
    unfold roundUp poolSlabSize wrapSub wrap at hup
    omega
  rcases hcases with rfl | hlt
  · exact Or.inl ⟨rfl, by decide⟩
  · have hdiv : n / poolSlabSize = 2 ^ 26 - 1 := by
      unfold poolSlabSize
      omega
    have hround : roundUp (n / poolSlabSize) poolSlabSize = 2 ^ 26 := by
      rw [hdiv]
      decide
    refine Or.inr ⟨hlt, hround, ?_⟩
    rw [numSlabsFor, hround, if_neg (by decide)]

/-- The words that `kcalloc` zeroes for a request of at most a page. -/
theorem zeroedWords_of_le_page {n : Nat} (hn : n ≤ 4096) :
    n < 64 ∧ roundUp (n / poolSlabSize) poolSlabSize = 0 ∨
      64 ≤ n ∧ roundUp (n / poolSlabSize) poolSlabSize = 64 := by
  unfold roundUp poolSlabSize wrapSub wrap
  omega

/-- `kcalloc` does what it should exactly for these products. -/
theorem kcalloc_zeroes_iff {num size : Nat} :
    KcallocZeroes num size ↔ num * size = 0 ∨ 64 ≤ num * size ∧ num * size ≤ 512 := by
  refine ⟨fun h => ?_, kcallocZeroes_of_small⟩
  by_contra hnot
  have hwrap : wrap (num * size) < 2 ^ 32 := Nat.mod_lt _ (by decide)
  have hmod : num * size = wrap (num * size) ∨ 2 ^ 32 + wrap (num * size) ≤ num * size := by
    unfold wrap
    omega
  rcases Nat.eq_zero_or_pos (roundUp (wrap (num * size)) poolSlabSize) with hup | hup
  · -- the rounded size is zero: `slab_alloc` is asked for one slab or for `2 ^ 26`
    obtain ⟨st1, hkmalloc, hbyte⟩ := kmalloc_openTable hwrap hup
    obtain ⟨henough, hzero, _⟩ := h _ _ _ _ rfl (kcalloc_of_kmalloc (by decide) hkmalloc)
      (by decide) (by decide)
    have hfall : ¬ fallsBack openTable (wrap (num * size)) := by
      rw [fallsBack]
      change ¬ roundUp _ poolSlabSize > 0
      omega
    rw [reservedBytes, if_neg hfall] at henough
    change num * size ≤ numSlabsFor (wrap (num * size)) poolSlabSize * poolSlabSize at henough
    rcases slabs_of_roundUp_zero hwrap hup with ⟨hn, hslabs⟩ | ⟨hn, hloop, hslabs⟩
    · rw [hslabs] at henough
      unfold poolSlabSize at henough
      omega
    · -- the byte behind the `2 ^ 29` that are zeroed
      rw [hslabs] at henough
      unfold poolSlabSize at henough
      have hbyte' := hzero (2 ^ 29) (by omega)
      simp only [hloop] at hbyte'
      have haddr : wrap (134744072 + 2 ^ 29) = 671614984 := by decide
      rw [haddr, zeroLoop_of_ne (by decide), hbyte] at hbyte'
      · exact absurd hbyte' (by decide)
      · intro j _ hj hword
        unfold wrap at hword
        omega
  · obtain ⟨st', heq, hreserved, hbytes⟩ := kcalloc_dirtyPage hup 1048576
    obtain ⟨henough, hzero, _⟩ := h _ _ _ _ rfl heq (pageAddr_ne_zero 1) (by decide)
    rw [hreserved] at henough
    have hsmall : num * size = wrap (num * size) := by omega
    -- the first byte behind the zeros
    rcases zeroedWords_of_le_page (hsmall ▸ henough) with ⟨hlt, hloop⟩ | ⟨hge, hloop⟩
    · have hbyte := hbytes 0 (by omega) (by omega)
      rw [hzero 0 (by omega)] at hbyte
      exact absurd hbyte (by decide)
    · have hbyte := hbytes 512 (by omega) (by omega)
      rw [hzero 512 (by omega)] at hbyte
      exact absurd hbyte (by decide)

/-- Four bytes of a dirty page are not zeroed at all. -/
theorem not_kcalloc_zeroes : ¬ ∀ num size : Nat, num < 2 ^ 32 → size < 2 ^ 32 →
    KcallocZeroes num size := by
  intro hclaim
  obtain ⟨st', heq, _, hbytes⟩ := kcalloc_dirtyPage (show 0 < roundUp (wrap (1 * 4)) poolSlabSize by
    decide) 1048576
  obtain ⟨_, hzero, _⟩ := hclaim 1 4 (by decide) (by decide) _ _ _ _ rfl heq (pageAddr_ne_zero 1)
    (by decide)
  have hbyte := hbytes 0 (by decide) (by decide)
  rw [hzero 0 (by decide)] at hbyte
  exact absurd hbyte (by decide)

end Kcalloc

end Longhorn.KmallocSizes
