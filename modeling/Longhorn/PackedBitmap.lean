import Longhorn.Foundations.ByteMemory
import Longhorn.Foundations.Ranges

/-!
The bitmap of `libk/bitmap.c`: an array of 32-bit words in memory, one bit for
each index.  Sizes are `size_t`, so the end of a range is computed modulo `2^32`.
-/

namespace Longhorn.PackedBitmap

open Longhorn.Foundations.ByteMemory
open Longhorn.Foundations.Ranges

/-- `struct bitmap`. -/
structure Bitmap where
  mapP : Nat
  bits : Nat
  deriving DecidableEq

def bitMask (idx : Nat) : Word := 1#32 <<< (idx % 32)

def elemIdx (mapIdx : Nat) : Nat := mapIdx / 32

/-- `num_elems`, in the arithmetic of `size_t`. -/
def numElems (numBits : Nat) : Nat :=
  wrap (numBits + wrapSub numBits (numBits % 32)) / 32

/-- The address of `m->map_p[elem_idx(idx)]`. -/
def elemAddr (m : Bitmap) (idx : Nat) : Nat := m.mapP + 4 * elemIdx idx

def bitmapInitS (bits mapP : Nat) : Bitmap := ⟨mapP, bits⟩

def bitmapGetSize (m : Bitmap) : Nat := m.bits

def bitmapSet (m : Bitmap) (idx : Nat) (mem : Memory) : Memory :=
  writeWord mem (elemAddr m idx) (readWord mem (elemAddr m idx) ||| bitMask idx)

def bitmapReset (m : Bitmap) (idx : Nat) (mem : Memory) : Memory :=
  writeWord mem (elemAddr m idx) (readWord mem (elemAddr m idx) &&& ~~~ bitMask idx)

def bitmapTest (m : Bitmap) (idx : Nat) (mem : Memory) : Bool :=
  (readWord mem (elemAddr m idx) &&& bitMask idx) != 0#32

def bitmapSetVal (m : Bitmap) (idx : Nat) (val : Bool) (mem : Memory) : Memory :=
  if val then bitmapSet m idx mem else bitmapReset m idx mem

/-- The body of `bitmap_set_all`, with the number of iterations left.  Next to the
memory it keeps the indices of the words stored so far, the last one first. -/
def setAllLoop (m : Bitmap) (newVal : Word) : Nat → Nat → Memory × List Nat → Memory × List Nat
  | 0, _, r => r
  | left + 1, i, (mem, stored) =>
      setAllLoop m newVal left (i + 1) (writeWord mem (m.mapP + 4 * i) newVal, i :: stored)

def bitmapSetAll (m : Bitmap) (val : Bool) (mem : Memory) : Memory × List Nat :=
  let newVal : Word := if val then ~~~ 0#32 else 0#32
  setAllLoop m newVal (numElems m.bits) 0 (mem, [])

/-- The body of `bitmap_set_range`, with the number of iterations left. -/
def setRangeLoop (m : Bitmap) (val : Bool) : Nat → Nat → Memory → Memory
  | 0, _, mem => mem
  | left + 1, i, mem => setRangeLoop m val left (i + 1) (bitmapSetVal m i val mem)

/-- The value returned is the loop index at its end, as in the source. -/
def bitmapSetRange (m : Bitmap) (start len : Nat) (val : Bool) (mem : Memory) : Memory × Nat :=
  let stop := wrap (start + len)
  (setRangeLoop m val (stop - start) start mem, max start stop)

def countRangeLoop (m : Bitmap) (mem : Memory) : Nat → Nat → Nat → Nat
  | 0, _, cnt => cnt
  | left + 1, i, cnt =>
      countRangeLoop m mem left (i + 1) (if bitmapTest m i mem then cnt + 1 else cnt)

def bitmapCountRange (m : Bitmap) (start len : Nat) (mem : Memory) : Nat :=
  countRangeLoop m mem (wrap (start + len) - start) start 0

/-- The body of `bitmap_find_range`: `cnt` bits equal to `val` have been seen
since `begin`.  The result is `none` when the loop ends without returning. -/
def findRangeLoop (m : Bitmap) (count : Nat) (val : Bool) (mem : Memory) :
    Nat → Nat → Nat → Nat → Option Nat
  | 0, _, _, _ => none
  | left + 1, i, cnt, begin =>
      let cnt' := if bitmapTest m i mem = val then cnt + 1 else 0
      let begin' := if bitmapTest m i mem = val then begin else i + 1
      if cnt' = count then some begin'
      else findRangeLoop m count val mem left (i + 1) cnt' begin'

def bitmapFindRange (m : Bitmap) (start len count : Nat) (val : Bool) (mem : Memory) : Nat :=
  (findRangeLoop m count val mem (wrap (start + len) - start) start 0 start).getD
    (wrap (m.bits + 1))

theorem getLsbD_bitMask (idx i : Nat) :
    (bitMask idx).getLsbD i = decide (i = idx % 32) := by
  have hlt : idx % 32 < 32 := Nat.mod_lt _ (by decide)
  simp only [bitMask, BitVec.getLsbD_shiftLeft, BitVec.getLsbD_one]
  grind

theorem and_bitMask_ne_zero (w : Word) (idx : Nat) :
    ((w &&& bitMask idx) != 0#32) = w.getLsbD (idx % 32) := by
  have hlt : idx % 32 < 32 := Nat.mod_lt _ (by decide)
  rw [Bool.eq_iff_iff]
  constructor
  · intro h
    by_contra hbit
    refine (bne_iff_ne.mp h) (BitVec.eq_of_getLsbD_eq fun i hi => ?_)
    simp only [BitVec.getLsbD_and, getLsbD_bitMask, BitVec.getLsbD_zero]
    by_cases hidx : i = idx % 32
    · simpa [hidx] using hbit
    · simp [hidx]
  · intro hbit
    refine bne_iff_ne.mpr fun hzero => ?_
    have := congrArg (fun v => v.getLsbD (idx % 32)) hzero
    simp [getLsbD_bitMask, hbit] at this

theorem bitmapTest_eq_getLsbD (m : Bitmap) (idx : Nat) (mem : Memory) :
    bitmapTest m idx mem = (readWord mem (elemAddr m idx)).getLsbD (idx % 32) :=
  and_bitMask_ne_zero _ _

/-- Two bits in different words do not share bytes. -/
theorem elemAddr_disjoint (m : Bitmap) {i j : Nat} (h : elemIdx i ≠ elemIdx j) :
    elemAddr m j + 4 ≤ elemAddr m i ∨ elemAddr m i + 4 ≤ elemAddr m j := by
  unfold elemAddr
  omega

/-- Writing one word changes the bits of that word only. -/
theorem bitmapTest_writeWord (m : Bitmap) (i j : Nat) (w : Word) (mem : Memory) :
    bitmapTest m j (writeWord mem (elemAddr m i) w) =
      if elemIdx i = elemIdx j then w.getLsbD (j % 32) else bitmapTest m j mem := by
  rw [bitmapTest_eq_getLsbD, bitmapTest_eq_getLsbD]
  split
  · rename_i heq
    rw [elemAddr, elemAddr, heq, readWord_writeWord_same]
  · rename_i hne
    rw [readWord_writeWord_of_disjoint (elemAddr_disjoint m hne)]

theorem getLsbD_or_bitMask (w : Word) (i k : Nat) :
    (w ||| bitMask i).getLsbD k = (w.getLsbD k || decide (k = i % 32)) := by
  rw [BitVec.getLsbD_or, getLsbD_bitMask]

theorem getLsbD_and_not_bitMask (w : Word) (i : Nat) {k : Nat} (hk : k < 32) :
    (w &&& ~~~ bitMask i).getLsbD k = (w.getLsbD k && !decide (k = i % 32)) := by
  rw [BitVec.getLsbD_and, BitVec.getLsbD_not, getLsbD_bitMask]
  simp [hk]

/-- One update of the packed map is one update of the array of bits. -/
theorem bitmapTest_bitmapSetVal (m : Bitmap) (i j : Nat) (val : Bool) (mem : Memory) :
    bitmapTest m j (bitmapSetVal m i val mem) = if j = i then val else bitmapTest m j mem := by
  have hk : j % 32 < 32 := Nat.mod_lt j (by decide)
  have hword : bitmapTest m j (bitmapSetVal m i val mem) =
      if elemIdx i = elemIdx j then
        if j % 32 = i % 32 then val else (readWord mem (elemAddr m i)).getLsbD (j % 32)
      else bitmapTest m j mem := by
    cases val
    · rw [bitmapSetVal, if_neg (by decide), bitmapReset, bitmapTest_writeWord,
        getLsbD_and_not_bitMask _ _ hk]
      grind
    · rw [bitmapSetVal, if_pos rfl, bitmapSet, bitmapTest_writeWord, getLsbD_or_bitMask]
      grind
  rw [hword]
  by_cases helem : elemIdx i = elemIdx j
  · have hji : j % 32 = i % 32 ↔ j = i := by
      unfold elemIdx at helem
      omega
    simp only [helem, hji, ↓reduceIte, bitmapTest_eq_getLsbD, elemAddr]
  · have hji : j ≠ i := fun h => helem (h ▸ rfl)
    simp only [helem, hji, ↓reduceIte]

theorem bitmapSetVal_of_outside {m : Bitmap} {i a : Nat}
    (h : a < elemAddr m i ∨ elemAddr m i + 4 ≤ a) (val : Bool) (mem : Memory) :
    bitmapSetVal m i val mem a = mem a := by
  cases val <;> exact writeWord_of_outside h _ _

theorem bitmapTest_setRangeLoop (m : Bitmap) (val : Bool) (left i j : Nat) (mem : Memory) :
    bitmapTest m j (setRangeLoop m val left i mem) =
      if i ≤ j ∧ j < i + left then val else bitmapTest m j mem := by
  induction left generalizing i mem with
  | zero => simp [setRangeLoop, show ¬ (i ≤ j ∧ j < i) by omega]
  | succ left ih =>
      rw [setRangeLoop, ih, bitmapTest_bitmapSetVal]
      grind

theorem setRangeLoop_of_outside {m : Bitmap} {left i a : Nat}
    (h : a < elemAddr m i ∨ m.mapP + 4 * ((i + left + 31) / 32) ≤ a) (val : Bool)
    (mem : Memory) : setRangeLoop m val left i mem a = mem a := by
  induction left generalizing i mem with
  | zero => rfl
  | succ left ih =>
      have hthis : a < elemAddr m i ∨ elemAddr m i + 4 ≤ a := by
        unfold elemAddr elemIdx at *
        omega
      have hrest : a < elemAddr m (i + 1) ∨ m.mapP + 4 * ((i + 1 + left + 31) / 32) ≤ a := by
        unfold elemAddr elemIdx at *
        omega
      rw [setRangeLoop, ih hrest, bitmapSetVal_of_outside hthis]

/-- `bitmap_set_range` sets exactly the bits of its range. -/
theorem bitmapTest_bitmapSetRange (m : Bitmap) {start len : Nat} (h : start + len < 2 ^ 32)
    (val : Bool) (j : Nat) (mem : Memory) :
    bitmapTest m j (bitmapSetRange m start len val mem).1 =
      if (Range.mk start len).Covers j then val else bitmapTest m j mem := by
  have hcovers : (start ≤ j ∧ j < start + (start + len - start)) ↔
      (Range.mk start len).Covers j := by
    simp only [Range.Covers]
    omega
  simp only [bitmapSetRange, wrap_of_lt h, bitmapTest_setRangeLoop, hcovers]

theorem bitmapSetRange_of_outside {m : Bitmap} {start len a : Nat} (h : start + len < 2 ^ 32)
    (ha : a < m.mapP ∨ m.mapP + 4 * ((start + len + 31) / 32) ≤ a) (val : Bool) (mem : Memory) :
    (bitmapSetRange m start len val mem).1 a = mem a := by
  refine setRangeLoop_of_outside ?_ val mem
  rw [wrap_of_lt h]
  unfold elemAddr
  omega

theorem countRangeLoop_eq (m : Bitmap) (mem : Memory) (left i cnt : Nat) :
    countRangeLoop m mem left i cnt =
      cnt + ((List.range' i left).countP fun j => bitmapTest m j mem) := by
  induction left generalizing i cnt with
  | zero => simp [countRangeLoop]
  | succ left ih =>
      rw [countRangeLoop, ih, List.range'_succ, List.countP_cons]
      split <;> omega

/-- The count equals the length exactly when every bit of the range is set. -/
theorem bitmapCountRange_eq_len_iff (m : Bitmap) {start len : Nat} (h : start + len < 2 ^ 32)
    (mem : Memory) :
    bitmapCountRange m start len mem = len ↔
      AllOn (fun i => bitmapTest m i mem = true) ⟨start, len⟩ := by
  rw [bitmapCountRange, wrap_of_lt h, countRangeLoop_eq, Nat.zero_add]
  have hlen : len = (List.range' start (start + len - start)).length := by simp
  nth_rewrite 2 [hlen]
  rw [List.countP_eq_length]
  simp only [List.mem_range'_1, AllOn, Range.Covers]
  constructor
  · intro hall i hi
    exact hall i (by omega)
  · intro hall i hi
    exact hall i (by omega)

/-- The loop of `bitmap_find_range` with the invariant of its accumulators:
`cnt` bits match from `begin` on, and no earlier start fits. -/
theorem findRangeLoop_spec (m : Bitmap) (count start stop : Nat) (val : Bool) (mem : Memory)
    (left i cnt begin : Nat) (hstop : i + left = stop) (hbegin : start ≤ begin)
    (hcnt : begin + cnt = i) (hlt : cnt < count)
    (hmatch : AllOn (fun j => bitmapTest m j mem = val) ⟨begin, cnt⟩)
    (hearlier : ∀ c, start ≤ c → c < begin →
      ¬ AllOn (fun j => bitmapTest m j mem = val) ⟨c, count⟩) :
    match findRangeLoop m count val mem left i cnt begin with
    | some b => IsFirstFit (fun j => bitmapTest m j mem = val) start stop count b
    | none => ¬ HasFit (fun j => bitmapTest m j mem = val) start stop count := by
  induction left generalizing i cnt begin with
  | zero =>
      simp only [findRangeLoop]
      rintro ⟨c, hlo, hhi, hall⟩
      exact hearlier c hlo (by omega) hall
  | succ left ih =>
      rw [findRangeLoop]
      by_cases hbit : bitmapTest m i mem = val
      · have hmatch' : AllOn (fun j => bitmapTest m j mem = val) ⟨begin, cnt + 1⟩ := by
          rintro j ⟨hj1, hj2⟩
          simp only at hj1 hj2
          by_cases hji : j = i
          · exact hji ▸ hbit
          · exact hmatch j ⟨hj1, by simp only; omega⟩
        simp only [hbit, ↓reduceIte]
        by_cases hfull : cnt + 1 = count
        · simp only [hfull, ↓reduceIte]
          exact ⟨⟨hbegin, by omega, hfull ▸ hmatch'⟩, hearlier⟩
        · simp only [hfull, ↓reduceIte]
          exact ih (i + 1) (cnt + 1) begin (by omega) hbegin (by omega) (by omega) hmatch'
            hearlier
      · have hpos : ¬ 0 = count := by omega
        simp only [hbit, ↓reduceIte, hpos]
        refine ih (i + 1) 0 (i + 1) (by omega) (by omega) (by omega) (by omega) ?_ ?_
        · rintro j ⟨hj1, hj2⟩
          simp only at hj1 hj2
          omega
        · intro c hlo hhi hall
          by_cases hc : c < begin
          · exact hearlier c hlo hc hall
          · exact hbit (hall i ⟨by simp only; omega, by simp only; omega⟩)

/-- `bitmap_find_range` returns the first fit, or one more than the number of
bits when nothing fits. -/
theorem bitmapFindRange_spec (m : Bitmap) (start len count : Nat) (val : Bool) (mem : Memory)
    (h : start + len < 2 ^ 32) (hcount : 0 < count) :
    IsFirstFit (fun j => bitmapTest m j mem = val) start (start + len) count
        (bitmapFindRange m start len count val mem) ∨
      (bitmapFindRange m start len count val mem = wrap (m.bits + 1) ∧
        ¬ HasFit (fun j => bitmapTest m j mem = val) start (start + len) count) := by
  have hloop := findRangeLoop_spec m count start (start + len) val mem
    (wrap (start + len) - start) start 0 start
    (by rw [wrap_of_lt h]; omega) le_rfl rfl hcount
    (by rintro j ⟨hj1, hj2⟩; simp only at hj1 hj2; omega) (by intro c hlo hhi; omega)
  unfold bitmapFindRange
  cases hres : findRangeLoop m count val mem (wrap (start + len) - start) start 0 start with
  | some b =>
      rw [hres] at hloop
      exact Or.inl hloop
  | none =>
      rw [hres] at hloop
      exact Or.inr ⟨rfl, hloop⟩

end Longhorn.PackedBitmap
