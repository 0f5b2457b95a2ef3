import Longhorn.Foundations.BoolArrays
import Longhorn.PackedBitmap

/-!
The packed bitmap as an array of truth values: what its updates do to the array, what
its searches and counts say about it.
-/

namespace Longhorn.BitmapRefinement

open Longhorn.Foundations.ByteMemory
open Longhorn.Foundations.Ranges
open Longhorn.Foundations.BoolArrays
open Longhorn.PackedBitmap

/-- The array that a bitmap in memory stands for. -/
def bits (m : Bitmap) (mem : Memory) : BoolArray := fun i => bitmapTest m i mem

/-- An address in the word that holds the bit. -/
def InWord (m : Bitmap) (i a : Nat) : Prop := elemAddr m i ≤ a ∧ a < elemAddr m i + 4

section Updates

variable (m : Bitmap) (val : Bool) (mem : Memory)

theorem bits_bitmapSetVal (i : Nat) :
    bits m (bitmapSetVal m i val mem) = Function.update (bits m mem) i val := by
  funext j
  rw [bits, bitmapTest_bitmapSetVal, Function.update_apply]
  rfl

theorem bits_bitmapSet (i : Nat) :
    bits m (bitmapSet m i mem) = Function.update (bits m mem) i true :=
  bits_bitmapSetVal m true mem i

theorem bits_bitmapReset (i : Nat) :
    bits m (bitmapReset m i mem) = Function.update (bits m mem) i false :=
  bits_bitmapSetVal m false mem i

theorem bits_setRangeLoop (left i : Nat) :
    bits m (setRangeLoop m val left i mem) = (bits m mem).setRange ⟨i, left⟩ val := by
  induction left generalizing i mem with
  | zero => rw [setRangeLoop, BoolArray.setRange_zero]
  | succ left ih => rw [setRangeLoop, ih, bits_bitmapSetVal, BoolArray.setRange_succ]

theorem setRangeLoop_of_notInWord {left i a : Nat}
    (h : ∀ j, (Range.mk i left).Covers j → ¬ InWord m j a) :
    setRangeLoop m val left i mem a = mem a := by
  induction left generalizing i mem with
  | zero => rfl
  | succ left ih =>
      have hfirst := h i ((covers_succ i left i).mpr (Or.inl rfl))
      have hrest : ∀ j, (Range.mk (i + 1) left).Covers j → ¬ InWord m j a :=
        fun j hj => h j ((covers_succ i left j).mpr (Or.inr hj))
      rw [setRangeLoop, ih _ hrest]
      refine bitmapSetVal_of_outside ?_ val mem
      unfold InWord at hfirst
      omega

theorem countRangeLoop_eq_countRange (left i cnt : Nat) :
    countRangeLoop m mem left i cnt = cnt + (bits m mem).countRange ⟨i, left⟩ := by
  induction left generalizing i cnt with
  | zero => rw [countRangeLoop, BoolArray.countRange_zero, Nat.add_zero]
  | succ left ih =>
      rw [countRangeLoop, ih, BoolArray.countRange_succ, ← Nat.add_assoc]
      congr 1
      by_cases hbit : bitmapTest m i mem = true <;> simp [bits, hbit]

/-- `bitmap_set_range` is the update of a range of the array. -/
theorem bits_bitmapSetRange {start len : Nat} (h : start + len < 2 ^ 32) :
    bits m (bitmapSetRange m start len val mem).1 = (bits m mem).setRange ⟨start, len⟩ val := by
  rw [bitmapSetRange, wrap_of_lt h, Nat.add_sub_cancel_left]
  exact bits_setRangeLoop m val mem len start

/-- `bitmap_count_range` counts the true entries of a window of the array. -/
theorem bitmapCountRange_eq_countRange {start len : Nat} (h : start + len < 2 ^ 32) :
    bitmapCountRange m start len mem = (bits m mem).countRange ⟨start, len⟩ := by
  rw [bitmapCountRange, wrap_of_lt h, Nat.add_sub_cancel_left, countRangeLoop_eq_countRange,
    Nat.zero_add]

/-- Bytes outside the words that hold the range are left alone. -/
theorem bitmapSetRange_of_notInWord {start len a : Nat} (h : start + len < 2 ^ 32)
    (ha : ∀ i, (Range.mk start len).Covers i → ¬ InWord m i a) :
    (bitmapSetRange m start len val mem).1 a = mem a := by
  rw [bitmapSetRange, wrap_of_lt h, Nat.add_sub_cancel_left]
  exact setRangeLoop_of_notInWord m val mem ha

end Updates

/-- `bitmap_set_range` changes the bits of its range and no others, stores into no word
that holds none of them, and `bitmap_count_range` counts the true bits of any window
before and after. -/
theorem set_range_refines (m : Bitmap) (val : Bool) {start len : Nat}
    (h : start + len < 2 ^ 32) (mem : Memory) :
    (∀ i, bitmapTest m i (bitmapSetRange m start len val mem).1 =
        if start ≤ i ∧ i < start + len then val else bitmapTest m i mem) ∧
      bits m (bitmapSetRange m start len val mem).1 = (bits m mem).setRange ⟨start, len⟩ val ∧
      (∀ a, (∀ i, start ≤ i → i < start + len → ¬ InWord m i a) →
        (bitmapSetRange m start len val mem).1 a = mem a) ∧
      ∀ s l, s + l < 2 ^ 32 →
        bitmapCountRange m s l mem = (bits m mem).countRange ⟨s, l⟩ ∧
          bitmapCountRange m s l (bitmapSetRange m start len val mem).1 =
            ((bits m mem).setRange ⟨start, len⟩ val).countRange ⟨s, l⟩ := by
  have hbits := bits_bitmapSetRange m val mem h
  refine ⟨fun i => congrFun hbits i, hbits, fun a ha => ?_, fun s l hwindow => ⟨?_, ?_⟩⟩
  · exact bitmapSetRange_of_notInWord m val mem h fun i hi => ha i hi.1 hi.2
  · exact bitmapCountRange_eq_countRange m mem hwindow
  · rw [bitmapCountRange_eq_countRange m _ hwindow, hbits]

theorem set_range_refines_unaligned :
    bits ⟨0, 64⟩ (bitmapSetRange ⟨0, 64⟩ 30 5 true fun _ => 0#8).1 =
      (bits ⟨0, 64⟩ fun _ => 0#8).setRange ⟨30, 5⟩ true :=
  (set_range_refines ⟨0, 64⟩ true (show 30 + 5 < 2 ^ 32 by decide) fun _ => 0#8).2.1

/-- The updates of single bits and of ranges. -/
inductive BitmapOp where
  | set (idx : Nat)
  | reset (idx : Nat)
  | setVal (idx : Nat) (val : Bool)
  | setRange (start len : Nat) (val : Bool)

/-- The range of an update ends below `2^32`. -/
def BitmapOp.InSpace : BitmapOp → Prop
  | .set _ => True
  | .reset _ => True
  | .setVal _ _ => True
  | .setRange start len _ => start + len < 2 ^ 32

def BitmapOp.exec (m : Bitmap) (mem : Memory) : BitmapOp → Memory
  | .set idx => bitmapSet m idx mem
  | .reset idx => bitmapReset m idx mem
  | .setVal idx val => bitmapSetVal m idx val mem
  | .setRange start len val => (bitmapSetRange m start len val mem).1

/-- What the update does to the array. -/
def BitmapOp.effect (a : BoolArray) : BitmapOp → BoolArray
  | .set idx => Function.update a idx true
  | .reset idx => Function.update a idx false
  | .setVal idx val => Function.update a idx val
  | .setRange start len val => a.setRange ⟨start, len⟩ val

theorem bits_exec (m : Bitmap) (mem : Memory) {op : BitmapOp} (h : op.InSpace) :
    bits m (op.exec m mem) = op.effect (bits m mem) := by
  cases op with
  | set idx => exact bits_bitmapSet m mem idx
  | reset idx => exact bits_bitmapReset m mem idx
  | setVal idx val => exact bits_bitmapSetVal m val mem idx
  | setRange start len val => exact bits_bitmapSetRange m val mem h

/-- Any sequence of updates of the map is the same sequence of updates of the array. -/
theorem updates_refine_array (m : Bitmap) (ops : List BitmapOp) (mem : Memory)
    (h : ∀ op ∈ ops, op.InSpace) :
    bits m (ops.foldl (BitmapOp.exec m) mem) = ops.foldl BitmapOp.effect (bits m mem) := by
  induction ops generalizing mem with
  | nil => rfl
  | cons op ops ih =>
      rw [List.foldl_cons, List.foldl_cons, ih _ fun o ho => h o (List.mem_cons_of_mem op ho),
        bits_exec m mem (h op List.mem_cons_self)]

section Search

variable {m : Bitmap} {start len count : Nat} {val : Bool} {mem : Memory}

/-- A first fit is an index of the map, so it is not the value that means failure. -/
theorem firstFit_ne_sentinel {p : Nat → Prop} {b : Nat}
    (hb : IsFirstFit p start (start + len) count b)
    (h : start + len ≤ m.bits) : b ≠ m.bits + 1 := by
  have hend := hb.1.2.1
  omega

/-- `bitmap_find_range` returns the least start of a run of `count` bits equal to `val`
inside the window, and one more than the number of bits exactly when there is none. -/
theorem find_range_first_fit (hbits : m.bits < 2 ^ 32) (h : start + len ≤ m.bits)
    (hcount : 0 < count) :
    (HasFit (fun i => bitmapTest m i mem = val) start (start + len) count →
        IsFirstFit (fun i => bitmapTest m i mem = val) start (start + len) count
          (bitmapFindRange m start len count val mem)) ∧
      (¬ HasFit (fun i => bitmapTest m i mem = val) start (start + len) count →
        bitmapFindRange m start len count val mem = wrap (m.bits + 1)) ∧
      (m.bits + 1 < 2 ^ 32 →
        (bitmapFindRange m start len count val mem = m.bits + 1 ↔
          ¬ HasFit (fun i => bitmapTest m i mem = val) start (start + len) count)) := by
  rcases bitmapFindRange_spec m start len count val mem (by omega) hcount with
    hfirst | ⟨hres, hnone⟩
  · refine ⟨fun _ => hfirst, fun hnone => absurd hfirst.hasFit hnone, fun _ => ?_⟩
    exact iff_of_false (firstFit_ne_sentinel hfirst h) (not_not_intro hfirst.hasFit)
  · refine ⟨fun hfit => absurd hfit hnone, fun _ => hres, fun hlt => ?_⟩
    exact iff_of_true (hres.trans (wrap_of_lt hlt)) hnone

/-- Two clear bits behind a set one, in a window of five. -/
theorem find_range_first_fit_two :
    IsFirstFit (fun i => bitmapTest ⟨0, 8⟩ i (Function.update (fun _ => 0#8) 0 1#8) = false) 0 5 2
      (bitmapFindRange ⟨0, 8⟩ 0 5 2 false (Function.update (fun _ => 0#8) 0 1#8)) := by
  refine (find_range_first_fit (by decide) (by decide) (by decide)).1 ⟨1, by decide, by decide, ?_⟩
  rintro i ⟨hlo, hhi⟩
  obtain rfl | rfl : i = 1 ∨ i = 2 := by
    simp only at hlo hhi
    omega
  · decide
  · decide

end Search

section SetAll

variable (m : Bitmap) (newVal : Word)

/-- What `bitmap_set_all` owes: every bit of the map has the value, and no word from the
first one past the map on is stored to. -/
def SetsAll (m : Bitmap) (val : Bool) (mem : Memory) : Prop :=
  (∀ i, i < m.bits → bitmapTest m i (bitmapSetAll m val mem).1 = val) ∧
    ∀ w ∈ (bitmapSetAll m val mem).2, w < (m.bits + 31) / 32

/-- The loop stores to the words it counts. -/
theorem mem_stored_setAllLoop (left i w : Nat) (r : Memory × List Nat) :
    w ∈ (setAllLoop m newVal left i r).2 ↔ (i ≤ w ∧ w < i + left) ∨ w ∈ r.2 := by
  induction left generalizing i r with
  | zero =>
      have hnone : ¬ (i ≤ w ∧ w < i + 0) := by omega
      rw [setAllLoop, or_iff_right hnone]
  | succ left ih =>
      rw [setAllLoop, ih, List.mem_cons, ← or_assoc]
      refine or_congr_left ?_
      omega

/-- A bit after the loop: of the new word, or as before. -/
theorem bitmapTest_setAllLoop (left i j : Nat) (r : Memory × List Nat) :
    bitmapTest m j (setAllLoop m newVal left i r).1 =
      if i ≤ elemIdx j ∧ elemIdx j < i + left then newVal.getLsbD (j % 32)
      else bitmapTest m j r.1 := by
  induction left generalizing i r with
  | zero => rw [setAllLoop, if_neg (by omega)]
  | succ left ih =>
      have haddr : elemAddr m (32 * i) = m.mapP + 4 * i := by
        unfold elemAddr elemIdx
        omega
      have hidx : elemIdx (32 * i) = i := by
        unfold elemIdx
        omega
      rw [setAllLoop, ih, ← haddr, bitmapTest_writeWord, hidx]
      grind

theorem numElems_eq {n : Nat} (h : n + 32 < 2 ^ 31) : numElems n = 2 * (n / 32) := by
  rw [numElems, wrapSub_of_le (by omega) (Nat.mod_le n 32), wrap_of_lt (by omega)]
  omega

theorem getLsbD_newVal (val : Bool) {k : Nat} (hk : k < 32) :
    (if val then ~~~ 0#32 else 0#32).getLsbD k = val := by
  cases val with
  | false => exact BitVec.getLsbD_zero
  | true => rw [if_pos rfl, BitVec.getLsbD_not, BitVec.getLsbD_zero, decide_eq_true hk]; rfl

theorem bitmapTest_bitmapSetAll (val : Bool) (h : m.bits + 32 < 2 ^ 31) (mem : Memory) (i : Nat) :
    bitmapTest m i (bitmapSetAll m val mem).1 =
      if i / 32 < 2 * (m.bits / 32) then val else bitmapTest m i mem := by
  rw [bitmapSetAll, bitmapTest_setAllLoop, getLsbD_newVal val (Nat.mod_lt i (by decide)),
    numElems_eq h, elemIdx]
  simp only [Nat.zero_le, true_and, Nat.zero_add]

theorem mem_stored_bitmapSetAll (val : Bool) (h : m.bits + 32 < 2 ^ 31) (mem : Memory) (w : Nat) :
    w ∈ (bitmapSetAll m val mem).2 ↔ w < 2 * (m.bits / 32) := by
  rw [bitmapSetAll, mem_stored_setAllLoop, numElems_eq h]
  simp

end SetAll

/-- `bitmap_set_all` stores to twice the number of full words: it does what it owes
exactly when the map has more than one word but not two full ones, or when it has no
full word and its bits have the value already. -/
theorem set_all_covers_iff {m : Bitmap} (h : m.bits + 32 < 2 ^ 31) (val : Bool) (mem : Memory) :
    SetsAll m val mem ↔
      (32 < m.bits ∧ m.bits < 64) ∨
        (m.bits < 32 ∧ ∀ i, i < m.bits → bitmapTest m i mem = val) := by
  simp only [SetsAll, bitmapTest_bitmapSetAll m val h, mem_stored_bitmapSetAll m val h]
  constructor
  · rintro ⟨hall, hstored⟩
    rcases Nat.lt_or_ge m.bits 32 with hsmall | hlarge
    · refine Or.inr ⟨hsmall, fun i hi => ?_⟩
      have hi' := hall i hi
      rwa [if_neg (by omega)] at hi'
    · have hlast := hstored (2 * (m.bits / 32) - 1) (by omega)
      exact Or.inl (by omega)
  · rintro (⟨hlo, hhi⟩ | ⟨hsmall, hall⟩)
    · refine ⟨fun i hi => if_pos (by omega), fun w hw => by omega⟩
    · refine ⟨fun i hi => ?_, fun w hw => by omega⟩
      rw [if_neg (by omega)]
      exact hall i hi

theorem set_all_covers_iff_forty : SetsAll ⟨0, 40⟩ true fun _ => 0#8 :=
  (set_all_covers_iff (m := ⟨0, 40⟩) (by decide) true fun _ => 0#8).mpr (Or.inl (by decide))

/-- A map of 32 bits has one word; the second one is stored to as well. -/
theorem not_set_all_covers : ¬ ∀ (m : Bitmap) (val : Bool) (mem : Memory),
    m.bits + 32 < 2 ^ 31 → SetsAll m val mem := by
  intro hall
  have hset := hall ⟨0, 32⟩ true (fun _ => 0#8) (by decide)
  have hstored : 1 ∈ (bitmapSetAll ⟨0, 32⟩ true fun _ => 0#8).2 :=
    (mem_stored_bitmapSetAll ⟨0, 32⟩ true (by decide) _ 1).mpr (by decide)
  exact absurd (hset.2 1 hstored) (by decide)

end Longhorn.BitmapRefinement
