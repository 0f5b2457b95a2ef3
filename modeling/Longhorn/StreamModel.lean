import Mathlib.Algebra.Group.Nat.Defs
import Longhorn.Foundations.RingWindow

/-!
The character streams of `libk/stream.c`: circular queues in an array.
-/

namespace Longhorn.StreamModel

open Longhorn.Foundations.RingWindow

def stdStreamSize : Nat := 256

/-- Addition and subtraction of `size_t`. -/
def add32 (a b : Nat) : Nat := (a + b) % 2 ^ 32

def sub32 (a b : Nat) : Nat := (a + (2 ^ 32 - b)) % 2 ^ 32

/-- `char_stream` and `std_stream`: the array and the two positions in it. -/
structure Stream where
  cells : Nat → Int8
  size : Nat
  inPos : Nat
  outPos : Nat

/-- A NUL-terminated string: its characters in front of the NUL. -/
structure CString where
  text : List Int8
  nonzero : 0 ∉ text

def strlen (s : CString) : Nat := s.text.length

/-- The array after `k` rounds of the loop of `flush_c` and `flush_std`. -/
def clearCells (cells : Nat → Int8) : Nat → Nat → Int8
  | 0 => cells
  | k + 1 => Function.update (clearCells cells k) k 0

def flush (s : Stream) : Stream :=
  { s with cells := clearCells s.cells s.size, inPos := 0, outPos := 0 }

/-- `put_c` and `put_std` of a queue of size `n`, which differ in their codes. -/
def put (full ok : Int) (n : Nat) (s : Stream) (c : Int8) : Stream × Int :=
  if s.inPos = add32 (sub32 s.outPos 1) n % n then (s, full)
  else
    ({ s with cells := Function.update s.cells s.inPos c, inPos := add32 s.inPos 1 % n }, ok)

def get (n : Nat) (s : Stream) : Stream × Int8 :=
  if s.inPos = s.outPos then (s, -1)
  else ({ s with outPos := add32 s.outPos 1 % n }, s.cells s.outPos)

def flushC (s : Stream) : Stream := flush s

def putC (s : Stream) (c : Int8) : Stream × Int := put 0 1 s.size s c

def getC (s : Stream) : Stream × Int8 := get s.size s

def initStd (s : Stream) : Stream := { s with size := stdStreamSize, inPos := 0, outPos := 0 }

def flushStd (s : Stream) : Stream := flush s

def putStd (s : Stream) (c : Int8) : Stream × Int := put (-1) 0 stdStreamSize s c

/-- The loop of `puts_std` over the characters from the `i`-th on. -/
def putsStdLoop (s : Stream) : List Int8 → Nat → Stream × Int
  | [], i => (s, i)
  | c :: rest, i =>
      if (putStd s c).2 = 0 then putsStdLoop (putStd s c).1 rest (i + 1) else ((putStd s c).1, i)

def putsStd (s : Stream) (str : CString) : Stream × Int :=
  putsStdLoop s (str.text.take (strlen str)) 0

def getStd (s : Stream) : Stream × Int8 := get stdStreamSize s

/-- A stream of size `n` holds the characters `q`, the oldest first. -/
structure Holds (n : Nat) (s : Stream) (q : List Int8) : Prop where
  size : s.size = n
  inPos_lt : s.inPos < n
  outPos_lt : s.outPos < n
  contents : window n s.cells s.outPos (fill n s.inPos s.outPos) = q

section Positions

variable {n i : Nat}

theorem add32_one_mod (hn : n ≤ 2 ^ 31) (hi : i < n) : add32 i 1 % n = (i + 1) % n := by
  have hwrap : add32 i 1 = i + 1 := Nat.mod_eq_of_lt (by omega)
  rw [hwrap]

/-- The position that `put` compares with, also when `out - 1` wraps around. -/
theorem add32_sub32_mod (hn : n ≤ 2 ^ 31) (hi : i < n) :
    add32 (sub32 i 1) n % n = (i + (n - 1)) % n := by
  have hwrap : add32 (sub32 i 1) n = i + (n - 1) := by
    rw [add32, sub32]
    omega
  rw [hwrap]

end Positions

section Holds

variable {n : Nat} {full ok : Int} {s : Stream} {q rest : List Int8} {c : Int8}

theorem Holds.length (h : Holds n s q) : q.length = fill n s.inPos s.outPos := by
  rw [← h.contents, length_window]

theorem Holds.length_lt (h : Holds n s q) : q.length < n := by
  rw [h.length]
  exact fill_lt h.inPos_lt h.outPos_lt

theorem Holds.isFull_iff (h : Holds n s q) (hn : n ≤ 2 ^ 31) :
    s.inPos = add32 (sub32 s.outPos 1) n % n ↔ q.length + 1 = n := by
  rw [add32_sub32_mod hn h.outPos_lt, fill_full h.inPos_lt h.outPos_lt, h.length]

theorem Holds.put_full (h : Holds n s q) (hn : n ≤ 2 ^ 31) (hfull : q.length + 1 = n) :
    put full ok n s c = (s, full) := by
  rw [put, if_pos ((h.isFull_iff hn).mpr hfull)]

theorem Holds.put_code (h : Holds n s q) (hn : n ≤ 2 ^ 31) (hroom : q.length + 1 < n) :
    (put full ok n s c).2 = ok := by
  rw [put, if_neg fun hfull => by have := (h.isFull_iff hn).mp hfull; omega]

/-- The cell that is written next is free. -/
theorem Holds.write (h : Holds n s q) (c : Int8) :
    Holds n { s with cells := Function.update s.cells s.inPos c } q := by
  constructor
  · exact h.size
  · exact h.inPos_lt
  · exact h.outPos_lt
  · rw [← h.contents]
    exact window_update h.outPos_lt (fill_lt h.inPos_lt h.outPos_lt)
      (add_fill h.inPos_lt h.outPos_lt) c

/-- Moving `in` on adds the character written there. -/
theorem Holds.publish (h : Holds n s q) (hn : n ≤ 2 ^ 31) (hroom : q.length + 1 < n)
    (hc : s.cells s.inPos = c) : Holds n { s with inPos := add32 s.inPos 1 % n } (q ++ [c]) := by
  have hfill := fill_succ_in h.inPos_lt h.outPos_lt (h.length ▸ hroom)
  constructor
  · exact h.size
  · exact Nat.mod_lt _ (by omega)
  · exact h.outPos_lt
  · change window n s.cells s.outPos (fill n (add32 s.inPos 1 % n) s.outPos) = q ++ [c]
    rw [add32_one_mod hn h.inPos_lt, hfill, window_succ, h.contents,
      add_fill h.inPos_lt h.outPos_lt, hc]

theorem Holds.put (h : Holds n s q) (hn : n ≤ 2 ^ 31) (hroom : q.length + 1 < n) :
    Holds n (put full ok n s c).1 (q ++ [c]) := by
  rw [StreamModel.put, if_neg fun hfull => by have := (h.isFull_iff hn).mp hfull; omega]
  exact (h.write c).publish hn hroom (Function.update_self _ _ _)

theorem Holds.get_nil (h : Holds n s []) : get n s = (s, -1) := by
  have hlen := h.length
  rw [List.length_nil, eq_comm, fill_eq_zero h.outPos_lt] at hlen
  rw [get, if_pos hlen]

theorem Holds.ne_of_cons (h : Holds n s (c :: rest)) : s.inPos ≠ s.outPos := by
  intro heq
  have hlen := h.length
  rw [heq, fill_self] at hlen
  exact absurd hlen (by simp)

/-- Moving `out` on takes the character there. -/
theorem Holds.advance (h : Holds n s (c :: rest)) (hn : n ≤ 2 ^ 31) :
    s.cells s.outPos = c ∧ Holds n { s with outPos := add32 s.outPos 1 % n } rest := by
  have hcontents := h.contents
  rw [← fill_succ_out h.inPos_lt h.outPos_lt h.ne_of_cons, window_cons,
    Nat.mod_eq_of_lt h.outPos_lt, List.cons.injEq] at hcontents
  refine ⟨hcontents.1, ?_⟩
  constructor
  · exact h.size
  · exact h.inPos_lt
  · exact Nat.mod_lt _ (by have := h.outPos_lt; omega)
  · change window n s.cells (add32 s.outPos 1 % n) (fill n s.inPos (add32 s.outPos 1 % n)) = rest
    rw [add32_one_mod hn h.outPos_lt]
    exact hcontents.2

theorem Holds.get_cons (h : Holds n s (c :: rest)) (hn : n ≤ 2 ^ 31) :
    (get n s).2 = c ∧ Holds n (get n s).1 rest := by
  rw [get, if_neg h.ne_of_cons]
  exact h.advance hn

theorem Holds.unique {q' : List Int8} (h : Holds n s q) (h' : Holds n s q') : q = q' :=
  h.contents.symm.trans h'.contents

theorem Holds.of_zero (hsize : s.size = n) (hn : 1 ≤ n) (hin : s.inPos = 0) (hout : s.outPos = 0) :
    Holds n s [] := by
  constructor
  · exact hsize
  · omega
  · omega
  · rw [hin, hout, fill_self, window_zero]

theorem Holds.flush (h : Holds n s q) : Holds n (flush s) [] := by
  apply Holds.of_zero
  · exact h.size
  · have := h.outPos_lt
    omega
  · rfl
  · rfl

end Holds

end Longhorn.StreamModel
