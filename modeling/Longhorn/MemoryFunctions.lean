import Mathlib.Data.Int.Basic
import Longhorn.StringModel

/-!
`memmove`, `memset` and `memcmp` of `libc`.
-/

namespace Longhorn.MemoryFunctions

open Longhorn.Foundations.CStrings
open Longhorn.StringModel

/-- The loop of `memmove` that starts at the end, with `i` bytes left. -/
def memmoveLoop (m : Memory) (dest src : Nat) : Nat → Option Memory
  | 0 => some m
  | i + 1 => do
      let c ← m (src + i)
      let m ← store m (dest + i) c
      memmoveLoop m dest src i

def memmove (m : Memory) (dest src n : Nat) : Option Memory :=
  if dest < src then memcpy m dest src n else memmoveLoop m dest src n

/-- The loop of `memset` over the rounds that are left; it does not advance `d`. -/
def memsetLoop (m : Memory) (d : Nat) (c : Int) : Nat → Option Memory
  | 0 => some m
  | left + 1 => do
      let m ← store m d (Int8.ofInt c)
      memsetLoop m d c left

def memset (m : Memory) (dest : Nat) (c : Int) (n : Nat) : Option Memory := memsetLoop m dest c n

/-- The loop of `memcmp` over the rounds that are left; it does not advance `a` and `b`. -/
def memcmpLoop (m : Memory) (a b : Nat) : Nat → Option Int
  | 0 => some 0
  | left + 1 => do
      let x ← m a
      let y ← m b
      if x.toInt - y.toInt ≠ 0 then return x.toInt - y.toInt else memcmpLoop m a b left

def memcmp (m : Memory) (p1 p2 n : Nat) : Option Int := memcmpLoop m p1 p2 n

section Moves

variable {m : Memory} {dest src n : Nat}

/-- Copying from the end reads no byte it has written if `dest` is not in front of `src`. -/
theorem memmoveLoop_moved (hle : src ≤ dest) (hsrc : Room m src n) (hdest : Room m dest n) :
    ∃ m', memmoveLoop m dest src n = some m' ∧ Moved m m' dest src n := by
  induction n generalizing m with
  | zero => exact ⟨m, rfl, nofun, fun _ _ => rfl⟩
  | succ n ih =>
      obtain ⟨c, hc⟩ := Option.isSome_iff_exists.mp (hsrc (src + n) (by omega) (by omega))
      obtain ⟨m', hrun, hmoved, hkept⟩ := ih (m := Function.update m (dest + n) (some c))
        ((hsrc.mono (by omega) (by omega)).update _ _)
        ((hdest.mono (by omega) (by omega)).update _ _)
      refine ⟨m', ?_, ?_, ?_⟩
      · rw [memmoveLoop, hc]
        exact (hdest.store_bind (Nat.le_add_right _ _) (by omega) c _).trans hrun
      · intro j hj
        rcases Nat.lt_succ_iff_lt_or_eq.mp hj with hlt | rfl
        · rw [hmoved j hlt, Function.update_of_ne (by omega)]
        · rw [hkept _ (Or.inr (Nat.le_refl _)), Function.update_self, hc]
      · intro a ha
        rw [hkept a (by omega), Function.update_of_ne (by omega)]

/-- `memmove` moves the bytes, however the two ranges overlap. -/
theorem memmove_moves (hsrc : Room m src n) (hdest : Room m dest n) :
    ∃ m', memmove m dest src n = some m' ∧ Moved m m' dest src n := by
  by_cases hlt : dest < src
  · rw [memmove, if_pos hlt]
    exact memcpyLoop_moved (i := 0) (Or.inl (Nat.le_of_lt hlt)) hsrc hdest
  · rw [memmove, if_neg hlt]
    exact memmoveLoop_moved (Nat.le_of_not_lt hlt) hsrc hdest

/-- Three bytes moved up by one. -/
theorem memmove_moves_up : ∃ m', memmove (placed 1 [97, 98, 99, 100]) 2 1 3 = some m' ∧
    Moved (placed 1 [97, 98, 99, 100]) m' 2 1 3 := by
  have hroom : Room (placed 1 [97, 98, 99, 100]) 1 4 := bytesAt_placed.room
  exact memmove_moves (hroom.mono (by omega) (by omega)) (hroom.mono (by omega) (by omega))

end Moves

/-- What `memset` is for: the `n` bytes at `d` are `c` modulo 256, the others as before. -/
def Fills (m : Memory) (d : Nat) (c : Int) (n : Nat) : Prop :=
  ∃ m', memset m d c n = some m' ∧ (∀ i, i < n → m' (d + i) = some (Int8.ofInt c)) ∧
    ∀ a, a < d ∨ d + n ≤ a → m' a = m a

/-- The sign of the first pair of bytes that differ, of `n`. -/
def CompareSign (m : Memory) (p q n : Nat) (r : Int) : Prop :=
  (r = 0 ↔ ∀ i, i < n → m (p + i) = m (q + i)) ∧
    ∀ i x y, i < n → (∀ j, j < i → m (p + j) = m (q + j)) → m (p + i) = some x →
      m (q + i) = some y → x ≠ y → r.sign = (x.toInt - y.toInt).sign

def Compares (m : Memory) (p q n : Nat) : Prop :=
  ∃ r, memcmp m p q n = some r ∧ CompareSign m p q n r

section Rounds

variable {m : Memory} {d p q n : Nat} {c : Int} {x y : Int8}

/-- Every round of `memset` writes the same byte. -/
theorem memset_eq (hroom : Room m d n) :
    memset m d c n = some (if n = 0 then m else Function.update m d (some (Int8.ofInt c))) := by
  rw [memset]
  induction n generalizing m with
  | zero => rfl
  | succ n ih =>
      have hnext := ih (m := Function.update m d (some (Int8.ofInt c)))
        ((hroom.mono (Nat.le_refl _) (by omega)).update _ _)
      rw [memsetLoop]
      refine (hroom.store_bind (Nat.le_refl _) (by omega) _ _).trans (hnext.trans ?_)
      simp

/-- Every round of `memcmp` compares the same two bytes. -/
theorem memcmp_eq (hp : m p = some x) (hq : m q = some y) :
    memcmp m p q n = some (if n = 0 then 0 else x.toInt - y.toInt) := by
  rw [memcmp]
  induction n with
  | zero => rfl
  | succ n ih =>
      rw [memcmpLoop, hp, hq]
      by_cases heq : x.toInt - y.toInt = 0
      · refine (if_neg (not_not_intro heq)).trans (ih.trans ?_)
        simp [heq]
      · exact if_pos heq

theorem fills_iff (hroom : Room m d n) :
    Fills m d c n ↔ ∀ i, 0 < i → i < n → m (d + i) = some (Int8.ofInt c) := by
  have hrun := memset_eq (c := c) hroom
  constructor
  · rintro ⟨m', hm', hfill, _⟩ i hi hlt
    rw [hrun, if_neg (by omega)] at hm'
    have hread := hfill i hlt
    rwa [← Option.some.inj hm', Function.update_of_ne (by omega)] at hread
  · intro hset
    refine ⟨_, hrun, ?_, ?_⟩
    · intro i hi
      rw [if_neg (by omega)]
      cases i with
      | zero => exact Function.update_self _ _ _
      | succ i =>
          rw [Function.update_of_ne (by omega)]
          exact hset _ (Nat.succ_pos i) hi
    · intro a ha
      cases n with
      | zero => rfl
      | succ n => exact Function.update_of_ne (by omega) _ _

theorem toInt_sub_eq_zero_iff : x.toInt - y.toInt = 0 ↔ x = y := by
  rw [Int.sub_eq_zero, Int8.toInt_inj]

theorem compareSign_of_ne (hp : m p = some x) (hq : m q = some y) (hne : x ≠ y) (hn : 0 < n) :
    CompareSign m p q n (x.toInt - y.toInt) := by
  refine ⟨iff_of_false (mt toInt_sub_eq_zero_iff.mp hne) ?_, ?_⟩
  · intro hall
    have hfirst : m p = m q := hall 0 hn
    rw [hp, hq] at hfirst
    exact hne (Option.some.inj hfirst)
  · intro i x' y' _ hbefore hx' hy' _
    cases i with
    | zero =>
        rw [Option.some.inj (hp.symm.trans hx'), Option.some.inj (hq.symm.trans hy')]
    | succ i =>
        have hfirst : m p = m q := hbefore 0 (Nat.succ_pos i)
        rw [hp, hq] at hfirst
        exact absurd (Option.some.inj hfirst) hne

theorem compares_iff (hp : Room m p n) (hq : Room m q n) :
    Compares m p q n ↔ (∀ i, i < n → m (p + i) = m (q + i)) ∨ m p ≠ m q := by
  cases n with
  | zero => exact iff_of_true ⟨0, rfl, iff_of_true rfl nofun, nofun⟩ (Or.inl nofun)
  | succ n =>
      obtain ⟨x, hx⟩ := Option.isSome_iff_exists.mp (hp p (Nat.le_refl _) (by omega))
      obtain ⟨y, hy⟩ := Option.isSome_iff_exists.mp (hq q (Nat.le_refl _) (by omega))
      have hrun := memcmp_eq (n := n + 1) hx hy
      rw [if_neg (Nat.succ_ne_zero n)] at hrun
      constructor
      · rintro ⟨r, hr, hzero, _⟩
        refine or_iff_not_imp_right.mpr fun hxy => hzero.mp ?_
        rw [hx, hy, not_not, Option.some.injEq] at hxy
        rw [← Option.some.inj (hrun.symm.trans hr)]
        exact toInt_sub_eq_zero_iff.mpr hxy
      · intro hcond
        refine ⟨_, hrun, ?_⟩
        by_cases hxy : x = y
        · have hall := hcond.resolve_right fun hne => hne (by rw [hx, hy, hxy])
          refine ⟨iff_of_true (toInt_sub_eq_zero_iff.mpr hxy) hall, ?_⟩
          intro i x' y' hi _ hx' hy' hne
          have heq := hall i hi
          rw [hx', hy'] at heq
          exact absurd (Option.some.inj heq) hne
        · exact compareSign_of_ne hx hy hxy (Nat.succ_pos n)

/-- Only the first byte of a range is set, and only the first bytes of two are compared. -/
theorem memset_memcmp_iff (hd : Room m d n) (hp : Room m p n) (hq : Room m q n) :
    (Fills m d c n ↔ ∀ i, 0 < i → i < n → m (d + i) = some (Int8.ofInt c)) ∧
      (Compares m p q n ↔ (∀ i, i < n → m (p + i) = m (q + i)) ∨ m p ≠ m q) :=
  ⟨fills_iff hd, compares_iff hp hq⟩

/-- Clearing a byte and the NUL behind it, and comparing them with two others. -/
theorem memset_memcmp_iff_two : Fills (placed 1 [97, 0, 98, 0]) 1 0 2 ∧
    Compares (placed 1 [97, 0, 98, 0]) 1 3 2 := by
  have hroom : Room (placed 1 [97, 0, 98, 0]) 1 4 := bytesAt_placed.room
  have hfirst : Room (placed 1 [97, 0, 98, 0]) 1 2 := hroom.mono (by omega) (by omega)
  have hlast : Room (placed 1 [97, 0, 98, 0]) 3 2 := hroom.mono (by omega) (by omega)
  obtain ⟨hfills, hcompares⟩ := memset_memcmp_iff (c := 0) hfirst hfirst hlast
  refine ⟨hfills.mpr ?_, hcompares.mpr (Or.inr (by decide))⟩
  intro i hi hlt
  have hone : i = 1 := by omega
  rw [hone]
  rfl

/-- Of the bytes `aa` only the first is cleared, and `ab` compares equal to `ac`. -/
theorem not_memset_memcmp : ¬ Fills (placed 1 [97, 97]) 1 0 2 ∧
    ¬ Compares (placed 1 [97, 98, 97, 99]) 1 3 2 := by
  have htwo : Room (placed 1 [97, 97]) 1 2 := bytesAt_placed.room
  have hfour : Room (placed 1 [97, 98, 97, 99]) 1 4 := bytesAt_placed.room
  rw [fills_iff htwo, compares_iff (hfour.mono (by omega) (by omega))
    (hfour.mono (by omega) (by omega))]
  refine ⟨fun hset => absurd (hset 1 (by omega) (by omega)) (by decide), ?_⟩
  rintro (hall | hne)
  · exact absurd (hall 1 (by omega)) (by decide)
  · exact hne rfl

end Rounds

end Longhorn.MemoryFunctions
