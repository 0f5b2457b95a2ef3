import Mathlib.Algebra.Group.Nat.Defs
import Mathlib.Algebra.Group.Int.Defs
import Longhorn.Foundations.CStrings

/-!
The functions of `libc/string.c`.  A result is missing where the code reads or writes a
byte it may not access, lets an `int` overflow or does not return; `NULL` is the address 0.
The `int` counters of `strlen` and `strcmp` only index a string from its start and give
its length as a `size_t`, so that they are plain numbers here: past `2 ^ 31` they wrap like
the 32-bit addresses, and the byte read and the length returned are the same.
-/

namespace Longhorn.StringModel

open Longhorn.Foundations.CStrings

/-- The memory of the kernel, as far as the code may access it. -/
abbrev Memory := Bytes

/-- The value of a `size_t` in an `int`. -/
def toInt32 (n : Int) : Int := n.bmod (2 ^ 32)

def Memory.strlenLoop (m : Memory) (str i : Nat) : Option Nat := do
  let c ← m (str + i)
  if c ≠ 0 then m |>.strlenLoop str (i + 1) else return i
partial_fixpoint

def strlen (m : Memory) (str : Nat) : Option Nat := m.strlenLoop str 0

/-- The string at an address. -/
def Memory.textAt (m : Memory) (str : Nat) : Option (List Int8) := do
  let c ← m str
  if c ≠ 0 then
    let s ← m |>.textAt (str + 1)
    return c :: s
  else return []
partial_fixpoint

/-- The loop of `memchr`, which compares with an `unsigned char`. -/
def Memory.memchrLoop (m : Memory) (ptr : Nat) (c : Int) (num i : Nat) : Option Nat :=
  if i < num then do
    let b ← m ptr
    if b.toInt = c then return ptr + i else m |>.memchrLoop (ptr + 1) c num (i + 1)
  else return 0
partial_fixpoint

def memchr (m : Memory) (ptr : Nat) (c : Int) (num : Nat) : Option Nat :=
  m.memchrLoop ptr (c % 256) num 0

def Memory.strchrLoop (m : Memory) (str : Nat) (c : Int) (i : Nat) : Option Nat := do
  let n ← strlen m str
  if i < n + 1 then
    let b ← m (str + i)
    if b.toInt = c then return str + i else m |>.strchrLoop str c (i + 1)
  else return 0
partial_fixpoint

def strchr (m : Memory) (str : Nat) (c : Int) : Option Nat := m.strchrLoop str (c % 256) 0

/-- The loop of `strrchr`, with `k` for `i + 1`, which is 0 also for a negative `i`. -/
def strrchrLoop (m : Memory) (str : Nat) (c : Int) : Nat → Option Nat
  | 0 => some 0
  | k + 1 => do
      let b ← m (str + k)
      if b.toInt = c then return str + k else strrchrLoop m str c k

def strrchr (m : Memory) (str : Nat) (c : Int) : Option Nat := do
  let n ← strlen m str
  let i := toInt32 (n - 1)
  strrchrLoop m str (c % 256) (i + 1).toNat

/-- The inner loop of `strspn` and that of `strpbrk`: is the character in the string? -/
def Memory.hasChar (m : Memory) (str2 : Nat) (c : Int8) : Option Bool := do
  let d ← m str2
  if d ≠ 0 then
    if d = c then return true else m |>.hasChar (str2 + 1) c
  else return false
partial_fixpoint

def Memory.strspnLoop (m : Memory) (str1 str2 i : Nat) : Option Nat := do
  let c ← m (str1 + i)
  if c ≠ 0 then
    if ← m.hasChar str2 c then m |>.strspnLoop str1 str2 (i + 1) else return i
  else return i
partial_fixpoint

def strspn (m : Memory) (str1 str2 : Nat) : Option Nat := m.strspnLoop str1 str2 0

/-- The inner loop of `strcspn`, which compares the NULs as well: does a character match? -/
def Memory.strcspnInner (m : Memory) (str1 str2 i j : Nat) : Option Bool := do
  let n ← strlen m str2
  if j < n + 1 then
    let c ← m (str1 + i)
    let d ← m (str2 + j)
    if c = d then return true else m |>.strcspnInner str1 str2 i (j + 1)
  else return false
partial_fixpoint

def Memory.strcspnLoop (m : Memory) (str1 str2 i : Nat) : Option Nat := do
  let n ← strlen m str1
  if i < n + 1 then
    if ← m.strcspnInner str1 str2 i 0 then return i else m |>.strcspnLoop str1 str2 (i + 1)
  else strlen m str1
partial_fixpoint

def strcspn (m : Memory) (str1 str2 : Nat) : Option Nat := m.strcspnLoop str1 str2 0

def Memory.strpbrk (m : Memory) (str1 str2 : Nat) : Option Nat := do
  let c ← m str1
  if c ≠ 0 then
    if ← m.hasChar str2 c then return str1 else m |>.strpbrk (str1 + 1) str2
  else return 0
partial_fixpoint

/-- The inner loop of `strstr`: where the two strings no longer agree. -/
def Memory.matchLoop (m : Memory) (str1 str2 j : Nat) : Option Nat := do
  if (← m (str1 + j)) ≠ 0 then
    if (← m (str2 + j)) ≠ 0 then
      if (← m (str1 + j)) ≠ (← m (str2 + j)) then return j else m |>.matchLoop str1 str2 (j + 1)
    else return j
  else return j
partial_fixpoint

def Memory.strstrLoop (m : Memory) (str1 str2 i : Nat) : Option Nat := do
  if (← m (str1 + i)) ≠ 0 then
    let j ← m.matchLoop (str1 + i) str2 0
    if (← m (str2 + j)) = 0 then return str1 + i else m |>.strstrLoop str1 str2 (i + j + 1)
  else return 0
partial_fixpoint

def strstr (m : Memory) (str1 str2 : Nat) : Option Nat := m.strstrLoop str1 str2 0

/-- The loop of `strtok` that looks for the end of the last token. -/
def Memory.tokenEnd (m : Memory) (c : Nat) : Option Nat := do
  if (← m c) ≠ 0 then m |>.tokenEnd (c + 1) else return c
partial_fixpoint

/-- `strtok` with its static `oldstr`: the memory and `oldstr` afterwards, and the token. -/
def strtok (m : Memory) (oldstr str delimeters : Nat) : Option (Memory × Nat × Nat) := do
  let str := if str = 0 then oldstr else str
  let n ← strspn m str delimeters
  let token := str + n
  if (← m token) = 0 then return (m, token, 0)
  let str ← m.strpbrk token delimeters
  if str = 0 then
    let c ← m.tokenEnd token
    return (m, c, token)
  else
    let m ← store m str 0
    return (m, str + 1, token)

def Memory.strcmpLoop (m : Memory) (str1 str2 i : Nat) : Option Int := do
  if (← m (str1 + i)) = (← m (str2 + i)) then
    if (← m (str1 + i)) = 0 then return 0 else m |>.strcmpLoop str1 str2 (i + 1)
  else return (← m (str1 + i)).toInt - (← m (str2 + i)).toInt
partial_fixpoint

def strcmp (m : Memory) (str1 str2 : Nat) : Option Int := m.strcmpLoop str1 str2 0

def Memory.strncmpLoop (m : Memory) (s1 s2 n i : Nat) : Option Int := do
  if i < n then
    if (← m (s1 + i)) = (← m (s2 + i)) then
      if (← m (s1 + i)) = 0 then return 0 else m |>.strncmpLoop s1 s2 n (i + 1)
    else return (← m (s1 + i)).toInt - (← m (s2 + i)).toInt
  else return (← m (s1 + i)).toInt - (← m (s2 + i)).toInt
partial_fixpoint

def strncmp (m : Memory) (s1 s2 n : Nat) : Option Int := m.strncmpLoop s1 s2 n 0

/-- The loop of `memcpy` over the bytes that are left. -/
def memcpyLoop (m : Memory) (dest src i : Nat) : Nat → Option Memory
  | 0 => some m
  | left + 1 => do
      let c ← m (src + i)
      let m ← store m (dest + i) c
      memcpyLoop m dest src (i + 1) left

/-- The bytes at `dest` are those that were at `src`, and no others have changed. -/
structure Moved (m m' : Memory) (dest src n : Nat) : Prop where
  moved : ∀ i, i < n → m' (dest + i) = m (src + i)
  kept : ∀ a, a < dest ∨ dest + n ≤ a → m' a = m a

def memcpy (m : Memory) (dest src n : Nat) : Option Memory := memcpyLoop m dest src 0 n

def strcpy (m : Memory) (dest src : Nat) : Option Memory := do
  let n ← strlen m src
  memcpy m dest src (n + 1)

/-- The loop of `reverse`, with `k` for `j + 1`, which is 0 also for a negative `j`. -/
def Memory.reverseLoop (m : Memory) (str i k : Nat) : Option Memory :=
  if i + 1 < k then do
    let temp ← m (str + i)
    let c ← m (str + (k - 1))
    let m₁ : Memory ← store m (str + i) c
    let m₂ : Memory ← store m₁ (str + (k - 1)) temp
    m₂ |>.reverseLoop str (i + 1) (k - 1)
  else some m
partial_fixpoint

def reverse (m : Memory) (str : Nat) : Option Memory := do
  let n ← strlen m str
  let j := toInt32 (n - 1)
  m.reverseLoop str 0 (j + 1).toNat

def decimalDigit (num : Int) : Int8 := Int8.ofInt (num.tmod 10 + 48)

def hexDigit (num : Int) : Int8 :=
  if num.tmod 16 ≥ 10 then Int8.ofInt ((num - 10).tmod 16 + 97) else Int8.ofInt (num.tmod 16 + 48)

/-- The loop of `int_to_string` and that of `int_to_hexstring`: the memory and `i` after it. -/
def Memory.digitsLoop (m : Memory) (base : Int) (digit : Int → Int8) (str : Nat) (num : Int)
    (i : Nat) : Option (Memory × Nat) := do
  let m₁ : Memory ← store m (str + i) (digit num)
  if num.tdiv base > 0 then m₁ |>.digitsLoop base digit str (num.tdiv base) (i + 1)
  else return (m₁, i + 1)
partial_fixpoint

/-- `int_to_string` with its static buffer at `str`. -/
def intToString (m : Memory) (str : Nat) (n : Int) : Option Memory := do
  let (m, i) ← m.digitsLoop 10 decimalDigit str n 0
  let m ← store m (str + i) 0
  reverse m str

def intToHexstring (m : Memory) (str : Nat) (n : Int) : Option Memory := do
  let (m, i) ← m.digitsLoop 16 hexDigit str n 0
  let m ← store m (str + i) 120
  let m ← store m (str + (i + 1)) 48
  let m ← store m (str + (i + 2)) 0
  reverse m str

/-- The loop of `strncat` over the rounds that are left: the memory and `i` after it. -/
def strncatLoop (m : Memory) (destEnd src i : Nat) : Nat → Option (Memory × Nat)
  | 0 => some (m, i)
  | left + 1 => do
      let c ← m src
      if c ≠ 0 then
        let d ← m (src + i)
        let m ← store m (destEnd + i) d
        strncatLoop m destEnd src (i + 1) left
      else return (m, i)

def strncat (m : Memory) (dest src num : Nat) : Option Memory := do
  let n ← strlen m dest
  let (m, i) ← strncatLoop m (dest + n) src 0 num
  store m (dest + n + i) 0

def upperChar (c : Int8) : Int8 := if c ≥ 97 ∧ c ≤ 122 then c - 32 else c

/-- The loop of `to_uppercase` from the positions `up_curr` and `curr` on. -/
def Memory.upperLoop (m : Memory) (upCurr curr : Nat) : Option Memory := do
  let c ← m curr
  if c ≠ 0 then
    let m₁ : Memory ← store m upCurr (upperChar c)
    m₁ |>.upperLoop (upCurr + 1) (curr + 1)
  else return m
partial_fixpoint

/-- `to_uppercase` with its static buffer at `up`, which is also its result. -/
def toUppercase (m : Memory) (up str : Nat) : Option Memory := m.upperLoop up str

/-- The loop of `trim` and `strim` from the front: `i` after it. -/
def Memory.firstLoop (m : Memory) (str i : Nat) : Option Nat := do
  let n ← strlen m str
  if i < n then
    let c ← m (str + i)
    if c = 32 then
      if i + 1 < 2 ^ 31 then m |>.firstLoop str (i + 1) else none
    else return i
  else return i
partial_fixpoint

/-- The loop of `trim` and `strim` from the end, with `k` for `j + 1`. -/
def lastLoop (m : Memory) (str : Nat) : Nat → Option Nat
  | 0 => some 0
  | k + 1 => do
      let c ← m (str + k)
      if c = 32 then lastLoop m str k else return k + 1

/-- The two loops: `i` and `j + 1` after them, which is 0 also for a negative `j`. -/
def scanEnds (m : Memory) (str : Nat) : Option (Nat × Nat) := do
  let n ← strlen m str
  let j := toInt32 (n - 1)
  let i ← m.firstLoop str 0
  let k ← lastLoop m str (j + 1).toNat
  return (i, k)

/-- `trim`: the memory afterwards and the result. -/
def trim (m : Memory) (str : Nat) : Option (Memory × Nat) := do
  let (i, k) ← scanEnds m str
  if k = i + 1 ∨ k < i + 1 then
    let m ← store m str 0
    return (m, str)
  else
    let m ← store m (str + k) 0
    return (m, str + i)

/-- `strim`: the memory afterwards and the result; the copying loop is that of `memcpy`. -/
def strim (m : Memory) (str buf : Nat) : Option (Memory × Nat) := do
  let (i, k) ← scanEnds m str
  if k = i + 1 ∨ k < i + 1 then return (m, 0)
  else
    let m ← memcpyLoop m buf (str + i) 0 (k - i)
    let m ← store m (buf + (k - i)) 0
    return (m, buf)

section Lengths

variable {n : Nat}

theorem toInt32_of_le (hn : n ≤ 2 ^ 31) : (toInt32 (n - 1) + 1).toNat = n := by
  rw [toInt32, Int.bmod_def]
  omega

/-- The length of such a string does not fit into an `int`. -/
theorem toInt32_of_gt (hn : 2 ^ 31 < n) (hlt : n < 2 ^ 32) : (toInt32 (n - 1) + 1).toNat = 0 := by
  rw [toInt32, Int.bmod_def]
  omega

end Lengths

variable {m : Memory} {p q i : Nat} {c : Int8} {s t cs : List Int8}

theorem strlenLoop_eq (h : StringAt m (p + i) t) : m.strlenLoop p i = some (i + t.length) := by
  induction t generalizing i with
  | nil =>
      rw [Memory.strlenLoop, stringAt_nil.mp h]
      rfl
  | cons c t ih =>
      obtain ⟨hc, hne, ht⟩ := stringAt_cons.mp h
      rw [Memory.strlenLoop, hc]
      refine (if_pos hne).trans ((ih ht).trans ?_)
      rw [List.length_cons, Nat.add_right_comm, Nat.add_assoc]

theorem strlen_eq (h : StringAt m p s) : strlen m p = some s.length := by
  rw [strlen, strlenLoop_eq h, Nat.zero_add]

theorem textAt_eq (h : StringAt m p s) : m.textAt p = some s := by
  induction s generalizing p with
  | nil =>
      rw [Memory.textAt, stringAt_nil.mp h]
      rfl
  | cons c s ih =>
      obtain ⟨hc, hne, hs⟩ := stringAt_cons.mp h
      rw [Memory.textAt, hc]
      refine (if_pos hne).trans ?_
      rw [ih hs]
      rfl

theorem hasChar_eq (h : StringAt m q s) : m.hasChar q c = some (decide (c ∈ s)) := by
  induction s generalizing q with
  | nil =>
      rw [Memory.hasChar, stringAt_nil.mp h]
      rfl
  | cons d s ih =>
      obtain ⟨hd, hne, hs⟩ := stringAt_cons.mp h
      rw [Memory.hasChar, hd]
      refine (if_pos hne).trans ?_
      by_cases hdc : d = c
      · rw [if_pos hdc, hdc, decide_eq_true List.mem_cons_self]
        rfl
      · rw [if_neg hdc, ih hs]
        simp [Ne.symm hdc]

/-- Copying from the front reads no byte it has written, unless `dest` is inside the range at
`src`. -/
theorem memcpyLoop_moved {n : Nat} (hapart : p ≤ q ∨ q + n ≤ p) (hsrc : Room m (q + i) n)
    (hdest : Room m (p + i) n) :
    ∃ m', memcpyLoop m p q i n = some m' ∧ Moved m m' (p + i) (q + i) n := by
  induction n generalizing m i with
  | zero => exact ⟨m, rfl, nofun, fun _ _ => rfl⟩
  | succ n ih =>
      obtain ⟨c, hc⟩ := Option.isSome_iff_exists.mp (hsrc _ (Nat.le_refl _) (by omega))
      obtain ⟨m', hrun, hmoved, hkept⟩ := ih (m := Function.update m (p + i) (some c))
        (i := i + 1) (by omega) ((hsrc.mono (by omega) (by omega)).update _ _)
        ((hdest.mono (by omega) (by omega)).update _ _)
      refine ⟨m', ?_, ?_, ?_⟩
      · rw [memcpyLoop, hc]
        exact (hdest.store_bind (Nat.le_refl _) (by omega) c _).trans hrun
      · intro j hj
        cases j with
        | zero =>
            rw [hkept _ (Or.inl (by omega)), Nat.add_zero, Function.update_self, Nat.add_zero, hc]
        | succ j =>
            have hread := hmoved j (by omega)
            rw [Function.update_of_ne (by omega)] at hread
            have hnext : p + i + (j + 1) = p + (i + 1) + j ∧ q + i + (j + 1) = q + (i + 1) + j := by
              omega
            rw [hnext.1, hnext.2, hread]
      · intro a ha
        rw [hkept a (by omega), Function.update_of_ne (by omega)]

theorem memcpyLoop_spec (h : BytesAt m (q + i) cs)
    (hroom : ∀ a, p + i ≤ a → a < p + i + cs.length → (m a).isSome)
    (hapart : p + i + cs.length ≤ q + i ∨ q + i + cs.length ≤ p + i) :
    ∃ m', memcpyLoop m p q i cs.length = some m' ∧ BytesAt m' (p + i) cs ∧
      ∀ a, a < p + i ∨ p + i + cs.length ≤ a → m' a = m a := by
  obtain ⟨m', hrun, hmoved, hkept⟩ := memcpyLoop_moved (by omega) h.room hroom
  exact ⟨m', hrun, h.moved hmoved, hkept⟩

/-- The text and its NUL are copied, to where there is room for both. -/
theorem strcpy_spec (h : StringAt m q s)
    (hroom : ∀ a, p ≤ a → a < p + (s.length + 1) → (m a).isSome)
    (hapart : p + (s.length + 1) ≤ q ∨ q + (s.length + 1) ≤ p) :
    ∃ m', strcpy m p q = some m' ∧ StringAt m' p s ∧
      ∀ a, a < p ∨ p + (s.length + 1) ≤ a → m' a = m a := by
  have hlen : (s ++ [0]).length = s.length + 1 := by
    rw [List.length_append, List.length_singleton]
  rw [← hlen] at hroom hapart ⊢
  obtain ⟨m', hrun, hbytes, hframe⟩ := memcpyLoop_spec (i := 0) h.2 hroom hapart
  refine ⟨m', ?_, ⟨h.1, hbytes⟩, hframe⟩
  rw [strcpy, strlen_eq h]
  rw [hlen] at hrun
  exact hrun

end Longhorn.StringModel
