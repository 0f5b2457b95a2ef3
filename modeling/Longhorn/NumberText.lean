import Mathlib.Data.List.Induction
import Mathlib.Algebra.Order.Group.Int
import Longhorn.StringModel

/-!
The numerals that `int_to_string` and `int_to_hexstring` write.
-/

namespace Longhorn.NumberText

open Longhorn.Foundations.CStrings
open Longhorn.StringModel

def bufferSize : Nat := 32

/-- The bytes of the static buffer may be accessed. -/
def Buffer (m : Memory) (str : Nat) : Prop := ∀ a, str ≤ a → a < str + bufferSize → (m a).isSome

theorem tdiv_pos {num base : Int} (hbase : 1 < base) (h : num.tdiv base > 0) :
    0 < num ∧ num.tdiv base < num := by
  have hpos : 0 < num := by
    by_contra hneg
    have hle : 0 ≤ (-num).tdiv base := Int.tdiv_nonneg (by omega) (by omega)
    rw [Int.neg_tdiv] at hle
    omega
  refine ⟨hpos, ?_⟩
  rw [Int.tdiv_eq_ediv_of_nonneg hpos.le]
  exact Int.ediv_lt_self_of_pos_of_ne_one hpos (by omega)

/-- The characters in the order in which the loop writes them. -/
def digitChars (base : Int) (digit : Int → Int8) (num : Int) : List Int8 :=
  digit num ::
    if _h : 1 < base ∧ num.tdiv base > 0 then digitChars base digit (num.tdiv base) else []
termination_by num.toNat
decreasing_by
  have := tdiv_pos _h.1 _h.2
  omega

/-- The code of an ASCII character. -/
def charCode (c : Char) : Int8 := Int8.ofNat c.toNat

def decimalNumeral (n : Int) : List Int8 :=
  (if n < 0 then [45] else []) ++ (Nat.toDigits 10 n.natAbs).map charCode

def hexNumeral (n : Int) : List Int8 :=
  [48, 120] ++ (Nat.toDigits 16 (n % 2 ^ 32).toNat).map charCode

def digitValue (c : Int8) : Nat :=
  if c.toInt < 97 then (c.toInt - 48).toNat else (c.toInt - 87).toNat

def readDigits (base : Nat) (text : List Int8) : Nat :=
  text.foldl (fun value c => value * base + digitValue c) 0

def readDecimal (text : List Int8) : Int :=
  if text.head? = some 45 then -(readDigits 10 text.tail) else readDigits 10 text

/-- A hexadecimal numeral is read modulo `2 ^ 32`, as an `int`. -/
def readHex (text : List Int8) : Int32 := Int32.ofNat (readDigits 16 (text.drop 2))

/-- Both functions write the numeral of `n`, which reads back as `n`. -/
structure RoundTrips (n : Int32) : Prop where
  decimal : ∀ (m : Memory) (str : Nat), Buffer m str →
    ∃ m', intToString m str n.toInt = some m' ∧ StringAt m' str (decimalNumeral n.toInt)
  decimalRead : readDecimal (decimalNumeral n.toInt) = n.toInt
  hex : ∀ (m : Memory) (str : Nat), Buffer m str →
    ∃ m', intToHexstring m str n.toInt = some m' ∧ StringAt m' str (hexNumeral n.toInt)
  hexRead : readHex (hexNumeral n.toInt) = n

section Loops

variable {m : Memory} {p i k : Nat} {c d : Int8} {s cs mid : List Int8}

theorem reverseLoop_step (hlt : i + 1 < k) (hc : m (p + i) = some c)
    (hd : m (p + (k - 1)) = some d) :
    m.reverseLoop p i k =
      Memory.reverseLoop
        (Function.update (Function.update m (p + i) (some d)) (p + (k - 1)) (some c))
        p (i + 1) (k - 1) := by
  have hd' : Function.update m (p + i) (some d) (p + (k - 1)) = some d := by
    rw [Function.update_of_ne (by omega), hd]
  rw [Memory.reverseLoop, if_pos hlt]
  simp only [hc, hd, Option.bind_eq_bind, Option.bind_some, store_of_some hc, store_of_some hd']

/-- The two ends are swapped before what is between them is reversed. -/
theorem reverseLoop_spec (h : BytesAt m (p + i) mid) :
    ∃ m', m.reverseLoop p i (i + mid.length) = some m' ∧ BytesAt m' (p + i) mid.reverse ∧
      ∀ a, a < p + i ∨ p + i + mid.length ≤ a → m' a = m a := by
  induction mid using List.bidirectionalRec generalizing m i with
  | nil =>
      refine ⟨m, ?_, trivial, fun _ _ => rfl⟩
      rw [Memory.reverseLoop]
      exact if_neg (by rw [List.length_nil]; omega)
  | singleton c =>
      refine ⟨m, ?_, h, fun _ _ => rfl⟩
      rw [Memory.reverseLoop]
      exact if_neg (by rw [List.length_singleton]; omega)
  | cons_append c mid d ih =>
      obtain ⟨hc, hrest⟩ := h
      obtain ⟨hmid, hd⟩ := bytesAt_append.mp hrest
      have hlen : (c :: (mid ++ [d])).length = mid.length + 2 := by simp
      have hlast : p + (i + (c :: (mid ++ [d])).length - 1) = p + (i + 1) + mid.length := by omega
      obtain ⟨m₁, hm₁⟩ : ∃ m₁ : Memory, m₁ = Function.update (Function.update m (p + i) (some d))
          (p + (i + 1) + mid.length) (some c) := ⟨_, rfl⟩
      have hkept : ∀ a, a ≠ p + i → a ≠ p + (i + 1) + mid.length → m₁ a = m a := by
        intro a hfirst hend
        rw [hm₁, Function.update_of_ne hend, Function.update_of_ne hfirst]
      have hmid₁ : BytesAt m₁ (p + (i + 1)) mid :=
        hmid.congr fun a ha hlt => hkept a (by omega) (by omega)
      obtain ⟨m', hrun, hrev, hframe⟩ := ih hmid₁
      have hfirst : m' (p + i) = some d := by
        rw [hframe _ (Or.inl (by omega)), hm₁, Function.update_of_ne (by omega),
          Function.update_self]
      have hend : m' (p + (i + 1) + mid.length) = some c := by
        rw [hframe _ (Or.inr (by omega)), hm₁, Function.update_self]
      refine ⟨m', ?_, ?_, ?_⟩
      · have hbounds : i + (c :: (mid ++ [d])).length - 1 = i + 1 + mid.length := by omega
        rw [reverseLoop_step (by omega) hc (by rw [hlast]; exact hd.1), hlast, hbounds, ← hm₁]
        exact hrun
      · rw [List.reverse_cons, List.reverse_append, List.reverse_singleton, List.singleton_append,
          List.cons_append]
        refine ⟨hfirst, bytesAt_append.mpr ⟨hrev, ?_, trivial⟩⟩
        rw [List.length_reverse]
        exact hend
      · intro a ha
        rw [hframe a (by omega)]
        exact hkept a (by omega) (by omega)

theorem reverse_spec (h : StringAt m p s) (hint : s.length ≤ 2 ^ 31) :
    ∃ m', reverse m p = some m' ∧ StringAt m' p s.reverse ∧
      ∀ a, a < p ∨ p + s.length ≤ a → m' a = m a := by
  obtain ⟨hbytes, hend⟩ := bytesAt_append.mp h.2
  obtain ⟨m', hrun, hrev, hframe⟩ := reverseLoop_spec (i := 0) hbytes
  rw [Nat.zero_add] at hrun
  refine ⟨m', ?_, ⟨?_, bytesAt_append.mpr ⟨hrev, ?_, trivial⟩⟩, hframe⟩
  · have hloop : reverse m p = m.reverseLoop p 0 (toInt32 (s.length - 1) + 1).toNat := by
      rw [reverse, strlen_eq h]
      rfl
    rw [hloop, toInt32_of_le hint]
    exact hrun
  · rw [List.mem_reverse]
    exact h.1
  · rw [List.length_reverse]
    exact (hframe _ (Or.inr le_rfl)).trans hend.1

theorem store_end (h : BytesAt m p cs) (hroom : (m (p + cs.length)).isSome) (c : Int8) :
    ∃ m', store m (p + cs.length) c = some m' ∧ BytesAt m' p (cs ++ [c]) ∧
      ∀ a, a ≠ p + cs.length → m' a = m a := by
  refine ⟨_, if_pos hroom, bytesAt_append.mpr ⟨?_, Function.update_self _ _ _, trivial⟩,
    fun a ha => Function.update_of_ne ha _ _⟩
  refine h.congr fun a _ hlt => ?_
  exact Function.update_of_ne (by omega) _ _

end Loops

section Digits

variable {m : Memory} {p i k : Nat} {base num : Int} {digit : Int → Int8}

theorem digitChars_more (hbase : 1 < base) (h : num.tdiv base > 0) :
    digitChars base digit num = digit num :: digitChars base digit (num.tdiv base) := by
  rw [digitChars, dif_pos ⟨hbase, h⟩]

theorem digitChars_last (h : ¬ num.tdiv base > 0) : digitChars base digit num = [digit num] := by
  rw [digitChars, dif_neg fun hmore => h hmore.2]

/-- The loop writes the characters one behind the other. -/
theorem digitsLoop_spec (base : Int) (digit : Int → Int8) (num : Int) (hbase : 1 < base)
    (hroom : ∀ a, p + i ≤ a → a < p + i + (digitChars base digit num).length → (m a).isSome) :
    ∃ m', m.digitsLoop base digit p num i = some (m', i + (digitChars base digit num).length) ∧
      BytesAt m' (p + i) (digitChars base digit num) ∧
      ∀ a, a < p + i ∨ p + i + (digitChars base digit num).length ≤ a → m' a = m a := by
  induction hn : num.toNat using Nat.strong_induction_on generalizing num m i with
  | _ n ih =>
  by_cases hmore : num.tdiv base > 0
  · rw [digitChars_more hbase hmore, List.length_cons] at hroom ⊢
    obtain ⟨hpos, hlt⟩ := tdiv_pos hbase hmore
    have hfirst : (m (p + i)).isSome := hroom _ le_rfl (by omega)
    obtain ⟨m₁, hm₁⟩ : ∃ m₁ : Memory, m₁ = Function.update m (p + i) (some (digit num)) :=
      ⟨_, rfl⟩
    have hkept : ∀ a, a ≠ p + i → m₁ a = m a := fun a ha => by
      rw [hm₁, Function.update_of_ne ha]
    have hroom₁ : ∀ a, p + (i + 1) ≤ a →
        a < p + (i + 1) + (digitChars base digit (num.tdiv base)).length → (m₁ a).isSome := by
      intro a h1 h2
      rw [hkept a (by omega)]
      exact hroom a (by omega) (by omega)
    obtain ⟨m', hrun, hbytes, hframe⟩ := ih _ (by omega) _ hroom₁ rfl
    refine ⟨m', ?_, ⟨?_, hbytes⟩, ?_⟩
    · rw [Memory.digitsLoop, store, if_pos hfirst, ← hm₁]
      refine (if_pos hmore).trans ?_
      rw [hrun]
      congr 2
      omega
    · rw [hframe _ (Or.inl (by omega)), hm₁, Function.update_self]
    · intro a ha
      rw [hframe a (by omega), hkept a (by omega)]
  · rw [digitChars_last hmore, List.length_singleton] at hroom ⊢
    have hfirst : (m (p + i)).isSome := hroom _ le_rfl (by omega)
    refine ⟨Function.update m (p + i) (some (digit num)), ?_, ⟨Function.update_self _ _ _, trivial⟩,
      fun a ha => Function.update_of_ne (by omega) _ _⟩
    rw [Memory.digitsLoop, store, if_pos hfirst]
    exact if_neg hmore

theorem digits_written (base : Int) (digit : Int → Int8) (num : Int) (hbase : 1 < base)
    (hroom : ∀ a, p ≤ a → a < p + (digitChars base digit num).length → (m a).isSome) :
    ∃ m', m.digitsLoop base digit p num 0 = some (m', (digitChars base digit num).length) ∧
      BytesAt m' p (digitChars base digit num) ∧
      ∀ a, a < p ∨ p + (digitChars base digit num).length ≤ a → m' a = m a := by
  have h := digitsLoop_spec (m := m) (p := p) (i := 0) base digit num hbase hroom
  rwa [Nat.zero_add, Nat.add_zero] at h

theorem length_digitChars_le (hbase : 1 < base) (hnum : num < base ^ (k + 1)) :
    (digitChars base digit num).length ≤ k + 1 := by
  induction k generalizing num with
  | zero =>
      have hlast : ¬ num.tdiv base > 0 := by
        intro hmore
        have hpos := (tdiv_pos hbase hmore).1
        rw [Int.tdiv_eq_ediv_of_nonneg hpos.le, Int.ediv_eq_zero_of_lt hpos.le] at hmore
        · omega
        · rwa [Nat.zero_add, pow_one] at hnum
      rw [digitChars_last hlast]
      exact le_rfl
  | succ k ih =>
      by_cases hmore : num.tdiv base > 0
      · have hpos := (tdiv_pos hbase hmore).1
        rw [digitChars_more hbase hmore, List.length_cons]
        refine Nat.succ_le_succ (ih ?_)
        rw [Int.tdiv_eq_ediv_of_nonneg hpos.le]
        refine Int.ediv_lt_of_lt_mul (by omega) ?_
        rwa [← pow_succ]
      · rw [digitChars_last hmore]
        exact Nat.succ_le_succ (Nat.zero_le _)

theorem zero_notMem_digitChars (hdigit : ∀ n, digit n ≠ 0) : 0 ∉ digitChars base digit num := by
  induction hn : num.toNat using Nat.strong_induction_on generalizing num with
  | _ n ih =>
  rw [digitChars]
  split_ifs with hmore
  · rw [List.mem_cons, not_or]
    have := tdiv_pos hmore.1 hmore.2
    exact ⟨(hdigit num).symm, ih _ (by omega) rfl⟩
  · rw [List.mem_singleton]
    exact (hdigit num).symm

theorem ofInt_ne_zero {n : Int} (hpos : 0 < n) (hlt : n < 2 ^ 7) : Int8.ofInt n ≠ 0 := by
  intro heq
  have hval := congrArg Int8.toInt heq
  rw [Int8.toInt_ofInt_of_le (by omega) hlt] at hval
  exact hpos.ne' hval

theorem decimalDigit_ne_zero (n : Int) : decimalDigit n ≠ 0 := by
  have hlow := Int.lt_tmod_of_pos n (by decide : (0 : Int) < 10)
  have hhigh := Int.tmod_lt_of_pos n (by decide : (0 : Int) < 10)
  exact ofInt_ne_zero (by omega) (by omega)

theorem hexDigit_ne_zero (n : Int) : hexDigit n ≠ 0 := by
  have hlow := Int.lt_tmod_of_pos n (by decide : (0 : Int) < 16)
  have hhigh := Int.tmod_lt_of_pos n (by decide : (0 : Int) < 16)
  have hlow' := Int.lt_tmod_of_pos (n - 10) (by decide : (0 : Int) < 16)
  have hhigh' := Int.tmod_lt_of_pos (n - 10) (by decide : (0 : Int) < 16)
  rw [hexDigit]
  split_ifs
  · exact ofInt_ne_zero (by omega) (by omega)
  · exact ofInt_ne_zero (by omega) (by omega)

/-- The digits of a natural number, in the order of a numeral. -/
theorem reverse_digitChars {b : Nat} (hb : 1 < b)
    (hdigit : ∀ n : Nat, digit n = charCode (Nat.digitChar (n % b))) (n : Nat) :
    (digitChars b digit n).reverse = (Nat.toDigits b n).map charCode := by
  induction n using Nat.strong_induction_on with
  | _ n ih =>
  have hdiv : (n : Int).tdiv b = ((n / b : Nat) : Int) := (Int.ofNat_tdiv n b).symm
  rcases Nat.lt_or_ge n b with hlt | hge
  · have hlast : ¬ (n : Int).tdiv b > 0 := by
      rw [hdiv, Nat.div_eq_of_lt hlt]
      decide
    rw [digitChars_last hlast, Nat.toDigits_of_lt_base hlt, hdigit, Nat.mod_eq_of_lt hlt]
    rfl
  · have hpos : 0 < n / b := Nat.div_pos hge (by omega)
    have hmore : (n : Int).tdiv b > 0 := by
      rw [hdiv]
      exact Int.natCast_pos.mpr hpos
    have hbase : 1 < (b : Int) := by omega
    rw [digitChars_more hbase hmore, hdiv, List.reverse_cons,
      ih (n / b) (Nat.div_lt_self (by omega) hb), Nat.toDigits_of_base_le hb hge, List.map_append,
      hdigit]
    rfl

theorem decimalDigit_natCast (n : Nat) :
    decimalDigit n = charCode (Nat.digitChar (n % 10)) := by
  have hall : ∀ d, d < 10 → Int8.ofInt ((d : Nat) + 48) = charCode (Nat.digitChar d) := by decide
  rw [decimalDigit, ← hall _ (Nat.mod_lt n (by decide))]
  rfl

theorem hexDigit_natCast (n : Nat) : hexDigit n = charCode (Nat.digitChar (n % 16)) := by
  have hsmall : ∀ d, d < 10 → Int8.ofInt ((d : Nat) + 48) = charCode (Nat.digitChar d) := by decide
  have hlarge : ∀ d, d < 16 → 10 ≤ d →
      Int8.ofInt ((d - 10 : Nat) + 97) = charCode (Nat.digitChar d) := by decide
  have hmod : (n : Int).tmod 16 = ((n % 16 : Nat) : Int) := rfl
  have hlt := Nat.mod_lt n (by decide : 16 > 0)
  rw [hexDigit, hmod]
  split_ifs with hge
  · have hge' : 10 ≤ n % 16 := by omega
    have hsub : ((n : Int) - 10).tmod 16 = ((n % 16 - 10 : Nat) : Int) := by
      rw [Int.tmod_eq_emod_of_nonneg (by omega)]
      omega
    rw [hsub, hlarge _ hlt hge']
  · exact hsmall _ (by omega)

theorem mem_toDigits {b : Nat} (hb : 1 < b) {c : Char} (n : Nat) (hc : c ∈ Nat.toDigits b n) :
    ∃ d, d < b ∧ c = Nat.digitChar d := by
  induction n using Nat.strong_induction_on with
  | _ n ih =>
  rcases Nat.lt_or_ge n b with hlt | hge
  · rw [Nat.toDigits_of_lt_base hlt, List.mem_singleton] at hc
    exact ⟨n, hlt, hc⟩
  · rw [Nat.toDigits_of_base_le hb hge, List.mem_append, List.mem_singleton] at hc
    rcases hc with hc | hc
    · exact ih (n / b) (Nat.div_lt_self (by omega) hb) hc
    · exact ⟨n % b, Nat.mod_lt n (by omega), hc⟩

theorem readDigits_append {b : Nat} (text : List Int8) (c : Int8) :
    readDigits b (text ++ [c]) = readDigits b text * b + digitValue c := by
  rw [readDigits, List.foldl_append]
  rfl

theorem readDigits_toDigits {b : Nat} (hb : 1 < b) (hb' : b ≤ 16) (n : Nat) :
    readDigits b ((Nat.toDigits b n).map charCode) = n := by
  have hvalue : ∀ d, d < 16 → digitValue (charCode (Nat.digitChar d)) = d := by decide
  induction n using Nat.strong_induction_on with
  | _ n ih =>
  rcases Nat.lt_or_ge n b with hlt | hge
  · have hread := readDigits_append (b := b) [] (charCode (Nat.digitChar n))
    rw [Nat.toDigits_of_lt_base hlt]
    refine hread.trans ?_
    rw [hvalue n (by omega)]
    exact (congrArg (· + n) (Nat.zero_mul b)).trans (Nat.zero_add n)
  · have hlt := Nat.mod_lt n (by omega : b > 0)
    rw [Nat.toDigits_of_base_le hb hge, List.map_append, List.map_singleton, readDigits_append,
      ih (n / b) (Nat.div_lt_self (by omega) hb), hvalue _ (by omega)]
    exact Nat.div_add_mod' n b

theorem readDecimal_decimalNumeral (n : Int) : readDecimal (decimalNumeral n) = n := by
  have hread := readDigits_toDigits (b := 10) (by decide) (by decide) n.natAbs
  rw [decimalNumeral]
  split_ifs with hneg
  · refine (if_pos rfl).trans ?_
    change -((readDigits 10 ((Nat.toDigits 10 n.natAbs).map charCode) : Nat) : Int) = n
    rw [hread]
    omega
  · rw [List.nil_append, readDecimal, if_neg, hread]
    · omega
    · intro hhead
      obtain ⟨c, hc, hcode⟩ := List.mem_map.mp (List.mem_of_mem_head? hhead)
      obtain ⟨d, hd, rfl⟩ := mem_toDigits (by decide) _ hc
      have hall : ∀ d, d < 10 → charCode (Nat.digitChar d) ≠ 45 := by decide
      exact hall d hd hcode

theorem readHex_hexNumeral (n : Int32) : readHex (hexNumeral n.toInt) = n := by
  have hread := readDigits_toDigits (b := 16) (by decide) (by decide) (n.toInt % 2 ^ 32).toNat
  rw [readHex, hexNumeral]
  change Int32.ofNat (readDigits 16 ((Nat.toDigits 16 (n.toInt % 2 ^ 32).toNat).map charCode)) = n
  rw [hread, ← Int32.toInt_inj, Int32.toInt_ofNat', Int.toNat_of_nonneg (by omega)]
  have hmod : (2 : Int) ^ 32 = (Int32.size : Int) := rfl
  rw [hmod, Int.emod_bmod, Int32.toInt_bmod_size]

end Digits

section Functions

variable {m : Memory} {str : Nat} {n : Int}

/-- What `int_to_string` leaves in its buffer. -/
def decimalText (n : Int) : List Int8 := (digitChars 10 decimalDigit n).reverse

def hexText (n : Int) : List Int8 := [48, 120] ++ (digitChars 16 hexDigit n).reverse

theorem intToString_spec (hn : n < 2 ^ 31) (hbuf : Buffer m str) :
    ∃ m', intToString m str n = some m' ∧ StringAt m' str (decimalText n) := by
  have hlen : (digitChars 10 decimalDigit n).length ≤ 9 + 1 :=
    length_digitChars_le (by decide) (hn.trans (by decide))
  have hsize : bufferSize = 32 := rfl
  obtain ⟨m₁, hrun, hbytes, hframe⟩ := digits_written (m := m) (p := str)
    10 decimalDigit n (by decide) fun a h1 h2 => hbuf a h1 (by omega)
  obtain ⟨m₂, hstore, hstring, _⟩ := store_end hbytes
    (by rw [hframe _ (Or.inr le_rfl)]; exact hbuf _ (by omega) (by omega)) 0
  obtain ⟨m₃, hrev, htext, _⟩ := reverse_spec
    ⟨zero_notMem_digitChars decimalDigit_ne_zero, hstring⟩ (by omega)
  refine ⟨m₃, ?_, htext⟩
  rw [intToString, hrun]
  simp only [Option.bind_eq_bind, Option.bind_some]
  rw [hstore, Option.bind_some, hrev]

theorem intToHexstring_spec (hn : n < 2 ^ 31) (hbuf : Buffer m str) :
    ∃ m', intToHexstring m str n = some m' ∧ StringAt m' str (hexText n) := by
  have hlen : (digitChars 16 hexDigit n).length ≤ 7 + 1 :=
    length_digitChars_le (by decide) (hn.trans (by decide))
  have hsize : bufferSize = 32 := rfl
  obtain ⟨chars, hchars⟩ : ∃ chars, chars = digitChars 16 hexDigit n := ⟨_, rfl⟩
  obtain ⟨m₁, hrun, hbytes, hframe⟩ := digits_written (m := m) (p := str)
    16 hexDigit n (by decide) fun a h1 h2 => hbuf a h1 (by omega)
  rw [← hchars] at hlen hrun hbytes hframe
  have hroom : ∀ a, str + chars.length ≤ a → a < str + bufferSize → (m₁ a).isSome := by
    intro a h1 h2
    rw [hframe a (Or.inr h1)]
    exact hbuf a (by omega) h2
  obtain ⟨m₂, hstore₂, hbytes₂, hframe₂⟩ := store_end hbytes (hroom _ le_rfl (by omega)) 120
  have hlen₂ : (chars ++ [120]).length = chars.length + 1 := List.length_append
  have hroom₂ : ∀ a, str + chars.length < a → a < str + bufferSize → (m₂ a).isSome := by
    intro a h1 h2
    rw [hframe₂ a (ne_of_gt h1)]
    exact hroom a h1.le h2
  obtain ⟨m₃, hstore₃, hbytes₃, hframe₃⟩ := store_end hbytes₂
    (hroom₂ _ (by omega) (by omega)) 48
  have hlen₃ : (chars ++ [120] ++ [48]).length = chars.length + 2 := by simp
  obtain ⟨m₄, hstore₄, hbytes₄, _⟩ := store_end hbytes₃ (by
    rw [hframe₃ _ (by omega)]
    exact hroom₂ _ (by omega) (by omega)) 0
  have hnonzero : 0 ∉ chars ++ [120] ++ [48] := by
    have hdigits : 0 ∉ digitChars 16 hexDigit n := zero_notMem_digitChars hexDigit_ne_zero
    rw [← hchars] at hdigits
    simp [hdigits]
  obtain ⟨m₅, hrev, htext, _⟩ := reverse_spec ⟨hnonzero, hbytes₄⟩ (by omega)
  refine ⟨m₅, ?_, ?_⟩
  · rw [hlen₂] at hstore₃
    rw [hlen₃] at hstore₄
    rw [intToHexstring, hrun]
    simp only [Option.bind_eq_bind, Option.bind_some]
    rw [hstore₂, Option.bind_some, hstore₃, Option.bind_some, hstore₄, Option.bind_some, hrev]
  · rw [hexText, ← hchars]
    rwa [List.reverse_append, List.reverse_append] at htext

theorem natCast_of_nonneg (hn : 0 ≤ n) : ∃ k : Nat, n = k := ⟨n.toNat, by omega⟩

theorem decimalText_of_nonneg (hn : 0 ≤ n) : decimalText n = decimalNumeral n := by
  obtain ⟨k, rfl⟩ := natCast_of_nonneg hn
  rw [decimalNumeral, if_neg (by omega), List.nil_append]
  exact reverse_digitChars (by decide) decimalDigit_natCast k

theorem hexText_of_nonneg (hn : 0 ≤ n) (hlt : n < 2 ^ 31) : hexText n = hexNumeral n := by
  obtain ⟨k, rfl⟩ := natCast_of_nonneg hn
  have hmod : ((k : Int) % 2 ^ 32).toNat = k := by omega
  rw [hexNumeral, hmod]
  exact congrArg ([48, 120] ++ ·) (reverse_digitChars (by decide) hexDigit_natCast k)

/-- The loop ends after one digit, and nothing writes a sign. -/
theorem length_decimalText_of_neg (hn : n < 0) : (decimalText n).length = 1 := by
  have hlast : ¬ n.tdiv 10 > 0 := fun hmore => by
    have := (tdiv_pos (by decide) hmore).1
    omega
  rw [decimalText, digitChars_last hlast]
  rfl

theorem length_decimalNumeral_of_neg (hn : n < 0) : 2 ≤ (decimalNumeral n).length := by
  have hpos := Nat.length_toDigits_pos (b := 10) (n := n.natAbs)
  rw [decimalNumeral, if_pos hn, List.length_append, List.length_map, List.length_singleton]
  omega

/-- The functions write the numerals of the numbers that are not negative. -/
theorem number_round_trips_iff (n : Int32) : RoundTrips n ↔ 0 ≤ n.toInt := by
  have hlt : n.toInt < 2 ^ 31 := n.toInt_lt
  constructor
  · intro h
    by_contra hneg
    have hneg : n.toInt < 0 := by omega
    have hbuf : Buffer (fun _ => some 0) 1 := fun _ _ _ => rfl
    obtain ⟨m, hrun, htext⟩ := intToString_spec hlt hbuf
    obtain ⟨m', hrun', htext'⟩ := h.decimal _ 1 hbuf
    rw [hrun] at hrun'
    obtain rfl : m = m' := Option.some.inj hrun'
    have heq := congrArg List.length (htext.unique htext')
    have h1 := length_decimalText_of_neg hneg
    have h2 := length_decimalNumeral_of_neg hneg
    omega
  · intro hn
    constructor
    · intro m str hbuf
      rw [← decimalText_of_nonneg hn]
      exact intToString_spec hlt hbuf
    · exact readDecimal_decimalNumeral n.toInt
    · intro m str hbuf
      rw [← hexText_of_nonneg hn hlt]
      exact intToHexstring_spec hlt hbuf
    · exact readHex_hexNumeral n

/-- `-5` is written as `+`. -/
theorem not_number_round_trips : ¬ ∀ n, RoundTrips n := by
  intro hall
  have hbuf : Buffer (fun _ => some 0) 1 := fun _ _ _ => rfl
  obtain ⟨m, hrun, htext⟩ := intToString_spec (n := -5) (by decide) hbuf
  obtain ⟨m', hrun', htext'⟩ := (hall (-5)).decimal _ 1 hbuf
  have hval : (-5 : Int32).toInt = -5 := rfl
  rw [hval, hrun] at hrun'
  obtain rfl : m = m' := Option.some.inj hrun'
  have hplus : decimalText (-5) = [43] := by
    rw [decimalText, digitChars_last (by decide)]
    rfl
  rw [hval] at htext'
  have heq := htext.unique htext'
  rw [hplus] at heq
  have hnum : decimalNumeral (-5) = [45, 53] := rfl
  rw [hnum] at heq
  exact absurd heq (by decide)

end Functions

end Longhorn.NumberText
