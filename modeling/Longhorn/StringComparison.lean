import Mathlib.Data.Int.Basic
import Longhorn.StreamModel
import Longhorn.StringModel

/-!
`strncmp` against `strcmp` on the first characters.
-/

namespace Longhorn.StringComparison

open Longhorn.Foundations.CStrings
open Longhorn.StringModel
open Longhorn.StreamModel (CString)

/-- The difference at the first place where two texts, with their NULs, differ. -/
def difference : List Int8 → List Int8 → Int
  | [], [] => 0
  | [], d :: _ => 0 - d.toInt
  | c :: _, [] => c.toInt - 0
  | c :: a, d :: b => if c = d then difference a b else c.toInt - d.toInt

/-- `strncmp` has the sign of `strcmp` on the first `n` characters, and needs no others. -/
def ComparesPrefixes (a b : CString) (n : Nat) : Prop :=
  ∀ (m : Memory) (p q : Nat), PrefixAt m p a.text n → PrefixAt m q b.text n →
    ∃ r, strncmp m p q n = some r ∧
      ∀ (m' : Memory) (p' q' : Nat), StringAt m' p' (a.text.take n) →
        StringAt m' q' (b.text.take n) →
        ∃ r', strcmp m' p' q' = some r' ∧ r.sign = r'.sign

section Loops

variable {m : Memory} {p q i n : Nat} {a b : List Int8}

theorem strcmpLoop_eq (ha : StringAt m (p + i) a) (hb : StringAt m (q + i) b) :
    m.strcmpLoop p q i = some (difference a b) := by
  induction a generalizing b i with
  | nil =>
      have hp := stringAt_nil.mp ha
      cases b with
      | nil =>
          rw [Memory.strcmpLoop, hp, stringAt_nil.mp hb]
          rfl
      | cons d b =>
          obtain ⟨hq, hd, _⟩ := stringAt_cons.mp hb
          rw [Memory.strcmpLoop, hp, hq]
          exact if_neg hd.symm
  | cons c a ih =>
      obtain ⟨hp, hc, ha⟩ := stringAt_cons.mp ha
      cases b with
      | nil =>
          rw [Memory.strcmpLoop, hp, stringAt_nil.mp hb]
          exact if_neg hc
      | cons d b =>
          obtain ⟨hq, _, hb⟩ := stringAt_cons.mp hb
          rw [Memory.strcmpLoop, hp, hq, difference]
          by_cases hcd : c = d
          · rw [if_pos hcd]
            exact (if_pos hcd).trans ((if_neg hc).trans (ih ha hb))
          · rw [if_neg hcd]
            exact if_neg hcd

theorem strcmp_eq (ha : StringAt m p a) (hb : StringAt m q b) :
    strcmp m p q = some (difference a b) :=
  strcmpLoop_eq ha hb

/-- If the loop ends at a character, `strncmp` compares the first `n` characters. -/
theorem strncmpLoop_eq (ha : BytesAt m (p + i) ((a ++ [0]).take n)) (hazero : 0 ∉ a)
    (hb : BytesAt m (q + i) ((b ++ [0]).take n)) (hbzero : 0 ∉ b)
    (hends : a.take n ≠ b.take n ∨ a.length < n) :
    m.strncmpLoop p q (i + n) i = some (difference (a.take n) (b.take n)) := by
  induction n generalizing a b i with
  | zero => exact absurd rfl (hends.resolve_right (Nat.not_lt_zero _))
  | succ n ih =>
      have hlt : i < i + (n + 1) := by omega
      rw [Memory.strncmpLoop, if_pos hlt]
      cases a with
      | nil =>
          have hp : m (p + i) = some 0 := ha.1
          cases b with
          | nil =>
              have hq : m (q + i) = some 0 := hb.1
              rw [hp, hq]
              rfl
          | cons d b =>
              have hq : m (q + i) = some d := hb.1
              have hd : 0 ≠ d := fun heq => hbzero (heq ▸ List.mem_cons_self)
              rw [hp, hq]
              exact if_neg hd
      | cons c a =>
          have hp : m (p + i) = some c := ha.1
          have hc : c ≠ 0 := fun heq => hazero (heq ▸ List.mem_cons_self)
          cases b with
          | nil =>
              have hq : m (q + i) = some 0 := hb.1
              rw [hp, hq]
              exact if_neg hc
          | cons d b =>
              have hq : m (q + i) = some d := hb.1
              rw [hp, hq, List.take_succ_cons, List.take_succ_cons, difference]
              by_cases hcd : c = d
              · have hrest : a.take n ≠ b.take n ∨ a.length < n := by
                  refine hends.imp (fun hne heq => hne ?_) Nat.lt_of_succ_lt_succ
                  rw [List.take_succ_cons, List.take_succ_cons, heq, hcd]
                have hnext : i + (n + 1) = i + 1 + n := by omega
                rw [if_pos hcd, hnext]
                refine (if_pos hcd).trans ((if_neg hc).trans ?_)
                exact ih ha.2 (fun hmem => hazero (List.mem_cons_of_mem _ hmem)) hb.2
                  (fun hmem => hbzero (List.mem_cons_of_mem _ hmem)) hrest
              · rw [if_neg hcd]
                exact if_neg hcd

theorem strncmpLoop_of_common {cs : List Int8} (hp : BytesAt m (p + i) cs)
    (hq : BytesAt m (q + i) cs) (hzero : 0 ∉ cs) (hn : i + cs.length ≤ n) :
    m.strncmpLoop p q n i = m.strncmpLoop p q n (i + cs.length) := by
  induction cs generalizing i with
  | nil => rfl
  | cons c cs ih =>
      rw [List.mem_cons, not_or] at hzero
      rw [List.length_cons] at hn
      have hlt : i < n := by omega
      rw [Memory.strncmpLoop, if_pos hlt, hp.1, hq.1]
      refine (if_pos rfl).trans ((if_neg (Ne.symm hzero.1)).trans ?_)
      rw [List.length_cons, Nat.add_comm cs.length 1, ← Nat.add_assoc]
      exact ih hp.2 hq.2 hzero.2 (by omega)

end Loops

/-- `strncmp` compares the prefixes if they differ or the texts end in front of `n`. -/
theorem strncmp_compares_iff (a b : CString) (n : Nat) :
    ComparesPrefixes a b n ↔ a.text.take n ≠ b.text.take n ∨ a.text.length < n := by
  constructor
  · intro h
    by_contra hcond
    obtain ⟨heq, hlen⟩ := not_or.mp hcond
    rw [not_not] at heq
    rw [not_lt] at hlen
    have hzero : 0 ∉ a.text.take n := fun hmem => a.nonzero (List.mem_of_mem_take hmem)
    have htake : (a.text ++ [0]).take n = a.text.take n := List.take_append_of_le_length hlen
    have hlenb : n ≤ b.text.length := by
      have := congrArg List.length heq
      rw [List.length_take, List.length_take] at this
      omega
    have hm : BytesAt (placed 1 (a.text.take n)) 1 (a.text.take n) := bytesAt_placed
    have hlent : (a.text.take n).length = n := by rw [List.length_take, Nat.min_eq_left hlen]
    obtain ⟨r, hr, _⟩ := h (placed 1 (a.text.take n)) 1 1 ⟨a.nonzero, htake ▸ hm⟩
      ⟨b.nonzero, by rw [List.take_append_of_le_length hlenb, ← heq]; exact hm⟩
    have hnext := strncmpLoop_of_common (i := 0) hm hm hzero (by rw [Nat.zero_add, hlent])
    have hend := placed_end 1 (a.text.take n)
    rw [hlent] at hend
    rw [strncmp, hnext, hlent, Memory.strncmpLoop, if_neg (by omega), Nat.zero_add, hend] at hr
    cases hr
  · intro hcond m p q ha hb
    have hrun := strncmpLoop_eq (i := 0) ha.2 ha.1 hb.2 hb.1 hcond
    rw [Nat.zero_add] at hrun
    refine ⟨_, hrun, ?_⟩
    intro m' p' q' ha' hb'
    exact ⟨_, strcmp_eq ha' hb', rfl⟩

/-- `ab` and `ac` differ only behind their first character. -/
theorem not_strncmp_compares :
    ¬ ∀ (a b : CString) (n : Nat), ComparesPrefixes a b n := by
  intro hall
  have hzero : (0 : Int8) ∉ ([97, 98, 0] : List Int8).take 2 ∧
      (0 : Int8) ∉ ([97, 99, 0] : List Int8).take 2 := by decide
  obtain ⟨r, hr, hsign⟩ := hall ⟨[97, 98], hzero.1⟩ ⟨[97, 99], hzero.2⟩ 1
    (placed 1 [97, 98, 0, 97, 99, 0]) 1 4 ⟨hzero.1, rfl, trivial⟩ ⟨hzero.2, rfl, trivial⟩
  have hstring : StringAt (placed 1 [97, 0]) 1 [97] := ⟨by decide, bytesAt_placed⟩
  obtain ⟨r', hr', heq⟩ := hsign (placed 1 [97, 0]) 1 1 hstring hstring
  rw [strcmp_eq hstring hstring] at hr'
  have hr' : 0 = r' := Option.some.inj hr'
  have hrun : strncmp (placed 1 [97, 98, 0, 97, 99, 0]) 1 4 1 = some (-1) := by
    rw [strncmp, Memory.strncmpLoop, Memory.strncmpLoop]
    rfl
  rw [hrun] at hr
  have hr : -1 = r := Option.some.inj hr
  rw [← hr, ← hr'] at heq
  exact absurd heq (by decide)

end Longhorn.StringComparison
