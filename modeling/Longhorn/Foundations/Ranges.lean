import Mathlib.Algebra.GroupWithZero.Nat
import Mathlib.Data.List.Basic
import Mathlib.Data.List.Perm.Basic
import Mathlib.Data.Nat.Count
import Mathlib.Order.Interval.Finset.Nat

/-!
Ranges of natural numbers, first-fit search for a range on which a predicate
holds, and families of pairwise disjoint ranges whose points are all in use.
-/

namespace Longhorn.Foundations.Ranges

/-- The points `start, …, start + len - 1`. -/
structure Range where
  start : Nat
  len : Nat
  deriving DecidableEq, Repr

def Range.Covers (r : Range) (i : Nat) : Prop :=
  r.start ≤ i ∧ i < r.start + r.len

instance (r : Range) (i : Nat) : Decidable (r.Covers i) :=
  inferInstanceAs (Decidable (_ ∧ _))

/-- No point lies in both ranges. -/
def Range.Disjoint (r q : Range) : Prop :=
  ∀ i, r.Covers i → ¬ q.Covers i

theorem Range.Disjoint.symm {r q : Range} (h : r.Disjoint q) : q.Disjoint r :=
  fun i hq hr => h i hr hq

/-- The predicate holds at every point of the range. -/
def AllOn (p : Nat → Prop) (r : Range) : Prop :=
  ∀ i, r.Covers i → p i

theorem AllOn.mono {p q : Nat → Prop} {r : Range} (hpq : ∀ i, r.Covers i → p i → q i)
    (h : AllOn p r) : AllOn q r :=
  fun i hi => hpq i hi (h i hi)

theorem AllOn.disjoint {p : Nat → Prop} {r q : Range} (hr : AllOn p r)
    (hq : AllOn (fun i => ¬ p i) q) : r.Disjoint q :=
  fun i hri hqi => hq i hqi (hr i hri)

/-- `b` is the least start of a range of `n` points between `lo` and `hi` on
which `p` holds. -/
def IsFirstFit (p : Nat → Prop) (lo hi n b : Nat) : Prop :=
  (lo ≤ b ∧ b + n ≤ hi ∧ AllOn p ⟨b, n⟩) ∧ ∀ c, lo ≤ c → c < b → ¬ AllOn p ⟨c, n⟩

/-- Some range of `n` points between `lo` and `hi` satisfies `p` throughout. -/
def HasFit (p : Nat → Prop) (lo hi n : Nat) : Prop :=
  ∃ b, lo ≤ b ∧ b + n ≤ hi ∧ AllOn p ⟨b, n⟩

theorem IsFirstFit.hasFit {p : Nat → Prop} {lo hi n b : Nat} (h : IsFirstFit p lo hi n b) :
    HasFit p lo hi n :=
  ⟨b, h.1⟩

theorem IsFirstFit.unique {p : Nat → Prop} {lo hi hi' n b c : Nat}
    (hb : IsFirstFit p lo hi n b) (hc : IsFirstFit p lo hi' n c) : b = c := by
  rcases Nat.lt_trichotomy b c with h | h | h
  · exact absurd hb.1.2.2 (hc.2 b hb.1.1 h)
  · exact h
  · exact absurd hc.1.2.2 (hb.2 c hc.1.1 h)

/-- A first fit for a larger upper end already lies below any smaller end under
which some range fits. -/
theorem IsFirstFit.of_hasFit {p : Nat → Prop} {lo hi hi' n b : Nat}
    (hb : IsFirstFit p lo hi n b) (hfit : HasFit p lo hi' n) : IsFirstFit p lo hi' n b := by
  obtain ⟨c, hlo, hhi, hall⟩ := hfit
  have hle : b ≤ c := by
    by_contra hlt
    exact hb.2 c hlo (by omega) hall
  exact ⟨⟨hb.1.1, by omega, hb.1.2.2⟩, hb.2⟩

/-- Taking a range of points away from a predicate lowers its count by the length
of the range. -/
theorem count_add_len {p q : Nat → Prop} [DecidablePred p] [DecidablePred q] {r : Range}
    {n : Nat} (hr : r.start + r.len ≤ n) (hp : AllOn p r)
    (hq : ∀ i, q i ↔ p i ∧ ¬ r.Covers i) : Nat.count q n + r.len = Nat.count p n := by
  have hsplit : (Finset.range n).filter p =
      (Finset.range n).filter q ∪ Finset.Ico r.start (r.start + r.len) := by
    ext i
    simp only [Finset.mem_union, Finset.mem_filter, Finset.mem_range, Finset.mem_Ico, hq]
    constructor
    · rintro ⟨hi, hpi⟩
      by_cases hc : r.Covers i
      · exact Or.inr hc
      · exact Or.inl ⟨hi, hpi, hc⟩
    · rintro (⟨hi, hpi, _⟩ | hc)
      · exact ⟨hi, hpi⟩
      · exact ⟨by omega, hp i ⟨hc.1, hc.2⟩⟩
  have hdisj : Disjoint ((Finset.range n).filter q)
      (Finset.Ico r.start (r.start + r.len)) := by
    rw [Finset.disjoint_left]
    intro i hi hc
    exact ((hq i).mp (Finset.mem_filter.mp hi).2).2 (Finset.mem_Ico.mp hc)
  have hcard : ((Finset.range n).filter p).card = ((Finset.range n).filter q).card + r.len := by
    rw [hsplit, Finset.card_union_of_disjoint hdisj, Nat.card_Ico, Nat.add_sub_cancel_left]
  rw [Nat.count_eq_card_filter_range, Nat.count_eq_card_filter_range]
  exact hcard.symm

/-- Pairwise disjoint ranges, all of whose points satisfy `used`. -/
structure Owned (used : Nat → Prop) (live : List Range) : Prop where
  disjoint : live.Pairwise Range.Disjoint
  used : ∀ r ∈ live, AllOn used r

theorem Owned.nil (used : Nat → Prop) : Owned used [] :=
  ⟨List.Pairwise.nil, by simp⟩

/-- Handing out a range of unused points. -/
theorem Owned.cons {used used' : Nat → Prop} {live : List Range} {r : Range}
    (h : Owned used live) (hfree : AllOn (fun i => ¬ used i) r)
    (hold : ∀ i, used i → used' i) (hnew : AllOn used' r) : Owned used' (r :: live) := by
  refine ⟨List.pairwise_cons.mpr ⟨fun q hq => ?_, h.disjoint⟩, ?_⟩
  · exact ((h.used q hq).disjoint hfree).symm
  · intro q hq
    rcases List.mem_cons.mp hq with rfl | hq
    · exact hnew
    · exact (h.used q hq).mono fun i _ => hold i

theorem Owned.mono {used used' : Nat → Prop} {live : List Range} (h : Owned used live)
    (hold : ∀ i, used i → used' i) : Owned used' live :=
  ⟨h.disjoint, fun r hr => (h.used r hr).mono fun i _ => hold i⟩

theorem Owned.perm {used : Nat → Prop} {live live' : List Range} (h : Owned used live)
    (hp : live.Perm live') : Owned used live' :=
  ⟨hp.pairwise h.disjoint fun hd => hd.symm, fun r hr => h.used r (hp.mem_iff.mpr hr)⟩

theorem Owned.of_cons {used : Nat → Prop} {live : List Range} {r : Range}
    (h : Owned used (r :: live)) : Owned used live :=
  ⟨(List.pairwise_cons.mp h.disjoint).2, fun q hq => h.used q (List.mem_cons_of_mem r hq)⟩

/-- Giving a range back: the points of the others stay in use. -/
theorem Owned.tail {used used' : Nat → Prop} {live : List Range} {r : Range}
    (h : Owned used (r :: live)) (hold : ∀ i, ¬ r.Covers i → used i → used' i) :
    Owned used' live := by
  obtain ⟨hr, hd⟩ := List.pairwise_cons.mp h.disjoint
  refine ⟨hd, fun q hq => ?_⟩
  refine (h.used q (List.mem_cons_of_mem r hq)).mono fun i hi => hold i ?_
  exact fun hri => hr q hq i hri hi

theorem Owned.erase {used used' : Nat → Prop} {live : List Range} {r : Range}
    (h : Owned used live) (hr : r ∈ live) (hold : ∀ i, ¬ r.Covers i → used i → used' i) :
    Owned used' (live.erase r) :=
  (h.perm (List.perm_cons_erase hr)).tail hold

/-- The points in use are those of the ranges, and those that no range covers. -/
theorem Owned.count {used rest : Nat → Prop} [DecidablePred used] [DecidablePred rest]
    {live : List Range} {n : Nat} (h : Owned used live)
    (hend : ∀ r ∈ live, r.start + r.len ≤ n)
    (hrest : ∀ i, i < n → (rest i ↔ used i ∧ ∀ r ∈ live, ¬ r.Covers i)) :
    Nat.count used n = (live.map Range.len).sum + Nat.count rest n := by
  induction live generalizing used with
  | nil =>
      rw [List.map_nil, List.sum_nil, Nat.zero_add, Nat.count_eq_card_filter_range,
        Nat.count_eq_card_filter_range]
      refine congrArg Finset.card (Finset.filter_congr fun i hi => ?_)
      simpa using (hrest i (Finset.mem_range.mp hi)).symm
  | cons r live ih =>
      have htail : Owned (fun i => used i ∧ ¬ r.Covers i) live :=
        h.tail fun i hi hu => ⟨hu, hi⟩
      have hcount := count_add_len (hend r List.mem_cons_self)
        (h.used r List.mem_cons_self) (q := fun i => used i ∧ ¬ r.Covers i) fun _ => Iff.rfl
      have hsame := ih htail (fun q hq => hend q (List.mem_cons_of_mem r hq)) fun i hi => by
        rw [hrest i hi, List.forall_mem_cons, and_assoc]
      rw [List.map_cons, List.sum_cons]
      omega

/-- When the ranges cover every point in use, their lengths add up to the count. -/
theorem Owned.count_of_covered {used : Nat → Prop} [DecidablePred used] {live : List Range}
    {n : Nat} (h : Owned used live) (hend : ∀ r ∈ live, r.start + r.len ≤ n)
    (hcovered : ∀ i, i < n → used i → ∃ r ∈ live, r.Covers i) :
    Nat.count used n = (live.map Range.len).sum := by
  have hnone : ∀ i, i < n → (False ↔ used i ∧ ∀ r ∈ live, ¬ r.Covers i) := by
    refine fun i hi => ⟨False.elim, ?_⟩
    rintro ⟨hu, hall⟩
    obtain ⟨r, hr, hcov⟩ := hcovered i hi hu
    exact hall r hr hcov
  rw [h.count hend hnone, Nat.count_false, Nat.add_zero]

end Longhorn.Foundations.Ranges
