import Mathlib.Data.List.Basic
import Mathlib.Order.Bounds.Basic

/-!
Longest prefixes with a property, and lists cut into blocks by it.
-/

namespace Longhorn.Foundations.Spans

universe u

variable {α : Type u} {p : α → Prop} {s lead word rest : List α}
  {runs : List (List α × List α)}

/-- The length of the longest prefix whose elements all have the property. -/
def IsSpan (p : α → Prop) (s : List α) (n : Nat) : Prop :=
  IsGreatest {n | ∃ w, w <+: s ∧ w.length = n ∧ ∀ c ∈ w, p c} n

/-- Blocks of elements with the property and of others in turn, of which only the very first
and the very last may be empty. -/
structure Alternates (p : α → Prop) (s : List α) (runs : List (List α × List α)) : Prop where
  join : runs.flatMap (fun r => r.1 ++ r.2) = s
  inside : ∀ r ∈ runs, ∀ c ∈ r.1, p c
  outside : ∀ r ∈ runs, ∀ c ∈ r.2, ¬ p c
  inside_ne : ∀ r ∈ runs.tail, r.1 ≠ []
  outside_ne : ∀ r ∈ runs.dropLast, r.2 ≠ []
  ne : ∀ r ∈ runs, r.1 ++ r.2 ≠ []

/-- A prefix is the longest one if the next element does not have the property. -/
theorem isSpan_append (hlead : ∀ c ∈ lead, p c) (hrest : ∀ c, rest.head? = some c → ¬ p c) :
    IsSpan p (lead ++ rest) lead.length := by
  refine ⟨⟨lead, List.prefix_append _ _, rfl, hlead⟩, ?_⟩
  rintro n ⟨w, hw, rfl, hall⟩
  by_contra hlt
  rw [Nat.not_le] at hlt
  obtain ⟨t, rfl⟩ := List.prefix_of_prefix_length_le (List.prefix_append lead rest) hw
    (Nat.le_of_lt hlt)
  rw [List.prefix_append_right_inj] at hw
  cases t with
  | nil => simp at hlt
  | cons c t =>
      obtain ⟨u, rfl⟩ := hw
      exact hrest c rfl (hall c (by simp))

theorem exists_span (p : α → Prop) (s : List α) :
    ∃ lead rest, s = lead ++ rest ∧ (∀ c ∈ lead, p c) ∧ ∀ c, rest.head? = some c → ¬ p c := by
  induction s with
  | nil => exact ⟨[], [], rfl, nofun, nofun⟩
  | cons c s ih =>
      by_cases hc : p c
      · obtain ⟨lead, rest, rfl, hlead, hrest⟩ := ih
        exact ⟨c :: lead, rest, rfl, List.forall_mem_cons.mpr ⟨hc, hlead⟩, hrest⟩
      · refine ⟨[], c :: s, rfl, nofun, fun e he => ?_⟩
        rwa [← Option.some.inj he]

/-- The first two blocks of a list, which are empty only with all of it. -/
theorem exists_block (p : α → Prop) (s : List α) :
    ∃ lead word rest, s = lead ++ word ++ rest ∧ (∀ c ∈ lead, p c) ∧ (∀ c ∈ word, ¬ p c) ∧
      (∀ c, rest.head? = some c → p c) ∧ (word = [] → rest = []) := by
  obtain ⟨lead, t, rfl, hlead, ht⟩ := exists_span p s
  obtain ⟨word, rest, rfl, hword, hrest⟩ := exists_span (¬ p ·) t
  refine ⟨lead, word, rest, (List.append_assoc _ _ _).symm, hlead, hword,
    fun c hc => not_not.mp (hrest c hc), ?_⟩
  rintro rfl
  cases rest with
  | nil => rfl
  | cons c rest => exact absurd (ht c rfl) (hrest c rfl)

theorem alternates_nil : Alternates p [] [] := ⟨rfl, nofun, nofun, nofun, nofun, nofun⟩

theorem Alternates.cons (h : Alternates p rest runs) (hlead : ∀ c ∈ lead, p c)
    (hword : ∀ c ∈ word, ¬ p c) (hrest : ∀ c, rest.head? = some c → p c)
    (hend : word = [] → rest = []) (hne : lead ++ word ≠ []) :
    Alternates p (lead ++ word ++ rest) ((lead, word) :: runs) := by
  refine ⟨?_, List.forall_mem_cons.mpr ⟨hlead, h.inside⟩,
    List.forall_mem_cons.mpr ⟨hword, h.outside⟩, ?_, ?_, List.forall_mem_cons.mpr ⟨hne, h.ne⟩⟩
  · rw [List.flatMap_cons, h.join]
  · cases runs with
    | nil => nofun
    | cons r runs =>
        refine List.forall_mem_cons.mpr ⟨?_, h.inside_ne⟩
        intro hempty
        -- the rest would begin with an element without the property
        have hjoin := h.join
        have hsecond := h.ne r List.mem_cons_self
        rw [hempty, List.nil_append] at hsecond
        obtain ⟨c, t, ht⟩ := List.exists_cons_of_ne_nil hsecond
        rw [List.flatMap_cons, hempty, ht] at hjoin
        refine h.outside r List.mem_cons_self c (by rw [ht]; exact List.mem_cons_self) ?_
        exact hrest c (by rw [← hjoin]; rfl)
  · cases runs with
    | nil => nofun
    | cons r runs =>
        refine List.forall_mem_cons.mpr ⟨?_, h.outside_ne⟩
        intro hempty
        have hjoin := h.join
        rw [hend hempty, List.flatMap_cons, List.append_eq_nil_iff] at hjoin
        exact h.ne r List.mem_cons_self hjoin.1

end Longhorn.Foundations.Spans
