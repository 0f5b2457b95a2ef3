import Mathlib.Logic.Function.Basic
import Mathlib.Data.List.Basic

/-!
NUL-terminated strings in a memory of which only some bytes may be accessed.
-/

namespace Longhorn.Foundations.CStrings

/-- The bytes that may be accessed, with their contents. -/
abbrev Bytes := Nat → Option Int8

def store (m : Bytes) (p : Nat) (c : Int8) : Option Bytes :=
  if (m p).isSome then some (Function.update m p (some c)) else none

def BytesAt (m : Bytes) : Nat → List Int8 → Prop
  | _, [] => True
  | p, c :: cs => m p = some c ∧ BytesAt m (p + 1) cs

/-- A text and the NUL behind it. -/
def StringAt (m : Bytes) (p : Nat) (s : List Int8) : Prop :=
  0 ∉ s ∧ BytesAt m p (s ++ [0])

/-- The first `n` bytes of a text and its NUL. -/
def PrefixAt (m : Bytes) (p : Nat) (s : List Int8) (n : Nat) : Prop :=
  0 ∉ s ∧ BytesAt m p ((s ++ [0]).take n)

/-- The `n` bytes at an address may be accessed. -/
def Room (m : Bytes) (p n : Nat) : Prop := ∀ a, p ≤ a → a < p + n → (m a).isSome

/-- A memory with these bytes and no others. -/
def placed (p : Nat) (cs : List Int8) : Bytes :=
  fun a => if p ≤ a then cs[a - p]? else none

variable {m m' : Bytes} {p n : Nat} {c : Int8} {s t cs ds : List Int8}

theorem bytesAt_append :
    BytesAt m p (cs ++ ds) ↔ BytesAt m p cs ∧ BytesAt m (p + cs.length) ds := by
  induction cs generalizing p with
  | nil => exact (and_iff_right trivial).symm
  | cons c cs ih =>
      rw [List.cons_append, BytesAt, BytesAt, ih, and_assoc, List.length_cons,
        Nat.add_right_comm, Nat.add_assoc]

theorem BytesAt.read (h : BytesAt m p cs) {i : Nat} (hi : i < cs.length) :
    m (p + i) = some cs[i] := by
  induction cs generalizing p i with
  | nil => exact absurd hi (Nat.not_lt_zero i)
  | cons c cs ih =>
      cases i with
      | zero => exact h.1
      | succ i =>
          have hnext : p + (i + 1) = p + 1 + i := by omega
          rw [hnext, List.getElem_cons_succ]
          exact ih h.2 (Nat.lt_of_succ_lt_succ hi)

theorem BytesAt.congr (h : BytesAt m p cs)
    (heq : ∀ a, p ≤ a → a < p + cs.length → m' a = m a) : BytesAt m' p cs := by
  induction cs generalizing p with
  | nil => trivial
  | cons c cs ih =>
      rw [List.length_cons] at heq
      refine ⟨(heq p (Nat.le_refl _) (by omega)).trans h.1, ih h.2 ?_⟩
      intro a ha hlt
      exact heq a (by omega) (by omega)

theorem BytesAt.moved {q : Nat} (h : BytesAt m p cs)
    (heq : ∀ i, i < cs.length → m' (q + i) = m (p + i)) : BytesAt m' q cs := by
  induction cs generalizing p q with
  | nil => trivial
  | cons c cs ih =>
      refine ⟨(heq 0 (Nat.succ_pos _)).trans h.1, ih h.2 fun i hi => ?_⟩
      rw [Nat.add_assoc, Nat.add_assoc, Nat.add_comm 1]
      exact heq (i + 1) (Nat.succ_lt_succ hi)

theorem stringAt_nil : StringAt m p [] ↔ m p = some 0 := by
  simp [StringAt, BytesAt]

theorem stringAt_cons : StringAt m p (c :: s) ↔ m p = some c ∧ c ≠ 0 ∧ StringAt m (p + 1) s := by
  rw [StringAt, StringAt, List.cons_append, BytesAt, List.mem_cons, not_or, ne_comm]
  tauto

theorem StringAt.append (h : StringAt m p (cs ++ s)) :
    BytesAt m p cs ∧ StringAt m (p + cs.length) s := by
  obtain ⟨hzero, hbytes⟩ := h
  rw [List.append_assoc, bytesAt_append] at hbytes
  exact ⟨hbytes.1, fun hmem => hzero (List.mem_append_right _ hmem), hbytes.2⟩

theorem StringAt.congr (h : StringAt m p s)
    (heq : ∀ a, p ≤ a → a ≤ p + s.length → m' a = m a) : StringAt m' p s := by
  refine ⟨h.1, h.2.congr ?_⟩
  rw [List.length_append, List.length_singleton]
  intro a ha hlt
  exact heq a ha (by omega)

theorem store_of_some (h : m p = some c) (d : Int8) :
    store m p d = some (Function.update m p (some d)) := by
  rw [store, h]
  rfl

theorem Room.store (h : Room m p n) {q : Nat} (hq : p ≤ q) (hlt : q < p + n) (d : Int8) :
    CStrings.store m q d = some (Function.update m q (some d)) :=
  if_pos (h q hq hlt)

theorem Room.store_bind {β : Type} (h : Room m p n) {q : Nat} (hq : p ≤ q) (hlt : q < p + n)
    (d : Int8) (f : Bytes → Option β) :
    (CStrings.store m q d >>= f) = f (Function.update m q (some d)) := by
  rw [h.store hq hlt]
  rfl

theorem Room.mono {q k : Nat} (h : Room m p n) (hp : p ≤ q) (hn : q + k ≤ p + n) : Room m q k :=
  fun a ha hlt => h a (by omega) (by omega)

theorem Room.update (h : Room m p n) (q : Nat) (d : Int8) :
    Room (Function.update m q (some d)) p n := by
  intro a ha hlt
  by_cases hq : a = q
  · rw [hq, Function.update_self]
    rfl
  · rw [Function.update_of_ne hq]
    exact h a ha hlt

theorem BytesAt.room (h : BytesAt m p cs) : Room m p cs.length := by
  intro a ha hlt
  have hread := h.read (i := a - p) (by omega)
  rw [Nat.add_sub_cancel' ha] at hread
  rw [hread]
  rfl

theorem StringAt.room (h : StringAt m p s) : Room m p (s.length + 1) := by
  have hroom := h.2.room
  rwa [List.length_append, List.length_singleton] at hroom

theorem StringAt.unique (hs : StringAt m p s) (ht : StringAt m p t) : s = t := by
  induction s generalizing t p with
  | nil =>
      cases t with
      | nil => rfl
      | cons c t =>
          obtain ⟨hc, hne, _⟩ := stringAt_cons.mp ht
          rw [stringAt_nil.mp hs] at hc
          exact absurd (Option.some.inj hc).symm hne
  | cons c s ih =>
      obtain ⟨hc, hne, hs⟩ := stringAt_cons.mp hs
      cases t with
      | nil =>
          rw [stringAt_nil.mp ht] at hc
          exact absurd (Option.some.inj hc).symm hne
      | cons d t =>
          obtain ⟨hd, _, ht⟩ := stringAt_cons.mp ht
          rw [hc] at hd
          rw [Option.some.inj hd, ih hs ht]

/-- A text ends where a NUL is stored. -/
theorem StringAt.cut (h : StringAt m p (cs ++ s)) :
    StringAt (Function.update m (p + cs.length) (some 0)) p cs := by
  refine ⟨fun hmem => h.1 (List.mem_append_left _ hmem), bytesAt_append.mpr ⟨?_, ?_, trivial⟩⟩
  · refine h.append.1.congr fun a _ hlt => ?_
    have hne : a ≠ p + cs.length := by omega
    exact Function.update_of_ne hne _ _
  · exact Function.update_self _ _ _

theorem bytesAt_placed : BytesAt (placed p cs) p cs := by
  induction cs generalizing p with
  | nil => trivial
  | cons c cs ih =>
      refine ⟨by simp [placed], ih.congr ?_⟩
      intro a ha _
      have hpos : a - p = a - (p + 1) + 1 := by omega
      rw [placed, placed, if_pos (by omega), if_pos ha, hpos, List.getElem?_cons_succ]

theorem placed_isSome_iff {a : Nat} : (placed p cs a).isSome ↔ p ≤ a ∧ a < p + cs.length := by
  rw [placed]
  by_cases ha : p ≤ a
  · rw [if_pos ha, isSome_getElem?]
    omega
  · rw [if_neg ha]
    exact iff_of_false nofun fun h => ha h.1

theorem placed_end (p : Nat) (cs : List Int8) : placed p cs (p + cs.length) = none := by
  rw [placed, if_pos (Nat.le_add_right _ _), Nat.add_sub_cancel_left]
  exact List.getElem?_eq_none (Nat.le_refl _)

end Longhorn.Foundations.CStrings
