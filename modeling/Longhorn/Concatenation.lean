import Longhorn.StringModel

/-!
What `strncat` of `libc/string.c` appends.
-/

namespace Longhorn.Concatenation

open Longhorn.Foundations.CStrings
open Longhorn.StringModel

/-- Two strings apart from each other, with room for what is to be appended to the first:
these are all the bytes that the call may access. -/
structure Appendable (m : Memory) (dest src : Nat) (d s : List Int8) (num : Nat) : Prop where
  dest_text : StringAt m dest d
  src_text : StringAt m src s
  isSome_iff : ∀ a, (m a).isSome ↔
    dest ≤ a ∧ a ≤ dest + d.length + min num s.length ∨ src ≤ a ∧ a ≤ src + s.length
  apart : dest + d.length + min num s.length < src ∨ src + s.length < dest

/-- What `strncat` is for; nothing behind the new terminator is written. -/
def Appends (m : Memory) (dest src : Nat) (d s : List Int8) (num : Nat) : Prop :=
  ∃ m', strncat m dest src num = some m' ∧ StringAt m' dest (d ++ s.take num) ∧
    ∀ a, a < dest ∨ dest + d.length + min num s.length < a → m' a = m a

section Copying

variable {m : Memory} {dest src num i : Nat} {c : Int8} {cs d s : List Int8}

/-- Rounds that copy bytes, NULs among them, as long as the first character is none. -/
theorem strncatLoop_copies (dest : Nat) (hfirst : m src = some c) (hc : c ≠ 0)
    (hbytes : BytesAt m (src + i) cs)
    (hroom : Room m (dest + i) cs.length)
    (hapart : dest + i + cs.length ≤ src ∨ src + i + cs.length ≤ dest + i) :
    ∃ m', (∀ left, strncatLoop m dest src i (cs.length + left) =
        strncatLoop m' dest src (i + cs.length) left) ∧
      BytesAt m' (dest + i) cs ∧ ∀ a, a < dest + i ∨ dest + i + cs.length ≤ a → m' a = m a := by
  induction cs generalizing m i with
  | nil => exact ⟨m, fun left => by rw [List.length_nil, Nat.zero_add]; rfl, trivial,
      fun _ _ => rfl⟩
  | cons b cs ih =>
      rw [List.length_cons] at hroom hapart ⊢
      obtain ⟨m', hrun, hcopied, hkept⟩ := ih (m := Function.update m (dest + i) (some b))
        (i := i + 1) (by rw [Function.update_of_ne (by omega), hfirst])
        (hbytes.2.congr fun a _ _ => Function.update_of_ne (by omega) _ _)
        ((hroom.mono (by omega) (by omega)).update _ _) (by omega)
      refine ⟨m', ?_, ⟨?_, hcopied⟩, ?_⟩
      · intro left
        have hleft : cs.length + 1 + left = cs.length + left + 1 := by omega
        rw [hleft, strncatLoop, hfirst]
        refine (if_pos hc).trans ?_
        rw [hbytes.1]
        refine (hroom.store_bind (Nat.le_refl _) (by omega) b _).trans ?_
        refine (hrun left).trans ?_
        rw [Nat.add_assoc, Nat.add_comm 1]
      · rw [hkept _ (Or.inl (by omega)), Function.update_self]
      · intro a ha
        rw [hkept a (by omega), Function.update_of_ne (by omega)]

theorem strncatLoop_eq_none {left : Nat} (hfirst : m src = some c) (hc : c ≠ 0)
    (hout : m (src + i) = none ∨ m (dest + i) = none) :
    strncatLoop m dest src i (left + 1) = none := by
  rw [strncatLoop, hfirst]
  refine (if_pos hc).trans ?_
  rcases hout with hsrc | hdest
  · rw [hsrc]
    rfl
  · cases hread : m (src + i) with
    | none => rfl
    | some b =>
        have hstore : store m (dest + i) b = none := by
          rw [store, hdest]
          rfl
        exact congrArg (Option.bind · _) hstore

theorem strncat_eq (hd : StringAt m dest d) :
    strncat m dest src num = strncatLoop m (dest + d.length) src 0 num >>= fun r =>
      store r.1 (dest + d.length + r.2) 0 := by
  rw [strncat, strlen_eq hd]
  rfl

theorem Appendable.room (h : Appendable m dest src d s num) :
    Room m (dest + d.length) (min num s.length + 1) :=
  fun a ha hlt => (h.isSome_iff a).mpr (Or.inl ⟨by omega, by omega⟩)

theorem appends_of_nil (h : Appendable m dest src d [] num) : Appends m dest src d [] num := by
  have hloop : strncatLoop m (dest + d.length) src 0 num = some (m, 0) := by
    cases num with
    | zero => rfl
    | succ num =>
        rw [strncatLoop, stringAt_nil.mp h.src_text]
        rfl
  refine ⟨Function.update m (dest + d.length) (some 0), ?_, ?_, ?_⟩
  · rw [strncat_eq h.dest_text, hloop]
    exact h.room.store (Nat.le_refl _) (by omega) 0
  · rw [List.take_nil, List.append_nil]
    have hd := h.dest_text
    rw [← List.append_nil d] at hd
    exact hd.cut
  · intro a ha
    exact Function.update_of_ne (by rw [List.length_nil] at ha; omega) _ _

theorem appends_of_le (h : Appendable m dest src d (c :: s) num) (hle : num ≤ (c :: s).length) :
    Appends m dest src d (c :: s) num := by
  have hapart := h.apart
  rw [Nat.min_eq_left hle] at hapart
  have hroom := h.room
  rw [Nat.min_eq_left hle] at hroom
  have hsrc := (bytesAt_append.mp h.src_text.2).1
  obtain ⟨hfirst, hc, _⟩ := stringAt_cons.mp h.src_text
  rw [← List.take_append_drop num (c :: s), bytesAt_append] at hsrc
  have hlen : ((c :: s).take num).length = num := by rw [List.length_take, Nat.min_eq_left hle]
  obtain ⟨m', hrun, hcopied, hkept⟩ := strncatLoop_copies (dest + d.length) (i := 0) hfirst hc
    hsrc.1 (hroom.mono (Nat.le_refl _) (by omega)) (by omega)
  have hend := hrun 0
  rw [hlen] at hend
  rw [hlen, Nat.add_zero] at hkept
  have hterminator : (m' (dest + d.length + num)).isSome := by
    rw [hkept _ (Or.inr (Nat.le_refl _))]
    exact hroom _ (by omega) (by omega)
  refine ⟨Function.update m' (dest + d.length + num) (some 0), ?_, ⟨?_, ?_⟩, ?_⟩
  · rw [strncat_eq h.dest_text, ← Nat.add_zero num, hend, Nat.zero_add, Nat.add_zero]
    exact if_pos hterminator
  · rw [List.mem_append]
    exact not_or.mpr ⟨h.dest_text.1, fun hzero => h.src_text.1 (List.mem_of_mem_take hzero)⟩
  · rw [bytesAt_append, bytesAt_append, List.length_append, hlen, ← Nat.add_assoc]
    refine ⟨⟨?_, ?_⟩, Function.update_self _ _ _, trivial⟩
    · refine (bytesAt_append.mp h.dest_text.2).1.congr fun a _ hlt => ?_
      rw [Function.update_of_ne (by omega), hkept a (Or.inl hlt)]
    · exact hcopied.congr fun a _ hlt => Function.update_of_ne (by omega) _ _
  · intro a ha
    rw [Nat.min_eq_left hle] at ha
    rw [Function.update_of_ne (by omega), hkept a (by omega)]

/-- With more rounds than characters the NUL is copied, and then what is behind it. -/
theorem le_of_appends (h : Appendable m dest src d (c :: s) num)
    (happends : Appends m dest src d (c :: s) num) : num ≤ (c :: s).length := by
  by_contra hgt
  rw [Nat.not_le] at hgt
  obtain ⟨left, rfl⟩ : ∃ left, num = (c :: s ++ [0]).length + left :=
    ⟨num - ((c :: s).length + 1), by simp at hgt ⊢; omega⟩
  have hmin : min ((c :: s ++ [0]).length + left) (c :: s).length = (c :: s).length :=
    Nat.min_eq_right (Nat.le_of_lt hgt)
  have hlen : (c :: s ++ [0]).length = (c :: s).length + 1 := by
    rw [List.length_append, List.length_singleton]
  obtain ⟨hfirst, hc, _⟩ := stringAt_cons.mp h.src_text
  have hapart := h.apart
  have hroom := h.room
  have hsome := h.isSome_iff
  obtain ⟨m₂, hrun, _, hframe⟩ := happends
  rw [hmin] at hapart hroom hsome hframe
  obtain ⟨m₁, hloop, _, hkept⟩ := strncatLoop_copies (dest + d.length) (i := 0) hfirst hc
    h.src_text.2 (by rw [hlen]; exact hroom) (by rw [hlen]; omega)
  rw [hlen, Nat.add_zero] at hkept
  rw [strncat_eq h.dest_text, hloop, Nat.zero_add, hlen] at hrun
  have hsrc : (m₁ (dest + d.length + ((c :: s).length + 1))).isSome →
      dest + d.length + ((c :: s).length + 1) = src := by
    intro hin
    rw [hkept _ (Or.inr (Nat.le_refl _)), hsome] at hin
    omega
  cases left with
  | zero =>
      -- The terminator goes behind the room, to the first character of `src` if anywhere.
      have hstore : store m₁ (dest + d.length + ((c :: s).length + 1)) 0 = some m₂ := hrun
      by_cases hin : (m₁ (dest + d.length + ((c :: s).length + 1))).isSome
      · rw [store, if_pos hin, hsrc hin] at hstore
        have hkept₂ := hframe src (Or.inr (by have := hsrc hin; omega))
        rw [← Option.some.inj hstore, Function.update_self, hfirst] at hkept₂
        exact hc (Option.some.inj hkept₂).symm
      · rw [store, if_neg hin] at hstore
        cases hstore
  | succ left =>
      -- The byte behind the NUL of `src` is read, and stored behind the room.
      have hout : m₁ (src + ((c :: s).length + 1)) = none ∨
          m₁ (dest + d.length + ((c :: s).length + 1)) = none := by
        by_cases hin : (m₁ (dest + d.length + ((c :: s).length + 1))).isSome
        · have heq := hsrc hin
          rw [hkept (src + _) (by omega), ← Option.not_isSome_iff_eq_none, hsome]
          omega
        · exact Or.inr (Option.not_isSome_iff_eq_none.mp hin)
      rw [strncatLoop_eq_none (by rw [hkept src (by omega), hfirst]) hc hout] at hrun
      cases hrun

end Copying

/-- The limit must not exceed the length of `src`, unless `src` is empty. -/
theorem strncat_appends_iff {m : Memory} {dest src num : Nat} {d s : List Int8}
    (h : Appendable m dest src d s num) :
    Appends m dest src d s num ↔ num ≤ s.length ∨ s = [] := by
  cases s with
  | nil => exact iff_of_true (appends_of_nil h) (Or.inr rfl)
  | cons c s =>
      rw [or_iff_left (List.cons_ne_nil c s)]
      exact ⟨le_of_appends h, appends_of_le h⟩

/-- The string `a` with room for one more character, and another string behind it. -/
theorem appendable_a {s : List Int8} {num : Nat} (hzero : 0 ∉ s) (hmin : min num s.length = 1) :
    Appendable (placed 1 ([97, 0, 0] ++ (s ++ [0]))) 1 4 [97] s num := by
  have hbytes : BytesAt (placed 1 ([97, 0, 0] ++ (s ++ [0]))) 1 ([97, 0, 0] ++ (s ++ [0])) :=
    bytesAt_placed
  have hparts := bytesAt_append.mp hbytes
  refine ⟨⟨by decide, hparts.1.1, hparts.1.2.1, trivial⟩, ⟨hzero, hparts.2⟩, fun a => ?_, ?_⟩
  · rw [placed_isSome_iff, List.length_append, List.length_append, hmin]
    simp only [List.length_cons, List.length_nil]
    omega
  · rw [hmin]
    exact Or.inl (by decide)

theorem strncat_appends_iff_one :
    Appends (placed 1 [97, 0, 0, 98, 99, 0]) 1 4 [97] [98, 99] 1 := by
  have hcall : Appendable _ 1 4 [97] [98, 99] 1 := appendable_a (by decide) (by decide)
  exact (strncat_appends_iff hcall).mpr (Or.inl (by decide))

/-- Three characters of the string `b`. -/
theorem not_strncat_appends : ¬ ∀ (m : Memory) (dest src num : Nat) (d s : List Int8),
    Appendable m dest src d s num → Appends m dest src d s num := by
  intro hall
  have hcall : Appendable _ 1 4 [97] [98] 3 := appendable_a (by decide) (by decide)
  exact absurd (le_of_appends hcall (hall _ 1 4 3 [97] [98] hcall)) (by decide)

end Longhorn.Concatenation
