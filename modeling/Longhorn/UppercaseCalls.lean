import Longhorn.Foundations.TransitionRuns
import Longhorn.StringModel

/-!
Calls of `to_uppercase` of `libc/string.c`, which share its static buffer.
-/

namespace Longhorn.UppercaseCalls

open Longhorn.Foundations.CStrings
open Longhorn.Foundations.TransitionRuns
open Longhorn.StringModel

def upperSize : Nat := 256

/-- A call with a string that fits into the buffer, after which only the buffer must be as in
`m`.  A C string lies in one object, so it does not run into the buffer from below. -/
structure UpperCall (up : Nat) (m before : Memory) (str : Nat) (text : List Int8) : Prop where
  buffer : ∀ a, up ≤ a → a < up + upperSize → before a = m a
  string : StringAt before str text
  short : text.length < upperSize
  apart : up ≤ str ∨ str + text.length < up

def UpperStep (up : Nat) (m : Memory) (text : List Int8) (m' : Memory) : Prop :=
  ∃ before str, UpperCall up m before str text ∧ toUppercase before up str = some m'

/-- A place of the buffer is zero if no text has reached it yet. -/
def Filled (up : Nat) (texts : List (List Int8)) (m : Memory) : Prop :=
  ∀ p, p < upperSize → ∃ c, m (up + p) = some c ∧ (c = 0 ↔ ∀ s ∈ texts, s.length ≤ p)

/-- In the ASCII characters it is the upper case. -/
theorem upperChar_ofNat (n : Fin 128) :
    upperChar (Int8.ofNat n) = Int8.ofNat (Char.ofNat n).toUpper.toNat := by
  decide +revert

section Calls

variable {m before : Memory} {up str p q : Nat} {c : Int8} {text : List Int8}
  {texts : List (List Int8)}

theorem upperChar_ne_zero (hc : c ≠ 0) : upperChar c ≠ 0 := by
  rw [upperChar]
  by_cases hletter : c ≥ 97 ∧ c ≤ 122
  · rw [if_pos hletter]
    intro heq
    rw [Int8.sub_eq_iff_eq_add] at heq
    rw [heq] at hletter
    exact absurd hletter (by decide)
  · rwa [if_neg hletter]

theorem zero_notMem_upper (h : 0 ∉ text) : 0 ∉ text.map upperChar := by
  intro hmem
  obtain ⟨c, hc, heq⟩ := List.mem_map.mp hmem
  exact upperChar_ne_zero (fun hzero => h (hzero ▸ hc)) heq

/-- The loop writes each place of the buffer before or where it reads the string. -/
theorem upperLoop_spec (h : StringAt m q text) (hroom : Room m p text.length)
    (hapart : p ≤ q ∨ q + text.length < p) :
    ∃ m', m.upperLoop p q = some m' ∧ BytesAt m' p (text.map upperChar) ∧
      ∀ a, a < p ∨ p + text.length ≤ a → m' a = m a := by
  induction text generalizing m p q with
  | nil =>
      refine ⟨m, ?_, trivial, fun _ _ => rfl⟩
      rw [Memory.upperLoop, stringAt_nil.mp h]
      rfl
  | cons c text ih =>
      obtain ⟨hc, hne, hrest⟩ := stringAt_cons.mp h
      rw [List.length_cons] at hroom hapart
      obtain ⟨m', hrun, hbytes, hkept⟩ := ih (m := Function.update m p (some (upperChar c)))
        (hrest.congr fun a _ _ => Function.update_of_ne (by omega) _ _)
        ((hroom.mono (by omega) (by omega)).update _ _ : Room _ (p + 1) _) (by omega)
      refine ⟨m', ?_, ⟨?_, hbytes⟩, ?_⟩
      · rw [Memory.upperLoop, hc]
        refine (if_pos hne).trans ?_
        exact (hroom.store_bind (Nat.le_refl _) (by omega) _ _).trans hrun
      · rw [hkept p (by omega), Function.update_self]
      · intro a ha
        rw [List.length_cons] at ha
        rw [hkept a (by omega), Function.update_of_ne (by omega)]

theorem Filled.congr (h : Filled up texts m)
    (heq : ∀ a, up ≤ a → a < up + upperSize → before a = m a) : Filled up texts before := by
  intro p hp
  obtain ⟨c, hc, hzero⟩ := h p hp
  exact ⟨c, by rw [heq _ (Nat.le_add_right _ _) (by omega), hc], hzero⟩

theorem Filled.room (h : Filled up texts m) : Room m up upperSize := by
  intro a ha hlt
  obtain ⟨c, hc, _⟩ := h (a - up) (by omega)
  rw [Nat.add_sub_cancel' ha] at hc
  rw [hc]
  rfl

theorem toUppercase_spec (h : Filled up texts m) (hcall : UpperCall up m before str text) :
    ∃ m', toUppercase before up str = some m' ∧ BytesAt m' up (text.map upperChar) ∧
      ∀ a, up + text.length ≤ a → m' a = before a := by
  have hshort := hcall.short
  have hroom := (h.congr hcall.buffer).room.mono (Nat.le_refl up)
    (k := text.length) (by omega)
  obtain ⟨m', hrun, hbytes, hkept⟩ := upperLoop_spec hcall.string hroom hcall.apart
  exact ⟨m', hrun, hbytes, fun a ha => hkept a (Or.inr ha)⟩

theorem Filled.step {m' : Memory} (h : Filled up texts m) (hstep : UpperStep up m text m') :
    Filled up (texts ++ [text]) m' := by
  obtain ⟨before, str, hcall, hrun⟩ := hstep
  obtain ⟨m₁, hrun₁, hbytes, hkept⟩ := toUppercase_spec h hcall
  cases hrun.symm.trans hrun₁
  intro p hp
  by_cases hlt : p < text.length
  · have hread := hbytes.read (i := p) (by rwa [List.length_map])
    refine ⟨_, hread, iff_of_false ?_ ?_⟩
    · exact fun hzero => zero_notMem_upper hcall.string.1 (hzero ▸ List.getElem_mem _)
    · exact fun hall => Nat.not_lt_of_le (hall text (by simp)) hlt
  · obtain ⟨c, hc, hzero⟩ := h.congr hcall.buffer p hp
    refine ⟨c, by rw [hkept _ (by omega), hc], hzero.trans ?_⟩
    rw [List.forall_mem_append, List.forall_mem_singleton, and_iff_left (Nat.le_of_not_lt hlt)]

theorem Filled.run {m' : Memory} {more : List (List Int8)} (h : Filled up texts m)
    (hrun : Run (UpperStep up) m more m') : Filled up (texts ++ more) m' :=
  hrun.trace_invariant (Filled up) (fun _ _ _ _ hs hstep => hs.step hstep) h

/-- The result ends where the buffer was zero before the call. -/
theorem toUppercase_iff (h : Filled up texts m) (hcall : UpperCall up m before str text) :
    ∃ m', toUppercase before up str = some m' ∧
      (StringAt m' up (text.map upperChar) ↔ ∀ s ∈ texts, s.length ≤ text.length) := by
  obtain ⟨m', hrun, hbytes, hkept⟩ := toUppercase_spec h hcall
  obtain ⟨c, hc, hzero⟩ := h.congr hcall.buffer _ hcall.short
  refine ⟨m', hrun, ?_⟩
  rw [← hzero, StringAt, bytesAt_append, and_iff_right (zero_notMem_upper hcall.string.1),
    and_iff_right hbytes, List.length_map, BytesAt, hkept _ (Nat.le_refl _), hc, Option.some.injEq]
  exact and_iff_left trivial

theorem filled_nil (hzero : ∀ a, up ≤ a → a < up + upperSize → m a = some 0) : Filled up [] m :=
  fun p hp => ⟨0, hzero _ (Nat.le_add_right _ _) (by omega), iff_of_true rfl nofun⟩

end Calls

/-- After any calls, a call gives the upper case of its own string exactly if no string
before was longer. -/
theorem to_uppercase_iff {m₀ m before : Memory} {up str : Nat} {text : List Int8}
    {texts : List (List Int8)} (hzero : ∀ a, up ≤ a → a < up + upperSize → m₀ a = some 0)
    (hrun : Run (UpperStep up) m₀ texts m) (hcall : UpperCall up m before str text) :
    ∃ m', toUppercase before up str = some m' ∧
      (StringAt m' up (text.map upperChar) ↔ ∀ s ∈ texts, s.length ≤ text.length) :=
  toUppercase_iff ((filled_nil hzero).run hrun) hcall

/-- The zeroed buffer, and the strings `a` and `bc` behind it. -/
def twoStrings : Memory := placed 1 (List.replicate upperSize 0 ++ [97, 0, 98, 99, 0])

theorem twoStrings_zero : ∀ a, 1 ≤ a → a < 1 + upperSize → twoStrings a = some 0 := by
  intro a ha hlt
  have hbytes : BytesAt twoStrings 1 (List.replicate upperSize 0) :=
    (bytesAt_append.mp bytesAt_placed).1
  have hread := hbytes.read (i := a - 1) (by rw [List.length_replicate]; omega)
  rwa [Nat.add_sub_cancel' ha, List.getElem_replicate] at hread

/-- Either string may be converted as long as they are both there. -/
theorem call_twoStrings {m : Memory} (hkept : ∀ a, 1 + upperSize ≤ a → m a = twoStrings a) :
    UpperCall 1 m m 257 [97] ∧ UpperCall 1 m m 259 [98, 99] := by
  have hplaced : BytesAt twoStrings 1 (List.replicate upperSize 0 ++ ([97, 0] ++ [98, 99, 0])) :=
    bytesAt_placed
  have hbytes := (bytesAt_append.mp hplaced).2
  rw [List.length_replicate] at hbytes
  have hkept_bytes : BytesAt m (1 + upperSize) ([97, 0] ++ [98, 99, 0]) :=
    hbytes.congr fun a ha _ => hkept a ha
  have hstrings := bytesAt_append.mp hkept_bytes
  exact ⟨⟨fun _ _ _ => rfl, ⟨by decide, hstrings.1⟩, by decide, by decide⟩,
    ⟨fun _ _ _ => rfl, ⟨by decide, hstrings.2⟩, by decide, by decide⟩⟩

theorem run_twoStrings {str : Nat} {text : List Int8}
    (hcall : UpperCall 1 twoStrings twoStrings str text) :
    ∃ m, Run (UpperStep 1) twoStrings [text] m ∧
      ∀ a, 1 + upperSize ≤ a → m a = twoStrings a := by
  have hshort := hcall.short
  obtain ⟨m, hrun, _, hkept⟩ := toUppercase_spec (filled_nil twoStrings_zero) hcall
  exact ⟨m, .single ⟨_, _, hcall, hrun⟩, fun a ha => hkept a (by omega)⟩

/-- The call for `bc` after the one for `a`. -/
theorem to_uppercase_iff_longer : ∃ m m', Run (UpperStep 1) twoStrings [[97]] m ∧
    toUppercase m 1 259 = some m' ∧ StringAt m' 1 [66, 67] := by
  obtain ⟨m, hrun, hkept⟩ := run_twoStrings (call_twoStrings fun _ _ => rfl).1
  obtain ⟨m', hresult, hiff⟩ := to_uppercase_iff twoStrings_zero hrun (call_twoStrings hkept).2
  exact ⟨m, m', hrun, hresult, hiff.mpr (by decide)⟩

/-- The call for `a` after the one for `bc`, whose last letter is left over. -/
theorem not_to_uppercase : ¬ ∀ (m₀ m before : Memory) (up str : Nat) (text : List Int8)
    (texts : List (List Int8)), (∀ a, up ≤ a → a < up + upperSize → m₀ a = some 0) →
    Run (UpperStep up) m₀ texts m → UpperCall up m before str text →
    ∃ m', toUppercase before up str = some m' ∧ StringAt m' up (text.map upperChar) := by
  intro hall
  obtain ⟨m, hrun, hkept⟩ := run_twoStrings (call_twoStrings fun _ _ => rfl).2
  have hcall := (call_twoStrings hkept).1
  obtain ⟨m', hresult, hstring⟩ := hall _ _ _ _ _ _ _ twoStrings_zero hrun hcall
  obtain ⟨m₁, hresult₁, hiff⟩ := toUppercase_iff ((filled_nil twoStrings_zero).run hrun) hcall
  cases hresult.symm.trans hresult₁
  exact absurd (hiff.mp hstring) (by decide)

end Longhorn.UppercaseCalls
