import Mathlib.Data.List.DropRight
import Longhorn.StringModel

/-!
Which texts `trim` and `strim` of `libc/string.c` trim.
-/

namespace Longhorn.Trimming

open Longhorn.Foundations.CStrings
open Longhorn.StringModel

def isSpace (c : Int8) : Bool := c = 32

/-- A text without its leading and its trailing spaces. -/
def trimmed (s : List Int8) : List Int8 := (s.dropWhile isSpace).rdropWhile isSpace

/-- The result is a string with this text. -/
def Yields (result : Option (Memory × Nat)) (s : List Int8) : Prop :=
  ∃ m' p, result = some (m', p) ∧ p ≠ 0 ∧ StringAt m' p s

/-- A string, and a buffer apart from it that has room for the trimmed text. -/
structure TrimCall (m : Memory) (str buf : Nat) (s : List Int8) : Prop where
  string : StringAt m str s
  str_pos : 0 < str
  str_lt : str + s.length < 2 ^ 32
  buf_pos : 0 < buf
  room : Room m buf ((trimmed s).length + 1)
  apart : buf + (trimmed s).length < str ∨ str + s.length < buf

section Texts

variable {s l d : List Int8}

theorem text_eq (s : List Int8) :
    s = s.takeWhile isSpace ++ (trimmed s ++ (s.dropWhile isSpace).rtakeWhile isSpace) := by
  rw [trimmed, List.rdropWhile_append_rtakeWhile, List.takeWhile_append_dropWhile]

theorem eq_replicate_of_spaces (h : ∀ c ∈ l, isSpace c = true) : l = List.replicate l.length 32 :=
  List.eq_replicate_iff.mpr ⟨rfl, fun c hc => of_decide_eq_true (h c hc)⟩

/-- Only leading and trailing spaces are removed. -/
theorem exists_spaces (s : List Int8) :
    ∃ a b, s = List.replicate a 32 ++ trimmed s ++ List.replicate b 32 := by
  have hfirst := eq_replicate_of_spaces (l := s.takeWhile isSpace) fun _ => List.mem_takeWhile_imp
  have hlast := eq_replicate_of_spaces (l := (s.dropWhile isSpace).rtakeWhile isSpace)
    fun _ => List.mem_rtakeWhile_imp
  refine ⟨(s.takeWhile isSpace).length, ((s.dropWhile isSpace).rtakeWhile isSpace).length, ?_⟩
  rw [← hfirst, ← hlast, List.append_assoc]
  exact text_eq s

theorem trimmed_eq_nil_iff : trimmed s = [] ↔ ∀ c ∈ s, isSpace c = true := by
  rw [trimmed, List.rdropWhile_eq_nil_iff]
  constructor
  · intro h c hc
    rw [← List.takeWhile_append_dropWhile (p := isSpace) (l := s), List.mem_append] at hc
    exact hc.elim List.mem_takeWhile_imp (h c)
  · exact fun h c hc => h c ((List.dropWhile_sublist _).subset hc)

theorem rdropWhile_append (h : d.rdropWhile isSpace ≠ []) :
    (l ++ d).rdropWhile isSpace = l ++ d.rdropWhile isSpace := by
  rw [List.rdropWhile, ne_eq, List.reverse_eq_nil_iff] at h
  rw [List.rdropWhile, List.rdropWhile, List.reverse_append, List.dropWhile_append,
    if_neg (by simpa using h), List.reverse_append, List.reverse_reverse]

theorem rdropWhile_eq (h : trimmed s ≠ []) :
    s.rdropWhile isSpace = s.takeWhile isSpace ++ trimmed s := by
  rw [trimmed, ← rdropWhile_append h, List.takeWhile_append_dropWhile]

theorem trimmed_trimmed (s : List Int8) : trimmed (trimmed s) = trimmed s := by
  have hfirst : (trimmed s).dropWhile isSpace = trimmed s := by
    obtain ⟨r, hr⟩ : trimmed s <+: s.dropWhile isSpace := List.rdropWhile_prefix _ _
    cases ht : trimmed s with
    | nil => rfl
    | cons c t =>
        have hidem := List.dropWhile_idempotent isSpace s
        rw [← hr, ht, List.dropWhile_eq_self_iff] at hidem
        exact List.dropWhile_cons_of_neg (hidem (Nat.succ_pos _))
  calc trimmed (trimmed s) = ((trimmed s).dropWhile isSpace).rdropWhile isSpace := rfl
    _ = (trimmed s).rdropWhile isSpace := by rw [hfirst]
    _ = trimmed s := List.rdropWhile_idempotent _ _

end Texts

section Loops

variable {m : Memory} {str i : Nat} {s t : List Int8}

theorem firstLoop_eq (hn : strlen m str = some (i + t.length)) (h : StringAt m (str + i) t)
    (hi : i < 2 ^ 31) :
    m.firstLoop str i = if i + (t.takeWhile isSpace).length < 2 ^ 31
      then some (i + (t.takeWhile isSpace).length) else none := by
  induction t generalizing i with
  | nil =>
      rw [Memory.firstLoop, hn]
      refine (if_neg (Nat.lt_irrefl _)).trans ?_
      exact (if_pos hi).symm
  | cons c t ih =>
      obtain ⟨hc, _, ht⟩ := stringAt_cons.mp h
      rw [List.length_cons] at hn
      rw [Memory.firstLoop, hn, hc]
      refine (if_pos (by omega)).trans ?_
      by_cases hspace : c = 32
      · have htake : (c :: t).takeWhile isSpace = c :: t.takeWhile isSpace :=
          List.takeWhile_cons_of_pos (decide_eq_true hspace)
        have hlen : i + ((c :: t).takeWhile isSpace).length =
            i + 1 + (t.takeWhile isSpace).length := by
          rw [htake, List.length_cons]
          omega
        rw [hlen]
        refine (if_pos hspace).trans ?_
        by_cases hnext : i + 1 < 2 ^ 31
        · refine (if_pos hnext).trans (ih ?_ ht hnext)
          rw [hn, Nat.add_comm _ 1, Nat.add_assoc]
        · exact (if_neg hnext).trans (if_neg (by omega)).symm
      · have htake : (c :: t).takeWhile isSpace = [] :=
          List.takeWhile_cons_of_neg (by simpa [isSpace] using hspace)
        rw [htake, List.length_nil]
        exact (if_neg hspace).trans (if_pos hi).symm

theorem lastLoop_eq (h : BytesAt m str s) :
    lastLoop m str s.length = some (s.rdropWhile isSpace).length := by
  induction s using List.reverseRecOn with
  | nil => rfl
  | append_singleton s c ih =>
      obtain ⟨hs, hc, _⟩ := bytesAt_append.mp h
      rw [List.length_append, List.length_singleton, lastLoop, hc, List.rdropWhile_concat]
      by_cases hspace : c = 32
      · rw [if_pos (c := isSpace c = true) (decide_eq_true hspace)]
        exact (if_pos hspace).trans (ih hs)
      · rw [if_neg (by simpa [isSpace] using hspace), List.length_append]
        exact if_neg hspace

theorem scanEnds_eq (h : StringAt m str s) (hlt : s.length < 2 ^ 32) :
    scanEnds m str = if (s.takeWhile isSpace).length < 2 ^ 31
      then some ((s.takeWhile isSpace).length,
        if s.length ≤ 2 ^ 31 then (s.rdropWhile isSpace).length else 0)
      else none := by
  have hn := strlen_eq h
  have hfirst := firstLoop_eq (i := 0) (by rw [hn, Nat.zero_add]) h (Nat.two_pow_pos 31)
  rw [Nat.zero_add] at hfirst
  have hlast : lastLoop m str (toInt32 (s.length - 1) + 1).toNat =
      some (if s.length ≤ 2 ^ 31 then (s.rdropWhile isSpace).length else 0) := by
    by_cases hle : s.length ≤ 2 ^ 31
    · rw [toInt32_of_le hle, if_pos hle]
      exact lastLoop_eq (bytesAt_append.mp h.2).1
    · rw [toInt32_of_gt (Nat.lt_of_not_le hle) hlt, if_neg hle, lastLoop]
  rw [scanEnds, hn]
  change (m.firstLoop str 0 >>= fun i =>
    lastLoop m str (toInt32 (s.length - 1) + 1).toNat >>= fun k => some (i, k)) = _
  rw [hfirst, hlast]
  by_cases hspaces : (s.takeWhile isSpace).length < 2 ^ 31
  · rw [if_pos hspaces, if_pos hspaces]
    rfl
  · rw [if_neg hspaces, if_neg hspaces]
    rfl

end Loops

section Calls

variable {m m' : Memory} {str buf i k p : Nat} {s t : List Int8}

theorem core_le (s : List Int8) : (s.takeWhile isSpace).length + (trimmed s).length ≤ s.length := by
  have hlen := congrArg List.length (text_eq s)
  rw [List.length_append, List.length_append] at hlen
  omega

/-- The scan finds a text of two characters or more, meets itself, or overflows. -/
theorem scanEnds_cases (h : StringAt m str s) (hlt : s.length < 2 ^ 32) :
    (2 ≤ (trimmed s).length ∧ s.length ≤ 2 ^ 31) ∧ scanEnds m str =
        some ((s.takeWhile isSpace).length, (s.takeWhile isSpace).length + (trimmed s).length) ∨
      ¬(2 ≤ (trimmed s).length ∧ s.length ≤ 2 ^ 31) ∧
        ((trimmed s = [] → s.length < 2 ^ 31) ∧
            (∃ i k, scanEnds m str = some (i, k) ∧ k ≤ i + 1) ∨
          (trimmed s = [] → 2 ^ 31 ≤ s.length) ∧ scanEnds m str = none) := by
  have hscan := scanEnds_eq h hlt
  have hle := core_le s
  by_cases hblank : trimmed s = []
  · have hspaces := trimmed_eq_nil_iff.mp hblank
    refine Or.inr ⟨by simp [hblank], ?_⟩
    rw [List.takeWhile_eq_self_iff.mpr hspaces, List.rdropWhile_eq_nil_iff.mpr hspaces,
      List.length_nil, ite_self] at hscan
    by_cases hshort : s.length < 2 ^ 31
    · rw [if_pos hshort] at hscan
      exact Or.inl ⟨fun _ => hshort, _, _, hscan, Nat.zero_le _⟩
    · rw [if_neg hshort] at hscan
      exact Or.inr ⟨fun _ => Nat.le_of_not_lt hshort, hscan⟩
  · have hone := List.length_pos_iff.mpr hblank
    rw [rdropWhile_eq hblank, List.length_append] at hscan
    by_cases hlong : s.length ≤ 2 ^ 31
    · rw [if_pos (by omega), if_pos hlong] at hscan
      by_cases htwo : 2 ≤ (trimmed s).length
      · exact Or.inl ⟨⟨htwo, hlong⟩, hscan⟩
      · exact Or.inr ⟨fun hcond => htwo hcond.1,
          Or.inl ⟨fun hnil => absurd hnil hblank, _, _, hscan, by omega⟩⟩
    · refine Or.inr ⟨fun hcond => hlong hcond.2, ?_⟩
      rw [if_neg hlong] at hscan
      by_cases hspaces : (s.takeWhile isSpace).length < 2 ^ 31
      · rw [if_pos hspaces] at hscan
        exact Or.inl ⟨fun hnil => absurd hnil hblank, _, _, hscan, Nat.zero_le _⟩
      · rw [if_neg hspaces] at hscan
        exact Or.inr ⟨fun hnil => absurd hnil hblank, hscan⟩

theorem trim_of_le (h : StringAt m str s) (hscan : scanEnds m str = some (i, k)) (hle : k ≤ i + 1) :
    trim m str = some (Function.update m str (some 0), str) := by
  have hcond : k = i + 1 ∨ k < i + 1 := by omega
  rw [trim, hscan]
  refine (if_pos hcond).trans ?_
  rw [h.room.store (Nat.le_refl _) (by omega)]
  rfl

theorem trim_of_gt (h : StringAt m str s) (hscan : scanEnds m str = some (i, k)) (hgt : i + 1 < k)
    (hk : k ≤ s.length) :
    trim m str = some (Function.update m (str + k) (some 0), str + i) := by
  have hcond : ¬(k = i + 1 ∨ k < i + 1) := by omega
  rw [trim, hscan]
  refine (if_neg hcond).trans ?_
  rw [h.room.store (Nat.le_add_right _ _) (by omega)]
  rfl

theorem yields_iff (hp : 0 < p) (ht : StringAt m' p t) : Yields (some (m', p)) s ↔ s = t := by
  constructor
  · rintro ⟨_, _, heq, _, hs⟩
    cases heq
    exact hs.unique ht
  · rintro rfl
    exact ⟨m', p, rfl, Nat.ne_of_gt hp, ht⟩

theorem not_yields_none : ¬ Yields none s := by
  rintro ⟨_, _, heq, _⟩
  cases heq

/-- Where the two indices meet, `trim` leaves the empty text. -/
theorem trim_yields_of_le (h : TrimCall m str buf s) (hscan : scanEnds m str = some (i, k))
    (hle : k ≤ i + 1) : Yields (trim m str) t ↔ t = [] := by
  rw [trim_of_le h.string hscan hle]
  exact yields_iff h.str_pos (stringAt_nil.mpr (Function.update_self _ _ _))

theorem trim_yields_of_core (h : TrimCall m str buf s)
    (hscan : scanEnds m str = some ((s.takeWhile isSpace).length,
      (s.takeWhile isSpace).length + (trimmed s).length))
    (htwo : 2 ≤ (trimmed s).length) : Yields (trim m str) (trimmed s) := by
  have hstring := h.string
  rw [trim_of_gt hstring hscan (by omega) (core_le s)]
  refine (yields_iff (Nat.add_pos_left h.str_pos _) ?_).mpr rfl
  rw [text_eq s, ← List.append_assoc] at hstring
  have hcut := hstring.cut
  rw [List.length_append] at hcut
  exact hcut.append.2

theorem trim_yields_iff (h : TrimCall m str buf s) : Yields (trim m str) (trimmed s) ↔
    trimmed s = [] ∧ s.length < 2 ^ 31 ∨ 2 ≤ (trimmed s).length ∧ s.length ≤ 2 ^ 31 := by
  have hlt : s.length < 2 ^ 32 := by have := h.str_lt; omega
  rcases scanEnds_cases h.string hlt with
    ⟨hgood, hscan⟩ | ⟨hbad, ⟨hshort, i, k, hscan, hle⟩ | ⟨hlong, hscan⟩⟩
  · exact iff_of_true (trim_yields_of_core h hscan hgood.1) (Or.inr hgood)
  · rw [trim_yields_of_le h hscan hle, or_iff_left hbad]
    exact ⟨fun hnil => ⟨hnil, hshort hnil⟩, And.left⟩
  · rw [trim, hscan, or_iff_left hbad]
    exact iff_of_false not_yields_none fun hnil => Nat.not_lt_of_le (hlong hnil.1) hnil.2

theorem strim_of_le (hscan : scanEnds m str = some (i, k)) (hle : k ≤ i + 1) :
    strim m str buf = some (m, 0) := by
  have hcond : k = i + 1 ∨ k < i + 1 := by omega
  rw [strim, hscan]
  exact if_pos hcond

/-- `NULL` is no string. -/
theorem not_yields_strim_of_le (hscan : scanEnds m str = some (i, k)) (hle : k ≤ i + 1) :
    ¬ Yields (strim m str buf) t := by
  rw [strim_of_le hscan hle]
  rintro ⟨_, _, heq, hne, _⟩
  cases heq
  exact hne rfl

theorem core_bytes (h : StringAt m str s) :
    0 ∉ trimmed s ∧ BytesAt m (str + (s.takeWhile isSpace).length) (trimmed s) := by
  rw [text_eq s] at h
  have htext := (bytesAt_append.mp h.2).1
  rw [bytesAt_append, bytesAt_append] at htext
  exact ⟨fun hzero => h.1 (List.mem_append_right _ (List.mem_append_left _ hzero)), htext.2.1⟩

theorem strim_yields_of_core (h : TrimCall m str buf s)
    (hscan : scanEnds m str = some ((s.takeWhile isSpace).length,
      (s.takeWhile isSpace).length + (trimmed s).length))
    (htwo : 2 ≤ (trimmed s).length) : Yields (strim m str buf) (trimmed s) := by
  have hle := core_le s
  have hapart := h.apart
  obtain ⟨hzero, hbytes⟩ := core_bytes h.string
  obtain ⟨m', hrun, hcopied, hkept⟩ := memcpyLoop_spec (p := buf)
    (q := str + (s.takeWhile isSpace).length) (i := 0) hbytes
    (fun a ha hlt => h.room a ha (by omega)) (by omega)
  rw [Nat.add_zero] at hcopied hkept
  have hroom : (m' (buf + (trimmed s).length)).isSome := by
    rw [hkept _ (Or.inr (Nat.le_refl _))]
    exact h.room _ (Nat.le_add_right _ _) (by omega)
  have hcond : ¬((s.takeWhile isSpace).length + (trimmed s).length =
      (s.takeWhile isSpace).length + 1 ∨
      (s.takeWhile isSpace).length + (trimmed s).length < (s.takeWhile isSpace).length + 1) := by
    omega
  refine ⟨Function.update m' (buf + (trimmed s).length) (some 0), buf, ?_, Nat.ne_of_gt h.buf_pos,
    hzero, bytesAt_append.mpr ⟨?_, Function.update_self _ _ _, trivial⟩⟩
  · rw [strim, hscan]
    refine (if_neg hcond).trans ?_
    rw [Nat.add_sub_cancel_left, hrun]
    exact congrArg (Option.bind · _) (if_pos hroom)
  · exact hcopied.congr fun a _ hlt => Function.update_of_ne (by omega) _ _

theorem strim_yields_iff (h : TrimCall m str buf s) : Yields (strim m str buf) (trimmed s) ↔
    2 ≤ (trimmed s).length ∧ s.length ≤ 2 ^ 31 := by
  have hlt : s.length < 2 ^ 32 := by have := h.str_lt; omega
  rcases scanEnds_cases h.string hlt with
    ⟨hgood, hscan⟩ | ⟨hbad, ⟨_, i, k, hscan, hle⟩ | ⟨_, hscan⟩⟩
  · exact iff_of_true (strim_yields_of_core h hscan hgood.1) hgood
  · exact iff_of_false (not_yields_strim_of_le hscan hle) hbad
  · rw [strim, hscan]
    exact iff_of_false not_yields_none hbad

/-- Both functions take a text of one character for a blank one, and `strim` returns `NULL`
for a blank one. -/
theorem trim_strim_iff (h : TrimCall m str buf s) :
    (Yields (trim m str) (trimmed s) ↔
        trimmed s = [] ∧ s.length < 2 ^ 31 ∨ 2 ≤ (trimmed s).length ∧ s.length ≤ 2 ^ 31) ∧
      (Yields (strim m str buf) (trimmed s) ↔
        2 ≤ (trimmed s).length ∧ s.length ≤ 2 ^ 31) ∧
      trimmed (trimmed s) = trimmed s ∧
      ∃ a b, s = List.replicate a 32 ++ trimmed s ++ List.replicate b 32 :=
  ⟨trim_yields_iff h, strim_yields_iff h, trimmed_trimmed s, exists_spaces s⟩

end Calls

/-- A string of these characters at 1, and eight more bytes behind it. -/
def stringAndBuffer (s : List Int8) : Memory := placed 1 (s ++ 0 :: List.replicate 8 0)

theorem trimCall_stringAndBuffer {s : List Int8} (hzero : 0 ∉ s) (hlen : s.length ≤ 7) :
    TrimCall (stringAndBuffer s) 1 (s.length + 2) s := by
  have hbytes : BytesAt (stringAndBuffer s) 1 (s ++ 0 :: List.replicate 8 0) := bytesAt_placed
  have hle := core_le s
  have hroom := (bytesAt_append.mp hbytes).2.2.room
  rw [List.length_replicate] at hroom
  rw [List.append_cons, bytesAt_append] at hbytes
  exact ⟨⟨hzero, hbytes.1⟩, by omega, by omega, by omega, hroom.mono (by omega) (by omega),
    by omega⟩

theorem trim_strim_iff_two : Yields (trim (stringAndBuffer [32, 97, 98, 32]) 1) [97, 98] ∧
    Yields (strim (stringAndBuffer [32, 97, 98, 32]) 1 6) [97, 98] := by
  have hcall := trimCall_stringAndBuffer (s := [32, 97, 98, 32]) (by decide) (by decide)
  have hcore : trimmed [32, 97, 98, 32] = [97, 98] := by decide
  obtain ⟨htrim, hstrim, _⟩ := trim_strim_iff hcall
  rw [hcore] at htrim hstrim
  exact ⟨htrim.mpr (Or.inr ⟨by decide, by decide⟩), hstrim.mpr ⟨by decide, by decide⟩⟩

/-- `a` is trimmed to the empty text, and `strim` returns `NULL` for it. -/
theorem not_trim_strim : ¬ Yields (trim (stringAndBuffer [97]) 1) [97] ∧
    ¬ Yields (strim (stringAndBuffer [97]) 1 3) [97] := by
  have hcall := trimCall_stringAndBuffer (s := [97]) (by decide) (by decide)
  have hcore : trimmed [97] = [97] := by decide
  have htrim := trim_yields_iff hcall
  have hstrim := strim_yields_iff hcall
  rw [hcore] at htrim hstrim
  exact ⟨mt htrim.mp (by decide), mt hstrim.mp (by decide)⟩

end Longhorn.Trimming
