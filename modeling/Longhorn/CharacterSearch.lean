import Mathlib.Data.List.Induction
import Longhorn.StringModel

/-!
What `memchr`, `strchr` and `strrchr` find.
-/

namespace Longhorn.CharacterSearch

open Longhorn.Foundations.CStrings
open Longhorn.StringModel

/-- The address of the first `c` among the bytes at `p`, or `NULL` if there is none. -/
def FindsFirst (p : Nat) (bs : List Int8) (c : Int8) (r : Nat) : Prop :=
  (∃ pre post, bs = pre ++ c :: post ∧ c ∉ pre ∧ r = p + pre.length) ∨ (c ∉ bs ∧ r = 0)

def FindsLast (p : Nat) (bs : List Int8) (c : Int8) (r : Nat) : Prop :=
  (∃ pre post, bs = pre ++ c :: post ∧ c ∉ post ∧ r = p + pre.length) ∨ (c ∉ bs ∧ r = 0)

section Bytes

variable {c : UInt8} {b : Int8}

theorem toInt_toInt8 (hc : c < 128) : c.toInt8.toInt = (c.toNat : Int) := by
  have hlt : c.toNat < 128 := hc
  have hbits : c.toInt8.toInt = c.toBitVec.toInt := rfl
  have hnat : c.toBitVec.toNat = c.toNat := rfl
  rw [hbits, BitVec.toInt_eq_toNat_cond, hnat, if_pos (by omega)]

/-- A `char` equals an `unsigned char` only below 128. -/
theorem toInt_eq_iff : b.toInt = (c.toNat : Int) % 256 ↔ c < 128 ∧ b = c.toInt8 := by
  have hmod : (c.toNat : Int) % 256 = c.toNat := by
    have := c.toNat_lt
    omega
  rw [hmod]
  constructor
  · intro h
    have hle := b.toInt_lt
    have hlt : c < 128 := by
      change c.toNat < 128
      omega
    exact ⟨hlt, Int8.toInt_inj.mp (h.trans (toInt_toInt8 hlt).symm)⟩
  · rintro ⟨hlt, rfl⟩
    exact toInt_toInt8 hlt

theorem toInt8_ne_zero (hc : c ≠ 0) : c.toInt8 ≠ 0 := by
  intro heq
  apply hc
  have hbits : c.toBitVec = 0 := congrArg Int8.toBitVec heq
  exact UInt8.toBitVec_inj.mp hbits

end Bytes

section Loops

variable {m : Memory} {p i num : Nat} {b : Int8} {c : Int} {s done pre post : List Int8}

theorem memchrLoop_of_miss (h : BytesAt m p pre) (hmiss : ∀ d, d ∈ pre → d.toInt ≠ c)
    (hnum : i + pre.length ≤ num) :
    m.memchrLoop p c num i = m.memchrLoop (p + pre.length) c num (i + pre.length) := by
  induction pre generalizing p i with
  | nil => rfl
  | cons d pre ih =>
      rw [List.length_cons] at hnum
      rw [Memory.memchrLoop, if_pos (by omega), h.1]
      refine (if_neg (hmiss d List.mem_cons_self)).trans ?_
      rw [ih h.2 (fun e he => hmiss e (List.mem_cons_of_mem _ he)) (by omega), List.length_cons,
        Nat.add_right_comm p, Nat.add_right_comm i, Nat.add_assoc p, Nat.add_assoc i]

/-- The index is added to a pointer that has moved along already. -/
theorem memchrLoop_of_hit (h : BytesAt m p (pre ++ b :: post))
    (hmiss : ∀ d, d ∈ pre → d.toInt ≠ c) (hb : b.toInt = c) (hnum : pre.length < num) :
    m.memchrLoop p c num 0 = some (p + 2 * pre.length) := by
  obtain ⟨hpre, hhit⟩ := bytesAt_append.mp h
  rw [memchrLoop_of_miss hpre hmiss (by omega), Memory.memchrLoop, if_pos (by omega), hhit.1]
  refine (if_pos hb).trans (congrArg some ?_)
  omega

theorem memchrLoop_of_none (h : BytesAt m p pre) (hmiss : ∀ d, d ∈ pre → d.toInt ≠ c) :
    m.memchrLoop p c pre.length 0 = some 0 := by
  rw [memchrLoop_of_miss h hmiss (by omega), Memory.memchrLoop, if_neg (by omega)]
  rfl

theorem strchrLoop_of_miss (done pre : List Int8) (h : StringAt m p s)
    (hs : s ++ [0] = done ++ pre ++ post)
    (hmiss : ∀ d, d ∈ pre → d.toInt ≠ c) :
    m.strchrLoop p c done.length = m.strchrLoop p c (done ++ pre).length := by
  induction pre generalizing done with
  | nil => rw [List.append_nil]
  | cons d pre ih =>
      have hd : m (p + done.length) = some d := by
        have hbytes := h.2
        rw [hs, List.append_assoc, bytesAt_append] at hbytes
        exact hbytes.2.1
      have hlen : done.length < s.length + 1 := by
        have := congrArg List.length hs
        simp only [List.length_append, List.length_cons, List.length_nil] at this
        omega
      have hnext : (done ++ [d]).length = done.length + 1 := List.length_append
      rw [Memory.strchrLoop, strlen_eq h]
      refine (if_pos hlen).trans ?_
      rw [hd]
      refine (if_neg (hmiss d List.mem_cons_self)).trans ?_
      rw [← hnext, ih (done ++ [d]) (by simp [hs])
        (fun e he => hmiss e (List.mem_cons_of_mem _ he)), List.append_assoc, List.singleton_append]

theorem strchr_of_hit (h : StringAt m p s) (hs : s ++ [0] = pre ++ b :: post)
    (hmiss : ∀ d, d ∈ pre → d.toInt ≠ c) (hb : b.toInt = c) :
    m.strchrLoop p c 0 = some (p + pre.length) := by
  have hread : m (p + pre.length) = some b := by
    have hbytes := h.2
    rw [hs, bytesAt_append] at hbytes
    exact hbytes.2.1
  have hlen : pre.length < s.length + 1 := by
    have := congrArg List.length hs
    simp only [List.length_append, List.length_cons, List.length_nil] at this
    omega
  have hskip := strchrLoop_of_miss [] pre h (by simpa using hs) hmiss
  rw [List.length_nil, List.nil_append] at hskip
  rw [hskip, Memory.strchrLoop, strlen_eq h]
  refine (if_pos hlen).trans ?_
  rw [hread]
  exact if_pos hb

theorem strchr_of_none (h : StringAt m p s) (hmiss : ∀ d, d ∈ s ++ [0] → d.toInt ≠ c) :
    m.strchrLoop p c 0 = some 0 := by
  have hskip := strchrLoop_of_miss [] (s ++ [0]) h (List.append_nil _).symm hmiss
  rw [List.length_nil, List.nil_append, List.length_append, List.length_singleton] at hskip
  rw [hskip, Memory.strchrLoop, strlen_eq h]
  exact if_neg (Nat.lt_irrefl _)

theorem strrchrLoop_of_miss (pre : List Int8) (h : BytesAt m p (pre ++ post))
    (hmiss : ∀ d, d ∈ post → d.toInt ≠ c) :
    strrchrLoop m p c (pre ++ post).length = strrchrLoop m p c pre.length := by
  induction post using List.reverseRecOn with
  | nil => rw [List.append_nil]
  | append_singleton post d ih =>
      rw [← List.append_assoc, bytesAt_append] at h
      rw [← List.append_assoc, List.length_append, List.length_singleton, strrchrLoop, h.2.1]
      refine (if_neg (hmiss d (by simp))).trans ?_
      exact ih h.1 fun e he => hmiss e (List.mem_append_left _ he)

theorem strrchrLoop_of_hit (h : BytesAt m p (pre ++ b :: post))
    (hmiss : ∀ d, d ∈ post → d.toInt ≠ c) (hb : b.toInt = c) :
    strrchrLoop m p c (pre ++ b :: post).length = some (p + pre.length) := by
  rw [← List.singleton_append, ← List.append_assoc] at h ⊢
  have hread := (bytesAt_append.mp (bytesAt_append.mp h).1).2.1
  rw [strrchrLoop_of_miss _ h hmiss, List.length_append, List.length_singleton, strrchrLoop, hread]
  exact if_pos hb

end Loops

section Results

variable {m : Memory} {p r : Nat} {c : UInt8} {d : Int8} {s bs pre pre' post post' : List Int8}

theorem pre_unique (h : pre ++ d :: post = pre' ++ d :: post') (hpre : d ∉ pre) (hpre' : d ∉ pre') :
    pre = pre' := by
  induction pre generalizing pre' with
  | nil =>
      cases pre' with
      | nil => rfl
      | cons e pre' =>
          rw [List.nil_append, List.cons_append, List.cons.injEq] at h
          exact absurd (h.1 ▸ List.mem_cons_self) hpre'
  | cons e pre ih =>
      cases pre' with
      | nil =>
          rw [List.nil_append, List.cons_append, List.cons.injEq] at h
          exact absurd (h.1 ▸ List.mem_cons_self) hpre
      | cons f pre' =>
          rw [List.cons_append, List.cons_append, List.cons.injEq] at h
          rw [List.mem_cons, not_or] at hpre hpre'
          rw [h.1, ih h.2 hpre.2 hpre'.2]

theorem FindsFirst.eq (h : FindsFirst p (pre ++ d :: post) d r) (hpre : d ∉ pre) :
    r = p + pre.length := by
  rcases h with ⟨pre', post', heq, hpre', hr⟩ | ⟨hnot, _⟩
  · rw [hr, pre_unique heq hpre hpre']
  · exact absurd (List.mem_append_right _ List.mem_cons_self) hnot

theorem FindsLast.eq (h : FindsLast p (pre ++ d :: post) d r) (hpost : d ∉ post) :
    r = p + pre.length := by
  rcases h with ⟨pre', post', heq, hpost', hr⟩ | ⟨hnot, _⟩
  · have hrev := congrArg List.reverse heq
    rw [List.reverse_append, List.reverse_append, List.reverse_cons, List.reverse_cons,
      List.append_assoc, List.append_assoc] at hrev
    have hlen := congrArg List.length
      (pre_unique hrev (by simpa using hpost) (by simpa using hpost'))
    have htotal := congrArg List.length heq
    simp only [List.length_reverse] at hlen
    simp only [List.length_append, List.length_cons] at htotal
    omega
  · exact absurd (List.mem_append_right _ List.mem_cons_self) hnot

theorem miss_of_notMem (h : c.toInt8 ∉ bs) : ∀ b, b ∈ bs → b.toInt ≠ (c.toNat : Int) % 256 :=
  fun _ hb heq => h ((toInt_eq_iff.mp heq).2 ▸ hb)

theorem miss_of_le (h : ¬ c < 128) : ∀ b, b ∈ bs → b.toInt ≠ (c.toNat : Int) % 256 :=
  fun _ _ heq => h (toInt_eq_iff.mp heq).1

theorem memchr_finds_iff (hp : p ≠ 0) (h : BytesAt m p bs) :
    (∃ r, memchr m p c.toNat bs.length = some r ∧ FindsFirst p bs c.toInt8 r) ↔
      c.toInt8 ∉ bs ∨ (c < 128 ∧ bs.head? = some c.toInt8) := by
  rw [memchr]
  by_cases hmem : c.toInt8 ∈ bs
  · obtain ⟨pre, post, rfl, hpre⟩ := List.eq_append_cons_of_mem hmem
    by_cases hc : c < 128
    · have hlen : pre.length < (pre ++ c.toInt8 :: post).length := by simp
      rw [memchrLoop_of_hit h (miss_of_notMem hpre) (toInt_eq_iff.mpr ⟨hc, rfl⟩) hlen]
      constructor
      · rintro ⟨r, hr, hfinds⟩
        have heq := hfinds.eq hpre
        have hr : p + 2 * pre.length = r := Option.some.inj hr
        have hnil : pre = [] := List.length_eq_zero_iff.mp (by omega)
        exact Or.inr ⟨hc, by rw [hnil]; rfl⟩
      · rintro (hnot | ⟨_, hhead⟩)
        · exact absurd hmem hnot
        · have hnil : pre = [] := by
            cases pre with
            | nil => rfl
            | cons e pre =>
                have he : e = c.toInt8 := Option.some.inj hhead
                exact absurd (he ▸ List.mem_cons_self) hpre
          exact ⟨_, rfl, Or.inl ⟨pre, post, rfl, hpre, by rw [hnil]; rfl⟩⟩
    · rw [memchrLoop_of_none h (miss_of_le hc)]
      constructor
      · rintro ⟨r, hr, hfinds⟩
        have heq := hfinds.eq hpre
        have hr : 0 = r := Option.some.inj hr
        omega
      · rintro (hnot | ⟨hlt, _⟩)
        · exact absurd hmem hnot
        · exact absurd hlt hc
  · rw [memchrLoop_of_none h (miss_of_notMem hmem)]
    exact iff_of_true ⟨0, rfl, Or.inr ⟨hmem, rfl⟩⟩ (Or.inl hmem)

theorem strchr_finds_iff (hp : p ≠ 0) (h : StringAt m p s) :
    (∃ r, strchr m p c.toNat = some r ∧ FindsFirst p (s ++ [0]) c.toInt8 r) ↔
      c < 128 ∨ c.toInt8 ∉ s := by
  rw [strchr]
  by_cases hc : c < 128
  · refine iff_of_true ?_ (Or.inl hc)
    by_cases hmem : c.toInt8 ∈ s ++ [0]
    · obtain ⟨pre, post, hs, hpre⟩ := List.eq_append_cons_of_mem hmem
      refine ⟨_, strchr_of_hit h hs (miss_of_notMem hpre) (toInt_eq_iff.mpr ⟨hc, rfl⟩), ?_⟩
      exact Or.inl ⟨pre, post, hs, hpre, rfl⟩
    · exact ⟨0, strchr_of_none h (miss_of_notMem hmem), Or.inr ⟨hmem, rfl⟩⟩
  · have hzero : c.toInt8 ≠ 0 :=
      toInt8_ne_zero fun heq => hc (heq ▸ (by decide : (0 : UInt8) < 128))
    rw [strchr_of_none h (miss_of_le hc)]
    constructor
    · rintro ⟨r, hr, hfinds⟩
      refine Or.inr fun hmem => ?_
      obtain ⟨pre, post, rfl, hpre⟩ := List.eq_append_cons_of_mem hmem
      rw [List.append_assoc, List.cons_append] at hfinds
      have heq := hfinds.eq hpre
      have hr : 0 = r := Option.some.inj hr
      omega
    · rintro (hlt | hmem)
      · exact absurd hlt hc
      · refine ⟨0, rfl, Or.inr ⟨?_, rfl⟩⟩
        rw [List.mem_append, List.mem_singleton]
        exact not_or.mpr ⟨hmem, hzero⟩

/-- A string of more than `2 ^ 31` characters is not searched at all. -/
theorem strrchr_eq (h : StringAt m p s) (hlt : s.length < 2 ^ 32) {a : Int} :
    strrchr m p a =
      if s.length ≤ 2 ^ 31 then strrchrLoop m p (a % 256) s.length else some 0 := by
  have hloop : strrchr m p a =
      strrchrLoop m p (a % 256) (toInt32 (s.length - 1) + 1).toNat := by
    rw [strrchr, strlen_eq h]
    rfl
  rw [hloop]
  by_cases hle : s.length ≤ 2 ^ 31
  · rw [toInt32_of_le hle, if_pos hle]
  · rw [toInt32_of_gt (Nat.lt_of_not_le hle) hlt, if_neg hle, strrchrLoop]

/-- The text from its last `d` on. -/
theorem split_last (hmem : d ∈ s) : ∃ pre post, s = pre ++ d :: post ∧ d ∉ post := by
  obtain ⟨post, pre, hrev, hpost⟩ := List.eq_append_cons_of_mem (List.mem_reverse.mpr hmem)
  refine ⟨pre.reverse, post.reverse, ?_, by rwa [List.mem_reverse]⟩
  rw [← List.reverse_reverse s, hrev]
  simp

theorem strrchr_eq_null (h : StringAt m p s) (hlt : s.length < 2 ^ 32)
    (hmiss : c.toInt8 ∉ s ∨ ¬(c < 128 ∧ s.length ≤ 2 ^ 31)) : strrchr m p c.toNat = some 0 := by
  have hbytes : BytesAt m p s := (bytesAt_append.mp h.2).1
  rw [strrchr_eq h hlt]
  by_cases hle : s.length ≤ 2 ^ 31
  · rw [if_pos hle]
    rcases hmiss with hnot | hcond
    · exact strrchrLoop_of_miss [] hbytes (miss_of_notMem hnot)
    · exact strrchrLoop_of_miss [] hbytes (miss_of_le fun hc => hcond ⟨hc, hle⟩)
  · rw [if_neg hle]

theorem strrchr_finds_iff (hp : p ≠ 0) (h : StringAt m p s) (hlt : s.length < 2 ^ 32) :
    (∃ r, strrchr m p c.toNat = some r ∧ FindsLast p (s ++ [0]) c.toInt8 r) ↔
      c ≠ 0 ∧ (c.toInt8 ∉ s ∨ (c < 128 ∧ s.length ≤ 2 ^ 31)) := by
  by_cases hc0 : c = 0
  · -- the terminator is there to be found, and the search starts in front of it
    subst hc0
    refine iff_of_false ?_ fun hne => hne.1 rfl
    rintro ⟨r, hr, hfinds⟩
    have heq : r = p + s.length := FindsLast.eq hfinds List.not_mem_nil
    have hnull := Option.some.inj ((strrchr_eq_null h hlt (Or.inl h.1)).symm.trans hr)
    omega
  have hzero := toInt8_ne_zero hc0
  by_cases hmem : c.toInt8 ∈ s
  · obtain ⟨pre, post, hs, hpost⟩ := split_last hmem
    have hlast : c.toInt8 ∉ post ++ [0] := by
      rw [List.mem_append, List.mem_singleton]
      exact not_or.mpr ⟨hpost, hzero⟩
    have hsplit : s ++ [0] = pre ++ c.toInt8 :: (post ++ [0]) := by
      rw [hs, List.append_assoc, List.cons_append]
    by_cases hfound : c < 128 ∧ s.length ≤ 2 ^ 31
    · refine iff_of_true ⟨p + pre.length, ?_, Or.inl ⟨_, _, hsplit, hlast, rfl⟩⟩
        ⟨hc0, Or.inr hfound⟩
      have hbytes : BytesAt m p s := (bytesAt_append.mp h.2).1
      rw [strrchr_eq h hlt, if_pos hfound.2]
      rw [hs] at hbytes ⊢
      exact strrchrLoop_of_hit hbytes (miss_of_notMem hpost) (toInt_eq_iff.mpr ⟨hfound.1, rfl⟩)
    · refine iff_of_false ?_ fun hrest => hrest.2.elim (fun hnot => hnot hmem) hfound
      rintro ⟨r, hr, hfinds⟩
      rw [hsplit] at hfinds
      have heq := hfinds.eq hlast
      have hnull := Option.some.inj ((strrchr_eq_null h hlt (Or.inr hfound)).symm.trans hr)
      omega
  · refine iff_of_true ⟨0, strrchr_eq_null h hlt (Or.inl hmem), Or.inr ⟨?_, rfl⟩⟩
      ⟨hc0, Or.inl hmem⟩
    rw [List.mem_append, List.mem_singleton]
    exact not_or.mpr ⟨hmem, hzero⟩

/-- When each of the three functions finds the character it should. -/
theorem searches_find_iff {q : Nat} (hp : p ≠ 0) (hbs : BytesAt m p bs) (hq : q ≠ 0)
    (hs : StringAt m q s) (hlt : s.length < 2 ^ 32) :
    ((∃ r, memchr m p c.toNat bs.length = some r ∧ FindsFirst p bs c.toInt8 r) ↔
        c.toInt8 ∉ bs ∨ (c < 128 ∧ bs.head? = some c.toInt8)) ∧
      ((∃ r, strchr m q c.toNat = some r ∧ FindsFirst q (s ++ [0]) c.toInt8 r) ↔
        c < 128 ∨ c.toInt8 ∉ s) ∧
      ((∃ r, strrchr m q c.toNat = some r ∧ FindsLast q (s ++ [0]) c.toInt8 r) ↔
        c ≠ 0 ∧ (c.toInt8 ∉ s ∨ (c < 128 ∧ s.length ≤ 2 ^ 31))) :=
  ⟨memchr_finds_iff hp hbs, strchr_finds_iff hq hs, strrchr_finds_iff hq hs hlt⟩

theorem stringAt_letter : StringAt (placed 1 [97, 0]) 1 [97] := ⟨by decide, bytesAt_placed⟩

theorem searches_find_iff_letter :
    ((∃ r, memchr (placed 1 [97, 0]) 1 (97 : UInt8).toNat 2 = some r ∧
        FindsFirst 1 [97, 0] (97 : UInt8).toInt8 r) ↔
        (97 : UInt8).toInt8 ∉ ([97, 0] : List Int8) ∨
          ((97 : UInt8) < 128 ∧ ([97, 0] : List Int8).head? = some (97 : UInt8).toInt8)) ∧
      ((∃ r, strchr (placed 1 [97, 0]) 1 (97 : UInt8).toNat = some r ∧
        FindsFirst 1 ([97] ++ [0]) (97 : UInt8).toInt8 r) ↔
        (97 : UInt8) < 128 ∨ (97 : UInt8).toInt8 ∉ ([97] : List Int8)) ∧
      ((∃ r, strrchr (placed 1 [97, 0]) 1 (97 : UInt8).toNat = some r ∧
        FindsLast 1 ([97] ++ [0]) (97 : UInt8).toInt8 r) ↔
        (97 : UInt8) ≠ 0 ∧ ((97 : UInt8).toInt8 ∉ ([97] : List Int8) ∨
          ((97 : UInt8) < 128 ∧ ([97] : List Int8).length ≤ 2 ^ 31))) :=
  searches_find_iff (by decide) bytesAt_placed (by decide) stringAt_letter (by decide)

/-- `memchr` misses the `b` of `ab`, `strchr` a byte of 128, and `strrchr` the terminator. -/
theorem searches_miss :
    (¬ ∃ r, memchr (placed 1 [97, 98]) 1 (98 : UInt8).toNat 2 = some r ∧
        FindsFirst 1 [97, 98] (98 : UInt8).toInt8 r) ∧
      (¬ ∃ r, strchr (placed 1 [-128, 0]) 1 (128 : UInt8).toNat = some r ∧
        FindsFirst 1 ([-128] ++ [0]) (128 : UInt8).toInt8 r) ∧
      ¬ ∃ r, strrchr (placed 1 [97, 0]) 1 (0 : UInt8).toNat = some r ∧
        FindsLast 1 ([97] ++ [0]) (0 : UInt8).toInt8 r := by
  refine ⟨fun h => ?_, fun h => ?_, fun h => ?_⟩
  · have hbytes : BytesAt (placed 1 [97, 98]) 1 [97, 98] := bytesAt_placed
    exact absurd ((memchr_finds_iff (by decide) hbytes).mp h) (by decide)
  · have hstring : StringAt (placed 1 [-128, 0]) 1 [-128] := ⟨by decide, bytesAt_placed⟩
    exact absurd ((strchr_finds_iff (by decide) hstring).mp h) (by decide)
  · exact absurd ((strrchr_finds_iff (by decide) stringAt_letter (by decide)).mp h) (by decide)

end Results

end Longhorn.CharacterSearch
