import Longhorn.Foundations.Spans
import Longhorn.StringModel

/-!
`strspn`, `strcspn` and `strpbrk` on the spans of a string.
-/

namespace Longhorn.StringModel

/-- The lengths that `strspn` and `strcspn` give in turn, each behind the one before, up to
the end of the string. -/
def Memory.spans (m : Memory) (str delimeters : Nat) : Option (List (Nat × Nat)) := do
  let c ← m str
  if c ≠ 0 then
    let n ← strspn m str delimeters
    let k ← strcspn m (str + n) delimeters
    let rest ← m |>.spans (str + n + k) delimeters
    return (n, k) :: rest
  else return []
partial_fixpoint

end Longhorn.StringModel

namespace Longhorn.SpanSearch

open Longhorn.Foundations.CStrings
open Longhorn.Foundations.Spans
open Longhorn.StringModel

section Scans

variable {m : Memory} {p q i j : Nat} {c : Int8} {d lead w t : List Int8}

theorem strspnLoop_of_mem (h : StringAt m (p + i) (lead ++ t)) (hd : StringAt m q d)
    (hlead : ∀ e, e ∈ lead → e ∈ d) :
    m.strspnLoop p q i = m.strspnLoop p q (i + lead.length) := by
  induction lead generalizing i with
  | nil => rfl
  | cons e lead ih =>
      obtain ⟨he, hzero, hrest⟩ := stringAt_cons.mp h
      rw [Memory.strspnLoop, he]
      refine (if_pos hzero).trans ?_
      rw [hasChar_eq hd, decide_eq_true (hlead e List.mem_cons_self), List.length_cons,
        Nat.add_comm lead.length 1, ← Nat.add_assoc]
      exact ih hrest fun f hf => hlead f (List.mem_cons_of_mem _ hf)

theorem strspn_of_mem (h : StringAt m p (lead ++ t)) (hd : StringAt m q d)
    (hlead : ∀ e, e ∈ lead → e ∈ d) (ht : ∀ e, t.head? = some e → e ∉ d) :
    strspn m p q = some lead.length := by
  have hskip : m.strspnLoop p q 0 = m.strspnLoop p q (0 + lead.length) :=
    strspnLoop_of_mem h hd hlead
  have htail := h.append.2
  rw [strspn, hskip, Nat.zero_add, Memory.strspnLoop]
  cases t with
  | nil =>
      rw [stringAt_nil.mp htail]
      rfl
  | cons e t =>
      obtain ⟨he, hzero, _⟩ := stringAt_cons.mp htail
      rw [he]
      refine (if_pos hzero).trans ?_
      rw [hasChar_eq hd, decide_eq_false (ht e rfl)]
      rfl

/-- The characters that are left of the second string, and its NUL. -/
theorem strcspnInner_eq (hn : strlen m q = some (j + t.length)) (ht : StringAt m (q + j) t)
    (hc : m (p + i) = some c) :
    m.strcspnInner p q i j = some (decide (c ∈ t ++ [0])) := by
  induction t generalizing j with
  | nil =>
      have hend : m.strcspnInner p q i (j + 1) = some false := by
        rw [Memory.strcspnInner, hn]
        exact if_neg (Nat.lt_irrefl _)
      rw [Memory.strcspnInner, hn, hc, stringAt_nil.mp ht]
      refine (if_pos (Nat.lt_succ_self j)).trans ?_
      by_cases hzero : c = 0
      · exact (if_pos hzero).trans (by simp [hzero])
      · exact (if_neg hzero).trans (hend.trans (by simp [hzero]))
  | cons e t ih =>
      obtain ⟨he, _, hrest⟩ := stringAt_cons.mp ht
      rw [List.length_cons] at hn
      have hnext := ih (by rw [hn, Nat.add_comm t.length 1, Nat.add_assoc]) hrest
      rw [Memory.strcspnInner, hn, hc, he]
      refine (if_pos (by omega)).trans ?_
      by_cases heq : c = e
      · exact (if_pos heq).trans (by simp [heq])
      · exact (if_neg heq).trans (hnext.trans (by simp [heq]))

theorem strcspnLoop_of_notMem (hn : strlen m p = some (i + (w ++ t).length))
    (h : StringAt m (p + i) (w ++ t)) (hd : StringAt m q d) (hw : ∀ e, e ∈ w → e ∉ d)
    (ht : ∀ e, t.head? = some e → e ∈ d) : m.strcspnLoop p q i = some (i + w.length) := by
  have hinner : ∀ {i : Nat} {c : Int8}, m (p + i) = some c →
      m.strcspnInner p q i 0 = some (decide (c ∈ d ++ [0])) := by
    intro i c hc
    exact strcspnInner_eq (by rw [strlen_eq hd, Nat.zero_add]) hd hc
  induction w generalizing i with
  | nil =>
      have hstop : ∃ c, m (p + i) = some c ∧ c ∈ d ++ [0] := by
        cases t with
        | nil => exact ⟨0, stringAt_nil.mp h, by simp⟩
        | cons e t => exact ⟨e, (stringAt_cons.mp h).1, List.mem_append_left _ (ht e rfl)⟩
      obtain ⟨c, hc, hmem⟩ := hstop
      rw [Memory.strcspnLoop, hn]
      refine (if_pos (by omega)).trans ?_
      rw [hinner hc, decide_eq_true hmem]
      rfl
  | cons e w ih =>
      obtain ⟨he, hzero, hrest⟩ := stringAt_cons.mp h
      have hmiss : e ∉ d ++ [0] := by
        rw [List.mem_append, List.mem_singleton]
        exact not_or.mpr ⟨hw e List.mem_cons_self, hzero⟩
      have hlen : i + (e :: w ++ t).length = i + 1 + (w ++ t).length := by
        rw [List.cons_append, List.length_cons]
        omega
      rw [Memory.strcspnLoop, hn]
      refine (if_pos (by rw [hlen]; omega)).trans ?_
      rw [hinner he, decide_eq_false hmiss, List.length_cons, Nat.add_comm w.length 1,
        ← Nat.add_assoc]
      rw [hlen] at hn
      exact ih hn hrest fun f hf => hw f (List.mem_cons_of_mem _ hf)

theorem strcspn_of_notMem (h : StringAt m p (w ++ t)) (hd : StringAt m q d)
    (hw : ∀ e, e ∈ w → e ∉ d) (ht : ∀ e, t.head? = some e → e ∈ d) :
    strcspn m p q = some w.length := by
  have hn : strlen m p = some (0 + (w ++ t).length) := by rw [strlen_eq h, Nat.zero_add]
  rw [strcspn, strcspnLoop_of_notMem hn h hd hw ht, Nat.zero_add]

theorem strpbrk_of_notMem (h : StringAt m p (w ++ t)) (hd : StringAt m q d)
    (hw : ∀ e, e ∈ w → e ∉ d) (ht : ∀ e, t.head? = some e → e ∈ d) :
    m.strpbrk p q = some (if t = [] then 0 else p + w.length) := by
  induction w generalizing p with
  | nil =>
      rw [Memory.strpbrk]
      cases t with
      | nil =>
          rw [stringAt_nil.mp h]
          rfl
      | cons e t =>
          obtain ⟨he, hzero, _⟩ := stringAt_cons.mp h
          rw [he]
          refine (if_pos hzero).trans ?_
          rw [hasChar_eq hd, decide_eq_true (ht e rfl)]
          rfl
  | cons e w ih =>
      obtain ⟨he, hzero, hrest⟩ := stringAt_cons.mp h
      rw [Memory.strpbrk, he]
      refine (if_pos hzero).trans ?_
      rw [hasChar_eq hd, decide_eq_false (hw e List.mem_cons_self), List.length_cons,
        Nat.add_comm w.length 1, ← Nat.add_assoc]
      exact ih hrest fun f hf => hw f (List.mem_cons_of_mem _ hf)

/-- `strpbrk` is `strcspn` as an address. -/
theorem strpbrk_eq (h : StringAt m p (w ++ t)) (hd : StringAt m q d) (hw : ∀ e, e ∈ w → e ∉ d)
    (ht : ∀ e, t.head? = some e → e ∈ d) :
    m.strpbrk p q = (do
      let n ← strcspn m p q
      let len ← strlen m p
      return if n < len then p + n else 0) := by
  rw [strpbrk_of_notMem h hd hw ht, strcspn_of_notMem h hd hw ht, strlen_eq h]
  cases t with
  | nil => exact congrArg some (if_neg (by simp)).symm
  | cons e t => exact congrArg some (if_pos (by simp)).symm

end Scans

section Blocks

variable {m : Memory} {p q : Nat} {d s lead word rest : List Int8}

theorem spans_block (h : StringAt m p (lead ++ word ++ rest)) (hd : StringAt m q d)
    (hlead : ∀ e, e ∈ lead → e ∈ d) (hword : ∀ e, e ∈ word → e ∉ d)
    (hrest : ∀ e, rest.head? = some e → e ∈ d) (hend : word = [] → rest = [])
    (hne : lead ++ word ≠ []) :
    m.spans p q = (m.spans (p + lead.length + word.length) q).map
      ((lead.length, word.length) :: ·) := by
  rw [List.append_assoc] at h
  have hother : ∀ e, (word ++ rest).head? = some e → e ∉ d := by
    cases word with
    | nil =>
        rw [hend rfl]
        nofun
    | cons f word => exact fun e he => hword e (Option.some.inj he ▸ List.mem_cons_self)
  have hspan := strspn_of_mem h hd hlead hother
  have hcspan := strcspn_of_notMem h.append.2 hd hword hrest
  obtain ⟨c, hc, hzero⟩ : ∃ c, m p = some c ∧ c ≠ 0 := by
    rw [← List.append_assoc] at h
    obtain ⟨c, t, ht⟩ := List.exists_cons_of_ne_nil hne
    rw [ht] at h
    obtain ⟨hc, hzero, _⟩ := stringAt_cons.mp h
    exact ⟨c, hc, hzero⟩
  rw [Memory.spans, hc]
  refine (if_pos hzero).trans ?_
  rw [hspan]
  change (strcspn m (p + lead.length) q >>= fun k =>
    m.spans (p + lead.length + k) q >>= fun rest => some ((lead.length, k) :: rest)) = _
  rw [hcspan]
  change (m.spans (p + lead.length + word.length) q >>= fun rest =>
    some ((lead.length, word.length) :: rest)) = _
  cases m.spans (p + lead.length + word.length) q <;> rfl

/-- By induction on the length of what is left of the string. -/
theorem spans_alternate (hs : StringAt m p s) (hd : StringAt m q d) :
    ∃ runs, m.spans p q = some (runs.map fun r => (r.1.length, r.2.length)) ∧
      Alternates (· ∈ d) s runs := by
  induction hlen : s.length using Nat.strong_induction_on generalizing p s with
  | _ n ih =>
      by_cases hempty : s = []
      · rw [hempty] at hs ⊢
        refine ⟨[], ?_, alternates_nil⟩
        rw [Memory.spans, stringAt_nil.mp hs]
        rfl
      · obtain ⟨lead, word, rest, rfl, hlead, hword, hrest, hend⟩ := exists_block (· ∈ d) s
        have hne : lead ++ word ≠ [] := by
          intro hnil
          rw [hnil, hend (List.append_eq_nil_iff.mp hnil).2] at hempty
          exact hempty rfl
        have hpos := List.length_pos_of_ne_nil hne
        have hbehind : StringAt m (p + lead.length + word.length) rest := by
          rw [Nat.add_assoc, ← List.length_append]
          exact hs.append.2
        obtain ⟨runs, hrun, halternates⟩ := ih rest.length
          (by rw [← hlen, List.length_append]; omega) hbehind rfl
        refine ⟨(lead, word) :: runs, ?_, halternates.cons hlead hword hrest hend hne⟩
        rw [spans_block hs hd hlead hword hrest hend hne, hrun]
        rfl

/-- The three scans find the longest prefixes of `s`, and `strspn` and `strcspn` in turn cut it
into blocks of delimiters and of other characters. -/
theorem spans_agree {m : Memory} {p q : Nat} {s d : List Int8} (hs : StringAt m p s)
    (hd : StringAt m q d) :
    (∃ n, strspn m p q = some n ∧ IsSpan (· ∈ d) s n) ∧
      (∃ n, strcspn m p q = some n ∧ IsSpan (· ∉ d) s n) ∧
      m.strpbrk p q = (do
        let n ← strcspn m p q
        let len ← strlen m p
        return if n < len then p + n else 0) ∧
      ∃ runs, m.spans p q = some (runs.map fun r => (r.1.length, r.2.length)) ∧
        Alternates (· ∈ d) s runs := by
  refine ⟨?_, ?_, ?_, spans_alternate hs hd⟩
  · obtain ⟨lead, t, rfl, hlead, ht⟩ := exists_span (· ∈ d) s
    exact ⟨_, strspn_of_mem hs hd hlead ht, isSpan_append hlead ht⟩
  · obtain ⟨w, t, rfl, hw, ht⟩ := exists_span (· ∉ d) s
    exact ⟨_, strcspn_of_notMem hs hd hw fun e he => not_not.mp (ht e he),
      isSpan_append hw ht⟩
  · obtain ⟨w, t, rfl, hw, ht⟩ := exists_span (· ∉ d) s
    exact strpbrk_eq hs hd hw fun e he => not_not.mp (ht e he)

/-- The string ` ab ` with the delimiter ` `. -/
theorem spans_agree_blank : ∃ runs,
    Memory.spans (placed 1 ([32, 97, 98, 32] ++ [0] ++ ([32] ++ [0]))) 1 6 =
      some (runs.map fun r => (r.1.length, r.2.length)) ∧
    Alternates (· ∈ ([32] : List Int8)) [32, 97, 98, 32] runs := by
  have hplaced : BytesAt (placed 1 ([32, 97, 98, 32] ++ [0] ++ ([32] ++ [0]))) 1
      ([32, 97, 98, 32] ++ [0] ++ ([32] ++ [0])) := bytesAt_placed
  have hparts := bytesAt_append.mp hplaced
  obtain ⟨_, _, _, hruns⟩ := spans_agree (q := 6) (s := [32, 97, 98, 32]) (d := [32])
    ⟨by decide, hparts.1⟩ ⟨by decide, hparts.2⟩
  exact hruns

end Blocks

end Longhorn.SpanSearch
