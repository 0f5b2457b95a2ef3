import Mathlib.Data.List.GetD
import Mathlib.Data.List.TakeWhile
import Longhorn.SpanSearch
import Longhorn.StreamModel

/-!
The tokens that `strtok` returns over a sequence of calls.
-/

namespace Longhorn.Tokens

open Longhorn.Foundations.CStrings
open Longhorn.Foundations.Spans
open Longhorn.StringModel
open Longhorn.SpanSearch
open Longhorn.StreamModel (CString)

/-- A character of `s` that is no delimiter, at the beginning or behind a delimiter. -/
def IsStart (d s : List Int8) (i : Nat) : Prop :=
  s.getD i 0 ∉ d ∧ (i = 0 ∨ s.getD (i - 1) 0 ∈ d)

instance (d s : List Int8) (i : Nat) : Decidable (IsStart d s i) :=
  inferInstanceAs (Decidable (_ ∧ _))

/-- The characters from `i` on, up to the next delimiter. -/
def run (d s : List Int8) (i : Nat) : List Int8 := (s.drop i).takeWhile (· ∉ d)

/-- Where the maximal runs of other characters begin from `i` on. -/
def starts (d s : List Int8) (i : Nat) : List Nat :=
  (List.range' i (s.length - i)).filter (IsStart d s ·)

/-- `strtok` called `n` times, each time but the first with `NULL`: the memory afterwards
and the tokens. -/
def strtokCalls (m : Memory) (oldstr str delimeters : Nat) : Nat → Option (Memory × List Nat)
  | 0 => some (m, [])
  | n + 1 => do
      let (m, oldstr, token) ← strtok m oldstr str delimeters
      let (m, tokens) ← strtokCalls m oldstr 0 delimeters n
      return (m, token :: tokens)

/-- The addresses of `n` tokens in the string at `p`, with `NULL` behind the last one. -/
def tokenAddrs (p : Nat) (is : List Nat) (n : Nat) : List Nat :=
  (List.range n).map fun k => (is[k]?.map (p + ·)).getD 0

section Strtok

variable {m : Memory} {p q i oldstr str : Nat} {c : Int8} {d lead w rest t : List Int8}

theorem tokenEnd_eq (h : StringAt m p t) : m.tokenEnd p = some (p + t.length) := by
  induction t generalizing p with
  | nil =>
      rw [Memory.tokenEnd, stringAt_nil.mp h]
      rfl
  | cons e t ih =>
      obtain ⟨he, hzero, hrest⟩ := stringAt_cons.mp h
      rw [Memory.tokenEnd, he]
      refine (if_pos hzero).trans ?_
      rw [ih hrest, List.length_cons, Nat.add_right_comm, Nat.add_assoc]

/-- Only delimiters are left. -/
theorem strtok_none (hstr : (if str = 0 then oldstr else str) = p) (h : StringAt m p lead)
    (hd : StringAt m q d) (hlead : ∀ e, e ∈ lead → e ∈ d) :
    strtok m oldstr str q = some (m, p + lead.length, 0) := by
  have h' : StringAt m p (lead ++ []) := by rwa [List.append_nil]
  have hspan := strspn_of_mem h' hd hlead fun e he => absurd he (Option.not_mem_none e)
  rw [strtok, hstr, hspan]
  change (do if (← m (p + lead.length)) = 0 then _ else _) = _
  rw [stringAt_nil.mp h'.append.2]
  rfl

theorem strtok_token (hstr : (if str = 0 then oldstr else str) = p)
    (h : StringAt m p (lead ++ c :: t)) (hd : StringAt m q d) (hlead : ∀ e, e ∈ lead → e ∈ d)
    (hc : c ∉ d) :
    strtok m oldstr str q =
      (m.strpbrk (p + lead.length) q).bind fun r =>
        if r = 0 then (m.tokenEnd (p + lead.length)).map fun e => (m, e, p + lead.length)
        else (store m r 0).map fun m' => (m', r + 1, p + lead.length) := by
  have hhead : ∀ e, (c :: t).head? = some e → e ∉ d := fun e he => Option.some.inj he ▸ hc
  obtain ⟨hread, hzero, _⟩ := stringAt_cons.mp h.append.2
  rw [strtok, hstr, strspn_of_mem h hd hlead hhead]
  change (do if (← m (p + lead.length)) = 0 then _ else _) = _
  rw [hread]
  refine (if_neg hzero).trans ?_
  cases m.strpbrk (p + lead.length) q with
  | none => rfl
  | some r =>
      change (if r = 0 then _ else _) = if r = 0 then _ else _
      split_ifs
      · cases m.tokenEnd (p + lead.length) <;> rfl
      · cases store m r 0 <;> rfl

/-- The last token ends at the end of the string. -/
theorem strtok_last (hstr : (if str = 0 then oldstr else str) = p)
    (h : StringAt m p (lead ++ w)) (hd : StringAt m q d) (hlead : ∀ e, e ∈ lead → e ∈ d)
    (hw : ∀ e, e ∈ w → e ∉ d) (hne : w ≠ []) :
    strtok m oldstr str q = some (m, p + (lead ++ w).length, p + lead.length) := by
  obtain ⟨c, t, rfl⟩ := List.exists_cons_of_ne_nil hne
  have htoken := h.append.2
  have hall : StringAt m (p + lead.length) (c :: t ++ []) := by rwa [List.append_nil]
  have hpbrk : m.strpbrk (p + lead.length) q = some 0 := strpbrk_of_notMem hall hd hw nofun
  rw [strtok_token hstr h hd hlead (hw c List.mem_cons_self), hpbrk, tokenEnd_eq htoken,
    List.length_append, ← Nat.add_assoc]
  rfl

/-- A token in front of a delimiter is cut off. -/
theorem strtok_cut (hp : p ≠ 0)
    (hstr : (if str = 0 then oldstr else str) = p)
    (h : StringAt m p (lead ++ w ++ c :: rest)) (hd : StringAt m q d)
    (hlead : ∀ e, e ∈ lead → e ∈ d) (hw : ∀ e, e ∈ w → e ∉ d) (hne : w ≠ []) (hc : c ∈ d) :
    strtok m oldstr str q =
      some (Function.update m (p + (lead ++ w).length) (some 0), p + (lead ++ w).length + 1,
        p + lead.length) := by
  obtain ⟨e, t, rfl⟩ := List.exists_cons_of_ne_nil hne
  rw [List.append_assoc] at h
  obtain ⟨_, htoken⟩ := h.append
  obtain ⟨hread, _⟩ := stringAt_cons.mp htoken.append.2
  have hpbrk : m.strpbrk (p + lead.length) q = some (p + (lead ++ e :: t).length) := by
    rw [strpbrk_of_notMem htoken hd hw fun f hf => Option.some.inj hf ▸ hc,
      if_neg (List.cons_ne_nil c rest), List.length_append, ← Nat.add_assoc]
  rw [Nat.add_assoc, ← List.length_append] at hread
  have hnull : p + (lead ++ e :: t).length ≠ 0 := by omega
  rw [strtok_token hstr h hd hlead (hw e List.mem_cons_self), hpbrk]
  change (if p + (lead ++ e :: t).length = 0 then _ else _) = _
  rw [if_neg hnull, store_of_some hread]
  rfl

end Strtok

section Starts

variable {d s done lead w rest : List Int8} {c : Int8} {i k n : Nat}

theorem getD_mem {a b e : List Int8} (hs : s = a ++ b ++ e) (hle : a.length ≤ i)
    (hlt : i < a.length + b.length) : s.getD i 0 ∈ b := by
  have hb : i - a.length < b.length := by omega
  have hi : i < (a ++ b).length := by rwa [List.length_append]
  rw [hs, List.getD_append _ _ _ _ hi, List.getD_append_right _ _ _ _ hle,
    List.getD_eq_getElem _ _ hb]
  exact List.getElem_mem hb

theorem starts_skip (hle : i + n ≤ s.length) (h : ∀ j, i ≤ j → j < i + n → ¬ IsStart d s j) :
    starts d s i = starts d s (i + n) := by
  have hlen : s.length - i = n + (s.length - (i + n)) := by omega
  rw [starts, starts, hlen, ← List.range'_append_1, List.filter_append]
  have hnil : (List.range' i n).filter (IsStart d s ·) = [] := by
    rw [List.filter_eq_nil_iff]
    intro j hj
    rw [List.mem_range'_1] at hj
    simpa using h j hj.1 hj.2
  rw [hnil, List.nil_append]

theorem starts_of_isStart (hi : i < s.length) (h : IsStart d s i) :
    starts d s i = i :: starts d s (i + 1) := by
  have hlen : s.length - i = s.length - (i + 1) + 1 := by omega
  rw [starts, starts, hlen, List.range'_succ]
  exact List.filter_cons_of_pos (decide_eq_true h)

theorem starts_end : starts d s s.length = [] := by
  rw [starts, Nat.sub_self]
  rfl

theorem starts_of_delimiters (hs : s = done ++ lead) (hlead : ∀ e, e ∈ lead → e ∈ d) :
    starts d s done.length = [] := by
  have hlen : s.length = done.length + lead.length := by rw [hs, List.length_append]
  have hsplit : s = done ++ lead ++ [] := by rw [hs, List.append_nil]
  rw [starts_skip (n := lead.length) hlen.ge, ← hlen, starts_end]
  intro j hle hlt hstart
  exact hstart.1 (hlead _ (getD_mem hsplit hle hlt))

theorem starts_of_token (hs : s = done ++ lead ++ w ++ rest)
    (hfresh : done = [] ∨ s.getD (done.length - 1) 0 ∈ d) (hlead : ∀ e, e ∈ lead → e ∈ d)
    (hw : ∀ e, e ∈ w → e ∉ d) (hne : w ≠ []) :
    starts d s done.length =
      (done ++ lead).length :: starts d s ((done ++ lead).length + w.length) := by
  have hpos : 0 < w.length := List.length_pos_of_ne_nil hne
  have hlen : s.length = done.length + lead.length + w.length + rest.length := by
    rw [hs, List.length_append, List.length_append, List.length_append]
  have hsplit : s = done ++ lead ++ (w ++ rest) := by rw [hs, List.append_assoc]
  rw [List.length_append]
  have hword : ∀ j, done.length + lead.length ≤ j → j < done.length + lead.length + w.length →
      s.getD j 0 ∉ d := by
    intro j hle hlt
    rw [← List.length_append] at hle hlt
    exact hw _ (getD_mem hs hle hlt)
  rw [starts_skip (i := done.length) (n := lead.length) (by omega), starts_of_isStart (by omega)]
  · congr 1
    have hnext : done.length + lead.length + w.length =
        done.length + lead.length + 1 + (w.length - 1) := by omega
    rw [hnext]
    refine starts_skip (by omega) ?_
    intro j hle hlt hstart
    refine hstart.2.elim (by omega) ?_
    exact hword (j - 1) (by omega) (by omega)
  · refine ⟨hword _ le_rfl (by omega), ?_⟩
    rcases List.eq_nil_or_concat lead with rfl | ⟨init, e, rfl⟩
    · exact hfresh.imp (fun h => by rw [h]; rfl) id
    · rw [List.concat_eq_append, List.length_append, List.length_singleton] at *
      refine Or.inr (hlead _ (getD_mem hsplit ?_ ?_))
      · omega
      · rw [List.length_append, List.length_singleton]
        omega
  · intro j hle hlt hstart
    exact hstart.1 (hlead _ (getD_mem hsplit hle hlt))

theorem starts_of_delimiter (hs : s = done ++ c :: rest) (hc : c ∈ d) :
    starts d s done.length = starts d s (done ++ [c]).length := by
  have hsplit : s = done ++ [c] ++ rest := by rw [hs, List.append_assoc, List.singleton_append]
  rw [List.length_append]
  refine starts_skip ?_ ?_
  · rw [hs, List.length_append]
    simp
  · intro j hle hlt hstart
    have hmem := getD_mem hsplit hle hlt
    exact hstart.1 (List.mem_singleton.mp hmem ▸ hc)

theorem run_eq (hs : s = done ++ w ++ rest) (hw : ∀ e, e ∈ w → e ∉ d)
    (hrest : ∀ e, rest.head? = some e → e ∈ d) : run d s done.length = w := by
  have hnil : rest.takeWhile (· ∉ d) = [] := by
    cases rest with
    | nil => rfl
    | cons e rest => exact List.takeWhile_cons_of_neg (by simpa using hrest e rfl)
  rw [run, hs, List.append_assoc, List.drop_left,
    List.takeWhile_append_of_pos (by simpa using hw), hnil, List.append_nil]

/-- What a call of `strtok` meets. -/
theorem split_cases (d t : List Int8) :
    (∀ e, e ∈ t → e ∈ d) ∨
      ∃ lead w rest, t = lead ++ w ++ rest ∧ (∀ e, e ∈ lead → e ∈ d) ∧ (∀ e, e ∈ w → e ∉ d) ∧
        w ≠ [] ∧ (rest = [] ∨ ∃ c rest', rest = c :: rest' ∧ c ∈ d) := by
  obtain ⟨lead, w, rest, rfl, hlead, hw, hrest, hend⟩ := exists_block (· ∈ d) t
  by_cases hne : w = []
  · rw [hne, hend hne, List.append_nil, List.append_nil]
    exact Or.inl hlead
  · refine Or.inr ⟨lead, w, rest, rfl, hlead, hw, hne, ?_⟩
    cases rest with
    | nil => exact Or.inl rfl
    | cons c rest => exact Or.inr ⟨c, rest, rfl, hrest c rfl⟩

end Starts

section Calls

variable {m : Memory} {p q i n oldstr str : Nat} {c : Int8} {d s done lead w rest t : List Int8}
  {is : List Nat}

theorem tokenAddrs_nil : tokenAddrs p [] (n + 1) = 0 :: tokenAddrs p [] n := by
  rw [tokenAddrs, List.range_succ_eq_map, List.map_cons, List.map_map]
  rfl

theorem tokenAddrs_cons : tokenAddrs p (i :: is) (n + 1) = (p + i) :: tokenAddrs p is n := by
  rw [tokenAddrs, List.range_succ_eq_map, List.map_cons, List.map_map]
  rfl

theorem strtokCalls_succ {m' : Memory} {oldstr' token : Nat}
    (h : strtok m oldstr str q = some (m', oldstr', token)) :
    strtokCalls m oldstr str q (n + 1) =
      (strtokCalls m' oldstr' 0 q n).map fun r => (r.1, token :: r.2) := by
  rw [strtokCalls, h]
  change (strtokCalls m' oldstr' 0 q n >>= fun r => some (r.1, token :: r.2)) = _
  cases strtokCalls m' oldstr' 0 q n <;> rfl

/-- Between two calls: `t` is left of the string at `p`, and a token may begin there. -/
structure Scanning (d s : List Int8) (p q : Nat) (m : Memory) (done t : List Int8) : Prop where
  split : s = done ++ t
  fresh : t = [] ∨ done = [] ∨ s.getD (done.length - 1) 0 ∈ d
  text : StringAt m (p + done.length) t
  delimiters : StringAt m q d

/-- What a call leaves and returns: nothing is left, or the next token. -/
structure Returned (d s : List Int8) (p : Nat) (m m' : Memory) (before after token : Nat) :
    Prop where
  frame : ∀ a, a < p + before ∨ p + s.length ≤ a → m' a = m a
  advance : before ≤ after
  result : token = 0 ∧ starts d s before = [] ∧ starts d s after = [] ∨
    ∃ i, token = p + i ∧ starts d s before = i :: starts d s after ∧
      StringAt m' (p + i) (run d s i) ∧
      ∀ a, a ≤ i + (run d s i).length → a < after ∨ s.length ≤ a

theorem Scanning.none (h : Scanning d s p q m done t)
    (hstr : (if str = 0 then oldstr else str) = p + done.length) (hall : ∀ e, e ∈ t → e ∈ d) :
    strtok m oldstr str q = some (m, p + (done ++ t).length, 0) ∧
      Scanning d s p q m (done ++ t) [] ∧
      Returned d s p m m done.length (done ++ t).length 0 := by
  have hend : starts d s (done ++ t).length = [] := by
    rw [← h.split]
    exact starts_end
  have hnone := starts_of_delimiters h.split hall
  rw [List.length_append] at hend ⊢
  refine ⟨?_, ⟨by rw [List.append_nil, h.split], Or.inl rfl, ?_, h.delimiters⟩,
    fun _ _ => rfl, Nat.le_add_right _ _, Or.inl ⟨rfl, hnone, hend⟩⟩
  · rw [← Nat.add_assoc]
    exact strtok_none hstr h.text h.delimiters hall
  · rw [List.length_append, ← Nat.add_assoc]
    exact stringAt_nil.mpr (bytesAt_append.mp h.text.2).2.1

theorem Scanning.last (h : Scanning d s p q m done (lead ++ w))
    (hstr : (if str = 0 then oldstr else str) = p + done.length) (hlead : ∀ e, e ∈ lead → e ∈ d)
    (hw : ∀ e, e ∈ w → e ∉ d) (hne : w ≠ []) :
    strtok m oldstr str q = some (m, p + (done ++ lead ++ w).length, p + (done ++ lead).length) ∧
      Scanning d s p q m (done ++ lead ++ w) [] ∧
      Returned d s p m m done.length (done ++ lead ++ w).length (p + (done ++ lead).length) := by
  have hs : s = done ++ lead ++ w := by rw [h.split, List.append_assoc]
  have hs' : s = done ++ lead ++ w ++ [] := by rw [hs, List.append_nil]
  have hend : starts d s (done ++ lead ++ w).length = [] := by
    rw [← hs]
    exact starts_end
  have hempty : lead ++ w ≠ [] := by simp [hne]
  have htoken := starts_of_token hs' (h.fresh.resolve_left hempty) hlead hw hne
  have hword : run d s (done ++ lead).length = w :=
    run_eq hs' hw fun e he => absurd he (Option.not_mem_none e)
  have hwhere : p + (done ++ lead).length = p + done.length + lead.length := by
    rw [List.length_append, Nat.add_assoc]
  have hafter : p + (done ++ lead ++ w).length = p + done.length + (lead ++ w).length := by
    rw [List.append_assoc, List.length_append, Nat.add_assoc]
  have htext : StringAt m (p + (done ++ lead).length) w := by
    rw [hwhere]
    exact h.text.append.2
  rw [← List.length_append, hend] at htoken
  refine ⟨?_, ⟨hs', Or.inl rfl, ?_, h.delimiters⟩, fun _ _ => rfl, ?_, Or.inr ⟨_, rfl, ?_, ?_, ?_⟩⟩
  · rw [hafter, hwhere]
    exact strtok_last hstr h.text h.delimiters hlead hw hne
  · rw [hafter]
    exact stringAt_nil.mpr (bytesAt_append.mp h.text.2).2.1
  · rw [List.append_assoc, List.length_append]
    exact Nat.le_add_right _ _
  · rw [hend, htoken]
  · rw [hword]
    exact htext
  · intro a _
    rw [← hs]
    exact Nat.lt_or_ge a s.length

theorem Scanning.cut (h : Scanning d s p q m done (lead ++ w ++ c :: rest)) (hp : p ≠ 0)
    (hapart : ∀ a, p ≤ a → a < p + s.length → a < q ∨ q + d.length < a)
    (hstr : (if str = 0 then oldstr else str) = p + done.length) (hlead : ∀ e, e ∈ lead → e ∈ d)
    (hw : ∀ e, e ∈ w → e ∉ d) (hne : w ≠ []) (hc : c ∈ d) :
    strtok m oldstr str q =
        some (Function.update m (p + (done ++ lead ++ w).length) (some 0),
          p + (done ++ lead ++ w ++ [c]).length, p + (done ++ lead).length) ∧
      Scanning d s p q (Function.update m (p + (done ++ lead ++ w).length) (some 0))
        (done ++ lead ++ w ++ [c]) rest ∧
      Returned d s p m (Function.update m (p + (done ++ lead ++ w).length) (some 0)) done.length
        (done ++ lead ++ w ++ [c]).length (p + (done ++ lead).length) := by
  have hs : s = done ++ lead ++ w ++ c :: rest := by
    rw [h.split, ← List.append_assoc, ← List.append_assoc]
  have hs' : s = done ++ lead ++ w ++ [c] ++ rest := by
    rw [hs, List.append_assoc _ [c], List.singleton_append]
  have hlen : s.length = (done ++ lead ++ w).length + (rest.length + 1) := by
    rw [hs, List.length_append, List.length_cons]
  have hempty : lead ++ w ++ c :: rest ≠ [] := by simp
  have htoken := starts_of_token hs (h.fresh.resolve_left hempty) hlead hw hne
  have hword : run d s (done ++ lead).length = w :=
    run_eq hs hw fun e he => Option.some.inj he ▸ hc
  have hwhere : p + (done ++ lead).length = p + done.length + lead.length := by
    rw [List.length_append, Nat.add_assoc]
  have hcut : p + (done ++ lead ++ w).length = p + done.length + (lead ++ w).length := by
    rw [List.append_assoc, List.length_append, Nat.add_assoc]
  have hcut' : p + (done ++ lead).length + w.length = p + (done ++ lead ++ w).length := by
    rw [Nat.add_assoc, ← List.length_append]
  have hnext : (done ++ lead ++ w ++ [c]).length = (done ++ lead ++ w).length + 1 := by
    rw [List.length_append, List.length_singleton]
  have hbefore : done.length ≤ (done ++ lead ++ w).length := by
    rw [List.append_assoc, List.length_append]
    exact Nat.le_add_right _ _
  have htext : StringAt m (p + (done ++ lead).length) (w ++ c :: rest) := by
    rw [hwhere]
    rw [List.append_assoc] at h
    exact h.text.append.2
  rw [← List.length_append, starts_of_delimiter hs hc] at htoken
  refine ⟨?_, ⟨hs', Or.inr (Or.inr ?_), ?_, ?_⟩, ?_, ?_, Or.inr ⟨_, rfl, htoken, ?_, ?_⟩⟩
  · have hpos : p + done.length ≠ 0 := by omega
    rw [hnext, ← Nat.add_assoc, hcut, hwhere]
    exact strtok_cut hpos hstr h.text h.delimiters hlead hw hne hc
  · have hmem : s.getD ((done ++ lead ++ w ++ [c]).length - 1) 0 ∈ [c] :=
      getD_mem hs' (by omega) (by rw [List.length_singleton]; omega)
    rw [List.mem_singleton.mp hmem]
    exact hc
  · have hrest := (stringAt_cons.mp htext.append.2).2.2
    rw [hcut', Nat.add_assoc, ← hnext] at hrest
    refine hrest.congr fun a ha _ => ?_
    exact Function.update_of_ne (by omega) _ _
  · refine h.delimiters.congr fun a ha hle => ?_
    refine Function.update_of_ne ?_ _ _
    rintro rfl
    have := hapart (p + (done ++ lead ++ w).length) (Nat.le_add_right _ _) (by omega)
    omega
  · intro a ha
    exact Function.update_of_ne (by omega) _ _
  · omega
  · rw [hword, ← hcut']
    exact htext.cut
  · rw [hword]
    intro a ha
    have hsplit : (done ++ lead ++ w).length = (done ++ lead).length + w.length :=
      List.length_append
    omega

theorem Scanning.call (h : Scanning d s p q m done t) (hp : p ≠ 0)
    (hapart : ∀ a, p ≤ a → a < p + s.length → a < q ∨ q + d.length < a)
    (hstr : (if str = 0 then oldstr else str) = p + done.length) :
    ∃ m' done' t' token, strtok m oldstr str q = some (m', p + done'.length, token) ∧
      Scanning d s p q m' done' t' ∧ Returned d s p m m' done.length done'.length token := by
  rcases split_cases d t with hall | ⟨lead, w, rest, rfl, hlead, hw, hne, hrest⟩
  · exact ⟨_, _, _, _, h.none hstr hall⟩
  · rcases hrest with rfl | ⟨c, rest, rfl, hc⟩
    · rw [List.append_nil] at h
      exact ⟨_, _, _, _, h.last hstr hlead hw hne⟩
    · exact ⟨_, _, _, _, h.cut hp hapart hstr hlead hw hne hc⟩

/-- `n` calls, by induction on their number. -/
theorem Scanning.calls (h : Scanning d s p q m done t) (hp : p ≠ 0)
    (hapart : ∀ a, p ≤ a → a < p + s.length → a < q ∨ q + d.length < a)
    (hstr : (if str = 0 then oldstr else str) = p + done.length) :
    ∃ m', strtokCalls m oldstr str q n = some (m', tokenAddrs p (starts d s done.length) n) ∧
      (∀ i, i ∈ (starts d s done.length).take n → StringAt m' (p + i) (run d s i)) ∧
      ∀ a, a < p + done.length ∨ p + s.length ≤ a → m' a = m a := by
  induction n generalizing m done t oldstr str with
  | zero => exact ⟨m, rfl, fun i hi => absurd hi List.not_mem_nil, fun _ _ => rfl⟩
  | succ n ih =>
      obtain ⟨m₁, done', t', token, hcall, hnext, hret⟩ := h.call hp hapart hstr
      have hold : (if 0 = 0 then p + done'.length else 0) = p + done'.length := if_pos rfl
      obtain ⟨m', hcalls, htokens, hframe⟩ := ih hnext hold
      have hkept : ∀ a, a < p + done.length ∨ p + s.length ≤ a → m' a = m a := by
        intro a ha
        have := hret.advance
        exact (hframe a (by omega)).trans (hret.frame a ha)
      rw [strtokCalls_succ hcall, hcalls]
      rcases hret.result with ⟨rfl, hnone, hend⟩ | ⟨i, rfl, hstart, htoken, hbehind⟩
      · rw [hnone, hend, tokenAddrs_nil]
        exact ⟨m', rfl, fun i hi => absurd hi List.not_mem_nil, hkept⟩
      · rw [hstart, tokenAddrs_cons]
        refine ⟨m', rfl, ?_, hkept⟩
        intro k hk
        rcases List.mem_cons.mp hk with rfl | hk
        · refine htoken.congr fun a ha hle => hframe a ?_
          have := hbehind (a - p) (by omega)
          omega
        · exact htokens k hk

/-- The calls return the maximal runs of other characters, in order, and then `NULL`. -/
theorem strtok_enumerates (s d : CString) (hp : p ≠ 0) (hs : StringAt m p s.text)
    (hd : StringAt m q d.text)
    (hapart : ∀ a, p ≤ a → a < p + s.text.length → a < q ∨ q + d.text.length < a) (n : Nat) :
    ∃ m', strtokCalls m oldstr p q n = some (m', tokenAddrs p (starts d.text s.text 0) n) ∧
      (∀ i, i ∈ (starts d.text s.text 0).take n →
        StringAt m' (p + i) (run d.text s.text i)) ∧
      ∀ a, a < p ∨ p + s.text.length ≤ a → m' a = m a := by
  have hscan : Scanning d.text s.text p q m [] s.text :=
    ⟨rfl, Or.inr (Or.inl rfl), hs, hd⟩
  exact hscan.calls hp hapart (if_neg hp)

/-- The string `a b` with the delimiter ` `. -/
theorem strtok_enumerates_two :
    ∃ m', strtokCalls (placed 1 ([97, 32, 98] ++ [0] ++ ([32] ++ [0]))) 0 1 5 3 =
        some (m', tokenAddrs 1 (starts [32] [97, 32, 98] 0) 3) ∧
      (∀ i, i ∈ (starts [32] [97, 32, 98] 0).take 3 →
        StringAt m' (1 + i) (run [32] [97, 32, 98] i)) ∧
      ∀ a, a < 1 ∨ 1 + 3 ≤ a → m' a = placed 1 ([97, 32, 98] ++ [0] ++ ([32] ++ [0])) a :=
  have hplaced : BytesAt (placed 1 ([97, 32, 98] ++ [0] ++ ([32] ++ [0]))) 1
      ([97, 32, 98] ++ [0] ++ ([32] ++ [0])) := bytesAt_placed
  have hparts := bytesAt_append.mp hplaced
  strtok_enumerates (q := 5) ⟨[97, 32, 98], by decide⟩ ⟨[32], by decide⟩ (by decide)
    ⟨by decide, hparts.1⟩ ⟨by decide, hparts.2⟩ (fun a _ h => Or.inl (by
      change a < 1 + 3 at h
      omega)) 3

end Calls

end Longhorn.Tokens
