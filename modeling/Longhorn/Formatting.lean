import Mathlib.Data.List.TakeWhile
import Longhorn.FormatModel
import Longhorn.StreamRefinement

/-!
On which formats the three formatters stay inside the format, and on which they agree.
-/

namespace Longhorn.Formatting

open Longhorn.Foundations.CStrings
open Longhorn.StringModel
open Longhorn.StreamModel
open Longhorn.StreamRefinement
open Longhorn.FormatModel

/-- What the loops find in a format: a character to print, or one behind a `%`. -/
inductive Item where
  | lit (c : Int8)
  | spec (c : Int8)

def items : List Int8 → List Item
  | [] => []
  | c :: f =>
      if c = 37 then
        match f with
        | [] => []
        | d :: f => .spec d :: items f
      else .lit c :: items f

/-- The last `%` of the format has no character behind it. -/
def endsOpen : List Int8 → Bool
  | [] => false
  | c :: f =>
      if c = 37 then
        match f with
        | [] => true
        | _ :: f => endsOpen f
      else endsOpen f

/-- How many `%` the format ends in. -/
def trailing (f : List Int8) : Nat := (f.reverse.takeWhile (· = 37)).length

def specs (is : List Item) : List Int8 :=
  is.filterMap fun
    | .lit _ => none
    | .spec c => some c

section Scan

variable {m : Memory} {args : Args} {p k n : Nat} {c : Int8} {f : List Int8} {is : List Item}

theorem endsOpen_percent (c : Int8) (f : List Int8) : endsOpen (37 :: c :: f) = endsOpen f := rfl

theorem endsOpen_of_ne (hc : c ≠ 37) : endsOpen (c :: f) = endsOpen f := by
  cases f with
  | nil => exact if_neg hc
  | cons d f => exact if_neg hc

theorem items_percent (c : Int8) (f : List Int8) : items (37 :: c :: f) = .spec c :: items f := rfl

theorem items_of_ne (hc : c ≠ 37) : items (c :: f) = .lit c :: items f := by
  cases f with
  | nil => exact if_neg hc
  | cons d f => exact if_neg hc

theorem trailing_le (f : List Int8) : trailing f ≤ f.length := by
  have hlen : f.reverse.length = f.length := List.length_reverse
  rw [trailing, ← hlen]
  exact (List.takeWhile_prefix _).length_le

theorem trailing_cons :
    trailing (c :: f) =
      if trailing f = f.length then f.length + (if c = 37 then 1 else 0) else trailing f := by
  rw [trailing, List.reverse_cons, List.takeWhile_append, List.length_reverse, ← trailing]
  split_ifs with hall hc
  · simp [hc]
  · simp [hc]
  · rfl

theorem endsOpen_iff (f : List Int8) : endsOpen f = true ↔ trailing f % 2 = 1 := by
  induction f using endsOpen.induct with
  | case1 => exact ⟨fun h => absurd h Bool.false_ne_true, fun h => absurd h (by decide)⟩
  | case2 => exact ⟨fun _ => rfl, fun _ => rfl⟩
  | case3 d f ih =>
      have hle := trailing_le f
      have hpercent : (if (37 : Int8) = 37 then 1 else 0) = 1 := rfl
      rw [endsOpen_percent, ih, trailing_cons, trailing_cons, List.length_cons, hpercent]
      split_ifs <;> omega
  | case4 c f hc ih =>
      have hle := trailing_le f
      rw [endsOpen_of_ne hc, ih, trailing_cons, if_neg hc]
      split_ifs <;> omega

/-- What `printf` and `kprintf` make of the items. -/
def formatItems {σ : Type} (putc : σ → Int8 → σ) (puts : σ → CString → σ) (args : Args) :
    List Item → Nat → σ → σ
  | [], _, out => out
  | .lit c :: is, k, out => formatItems putc puts args is k (putc out c)
  | .spec c :: is, k, out =>
      formatItems putc puts args is (convert putc puts args c k out).2
        (convert putc puts args c k out).1

def sprintfItems (vaBool : Int → Option Bool) (args : Args) :
    List Item → Nat → List Int8 → Nat → Option (List Int8 × Nat)
  | [], _, str, n => some (str, n)
  | .lit c :: is, k, str, n => sprintfItems vaBool args is k (str ++ [c]) (n + 1)
  | .spec c :: is, k, str, n =>
      match sprintfTemp vaBool args c k with
      | none => none
      | some (none, k) => sprintfItems vaBool args is k str n
      | some (some temp, k) =>
          sprintfItems vaBool args is k (str ++ temp.text) (n + temp.text.length)

theorem formatLoop_percent {σ : Type} {putc : σ → Int8 → σ} {puts : σ → CString → σ} {out : σ}
    (hread : m p = some 37) (hnext : m (p + 1) = some c) :
    args.formatLoop m putc puts p k out =
      args.formatLoop m putc puts (p + 1 + 1) (convert putc puts args c k out).2
        (convert putc puts args c k out).1 := by
  rw [Args.formatLoop, hread]
  change (m (p + 1) >>= fun c => _) = _
  rw [hnext]
  rfl

theorem formatLoop_lit {σ : Type} {putc : σ → Int8 → σ} {puts : σ → CString → σ} {out : σ}
    (hread : m p = some c) (hzero : c ≠ 0) (hc : c ≠ 37) :
    args.formatLoop m putc puts p k out = args.formatLoop m putc puts (p + 1) k (putc out c) := by
  rw [Args.formatLoop, hread]
  exact (if_pos hzero).trans (if_neg hc)

theorem formatLoop_items {σ : Type} {putc : σ → Int8 → σ} {puts : σ → CString → σ} {out : σ}
    (h : StringAt m p f) (hf : endsOpen f = false) :
    args.formatLoop m putc puts p k out = some (formatItems putc puts args (items f) k out) := by
  induction f using endsOpen.induct generalizing p k out with
  | case1 =>
      rw [Args.formatLoop, stringAt_nil.mp h]
      rfl
  | case2 => exact absurd hf (by decide)
  | case3 d f ih =>
      obtain ⟨hread, hzero, hrest⟩ := stringAt_cons.mp h
      obtain ⟨hread', _, hrest'⟩ := stringAt_cons.mp hrest
      rw [endsOpen_percent] at hf
      rw [formatLoop_percent hread hread', items_percent]
      exact ih hrest' hf
  | case4 c f hc ih =>
      obtain ⟨hread, hzero, hrest⟩ := stringAt_cons.mp h
      rw [endsOpen_of_ne hc] at hf
      rw [formatLoop_lit hread hzero hc, items_of_ne hc]
      exact ih hrest hf

/-- The character behind the last `%` is the terminator, which the loop steps over. -/
theorem formatLoop_open {σ : Type} {putc : σ → Int8 → σ} {puts : σ → CString → σ} {out : σ}
    (h : StringAt m p f) (hf : endsOpen f = true) (hend : m (p + f.length + 1) = none) :
    args.formatLoop m putc puts p k out = none := by
  induction f using endsOpen.induct generalizing p k out with
  | case1 => exact absurd hf Bool.false_ne_true
  | case2 =>
      obtain ⟨hread, hzero, hrest⟩ := stringAt_cons.mp h
      have hend' : m (p + 1 + 1) = none := hend
      rw [formatLoop_percent hread (stringAt_nil.mp hrest), Args.formatLoop, hend']
      rfl
  | case3 d f ih =>
      obtain ⟨hread, hzero, hrest⟩ := stringAt_cons.mp h
      obtain ⟨hread', _, hrest'⟩ := stringAt_cons.mp hrest
      rw [endsOpen_percent] at hf
      rw [formatLoop_percent hread hread']
      refine ih hrest' hf ?_
      rw [← hend, List.length_cons, List.length_cons]
      congr 1
      omega
  | case4 c f hc ih =>
      obtain ⟨hread, hzero, hrest⟩ := stringAt_cons.mp h
      rw [endsOpen_of_ne hc] at hf
      rw [formatLoop_lit hread hzero hc]
      refine ih hrest hf ?_
      rw [← hend, List.length_cons]
      congr 1
      omega

theorem sprintfLoop_items {vaBool : Int → Option Bool} {str : List Int8} (h : StringAt m p f)
    (hf : endsOpen f = false) :
    args.sprintfLoop m vaBool p k str n = sprintfItems vaBool args (items f) k str n := by
  induction f using endsOpen.induct generalizing p k str n with
  | case1 =>
      rw [Args.sprintfLoop, stringAt_nil.mp h]
      rfl
  | case2 => exact absurd hf (by decide)
  | case3 d f ih =>
      obtain ⟨hread, hzero, hrest⟩ := stringAt_cons.mp h
      obtain ⟨hread', _, hrest'⟩ := stringAt_cons.mp hrest
      rw [endsOpen_percent] at hf
      rw [Args.sprintfLoop, hread]
      change (m (p + 1) >>= fun c => _) = _
      rw [hread', items_percent, sprintfItems]
      change (sprintfTemp vaBool args d k >>= fun x => _) = _
      cases sprintfTemp vaBool args d k with
      | none => rfl
      | some r =>
          obtain ⟨temp | temp, k'⟩ := r
          · exact ih hrest' hf
          · exact ih hrest' hf
  | case4 c f hc ih =>
      obtain ⟨hread, hzero, hrest⟩ := stringAt_cons.mp h
      rw [endsOpen_of_ne hc] at hf
      rw [Args.sprintfLoop, hread]
      refine (if_pos hzero).trans ((if_neg hc).trans ?_)
      rw [items_of_ne hc]
      exact ih hrest hf

end Scan

section Texts

variable {args : Args} {a : Arg} {vaBool : Int → Option Bool} {c t : Int8} {k n : Nat}
  {out str text q : List Int8} {is : List Item} {s : Stream}

/-- The text of a specifier. -/
def convText (a : Arg) (c : Int8) : List Int8 :=
  if c = 100 then (intText a.int).text
  else if c = 120 then (hexIntText a.int).text
  else if c = 115 then a.text.text
  else if c = 99 then [Int8.ofInt a.int]
  else if c = 66 then (boolText (decide (a.int ≠ 0))).text
  else []

def takes (c : Int8) : Nat := if c ∈ [100, 120, 115, 99, 66] then 1 else 0

/-- What `kprintf` sends for the items. -/
def itemsText (args : Args) : List Item → Nat → List Int8
  | [], _ => []
  | .lit c :: is, k => c :: itemsText args is k
  | .spec c :: is, k => convText (args k) c ++ itemsText args is (k + takes c)

/-- A specifier is for a text, for a character, or for nothing. -/
theorem convert_cases {σ : Type} (putc : σ → Int8 → σ) (puts : σ → CString → σ) (args : Args)
    (c : Int8) (k : Nat) (out : σ) :
    (∃ t, convert putc puts args c k out = (puts out t, k + takes c) ∧
        convText (args k) c = t.text) ∨
      (∃ d, convert putc puts args c k out = (putc out d, k + takes c) ∧
        convText (args k) c = [d]) ∨
      convert putc puts args c k out = (out, k + takes c) ∧ convText (args k) c = [] := by
  by_cases hd : c = 100
  · subst hd
    exact Or.inl ⟨intText (args k).int, rfl, rfl⟩
  by_cases hx : c = 120
  · subst hx
    exact Or.inl ⟨hexIntText (args k).int, rfl, rfl⟩
  by_cases hs : c = 115
  · subst hs
    exact Or.inl ⟨(args k).text, rfl, rfl⟩
  by_cases hc : c = 99
  · subst hc
    exact Or.inr (Or.inl ⟨Int8.ofInt (args k).int, rfl, rfl⟩)
  by_cases hb : c = 66
  · subst hb
    exact Or.inl ⟨boolText (decide ((args k).int ≠ 0)), rfl, rfl⟩
  · refine Or.inr (Or.inr ⟨?_, ?_⟩)
    · rw [convert, takes, if_neg hd, if_neg hx, if_neg hs, if_neg hc, if_neg hb,
        if_neg (by simp [hd, hx, hs, hc, hb]), Nat.add_zero]
    · rw [convText, if_neg hd, if_neg hx, if_neg hs, if_neg hc, if_neg hb]

theorem convert_display :
    convert (fun out c => out ++ [c]) (fun out t => out ++ t.text) args c k out =
      (out ++ convText (args k) c, k + takes c) := by
  rcases convert_cases (fun out c => out ++ [c]) (fun out t => out ++ t.text) args c k out with
    ⟨t, hconv, htext⟩ | ⟨d, hconv, htext⟩ | ⟨hconv, htext⟩
  · rw [hconv, htext]
  · rw [hconv, htext]
  · rw [hconv, htext, List.append_nil]

theorem formatItems_display :
    formatItems (fun out c => out ++ [c]) (fun out t => out ++ t.text) args is k out =
      out ++ itemsText args is k := by
  induction is generalizing k out with
  | nil => exact (List.append_nil out).symm
  | cons i is ih =>
      cases i with
      | lit c => rw [formatItems, ih, itemsText, List.append_assoc, List.singleton_append]
      | spec c => rw [formatItems, convert_display, ih, itemsText, List.append_assoc]

theorem holds_puts (h : Holds stdStreamSize s q) (t : CString)
    (hroom : q.length + t.text.length < stdStreamSize) :
    Holds stdStreamSize (putsStd s t).1 (q ++ t.text) := by
  have hputs := (putsStd_refines h t).2
  rwa [List.take_of_length_le (by omega)] at hputs

theorem convert_stream (args : Args) (c : Int8) (k : Nat) (h : Holds stdStreamSize s q)
    (hroom : q.length + (convText (args k) c).length < stdStreamSize) :
    (convert (fun s c => (putStd s c).1) (fun s t => (putsStd s t).1) args c k s).2 = k + takes c ∧
      Holds stdStreamSize
        (convert (fun s c => (putStd s c).1) (fun s t => (putsStd s t).1) args c k s).1
        (q ++ convText (args k) c) := by
  rcases convert_cases (fun s c => (putStd s c).1) (fun s t => (putsStd s t).1) args c k s with
    ⟨t, hconv, htext⟩ | ⟨d, hconv, htext⟩ | ⟨hconv, htext⟩
  all_goals
    rw [htext] at hroom ⊢
    rw [hconv]
    refine ⟨rfl, ?_⟩
  · exact holds_puts h t hroom
  · exact h.put (by decide) hroom
  · rwa [List.append_nil]

theorem formatItems_stream (h : Holds stdStreamSize s q)
    (hroom : q.length + (itemsText args is k).length < stdStreamSize) :
    Holds stdStreamSize
      (formatItems (fun s c => (putStd s c).1) (fun s t => (putsStd s t).1) args is k s)
      (q ++ itemsText args is k) := by
  induction is generalizing k s q with
  | nil =>
      rw [itemsText, List.append_nil]
      exact h
  | cons i is ih =>
      cases i with
      | lit c =>
          rw [itemsText, List.length_cons] at hroom
          have hput : Holds stdStreamSize (putStd s c).1 (q ++ [c]) :=
            h.put (by decide) (by omega)
          have hrest := ih (k := k) hput (by
            rw [List.length_append, List.length_singleton]
            omega)
          rwa [List.append_assoc, List.singleton_append] at hrest
      | spec c =>
          rw [itemsText, List.length_append] at hroom
          obtain ⟨hk, hconv⟩ := convert_stream args c k h (by omega)
          have hrest := ih (k := k + takes c) hconv (by
            rw [List.length_append]
            omega)
          rw [List.append_assoc] at hrest
          rw [formatItems, hk]
          exact hrest

theorem sprintfTemp_of_other (vaBool : Int → Option Bool) (args : Args) (k : Nat) (hc : c ≠ 99)
    (hb : c = 66 → ∀ n, vaBool n = some (decide (n ≠ 0))) :
    (sprintfTemp vaBool args c k = some (none, k + takes c) ∧ convText (args k) c = []) ∨
      ∃ temp, sprintfTemp vaBool args c k = some (some temp, k + takes c) ∧
        convText (args k) c = temp.text := by
  by_cases hd : c = 100
  · subst hd
    exact Or.inr ⟨intText (args k).int, rfl, rfl⟩
  by_cases hx : c = 120
  · subst hx
    exact Or.inr ⟨hexIntText (args k).int, rfl, rfl⟩
  by_cases hs : c = 115
  · subst hs
    exact Or.inr ⟨(args k).text, rfl, rfl⟩
  by_cases hbool : c = 66
  · refine Or.inr ⟨boolText (decide ((args k).int ≠ 0)), ?_, by rw [hbool]; rfl⟩
    have hva := hb hbool (args k).int
    subst hbool
    change (vaBool (args k).int).map _ = _
    rw [hva]
    rfl
  · refine Or.inl ⟨?_, ?_⟩
    · rw [sprintfTemp, takes, if_neg hd, if_neg hx, if_neg hs, if_neg hbool,
        if_neg (by simp [hd, hx, hs, hc, hbool]), Nat.add_zero]
    · rw [convText, if_neg hd, if_neg hx, if_neg hs, if_neg hc, if_neg hbool]

theorem sprintfItems_of_agree (hc : 99 ∉ specs is)
    (hb : 66 ∈ specs is → ∀ n, vaBool n = some (decide (n ≠ 0))) :
    sprintfItems vaBool args is k str n =
      some (str ++ itemsText args is k, n + (itemsText args is k).length) := by
  induction is generalizing k str n with
  | nil => rw [sprintfItems, itemsText, List.append_nil, List.length_nil, Nat.add_zero]
  | cons i is ih =>
      cases i with
      | lit c =>
          rw [sprintfItems, ih hc hb, itemsText, List.append_assoc, List.singleton_append,
            List.length_cons, Nat.add_assoc, Nat.add_comm 1]
      | spec c =>
          have hspecs : specs (.spec c :: is) = c :: specs is := rfl
          rw [hspecs, List.mem_cons] at hb
          rw [hspecs, List.mem_cons, not_or] at hc
          have hrest := fun h => hb (Or.inr h)
          rcases sprintfTemp_of_other vaBool args k (Ne.symm hc.1)
            fun h => hb (Or.inl h.symm) with ⟨htemp, htext⟩ | ⟨temp, htemp, htext⟩
          · rw [sprintfItems, htemp, itemsText, htext, List.nil_append]
            exact ih hc.2 hrest
          · rw [sprintfItems, htemp, itemsText, htext]
            refine (ih hc.2 hrest).trans ?_
            rw [List.append_assoc, List.length_append, Nat.add_assoc]

/-- `sprintf` and `kprintf` differ in the characters of `%c` and `%B`. -/
theorem count_sprintfItems {b : Bool} {r : List Int8 × Nat} {j : Nat}
    (hrun : sprintfItems vaBool (fun _ => a) is k str n = some r)
    (hb : 66 ∈ specs is → vaBool a.int = some b) :
    r.1.count t + (specs is).count 99 * [Int8.ofInt a.int].count t +
        (specs is).count 66 * (boolText (decide (a.int ≠ 0))).text.count t =
      str.count t + (itemsText (fun _ => a) is j).count t +
        (specs is).count 66 * (boolText b).text.count t := by
  induction is generalizing k j str n with
  | nil =>
      obtain rfl : (str, n) = r := Option.some.inj hrun
      have hspecs : specs [] = [] := rfl
      rw [hspecs, List.count_nil, List.count_nil, Nat.zero_mul, Nat.zero_mul, Nat.zero_mul]
      rfl
  | cons i is ih =>
      cases i with
      | lit c =>
          have hrest := ih (j := j) hrun hb
          rw [List.count_append] at hrest
          have hcons : (itemsText (fun _ => a) (.lit c :: is) j).count t =
              [c].count t + (itemsText (fun _ => a) is j).count t := by
            rw [itemsText, ← List.singleton_append, List.count_append]
          have hspecs : specs (.lit c :: is) = specs is := rfl
          rw [hcons, hspecs]
          omega
      | spec c =>
          have hspecs : specs (.spec c :: is) = c :: specs is := rfl
          have hrest : 66 ∈ specs is → vaBool a.int = some b :=
            fun h => hb (by rw [hspecs]; exact List.mem_cons_of_mem _ h)
          rw [itemsText, List.count_append, hspecs]
          rw [sprintfItems] at hrun
          by_cases hc : c = 99
          · subst hc
            have htext : convText a 99 = [Int8.ofInt a.int] := rfl
            have htail := ih (j := j + takes 99) hrun hrest
            have h99 : (99 :: specs is).count 99 = (specs is).count 99 + 1 := List.count_cons_self
            have h66 : (99 :: specs is).count 66 = (specs is).count 66 :=
              List.count_cons_of_ne (by decide)
            rw [h99, h66, htext, Nat.add_one_mul]
            omega
          · by_cases hbool : c = 66
            · subst hbool
              have hva := hb (by rw [hspecs]; exact List.mem_cons_self)
              have htemp : sprintfTemp vaBool (fun _ => a) 66 k =
                  some (some (boolText b), k + 1) := by
                change (vaBool a.int).map _ = _
                rw [hva]
                rfl
              have htext : convText a 66 = (boolText (decide (a.int ≠ 0))).text := rfl
              rw [htemp] at hrun
              have htail := ih (j := j + takes 66) hrun hrest
              rw [List.count_append] at htail
              have h99 : (66 :: specs is).count 99 = (specs is).count 99 :=
                List.count_cons_of_ne (by decide)
              have h66 : (66 :: specs is).count 66 = (specs is).count 66 + 1 := List.count_cons_self
              rw [h99, h66, htext, Nat.add_one_mul, Nat.add_one_mul]
              omega
            · rw [List.count_cons_of_ne hc, List.count_cons_of_ne hbool]
              rcases sprintfTemp_of_other vaBool (fun _ => a) k hc
                fun h => absurd h hbool with ⟨htemp, htext⟩ | ⟨temp, htemp, htext⟩
              · rw [htemp] at hrun
                have htail := ih (j := j + takes c) hrun hrest
                rw [htext, List.count_nil]
                omega
              · rw [htemp] at hrun
                have htail := ih (j := j + takes c) hrun hrest
                rw [List.count_append, ← htext] at htail
                omega

theorem vaBool_of_sprintfItems {r : List Int8 × Nat}
    (hrun : sprintfItems vaBool (fun _ => a) is k str n = some r) (hmem : 66 ∈ specs is) :
    ∃ b, vaBool a.int = some b := by
  induction is generalizing k str n with
  | nil => exact absurd hmem List.not_mem_nil
  | cons i is ih =>
      cases i with
      | lit c => exact ih hrun hmem
      | spec c =>
          have hspecs : specs (.spec c :: is) = c :: specs is := rfl
          rw [hspecs, List.mem_cons] at hmem
          rw [sprintfItems] at hrun
          by_cases hbool : c = 66
          · subst hbool
            have htemp : sprintfTemp vaBool (fun _ => a) 66 k =
                (vaBool a.int).map fun b => (some (boolText b), k + 1) := rfl
            cases hva : vaBool a.int with
            | none =>
                rw [htemp, hva] at hrun
                cases hrun
            | some b => exact ⟨b, rfl⟩
          · have hrest := hmem.resolve_left (Ne.symm hbool)
            cases htemp : sprintfTemp vaBool (fun _ => a) c k with
            | none =>
                rw [htemp] at hrun
                cases hrun
            | some r =>
                rw [htemp] at hrun
                obtain ⟨temp | temp, k'⟩ := r
                · exact ih hrun hrest
                · exact ih hrun hrest

end Texts

section Claims

variable {vaBool : Int → Option Bool}

/-- The formatters stop at the NUL of the format, whatever stands behind it. -/
def ScansInside (f : CString) : Prop :=
  ∀ (m : Memory) (p : Nat) (args : Args), StringAt m p f.text →
    (∃ out, kprintf m p args = some out) ∧ (∀ s, ∃ s', printf m p args s = some s') ∧
      ∀ vaBool : Int → Bool, ∃ r, sprintf m (fun n => some (vaBool n)) p args = some r

/-- The three formatters make the same text of the same arguments. -/
def Agree (vaBool : Int → Option Bool) (f : CString) : Prop :=
  ∀ (m : Memory) (p : Nat) (args : Args), StringAt m p f.text →
    ∃ out, kprintf m p args = some out ∧ sprintf m vaBool p args = some (out, out.length) ∧
      ∀ s q, Holds stdStreamSize s q → q.length + out.length < stdStreamSize →
        ∃ s', printf m p args s = some s' ∧ Holds stdStreamSize s' (q ++ out)

theorem sprintfItems_total (vaBool : Int → Bool) (args : Args) (is : List Item) (k : Nat)
    (str : List Int8) (n : Nat) :
    ∃ r, sprintfItems (fun n => some (vaBool n)) args is k str n = some r := by
  induction is generalizing k str n with
  | nil => exact ⟨_, rfl⟩
  | cons i is ih =>
      cases i with
      | lit c => exact ih _ _ _
      | spec c =>
          obtain ⟨r, hr⟩ : ∃ r, sprintfTemp (fun n => some (vaBool n)) args c k = some r := by
            rw [sprintfTemp]
            split_ifs <;> exact ⟨_, rfl⟩
          rw [sprintfItems, hr]
          obtain ⟨temp | temp, k'⟩ := r
          · exact ih _ _ _
          · exact ih _ _ _

/-- The scan stays inside unless the format ends in an odd number of `%`. -/
theorem format_scan_inside_iff (f : CString) : ScansInside f ↔ trailing f.text % 2 = 0 := by
  have hopen : endsOpen f.text = false ↔ trailing f.text % 2 = 0 := by
    rw [← Bool.not_eq_true, endsOpen_iff]
    omega
  rw [← hopen]
  constructor
  · intro h
    by_contra hends
    rw [Bool.not_eq_false] at hends
    have hstring : StringAt (placed 1 (f.text ++ [0])) 1 f.text := ⟨f.nonzero, bytesAt_placed⟩
    have hend : placed 1 (f.text ++ [0]) (1 + f.text.length + 1) = none := by
      have hplaced := placed_end 1 (f.text ++ [0])
      rwa [List.length_append] at hplaced
    obtain ⟨out, hout⟩ := (h _ 1 (fun _ => ⟨0, ⟨[], List.not_mem_nil⟩⟩) hstring).1
    rw [kprintf, formatLoop_open hstring hends hend] at hout
    cases hout
  · intro hends m p args h
    refine ⟨⟨_, formatLoop_items h hends⟩, fun s => ⟨_, formatLoop_items h hends⟩, ?_⟩
    intro vaBool
    rw [sprintf, sprintfLoop_items h hends]
    exact sprintfItems_total vaBool args _ _ _ _

/-- `"%"`, with nothing behind the terminator. -/
theorem not_format_scan_inside : ¬ ∀ f : CString, ScansInside f := by
  intro h
  have hstring : StringAt (placed 1 [37, 0]) 1 [37] := ⟨by decide, bytesAt_placed⟩
  obtain ⟨out, hout⟩ :=
    (h ⟨[37], by decide⟩ _ 1 (fun _ => ⟨0, ⟨[], List.not_mem_nil⟩⟩) hstring).1
  rw [kprintf, formatLoop_open hstring rfl (placed_end 1 [37, 0])] at hout
  cases hout

theorem agree_of_specs {f : CString} (hf : endsOpen f.text = false)
    (hc : 99 ∉ specs (items f.text))
    (hb : 66 ∈ specs (items f.text) → ∀ n, vaBool n = some (decide (n ≠ 0))) : Agree vaBool f := by
  intro m p args h
  refine ⟨itemsText args (items f.text) 0, ?_, ?_, ?_⟩
  · rw [kprintf, formatLoop_items h hf, formatItems_display]
    rfl
  · rw [sprintf, sprintfLoop_items h hf, sprintfItems_of_agree hc hb, List.nil_append, Nat.zero_add]
  · intro s q hs hroom
    exact ⟨_, formatLoop_items h hf, formatItems_stream hs hroom⟩

/-- Where the formatters agree, `sprintf` makes the text of the items. -/
theorem Agree.sprintfItems {f : CString} (hf : endsOpen f.text = false) (h : Agree vaBool f)
    (args : Args) :
    sprintfItems vaBool args (items f.text) 0 [] 0 =
      some (itemsText args (items f.text) 0, (itemsText args (items f.text) 0).length) := by
  have hstring : StringAt (placed 1 (f.text ++ [0])) 1 f.text := ⟨f.nonzero, bytesAt_placed⟩
  obtain ⟨out, hkprintf, hsprintf, -⟩ := h _ 1 args hstring
  rw [kprintf, formatLoop_items hstring hf, formatItems_display] at hkprintf
  obtain rfl := Option.some.inj hkprintf
  rw [sprintf, sprintfLoop_items hstring hf] at hsprintf
  exact hsprintf

/-- Over one argument, `sprintf` lacks the characters of each `%c`, and has its own word for
`%B`. -/
theorem Agree.count {f : CString} (hf : endsOpen f.text = false) (h : Agree vaBool f) (n : Int)
    (t : Int8) {b : Bool} (hb : 66 ∈ specs (items f.text) → vaBool n = some b) :
    (specs (items f.text)).count 99 * [Int8.ofInt n].count t +
        (specs (items f.text)).count 66 * (boolText (decide (n ≠ 0))).text.count t =
      (specs (items f.text)).count 66 * (boolText b).text.count t := by
  have hitems := h.sprintfItems hf fun _ => ⟨n, ⟨[], List.not_mem_nil⟩⟩
  have hcount := count_sprintfItems (t := t) (j := 0) hitems hb
  rw [List.count_nil, Nat.zero_add, Nat.add_assoc] at hcount
  exact Nat.add_left_cancel hcount

theorem Agree.notMem_specs {f : CString} (hf : endsOpen f.text = false) (h : Agree vaBool f) :
    99 ∉ specs (items f.text) := by
  have hword : ∃ b, 66 ∈ specs (items f.text) → vaBool 1 = some b := by
    by_cases hmem : 66 ∈ specs (items f.text)
    · obtain ⟨b, hb⟩ := vaBool_of_sprintfItems
        (h.sprintfItems hf fun _ => ⟨1, ⟨[], List.not_mem_nil⟩⟩) hmem
      exact ⟨b, fun _ => hb⟩
    · exact ⟨true, fun h => absurd h hmem⟩
  obtain ⟨b, hb⟩ := hword
  -- the character 1 is in neither word of `%B`
  have hnone : ∀ b, (boolText b).text.count 1 = 0 := by decide
  have hchar : [Int8.ofInt 1].count 1 = 1 := by decide
  have hcount := h.count hf 1 1 hb
  rw [hnone, hnone, hchar, Nat.mul_zero, Nat.add_zero, Nat.mul_one] at hcount
  exact List.count_eq_zero.mp hcount

theorem Agree.vaBool_eq {f : CString} (hf : endsOpen f.text = false) (h : Agree vaBool f)
    (hmem : 66 ∈ specs (items f.text)) (n : Int) : vaBool n = some (decide (n ≠ 0)) := by
  obtain ⟨b, hb⟩ := vaBool_of_sprintfItems
    (h.sprintfItems hf fun _ => ⟨n, ⟨[], List.not_mem_nil⟩⟩) hmem
  -- only `true` has a `t`
  have ht : ∀ b b', (boolText b).text.count 116 = (boolText b').text.count 116 → b = b' := by decide
  have hcount := h.count hf n 116 fun _ => hb
  rw [List.count_eq_zero.mpr (h.notMem_specs hf), Nat.zero_mul, Nat.zero_add] at hcount
  have hword := Nat.eq_of_mul_eq_mul_left (List.count_pos_iff.mpr hmem) hcount
  rw [ht _ _ hword]
  exact hb

/-- `sprintf` has no `%c`, and its `%B` need not take the argument as the other two do. -/
theorem formatters_agree_iff (vaBool : Int → Option Bool) (f : CString)
    (hf : endsOpen f.text = false) :
    Agree vaBool f ↔
      99 ∉ specs (items f.text) ∧
        (66 ∈ specs (items f.text) → ∀ n, vaBool n = some (decide (n ≠ 0))) := by
  constructor
  · intro h
    exact ⟨h.notMem_specs hf, h.vaBool_eq hf⟩
  · rintro ⟨hc, hb⟩
    exact agree_of_specs hf hc hb

/-- `"%d"`. -/
theorem formatters_agree_number : Agree (fun _ => none) ⟨[37, 100], by decide⟩ :=
  (formatters_agree_iff (fun _ => none) ⟨[37, 100], by decide⟩ rfl).mpr
    ⟨by decide, fun hmem => absurd hmem (by decide)⟩

/-- `"%c"`. -/
theorem not_formatters_agree :
    ¬ ∃ vaBool : Int → Option Bool, ∀ f : CString, endsOpen f.text = false → Agree vaBool f := by
  rintro ⟨vaBool, h⟩
  have hagree := h ⟨[37, 99], by decide⟩ rfl
  exact hagree.notMem_specs rfl List.mem_cons_self

end Claims

end Longhorn.Formatting
