import Longhorn.StreamModel
import Longhorn.StringModel

/-!
Which strings `strstr` finds where they first occur.
-/

namespace Longhorn.StringSearch

open Longhorn.Foundations.CStrings
open Longhorn.StringModel
open Longhorn.StreamModel (CString)

/-- The address of the first occurrence of `b` in the string `a` at `p`, or `NULL`. -/
def FindsOccurrence (p : Nat) (a b : List Int8) (r : Nat) : Prop :=
  (∃ i, b <+: a.drop i ∧ (∀ k, k < i → ¬ b <+: a.drop k) ∧ r = p + i) ∨
    ((∀ k, ¬ b <+: a.drop k) ∧ r = 0)

/-- `strstr` finds the first occurrence, whatever stands behind the strings. -/
def Searches (a b : CString) : Prop :=
  ∀ (m : Memory) (p q : Nat), p ≠ 0 → StringAt m p a.text → StringAt m q b.text →
    ∃ r, strstr m p q = some r ∧ FindsOccurrence p a.text b.text r

/-- What stands in front of the first occurrence of `b`: all of the text if there is none. -/
def before (b : List Int8) : List Int8 → List Int8
  | [] => []
  | c :: a => if b <+: c :: a then [] else c :: before b a

/-- A sequence of blocks: a beginning of `b`, but not all of it, and a character with which
`b` does not go on. -/
inductive Skips (b : List Int8) : List Int8 → Prop
  | nil : Skips b []
  | block {pre post front : List Int8} {c d : Int8} (hb : b = pre ++ d :: post) (hcd : c ≠ d)
      (h : Skips b front) : Skips b (pre ++ c :: front)

section Texts

variable {a b pre post rest : List Int8} {c d : Int8}

/-- Two texts agree up to the end of one of them or a place where they differ. -/
theorem common_cases (a b : List Int8) :
    b <+: a ∨ (∃ d post, b = a ++ d :: post) ∨
      ∃ pre c d rest post, a = pre ++ c :: rest ∧ b = pre ++ d :: post ∧ c ≠ d := by
  induction a generalizing b with
  | nil =>
      cases b with
      | nil => exact Or.inl (List.prefix_refl _)
      | cons d b => exact Or.inr (Or.inl ⟨d, b, rfl⟩)
  | cons c a ih =>
      cases b with
      | nil => exact Or.inl List.nil_prefix
      | cons d b =>
          by_cases hcd : c = d
          · subst hcd
            rcases ih b with hpre | ⟨d, post, rfl⟩ | ⟨pre, e, d, rest, post, rfl, rfl, hne⟩
            · exact Or.inl (List.cons_prefix_cons.mpr ⟨rfl, hpre⟩)
            · exact Or.inr (Or.inl ⟨d, post, rfl⟩)
            · exact Or.inr (Or.inr ⟨c :: pre, e, d, rest, post, rfl, rfl, hne⟩)
          · exact Or.inr (Or.inr ⟨[], c, d, a, b, rfl, rfl, hcd⟩)

theorem before_append (h : ∀ k, k < pre.length → ¬ b <+: (pre ++ rest).drop k) :
    before b (pre ++ rest) = pre ++ before b rest := by
  induction pre with
  | nil => rfl
  | cons c pre ih =>
      have hhead : ¬ b <+: c :: (pre ++ rest) := h 0 (Nat.succ_pos _)
      rw [List.cons_append, before, if_neg hhead, ih, List.cons_append]
      intro k hk
      exact h (k + 1) (Nat.succ_lt_succ hk)

theorem before_spec (b a : List Int8) :
    ∃ rest, a = before b a ++ rest ∧ (∀ k, k < (before b a).length → ¬ b <+: a.drop k) ∧
      (rest = [] ∨ rest ≠ [] ∧ b <+: rest) := by
  induction a with
  | nil => exact ⟨[], rfl, fun _ hk => absurd hk (Nat.not_lt_zero _), Or.inl rfl⟩
  | cons c a ih =>
      rw [before]
      split_ifs with hpre
      · exact ⟨c :: a, rfl, fun _ hk => absurd hk (Nat.not_lt_zero _),
          Or.inr ⟨List.cons_ne_nil _ _, hpre⟩⟩
      · obtain ⟨rest, ha, hmiss, hrest⟩ := ih
        refine ⟨rest, congrArg (c :: ·) ha, ?_, hrest⟩
        intro k hk
        cases k with
        | zero => exact hpre
        | succ k => exact hmiss k (Nat.lt_of_succ_lt_succ hk)

end Texts

section Loops

variable {m : Memory} {p q i j r : Nat} {a b pre post rest front : List Int8} {c d : Int8}

theorem matchLoop_of_common (hp : BytesAt m (p + j) pre) (hq : BytesAt m (q + j) pre)
    (hzero : 0 ∉ pre) : m.matchLoop p q j = m.matchLoop p q (j + pre.length) := by
  induction pre generalizing j with
  | nil => rfl
  | cons c pre ih =>
      rw [List.mem_cons, not_or] at hzero
      have hc : c ≠ 0 := Ne.symm hzero.1
      rw [Memory.matchLoop, hp.1, hq.1]
      refine (if_pos hc).trans ((if_pos hc).trans ((if_neg (not_not.mpr rfl)).trans ?_))
      rw [List.length_cons, Nat.add_comm pre.length 1, ← Nat.add_assoc]
      exact ih hp.2 hq.2 hzero.2

theorem strstrLoop_step (hc : m (p + i) = some c) (hczero : c ≠ 0)
    (hmatch : m.matchLoop (p + i) q 0 = some j) (hd : m (q + j) = some d) :
    m.strstrLoop p q i = if d = 0 then some (p + i) else m.strstrLoop p q (i + j + 1) := by
  rw [Memory.strstrLoop, hc]
  refine (if_pos hczero).trans ?_
  rw [hmatch]
  change (m (q + j) >>= fun y => if y = 0 then some (p + i) else m.strstrLoop p q (i + j + 1)) = _
  rw [hd]
  rfl

theorem strstrLoop_nil (ha : StringAt m (p + i) []) : m.strstrLoop p q i = some 0 := by
  rw [Memory.strstrLoop, stringAt_nil.mp ha]
  rfl

/-- An occurrence is recognized. -/
theorem strstrLoop_found (ha : StringAt m (p + i) a) (hb : StringAt m q b) (hne : a ≠ [])
    (h : b <+: a) : m.strstrLoop p q i = some (p + i) := by
  obtain ⟨rest, rfl⟩ := h
  obtain ⟨hpre, hrest⟩ := ha.append
  obtain ⟨hbytes, hend⟩ := bytesAt_append.mp hb.2
  have hstop : m.matchLoop (p + i) q b.length = some b.length := by
    rw [Memory.matchLoop, hend.1]
    cases rest with
    | nil =>
        rw [stringAt_nil.mp hrest]
        rfl
    | cons c rest =>
        obtain ⟨hc, hczero, _⟩ := stringAt_cons.mp hrest
        rw [hc]
        exact if_pos hczero
  have hmatch : m.matchLoop (p + i) q 0 = some b.length := by
    have hskip : m.matchLoop (p + i) q 0 = m.matchLoop (p + i) q (0 + b.length) :=
      matchLoop_of_common hpre hbytes hb.1
    rwa [Nat.zero_add, hstop] at hskip
  obtain ⟨c, hc, hczero⟩ : ∃ c, m (p + i) = some c ∧ c ≠ 0 := by
    cases hlist : b ++ rest with
    | nil => exact absurd hlist hne
    | cons c l =>
        rw [hlist] at ha
        obtain ⟨hc, hczero, _⟩ := stringAt_cons.mp ha
        exact ⟨c, hc, hczero⟩
  rw [strstrLoop_step hc hczero hmatch hend.1, if_pos rfl]

/-- After a partial match the loop goes on behind the character that differs. -/
theorem strstrLoop_of_block (ha : StringAt m (p + i) (pre ++ c :: rest))
    (hb : StringAt m q (pre ++ d :: post)) (hcd : c ≠ d) :
    m.strstrLoop p q i = m.strstrLoop p q (i + (pre ++ [c]).length) := by
  obtain ⟨hapre, harest⟩ := ha.append
  obtain ⟨hbpre, hbrest⟩ := hb.append
  obtain ⟨hc, hczero, _⟩ := stringAt_cons.mp harest
  obtain ⟨hd, hdzero, _⟩ := stringAt_cons.mp hbrest
  have hzero : 0 ∉ pre := fun hmem => ha.1 (List.mem_append_left _ hmem)
  have hmatch : m.matchLoop (p + i) q 0 = some pre.length := by
    have hskip : m.matchLoop (p + i) q 0 = m.matchLoop (p + i) q (0 + pre.length) :=
      matchLoop_of_common hapre hbpre hzero
    rw [hskip, Nat.zero_add, Memory.matchLoop, hc, hd]
    exact (if_pos hczero).trans ((if_pos hdzero).trans (if_pos hcd))
  obtain ⟨e, he, hezero⟩ : ∃ e, m (p + i) = some e ∧ e ≠ 0 := by
    cases pre with
    | nil => exact ⟨c, hc, hczero⟩
    | cons e pre => exact ⟨e, hapre.1, fun heq => hzero (heq ▸ List.mem_cons_self)⟩
  rw [strstrLoop_step he hezero hmatch hd, if_neg hdzero, List.length_append,
    List.length_singleton, ← Nat.add_assoc]

theorem strstrLoop_of_skips (h : Skips b front) (ha : StringAt m (p + i) (front ++ rest))
    (hb : StringAt m q b) : m.strstrLoop p q i = m.strstrLoop p q (i + front.length) := by
  induction h generalizing i with
  | nil => rfl
  | @block pre post front c d hpost hcd _ ih =>
      have hsplit : pre ++ c :: front ++ rest = (pre ++ [c]) ++ (front ++ rest) := by simp
      have hlen : i + (pre ++ c :: front).length = i + (pre ++ [c]).length + front.length := by
        simp only [List.length_append, List.length_cons, List.length_nil]
        omega
      have hnext := (hsplit ▸ ha).append.2
      rw [Nat.add_assoc p] at hnext
      rw [hlen, ← ih hnext]
      rw [List.append_assoc, List.cons_append] at ha
      exact strstrLoop_of_block ha (hpost ▸ hb) hcd

theorem strstrLoop_ge (h : m.strstrLoop p q i = some r) : r = 0 ∨ p + i ≤ r := by
  refine Memory.strstrLoop.partial_correctness m p q (fun i r => r = 0 ∨ p + i ≤ r) ?_ i r h
  intro loop ih i r hr
  simp only [Option.bind_eq_bind, Option.bind_eq_some_iff] at hr
  obtain ⟨c, _, hr⟩ := hr
  split_ifs at hr
  · rw [Option.bind_eq_some_iff] at hr
    obtain ⟨j, _, hr⟩ := hr
    rw [Option.bind_eq_some_iff] at hr
    obtain ⟨d, _, hr⟩ := hr
    split_ifs at hr
    · exact Or.inr (Option.some.inj hr).le
    · exact (ih _ _ hr).imp_right fun hle => by omega
  · exact Or.inl (Option.some.inj hr).symm

theorem drop_length_add (pre rest : List Int8) (k : Nat) :
    (pre ++ rest).drop (pre.length + k) = rest.drop k := by
  rw [← List.drop_drop, List.drop_left]

theorem FindsOccurrence.append (h : FindsOccurrence p (pre ++ rest) b r)
    (hmiss : ∀ k, k < pre.length → ¬ b <+: (pre ++ rest).drop k) :
    FindsOccurrence (p + pre.length) rest b r := by
  rcases h with ⟨i, hi, hfirst, hr⟩ | ⟨hnone, hr⟩
  · have hle : pre.length ≤ i := by
      by_contra hlt
      exact hmiss i (by omega) hi
    obtain ⟨k, rfl⟩ := Nat.exists_eq_add_of_le hle
    refine Or.inl ⟨k, ?_, ?_, by omega⟩
    · rwa [drop_length_add] at hi
    · intro l hl hpre
      refine hfirst (pre.length + l) (Nat.add_lt_add_left hl _) ?_
      rwa [drop_length_add]
  · refine Or.inr ⟨?_, hr⟩
    intro k hpre
    refine hnone (pre.length + k) ?_
    rwa [drop_length_add]

/-- If the search ends well in a memory that ends behind `a`, no partial match was too long. -/
theorem skips_of_run (hp : p ≠ 0) (ha : StringAt m (p + i) a) (hb : StringAt m q b)
    (hend : m (p + i + a.length + 1) = none) (hrun : m.strstrLoop p q i = some r)
    (hfinds : FindsOccurrence (p + i) a b r) : Skips b (before b a) := by
  induction hn : a.length using Nat.strong_induction_on generalizing a i with
  | _ n ih =>
  rcases common_cases a b with hpre | ⟨d, post, rfl⟩ | ⟨pre, c, d, rest, post, rfl, rfl, hcd⟩
  · cases a with
    | nil => exact Skips.nil
    | cons c a =>
        rw [before, if_pos hpre]
        exact Skips.nil
  · cases a with
    | nil => exact Skips.nil
    | cons c a =>
        obtain ⟨hpre, hd⟩ := hb.append
        obtain ⟨hd, hdzero, _⟩ := stringAt_cons.mp hd
        obtain ⟨hc, hczero, _⟩ := stringAt_cons.mp ha
        have hmatch : m.matchLoop (p + i) q 0 = some (c :: a).length := by
          obtain ⟨habytes, hstop⟩ := bytesAt_append.mp ha.2
          have hskip : m.matchLoop (p + i) q 0 = m.matchLoop (p + i) q (0 + (c :: a).length) :=
            matchLoop_of_common habytes hpre ha.1
          rw [hskip, Nat.zero_add, Memory.matchLoop, hstop.1]
          rfl
        rw [strstrLoop_step hc hczero hmatch hd, if_neg hdzero, Memory.strstrLoop] at hrun
        rw [Nat.add_assoc p, Nat.add_assoc p] at hend
        rw [hend] at hrun
        cases hrun
  · rw [strstrLoop_of_block ha hb hcd] at hrun
    have hsplit : pre ++ c :: rest = (pre ++ [c]) ++ rest := by simp
    have hmiss : ∀ k, k < (pre ++ [c]).length →
        ¬ (pre ++ d :: post) <+: ((pre ++ [c]) ++ rest).drop k := by
      intro k hk hpre
      rcases hfinds with ⟨l, _, hfirst, hr⟩ | ⟨hnone, _⟩
      · have hle : l ≤ k := by
          by_contra hlt
          exact hfirst k (by omega) (hsplit ▸ hpre)
        have := strstrLoop_ge hrun
        omega
      · exact hnone k (hsplit ▸ hpre)
    rw [hsplit] at hfinds ha hend hn ⊢
    rw [before_append hmiss, List.append_assoc]
    refine Skips.block rfl hcd ?_
    have hrest := ha.append.2
    have hnext := hfinds.append hmiss
    rw [List.length_append] at hend hn
    rw [Nat.add_assoc p] at hrest hnext
    refine ih rest.length ?_ hrest ?_ hrun hnext rfl
    · have hpos : 0 < (pre ++ [c]).length := by simp
      omega
    · rw [← hend]
      congr 1
      omega

end Loops

/-- A memory that ends behind `a`. -/
theorem exists_memory (a b : CString) :
    ∃ (m : Memory) (p q : Nat), p ≠ 0 ∧ StringAt m p a.text ∧ StringAt m q b.text ∧
      m (p + 0 + a.text.length + 1) = none := by
  refine ⟨placed 1 (b.text ++ [0] ++ (a.text ++ [0])), 1 + (b.text ++ [0]).length, 1, by omega,
    ⟨a.nonzero, (bytesAt_append.mp bytesAt_placed).2⟩,
    ⟨b.nonzero, (bytesAt_append.mp bytesAt_placed).1⟩, ?_⟩
  have hlen : 1 + (b.text ++ [0]).length + 0 + a.text.length + 1 =
      1 + (b.text ++ [0] ++ (a.text ++ [0])).length := by
    simp only [List.length_append, List.length_singleton]
    omega
  rw [hlen]
  exact placed_end 1 _

/-- `strstr` finds the first occurrence if the text in front of it is a sequence of partial
matches, each followed by a character that ends it. -/
theorem strstr_searches_iff (a b : CString) :
    Searches a b ↔ ¬ (a.text = [] ∧ b.text = []) ∧ Skips b.text (before b.text a.text) := by
  constructor
  · intro h
    obtain ⟨m, p, q, hp, ha, hb, hend⟩ := exists_memory a b
    obtain ⟨r, hr, hfinds⟩ := h m p q hp ha hb
    constructor
    · rintro ⟨hanil, hbnil⟩
      rw [hanil] at ha hfinds
      rw [hbnil] at hfinds
      rw [strstr, strstrLoop_nil ha] at hr
      have hr : 0 = r := Option.some.inj hr
      rcases hfinds with ⟨i, _, _, hri⟩ | ⟨hnone, _⟩
      · omega
      · exact hnone 0 (List.prefix_refl _)
    · exact skips_of_run hp ha hb hend hr hfinds
  · rintro ⟨hne, hskips⟩ m p q hp ha hb
    obtain ⟨rest, hsplit, hmiss, hrest⟩ := before_spec b.text a.text
    have hlast := ha
    rw [hsplit] at hlast
    have hrun : strstr m p q = m.strstrLoop p q (0 + (before b.text a.text).length) :=
      strstrLoop_of_skips hskips hlast hb
    have htail := hlast.append.2
    rw [Nat.zero_add] at hrun
    rcases hrest with rfl | ⟨hnil, hpre⟩
    · rw [List.append_nil] at hsplit
      refine ⟨0, ?_, Or.inr ⟨?_, rfl⟩⟩
      · rw [hrun, strstrLoop_nil htail]
      · intro k hpre
        rcases Nat.lt_or_ge k (before b.text a.text).length with hlt | hge
        · exact hmiss k hlt hpre
        · rw [← hsplit] at hge
          rw [List.drop_eq_nil_of_le hge, List.prefix_nil] at hpre
          refine hne ⟨?_, hpre⟩
          have hnil : before b.text a.text = [] := by
            rw [hpre]
            cases a.text with
            | nil => rfl
            | cons c l => exact if_pos List.nil_prefix
          rw [hsplit, hnil]
    · refine ⟨_, hrun.trans (strstrLoop_found htail hb hnil hpre), ?_⟩
      refine Or.inl ⟨_, ?_, hmiss, rfl⟩
      have hdrop := drop_length_add (before b.text a.text) rest 0
      rw [Nat.add_zero, List.drop_zero, ← hsplit] at hdrop
      rw [hdrop]
      exact hpre
/-- `ab` is not found in `aab`. -/
theorem not_strstr_searches : ¬ ∀ a b : CString, Searches a b := by
  intro hall
  obtain ⟨m, p, q, hp, ha, hb, _⟩ := exists_memory ⟨[97, 97, 98], by decide⟩ ⟨[97, 98], by decide⟩
  obtain ⟨r, hr, hfinds⟩ := hall _ _ m p q hp ha hb
  have hskips : Skips [97, 98] [97, 97, 98] := by
    have hlast : Skips ([97, 98] : List Int8) ([] ++ 98 :: []) :=
      Skips.block rfl (by decide) Skips.nil
    have hfirst : ([97, 98] : List Int8) = [97] ++ 98 :: [] := rfl
    exact Skips.block hfirst (by decide : (97 : Int8) ≠ 98) hlast
  have hrun : strstr m p q = m.strstrLoop p q (0 + 3) := strstrLoop_of_skips hskips ha hb
  have hend : m.strstrLoop p q (0 + 3) = some 0 := strstrLoop_nil (stringAt_nil.mpr ha.2.2.2.2.1)
  rw [hrun, hend] at hr
  have hr : 0 = r := Option.some.inj hr
  rcases hfinds with ⟨i, _, _, hri⟩ | ⟨hnone, _⟩
  · omega
  · exact hnone 1 (by decide)

end Longhorn.StringSearch
