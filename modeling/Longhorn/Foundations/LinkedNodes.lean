import Mathlib.Data.List.Chain
import Mathlib.Data.List.Nodup
import Mathlib.Logic.Function.Basic

/-!
Heaps of nodes with two links, and rows of such nodes: consecutive nodes point at
each other, and the links at both ends are null.
-/

namespace Longhorn.Foundations.LinkedNodes

universe u

structure Node (α : Type u) where
  next : Option α
  prev : Option α
  deriving DecidableEq

abbrev Heap (α : Type u) := α → Node α

variable {α : Type u} [DecidableEq α]

def setNext (h : Heap α) (a : α) (p : Option α) : Heap α :=
  Function.update h a { h a with next := p }

def setPrev (h : Heap α) (a : α) (p : Option α) : Heap α :=
  Function.update h a { h a with prev := p }

@[simp] theorem next_setNext (h : Heap α) (a b : α) (p : Option α) :
    (setNext h a p b).next = if b = a then p else (h b).next := by
  unfold setNext
  split
  · next hb => rw [hb, Function.update_self]
  · next hb => rw [Function.update_of_ne hb]

@[simp] theorem prev_setNext (h : Heap α) (a b : α) (p : Option α) :
    (setNext h a p b).prev = (h b).prev := by
  rcases eq_or_ne b a with rfl | hb
  · rw [setNext, Function.update_self]
  · rw [setNext, Function.update_of_ne hb]

@[simp] theorem prev_setPrev (h : Heap α) (a b : α) (p : Option α) :
    (setPrev h a p b).prev = if b = a then p else (h b).prev := by
  unfold setPrev
  split
  · next hb => rw [hb, Function.update_self]
  · next hb => rw [Function.update_of_ne hb]

@[simp] theorem next_setPrev (h : Heap α) (a b : α) (p : Option α) :
    (setPrev h a p b).next = (h b).next := by
  rcases eq_or_ne b a with rfl | hb
  · rw [setPrev, Function.update_self]
  · rw [setPrev, Function.update_of_ne hb]

theorem setNext_of_ne {a b : α} (hb : b ≠ a) (h : Heap α) (p : Option α) :
    setNext h a p b = h b :=
  Function.update_of_ne hb _ h

theorem setPrev_of_ne {a b : α} (hb : b ≠ a) (h : Heap α) (p : Option α) :
    setPrev h a p b = h b :=
  Function.update_of_ne hb _ h

omit [DecidableEq α] in
theorem node_eq {n m : Node α} (hnext : n.next = m.next) (hprev : n.prev = m.prev) : n = m := by
  cases n
  cases m
  simp_all

/-- The two nodes point at each other. -/
def Follows (h : Heap α) (a b : α) : Prop :=
  (h a).next = some b ∧ (h b).prev = some a

def Linked (h : Heap α) (ns : List α) : Prop := ns.IsChain (Follows h)

/-- A row of distinct nodes with null links at both ends. -/
structure IsRow (h : Heap α) (ns : List α) : Prop where
  nodup : ns.Nodup
  linked : Linked h ns
  first : ∀ a ∈ ns.head?, (h a).prev = none
  last : ∀ a ∈ ns.getLast?, (h a).next = none

omit [DecidableEq α]

theorem linked_split {h : Heap α} {l r : List α} {a : α} :
    Linked h (l ++ a :: r) ↔ Linked h (l ++ [a]) ∧ Linked h (a :: r) :=
  List.isChain_split

theorem linked_cons_cons {h : Heap α} {a b : α} {l : List α} :
    Linked h (a :: b :: l) ↔ Follows h a b ∧ Linked h (b :: l) :=
  List.isChain_cons_cons

theorem linked_singleton (h : Heap α) (a : α) : Linked h [a] :=
  List.isChain_singleton a

/-- A row up to a node does not depend on that node's own `next`. -/
theorem Linked.congr_left {h h' : Heap α} {l : List α} {a : α} (hl : Linked h (l ++ [a]))
    (hout : ∀ c ∈ l, h' c = h c) (hprev : (h' a).prev = (h a).prev) : Linked h' (l ++ [a]) := by
  induction l with
  | nil => exact linked_singleton h' a
  | cons c l ih =>
      have hc := hout c List.mem_cons_self
      have hrest : ∀ d ∈ l, h' d = h d := fun d hd => hout d (List.mem_cons_of_mem c hd)
      cases l with
      | nil =>
          obtain ⟨⟨hnext, hback⟩, _⟩ := linked_cons_cons.mp hl
          refine linked_cons_cons.mpr ⟨⟨?_, ?_⟩, linked_singleton h' a⟩
          · rwa [hc]
          · rwa [hprev]
      | cons d l =>
          obtain ⟨⟨hnext, hback⟩, htail⟩ := linked_cons_cons.mp hl
          refine linked_cons_cons.mpr ⟨⟨?_, ?_⟩, ih htail hrest⟩
          · rwa [hc]
          · rwa [hrest d List.mem_cons_self]

/-- A row from a node on does not depend on that node's own `prev`. -/
theorem Linked.congr_right {h h' : Heap α} {r : List α} {b : α} (hr : Linked h (b :: r))
    (hnext : (h' b).next = (h b).next) (hout : ∀ c ∈ r, h' c = h c) : Linked h' (b :: r) := by
  induction r generalizing b with
  | nil => exact linked_singleton h' b
  | cons c r ih =>
      obtain ⟨⟨hfwd, hback⟩, htail⟩ := linked_cons_cons.mp hr
      have hc := hout c List.mem_cons_self
      refine linked_cons_cons.mpr ⟨⟨?_, ?_⟩, ?_⟩
      · rwa [hnext]
      · rwa [hc]
      · exact ih htail (by rw [hc]) fun d hd => hout d (List.mem_cons_of_mem c hd)

theorem Linked.congr {h h' : Heap α} {ns : List α} (hl : Linked h ns)
    (hout : ∀ c ∈ ns, h' c = h c) : Linked h' ns := by
  cases ns with
  | nil => exact List.isChain_nil
  | cons a ns =>
      refine hl.congr_right ?_ fun c hc => hout c (List.mem_cons_of_mem a hc)
      rw [hout a List.mem_cons_self]

theorem IsRow.congr {h h' : Heap α} {ns : List α} (hr : IsRow h ns)
    (hout : ∀ c ∈ ns, h' c = h c) : IsRow h' ns := by
  refine ⟨hr.nodup, hr.linked.congr hout, ?_, ?_⟩
  · intro a ha
    rw [hout a (List.mem_of_mem_head? ha)]
    exact hr.first a ha
  · intro a ha
    rw [hout a (List.mem_of_mem_getLast? ha)]
    exact hr.last a ha

/-- Replacing the nodes between `a` and `b`: outside that segment nothing changes
but the inner links of `a` and `b`. -/
theorem IsRow.splice {h h' : Heap α} {l r : List α} (mid mid' : List α) {a b : α}
    (hrow : IsRow h (l ++ a :: (mid ++ b :: r))) (hout : ∀ c ∈ l ++ r, h' c = h c)
    (hprev : (h' a).prev = (h a).prev) (hnext : (h' b).next = (h b).next)
    (hmid : Linked h' (a :: (mid' ++ [b])))
    (hnodup : (l ++ a :: (mid' ++ b :: r)).Nodup) : IsRow h' (l ++ a :: (mid' ++ b :: r)) := by
  have hl : ∀ c ∈ l, h' c = h c := fun c hc => hout c (List.mem_append_left r hc)
  have hr : ∀ c ∈ r, h' c = h c := fun c hc => hout c (List.mem_append_right l hc)
  obtain ⟨hleft, hrest⟩ := linked_split.mp hrow.linked
  obtain ⟨_, hright⟩ := linked_split.mp (by rwa [← List.cons_append] at hrest)
  refine ⟨hnodup, ?_, ?_, ?_⟩
  · refine linked_split.mpr ⟨hleft.congr_left hl hprev, ?_⟩
    rw [← List.cons_append]
    exact linked_split.mpr ⟨hmid, hright.congr_right hnext hr⟩
  · intro c hc
    cases l with
    | nil =>
        obtain rfl : a = c := by simpa using hc
        rw [hprev]
        exact hrow.first a (by simp)
    | cons d l =>
        obtain rfl : d = c := by simpa using hc
        rw [hl d List.mem_cons_self]
        exact hrow.first d (by simp)
  · intro c hc
    rw [← List.cons_append, ← List.append_assoc, List.getLast?_append_cons] at hc
    cases r with
    | nil =>
        obtain rfl : b = c := by simpa using hc
        rw [hnext]
        refine hrow.last b ?_
        rw [← List.cons_append, ← List.append_assoc, List.getLast?_append_cons]
        simp
    | cons d r =>
        have hmem : c ∈ d :: r := by
          rw [List.getLast?_cons_cons] at hc
          exact List.mem_of_mem_getLast? hc
        rw [hr c hmem]
        refine hrow.last c ?_
        rwa [← List.cons_append, ← List.append_assoc, List.getLast?_append_cons]

/-- A node put between two neighbours. -/
theorem IsRow.insert {h h' : Heap α} {l r : List α} {a b n : α}
    (hrow : IsRow h (l ++ a :: b :: r)) (hn : n ∉ l ++ a :: b :: r)
    (hnode : h' n = ⟨some b, some a⟩) (ha : h' a = ⟨some n, (h a).prev⟩)
    (hb : h' b = ⟨(h b).next, some n⟩)
    (hout : ∀ c, c ≠ a → c ≠ b → c ≠ n → h' c = h c) : IsRow h' (l ++ a :: n :: b :: r) := by
  have hnodup : (l ++ a :: n :: b :: r).Nodup := by
    have hperm : (l ++ a :: n :: b :: r).Perm (n :: (l ++ a :: b :: r)) :=
      ((List.Perm.swap n a (b :: r)).append_left l).trans List.perm_middle
    exact hperm.nodup_iff.mpr (List.nodup_cons.mpr ⟨hn, hrow.nodup⟩)
  refine IsRow.splice [] [n] hrow ?_ (by rw [ha]) (by rw [hb]) ?_ hnodup
  · intro c hc
    have hrow' := hrow.nodup
    rw [List.nodup_middle, List.nodup_cons, List.nodup_middle, List.nodup_cons] at hrow'
    refine hout c ?_ ?_ ?_
    all_goals
      rintro rfl
      simp_all
  · refine linked_cons_cons.mpr ⟨⟨?_, ?_⟩, linked_cons_cons.mpr ⟨⟨?_, ?_⟩, linked_singleton h' b⟩⟩
    · rw [ha]
    · rw [hnode]
    · rw [hnode]
    · rw [hb]

/-- A node taken out from between its neighbours. -/
theorem IsRow.remove {h h' : Heap α} {l r : List α} {a b n : α}
    (hrow : IsRow h (l ++ a :: n :: b :: r)) (ha : h' a = ⟨some b, (h a).prev⟩)
    (hb : h' b = ⟨(h b).next, some a⟩)
    (hout : ∀ c, c ≠ a → c ≠ b → c ≠ n → h' c = h c) : IsRow h' (l ++ a :: b :: r) := by
  have hperm : (l ++ a :: n :: b :: r).Perm (n :: (l ++ a :: b :: r)) :=
    ((List.Perm.swap n a (b :: r)).append_left l).trans List.perm_middle
  obtain ⟨hn, hnodup⟩ := List.nodup_cons.mp (hperm.nodup_iff.mp hrow.nodup)
  refine IsRow.splice [n] [] hrow ?_ (by rw [ha]) (by rw [hb]) ?_ hnodup
  · intro c hc
    rw [List.nodup_middle, List.nodup_cons, List.nodup_middle, List.nodup_cons] at hnodup
    refine hout c ?_ ?_ ?_
    all_goals
      rintro rfl
      simp_all
  · refine linked_cons_cons.mpr ⟨⟨?_, ?_⟩, linked_singleton h' b⟩
    · rw [ha]
    · rw [hb]

/-- The neighbours of a node inside a row. -/
theorem IsRow.neighbours {h : Heap α} {l r : List α} {a b n : α}
    (hrow : IsRow h (l ++ a :: n :: b :: r)) :
    (h a).next = some n ∧ h n = ⟨some b, some a⟩ ∧ (h b).prev = some n := by
  obtain ⟨_, hmid⟩ := linked_split.mp hrow.linked
  obtain ⟨⟨han, hna⟩, hrest⟩ := linked_cons_cons.mp hmid
  obtain ⟨⟨hnb, hbn⟩, _⟩ := linked_cons_cons.mp hrest
  exact ⟨han, node_eq hnb hna, hbn⟩

theorem IsRow.adjacent {h : Heap α} {l r : List α} {a b : α}
    (hrow : IsRow h (l ++ a :: b :: r)) : (h a).next = some b ∧ (h b).prev = some a := by
  obtain ⟨_, hmid⟩ := linked_split.mp hrow.linked
  exact (linked_cons_cons.mp hmid).1

/-- The links determine the row from its first node on. -/
theorem Linked.unique {h : Heap α} {l m : List α} {a : α} (hl : Linked h (a :: l))
    (hm : Linked h (a :: m)) (hlast : ∀ b ∈ (a :: l).getLast?, (h b).next = none)
    (hlast' : ∀ b ∈ (a :: m).getLast?, (h b).next = none) : l = m := by
  induction l generalizing a m with
  | nil =>
      cases m with
      | nil => rfl
      | cons c m =>
          have hnext := (linked_cons_cons.mp hm).1.1
          rw [hlast a rfl] at hnext
          cases hnext
  | cons b l ih =>
      obtain ⟨⟨hnext, _⟩, hl'⟩ := linked_cons_cons.mp hl
      cases m with
      | nil =>
          rw [hlast' a rfl] at hnext
          cases hnext
      | cons c m =>
          obtain ⟨⟨hnext', _⟩, hm'⟩ := linked_cons_cons.mp hm
          rw [hnext, Option.some.injEq] at hnext'
          subst hnext'
          rw [List.getLast?_cons_cons] at hlast hlast'
          rw [ih hl' hm' hlast hlast']

/-- The node that `n` links lead to from `a`. -/
def nodeAfter (h : Heap α) (a : α) : Nat → Option α
  | 0 => some a
  | n + 1 => (h a).next.bind fun b => nodeAfter h b n

/-- The links from `a` come to an end, and `node` is not on the way. -/
def EndsWithout (h : Heap α) (a node : α) : Prop :=
  (∃ n, nodeAfter h a n = none) ∧ ∀ n, nodeAfter h a n ≠ some node

theorem endsWithout_iff_next {a node : α} : EndsWithout h a node ↔
    a ≠ node ∧ ∀ b, (h a).next = some b → EndsWithout h b node := by
  constructor
  · rintro ⟨⟨n, hn⟩, hno⟩
    refine ⟨fun heq => hno 0 (congrArg some heq), fun b hb => ⟨?_, fun k => ?_⟩⟩
    · cases n with
      | zero => cases hn
      | succ n => exact ⟨n, by rwa [nodeAfter, hb, Option.bind_some] at hn⟩
    · have hk := hno (k + 1)
      rwa [nodeAfter, hb, Option.bind_some] at hk
  · rintro ⟨hne, hnext⟩
    rcases hb : (h a).next with _ | b
    · refine ⟨⟨1, by simp [nodeAfter, hb]⟩, fun n => ?_⟩
      cases n with
      | zero => simpa [nodeAfter] using hne
      | succ n => simp [nodeAfter, hb]
    · obtain ⟨⟨n, hn⟩, hno⟩ := hnext b hb
      refine ⟨⟨n + 1, by simpa [nodeAfter, hb] using hn⟩, fun k => ?_⟩
      cases k with
      | zero => simpa [nodeAfter] using hne
      | succ k => simpa [nodeAfter, hb] using hno k

end Longhorn.Foundations.LinkedNodes
