import Longhorn.Foundations.TransitionRuns
import Longhorn.IntrusiveList

/-!
Any number of lists on one heap refine a family of sequences.
-/

namespace Longhorn.ListRefinement

open Longhorn.Foundations.LinkedNodes
open Longhorn.IntrusiveList

variable {ι α : Type}

/-- The calls of the list functions, each with the type of its result. -/
inductive ListCall (ι α : Type) : Type → Type
  | init (i : ι) : ListCall ι α Unit
  | insert (i : ι) (n : α) : ListCall ι α Unit
  | insertEnd (i : ι) (n : α) : ListCall ι α Unit
  | delete (i : ι) (n : α) : ListCall ι α (Option α)
  | pop (i : ι) : ListCall ι α (Option α)
  | size (i : ι) : ListCall ι α Nat
  | isEmpty (i : ι) : ListCall ι α Bool
  | first (i : ι) : ListCall ι α (Option α)

def ListCall.list {β : Type} : ListCall ι α β → ι
  | .init i => i
  | .insert i _ => i
  | .insertEnd i _ => i
  | .delete i _ => i
  | .pop i => i
  | .size i => i
  | .isEmpty i => i
  | .first i => i

/-- A call on the heap; `first` reads `head.next`. -/
def exec [DecidableEq α] (refs : ι → ListRef α) {β : Type} :
    ListCall ι α β → Heap α → Option (β × Heap α)
  | .init i, h => some ((), listInit (refs i) h)
  | .insert i n, h => (listInsert (refs i) n h).map fun h' => ((), h')
  | .insertEnd i n, h => (listInsertEnd (refs i).tail n h).map fun h' => ((), h')
  | .delete i n, h => listDelete (refs i) (some n) h
  | .pop i, h => listPop (refs i) h
  | .size i, h => (listSize (refs i) h).map fun k => (k, h)
  | .isEmpty i, h => some (listIsEmpty (refs i) h, h)
  | .first i, h => some ((h (refs i).head).next, h)

/-- Sequences, `none` for a list that has not been initialised. -/
abbrev Seqs (ι α : Type) := ι → Option (List α)

def Seqs.get (q : Seqs ι α) (i : ι) : List α := (q i).getD []

def Seqs.set [DecidableEq ι] (q : Seqs ι α) (i : ι) (xs : List α) : Seqs ι α :=
  Function.update q i (some xs)

/-- The same call on the sequences. -/
def absExec [DecidableEq ι] [DecidableEq α] {β : Type} :
    ListCall ι α β → Seqs ι α → β × Seqs ι α
  | .init i, q => ((), q.set i [])
  | .insert i n, q => ((), q.set i (n :: q.get i))
  | .insertEnd i n, q => ((), q.set i (q.get i ++ [n]))
  | .delete i n, q =>
      if n ∈ q.get i then (some n, q.set i ((q.get i).erase n)) else (none, q)
  | .pop i, q => ((q.get i).head?, q.set i (q.get i).tail)
  | .size i, q => ((q.get i).length, q)
  | .isEmpty i, q => ((q.get i).isEmpty, q)
  | .first i, q => ((q.get i).head?, q)

def IsSentinel (refs : ι → ListRef α) (a : α) : Prop :=
  ∃ i, a = (refs i).head ∨ a = (refs i).tail

/-- A node that may be inserted: it is on no list and it is no sentinel. -/
def Detached (refs : ι → ListRef α) (q : Seqs ι α) (a : α) : Prop :=
  ¬ IsSentinel refs a ∧ ∀ i, a ∉ q.get i

/-- What a call asks of its caller. -/
def Allowed (refs : ι → ListRef α) {β : Type} : ListCall ι α β → Seqs ι α → Prop
  | .init _, _ => True
  | .insert i n, q => (q i).isSome ∧ Detached refs q n
  | .insertEnd i n, q => (q i).isSome ∧ Detached refs q n
  | .delete i _, q => (q i).isSome
  | .pop i, q => (q i).isSome
  | .size i, q => (q i).isSome
  | .isEmpty i, q => (q i).isSome
  | .first i, q => (q i).isSome ∧ q.get i ≠ []

/-- All sentinels are different nodes. -/
structure Sentinels (refs : ι → ListRef α) : Prop where
  heads : ∀ i j, (refs i).head = (refs j).head → i = j
  tails : ∀ i j, (refs i).tail = (refs j).tail → i = j
  apart : ∀ i j, (refs i).head ≠ (refs j).tail

/-- The heap holds the sequences: each list is well formed, and no node is a member
of two. -/
structure Represents (refs : ι → ListRef α) (h : Heap α) (q : Seqs ι α) : Prop where
  lists : ∀ i xs, q i = some xs → IsList h (refs i) xs
  members : ∀ i, ∀ a ∈ q.get i, ¬ IsSentinel refs a
  disjoint : ∀ i j, i ≠ j → List.Disjoint (q.get i) (q.get j)

section Sequences

variable [DecidableEq ι]

@[simp] theorem Seqs.get_set_same (q : Seqs ι α) (i : ι) (xs : List α) :
    (q.set i xs).get i = xs := by
  simp [Seqs.get, Seqs.set]

theorem Seqs.get_set_of_ne {q : Seqs ι α} {i j : ι} (hj : j ≠ i) (xs : List α) :
    (q.set i xs).get j = q.get j := by
  simp [Seqs.get, Seqs.set, hj]

theorem Seqs.set_of_ne {q : Seqs ι α} {i j : ι} (hj : j ≠ i) (xs : List α) :
    q.set i xs j = q j :=
  Function.update_of_ne hj _ q

theorem Seqs.isSome_set {q : Seqs ι α} {i j : ι} {xs : List α} (hj : (q j).isSome) :
    (q.set i xs j).isSome := by
  rcases eq_or_ne j i with rfl | hne
  · simp [Seqs.set]
  · rwa [Seqs.set_of_ne hne]

/-- The sequence that is there already. -/
theorem Seqs.get_set_get {q : Seqs ι α} {i : ι} {xs : List α} (hi : q.get i = xs) (j : ι) :
    (q.set i xs).get j = q.get j := by
  rcases eq_or_ne j i with rfl | hne
  · rw [Seqs.get_set_same, hi]
  · exact Seqs.get_set_of_ne hne xs

theorem Seqs.set_set (q : Seqs ι α) (i : ι) (xs ys : List α) :
    (q.set i xs).set i ys = q.set i ys :=
  Function.update_idem _ _ _

theorem Seqs.set_get {q : Seqs ι α} {i : ι} {xs : List α} (hi : q i = some xs) :
    q.set i xs = q := by
  rw [Seqs.set, ← hi, Function.update_eq_self]

end Sequences

theorem Seqs.get_of_eq {q : Seqs ι α} {i : ι} {xs : List α} (hi : q i = some xs) :
    q.get i = xs := by
  rw [Seqs.get, hi, Option.getD_some]

variable {refs : ι → ListRef α} {h h' : Heap α} {q : Seqs ι α} {i j : ι} {xs ys : List α}

/-- The nodes of a list, its sentinels included. -/
def row (list : ListRef α) (xs : List α) : List α := list.head :: (xs ++ [list.tail])

theorem mem_row_iff {list : ListRef α} {a : α} :
    a ∈ row list xs ↔ a = list.head ∨ a ∈ xs ∨ a = list.tail := by
  simp [row]

theorem Represents.row_disjoint (hr : Represents refs h q) (hs : Sentinels refs) (hij : i ≠ j)
    (hi : q i = some xs) (hj : q j = some ys) {a : α} (ha : a ∈ row (refs j) ys) :
    a ∉ row (refs i) xs := by
  have hmem : ∀ k zs, q k = some zs → ∀ b ∈ zs, ¬ IsSentinel refs b := by
    intro k zs hk b hb
    exact hr.members k b (by rwa [Seqs.get_of_eq hk])
  rw [mem_row_iff] at ha ⊢
  rintro (rfl | hax | rfl)
  · rcases ha with ha | ha | ha
    · exact hij (hs.heads i j ha)
    · exact hmem j ys hj _ ha ⟨i, Or.inl rfl⟩
    · exact hs.apart i j ha
  · rcases ha with rfl | ha | rfl
    · exact hmem i xs hi _ hax ⟨j, Or.inl rfl⟩
    · have hd := hr.disjoint i j hij
      rw [Seqs.get_of_eq hi, Seqs.get_of_eq hj] at hd
      exact hd hax ha
    · exact hmem i xs hi _ hax ⟨j, Or.inr rfl⟩
  · rcases ha with ha | ha | ha
    · exact hs.apart j i ha.symm
    · exact hmem j ys hj _ ha ⟨i, Or.inr rfl⟩
    · exact hij (hs.tails i j ha)

/-- One list gets other members and the rows of the others stay as they are. -/
theorem Represents.replace [DecidableEq ι] (hr : Represents refs h q)
    (hlist : IsList h' (refs i) xs) (hmem : ∀ a ∈ xs, ¬ IsSentinel refs a)
    (hdisj : ∀ j, j ≠ i → List.Disjoint xs (q.get j))
    (hout : ∀ j ys, j ≠ i → q j = some ys → ∀ a ∈ row (refs j) ys, h' a = h a) :
    Represents refs h' (q.set i xs) := by
  refine ⟨?_, ?_, ?_⟩
  · intro j ys hj
    rcases eq_or_ne j i with rfl | hji
    · obtain rfl : xs = ys := by simpa [Seqs.set] using hj
      exact hlist
    · rw [Seqs.set_of_ne hji] at hj
      exact (hr.lists j ys hj).congr (hout j ys hji hj)
  · intro j
    rcases eq_or_ne j i with rfl | hji
    · rwa [Seqs.get_set_same]
    · rw [Seqs.get_set_of_ne hji]
      exact hr.members j
  · intro j k hjk
    rcases eq_or_ne j i with rfl | hji
    · rw [Seqs.get_set_same, Seqs.get_set_of_ne hjk.symm]
      exact hdisj k hjk.symm
    · rcases eq_or_ne k i with rfl | hki
      · rw [Seqs.get_set_same, Seqs.get_set_of_ne hji]
        exact fun a ha hax => hdisj j hji hax ha
      · rw [Seqs.get_set_of_ne hji, Seqs.get_set_of_ne hki]
        exact hr.disjoint j k hjk

/-- A detached node is in no row. -/
theorem Detached.not_mem_row {a : α} (ha : Detached refs q a) (hi : q i = some xs) :
    a ∉ row (refs i) xs := by
  rw [mem_row_iff]
  rintro (rfl | hax | rfl)
  · exact ha.1 ⟨i, Or.inl rfl⟩
  · exact ha.2 i (by rwa [Seqs.get_of_eq hi])
  · exact ha.1 ⟨i, Or.inr rfl⟩

/-- The rows that a call leaves alone: those of the other lists. -/
def OthersKept (refs : ι → ListRef α) (i : ι) (q : Seqs ι α) (h h' : Heap α) : Prop :=
  ∀ j ys, j ≠ i → q j = some ys → ∀ a ∈ row (refs j) ys, h' a = h a

theorem OthersKept.refl (refs : ι → ListRef α) (i : ι) (q : Seqs ι α) (h : Heap α) :
    OthersKept refs i q h h :=
  fun _ _ _ _ _ _ => rfl

theorem Represents.othersKept_of_row (hr : Represents refs h q) (hs : Sentinels refs)
    (hi : q i = some xs) (hout : ∀ c, c ∉ row (refs i) xs → h' c = h c) :
    OthersKept refs i q h h' :=
  fun _ _ hji hj _ ha => hout _ (hr.row_disjoint hs hji.symm hi hj ha)

theorem Represents.othersKept_of_insert {n : α} (hr : Represents refs h q) (hs : Sentinels refs)
    (hi : q i = some xs) (hn : Detached refs q n)
    (hout : ∀ c, c ∉ n :: row (refs i) xs → h' c = h c) : OthersKept refs i q h h' := by
  intro j ys hji hj a ha
  refine hout a ?_
  rw [List.mem_cons]
  rintro (rfl | hrow)
  · exact hn.not_mem_row hj ha
  · exact hr.row_disjoint hs hji.symm hi hj ha hrow

theorem represents_empty (refs : ι → ListRef α) (h : Heap α) :
    Represents refs h fun _ => none :=
  ⟨by simp, by simp [Seqs.get], by simp [Seqs.get]⟩

theorem Represents.init [DecidableEq ι] [DecidableEq α] (hr : Represents refs h q)
    (hs : Sentinels refs) (i : ι) :
    Represents refs (listInit (refs i) h) (q.set i []) ∧
      OthersKept refs i q h (listInit (refs i) h) := by
  have hkept : OthersKept refs i q h (listInit (refs i) h) := by
    intro j ys hji hj a ha
    have hmem : ∀ b ∈ ys, ¬ IsSentinel refs b := by
      intro b hb
      exact hr.members j b (by rwa [Seqs.get_of_eq hj])
    refine listInit_of_ne ?_ ?_ h
    · rintro rfl
      rcases mem_row_iff.mp ha with ha | ha | ha
      · exact hji (hs.heads i j ha).symm
      · exact hmem _ ha ⟨i, Or.inl rfl⟩
      · exact hs.apart i j ha
    · rintro rfl
      rcases mem_row_iff.mp ha with ha | ha | ha
      · exact hs.apart j i ha.symm
      · exact hmem _ ha ⟨i, Or.inr rfl⟩
      · exact hji (hs.tails i j ha).symm
  refine ⟨hr.replace (listInit_isList (hs.apart i i) h) (by simp) (by simp) hkept, hkept⟩

theorem Represents.insertSeq [DecidableEq ι] {n : α} {zs : List α} (hr : Represents refs h q)
    (hi : q i = some xs) (hn : Detached refs q n) (hzs : ∀ a, a ∈ zs ↔ a = n ∨ a ∈ xs)
    (hlist : IsList h' (refs i) zs) (hkept : OthersKept refs i q h h') :
    Represents refs h' (q.set i zs) := by
  refine hr.replace hlist ?_ ?_ hkept
  · intro a ha
    rcases (hzs a).mp ha with rfl | ha
    · exact hn.1
    · exact hr.members i a (by rwa [Seqs.get_of_eq hi])
  · intro j hji a ha haj
    rcases (hzs a).mp ha with rfl | ha
    · exact hn.2 j haj
    · refine hr.disjoint i j hji.symm ?_ haj
      rwa [Seqs.get_of_eq hi]

theorem Represents.removeSeq [DecidableEq ι] {zs : List α} (hr : Represents refs h q)
    (hi : q i = some xs) (hzs : ∀ a ∈ zs, a ∈ xs) (hlist : IsList h' (refs i) zs)
    (hkept : OthersKept refs i q h h') : Represents refs h' (q.set i zs) := by
  refine hr.replace hlist ?_ ?_ hkept
  · intro a ha
    exact hr.members i a (by rw [Seqs.get_of_eq hi]; exact hzs a ha)
  · intro j hji a ha haj
    refine hr.disjoint i j hji.symm ?_ haj
    rw [Seqs.get_of_eq hi]
    exact hzs a ha

variable [DecidableEq ι] [DecidableEq α]

/-- Every allowed call ends, returns what it returns on the sequences, keeps the
representation, and leaves the rows of the other lists alone. -/
theorem Represents.exec (hr : Represents refs h q) (hs : Sentinels refs) {β : Type}
    {c : ListCall ι α β} (hc : Allowed refs c q) :
    ∃ h', exec refs c h = some ((absExec c q).1, h') ∧ Represents refs h' (absExec c q).2 ∧
      OthersKept refs c.list q h h' := by
  cases c with
  | init i =>
      obtain ⟨hr', hkept⟩ := hr.init hs i
      exact ⟨_, rfl, hr', hkept⟩
  | insert i n =>
      obtain ⟨hsome, hn⟩ := hc
      obtain ⟨xs, hi⟩ := Option.isSome_iff_exists.mp hsome
      obtain ⟨h', heq, hlist, hout⟩ := listInsert_spec (hr.lists i xs hi) (hn.not_mem_row hi)
      have hkept := hr.othersKept_of_insert hs hi hn hout
      refine ⟨h', ?_, ?_, hkept⟩
      · simp only [ListRefinement.exec, heq, Option.map_some, absExec]
      · rw [absExec, Seqs.get_of_eq hi]
        exact hr.insertSeq hi hn (by simp) hlist hkept
  | insertEnd i n =>
      obtain ⟨hsome, hn⟩ := hc
      obtain ⟨xs, hi⟩ := Option.isSome_iff_exists.mp hsome
      obtain ⟨h', heq, hlist, hout⟩ := listInsertEnd_spec (hr.lists i xs hi) (hn.not_mem_row hi)
      have hkept := hr.othersKept_of_insert hs hi hn hout
      refine ⟨h', ?_, ?_, hkept⟩
      · simp only [ListRefinement.exec, heq, Option.map_some, absExec]
      · rw [absExec, Seqs.get_of_eq hi]
        exact hr.insertSeq hi hn (by simp [or_comm]) hlist hkept
  | delete i n =>
      obtain ⟨xs, hi⟩ := Option.isSome_iff_exists.mp hc
      by_cases hn : n ∈ xs
      · obtain ⟨h', heq, hlist, hout⟩ := listDelete_of_mem (hr.lists i xs hi) hn
        have hkept := hr.othersKept_of_row hs hi hout
        refine ⟨h', ?_, ?_, hkept⟩
        · simp only [ListRefinement.exec, heq, absExec, Seqs.get_of_eq hi, hn, ↓reduceIte]
        · rw [absExec, Seqs.get_of_eq hi, if_pos hn]
          exact hr.removeSeq hi (fun a ha => List.mem_of_mem_erase ha) hlist hkept
      · have heq := listDelete_of_not_mem (hr.lists i xs hi) hn
        refine ⟨h, ?_, ?_, OthersKept.refl _ _ _ _⟩
        · simp only [ListRefinement.exec, heq, absExec, Seqs.get_of_eq hi, hn, ↓reduceIte]
        · rwa [absExec, Seqs.get_of_eq hi, if_neg hn]
  | pop i =>
      obtain ⟨xs, hi⟩ := Option.isSome_iff_exists.mp hc
      cases xs with
      | nil =>
          have heq := listPop_nil (hr.lists i [] hi)
          refine ⟨h, ?_, ?_, OthersKept.refl _ _ _ _⟩
          · simp only [ListRefinement.exec, heq, absExec, Seqs.get_of_eq hi, List.head?_nil]
          · simp only [absExec, Seqs.get_of_eq hi, List.tail_nil]
            rwa [Seqs.set_get hi]
      | cons x xs =>
          obtain ⟨h', heq, hlist, hout⟩ := listPop_cons (hr.lists i _ hi)
          have hkept := hr.othersKept_of_row hs hi hout
          refine ⟨h', ?_, ?_, hkept⟩
          · simp only [ListRefinement.exec, heq, absExec, Seqs.get_of_eq hi, List.head?_cons]
          · simp only [absExec, Seqs.get_of_eq hi, List.tail_cons]
            exact hr.removeSeq hi (fun a ha => List.mem_cons_of_mem x ha) hlist hkept
  | size i =>
      obtain ⟨xs, hi⟩ := Option.isSome_iff_exists.mp hc
      have heq := listSize_spec (hr.lists i xs hi)
      refine ⟨h, ?_, hr, OthersKept.refl _ _ _ _⟩
      simp only [ListRefinement.exec, heq, Option.map_some, absExec, Seqs.get_of_eq hi]
  | isEmpty i =>
      obtain ⟨xs, hi⟩ := Option.isSome_iff_exists.mp hc
      have heq : listIsEmpty (refs i) h = xs.isEmpty := by
        rw [Bool.eq_iff_iff, listIsEmpty_iff (hr.lists i xs hi), List.isEmpty_iff]
      refine ⟨h, ?_, hr, OthersKept.refl _ _ _ _⟩
      simp only [ListRefinement.exec, heq, absExec, Seqs.get_of_eq hi]
  | first i =>
      obtain ⟨hsome, hne⟩ := hc
      obtain ⟨xs, hi⟩ := Option.isSome_iff_exists.mp hsome
      rw [Seqs.get_of_eq hi] at hne
      have hnext := (hr.lists i xs hi).next_head
      refine ⟨h, ?_, hr, OthersKept.refl _ _ _ _⟩
      simp only [ListRefinement.exec, hnext, absExec, Seqs.get_of_eq hi]
      rw [List.head?_append_of_ne_nil _ hne]

/-- A call with any type of result, and such a result. -/
abbrev AnyCall (ι α : Type) := Σ β : Type, ListCall ι α β

abbrev AnyReply := Σ β : Type, β

def execAll (refs : ι → ListRef α) : List (AnyCall ι α) → Heap α → Option (List AnyReply × Heap α)
  | [], h => some ([], h)
  | c :: cs, h =>
      match exec refs c.2 h with
      | none => none
      | some (r, h') => (execAll refs cs h').map fun rest => (⟨c.1, r⟩ :: rest.1, rest.2)

def absExecAll : List (AnyCall ι α) → Seqs ι α → List AnyReply × Seqs ι α
  | [], q => ([], q)
  | c :: cs, q =>
      (⟨c.1, (absExec c.2 q).1⟩ :: (absExecAll cs (absExec c.2 q).2).1,
        (absExecAll cs (absExec c.2 q).2).2)

/-- Every call of the sequence is allowed when its turn comes. -/
def AllAllowed (refs : ι → ListRef α) : List (AnyCall ι α) → Seqs ι α → Prop
  | [], _ => True
  | c :: cs, q => Allowed refs c.2 q ∧ AllAllowed refs cs (absExec c.2 q).2

theorem Represents.execAll (hs : Sentinels refs) {cs : List (AnyCall ι α)}
    (hr : Represents refs h q) (hcs : AllAllowed refs cs q) :
    ∃ h', execAll refs cs h = some ((absExecAll cs q).1, h') ∧
      Represents refs h' (absExecAll cs q).2 := by
  induction cs generalizing h q with
  | nil => exact ⟨h, rfl, hr⟩
  | cons c cs ih =>
      obtain ⟨hc, hcs⟩ := hcs
      obtain ⟨h1, heq, hr1, _⟩ := hr.exec hs hc
      obtain ⟨h2, heq2, hr2⟩ := ih hr1 hcs
      refine ⟨h2, ?_, hr2⟩
      simp only [ListRefinement.execAll, heq, heq2, Option.map_some, absExecAll]

/-- A list may be given any members that are on no other list. -/
theorem Represents.exists_set (hs : Sentinels refs) (hr : Represents refs h q) {i : ι}
    {xs : List α} (hnodup : xs.Nodup)
    (hoff : ∀ a ∈ xs, ¬ IsSentinel refs a ∧ ∀ j, j ≠ i → a ∉ q.get j) :
    ∃ h', Represents refs h' (q.set i xs) := by
  induction xs with
  | nil =>
      obtain ⟨h', _, hr', _⟩ := hr.exec hs (c := .init i) trivial
      exact ⟨h', hr'⟩
  | cons a xs ih =>
      obtain ⟨hnot, hnodup⟩ := List.nodup_cons.mp hnodup
      obtain ⟨h1, hr1⟩ := ih hnodup fun b hb => hoff b (List.mem_cons_of_mem a hb)
      obtain ⟨hsent, hothers⟩ := hoff a List.mem_cons_self
      have hallowed : Allowed refs (.insert i a) (q.set i xs) := by
        refine ⟨by simp [Seqs.set], hsent, fun j hj => ?_⟩
        rcases eq_or_ne j i with rfl | hji
        · rw [Seqs.get_set_same] at hj
          exact hnot hj
        · rw [Seqs.get_set_of_ne hji] at hj
          exact hothers j hji hj
      obtain ⟨h2, _, hr2, _⟩ := hr1.exec hs hallowed
      rw [absExec, Seqs.get_set_same, Seqs.set_set] at hr2
      exact ⟨h2, hr2⟩

/-- Any finite family of sequences without common members lies on some heap. -/
theorem exists_represents (hs : Sentinels refs) {rows : List (ι × List α)}
    (hnodes : (rows.flatMap Prod.snd).Nodup)
    (hsent : ∀ a ∈ rows.flatMap Prod.snd, ¬ IsSentinel refs a) (h : Heap α) :
    ∃ h', Represents refs h' fun i => rows.lookup i := by
  induction rows with
  | nil => exact ⟨h, represents_empty refs h⟩
  | cons row rows ih =>
      obtain ⟨i, xs⟩ := row
      rw [List.flatMap_cons, List.nodup_append'] at hnodes
      rw [List.flatMap_cons] at hsent
      obtain ⟨h1, hr1⟩ := ih hnodes.2.1 fun a ha => hsent a (List.mem_append_right xs ha)
      have hset : (fun j => List.lookup j ((i, xs) :: rows)) =
          Seqs.set (fun j => rows.lookup j) i xs := by
        funext j
        rcases eq_or_ne j i with rfl | hji
        · simp [Seqs.set]
        · rw [Seqs.set_of_ne hji, List.lookup_cons, beq_false_of_ne hji]
      rw [hset]
      refine hr1.exists_set hs hnodes.1 fun a ha => ⟨hsent a (List.mem_append_left _ ha), ?_⟩
      intro j _ hj
      refine hnodes.2.2 ha (List.mem_flatMap.mpr ?_)
      rw [Seqs.get] at hj
      rcases hlook : rows.lookup j with _ | ys
      · rw [hlook] at hj
        exact absurd hj List.not_mem_nil
      · rw [hlook] at hj
        obtain ⟨l1, l2, rfl, _⟩ := List.lookup_eq_some_iff.mp hlook
        exact ⟨(j, ys), by simp, hj⟩

/-- From a heap without lists every sequence of allowed calls returns what it
returns on the sequences and leaves every list well formed.  Any allowed call
after it touches its own list only, and deleting what is no member changes
nothing at all. -/
theorem lists_refine_seqs (hs : Sentinels refs) (h : Heap α) (cs : List (AnyCall ι α))
    (hcs : AllAllowed refs cs fun _ => none) :
    ∃ h' q', execAll refs cs h = some ((absExecAll cs fun _ => none).1, h') ∧
      q' = (absExecAll cs fun _ => none).2 ∧ Represents refs h' q' ∧
      (∀ c : AnyCall ι α, Allowed refs c.2 q' → ∃ h'',
        exec refs c.2 h' = some ((absExec c.2 q').1, h'') ∧
          Represents refs h'' (absExec c.2 q').2 ∧ OthersKept refs c.2.list q' h' h'') ∧
      (∀ i xs n, q' i = some xs → n ∉ xs → exec refs (.delete i n) h' = some (none, h')) ∧
      ∀ i, q' i = some [] → exec refs (.pop i) h' = some (none, h') := by
  obtain ⟨h', heq, hr⟩ := (represents_empty refs h).execAll hs hcs
  refine ⟨h', _, heq, rfl, hr, fun c hc => hr.exec hs hc, ?_, ?_⟩
  · intro i xs n hi hn
    exact listDelete_of_not_mem (hr.lists i xs hi) hn
  · intro i hi
    exact listPop_nil (hr.lists i [] hi)

/-- Two lists whose sentinels are the nodes below 4. -/
def twoLists (b : Bool) : ListRef Nat := if b then ⟨0, 1⟩ else ⟨2, 3⟩

theorem lists_refine_seqs_two : ∃ h', execAll twoLists
    [⟨_, .init true⟩, ⟨_, .init false⟩, ⟨_, .insert true 4⟩, ⟨_, .insertEnd false 5⟩,
      ⟨_, .delete true 5⟩, ⟨_, .pop false⟩] (fun _ => ⟨none, none⟩) =
    some ([⟨_, ()⟩, ⟨_, ()⟩, ⟨_, ()⟩, ⟨_, ()⟩, ⟨Option Nat, none⟩, ⟨Option Nat, some 5⟩], h') := by
  have hs : Sentinels twoLists := ⟨by decide, by decide, by decide⟩
  obtain ⟨h', _, heq, _⟩ := lists_refine_seqs hs (fun _ => ⟨none, none⟩)
    [⟨_, .init true⟩, ⟨_, .init false⟩, ⟨_, .insert true 4⟩, ⟨_, .insertEnd false 5⟩,
      ⟨_, .delete true 5⟩, ⟨_, .pop false⟩]
    (by simp [AllAllowed, Allowed, Detached, IsSentinel, twoLists, absExec, Seqs.set, Seqs.get])
  exact ⟨h', heq⟩

end Longhorn.ListRefinement
