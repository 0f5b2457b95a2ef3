import Longhorn.Foundations.LinkedNodes

/-!
The list of `libk/list.c` on a heap of nodes.  A function has no result when it
follows a `NULL` pointer or does not end.
-/

namespace Longhorn.IntrusiveList

open Longhorn.Foundations.LinkedNodes

universe u

variable {α : Type u} [DecidableEq α]

/-- `struct list`: its two sentinel nodes. -/
structure ListRef (α : Type u) where
  head : α
  tail : α

def listInit (list : ListRef α) (h : Heap α) : Heap α :=
  let h := setPrev h list.head none
  let h := setNext h list.head (some list.tail)
  let h := setPrev h list.tail (some list.head)
  setNext h list.tail none

def listInsertEnd (tail node : α) (h : Heap α) : Option (Heap α) := do
  let last ← (h tail).prev
  let h := setNext h last (some node)
  let h := setPrev h node (h tail).prev
  let h := setPrev h tail (some node)
  pure (setNext h node (some tail))

def listInsertFront (head node : α) (h : Heap α) : Option (Heap α) := do
  let first ← (h head).next
  let h := setPrev h first (some node)
  let h := setNext h node (h head).next
  let h := setNext h head (some node)
  pure (setPrev h node (some head))

def listInsert (list : ListRef α) (node : α) (h : Heap α) : Option (Heap α) :=
  listInsertFront list.head node h

/-- The loop of `list_delete`: follow `next` up to `NULL` or `node`. -/
def ListRef.deleteSearch (list : ListRef α) (h : Heap α) (node curr : Option α) :
    Option (Option α) :=
  match curr with
  | none => some none
  | some c => if some c = node then some (some c) else list |>.deleteSearch h node (h c).next
partial_fixpoint

def listDelete (list : ListRef α) (node : Option α) (h : Heap α) :
    Option (Option α × Heap α) := do
  match ← list.deleteSearch h node (some list.head) with
  | none => pure (none, h)
  | some curr =>
      if curr = list.head ∨ curr = list.tail then pure (none, h)
      else
        let prev ← (h curr).prev
        let h := setNext h prev (h curr).next
        let next ← (h curr).next
        let h := setPrev h next (h curr).prev
        let h := setNext h curr none
        pure (some curr, setPrev h curr none)

def listIsEmpty (list : ListRef α) (h : Heap α) : Bool :=
  decide ((h list.head).next = some list.tail)

def listPop (list : ListRef α) (h : Heap α) : Option (Option α × Heap α) :=
  if listIsEmpty list h = false then listDelete list (h list.head).next h else some (none, h)

def listPeek (list : ListRef α) (h : Heap α) : Option α :=
  if listIsEmpty list h = false then (h list.head).next else none

def listHasNext (node : α) (h : Heap α) : Bool :=
  decide ((h node).next ≠ none)

/-- The loop of `list_size`. -/
def ListRef.sizeLoop (list : ListRef α) (h : Heap α) (curr : Option α) (size : Nat) :
    Option Nat :=
  match curr with
  | none => some size
  | some c => if listHasNext c h then list |>.sizeLoop h (h c).next (size + 1) else some size
partial_fixpoint

def listSize (list : ListRef α) (h : Heap α) : Option Nat :=
  list.sizeLoop h (h list.head).next 0

/-- The list is the row of its sentinels around the nodes `xs`. -/
def IsList (h : Heap α) (list : ListRef α) (xs : List α) : Prop :=
  IsRow h (list.head :: (xs ++ [list.tail]))

variable {h : Heap α} {list : ListRef α} {xs : List α}

omit [DecidableEq α] in
theorem IsList.prev_head (hlist : IsList h list xs) : (h list.head).prev = none :=
  IsRow.first hlist list.head (by simp)

omit [DecidableEq α] in
theorem IsList.next_head (hlist : IsList h list xs) :
    (h list.head).next = (xs ++ [list.tail]).head? := by
  cases xs with
  | nil => exact (linked_cons_cons.mp hlist.linked).1.1
  | cons x xs => exact (linked_cons_cons.mp hlist.linked).1.1

omit [DecidableEq α] in
/-- The sentinels and the members are all distinct. -/
theorem isList_nodup_iff :
    (list.head :: (xs ++ [list.tail])).Nodup ↔
      xs.Nodup ∧ list.head ≠ list.tail ∧ list.head ∉ xs ∧ list.tail ∉ xs := by
  simp only [List.nodup_cons, List.nodup_append, List.mem_append, List.mem_singleton,
    List.nodup_nil, List.not_mem_nil, not_false_eq_true, and_true]
  grind

omit [DecidableEq α] in
theorem IsList.congr {h' : Heap α} (hlist : IsList h list xs)
    (hout : ∀ c ∈ list.head :: (xs ++ [list.tail]), h' c = h c) : IsList h' list xs :=
  IsRow.congr hlist hout

omit [DecidableEq α] in
theorem IsList.unique {ys : List α} (hxs : IsList h list xs) (hys : IsList h list ys) :
    xs = ys := by
  have hsame := Linked.unique hxs.linked hys.linked hxs.last hys.last
  exact List.append_cancel_right hsame

theorem listInit_isList (hne : list.head ≠ list.tail) (h : Heap α) :
    IsList (listInit list h) list [] := by
  have hne' : list.tail ≠ list.head := hne.symm
  refine ⟨isList_nodup_iff.mpr ⟨List.nodup_nil, hne, by simp, by simp⟩, ?_, ?_, ?_⟩
  · refine linked_cons_cons.mpr ⟨⟨?_, ?_⟩, linked_singleton _ _⟩
    · simp [listInit, hne]
    · simp [listInit]
  · intro a ha
    obtain rfl : list.head = a := by simpa using ha
    simp [listInit, hne]
  · intro a ha
    obtain rfl : list.tail = a := by simpa using ha
    simp [listInit]

theorem listInit_of_ne {a : α} (hhead : a ≠ list.head) (htail : a ≠ list.tail) (h : Heap α) :
    listInit list h a = h a := by
  rw [listInit, setNext_of_ne htail, setPrev_of_ne htail, setNext_of_ne hhead, setPrev_of_ne hhead]

/-- Inserting a node that is not on the list puts it first. -/
theorem listInsert_spec {node : α} (hlist : IsList h list xs)
    (hnode : node ∉ list.head :: (xs ++ [list.tail])) :
    ∃ h', listInsert list node h = some h' ∧ IsList h' list (node :: xs) ∧
      ∀ c, c ∉ node :: list.head :: (xs ++ [list.tail]) → h' c = h c := by
  obtain ⟨first, rest, hrest⟩ : ∃ first rest, xs ++ [list.tail] = first :: rest := by
    cases xs with
    | nil => exact ⟨_, _, rfl⟩
    | cons x xs => exact ⟨_, _, rfl⟩
  have hrow : IsRow h ([] ++ list.head :: first :: rest) := by
    rw [List.nil_append, ← hrest]
    exact hlist
  have hnext := hrow.adjacent.1
  have hnodup := hrow.nodup
  rw [hrest] at hnode
  simp only [List.nil_append, List.nodup_cons, List.mem_cons, not_or] at hnodup hnode
  obtain ⟨⟨hhf, hhr⟩, hfr, _⟩ := hnodup
  obtain ⟨hnh, hnf, hnr⟩ := hnode
  refine ⟨_, by simp only [listInsert, listInsertFront, hnext]; rfl, ?_, ?_⟩
  · rw [IsList, List.cons_append, hrest]
    refine IsRow.insert (l := []) hrow ?_ ?_ ?_ ?_ ?_
    · simp [hnh, hnf, hnr]
    · refine node_eq ?_ ?_ <;> simp [hnext, hnh]
    · refine node_eq ?_ ?_ <;> simp [hhf, Ne.symm hnh]
    · refine node_eq ?_ ?_ <;> simp [Ne.symm hnf, Ne.symm hhf]
    · intro c hch hcf hcn
      rw [setPrev_of_ne hcn, setNext_of_ne hch, setNext_of_ne hcn, setPrev_of_ne hcf]
  · intro c hc
    rw [hrest] at hc
    simp only [List.mem_cons, not_or] at hc
    obtain ⟨hcn, hch, hcf, _⟩ := hc
    rw [setPrev_of_ne hcn, setNext_of_ne hch, setNext_of_ne hcn, setPrev_of_ne hcf]

/-- Inserting at the end puts the node last. -/
theorem listInsertEnd_spec {node : α} (hlist : IsList h list xs)
    (hnode : node ∉ list.head :: (xs ++ [list.tail])) :
    ∃ h', listInsertEnd list.tail node h = some h' ∧ IsList h' list (xs ++ [node]) ∧
      ∀ c, c ∉ node :: list.head :: (xs ++ [list.tail]) → h' c = h c := by
  obtain ⟨rest, last, hrest⟩ : ∃ rest last, list.head :: xs = rest ++ [last] :=
    ⟨_, _, (List.dropLast_append_getLast (List.cons_ne_nil list.head xs)).symm⟩
  have hsplit : ∀ ys, list.head :: (xs ++ ys) = rest ++ last :: ys := by
    intro ys
    rw [← List.cons_append, hrest, List.append_assoc, List.singleton_append]
  have hrow : IsRow h (rest ++ last :: list.tail :: []) := by
    rw [← hsplit]
    exact hlist
  have hprev := hrow.adjacent.2
  have hnodup := hrow.nodup
  rw [hsplit] at hnode
  rw [List.nodup_middle, List.nodup_cons] at hnodup
  simp only [List.mem_append, List.mem_cons, List.not_mem_nil, or_false, not_or] at hnodup hnode
  obtain ⟨⟨_, hlt⟩, _⟩ := hnodup
  obtain ⟨hnr, hnl, hnt⟩ := hnode
  refine ⟨_, by simp only [listInsertEnd, hprev]; rfl, ?_, ?_⟩
  · rw [IsList, List.append_assoc, hsplit]
    refine hrow.insert ?_ ?_ ?_ ?_ ?_
    · simp [hnr, hnl, hnt]
    · refine node_eq ?_ ?_ <;> simp [hprev, hnt]
    · refine node_eq ?_ ?_ <;> simp [hlt, Ne.symm hnl]
    · refine node_eq ?_ ?_ <;> simp [Ne.symm hnt, Ne.symm hlt]
    · intro c hcl hct hcn
      rw [setNext_of_ne hcn, setPrev_of_ne hct, setPrev_of_ne hcn, setNext_of_ne hcl]
  · intro c hc
    rw [hsplit] at hc
    simp only [List.mem_cons, List.mem_append, not_or] at hc
    obtain ⟨hcn, _, hcl, hct, _⟩ := hc
    rw [setNext_of_ne hcn, setPrev_of_ne hct, setPrev_of_ne hcn, setNext_of_ne hcl]

/-- The search of `list_delete` ends, at the node or at `NULL`. -/
theorem deleteSearch_spec (list : ListRef α) (node : α) {curr : α} {rest : List α}
    (hlinked : Linked h (curr :: rest))
    (hlast : ∀ a ∈ (curr :: rest).getLast?, (h a).next = none) :
    list.deleteSearch h (some node) (some curr) =
      some (if node ∈ curr :: rest then some node else none) := by
  induction rest generalizing curr with
  | nil =>
      have hnext := hlast curr (by simp)
      rw [ListRef.deleteSearch, hnext, ListRef.deleteSearch]
      simp only [Option.some.injEq, List.mem_singleton]
      grind
  | cons c rest ih =>
      obtain ⟨⟨hnext, _⟩, htail⟩ := linked_cons_cons.mp hlinked
      rw [ListRef.deleteSearch, hnext, ih htail (by rwa [List.getLast?_cons_cons] at hlast)]
      simp only [Option.some.injEq, List.mem_cons]
      grind

/-- Deleting a member takes it out. -/
theorem listDelete_of_mem {node : α} (hlist : IsList h list xs) (hnode : node ∈ xs) :
    ∃ h', listDelete list (some node) h = some (some node, h') ∧ IsList h' list (xs.erase node) ∧
      ∀ c, c ∉ list.head :: (xs ++ [list.tail]) → h' c = h c := by
  obtain ⟨hxs, hht, hhx, htx⟩ := isList_nodup_iff.mp hlist.nodup
  have hsearch : list.deleteSearch h (some node) (some list.head) = some (some node) := by
    rw [deleteSearch_spec list node hlist.linked hlist.last, if_pos]
    exact List.mem_cons_of_mem _ (List.mem_append_left _ hnode)
  obtain ⟨ys, zs, rfl⟩ := List.append_of_mem hnode
  obtain ⟨l, a, hl⟩ : ∃ l a, list.head :: ys = l ++ [a] :=
    ⟨_, _, (List.dropLast_append_getLast (List.cons_ne_nil list.head ys)).symm⟩
  obtain ⟨b, r, hr⟩ : ∃ b r, zs ++ [list.tail] = b :: r := by
    cases zs with
    | nil => exact ⟨_, _, rfl⟩
    | cons z zs => exact ⟨_, _, rfl⟩
  have hsplit : list.head :: (ys ++ node :: zs ++ [list.tail]) = l ++ a :: node :: b :: r := by
    rw [List.append_assoc, ← List.cons_append, hl, List.cons_append, hr]
    simp
  have herase : list.head :: ((ys ++ node :: zs).erase node ++ [list.tail]) = l ++ a :: b :: r := by
    have hny : node ∉ ys := by
      rw [List.nodup_middle, List.nodup_cons, List.mem_append] at hxs
      exact fun h => hxs.1 (Or.inl h)
    rw [List.erase_append_right _ hny, List.erase_cons_head, List.append_assoc, hr,
      ← List.cons_append, hl]
    simp
  have hrow : IsRow h (l ++ a :: node :: b :: r) := by
    rw [← hsplit]
    exact hlist
  obtain ⟨_, hlinks, _⟩ := hrow.neighbours
  have hnodup := hrow.nodup
  have hnot : ¬ (node = list.head ∨ node = list.tail) := by
    rintro (rfl | rfl)
    · exact hhx hnode
    · exact htx hnode
  rw [List.nodup_middle, List.nodup_cons] at hnodup
  simp only [List.mem_append, List.mem_cons, not_or] at hnodup
  obtain ⟨⟨_, han, hab, _⟩, hrest⟩ := hnodup
  have hnb : node ≠ b := by
    have := hrest.of_append_right
    simp only [List.nodup_cons, List.mem_cons, not_or] at this
    exact this.1.1
  refine ⟨_, by simp [listDelete, hsearch, hnot, hlinks]; rfl, ?_, ?_⟩
  · rw [IsList, herase]
    refine hrow.remove ?_ ?_ ?_
    · refine node_eq ?_ ?_ <;> simp [hab, han]
    · refine node_eq ?_ ?_ <;> simp [Ne.symm hab, Ne.symm hnb]
    · intro c hca hcb hcn
      rw [setPrev_of_ne hcn, setNext_of_ne hcn, setPrev_of_ne hcb, setNext_of_ne hca]
  · intro c hc
    rw [hsplit] at hc
    simp only [List.mem_append, List.mem_cons, not_or] at hc
    obtain ⟨_, hca, hcn, hcb, _⟩ := hc
    rw [setPrev_of_ne hcn, setNext_of_ne hcn, setPrev_of_ne hcb, setNext_of_ne hca]

/-- Deleting anything else, a sentinel included, returns `NULL`. -/
theorem listDelete_of_not_mem {node : α} (hlist : IsList h list xs) (hnode : node ∉ xs) :
    listDelete list (some node) h = some (none, h) := by
  have hsearch := deleteSearch_spec list node hlist.linked hlist.last
  by_cases hmem : node ∈ list.head :: (xs ++ [list.tail])
  · have hsentinel : node = list.head ∨ node = list.tail := by
      simpa [hnode] using hmem
    rw [if_pos hmem] at hsearch
    simp [listDelete, hsearch, hsentinel]
  · rw [if_neg hmem] at hsearch
    simp [listDelete, hsearch]

theorem deleteSearch_of_ends {a node : α} (hends : EndsWithout h a node) :
    list.deleteSearch h (some node) (some a) = some none := by
  obtain ⟨n, hn⟩ := hends.1
  induction n generalizing a with
  | zero => cases hn
  | succ n ih =>
      obtain ⟨hne, hnext⟩ := endsWithout_iff_next.mp hends
      rw [ListRef.deleteSearch, if_neg (by simpa using hne)]
      rcases hb : (h a).next with _ | b
      · rw [ListRef.deleteSearch]
      · rw [nodeAfter, hb, Option.bind_some] at hn
        exact ih (hnext b hb) hn

/-- Whatever the links are, the search finds the node or comes to their end. -/
theorem deleteSearch_cases {node : α} {curr r : Option α}
    (hr : list.deleteSearch h (some node) curr = some r) :
    (r = none ∧ ∀ a, curr = some a → EndsWithout h a node) ∨ r = some node := by
  refine ListRef.deleteSearch.partial_correctness list h (some node)
    (fun curr r => (r = none ∧ ∀ a, curr = some a → EndsWithout h a node) ∨ r = some node)
    ?_ curr r hr
  intro search ih curr r hr
  rcases curr with _ | c
  · cases hr
    exact Or.inl ⟨rfl, fun a ha => by cases ha⟩
  · dsimp only at hr
    split at hr
    · next heq =>
        cases hr
        exact Or.inr heq
    · next hne =>
        refine (ih _ _ hr).imp_left ?_
        rintro ⟨hnone, hends⟩
        refine ⟨hnone, ?_⟩
        rintro a ⟨⟩
        exact endsWithout_iff_next.mpr ⟨by simpa using hne, hends⟩

/-- `list_delete` returns `NULL` for a node that is no sentinel exactly if the links from the
head end without it, and then changes nothing. -/
theorem listDelete_none_iff {node : α} {h' : Heap α} (hhead : node ≠ list.head)
    (htail : node ≠ list.tail) : listDelete list (some node) h = some (none, h') ↔
      EndsWithout h list.head node ∧ h' = h := by
  constructor
  · intro hdel
    rw [listDelete] at hdel
    obtain ⟨r, hsearch, hdel⟩ := Option.bind_eq_some_iff.mp hdel
    rcases deleteSearch_cases hsearch with ⟨rfl, hends⟩ | rfl
    · cases hdel
      exact ⟨hends _ rfl, rfl⟩
    · dsimp only at hdel
      rw [if_neg (by simp [hhead, htail])] at hdel
      obtain ⟨prev, _, hdel⟩ := Option.bind_eq_some_iff.mp hdel
      obtain ⟨next, _, hdel⟩ := Option.bind_eq_some_iff.mp hdel
      cases hdel
  · rintro ⟨hends, rfl⟩
    rw [listDelete, deleteSearch_of_ends hends]
    rfl

/-- In a list these are the nodes that are no members. -/
theorem endsWithout_iff_not_mem {node : α} (hlist : IsList h list xs) (hhead : node ≠ list.head)
    (htail : node ≠ list.tail) : EndsWithout h list.head node ↔ node ∉ xs := by
  constructor
  · intro hends hmem
    obtain ⟨_, hdel, _⟩ := listDelete_of_mem hlist hmem
    rw [(listDelete_none_iff hhead htail).mpr ⟨hends, rfl⟩] at hdel
    cases hdel
  · intro hno
    exact ((listDelete_none_iff hhead htail).mp (listDelete_of_not_mem hlist hno)).1

theorem listIsEmpty_iff (hlist : IsList h list xs) : listIsEmpty list h = true ↔ xs = [] := by
  rw [listIsEmpty, decide_eq_true_iff, hlist.next_head]
  cases xs with
  | nil => simp
  | cons x xs =>
      have hne : x ≠ list.tail := by
        rintro rfl
        exact (isList_nodup_iff.mp hlist.nodup).2.2.2 List.mem_cons_self
      simp [hne]

theorem listPop_nil (hlist : IsList h list []) : listPop list h = some (none, h) := by
  have hempty := (listIsEmpty_iff hlist).mpr rfl
  simp [listPop, hempty]

/-- Popping takes the first node out. -/
theorem listPop_cons {x : α} (hlist : IsList h list (x :: xs)) :
    ∃ h', listPop list h = some (some x, h') ∧ IsList h' list xs ∧
      ∀ c, c ∉ list.head :: (x :: xs ++ [list.tail]) → h' c = h c := by
  obtain ⟨h', hdelete, hlist', hout⟩ := listDelete_of_mem hlist List.mem_cons_self
  rw [List.erase_cons_head] at hlist'
  refine ⟨h', ?_, hlist', hout⟩
  have hempty : listIsEmpty list h = false := by
    rw [Bool.eq_false_iff, Ne, listIsEmpty_iff hlist]
    exact List.cons_ne_nil x xs
  rw [listPop, if_pos hempty, hlist.next_head]
  exact hdelete

omit [DecidableEq α] in
theorem sizeLoop_spec {curr : α} {rest : List α} {size : Nat}
    (hlinked : Linked h (curr :: rest))
    (hlast : ∀ a ∈ (curr :: rest).getLast?, (h a).next = none) :
    list.sizeLoop h (some curr) size = some (size + rest.length) := by
  induction rest generalizing curr size with
  | nil =>
      have hnext := hlast curr (by simp)
      rw [ListRef.sizeLoop]
      simp [listHasNext, hnext]
  | cons c rest ih =>
      obtain ⟨⟨hnext, _⟩, htail⟩ := linked_cons_cons.mp hlinked
      rw [ListRef.sizeLoop, hnext, ih htail (by rwa [List.getLast?_cons_cons] at hlast)]
      simp [listHasNext, hnext]
      omega

omit [DecidableEq α] in
/-- `list_size` ends and counts the members. -/
theorem listSize_spec (hlist : IsList h list xs) : listSize list h = some xs.length := by
  obtain ⟨first, rest, hrest⟩ : ∃ first rest, xs ++ [list.tail] = first :: rest := by
    cases xs with
    | nil => exact ⟨_, _, rfl⟩
    | cons x xs => exact ⟨_, _, rfl⟩
  have hlen : rest.length = xs.length := by
    have := congrArg List.length hrest
    simpa using this.symm
  unfold IsList at hlist
  rw [hrest] at hlist
  have hlast := hlist.last
  obtain ⟨⟨hnext, _⟩, htail⟩ := linked_cons_cons.mp hlist.linked
  rw [List.getLast?_cons_cons] at hlast
  rw [listSize, hnext, sizeLoop_spec htail hlast, Nat.zero_add, hlen]

omit [DecidableEq α] in
theorem IsList.prev_tail (hlist : IsList h list xs) :
    (h list.tail).prev = (list.head :: xs).getLast? := by
  obtain ⟨rest, last, hrest⟩ : ∃ rest last, list.head :: xs = rest ++ [last] :=
    ⟨_, _, (List.dropLast_append_getLast (List.cons_ne_nil list.head xs)).symm⟩
  have hrow : IsRow h (rest ++ last :: list.tail :: []) := by
    have hsame : list.head :: (xs ++ [list.tail]) = rest ++ last :: list.tail :: [] := by
      rw [← List.cons_append, hrest]
      simp
    rw [← hsame]
    exact hlist
  rw [hrest, List.getLast?_concat]
  exact hrow.adjacent.2

omit [DecidableEq α] in
/-- No member is its own predecessor. -/
theorem IsList.prev_ne {a : α} (hlist : IsList h list xs) (ha : a ∈ xs) : (h a).prev ≠ some a := by
  obtain ⟨l, r, rfl⟩ := List.append_of_mem ha
  obtain ⟨rest, last, hrest⟩ : ∃ rest last, list.head :: l = rest ++ [last] :=
    ⟨_, _, (List.dropLast_append_getLast (List.cons_ne_nil list.head l)).symm⟩
  have hrow : IsRow h (rest ++ last :: a :: (r ++ [list.tail])) := by
    have hsame : list.head :: (l ++ a :: r ++ [list.tail]) =
        rest ++ last :: a :: (r ++ [list.tail]) := by
      rw [List.append_assoc, ← List.cons_append, hrest]
      simp
    rw [← hsame]
    exact hlist
  have hne : last ≠ a := by
    have hnodup := hrow.nodup
    simp only [List.nodup_append, List.nodup_cons, List.mem_cons, not_or] at hnodup
    exact hnodup.2.1.1.1
  rw [hrow.adjacent.2]
  simpa using hne

/-- Inserting the last member once more breaks the list. -/
theorem listInsertEnd_again {a : α} (hlist : IsList h list xs) (ha : xs.getLast? = some a) :
    ∃ h', listInsertEnd list.tail a h = some h' ∧ ∀ ys, ¬ IsList h' list ys := by
  have hin : a ∈ xs := List.mem_of_getLast? ha
  have htail : a ≠ list.tail := by
    rintro rfl
    exact (isList_nodup_iff.mp hlist.nodup).2.2.2 hin
  have hlast : (h list.tail).prev = some a := by
    rw [hlist.prev_tail, List.getLast?_cons, ha]
    rfl
  obtain ⟨h', hh'⟩ : ∃ h', h' = setNext (setPrev (setPrev (setNext h a (some a)) a (some a))
    list.tail (some a)) a (some list.tail) := ⟨_, rfl⟩
  have hprev : (h' a).prev = some a := by
    rw [hh']
    simp [htail]
  have hprevTail : (h' list.tail).prev = some a := by
    rw [hh']
    simp
  refine ⟨h', ?_, fun ys hys => ?_⟩
  · simp [listInsertEnd, hlast, hh']
  · have hmem : a ∈ list.head :: ys := by
      apply List.mem_of_getLast?
      rw [← hys.prev_tail, hprevTail]
    rcases List.mem_cons.mp hmem with rfl | hmem
    · rw [hys.prev_head] at hprev
      cases hprev
    · exact hys.prev_ne hmem hprev

end Longhorn.IntrusiveList
