import Longhorn.KallocModel

/-!
The list of allocation records in memory: what `kmalloc` writes when it adds a
record, and where the search of `kfree` ends.
-/

namespace Longhorn.KmallocRecords

open Longhorn.Foundations.ByteMemory
open Longhorn.KallocModel

/-- Following `next` from `a` visits `nodes` and then `stop`. -/
def ChainTo (mem : Memory) : Nat → List Nat → Nat → Prop
  | a, [], stop => readPtr mem a = stop
  | a, n :: nodes, stop => readPtr mem a = n ∧ ChainTo mem n nodes stop

/-- The node of the record at `a`. -/
def nodeOf (a : Nat) : Nat := a + offsetofNode

/-- The list at `list` holds the records, and its tail ends it. -/
def RecordList (list : Nat) (mem : Memory) (records : List Nat) : Prop :=
  ChainTo mem list (records.map nodeOf) (list + 8) ∧ readPtr mem (list + 8) = 0

/-- The node after the sentinel `head`. -/
def firstNode (list : Nat) (records : List Nat) : Nat :=
  match records with
  | [] => list + 8
  | a :: _ => nodeOf a

theorem ChainTo.congr {mem mem' : Memory} {a stop : Nat} {nodes : List Nat}
    (h : ChainTo mem a nodes stop) (hmem : ∀ n ∈ a :: nodes, readPtr mem' n = readPtr mem n) :
    ChainTo mem' a nodes stop := by
  induction nodes generalizing a with
  | nil =>
      rw [ChainTo, hmem a List.mem_cons_self]
      exact h
  | cons n nodes ih =>
      obtain ⟨hnext, hrest⟩ := h
      refine ⟨?_, ih hrest fun m hm => hmem m (List.mem_cons_of_mem a hm)⟩
      rw [hmem a List.mem_cons_self]
      exact hnext

theorem RecordList.head {list : Nat} {mem : Memory} {records : List Nat}
    (h : RecordList list mem records) : readPtr mem list = firstNode list records := by
  cases records with
  | nil => exact h.1
  | cons a records => exact h.1.1

theorem RecordList.congr {list : Nat} {mem mem' : Memory} {records : List Nat}
    (h : RecordList list mem records) (hhead : readPtr mem' list = readPtr mem list)
    (htail : readPtr mem' (list + 8) = readPtr mem (list + 8))
    (hnode : ∀ a ∈ records, readPtr mem' (nodeOf a) = readPtr mem (nodeOf a)) :
    RecordList list mem' records := by
  refine ⟨h.1.congr ?_, htail.trans h.2⟩
  intro n hn
  rcases List.mem_cons.mp hn with rfl | hn
  · exact hhead
  · obtain ⟨a, ha, rfl⟩ := List.mem_map.mp hn
    exact hnode a ha

/-- The bytes that `kmalloc` writes for a record at `a` when `first` is the first
node of the list. -/
def RecordWrite (list a first c : Nat) : Prop :=
  (a ≤ c ∧ c < a + sizeofAllocation) ∨ (list ≤ c ∧ c < list + 4) ∨
    (first + 4 ≤ c ∧ c < first + 8)

/-- The record, the head and the first node do not overlap. -/
structure RecordRoom (list a first : Nat) : Prop where
  recordEnd : a + sizeofAllocation < 2 ^ 32
  nodeEnd : first + 8 < 2 ^ 32
  apart : a + sizeofAllocation ≤ list ∨ list + 16 ≤ a
  node : first + 8 ≤ list ∨ list + 4 ≤ first + 4

theorem recordAllocation_eq {list a first : Nat} {mem : Memory} (hroom : RecordRoom list a first)
    (hread : readPtr mem list = first) (ret numSlabs : Nat) :
    recordAllocation list a ret numSlabs mem =
      writePtr (writePtr (writePtr (writePtr (writePtr (writePtr mem a ret) (a + 4) numSlabs)
        (first + 4) (nodeOf a)) (nodeOf a) first) list (nodeOf a)) (nodeOf a + 4) list := by
  obtain ⟨ha, hfirst, hapart, hnode⟩ := hroom
  unfold sizeofAllocation at *
  have hnodeOf : wrap (a + offsetofNode) = nodeOf a := wrap_of_lt (by unfold offsetofNode; omega)
  have hsame : readPtr (writePtr (writePtr mem a ret) (a + 4) numSlabs) list = first := by
    rw [readPtr_writePtr_of_disjoint (by omega), readPtr_writePtr_of_disjoint (by omega), hread]
  have hsame' : ∀ m, readPtr (writePtr m (first + 4) (nodeOf a)) list = readPtr m list :=
    fun m => readPtr_writePtr_of_disjoint (by omega) m _
  have hnode4 : wrap (nodeOf a + 4) = nodeOf a + 4 :=
    wrap_of_lt (by unfold nodeOf offsetofNode; omega)
  simp only [recordAllocation, listInsertFront, hnodeOf, offsetofAddr, offsetofSize, Nat.add_zero,
    wrap_of_lt (show a < 2 ^ 32 by omega), wrap_of_lt (show a + 4 < 2 ^ 32 by omega), hsame,
    wrap_of_lt (show first + 4 < 2 ^ 32 by omega), hsame', hnode4]

theorem recordAllocation_of_outside {list a first c : Nat} {mem : Memory}
    (hroom : RecordRoom list a first) (hread : readPtr mem list = first) (ret numSlabs : Nat)
    (hc : ¬ RecordWrite list a first c) : recordAllocation list a ret numSlabs mem c = mem c := by
  rw [recordAllocation_eq hroom hread]
  simp only [RecordWrite, sizeofAllocation, not_or, not_and, not_lt] at hc
  obtain ⟨hca, hcl, hcf⟩ := hc
  unfold nodeOf offsetofNode
  rw [writePtr_of_outside (by omega), writePtr_of_outside (by omega),
    writePtr_of_outside (by omega), writePtr_of_outside (by omega),
    writePtr_of_outside (by omega), writePtr_of_outside (by omega)]

/-- The new record comes first, and its node points at the old first one. -/
theorem recordAllocation_links {list a first : Nat} {mem : Memory}
    (hroom : RecordRoom list a first) (hread : readPtr mem list = first) (ret numSlabs : Nat) :
    readPtr (recordAllocation list a ret numSlabs mem) list = nodeOf a ∧
      readPtr (recordAllocation list a ret numSlabs mem) (nodeOf a) = first := by
  rw [recordAllocation_eq hroom hread]
  obtain ⟨ha, hfirst, hapart, hnode⟩ := hroom
  unfold nodeOf offsetofNode
  unfold sizeofAllocation at *
  constructor
  · rw [readPtr_writePtr_of_disjoint (by omega), readPtr_writePtr_same _ _ (by omega)]
  · rw [readPtr_writePtr_of_disjoint (by omega), readPtr_writePtr_of_disjoint (by omega),
      readPtr_writePtr_same _ _ (by omega)]

/-- A record put in front of the list. -/
theorem RecordList.record {list a : Nat} {mem : Memory} {records : List Nat}
    (h : RecordList list mem records) (hroom : RecordRoom list a (firstNode list records))
    (ret numSlabs : Nat)
    (hold : ∀ r ∈ records, ∀ c, nodeOf r ≤ c → c < nodeOf r + 4 →
      ¬ RecordWrite list a (firstNode list records) c)
    (htail : ∀ c, list + 8 ≤ c → c < list + 12 →
      ¬ RecordWrite list a (firstNode list records) c) :
    RecordList list (recordAllocation list a ret numSlabs mem) (a :: records) := by
  obtain ⟨hhead, hnext⟩ := recordAllocation_links hroom h.head ret numSlabs
  have hkept : ∀ r ∈ records, readPtr (recordAllocation list a ret numSlabs mem) (nodeOf r) =
      readPtr mem (nodeOf r) := by
    intro r hr
    exact readPtr_congr fun c h1 h2 =>
      recordAllocation_of_outside hroom h.head ret numSlabs (hold r hr c h1 h2)
  refine ⟨⟨hhead, ?_⟩, ?_⟩
  · cases records with
    | nil => exact hnext
    | cons r records =>
        refine ⟨hnext, h.1.2.congr fun n hn => ?_⟩
        rw [← List.map_cons] at hn
        obtain ⟨b, hb, rfl⟩ := List.mem_map.mp hn
        exact hkept b hb
  · rw [← h.2]
    exact readPtr_congr fun c h1 h2 =>
      recordAllocation_of_outside hroom h.head ret numSlabs (htail c h1 h2)

/-- On a chain none of whose links is the address, the search of `kfree` ends
without a record. -/
theorem kfreeSearch_chain {mem : Memory} {addr node stop : Nat} {nodes : List Nat} {fuel : Nat}
    (hchain : ChainTo mem node nodes stop) (hstop : readPtr mem stop = 0)
    (hlt : node < 2 ^ 32) (hne : ∀ n ∈ nodes ++ [stop], n < 2 ^ 32 ∧ n ≠ 0 ∧ n ≠ addr)
    (hfuel : nodes.length + 1 < fuel) : kfreeSearch addr mem fuel node = some none := by
  have hentry : ∀ n, n < 2 ^ 32 → wrap (listEntry n offsetofAddr + offsetofAddr) = n := by
    intro n hn
    rw [listEntry, offsetofAddr, wrapSub_of_le hn (Nat.zero_le n), Nat.sub_zero, Nat.add_zero,
      wrap_of_lt hn]
  induction nodes generalizing node fuel with
  | nil =>
      obtain ⟨fuel, rfl⟩ : ∃ rest, fuel = rest + 2 := ⟨fuel - 2, by simp at hfuel; omega⟩
      obtain ⟨_, hs0, hsa⟩ := hne stop (by simp)
      have hnext : readPtr mem node = stop := hchain
      simp only [kfreeSearch, hnext, hentry node hlt, hs0, hsa, hstop, ↓reduceIte]
  | cons n nodes ih =>
      obtain ⟨fuel, rfl⟩ := Nat.exists_eq_succ_of_ne_zero (show fuel ≠ 0 by omega)
      obtain ⟨hnext, hrest⟩ := hchain
      obtain ⟨hnlt, hn0, hna⟩ := hne n (by simp)
      rw [List.length_cons] at hfuel
      simp only [kfreeSearch, hnext, hentry node hlt, hn0, hna, ↓reduceIte]
      exact ih hrest hnlt (fun m hm => hne m (by simp at hm ⊢; exact Or.inr hm)) (by omega)

/-- `kcalloc` stores only into the words it counts. -/
theorem zeroLoop_of_outside {addr left i c : Nat} (hspace : addr + 8 * (i + left) < 2 ^ 32)
    (hc : c < addr + 8 * i ∨ addr + 8 * (i + left) ≤ c) (mem : Memory) :
    zeroLoop addr left i mem c = mem c := by
  induction left generalizing i mem with
  | zero => rfl
  | succ left ih =>
      rw [zeroLoop, ih (by omega) (by omega), wrap_of_lt (by omega), wrap_of_lt (by omega),
        writePtr_of_outside (by omega), writePtr_of_outside (by omega)]

end Longhorn.KmallocRecords
