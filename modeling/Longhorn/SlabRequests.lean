import Longhorn.SlabCalls

/-!
Requests to give slabs back that `slab_free` should reject: which entries it examines,
and on which requests it ends without leaving the table.
-/

namespace Longhorn.SlabRequests

open Longhorn.Foundations.ByteMemory
open Longhorn.Foundations.Ranges
open Longhorn.SlabModel
open Longhorn.SlabTable
open Longhorn.SlabSafety
open Longhorn.SlabCalls

/-- The entries that the search loop of `slab_free` reads. -/
def searchReads (s : SlabAllocator) (addr : Nat) (mem : Memory) : Nat → Nat → List Nat
  | 0, _ => []
  | fuel + 1, k =>
      k :: if slabAddr s mem k = addr then [] else searchReads s addr mem fuel (k + 1)

/-- The entries that the check of `slab_free` reads. -/
def checkReads (free : Nat → Bool) : Nat → Nat → List Nat
  | 0, _ => []
  | left + 1, k => k :: if free k then [] else checkReads free left (k + 1)

/-- The entries that `slab_free` examines.  The address in the first entry is read before
the counter is compared with the number of slabs. -/
def freeReads (s : SlabAllocator) (addr numSlabs : Nat) (mem : Memory) : List Nat :=
  if totalNumSlabs s = 0 then [0]
  else
    searchReads s addr mem (2 ^ 29) 0 ++
      match freeSearch s addr mem (2 ^ 29) 0 with
      | none => []
      | some k => checkReads (slabIsFree s mem) numSlabs k

/-- The address is that of an entry, and the entries from it on are in the table and
allocated. -/
def Allocated (s : SlabAllocator) (mem : Memory) (count addr n : Nat) : Prop :=
  ∃ k, k < count ∧ slabAddr s mem k = addr ∧ k + n ≤ count ∧
    AllOn (fun i => ¬ slabIsFree s mem i = true) ⟨k, n⟩

/-- `slab_free` ends after examining entries of the table only, and rejects a request that
is not for an allocated region without changing anything. -/
def FreesCleanly (s : SlabAllocator) (mem : Memory) (count addr n : Nat) : Prop :=
  ∃ code s' mem', slabFree s addr n mem = some (code, s', mem') ∧
    (∀ i ∈ freeReads s addr n mem, i < count) ∧
    (¬ Allocated s mem count addr n → code = -slabFreeFail ∧ s' = s ∧ mem' = mem)

section Search

variable {s : SlabAllocator} {addr : Nat} {mem : Memory}

/-- Where the search stops. -/
theorem freeSearch_eq_some {fuel i k : Nat} (h : freeSearch s addr mem fuel i = some k) :
    i ≤ k ∧ k < i + fuel ∧ slabAddr s mem k = addr ∧
      ∀ j, i ≤ j → j < k → slabAddr s mem j ≠ addr := by
  induction fuel generalizing i with
  | zero => exact absurd h (by simp [freeSearch])
  | succ fuel ih =>
      rw [freeSearch] at h
      split at h
      · next heq =>
          obtain rfl := Option.some_inj.mp h
          exact ⟨le_rfl, by omega, heq, fun j h1 h2 => by omega⟩
      · next hne =>
          obtain ⟨hle, hlt, heq, hfirst⟩ := ih h
          refine ⟨by omega, by omega, heq, fun j h1 h2 => ?_⟩
          by_cases hj : j = i
          · exact hj ▸ hne
          · exact hfirst j (by omega) h2

/-- The search reads the entries up to the one it stops at. -/
theorem mem_searchReads {fuel i k : Nat} (h : freeSearch s addr mem fuel i = some k) (j : Nat) :
    j ∈ searchReads s addr mem fuel i ↔ i ≤ j ∧ j ≤ k := by
  induction fuel generalizing i with
  | zero => exact absurd h (by simp [freeSearch])
  | succ fuel ih =>
      rw [freeSearch] at h
      rw [searchReads]
      split at h
      · next heq =>
          obtain rfl := Option.some_inj.mp h
          rw [if_pos heq, List.mem_singleton]
          omega
      · next hne =>
          obtain ⟨hle, _⟩ := freeSearch_eq_some h
          rw [if_neg hne, List.mem_cons, ih h]
          omega

/-- The check reads the entries of the run up to the first free one. -/
theorem mem_checkReads (free : Nat → Bool) (left k j : Nat) :
    j ∈ checkReads free left k ↔
      k ≤ j ∧ j < k + left ∧ ∀ i, k ≤ i → i < j → free i ≠ true := by
  induction left generalizing k with
  | zero =>
      rw [checkReads]
      constructor
      · intro h
        exact absurd h List.not_mem_nil
      · rintro ⟨h1, h2, _⟩
        omega
  | succ left ih =>
      rw [checkReads, List.mem_cons]
      by_cases hfree : free k = true
      · rw [if_pos hfree]
        constructor
        · rintro (rfl | h)
          · exact ⟨le_rfl, by omega, fun i h1 h2 => by omega⟩
          · exact absurd h List.not_mem_nil
        · rintro ⟨h1, h2, hall⟩
          by_cases hj : j = k
          · exact Or.inl hj
          · exact absurd hfree (hall k le_rfl (by omega))
      · rw [if_neg hfree, ih]
        constructor
        · rintro (rfl | ⟨h1, h2, hall⟩)
          · exact ⟨le_rfl, by omega, fun i h1 h2 => by omega⟩
          · refine ⟨by omega, by omega, fun i hi1 hi2 => ?_⟩
            by_cases hi : i = k
            · exact hi ▸ hfree
            · exact hall i (by omega) hi2
        · rintro ⟨h1, h2, hall⟩
          by_cases hj : j = k
          · exact Or.inl hj
          · exact Or.inr ⟨by omega, by omega, fun i hi1 hi2 => hall i (by omega) hi2⟩

end Search

section Free

variable {s : SlabAllocator} {mem : Memory} {count addr n : Nat}

/-- The address is found in the table, and the check of the run ends there: the run does
not leave the table, or one of its entries in the table is free. -/
def CheckStaysInTable (s : SlabAllocator) (mem : Memory) (count addr n : Nat) : Prop :=
  ∃ k, k < count ∧ slabAddr s mem k = addr ∧
    (k + n ≤ count ∨ ∃ j, k ≤ j ∧ j < count ∧ slabIsFree s mem j = true)

/-- The check examines entries of the table only. -/
theorem checkReads_lt_iff {k : Nat} (hk : k < count) :
    (∀ j ∈ checkReads (slabIsFree s mem) n k, j < count) ↔
      k + n ≤ count ∨ ∃ j, k ≤ j ∧ j < count ∧ slabIsFree s mem j = true := by
  constructor
  · intro h
    by_contra hnot
    rw [not_or, not_le] at hnot
    obtain ⟨hlong, hnone⟩ := hnot
    have hread : count ∈ checkReads (slabIsFree s mem) n k :=
      (mem_checkReads _ _ _ _).mpr
        ⟨by omega, hlong, fun i h1 h2 hfree => hnone ⟨i, h1, h2, hfree⟩⟩
    exact absurd (h count hread) (by omega)
  · rintro h j hj
    obtain ⟨h1, h2, hall⟩ := (mem_checkReads _ _ _ _).mp hj
    rcases h with hshort | ⟨i, hi1, hi2, hfree⟩
    · omega
    · by_contra hge
      exact hall i hi1 (by omega) hfree

/-- Once the address is found, `slab_free` ends with or without the region. -/
theorem slabFree_of_search {k : Nat} (htotal : totalNumSlabs s ≠ 0)
    (h : freeSearch s addr mem (2 ^ 29) 0 = some k) :
    slabFree s addr n mem =
      if allAllocated (slabIsFree s mem) n k then
        some (slabSucc, givenBack s n, setFlags s 1#8 n k mem)
      else some (-slabFreeFail, s, mem) := by
  rw [slabFree, if_neg htotal, h]
  rfl

/-- On a table without a repeated address, `slab_free` is clean exactly on the requests
whose address is in the table and whose run either fits into the table or meets a free
entry there. -/
theorem slab_free_clean_iff (hscan : count ≤ totalNumSlabs s) (hslot : DistinctSlabs s mem count) :
    FreesCleanly s mem count addr n ↔ CheckStaysInTable s mem count addr n := by
  have htotal := totalNumSlabs_lt s
  constructor
  · rintro ⟨code, s', mem', heq, hreads, _⟩
    rw [freeReads] at hreads
    by_cases hzero : totalNumSlabs s = 0
    · rw [if_pos hzero] at hreads
      have := hreads 0 List.mem_cons_self
      omega
    rw [if_neg hzero] at hreads
    rw [slabFree, if_neg hzero] at heq
    cases hsearch : freeSearch s addr mem (2 ^ 29) 0 with
    | none =>
        rw [hsearch] at heq
        exact absurd heq (by simp)
    | some k =>
        rw [hsearch] at hreads
        obtain ⟨_, _, haddr, _⟩ := freeSearch_eq_some hsearch
        have hk : k < count :=
          hreads k (List.mem_append_left _
            ((mem_searchReads hsearch k).mpr ⟨Nat.zero_le k, le_rfl⟩))
        exact ⟨k, hk, haddr,
          (checkReads_lt_iff hk).mp fun j hj => hreads j (List.mem_append_right _ hj)⟩
  · rintro ⟨k, hk, haddr, hcheck⟩
    have hsearch : freeSearch s addr mem (2 ^ 29) 0 = some k := by
      refine freeSearch_eq (2 ^ 29) 0 haddr (Nat.zero_le k) (by omega) fun j _ hj heq => ?_
      exact absurd (hslot j k (by omega) hk (heq.trans haddr.symm)) (by omega)
    have hzero : totalNumSlabs s ≠ 0 := by omega
    have hreads : ∀ i ∈ freeReads s addr n mem, i < count := by
      intro i hi
      rw [freeReads, if_neg hzero, hsearch] at hi
      rcases List.mem_append.mp hi with hi | hi
      · have := (mem_searchReads hsearch i).mp hi
        omega
      · exact (checkReads_lt_iff hk).mpr hcheck i hi
    by_cases hall : allAllocated (slabIsFree s mem) n k = true
    · refine ⟨slabSucc, givenBack s n, setFlags s 1#8 n k mem, ?_, hreads, fun hbad => ?_⟩
      · rw [slabFree_of_search hzero hsearch, if_pos hall]
      · refine absurd ?_ hbad
        have hrun := (allAllocated_eq_true_iff _ _ _).mp hall
        refine ⟨k, hk, haddr, ?_, hrun⟩
        rcases hcheck with hshort | ⟨j, hj1, hj2, hfree⟩
        · exact hshort
        · by_contra hlong
          exact hrun j ⟨hj1, by simp only; omega⟩ hfree
    · refine ⟨-slabFreeFail, s, mem, ?_, hreads, fun _ => ⟨rfl, rfl, rfl⟩⟩
      rw [slabFree_of_search hzero hsearch, if_neg hall]

/-- The first slab of a pool that has just been set up, which is not handed out. -/
theorem slab_free_clean_iff_pool :
    FreesCleanly (poolAllocator 4198400) (poolTable 4198400 fun _ => 0#8) poolEntries
      4203520 1 := by
  have hp : 4198400 + poolSize < 2 ^ 32 := by decide
  have htable : HasTable (poolAllocator 4198400) (poolTable 4198400 fun _ => 0#8) poolEntries
      (poolSlot 4198400) := by simpa only using (poolTable_inv hp fun _ => 0#8).table
  refine (slab_free_clean_iff (by decide) (poolTable_distinct hp fun _ => 0#8)).mpr ?_
  exact ⟨0, by decide, htable.addr 0 (by decide), Or.inl (by decide)⟩

/-- Behind the table of a pool in zeroed memory the search meets `NULL`. -/
theorem slabAddr_behind_poolTable {p : Nat} (hp : p + poolSize < 2 ^ 32) :
    slabAddr (poolAllocator p) (poolTable p fun _ => 0#8) poolEntries = 0 := by
  have hentry : entryPtr (poolAllocator p) poolEntries = p + sizeofSlab * poolEntries := by
    refine wrap_of_lt ?_
    change p + sizeofSlab * poolEntries < 2 ^ 32
    unfold poolSize at hp
    unfold sizeofSlab poolEntries
    omega
  rw [slabAddr, hentry, poolTable]
  rw [readPtr_congr fun c h1 _ => writeTable_of_outside (Or.inr h1) _, readPtr, readWord]
  decide

/-- `NULL` is in no entry of the table, and `slab_free` leaves the table to find it. -/
theorem not_slab_free_clean : ¬ ∀ (s : SlabAllocator) (mem : Memory) (count addr n : Nat),
    count ≤ totalNumSlabs s → DistinctSlabs s mem count → FreesCleanly s mem count addr n := by
  intro hclaim
  have hp : 4198400 + poolSize < 2 ^ 32 := by decide
  have htable : HasTable (poolAllocator 4198400) (poolTable 4198400 fun _ => 0#8) poolEntries
      (poolSlot 4198400) := by simpa only using (poolTable_inv hp fun _ => 0#8).table
  have hsearch : freeSearch (poolAllocator 4198400) 0 (poolTable 4198400 fun _ => 0#8) (2 ^ 29) 0 =
      some poolEntries := by
    refine freeSearch_eq (2 ^ 29) 0 (slabAddr_behind_poolTable hp) (Nat.zero_le _) (by decide) ?_
    intro j _ hj
    rw [htable.addr j hj]
    exact poolSlot_ne_zero _ j
  obtain ⟨_, _, _, _, hreads, _⟩ := hclaim (poolAllocator 4198400) (poolTable 4198400 fun _ => 0#8)
    poolEntries 0 1 (by decide) (poolTable_distinct hp fun _ => 0#8)
  have hread : poolEntries ∈ freeReads (poolAllocator 4198400) 0 1
      (poolTable 4198400 fun _ => 0#8) := by
    rw [freeReads, if_neg (by decide)]
    exact List.mem_append_left _ ((mem_searchReads hsearch _).mpr ⟨Nat.zero_le _, le_rfl⟩)
  exact absurd (hreads _ hread) (lt_irrefl _)

end Free

end Longhorn.SlabRequests
