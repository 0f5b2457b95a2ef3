import Longhorn.SlabSafety

/-!
Single calls of the slab allocator on a table of any size: `slab_alloc` takes the first
fit, and `slab_free` undoes it.
-/

namespace Longhorn.SlabCalls

open Longhorn.Foundations.ByteMemory
open Longhorn.Foundations.Ranges
open Longhorn.SlabModel
open Longhorn.SlabTable
open Longhorn.SlabSafety

/-- The entries whose `free` flag the inner loop of `slab_alloc` reads: the free ones and,
if it ends early, the one that is not. -/
def freeRunReads (free : Nat → Bool) : Nat → Nat → List Nat
  | 0, _ => []
  | left + 1, i => i :: if free i then freeRunReads free left (i + 1) else []

/-- The entries that `slab_alloc` reads, in order. -/
def allocReads (free : Nat → Bool) (numSlabs total i : Nat) : List Nat :=
  if i < total then
    if free i then
      if freeRun free numSlabs i = numSlabs then i :: freeRunReads free numSlabs i
      else
        i :: (freeRunReads free numSlabs i ++
          allocReads free numSlabs total (i + freeRun free numSlabs i + 1))
    else i :: allocReads free numSlabs total (i + 1)
  else []
termination_by total - i

/-- The two memories hold the same entries. -/
def SameTable (s : SlabAllocator) (count : Nat) (mem mem' : Memory) : Prop :=
  ∀ i, i < count → slabAddr s mem' i = slabAddr s mem i ∧ slabIsFree s mem' i = slabIsFree s mem i

/-- The result of an allocation of `n` slabs that takes the entries from `k` on in a table
of `count` entries. -/
structure TakesFirstFit (s : SlabAllocator) (mem : Memory) (count n k p : Nat)
    (s' : SlabAllocator) (mem' : Memory) : Prop where
  first : IsFirstFit (fun i => slabIsFree s mem i = true) 0 count n k
  addr : p = slabAddr s mem k
  counter : s' = { s with freeMemSize := wrapSub s.freeMemSize (n * s.slabSize) }
  lowered : s.freeMemSize < 2 ^ 32 → n * s.slabSize ≤ s.freeMemSize →
    s'.freeMemSize = s.freeMemSize - n * s.slabSize
  cleared : ∀ i, k ≤ i → i < k + n → mem' (flagPtr s i) = 0#8
  others : ∀ a, (∀ i, k ≤ i → i < k + n → a ≠ flagPtr s i) → mem' a = mem a
  reads : ∀ i ∈ allocReads (slabIsFree s mem) n (totalNumSlabs s) 0, i < count
  onlyTable : ∀ other, SameTable s count mem other →
    slabAlloc s n other = (p, s', setFlags s 0#8 n k other)

section Reads

variable {free : Nat → Bool} {n k : Nat}

theorem mem_freeRunReads {left i j : Nat} (h : j ∈ freeRunReads free left i) :
    i ≤ j ∧ j ≤ i + freeRun free left i ∧ j < i + left := by
  induction left generalizing i with
  | zero => exact absurd h List.not_mem_nil
  | succ left ih =>
      rw [freeRunReads] at h
      rw [freeRun]
      split at h <;> rename_i hfree
      · rw [if_pos hfree]
        rcases List.mem_cons.mp h with rfl | h
        · omega
        · have := ih h
          omega
      · rw [if_neg hfree]
        obtain rfl := List.mem_singleton.mp h
        omega

/-- A scan that starts no later than the first fit reads nothing behind it. -/
theorem lt_of_mem_allocReads {total i j : Nat}
    (hfirst : IsFirstFit (fun i => free i = true) 0 (k + n) n k)
    (hi : i ≤ k) (h : j ∈ allocReads free n total i) (hn : 0 < n) : j < k + n := by
  induction i using allocReads.induct free n total with
  | case1 i hlt hfree hfull =>
      rw [allocReads, if_pos hlt, if_pos hfree, if_pos hfull] at h
      rcases List.mem_cons.mp h with rfl | h
      · omega
      · have := mem_freeRunReads h
        omega
  | case2 i hlt hfree hshort ih =>
      rw [allocReads, if_pos hlt, if_pos hfree, if_neg hshort] at h
      have hle := freeRun_le free n i
      -- the entry that ends the short run is not in the first fit, so it lies before it
      have hend : i + freeRun free n i < k := by
        by_contra hge
        refine not_free_at_freeRun hshort (hfirst.1.2.2 _ ⟨?_, ?_⟩) <;> simp only <;> omega
      rcases List.mem_cons.mp h with rfl | h
      · omega
      rcases List.mem_append.mp h with h | h
      · have := mem_freeRunReads h
        omega
      · exact ih (by omega) h
  | case3 i hlt hfree ih =>
      rw [allocReads, if_pos hlt, if_neg hfree] at h
      have hne : i ≠ k := by
        rintro rfl
        exact hfree (hfirst.1.2.2 i ⟨le_rfl, by simp only; omega⟩)
      rcases List.mem_cons.mp h with rfl | h
      · omega
      · exact ih (by omega) h
  | case4 i hlt =>
      rw [allocReads, if_neg hlt] at h
      exact absurd h List.not_mem_nil

end Reads

section Alloc

variable {s : SlabAllocator} {mem mem' : Memory} {count n : Nat}

/-- Memories with the same entries have the same free runs. -/
theorem SameTable.allOn_iff (h : SameTable s count mem mem') {k : Nat} (hk : k + n ≤ count) :
    AllOn (fun i => slabIsFree s mem' i = true) ⟨k, n⟩ ↔
      AllOn (fun i => slabIsFree s mem i = true) ⟨k, n⟩ := by
  have hlt : ∀ i, (Range.mk k n).Covers i → i < count := by
    rintro i ⟨_, hi⟩
    simp only at hi
    omega
  exact ⟨fun hall => hall.mono fun i hi hfree => (h i (hlt i hi)).2 ▸ hfree,
    fun hall => hall.mono fun i hi hfree => (h i (hlt i hi)).2.symm ▸ hfree⟩

theorem SameTable.isFirstFit (h : SameTable s count mem mem') {k : Nat}
    (hfirst : IsFirstFit (fun i => slabIsFree s mem i = true) 0 count n k) :
    IsFirstFit (fun i => slabIsFree s mem' i = true) 0 count n k := by
  obtain ⟨⟨hlo, hend, hall⟩, hearlier⟩ := hfirst
  refine ⟨⟨hlo, hend, (h.allOn_iff hend).mpr hall⟩, fun c hc hck hall' => ?_⟩
  exact hearlier c hc hck ((h.allOn_iff (by omega)).mp hall')

/-- The first fit decides the whole call. -/
theorem slabAlloc_of_firstFit {k : Nat} (hscan : count ≤ totalNumSlabs s) (hn : 0 < n)
    (hfirst : IsFirstFit (fun i => slabIsFree s mem i = true) 0 count n k) :
    slabAlloc s n mem =
      (slabAddr s mem k, { s with freeMemSize := wrapSub s.freeMemSize (n * s.slabSize) },
        setFlags s 0#8 n k mem) := by
  rcases slabAlloc_cases s mem hn with ⟨k', _, hfirst', heq⟩ | ⟨hnone, _⟩
  · rw [heq, hfirst'.unique hfirst]
  · have hend := hfirst.1.2.1
    exact absurd hfirst.1.2.2 (hnone k (by omega))

/-- If some run of `n` entries of the table is free, `slab_alloc` takes the first one, and
reads no entry behind the table. -/
theorem slab_alloc_first_fit (hscan : count ≤ totalNumSlabs s) (hn : 0 < n)
    (hfit : HasFit (fun i => slabIsFree s mem i = true) 0 count n) :
    ∃ k p s' mem', slabAlloc s n mem = (p, s', mem') ∧
      TakesFirstFit s mem count n k p s' mem' := by
  rcases slabAlloc_cases s mem hn with ⟨k, _, hfirst, heq⟩ | ⟨hnone, _⟩
  · have hfirst' := hfirst.of_hasFit hfit
    have hend := hfirst'.1.2.1
    refine ⟨k, _, _, _, heq, hfirst', rfl, rfl, fun hlt hle => wrapSub_of_le hlt hle,
      ?_, ?_, ?_, ?_⟩
    · exact fun i h1 h2 => setFlags_flag h1 h2 mem
    · exact fun a ha => setFlags_of_ne ha mem
    · intro i hi
      have := lt_of_mem_allocReads hfirst (Nat.zero_le k) hi hn
      omega
    · intro other hsame
      rw [slabAlloc_of_firstFit hscan hn (hsame.isFirstFit hfirst'), (hsame k (by omega)).1]
  · obtain ⟨c, _, hc, hall⟩ := hfit
    exact absurd hall (hnone c (by omega))

/-- A single slab from a pool that has just been set up. -/
theorem slab_alloc_first_fit_pool : ∃ k p s' mem',
    slabAlloc (poolAllocator 4198400) 560 (poolTable 4198400 fun _ => 0#8) = (p, s', mem') ∧
      TakesFirstFit (poolAllocator 4198400) (poolTable 4198400 fun _ => 0#8) 560 560 k p s' mem' :=
  slab_alloc_first_fit (by decide) (by decide) (poolTable_hasFit (by decide) fun _ => 0#8)

end Alloc

section Free

variable {s : SlabAllocator} {mem : Memory} {count : Nat}

/-- No address is stored in two entries of the table. -/
def DistinctSlabs (s : SlabAllocator) (mem : Memory) (count : Nat) : Prop :=
  ∀ i j, i < count → j < count → slabAddr s mem i = slabAddr s mem j → i = j

/-- A region that is handed out: the address in the first of `n` entries that are not
free.  `slab_alloc` takes no run that starts behind its scan limit. -/
structure LiveRegion (s : SlabAllocator) (mem : Memory) (count k n p : Nat) : Prop where
  addr : p = slabAddr s mem k
  scanned : k < totalNumSlabs s
  inTable : k + n ≤ count
  pos : 0 < n
  allocated : AllOn (fun i => ¬ slabIsFree s mem i = true) ⟨k, n⟩

/-- The state after the entries have been given back. -/
def givenBack (s : SlabAllocator) (n : Nat) : SlabAllocator :=
  { s with freeMemSize := wrap (s.freeMemSize + n * s.slabSize) }

theorem LiveRegion.slabFree {k n p : Nat} (h : LiveRegion s mem count k n p)
    (hslot : DistinctSlabs s mem count) :
    SlabModel.slabFree s p n mem = some (slabSucc, givenBack s n, setFlags s 1#8 n k mem) := by
  have hlt := totalNumSlabs_lt s
  have hscan := h.scanned
  have hend := h.inTable
  have hpos := h.pos
  rw [h.addr]
  refine slabFree_of_first (by omega) (by omega) (fun j hj heq => ?_) h.allocated
  exact absurd (hslot j k (by omega) (by omega) heq) (by omega)

theorem DistinctSlabs.setFlags (h : DistinctSlabs s mem count) (val : BitVec 8) (n k : Nat) :
    DistinctSlabs s (setFlags s val n k mem) count := by
  intro i j hi hj heq
  rw [slabAddr_setFlags, slabAddr_setFlags] at heq
  exact h i j hi hj heq

/-- The table is no longer than the part of it that has addresses of its own. -/
theorem DistinctSlabs.count_le (h : DistinctSlabs s mem count) : count ≤ 2 ^ 29 := by
  by_contra hlt
  have heq : entryPtr s (2 ^ 29) = entryPtr s 0 := by
    unfold entryPtr wrap sizeofSlab
    omega
  have := h (2 ^ 29) 0 (by omega) (by omega) (congrArg (readPtr mem) heq)
  omega

/-- The counter of free memory does not move the flags. -/
theorem setFlags_withFreeMem (s : SlabAllocator) (f : Nat) (v : BitVec 8) (n k : Nat)
    (mem : Memory) : setFlags { s with freeMemSize := f } v n k mem = setFlags s v n k mem := by
  induction n generalizing k mem with
  | zero => rfl
  | succ n ih =>
      rw [setFlags, setFlags, ih]
      rfl

/-- What is stored last is what is read. -/
theorem setFlags_setFlags (s : SlabAllocator) (v w : BitVec 8) (n k : Nat) (mem : Memory) :
    setFlags s w n k (setFlags s v n k mem) = setFlags s w n k mem := by
  funext a
  by_cases ha : ∃ i, k ≤ i ∧ i < k + n ∧ a = flagPtr s i
  · obtain ⟨i, h1, h2, rfl⟩ := ha
    rw [setFlags_flag h1 h2, setFlags_flag h1 h2]
  · have hne : ∀ i, k ≤ i → i < k + n → a ≠ flagPtr s i :=
      fun i h1 h2 heq => ha ⟨i, h1, h2, heq⟩
    rw [setFlags_of_ne hne, setFlags_of_ne hne, setFlags_of_ne hne]

/-- Storing the value that is there already. -/
theorem setFlags_same (s : SlabAllocator) {v : BitVec 8} {n k : Nat} {mem : Memory}
    (h : ∀ i, k ≤ i → i < k + n → mem (flagPtr s i) = v) : setFlags s v n k mem = mem := by
  funext a
  by_cases ha : ∃ i, k ≤ i ∧ i < k + n ∧ a = flagPtr s i
  · obtain ⟨i, h1, h2, rfl⟩ := ha
    rw [setFlags_flag h1 h2, h i h1 h2]
  · exact setFlags_of_ne (fun i h1 h2 heq => ha ⟨i, h1, h2, heq⟩) mem

/-- Stores of one value into two runs commute. -/
theorem setFlags_comm (s : SlabAllocator) (v : BitVec 8) (n k m l : Nat) (mem : Memory) :
    setFlags s v m l (setFlags s v n k mem) = setFlags s v n k (setFlags s v m l mem) := by
  funext a
  by_cases hk : ∃ i, k ≤ i ∧ i < k + n ∧ a = flagPtr s i <;>
    by_cases hl : ∃ i, l ≤ i ∧ i < l + m ∧ a = flagPtr s i
  · obtain ⟨i, hi1, hi2, rfl⟩ := hk
    obtain ⟨j, hj1, hj2, heq⟩ := hl
    rw [setFlags_flag hi1 hi2, heq, setFlags_flag hj1 hj2]
  · obtain ⟨i, hi1, hi2, rfl⟩ := hk
    rw [setFlags_of_ne fun j h1 h2 heq => hl ⟨j, h1, h2, heq⟩, setFlags_flag hi1 hi2,
      setFlags_flag hi1 hi2]
  · obtain ⟨j, hj1, hj2, rfl⟩ := hl
    rw [setFlags_flag hj1 hj2, setFlags_of_ne fun i h1 h2 heq => hk ⟨i, h1, h2, heq⟩,
      setFlags_flag hj1 hj2]
  · rw [setFlags_of_ne fun j h1 h2 heq => hl ⟨j, h1, h2, heq⟩,
      setFlags_of_ne fun i h1 h2 heq => hk ⟨i, h1, h2, heq⟩,
      setFlags_of_ne fun i h1 h2 heq => hk ⟨i, h1, h2, heq⟩,
      setFlags_of_ne fun j h1 h2 heq => hl ⟨j, h1, h2, heq⟩]

/-- Giving another region back leaves a region handed out. -/
theorem LiveRegion.other {k n p l m q : Nat} (h : LiveRegion s mem count k n p)
    (h' : LiveRegion s mem count l m q) (hslot : DistinctSlabs s mem count)
    (hdisj : (Range.mk k n).Disjoint ⟨l, m⟩) :
    LiveRegion (givenBack s m) (setFlags s 1#8 m l mem) count k n p := by
  have hcount := hslot.count_le
  have hend := h.inTable
  have hend' := h'.inTable
  refine ⟨?_, h.scanned, h.inTable, h.pos, fun i hi hfree => h.allocated i hi ?_⟩
  · rw [h.addr]
    exact (slabAddr_setFlags 1#8 m l k mem).symm
  · change slabIsFree s (setFlags s 1#8 m l mem) i = true at hfree
    rwa [slabIsFree_setFlags_of_lt (by omega) (by have := hi.2; simp only at this; omega),
      if_neg (hdisj i hi)] at hfree

theorem givenBack_comm (s : SlabAllocator) (n m : Nat) :
    givenBack (givenBack s n) m = givenBack (givenBack s m) n := by
  simp only [givenBack, SlabAllocator.mk.injEq, true_and, and_true, wrap]
  omega

/-- Two regions can be given back in either order. -/
theorem slabFree_comm {k n p l m q : Nat} (h : LiveRegion s mem count k n p)
    (h' : LiveRegion s mem count l m q) (hslot : DistinctSlabs s mem count)
    (hdisj : (Range.mk k n).Disjoint ⟨l, m⟩) :
    ∃ s1 mem1 s2 mem2 s3 mem3, slabFree s p n mem = some (slabSucc, s1, mem1) ∧
      slabFree s1 q m mem1 = some (slabSucc, s3, mem3) ∧
      slabFree s q m mem = some (slabSucc, s2, mem2) ∧
      slabFree s2 p n mem2 = some (slabSucc, s3, mem3) := by
  have hqp := (h'.other h hslot hdisj.symm).slabFree (hslot.setFlags 1#8 n k)
  have hpq := (h.other h' hslot hdisj).slabFree (hslot.setFlags 1#8 m l)
  refine ⟨_, _, _, _, _, _, h.slabFree hslot, hqp, h'.slabFree hslot, ?_⟩
  have hflags : ∀ f, setFlags (givenBack s f) = setFlags s := by
    intro f
    funext v n k mem
    exact setFlags_withFreeMem s _ v n k mem
  rw [hpq, givenBack_comm s m n, hflags, hflags, setFlags_comm]

/-- `slab_free` of what `slab_alloc` has taken restores the counter and every flag that
`true` was stored into. -/
theorem slabFree_slabAlloc {n p : Nat} {s' : SlabAllocator} {mem' : Memory}
    (hslot : DistinctSlabs s mem count) (hfree : s.freeMemSize < 2 ^ 32) (hn : 0 < n)
    (hfit : HasFit (fun i => slabIsFree s mem i = true) 0 count n)
    (halloc : slabAlloc s n mem = (p, s', mem')) (hp : count ≤ totalNumSlabs s ∨ p ≠ 0) :
    ∃ k, k + n ≤ count ∧ AllOn (fun i => slabIsFree s mem i = true) ⟨k, n⟩ ∧
      slabFree s' p n mem' = some (slabSucc, s, setFlags s 1#8 n k mem) := by
  have hcount := hslot.count_le
  rcases slabAlloc_cases s mem hn with ⟨k, hk, hfirst, heq⟩ | ⟨hnone, heq⟩
  · obtain ⟨_, hend, hall⟩ := (hfirst.of_hasFit hfit).1
    rw [heq, Prod.mk.injEq, Prod.mk.injEq] at halloc
    obtain ⟨rfl, rfl, rfl⟩ := halloc
    have hlive : LiveRegion { s with freeMemSize := wrapSub s.freeMemSize (n * s.slabSize) }
        (setFlags s 0#8 n k mem) count k n (slabAddr s mem k) := by
      refine ⟨(slabAddr_setFlags 0#8 n k k mem).symm, hk, hend, hn, fun i hi hfree => ?_⟩
      change slabIsFree s (setFlags s 0#8 n k mem) i = true at hfree
      rw [slabIsFree_setFlags_of_lt (by omega) (by have := hi.2; simp only at this; omega),
        if_pos hi] at hfree
      exact absurd hfree (by decide)
    have hback :
        givenBack { s with freeMemSize := wrapSub s.freeMemSize (n * s.slabSize) } n = s := by
      obtain ⟨m, memSize, f, slabSize, data⟩ := s
      simp only [givenBack, SlabAllocator.mk.injEq, true_and, and_true, wrapSub, wrap] at hfree ⊢
      omega
    refine ⟨k, hend, hall, ?_⟩
    rw [hlive.slabFree (hslot.setFlags 0#8 n k), hback, ← setFlags_setFlags s 0#8 1#8 n k mem]
    exact congrArg _ (congrArg _ (congrArg _ (setFlags_withFreeMem s _ 1#8 n k _)))
  · rw [heq, Prod.mk.injEq] at halloc
    obtain ⟨c, _, hc, hall⟩ := hfit
    rcases hp with hscan | hp
    · exact absurd hall (hnone c (by omega))
    · exact absurd halloc.1.symm hp

/-- Setting the flags of a free run changes the table only where a flag is no `bool`. -/
theorem setFlags_restores {k n : Nat} (hcount : count ≤ 2 ^ 29) (hend : k + n ≤ count)
    (hall : AllOn (fun i => slabIsFree s mem i = true) ⟨k, n⟩) :
    SameTable s count mem (setFlags s 1#8 n k mem) ∧
      (∀ a, (∀ i, i < count → a ≠ flagPtr s i) → setFlags s 1#8 n k mem a = mem a) ∧
      ((∀ i, i < count → slabIsFree s mem i = true → mem (flagPtr s i) = 1#8) →
        setFlags s 1#8 n k mem = mem) := by
  refine ⟨fun i hi => ⟨slabAddr_setFlags 1#8 n k i mem, ?_⟩, ?_, fun hbool => ?_⟩
  · rw [slabIsFree_setFlags_of_lt (by omega) (by omega)]
    split
    · next hcov => exact (hall i hcov).symm
    · rfl
  · exact fun a ha => setFlags_of_ne (fun i _ h2 => ha i (by omega)) mem
  · exact setFlags_same s fun i h1 h2 => hbool i (by omega) (hall i ⟨h1, h2⟩)

/-- Giving back what has just been allocated is the identity on the counter, on the entries
of the table and on all bytes that are not flags, and on the flags as well where they hold
the values of a `bool`.  Two regions that are handed out can be given back in either
order. -/
theorem slab_free_alloc (hslot : DistinctSlabs s mem count) (hfree : s.freeMemSize < 2 ^ 32) :
    (∀ n p s' mem', 0 < n → HasFit (fun i => slabIsFree s mem i = true) 0 count n →
        slabAlloc s n mem = (p, s', mem') → count ≤ totalNumSlabs s ∨ p ≠ 0 →
        ∃ mem'', slabFree s' p n mem' = some (slabSucc, s, mem'') ∧
          SameTable s count mem mem'' ∧
          (∀ a, (∀ i, i < count → a ≠ flagPtr s i) → mem'' a = mem a) ∧
          ((∀ i, i < count → slabIsFree s mem i = true → mem (flagPtr s i) = 1#8) → mem'' = mem)) ∧
      ∀ k n p l m q, LiveRegion s mem count k n p → LiveRegion s mem count l m q →
        (Range.mk k n).Disjoint ⟨l, m⟩ →
        ∃ s1 mem1 s2 mem2 s3 mem3, slabFree s p n mem = some (slabSucc, s1, mem1) ∧
          slabFree s1 q m mem1 = some (slabSucc, s3, mem3) ∧
          slabFree s q m mem = some (slabSucc, s2, mem2) ∧
          slabFree s2 p n mem2 = some (slabSucc, s3, mem3) := by
  refine ⟨fun n p s' mem' hn hfit halloc hp => ?_, fun k n p l m q h h' => slabFree_comm h h' hslot⟩
  obtain ⟨k, hend, hall, heq⟩ := slabFree_slabAlloc hslot hfree hn hfit halloc hp
  exact ⟨_, heq, setFlags_restores hslot.count_le hend hall⟩

theorem poolTable_distinct {p : Nat} (hp : p + poolSize < 2 ^ 32) (mem : Memory) :
    DistinctSlabs (poolAllocator p) (poolTable p mem) poolEntries := by
  have htable : HasTable (poolAllocator p) (poolTable p mem) poolEntries (poolSlot p) := by
    simpa only using (poolTable_inv hp mem).table
  intro i j hi hj heq
  rw [htable.addr i hi, htable.addr j hj] at heq
  unfold poolSlot poolSlabSize at heq
  omega

/-- The pool that has just been set up, with every slab free. -/
theorem slab_free_alloc_pool : ∃ p s' mem' mem'',
    slabAlloc (poolAllocator 4198400) poolEntries (poolTable 4198400 fun _ => 0#8) = (p, s', mem') ∧
      slabFree s' p poolEntries mem' = some (slabSucc, poolAllocator 4198400, mem'') := by
  have hp : 4198400 + poolSize < 2 ^ 32 := by decide
  have hslot := poolTable_distinct hp fun _ => 0#8
  have hfit := poolTable_hasFit hp fun _ => 0#8
  have halloc := slabAlloc_poolTable hp fun _ => 0#8
  obtain ⟨mem'', heq, _⟩ :=
    (slab_free_alloc hslot (by decide)).1 poolEntries _ _ _ (by decide) hfit halloc
    (Or.inl (by decide))
  exact ⟨_, _, _, mem'', halloc, heq⟩

end Free

end Longhorn.SlabCalls
