import Longhorn.KmallocRecords
import Longhorn.PageSafety

/-!
Runs of `kmalloc`, `kcalloc` and `kfree` together with the page allocator: both
take their memory from one free map.
-/

namespace Longhorn.HeapSafety

open Longhorn.Foundations.ByteMemory
open Longhorn.Foundations.Ranges
open Longhorn.Foundations.TransitionRuns
open Longhorn.AtomicSpinLock
open Longhorn.PackedBitmap
open Longhorn.SlabModel
open Longhorn.SlabTable
open Longhorn.SlabSafety
open Longhorn.KallocModel
open Longhorn.PageMap
open Longhorn.PageSafety
open Longhorn.KmallocRecords

/-- A result of `kmalloc`: its address and the size that was asked for. -/
structure Block where
  addr : Nat
  size : Nat
  deriving DecidableEq

/-- The slabs set aside for a block of the pool. -/
def Block.region (b : Block) : Region := ⟨b.addr, numSlabsFor b.size poolSlabSize⟩

/-- The page of a block that `kmalloc` took from `palloc`. -/
def Block.page (b : Block) : PageRange := ⟨b.addr, 1⟩

/-- The memory manager and what is handed out: pages, blocks that are pages, and
blocks of the pool. -/
structure HeapState where
  st : AllocState
  pages : List PageRange
  fallbacks : List Block
  blocks : List Block

inductive HeapOp where
  | pallocMult (cnt : Nat)
  | pfreeMult (r : PageRange)
  | kmalloc (size : Nat)
  | kcalloc (num size : Nat)
  | kfree (b : Block)
  | write (a : Nat) (b : BitVec 8)

/-- `kmalloc` does not even try the slab allocator. -/
def fallsBack (st : AllocState) (size : Nat) : Prop :=
  roundUp size st.slab.slabSize > st.slab.freeMemSize

instance (st : AllocState) (size : Nat) : Decidable (fallsBack st size) :=
  inferInstanceAs (Decidable (_ > _))

section Calls

variable {list size : Nat} {st : AllocState}

/-- With more bytes asked for than are counted as free, the request goes to `palloc`. -/
theorem kmalloc_of_fallsBack (hlock : st.mallocLock.val = 0) (hfall : fallsBack st size) :
    kmalloc list size st = palloc st := by
  obtain ⟨hacq, hrel⟩ := spinLock_section hlock
  unfold fallsBack at hfall
  simp only [kmalloc, hacq, ne_eq, not_true_eq_false, ↓reduceIte, hfall, hrel]

/-- No region was found. -/
theorem kmalloc_of_no_region (hlock : st.mallocLock.val = 0) (hfall : ¬ fallsBack st size)
    {s : SlabAllocator} {mem : Memory}
    (hregion : slabAlloc st.slab (numSlabsFor size st.slab.slabSize) st.mem = (0, s, mem)) :
    kmalloc list size st = some (0, { st with slab := s, mem := mem }) := by
  obtain ⟨hacq, hrel⟩ := spinLock_section hlock
  unfold fallsBack at hfall
  simp only [kmalloc, hacq, ne_eq, not_true_eq_false, ↓reduceIte, hfall, hrel, hregion]

/-- A region was found, but nothing for its record: the region is given back. -/
theorem kmalloc_of_no_record (hlock : st.mallocLock.val = 0) (hfall : ¬ fallsBack st size)
    {q : Nat} {s s' : SlabAllocator} {mem mem' : Memory} (hq : q ≠ 0)
    (hregion : slabAlloc st.slab (numSlabsFor size st.slab.slabSize) st.mem = (q, s, mem))
    (hrecord : slabAlloc s (numSlabsFor sizeofAllocation st.slab.slabSize) mem = (0, s', mem')) :
    kmalloc list size st = (slabFree s' q (numSlabsFor size st.slab.slabSize) mem').map
      fun r => (0, { st with slab := r.2.1, mem := r.2.2 }) := by
  obtain ⟨hacq, hrel⟩ := spinLock_section hlock
  unfold fallsBack at hfall
  simp only [kmalloc, hacq, ne_eq, not_true_eq_false, ↓reduceIte, hfall, hrel, hregion, hq, hrecord]

/-- Both were found. -/
theorem kmalloc_of_record (hlock : st.mallocLock.val = 0) (hfall : ¬ fallsBack st size)
    {q a : Nat} {s s' : SlabAllocator} {mem mem' : Memory} (hq : q ≠ 0) (ha : a ≠ 0)
    (hregion : slabAlloc st.slab (numSlabsFor size st.slab.slabSize) st.mem = (q, s, mem))
    (hrecord : slabAlloc s (numSlabsFor sizeofAllocation st.slab.slabSize) mem = (a, s', mem')) :
    kmalloc list size st = some (q, { st with
      slab := s'
      mem := recordAllocation list a q (numSlabsFor size st.slab.slabSize) mem' }) := by
  obtain ⟨hacq, hrel⟩ := spinLock_section hlock
  unfold fallsBack at hfall
  simp only [kmalloc, hacq, ne_eq, not_true_eq_false, ↓reduceIte, hfall, hrel, hregion, hq, hrecord,
    ha]

end Calls

/-- The state after `kmalloc` or `kcalloc` has returned `q` for a request of
`size` bytes. -/
def HeapState.given (t : HeapState) (size q : Nat) (st' : AllocState) : HeapState :=
  if q = 0 then { t with st := st' }
  else if fallsBack t.st size then { t with st := st', fallbacks := ⟨q, size⟩ :: t.fallbacks }
  else { t with st := st', blocks := ⟨q, size⟩ :: t.blocks }

/-- The bytes that the clients own. -/
def HeapState.Owns (t : HeapState) (a : Nat) : Prop :=
  (∃ r ∈ t.pages ++ t.fallbacks.map Block.page, r.Contains a) ∨
    ∃ r ∈ t.blocks.map Block.region, r.Contains a

/-- One call of a client, or one store into what it owns.  Calls for no pages hand out nothing
and give nothing back. -/
inductive HeapStep (allocations : Nat) : HeapState → HeapOp → HeapState → Prop
  | pallocMult {t : HeapState} {cnt q : Nat} {st' : AllocState} (hcnt : 0 < cnt)
      (h : pallocMult cnt t.st = some (q, st')) :
      HeapStep allocations t (.pallocMult cnt)
        { t with st := st', pages := if q = 0 then t.pages else ⟨q, cnt⟩ :: t.pages }
  | pallocNone {t : HeapState} {q : Nat} {st' : AllocState}
      (h : pallocMult 0 t.st = some (q, st')) :
      HeapStep allocations t (.pallocMult 0) { t with st := st' }
  | pfreeMult {t : HeapState} {r : PageRange} {code : Int} {st' : AllocState} (hr : r ∈ t.pages)
      (h : pfreeMult r.addr r.pages t.st = some (code, st')) :
      HeapStep allocations t (.pfreeMult r) { t with st := st', pages := t.pages.erase r }
  | pfreeNone {t : HeapState} {addr : Nat} {code : Int} {st' : AllocState}
      (h : pfreeMult addr 0 t.st = some (code, st')) :
      HeapStep allocations t (.pfreeMult ⟨addr, 0⟩) { t with st := st' }
  | kmalloc {t : HeapState} {size q : Nat} {st' : AllocState}
      (h : kmalloc allocations size t.st = some (q, st')) :
      HeapStep allocations t (.kmalloc size) (t.given size q st')
  | kcalloc {t : HeapState} {num size q : Nat} {st' : AllocState}
      (h : kcalloc allocations num size t.st = some (q, st')) :
      HeapStep allocations t (.kcalloc num size) (t.given (wrap (num * size)) q st')
  | kfreePage {t : HeapState} {b : Block} {code : Int} {st' : AllocState} (hb : b ∈ t.fallbacks)
      (h : kfree allocations b.addr t.st = some (code, st')) :
      HeapStep allocations t (.kfree b) { t with st := st', fallbacks := t.fallbacks.erase b }
  | kfreeBlock {t : HeapState} {b : Block} {code : Int} {st' : AllocState} (hb : b ∈ t.blocks)
      (h : kfree allocations b.addr t.st = some (code, st')) :
      HeapStep allocations t (.kfree b) { t with st := st', blocks := t.blocks.erase b }
  | write {t : HeapState} {a : Nat} {b : BitVec 8} (ha : t.Owns a) :
      HeapStep allocations t (.write a b)
        { t with st := { t.st with mem := writeByte t.st.mem a b } }

/-- The state after `init_alloc`, with nothing handed out but the pool. -/
def HeapInit (allocations memUpper : Nat) (mem : Memory) (t : HeapState) : Prop :=
  initAlloc allocations memUpper (bootState mem) = some t.st ∧ t.pages = [] ∧
    t.fallbacks = [] ∧ t.blocks = []

/-- The pages handed out, by `palloc_mult` or through `kmalloc`, do not overlap one
another or the pool; the other blocks lie in the pool and do not overlap either;
and a block is as long as the request up to the size of a page. -/
structure HeapSafe (pool : Nat) (t : HeapState) : Prop where
  pages : (t.pages ++ t.fallbacks.map Block.page).Pairwise fun r q =>
    ∀ a, r.Contains a → ¬ q.Contains a
  offPool : ∀ r ∈ t.pages ++ t.fallbacks.map Block.page, ∀ a, r.Contains a →
    a < pool ∨ pool + poolSize ≤ a
  inPool : ∀ b ∈ t.blocks, ∀ a, b.region.Contains a → pool ≤ a ∧ a < pool + poolSize
  blocks : (t.blocks.map Block.region).Pairwise fun r q => ∀ a, r.Contains a → ¬ q.Contains a
  covers : ∀ b ∈ t.blocks, b.size ≤ pgSize → b.size ≤ poolSlabSize * numSlabsFor b.size poolSlabSize

/-- No scan of `kmalloc` takes a run of entries that leaves the table: neither for
the request nor, behind it, for the record. -/
def ScansStayInTable (st : AllocState) (size : Nat) : Prop :=
  fallsBack st size ∨
    (ScanStaysInTable st.slab st.mem poolEntries (numSlabsFor size st.slab.slabSize) ∧
      (HasFit (fun k => slabIsFree st.slab st.mem k = true) 0 poolEntries
          (numSlabsFor size st.slab.slabSize) →
        numSlabsFor size st.slab.slabSize < freeEntries st.slab st.mem poolEntries ∨
          ∀ c, poolEntries ≤ c → c < totalNumSlabs st.slab → ¬ slabIsFree st.slab st.mem c = true))

/-- How many bytes `kcalloc` zeroes. -/
def zeroedBytes (n : Nat) : Nat := 8 * roundUp (n / poolSlabSize) poolSlabSize

/-- The condition on one call: the scans stay in the table, `kcalloc` zeroes no
more than it was given, and `pfree` rejects what `kfree` sends it from the pool. -/
def HeapGuard (t : HeapState) : HeapOp → Prop
  | .pallocMult _ => True
  | .pfreeMult _ => True
  | .kmalloc size => ScansStayInTable t.st size
  | .kcalloc num size =>
      ScansStayInTable t.st (wrap (num * size)) ∧
        (fallsBack t.st (wrap (num * size)) → zeroedBytes (wrap (num * size)) ≤ pgSize)
  | .kfree b => b ∈ t.blocks → ¬ pfreeAccepts t.st b.addr 1
  | .write _ _ => True

/-- The region of a record. -/
def recordRegion (a : Nat) : Region := ⟨a, 1⟩

/-- All pages handed out, the pool included. -/
def HeapState.allPages (pool : Nat) (t : HeapState) : List PageRange :=
  poolPages pool ++ (t.pages ++ t.fallbacks.map Block.page)

/-- The slabs handed out, to clients and for records. -/
def HeapState.poolState (t : HeapState) (records : List Nat) : PoolState :=
  ⟨t.st.slab, t.st.mem, t.blocks.map Block.region ++ records.map recordRegion⟩

/-- The invariant of the runs. -/
structure HeapInv (np pool list : Nat) (records : List Nat) (t : HeapState) : Prop where
  image : InImage list
  aligned : pool % pgSize = 0
  poolEnd : pool + poolSize < 2 ^ 32
  lock : t.st.mallocLock.val = 0
  page : PageInv np t.st (t.allPages pool)
  slab : PoolInv pool (t.poolState records)
  list : RecordList list t.st.mem records

/-- The part of the invariant about the pool: its slabs are those of the blocks and of
the records, and the records are on the list. -/
structure PoolRecords (pool list : Nat) (records : List Nat) (t : HeapState) : Prop where
  image : InImage list
  aligned : pool % pgSize = 0
  poolEnd : pool + poolSize < 2 ^ 32
  place : pool = 0 ∨ startAddr ≤ pool
  lock : t.st.mallocLock.val = 0
  slab : PoolInv pool (t.poolState records)
  list : RecordList list t.st.mem records

/-- The bytes of the pool and of the sentinels of `allocations`. -/
def HeapByte (pool list a : Nat) : Prop :=
  (pool ≤ a ∧ a < pool + poolSize) ∨ (list ≤ a ∧ a < list + 16)

section Inv

variable {np pool list : Nat} {records : List Nat} {t : HeapState}

theorem poolPage_mem {pool : Nat} (t : HeapState) (hpool : pool ≠ 0) :
    ⟨pool, 10⟩ ∈ t.allPages pool :=
  List.mem_append_left _ (by simp [poolPages, hpool])

theorem pool_contains {pool a : Nat} (hlo : pool ≤ a) (hhi : a < pool + poolSize) :
    PageRange.Contains ⟨pool, 10⟩ a := by
  unfold poolSize at hhi
  simp only [PageRange.Contains, pgSize]
  omega

/-- The pool is below 1 MB or behind the pages of the map. -/
theorem HeapInv.poolPlace (h : HeapInv np pool list records t) : pool = 0 ∨ startAddr ≤ pool := by
  rcases eq_or_ne pool 0 with hpool | hpool
  · exact Or.inl hpool
  · refine Or.inr (h.page.safe.inMemory _ (poolPage_mem t hpool) pool ?_).1
    exact pool_contains le_rfl (by unfold poolSize; omega)

theorem HeapInv.poolRecords (h : HeapInv np pool list records t) :
    PoolRecords pool list records t :=
  ⟨h.image, h.aligned, h.poolEnd, h.poolPlace, h.lock, h.slab, h.list⟩

theorem HeapInv.heapByte_offMap (h : HeapInv np pool list records t) {a : Nat}
    (ha : HeapByte pool list a) : ¬ MapByte np a := by
  have himage := h.image
  unfold InImage at himage
  intro hmap
  have hmap' := hmap.1
  unfold startAddr at *
  rcases ha with ⟨hlo, hhi⟩ | ⟨hlo, hhi⟩
  · rcases eq_or_ne pool 0 with rfl | hpool
    · unfold poolSize at hhi
      omega
    · exact h.page.safe.offMap _ (poolPage_mem t hpool) a a (pool_contains hlo hhi) hmap rfl
  · omega

theorem PoolRecords.pool_offImage (h : PoolRecords pool list records t) {a : Nat} (hlo : pool ≤ a)
    (hhi : a < pool + poolSize) : a < list ∨ list + 16 ≤ a := by
  have himage := h.image
  have hplace := h.place
  unfold InImage startAddr poolSize at *
  omega

/-- Pages that are handed out are not bytes of the pool or of the sentinels. -/
theorem HeapInv.page_offHeap (h : HeapInv np pool list records t) {r : PageRange}
    (hr : r ∈ t.pages ++ t.fallbacks.map Block.page) {a : Nat} (ha : r.Contains a) :
    ¬ HeapByte pool list a := by
  have hmem : r ∈ t.allPages pool := List.mem_append_right _ hr
  have hlow := (h.page.safe.inMemory r hmem a ha).1
  have himage := h.image
  unfold InImage at himage
  rintro (⟨hlo, hhi⟩ | ⟨hlo, hhi⟩)
  · rcases eq_or_ne pool 0 with rfl | hpool
    · unfold startAddr at hlow
      unfold poolSize at hhi
      omega
    · have hdisj := (List.pairwise_append.mp h.page.safe.disjoint).2.2
      exact hdisj ⟨pool, 10⟩ (by simp [poolPages, hpool]) r hr a (pool_contains hlo hhi) ha
  · omega

theorem PoolRecords.region_inPool (h : PoolRecords pool list records t) {r : Region}
    (hr : r ∈ t.blocks.map Block.region ++ records.map recordRegion) {a : Nat}
    (ha : r.Contains a) : pool + poolDataOffset ≤ a ∧ a < pool + poolSize :=
  h.slab.inPool hr ha

theorem HeapInv.safe (h : HeapInv np pool list records t) : HeapSafe pool t := by
  have hpages := (List.pairwise_append.mp h.page.safe.disjoint).2.1
  have hblocks := (List.pairwise_append.mp h.slab.safe.disjoint).1
  refine ⟨hpages, ?_, ?_, hblocks, ?_⟩
  · intro r hr a ha
    have := h.page_offHeap hr ha
    unfold HeapByte at this
    omega
  · intro b hb a ha
    have := h.poolRecords.region_inPool (List.mem_append_left _ (List.mem_map_of_mem hb)) ha
    omega
  · intro b _ hsize
    unfold numSlabsFor roundUp poolSlabSize pgSize wrapSub wrap at *
    split <;> omega

/-- The records and their list depend only on the bytes of the pool and of the
sentinels. -/
theorem PoolRecords.list_congr (h : PoolRecords pool list records t) {mem' : Memory}
    (hmem : AgreeOn (fun a => (list ≤ a ∧ a < list + 16) ∨
      ∃ r ∈ records.map recordRegion, r.Contains a) t.st.mem mem') :
    RecordList list mem' records := by
  refine h.list.congr (hmem.readPtr ?_) (hmem.readPtr ?_) fun r hr => hmem.readPtr ?_
  · exact fun c h1 h2 => Or.inl ⟨h1, by omega⟩
  · exact fun c h1 h2 => Or.inl ⟨by omega, by omega⟩
  · intro c h1 h2
    refine Or.inr ⟨recordRegion r, List.mem_map_of_mem hr, ?_⟩
    simp only [nodeOf, offsetofNode] at h1 h2
    simp only [recordRegion, Region.Contains, poolSlabSize]
    omega

theorem PoolRecords.list_congr_heap (h : PoolRecords pool list records t) {mem' : Memory}
    (hmem : AgreeOn (HeapByte pool list) t.st.mem mem') : RecordList list mem' records := by
  refine h.list_congr (hmem.mono ?_)
  rintro a (himage | ⟨r, hr, ha⟩)
  · exact Or.inr himage
  · have := h.region_inPool (List.mem_append_right _ hr) ha
    exact Or.inl ⟨by omega, this.2⟩

theorem tableByte_heapByte {pool list a : Nat} (ha : TableByte pool a) : HeapByte pool list a := by
  simp only [TableByte, sizeofSlab, poolEntries] at ha
  simp only [HeapByte, poolSize]
  omega

/-- What changes neither the slab allocator nor a byte of the pool or of the sentinels
keeps the pool and its records. -/
theorem PoolRecords.withPages (h : PoolRecords pool list records t) {st' : AllocState}
    {pages : List PageRange} {fallbacks : List Block} (hlock : st'.mallocLock = t.st.mallocLock)
    (hslab : st'.slab = t.st.slab) (hmem : AgreeOn (HeapByte pool list) t.st.mem st'.mem) :
    PoolRecords pool list records ⟨st', pages, fallbacks, t.blocks⟩ := by
  refine ⟨h.image, h.aligned, h.poolEnd, h.place, ?_, ?_, h.list_congr_heap hmem⟩
  · rw [hlock]
    exact h.lock
  · have hcongr := h.slab.congr (hmem.mono fun a ha => tableByte_heapByte ha)
    simpa only [HeapState.poolState, hslab] using hcongr

/-- The two parts of the invariant. -/
theorem PoolRecords.heapInv (h : PoolRecords pool list records t)
    (hpage : PageInv np t.st (t.allPages pool)) : HeapInv np pool list records t :=
  ⟨h.image, h.aligned, h.poolEnd, h.lock, hpage, h.slab, h.list⟩

/-- What changes the map and the pages only keeps the pool and its records. -/
theorem HeapInv.withPages (h : HeapInv np pool list records t) {st' : AllocState}
    {pages : List PageRange} {fallbacks : List Block} (hlock : st'.mallocLock = t.st.mallocLock)
    (hslab : st'.slab = t.st.slab) (hmem : AgreeOn (HeapByte pool list) t.st.mem st'.mem)
    (hpage : PageInv np st' (poolPages pool ++ (pages ++ fallbacks.map Block.page))) :
    HeapInv np pool list records ⟨st', pages, fallbacks, t.blocks⟩ :=
  (h.poolRecords.withPages hlock hslab hmem).heapInv hpage

/-- A store into pages that are handed out. -/
theorem HeapInv.storePage (h : HeapInv np pool list records t) {r : PageRange}
    (hr : r ∈ t.pages ++ t.fallbacks.map Block.page) {mem' : Memory}
    (hmem : AgreeOn (fun a => ¬ r.Contains a) t.st.mem mem') :
    HeapInv np pool list records { t with st := { t.st with mem := mem' } } := by
  refine h.withPages rfl rfl (hmem.mono fun a ha hc => h.page_offHeap hr hc ha) ?_
  refine h.page.congr rfl h.page.lock (hmem.mono fun a ha hc => ?_)
  exact h.page.safe.offMap r (List.mem_append_right _ hr) a a hc ha rfl

/-- A store into a block of the pool. -/
theorem PoolRecords.storeBlock (h : PoolRecords pool list records t) {r : Region}
    (hr : r ∈ t.blocks.map Block.region) {mem' : Memory}
    (hmem : AgreeOn (fun a => ¬ r.Contains a) t.st.mem mem') :
    PoolRecords pool list records { t with st := { t.st with mem := mem' } } := by
  have hr' := List.mem_append_left (records.map recordRegion) hr
  have hin : ∀ a, r.Contains a → pool + poolDataOffset ≤ a ∧ a < pool + poolSize :=
    fun a ha => h.region_inPool hr' ha
  refine ⟨h.image, h.aligned, h.poolEnd, h.place, h.lock, ?_, ?_⟩
  · refine h.slab.congr (hmem.mono fun a ha hc => ?_)
    have := hin a hc
    unfold TableByte sizeofSlab poolEntries at ha
    unfold poolDataOffset at this
    omega
  · refine h.list_congr (hmem.mono ?_)
    rintro a (himage | ⟨q, hq, haq⟩) hc
    · have hoff := h.pool_offImage (Nat.le_of_add_right_le (hin a hc).1) (hin a hc).2
      omega
    · exact (List.pairwise_append.mp h.slab.safe.disjoint).2.2 r hr q hq a hc haq

theorem HeapInv.storeBlock (h : HeapInv np pool list records t) {r : Region}
    (hr : r ∈ t.blocks.map Block.region) {mem' : Memory}
    (hmem : AgreeOn (fun a => ¬ r.Contains a) t.st.mem mem') :
    HeapInv np pool list records { t with st := { t.st with mem := mem' } } := by
  refine (h.poolRecords.storeBlock hr hmem).heapInv ?_
  refine h.page.congr rfl h.page.lock (hmem.mono fun a ha hc => ?_)
  have hin := h.poolRecords.region_inPool (List.mem_append_left (records.map recordRegion) hr) hc
  exact h.heapByte_offMap (Or.inl ⟨by omega, hin.2⟩) ha

theorem HeapInv.write (h : HeapInv np pool list records t) {a : Nat} (ha : t.Owns a)
    (b : BitVec 8) :
    HeapInv np pool list records { t with st := { t.st with mem := writeByte t.st.mem a b } } := by
  rcases ha with ⟨r, hr, ha⟩ | ⟨r, hr, ha⟩
  · refine h.storePage hr fun c hc => writeByte_of_ne ?_ t.st.mem b
    rintro rfl
    exact hc ha
  · refine h.storeBlock hr fun c hc => writeByte_of_ne ?_ t.st.mem b
    rintro rfl
    exact hc ha

/-- A change of the memory outside the pool and the sentinels is none inside. -/
theorem HeapInv.agreeOn_heap (h : HeapInv np pool list records t) {mem' : Memory}
    (hmem : AgreeOn (fun a => ¬ MapByte np a) t.st.mem mem') :
    AgreeOn (HeapByte pool list) t.st.mem mem' :=
  hmem.mono fun _ ha => h.heapByte_offMap ha

theorem HeapInv.palloc (h : HeapInv np pool list records t) {cnt : Nat} (hcnt : 0 < cnt) :
    ∃ q st', pallocMult cnt t.st = some (q, st') ∧ st'.slab = t.st.slab ∧
      st'.mallocLock = t.st.mallocLock ∧ AgreeOn (HeapByte pool list) t.st.mem st'.mem ∧
      PageInv np st' (if q = 0 then t.allPages pool else ⟨q, cnt⟩ :: t.allPages pool) := by
  rcases h.page.alloc hcnt with ⟨k, _, hend, heq, hinv⟩ | ⟨_, heq⟩
  · refine ⟨_, _, heq, rfl, rfl, ?_, by rwa [if_neg (pageAddr_ne_zero k)]⟩
    exact h.agreeOn_heap fun a ha => setPages_of_outside h.page.fits h.page.map hend ha true
  · exact ⟨0, _, heq, rfl, rfl, AgreeOn.refl _ _, h.page⟩

theorem HeapInv.pallocMult (h : HeapInv np pool list records t) {cnt q : Nat} {st' : AllocState}
    (hcnt : 0 < cnt) (heq : KallocModel.pallocMult cnt t.st = some (q, st')) :
    HeapInv np pool list records
      { t with st := st', pages := if q = 0 then t.pages else ⟨q, cnt⟩ :: t.pages } := by
  obtain ⟨q', st'', heq', hslab, hlock, hmem, hinv⟩ := h.palloc hcnt
  rw [heq', Option.some_inj, Prod.mk.injEq] at heq
  obtain ⟨rfl, rfl⟩ := heq
  refine h.withPages hlock hslab hmem ?_
  split at hinv
  · next hq => rwa [if_pos hq]
  · next hq =>
      rw [if_neg hq]
      exact hinv.perm List.perm_middle

theorem HeapInv.pfree (h : HeapInv np pool list records t) {r : PageRange}
    (hr : r ∈ t.pages ++ t.fallbacks.map Block.page) {code : Int} {st' : AllocState}
    (heq : pfreeMult r.addr r.pages t.st = some (code, st')) {pages : List PageRange}
    {fallbacks : List Block}
    (hperm : (t.pages ++ t.fallbacks.map Block.page).Perm
      (r :: (pages ++ fallbacks.map Block.page))) :
    HeapInv np pool list records ⟨st', pages, fallbacks, t.blocks⟩ := by
  obtain ⟨code', mem', heq', hinv, hmem⟩ := h.page.free (List.mem_append_right _ hr)
  rw [heq', Option.some_inj, Prod.mk.injEq] at heq
  obtain ⟨_, rfl⟩ := heq
  refine h.withPages rfl rfl (h.agreeOn_heap hmem) (hinv.perm ?_)
  have hall :
      (t.allPages pool).Perm (r :: (poolPages pool ++ (pages ++ fallbacks.map Block.page))) :=
    (hperm.append_left _).trans List.perm_middle
  refine List.Perm.cons_inv (a := r) ?_
  exact hall.symm.trans (List.perm_cons_erase (List.mem_append_right _ hr))

theorem numSlabsFor_pos (size slabSize : Nat) : 0 < numSlabsFor size slabSize := by
  unfold numSlabsFor
  split <;> omega

theorem PoolRecords.slabSize_eq (h : PoolRecords pool list records t) :
    t.st.slab.slabSize = poolSlabSize := by
  have hparams : t.st.slab = ⟨pool, poolSize, t.st.slab.freeMemSize, poolSlabSize, pool⟩ :=
    h.slab.params
  rw [hparams]

theorem exists_fit_of_freeEntries_pos {s : SlabAllocator} {mem : Memory} {count : Nat}
    (h : 0 < freeEntries s mem count) :
    ∃ c, c < count ∧ AllOn (fun k => slabIsFree s mem k = true) ⟨c, 1⟩ := by
  by_contra hnone
  have hzero : freeEntries s mem count = 0 := by
    refine Nat.count_iff_forall_not.mpr fun c hc hfree => hnone ⟨c, hc, ?_⟩
    rintro i ⟨h1, h2⟩
    obtain rfl : i = c := by
      simp only at h1 h2
      omega
    exact hfree
  omega

/-- After the slabs of the request have been taken, the scan for the record stays
in the table as well. -/
theorem scan_record {p n k : Nat} {u : PoolState} {s' : SlabAllocator} {mem' : Memory}
    (h : PoolInv p u) (hp : p + poolSize < 2 ^ 32)
    (hinv : PoolInv p ⟨s', mem', regionOf p ⟨k, n⟩ :: u.live⟩)
    (hout : AgreeOn (fun a => ¬ TableByte p a) u.mem mem')
    (hcount : freeEntries s' mem' poolEntries + n = freeEntries u.s u.mem poolEntries)
    (hguard : n < freeEntries u.s u.mem poolEntries ∨
      ∀ c, poolEntries ≤ c → c < totalNumSlabs u.s → ¬ slabIsFree u.s u.mem c = true) :
    ScanStaysInTable s' mem' poolEntries 1 := by
  by_cases hzero : freeEntries s' mem' poolEntries = 0
  · refine Or.inr fun c hc hall => ?_
    have hfree : slabIsFree s' mem' c = true := hall c ⟨le_rfl, Nat.lt_succ_self c⟩
    rcases Nat.lt_or_ge c poolEntries with hin | hbeyond
    · exact (Nat.count_iff_forall_not.mp hzero) c hin hfree
    · have hbeyond' := (hguard.resolve_left (by omega)) c hbeyond
      rw [hinv.totalNumSlabs_eq] at hc
      refine hbeyond' (by rw [h.totalNumSlabs_eq]; exact hc) ?_
      have hflag : flagPtr s' c = p + 8 * c + 4 ∧ flagPtr u.s c = p + 8 * c + 4 := by
        have hdata : s'.data = p := hinv.data_eq
        unfold poolSize at hp
        simp only [flagPtr, hdata, h.data_eq, sizeofSlab]
        exact ⟨wrap_of_lt (by omega), wrap_of_lt (by omega)⟩
      rw [slabIsFree, hflag.1, hout] at hfree
      · rw [slabIsFree, hflag.2]
        exact hfree
      · unfold TableByte sizeofSlab poolEntries
        unfold poolEntries at hbeyond
        omega
  · obtain ⟨c, hc, hall⟩ := exists_fit_of_freeEntries_pos (Nat.pos_of_ne_zero hzero)
    exact Or.inl ⟨c, Nat.zero_le c, hc, hall⟩

/-- The bytes of a region of the pool that starts at `a`. -/
theorem PoolRecords.record_place (h : PoolRecords pool list records t) {a : Nat}
    (hlo : pool + poolDataOffset ≤ a) (hhi : a + poolSlabSize ≤ pool + poolSize) :
    a + poolSlabSize < 2 ^ 32 ∧ (a + poolSlabSize ≤ list ∨ list + 16 ≤ a) := by
  have hend := h.poolEnd
  have himage := h.image
  have hplace := h.place
  unfold InImage startAddr poolSize poolSlabSize poolDataOffset at *
  omega

/-- The bytes that a new record changes, all of them in the pool or the sentinels:
its own, those of the head, and the back link of the first node. -/
structure RecordFits (pool list : Nat) (records : List Nat) (a : Nat) : Prop where
  room : RecordRoom list a (firstNode list records)
  heap : ∀ c, RecordWrite list a (firstNode list records) c → HeapByte pool list c
  table : ∀ c, RecordWrite list a (firstNode list records) c → ¬ TableByte pool c
  old : ∀ r ∈ records, ∀ c, nodeOf r ≤ c → c < nodeOf r + 4 →
    ¬ RecordWrite list a (firstNode list records) c
  tail : ∀ c, list + 8 ≤ c → c < list + 12 → ¬ RecordWrite list a (firstNode list records) c

/-- A region of one slab in the pool, at a slab boundary. -/
theorem PoolRecords.slab_place (h : PoolRecords pool list records t) {live : List Region}
    {s' : SlabAllocator} {mem' : Memory} (hinv : PoolInv pool ⟨s', mem', live⟩) {a : Nat}
    (ha : recordRegion a ∈ live) :
    a % poolSlabSize = 0 ∧ pool + poolDataOffset ≤ a ∧ a + poolSlabSize ≤ pool + poolSize ∧
      a + poolSlabSize < 2 ^ 32 ∧ (a + poolSlabSize ≤ list ∨ list + 16 ≤ a) := by
  obtain ⟨k, hk, _⟩ := hinv.exists_slot ha
  have hlo := hinv.inPool ha (a := a) ⟨le_rfl, by simp only [recordRegion, poolSlabSize]; omega⟩
  have hhi := hinv.inPool ha (a := a + 63) ⟨Nat.le_add_right _ _, by
    simp only [recordRegion, poolSlabSize]
    omega⟩
  have hplace := h.record_place (a := a) hlo.1 (by unfold poolSlabSize; omega)
  refine ⟨?_, hlo.1, by unfold poolSlabSize; omega, hplace⟩
  have haligned := h.aligned
  change a = poolSlot pool k at hk
  unfold poolSlot poolDataOffset poolSlabSize pgSize at *
  omega

theorem PoolRecords.recordFits (h : PoolRecords pool list records t) {live : List Region}
    {s' : SlabAllocator} {mem' : Memory} {a : Nat}
    (hinv : PoolInv pool ⟨s', mem', recordRegion a :: live⟩)
    (hrecords : ∀ r ∈ records, recordRegion r ∈ live) : RecordFits pool list records a := by
  obtain ⟨_, halo, hahi, haend, haout⟩ := h.slab_place hinv List.mem_cons_self
  have hold : ∀ r ∈ records, r % poolSlabSize = 0 ∧ pool + poolDataOffset ≤ r ∧
      r + poolSlabSize ≤ pool + poolSize ∧ r + poolSlabSize < 2 ^ 32 ∧
      (r + poolSlabSize ≤ list ∨ list + 16 ≤ r) :=
    fun r hr => h.slab_place hinv (List.mem_cons_of_mem _ (hrecords r hr))
  have hapart : ∀ r ∈ records, ∀ c, (recordRegion a).Contains c → ¬ (recordRegion r).Contains c :=
    fun r hr => (List.pairwise_cons.mp hinv.safe.disjoint).1 _ (hrecords r hr)
  have himage := h.image
  have hoff : ∀ c, pool ≤ c → c < pool + poolSize → c < list ∨ list + 16 ≤ c :=
    fun c => h.pool_offImage
  simp only [recordRegion, Region.Contains] at hapart
  unfold InImage startAddr at himage
  unfold poolSlabSize poolDataOffset poolSize at *
  cases hrec : records with
  | nil =>
      constructor
      · constructor
        all_goals
          simp only [firstNode, sizeofAllocation]
          omega
      all_goals
        simp only [firstNode, RecordWrite, HeapByte, TableByte, sizeofAllocation, sizeofSlab,
          poolEntries, poolSize, List.not_mem_nil, false_implies, implies_true]
      all_goals
        intro c
        have := hoff c
        omega
  | cons r0 rest =>
      rw [hrec] at hold hapart
      obtain ⟨hr0a, hr0lo, hr0hi, hr0end, hr0out⟩ := hold r0 List.mem_cons_self
      constructor
      · constructor
        all_goals
          simp only [firstNode, nodeOf, offsetofNode, sizeofAllocation]
          omega
      all_goals
        simp only [firstNode, nodeOf, offsetofNode, RecordWrite, HeapByte, TableByte,
          sizeofAllocation, sizeofSlab, poolEntries, poolSize]
      · intro c
        omega
      · intro c
        have := hoff c
        omega
      · intro r hr c h1 h2
        obtain ⟨hra, hrlo, hrhi, hrend, hrout⟩ := hold r hr
        have hd := hapart r hr c
        omega
      · intro c
        omega

theorem PoolRecords.withSlab (h : PoolRecords pool list records t) {s' : SlabAllocator}
    {mem' : Memory} {blocks' : List Block} {records' : List Nat}
    (hslab : PoolInv pool
      ⟨s', mem', blocks'.map Block.region ++ records'.map recordRegion⟩)
    (hlist : RecordList list mem' records') :
    PoolRecords pool list records'
      ⟨{ t.st with slab := s', mem := mem' }, t.pages, t.fallbacks, blocks'⟩ :=
  ⟨h.image, h.aligned, h.poolEnd, h.place, h.lock, hslab, hlist⟩

/-- What changes the pool and its records only keeps the pages. -/
theorem HeapInv.withSlab (h : HeapInv np pool list records t) {s' : SlabAllocator}
    {mem' : Memory} {u : HeapState} {records' : List Nat}
    (hrecords : PoolRecords pool list records' u)
    (hst : u.st = { t.st with slab := s', mem := mem' })
    (hpages : u.pages = t.pages ∧ u.fallbacks = t.fallbacks)
    (hmem : AgreeOn (fun a => ¬ HeapByte pool list a) t.st.mem mem') :
    HeapInv np pool list records' u := by
  refine hrecords.heapInv ?_
  rw [HeapState.allPages, hpages.1, hpages.2, hst]
  exact h.page.congr rfl h.page.lock (hmem.mono fun a ha hheap => h.heapByte_offMap hheap ha)

/-- The list of records does not see changes of the table. -/
theorem PoolRecords.list_congr_table (h : PoolRecords pool list records t) {mem' : Memory}
    (hmem : AgreeOn (fun a => ¬ TableByte pool a) t.st.mem mem') :
    RecordList list mem' records := by
  refine h.list_congr (hmem.mono ?_)
  rintro a (himage | ⟨r, hr, ha⟩) htable
  · have hheap : HeapByte pool list a := tableByte_heapByte htable
    rcases hheap with ⟨hlo, hhi⟩ | himage'
    · have := h.pool_offImage hlo hhi
      omega
    · have hoff := h.pool_offImage htable.1 (by
        unfold TableByte sizeofSlab poolEntries at htable
        unfold poolSize
        omega)
      omega
  · have hin := h.region_inPool (List.mem_append_right _ hr) ha
    unfold TableByte sizeofSlab poolEntries at htable
    unfold poolDataOffset at hin
    omega

/-- A request that does not fall back keeps the pages. -/
theorem given_pages {size : Nat} (hfall : ¬ fallsBack t.st size) (q : Nat) (st' : AllocState) :
    (t.given size q st').pages = t.pages ∧ (t.given size q st').fallbacks = t.fallbacks := by
  rw [HeapState.given, if_neg hfall]
  split
  · exact ⟨rfl, rfl⟩
  · exact ⟨rfl, rfl⟩

@[simp] theorem given_st (t : HeapState) (size q : Nat) (st' : AllocState) :
    (t.given size q st').st = st' := by
  unfold HeapState.given
  split
  · rfl
  · split
    · rfl
    · rfl

/-- With slabs for the request taken and a slab left for its record, `kmalloc` returns. -/
theorem PoolRecords.kmalloc_takes (h : PoolRecords pool list records t) {size k : Nat}
    {s' : SlabAllocator} {mem' : Memory} (hfall : ¬ fallsBack t.st size)
    (heq1 : slabAlloc t.st.slab (numSlabsFor size poolSlabSize) t.st.mem =
      (poolSlot pool k, s', mem'))
    (hinv : PoolInv pool
      ⟨s', mem', regionOf pool ⟨k, numSlabsFor size poolSlabSize⟩ :: (t.poolState records).live⟩)
    (hout : AgreeOn (fun a => ¬ TableByte pool a) t.st.mem mem')
    (hfit : HasFit (fun k => slabIsFree s' mem' k = true) 0 poolEntries 1) :
    ∃ s'' mem'' a,
      KallocModel.kmalloc list size t.st =
        some (poolSlot pool k, { t.st with slab := s'', mem := mem'' }) ∧
      PoolRecords pool list (a :: records)
        (t.given size (poolSlot pool k) { t.st with slab := s'', mem := mem'' }) ∧
      RecordFits pool list records a ∧
      AgreeOn (fun c => ¬ TableByte pool c ∧ ¬ RecordWrite list a (firstNode list records) c)
        t.st.mem mem'' ∧
      freeEntries s'' mem'' poolEntries + 1 = freeEntries s' mem' poolEntries := by
  have hone : numSlabsFor sizeofAllocation poolSlabSize = 1 := by decide
  have hsize := h.slabSize_eq
  obtain ⟨k', s'', mem'', heq', hinv', _, hout', hcount⟩ := hinv.alloc Nat.one_pos hfit
  have heq2 : slabAlloc s' 1 mem' = (poolSlot pool k', s'', mem'') := heq'
  have hold : ∀ r ∈ records, recordRegion r ∈
      regionOf pool ⟨k, numSlabsFor size poolSlabSize⟩ :: (t.poolState records).live :=
    fun r hr => List.mem_cons_of_mem _ (List.mem_append_right _ (List.mem_map_of_mem hr))
  have hfits : RecordFits pool list records (poolSlot pool k') := h.recordFits hinv' hold
  have hlist := h.list_congr_table (hout.trans hout')
  have hwrite : AgreeOn (fun c => ¬ RecordWrite list (poolSlot pool k') (firstNode list records) c)
      mem'' (recordAllocation list (poolSlot pool k') (poolSlot pool k)
        (numSlabsFor size poolSlabSize) mem'') :=
    fun c hc => recordAllocation_of_outside hfits.room hlist.head _ _ hc
  have hlive := hinv'.congr (hwrite.mono fun a ha hw => hfits.table a hw ha)
  refine ⟨s'', recordAllocation list (poolSlot pool k') (poolSlot pool k)
    (numSlabsFor size poolSlabSize) mem'', poolSlot pool k', ?_, ?_, hfits, ?_, ?_⟩
  · rw [← hsize] at heq1 hone ⊢
    rw [← hone] at heq2
    exact kmalloc_of_record h.lock hfall (poolSlot_ne_zero _ _) (poolSlot_ne_zero _ _) heq1 heq2
  · rw [HeapState.given, if_neg (poolSlot_ne_zero pool k), if_neg hfall]
    refine h.withSlab (hlive.perm ?_) (hlist.record hfits.room _ _ hfits.old hfits.tail)
    rw [List.map_cons, List.map_cons, List.cons_append]
    exact (List.perm_middle.cons _).trans (List.Perm.swap _ _ _)
  · exact ((hout.trans hout').mono fun c hc => hc.1).trans (hwrite.mono fun c hc => hc.2)
  · -- the record is stored outside of the table
    have hpos : 0 < poolSlabSize := by decide
    have hkept := Nat.eq_of_mul_eq_mul_left hpos (hinv'.freeMem.symm.trans hlive.freeMem)
    rw [← hkept]
    exact hcount

/-- With no slab left for the record, the slabs for the request are given back. -/
theorem PoolRecords.kmalloc_gives_back (h : PoolRecords pool list records t) {size k : Nat}
    {s' : SlabAllocator} {mem' : Memory} (hfall : ¬ fallsBack t.st size)
    (heq1 : slabAlloc t.st.slab (numSlabsFor size poolSlabSize) t.st.mem =
      (poolSlot pool k, s', mem'))
    (hinv : PoolInv pool
      ⟨s', mem', regionOf pool ⟨k, numSlabsFor size poolSlabSize⟩ :: (t.poolState records).live⟩)
    (hout : AgreeOn (fun a => ¬ TableByte pool a) t.st.mem mem')
    (hnone : ∀ c, c < totalNumSlabs s' → ¬ AllOn (fun k => slabIsFree s' mem' k = true) ⟨c, 1⟩) :
    ∃ s'' mem'', KallocModel.kmalloc list size t.st =
      some (0, { t.st with slab := s'', mem := mem'' }) ∧
      PoolRecords pool list records (t.given size 0 { t.st with slab := s'', mem := mem'' }) ∧
      AgreeOn (fun a => ¬ HeapByte pool list a) t.st.mem mem'' := by
  have hone : numSlabsFor sizeofAllocation poolSlabSize = 1 := by decide
  have hsize := h.slabSize_eq
  obtain ⟨s'', mem'', hfree, hinv', hout'⟩ := hinv.free List.mem_cons_self
  rw [List.erase_cons_head] at hinv'
  have hfree' : slabFree s' (poolSlot pool k) (numSlabsFor size poolSlabSize) mem' =
      some (slabSucc, s'', mem'') := hfree
  have hout'' := hout.trans hout'
  refine ⟨s'', mem'', ?_, ?_, hout''.mono fun a ha htable => ha (tableByte_heapByte htable)⟩
  · have hrecord := slabAlloc_of_no_run Nat.one_pos hnone
    rw [← hsize] at heq1 hone hfree'
    rw [← hone] at hrecord
    rw [kmalloc_of_no_record h.lock hfall (poolSlot_ne_zero _ _) heq1 hrecord, hfree']
    rfl
  · rw [HeapState.given, if_pos rfl]
    exact h.withSlab hinv' (h.list_congr_table hout'')

/-- The path of `kmalloc` on which the slab allocator has a run for the request. -/
theorem PoolRecords.kmalloc_of_fit (h : PoolRecords pool list records t) {size : Nat}
    (hfall : ¬ fallsBack t.st size) (hguard : ScansStayInTable t.st size)
    (hfit : HasFit (fun k => slabIsFree t.st.slab t.st.mem k = true) 0 poolEntries
      (numSlabsFor size t.st.slab.slabSize)) :
    ∃ q s' mem' records',
      KallocModel.kmalloc list size t.st = some (q, { t.st with slab := s', mem := mem' }) ∧
      PoolRecords pool list records' (t.given size q { t.st with slab := s', mem := mem' }) ∧
      AgreeOn (fun a => ¬ HeapByte pool list a) t.st.mem mem' ∧
      (numSlabsFor size poolSlabSize < freeEntries t.st.slab t.st.mem poolEntries →
        ∃ k, IsFirstFit (fun k => slabIsFree t.st.slab t.st.mem k = true) 0 poolEntries
          (numSlabsFor size poolSlabSize) k ∧ q = poolSlot pool k) := by
  have hsize := h.slabSize_eq
  have hmore := (hguard.resolve_left hfall).2 hfit
  rw [hsize] at hfit hmore
  obtain ⟨k, s', mem', heq, hinv, hfirst, hout, hcount⟩ :=
    h.slab.alloc (numSlabsFor_pos _ _) hfit
  have heq1 : slabAlloc t.st.slab (numSlabsFor size poolSlabSize) t.st.mem =
      (poolSlot pool k, s', mem') := heq
  rcases scan_record h.slab h.poolEnd hinv hout hcount hmore with hfit' | hnone
  · obtain ⟨s'', mem'', a, hkmalloc, hrecords, hfits, hagree, _⟩ :=
      h.kmalloc_takes hfall heq1 hinv hout hfit'
    refine ⟨poolSlot pool k, s'', mem'', a :: records, hkmalloc, hrecords, hagree.mono ?_,
      fun _ => ⟨k, hfirst, rfl⟩⟩
    exact fun c hc => ⟨fun htable => hc (tableByte_heapByte htable), fun hw => hc (hfits.heap c hw)⟩
  · obtain ⟨s'', mem'', hkmalloc, hrecords, hagree⟩ :=
      h.kmalloc_gives_back hfall heq1 hinv hout hnone
    refine ⟨0, s'', mem'', records, hkmalloc, hrecords, hagree, fun hlt => ?_⟩
    have hpos : 0 < freeEntries s' mem' poolEntries := by
      have hlt' : numSlabsFor size poolSlabSize < freeEntries (t.poolState records).s
          (t.poolState records).mem poolEntries := hlt
      omega
    obtain ⟨c, hc, hall⟩ := exists_fit_of_freeEntries_pos hpos
    have hscanned := hinv.totalNumSlabs_eq
    unfold poolEntries at hc
    exact absurd hall (hnone c (by rw [hscanned]; omega))

theorem HeapInv.kmalloc_of_fit (h : HeapInv np pool list records t) {size : Nat}
    (hfall : ¬ fallsBack t.st size) (hguard : ScansStayInTable t.st size)
    (hfit : HasFit (fun k => slabIsFree t.st.slab t.st.mem k = true) 0 poolEntries
      (numSlabsFor size t.st.slab.slabSize)) :
    ∃ q st' records', KallocModel.kmalloc list size t.st = some (q, st') ∧
      HeapInv np pool list records' (t.given size q st') ∧
      (numSlabsFor size poolSlabSize < freeEntries t.st.slab t.st.mem poolEntries →
        ∃ k, IsFirstFit (fun k => slabIsFree t.st.slab t.st.mem k = true) 0 poolEntries
          (numSlabsFor size poolSlabSize) k ∧ q = poolSlot pool k) := by
  obtain ⟨q, s', mem', records', heq, hrecords, hmem, hfirst⟩ :=
    h.poolRecords.kmalloc_of_fit hfall hguard hfit
  exact ⟨q, _, records', heq, h.withSlab hrecords (given_st _ _ _ _) (given_pages hfall _ _) hmem,
    hfirst⟩

/-- `kmalloc` returns, and what it returns is a block of its own. -/
theorem HeapInv.kmalloc (h : HeapInv np pool list records t) {size : Nat}
    (hguard : ScansStayInTable t.st size) :
    ∃ q st' records', KallocModel.kmalloc list size t.st = some (q, st') ∧
      HeapInv np pool list records' (t.given size q st') := by
  by_cases hfall : fallsBack t.st size
  · obtain ⟨q, st', heq, hslab, hlock, hmem, hinv⟩ := h.palloc Nat.one_pos
    refine ⟨q, st', records, (kmalloc_of_fallsBack h.lock hfall).trans heq, ?_⟩
    · unfold HeapState.given
      split
      · next hq =>
          rw [if_pos hq] at hinv
          exact h.withPages hlock hslab hmem hinv
      · next hq =>
          rw [if_neg hq] at hinv
          refine h.withPages hlock hslab hmem (hinv.perm ?_)
          have hperm : (t.pages ++ ⟨q, 1⟩ :: t.fallbacks.map Block.page).Perm
              (⟨q, 1⟩ :: (t.pages ++ t.fallbacks.map Block.page)) := List.perm_middle
          exact (hperm.append_left _).trans List.perm_middle
  · rcases (hguard.resolve_left hfall).1 with hfit | hnone
    · obtain ⟨q, st', records', heq, hinv, _⟩ := h.kmalloc_of_fit hfall hguard hfit
      exact ⟨q, st', records', heq, hinv⟩
    · have hregion := slabAlloc_of_no_run (numSlabsFor_pos _ _) hnone
      exact ⟨0, t.st, records, kmalloc_of_no_region h.lock hfall hregion, h⟩

/-- The end of a region of the pool. -/
theorem PoolRecords.region_end (h : PoolRecords pool list records t) {r : Region}
    (hr : r ∈ t.blocks.map Block.region) : r.addr + poolSlabSize * r.slabs ≤ pool + poolSize := by
  have hr' := List.mem_append_left (records.map recordRegion) hr
  obtain ⟨k, _, hpos⟩ := h.slab.exists_slot hr'
  have hlast := (h.region_inPool hr' (a := r.addr + poolSlabSize * r.slabs - 1)
    ⟨by unfold poolSlabSize; omega, by unfold poolSlabSize; omega⟩).2
  omega

theorem zeroedBytes_le (n : Nat) : zeroedBytes n ≤ poolSlabSize * numSlabsFor n poolSlabSize := by
  unfold zeroedBytes numSlabsFor
  unfold poolSlabSize
  split <;> omega

theorem zeroLoop_agreeOn {addr n len : Nat} (hlen : zeroedBytes n ≤ len)
    (hspace : addr + len < 2 ^ 32) (mem : Memory) :
    AgreeOn (fun a => ¬ (addr ≤ a ∧ a < addr + len)) mem
      (zeroLoop addr (roundUp (n / poolSlabSize) poolSlabSize) 0 mem) := by
  intro a ha
  unfold zeroedBytes at hlen
  exact zeroLoop_of_outside (by omega) (by omega) mem

theorem kcalloc_of_null {num size : Nat} {st st' : AllocState}
    (h : KallocModel.kmalloc list (wrap (num * size)) st = some (0, st')) :
    KallocModel.kcalloc list num size st = some (0, st') := by
  simp only [KallocModel.kcalloc, h, ↓reduceIte]

theorem kcalloc_of_kmalloc {num size q : Nat} {st st' : AllocState} (hq : q ≠ 0)
    (h : KallocModel.kmalloc list (wrap (num * size)) st = some (q, st')) :
    KallocModel.kcalloc list num size st = some (q, { st' with
      mem := zeroLoop q (roundUp (wrap (num * size) / poolSlabSize) poolSlabSize) 0 st'.mem }) := by
  simp only [KallocModel.kcalloc, h, hq, ↓reduceIte]

/-- Zeroing a block stays inside it. -/
theorem PoolRecords.zeroLoop_agreeOn (h : PoolRecords pool list records t) {b : Block}
    (hb : b ∈ t.blocks) (mem : Memory) :
    AgreeOn (fun a => ¬ b.region.Contains a) mem
      (zeroLoop b.addr (roundUp (b.size / poolSlabSize) poolSlabSize) 0 mem) :=
  HeapSafety.zeroLoop_agreeOn (zeroedBytes_le _)
    (lt_of_le_of_lt (h.region_end (List.mem_map_of_mem hb)) h.poolEnd) mem

/-- `kcalloc` zeroes bytes of its own block only. -/
theorem HeapInv.kcalloc (h : HeapInv np pool list records t) {num size : Nat}
    (hguard : HeapGuard t (.kcalloc num size)) :
    ∃ q st' records', KallocModel.kcalloc list num size t.st = some (q, st') ∧
      HeapInv np pool list records' (t.given (wrap (num * size)) q st') := by
  obtain ⟨hscan, hzero⟩ := hguard
  obtain ⟨q, st', records', heq, hinv⟩ := h.kmalloc hscan
  by_cases hq : q = 0
  · subst hq
    exact ⟨0, st', records', kcalloc_of_null heq, hinv⟩
  · refine ⟨q, _, records', kcalloc_of_kmalloc hq heq, ?_⟩
    rw [HeapState.given, if_neg hq] at hinv ⊢
    by_cases hfall : fallsBack t.st (wrap (num * size))
    · rw [if_pos hfall] at hinv ⊢
      have hmem : ∃ r ∈ t.pages ++ ((⟨q, wrap (num * size)⟩ : Block) :: t.fallbacks).map Block.page,
          r = ⟨q, 1⟩ := ⟨_, List.mem_append_right _ List.mem_cons_self, rfl⟩
      obtain ⟨r, hr, rfl⟩ := hmem
      have hend := (hinv.page.safe.inMemory _ (List.mem_append_right _ hr) (q + 4095)
        ⟨Nat.le_add_right _ _, by simp only [pgSize]; omega⟩).2
      have hspace := h.page.fits.inSpace
      refine hinv.storePage hr ((zeroLoop_agreeOn (hzero hfall) ?_ _).mono ?_)
      · unfold pgSize at *
        omega
      · intro a ha hin
        exact ha ⟨hin.1, by simpa only [Nat.mul_one] using hin.2⟩
    · rw [if_neg hfall] at hinv ⊢
      exact hinv.storeBlock List.mem_cons_self
        (hinv.poolRecords.zeroLoop_agreeOn List.mem_cons_self _)

/-- No link of the list of records is the address of a block: the search of
`kfree` never finds its record. -/
theorem PoolRecords.kfreeSearch (h : PoolRecords pool list records t) {addr : Nat}
    (haddr : addr % poolSlabSize = 0) (hne : addr ≠ list + 8) :
    kfreeSearch addr t.st.mem (2 ^ 32) list = some none := by
  have himage := h.image
  unfold InImage startAddr at himage
  have hlength := h.slab.length_le
  refine kfreeSearch_chain h.list.1 h.list.2 (by omega) ?_ ?_
  · intro n hn
    rcases List.mem_append.mp hn with hn | hn
    · obtain ⟨r, hr, rfl⟩ := List.mem_map.mp hn
      obtain ⟨hmod, hlo, hhi, hend, _⟩ :=
        h.slab_place h.slab (List.mem_append_right _ (List.mem_map_of_mem hr))
      unfold nodeOf offsetofNode
      unfold poolSlabSize at *
      omega
    · obtain rfl := List.mem_singleton.mp hn
      exact ⟨by omega, by omega, hne.symm⟩
  · simp only [HeapState.poolState, List.length_append, List.length_map] at hlength
    rw [List.length_map]
    unfold poolEntries at hlength
    omega

/-- So `kfree` always hands the address to `pfree`. -/
theorem PoolRecords.kfree_eq_pfree (h : PoolRecords pool list records t) {addr : Nat}
    (haddr : addr % poolSlabSize = 0) (hne : addr ≠ list + 8) :
    KallocModel.kfree list addr t.st = KallocModel.pfree addr t.st := by
  obtain ⟨hacq, hrel⟩ := spinLock_section h.lock
  simp only [KallocModel.kfree, hacq, ne_eq, not_true_eq_false, ↓reduceIte, hrel,
    h.kfreeSearch haddr hne]

theorem PoolRecords.block_addr (h : PoolRecords pool list records t) {b : Block}
    (hb : b ∈ t.blocks) :
    b.addr % poolSlabSize = 0 ∧ b.addr ≠ list + 8 := by
  have hr := List.mem_append_left (records.map recordRegion)
    (List.mem_map_of_mem (f := Block.region) hb)
  obtain ⟨k, hk, hpos⟩ := h.slab.exists_slot hr
  have hin := h.region_inPool hr (a := b.addr) ⟨le_rfl, by
    change b.addr < b.addr + poolSlabSize * b.region.slabs
    unfold poolSlabSize
    omega⟩
  have hoff := h.pool_offImage (Nat.le_of_add_right_le hin.1) hin.2
  have haligned := h.aligned
  change b.addr = poolSlot pool k at hk
  unfold poolSlot poolDataOffset poolSlabSize pgSize at *
  omega

theorem pageAddr_place (hlist : InImage list) (k : Nat) :
    pageAddr k % poolSlabSize = 0 ∧ pageAddr k ≠ list + 8 := by
  unfold pageAddr InImage startAddr poolSlabSize pgSize at *
  omega

/-- A block that is no longer handed out. -/
theorem PoolRecords.forget (h : PoolRecords pool list records t) {b : Block} (hb : b ∈ t.blocks) :
    PoolRecords pool list records { t with blocks := t.blocks.erase b } := by
  refine ⟨h.image, h.aligned, h.poolEnd, h.place, h.lock, ?_, h.list⟩
  refine PoolInv.forget (r := b.region) (h.slab.perm ?_)
  exact ((List.perm_cons_erase hb).map Block.region).symm.append_right _

theorem HeapInv.page_addr (h : HeapInv np pool list records t) {b : Block}
    (hb : b ∈ t.fallbacks) : b.addr % poolSlabSize = 0 ∧ b.addr ≠ list + 8 := by
  have hr : b.page ∈ t.allPages pool :=
    List.mem_append_right _ (List.mem_append_right _ (List.mem_map_of_mem hb))
  obtain ⟨k, hk, _⟩ := h.page.exists_page hr
  change b.addr = pageAddr k at hk
  rw [hk]
  exact pageAddr_place h.image k

/-- One guarded call keeps the invariant. -/
theorem HeapInv.step (h : HeapInv np pool list records t) {u : HeapState} {op : HeapOp}
    (hstep : Guarded (HeapStep list) HeapGuard t op u) :
    ∃ records', HeapInv np pool list records' u := by
  obtain ⟨hguard, hstep⟩ := hstep
  cases hstep with
  | pallocMult hcnt heq => exact ⟨records, h.pallocMult hcnt heq⟩
  | pallocNone heq =>
      obtain rfl := pallocMult_none h.page.lock heq
      exact ⟨records, h⟩
  | pfreeNone heq =>
      obtain rfl := pfreeMult_none h.page.lock heq
      exact ⟨records, h⟩
  | pfreeMult hr heq =>
      refine ⟨records, h.pfree (List.mem_append_left _ hr) heq ?_⟩
      exact (List.perm_cons_erase hr).append_right _
  | kmalloc heq =>
      obtain ⟨q', st'', records', heq', hinv⟩ := h.kmalloc hguard
      rw [heq', Option.some_inj, Prod.mk.injEq] at heq
      obtain ⟨rfl, rfl⟩ := heq
      exact ⟨records', hinv⟩
  | kcalloc heq =>
      obtain ⟨q', st'', records', heq', hinv⟩ := h.kcalloc hguard
      rw [heq', Option.some_inj, Prod.mk.injEq] at heq
      obtain ⟨rfl, rfl⟩ := heq
      exact ⟨records', hinv⟩
  | @kfreePage b code st' hb heq =>
      obtain ⟨haddr, hne⟩ := h.page_addr hb
      rw [h.poolRecords.kfree_eq_pfree haddr hne] at heq
      refine ⟨records, h.pfree (r := b.page)
        (List.mem_append_right _ (List.mem_map_of_mem hb)) heq ?_⟩
      exact (((List.perm_cons_erase hb).map Block.page).append_left _).trans List.perm_middle
  | @kfreeBlock b code st' hb heq =>
      obtain ⟨haddr, hne⟩ := h.poolRecords.block_addr hb
      rw [h.poolRecords.kfree_eq_pfree haddr hne, KallocModel.pfree] at heq
      obtain ⟨code', heq'⟩ := pfreeMult_spec h.page.lock b.addr 1
      rw [if_neg (hguard hb)] at heq'
      rw [heq', Option.some_inj, Prod.mk.injEq] at heq
      obtain ⟨_, rfl⟩ := heq
      exact ⟨records, (h.poolRecords.forget hb).heapInv h.page⟩
  | write ha => exact ⟨records, h.write ha _⟩

end Inv

theorem listInit_links {list : Nat} (hlist : InImage list) (mem : Memory) :
    readPtr (listInit list mem) list = list + 8 ∧ readPtr (listInit list mem) (list + 8) = 0 := by
  obtain ⟨_, hhi⟩ := hlist
  unfold startAddr at hhi
  simp only [listInit]
  rw [wrap_of_lt (by omega), wrap_of_lt (by omega), wrap_of_lt (by omega)]
  constructor
  · rw [readPtr_writePtr_of_disjoint (by omega), readPtr_writePtr_of_disjoint (by omega),
      readPtr_writePtr_same _ _ (by omega)]
  · rw [readPtr_writePtr_same _ _ (by omega)]

/-- After `init_alloc` the list of records is empty. -/
theorem recordList_nil_of_init {list memUpper pool : Nat} {mem : Memory} {st : AllocState}
    (hlist : InImage list) (hinv : PageInv (numPages memUpper) st (poolPages pool))
    (hmem : AgreeOn (fun a => ¬ MapByte (numPages memUpper) a)
      (mapReady list memUpper mem).mem st.mem) :
    RecordList list (poolTable pool st.mem) [] := by
  obtain ⟨hhead, htail⟩ := listInit_links hlist
    (PackedBitmap.bitmapSetRange ⟨startAddr, numPages memUpper⟩ 0 (numPages memUpper / pgSize + 1)
      true mem).1
  have hplace : pool = 0 ∨ startAddr ≤ pool := by
    rcases eq_or_ne pool 0 with hpool | hpool
    · exact Or.inl hpool
    · refine Or.inr (hinv.safe.inMemory ⟨pool, 10⟩ (by simp [poolPages, hpool]) pool ?_).1
      exact pool_contains le_rfl (by unfold poolSize; omega)
  have htable : sizeofSlab * poolEntries = 4480 := rfl
  have hkept : ∀ c, list ≤ c → c < list + 16 →
      poolTable pool st.mem c = (mapReady list memUpper mem).mem c := by
    intro c h1 h2
    unfold InImage startAddr at hlist
    unfold startAddr at hplace
    rw [poolTable_of_outside (by omega)]
    refine hmem c fun hmap => ?_
    have := hmap.1
    unfold startAddr at this
    omega
  refine ⟨?_, ?_⟩
  · change readPtr (poolTable pool st.mem) list = list + 8
    rw [readPtr_congr fun c h1 h2 => hkept c h1 (by omega)]
    exact hhead
  · rw [readPtr_congr fun c h1 h2 => hkept c (by omega) (by omega)]
    exact htail

theorem HeapInit.inv {list memUpper : Nat} {mem : Memory} {t : HeapState}
    (hboot : Boots memUpper mem) (hlist : InImage list) (h : HeapInit list memUpper mem t) :
    HeapInv (numPages memUpper) t.st.slab.mem list [] t := by
  obtain ⟨pool, st, hinv, _, haligned, hpool, hmem, heq⟩ := initAlloc_spec hboot hlist
  obtain ⟨hst, hpages, hfallbacks, hblocks⟩ := h
  rw [heq, Option.some_inj] at hst
  obtain ⟨tst, pages, fallbacks, blocks⟩ := t
  simp only at hst hpages hfallbacks hblocks
  subst hst hpages hfallbacks hblocks
  have hagree := poolTable_agreeOn_map hinv
  have hslab := poolTable_inv hpool st.mem
  have hrecords := recordList_nil_of_init hlist hinv hmem
  change HeapInv _ pool _ _ _
  refine ⟨hlist, haligned, hpool, rfl, ?_,
    by simpa only [HeapState.poolState, List.map_nil, List.append_nil] using hslab,
    by simpa only using hrecords⟩
  refine PageInv.perm (hinv.congr rfl rfl (by simpa only using hagree)) ?_
  change (poolPages pool ++ []).Perm (poolPages pool)
  rw [List.append_nil]

theorem heapInv_of_guarded {list memUpper : Nat} {mem : Memory} {t u : HeapState}
    {ops : List HeapOp} (hboot : Boots memUpper mem) (hlist : InImage list)
    (hinit : HeapInit list memUpper mem t)
    (hrun : Run (Guarded (HeapStep list) HeapGuard) t ops u) :
    ∃ records, HeapInv (numPages memUpper) t.st.slab.mem list records u :=
  Run.invariant (fun u => ∃ records, HeapInv (numPages memUpper) t.st.slab.mem list records u)
    (fun _ _ _ ⟨_, h⟩ hstep => h.step hstep) hrun ⟨[], hinit.inv hboot hlist⟩

/-- As long as every call meets its condition, the pages and the blocks handed out
stay apart. -/
theorem heap_safe_of_guarded {list memUpper : Nat} {mem : Memory} {t u : HeapState}
    {ops : List HeapOp} (hboot : Boots memUpper mem) (hlist : InImage list)
    (hinit : HeapInit list memUpper mem t)
    (hrun : Run (Guarded (HeapStep list) HeapGuard) t ops u) :
    HeapSafe t.st.slab.mem u := by
  obtain ⟨records, hinv⟩ := heapInv_of_guarded hboot hlist hinit hrun
  exact hinv.safe

/-- After `init_alloc` every entry of the table is free. -/
theorem HeapInit.slabIsFree {list memUpper : Nat} {mem : Memory} {t : HeapState}
    (hboot : Boots memUpper mem) (hlist : InImage list) (h : HeapInit list memUpper mem t) {k : Nat}
    (hk : k < poolEntries) : SlabModel.slabIsFree t.st.slab t.st.mem k = true := by
  obtain ⟨pool, st, _, _, _, hpool, _, heq⟩ := initAlloc_spec hboot hlist
  have hst := h.1
  rw [heq, Option.some_inj] at hst
  have hfree := slabIsFree_poolTable hpool st.mem hk
  rw [← hst]
  simpa only using hfree

theorem HeapInit.freeEntries {list memUpper : Nat} {mem : Memory} {t : HeapState}
    (hboot : Boots memUpper mem) (hlist : InImage list) (h : HeapInit list memUpper mem t) :
    SlabTable.freeEntries t.st.slab t.st.mem poolEntries = poolEntries := by
  rw [SlabTable.freeEntries, Nat.count_iff_forall]
  exact fun k hk => h.slabIsFree hboot hlist hk

theorem HeapInit.hasFit {list memUpper : Nat} {mem : Memory} {t : HeapState}
    (hboot : Boots memUpper mem) (hlist : InImage list) (h : HeapInit list memUpper mem t) {n : Nat}
    (hn : n ≤ poolEntries) :
    HasFit (fun k => SlabModel.slabIsFree t.st.slab t.st.mem k = true) 0 poolEntries n :=
  ⟨0, le_rfl, by omega, fun k hk => h.slabIsFree hboot hlist (by
    have := hk.2
    simp only at this
    omega)⟩

theorem HeapInit.not_fallsBack {list memUpper : Nat} {mem : Memory} {t : HeapState}
    (hboot : Boots memUpper mem) (hlist : InImage list) (h : HeapInit list memUpper mem t)
    {size : Nat} (hsize : roundUp size poolSlabSize ≤ poolSlabSize * poolEntries) :
    ¬ fallsBack t.st size := by
  have hinv := h.inv hboot hlist
  have hfree : t.st.slab.freeMemSize =
      poolSlabSize * SlabTable.freeEntries t.st.slab t.st.mem poolEntries := hinv.slab.freeMem
  rw [h.freeEntries hboot hlist] at hfree
  rw [fallsBack, hinv.poolRecords.slabSize_eq, hfree, gt_iff_lt, Nat.not_lt]
  exact hsize

/-- A small first request keeps the scans in the table. -/
theorem HeapInit.scansStayInTable {list memUpper : Nat} {mem : Memory} {t : HeapState}
    (hboot : Boots memUpper mem) (hlist : InImage list) (h : HeapInit list memUpper mem t)
    {size : Nat} (hsize : numSlabsFor size poolSlabSize < poolEntries) :
    ScansStayInTable t.st size := by
  have hslab := (h.inv hboot hlist).poolRecords.slabSize_eq
  refine Or.inr ⟨Or.inl ?_, fun _ => Or.inl ?_⟩
  · rw [hslab]
    exact h.hasFit hboot hlist hsize.le
  · rw [hslab, h.freeEntries hboot hlist]
    exact hsize

theorem exists_heapInit {list memUpper : Nat} {mem : Memory} (hboot : Boots memUpper mem)
    (hlist : InImage list) : ∃ t, HeapInit list memUpper mem t := by
  obtain ⟨pool, st, _, _, _, _, _, heq⟩ := initAlloc_spec hboot hlist
  exact ⟨⟨_, [], [], []⟩, heq, rfl, rfl, rfl⟩

theorem boots_zeroed {memUpper : Nat} (hlo : startAddr ≤ memUpper * 1024)
    (hhi : memUpper * 1024 < 2 ^ 32) (hpos : 0 < numPages memUpper) :
    Boots memUpper fun _ => 0#8 :=
  ⟨hlo, hhi, hpos, fun _ _ => rfl⟩

/-- A small first request is given the first slabs of the pool. -/
theorem HeapInit.kmalloc {list memUpper : Nat} {mem : Memory} {t : HeapState}
    (hboot : Boots memUpper mem) (hlist : InImage list) (h : HeapInit list memUpper mem t)
    (size : Nat) (hup : roundUp size poolSlabSize ≤ poolSlabSize * poolEntries)
    (hsize : numSlabsFor size poolSlabSize < poolEntries) :
    ∃ st' records', KallocModel.kmalloc list size t.st = some (poolSlot t.st.slab.mem 0, st') ∧
      HeapInv (numPages memUpper) t.st.slab.mem list records'
        (t.given size (poolSlot t.st.slab.mem 0) st') := by
  have hinv := h.inv hboot hlist
  have hslab := hinv.poolRecords.slabSize_eq
  obtain ⟨q, st', records', heq, hinv', hfirst⟩ := hinv.kmalloc_of_fit
    (h.not_fallsBack hboot hlist hup) (h.scansStayInTable hboot hlist hsize)
    (h.hasFit hboot hlist (by rw [hslab]; exact hsize.le))
  obtain ⟨k, hk, rfl⟩ := hfirst (by rw [h.freeEntries hboot hlist]; exact hsize)
  have hk0 : k = 0 := by
    by_contra hne
    refine hk.2 0 le_rfl (Nat.pos_of_ne_zero hne) fun i hi => ?_
    refine h.slabIsFree hboot hlist (Nat.lt_trans hi.2 ?_)
    rwa [Nat.zero_add]
  subst hk0
  exact ⟨st', records', heq, hinv'⟩

theorem heap_safe_of_guarded_kmalloc : ∃ t u, HeapInit 1048576 4140 (fun _ => 0#8) t ∧
    Run (HeapStep 1048576) t [.kmalloc 1] u ∧ HeapSafe t.st.slab.mem u := by
  have hboot := boots_zeroed (show startAddr ≤ 4140 * 1024 by decide) (by decide) (by decide)
  have hlist : InImage 1048576 := by decide
  obtain ⟨t, hinit⟩ := exists_heapInit hboot hlist
  have hguard : HeapGuard t (.kmalloc 1) := hinit.scansStayInTable hboot hlist (by decide)
  obtain ⟨q, st', _, heq, _⟩ := (hinit.inv hboot hlist).kmalloc hguard
  exact ⟨t, _, hinit, .single (.kmalloc heq),
    heap_safe_of_guarded hboot hlist hinit (.single ⟨hguard, .kmalloc heq⟩)⟩

/-- A machine with eleven pages: the map takes the first, the pool the others. -/
theorem numPages_eleven : numPages 4140 = 11 := by decide

theorem HeapInit.pool_ne_zero {list memUpper : Nat} {mem : Memory} {t : HeapState}
    (hboot : Boots memUpper mem) (hlist : InImage list) (h : HeapInit list memUpper mem t)
    (hfit : HasFit (PageFree (mapReady list memUpper mem)) 0 (numPages memUpper) 10) :
    t.st.slab.mem ≠ 0 := by
  obtain ⟨pool, st, _, hzero, _, _, _, heq⟩ := initAlloc_spec hboot hlist
  have hst := h.1
  rw [heq, Option.some_inj] at hst
  have hpool : t.st.slab.mem = pool := by
    rw [← hst]
    rfl
  rw [hpool]
  exact fun hnull => (hzero.mp hnull) hfit

/-- With eleven pages the pool starts at page 1 and every page is in use. -/
theorem pool_of_eleven {list : Nat} {records : List Nat} {t : HeapState} {pool : Nat}
    (h : HeapInv 11 pool list records t) (hpool : pool ≠ 0) :
    pool = pageAddr 1 ∧ ∀ i, i < 11 → PageUsed t.st i := by
  obtain ⟨⟨k, n⟩, hrun, hend, hused, hmap, hdisj⟩ := h.page.exists_run (poolPage_mem t hpool)
  simp only [pagesOf, PageRange.mk.injEq] at hrun
  obtain ⟨haddr, rfl⟩ := hrun
  have hk : k = 1 := by
    have := hdisj 0 ⟨le_rfl, by decide⟩
    simp only [Range.Covers] at this hend
    omega
  subst hk
  refine ⟨haddr, fun i hi => ?_⟩
  rcases Nat.eq_zero_or_pos i with rfl | hpos
  · exact hmap 0 ⟨le_rfl, by decide⟩
  · exact hused i ⟨hpos, by simp only; omega⟩

/-- `kfree` of a block of one slab at the start of the data of the pool clears the
bit of the third page, and the next page handed out is that one. -/
theorem palloc_after_kfree {list : Nat} {records : List Nat} {t : HeapState} {q : Nat}
    (h : HeapInv 11 (pageAddr 1) list records t) (hused : ∀ i, i < 11 → PageUsed t.st i)
    (hq : q = poolSlot (pageAddr 1) 0) (hb : ⟨q, 1⟩ ∈ t.blocks) :
    ∃ code st' st'', KallocModel.kfree list q t.st = some (code, st') ∧
      KallocModel.pallocMult 1 st' = some (pageAddr 2, st'') := by
  obtain ⟨haddr, hne⟩ := h.poolRecords.block_addr hb
  have hidx : pageIdx q = 2 := by
    rw [hq]
    decide
  have hsize : bitmapGetSize t.st.freeMap = 11 := by
    rw [h.page.map]
    rfl
  have haccept : pfreeAccepts t.st q 1 := by
    rw [pfreeAccepts, hidx, hsize]
    refine ⟨by decide, (bitmapCountRange_eq_len_iff _ (by decide) _).mpr ?_⟩
    rintro i ⟨hlo, hhi⟩
    exact (hused i (by simp only at hhi; omega)).2
  obtain ⟨code, hfree⟩ := pfreeMult_spec h.page.lock q 1
  rw [if_pos haccept, hidx] at hfree
  rw [h.poolRecords.kfree_eq_pfree haddr hne, KallocModel.pfree, hfree]
  have husedAfter : ∀ i, PageUsed (setPages t.st 2 1 false) i ↔
      ¬ (Range.mk 2 1).Covers i ∧ PageUsed t.st i := pageUsed_setPages_false (by decide)
  have hmap : (setPages t.st 2 1 false).freeMap = ⟨startAddr, 11⟩ := h.page.map
  have hfits : HasFit (PageFree (setPages t.st 2 1 false)) 0 11 1 := by
    refine ⟨2, by decide, by decide, fun i hi => ?_⟩
    rw [PageFree, bitmapTest_setPages (by decide), if_pos hi]
  rcases pallocMult_spec h.page.fits hmap h.page.lock Nat.one_pos with ⟨k, hfirst, heq⟩ | ⟨hnone, _⟩
  · have hk : k = 2 := by
      by_contra hk
      have hend := hfirst.1.2.1
      have hfree : PageFree (setPages t.st 2 1 false) k :=
        hfirst.1.2.2 k ⟨le_rfl, Nat.lt_succ_self k⟩
      have hstill := (husedAfter k).mpr ⟨fun hc => hk ?_, hused k (by omega)⟩
      · rw [PageFree, hstill.2] at hfree
        exact absurd hfree (by decide)
      · obtain ⟨h1, h2⟩ := hc
        simp only at h1 h2
        omega
    subst hk
    exact ⟨code, _, _, rfl, heq⟩
  · exact absurd hfits hnone

/-- Without the condition a page handed out overlaps the pool: `kmalloc(1)`, `kfree`
of the result, `palloc_mult(1)`. -/
theorem not_heap_safe_of_run : ¬ ∀ (list memUpper : Nat) (mem : Memory) (t u : HeapState)
    (ops : List HeapOp), Boots memUpper mem → InImage list → HeapInit list memUpper mem t →
    Run (HeapStep list) t ops u → HeapSafe t.st.slab.mem u := by
  intro hall
  have hboot := boots_zeroed (show startAddr ≤ 4140 * 1024 by decide) (by decide) (by decide)
  have hlist : InImage 1048576 := by decide
  obtain ⟨t, hinit⟩ := exists_heapInit hboot hlist
  have hpool : t.st.slab.mem ≠ 0 := by
    refine hinit.pool_ne_zero hboot hlist ⟨1, by decide, by decide, fun i hi => ?_⟩
    obtain ⟨hlo, hhi⟩ := hi
    refine pageFree_mapReady hboot hlist ?_ fun hc => ?_
    · rw [numPages_eleven]
      simp only at hhi
      omega
    · obtain ⟨_, hc⟩ := hc
      rw [numPages_eleven] at hc
      simp only [mapPages, pgSize] at hc
      simp only at hlo
      omega
  have hfall := hinit.not_fallsBack hboot hlist (show roundUp 1 poolSlabSize ≤ _ by decide)
  obtain ⟨st', records', hkmalloc, hinv⟩ := hinit.kmalloc hboot hlist 1 (by decide) (by decide)
  have hgiven : t.given 1 (poolSlot t.st.slab.mem 0) st' =
      { t with st := st', blocks := ⟨poolSlot t.st.slab.mem 0, 1⟩ :: t.blocks } := by
    rw [HeapState.given, if_neg (poolSlot_ne_zero _ _), if_neg hfall]
  have hstep := HeapStep.kmalloc hkmalloc
  rw [hgiven] at hinv hstep
  rw [numPages_eleven] at hinv
  obtain ⟨hplace, hused⟩ := pool_of_eleven hinv hpool
  rw [hplace] at hinv hstep
  obtain ⟨code, st1, st2, hkfree, hpalloc⟩ :=
    palloc_after_kfree hinv hused rfl List.mem_cons_self
  have hsafe := hall 1048576 4140 _ t _ _ hboot hlist hinit
    (.cons hstep (.cons (.kfreeBlock List.mem_cons_self hkfree)
      (.single (.pallocMult Nat.one_pos hpalloc))))
  rw [hplace, if_neg (pageAddr_ne_zero 2)] at hsafe
  have hoff := hsafe.offPool ⟨pageAddr 2, 1⟩ (List.mem_append_left _ List.mem_cons_self)
    (pageAddr 2)
    ⟨le_rfl, by decide⟩
  exact absurd hoff (by decide)

end Longhorn.HeapSafety
