import Longhorn.AtomicSpinLock
import Longhorn.PackedBitmap
import Longhorn.SlabModel

/-!
The memory manager of `kernel/kalloc.c`: the page allocator over its free map,
and `kmalloc` over the slab allocator.  The free map, the slab table, the records
of `kmalloc` and the sentinels of the list of records all live in one memory.
-/

namespace Longhorn.KallocModel

open Longhorn.Foundations.ByteMemory
open Longhorn.AtomicSpinLock
open Longhorn.PackedBitmap
open Longhorn.SlabModel

def memFreeSucc : Int := 0
def memFreeFail : Int := 2

/-- `PG_SIZE`. -/
def pgSize : Nat := 4096

/-- `4*MB`, where the managed pages begin. -/
def startAddr : Nat := 4194304

/-- `ROUND_UP` on `size_t`. -/
def roundUp (x size : Nat) : Nat := wrap (wrapSub (wrap (x + size)) 1 / size * size)

/-- The globals of `kalloc.c` and the default slab allocator.  The sentinels of
`allocations` are in `mem`, at an address that the functions take as an argument. -/
structure AllocState where
  freeMap : Bitmap
  pallocLock : SpinLock
  mallocLock : SpinLock
  slab : SlabAllocator
  mem : Memory

/-- The globals of a kernel that has just been loaded. -/
def bootState (mem : Memory) : AllocState :=
  ⟨⟨0, 0⟩, ⟨0, none⟩, ⟨0, none⟩, ⟨0, 0, 0, 0, 0⟩, mem⟩

def pallocMult (cnt : Nat) (st : AllocState) : Option (Nat × AllocState) :=
  match spinLockAcquire st.pallocLock with
  | none => none
  | some (code, lock) =>
      if code ≠ lockAcqSucc then some (0, { st with pallocLock := lock })
      else
        let size := bitmapGetSize st.freeMap
        let idx := bitmapFindRange st.freeMap 0 size cnt false st.mem
        if idx ≠ wrap (size + 1) then
          some (wrap (startAddr + idx * pgSize),
            { st with
              pallocLock := (spinLockRelease lock).2
              mem := (bitmapSetRange st.freeMap idx cnt true st.mem).1 })
        else some (0, { st with pallocLock := (spinLockRelease lock).2 })

def palloc (st : AllocState) : Option (Nat × AllocState) := pallocMult 1 st

/-- `((char *) addr - start_addr) / PG_SIZE`, a signed quotient stored in a
`size_t`. -/
def pageIdx (addr : Nat) : Nat :=
  ((wrapInt ((addr : Int) - startAddr)).tdiv pgSize % 2 ^ 32).toNat

/-- The test that `pfree_mult` makes before it clears the bits. -/
def pfreeAccepts (st : AllocState) (addr cnt : Nat) : Prop :=
  wrap (pageIdx addr + cnt) < bitmapGetSize st.freeMap ∧
    bitmapCountRange st.freeMap (pageIdx addr) cnt st.mem = cnt

instance (st : AllocState) (addr cnt : Nat) : Decidable (pfreeAccepts st addr cnt) :=
  inferInstanceAs (Decidable (_ ∧ _))

def pfreeMult (addr cnt : Nat) (st : AllocState) : Option (Int × AllocState) :=
  match spinLockAcquire st.pallocLock with
  | none => none
  | some (code, lock) =>
      if code ≠ lockAcqSucc then some (-memFreeFail, { st with pallocLock := lock })
      else if pfreeAccepts st addr cnt then
        let cleared := bitmapSetRange st.freeMap (pageIdx addr) cnt false st.mem
        some (if cleared.2 = cnt then memFreeSucc else -memFreeFail,
          { st with pallocLock := (spinLockRelease lock).2, mem := cleared.1 })
      else some (-memFreeFail, { st with pallocLock := (spinLockRelease lock).2 })

def pfree (addr : Nat) (st : AllocState) : Option (Int × AllocState) := pfreeMult addr 1 st

/-- `list_init` on a `list_t` in memory: `head` at its address, `tail` 8 bytes on,
`next` before `prev` in each node. -/
def listInit (list : Nat) (mem : Memory) : Memory :=
  let mem := writePtr mem (wrap (list + 4)) 0
  let mem := writePtr mem list (wrap (list + 8))
  let mem := writePtr mem (wrap (list + 12)) list
  writePtr mem (wrap (list + 8)) 0

/-- `list_insert_front` on nodes in memory. -/
def listInsertFront (head node : Nat) (mem : Memory) : Memory :=
  let mem := writePtr mem (wrap (readPtr mem head + 4)) node
  let mem := writePtr mem node (readPtr mem head)
  let mem := writePtr mem head node
  writePtr mem (wrap (node + 4)) head

/-- The number of pages under the boot record's `mem_upper`. -/
def numPages (memUpper : Nat) : Nat := wrapSub (wrap (memUpper * 1024)) startAddr / pgSize

def initAlloc (allocations memUpper : Nat) (st : AllocState) : Option AllocState := do
  let map := bitmapInitS (numPages memUpper) startAddr
  let st := { st with
    freeMap := map
    mem := listInit allocations
      (bitmapSetRange map 0 (numPages memUpper / pgSize + 1) true st.mem).1 }
  let (pool, st) ← pallocMult 10 st
  let (_, slab, mem) ← slabInit pool poolSize poolSlabSize st.slab st.mem
  pure { st with slab := slab, mem := mem, mallocLock := spinLockInit, pallocLock := spinLockInit }

/-- The offsets of the members of `struct allocation`. -/
def offsetofAddr : Nat := 0
def offsetofSize : Nat := 4
def offsetofNode : Nat := 8

def sizeofAllocation : Nat := 16

/-- The number of slabs that `kmalloc` asks for. -/
def numSlabsFor (size slabSize : Nat) : Nat :=
  if roundUp (size / slabSize) slabSize = 0 then 1 else roundUp (size / slabSize) slabSize

/-- `kmalloc` fills in the record at `a` and puts it on the list. -/
def recordAllocation (allocations a ret numSlabs : Nat) (mem : Memory) : Memory :=
  let mem := writePtr mem (wrap (a + offsetofAddr)) ret
  let mem := writePtr mem (wrap (a + offsetofSize)) numSlabs
  listInsertFront allocations (wrap (a + offsetofNode)) mem

def kmalloc (allocations size : Nat) (st : AllocState) : Option (Nat × AllocState) :=
  let numSlabs := numSlabsFor size st.slab.slabSize
  let numAllocSlabs := numSlabsFor sizeofAllocation st.slab.slabSize
  match spinLockAcquire st.mallocLock with
  | none => none
  | some (code, lock) =>
      let released := (spinLockRelease lock).2
      if code ≠ lockAcqSucc then some (0, { st with mallocLock := lock })
      else if roundUp size st.slab.slabSize > st.slab.freeMemSize then
        palloc { st with mallocLock := released }
      else
        let (ret, slab, mem) := slabAlloc st.slab numSlabs st.mem
        if ret = 0 then some (0, { st with mallocLock := released, slab := slab, mem := mem })
        else
          let (a, slab, mem) := slabAlloc slab numAllocSlabs mem
          if a = 0 then
            (slabFree slab ret numSlabs mem).map fun (_, slab, mem) =>
              (0, { st with mallocLock := released, slab := slab, mem := mem })
          else
            some (ret, { st with
              mallocLock := released
              slab := slab
              mem := recordAllocation allocations a ret numSlabs mem })

/-- The loop of `kcalloc` over 64-bit words. -/
def zeroLoop (addr : Nat) : Nat → Nat → Memory → Memory
  | 0, _, mem => mem
  | left + 1, i, mem =>
      zeroLoop addr left (i + 1)
        (writePtr (writePtr mem (wrap (addr + 8 * i)) 0) (wrap (addr + 8 * i + 4)) 0)

def kcalloc (allocations num size : Nat) (st : AllocState) : Option (Nat × AllocState) :=
  match kmalloc allocations (wrap (num * size)) st with
  | none => none
  | some (mem, st) =>
      if mem = 0 then some (0, st)
      else
        some (mem, { st with
          mem := zeroLoop mem (roundUp (wrap (num * size) / poolSlabSize) poolSlabSize) 0 st.mem })

/-- `LIST_ENTRY`: the structure whose member at `offset` is at `ptr`. -/
def listEntry (ptr offset : Nat) : Nat := wrapSub ptr offset

/-- The loop of `kfree` that looks for the record.  `none` means that it never
ends: there are no more than `2^32` nodes to visit. -/
def kfreeSearch (addr : Nat) (mem : Memory) : Nat → Nat → Option (Option Nat)
  | 0, _ => none
  | fuel + 1, node =>
      if readPtr mem node = 0 then some none
      else
        let a := listEntry node offsetofAddr
        if readPtr mem (wrap (a + offsetofAddr)) = addr then some (some a)
        else kfreeSearch addr mem fuel (readPtr mem node)

def kfree (allocations addr : Nat) (st : AllocState) : Option (Int × AllocState) :=
  match spinLockAcquire st.mallocLock with
  | none => none
  | some (code, lock) =>
      let released := (spinLockRelease lock).2
      if code ≠ lockAcqSucc then some (-memFreeFail, { st with mallocLock := lock })
      else
        match kfreeSearch addr st.mem (2 ^ 32) allocations with
        | none => none
        | some none => pfree addr { st with mallocLock := released }
        | some (some a) =>
            (slabFree st.slab addr (readPtr st.mem (wrap (a + offsetofSize))) st.mem).map
              fun (code, slab, mem) =>
                (if code ≠ slabSucc then -memFreeFail else memFreeSucc,
                  { st with mallocLock := released, slab := slab, mem := mem })

end Longhorn.KallocModel
