import Longhorn.KallocModel
import Longhorn.SpinLockSafety

/-!
Threads that run `palloc_mult` and `pfree_mult`, one access to the free map or to the
lock at a time.
-/

namespace Longhorn.PageInterleaving

open Longhorn.Foundations.ByteMemory
open Longhorn.Foundations.TransitionRuns
open Longhorn.Foundations.ThreadInterleaving
open Longhorn.AtomicSpinLock
open Longhorn.SpinLockSafety
open Longhorn.PackedBitmap
open Longhorn.KallocModel

inductive PageCall where
  | palloc (cnt : Nat)
  | pfree (addr cnt : Nat)

inductive PageRet where
  | addr (a : Nat)
  | code (c : Int)

/-- Where a thread is.  A loop has its rounds left and its index; a bit is changed by
reading its word and writing it back. -/
inductive PagePc where
  | outside
  | lock (a : PageCall) (p : AcquirePc)
  | find (cnt left i seen start : Nat)
  | set (cnt idx left i : Nat)
  | setWord (cnt idx left i : Nat) (w : Word)
  | count (addr cnt left i seen : Nat)
  | give (a : PageCall) (r : PageRet)
  | giveClear (addr cnt : Nat)
  | clear (addr cnt left i : Nat)
  | clearWord (addr cnt left i : Nat) (w : Word)
  | done (a : PageCall) (r : PageRet)

inductive PageLabel where
  | call (a : PageCall)
  | inside
  | write
  | returns (a : PageCall) (r : PageRet)

/-- The thread is between its acquire and its release of `palloc_lock`. -/
def PagePc.Holds : PagePc → Prop
  | .lock _ p => p.Holds
  | .find _ _ _ _ _ => True
  | .set _ _ _ _ => True
  | .setWord _ _ _ _ _ => True
  | .count _ _ _ _ _ => True
  | .give _ _ => True
  | .giveClear _ _ => True
  | _ => False

/-- What a call returns when the lock cannot be acquired. -/
def PageCall.failure : PageCall → PageRet
  | .palloc _ => .addr 0
  | .pfree _ _ => .code (-memFreeFail)

/-- The number of rounds of a loop over `cnt` bits from `idx` on. -/
def rounds (idx cnt : Nat) : Nat := wrap (idx + cnt) - idx

def found (st : AllocState) (cnt idx : Nat) : PagePc :=
  if idx ≠ wrap (bitmapGetSize st.freeMap + 1) then .set cnt idx (rounds idx cnt) idx
  else .give (.palloc cnt) (.addr 0)

def counted (addr cnt seen : Nat) : PagePc :=
  if seen = cnt then .giveClear addr cnt else .give (.pfree addr cnt) (.code (-memFreeFail))

def enter (st : AllocState) : PageCall → PagePc
  | .palloc cnt => .find cnt (rounds 0 (bitmapGetSize st.freeMap)) 0 0 0
  | .pfree addr cnt =>
      if wrap (pageIdx addr + cnt) < bitmapGetSize st.freeMap then
        .count addr cnt (rounds (pageIdx addr) cnt) (pageIdx addr) 0
      else .give (.pfree addr cnt) (.code (-memFreeFail))

/-- One round of `bitmap_find_range`. -/
def findRound (st : AllocState) (cnt left i seen start : Nat) : PagePc :=
  let seen' := if bitmapTest st.freeMap i st.mem = false then seen + 1 else 0
  let start' := if bitmapTest st.freeMap i st.mem = false then start else i + 1
  if seen' = cnt then found st cnt start' else .find cnt left (i + 1) seen' start'

def pageAddr (idx : Nat) : Nat := wrap (startAddr + idx * pgSize)

/-- The code that `pfree_mult` returns behind the loop that clears the bits. -/
def clearCode (addr cnt : Nat) : Int :=
  if max (pageIdx addr) (wrap (pageIdx addr + cnt)) = cnt then memFreeSucc else -memFreeFail

def unlockPalloc (st : AllocState) : AllocState :=
  { st with pallocLock := (spinLockRelease st.pallocLock).2 }

def putWord (st : AllocState) (i : Nat) (w : Word) : AllocState :=
  { st with mem := writeWord st.mem (elemAddr st.freeMap i) w }

inductive PageNext : PageLabel → AllocState → PagePc → AllocState → PagePc → Prop
  | call (st : AllocState) (a : PageCall) :
      PageNext (.call a) st .outside st (.lock a .entry)
  | acquire (st : AllocState) (a : PageCall) {p p' : AcquirePc} {sl : SpinLock}
      (h : AcquireNext st.pallocLock p sl p') :
      PageNext .inside st (.lock a p) { st with pallocLock := sl } (.lock a p')
  | failed (st : AllocState) (a : PageCall) (code : Int) (h : code ≠ lockAcqSucc) :
      PageNext .inside st (.lock a (.ret code)) st (.done a a.failure)
  | enter (st : AllocState) (a : PageCall) (code : Int) (h : code = lockAcqSucc) :
      PageNext .inside st (.lock a (.ret code)) st (enter st a)
  | findBit (st : AllocState) (cnt left i seen start : Nat) :
      PageNext .inside st (.find cnt (left + 1) i seen start) st
        (findRound st cnt left i seen start)
  | findEnd (st : AllocState) (cnt i seen start : Nat) :
      PageNext .inside st (.find cnt 0 i seen start) st
        (found st cnt (wrap (st.freeMap.bits + 1)))
  | setRead (st : AllocState) (cnt idx left i : Nat) :
      PageNext .inside st (.set cnt idx (left + 1) i) st
        (.setWord cnt idx left i (readWord st.mem (elemAddr st.freeMap i)))
  | setWrite (st : AllocState) (cnt idx left i : Nat) (w : Word) :
      PageNext .write st (.setWord cnt idx left i w) (putWord st i (w ||| bitMask i))
        (.set cnt idx left (i + 1))
  | setEnd (st : AllocState) (cnt idx i : Nat) :
      PageNext .inside st (.set cnt idx 0 i) st (.give (.palloc cnt) (.addr (pageAddr idx)))
  | countBit (st : AllocState) (addr cnt left i seen : Nat) :
      PageNext .inside st (.count addr cnt (left + 1) i seen) st
        (.count addr cnt left (i + 1)
          (if bitmapTest st.freeMap i st.mem then seen + 1 else seen))
  | countEnd (st : AllocState) (addr cnt i seen : Nat) :
      PageNext .inside st (.count addr cnt 0 i seen) st (counted addr cnt seen)
  | give (st : AllocState) (a : PageCall) (r : PageRet) :
      PageNext .inside st (.give a r) (unlockPalloc st) (.done a r)
  | giveClear (st : AllocState) (addr cnt : Nat) :
      PageNext .inside st (.giveClear addr cnt) (unlockPalloc st)
        (.clear addr cnt (rounds (pageIdx addr) cnt) (pageIdx addr))
  | clearRead (st : AllocState) (addr cnt left i : Nat) :
      PageNext .inside st (.clear addr cnt (left + 1) i) st
        (.clearWord addr cnt left i (readWord st.mem (elemAddr st.freeMap i)))
  | clearWrite (st : AllocState) (addr cnt left i : Nat) (w : Word) :
      PageNext .write st (.clearWord addr cnt left i w) (putWord st i (w &&& ~~~ bitMask i))
        (.clear addr cnt left (i + 1))
  | clearEnd (st : AllocState) (addr cnt i : Nat) :
      PageNext .inside st (.clear addr cnt 0 i) st
        (.done (.pfree addr cnt) (.code (clearCode addr cnt)))
  | returns (st : AllocState) (a : PageCall) (r : PageRet) :
      PageNext (.returns a r) st (.done a r) st .outside

universe u

abbrev PageThreads (ι : Type u) := Threads ι AllocState PagePc

abbrev PageStep {ι : Type u} [DecidableEq ι] :
    PageThreads ι → ι × PageLabel → PageThreads ι → Prop :=
  ThreadStep Prod.fst fun e => PageNext e.2

/-- A call that runs from its start to its end while no other thread does anything. -/
inductive SerialCall : AllocState → PageCall × PageRet → AllocState → Prop
  | palloc {st st' : AllocState} {cnt a : Nat} (h : pallocMult cnt st = some (a, st')) :
      SerialCall st (.palloc cnt, .addr a) st'
  | pfree {st st' : AllocState} {addr cnt : Nat} {c : Int}
      (h : pfreeMult addr cnt st = some (c, st')) :
      SerialCall st (.pfree addr cnt, .code c) st'

section Rest

/-- The call `a` ends with `r` and leaves `mem`. -/
def finish (st : AllocState) (a : PageCall) (r : PageRet) (mem : Memory) :
    (PageCall × PageRet) × AllocState :=
  ((a, r), { unlockPalloc st with mem := mem })

def restSet (st : AllocState) (cnt idx left i : Nat) (mem : Memory) :
    (PageCall × PageRet) × AllocState :=
  finish st (.palloc cnt) (.addr (pageAddr idx)) (setRangeLoop st.freeMap true left i mem)

def restFound (st : AllocState) (cnt idx : Nat) : (PageCall × PageRet) × AllocState :=
  if idx ≠ wrap (bitmapGetSize st.freeMap + 1) then
    restSet st cnt idx (rounds idx cnt) idx st.mem
  else finish st (.palloc cnt) (.addr 0) st.mem

def restCounted (st : AllocState) (addr cnt seen : Nat) : (PageCall × PageRet) × AllocState :=
  if seen = cnt then
    finish st (.pfree addr cnt) (.code (clearCode addr cnt))
      (setRangeLoop st.freeMap false (rounds (pageIdx addr) cnt) (pageIdx addr) st.mem)
  else finish st (.pfree addr cnt) (.code (-memFreeFail)) st.mem

def restFind (st : AllocState) (cnt left i seen start : Nat) :
    (PageCall × PageRet) × AllocState :=
  restFound st cnt
    ((findRangeLoop st.freeMap cnt false st.mem left i seen start).getD
      (wrap (st.freeMap.bits + 1)))

def restCount (st : AllocState) (addr cnt left i seen : Nat) :
    (PageCall × PageRet) × AllocState :=
  restCounted st addr cnt (countRangeLoop st.freeMap st.mem left i seen)

def restCall (st : AllocState) : PageCall → (PageCall × PageRet) × AllocState
  | .palloc cnt => restFind st cnt (rounds 0 (bitmapGetSize st.freeMap)) 0 0 0
  | .pfree addr cnt =>
      if wrap (pageIdx addr + cnt) < bitmapGetSize st.freeMap then
        restCount st addr cnt (rounds (pageIdx addr) cnt) (pageIdx addr) 0
      else finish st (.pfree addr cnt) (.code (-memFreeFail)) st.mem

/-- How the call of the thread that holds the lock ends when it runs on alone, with the
clearing of bits taken to be part of its critical section. -/
def rest (p : PagePc) (st : AllocState) : (PageCall × PageRet) × AllocState :=
  match p with
  | .lock a _ => restCall st a
  | .find cnt left i seen start => restFind st cnt left i seen start
  | .set cnt idx left i => restSet st cnt idx left i st.mem
  | .setWord cnt idx left i w =>
      restSet st cnt idx left (i + 1) (putWord st i (w ||| bitMask i)).mem
  | .count addr cnt left i seen => restCount st addr cnt left i seen
  | .give a r => finish st a r st.mem
  | .giveClear addr cnt => restCounted st addr cnt cnt
  | .clear addr cnt _ _ => finish st (.pfree addr cnt) (.code (clearCode addr cnt)) st.mem
  | .clearWord addr cnt _ _ _ => finish st (.pfree addr cnt) (.code (clearCode addr cnt)) st.mem
  | .done a r => finish st a r st.mem
  | .outside => finish st (.palloc 0) (.addr 0) st.mem

variable {st : AllocState} {cnt idx left i seen start addr : Nat} {a : PageCall}

theorem rest_found : rest (found st cnt idx) st = restFound st cnt idx := by
  rw [found, restFound]
  split_ifs <;> rfl

theorem rest_counted : rest (counted addr cnt seen) st = restCounted st addr cnt seen := by
  rw [counted]
  split_ifs with h
  · rw [← h]
    rfl
  · rw [restCounted, if_neg h]
    rfl

theorem rest_enter : rest (enter st a) st = restCall st a := by
  cases a with
  | palloc cnt => rfl
  | pfree addr cnt =>
      rw [enter, restCall]
      split_ifs <;> rfl

theorem rest_findRound :
    rest (findRound st cnt left i seen start) st =
      restFind st cnt (left + 1) i seen start := by
  rw [findRound, restFind, findRangeLoop]
  split_ifs <;> first | exact rest_found | rfl

/-- The call of a thread that has just acquired the lock, run as a whole. -/
theorem serial_restCall (h : st.pallocLock.val = 0) (a : PageCall) :
    SerialCall st (restCall { st with pallocLock := { st.pallocLock with val := 1 } } a).1
      (restCall { st with pallocLock := { st.pallocLock with val := 1 } } a).2 := by
  have hlock := spinLockAcquire_free h
  cases a with
  | palloc cnt =>
      rw [restCall, restFind, restFound]
      split_ifs with hidx
      · apply SerialCall.palloc
        simp only [pallocMult, hlock]
        exact (if_neg (not_not.mpr rfl)).trans (if_pos hidx)
      · apply SerialCall.palloc
        simp only [pallocMult, hlock]
        exact (if_neg (not_not.mpr rfl)).trans (if_neg hidx)
  | pfree addr cnt =>
      have hnot : ¬ lockAcqSucc ≠ lockAcqSucc := not_not.mpr rfl
      rw [restCall]
      split_ifs with hsize
      · rw [restCount, restCounted]
        split_ifs with hseen
        · apply SerialCall.pfree
          simp only [pfreeMult, hlock]
          exact (if_neg hnot).trans (if_pos ⟨hsize, hseen⟩)
        · apply SerialCall.pfree
          simp only [pfreeMult, hlock]
          exact (if_neg hnot).trans (if_neg fun haccepts => hseen haccepts.2)
      · apply SerialCall.pfree
        simp only [pfreeMult, hlock]
        exact (if_neg hnot).trans (if_neg fun haccepts => hsize haccepts.1)

end Rest
section Safety

variable {ι : Type u} [DecidableEq ι]

/-- No `pfree_mult` of pages has passed its test: it would release the lock and then
clear the bits. -/
def KeepsPages (s : PageThreads ι) (e : ι × PageLabel) : Prop :=
  ∀ addr cnt, s.pc e.1 = .giveClear addr cnt → cnt = 0

/-- The calls of thread `i` that have returned. -/
def returned (i : ι) (ls : List (ι × PageLabel)) : List (PageCall × PageRet) :=
  ls.filterMap fun
    | (j, .returns a r) => if j = i then some (a, r) else none
    | _ => none

/-- The calls of thread `i` in a serial order. -/
def callsOf (i : ι) (order : List (ι × PageCall × PageRet)) : List (PageCall × PageRet) :=
  order.filterMap fun e => if e.1 = i then some e.2 else none

/-- The call that has left the lock but has not returned. -/
def pending : PagePc → List (PageCall × PageRet)
  | .done a r => [(a, r)]
  | .clear addr cnt _ _ => [(.pfree addr cnt, .code (clearCode addr cnt))]
  | _ => []

/-- What a thread knows by itself: behind the lock it clears no bits. -/
def PagePc.Fine : PagePc → Prop
  | .lock _ p => p.Fine
  | .clear _ cnt left _ => cnt = 0 ∧ left = 0
  | .clearWord _ _ _ _ _ => False
  | _ => True

structure PageLockInv (st : AllocState) (ls : List (ι × PageLabel))
    (order : List (ι × PageCall × PageRet)) (s : PageThreads ι) : Prop where
  val : s.mem.pallocLock.val = 0 ∨ s.mem.pallocLock.val = 1
  exclusive : Exclusive (fun st : AllocState => st.pallocLock.val = 1) PagePc.Holds s
  serial : Serialized (fun st e st' => SerialCall st e.2 st') PagePc.Holds
    (fun i p st => ((i, (rest p st).1), (rest p st).2)) st order s
  fine : ∀ i, (s.pc i).Fine
  history : ∀ i, callsOf i order = returned i ls ++ pending (s.pc i)

variable {st : AllocState} {ls : List (ι × PageLabel)} {order : List (ι × PageCall × PageRet)}
  {s : PageThreads ι} {i : ι} {p p' : PagePc} {m m' : AllocState} {l : PageLabel}

theorem returned_append (j : ι) (l : PageLabel) :
    returned j (ls ++ [(i, l)]) = returned j ls ++ returned j [(i, l)] :=
  List.filterMap_append

theorem returned_other {j : ι} (h : j ≠ i) (l : PageLabel) : returned j [(i, l)] = [] := by
  cases l <;> simp [returned, h.symm]

/-- A step that does not leave the lock. -/
theorem history_keep (h : PageLockInv st ls order s)
    (hp : returned i [(i, l)] ++ pending p' = pending (s.pc i)) (j : ι) :
    callsOf j order = returned j (ls ++ [(i, l)]) ++ pending ((s.move i m' p').pc j) := by
  rw [returned_append]
  rcases eq_or_ne j i with rfl | hne
  · rw [Threads.pc_move_self, List.append_assoc, hp]
    exact h.history j
  · rw [Threads.pc_move_of_ne hne, returned_other hne, List.append_nil]
    exact h.history j

theorem history_release (h : PageLockInv st ls order s) (hnone : pending (s.pc i) = [])
    {c : PageCall × PageRet} (hp : pending p' = [c]) (hl : returned i [(i, l)] = []) (j : ι) :
    callsOf j (order ++ [(i, c)]) =
      returned j (ls ++ [(i, l)]) ++ pending ((s.move i m' p').pc j) := by
  have hj := h.history j
  rw [returned_append, callsOf, List.filterMap_append, ← callsOf, hj]
  rcases eq_or_ne j i with rfl | hne
  · rw [Threads.pc_move_self, hnone, hp, hl]
    simp
  · rw [Threads.pc_move_of_ne hne, returned_other hne]
    simp [hne.symm]

theorem forall_fine (h : PageLockInv st ls order s) (hp : p'.Fine) (m : AllocState) (j : ι) :
    ((s.move i m p').pc j).Fine :=
  Threads.forall_move (P := fun _ => PagePc.Fine) hp (fun j _ => h.fine j) j

/-- A step outside of the lock that leaves the memory alone. -/
theorem PageLockInv.outside (h : PageLockInv st ls order s) (hi : ¬ (s.pc i).Holds)
    (hp : ¬ p'.Holds) (hfine : p'.Fine)
    (hpend : returned i [(i, l)] ++ pending p' = pending (s.pc i)) :
    PageLockInv st (ls ++ [(i, l)]) order (s.move i s.mem p') :=
  ⟨h.val, h.exclusive.keep Iff.rfl (iff_of_false hp hi), h.serial.keep hi hp,
    forall_fine h hfine _, history_keep h hpend⟩

/-- The places of the critical section that the holder moves between. -/
structure PagePc.Inside (p : PagePc) : Prop where
  holds : p.Holds
  fine : p.Fine
  pending : PageInterleaving.pending p = []

/-- A step of the holder inside its critical section. -/
theorem PageLockInv.inside (h : PageLockInv st ls order s) (hi : (s.pc i).Inside)
    (hp : p'.Inside) (hval : m'.pallocLock = s.mem.pallocLock)
    (hrest : rest p' m' = rest (s.pc i) s.mem) (hl : returned i [(i, l)] = []) :
    PageLockInv st (ls ++ [(i, l)]) order (s.move i m' p') := by
  constructor
  · rw [Threads.mem_move, hval]
    exact h.val
  · refine h.exclusive.keep ?_ (iff_of_true hp.holds hi.holds)
    rw [hval]
  · refine h.serial.inside h.exclusive hi.holds hp.holds ?_
    rw [hrest]
  · exact forall_fine h hp.fine _
  · apply history_keep h
    rw [hl, hp.pending, hi.pending, List.append_nil]

theorem PageLockInv.acquire (h : PageLockInv st ls order s) {a : PageCall} {ap : AcquirePc}
    (hpc : pending (s.pc i) = []) (hfree : s.mem.pallocLock.val = 0)
    (hm : m' = { s.mem with pallocLock := { s.mem.pallocLock with val := 1 } })
    (hholds : (PagePc.lock a ap).Holds) (hfine : (PagePc.lock a ap).Fine) :
    PageLockInv st (ls ++ [(i, .inside)]) order (s.move i m' (.lock a ap)) := by
  subst hm
  have hnot : ¬ s.mem.pallocLock.val = 1 := by
    rw [hfree]
    decide
  constructor
  · exact Or.inr rfl
  · exact h.exclusive.acquire hnot rfl hholds
  · exact h.serial.acquire (h.exclusive.not_taken_iff.mp hnot) hholds (serial_restCall hfree a)
  · exact forall_fine h hfine _
  · apply history_keep h
    exact hpc.symm

theorem PageLockInv.release (h : PageLockInv st ls order s) (hi : (s.pc i).Holds)
    (hnone : pending (s.pc i) = []) (hp : ¬ p'.Holds) (hfine : p'.Fine)
    (hpend : pending p' = [(rest (s.pc i) s.mem).1])
    (hrest : (rest (s.pc i) s.mem).2 = unlockPalloc s.mem) :
    PageLockInv st (ls ++ [(i, .inside)]) (order ++ [(i, (rest (s.pc i) s.mem).1)])
      (s.move i (unlockPalloc s.mem) p') := by
  have htaken : s.mem.pallocLock.val = 1 := h.exclusive.taken_iff.mpr ⟨i, hi⟩
  have hzero : (unlockPalloc s.mem).pallocLock.val = 0 := by
    rw [unlockPalloc, spinLockRelease_taken htaken]
  constructor
  · exact Or.inl hzero
  · refine h.exclusive.release hi ?_ hp
    rw [hzero]
    decide
  · exact h.serial.release h.exclusive hi hp hrest
  · exact forall_fine h hfine _
  · exact history_release h hnone hpend rfl

theorem inside_found (cnt idx : Nat) : (found m cnt idx).Inside := by
  rw [found]
  split_ifs <;> exact ⟨trivial, trivial, rfl⟩

theorem inside_counted (addr cnt seen : Nat) : (counted addr cnt seen).Inside := by
  rw [counted]
  split_ifs <;> exact ⟨trivial, trivial, rfl⟩

theorem inside_enter (a : PageCall) : (enter m a).Inside := by
  cases a with
  | palloc cnt => exact ⟨trivial, trivial, rfl⟩
  | pfree addr cnt =>
      rw [enter]
      split_ifs <;> exact ⟨trivial, trivial, rfl⟩

theorem inside_findRound (cnt left j seen start : Nat) :
    (findRound m cnt left j seen start).Inside := by
  rw [findRound]
  split_ifs <;> first | exact inside_found _ _ | exact ⟨trivial, trivial, rfl⟩

theorem PageLockInv.next (h : PageLockInv st ls order s) (hkeeps : KeepsPages s (i, l))
    (hm : s.mem = m) (hpc : s.pc i = p) (hnext : PageNext l m p m' p') :
    ∃ order', PageLockInv st (ls ++ [(i, l)]) order' (s.move i m' p') := by
  have hfine : p.Fine := hpc ▸ h.fine i
  subst hm
  cases hnext with
  | call _ a =>
      refine ⟨order, h.outside ?_ id trivial ?_⟩ <;> rw [hpc]
      · exact id
      · rfl
  | acquire _ a hacq =>
      obtain ⟨hfine', hnot, ⟨rfl, hnot'⟩ | ⟨hfree, rfl, hholds⟩⟩ := hacq.cases h.val hfine
      · refine ⟨order, h.outside ?_ hnot' hfine' ?_⟩ <;> rw [hpc]
        · exact hnot
        · rfl
      · exact ⟨order, h.acquire (by rw [hpc]; rfl) hfree rfl hholds hfine'⟩
  | failed _ a code hcode => exact absurd hfine hcode
  | enter _ a code hcode =>
      refine ⟨order, h.inside ?_ (inside_enter a) rfl ?_ rfl⟩ <;> rw [hpc]
      · exact ⟨hcode, hfine, rfl⟩
      · exact rest_enter
  | findBit _ cnt left j seen start =>
      refine ⟨order, h.inside ?_ (inside_findRound cnt left j seen start) rfl ?_ rfl⟩ <;> rw [hpc]
      · exact ⟨trivial, trivial, rfl⟩
      · exact rest_findRound
  | findEnd _ cnt j seen start =>
      refine ⟨order, h.inside ?_ (inside_found cnt _) rfl ?_ rfl⟩ <;> rw [hpc]
      · exact ⟨trivial, trivial, rfl⟩
      · exact rest_found
  | setRead _ cnt idx left j =>
      refine ⟨order, h.inside ?_ ⟨trivial, trivial, rfl⟩ rfl ?_ rfl⟩ <;> rw [hpc]
      · exact ⟨trivial, trivial, rfl⟩
      · rfl
  | setWrite _ cnt idx left j w =>
      refine ⟨order, h.inside ?_ ⟨trivial, trivial, rfl⟩ rfl ?_ rfl⟩ <;> rw [hpc]
      · exact ⟨trivial, trivial, rfl⟩
      · rfl
  | setEnd _ cnt idx j =>
      refine ⟨order, h.inside ?_ ⟨trivial, trivial, rfl⟩ rfl ?_ rfl⟩ <;> rw [hpc]
      · exact ⟨trivial, trivial, rfl⟩
      · rfl
  | countBit _ addr cnt left j seen =>
      refine ⟨order, h.inside ?_ ⟨trivial, trivial, rfl⟩ rfl ?_ rfl⟩ <;> rw [hpc]
      · exact ⟨trivial, trivial, rfl⟩
      · rfl
  | countEnd _ addr cnt j seen =>
      refine ⟨order, h.inside ?_ (inside_counted addr cnt seen) rfl ?_ rfl⟩ <;> rw [hpc]
      · exact ⟨trivial, trivial, rfl⟩
      · exact rest_counted
  | give _ a r =>
      refine ⟨_, h.release ?_ ?_ id trivial ?_ ?_⟩ <;> rw [hpc]
      · exact trivial
      · rfl
      · rfl
      · rfl
  | giveClear _ addr cnt =>
      have hzero := hkeeps addr cnt hpc
      subst hzero
      have hrounds : rounds (pageIdx addr) 0 = 0 := Nat.sub_eq_zero_of_le (Nat.mod_le _ _)
      rw [hrounds]
      refine ⟨_, h.release ?_ ?_ id ⟨rfl, rfl⟩ ?_ ?_⟩ <;> rw [hpc]
      · exact trivial
      · rfl
      · rw [rest, restCounted, if_pos rfl]
        rfl
      · rw [rest, restCounted, if_pos rfl, hrounds]
        rfl
  | clearRead _ addr cnt left j => exact absurd hfine.2 (Nat.succ_ne_zero left)
  | clearWrite _ addr cnt left j w => exact hfine.elim
  | clearEnd _ addr cnt j =>
      refine ⟨order, h.outside ?_ id trivial ?_⟩ <;> rw [hpc]
      · exact id
      · rfl
  | returns _ a r =>
      refine ⟨order, h.outside ?_ id trivial ?_⟩ <;> rw [hpc]
      · exact id
      · simp [returned, pending]

theorem PageLockInv.step {e : ι × PageLabel} {t : PageThreads ι} (h : PageLockInv st ls order s)
    (hstep : Guarded PageStep KeepsPages s e t) :
    ∃ order', PageLockInv st (ls ++ [e]) order' t := by
  obtain ⟨hkeeps, hstep⟩ := hstep
  cases hstep with
  | step hnext => exact h.next hkeeps rfl rfl hnext

/-- A step that writes to the free map is one of the thread that holds the lock. -/
theorem PageLockInv.holds_of_write (h : PageLockInv st ls order s) {e : ι × PageLabel}
    {t : PageThreads ι} (hstep : PageStep s e t) (hwrite : e.2 = .write ∨ t.mem.mem ≠ s.mem.mem) :
    (s.pc e.1).Holds := by
  have hfine := h.fine e.1
  cases hstep with
  | step hnext =>
      obtain ⟨i, l⟩ := e
      dsimp only at hnext hwrite hfine ⊢
      generalize s.pc i = p at hnext hfine ⊢
      cases hnext with
      | setWrite => exact trivial
      | clearWrite => exact hfine.elim
      | _ => simp [unlockPalloc] at hwrite

/-- While no pages are freed, the free map is changed under its lock only, and the calls
that have returned have a serial order that leads to the same memory. -/
theorem page_map_locked (hlock : st.pallocLock.val = 0)
    (hrun : Run (Guarded PageStep KeepsPages) ⟨st, fun _ => .outside⟩ ls s) :
    (∀ e t, PageStep s e t → e.2 = .write ∨ t.mem.mem ≠ s.mem.mem → (s.pc e.1).Holds) ∧
      ((∀ i, s.pc i = .outside) → ∃ order : List (ι × PageCall × PageRet),
        Run (fun st e st' => SerialCall st e.2 st') st order s.mem ∧
          ∀ i, callsOf i order = returned i ls) := by
  have hinit : PageLockInv st [] [] (⟨st, fun _ => .outside⟩ : PageThreads ι) := by
    constructor
    · exact Or.inl hlock
    · constructor
      · intro i j hi _
        exact hi.elim
      · exact iff_of_false (by rw [hlock]; decide) fun ⟨_, hi⟩ => hi
    · have hnone : ∀ i : ι, ¬ PagePc.Holds ((⟨st, fun _ => .outside⟩ : PageThreads ι).pc i) :=
        fun _ hi => hi
      exact Serialized.init hnone
    · exact fun _ => trivial
    · exact fun _ => rfl
  obtain ⟨order, hinv⟩ := hrun.trace_invariant (fun ls s => ∃ order, PageLockInv st ls order s)
    (fun _ _ _ _ ⟨_, h⟩ hstep => h.step hstep) ⟨[], hinit⟩
  rw [List.nil_append] at hinv
  refine ⟨fun e t hstep hwrite => hinv.holds_of_write hstep hwrite, fun hout => ?_⟩
  refine ⟨order, hinv.serial.free fun i hi => ?_, fun i => ?_⟩
  · rw [hout i] at hi
    exact hi
  · have hi := hinv.history i
    rw [hout i] at hi
    exact hi.trans (List.append_nil _)

theorem pageStep_again (h : PageNext l m p m' p') :
    PageStep (s.move i m p) (i, l) (s.move i m' p') := by
  have hpc : PageNext l (s.move i m p).mem ((s.move i m p).pc i) m' p' := by
    rwa [Threads.pc_move_self]
  have hstep : PageStep (s.move i m p) (i, l) ((s.move i m p).move i m' p') := .step hpc
  rwa [Threads.move_move] at hstep

theorem run_count (addr cnt left j seen : Nat) :
    Run PageStep (s.move i m (.count addr cnt left j seen)) (List.replicate left (i, .inside))
      (s.move i m
        (.count addr cnt 0 (j + left) (countRangeLoop m.freeMap m.mem left j seen))) := by
  induction left generalizing j seen with
  | zero => exact .nil _
  | succ left ih =>
      rw [List.replicate_succ, countRangeLoop]
      refine .cons (pageStep_again (.countBit _ _ _ _ _ _)) ?_
      have hrun := ih (j + 1) (if bitmapTest m.freeMap j m.mem then seen + 1 else seen)
      rwa [show j + 1 + left = j + (left + 1) by omega] at hrun

/-- Every `pfree_mult` of pages that passes its test clears them behind the lock. -/
theorem exists_unlocked_write (hlock : s.mem.pallocLock.val = 0) (hpc : s.pc i = .outside)
    {addr cnt : Nat} (haccepts : pfreeAccepts s.mem addr cnt) (hcnt : 0 < cnt) :
    ∃ ls t u, Run PageStep s ls t ∧ PageStep t (i, .write) u ∧ ¬ (t.pc i).Holds := by
  obtain ⟨hsize, hcount⟩ := haccepts
  have hcall : PageStep s (i, .call (.pfree addr cnt))
      (s.move i s.mem (.lock (.pfree addr cnt) .entry)) :=
    .step (by rw [hpc]; exact .call _ _)
  have hbusy : ¬ (testAndSet s.mem.pallocLock.val).1 > 0 := by
    rw [hlock]
    decide
  obtain ⟨k, hk⟩ : ∃ k, rounds (pageIdx addr) cnt = k + 1 := by
    refine Nat.exists_eq_succ_of_ne_zero fun hzero => hcnt.ne ?_
    rw [← hcount, bitmapCountRange, ← rounds, hzero, countRangeLoop]
  have henter : enter { s.mem with pallocLock := ⟨1, s.mem.pallocLock.owner⟩ } (.pfree addr cnt) =
      .count addr cnt (rounds (pageIdx addr) cnt) (pageIdx addr) 0 := if_pos hsize
  have hlocked : Run PageStep s
      [(i, .call (.pfree addr cnt)), (i, .inside), (i, .inside), (i, .inside), (i, .inside)]
      (s.move i { s.mem with pallocLock := ⟨1, s.mem.pallocLock.owner⟩ }
        (.count addr cnt (rounds (pageIdx addr) cnt) (pageIdx addr) 0)) := by
    rw [← henter]
    refine .cons hcall (.cons (pageStep_again (.acquire _ _ (.read _))) ?_)
    refine .cons (pageStep_again (.acquire _ _ (.good _ _ (Or.inl hlock)))) ?_
    refine .cons (pageStep_again (.acquire _ _ (.acquire _ hbusy))) ?_
    exact .single (pageStep_again (.enter _ _ _ rfl))
  have hcleared := (hlocked.append (run_count addr cnt _ _ 0)).append
    (.cons (pageStep_again (.countEnd _ _ _ _ _)) (.nil _))
  have hcounted : counted addr cnt (countRangeLoop s.mem.freeMap s.mem.mem
      (rounds (pageIdx addr) cnt) (pageIdx addr) 0) = .giveClear addr cnt := if_pos hcount
  rw [hcounted] at hcleared
  have hgiven := hcleared.append (.single (pageStep_again (.giveClear _ _ _)))
  rw [hk] at hgiven
  refine ⟨_, _, _, hgiven.append (.single (pageStep_again (.clearRead _ _ _ _ _))),
    pageStep_again (.clearWrite _ _ _ _ _ _), ?_⟩
  rw [Threads.pc_move_self]
  exact id

/-- A map of 64 pages of which page 1 is allocated. -/
def oneTaken : AllocState :=
  { bootState (bitmapSet ⟨startAddr, 64⟩ 1 fun _ => 0) with freeMap := ⟨startAddr, 64⟩ }

/-- A thread that frees page 1 changes the map when it does not hold the lock. -/
theorem not_page_map_locked :
    ∃ (ls : List (Nat × PageLabel)) (t u : PageThreads Nat),
      Run PageStep ⟨oneTaken, fun _ => .outside⟩ ls t ∧ PageStep t (0, .write) u ∧
        ¬ (t.pc 0).Holds := by
  have haccepts : pfreeAccepts oneTaken (startAddr + pgSize) 1 := by decide
  exact exists_unlocked_write rfl rfl haccepts Nat.one_pos

theorem kept_step (i : ι) (h : PageNext l s.mem p m' p') (hpc : s.pc i = p)
    (hkeeps : ∀ addr cnt, p ≠ .giveClear addr cnt) :
    Guarded PageStep KeepsPages s (i, l) (s.move i m' p') := by
  subst hpc
  exact ⟨fun addr cnt hgive => absurd hgive (hkeeps addr cnt), .step h⟩

/-- Thread 0 allocates page 0 while thread 1, which frees a page that is not allocated, waits
for the lock. -/
theorem run_two_calls :
    ∃ (before : List (Nat × PageLabel)) (s : PageThreads Nat),
      Run (Guarded PageStep KeepsPages) ⟨oneTaken, fun _ => .outside⟩ before s ∧
      s.pc 1 = .lock (.pfree (startAddr + 2 * pgSize) 1) .spin ∧
      ∃ u, Guarded PageStep KeepsPages s (0, .write) u ∧
      ∃ (behind : List (Nat × PageLabel)) (t : PageThreads Nat),
        Run (Guarded PageStep KeepsPages) u behind t ∧ (∀ i, t.pc i = .outside) ∧
        returned 0 (before ++ (0, .write) :: behind) = [(.palloc 1, .addr startAddr)] ∧
        returned 1 (before ++ (0, .write) :: behind) =
          [(.pfree (startAddr + 2 * pgSize) 1, .code (-memFreeFail))] := by
  have hbefore : Run (Guarded PageStep KeepsPages)
      (⟨oneTaken, fun _ => .outside⟩ : PageThreads Nat) _ _ :=
    .cons (kept_step 0 (.call _ (.palloc 1)) rfl (by simp)) <|
    .cons (kept_step 1 (.call _ (.pfree (startAddr + 2 * pgSize) 1)) rfl (by simp)) <|
    .cons (kept_step 0 (.acquire _ _ (.read _)) rfl (by simp)) <|
    .cons (kept_step 0 (.acquire _ _ (.good _ _ (Or.inl rfl))) rfl (by simp)) <|
    .cons (kept_step 0 (.acquire _ _ (.acquire _ (by decide))) rfl (by simp)) <|
    .cons (kept_step 0 (.enter _ _ _ rfl) rfl (by simp)) <|
    .cons (kept_step 1 (.acquire _ _ (.read _)) rfl (by simp)) <|
    .cons (kept_step 1 (.acquire _ _ (.good _ _ (Or.inr rfl))) rfl (by simp)) <|
    .cons (kept_step 1 (.acquire _ _ (.busy _ (by decide))) rfl (by simp)) <|
    .cons (kept_step 0 (.findBit _ 1 63 0 0 0) rfl (by simp)) <|
    .single (kept_step 0 (.setRead _ 1 0 0 0) rfl (by simp))
  refine ⟨_, _, hbefore, rfl, _, kept_step 0 (.setWrite _ 1 0 0 0 _) rfl (by simp), _, _,
    .cons (kept_step 0 (.setEnd _ 1 0 1) rfl (by simp)) <|
    .cons (kept_step 0 (.give _ (.palloc 1) (.addr (pageAddr 0))) rfl (by simp)) <|
    .cons (kept_step 1 (.acquire _ _ (.acquire _ (by decide))) rfl (by simp)) <|
    .cons (kept_step 1 (.enter _ _ _ rfl) rfl (by simp)) <|
    .cons (kept_step 0 (.returns _ _ _) rfl (by simp)) <|
    .cons (kept_step 1 (.countBit _ (startAddr + 2 * pgSize) 1 0 2 0) rfl (by simp)) <|
    .cons (kept_step 1 (.countEnd _ (startAddr + 2 * pgSize) 1 3 0) rfl (by simp)) <|
    .cons (kept_step 1 (.give _ _ (.code (-memFreeFail))) rfl (by simp)) <|
    .single (kept_step 1 (.returns _ _ _) rfl (by simp)), ?_, rfl, rfl⟩
  intro i
  by_cases h0 : i = 0 <;> by_cases h1 : i = 1 <;> simp [Threads.move, Function.update, h0, h1]

theorem page_map_locked_two :
    ∃ (before behind : List (Nat × PageLabel)) (s t : PageThreads Nat),
      Run PageStep ⟨oneTaken, fun _ => .outside⟩ before s ∧
      Run PageStep s ((0, .write) :: behind) t ∧
      ((s.pc 0).Holds ∧ s.pc 1 = .lock (.pfree (startAddr + 2 * pgSize) 1) .spin) ∧
      (∃ order : List (Nat × PageCall × PageRet),
        Run (fun st e st' => SerialCall st e.2 st') oneTaken order t.mem ∧
          ∀ i, callsOf i order = returned i (before ++ (0, .write) :: behind)) ∧
      returned 0 (before ++ (0, .write) :: behind) = [(.palloc 1, .addr startAddr)] ∧
      returned 1 (before ++ (0, .write) :: behind) =
        [(.pfree (startAddr + 2 * pgSize) 1, .code (-memFreeFail))] := by
  obtain ⟨before, s, hbefore, hwaits, u, hwrite, behind, t, hbehind, hout, hfirst, hsecond⟩ :=
    run_two_calls
  have hrun := Run.cons hwrite hbehind
  refine ⟨before, behind, s, t, hbefore.of_guarded, hrun.of_guarded, ⟨?_, hwaits⟩, ?_, hfirst,
    hsecond⟩
  · exact (page_map_locked rfl hbefore).1 _ u hwrite.2 (Or.inl rfl)
  · exact (page_map_locked rfl (hbefore.append hrun)).2 hout

end Safety

end Longhorn.PageInterleaving
