import Mathlib.Data.List.Perm.Subperm
import Longhorn.IntrusiveList
import Longhorn.SpinLockSafety

/-!
The semaphore of `libk/synch.c`: threads that run its calls, one access to the lock, the
value or the waiters at a time.  The units that it hands out are covered as long as no
thread has to wait for one.
-/

namespace Longhorn.SemaphoreSafety

open Longhorn.Foundations.LinkedNodes
open Longhorn.Foundations.TransitionRuns
open Longhorn.Foundations.ThreadInterleaving
open Longhorn.IntrusiveList
open Longhorn.AtomicSpinLock
open Longhorn.SpinLockSafety

/-- The sentinels of `waiters`, and the `node` behind a thread pointer, `none` for `NULL`. -/
inductive SemNode where
  | head
  | tail
  | node (thread : Option Nat)
  deriving DecidableEq

def waiters : ListRef SemNode := ⟨.head, .tail⟩

/-- `struct semaphore`, with the nodes of its list.  No code reads the last fields: the calls
of `semaphore_up` that have entered their critical section, the threads that have taken
a unit, those whose call has returned with it, and the threads that have been unblocked
since they became waiters. -/
structure Semaphore where
  val : Int
  lock : SpinLock
  heap : Heap SemNode
  entered : Nat
  took : List Nat
  downed : List Nat
  woken : Nat → Bool

def semaphoreInit (heap : Heap SemNode) (val : Int) : Semaphore :=
  ⟨val, spinLockInit, listInit waiters heap, 0, [], [], fun _ => false⟩

inductive SemCall where
  | down
  | tryDown
  | up
  deriving DecidableEq

/-- Where a thread is.  In its critical section it tests the value or the list, and
changes the value by loading and storing it. -/
inductive SemPc where
  | outside
  | lock (a : SemCall) (p : AcquirePc)
  | test (a : SemCall)
  | load (a : SemCall)
  | store (a : SemCall) (v : Int)
  | giveWait
  | block
  | relock (p : AcquirePc)
  | give (a : SemCall) (code : Int)
  | done (a : SemCall) (code : Int)

/-- What a call returns when nothing fails. -/
def SemCall.success : SemCall → Int
  | .up => lockRelSucc
  | _ => lockAcqSucc

/-- `val--` and `val++`. -/
def SemCall.change (v : Int) : SemCall → Int
  | .up => wrapInt (v + 1)
  | _ => wrapInt (v - 1)

/-- The call takes a unit. -/
def SemCall.Takes (a : SemCall) : Prop := a ≠ .up

instance (a : SemCall) : Decidable a.Takes := inferInstanceAs (Decidable (a ≠ .up))

def Semaphore.enter (s : Semaphore) (a : SemCall) : Semaphore :=
  if a.Takes then s else { s with entered := s.entered + 1 }

/-- The thread `i` is among the waiters as the thread that its lock names. -/
def Semaphore.enqueue (s : Semaphore) (i : Nat) (heap : Heap SemNode) : Semaphore :=
  { s with heap := heap, woken := Function.update s.woken i false }

/-- `thread_unblock` of the thread in which the popped node lies. -/
def Semaphore.wake (s : Semaphore) (node : Option SemNode) (heap : Heap SemNode) : Semaphore :=
  match node with
  | some (.node (some t)) => { s with heap := heap, woken := Function.update s.woken t true }
  | _ => { s with heap := heap }

def Semaphore.store (s : Semaphore) (i : Nat) (a : SemCall) (v : Int) : Semaphore :=
  { s with val := a.change v, took := if a.Takes then i :: s.took else s.took }

def Semaphore.unlock (s : Semaphore) : Semaphore :=
  { s with lock := (spinLockRelease s.lock).2 }

def Semaphore.finish (s : Semaphore) (i : Nat) (a : SemCall) (code : Int) : Semaphore :=
  { s with downed := if a.Takes ∧ code = lockAcqSucc then i :: s.downed else s.downed }

/-- What a call returns that gives the lock back with `code` in mind. -/
def giveCode (s : Semaphore) (code : Int) : Int :=
  if code < 0 then code
  else if (spinLockRelease s.lock).1 < 0 then (spinLockRelease s.lock).1 else code

/-- The steps of a thread; the label names it and the call that it starts.  When
`thread_block` returns is up to the scheduler. -/
inductive SemNext : Nat × Option SemCall → Semaphore → SemPc → Semaphore → SemPc → Prop
  | call (s : Semaphore) (i : Nat) (a : SemCall) :
      SemNext (i, some a) s .outside s (.lock a .entry)
  | acquire (s : Semaphore) (i : Nat) (a : SemCall) {p p' : AcquirePc} {sl : SpinLock}
      (h : AcquireNext s.lock p sl p') :
      SemNext (i, none) s (.lock a p) { s with lock := sl } (.lock a p')
  | failed (s : Semaphore) (i : Nat) (a : SemCall) (code : Int) (h : code < 0) :
      SemNext (i, none) s (.lock a (.ret code)) s (.done a code)
  | enter (s : Semaphore) (i : Nat) (a : SemCall) (code : Int) (h : ¬ code < 0) :
      SemNext (i, none) s (.lock a (.ret code)) (s.enter a) (.test a)
  | take (s : Semaphore) (i : Nat) (a : SemCall) (ha : a.Takes) (h : s.val > 0) :
      SemNext (i, none) s (.test a) s (.load a)
  | enqueue (s : Semaphore) (i : Nat) (heap : Heap SemNode) (h : ¬ s.val > 0)
      (hinsert : listInsert waiters (.node s.lock.owner) s.heap = some heap) :
      SemNext (i, none) s (.test .down) (s.enqueue i heap) .giveWait
  | refuse (s : Semaphore) (i : Nat) (h : ¬ s.val > 0) :
      SemNext (i, none) s (.test .tryDown) s (.give .tryDown (-lockAcqFail))
  | wake (s : Semaphore) (i : Nat) (node : Option SemNode) (heap : Heap SemNode)
      (h : ¬ listIsEmpty waiters s.heap = true)
      (hpop : listPop waiters s.heap = some (node, heap)) :
      SemNext (i, none) s (.test .up) (s.wake node heap) (.give .up lockRelSucc)
  | add (s : Semaphore) (i : Nat) (h : listIsEmpty waiters s.heap = true) :
      SemNext (i, none) s (.test .up) s (.load .up)
  | load (s : Semaphore) (i : Nat) (a : SemCall) :
      SemNext (i, none) s (.load a) s (.store a s.val)
  | store (s : Semaphore) (i : Nat) (a : SemCall) (v : Int) :
      SemNext (i, none) s (.store a v) (s.store i a v) (.give a a.success)
  | giveWait (s : Semaphore) (i : Nat) :
      SemNext (i, none) s .giveWait s.unlock
        (if (spinLockRelease s.lock).1 < 0 then .done .down (spinLockRelease s.lock).1 else .block)
  | block (s : Semaphore) (i : Nat) : SemNext (i, none) s .block s (.relock .entry)
  | relock (s : Semaphore) (i : Nat) {p p' : AcquirePc} {sl : SpinLock}
      (h : AcquireNext s.lock p sl p') :
      SemNext (i, none) s (.relock p) { s with lock := sl } (.relock p')
  | relocked (s : Semaphore) (i : Nat) (code : Int) :
      SemNext (i, none) s (.relock (.ret code)) s (.give .down lockAcqSucc)
  | give (s : Semaphore) (i : Nat) (a : SemCall) (code : Int) :
      SemNext (i, none) s (.give a code) s.unlock (.done a (giveCode s code))
  | returns (s : Semaphore) (i : Nat) (a : SemCall) (code : Int) :
      SemNext (i, none) s (.done a code) (s.finish i a code) .outside

abbrev SemState := Threads Nat Semaphore SemPc

abbrev SemStep : SemState → Nat × Option SemCall → SemState → Prop := ThreadStep Prod.fst SemNext

/-- All threads are outside of a semaphore that has just been initialised. -/
def semStart (heap : Heap SemNode) (val : Int) : SemState :=
  ⟨semaphoreInit heap val, fun _ => .outside⟩

/-- The thread is inside `semaphore_down` and waits to be unblocked. -/
def Waiting (s : SemState) (t : Nat) : Prop :=
  (s.pc t = .giveWait ∨ s.pc t = .block) ∧ s.mem.woken t = false

/-- The units handed out are covered, the value is not negative, and the list holds the
threads that wait. -/
structure SemSafe (n : Int) (s : SemState) : Prop where
  covered : (s.mem.downed.length : Int) ≤ n + s.mem.entered
  val : 0 ≤ s.mem.val
  waiting : ∃ xs, IsList s.mem.heap waiters xs ∧
    ∀ a, a ∈ xs ↔ ∃ t, a = .node (some t) ∧ Waiting s t

/-- A `semaphore_up` that finds threads waiting releases one of them. -/
def ReleasesOne (s : SemState) (e : Nat × Option SemCall) (s' : SemState) : Prop :=
  s.pc e.1 = .test .up → (∃ t, Waiting s t) →
    ∃ t, Waiting s t ∧ ∀ u, Waiting s' u ↔ Waiting s u ∧ u ≠ t

/-- The thread is between its acquire and its release of the lock. -/
def SemPc.Holds : SemPc → Prop
  | .lock _ p => p.Holds
  | .test _ => True
  | .load _ => True
  | .store _ _ => True
  | .giveWait => True
  | .relock p => p.Holds
  | .give _ _ => True
  | _ => False

/-- What a thread knows by itself: it has found a unit, and its call has not failed. -/
def SemPc.Fine (val : Int) : SemPc → Prop
  | .outside => True
  | .lock _ p => p.Fine
  | .test _ => True
  | .load a => a.Takes → 0 < val
  | .store a v => v = val ∧ (a.Takes → 0 < v)
  | .give a code => code = lockAcqSucc ∨ (a = .tryDown ∧ code = -lockAcqFail)
  | .done a code => code = lockAcqSucc ∨ (a = .tryDown ∧ code = -lockAcqFail)
  | _ => False

/-- The call has taken a unit that it has not returned with yet. -/
def SemPc.taken : SemPc → Nat
  | .give a code => if a.Takes ∧ code = lockAcqSucc then 1 else 0
  | .done a code => if a.Takes ∧ code = lockAcqSucc then 1 else 0
  | _ => 0

/-- A `semaphore_up` that has not changed the value yet. -/
def SemPc.Adding : SemPc → Prop
  | .test a => ¬ a.Takes
  | .load a => ¬ a.Takes
  | .store a _ => ¬ a.Takes
  | _ => False

/-- A `semaphore_down` finds a unit, and a `semaphore_up` a value that it can increment. -/
def FindsUnit (s : SemState) (e : Nat × Option SemCall) : Prop :=
  (s.pc e.1 = .test .down → 0 < s.mem.val) ∧
    ∀ v, s.pc e.1 = .store .up v → v + 1 < 2 ^ 31

structure SemInv (n : Int) (s : SemState) : Prop where
  lock : s.mem.lock.val = 0 ∨ s.mem.lock.val = 1
  owner : s.mem.lock.owner = none
  exclusive : Exclusive (fun m : Semaphore => m.lock.val = 1) SemPc.Holds s
  list : IsList s.mem.heap waiters []
  fine : ∀ i, (s.pc i).Fine s.mem.val
  counts : ∀ i, s.mem.took.count i = s.mem.downed.count i + (s.pc i).taken
  nonneg : 0 ≤ s.mem.val
  below : s.mem.val < 2 ^ 31
  total : s.mem.val + s.mem.took.length ≤ n + s.mem.entered
  adding : ∀ i, (s.pc i).Adding → s.mem.val + s.mem.took.length < n + s.mem.entered

section Invariant

variable {n val : Int} {s s' : SemState} {i : Nat} {p p' : SemPc} {m m' : Semaphore}
  {a : SemCall} {e : Nat × Option SemCall} {heap : Heap SemNode}

theorem SemPc.Adding.holds (h : p.Adding) : p.Holds := by
  cases p <;> first | exact h.elim | trivial

/-- A thread outside of the critical section does not look at the value. -/
theorem SemPc.Fine.of_not_holds (h : p.Fine val) (hp : ¬ p.Holds) (v : Int) : p.Fine v := by
  cases p <;> first | exact h | exact absurd trivial hp

theorem SemInv.waits (h : SemInv n s) (t : Nat) : ¬ Waiting s t := by
  have ht := h.fine t
  rintro ⟨hpc | hpc, _⟩ <;> exact (congrArg (SemPc.Fine s.mem.val) hpc).mp ht

theorem SemInv.length_le (h : SemInv n s) : s.mem.downed.length ≤ s.mem.took.length := by
  refine (List.subperm_ext_iff.mpr fun i _ => ?_).length_le
  rw [h.counts i]
  exact Nat.le_add_right _ _

theorem SemInv.safe (h : SemInv n s) : SemSafe n s := by
  have hcovered := h.length_le
  have htotal := h.total
  have hval := h.nonneg
  refine ⟨by omega, hval, [], h.list, fun a => iff_of_false List.not_mem_nil ?_⟩
  rintro ⟨t, _, ht⟩
  exact h.waits t ht

theorem SemInv.others (h : SemInv n s) (hi : (s.pc i).Holds) {j : Nat} (hj : j ≠ i) :
    ¬ (s.pc j).Holds :=
  fun hholds => hj (h.exclusive.unique j i hholds hi)

/-- What is known of every thread when one of them moves on. -/
theorem SemInv.fine_move (h : SemInv n s) (hp : p'.Fine s.mem.val) (j : Nat) :
    ((s.move i m' p').pc j).Fine s.mem.val :=
  Threads.forall_move (P := fun _ p => SemPc.Fine s.mem.val p) hp (fun j _ => h.fine j) j

theorem SemInv.counts_move (h : SemInv n s)
    (hself : s.mem.took.count i = s.mem.downed.count i + p'.taken) (j : Nat) :
    s.mem.took.count j = s.mem.downed.count j + ((s.move i m' p').pc j).taken :=
  Threads.forall_move (P := fun j p => s.mem.took.count j = s.mem.downed.count j + SemPc.taken p)
    hself (fun j _ => h.counts j) j

theorem SemInv.counts_same (h : SemInv n s) (hpc : s.pc i = p) (htaken : p'.taken = p.taken)
    (j : Nat) : s.mem.took.count j = s.mem.downed.count j + ((s.move i m' p').pc j).taken := by
  refine h.counts_move ?_ j
  rw [htaken, ← hpc]
  exact h.counts i

theorem SemInv.adding_move (h : SemInv n s)
    (hself : p'.Adding → s.mem.val + s.mem.took.length < n + s.mem.entered) (j : Nat) :
    ((s.move i m' p').pc j).Adding → s.mem.val + s.mem.took.length < n + s.mem.entered :=
  Threads.forall_move (P := fun _ p => SemPc.Adding p → s.mem.val + s.mem.took.length <
    n + s.mem.entered) hself (fun j _ => h.adding j) j

/-- Only the holder of the lock adds a unit. -/
theorem SemInv.not_adding (h : SemInv n s) (hi : (s.pc i).Holds) (hp : ¬ p'.Adding) (j : Nat) :
    ¬ ((s.move i m' p').pc j).Adding :=
  Threads.forall_move (P := fun _ p => ¬ SemPc.Adding p) hp
    (fun _ hk hadds => h.others hi hk hadds.holds) j

/-- A step that leaves the semaphore alone, and changes nothing that is counted. -/
theorem SemInv.quiet (h : SemInv n s) (hpc : s.pc i = p) (hholds : p'.Holds ↔ p.Holds)
    (hfine : p'.Fine s.mem.val) (htaken : p'.taken = p.taken) (hadding : p'.Adding → p.Adding) :
    SemInv n (s.move i s.mem p') where
  lock := h.lock
  owner := h.owner
  exclusive := h.exclusive.keep Iff.rfl (by rw [hpc, hholds])
  list := h.list
  fine := h.fine_move hfine
  counts := h.counts_same hpc htaken
  nonneg := h.nonneg
  below := h.below
  total := h.total
  adding := h.adding_move fun hp => h.adding i (hpc ▸ hadding hp)

/-- A thread takes the free lock. -/
theorem SemInv.acquire (h : SemInv n s) (hpc : s.pc i = p) (hfree : s.mem.lock.val = 0)
    (hholds : p'.Holds) (hfine : p'.Fine s.mem.val) (htaken : p'.taken = p.taken)
    (hadding : ¬ p'.Adding) :
    SemInv n (s.move i { s.mem with lock := { s.mem.lock with val := 1 } } p') where
  lock := Or.inr rfl
  owner := h.owner
  exclusive := by
    refine h.exclusive.acquire ?_ rfl hholds
    rw [hfree]
    decide
  list := h.list
  fine := h.fine_move hfine
  counts := h.counts_same hpc htaken
  nonneg := h.nonneg
  below := h.below
  total := h.total
  adding := h.adding_move fun hp => absurd hp hadding

/-- A `semaphore_up` is counted when it enters its critical section. -/
theorem SemInv.enter (h : SemInv n s) (hpc : s.pc i = p) (hp : p.Holds) (htaken : p.taken = 0) :
    SemInv n (s.move i (s.mem.enter a) (.test a)) := by
  have hi : (s.pc i).Holds := hpc ▸ hp
  by_cases ha : a.Takes
  · rw [Semaphore.enter, if_pos ha]
    exact h.quiet hpc (iff_of_true trivial hp) trivial htaken.symm fun hadding => absurd ha hadding
  rw [Semaphore.enter, if_neg ha]
  have htotal := h.total
  refine ⟨h.lock, h.owner, h.exclusive.keep Iff.rfl (iff_of_true trivial hi), h.list, ?_, ?_,
    h.nonneg, h.below, ?_, fun j _ => ?_⟩
  · exact h.fine_move trivial
  · exact h.counts_same hpc htaken.symm
  all_goals
    simp only [Threads.mem_move]
    omega

/-- The holder changes the value and the count of the units that are taken. -/
theorem SemInv.change {w : Int} {ts : List Nat} (h : SemInv n s) (hi : (s.pc i).Holds)
    (hp : p.Holds) (hfine : p.Fine w) (hadding : ¬ p.Adding) (h0 : 0 ≤ w) (hbelow : w < 2 ^ 31)
    (hself : ts.count i = s.mem.downed.count i + p.taken)
    (hothers : ∀ j, j ≠ i → ts.count j = s.mem.took.count j)
    (htotal : w + ts.length ≤ n + s.mem.entered) :
    SemInv n (s.move i { s.mem with val := w, took := ts } p) where
  lock := h.lock
  owner := h.owner
  exclusive := h.exclusive.keep Iff.rfl (iff_of_true hp hi)
  list := h.list
  fine := Threads.forall_move (P := fun _ p => SemPc.Fine w p) hfine fun j hj =>
    (h.fine j).of_not_holds (h.others hi hj) w
  counts := Threads.forall_move (P := fun j p => ts.count j = s.mem.downed.count j + SemPc.taken p)
    hself fun j hj => (hothers j hj).trans (h.counts j)
  nonneg := h0
  below := hbelow
  total := htotal
  adding := fun j hj => absurd hj (h.not_adding hi hadding j)

theorem SemInv.store {v : Int} (h : SemInv n s) (hpc : s.pc i = .store a v)
    (hfinds : a = .up → v + 1 < 2 ^ 31) :
    SemInv n (s.move i (s.mem.store i a v) (.give a a.success)) := by
  have hi : (s.pc i).Holds := by
    rw [hpc]
    trivial
  have hfine := h.fine i
  have hcount := h.counts i
  have hadding := h.adding i
  rw [hpc] at hfine hcount hadding
  change _ = _ + 0 at hcount
  obtain ⟨rfl, hpos⟩ := hfine
  have hval := h.nonneg
  have hbelow := h.below
  have htotal := h.total
  have hsuccess : a.success = lockAcqSucc := by cases a <;> rfl
  rw [Semaphore.store]
  by_cases ha : a.Takes
  · have hval' := hpos ha
    have hone : a.change s.mem.val = s.mem.val - 1 := by
      cases a with
      | up => exact absurd rfl ha
      | _ => exact wrapInt_of_nonneg (by omega) (by omega)
    rw [hone, if_pos ha]
    refine h.change hi trivial (Or.inl hsuccess) id (by omega) (by omega) ?_ (fun j hj => ?_) ?_
    · rw [List.count_cons_self, hcount, SemPc.taken, if_pos ⟨ha, hsuccess⟩]
    · exact List.count_cons_of_ne hj.symm
    · simp only [List.length_cons]
      omega
  · obtain rfl : a = .up := not_not.mp ha
    have hone : SemCall.up.change s.mem.val = s.mem.val + 1 :=
      wrapInt_of_nonneg (by omega) (hfinds rfl)
    have hless := hadding ha
    rw [hone, if_neg ha]
    refine h.change hi trivial (Or.inl hsuccess) id (by omega) (hfinds rfl) ?_ (fun _ _ => rfl) ?_
    · rw [hcount, SemPc.taken, if_neg fun hp => ha hp.1]
    · omega

/-- The holder gives the lock back. -/
theorem SemInv.give {code : Int} (h : SemInv n s) (hpc : s.pc i = .give a code) :
    SemInv n (s.move i s.mem.unlock (.done a (giveCode s.mem code))) := by
  have hi : (s.pc i).Holds := by
    rw [hpc]
    trivial
  have hfine := h.fine i
  have hcount := h.counts i
  rw [hpc] at hfine hcount
  have htaken : s.mem.lock.val = 1 := h.exclusive.taken_iff.mpr ⟨i, hi⟩
  have hcode : giveCode s.mem code = code := by
    rw [giveCode, spinLockRelease_taken htaken]
    simp
  have hmem : s.mem.unlock = { s.mem with lock := { s.mem.lock with val := 0 } } := by
    rw [Semaphore.unlock, spinLockRelease_taken htaken]
  rw [hmem, hcode]
  refine ⟨Or.inl rfl, h.owner, h.exclusive.release hi (by simp) id, h.list, ?_, ?_, h.nonneg,
    h.below, h.total, fun j hj => absurd hj ?_⟩
  · exact h.fine_move hfine
  · exact h.counts_move hcount
  · exact h.not_adding hi id j

/-- A call returns. -/
theorem SemInv.finish {code : Int} (h : SemInv n s) (hpc : s.pc i = .done a code) :
    SemInv n (s.move i (s.mem.finish i a code) .outside) := by
  have hnot : ¬ (s.pc i).Holds := by
    rw [hpc]
    exact id
  have hcount := h.counts i
  rw [hpc, SemPc.taken] at hcount
  refine ⟨h.lock, h.owner, h.exclusive.keep Iff.rfl (iff_of_false id hnot), h.list, ?_, ?_,
    h.nonneg, h.below, h.total, ?_⟩
  · exact h.fine_move trivial
  · refine Threads.forall_move (P := fun j p => s.mem.took.count j =
      (s.mem.finish i a code).downed.count j + SemPc.taken p) ?_ fun j hj => ?_
    · rw [Semaphore.finish]
      split at hcount
      · next hs =>
          rw [if_pos hs, List.count_cons_self, hcount]
          rfl
      · next hs =>
          rw [if_neg hs, hcount]
          rfl
    · rw [Semaphore.finish]
      split
      · rw [List.count_cons_of_ne hj.symm]
        exact h.counts j
      · exact h.counts j
  · exact h.adding_move fun hp => hp.elim

theorem SemInv.next (h : SemInv n s) (hfinds : FindsUnit s e) (hmem : s.mem = m)
    (hpc : s.pc e.1 = p) (hnext : SemNext e m p m' p') : SemInv n (s.move e.1 m' p') := by
  have hfine : p.Fine s.mem.val := hpc ▸ h.fine e.1
  subst hmem
  cases hnext with
  | call _ i a => exact h.quiet hpc Iff.rfl trivial rfl id
  | acquire _ i a hacq =>
      obtain ⟨hfine', hnot, ⟨rfl, hnot'⟩ | ⟨hfree, rfl, hholds⟩⟩ := hacq.cases h.lock hfine
      · exact h.quiet hpc (iff_of_false hnot' hnot) hfine' rfl id
      · exact h.acquire hpc hfree hholds hfine' rfl id
  | failed _ i a code hcode =>
      rw [show code = lockAcqSucc from hfine] at hcode
      exact absurd hcode (by decide)
  | enter _ i a code hcode => exact h.enter hpc hfine rfl
  | take _ i a ha hpos => exact h.quiet hpc Iff.rfl (fun _ => hpos) rfl id
  | enqueue _ i heap hzero hinsert => exact absurd (hfinds.1 hpc) hzero
  | refuse _ i hzero => exact h.quiet hpc Iff.rfl (Or.inr ⟨rfl, rfl⟩) rfl False.elim
  | wake _ i node heap hempty hpop => exact absurd ((listIsEmpty_iff h.list).mpr rfl) hempty
  | add _ i hempty => exact h.quiet hpc Iff.rfl (fun ha => absurd rfl ha) rfl id
  | load _ i a => exact h.quiet hpc Iff.rfl ⟨rfl, hfine⟩ rfl id
  | store _ i a v => exact h.store hpc fun ha => hfinds.2 v (by rw [← ha]; exact hpc)
  | giveWait _ i => exact hfine.elim
  | block _ i => exact hfine.elim
  | relock _ i hacq => exact hfine.elim
  | relocked _ i code => exact hfine.elim
  | give _ i a code => exact h.give hpc
  | returns _ i a code => exact h.finish hpc

theorem SemInv.step (h : SemInv n s) (hstep : Guarded SemStep FindsUnit s e s') : SemInv n s' := by
  obtain ⟨hfinds, ⟨hnext⟩⟩ := hstep
  exact h.next hfinds rfl rfl hnext

theorem semInv_start (heap : Heap SemNode) (hn : 0 ≤ n) (hmax : n < 2 ^ 31) :
    SemInv n (semStart heap n) := by
  have hfree : ¬ (semStart heap n).mem.lock.val = 1 := Int.zero_ne_one
  refine ⟨Or.inl rfl, rfl, ⟨fun i _ hi => hi.elim, iff_of_false hfree fun ⟨_, hi⟩ => hi⟩,
    listInit_isList (by decide) heap, fun _ => trivial, fun _ => rfl, hn, hmax, ?_,
    fun _ hi => hi.elim⟩
  exact Int.le_refl (n + 0)

/-- The thread that finds no unit puts the node behind the `NULL` owner of the lock on the
list, and waits itself. -/
theorem SemInv.not_safe_of_enqueue (h : SemInv n s)
    (hinsert : listInsert waiters (.node s.mem.lock.owner) s.mem.heap = some heap) :
    ¬ SemSafe n (s.move i (s.mem.enqueue i heap) .giveWait) := by
  intro hsafe
  obtain ⟨xs, hlist, hiff⟩ := hsafe.waiting
  have hwaiting : Waiting (s.move i (s.mem.enqueue i heap) .giveWait) i :=
    ⟨Or.inl Threads.pc_move_self, Function.update_self _ _ _⟩
  rw [h.owner] at hinsert
  have hnew : SemNode.node none ∉ waiters.head :: ([] ++ [waiters.tail]) := by decide
  obtain ⟨heap', hinsert', hlist', _⟩ := listInsert_spec h.list hnew
  rw [hinsert, Option.some.injEq] at hinsert'
  rw [← hinsert'] at hlist'
  have hin := (hiff (.node (some i))).mpr ⟨i, rfl, hwaiting⟩
  rw [hlist.unique hlist'] at hin
  simp at hin

/-- Incrementing the largest `int` makes it negative. -/
theorem SemInv.not_safe_of_add {v : Int} (h : SemInv n s) (hpc : s.pc i = .store .up v)
    (hmax : ¬ v + 1 < 2 ^ 31) :
    ¬ SemSafe n (s.move i (s.mem.store i .up v) (.give .up lockRelSucc)) := by
  intro hsafe
  have hfine := h.fine i
  rw [hpc] at hfine
  obtain ⟨rfl, _⟩ := hfine
  have hbelow := h.below
  have hval : (0 : Int) ≤ wrapInt (s.mem.val + 1) := hsafe.val
  rw [wrapInt_of_large (by omega) (by omega)] at hval
  omega

end Invariant

section Calls

variable {s : SemState} {i : Nat} {p p' : SemPc} {m m' : Semaphore}

/-- The next step of a thread whose place does not need a unit. -/
theorem guarded_again (h : SemNext (i, none) m p m' p') (hdown : p = .test .down → 0 < m.val)
    (hup : ∀ v, p = .store .up v → v + 1 < 2 ^ 31) :
    Guarded SemStep FindsUnit (s.move i m p) (i, none) (s.move i m' p') := by
  refine ⟨⟨fun hpc => hdown ?_, fun v hpc => hup v ?_⟩, .again h⟩
  · rwa [Threads.pc_move_self] at hpc
  · rwa [Threads.pc_move_self] at hpc

def Semaphore.locked (s : Semaphore) : Semaphore := { s with lock := { s.lock with val := 1 } }

/-- A thread that nobody interrupts enters its critical section. -/
theorem run_enter (hpc : s.pc i = .outside) (hfree : s.mem.lock.val = 0) (a : SemCall) :
    Run (Guarded SemStep FindsUnit) s [(i, some a), (i, none), (i, none), (i, none), (i, none)]
      (s.move i (s.mem.locked.enter a) (.test a)) := by
  have hcall : Guarded SemStep FindsUnit s (i, some a) (s.move i s.mem (.lock a .entry)) := by
    refine ⟨⟨fun h => ?_, fun v h => ?_⟩, .step (by rw [hpc]; exact .call _ _ _)⟩
    · exact absurd (hpc.symm.trans h) (by simp)
    · exact absurd (hpc.symm.trans h) (by simp)
  have hspin : ¬ (testAndSet s.mem.lock.val).1 > 0 := by
    rw [hfree]
    decide
  have hread := SemNext.acquire s.mem i a (.read _)
  have hgood := SemNext.acquire s.mem i a (.good _ _ (Or.inl hfree))
  have hacquire := SemNext.acquire s.mem i a (.acquire _ hspin)
  have henter := SemNext.enter s.mem.locked i a lockAcqSucc (by decide)
  refine .cons hcall (.cons (guarded_again hread (by simp) (by simp)) ?_)
  refine .cons (guarded_again hgood (by simp) (by simp)) ?_
  refine .cons (guarded_again hacquire (by simp) (by simp)) ?_
  exact .single (guarded_again henter (by simp) (by simp))

/-- A `semaphore_down` that finds a unit takes it and returns. -/
theorem run_take (hpos : 0 < m.val) (hlock : m.lock.val = 1) :
    ∃ es m', m'.downed = i :: m.downed ∧ m'.val = wrapInt (m.val - 1) ∧
      Run (Guarded SemStep FindsUnit) (s.move i m (.test .down)) es (s.move i m' .outside) := by
  have htake := SemNext.take m i .down (by decide) hpos
  have hload := SemNext.load m i .down
  have hstore := SemNext.store m i .down m.val
  have hgive := SemNext.give (m.store i .down m.val) i .down lockAcqSucc
  have hcode : giveCode (m.store i .down m.val) lockAcqSucc = lockAcqSucc := by
    rw [giveCode, Semaphore.store, spinLockRelease_taken hlock]
    rfl
  rw [hcode] at hgive
  have hreturns := SemNext.returns (m.store i .down m.val).unlock i .down lockAcqSucc
  refine ⟨_, _, ?_, ?_, .cons (guarded_again htake (fun _ => hpos) (by simp)) <|
    .cons (guarded_again hload (by simp) (by simp)) <|
    .cons (guarded_again hstore (by simp) (by simp)) <|
    .cons (guarded_again hgive (by simp) (by simp)) <|
    .single (guarded_again hreturns (by simp) (by simp))⟩
  · rfl
  · rfl

end Calls

section Safety

variable {n : Int} {s : SemState} {es : List (Nat × Option SemCall)}

/-- As long as every `semaphore_down` finds a unit the semaphore is safe, and the first one
that finds none breaks it. -/
theorem semaphore_safe_iff (heap : Heap SemNode) (hn : 0 ≤ n) (hmax : n < 2 ^ 31)
    (hrun : Run (Guarded SemStep FindsUnit) (semStart heap n) es s) :
    SemSafe n s ∧ ∀ e s', SemStep s e s' →
      (SemSafe n s' ∧ ReleasesOne s e s' ↔ FindsUnit s e) := by
  have hinv : SemInv n s :=
    hrun.invariant (SemInv n) (fun _ _ _ h hstep => h.step hstep) (semInv_start heap hn hmax)
  refine ⟨hinv.safe, fun e s' hstep => ⟨fun hsafe => ⟨fun hpc => ?_, fun v hpc => ?_⟩,
    fun hfinds => ?_⟩⟩
  · by_contra hzero
    obtain ⟨hnext⟩ := hstep
    rw [hpc] at hnext
    cases hnext with
    | take _ i a ha hpos => exact hzero hpos
    | enqueue _ i heap _ hinsert => exact hinv.not_safe_of_enqueue hinsert hsafe.1
  · by_contra hover
    obtain ⟨hnext⟩ := hstep
    rw [hpc] at hnext
    cases hnext with
    | store _ i a v => exact hinv.not_safe_of_add hpc hover hsafe.1
  · refine ⟨(hinv.step ⟨hfinds, hstep⟩).safe, fun _ ⟨t, ht⟩ => absurd ht (hinv.waits t)⟩

def blankNodes : Heap SemNode := fun _ => ⟨none, none⟩

/-- With one unit, a `semaphore_down` takes it. -/
theorem semaphore_safe_iff_one : ∃ es s,
    Run (Guarded SemStep FindsUnit) (semStart blankNodes 1) es s ∧ s.mem.downed = [3] ∧
      SemSafe 1 s := by
  obtain ⟨es, m, hdowned, _, htake⟩ := run_take (s := semStart blankNodes 1) (i := 3)
    (m := (semaphoreInit blankNodes 1).locked) Int.one_pos rfl
  have hrun := (run_enter (s := semStart blankNodes 1) (i := 3) rfl rfl .down).append htake
  exact ⟨_, _, hrun, hdowned, (semaphore_safe_iff blankNodes (by decide) (by decide) hrun).1⟩

/-- Without a unit, the node behind `NULL` is put on the list in place of the node of the
thread that waits. -/
theorem not_semaphore_safe :
    ∃ es s, Run SemStep (semStart blankNodes 0) es s ∧ ¬ SemSafe 0 s := by
  have hrun := run_enter (s := semStart blankNodes 0) (i := 3) rfl rfl .down
  have hinv := hrun.invariant (SemInv 0) (fun _ _ _ h hstep => h.step hstep)
    (semInv_start blankNodes (Int.le_refl 0) (by decide))
  have hnew : SemNode.node none ∉ waiters.head :: ([] ++ [waiters.tail]) := by decide
  obtain ⟨heap, hinsert, _⟩ := listInsert_spec hinv.list hnew
  have hfull : ¬ (semaphoreInit blankNodes 0).locked.val > 0 := Int.lt_irrefl 0
  have hstep : SemStep ((semStart blankNodes 0).move 3 _ _) (3, none) _ :=
    .again (SemNext.enqueue _ 3 heap hfull hinsert)
  have hbroken := hinv.not_safe_of_enqueue (i := 3) hinsert
  rw [Threads.move_move] at hbroken
  exact ⟨_, _, hrun.of_guarded.append (.single hstep), hbroken⟩

end Safety

end Longhorn.SemaphoreSafety
