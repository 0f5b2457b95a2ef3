import Longhorn.SchedulerRuns

/-!
Thread ids: which runs keep those of the live threads apart.
-/

namespace Longhorn.ThreadIds

open Longhorn.Foundations.TransitionRuns
open Longhorn.IntrusiveList
open Longhorn.ListRefinement
open Longhorn.ListPrograms
open Longhorn.ThreadModel
open Longhorn.KernelRuns
open Longhorn.SchedulerRules
open Longhorn.SchedulerInvariant
open Longhorn.ThreadCalls
open Longhorn.SchedulerRuns

/-- The cores agree on the ids, on which threads are live and on which have been cleaned
up. -/
structure SameIds (c c' : Core) : Prop where
  tid : ∀ t, (c'.threads t).tid = (c.threads t).tid
  tids : c'.tids = c.tids
  live : c'.live = c.live
  released : ∀ t b, .release t b ∈ c'.log ↔ .release t b ∈ c.log

/-- Ids of live threads are different, below the limit and marked as taken; an id is
without a thread from the first cleanup on. -/
structure IdInv (c : Core) : Prop where
  below : ∀ t, c.live t = true → (c.threads t).tid < maxTid
  taken : ∀ t, c.live t = true → c.tids (c.threads t).tid = true
  unique : ∀ t u, c.live t = true → c.live u = true → (c.threads t).tid = (c.threads u).tid → t = u
  lost : ∀ t, .release t true ∈ c.log →
    ∃ i, c.tids i = true ∧ ∀ u, c.live u = true → (c.threads u).tid ≠ i
  held : (∀ t, .release t true ∉ c.log) →
    ∀ i, c.tids i = true → ∃ t, c.live t = true ∧ (c.threads t).tid = i

section Kept

variable {c c' : Core}

theorem SameIds.refl (c : Core) : SameIds c c :=
  ⟨fun _ => rfl, rfl, rfl, fun _ _ => Iff.rfl⟩

theorem SameIds.of_eq (hthreads : c'.threads = c.threads) (htids : c'.tids = c.tids)
    (hlive : c'.live = c.live) (hlog : c'.log = c.log) : SameIds c c' :=
  ⟨fun _ => by rw [hthreads], htids, hlive, fun _ _ => by rw [hlog]⟩

theorem sameIds_note (c : Core) {e : Event} (he : ∀ t b, e ≠ .release t b) :
    SameIds c (c.note e) := by
  refine ⟨fun _ => rfl, rfl, rfl, fun t b => ?_⟩
  simp [Core.note, (he t b).symm]

theorem sameIds_withThread (c : Core) (t : Nat) {f : Thread → Thread}
    (hf : ∀ ti, (f ti).tid = ti.tid) : SameIds c (c.withThread t f) := by
  refine ⟨fun u => ?_, rfl, rfl, fun _ _ => Iff.rfl⟩
  rw [Core.withThread]
  rcases eq_or_ne u t with rfl | hne
  · simp [hf]
  · simp [hne]

theorem SameIds.trans {c1 : Core} (h1 : SameIds c c1) (h2 : SameIds c1 c') : SameIds c c' :=
  ⟨fun t => (h2.tid t).trans (h1.tid t), h2.tids.trans h1.tids, h2.live.trans h1.live,
    fun t b => (h2.released t b).trans (h1.released t b)⟩

theorem sameIds_setState (c : Core) (t : Nat) (s : ThreadState) : SameIds c (c.setState t s) :=
  (sameIds_note c (by rintro _ _ ⟨⟩)).trans (sameIds_withThread _ t fun _ => rfl)

theorem sameIds_noteCall (c : Core) {β : Type} (k : ListCall ListId NodeAddr β) :
    SameIds c (c.noteCall k) := by
  rw [Core.noteCall]
  split
  · exact sameIds_note c (by rintro _ _ ⟨⟩)
  · exact SameIds.refl c

theorem IdInv.same (h : IdInv c) (hs : SameIds c c') : IdInv c' := by
  constructor
  · intro t ht
    rw [hs.live] at ht
    rw [hs.tid]
    exact h.below t ht
  · intro t ht
    rw [hs.live] at ht
    rw [hs.tid, hs.tids]
    exact h.taken t ht
  · intro t u ht hu heq
    rw [hs.live] at ht hu
    rw [hs.tid, hs.tid] at heq
    exact h.unique t u ht hu heq
  · intro t ht
    obtain ⟨i, hi, hno⟩ := h.lost t ((hs.released t true).mp ht)
    refine ⟨i, by rwa [hs.tids], fun u hu => ?_⟩
    rw [hs.live] at hu
    rw [hs.tid]
    exact hno u hu
  · intro hnone i hi
    rw [hs.tids] at hi
    obtain ⟨t, ht, htid⟩ := h.held (fun t ht => hnone t ((hs.released t true).mpr ht)) i hi
    exact ⟨t, by rwa [hs.live], by rwa [hs.tid]⟩

/-- Cleaning up a thread leaves its id behind. -/
theorem IdInv.freeThread (h : IdInv c) (t : Nat) : IdInv (c.freeThread t) := by
  have hlive : ∀ u, (c.freeThread t).live u = true ↔ u ≠ t ∧ c.live u = true := by
    intro u
    change Function.update c.live t false u = true ↔ _
    rcases eq_or_ne u t with rfl | hne
    · simp
    · simp [hne]
  have hlog : ∀ u, .release u true ∈ (c.freeThread t).log ↔
      (u = t ∧ c.live t = true) ∨ .release u true ∈ c.log := by
    intro u
    change Event.release u true ∈ Event.release t (c.live t) :: c.log ↔ _
    rw [List.mem_cons, Event.release.injEq, eq_comm (a := true)]
  constructor
  · exact fun u hu => h.below u ((hlive u).mp hu).2
  · exact fun u hu => h.taken u ((hlive u).mp hu).2
  · exact fun u v hu hv => h.unique u v ((hlive u).mp hu).2 ((hlive v).mp hv).2
  · intro u hu
    rcases (hlog u).mp hu with ⟨rfl, ht⟩ | hold
    · refine ⟨(c.threads u).tid, h.taken u ht, fun v hv heq => ?_⟩
      obtain ⟨hne, hv⟩ := (hlive v).mp hv
      exact hne (h.unique v u hv ht heq)
    · obtain ⟨i, hi, hno⟩ := h.lost u hold
      exact ⟨i, hi, fun v hv => hno v ((hlive v).mp hv).2⟩
  · intro hnone i hi
    obtain ⟨u, hu, htid⟩ := h.held (fun u hu => hnone u ((hlog u).mpr (Or.inr hu))) i hi
    refine ⟨u, (hlive u).mpr ⟨?_, hu⟩, htid⟩
    rintro rfl
    exact hnone u ((hlog u).mpr (Or.inl ⟨rfl, hu⟩))

/-- The property depends on nothing but the ids and on which threads are live. -/
def OfIds (P : Core → Prop) : Prop := ∀ c c', SameIds c c' → P c → P c'

theorem OfIds.modify {P : Core → Prop} (hP : OfIds P) {f : Core → Core}
    (hf : ∀ c, SameIds c (f c)) : Keeps P (modifyCore f : Kernel Unit) :=
  keeps_modifyCore fun c h => hP c (f c) (hf c) h

theorem OfIds.list {P : Core → Prop} (hP : OfIds P) {β : Type}
    (k : ListCall ListId NodeAddr β) : Keeps P (list k) :=
  Keeps.bind (hP.modify fun c => sameIds_noteCall c k) fun _ => ensures_call fun _ _ h => h

theorem ofIds_idInv : OfIds IdInv := fun _ _ hs h => h.same hs

theorem keeps_modify {f : Core → Core} (hf : ∀ c, SameIds c (f c)) :
    Keeps IdInv (modifyCore f : Kernel Unit) :=
  ofIds_idInv.modify hf

theorem keeps_list {β : Type} (k : ListCall ListId NodeAddr β) : Keeps IdInv (list k) :=
  ofIds_idInv.list k

theorem keeps_setState (t : Nat) (s : ThreadState) : Keeps IdInv (setState t s) :=
  keeps_modify fun c => sameIds_setState c t s

theorem keeps_enableInterrupts : Keeps IdInv enableInterrupts :=
  keeps_modify fun _ => SameIds.of_eq rfl rfl rfl rfl

theorem keeps_disableInterrupts : Keeps IdInv disableInterrupts :=
  keeps_modify fun _ => SameIds.of_eq rfl rfl rfl rfl

end Kept

section Calls

theorem keeps_threadUnblock (t : Nat) : Keeps IdInv (threadUnblock t) := by
  apply Keeps.bind (keeps_modify fun c => sameIds_note c (by rintro _ _ ⟨⟩))
  intro _
  apply Keeps.bind keeps_disableInterrupts
  intro _
  apply Keeps.bind (keeps_reads _)
  intro _
  apply keeps_ite keeps_enableInterrupts
  apply Keeps.bind (keeps_list _)
  rintro (_ | node)
  · exact keeps_enableInterrupts
  apply Keeps.bind (keeps_setState _ _)
  intro _
  apply Keeps.bind (keeps_list _)
  intro _
  exact keeps_enableInterrupts

theorem keeps_withProc (p : Core → Nat) (f : Core → Process → Process) :
    Keeps IdInv (modifyCore fun c => c.withProc (p c) (f c) : Kernel Unit) :=
  keeps_modify fun _ => SameIds.of_eq rfl rfl rfl rfl

theorem keepsParts_idInv : KeepsParts IdInv fun _ => True where
  call k _ := keeps_list k
  withProc := keeps_withProc
  waitCode t _ := keeps_modify fun c => sameIds_withThread c t fun _ => rfl
  freeProc _ := keeps_modify fun _ => SameIds.of_eq rfl rfl rfl rfl
  freeThread t := keeps_modifyCore fun _ h => h.freeThread t
  unblock := keeps_threadUnblock

theorem keeps_notify (waiters : ListId) (all : Bool) (ret : Int) :
    Keeps IdInv (notify waiters all ret) :=
  keepsParts_idInv.notifies trivial all ret

theorem keeps_threadCleanup (t : Nat) : Keeps IdInv (threadCleanup t) :=
  keepsParts_idInv.cleansUp (fun _ => trivial) trivial t

theorem keeps_finishSchedule : Keeps IdInv finishSchedule := by
  refine keepsParts_idInv.finishes (Q := fun _ => True) ?_ (fun _ _ => keeps_setState _ _) ?_
  · exact ensures_reads fun _ h => ⟨h, trivial⟩
  · exact fun _ => keeps_modify fun _ => SameIds.of_eq rfl rfl rfl rfl

theorem keeps_pickNext : Keeps IdInv pickNext :=
  keepsParts_idInv.picks trivial (keeps_modify fun c => sameIds_note c (by rintro _ _ ⟨⟩))

theorem keeps_requeue (t : Nat) : Keeps IdInv (requeue t) :=
  keeps_requeue_of (keeps_setState t .ready) fun k => keeps_list k

theorem keeps_dispatch (current next : Nat) : Keeps IdInv (dispatch current next) := by
  have hrest : Keeps IdInv (do
      if current = next ∨ (← stateOf next) ≠ .ready then
        setState current .running
        enableInterrupts
        pure .returned
      else
        modifyCore fun c => c.switchTo next
        finishSchedule
        pure .switched : Kernel Flow) := by
    apply Keeps.bind (keeps_reads _)
    intro _
    split
    · apply Keeps.bind (keeps_setState _ _)
      intro _
      apply Keeps.bind keeps_enableInterrupts
      intro _
      exact keeps_pure _
    · refine Keeps.bind (keeps_modify fun _ => ?_) fun _ => ?_
      · exact SameIds.of_eq rfl rfl rfl rfl
      apply Keeps.bind keeps_finishSchedule
      intro _
      exact keeps_pure _
  apply Keeps.bind (keeps_reads _)
  intro _
  split
  · exact Keeps.bind keeps_finishSchedule fun _ => hrest
  · exact hrest

theorem keeps_schedule : Keeps IdInv schedule := by
  apply Keeps.bind keeps_disableInterrupts
  intro _
  apply Keeps.bind keeps_pickNext
  intro next
  apply Keeps.bind (keeps_reads _)
  intro current
  apply Keeps.bind (keeps_requeue current)
  intro _
  exact keeps_dispatch current next

theorem keeps_threadBlock : Keeps IdInv threadBlock := by
  have hreturn : Keeps IdInv (do enableInterrupts; pure .returned : Kernel Flow) :=
    Keeps.bind keeps_enableInterrupts fun _ => keeps_pure _
  apply Keeps.bind keeps_disableInterrupts
  intro _
  apply Keeps.bind (keeps_reads _)
  intro cur
  apply Keeps.bind (keeps_list _)
  rintro (_ | node)
  · exact hreturn
  apply Keeps.bind (keeps_reads _)
  intro _
  split
  · exact hreturn
  · apply Keeps.bind (keeps_setState _ _)
    intro _
    apply Keeps.bind (keeps_list _)
    intro _
    exact keeps_schedule

theorem keeps_threadExit : Keeps IdInv threadExit := by
  apply Keeps.bind (keeps_reads _)
  intro t
  apply Keeps.bind keeps_disableInterrupts
  intro _
  apply Keeps.bind (keeps_list _)
  intro _
  apply Keeps.bind (keeps_setState _ _)
  intro _
  apply Keeps.bind (keeps_notify _ _ _)
  intro _
  exact keeps_schedule

theorem keeps_detach (t : Nat) (state : ThreadState) (i : ListId) :
    Keeps IdInv (detach t state i) := by
  apply Keeps.bind (keeps_reads _)
  intro _
  split
  · apply Keeps.bind (keeps_setState _ _)
    intro _
    apply Keeps.bind (keeps_list _)
    intro _
    exact keeps_pure _
  · exact keeps_pure _

theorem keeps_killOther (t : Nat) : Keeps IdInv (killOther t) := by
  have hfail : Keeps IdInv (do enableInterrupts; pure (-1) : Kernel Int) :=
    Keeps.bind keeps_enableInterrupts fun _ => keeps_pure _
  apply Keeps.bind (keeps_detach _ _ _)
  intro _
  apply keeps_ite hfail
  apply Keeps.bind (keeps_detach _ _ _)
  intro _
  apply keeps_ite hfail
  apply Keeps.bind (keeps_notify _ _ _)
  intro _
  apply Keeps.bind (keeps_threadCleanup t)
  intro _
  apply Keeps.bind keeps_enableInterrupts
  intro _
  exact keeps_pure _

theorem keeps_threadKill (t : Nat) : Keeps IdInv (threadKill t) := by
  have hother : Keeps IdInv (some <$> killOther t) := by
    rw [map_eq_pure_bind]
    exact Keeps.bind (keeps_killOther t) fun _ => keeps_pure _
  apply Keeps.bind keeps_disableInterrupts
  intro _
  apply Keeps.bind (keeps_reads _)
  intro _
  split
  · apply Keeps.bind keeps_threadExit
    rintro (_ | _)
    · exact hother
    · exact keeps_pure _
  · exact hother

/-- `thread_wait` and `proc_wait`. -/
theorem keeps_wait (waiters : ListId) : Keeps IdInv (do
    let cur ← threadCur
    list (.insert waiters (.waitNode cur))
    threadBlock : Kernel Flow) := by
  apply Keeps.bind (keeps_reads _)
  intro cur
  apply Keeps.bind (keeps_list _)
  intro _
  exact keeps_threadBlock

theorem keeps_timer : Keeps IdInv timerInterruptHandler := by
  refine Keeps.bind (keeps_modify fun c => ?_) fun _ => ?_
  · have htick : SameIds c (c.withThread c.current fun ti =>
        { ti with ticks := (ti.ticks + 1) % 2 ^ 32 }) := sameIds_withThread c c.current fun _ => rfl
    exact htick.trans (SameIds.of_eq rfl rfl rfl rfl)
  apply Keeps.bind (keeps_reads _)
  intro _
  exact keeps_ite keeps_schedule (keeps_pure _)

theorem keeps_procKillLoop (p : Nat) (slots : List Nat) (numAlive : Int) :
    Keeps IdInv (procKillLoop p slots numAlive) := by
  induction slots generalizing numAlive with
  | nil => exact keeps_pure _
  | cons i rest ih =>
      have hround : Keeps IdInv (procKillRound p i numAlive) := by
        apply Keeps.bind (keeps_reads _)
        rintro (_ | t)
        · exact keeps_pure _
        apply Keeps.bind (keeps_reads _)
        intro _
        apply Keeps.bind (keeps_reads _)
        intro _
        split
        · apply Keeps.bind (keeps_threadKill t)
          rintro (_ | code)
          · exact keeps_pure _
          · exact keeps_pure _
        · exact keeps_pure _
      apply Keeps.bind hround
      rintro (_ | numAlive)
      · exact keeps_pure _
      · exact ih numAlive

theorem keeps_procKill (p : Nat) : Keeps IdInv (procKill p) := by
  apply Keeps.bind (keeps_reads _)
  intro numAlive
  apply Keeps.bind (keeps_procKillLoop _ _ _)
  rintro (_ | numAlive)
  · exact keeps_pure _
  apply Keeps.bind (keeps_reads _)
  intro _
  split
  · apply Keeps.bind keeps_threadExit
    intro _
    exact keeps_pure _
  · exact keeps_pure _

end Calls

/-- An id is free. -/
def IdFree (c : Core) : Prop := ∃ i, i < maxTid ∧ c.tids i = false

/-- A thread may be made on the page: it is not in use, and an id is free. -/
structure MayCreate (page : Option (Nat × Thread)) (c : Core) : Prop where
  inv : IdInv c
  unused : ∀ t old, page = some (t, old) → c.live t = false
  free : ∀ t old, page = some (t, old) → old.tid ≠ maxTid + 1 → IdFree c

/-- Id `i` has been taken for thread `t`, which does not exist yet. -/
def Pending (t i : Nat) (c : Core) : Prop :=
  ∃ c0, IdInv c0 ∧ c0.live t = false ∧ i < maxTid ∧ c0.tids i = false ∧
    (∀ u, u ≠ t → (c.threads u).tid = (c0.threads u).tid) ∧
    c.tids = Function.update c0.tids i true ∧ c.live = c0.live ∧
    ∀ u b, .release u b ∈ c.log ↔ .release u b ∈ c0.log

section Creation

variable {c c' : Core} {t i : Nat} {page : Option (Nat × Thread)} {old : Thread}

theorem ofIds_mayCreate (page : Option (Nat × Thread)) : OfIds (MayCreate page) := by
  intro c c' hs h
  refine ⟨h.inv.same hs, ?_, ?_⟩
  · intro t old hpage
    rw [hs.live]
    exact h.unused t old hpage
  · intro t old hpage hold
    rw [IdFree, hs.tids]
    exact h.free t old hpage hold

theorem ofIds_pending (t i : Nat) : OfIds (Pending t i) := by
  rintro c c' hs ⟨c0, hinv, hlive, hi, hfree, htid, htids, hlive', hrel⟩
  refine ⟨c0, hinv, hlive, hi, hfree, ?_, hs.tids.trans htids, hs.live.trans hlive', ?_⟩
  · exact fun u hu => (hs.tid u).trans (htid u hu)
  · exact fun u b => (hs.released u b).trans (hrel u b)

theorem ofIds_named (t i : Nat) : OfIds fun c => Pending t i c ∧ (c.threads t).tid = i := by
  rintro c c' hs ⟨hpend, hname⟩
  exact ⟨ofIds_pending t i c c' hs hpend, (hs.tid t).trans hname⟩

/-- A page that is not in use may be written. -/
theorem MayCreate.write (h : MayCreate (some (t, old)) c) (f : Thread → Thread) :
    MayCreate (some (t, old)) (c.withThread t f) := by
  have hunused := h.unused t old rfl
  have htid : ∀ u, c.live u = true → ((c.withThread t f).threads u).tid = (c.threads u).tid := by
    intro u hu
    have hne : u ≠ t := by
      rintro rfl
      rw [hunused] at hu
      cases hu
    simp [Core.withThread, hne]
  refine ⟨?_, h.unused, h.free⟩
  constructor
  · intro u hu
    rw [htid u hu]
    exact h.inv.below u hu
  · intro u hu
    rw [htid u hu]
    exact h.inv.taken u hu
  · intro u v hu hv heq
    rw [htid u hu, htid v hv] at heq
    exact h.inv.unique u v hu hv heq
  · intro u hu
    obtain ⟨j, hj, hno⟩ := h.inv.lost u hu
    refine ⟨j, hj, fun v hv => ?_⟩
    rw [htid v hv]
    exact hno v hv
  · intro hnone j hj
    obtain ⟨u, hu, hname⟩ := h.inv.held hnone j hj
    exact ⟨u, hu, (htid u hu).trans hname⟩

theorem Pending.write (h : Pending t i c) (f : Thread → Thread) :
    Pending t i (c.withThread t f) := by
  obtain ⟨c0, hinv, hlive, hi, hfree, htid, hrest⟩ := h
  refine ⟨c0, hinv, hlive, hi, hfree, fun u hu => ?_, hrest⟩
  rw [← htid u hu]
  simp [Core.withThread, hu]

/-- The thread with the new id exists. -/
theorem Pending.claim (h : Pending t i c) (hname : (c.threads t).tid = i) :
    IdInv (c.claim t) := by
  obtain ⟨c0, hinv, hunused, hi, hfree, htid, htids, hlive, hrel⟩ := h
  have hlive' : ∀ u, (c.claim t).live u = true ↔ u = t ∨ c0.live u = true := by
    intro u
    change Function.update c.live t true u = true ↔ _
    rw [hlive]
    rcases eq_or_ne u t with rfl | hne
    · simp
    · simp [hne]
  have hold : ∀ u, c0.live u = true → u ≠ t ∧ (c.threads u).tid = (c0.threads u).tid := by
    intro u hu
    have hne : u ≠ t := by
      rintro rfl
      rw [hunused] at hu
      cases hu
    exact ⟨hne, htid u hne⟩
  have hdiff : ∀ u, c0.live u = true → (c0.threads u).tid ≠ i := by
    intro u hu heq
    have htaken := hinv.taken u hu
    rw [heq, hfree] at htaken
    cases htaken
  have htids' : ∀ j, (c.claim t).tids j = true ↔ j = i ∨ c0.tids j = true := by
    intro j
    change c.tids j = true ↔ _
    rw [htids]
    rcases eq_or_ne j i with rfl | hne
    · simp
    · simp [hne]
  constructor
  · intro u hu
    change (c.threads u).tid < maxTid
    rcases (hlive' u).mp hu with rfl | hu
    · rwa [hname]
    · rw [(hold u hu).2]
      exact hinv.below u hu
  · intro u hu
    apply (htids' _).mpr
    change (c.threads u).tid = i ∨ c0.tids (c.threads u).tid = true
    rcases (hlive' u).mp hu with rfl | hu
    · exact Or.inl hname
    · rw [(hold u hu).2]
      exact Or.inr (hinv.taken u hu)
  · intro u v hu hv heq
    change (c.threads u).tid = (c.threads v).tid at heq
    rcases (hlive' u).mp hu with hut | hu' <;> rcases (hlive' v).mp hv with hvt | hv'
    · exact hut.trans hvt.symm
    · rw [hut, hname, (hold v hv').2] at heq
      exact absurd heq.symm (hdiff v hv')
    · rw [hvt, hname, (hold u hu').2] at heq
      exact absurd heq (hdiff u hu')
    · rw [(hold u hu').2, (hold v hv').2] at heq
      exact hinv.unique u v hu' hv' heq
  · intro u hu
    obtain ⟨j, hj, hno⟩ := hinv.lost u ((hrel u true).mp hu)
    refine ⟨j, (htids' j).mpr (Or.inr hj), fun v hv => ?_⟩
    change (c.threads v).tid ≠ j
    rcases (hlive' v).mp hv with rfl | hv
    · rw [hname]
      rintro rfl
      rw [hfree] at hj
      cases hj
    · rw [(hold v hv).2]
      exact hno v hv
  · intro hnone j hj
    rcases (htids' j).mp hj with rfl | hj
    · exact ⟨t, (hlive' t).mpr (Or.inl rfl), hname⟩
    · obtain ⟨u, hu, hid⟩ := hinv.held (fun u hu => hnone u ((hrel u true).mpr hu)) j hj
      exact ⟨u, (hlive' u).mpr (Or.inr hu), (hold u hu).2.trans hid⟩

/-- `allocate_tid` takes a free id. -/
theorem ensures_allocateTid (t : Nat) (hold : old.tid ≠ maxTid + 1) :
    Ensures allocateTid (MayCreate (some (t, old))) fun i c => Pending t i c := by
  refine Ensures.bind (Q := fun tids c => MayCreate (some (t, old)) c ∧ tids = c.tids)
    (ensures_reads fun c h => ⟨h, rfl⟩) fun tids => ?_
  cases hfind : (List.range maxTid).find? fun i => !tids i with
  | none =>
      apply ensures_pure
      rintro c ⟨h, rfl⟩
      obtain ⟨j, hj, hfree⟩ := h.free t old rfl hold
      have hnone := List.find?_eq_none.mp hfind j (List.mem_range.mpr hj)
      rw [hfree] at hnone
      exact absurd rfl hnone
  | some i =>
      refine Ensures.bind (ensures_modifyCore (Q := fun _ c => Pending t i c) ?_)
        fun _ => ensures_pure fun _ h => h
      rintro c ⟨h, rfl⟩
      refine ⟨c, h.inv, h.unused t old rfl, ?_, ?_, fun _ _ => rfl, rfl, rfl, fun _ _ => Iff.rfl⟩
      · exact List.mem_range.mp (List.mem_of_find?_eq_some hfind)
      · simpa using List.find?_some hfind

theorem ensures_threadCreate (page : Option (Nat × Thread)) (p slot : Nat) :
    Ensures (threadCreate page p slot) (MayCreate page) fun _ => IdInv := by
  rcases page with _ | ⟨t, old⟩
  · exact ensures_pure fun _ h => h.inv
  refine Ensures.bind (ensures_modifyCore (Q := fun _ c => MayCreate (some (t, old)) c ∧
    (c.threads t).tid = old.tid) fun _ h => ⟨h.write _, ?_⟩) fun _ => ?_
  · simp [Core.withThread]
  refine Ensures.bind (Q := fun tid c => MayCreate (some (t, old)) c ∧ tid = old.tid)
    (ensures_reads fun _ h => h) fun tid => ?_
  split
  · exact ensures_pure fun _ h => h.1.inv
  next htid =>
  refine Ensures.of_and fun hsame => ?_
  refine Ensures.bind (ensures_allocateTid t (hsame ▸ htid)) fun i => ?_
  refine Keeps.andThen (keeps_reads _) fun _ => ?_
  refine Ensures.bind (ensures_modifyCore (Q := fun _ c => Pending t i c ∧ (c.threads t).tid = i)
    fun c h => ⟨h.write _, ?_⟩) fun _ => ?_
  · simp [Core.withThread]
  have hnamed := ofIds_named t i
  refine Keeps.andThen (hnamed.modify fun _ => ?_) fun _ => ?_
  · exact SameIds.of_eq rfl rfl rfl rfl
  refine Keeps.andThen (hnamed.list _) fun _ => ?_
  refine Ensures.bind (ensures_modifyCore (Q := fun _ => IdInv) ?_) fun _ => ?_
  · intro c h
    have hcode : SameIds c (c.setWaitCode t 0) := sameIds_withThread c t fun _ => rfl
    obtain ⟨hpend, hname⟩ := hnamed c _ hcode h
    exact hpend.claim hname
  apply Keeps.bind keeps_disableInterrupts
  intro _
  apply Keeps.bind (keeps_list _)
  intro _
  apply Keeps.bind keeps_enableInterrupts
  intro _
  exact keeps_pure _

theorem OfIds.terminateSlots {P : Core → Prop} (hP : OfIds P) (p : Nat) (slots : List Nat) :
    Keeps P (terminateSlots p slots) := by
  induction slots with
  | nil => exact keeps_pure _
  | cons i rest ih =>
      apply Keeps.bind (keeps_reads _)
      rintro (_ | t)
      · exact ih
      · refine Keeps.bind (hP.modify fun c => ?_) fun _ => ih
        exact sameIds_withThread c t fun _ => rfl

theorem ensures_procCreate (page : Option (Nat × Process)) (stack : Option (Nat × Thread)) :
    Ensures (procCreate page stack) (MayCreate stack) fun _ => IdInv := by
  rcases page with _ | ⟨p, old⟩
  · exact ensures_pure fun _ h => h.inv
  have hmay := ofIds_mayCreate stack
  refine Keeps.andThen (hmay.modify fun _ => ?_) fun _ => ?_
  · exact SameIds.of_eq rfl rfl rfl rfl
  refine Keeps.andThen (hmay.terminateSlots p _) fun _ => ?_
  refine Keeps.andThen (hmay.list _) fun _ => ?_
  refine Keeps.andThen (hmay.modify fun _ => ?_) fun _ => ?_
  · exact SameIds.of_eq rfl rfl rfl rfl
  refine Ensures.bind (ensures_threadCreate stack p 0) fun _ => ?_
  split
  · refine Keeps.bind (keeps_withProc _ _) fun _ => ?_
    exact Keeps.bind (keeps_list _) fun _ => keeps_pure _
  · exact keeps_pure _

theorem ensures_procCreateThread (stack : Option (Nat × Thread)) :
    Ensures (procCreateThread stack) (MayCreate stack) fun _ => IdInv := by
  have hmay := ofIds_mayCreate stack
  refine Keeps.andThen (keeps_reads _) fun p => ?_
  refine Keeps.andThen (keeps_reads _) fun slots => ?_
  split
  · exact ensures_pure fun _ h => h.inv
  refine Ensures.bind (ensures_threadCreate stack p _) fun _ => ?_
  split
  · exact Keeps.bind (keeps_withProc _ _) fun _ => keeps_pure _
  · exact keeps_pure _

theorem ensures_initThreads (init : Nat) (stack : Option (Nat × Thread)) :
    Ensures (initThreads init stack) (MayCreate stack) fun _ => IdInv := by
  have hmay := ofIds_mayCreate stack
  refine Keeps.andThen (hmay.list _) fun _ => ?_
  refine Keeps.andThen (hmay.list _) fun _ => ?_
  refine Keeps.andThen (hmay.list _) fun _ => ?_
  refine Ensures.bind (ensures_threadCreate stack init 0) fun _ => ?_
  refine Keeps.bind (keeps_modify fun _ => ?_) fun _ => keeps_modify fun c => ?_
  · exact SameIds.of_eq rfl rfl rfl rfl
  · exact sameIds_withThread c c.current fun _ => rfl

theorem ensures_initProcesses (init : Nat) (stack : Option (Nat × Thread)) :
    Ensures (initProcesses init stack) (MayCreate stack) fun _ => IdInv := by
  have hmay := ofIds_mayCreate stack
  refine Keeps.andThen (hmay.list _) fun _ => ?_
  refine Keeps.andThen (hmay.modify fun _ => ?_) fun _ => ?_
  · exact SameIds.of_eq rfl rfl rfl rfl
  refine Keeps.andThen (hmay.list _) fun _ => ?_
  refine Keeps.andThen (hmay.modify fun _ => ?_) fun _ => ?_
  · exact SameIds.of_eq rfl rfl rfl rfl
  refine Ensures.bind (ensures_initThreads init stack) fun _ => ?_
  exact Keeps.bind (keeps_withProc _ _) fun _ => keeps_list _

theorem keeps_ignore {β : Type} {p : Kernel β} (h : Keeps IdInv p) : Keeps IdInv (ignore p) :=
  Keeps.bind h fun _ => keeps_pure _

theorem ensures_ignore {β : Type} {p : Kernel β} {P : Core → Prop}
    (h : Ensures p P fun _ => IdInv) : Ensures (ignore p) P fun _ => IdInv :=
  Ensures.bind h fun _ => keeps_pure _

theorem ensures_execOp (op : KernelOp) :
    Ensures (execOp op) (MayCreate op.stack) fun _ => IdInv := by
  have hkeeps : ∀ {β : Type} {p : Kernel β}, Keeps IdInv p →
      Ensures (ignore p) (MayCreate op.stack) fun _ => IdInv :=
    fun h => (keeps_ignore h).mono (fun _ hm => hm.inv) fun _ _ hi => hi
  cases op with
  | init proc stack => exact ensures_initProcesses proc stack
  | create page proc childNum => exact ensures_ignore (ensures_threadCreate page proc childNum)
  | block => exact hkeeps keeps_threadBlock
  | unblock t => exact (keeps_threadUnblock t).mono (fun _ hm => hm.inv) fun _ _ hi => hi
  | exit => exact hkeeps keeps_threadExit
  | wait t => exact hkeeps (keeps_wait _)
  | notify t all ret => exact hkeeps (keeps_notify _ _ _)
  | kill t => exact hkeeps (keeps_threadKill t)
  | yield => exact hkeeps keeps_schedule
  | timer => exact hkeeps keeps_timer
  | procCreate page stack => exact ensures_ignore (ensures_procCreate page stack)
  | procCreateThread stack => exact ensures_ignore (ensures_procCreateThread stack)
  | procWait p => exact hkeeps (keeps_wait _)
  | procNotify p all ret => exact hkeeps (keeps_notify _ _ _)
  | procKill p => exact hkeeps (keeps_procKill p)

end Creation

/-- The page is not in use, and an id is free if a thread is made on it. -/
def IdAvailable (s : KernelState) (op : KernelOp) : Prop :=
  NewStack s op ∧ ∀ t old, op.stack = some (t, old) → old.tid ≠ maxTid + 1 → IdFree s.core

/-- Every id that is taken is the id of a live thread. -/
def Reusable (c : Core) : Prop :=
  ∀ i, c.tids i = true → ∃ t, c.live t = true ∧ (c.threads t).tid = i

/-- Ids of live threads are different and below the limit. -/
def UniqueIds (c : Core) : Prop :=
  (∀ t, c.live t = true → (c.threads t).tid < maxTid) ∧
    ∀ t u, c.live t = true → c.live u = true → (c.threads t).tid = (c.threads u).tid → t = u

theorem idInv_fresh {c : Core} (h : Fresh c) : IdInv c := by
  constructor
  · intro t ht
    rw [h.live] at ht
    cases ht
  · intro t ht
    rw [h.live] at ht
    cases ht
  · intro t u ht
    rw [h.live] at ht
    cases ht
  · intro t ht
    rw [h.log] at ht
    cases ht
  · intro _ i hi
    rw [h.tids] at hi
    cases hi

/-- The call returns the code of failure and leaves the lists and the tables of the
processes as they were. -/
def CreateFails (s : KernelState) (r : Int × KernelState) : Prop :=
  r.1 = -1 ∧ r.2.heap = s.heap ∧ r.2.core.procs = s.core.procs

theorem threadCreate_refused {s : KernelState} {t : Nat} {old : Thread} (p slot : Nat)
    (hold : old.tid = maxTid + 1) : threadCreate (some (t, old)) p slot s =
      some (-1, ⟨s.core.withThread t fun _ => old, s.heap⟩) := by
  have htid : ((s.core.withThread t fun _ => old).threads t).tid = maxTid + 1 := by
    simp [Core.withThread, hold]
  change (if ((s.core.withThread t fun _ => old).threads t).tid = maxTid + 1 then _ else _ :
    Kernel Int) ⟨s.core.withThread t fun _ => old, s.heap⟩ = _
  rw [if_pos htid]
  rfl

/-- Once a page is accepted, what `thread_create` returns is an id, even if none is free. -/
theorem ensures_threadCreate_code {t : Nat} {old : Thread} (p slot : Nat)
    (hold : old.tid ≠ maxTid + 1) :
    Ensures (threadCreate (some (t, old)) p slot) (fun _ => True) fun code _ => 0 ≤ code := by
  refine Ensures.bind (ensures_modifyCore (Q := fun _ c => (c.threads t).tid = old.tid)
    fun _ _ => ?_) fun _ => ?_
  · simp [Core.withThread]
  refine Ensures.bind (Q := fun tid _ => tid = old.tid) (ensures_reads fun _ h => h) fun tid => ?_
  split
  · next htid => exact ensures_pure fun _ h => absurd (h.symm.trans htid) hold
  · refine Ensures.bind (ensures_trivial _) fun tid => ?_
    refine Ensures.bind (ensures_trivial _) fun pid => ?_
    refine Ensures.bind (ensures_trivial _) fun _ => ?_
    refine Ensures.bind (ensures_trivial _) fun _ => ?_
    refine Ensures.bind (ensures_trivial _) fun _ => ?_
    refine Ensures.bind (ensures_trivial _) fun _ => ?_
    refine Ensures.bind (ensures_trivial _) fun _ => ?_
    refine Ensures.bind (ensures_trivial _) fun _ => ?_
    refine Ensures.bind (ensures_trivial _) fun _ => ?_
    exact ensures_pure fun _ _ => Int.natCast_nonneg tid

theorem createFails_iff {s : KernelState} {page : Option (Nat × Thread)} {p slot : Nat}
    {r : Int × KernelState} (h : threadCreate page p slot s = some r) :
    CreateFails s r ↔ ∀ t old, page = some (t, old) → old.tid = maxTid + 1 := by
  rcases page with _ | ⟨t, old⟩
  · cases h
    refine ⟨fun _ t old hpage => ?_, fun _ => ⟨rfl, rfl, rfl⟩⟩
    cases hpage
  constructor
  · rintro ⟨hcode, _⟩ u o ⟨⟩
    by_contra hold
    have hnonneg := ensures_threadCreate_code p slot hold s r.1 r.2 trivial h
    rw [hcode] at hnonneg
    exact absurd hnonneg (by decide)
  · intro hold
    rw [threadCreate_refused p slot (hold t old rfl)] at h
    cases h
    exact ⟨rfl, rfl, rfl⟩

theorem idInv_run {s0 s : KernelState} {es : List KernelOp} (h0 : IdInv s0.core)
    (h : Run (Guarded KernelStep IdAvailable) s0 es s) : IdInv s.core := by
  refine h.invariant (fun s => IdInv s.core) ?_ h0
  rintro s op s' hs ⟨⟨hnew, hfree⟩, ⟨_, hrun⟩⟩
  exact ensures_execOp op s () s' ⟨hs, hnew, hfree⟩ hrun

section Example

/-- As long as no thread has been cleaned up, few threads do not use up the ids. -/
theorem IdInv.free_of_few {c : Core} (h : IdInv c) {ts : List Nat}
    (hlive : ∀ u, c.live u = true → u ∈ ts) (hfew : ts.length < maxTid)
    (hnone : ∀ u, .release u true ∉ c.log) : IdFree c := by
  by_contra hno
  have hsubset : List.range maxTid ⊆ ts.map fun u => (c.threads u).tid := by
    intro i hi
    have htids : c.tids i = true := by
      rw [← Bool.not_eq_false]
      exact fun hfree => hno ⟨i, List.mem_range.mp hi, hfree⟩
    obtain ⟨u, hu, hid⟩ := h.held hnone i htids
    exact List.mem_map.mpr ⟨u, hlive u hu, hid⟩
  have hle := (List.nodup_range.subperm hsubset).length_le
  rw [List.length_range, List.length_map] at hle
  exact absurd hle (Nat.not_le_of_lt hfew)

/-- The threads `ts` are live, none of them waits, and none has been cleaned up. -/
structure Calm (ts : List Nat) (s : KernelState) (q : KernelSeqs) : Prop where
  holds : HoldsSeqs s q
  sched : SchedInv zeroedState.core.current s.core q
  waits : ∀ i u, .waitNode u ∉ q.get i
  current : s.core.current = zeroedState.core.current
  idle : s.core.idleT = some 1
  proc : s.core.liveProcs 0 = true
  procOf : ∀ u, u ∈ ts → s.core.procOf u = 0
  count : (s.core.procs 0).numLiveThreads = (zeroedState.core.procs 0).numLiveThreads
  live : ∀ u, s.core.live u = true ↔ u ∈ ts
  released : ∀ u, .release u true ∉ s.core.log

theorem fresh_zeroed : Fresh zeroedState.core := ⟨fun _ => rfl, fun _ => rfl, fun _ => rfl, rfl⟩

variable {ts : List Nat} {s : KernelState} {q : KernelSeqs} {x : Nat}

theorem exists_init : ∃ s q, Guarded KernelStep IdAvailable zeroedState
    (.init 0 (some (1, blankThread))) s ∧ Calm [1] s q := by
  obtain ⟨s, hs⟩ := exists_starts
  obtain ⟨q, hq, hstarted, hcur, hcount⟩ := started_of_starts hs
  have hsched := hstarted.schedInv
  rw [hcur] at hsched
  refine ⟨s, q, ⟨⟨fun _ _ _ => rfl, fun _ _ _ _ => ⟨0, by decide, rfl⟩⟩, hs.step⟩, hq, hsched,
    hstarted.no_waits, hcur, hstarted.idleT, (hstarted.liveProcs 0).mpr rfl, fun u hu => ?_,
    hcount, fun u => ?_, fun u => hstarted.released u true⟩
  · rw [List.mem_singleton.mp hu]
    exact hstarted.procOf
  · rw [hstarted.live, List.mem_singleton]

theorem Calm.create (h : Calm ts s q) (hinv : IdInv s.core) (hfew : ts.length < maxTid)
    (hx : x ∉ ts) (hboot : x ≠ zeroedState.core.current) (slot : Nat) :
    ∃ s1 q1, Guarded KernelStep IdAvailable s (.create (some (x, blankThread)) 0 slot) s1 ∧
      Calm (x :: ts) s1 q1 := by
  have hdead : s.core.live x = false := by
    rw [← Bool.not_eq_true, h.live]
    exact hx
  obtain ⟨s1, q1, ⟨-, hstep⟩, hq1, hsched1, hc, -, hwaits1⟩ :=
    exists_created slot h.holds h.sched h.proc hdead hboot
      (show blankThread.tid ≠ maxTid + 1 by decide) h.waits
  have havailable : IdAvailable s (.create (some (x, blankThread)) 0 slot) := by
    refine ⟨?_, fun _ _ _ _ => hinv.free_of_few (fun u hu => (h.live u).mp hu) hfew h.released⟩
    rintro t old ⟨⟩
    exact hdead
  refine ⟨s1, q1, ⟨havailable, hstep⟩, hq1, hsched1, hwaits1, hc.current.trans h.current,
    hc.idleT.trans h.idle, ?_, fun u hu => ?_, ?_, fun u => ?_, fun u hu => ?_⟩
  · rw [hc.liveProcs]
    exact h.proc
  · rcases List.mem_cons.mp hu with rfl | hu
    · exact hc.procOf
    · have hsame := hc.others u fun heq => hx (heq ▸ hu)
      rw [Core.procOf, hsame]
      exact h.procOf u hu
  · rw [hc.procs, Function.update_self]
    exact h.count
  · rw [hc.live, List.mem_cons]
    rcases eq_or_ne u x with rfl | hne
    · simp
    · rw [Function.update_of_ne hne, h.live]
      simp [hne]
  · exact h.released u ((hc.log.release u true).mp hu)

/-- A thread other than the idle one is killed. -/
theorem Calm.kill (h : Calm ts s q) (hx : x ∈ ts) (hidle : x ≠ 1)
    (hboot : x ≠ zeroedState.core.current) :
    ∃ s1, Guarded KernelStep IdAvailable s (.kill x) s1 ∧ .release x true ∈ s1.core.log := by
  have hend : MayEnd x s.core q := by
    refine ⟨(h.live x).mpr hx, ?_, fun i hi => absurd hi (h.waits i x), fun hends => ?_⟩
    · rw [h.idle]
      exact fun heq => hidle (Option.some.inj heq).symm
    · rw [Core.EndsProc, h.procOf x hx, h.count] at hends
      exact absurd hends (by decide)
  have hother : x ≠ s.core.current := by
    rw [h.current]
    exact hboot
  have hwp : Wp listAt (execOp (.kill x)) (fun _ c' _ => .release x true ∈ c'.log) s.core q := by
    apply wp_ignore
    exact (wp_threadKill h.sched hend).mono fun _ _ _ hk => (hk.2.2 hother).2.released
  obtain ⟨s1, hkill⟩ := step_of_wp h.holds.represents hwp
  obtain ⟨_, _, hreleased⟩ := post_of_step h.holds.represents hwp hkill
  refine ⟨s1, ⟨?_, hkill⟩, hreleased⟩
  constructor <;> rintro t old ⟨⟩

end Example
end Longhorn.ThreadIds
