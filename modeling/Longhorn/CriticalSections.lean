import Longhorn.SchedulerLists

/-!
The interrupt flag while the lists of the scheduler and the states of threads change.
-/

namespace Longhorn.CriticalSections

open Longhorn.Foundations.TransitionRuns
open Longhorn.ListRefinement
open Longhorn.ListPrograms
open Longhorn.ThreadModel
open Longhorn.KernelRuns
open Longhorn.SchedulerRules
open Longhorn.SchedulerInvariant
open Longhorn.ThreadCalls
open Longhorn.ProcessCalls
open Longhorn.SchedulerRuns
open Longhorn.SchedulerLists

/-- A change of a list of the scheduler, or of the state of a thread, is made with interrupts
disabled. -/
def Masked : Event → Prop
  | .changed i interrupts => HoldsThreads i → interrupts = false
  | .stateSet _ interrupts => interrupts = false
  | _ => True

/-- What has happened since the log was `log` was masked. -/
def Masks (log : List Event) (c : Core) : Prop :=
  ∃ new, c.log = new ++ log ∧ ∀ e ∈ new, Masked e

/-- The same, and interrupts are disabled. -/
def MasksOff (log : List Event) (c : Core) : Prop := Masks log c ∧ c.interrupts = false

section Sections

variable {log : List Event} {c c' : Core}

theorem Masks.refl (c : Core) : Masks c.log c := ⟨[], rfl, nofun⟩

theorem Masks.congr (h : Masks log c) (hlog : c'.log = c.log) : Masks log c' := by
  obtain ⟨new, heq, hnew⟩ := h
  exact ⟨new, hlog.trans heq, hnew⟩

theorem Masks.note (h : Masks log c) {e : Event} (he : Masked e) : Masks log (c.note e) := by
  obtain ⟨new, heq, hnew⟩ := h
  refine ⟨e :: new, ?_, ?_⟩
  · change e :: c.log = _
    rw [heq, List.cons_append]
  · rintro e' (_ | ⟨_, he'⟩)
    · exact he
    · exact hnew e' he'

theorem Masks.trans {log1 : List Event} (h1 : Masks log c) (h2 : Masks log1 c')
    (hlog : log1 = c.log) : Masks log c' := by
  obtain ⟨new1, heq1, hnew1⟩ := h1
  obtain ⟨new2, heq2, hnew2⟩ := h2
  refine ⟨new2 ++ new1, ?_, fun e he => ?_⟩
  · rw [heq2, hlog, heq1, List.append_assoc]
  · rcases List.mem_append.mp he with he | he
    · exact hnew2 e he
    · exact hnew1 e he

theorem MasksOff.congr (h : MasksOff log c) (hlog : c'.log = c.log)
    (hoff : c'.interrupts = c.interrupts) : MasksOff log c' :=
  ⟨h.1.congr hlog, hoff.trans h.2⟩

theorem MasksOff.setState (h : MasksOff log c) (t : Nat) (s : ThreadState) :
    MasksOff log (c.setState t s) := by
  have hnote : Masks log (c.note (.stateSet t c.interrupts)) := h.1.note h.2
  exact ⟨hnote.congr rfl, h.2⟩

theorem Masks.noteCall (h : Masks log c) {β : Type} {k : ListCall ListId NodeAddr β}
    (hk : HoldsThreads k.list → c.interrupts = false) : Masks log (c.noteCall k) := by
  rw [Core.noteCall]
  split
  · exact h.note hk
  · exact h

theorem MasksOff.noteCall (h : MasksOff log c) {β : Type} (k : ListCall ListId NodeAddr β) :
    MasksOff log (c.noteCall k) := by
  refine ⟨h.1.noteCall fun _ => h.2, ?_⟩
  rw [Core.noteCall]
  split
  · exact h.2
  · exact h.2

theorem keeps_other {β : Type} (k : ListCall ListId NodeAddr β) (hk : ¬ HoldsThreads k.list) :
    Keeps (Masks log) (list k) :=
  Keeps.bind (keeps_modifyCore fun _ h => h.noteCall fun hin => absurd hin hk) fun _ =>
    ensures_call fun _ _ h => h

theorem keeps_list {β : Type} (k : ListCall ListId NodeAddr β) :
    Keeps (MasksOff log) (list k) :=
  Keeps.bind (keeps_modifyCore fun _ h => h.noteCall k) fun _ => ensures_call fun _ _ h => h

theorem keeps_setState (t : Nat) (s : ThreadState) : Keeps (MasksOff log) (setState t s) :=
  keeps_modifyCore fun _ h => h.setState t s

theorem ensures_disableInterrupts :
    Ensures disableInterrupts (Masks log) fun _ => MasksOff log :=
  ensures_modifyCore fun _ h => ⟨h.congr rfl, rfl⟩

theorem keeps_disableInterrupts : Keeps (MasksOff log) disableInterrupts :=
  keeps_modifyCore fun _ h => ⟨h.1.congr rfl, rfl⟩

theorem keeps_enableInterrupts : Keeps (Masks log) enableInterrupts :=
  keeps_modifyCore fun _ h => h.congr rfl

theorem ensures_enableInterrupts : Ensures enableInterrupts (MasksOff log) fun _ => Masks log :=
  ensures_modifyCore fun _ h => h.1.congr rfl

/-- `thread_unblock` masks what it does itself. -/
theorem keeps_threadUnblock (t : Nat) : Keeps (Masks log) (threadUnblock t) := by
  apply Keeps.bind (keeps_modifyCore fun _ h => h.note trivial)
  intro _
  refine Ensures.bind ensures_disableInterrupts fun _ => ?_
  refine Keeps.andThen (keeps_reads _) fun _ => ?_
  split
  · exact ensures_enableInterrupts
  refine Keeps.andThen (keeps_list _) fun r => ?_
  rcases r with _ | node
  · exact ensures_enableInterrupts
  refine Keeps.andThen (keeps_setState _ _) fun _ => ?_
  refine Keeps.andThen (keeps_list _) fun _ => ?_
  exact ensures_enableInterrupts

theorem keepsParts_masks : KeepsParts (Masks log) fun i => ¬ HoldsThreads i where
  call := keeps_other
  withProc _ _ := keeps_modifyCore fun _ h => h.congr rfl
  waitCode _ _ := keeps_modifyCore fun _ h => h.congr rfl
  freeProc _ := keeps_modifyCore fun _ h => h.congr rfl
  freeThread t := by
    refine keeps_modifyCore fun c h => ?_
    have hnote : Masks log (c.note (.release t (c.live t))) := h.note trivial
    exact hnote.congr rfl
  unblock := keeps_threadUnblock

theorem keeps_notify {waiters : ListId} (hw : ¬ HoldsThreads waiters) (all : Bool) (ret : Int) :
    Keeps (Masks log) (notify waiters all ret) :=
  keepsParts_masks.notifies hw all ret

theorem keeps_threadCleanup (t : Nat) : Keeps (Masks log) (threadCleanup t) :=
  keepsParts_masks.cleansUp (fun _ => id) id t

/-- `finish_schedule` goes on with what `schedule` has disabled. -/
theorem ensures_finishSchedule :
    Ensures finishSchedule (MasksOff log) fun _ => Masks log := by
  refine Keeps.andThen (keeps_reads _) fun cur => ?_
  refine Keeps.andThen (keeps_setState _ _) fun _ => ?_
  refine Keeps.andThen (keeps_reads _) fun _ => ?_
  refine Keeps.andThen (keeps_reads _) fun _ => ?_
  refine Keeps.andThen (keeps_modifyCore fun _ h => h.congr rfl rfl) fun _ => ?_
  refine Keeps.andThen (keeps_list _) fun _ => ?_
  split
  · refine Keeps.andThen keeps_disableInterrupts fun _ => ?_
    refine Keeps.andThen (keeps_list _) fun r => ?_
    rcases r with _ | node
    · exact ensures_fault
    refine Ensures.bind (Q := fun _ => Masks log)
      ((keeps_threadOfNode node).mono (fun _ h => h.1) fun _ _ h => h) fun t => ?_
    apply Keeps.bind (keeps_threadCleanup t)
    intro _
    exact keeps_enableInterrupts
  · exact ensures_enableInterrupts

/-- Interrupts are disabled, and the thread `x` does not go on as `n` when it has ended. -/
def MayGoOn (log : List Event) (x n : Nat) (c : Core) : Prop :=
  MasksOff log c ∧ (x = n → c.state x ≠ .dying)

theorem keeps_requeue (x n : Nat) : Keeps (MayGoOn log x n) (requeue x) := by
  have hlist : ∀ k : ListCall ListId NodeAddr Unit, Keeps (MayGoOn log x n) (list k) := by
    intro k
    refine Keeps.bind (keeps_modifyCore fun c h => ?_) fun _ => ensures_call fun _ _ h => h
    refine ⟨h.1.noteCall k, fun heq => ?_⟩
    rw [(alike_noteCall c k).state]
    exact h.2 heq
  refine keeps_requeue_of (keeps_modifyCore fun c h => ⟨h.1.setState x .ready, fun _ => ?_⟩) hlist
  rw [state_setState]
  decide

/-- With interrupts disabled the processor is handed over in one section. -/
theorem ensures_dispatch (x n : Nat) :
    Ensures (dispatch x n) (MayGoOn log x n) fun _ => Masks log := by
  have hrest : Ensures (do
      if x = n ∨ (← stateOf n) ≠ .ready then
        setState x .running
        enableInterrupts
        pure .returned
      else
        modifyCore fun c => c.switchTo n
        finishSchedule
        pure .switched : Kernel Flow) (MasksOff log) fun _ => Masks log := by
    refine Keeps.andThen (keeps_reads _) fun _ => ?_
    split
    · refine Keeps.andThen (keeps_setState _ _) fun _ => ?_
      exact Ensures.bind ensures_enableInterrupts fun _ => keeps_pure _
    · refine Keeps.andThen (keeps_modifyCore fun _ h => h.congr rfl rfl) fun _ => ?_
      exact Ensures.bind ensures_finishSchedule fun _ => keeps_pure _
  refine Ensures.bind (Q := fun s c => MasksOff log c ∧ ¬ (x = n ∧ s = .dying))
    (ensures_reads fun c h => ⟨h.1, fun hs => h.2 hs.1 hs.2⟩) fun s => ?_
  refine Ensures.of_and fun hgo => ?_
  rw [if_neg hgo]
  exact hrest

variable {q : KernelSeqs} {n : Nat} {rest : List NodeAddr}

/-- `schedule` that finds a thread ready. -/
theorem gives_schedule (h : Masks log c) (hlist : (q .readyThreads).isSome)
    (hready : q.get .readyThreads = .node n :: rest)
    (hgo : c.current = n → c.state c.current ≠ .dying) :
    Gives listAt schedule (fun _ => Masks log) c q := by
  have hoff : MasksOff log (c.withInterrupts false) := ⟨h.congr rfl, rfl⟩
  have hrest : ∀ c1 q1, MasksOff log c1 → Alike c c1 → Gives listAt (do
      let current ← threadCur
      requeue current
      dispatch current n) (fun _ => Masks log) c1 q1 := by
    intro c1 q1 h1 ha
    apply Gives.bind
    apply wp_reads
    rw [ha.current]
    refine Ensures.gives (Keeps.andThen (keeps_requeue _ n) fun _ => ensures_dispatch _ n) ⟨h1, ?_⟩
    rwa [ha.state]
  apply Gives.bind
  apply wp_modifyCore
  have ha := alike_withInterrupts c false
  apply Gives.bind
  rcases rest with _ | ⟨a, rest⟩
  · apply wp_pickNext_one hlist hready
    exact hrest _ q hoff ha
  · apply wp_pickNext_several hlist hready
    exact hrest _ _ (hoff.noteCall _) (ha.trans (alike_noteCall _ _))

end Sections

/-- A thread other than the running one is ready. -/
def OthersReady (c : Core) (q : KernelSeqs) : Prop :=
  ∃ a ∈ q.get .readyThreads, a ≠ .node c.current

/-- A thread is ready after the running one has ended. -/
def ReadyAfterEnd (c : Core) (q : KernelSeqs) : Prop :=
  OthersReady c q ∨ ∃ u, .waitNode u ∈ q.get (.threadWaiters c.current) ∧ c.state u = .blocked

/-- If the call comes to `schedule`, it finds a thread ready there. -/
def FindsReady (c : Core) (q : KernelSeqs) : KernelOp → Prop
  | .init _ _ => False
  | .block => .node c.current ∈ q.get .readyThreads → OthersReady c q
  | .wait _ => .node c.current ∈ q.get .readyThreads → OthersReady c q
  | .procWait _ => .node c.current ∈ q.get .readyThreads → OthersReady c q
  | .exit => ReadyAfterEnd c q
  | .kill t => t = c.current → ReadyAfterEnd c q
  | .yield => q.get .readyThreads ≠ []
  | .timer => (c.threadTicks + 1) % 256 % maxThreadTicks = 0 → q.get .readyThreads ≠ []
  | .procKill p => c.procOf c.current = p → ∃ t, .node t ∈ q.get .readyThreads ∧
      t ≠ c.current ∧ c.procOf t ≠ p
  | _ => True

section Calls

variable {boot : Nat} {log : List Event} {c : Core} {q : KernelSeqs}

theorem exists_head (h : Inv (fun t => t = c.current) c q) (hready : q.get .readyThreads ≠ []) :
    ∃ n rest, q.get .readyThreads = .node n :: rest := by
  obtain ⟨a, rest, hq⟩ := List.exists_cons_of_ne_nil hready
  have ha : a ∈ q.get .readyThreads := by
    rw [hq]
    exact List.mem_cons_self
  obtain ⟨n, rfl, _⟩ := h.fits .readyThreads a ha
  exact ⟨n, rest, hq⟩

theorem gives_yield (h : SchedInv boot c q) (hm : Masks log c)
    (hready : q.get .readyThreads ≠ []) : Gives listAt schedule (fun _ => Masks log) c q := by
  obtain ⟨n, rest, hq⟩ := exists_head h.inv hready
  refine gives_schedule hm (h.inv.lists .readyThreads trivial) hq fun _ => ?_
  rcases h.running with ⟨heq, hs⟩ | ⟨_, hs, _⟩
  · rw [heq, hs]
    decide
  · rw [hs]
    decide

theorem gives_threadBlock (h : SchedInv boot c q) (hlive : c.live c.current = true)
    (hm : Masks log c) (hothers : .node c.current ∈ q.get .readyThreads → OthersReady c q) :
    Gives listAt threadBlock (fun _ => Masks log) c q := by
  apply gives_of_apart
  intro hq
  have hrunning := (h.current hlive).1
  have hlist := h.inv.lists .readyThreads trivial
  have ha0 := alike_withInterrupts c false
  have hoff0 : MasksOff log (c.withInterrupts false) := ⟨hm.congr rfl, rfl⟩
  apply Gives.bind
  apply wp_modifyCore
  apply Gives.bind
  apply wp_reads
  rw [show (c.withInterrupts false).current = c.current from rfl]
  obtain ⟨c1, hc1⟩ : ∃ c1, c1 =
    (c.withInterrupts false).noteCall (.delete .readyThreads (.node c.current)) := ⟨_, rfl⟩
  have ha1 : Alike c c1 := hc1 ▸ ha0.trans (alike_noteCall _ _)
  have hoff1 : MasksOff log c1 := by
    rw [hc1]
    exact hoff0.noteCall _
  apply Gives.bind
  apply wp_delete hlist
  all_goals
    rw [← hc1]
    intro hon
  · apply Gives.bind
    apply wp_reads
    rw [ha1.state, hrunning, if_neg (not_not_intro rfl)]
    apply Gives.bind
    apply wp_modifyCore
    have hoff2 := hoff1.setState c.current .blocked
    have ha2 := ha1.setState c.current .blocked
    apply Gives.bind
    apply wp_insert
    · exact Seqs.isSome_set (h.inv.lists .blockedThreads trivial)
    · exact ⟨not_isSentinel_node _, hq.erased hon⟩
    obtain ⟨a, ha, hne⟩ := hothers hon
    have hin : a ∈ (q.get .readyThreads).erase (.node c.current) :=
      (List.mem_erase_of_ne hne).mpr ha
    obtain ⟨b, rest, hb⟩ := List.exists_cons_of_ne_nil (List.ne_nil_of_mem hin)
    have hbin : b ∈ (q.get .readyThreads).erase (.node c.current) := by
      rw [hb]
      exact List.mem_cons_self
    obtain ⟨n, rfl, _⟩ := h.inv.fits .readyThreads b (List.mem_of_mem_erase hbin)
    apply gives_schedule (hoff2.noteCall _).1
    · simp [Seqs.set]
    · rw [Seqs.get_set_of_ne (by decide), Seqs.get_set_same]
      exact hb
    · intro heq
      rw [(ha2.trans (alike_noteCall _ _)).current] at heq
      change c.current = n at heq
      rw [← heq] at hbin
      exact absurd hbin (hq.nodup .readyThreads).not_mem_erase
  · exact Ensures.gives (Ensures.bind ensures_enableInterrupts fun _ => keeps_pure _) hoff1

theorem ensures_endRunning : Ensures (do
      let t ← threadCur
      disableInterrupts
      let _ ← list (.delete .readyThreads (.node t))
      setState t .dying
      threadNotify t true threadKillSucc : Kernel Int) (Masks log) fun _ => Masks log := by
  refine Keeps.andThen (keeps_reads _) fun t => ?_
  refine Ensures.bind ensures_disableInterrupts fun _ => ?_
  refine Keeps.andThen (keeps_list _) fun _ => ?_
  refine Keeps.andThen (keeps_setState _ _) fun _ => ?_
  exact (keeps_notify id true _).mono (fun _ h => h.1) fun _ _ h => h

theorem gives_threadExit (h : SchedInv boot c q) (hend : MayEnd c.current c q)
    (hm : Masks log c) (hready : ReadyAfterEnd c q) :
    Gives listAt threadExit (fun _ => Masks log) c q := by
  rw [threadExit_eq]
  apply Gives.bind
  refine ((wp_endRunning h hend).and_gives (ensures_endRunning.gives hm)).mono ?_
  rintro _ c1 q1 ⟨he, hm1⟩
  have hne : q1.get .readyThreads ≠ [] := by
    rcases hready with ⟨a, ha, hother⟩ | ⟨u, hu, hs⟩
    · obtain ⟨t, rfl, hl⟩ := h.inv.fits .readyThreads a ha
      have ht : t ≠ c.current := by simpa using hother
      have hawake : ¬ Core.Sleeps c t := by
        obtain ⟨hr, _⟩ | ⟨_, hout, _⟩ := h.inv.placed t hl ht
        · rw [Core.Sleeps, hr]
          simp
        · exact absurd ha hout
      exact List.ne_nil_of_mem ((he.stays t ht hawake).ready.mpr ha)
    · obtain ⟨v, hv, hl⟩ := h.inv.fits (.threadWaiters c.current) _ hu
      cases hv
      have ht : u ≠ c.current := by
        rintro rfl
        rw [(h.current hend.live).1] at hs
        cases hs
      have hl1 : c1.live u = true := by rwa [he.live]
      obtain ⟨_, hin, _⟩ | ⟨hb, _⟩ := he.inv.placed u hl1 (he.current ▸ ht)
      · exact List.ne_nil_of_mem hin
      · exact absurd ⟨hb, hl1⟩ (he.awake u hu ht)
  obtain ⟨n, rest, hq1⟩ := exists_head he.inv hne
  refine gives_schedule hm1 (he.inv.lists .readyThreads trivial) hq1 fun heq => ?_
  have hoff := he.doomed.off .readyThreads
  rw [hq1, ← heq] at hoff
  exact absurd List.mem_cons_self hoff

theorem keeps_detach (t : Nat) (state : ThreadState) (i : ListId) :
    Keeps (MasksOff log) (detach t state i) := by
  apply Keeps.bind (keeps_reads _)
  intro _
  split
  · apply Keeps.bind (keeps_setState _ _)
    intro _
    apply Keeps.bind (keeps_list _)
    intro _
    exact keeps_pure _
  · exact keeps_pure _

theorem ensures_killOther (t : Nat) : Ensures (killOther t) (MasksOff log) fun _ => Masks log := by
  have hfail : Ensures (do enableInterrupts; pure (-1) : Kernel Int) (MasksOff log)
      fun _ => Masks log := Ensures.bind ensures_enableInterrupts fun _ => keeps_pure _
  refine Keeps.andThen (keeps_detach _ _ _) fun _ => ?_
  split
  · exact hfail
  refine Keeps.andThen (keeps_detach _ _ _) fun _ => ?_
  split
  · exact hfail
  refine Ensures.mono (P := Masks log) ?_ (fun _ h => h.1) fun _ _ h => h
  apply Keeps.bind (keeps_notify id true (-1))
  intro _
  apply Keeps.bind (keeps_threadCleanup t)
  intro _
  apply Keeps.bind keeps_enableInterrupts
  intro _
  exact keeps_pure _

theorem gives_threadKill {x : Nat} (h : SchedInv boot c q) (hend : MayEnd x c q)
    (hm : Masks log c) (hready : x = c.current → ReadyAfterEnd c q) :
    Gives listAt (threadKill x) (fun _ => Masks log) c q := by
  have ha := alike_withInterrupts c false
  have h0 : SchedInv boot (c.withInterrupts false) q := h.alike ha fun _ _ hb => hb
  have hend0 : MayEnd x (c.withInterrupts false) q :=
    ⟨hend.live, hend.notIdle, hend.waits, hend.last⟩
  have hoff : MasksOff log (c.withInterrupts false) := ⟨hm.congr rfl, rfl⟩
  apply Gives.bind
  apply wp_modifyCore
  apply Gives.bind
  apply wp_reads
  split
  · next hs =>
      obtain rfl := (h0.running_iff hend.live).mp hs
      apply Gives.bind
      refine ((wp_threadExit h0 hend0).and_gives
        (gives_threadExit h0 hend0 hoff.1 (hready rfl))).mono ?_
      rintro _ c1 q1 ⟨⟨rfl, _⟩, hm1⟩
      exact (keeps_pure _).gives hm1
  · rw [map_eq_pure_bind]
    exact (Ensures.bind (ensures_killOther x) fun _ => keeps_pure _).gives hoff

theorem gives_wait {waiters : ListId} (h : SchedInv boot c q) (hlive : c.live c.current = true)
    (hw : HoldsWaiters waiters) (hacc : Core.Accessible c waiters)
    (hoff : ∀ i, .waitNode c.current ∉ q.get i) (hm : Masks log c)
    (hothers : .node c.current ∈ q.get .readyThreads → OthersReady c q) :
    Gives listAt (do
      let cur ← threadCur
      list (.insert waiters (.waitNode cur))
      threadBlock : Kernel Flow) (fun _ => Masks log) c q := by
  apply Gives.bind
  apply wp_reads
  apply Gives.bind
  apply wp_insert (h.inv.lists waiters hacc) ⟨not_isSentinel_waitNode _, hoff⟩
  have ha := alike_noteCall c (.insert waiters (NodeAddr.waitNode c.current))
  have hlog := silent_noteCall c (.insert waiters (NodeAddr.waitNode c.current))
  have hother : ¬ HoldsThreads waiters := by
    cases waiters <;> first | exact hw.elim | exact id
  refine gives_threadBlock (schedInv_registered h hlive hw hacc ha hlog) ?_
    (hm.noteCall fun hin => absurd hin hother) ?_
  · rwa [ha.live, ha.current]
  · rw [OthersReady, ha.current, Seqs.get_set_of_ne hw.ne_ready.symm]
    exact hothers

theorem keeps_threadCreate (page : Option (Nat × Thread)) (p slot : Nat) :
    Keeps (Masks log) (threadCreate page p slot) := by
  rcases page with _ | ⟨t, old⟩
  · exact keeps_pure _
  apply Keeps.bind (keeps_modifyCore fun _ h => h.congr rfl)
  intro _
  apply Keeps.bind (keeps_reads _)
  intro _
  apply keeps_ite (keeps_pure _)
  have htid : Keeps (Masks log) allocateTid := by
    apply Keeps.bind (keeps_reads _)
    intro _
    split
    · exact Keeps.bind (keeps_modifyCore fun _ h => h.congr rfl) fun _ => keeps_pure _
    · exact keeps_pure _
  apply Keeps.bind htid
  intro _
  apply Keeps.bind (keeps_reads _)
  intro _
  apply Keeps.bind (keeps_modifyCore fun _ h => h.congr rfl)
  intro _
  apply Keeps.bind (keeps_modifyCore fun _ h => h.congr rfl)
  intro _
  apply Keeps.bind (keeps_other _ id)
  intro _
  apply Keeps.bind (keeps_modifyCore fun _ h => h.congr rfl)
  intro _
  refine Ensures.bind ensures_disableInterrupts fun _ => ?_
  refine Keeps.andThen (keeps_list _) fun _ => ?_
  exact Ensures.bind ensures_enableInterrupts fun _ => keeps_pure _

theorem keeps_terminateSlots (p : Nat) (slots : List Nat) :
    Keeps (Masks log) (terminateSlots p slots) := by
  induction slots with
  | nil => exact keeps_pure _
  | cons i rest ih =>
      apply Keeps.bind (keeps_reads _)
      rintro (_ | t)
      · exact ih
      · exact Keeps.bind (keeps_modifyCore fun _ h => h.congr rfl) fun _ => ih

theorem keeps_procCreate (page : Option (Nat × Process)) (stack : Option (Nat × Thread)) :
    Keeps (Masks log) (procCreate page stack) := by
  rcases page with _ | ⟨p, old⟩
  · exact keeps_pure _
  apply Keeps.bind (keeps_modifyCore fun _ h => h.congr rfl)
  intro _
  apply Keeps.bind (keeps_terminateSlots p _)
  intro _
  apply Keeps.bind (keeps_other _ id)
  intro _
  apply Keeps.bind (keeps_modifyCore fun _ h => h.congr rfl)
  intro _
  apply Keeps.bind (keeps_threadCreate stack p 0)
  intro _
  split
  · apply Keeps.bind (keeps_modifyCore fun _ h => h.congr rfl)
    intro _
    exact Keeps.bind (keeps_other _ id) fun _ => keeps_pure _
  · exact keeps_pure _

theorem keeps_procCreateThread (stack : Option (Nat × Thread)) :
    Keeps (Masks log) (procCreateThread stack) := by
  apply Keeps.bind (keeps_reads _)
  intro p
  apply Keeps.bind (keeps_reads _)
  intro slots
  split
  · exact keeps_pure _
  apply Keeps.bind (keeps_threadCreate stack p _)
  intro _
  split
  · exact Keeps.bind (keeps_modifyCore fun _ h => h.congr rfl) fun _ => keeps_pure _
  · exact keeps_pure _

theorem gives_timerInterruptHandler (h : SchedInv boot c q) (hm : Masks log c)
    (hfinds : (c.threadTicks + 1) % 256 % maxThreadTicks = 0 → q.get .readyThreads ≠ []) :
    Gives listAt timerInterruptHandler (fun _ => Masks log) c q := by
  have ha := alike_ticked c (((c.threads c.current).ticks + 1) % 2 ^ 32)
    ((c.threadTicks + 1) % 256)
  have h1 := h.alike ha fun _ _ hb => hb
  apply Gives.bind
  apply wp_modifyCore
  apply Gives.bind
  apply wp_reads
  split
  · next hfires => exact gives_yield h1 (hm.congr rfl) (hfinds hfires)
  · exact (keeps_pure _).gives (hm.congr rfl)

/-- `thread_kill` of a thread that does not run. -/
theorem ensures_threadKill (t : Nat) :
    Ensures (threadKill t) (fun c => Masks log c ∧ c.state t ≠ .running) fun _ => Masks log := by
  refine Ensures.bind (ensures_modifyCore (Q := fun _ c => MasksOff log c ∧ c.state t ≠ .running)
    fun c h => ⟨⟨h.1.congr rfl, rfl⟩, h.2⟩) fun _ => ?_
  refine Ensures.bind (Q := fun s c => MasksOff log c ∧ s ≠ .running)
    (ensures_reads fun _ h => h) fun s => ?_
  refine Ensures.of_and fun hs => ?_
  rw [if_neg hs, map_eq_pure_bind]
  exact Ensures.bind (ensures_killOther t) fun _ => keeps_pure _

theorem keeps_procKillLoop (p : Nat) (slots : List Nat) (numAlive : Int) :
    Keeps (Masks log) (procKillLoop p slots numAlive) := by
  induction slots generalizing numAlive with
  | nil => exact keeps_pure _
  | cons i rest ih =>
      have hround : Keeps (Masks log) (procKillRound p i numAlive) := by
        apply Keeps.bind (keeps_reads _)
        rintro (_ | t)
        · exact keeps_pure _
        apply Keeps.bind (keeps_reads _)
        intro _
        refine Ensures.bind (Q := fun s c => Masks log c ∧ c.state t = s)
          (ensures_reads fun _ h => ⟨h, rfl⟩) fun s => ?_
        split
        · next hs =>
            refine Ensures.bind ((ensures_threadKill t).mono
              (fun c h => ⟨h.1, h.2.trans_ne hs.2⟩) fun _ _ h => h) fun r => ?_
            cases r with
            | none => exact keeps_pure _
            | some code => exact keeps_pure _
        · exact ensures_pure fun _ h => h.1
      apply Keeps.bind hround
      rintro (_ | numAlive)
      · exact keeps_pure _
      · exact ih numAlive

theorem gives_procKill {p : Nat} (h : SchedInv boot c q) (hmay : MayKillProc p c q)
    (hm : Masks log c) (hready : c.procOf c.current = p → ∃ t,
      .node t ∈ q.get .readyThreads ∧ t ≠ c.current ∧ c.procOf t ≠ p) :
    Gives listAt (procKill p) (fun _ => Masks log) c q := by
  apply Gives.bind
  apply wp_reads
  apply Gives.bind
  refine ((wp_procKillLoop hmay (fun i hi => List.mem_range.mp hi)
    (killing_start h hmay)).and_gives ((keeps_procKillLoop p _ _).gives hm)).mono ?_
  rintro r c1 q1 ⟨⟨n, rfl, h1⟩, hm1⟩
  apply Gives.bind
  apply wp_reads
  split
  · next hlast =>
      obtain ⟨hproc, rfl⟩ := hlast
      rw [h1.procOf, h1.current] at hproc
      obtain ⟨t, hin, hne, hother⟩ := hready hproc
      obtain ⟨u, hu, hl⟩ := h.inv.fits .readyThreads _ hin
      cases hu
      have hs : c.state t = .ready := by
        obtain ⟨hs, _⟩ | ⟨_, hout, _⟩ := h.inv.placed t hl hne
        · exact hs
        · exact absurd hin hout
      obtain ⟨hl1, hs1⟩ := h1.ready t hother hl hs
      have hne1 : t ≠ c1.current := by rwa [h1.current]
      have hothers : OthersReady c1 q1 := by
        refine ⟨.node t, ?_, by simpa using hne1⟩
        obtain ⟨_, hin1, _⟩ | ⟨hb, _⟩ := h1.sched.inv.placed t hl1 hne1
        · exact hin1
        · rw [hs1] at hb
          cases hb
      exact (gives_threadExit h1.sched (h1.mayEnd_last hmay) hm1 (Or.inl hothers)).andThen
        fun _ => keeps_pure _
  · exact (keeps_pure _).gives hm1

/-- What a call does that finds a thread ready, it does with interrupts disabled. -/
theorem gives_execOp {op : KernelOp} (h : SchedInv boot c q) (hop : MayCall boot c q op)
    (hfinds : FindsReady c q op) (hm : Masks log c) :
    Gives listAt (execOp op) (fun _ => Masks log) c q := by
  have hignore : ∀ {β : Type} {p : Kernel β}, Gives listAt p (fun _ => Masks log) c q →
      Gives listAt (ignore p) (fun _ => Masks log) c q :=
    fun hp => hp.andThen fun _ => keeps_pure _
  cases op with
  | init proc stack => exact hfinds.elim
  | create page proc childNum => exact hignore ((keeps_threadCreate page proc childNum).gives hm)
  | block => exact hignore (gives_threadBlock h hop.1 hm hfinds)
  | unblock t => exact (keeps_threadUnblock t).gives hm
  | exit => exact hignore (gives_threadExit h hop hm hfinds)
  | wait t =>
      exact hignore (gives_wait h hop.2.live (show HoldsWaiters (.threadWaiters t) from trivial)
        hop.1 hop.2.off hm hfinds)
  | notify t all ret => exact hignore ((keeps_notify id all ret).gives hm)
  | kill t => exact hignore (gives_threadKill h hop hm hfinds)
  | yield => exact hignore (gives_yield h hm hfinds)
  | timer => exact hignore (gives_timerInterruptHandler h hm hfinds)
  | procCreate page stack => exact hignore ((keeps_procCreate page stack).gives hm)
  | procCreateThread stack => exact hignore ((keeps_procCreateThread stack).gives hm)
  | procWait p =>
      exact hignore (gives_wait h hop.2.live (show HoldsWaiters (.procWaiters p) from trivial)
        hop.1 hop.2.off hm hfinds)
  | procNotify p all ret => exact hignore ((keeps_notify id all ret).gives hm)
  | procKill p => exact hignore (gives_procKill h hop hm hfinds)

end Calls

/-- The call may be made, and finds a thread ready if it comes to `schedule`. -/
def MaskedCall (boot : Nat) (s : KernelState) (op : KernelOp) : Prop :=
  Sound boot s op ∧ ∀ q, HoldsSeqs s q → FindsReady s.core q op

section Runs

variable {boot init t : Nat} {old : Thread} {s s0 s1 s2 : KernelState} {es fs : List KernelOp}

theorem masks_run (hs : Sched boot s) (hrun : Run (Guarded KernelStep (MaskedCall boot)) s es s1) :
    Masks s.core.log s1.core := by
  induction hrun with
  | nil s => exact Masks.refl _
  | cons hstep _ ih =>
      obtain ⟨q, hq, hsched⟩ := hs
      obtain ⟨⟨hsound, hfinds⟩, hcall⟩ := hstep
      obtain ⟨q', hq', hkept⟩ := step_kept hq hsched ⟨hsound, hcall⟩
      obtain ⟨_, hexec⟩ := hcall
      have hgives := gives_execOp hsched (hsound q hq) (hfinds q hq) (Masks.refl _)
      exact (hgives _ hq.represents _ _ hexec).trans (ih ⟨q', hq', hkept.sched⟩) rfl

/-- From every state in which the lists are sound, the scheduler works with interrupts disabled
as long as every call that comes to `schedule` finds a thread ready. -/
theorem sections_masked (hstart : Starts s0 init t old s)
    (hrun : Run (Guarded KernelStep (Sound s0.core.current)) s es s1)
    (hready : Run (Guarded KernelStep (MaskedCall s0.core.current)) s1 fs s2) :
    Masks s1.core.log s2.core :=
  masks_run (sched_run hrun (sched_of_starts hstart)) hready

theorem sections_masked_yield : ∃ s s1 : KernelState, Starts zeroedState 0 1 blankThread s ∧
    Guarded KernelStep (MaskedCall 0) s .yield s1 ∧ Masks s.core.log s1.core := by
  obtain ⟨s, hs⟩ := exists_starts
  obtain ⟨s1, _, ⟨hsound, hstep⟩, _, _, _⟩ := entered_idle hs
  obtain ⟨q, hq, hstarted, _, _⟩ := started_of_starts hs
  have hmasked : MaskedCall 0 s .yield := by
    refine ⟨hsound, fun q' hq' => ?_⟩
    rw [hq'.unique hq, FindsReady, hstarted.ready]
    exact List.cons_ne_nil _ _
  exact ⟨s, s1, hs, ⟨hmasked, hstep⟩, sections_masked hs (.nil s) (.single ⟨hmasked, hstep⟩)⟩

end Runs

section Open

variable {log : List Event} {c : Core} {q : KernelSeqs} {x : Nat}

theorem not_masks {new : List Event} {e : Event} (hlog : c.log = new ++ log) (he : e ∈ new)
    (hopen : ¬ Masked e) : ¬ Masks log c := by
  rintro ⟨new', heq, hnew⟩
  rw [hlog, List.append_left_inj] at heq
  rw [heq] at he
  exact hopen (hnew e he)

/-- `thread_unblock` of a thread that sleeps enables the interrupts. -/
theorem wp_threadUnblock_sleeping {Q : Unit → Core → KernelSeqs → Prop}
    (hstate : c.state x = .blocked)
    (hm : Masks log c) (hblocked : (q .blockedThreads).isSome)
    (hready : (q .readyThreads).isSome) (hin : .node x ∈ q.get .blockedThreads)
    (h : ∀ c', Masks log c' → c'.interrupts = true → c'.current = c.current →
      c'.state x = .ready → Q () c' ((q.set .blockedThreads
        ((q.get .blockedThreads).erase (.node x))).set .readyThreads
          (.node x :: q.get .readyThreads))) : Wp listAt (threadUnblock x) Q c q := by
  apply wp_of_apart
  intro hq
  apply Wp.bind
  apply wp_modifyCore
  apply Wp.bind
  apply wp_modifyCore
  apply Wp.bind
  apply wp_reads
  obtain ⟨c0, hc0⟩ : ∃ c0, c0 = (c.note (.unblock x)).withInterrupts false := ⟨_, rfl⟩
  have ha0 : Alike c c0 := hc0 ▸ (alike_note c _).trans (alike_withInterrupts _ _)
  have hnote : Masks log (c.note (.unblock x)) := hm.note trivial
  have hoff0 : MasksOff log c0 := by
    rw [hc0]
    exact ⟨hnote.congr rfl, rfl⟩
  rw [← hc0, ha0.state, if_neg (not_not_intro hstate)]
  apply Wp.bind
  apply wp_delete hblocked _ fun hout => absurd hin hout
  intro _
  apply Wp.bind
  apply wp_modifyCore
  apply Wp.bind
  apply wp_insert
  · exact Seqs.isSome_set hready
  · exact ⟨not_isSentinel_node x, hq.erased hin⟩
  apply wp_modifyCore
  rw [Seqs.get_set_of_ne (by decide)]
  have hoff := ((hoff0.noteCall (.delete .blockedThreads (.node x))).setState x .ready).noteCall
    (.insert .readyThreads (.node x))
  have ha := (((ha0.trans (alike_noteCall _ (.delete .blockedThreads (.node x)))).setState x
    .ready).trans (alike_noteCall _ (.insert .readyThreads (.node x)))).trans
      (alike_withInterrupts _ true)
  refine h _ (hoff.1.congr rfl) rfl ha.current ?_
  rw [ha.state, state_setState]

/-- With no thread ready, `schedule` goes on with interrupts enabled. -/
theorem wp_pickNext_none {Q : Nat → Core → KernelSeqs → Prop} (hidle : c.idleT = some x)
    (hstate : c.state x = .blocked) (hoff : MasksOff log c)
    (hblocked : (q .blockedThreads).isSome) (hlist : (q .readyThreads).isSome)
    (hready : q.get .readyThreads = []) (hin : .node x ∈ q.get .blockedThreads)
    (h : ∀ c' q', Masks log c' → c'.interrupts = true → c'.current = c.current →
      c'.state x = .ready → (q' .readyThreads).isSome → q'.get .readyThreads = [.node x] →
      Q x c' q') : Wp listAt pickNext Q c q := by
  apply Wp.bind
  apply wp_size hlist
  rw [hready, if_neg (by simp)]
  apply Wp.bind
  apply wp_pop hlist
  rw [hready]
  apply Wp.bind
  apply wp_modifyCore
  obtain ⟨c1, hc1⟩ : ∃ c1, c1 = (c.noteCall (.pop .readyThreads)).note .readyEmpty := ⟨_, rfl⟩
  have ha : Alike c c1 := hc1 ▸ (alike_noteCall c _).trans (alike_note _ _)
  have hm1 : Masks log c1 := by
    rw [hc1]
    exact (hoff.noteCall (.pop .readyThreads)).1.note trivial
  rw [← hc1]
  apply Wp.bind
  apply wp_reads
  rw [ha.idleT, hidle]
  apply Wp.bind
  apply wp_threadUnblock_sleeping ((ha.state x).trans hstate) hm1
  · exact Seqs.isSome_set hblocked
  · simp [Seqs.set]
  · rwa [Seqs.get_set_of_ne (by decide)]
  · intro c' hm' hon hcur hstate'
    apply wp_pure
    refine h c' _ hm' hon (hcur.trans ha.current) hstate' ?_ ?_
    · simp [Seqs.set]
    · simp

/-- The idle thread blocks while no other thread is ready: it is put on the ready list with
interrupts enabled. -/
theorem leads_threadBlock_alone (hcur : c.current = x) (hidle : c.idleT = some x)
    (hstate : c.state x = .running) (hlist : (q .readyThreads).isSome)
    (hblocked : (q .blockedThreads).isSome) (hready : q.get .readyThreads = [.node x]) :
    Leads listAt threadBlock (fun _ c' _ => ¬ Masks c.log c') c q := by
  have hin : .node x ∈ q.get .readyThreads := by
    rw [hready]
    exact List.mem_cons_self
  obtain ⟨c1, hc1⟩ : ∃ c1,
    c1 = (c.withInterrupts false).noteCall (.delete .readyThreads (.node x)) := ⟨_, rfl⟩
  have ha1 : Alike c c1 := hc1 ▸ (alike_withInterrupts c false).trans (alike_noteCall _ _)
  have hoff0 : MasksOff c.log (c.withInterrupts false) := ⟨(Masks.refl c).congr rfl, rfl⟩
  have hoff1 : MasksOff c.log c1 := by
    rw [hc1]
    exact hoff0.noteCall _
  intro h hr
  have hq := apart_of_represents hr
  refine Leads.bind (wp_modifyCore ?_) h hr
  apply Leads.bind
  apply wp_reads
  rw [show (c.withInterrupts false).current = x from hcur]
  apply Leads.bind
  apply wp_delete hlist _ fun hout => absurd hin hout
  rw [← hc1]
  intro _
  apply Leads.bind
  apply wp_reads
  rw [ha1.state, hstate, if_neg (not_not_intro rfl)]
  apply Leads.bind
  apply wp_modifyCore
  apply Leads.bind
  apply wp_insert
  · exact Seqs.isSome_set hblocked
  · exact ⟨not_isSentinel_node x, hq.erased hin⟩
  rw [hready, List.erase_cons_head]
  obtain ⟨c2, hc2⟩ : ∃ c2, c2 = ((c1.setState x .blocked).noteCall
    (.insert .blockedThreads (.node x))).withInterrupts false := ⟨_, rfl⟩
  have ha2 : Alike (c.setState x .blocked) c2 :=
    hc2 ▸ ((ha1.setState x .blocked).trans (alike_noteCall _ _)).trans (alike_withInterrupts _ _)
  have hoff2 : MasksOff c.log c2 := by
    rw [hc2]
    exact ⟨((hoff1.setState x .blocked).noteCall
      (.insert .blockedThreads (.node x))).1.congr rfl, rfl⟩
  apply Leads.bind
  apply wp_modifyCore
  rw [← hc2]
  apply Leads.bind
  apply wp_pickNext_none (x := x) (ha2.idleT.trans hidle)
    ((ha2.state x).trans (state_setState c _ _))
    hoff2
  · simp [Seqs.set]
  · simp [Seqs.set]
  · simp [Seqs.get, Seqs.set]
  · simp
  rintro c3 q3 ⟨new, hlog, _⟩ hon hcur3 hstate3 hlist3 hready3
  apply Leads.bind
  apply wp_reads
  rw [hcur3, ha2.current, show (c.setState x .blocked).current = x from hcur]
  apply Leads.andThen
  apply Leads.bind
  apply wp_reads
  rw [hstate3, if_neg (by decide)]
  apply Leads.bind
  apply wp_reads
  rw [hstate3, if_neg (by decide)]
  apply Leads.bind
  apply wp_reads
  rw [hstate3, if_pos rfl]
  refine (leads_insertEnd_again hlist3 (by rw [hready3]; rfl)).mono ?_
  rintro _ _ h' ⟨rfl, _⟩
  have hstate4 : (c3.noteCall (.insertEnd .readyThreads (.node x))).state x = .ready :=
    ((alike_noteCall c3 _).state x).trans hstate3
  refine ⟨_, _, h', dispatch_self (by rw [hstate4]; decide), ?_⟩
  -- the second event is the change of the ready list
  refine @not_masks _ _ (.stateSet x c3.interrupts :: .changed .readyThreads c3.interrupts :: new) _
    ?_ (List.mem_cons_of_mem _ List.mem_cons_self) ?_
  · change _ :: _ :: c3.log = _
    rw [hlog]
    rfl
  · rw [hon]
    exact fun hmasked => absurd (hmasked trivial) (by decide)

/-- The idle thread blocks with no other thread ready: `thread_unblock` ends the section of
`schedule`. -/
theorem not_sections_masked : ∃ s s1 s2 : KernelState, Starts zeroedState 0 1 blankThread s ∧
    Run KernelStep s [.yield] s1 ∧ KernelStep s1 .block s2 ∧ ¬ Masks s1.core.log s2.core := by
  obtain ⟨s, hs⟩ := exists_starts
  obtain ⟨s1, q, ⟨_, hstep⟩, hq, hsched, hent⟩ := entered_idle hs
  have hstate : s1.core.state 1 = .running := by
    have hrunning := (hsched.current (hent.current ▸ hent.live)).1
    rwa [hent.current] at hrunning
  have hleads : Leads listAt (execOp .block) (fun _ c' _ => ¬ Masks s1.core.log c') s1.core q := by
    apply Leads.andThen
    refine (leads_threadBlock_alone hent.current hent.idle hstate
      (hsched.inv.lists .readyThreads trivial) (hsched.inv.lists .blockedThreads trivial)
      hent.ready).mono ?_
    exact fun _ c' h' hc => ⟨(), c', h', rfl, hc⟩
  obtain ⟨_, c', h', heq, hopen⟩ := hleads s1.heap hq.represents
  exact ⟨s, s1, ⟨c', h'⟩, hs, .single hstep, .call _ heq, hopen⟩

end Open

end Longhorn.CriticalSections
