import Mathlib.Data.Fintype.Card
import Longhorn.Foundations.Pic8259
import Longhorn.InterruptDispatch

/-!
The interrupt controllers as `kernel/isr.c` sets them up and as its handlers end their
interrupts, while threads are switched in the middle of a handler.
-/

namespace Longhorn.InterruptControllers

open Longhorn.Foundations.Ia32
open Longhorn.Foundations.Pic8259
open Longhorn.Foundations.TransitionRuns
open Longhorn.SwitchModel
open Longhorn.SwitchRules
open Longhorn.InterruptDispatch

/-- `remap_pics` -/
def remapPics : List (BitVec 16 × BitVec 8) :=
  [(0x20, 0x11), (0xA0, 0x11), (0x21, 0x20), (0xA1, 0x28), (0x21, 0x04), (0xA1, 0x02),
   (0x21, 0x01), (0xA1, 0x01), (0x21, 0x00), (0xA1, 0x00)]

/-- What a handler writes to ports. -/
def Action.written : Action → Option (BitVec 16 × BitVec 8)
  | .outb port data => some (port, data)
  | _ => none

def Action.isCall : Action → Bool
  | .call _ _ => true
  | _ => false

structure IrqState where
  pics : Pics
  current : Nat
  /-- The handlers that have not returned to `irq_handler`: the thread in which each was called
  and what is left of `irq_handler` behind the call, the last one first. -/
  unfinished : List (Nat × List Action)

/-- `irq_handler` goes on to the next call of a handler or to its end. -/
def IrqState.goOn (s : IrqState) (as : List Action) : Option IrqState := do
  let pics' ← s.pics.writes ((as.takeWhile fun a => !Action.isCall a).filterMap Action.written)
  match as.dropWhile fun a => !Action.isCall a with
  | [] => some { s with pics := pics' }
  | _ :: rest => some { s with pics := pics', unfinished := (s.current, rest) :: s.unfinished }

inductive IrqEvent where
  | request (line : Fin 16)
  /-- The processor takes the interrupt of a line, and `irq_handler` calls its handler. -/
  | deliver (line : Fin 16) (handlers : Handlers) (r : RegisterFrame)
  /-- The last handler that was called in the running thread returns to `irq_handler`. -/
  | finish
  /-- The running thread is behind `finish_schedule` in `first_switch_entry`. -/
  | start (m : Machine)
  | switch (t : Nat)
  /-- The stack of a thread is given back. -/
  | free (t : Nat)

/-- The vector of a line, as the table of interrupts has it. -/
def irqVector (line : Fin 16) : Nat := isrs.length + line

def IrqStep (s : IrqState) (e : IrqEvent) (s' : IrqState) : Prop :=
  match e with
  | .request line => line.val ≠ cascadeLine.val ∧ s' = { s with pics := s.pics.request line }
  | .deliver line handlers r => r.intNo.toNat = irqVector line ∧ ∃ pics',
      s.pics.acknowledge = some (BitVec.ofNat 8 (irqVector line), pics') ∧
      { s with pics := pics' }.goOn (irqHandler handlers r) = some s'
  | .finish => ∃ rest, s.unfinished.find? (fun x => x.1 = s.current) = some (s.current, rest) ∧
      { s with unfinished := s.unfinished.eraseP fun x => x.1 = s.current }.goOn rest = some s'
  | .start m => ∃ ws pics', (firstSwitchReturn m).ports = ws.reverse ++ m.ports ∧
      s.pics.writes ws = some pics' ∧ s' = { s with pics := pics' }
  | .switch t => s' = { s with current := t }
  | .free t => s' = { s with unfinished := s.unfinished.filter fun x => x.1 ≠ t }

section Remap

variable {p p' : Pics}

/-- What the rest of the kernel relies on. -/
structure Remapped (p : Pics) : Prop extends Cascaded p where
  masterBase : p.master.base = 0x20
  slaveBase : p.slave.base = 0x28
  masterMask : p.master.lines.masked = ∅
  slaveMask : p.slave.lines.masked = ∅
  free : cascadeLine ∉ p.master.lines.requests

theorem remapPics_eq (p : Pics) : ∃ p', p.writes remapPics = some p' ∧
    p'.master = ⟨⟨∅, p.master.lines.inService, ∅⟩, 0x20, 0x04, 0x01, .mask⟩ ∧
    p'.slave = ⟨⟨∅, p.slave.lines.inService, ∅⟩, 0x28, 0x02, 0x01, .mask⟩ := by
  refine ⟨_, rfl, ?_, ?_⟩
  · rfl
  · rfl

/-- However the controllers were set up before, they are remapped. -/
theorem remapped_of_writes (h : p.writes remapPics = some p') : Remapped p' := by
  obtain ⟨p₁, hp₁, hmaster, hslave⟩ := remapPics_eq p
  obtain rfl : p₁ = p' := Option.some.inj (hp₁.symm.trans h)
  refine ⟨⟨?_, ?_⟩, ?_, ?_, ?_, ?_, ?_⟩
  all_goals first | rw [hmaster] | rw [hslave]
  exact Finset.notMem_empty _

/-- Controllers that nothing has been written to. -/
def picsOff : Pics := ⟨⟨⟨∅, ∅, ∅⟩, 0, 0, 0, .mask⟩, ⟨⟨∅, ∅, ∅⟩, 0, 0, 0, .mask⟩⟩

def picsOn : Pics :=
  ⟨⟨⟨∅, ∅, ∅⟩, 0x20, 0x04, 0x01, .mask⟩, ⟨⟨∅, ∅, ∅⟩, 0x28, 0x02, 0x01, .mask⟩⟩

theorem remap_picsOff : picsOff.writes remapPics = some picsOn := rfl

end Remap

section Lines

/-- What the acknowledgement of a line is for the lines of the master. -/
def taken (line : Fin 16) : List (LineEvent (Fin 8)) :=
  if h : line.val < 8 then [.acknowledge ⟨line, h⟩]
  else [.raise cascadeLine, .acknowledge cascadeLine]

/-- What an event is for the lines of the master. -/
def masterEvents : IrqEvent → List (LineEvent (Fin 8))
  | .request line => if h : line.val < 8 then [.raise ⟨line, h⟩] else []
  | .deliver line handlers _ =>
      taken line ++ if handlers (irqVector line) ≠ 0 then [] else [.endOfInterrupt]
  | .finish => [.endOfInterrupt]
  | .start _ => [.endOfInterrupt]
  | .switch _ => []
  | .free _ => []

/-- What it is for those of the slave. -/
def slaveEvents : IrqEvent → List (LineEvent (Fin 8))
  | .request line => if line.val < 8 then [] else [.raise ⟨line - 8, by omega⟩]
  | .deliver line _ _ => if line.val < 8 then [] else [.acknowledge ⟨line - 8, by omega⟩]
  | _ => []

variable {p p' : Pics} {s s' : IrqState} {e : IrqEvent} {es : List IrqEvent} {line : Fin 16}

theorem toNat_vector (line : Fin 16) : (BitVec.ofNat 8 (irqVector line)).toNat = 32 + line := by
  have hlen : isrs.length = 32 := rfl
  have hlt := line.isLt
  rw [irqVector, hlen, BitVec.toNat_ofNat]
  omega

theorem toNat_base_add {base : BitVec 8} (hbase : base.toNat ≤ 0x28) (a : Fin 8) :
    (base + BitVec.ofNat 8 a).toNat = base.toNat + a := by
  have hlt := a.isLt
  rw [BitVec.toNat_add, BitVec.toNat_ofNat]
  omega

/-- For one of the sixteen lines, the master only is told of the end, and only when the handler
has returned. -/
theorem goOn_irqHandler {handlers : Handlers} {r : RegisterFrame}
    (hno : r.intNo.toNat = irqVector line) (s : IrqState) : s.goOn (irqHandler handlers r) =
      some (if handlers (irqVector line) ≠ 0
        then { s with unfinished := (s.current, [.outb 0x20 0x20]) :: s.unfinished }
        else { s with pics.master.lines := s.pics.master.lines.endOfInterrupt }) := by
  have hlen : isrs.length = 32 := rfl
  have hlt := line.isLt
  have hsmall : ¬ 49 ≤ r.intNo.toNat := by
    rw [hno, irqVector, hlen]
    omega
  rw [irqHandler, if_neg hsmall, List.append_nil, hno]
  split <;> rfl

theorem goOn_end (s : IrqState) : s.goOn [.outb 0x20 0x20] =
    some { s with pics.master.lines := s.pics.master.lines.endOfInterrupt } := rfl

theorem written_firstSwitch {m : Machine} {ws : List (BitVec 16 × BitVec 8)}
    (hports : (firstSwitchReturn m).ports = ws.reverse ++ m.ports) : ws = [(0x20, 0x20)] := by
  rw [(ContextResumption.firstSwitchReturn_eq m).2.2.2, ← List.singleton_append] at hports
  rw [← List.reverse_reverse ws, ← List.append_cancel_right hports, List.reverse_singleton]

theorem writes_endOfInterrupt (p : Pics) : p.writes [(0x20, 0x20)] =
    some { p with master.lines := p.master.lines.endOfInterrupt } := rfl

theorem Remapped.endOfInterrupt (hr : Remapped p) :
    Remapped { p with master.lines := p.master.lines.endOfInterrupt } :=
  ⟨⟨hr.master, hr.slave⟩, hr.masterBase, hr.slaveBase, hr.masterMask, hr.slaveMask, hr.free⟩

theorem Remapped.request (hr : Remapped p) (hne : line.val ≠ cascadeLine.val) :
    Remapped (p.request line) ∧
      Run LineStep p.master.lines (masterEvents (.request line)) (p.request line).master.lines ∧
      Run LineStep p.slave.lines (slaveEvents (.request line)) (p.request line).slave.lines := by
  by_cases hlt : line.val < 8
  · have hreq : p.request line =
        { p with master.lines := p.master.lines.raise ⟨line, hlt⟩ } := dif_pos hlt
    rw [masterEvents, slaveEvents, dif_pos hlt, if_pos hlt, hreq]
    refine ⟨⟨⟨hr.master, hr.slave⟩, hr.masterBase, hr.slaveBase, hr.masterMask,
      hr.slaveMask, ?_⟩, .single rfl, .nil _⟩
    simp only [Lines.raise, Finset.mem_insert, not_or]
    exact ⟨fun heq => hne (congrArg Fin.val heq).symm, hr.free⟩
  · have hreq : p.request line =
        { p with slave.lines := p.slave.lines.raise ⟨line - 8, by omega⟩ } := dif_neg hlt
    rw [masterEvents, slaveEvents, dif_neg hlt, if_neg hlt, hreq]
    exact ⟨⟨⟨hr.master, hr.slave⟩, hr.masterBase, hr.slaveBase, hr.masterMask,
      hr.slaveMask, hr.free⟩, .nil _, .single rfl⟩

theorem Remapped.acknowledge (hr : Remapped p)
    (hack : p.acknowledge = some (BitVec.ofNat 8 (irqVector line), p')) :
    Remapped p' ∧ Run LineStep p.master.lines (taken line) p'.master.lines ∧
      Run LineStep p.slave.lines
        (if line.val < 8 then [] else [.acknowledge ⟨line - 8, by omega⟩]) p'.slave.lines := by
  have hvector := toNat_vector line
  rcases hr.acknowledge_cases hack with ⟨a, hne, hpending, hv, rfl⟩ | ⟨b, hmaster, hb, hv, rfl⟩
  · have hline : line.val = a := by
      rw [hv, Pic.vector, toNat_base_add (by rw [hr.masterBase]; decide), hr.masterBase]
        at hvector
      exact (Nat.add_left_cancel hvector).symm
    have hlt : line.val < 8 := hline ▸ a.isLt
    have ha : a = ⟨line, hlt⟩ := Fin.ext hline.symm
    rw [taken, dif_pos hlt, if_pos hlt, ← ha]
    refine ⟨⟨⟨hr.master, hr.slave⟩, hr.masterBase, hr.slaveBase, hr.masterMask,
      hr.slaveMask, ?_⟩, .single ⟨hpending, rfl⟩, .nil _⟩
    exact fun hin => hr.free (Finset.mem_of_mem_erase hin)
  · have hline : line.val = 8 + b := by
      rw [hv, Pic.vector, toNat_base_add (by rw [hr.slaveBase]; decide), hr.slaveBase]
        at hvector
      have hbase : (0x28 : BitVec 8).toNat = 32 + 8 := rfl
      omega
    have hge : ¬ line.val < 8 := by omega
    have hb' : b = ⟨line - 8, by omega⟩ := Fin.ext (by simp only [hline]; omega)
    rw [taken, dif_neg hge, if_neg hge, ← hb']
    have hraised : p.asserted = p.master.lines.raise cascadeLine := by
      rw [Pics.asserted, hb]
      exact if_pos rfl
    rw [hraised] at hmaster
    refine ⟨⟨⟨hr.master, hr.slave⟩, hr.masterBase, hr.slaveBase, hr.masterMask,
      hr.slaveMask, ?_⟩, .cons rfl (.single ⟨hmaster, ?_⟩), .single ⟨hb, rfl⟩⟩
    · exact fun hin => hr.free (Finset.mem_of_mem_erase hin)
    · exact (Lines.acknowledge_raise _ _).symm

/-- The controllers are set up, and behind every handler only the master is told of an end. -/
structure Serving (s : IrqState) : Prop where
  remapped : Remapped s.pics
  owed : ∀ x ∈ s.unfinished, x.2 = [.outb 0x20 0x20]

/-- The controllers stay set up, and their lines go through what the event is for them. -/
theorem lines_of_step (hs : Serving s) (hstep : IrqStep s e s') :
    Serving s' ∧
      Run LineStep s.pics.master.lines (masterEvents e) s'.pics.master.lines ∧
      Run LineStep s.pics.slave.lines (slaveEvents e) s'.pics.slave.lines := by
  cases e with
  | request line =>
      obtain ⟨hne, rfl⟩ := hstep
      obtain ⟨hr', hmaster, hslave⟩ := hs.remapped.request hne
      exact ⟨⟨hr', hs.owed⟩, hmaster, hslave⟩
  | deliver line handlers r =>
      obtain ⟨hno, p', hack, hgo⟩ := hstep
      obtain ⟨hr', hmaster, hslave⟩ := hs.remapped.acknowledge hack
      rw [goOn_irqHandler hno, Option.some_inj] at hgo
      rw [masterEvents]
      by_cases hhandler : handlers (irqVector line) ≠ 0
      · rw [if_pos hhandler] at hgo ⊢
        subst hgo
        rw [List.append_nil]
        exact ⟨⟨hr', List.forall_mem_cons.mpr ⟨rfl, hs.owed⟩⟩, hmaster, hslave⟩
      · rw [if_neg hhandler] at hgo ⊢
        subst hgo
        exact ⟨⟨hr'.endOfInterrupt, hs.owed⟩, hmaster.append (.single rfl), hslave⟩
  | finish =>
      obtain ⟨rest, hlast, hgo⟩ := hstep
      obtain rfl : rest = _ := hs.owed _ (List.mem_of_find?_eq_some hlast)
      rw [goOn_end, Option.some_inj] at hgo
      subst hgo
      exact ⟨⟨hs.remapped.endOfInterrupt, fun x hx => hs.owed x (List.mem_of_mem_eraseP hx)⟩,
        .single rfl, .nil _⟩
  | start m =>
      obtain ⟨ws, p', hports, hwrites, rfl⟩ := hstep
      rw [written_firstSwitch hports, writes_endOfInterrupt, Option.some_inj] at hwrites
      subst hwrites
      exact ⟨⟨hs.remapped.endOfInterrupt, hs.owed⟩, .single rfl, .nil _⟩
  | switch t =>
      obtain rfl := hstep
      exact ⟨⟨hs.remapped, hs.owed⟩, .nil _, .nil _⟩
  | free t =>
      obtain rfl := hstep
      exact ⟨⟨hs.remapped, fun x hx => hs.owed x (List.mem_of_mem_filter hx)⟩, .nil _, .nil _⟩

theorem lines_of_run (hs : Serving s) (hrun : Run IrqStep s es s') :
    Serving s' ∧
      Run LineStep s.pics.master.lines (es.flatMap masterEvents) s'.pics.master.lines ∧
      Run LineStep s.pics.slave.lines (es.flatMap slaveEvents) s'.pics.slave.lines := by
  induction hrun with
  | nil s => exact ⟨hs, .nil _, .nil _⟩
  | @cons s s₁ s' e es hstep _ ih =>
      obtain ⟨hs₁, hmaster, hslave⟩ := lines_of_step hs hstep
      obtain ⟨hs', hmaster', hslave'⟩ := ih hs₁
      exact ⟨hs', hmaster.append hmaster', hslave.append hslave'⟩

theorem serving_of_remap {p₀ : Pics} {cur : Nat} (hremap : p.writes remapPics = some p₀) :
    Serving ⟨p₀, cur, []⟩ :=
  ⟨remapped_of_writes hremap, fun _ hx => absurd hx List.not_mem_nil⟩

end Lines

section Delivery

variable {s s' s₀ : IrqState} {e : IrqEvent} {es : List IrqEvent} {line : Fin 16}

def IrqEvent.delivered : IrqEvent → Option (Fin 16)
  | .deliver line _ _ => some line
  | _ => none

theorem acknowledged_slave (es : List IrqEvent) :
    ((es.flatMap slaveEvents).filterMap LineEvent.acknowledged).map Fin.val =
      ((es.filterMap IrqEvent.delivered).filter fun line => 8 ≤ line.val).map
        fun line => line.val - 8 := by
  induction es with
  | nil => rfl
  | cons e es ih =>
      rw [List.flatMap_cons, List.filterMap_append, List.map_append, ih]
      cases e with
      | deliver line handlers r =>
          rw [List.filterMap_cons_some (f := IrqEvent.delivered) (b := line) rfl, slaveEvents]
          by_cases hlt : line.val < 8
          · rw [if_pos hlt, List.filter_cons_of_neg (by simpa using hlt)]
            rfl
          · rw [if_neg hlt, List.filter_cons_of_pos (by simpa using hlt)]
            rfl
      | request line =>
          rw [List.filterMap_cons_none (f := IrqEvent.delivered) rfl, slaveEvents]
          split <;> rfl
      | finish => rfl
      | start m => rfl
      | switch t => rfl
      | free t => rfl

theorem endOfInterrupt_slave (es : List IrqEvent) :
    LineEvent.endOfInterrupt ∉ es.flatMap slaveEvents := by
  intro hin
  obtain ⟨e, -, he⟩ := List.mem_flatMap.mp hin
  cases e <;> simp only [slaveEvents] at he
  all_goals first | (split at he <;> simp at he) | simp at he

/-- Since the slave is told of the end of no interrupt, every interrupt that it delivers comes
from a line with a higher priority than those before, and there are at most eight of them. -/
theorem slave_lines_descend {p p₀ : Pics} {cur : Nat} (hremap : p.writes remapPics = some p₀)
    (hrun : Run IrqStep ⟨p₀, cur, []⟩ es s) :
    ((es.filterMap IrqEvent.delivered).filter fun line => 8 ≤ line.val).Pairwise (· > ·) ∧
      ((es.filterMap IrqEvent.delivered).filter fun line => 8 ≤ line.val).length ≤ 8 := by
  obtain ⟨-, -, hslave⟩ := lines_of_run (serving_of_remap hremap) hrun
  obtain ⟨hsorted, -, -⟩ := acknowledged_of_run hslave (endOfInterrupt_slave es)
  have hlines := acknowledged_slave es
  obtain ⟨slaves, hslaves⟩ : ∃ slaves, slaves =
      (es.filterMap IrqEvent.delivered).filter fun line => 8 ≤ line.val := ⟨_, rfl⟩
  have hge : ∀ line ∈ slaves, 8 ≤ line.val := by
    intro line hline
    rw [hslaves] at hline
    exact of_decide_eq_true (List.mem_filter.mp hline).2
  rw [← hslaves] at hlines ⊢
  constructor
  · have hvals : (slaves.map fun line => line.val - 8).Pairwise (· > ·) := by
      rw [← hlines, List.pairwise_map]
      exact hsorted
    rw [List.pairwise_map] at hvals
    refine hvals.imp_of_mem fun {a b} ha hb hab => ?_
    have hage := hge a ha
    have hbge := hge b hb
    exact Fin.lt_def.mpr (by omega)
  · have hlen := congrArg List.length hlines
    rw [List.length_map, List.length_map] at hlen
    rw [← hlen]
    have hnodup : ((es.flatMap slaveEvents).filterMap LineEvent.acknowledged).Nodup :=
      hsorted.imp fun h => h.ne'
    exact (List.Nodup.length_le_card hnodup).trans_eq (Fintype.card_fin 8)

/-- A device on line 14 makes a request and then one on line 8. -/
theorem slave_lines_descend_two : ([14, 8] : List (Fin 16)).Pairwise (· > ·) := by
  have hrun : Run IrqStep ⟨picsOn, 1, []⟩ [.request 14,
      .deliver 14 (fun _ => 0x7000) (frameOf ContextResumption.bootState.m 46 14), .finish,
      .request 8, .deliver 8 (fun _ => 0) (frameOf ContextResumption.bootState.m 40 8)] _ :=
    .cons ⟨by decide, rfl⟩ (.cons ⟨rfl, _, rfl, rfl⟩ (.cons ⟨_, rfl, rfl⟩
      (.cons ⟨by decide, rfl⟩ (.single ⟨rfl, _, rfl, rfl⟩))))
  exact (slave_lines_descend remap_picsOff hrun).1

/-- No stack is given back on which a call of `irq_handler` has not come to its end. -/
def Settled (s : IrqState) : IrqEvent → Prop
  | .free t => ∀ x ∈ s.unfinished, x.1 ≠ t
  | _ => True

/-- The interrupts in service on the master are interrupts that some thread is in. -/
def Covered (s : IrqState) : Prop :=
  Serving s ∧ s.pics.master.lines.inService.card ≤ s.unfinished.length

theorem count_taken (line : Fin 16) (n : Nat) :
    (taken line).foldl (fun n e => e.count n) n = n + 1 := by
  rw [taken]
  split <;> rfl

theorem Covered.step (h : Covered s) (hstep : Guarded IrqStep Settled s e s') : Covered s' := by
  obtain ⟨hsettled, hirq⟩ := hstep
  obtain ⟨hs, hmaster, -⟩ := lines_of_step h.1 hirq
  have hbefore := h.2
  have hcard := card_of_run hmaster
  refine ⟨hs, ?_⟩
  rw [hcard]
  cases e with
  | request line =>
      obtain ⟨-, rfl⟩ := hirq
      rw [masterEvents]
      split <;> exact hbefore
  | deliver line handlers r =>
      obtain ⟨hno, p', -, hgo⟩ := hirq
      rw [goOn_irqHandler hno, Option.some_inj] at hgo
      rw [masterEvents, List.foldl_append, count_taken, ← hgo]
      split
      · exact Nat.succ_le_succ hbefore
      · exact hbefore
  | finish =>
      obtain ⟨rest, hlast, hgo⟩ := hirq
      have hmem := List.mem_of_find?_eq_some hlast
      obtain rfl : rest = _ := h.1.owed _ hmem
      rw [goOn_end, Option.some_inj] at hgo
      have hlen : (s.unfinished.eraseP fun x => decide (x.1 = s.current)).length =
          s.unfinished.length - 1 := List.length_eraseP_of_mem hmem (decide_eq_true rfl)
      rw [← hgo]
      simp only [hlen]
      exact Nat.sub_le_sub_right hbefore 1
  | start m =>
      obtain ⟨ws, p', -, -, rfl⟩ := hirq
      exact (Nat.sub_le _ 1).trans hbefore
  | switch t =>
      obtain rfl := hirq
      exact hbefore
  | free t =>
      obtain rfl := hirq
      have hall : s.unfinished.filter (fun x => x.1 ≠ t) = s.unfinished :=
        List.filter_eq_self.mpr fun x hx => decide_eq_true (hsettled x hx)
      rw [hall]
      exact hbefore

/-- While no thread with an unfinished interrupt is freed, the master is serving at most the
interrupts that threads are in, and once they have all come to their end, the next request
comes through. -/
theorem delivers_when_finished {p p₀ : Pics} {cur : Nat} (hremap : p.writes remapPics = some p₀)
    (hidle : p.master.lines.inService = ∅)
    (hrun : Run (Guarded IrqStep Settled) ⟨p₀, cur, []⟩ es s) :
    s.pics.master.lines.inService.card ≤ s.unfinished.length ∧
      (s.unfinished = [] → s.pics.asserted.requests.Nonempty → s.pics.acknowledge.isSome) := by
  have hstart : Covered ⟨p₀, cur, []⟩ := by
    obtain ⟨p₁, hp₁, hmaster, -⟩ := remapPics_eq p
    obtain rfl : p₁ = p₀ := Option.some.inj (hp₁.symm.trans hremap)
    refine ⟨serving_of_remap hremap, ?_⟩
    rw [hmaster, hidle]
    exact Nat.le_refl 0
  have hcovered : Covered s := hrun.invariant Covered (fun _ _ _ h hstep => h.step hstep) hstart
  refine ⟨hcovered.2, fun hnil ⟨a, ha⟩ => ?_⟩
  obtain ⟨⟨hr, -⟩, hcard⟩ := hcovered
  rw [hnil, List.length_nil, Nat.le_zero, Finset.card_eq_zero] at hcard
  refine hr.acknowledge_isSome ⟨a, Lines.mem_ready.mpr ⟨ha, ?_, ?_⟩⟩ hr.free
  · rw [Pics.asserted]
    split
    · rw [Lines.raise, hr.masterMask]
      exact Finset.notMem_empty a
    · rw [hr.masterMask]
      exact Finset.notMem_empty a
  · have hsame : s.pics.asserted.inService = ∅ := by
      rw [Pics.asserted]
      split <;> exact hcard
    rw [hsame]
    exact fun b hb => absurd hb (Finset.notMem_empty b)

/-- The keyboard comes through once the timer has been dealt with. -/
theorem delivers_when_finished_keyboard : ∃ pics : Pics, pics.acknowledge.isSome := by
  have hrun : Run (Guarded IrqStep Settled) ⟨picsOn, 1, []⟩ [.request 0,
      .deliver 0 (fun _ => 0x7000) (frameOf ContextResumption.bootState.m 32 0), .finish,
      .request 1] _ :=
    .cons ⟨trivial, by decide, rfl⟩ (.cons ⟨trivial, rfl, _, rfl, rfl⟩
      (.cons ⟨trivial, _, rfl, rfl⟩ (.single ⟨trivial, by decide, rfl⟩)))
  have hall := delivers_when_finished remap_picsOff rfl hrun
  exact ⟨_, hall.2 rfl ⟨1, Finset.mem_insert_self 1 _⟩⟩

theorem endOfInterrupt_taken (line : Fin 16) : LineEvent.endOfInterrupt ∉ taken line := by
  rw [taken]
  split <;> simp

theorem acknowledged_taken (line : Fin 16) :
    ∃ a, a ∈ (taken line).filterMap LineEvent.acknowledged := by
  rw [taken]
  split
  · exact ⟨_, List.mem_singleton_self _⟩
  · exact ⟨cascadeLine, List.mem_singleton_self _⟩

/-- No handler returns, and no thread starts. -/
def Unended (es : List IrqEvent) : Prop :=
  ∀ e ∈ es, e ≠ .finish ∧ ∀ m, e ≠ .start m

/-- While the line with the highest priority is in service, no other is delivered. -/
theorem held_of_step (hs : Serving s) (hservice : 0 ∈ s.pics.master.lines.inService)
    (hstep : IrqStep s e s') (hfinish : e ≠ .finish) (hstart : ∀ m, e ≠ .start m) :
    e.delivered = none ∧ 0 ∈ s'.pics.master.lines.inService := by
  obtain ⟨-, hmaster, -⟩ := lines_of_step hs hstep
  cases e with
  | deliver line handlers r =>
      obtain ⟨l, htaken, -⟩ := hmaster.split
      obtain ⟨-, hbelow, -⟩ := acknowledged_of_run htaken (endOfInterrupt_taken line)
      obtain ⟨a, ha⟩ := acknowledged_taken line
      exact absurd (hbelow a ha 0 hservice) (Fin.not_lt_zero a)
  | request line =>
      have hend : LineEvent.endOfInterrupt ∉ masterEvents (.request line) := by
        rw [masterEvents]
        split <;> simp
      exact ⟨rfl, ((acknowledged_of_run hmaster hend).2.2 0).mpr (Or.inl hservice)⟩
  | finish => exact absurd rfl hfinish
  | start m => exact absurd rfl (hstart m)
  | switch t =>
      obtain rfl := hstep
      exact ⟨rfl, hservice⟩
  | free t =>
      obtain rfl := hstep
      exact ⟨rfl, hservice⟩

theorem held_of_run (hs : Serving s) (hservice : 0 ∈ s.pics.master.lines.inService)
    (hrun : Run IrqStep s es s') (hes : Unended es) : es.filterMap IrqEvent.delivered = [] := by
  induction hrun with
  | nil s => rfl
  | @cons s s₁ s' e es hstep _ ih =>
      obtain ⟨⟨hfinish, hstart⟩, htail⟩ := List.forall_mem_cons.mp hes
      obtain ⟨hnone, hservice₁⟩ := held_of_step hs hservice hstep hfinish hstart
      rw [List.filterMap_cons_none hnone]
      exact ih (lines_of_step hs hstep).1 hservice₁ htail

/-- The timer has the highest priority: once its handler is called, nothing is delivered,
whichever threads run, until a handler returns to `irq_handler` or a thread starts. -/
theorem timer_holds_back {p p₀ : Pics} {cur : Nat} {es₀ : List IrqEvent} {handlers : Handlers}
    {r : RegisterFrame} (hremap : p.writes remapPics = some p₀)
    (hrun₀ : Run IrqStep ⟨p₀, cur, []⟩ es₀ s₀) (htimer : IrqStep s₀ (.deliver 0 handlers r) s)
    (hhandler : handlers (irqVector 0) ≠ 0) (hrun : Run IrqStep s es s') (hes : Unended es) :
    es.filterMap IrqEvent.delivered = [] := by
  obtain ⟨hs₀, -, -⟩ := lines_of_run (serving_of_remap hremap) hrun₀
  obtain ⟨hs, hfirst, -⟩ := lines_of_step hs₀ htimer
  have hfirst' : masterEvents (.deliver 0 handlers r) = [.acknowledge 0] := by
    rw [masterEvents, if_pos hhandler]
    rfl
  rw [hfirst'] at hfirst
  have hservice : 0 ∈ s.pics.master.lines.inService :=
    ((acknowledged_of_run hfirst (by simp)).2.2 0).mpr (Or.inr (List.mem_singleton_self 0))
  exact held_of_run hs hservice hrun hes

/-- A key that is pressed behind the switch of the timer is not seen. -/
theorem timer_holds_back_keyboard : ∃ pics : Pics, ∀ r s',
    ¬ Run IrqStep ⟨pics, 2, [(1, [.outb 0x20 0x20])]⟩
      [.request 1, .deliver 1 (fun _ => 0) r] s' := by
  refine ⟨((picsOn.request 0).acknowledge.get rfl).2, fun r s' hrun => ?_⟩
  have hrequest : IrqStep ⟨picsOn, 1, []⟩ (.request 0) ⟨picsOn.request 0, 1, []⟩ :=
    ⟨by decide, rfl⟩
  have htimer : IrqStep ⟨picsOn.request 0, 1, []⟩
      (.deliver 0 (fun _ => 0x7000) (frameOf ContextResumption.bootState.m 32 0))
      ⟨((picsOn.request 0).acknowledge.get rfl).2, 1, [(1, [.outb 0x20 0x20])]⟩ :=
    ⟨rfl, _, rfl, rfl⟩
  have hswitch : IrqStep
      ⟨((picsOn.request 0).acknowledge.get rfl).2, 1, [(1, [.outb 0x20 0x20])]⟩ (.switch 2)
      ⟨((picsOn.request 0).acknowledge.get rfl).2, 2, [(1, [.outb 0x20 0x20])]⟩ := rfl
  have hnone := timer_holds_back remap_picsOff (.single hrequest) htimer (by decide)
    (.cons hswitch hrun) fun e he => by
      simp only [List.mem_cons, List.not_mem_nil, or_false] at he
      rcases he with rfl | rfl | rfl <;> exact ⟨nofun, nofun⟩
  exact absurd hnone (List.cons_ne_nil _ _)

end Delivery

end Longhorn.InterruptControllers
