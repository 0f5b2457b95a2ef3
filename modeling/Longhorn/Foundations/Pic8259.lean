import Mathlib.Data.Finset.Card
import Mathlib.Data.Finset.Max
import Mathlib.Data.Fintype.Basic
import Longhorn.Foundations.TransitionRuns

/-!
Interrupt controllers of the 8259A kind: request lines with fixed priorities, the words that
program a controller, and two controllers one of which is served through a line of the other.

A request stays until it is acknowledged.  The interrupts of line 7 that a controller delivers
when a request has gone away before it is acknowledged are not described here.
-/

namespace Longhorn.Foundations.Pic8259

open Longhorn.Foundations.TransitionRuns

universe u

/-- The lines of a controller.  The smaller line has the higher priority. -/
structure Lines (α : Type u) where
  requests : Finset α
  inService : Finset α
  masked : Finset α

namespace Lines

variable {α : Type u} [LinearOrder α]

/-- The requests that are neither masked nor held back by a line in service. -/
def ready (l : Lines α) : Finset α :=
  (l.requests \ l.masked).filter fun a => ∀ b ∈ l.inService, a < b

def pending (l : Lines α) : Option α := l.ready.min

def raise (a : α) (l : Lines α) : Lines α := { l with requests := insert a l.requests }

/-- The processor acknowledges the request of a line. -/
def acknowledge (a : α) (l : Lines α) : Lines α :=
  { l with requests := l.requests.erase a, inService := insert a l.inService }

/-- The end of the interrupt with the highest priority. -/
def endOfInterrupt (l : Lines α) : Lines α :=
  { l with inService := l.inService.filter fun a => ∃ b ∈ l.inService, b < a }

variable {l : Lines α} {a b : α}

theorem mem_ready : a ∈ l.ready ↔
    a ∈ l.requests ∧ a ∉ l.masked ∧ ∀ b ∈ l.inService, a < b := by
  rw [ready, Finset.mem_filter, Finset.mem_sdiff, and_assoc]

theorem mem_ready_of_pending (h : l.pending = some a) : a ∈ l.ready :=
  Finset.mem_of_min h

theorem le_of_pending (h : l.pending = some a) (hb : b ∈ l.ready) : a ≤ b :=
  Finset.min_le_of_eq hb h

theorem pending_isSome : l.pending.isSome ↔ l.ready.Nonempty := by
  constructor
  · intro h
    obtain ⟨a, ha⟩ := Option.isSome_iff_exists.mp h
    exact ⟨a, mem_ready_of_pending ha⟩
  · intro h
    obtain ⟨a, ha⟩ := Finset.min_of_nonempty h
    exact Option.isSome_iff_exists.mpr ⟨a, ha⟩

theorem mem_endOfInterrupt :
    a ∈ l.endOfInterrupt.inService ↔ a ∈ l.inService ∧ ∃ b ∈ l.inService, b < a :=
  Finset.mem_filter

theorem card_acknowledge (h : l.pending = some a) :
    (l.acknowledge a).inService.card = l.inService.card + 1 := by
  have hready := mem_ready.mp (mem_ready_of_pending h)
  exact Finset.card_insert_of_notMem fun hin => lt_irrefl a (hready.2.2 a hin)

theorem card_endOfInterrupt : l.endOfInterrupt.inService.card = l.inService.card - 1 := by
  rcases l.inService.eq_empty_or_nonempty with hempty | hsome
  · rw [endOfInterrupt, hempty]
    rfl
  · have herase : l.endOfInterrupt.inService = l.inService.erase (l.inService.min' hsome) := by
      ext a
      rw [mem_endOfInterrupt, Finset.mem_erase, and_comm]
      refine and_congr_left fun ha => ⟨?_, fun hne => ?_⟩
      · rintro ⟨b, hb, hlt⟩ rfl
        exact absurd (Finset.min'_le _ b hb) (not_le.mpr hlt)
      · exact ⟨_, Finset.min'_mem _ hsome, lt_of_le_of_ne (Finset.min'_le _ a ha) (Ne.symm hne)⟩
    rw [herase, Finset.card_erase_of_mem (Finset.min'_mem _ hsome)]

end Lines

inductive LineEvent (α : Type u) where
  | raise (a : α)
  | acknowledge (a : α)
  | endOfInterrupt

section Runs

variable {α : Type u} [LinearOrder α] {l l' : Lines α} {es : List (LineEvent α)}

def LineStep (l : Lines α) (e : LineEvent α) (l' : Lines α) : Prop :=
  match e with
  | .raise a => l' = l.raise a
  | .acknowledge a => l.pending = some a ∧ l' = l.acknowledge a
  | .endOfInterrupt => l' = l.endOfInterrupt

def LineEvent.acknowledged : LineEvent α → Option α
  | .acknowledge a => some a
  | _ => none

def LineEvent.count : LineEvent α → Nat → Nat
  | .raise _, n => n
  | .acknowledge _, n => n + 1
  | .endOfInterrupt, n => n - 1

theorem card_of_run (hrun : Run LineStep l es l') :
    l'.inService.card = es.foldl (fun n e => e.count n) l.inService.card := by
  induction hrun with
  | nil l => rfl
  | @cons l l₁ l' e es hstep _ ih =>
      have hfirst : l₁.inService.card = e.count l.inService.card := by
        cases e with
        | raise a =>
            obtain rfl : l₁ = l.raise a := hstep
            rfl
        | acknowledge a =>
            obtain ⟨hpending, rfl⟩ : l.pending = some a ∧ l₁ = l.acknowledge a := hstep
            exact Lines.card_acknowledge hpending
        | endOfInterrupt =>
            obtain rfl : l₁ = l.endOfInterrupt := hstep
            exact Lines.card_endOfInterrupt
      rw [ih, List.foldl_cons, hfirst]

/-- As long as no interrupt ends, every line that is acknowledged has a higher priority than all
lines before. -/
theorem acknowledged_of_run (hrun : Run LineStep l es l') (hend : .endOfInterrupt ∉ es) :
    (es.filterMap LineEvent.acknowledged).Pairwise (· > ·) ∧
      (∀ a ∈ es.filterMap LineEvent.acknowledged, ∀ b ∈ l.inService, a < b) ∧
      ∀ a, a ∈ l'.inService ↔ a ∈ l.inService ∨ a ∈ es.filterMap LineEvent.acknowledged := by
  induction hrun with
  | nil l => exact ⟨.nil, fun a ha => absurd ha List.not_mem_nil, fun a => by simp⟩
  | @cons l l₁ l' e es hstep _ ih =>
      obtain ⟨hsorted, hbelow, hservice⟩ := ih fun hin => hend (List.mem_cons_of_mem e hin)
      cases e with
      | raise a =>
          obtain rfl : l₁ = l.raise a := hstep
          exact ⟨hsorted, hbelow, hservice⟩
      | endOfInterrupt => exact absurd List.mem_cons_self hend
      | acknowledge a =>
          obtain ⟨hpending, rfl⟩ : l.pending = some a ∧ l₁ = l.acknowledge a := hstep
          have hfirst := (Lines.mem_ready.mp (Lines.mem_ready_of_pending hpending)).2.2
          have hcons : (LineEvent.acknowledge a :: es).filterMap LineEvent.acknowledged =
              a :: es.filterMap LineEvent.acknowledged := List.filterMap_cons_some rfl
          have hinsert : ∀ b, b ∈ (l.acknowledge a).inService ↔ b = a ∨ b ∈ l.inService :=
            fun b => Finset.mem_insert
          rw [hcons]
          refine ⟨List.pairwise_cons.mpr ⟨fun b hb => ?_, hsorted⟩, fun b hb c hc => ?_,
            fun b => ?_⟩
          · exact hbelow b hb a ((hinsert a).mpr (Or.inl rfl))
          · rcases List.mem_cons.mp hb with rfl | hb
            · exact hfirst c hc
            · exact hbelow b hb c ((hinsert c).mpr (Or.inr hc))
          · rw [hservice, hinsert, List.mem_cons, or_assoc, or_left_comm]

end Runs

/-- What the next write to the data port of a controller is. -/
inductive Expects where
  | icw2 (cascaded needs4 : Bool)
  | icw3 (needs4 : Bool)
  | icw4
  | mask
  deriving DecidableEq

/-- A controller with eight lines.  The words that describe it are those of its set-up. -/
structure Pic where
  lines : Lines (Fin 8)
  base : BitVec 8
  cascade : BitVec 8
  mode : BitVec 8
  expects : Expects

namespace Pic

/-- The vector of a line. -/
def vector (p : Pic) (a : Fin 8) : BitVec 8 := p.base + BitVec.ofNat 8 a

/-- A write to the command port; `none` for commands that are not described here.  The first
word of a set-up takes back all requests and masks. -/
def writeCommand (p : Pic) (data : BitVec 8) : Option Pic :=
  if data.getLsbD 4 ∧ !data.getLsbD 3 then
    some { p with
      lines := { p.lines with requests := ∅, masked := ∅ }
      mode := if data.getLsbD 0 then p.mode else 0
      expects := .icw2 (!data.getLsbD 1) (data.getLsbD 0) }
  else if data = 0x20 then some { p with lines := p.lines.endOfInterrupt }
  else none

def writeData (p : Pic) (data : BitVec 8) : Option Pic :=
  match p.expects with
  | .icw2 cascaded needs4 =>
      some { p with
        base := data &&& 0xF8
        expects := if cascaded then .icw3 needs4 else if needs4 then .icw4 else .mask }
  | .icw3 needs4 =>
      some { p with cascade := data, expects := if needs4 then .icw4 else .mask }
  | .icw4 =>
      if data &&& 0xFE = 0 then some { p with mode := data, expects := .mask } else none
  | .mask => some { p with lines.masked := Finset.univ.filter fun a => data.getLsbD a }

end Pic

/-- The two controllers of a PC. -/
structure Pics where
  master : Pic
  slave : Pic

/-- The line of the master that the slave is connected to. -/
def cascadeLine : Fin 8 := 2

namespace Pics

/-- A write to a port; the ports of other devices change nothing here. -/
def outb (p : Pics) (port : BitVec 16) (data : BitVec 8) : Option Pics :=
  if port = 0x20 then (p.master.writeCommand data).map fun m => { p with master := m }
  else if port = 0x21 then (p.master.writeData data).map fun m => { p with master := m }
  else if port = 0xA0 then (p.slave.writeCommand data).map fun m => { p with slave := m }
  else if port = 0xA1 then (p.slave.writeData data).map fun m => { p with slave := m }
  else some p

def writes (p : Pics) (ws : List (BitVec 16 × BitVec 8)) : Option Pics :=
  ws.foldlM (fun p w => p.outb w.1 w.2) p

def request (p : Pics) (line : Fin 16) : Pics :=
  if h : line.val < 8 then { p with master.lines := p.master.lines.raise ⟨line, h⟩ }
  else { p with slave.lines := p.slave.lines.raise ⟨line - 8, by omega⟩ }

/-- The lines of the master, with the one that the slave drives. -/
def asserted (p : Pics) : Lines (Fin 8) :=
  if p.slave.lines.pending.isSome then p.master.lines.raise cascadeLine else p.master.lines

/-- The processor takes an interrupt and reads its vector. -/
def acknowledge (p : Pics) : Option (BitVec 8 × Pics) :=
  match p.asserted.pending with
  | none => none
  | some a =>
      if p.master.cascade.getLsbD a ∧ p.slave.cascade = BitVec.ofNat 8 a then
        p.slave.lines.pending.map fun b =>
          (p.slave.vector b, ⟨{ p.master with lines := p.master.lines.acknowledge a },
            { p.slave with lines := p.slave.lines.acknowledge b }⟩)
      else
        some (p.master.vector a,
          { p with master.lines := p.master.lines.acknowledge a })

end Pics

section Cascade

variable {p p' : Pics} {v : BitVec 8} {a : Fin 8}

theorem Pics.mem_ready_asserted : a ∈ p.asserted.ready ↔ a ∈ p.master.lines.ready ∨
    (a = cascadeLine ∧ p.slave.lines.pending.isSome ∧ a ∉ p.master.lines.masked ∧
      ∀ b ∈ p.master.lines.inService, a < b) := by
  rw [Lines.mem_ready, Lines.mem_ready, asserted]
  split
  · next hsome =>
      simp only [Lines.raise, Finset.mem_insert, hsome, true_and]
      tauto
  · next hnone => simp only [hnone, Bool.false_eq_true, false_and, and_false, or_false]

/-- A line of the master other than that of the slave. -/
theorem Pics.pending_of_asserted (ha : p.asserted.pending = some a) (hne : a ≠ cascadeLine) :
    p.master.lines.pending = some a := by
  have hready : a ∈ p.master.lines.ready :=
    (mem_ready_asserted.mp (Lines.mem_ready_of_pending ha)).resolve_right fun h => hne h.1
  obtain ⟨b, hb⟩ := Option.isSome_iff_exists.mp (Lines.pending_isSome.mpr ⟨a, hready⟩)
  have hle := Lines.le_of_pending hb hready
  have hge := Lines.le_of_pending ha
    (mem_ready_asserted.mpr (Or.inl (Lines.mem_ready_of_pending hb)))
  rw [hb, le_antisymm hle hge]

/-- The controllers know how they are connected. -/
structure Cascaded (p : Pics) : Prop where
  master : p.master.cascade = 0x04
  slave : p.slave.cascade = 0x02

theorem getLsbD_cascade : ∀ a : Fin 8, (0x04 : BitVec 8).getLsbD a = decide (a = cascadeLine) := by
  decide

theorem Cascaded.acknowledge_cases (hc : Cascaded p) (h : p.acknowledge = some (v, p')) :
    (∃ a, a ≠ cascadeLine ∧ p.master.lines.pending = some a ∧ v = p.master.vector a ∧
        p' = { p with master.lines := p.master.lines.acknowledge a }) ∨
      ∃ b, p.asserted.pending = some cascadeLine ∧ p.slave.lines.pending = some b ∧
        v = p.slave.vector b ∧
        p' = ⟨{ p.master with lines := p.master.lines.acknowledge cascadeLine },
          { p.slave with lines := p.slave.lines.acknowledge b }⟩ := by
  rw [Pics.acknowledge] at h
  split at h
  · cases h
  · next a ha =>
      rw [hc.master, hc.slave, getLsbD_cascade] at h
      by_cases hcascade : a = cascadeLine
      · subst hcascade
        rw [if_pos ⟨decide_eq_true rfl, rfl⟩] at h
        obtain ⟨b, hb, heq⟩ := Option.map_eq_some_iff.mp h
        obtain ⟨rfl, rfl⟩ := Prod.mk.inj heq
        exact Or.inr ⟨b, ha, hb, rfl, rfl⟩
      · rw [if_neg fun hboth => hcascade (of_decide_eq_true hboth.1)] at h
        obtain ⟨rfl, rfl⟩ := Prod.mk.inj (Option.some.inj h)
        exact Or.inl ⟨a, hcascade, Pics.pending_of_asserted ha hcascade, rfl, rfl⟩

theorem Cascaded.acknowledge_isSome (hc : Cascaded p) (hready : p.asserted.ready.Nonempty)
    (hline : cascadeLine ∉ p.master.lines.requests) : p.acknowledge.isSome := by
  obtain ⟨a, ha⟩ := Option.isSome_iff_exists.mp (Lines.pending_isSome.mpr hready)
  rw [Pics.acknowledge, ha]
  simp only [hc.master, hc.slave, getLsbD_cascade]
  split
  · next hboth =>
      obtain rfl : a = cascadeLine := of_decide_eq_true hboth.1
      rw [Option.isSome_map]
      rcases Pics.mem_ready_asserted.mp (Lines.mem_ready_of_pending ha) with hin | hslave
      · exact absurd (Lines.mem_ready.mp hin).1 hline
      · exact hslave.2.1
  · rfl

theorem Lines.acknowledge_raise {α : Type u} [LinearOrder α] (l : Lines α) (a : α) :
    (l.raise a).acknowledge a = l.acknowledge a := by
  simp only [raise, acknowledge, Finset.erase_insert_eq_erase]

end Cascade

end Longhorn.Foundations.Pic8259
