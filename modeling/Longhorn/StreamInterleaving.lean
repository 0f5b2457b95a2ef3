import Longhorn.Foundations.TransitionRuns
import Longhorn.StreamModel

/-!
One thread that runs `put_std` and one that runs `get_std` on the same stream.
-/

namespace Longhorn.StreamInterleaving

open Longhorn.Foundations.RingWindow
open Longhorn.Foundations.TransitionRuns
open Longhorn.StreamModel

/-- Where the producer is in `put_std`.  Both positions are read for the test, in
either order. -/
inductive PutPc where
  | idle
  | test (c : Int8) (inRead outRead : Option Nat)
  | store (c : Int8)
  | storeAt (c : Int8) (i : Nat)
  | next (c : Int8)
  | publish (c : Int8) (i : Nat)

/-- Where the consumer is in `get_std`. -/
inductive GetPc where
  | idle
  | test (inRead outRead : Option Nat)
  | load
  | loadAt (o : Nat)
  | next (old : Int8)
  | advance (old : Int8) (o : Nat)

structure SpscState where
  stream : Stream
  producer : PutPc
  consumer : GetPc

/-- The return of a call, or a step inside of one. -/
inductive SpscLabel where
  | accept (c : Int8)
  | reject (c : Int8)
  | deliver (c : Int8)
  | empty
  | inside

/-- The test of `put_std` for a full queue. -/
def queueFull (i o : Nat) : Bool := i = add32 (sub32 o 1) stdStreamSize % stdStreamSize

inductive PutStep : Stream → PutPc → SpscLabel → Stream → PutPc → Prop
  | call (s : Stream) (c : Int8) : PutStep s .idle .inside s (.test c none none)
  | readIn (s : Stream) (c : Int8) (o : Option Nat) :
      PutStep s (.test c none o) .inside s (.test c (some s.inPos) o)
  | readOut (s : Stream) (c : Int8) (i : Option Nat) :
      PutStep s (.test c i none) .inside s (.test c i (some s.outPos))
  | full (s : Stream) (c : Int8) (i o : Nat) (h : queueFull i o = true) :
      PutStep s (.test c (some i) (some o)) (.reject c) s .idle
  | room (s : Stream) (c : Int8) (i o : Nat) (h : queueFull i o = false) :
      PutStep s (.test c (some i) (some o)) .inside s (.store c)
  | readStore (s : Stream) (c : Int8) : PutStep s (.store c) .inside s (.storeAt c s.inPos)
  | write (s : Stream) (c : Int8) (i : Nat) :
      PutStep s (.storeAt c i) .inside { s with cells := Function.update s.cells i c } (.next c)
  | readNext (s : Stream) (c : Int8) : PutStep s (.next c) .inside s (.publish c s.inPos)
  | writeIn (s : Stream) (c : Int8) (i : Nat) :
      PutStep s (.publish c i) (.accept c) { s with inPos := add32 i 1 % stdStreamSize } .idle

inductive GetStep : Stream → GetPc → SpscLabel → Stream → GetPc → Prop
  | call (s : Stream) : GetStep s .idle .inside s (.test none none)
  | readIn (s : Stream) (o : Option Nat) :
      GetStep s (.test none o) .inside s (.test (some s.inPos) o)
  | readOut (s : Stream) (i : Option Nat) :
      GetStep s (.test i none) .inside s (.test i (some s.outPos))
  | empty (s : Stream) (i o : Nat) (h : i = o) : GetStep s (.test (some i) (some o)) .empty s .idle
  | filled (s : Stream) (i o : Nat) (h : i ≠ o) :
      GetStep s (.test (some i) (some o)) .inside s .load
  | readLoad (s : Stream) : GetStep s .load .inside s (.loadAt s.outPos)
  | read (s : Stream) (o : Nat) : GetStep s (.loadAt o) .inside s (.next (s.cells o))
  | readNext (s : Stream) (old : Int8) : GetStep s (.next old) .inside s (.advance old s.outPos)
  | writeOut (s : Stream) (old : Int8) (o : Nat) :
      GetStep s (.advance old o) (.deliver old) { s with outPos := add32 o 1 % stdStreamSize }
        .idle

inductive SpscStep : SpscState → SpscLabel → SpscState → Prop
  | put {s s' : Stream} {p p' : PutPc} {g : GetPc} {l : SpscLabel} (h : PutStep s p l s' p') :
      SpscStep ⟨s, p, g⟩ l ⟨s', p', g⟩
  | get {s s' : Stream} {p : PutPc} {g g' : GetPc} {l : SpscLabel} (h : GetStep s g l s' g') :
      SpscStep ⟨s, p, g⟩ l ⟨s', p, g'⟩

def accepted (ls : List SpscLabel) : List Int8 :=
  ls.filterMap fun
    | .accept c => some c
    | _ => none

def delivered (ls : List SpscLabel) : List Int8 :=
  ls.filterMap fun
    | .deliver c => some c
    | _ => none

/-- What the producer knows: `out` may have moved on since it was read, so that there
is at least the room it has seen. -/
def PutOk (s : Stream) (q : List Int8) : PutPc → Prop
  | .idle => True
  | .test _ i o =>
      (∀ x, i = some x → x = s.inPos) ∧
        ∀ y, o = some y → y < stdStreamSize ∧ q.length ≤ fill stdStreamSize s.inPos y
  | .store _ => q.length + 1 < stdStreamSize
  | .storeAt _ i => i = s.inPos ∧ q.length + 1 < stdStreamSize
  | .next c => s.cells s.inPos = c ∧ q.length + 1 < stdStreamSize
  | .publish c i => i = s.inPos ∧ s.cells s.inPos = c ∧ q.length + 1 < stdStreamSize

/-- What the consumer knows: `in` may have moved on since it was read. -/
def GetOk (s : Stream) (q : List Int8) : GetPc → Prop
  | .idle => True
  | .test i o =>
      (∀ x, i = some x → x < stdStreamSize ∧ fill stdStreamSize x s.outPos ≤ q.length) ∧
        ∀ y, o = some y → y = s.outPos
  | .load => ∃ c rest, q = c :: rest
  | .loadAt o => o = s.outPos ∧ ∃ c rest, q = c :: rest
  | .next old => ∃ rest, q = old :: rest
  | .advance old o => o = s.outPos ∧ ∃ rest, q = old :: rest

structure SpscInv (ls : List SpscLabel) (t : SpscState) (q : List Int8) : Prop where
  holds : Holds stdStreamSize t.stream q
  put : PutOk t.stream q t.producer
  get : GetOk t.stream q t.consumer
  history : accepted ls = delivered ls ++ q
section Steps

variable {s s' : Stream} {q rest : List Int8} {p p' : PutPc} {g g' : GetPc} {l : SpscLabel}
  {ls : List SpscLabel} {c : Int8} {i o : Nat}

theorem accepted_append (ls : List SpscLabel) (l : SpscLabel) :
    accepted (ls ++ [l]) = accepted ls ++ accepted [l] :=
  List.filterMap_append

theorem delivered_append (ls : List SpscLabel) (l : SpscLabel) :
    delivered (ls ++ [l]) = delivered ls ++ delivered [l] :=
  List.filterMap_append

theorem room_of_not_full (hi : i < stdStreamSize) (ho : o < stdStreamSize)
    (h : queueFull i o = false) : fill stdStreamSize i o + 1 < stdStreamSize := by
  have hlt := fill_lt hi ho
  have hne : fill stdStreamSize i o + 1 ≠ stdStreamSize := by
    rw [ne_eq, ← fill_full hi ho, ← add32_sub32_mod (by decide) ho]
    exact of_decide_eq_false h
  omega

theorem cons_of_ne (ho : o < stdStreamSize) (hne : i ≠ o)
    (hfill : fill stdStreamSize i o ≤ q.length) : ∃ c rest, q = c :: rest := by
  cases q with
  | nil => exact absurd ((fill_eq_zero ho).mp (Nat.le_zero.mp hfill)) hne
  | cons c rest => exact ⟨c, rest, rfl⟩

theorem GetOk.of_outPos (h : GetOk s q g) (hout : s'.outPos = s.outPos) : GetOk s' q g := by
  cases g <;> simp only [GetOk, hout] at h ⊢ <;> exact h

theorem GetOk.append (h : GetOk s q g) (c : Int8) : GetOk s (q ++ [c]) g := by
  cases g with
  | idle => trivial
  | test i o =>
      refine ⟨fun x hx => ?_, h.2⟩
      obtain ⟨hlt, hfill⟩ := h.1 x hx
      exact ⟨hlt, hfill.trans (by simp)⟩
  | load =>
      obtain ⟨d, rest, rfl⟩ := h
      exact ⟨d, rest ++ [c], rfl⟩
  | loadAt o =>
      obtain ⟨ho, d, rest, rfl⟩ := h
      exact ⟨ho, d, rest ++ [c], rfl⟩
  | next old =>
      obtain ⟨rest, rfl⟩ := h
      exact ⟨rest ++ [c], rfl⟩
  | advance old o =>
      obtain ⟨ho, rest, rfl⟩ := h
      exact ⟨ho, rest ++ [c], rfl⟩

/-- Taking a character out leaves the producer at least the room it has seen. -/
theorem PutOk.tail (h : PutOk s (c :: rest) p) (o : Nat) :
    PutOk { s with outPos := o } rest p := by
  have hlen : rest.length ≤ (c :: rest).length := by simp
  cases p with
  | idle => trivial
  | test d i o' =>
      refine ⟨h.1, fun y hy => ?_⟩
      obtain ⟨hlt, hfill⟩ := h.2 y hy
      exact ⟨hlt, hlen.trans hfill⟩
  | store d => exact lt_of_le_of_lt (Nat.add_le_add_right hlen 1) h
  | storeAt d i => exact ⟨h.1, lt_of_le_of_lt (Nat.add_le_add_right hlen 1) h.2⟩
  | next d => exact ⟨h.1, lt_of_le_of_lt (Nat.add_le_add_right hlen 1) h.2⟩
  | publish d i =>
      exact ⟨h.1, h.2.1, lt_of_le_of_lt (Nat.add_le_add_right hlen 1) h.2.2⟩

/-- A step of the producer that moves neither position keeps the queue. -/
theorem SpscInv.put_inside (h : SpscInv ls ⟨s, p, g⟩ q) (hs : Holds stdStreamSize s' q)
    (hout : s'.outPos = s.outPos) (hp : PutOk s' q p') (hacc : accepted [l] = [])
    (hdel : delivered [l] = []) : SpscInv (ls ++ [l]) ⟨s', p', g⟩ q := by
  refine ⟨hs, hp, h.get.of_outPos hout, ?_⟩
  rw [accepted_append, delivered_append, hacc, hdel, List.append_nil, List.append_nil]
  exact h.history

theorem SpscInv.get_inside (h : SpscInv ls ⟨s, p, g⟩ q) (hg : GetOk s q g')
    (hacc : accepted [l] = []) (hdel : delivered [l] = []) :
    SpscInv (ls ++ [l]) ⟨s, p, g'⟩ q := by
  refine ⟨h.holds, h.put, hg, ?_⟩
  rw [accepted_append, delivered_append, hacc, hdel, List.append_nil, List.append_nil]
  exact h.history

theorem SpscInv.put_step (h : SpscInv ls ⟨s, p, g⟩ q) (hstep : PutStep s p l s' p') :
    ∃ q', SpscInv (ls ++ [l]) ⟨s', p', g⟩ q' := by
  have hs : Holds stdStreamSize s q := h.holds
  have hp : PutOk s q p := h.put
  cases hstep with
  | call c => exact ⟨q, h.put_inside hs rfl ⟨nofun, nofun⟩ rfl rfl⟩
  | readIn c o =>
      refine ⟨q, h.put_inside hs rfl ⟨?_, hp.2⟩ rfl rfl⟩
      rintro x ⟨⟩
      rfl
  | readOut c i =>
      refine ⟨q, h.put_inside hs rfl ⟨hp.1, ?_⟩ rfl rfl⟩
      rintro y ⟨⟩
      exact ⟨hs.outPos_lt, hs.length.le⟩
  | full c i o hfull => exact ⟨q, h.put_inside hs rfl trivial rfl rfl⟩
  | room c i o hroom =>
      obtain ⟨ho, hfill⟩ := hp.2 o rfl
      have hi := hp.1 i rfl
      subst hi
      refine ⟨q, h.put_inside hs rfl ?_ rfl rfl⟩
      exact lt_of_le_of_lt (Nat.add_le_add_right hfill 1) (room_of_not_full hs.inPos_lt ho hroom)
  | readStore c => exact ⟨q, h.put_inside hs rfl ⟨rfl, hp⟩ rfl rfl⟩
  | write c i =>
      obtain ⟨rfl, hroom⟩ := hp
      refine ⟨q, h.put_inside (hs.write c) rfl ⟨?_, hroom⟩ rfl rfl⟩
      exact Function.update_self _ _ _
  | readNext c => exact ⟨q, h.put_inside hs rfl ⟨rfl, hp⟩ rfl rfl⟩
  | writeIn c i =>
      obtain ⟨rfl, hc, hroom⟩ := hp
      refine ⟨q ++ [c], hs.publish (by decide) hroom hc, trivial,
        (h.get.append c).of_outPos rfl, ?_⟩
      rw [accepted_append, delivered_append, h.history]
      simp [accepted, delivered]

/-- What a step of the consumer can do: it leaves the stream alone, or it takes the oldest
character out. -/
theorem GetStep.cases (hs : Holds stdStreamSize s q) (hg : GetOk s q g)
    (hstep : GetStep s g l s' g') :
    (s' = s ∧ GetOk s q g' ∧ (l = .inside ∨ l = .empty)) ∨
      ∃ c rest, q = c :: rest ∧ l = .deliver c ∧ g' = .idle ∧ Holds stdStreamSize s' rest ∧
        s' = { s with outPos := s'.outPos } := by
  cases hstep with
  | call => exact Or.inl ⟨rfl, ⟨nofun, nofun⟩, Or.inl rfl⟩
  | readIn o =>
      refine Or.inl ⟨rfl, ⟨?_, hg.2⟩, Or.inl rfl⟩
      rintro x ⟨⟩
      exact ⟨hs.inPos_lt, hs.length.ge⟩
  | readOut i =>
      refine Or.inl ⟨rfl, ⟨hg.1, ?_⟩, Or.inl rfl⟩
      rintro y ⟨⟩
      rfl
  | empty i o heq => exact Or.inl ⟨rfl, trivial, Or.inr rfl⟩
  | filled i o hne =>
      obtain ⟨_, hfill⟩ := hg.1 i rfl
      have ho := hg.2 o rfl
      subst ho
      exact Or.inl ⟨rfl, cons_of_ne hs.outPos_lt hne hfill, Or.inl rfl⟩
  | readLoad => exact Or.inl ⟨rfl, ⟨rfl, hg⟩, Or.inl rfl⟩
  | read o =>
      obtain ⟨rfl, c, rest, rfl⟩ := hg
      obtain ⟨hc, _⟩ := hs.advance (by decide)
      rw [hc]
      exact Or.inl ⟨rfl, ⟨rest, rfl⟩, Or.inl rfl⟩
  | readNext old => exact Or.inl ⟨rfl, ⟨rfl, hg⟩, Or.inl rfl⟩
  | writeOut old o =>
      obtain ⟨rfl, rest, rfl⟩ := hg
      obtain ⟨_, hrest⟩ := hs.advance (by decide)
      exact Or.inr ⟨old, rest, rfl, rfl, rfl, hrest, rfl⟩

theorem SpscInv.get_step (h : SpscInv ls ⟨s, p, g⟩ q) (hstep : GetStep s g l s' g') :
    ∃ q', SpscInv (ls ++ [l]) ⟨s', p, g'⟩ q' := by
  obtain ⟨rfl, hg', hl⟩ | ⟨c, rest, rfl, rfl, rfl, hrest, hout⟩ := hstep.cases h.holds h.get
  · refine ⟨q, h.get_inside hg' ?_ ?_⟩ <;> rcases hl with rfl | rfl <;> rfl
  · rw [hout]
    refine ⟨rest, hout ▸ hrest, h.put.tail _, trivial, ?_⟩
    rw [accepted_append, delivered_append, h.history]
    simp [accepted, delivered]

theorem SpscInv.step {t t' : SpscState} (h : SpscInv ls t q) (hstep : SpscStep t l t') :
    ∃ q', SpscInv (ls ++ [l]) t' q' := by
  cases hstep with
  | put hput => exact h.put_step hput
  | get hget => exact h.get_step hget

end Steps

/-- What the consumer has got is a prefix of what the producer has put in, and the
rest is in the stream. -/
theorem stream_delivers_prefix {s : Stream} {ls : List SpscLabel} {t : SpscState}
    (h : Run SpscStep ⟨initStd s, .idle, .idle⟩ ls t) :
    delivered ls <+: accepted ls ∧
      ∃ q, Holds stdStreamSize t.stream q ∧ accepted ls = delivered ls ++ q := by
  have hinit : SpscInv [] ⟨initStd s, .idle, .idle⟩ [] :=
    ⟨Holds.of_zero rfl (by decide) rfl rfl, trivial, trivial, rfl⟩
  obtain ⟨q, hq⟩ := h.trace_invariant (fun ls t => ∃ q, SpscInv ls t q)
    (fun _ _ _ _ ⟨_, hq⟩ hstep => hq.step hstep) ⟨[], hinit⟩
  rw [List.nil_append] at hq
  exact ⟨⟨q, hq.history.symm⟩, q, hq.holds, hq.history⟩

section Undisturbed

variable {s : Stream} {p : PutPc} {g : GetPc}

/-- What `put_std` does while the other thread does nothing. -/
theorem run_putStd (c : Int8) (hroom : queueFull s.inPos s.outPos = false) :
    Run SpscStep ⟨s, .idle, g⟩ (List.replicate 7 .inside ++ [.accept c])
      ⟨(putStd s c).1, .idle, g⟩ := by
  rw [putStd, put, if_neg (of_decide_eq_false hroom)]
  exact .cons (.put (.call _ _)) <| .cons (.put (.readIn _ _ _)) <|
    .cons (.put (.readOut _ _ _)) <| .cons (.put (.room _ _ _ _ hroom)) <|
    .cons (.put (.readStore _ _)) <| .cons (.put (.write _ _ _)) <|
    .cons (.put (.readNext _ _)) <| .single (.put (.writeIn _ _ _))

theorem run_getStd (hfilled : s.inPos ≠ s.outPos) :
    Run SpscStep ⟨s, p, .idle⟩ (List.replicate 7 .inside ++ [.deliver (getStd s).2])
      ⟨(getStd s).1, p, .idle⟩ := by
  rw [getStd, StreamModel.get, if_neg hfilled]
  exact .cons (.get (.call _)) <| .cons (.get (.readIn _ _)) <| .cons (.get (.readOut _ _)) <|
    .cons (.get (.filled _ _ _ hfilled)) <| .cons (.get (.readLoad _)) <|
    .cons (.get (.read _ _)) <| .cons (.get (.readNext _ _)) <| .single (.get (.writeOut _ _ _))

end Undisturbed

/-- The second character is put in while the first is being taken out, and a third stays. -/
theorem stream_delivers_prefix_three :
    ∃ (ls : List SpscLabel) (t : SpscState),
      Run SpscStep ⟨initStd ⟨fun _ => 0, 0, 0, 0⟩, .idle, .idle⟩ ls t ∧
      (delivered ls <+: accepted ls ∧
        ∃ q, Holds stdStreamSize t.stream q ∧ accepted ls = delivered ls ++ q) ∧
      accepted ls = [97, 98, 99] ∧ delivered ls = [97, 98] := by
  have hput : Run SpscStep ⟨initStd ⟨fun _ => 0, 0, 0, 0⟩, .idle, .idle⟩ _ _ :=
    run_putStd 97 rfl
  have hget := hput.append <| .cons (.get (.call _)) <| .single (.get (.readIn _ _))
  have hbetween := hget.append (run_putStd 98 rfl)
  have hgot := hbetween.append <| .cons (.get (.readOut _ _)) <|
    .cons (.get (.filled _ _ _ (by decide))) <| .cons (.get (.readLoad _)) <|
    .cons (.get (.read _ _)) <| .cons (.get (.readNext _ _)) <| .single (.get (.writeOut _ _ _))
  have hrun := (hgot.append (run_putStd 99 rfl)).append (run_getStd (by decide))
  exact ⟨_, _, hrun, stream_delivers_prefix hrun, rfl, rfl⟩

end Longhorn.StreamInterleaving
