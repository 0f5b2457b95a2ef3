import Longhorn.ShellModel

/-!
Command lines typed in turn are dispatched once each and in order.
-/

namespace Longhorn.ShellLines

open Longhorn.Foundations.RingWindow
open Longhorn.Foundations.TransitionRuns
open Longhorn.StreamModel
open Longhorn.StreamInterleaving
open Longhorn.LineModel
open Longhorn.LineSafety
open Longhorn.LineEditing
open Longhorn.ShellParsing
open Longhorn.ShellModel

/-- The arguments that a typed line gives. -/
def lineArgs (line : List Int8) : List (List Int8) := (words line).take maxNumArgs

/-- The queue ends with its only newline. -/
def NewlineLast (q : List Int8) : Prop := ∃ pre, q = pre ++ [10] ∧ 10 ∉ pre

/-- A line is being typed, and every entered one has been dispatched. -/
structure Editing (ld : LineDisc) (typed : Typed) (dispatched : List (List (List Int8)))
    (q : List Int8) : Prop where
  shows : Shows zeroedBytes ld typed.edit
  dispatched : dispatched = typed.lines.map lineArgs
  stream : Holds stdStreamSize ld.out q
  noNewline : 10 ∉ q
  sent : q.length ≤ typed.sent
  text : typed.edit.text.length ≤ typed.sent
  fits : typed.sent < stdStreamSize

/-- The next line has been started: nothing of it has been typed. -/
structure Fresh (ld : LineDisc) (typed : Typed) : Prop where
  mode : ld.mode = .cooked
  capitalize : ld.ts.capitalize = typed.edit.capitalize
  text : typed.edit.text = []
  sent : typed.sent = 0

/-- The last line entered is in the buffer and has not been dispatched yet. -/
structure Entered (ld : LineDisc) (typed : Typed) (dispatched : List (List (List Int8)))
    (q : List Int8) (line : List Int8) : Prop where
  fresh : Fresh ld typed
  lines : ∃ before, typed.lines = before ++ [line] ∧ dispatched = before.map lineArgs
  buffer : HoldsString ld.lineBuffer (line ++ [10])
  short : (line ++ [10]).length < lineBufferSize
  words : words line ≠ []
  stream : Holds stdStreamSize ld.out q

/-- A line has been dispatched and the stream and the buffer are being flushed. -/
structure Flushing (ld : LineDisc) (typed : Typed) (dispatched : List (List (List Int8))) :
    Prop where
  fresh : Fresh ld typed
  dispatched : dispatched = typed.lines.map lineArgs
  size : ld.out.size = stdStreamSize

def ShellInv (s : ShellState) : Prop :=
  match s.pc with
  | .read g =>
      ∃ q, GetOk s.ld.out q g ∧
        (Editing s.ld s.typed s.dispatched q ∨
          NewlineLast q ∧ ∃ line, Entered s.ld s.typed s.dispatched q line)
  | .got c =>
      ∃ q, c ≠ 10 ∧
          (Editing s.ld s.typed s.dispatched q ∨
            NewlineLast q ∧ ∃ line, Entered s.ld s.typed s.dispatched q line) ∨
        c = 10 ∧ ∃ line, Entered s.ld s.typed s.dispatched q line
  | .copy i =>
      (∃ q line, Entered s.ld s.typed s.dispatched q line) ∧ i ≤ lineBufferSize ∧
        ∀ k, k < i → s.keyBuffer k = s.ld.lineBuffer k
  | .parse =>
      ∃ q line, Entered s.ld s.typed s.dispatched q line ∧ readString s.keyBuffer = line ++ [10]
  | .run _ _ => Flushing s.ld s.typed s.dispatched
  | .flushCells _ => Flushing s.ld s.typed s.dispatched
  | .flushOut => Flushing s.ld s.typed s.dispatched
  | .flushIn => Flushing s.ld s.typed s.dispatched ∧ s.ld.out.outPos = 0
  | .flushLine i =>
      Flushing s.ld s.typed s.dispatched ∧ Holds stdStreamSize s.ld.out [] ∧
        ∀ k, k < i → s.ld.lineBuffer k = 0
  | .flushLineI =>
      Flushing s.ld s.typed s.dispatched ∧ Holds stdStreamSize s.ld.out [] ∧
        ∀ k, k < lineBufferSize → s.ld.lineBuffer k = 0
  | .stuck => False

section Keys

variable {ld : LineDisc} {typed : Typed} {dispatched : List (List (List Int8))}
  {q : List Int8} {line : List Int8} {c : Int8}

theorem keyChar_newline (hc : keycode c ≤ kcMax) {b : Bool} (h : keyChar b c = 10) :
    keycode c = kcEnter := by
  have hall : ∀ k, k ≤ kcMax →
      (kcAscii.getD k 0 = 10 → k = kcEnter) ∧ (kcAsciiCap.getD k 0 = 10 → k = kcEnter) := by
    decide
  rw [keyChar] at h
  split at h
  · exact (hall _ hc).2 h
  · exact (hall _ hc).1 h

/-- Keys that only change the terminal state. -/
def IsModifier (c : Int8) : Prop := keyAction c = .keep ∨ keyAction c = .toggle

theorem enter_notModifier (h : IsModifier c) : keycode c ≠ kcEnter := by
  intro henter
  rw [IsModifier, keyAction_enter henter] at h
  rcases h with h | h <;> cases h

theorem typed_modifier (h : IsModifier c) :
    typed.key c = { typed with edit := typed.edit.key c } := by
  have hprint : keyAction c ≠ .print := by
    rcases h with h | h <;> rw [h] <;> exact nofun
  rw [Typed.key, if_neg (enter_notModifier h), if_neg hprint]

theorem lineIn_modifier (hmode : ld.mode = .cooked) (h : IsModifier c) :
    (lineIn ld c).1 = ld.evalKey c := by
  have hzero : (evalKc ld.ts (keycode c)).2 = 0 := by
    rcases h with h | h
    · exact (evalKc_keep ld.ts h).2
    · exact (evalKc_toggle ld.ts h).2
  by_cases hfull : ld.bufferI = lineBufferSize - 1
  · rw [lineIn_full hfull]
  · rw [lineIn_cooked hfull hmode, if_pos hzero]

theorem capitalize_modifier (h : IsModifier c) (e : Edit) (hcap : ld.ts.capitalize = e.capitalize) :
    (ld.evalKey c).ts.capitalize = (e.key c).capitalize ∧ (e.key c).text = e.text := by
  rw [Edit.key]
  rcases h with h | h
  · rw [h]
    exact ⟨(evalKc_keep ld.ts h).1.trans hcap, rfl⟩
  · rw [h]
    refine ⟨(evalKc_toggle ld.ts h).1.trans ?_, rfl⟩
    rw [hcap]

theorem Fresh.modifier (h : Fresh ld typed) (hc : IsModifier c) :
    Fresh (lineIn ld c).1 (typed.key c) := by
  obtain ⟨hcap, htext⟩ := capitalize_modifier hc typed.edit h.capitalize
  rw [lineIn_modifier h.mode hc, typed_modifier hc]
  exact ⟨h.mode, hcap, htext.trans h.text, h.sent⟩

theorem Editing.modifier (h : Editing ld typed dispatched q) (hc : IsModifier c) :
    Editing (lineIn ld c).1 (typed.key c) dispatched q := by
  obtain ⟨hcap, htext⟩ := capitalize_modifier hc typed.edit h.shows.capitalize
  rw [lineIn_modifier h.shows.mode hc, typed_modifier hc]
  constructor
  · refine ⟨h.shows.mode, hcap, ?_, ?_, ?_, ?_⟩
    · rw [htext]
      exact h.shows.bufferI
    · rw [htext]
      exact h.shows.text
    · rw [htext]
      exact h.shows.nonzero
    · rw [htext]
      exact h.shows.beyond
  · exact h.dispatched
  · exact h.stream
  · exact h.noNewline
  · exact h.sent
  · rw [htext]
    exact h.text
  · exact h.fits

theorem Entered.modifier (h : Entered ld typed dispatched q line) (hc : IsModifier c) :
    Entered (lineIn ld c).1 (typed.key c) dispatched q line := by
  refine ⟨h.fresh.modifier hc, ?_, ?_, h.short, h.words, ?_⟩
  · rw [typed_modifier hc]
    exact h.lines
  · rw [lineIn_modifier h.fresh.mode hc]
    exact h.buffer
  · rw [lineIn_modifier h.fresh.mode hc]
    exact h.stream

theorem Flushing.modifier (h : Flushing ld typed dispatched) (hc : IsModifier c) :
    Flushing (lineIn ld c).1 (typed.key c) dispatched := by
  refine ⟨h.fresh.modifier hc, ?_, ?_⟩
  · rw [typed_modifier hc]
    exact h.dispatched
  · rw [lineIn_modifier h.fresh.mode hc]
    exact h.size

theorem ShellInv.modifier {s : ShellState} (h : ShellInv s) (hc : IsModifier c) :
    ShellInv (s.press c) := by
  rw [ShellState.press]
  obtain ⟨ld, keyBuffer, pc, typed, dispatched⟩ := s
  have hbuf : ld.mode = .cooked →
      (lineIn ld c).1.lineBuffer = ld.lineBuffer ∧ (lineIn ld c).1.out = ld.out := by
    intro hmode
    rw [lineIn_modifier hmode hc]
    exact ⟨rfl, rfl⟩
  cases pc with
  | read g =>
      obtain ⟨q, hget, hedit | ⟨hlast, line, hline⟩⟩ := h
      · refine ⟨q, ?_, Or.inl (hedit.modifier hc)⟩
        rw [(hbuf hedit.shows.mode).2]
        exact hget
      · refine ⟨q, ?_, Or.inr ⟨hlast, line, hline.modifier hc⟩⟩
        rw [(hbuf hline.fresh.mode).2]
        exact hget
  | got d =>
      obtain ⟨q, ⟨hd, hedit | ⟨hlast, line, hline⟩⟩ | ⟨hd, line, hline⟩⟩ := h
      · exact ⟨q, Or.inl ⟨hd, Or.inl (hedit.modifier hc)⟩⟩
      · exact ⟨q, Or.inl ⟨hd, Or.inr ⟨hlast, line, hline.modifier hc⟩⟩⟩
      · exact ⟨q, Or.inr ⟨hd, line, hline.modifier hc⟩⟩
  | copy i =>
      obtain ⟨⟨q, line, hline⟩, hi, hcopied⟩ := h
      refine ⟨⟨q, line, hline.modifier hc⟩, hi, ?_⟩
      intro k hk
      rw [(hbuf hline.fresh.mode).1]
      exact hcopied k hk
  | parse =>
      obtain ⟨q, line, hline, hread⟩ := h
      exact ⟨q, line, hline.modifier hc, hread⟩
  | run args command => exact Flushing.modifier h hc
  | flushCells i => exact Flushing.modifier h hc
  | flushOut => exact Flushing.modifier h hc
  | flushIn =>
      obtain ⟨hflush, hout⟩ := h
      refine ⟨hflush.modifier hc, ?_⟩
      rw [(hbuf hflush.fresh.mode).2]
      exact hout
  | flushLine i =>
      obtain ⟨hflush, hnil, hzero⟩ := h
      refine ⟨hflush.modifier hc, ?_⟩
      rw [(hbuf hflush.fresh.mode).1, (hbuf hflush.fresh.mode).2]
      exact ⟨hnil, hzero⟩
  | flushLineI =>
      obtain ⟨hflush, hnil, hzero⟩ := h
      refine ⟨hflush.modifier hc, ?_⟩
      rw [(hbuf hflush.fresh.mode).1, (hbuf hflush.fresh.mode).2]
      exact ⟨hnil, hzero⟩
  | stuck => exact h

end Keys

section Typing

variable {ld : LineDisc} {typed : Typed} {dispatched : List (List (List Int8))}
  {q : List Int8} {c : Int8} {g : GetPc}

theorem outPos_putStd (s : Stream) (c : Int8) : (putStd s c).1.outPos = s.outPos := by
  rw [putStd, put]
  split_ifs <;> rfl

theorem out_erase : (lineErase ld).out = ld.out := by
  rw [lineErase]
  split_ifs <;> rfl

theorem Editing.room (h : Editing ld typed dispatched q) :
    typed.edit.text.length < lineBufferSize - 1 :=
  (h.text.trans_lt h.fits).trans (by decide)

theorem Editing.out_print (h : Editing ld typed dispatched q) (hc : keyAction c = .print) :
    (lineIn ld c).1.out = (putStd ld.out (keyChar typed.edit.capitalize c)).1 := by
  obtain ⟨heq, hkey, hmax⟩ := lineIn_print h.shows h.room hc
  rw [heq, ← hkey.capitalize]
  exact (lineType_spec (hkey.bufferI ▸ h.room) hmax).2.2.2

theorem Editing.stream_print (h : Editing ld typed dispatched q) (hc : keyAction c = .print)
    (hfits : typed.sent + 1 < stdStreamSize) :
    Holds stdStreamSize (lineIn ld c).1.out (q ++ [keyChar typed.edit.capitalize c]) := by
  rw [h.out_print hc]
  exact h.stream.put (by decide) (lt_of_le_of_lt (Nat.add_le_add_right h.sent 1) hfits)

theorem Editing.get_print (h : Editing ld typed dispatched q) (hc : keyAction c = .print)
    (hget : GetOk ld.out q g) :
    GetOk (lineIn ld c).1.out (q ++ [keyChar typed.edit.capitalize c]) g := by
  rw [h.out_print hc]
  exact (hget.append _).of_outPos (outPos_putStd _ _)

theorem key_print_edit (e : Edit) (hc : keyAction c = .print) :
    e.key c = { e with text := e.text ++ [keyChar e.capitalize c] } := by
  rw [Edit.key, hc]

theorem Editing.print (h : Editing ld typed dispatched q) (hc : keyAction c = .print)
    (henter : keycode c ≠ kcEnter) (hfits : typed.sent + 1 < stdStreamSize) :
    Editing (lineIn ld c).1 (typed.key c) dispatched (q ++ [keyChar typed.edit.capitalize c]) := by
  obtain ⟨_, _, hmax⟩ := lineIn_print h.shows h.room hc
  have htyped : typed.key c = ⟨typed.edit.key c, typed.sent + 1, typed.lines⟩ := by
    rw [Typed.key, if_neg henter, if_pos hc]
  rw [htyped]
  constructor
  · exact h.shows.key h.room
  · exact h.dispatched
  · exact h.stream_print hc hfits
  · rw [List.mem_append, List.mem_singleton]
    rintro (hin | hnew)
    · exact h.noNewline hin
    · exact henter (keyChar_newline hmax hnew.symm)
  · rw [List.length_append, List.length_singleton]
    exact Nat.add_le_add_right h.sent 1
  · exact length_key_le.trans (Nat.add_le_add_right h.text 1)
  · exact hfits

theorem Editing.erase (h : Editing ld typed dispatched q) (hc : keyAction c = .erase) :
    (lineIn ld c).1.out = ld.out ∧ Editing (lineIn ld c).1 (typed.key c) dispatched q := by
  obtain ⟨heq, hkey⟩ := lineIn_erase h.shows h.room hc
  have hout : (lineIn ld c).1.out = ld.out := by
    rw [heq]
    exact out_erase
  have henter : keycode c ≠ kcEnter := by
    intro henter
    rw [keyAction_enter henter] at hc
    cases hc
  have htyped : typed.key c = ⟨typed.edit.key c, typed.sent, typed.lines⟩ := by
    rw [Typed.key, if_neg henter, if_neg (by rw [hc]; exact nofun)]
  have htext : (typed.edit.key c).text = typed.edit.text.dropLast := by
    rw [Edit.key, hc]
  rw [htyped]
  refine ⟨hout, ?_⟩
  constructor
  · exact h.shows.key h.room
  · exact h.dispatched
  · exact hout ▸ h.stream
  · exact h.noNewline
  · exact h.sent
  · rw [htext, List.length_dropLast]
    exact (Nat.sub_le _ _).trans h.text
  · exact h.fits

/-- Enter hands the edited line over. -/
theorem Editing.enter (h : Editing ld typed dispatched q) (henter : keycode c = kcEnter)
    (hfits : typed.sent + 1 < stdStreamSize) (hwords : words typed.edit.text ≠ []) :
    Entered (lineIn ld c).1 (typed.key c) dispatched (q ++ [10]) typed.edit.text := by
  have hc := keyAction_enter henter
  have htyped : typed.key c =
      ⟨⟨typed.edit.capitalize, []⟩, 0, typed.lines ++ [typed.edit.text]⟩ := by
    rw [Typed.key, if_pos henter]
  have hshows := h.shows.key h.room (c := c)
  rw [key_print_edit _ hc, keyChar_enter henter] at hshows
  rw [htyped]
  constructor
  · exact ⟨hshows.mode, hshows.capitalize, rfl, rfl⟩
  · exact ⟨typed.lines, rfl, h.dispatched⟩
  · refine ⟨hshows.text, hshows.nonzero, ?_⟩
    rw [List.length_append]
    have hzeros : stdStreamSize < zeroedBytes := by decide
    exact h.shows.terminated h.room
      ((Nat.succ_le_of_lt (h.text.trans_lt h.fits)).trans_lt hzeros) hc
  · rw [List.length_append, List.length_singleton]
    have := h.room
    omega
  · exact hwords
  · rw [← keyChar_enter henter typed.edit.capitalize]
    exact h.stream_print hc hfits

theorem Editing.lines_length (h : Editing ld typed dispatched q) :
    dispatched.length = typed.lines.length := by
  rw [h.dispatched, List.length_map]

theorem Entered.lines_length {line : List Int8} (h : Entered ld typed dispatched q line) :
    typed.lines.length ≠ dispatched.length := by
  obtain ⟨before, hlines, hdisp⟩ := h.lines
  rw [hlines, hdisp]
  simp

/-- While the shell is settled the line is being edited. -/
theorem ShellInv.editing {s : ShellState} (h : ShellInv s) (hs : Settled s) :
    ∃ q, Editing s.ld s.typed s.dispatched q ∧ ∀ g, s.pc = .read g → GetOk s.ld.out q g := by
  obtain ⟨ld, keyBuffer, pc, typed, dispatched⟩ := s
  obtain ⟨hlength, ⟨g, hpc⟩ | ⟨c, hc, hpc⟩⟩ := hs
  · cases hpc
    obtain ⟨q, hget, hedit | ⟨_, line, hline⟩⟩ := h
    · refine ⟨q, hedit, ?_⟩
      rintro g' ⟨⟩
      exact hget
    · exact absurd hlength hline.lines_length
  · cases hpc
    obtain ⟨q, ⟨_, hedit | ⟨_, line, hline⟩⟩ | ⟨hnew, _⟩⟩ := h
    · exact ⟨q, hedit, nofun⟩
    · exact absurd hlength hline.lines_length
    · exact absurd hnew hc

theorem ShellInv.of_editing {s : ShellState} {ld : LineDisc} {typed : Typed}
    (hs : Settled s) (h : Editing ld typed s.dispatched q)
    (hget : ∀ g, s.pc = .read g → GetOk ld.out q g) :
    ShellInv { s with ld := ld, typed := typed } := by
  obtain ⟨_, ⟨g, hpc⟩ | ⟨c, hc, hpc⟩⟩ := hs
  · rw [ShellInv, hpc]
    exact ⟨q, hget g hpc, Or.inl h⟩
  · rw [ShellInv, hpc]
    exact ⟨q, Or.inl ⟨hc, Or.inl h⟩⟩

theorem ShellInv.of_entered {s : ShellState} {ld : LineDisc} {typed : Typed} {line : List Int8}
    (hs : Settled s) (hlast : NewlineLast q) (h : Entered ld typed s.dispatched q line)
    (hget : ∀ g, s.pc = .read g → GetOk ld.out q g) :
    ShellInv { s with ld := ld, typed := typed } := by
  obtain ⟨_, ⟨g, hpc⟩ | ⟨c, hc, hpc⟩⟩ := hs
  · rw [ShellInv, hpc]
    exact ⟨q, hget g hpc, Or.inr ⟨hlast, line, h⟩⟩
  · rw [ShellInv, hpc]
    exact ⟨q, Or.inl ⟨hc, Or.inr ⟨hlast, line, h⟩⟩⟩

theorem ShellInv.key {s : ShellState} (h : ShellInv s) (hturn : InTurn s (some c)) :
    ShellInv (s.press c) := by
  rcases hturn with hkeep | htoggle | ⟨hs, hprint, hblank⟩
  · exact h.modifier (Or.inl hkeep)
  · exact h.modifier (Or.inr htoggle)
  obtain ⟨q, hedit, hget⟩ := h.editing hs
  cases hc : keyAction c with
  | keep => exact h.modifier (Or.inl hc)
  | toggle => exact h.modifier (Or.inr hc)
  | erase =>
      obtain ⟨hout, herased⟩ := hedit.erase hc
      apply ShellInv.of_editing hs herased
      intro g hpc
      rw [hout]
      exact hget g hpc
  | print =>
      by_cases henter : keycode c = kcEnter
      · apply ShellInv.of_entered hs ⟨q, rfl, hedit.noNewline⟩
          (hedit.enter henter (hprint hc) (hblank henter))
        intro g hpc
        rw [← keyChar_enter henter s.typed.edit.capitalize]
        exact hedit.get_print hc (hget g hpc)
      · apply ShellInv.of_editing hs (hedit.print hc henter (hprint hc))
        intro g hpc
        exact hedit.get_print hc (hget g hpc)

end Typing

section Shell

variable {s t : ShellState} {ld : LineDisc} {typed : Typed} {dispatched : List (List (List Int8))}
  {q : List Int8} {line rest : List Int8} {c : Int8} {out : Stream}

theorem NewlineLast.cons (h : NewlineLast (c :: rest)) :
    c = 10 ∧ rest = [] ∨ c ≠ 10 ∧ NewlineLast rest := by
  obtain ⟨pre, heq, hpre⟩ := h
  cases pre with
  | nil =>
      obtain ⟨rfl, rfl⟩ := List.cons.inj heq
      exact Or.inl ⟨rfl, rfl⟩
  | cons d pre =>
      obtain ⟨rfl, rfl⟩ := List.cons.inj heq
      rw [List.mem_cons, not_or] at hpre
      exact Or.inr ⟨Ne.symm hpre.1, pre, rfl, hpre.2⟩

theorem Editing.take (h : Editing ld typed dispatched (c :: rest))
    (hrest : Holds stdStreamSize out rest) :
    c ≠ 10 ∧ Editing { ld with out := out } typed dispatched rest := by
  have hnew := h.noNewline
  rw [List.mem_cons, not_or] at hnew
  refine ⟨Ne.symm hnew.1, ?_⟩
  constructor
  · have hs := h.shows
    exact ⟨hs.mode, hs.capitalize, hs.bufferI, hs.text, hs.nonzero, hs.beyond⟩
  · exact h.dispatched
  · exact hrest
  · exact hnew.2
  · exact (Nat.le_succ _).trans h.sent
  · exact h.text
  · exact h.fits

theorem Entered.take (h : Entered ld typed dispatched q line)
    (hrest : Holds stdStreamSize out rest) :
    Entered { ld with out := out } typed dispatched rest line :=
  ⟨⟨h.fresh.mode, h.fresh.capitalize, h.fresh.text, h.fresh.sent⟩, h.lines, h.buffer, h.short,
    h.words, hrest⟩

theorem Flushing.withOut (h : Flushing ld typed dispatched) (hsize : out.size = ld.out.size) :
    Flushing { ld with out := out } typed dispatched :=
  ⟨⟨h.fresh.mode, h.fresh.capitalize, h.fresh.text, h.fresh.sent⟩, h.dispatched,
    hsize.trans h.size⟩

theorem ShellInv.get {g g' : GetPc} {l : SpscLabel} (h : ShellInv s) (hpc : s.pc = .read g)
    (hstep : GetStep s.ld.out g l out g') : ShellInv (s.withOut out (afterGet g' l)) := by
  obtain ⟨ld, keyBuffer, pc, typed, dispatched⟩ := s
  cases hpc
  obtain ⟨q, hget, hwaiting⟩ := h
  have hs : Holds stdStreamSize ld.out q := by
    obtain hedit | ⟨_, line, hline⟩ := hwaiting
    · exact hedit.stream
    · exact hline.stream
  obtain ⟨rfl, hget', hl⟩ | ⟨c, rest, rfl, rfl, rfl, hrest, _⟩ := hstep.cases hs hget
  · rcases hl with rfl | rfl
    · exact ⟨q, hget', hwaiting⟩
    · exact ⟨q, hget', hwaiting⟩
  · obtain hedit | ⟨hlast, line, hline⟩ := hwaiting
    · obtain ⟨hc, hedit'⟩ := hedit.take hrest
      exact ⟨rest, Or.inl ⟨hc, Or.inl hedit'⟩⟩
    · obtain ⟨rfl, rfl⟩ | ⟨hc, hlast'⟩ := hlast.cons
      · exact ⟨[], Or.inr ⟨rfl, line, hline.take hrest⟩⟩
      · exact ⟨rest, Or.inl ⟨hc, Or.inr ⟨hlast', line, hline.take hrest⟩⟩⟩

theorem readString_of_holds {mem mem' : Nat → Int8} {text : List Int8} (h : HoldsString mem text)
    (hshort : text.length < lineBufferSize) (heq : ∀ k, k < lineBufferSize → mem' k = mem k) :
    readString mem' = text := by
  obtain ⟨htext, hnonzero, hend⟩ := h
  have hmem : (List.range lineBufferSize).map mem' = (List.range lineBufferSize).map mem :=
    List.map_congr_left fun k hk => heq k (List.mem_range.mp hk)
  obtain ⟨n, hn⟩ : ∃ n, lineBufferSize = text.length + (n + 1) :=
    ⟨lineBufferSize - text.length - 1, by omega⟩
  rw [readString, hmem, hn, List.range_add, List.map_append, htext, List.takeWhile_append_of_pos]
  · simp [List.range_succ_eq_map, hend]
  · intro c hc
    exact bne_iff_ne.mpr fun hzero => hnonzero (hzero ▸ hc)

theorem Entered.args (h : Entered ld typed dispatched q line) :
    parseArgs (line ++ [10]).dropLast = some (lineArgs line) := by
  rw [List.dropLast_concat]
  exact parseArgs_words h.words

theorem Entered.dispatch (h : Entered ld typed dispatched q line) :
    Flushing ld typed (dispatched ++ [lineArgs line]) := by
  obtain ⟨before, hlines, hdisp⟩ := h.lines
  refine ⟨h.fresh, ?_, h.stream.size⟩
  rw [hlines, hdisp, List.map_append, List.map_singleton]

/-- Behind the flush of the buffer the next line is edited. -/
theorem Flushing.editing (h : Flushing ld typed dispatched) (hnil : Holds stdStreamSize ld.out [])
    (hzero : ∀ k, k < lineBufferSize → ld.lineBuffer k = 0) :
    Editing (ld.moveTo 0) typed dispatched [] := by
  have htext := h.fresh.text
  constructor
  · refine ⟨h.fresh.mode, h.fresh.capitalize, ?_, ?_, ?_, ?_⟩
    · rw [htext]
      rfl
    · rw [htext]
      rfl
    · rw [htext]
      exact List.not_mem_nil
    · intro k _ hk
      exact hzero k (lt_of_lt_of_le hk (by decide))
  · exact h.dispatched
  · exact hnil
  · exact List.not_mem_nil
  · exact Nat.zero_le _
  · rw [htext]
    exact Nat.zero_le _
  · rw [h.fresh.sent]
    decide

theorem ShellInv.step (h : ShellInv s) (hstep : ShellStep s none t) : ShellInv t := by
  obtain ⟨ld, keyBuffer, pc, typed, dispatched⟩ := s
  cases hstep with
  | get hpc hget => exact h.get hpc hget
  | other hpc hc =>
      cases hpc
      obtain ⟨q, ⟨_, hwaiting⟩ | ⟨rfl, _⟩⟩ := h
      · exact ⟨q, trivial, hwaiting⟩
      · exact absurd rfl hc
  | newline hpc =>
      cases hpc
      obtain ⟨q, ⟨hc, _⟩ | ⟨_, line, hline⟩⟩ := h
      · exact absurd rfl hc
      · exact ⟨⟨q, line, hline⟩, Nat.zero_le _, nofun⟩
  | @copyByte i hpc hi =>
      cases hpc
      obtain ⟨hline, _, hcopied⟩ := h
      refine ⟨hline, hi, ?_⟩
      intro k hk
      change Function.update keyBuffer i (ld.lineBuffer i) k = ld.lineBuffer k
      rcases eq_or_ne k i with rfl | hne
      · exact Function.update_self _ _ _
      · rw [Function.update_of_ne hne]
        exact hcopied k (by omega)
  | copied hpc =>
      cases hpc
      obtain ⟨⟨q, line, hline⟩, _, hcopied⟩ := h
      exact ⟨q, line, hline, readString_of_holds hline.buffer hline.short hcopied⟩
  | parse hpc hargs =>
      cases hpc
      obtain ⟨q, line, hline, hread⟩ := h
      have hargs' := hline.args
      rw [← hread] at hargs'
      cases hargs.symm.trans hargs'
      exact hline.dispatch
  | parseNull hpc hargs =>
      cases hpc
      obtain ⟨q, line, hline, hread⟩ := h
      have hargs' := hline.args
      rw [← hread] at hargs'
      cases hargs.symm.trans hargs'
  | ran hpc =>
      cases hpc
      exact h
  | flushCell hpc hi =>
      cases hpc
      exact Flushing.withOut h rfl
  | flushedCells hpc =>
      change pc = .flushCells ld.out.size at hpc
      subst hpc
      exact h
  | flushOut hpc =>
      cases hpc
      exact ⟨Flushing.withOut h rfl, rfl⟩
  | flushIn hpc =>
      cases hpc
      obtain ⟨hflush, hout⟩ := h
      exact ⟨hflush.withOut rfl, Holds.of_zero hflush.size (by decide) rfl hout, nofun⟩
  | @flushByte i hpc hi =>
      cases hpc
      obtain ⟨⟨hfresh, hdisp, hsize⟩, hnil, hzero⟩ := h
      refine ⟨⟨⟨hfresh.mode, hfresh.capitalize, hfresh.text, hfresh.sent⟩, hdisp, hsize⟩, hnil, ?_⟩
      intro k hk
      change Function.update ld.lineBuffer i 0 k = 0
      rcases eq_or_ne k i with rfl | hne
      · exact Function.update_self _ _ _
      · rw [Function.update_of_ne hne]
        exact hzero k (by omega)
  | flushedLine hpc =>
      cases hpc
      exact h
  | flushLineI hpc =>
      cases hpc
      obtain ⟨hflush, hnil, hzero⟩ := h
      exact ⟨[], trivial, Or.inl (hflush.editing hnil hzero)⟩

theorem shellInv_start (out : Stream) (behind keyBuffer line : Nat → Int8) :
    ShellInv (shellStart out behind keyBuffer line) := by
  refine ⟨[], trivial, Or.inl ?_⟩
  constructor
  · exact ⟨rfl, rfl, rfl, rfl, List.not_mem_nil, fun i _ hi => if_pos hi⟩
  · rfl
  · exact Holds.of_zero rfl (by decide) rfl rfl
  · exact List.not_mem_nil
  · exact Nat.zero_le _
  · exact Nat.zero_le _
  · exact Nat.succ_pos 255

/-- The lines entered so far are dispatched, but for the last one while the shell has
not executed it. -/
theorem ShellInv.in_order (h : ShellInv s) :
    s.dispatched <+: s.typed.lines.map lineArgs ∧
      (s.dispatched = s.typed.lines.map lineArgs ∨
        s.dispatched.length + 1 = s.typed.lines.length) := by
  have hdone : s.dispatched = s.typed.lines.map lineArgs →
      s.dispatched <+: s.typed.lines.map lineArgs ∧
        (s.dispatched = s.typed.lines.map lineArgs ∨
          s.dispatched.length + 1 = s.typed.lines.length) :=
    fun heq => ⟨heq ▸ List.prefix_refl _, Or.inl heq⟩
  have hwait : ∀ q line, Entered s.ld s.typed s.dispatched q line →
      s.dispatched <+: s.typed.lines.map lineArgs ∧
        (s.dispatched = s.typed.lines.map lineArgs ∨
          s.dispatched.length + 1 = s.typed.lines.length) := by
    intro q line hline
    obtain ⟨before, hlines, hdisp⟩ := hline.lines
    rw [hlines, hdisp, List.map_append]
    exact ⟨List.prefix_append _ _, Or.inr (by simp)⟩
  obtain ⟨ld, keyBuffer, pc, typed, dispatched⟩ := s
  cases pc with
  | read g =>
      obtain ⟨q, _, hedit | ⟨_, line, hline⟩⟩ := h
      · exact hdone hedit.dispatched
      · exact hwait q line hline
  | got c =>
      obtain ⟨q, ⟨_, hedit | ⟨_, line, hline⟩⟩ | ⟨_, line, hline⟩⟩ := h
      · exact hdone hedit.dispatched
      · exact hwait q line hline
      · exact hwait q line hline
  | copy i =>
      obtain ⟨⟨q, line, hline⟩, _⟩ := h
      exact hwait q line hline
  | parse =>
      obtain ⟨q, line, hline, _⟩ := h
      exact hwait q line hline
  | run args command => exact hdone (Flushing.dispatched h)
  | flushCells i => exact hdone (Flushing.dispatched h)
  | flushOut => exact hdone (Flushing.dispatched h)
  | flushIn => exact hdone h.1.dispatched
  | flushLine i => exact hdone h.1.dispatched
  | flushLineI => exact hdone h.1.dispatched
  | stuck => exact h.elim

end Shell

/-- The shell goes on alone. -/
def ShellRuns (s t : ShellState) : Prop := ∃ n, Run ShellStep s (List.replicate n none) t

section Alone

variable {s t u : ShellState} {out out' : Stream} {g g' : GetPc} {l : SpscLabel}
  {q pre post rest line text : List Int8} {c : Int8} {i : Nat}

theorem ShellRuns.refl (s : ShellState) : ShellRuns s s := ⟨0, .nil s⟩

theorem ShellRuns.head (hstep : ShellStep s none t) (h : ShellRuns t u) : ShellRuns s u := by
  obtain ⟨n, hrun⟩ := h
  exact ⟨n + 1, .cons hstep hrun⟩

theorem ShellRuns.trans (hst : ShellRuns s t) (htu : ShellRuns t u) : ShellRuns s u := by
  obtain ⟨n, hn⟩ := hst
  obtain ⟨m, hm⟩ := htu
  exact ⟨n + m, by rw [← List.replicate_append_replicate]; exact hn.append hm⟩

theorem ShellRuns.get (h : GetStep out g l out' g')
    (hnext : ShellRuns (s.withOut out' (afterGet g' l)) u) :
    ShellRuns (s.withOut out (.read g)) u :=
  .head (.get rfl h) hnext

/-- Behind a successful test `get_std` delivers the oldest character. -/
theorem ShellRuns.advance (hs : Holds stdStreamSize out (c :: rest)) :
    ∃ out', ShellRuns (s.withOut out (.read (.advance c out.outPos))) (s.withOut out' (.got c)) ∧
      Holds stdStreamSize out' rest :=
  ⟨_, .get (.writeOut _ _ _) (.refl _), (hs.advance (by decide)).2⟩

theorem ShellRuns.loadAt (hs : Holds stdStreamSize out (c :: rest)) :
    ∃ out', ShellRuns (s.withOut out (.read (.loadAt out.outPos))) (s.withOut out' (.got c)) ∧
      Holds stdStreamSize out' rest := by
  obtain ⟨out', hrun, hrest⟩ := ShellRuns.advance (s := s) hs
  have hc := (hs.advance (by decide)).1
  refine ⟨out', .get (.read _ _) (.get (.readNext _ _) ?_), hrest⟩
  rw [hc]
  exact hrun

theorem ShellRuns.tested {x y : Nat} (hne : x ≠ y) (hs : Holds stdStreamSize out (c :: rest)) :
    ∃ out', ShellRuns (s.withOut out (.read (.test (some x) (some y)))) (s.withOut out' (.got c)) ∧
      Holds stdStreamSize out' rest := by
  obtain ⟨out', hrun, hrest⟩ := ShellRuns.loadAt (s := s) hs
  exact ⟨out', .get (.filled _ _ _ hne) (.get (.readLoad _) hrun), hrest⟩

theorem ShellRuns.called (hs : Holds stdStreamSize out (c :: rest)) :
    ∃ out', ShellRuns (s.withOut out (.read .idle)) (s.withOut out' (.got c)) ∧
      Holds stdStreamSize out' rest := by
  obtain ⟨out', hrun, hrest⟩ := ShellRuns.tested (s := s) hs.ne_of_cons hs
  exact ⟨out', .get (.call _) (.get (.readIn _ _) (.get (.readOut _ _) hrun)), hrest⟩

theorem ShellRuns.test {x y : Nat} (hs : Holds stdStreamSize out (c :: rest)) :
    ∃ out', ShellRuns (s.withOut out (.read (.test (some x) (some y)))) (s.withOut out' (.got c)) ∧
      Holds stdStreamSize out' rest := by
  rcases eq_or_ne x y with heq | hne
  · obtain ⟨out', hrun, hrest⟩ := ShellRuns.called (s := s) hs
    exact ⟨out', .get (.empty _ _ _ heq) hrun, hrest⟩
  · exact ShellRuns.tested hne hs

/-- Wherever the shell is in `get_std`, it gets the oldest character. -/
theorem ShellRuns.getStd (hs : Holds stdStreamSize out (c :: rest))
    (hget : GetOk out (c :: rest) g) :
    ∃ out', ShellRuns (s.withOut out (.read g)) (s.withOut out' (.got c)) ∧
      Holds stdStreamSize out' rest := by
  cases g with
  | idle => exact ShellRuns.called hs
  | test i o =>
      cases i with
      | none =>
          cases o with
          | none =>
              obtain ⟨out', hrun, hrest⟩ := ShellRuns.test (s := s) hs
              exact ⟨out', .get (.readIn _ _) (.get (.readOut _ _) hrun), hrest⟩
          | some y =>
              obtain ⟨out', hrun, hrest⟩ := ShellRuns.test (s := s) hs
              exact ⟨out', .get (.readIn _ _) hrun, hrest⟩
      | some x =>
          cases o with
          | none =>
              obtain ⟨out', hrun, hrest⟩ := ShellRuns.test (s := s) hs
              exact ⟨out', .get (.readOut _ _) hrun, hrest⟩
          | some y => exact ShellRuns.test hs
  | load =>
      obtain ⟨out', hrun, hrest⟩ := ShellRuns.loadAt (s := s) hs
      exact ⟨out', .get (.readLoad _) hrun, hrest⟩
  | loadAt o =>
      obtain ⟨rfl, _⟩ := hget
      exact ShellRuns.loadAt hs
  | next old =>
      obtain ⟨_, hold⟩ := hget
      obtain ⟨rfl, _⟩ := List.cons.inj hold
      obtain ⟨out', hrun, hrest⟩ := ShellRuns.advance (s := s) hs
      exact ⟨out', .get (.readNext _ _) hrun, hrest⟩
  | advance old o =>
      obtain ⟨rfl, _, hold⟩ := hget
      obtain ⟨rfl, _⟩ := List.cons.inj hold
      exact ShellRuns.advance hs

theorem ShellRuns.newline (hs : Holds stdStreamSize out (pre ++ 10 :: post)) (hpre : 10 ∉ pre)
    (hget : GetOk out (pre ++ 10 :: post) g) :
    ∃ out', ShellRuns (s.withOut out (.read g)) (s.withOut out' (.got 10)) ∧
      Holds stdStreamSize out' post := by
  induction pre generalizing out g with
  | nil => exact ShellRuns.getStd hs hget
  | cons c pre ih =>
      rw [List.mem_cons, not_or] at hpre
      obtain ⟨out', hrun, hrest⟩ := ShellRuns.getStd (s := s) hs hget
      obtain ⟨out'', hrun', hpost⟩ := ih hrest hpre.2 (g := .idle) trivial
      exact ⟨out'', hrun.trans (.head (.other rfl (Ne.symm hpre.1)) hrun'), hpost⟩

theorem ShellRuns.copy (hpc : s.pc = .copy i) (hi : i ≤ lineBufferSize)
    (hcopied : ∀ k, k < i → s.keyBuffer k = s.ld.lineBuffer k) :
    ∃ mem, ShellRuns s { s with keyBuffer := mem, pc := .parse } ∧
      ∀ k, k < lineBufferSize → mem k = s.ld.lineBuffer k := by
  obtain ⟨n, hn⟩ : ∃ n, lineBufferSize = i + n := ⟨lineBufferSize - i, by omega⟩
  induction n generalizing s i with
  | zero =>
      rw [Nat.add_zero] at hn
      refine ⟨s.keyBuffer, .head (.copied (by rw [hpc, hn])) (.refl _), ?_⟩
      intro k hk
      exact hcopied k (hn ▸ hk)
  | succ n ih =>
      obtain ⟨mem, hrun, hmem⟩ := ih
        (s := { s with
                keyBuffer := Function.update s.keyBuffer i (s.ld.lineBuffer i)
                pc := .copy (i + 1) })
        (i := i + 1) rfl (by omega) (by
          intro k hk
          rcases eq_or_ne k i with rfl | hne
          · exact Function.update_self _ _ _
          · exact (Function.update_of_ne hne _ _).trans (hcopied k (by omega))) (by omega)
      exact ⟨mem, .head (.copyByte hpc (by omega)) hrun, hmem⟩

theorem ShellRuns.parse {args : List (List Int8)} (hpc : s.pc = .parse)
    (hread : parseArgs (readString s.keyBuffer).dropLast = some args) :
    ∃ t, ShellRuns s t ∧ t.typed = s.typed ∧ t.dispatched = s.dispatched ++ [args] :=
  ⟨_, .head (.parse hpc hread) (.refl _), rfl, rfl⟩

/-- A newline makes the shell dispatch what is in the line buffer. -/
theorem ShellRuns.bufferLine {args : List (List Int8)} (hpc : s.pc = .copy i)
    (hi : i ≤ lineBufferSize)
    (hcopied : ∀ k, k < i → s.keyBuffer k = s.ld.lineBuffer k)
    (hbuf : HoldsString s.ld.lineBuffer text) (hshort : text.length < lineBufferSize)
    (hargs : parseArgs text.dropLast = some args) :
    ∃ t, ShellRuns s t ∧ t.typed = s.typed ∧ t.dispatched = s.dispatched ++ [args] := by
  obtain ⟨mem, hcopy, hmem⟩ := ShellRuns.copy hpc hi hcopied
  have hread : readString mem = text := readString_of_holds hbuf hshort hmem
  have hparse : parseArgs (readString mem).dropLast = some args := by
    rw [hread]
    exact hargs
  obtain ⟨t, hrun, htyped, hdisp⟩ :=
    ShellRuns.parse (s := { s with keyBuffer := mem, pc := .parse }) rfl hparse
  exact ⟨t, hcopy.trans hrun, htyped, hdisp⟩

theorem ShellRuns.typedLine {args : List (List Int8)}
    (hs : Holds stdStreamSize out (pre ++ 10 :: post)) (hpre : 10 ∉ pre)
    (hget : GetOk out (pre ++ 10 :: post) g)
    (hbuf : HoldsString s.ld.lineBuffer text) (hshort : text.length < lineBufferSize)
    (hargs : parseArgs text.dropLast = some args) :
    ∃ t, ShellRuns (s.withOut out (.read g)) t ∧ t.typed = s.typed ∧
      t.dispatched = s.dispatched ++ [args] := by
  obtain ⟨out', hrun, _⟩ := ShellRuns.newline (s := s) hs hpre hget
  have hbuf' : HoldsString (s.withOut out' (.got 10)).ld.lineBuffer text := hbuf
  obtain ⟨t, hrun', ht⟩ :=
    ShellRuns.bufferLine (s := { s.withOut out' (.got 10) with pc := .copy 0 })
      rfl (Nat.zero_le _) nofun hbuf' hshort hargs
  exact ⟨t, hrun.trans (.head (.newline rfl) hrun'), ht⟩

end Alone

theorem ShellInv.finish {s : ShellState} (h : ShellInv s) :
    ∃ t, ShellRuns s t ∧ t.typed = s.typed ∧ t.dispatched = s.typed.lines.map lineArgs := by
  have hdone : s.dispatched = s.typed.lines.map lineArgs →
      ∃ t, ShellRuns s t ∧ t.typed = s.typed ∧ t.dispatched = s.typed.lines.map lineArgs :=
    fun heq => ⟨s, .refl s, rfl, heq⟩
  have hwait : ∀ q line, Entered s.ld s.typed s.dispatched q line →
      (∃ t, ShellRuns s t ∧ t.typed = s.typed ∧ t.dispatched = s.dispatched ++ [lineArgs line]) →
      ∃ t, ShellRuns s t ∧ t.typed = s.typed ∧ t.dispatched = s.typed.lines.map lineArgs := by
    rintro q line hline ⟨t, hrun, htyped, hdisp⟩
    exact ⟨t, hrun, htyped, hdisp.trans hline.dispatch.dispatched⟩
  obtain ⟨ld, keyBuffer, pc, typed, dispatched⟩ := s
  cases pc with
  | read g =>
      obtain ⟨q, hget, hedit | ⟨⟨pre, rfl, hpre⟩, line, hline⟩⟩ := h
      · exact hdone hedit.dispatched
      · refine hwait _ line hline ?_
        exact ShellRuns.typedLine (s := ⟨ld, keyBuffer, .read g, typed, dispatched⟩) hline.stream
          hpre hget hline.buffer hline.short hline.args
  | got c =>
      obtain ⟨q, ⟨hc, hedit | ⟨⟨pre, rfl, hpre⟩, line, hline⟩⟩ | ⟨rfl, line, hline⟩⟩ := h
      · exact hdone hedit.dispatched
      · refine hwait _ line hline ?_
        obtain ⟨t, hrun, ht⟩ := ShellRuns.typedLine
          (s := ⟨ld, keyBuffer, .read .idle, typed, dispatched⟩) (g := .idle) hline.stream hpre
          trivial hline.buffer hline.short hline.args
        exact ⟨t, .head (.other rfl hc) hrun, ht⟩
      · refine hwait q line hline ?_
        obtain ⟨t, hrun, ht⟩ := ShellRuns.bufferLine
          (s := ⟨ld, keyBuffer, .copy 0, typed, dispatched⟩) (i := 0) rfl (Nat.zero_le _) nofun
          hline.buffer hline.short hline.args
        exact ⟨t, .head (.newline rfl) hrun, ht⟩
  | copy i =>
      obtain ⟨⟨q, line, hline⟩, hi, hcopied⟩ := h
      refine hwait q line hline ?_
      exact ShellRuns.bufferLine rfl hi hcopied hline.buffer hline.short hline.args
  | parse =>
      obtain ⟨q, line, hline, hread⟩ := h
      refine hwait q line hline ?_
      exact ShellRuns.parse rfl (by rw [hread]; exact hline.args)
  | run args command => exact hdone (Flushing.dispatched h)
  | flushCells i => exact hdone (Flushing.dispatched h)
  | flushOut => exact hdone (Flushing.dispatched h)
  | flushIn => exact hdone h.1.dispatched
  | flushLine i => exact hdone h.1.dispatched
  | flushLineI => exact hdone h.1.dispatched
  | stuck => exact h.elim

theorem shellInv_run {out : Stream} {behind keyBuffer line : Nat → Int8} {s : ShellState}
    {es : List (Option Int8)}
    (h : Run (Guarded ShellStep InTurn) (shellStart out behind keyBuffer line) es s) :
    ShellInv s := by
  refine h.invariant ShellInv ?_ (shellInv_start out behind keyBuffer line)
  rintro s e t hs ⟨hturn, hstep⟩
  cases e with
  | none => exact hs.step hstep
  | some c =>
      cases hstep
      exact hs.key hturn

section Ahead

variable {s t : ShellState} {cs pre post text : List Int8} {args : List (List Int8)}

theorem ShellRuns.guarded {guard : ShellState → Option Int8 → Prop} (hguard : ∀ s, guard s none)
    (h : ShellRuns s t) : ∃ es, Run (Guarded ShellStep guard) s es t := by
  obtain ⟨n, hrun⟩ := h
  refine ⟨List.replicate n none, ?_⟩
  induction n generalizing s with
  | zero =>
      cases hrun
      exact .nil _
  | succ n ih =>
      cases hrun with
      | cons hstep hrest => exact .cons ⟨hguard _, hstep⟩ (ih hrest)

theorem run_keys (h : FitKeys s.typed cs) :
    Run (Guarded ShellStep FitsKey) s (cs.map some) (cs.foldl ShellState.press s) := by
  induction cs generalizing s with
  | nil => exact .nil s
  | cons c cs ih => exact .cons ⟨h.1, .key s c⟩ (ih h.2)

/-- The shell starts to read when all the keys have been typed. -/
theorem run_ahead (hfit : FitKeys s.typed cs) (hpc : (cs.foldl ShellState.press s).pc = .read .idle)
    (hs : Holds stdStreamSize (cs.foldl ShellState.press s).ld.out (pre ++ 10 :: post))
    (hpre : 10 ∉ pre) (hbuf : HoldsString (cs.foldl ShellState.press s).ld.lineBuffer text)
    (hshort : text.length < lineBufferSize) (hargs : parseArgs text.dropLast = some args) :
    ∃ es t, Run (Guarded ShellStep FitsKey) s es t ∧
      t.typed = (cs.foldl ShellState.press s).typed ∧
      t.dispatched = (cs.foldl ShellState.press s).dispatched ++ [args] := by
  have hkeys := run_keys hfit
  obtain ⟨u, hu⟩ : ∃ u, u = cs.foldl ShellState.press s := ⟨_, rfl⟩
  rw [← hu] at hkeys hpc hs hbuf ⊢
  obtain ⟨t, halone, htyped, hdisp⟩ :=
    ShellRuns.typedLine (s := u) (g := .idle) hs hpre trivial hbuf hshort hargs
  have heq : u.withOut u.ld.out (.read .idle) = u := by
    rw [ShellState.withOut, ← hpc]
  rw [heq] at halone
  obtain ⟨es, hes⟩ := @ShellRuns.guarded _ _ FitsKey (fun _ => trivial) halone
  exact ⟨_, t, hkeys.append hes, htyped, hdisp⟩

/-- The keys of one line, before Enter, are in turn. -/
theorem run_line_keys (hfit : FitKeys s.typed cs) (henter : ∀ c, c ∈ cs → keycode c ≠ kcEnter)
    (hs : Settled s) :
    Run (Guarded ShellStep InTurn) s (cs.map some) (cs.foldl ShellState.press s) ∧
      Settled (cs.foldl ShellState.press s) := by
  induction cs generalizing s with
  | nil => exact ⟨.nil s, hs⟩
  | cons c cs ih =>
      have hnext : Settled (s.press c) := by
        refine ⟨?_, hs.2⟩
        rw [ShellState.press, Typed.key, if_neg (henter c List.mem_cons_self)]
        exact hs.1
      obtain ⟨hrun, hlast⟩ := ih hfit.2 (fun d hd => henter d (List.mem_cons_of_mem c hd)) hnext
      exact ⟨.cons ⟨Or.inr (Or.inr ⟨hs, hfit.1⟩), .key s c⟩ hrun, hlast⟩

theorem settled_start (c : Int8) : Settled (consoleStart c) := ⟨rfl, Or.inl ⟨.idle, rfl⟩⟩

/-- A line with one word more than there is room for. -/
def longLine : List Int8 := 0x1E :: (List.replicate maxNumArgs [0x39, 0x1E]).flatten

end Ahead

end Longhorn.ShellLines
