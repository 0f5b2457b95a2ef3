import Longhorn.Foundations.TransitionRuns
import Longhorn.KallocModel
import Longhorn.LineEditing
import Longhorn.ShellParsing
import Longhorn.StreamInterleaving

/-!
The shell's `read_stdin` loop, with the keyboard interrupt between any two of its steps.
-/

namespace Longhorn.ShellModel

open Longhorn.Foundations.TransitionRuns
open Longhorn.SlabModel (poolSlabSize)
open Longhorn.KallocModel (roundUp)
open Longhorn.StreamModel
open Longhorn.StreamInterleaving
open Longhorn.LineModel
open Longhorn.LineEditing
open Longhorn.ShellParsing

/-- Where the shell is in `read_stdin`.  After `stuck` it has read through a null token. -/
inductive ShellPc where
  | read (g : GetPc)
  | got (c : Int8)
  | copy (i : Nat)
  | parse
  | run (args : List (List Int8)) (command : Option (List Int8))
  | flushCells (i : Nat)
  | flushOut
  | flushIn
  | flushLine (i : Nat)
  | flushLineI
  | stuck

/-- What has been typed: the line that is being edited, the characters sent for it, and
the lines entered so far. -/
structure Typed where
  edit : Edit
  sent : Nat
  lines : List (List Int8)

def Typed.key (t : Typed) (c : Int8) : Typed :=
  if keycode c = kcEnter then ⟨⟨t.edit.capitalize, []⟩, 0, t.lines ++ [t.edit.text]⟩
  else ⟨t.edit.key c, if keyAction c = .print then t.sent + 1 else t.sent, t.lines⟩

/-- The output of the line discipline is the `stdin` of the shell. -/
structure ShellState where
  ld : LineDisc
  keyBuffer : Nat → Int8
  pc : ShellPc
  typed : Typed
  dispatched : List (List (List Int8))

/-- The string in a buffer. -/
def readString (mem : Nat → Int8) : List Int8 :=
  ((List.range lineBufferSize).map mem).takeWhile (· != 0)

/-- Where a step of `get_std` leads; `read_stdin` is called again when the stream is
empty. -/
def afterGet (g : GetPc) : SpscLabel → ShellPc
  | .deliver c => .got c
  | _ => .read g

def ShellState.withOut (s : ShellState) (out : Stream) (pc : ShellPc) : ShellState :=
  { s with ld := { s.ld with out := out }, pc := pc }

/-- The keyboard interrupt. -/
def ShellState.press (s : ShellState) (c : Int8) : ShellState :=
  { s with ld := (lineIn s.ld c).1, typed := s.typed.key c }

/-- Steps of the shell have no label, a keyboard interrupt has its key. -/
inductive ShellStep : ShellState → Option Int8 → ShellState → Prop
  | key (s : ShellState) (c : Int8) : ShellStep s (some c) (s.press c)
  | get {s : ShellState} {g g' : GetPc} {l : SpscLabel} {out : Stream} (hpc : s.pc = .read g)
      (h : GetStep s.ld.out g l out g') : ShellStep s none (s.withOut out (afterGet g' l))
  | other {s : ShellState} {c : Int8} (hpc : s.pc = .got c) (h : c ≠ 10) :
      ShellStep s none { s with pc := .read .idle }
  | newline {s : ShellState} (hpc : s.pc = .got 10) : ShellStep s none { s with pc := .copy 0 }
  | copyByte {s : ShellState} {i : Nat} (hpc : s.pc = .copy i) (h : i < lineBufferSize) :
      ShellStep s none
        { s with
          keyBuffer := Function.update s.keyBuffer i (s.ld.lineBuffer i), pc := .copy (i + 1) }
  | copied {s : ShellState} (hpc : s.pc = .copy lineBufferSize) :
      ShellStep s none { s with pc := .parse }
  | parse {s : ShellState} {args : List (List Int8)} (hpc : s.pc = .parse)
      (h : parseArgs (readString s.keyBuffer).dropLast = some args) :
      ShellStep s none
        { s with
          pc := .run args (commandLoop (args.headD []) commands)
          dispatched := s.dispatched ++ [args] }
  | parseNull {s : ShellState} (hpc : s.pc = .parse)
      (h : parseArgs (readString s.keyBuffer).dropLast = none) :
      ShellStep s none { s with pc := .stuck }
  | ran {s : ShellState} {args : List (List Int8)} {command : Option (List Int8)}
      (hpc : s.pc = .run args command) : ShellStep s none { s with pc := .flushCells 0 }
  | flushCell {s : ShellState} {i : Nat} (hpc : s.pc = .flushCells i) (h : i < s.ld.out.size) :
      ShellStep s none
        (s.withOut { s.ld.out with cells := Function.update s.ld.out.cells i 0 }
          (.flushCells (i + 1)))
  | flushedCells {s : ShellState} (hpc : s.pc = .flushCells s.ld.out.size) :
      ShellStep s none { s with pc := .flushOut }
  | flushOut {s : ShellState} (hpc : s.pc = .flushOut) :
      ShellStep s none (s.withOut { s.ld.out with outPos := 0 } .flushIn)
  | flushIn {s : ShellState} (hpc : s.pc = .flushIn) :
      ShellStep s none (s.withOut { s.ld.out with inPos := 0 } (.flushLine 0))
  | flushByte {s : ShellState} {i : Nat} (hpc : s.pc = .flushLine i) (h : i < lineBufferSize) :
      ShellStep s none { s with ld := s.ld.store i 0, pc := .flushLine (i + 1) }
  | flushedLine {s : ShellState} (hpc : s.pc = .flushLine lineBufferSize) :
      ShellStep s none { s with pc := .flushLineI }
  | flushLineI {s : ShellState} (hpc : s.pc = .flushLineI) :
      ShellStep s none { s with ld := s.ld.moveTo 0, pc := .read .idle }

/-- The bytes of the line buffer that `kcalloc` has zeroed: as many 64-bit words as the 4096
bytes asked for have slabs. -/
def zeroedBytes : Nat := 8 * roundUp (lineBufferSize * 4 / poolSlabSize) poolSlabSize

/-- The shell after `shell_init`; `out` is the stream that `init_std` is called on, and `line`
the memory of the line buffer before `kcalloc`. -/
def shellStart (out : Stream) (behind keyBuffer line : Nat → Int8) : ShellState where
  ld :=
    { lineBuffer := fun i => if i < zeroedBytes then 0 else line i
      bufferI := 0
      ts := ⟨false, false, false⟩
      screen := []
      out := initStd out
      mode := .cooked
      behind := behind
      accesses := [] }
  keyBuffer := keyBuffer
  pc := .read .idle
  typed := ⟨⟨false, []⟩, 0, []⟩
  dispatched := []

/-- The shell over memory with one byte everywhere. -/
def consoleStart (c : Int8) : ShellState :=
  shellStart ⟨fun _ => c, 0, 0, 0⟩ (fun _ => c) (fun _ => c) fun _ => c

/-- The shell waits for a line, and none of the typed ones is left to execute. -/
def Settled (s : ShellState) : Prop :=
  s.typed.lines.length = s.dispatched.length ∧
    ((∃ g, s.pc = .read g) ∨ ∃ c, c ≠ 10 ∧ s.pc = .got c)

/-- The line that a key changes fits in the stream, and an entered line is not blank. -/
def Fits (t : Typed) (c : Int8) : Prop :=
  (keyAction c = .print → t.sent + 1 < stdStreamSize) ∧
    (keycode c = kcEnter → words t.edit.text ≠ [])

def FitsKey (s : ShellState) : Option Int8 → Prop
  | none => True
  | some c => Fits s.typed c

/-- A key that changes the line comes while the shell waits for it. -/
def InTurn (s : ShellState) : Option Int8 → Prop
  | none => True
  | some c => keyAction c = .keep ∨ keyAction c = .toggle ∨ Settled s ∧ Fits s.typed c

instance (t : Typed) (c : Int8) : Decidable (Fits t c) := inferInstanceAs (Decidable (_ ∧ _))

/-- Each of the keys fits when it is typed. -/
def FitKeys (t : Typed) : List Int8 → Prop
  | [] => True
  | c :: cs => Fits t c ∧ FitKeys (t.key c) cs

instance (t : Typed) (cs : List Int8) : Decidable (FitKeys t cs) :=
  match cs with
  | [] => isTrue trivial
  | c :: cs => @instDecidableAnd _ _ _ (instDecidableFitKeys (t.key c) cs)

end Longhorn.ShellModel
