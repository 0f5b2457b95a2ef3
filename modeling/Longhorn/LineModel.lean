import Longhorn.StreamModel

/-!
The line discipline of `drivers/line.c`.
-/

namespace Longhorn.LineModel

open Longhorn.StreamModel

def lineBufferSize : Nat := 1023 + 1

def kcMax : Nat := 57
def kcLalt : Nat := 0x38
def kcLshift : Nat := 0x2A
def kcLctrl : Nat := 0x1D
def kcCapslock : Nat := 0x3A
def kcRshift : Nat := 0x36
def kcEnter : Nat := 0x1C
def kcBackspace : Int8 := 0x0E
def kcEscape : Nat := 0x01
def kcNumlock : Nat := 0x45
def kcReleased : Nat := 0x81
def kcLshiftRel : Nat := 0xAA
def kcLctrlRel : Nat := 0x9D
def kcRshiftRel : Nat := 0xB6

def lineSucc : Int := 0
def lineInFail : Int := 3
def lineOutFail : Int := 4
def termSucc : Int := 0

/-- The characters of the keycodes, as ASCII codes. -/
def kcAscii : List Int8 :=
  [63, 63, 49, 50, 51, 52, 53, 54,
    55, 56, 57, 48, 45, 61, 63, 63,
    113, 119, 101, 114, 116, 121, 117, 105,
    111, 112, 91, 93, 10, 63, 97, 115,
    100, 102, 103, 104, 106, 107, 108, 59,
    39, 96, 63, 92, 122, 120, 99, 118,
    98, 110, 109, 44, 46, 47, 63, 63, 63, 32]

def kcAsciiCap : List Int8 :=
  [63, 63, 49, 50, 51, 52, 53, 54,
    55, 56, 57, 48, 45, 61, 63, 63, 81, 87, 69, 82, 84, 89,
    85, 73, 79, 80, 91, 93, 10, 63, 65, 83, 68, 70, 71,
    72, 74, 75, 76, 59, 39, 96, 63, 92, 90, 88, 67, 86,
    66, 78, 77, 44, 46, 47, 63, 63, 63, 32]

inductive LdMode where
  | cooked
  | raw
  deriving DecidableEq

structure TerminalState where
  capitalize : Bool
  altPressed : Bool
  ctrlPressed : Bool
  deriving DecidableEq

/-- The calls of the display driver. -/
inductive DisplayCall where
  | putc (c : Int8)
  | backspace
  | scur

/-- An access to the line buffer or to a table of characters. -/
inductive Access where
  | buffer (i : Nat)
  | table (i : Nat)

/-- `struct line_discipline` with its terminal and its output stream.  `behind` are the
bytes that follow the tables, and `accesses` records what the code has touched. -/
structure LineDisc where
  lineBuffer : Nat → Int8
  bufferI : Nat
  ts : TerminalState
  screen : List DisplayCall
  out : Stream
  mode : LdMode
  behind : Nat → Int8
  accesses : List Access

def LineDisc.touch (ld : LineDisc) (a : Access) : LineDisc :=
  { ld with accesses := a :: ld.accesses }

def LineDisc.store (ld : LineDisc) (i : Nat) (c : Int8) : LineDisc :=
  { ld.touch (.buffer i) with lineBuffer := Function.update ld.lineBuffer i c }

def LineDisc.moveTo (ld : LineDisc) (i : Nat) : LineDisc := { ld with bufferI := i }

def LineDisc.show (ld : LineDisc) (d : DisplayCall) : LineDisc :=
  { ld with screen := d :: ld.screen }

def LineDisc.putOut (ld : LineDisc) (c : Int8) : LineDisc := { ld with out := (putStd ld.out c).1 }

/-- `char` to `unsigned char`, as an index. -/
def keycode (c : Int8) : Nat := c.toUInt8.toNat

/-- `line_init`; `mem` is what `kcalloc` returns, and `none` the failure. -/
def lineInit (mem : Option (Nat → Int8)) (t : Option TerminalState) (out : Stream) (m : LdMode)
    (behind : Nat → Int8) : Option LineDisc :=
  match mem with
  | none => none
  | some buffer =>
      some
        { lineBuffer := buffer
          bufferI := 0
          ts := t.getD ⟨false, false, false⟩
          screen := []
          out := out
          mode := m
          behind := behind
          accesses := [] }

/-- The first `k` rounds of the loop of `line_flush`. -/
def clearBuffer (ld : LineDisc) : Nat → LineDisc
  | 0 => ld
  | k + 1 => (clearBuffer ld k).store k 0

def lineFlush (ld : LineDisc) : LineDisc × Int :=
  ((clearBuffer ld lineBufferSize).moveTo 0, lineSucc)

def evalKc (ts : TerminalState) (keycode : Nat) : TerminalState × Int8 :=
  if keycode = kcLalt then ({ ts with altPressed := !ts.altPressed }, 0)
  else if keycode ∈ [kcLshift, kcRshift, kcLshiftRel, kcRshiftRel] then
    ({ ts with capitalize := !ts.capitalize }, 0)
  else if keycode = kcCapslock then ({ ts with capitalize := !ts.capitalize }, 0)
  else if keycode ∈ [kcLctrl, kcLctrlRel] then ({ ts with ctrlPressed := !ts.ctrlPressed }, 0)
  else if keycode ∈ [kcEscape, kcNumlock, kcReleased] then (ts, 0)
  else if keycode ≤ kcMax then (ts, Int8.ofNat keycode)
  else (ts, 0)

/-- The entry of the table that the terminal state selects. -/
def kcChar (capitalize : Bool) (behind : Nat → Int8) (i : Nat) : Int8 :=
  if capitalize then kcAsciiCap.getD i (behind i) else kcAscii.getD i (behind i)

def kcGetchar (ld : LineDisc) (c : Nat) : LineDisc × Int8 :=
  (ld.touch (.table c), kcChar ld.ts.capitalize ld.behind c)

def terminalWrite (ld : LineDisc) (c : Int8) : LineDisc × Int := (ld.show (.putc c), termSucc)

def lineSendv (ld : LineDisc) : LineDisc × Int :=
  let c := ld.lineBuffer ld.bufferI
  if c ≠ 0 then
    (((ld.touch (.buffer ld.bufferI)).touch (.buffer ld.bufferI)).putOut c, lineSucc)
  else (ld.touch (.buffer ld.bufferI), -lineOutFail)

/-- The last two calls of `line_in`. -/
def lineEcho (ld : LineDisc) : LineDisc :=
  let c := ld.lineBuffer ld.bufferI
  let ld := (ld.touch (.buffer ld.bufferI)).moveTo (add32 ld.bufferI 1)
  (terminalWrite ld c).1.show .scur

/-- The character of a key goes into the buffer and to the connected process. -/
def lineType (ld : LineDisc) (c : Int8) : LineDisc :=
  let r := kcGetchar ld (keycode c)
  lineEcho (lineSendv (r.1.store r.1.bufferI r.2)).1

def lineErase (ld : LineDisc) : LineDisc :=
  if ld.bufferI > 0 then
    (((ld.store ld.bufferI 0).moveTo (sub32 ld.bufferI 1)).show .backspace).show .scur
  else ld

/-- The terminal state after a key. -/
def LineDisc.evalKey (ld : LineDisc) (c : Int8) : LineDisc :=
  { ld with ts := (evalKc ld.ts (keycode c)).1 }

def lineIn (ld : LineDisc) (c : Int8) : LineDisc × Int :=
  let kcRet := (evalKc ld.ts (keycode c)).2
  let ld := ld.evalKey c
  if ld.bufferI = lineBufferSize - 1 then (ld, -lineInFail)
  else
    match ld.mode with
    | .raw => (lineType ld c, lineSucc)
    | .cooked =>
        if kcRet = 0 then (ld, lineSucc)
        else if c = kcBackspace then (lineErase ld, lineSucc)
        else (lineType ld c, lineSucc)

/-- The loop of `line_ins` over the keys from the `i`-th on, with `k` rounds left. -/
def lineInsLoop (ld : LineDisc) : Nat → List Int8 → Nat → LineDisc × Nat
  | 0, _, i => (ld, i)
  | _ + 1, [], i => (ld, i)
  | k + 1, c :: rest, i =>
      if (lineIn ld c).2 = -lineInFail then ((lineIn ld c).1, i)
      else lineInsLoop (lineIn ld c).1 k rest (i + 1)

def lineIns (ld : LineDisc) (s : CString) : LineDisc × Nat :=
  lineInsLoop ld lineBufferSize s.text 0

/-- The loop of `line_out` from index `i` on, with `k` rounds left. -/
def lineOutLoop (ld : LineDisc) : Nat → Nat → LineDisc × Nat
  | 0, i => (ld, i)
  | k + 1, i =>
      if i < ld.bufferI then
        let c := ld.lineBuffer i
        let r := if c = 8 then ((ld.touch (.buffer i)).show .backspace, lineSucc)
          else terminalWrite ((ld.touch (.buffer i)).touch (.buffer i)) c
        if r.2 ≠ lineSucc then (r.1, i) else lineOutLoop r.1 k (i + 1)
      else (ld, i)

def lineOut (ld : LineDisc) : LineDisc × Nat := lineOutLoop ld lineBufferSize 0

def lineSendLoop (ld : LineDisc) : Nat → Nat → LineDisc × Nat
  | 0, i => (ld, i)
  | k + 1, i =>
      if i < ld.bufferI then
        let c := ld.lineBuffer i
        if c ≠ 0 then
          lineSendLoop (((ld.touch (.buffer i)).touch (.buffer i)).putOut c) k (i + 1)
        else (ld.touch (.buffer i), i)
      else (ld, i)

def lineSend (ld : LineDisc) : LineDisc × Nat :=
  let r := lineSendLoop ld lineBufferSize 0
  (r.1.moveTo 0, r.2)

def lineRecv (ld : LineDisc) (c : Int8) : LineDisc × Int :=
  if ld.bufferI = lineBufferSize - 1 then (ld, -lineInFail)
  else
    let ld := if c = 8 ∧ ld.bufferI > 0 then
        (ld.store ld.bufferI 0).moveTo (sub32 ld.bufferI 1)
      else ld
    ((ld.store ld.bufferI c).moveTo (add32 ld.bufferI 1), lineSucc)

/-- The first `k` bytes of a `memcpy` to the end of the text. -/
def copyIn (ld : LineDisc) (s : CString) : Nat → LineDisc
  | 0 => ld
  | k + 1 => (copyIn ld s k).store (ld.bufferI + k) (s.text.getD k 0)

def recsSize (ld : LineDisc) (s : CString) : Nat :=
  if strlen s < sub32 lineBufferSize ld.bufferI then strlen s
  else add32 (sub32 lineBufferSize ld.bufferI) 1

def lineRecs (ld : LineDisc) (s : CString) : LineDisc × Nat :=
  let size := recsSize ld s
  let ld := (copyIn ld s size).moveTo (add32 ld.bufferI size)
  (ld.store ld.bufferI 0, size)

/-- `line_outbufn` of the whole buffer: a copy of it. -/
def lineOutbufn (ld : LineDisc) (n : Nat) : List Int8 :=
  (List.range (min n lineBufferSize)).map ld.lineBuffer

section LineIn

variable {ld : LineDisc} {c : Int8}

theorem lineIn_full (h : ld.bufferI = lineBufferSize - 1) :
    lineIn ld c = (ld.evalKey c, -lineInFail) := by
  rw [lineIn]
  exact if_pos h

theorem lineIn_raw (h : ld.bufferI ≠ lineBufferSize - 1) (hmode : ld.mode = .raw) :
    lineIn ld c = (lineType (ld.evalKey c) c, lineSucc) := by
  rw [lineIn]
  refine (if_neg h).trans ?_
  have hm : (ld.evalKey c).mode = .raw := hmode
  simp only [hm]

theorem lineIn_cooked (h : ld.bufferI ≠ lineBufferSize - 1) (hmode : ld.mode = .cooked) :
    lineIn ld c =
      (if (evalKc ld.ts (keycode c)).2 = 0 then ld.evalKey c
        else if c = kcBackspace then lineErase (ld.evalKey c)
        else lineType (ld.evalKey c) c, lineSucc) := by
  rw [lineIn]
  refine (if_neg h).trans ?_
  have hm : (ld.evalKey c).mode = .cooked := hmode
  simp only [hm]
  split_ifs <;> rfl

end LineIn

end Longhorn.LineModel
