import Longhorn.NumberText
import Longhorn.StreamModel

/-!
`printf`, `kprintf` and `sprintf` of `libc/stdio.c`.

The text that `sprintf` makes is shorter than `2^31` characters: its counters `len` and
`chars_written` are of type `int`, and are plain counts here.
-/

namespace Longhorn.FormatModel

open Longhorn.Foundations.CStrings
open Longhorn.StringModel
open Longhorn.NumberText
open Longhorn.StreamModel (CString Stream putStd putsStd)

/-- A word of the argument list, and the string it points to. -/
structure Arg where
  int : Int
  text : CString

abbrev Args := Nat → Arg

def intText (n : Int) : CString where
  text := decimalText n
  nonzero h := zero_notMem_digitChars decimalDigit_ne_zero (List.mem_reverse.mp h)

def hexIntText (n : Int) : CString where
  text := hexText n
  nonzero h := by
    have hdigits : 0 ∉ digitChars 16 hexDigit n := zero_notMem_digitChars hexDigit_ne_zero
    rw [hexText] at h
    simp [hdigits] at h

def boolText (b : Bool) : CString :=
  if b then ⟨[116, 114, 117, 101], by decide⟩ else ⟨[102, 97, 108, 115, 101], by decide⟩

/-- What `printf` and `kprintf` do at a specifier, and the argument they go on with. -/
def convert {σ : Type} (putc : σ → Int8 → σ) (puts : σ → CString → σ) (args : Args) (c : Int8)
    (k : Nat) (out : σ) : σ × Nat :=
  if c = 100 then (puts out (intText (args k).int), k + 1)
  else if c = 120 then (puts out (hexIntText (args k).int), k + 1)
  else if c = 115 then (puts out (args k).text, k + 1)
  else if c = 99 then (putc out (Int8.ofInt (args k).int), k + 1)
  else if c = 66 then (puts out (boolText (decide ((args k).int ≠ 0))), k + 1)
  else (out, k)

/-- The loop of `printf` and that of `kprintf`, which differ in where the characters go. -/
def Args.formatLoop {σ : Type} (args : Args) (m : Memory) (putc : σ → Int8 → σ)
    (puts : σ → CString → σ) (format k : Nat) (out : σ) : Option σ := do
  if (← m format) ≠ 0 then
    if (← m format) = 37 then
      let c ← m (format + 1)
      let r := convert putc puts args c k out
      args |>.formatLoop m putc puts (format + 1 + 1) r.2 r.1
    else
      let c ← m format
      args |>.formatLoop m putc puts (format + 1) k (putc out c)
  else return out
partial_fixpoint

def printf (m : Memory) (format : Nat) (args : Args) (out : Stream) : Option Stream :=
  args.formatLoop m (fun s c => (putStd s c).1) (fun s t => (putsStd s t).1) format 0 out

/-- `kprintf`: the characters it sends to the display. -/
def kprintf (m : Memory) (format : Nat) (args : Args) : Option (List Int8) :=
  args.formatLoop m (fun out c => out ++ [c]) (fun out t => out ++ t.text) format 0 []

/-- What `sprintf` copies at a specifier, `none` where it goes on at once.  C does not define
`va_arg(args, bool)`: `vaBool` is what the compiler makes of it, if anything. -/
def sprintfTemp (vaBool : Int → Option Bool) (args : Args) (c : Int8) (k : Nat) :
    Option (Option CString × Nat) :=
  if c = 100 then some (some (intText (args k).int), k + 1)
  else if c = 120 then some (some (hexIntText (args k).int), k + 1)
  else if c = 115 then some (some (args k).text, k + 1)
  else if c = 66 then (vaBool (args k).int).map fun b => (some (boolText b), k + 1)
  else some (none, k)

/-- The loop of `sprintf`: what it has stored, and `chars_written`. -/
def Args.sprintfLoop (args : Args) (m : Memory) (vaBool : Int → Option Bool)
    (format k : Nat) (str : List Int8) (charsWritten : Nat) : Option (List Int8 × Nat) := do
  if (← m format) ≠ 0 then
    if (← m format) = 37 then
      let c ← m (format + 1)
      match ← sprintfTemp vaBool args c k with
      | (none, k) => args |>.sprintfLoop m vaBool (format + 1 + 1) k str charsWritten
      | (some temp, k) =>
          args |>.sprintfLoop m vaBool (format + 1 + 1) k (str ++ temp.text)
            (charsWritten + temp.text.length)
    else
      let c ← m format
      args |>.sprintfLoop m vaBool (format + 1) k (str ++ [c]) (charsWritten + 1)
  else return (str, charsWritten)
partial_fixpoint

/-- `sprintf`: the string it stores, and its result. -/
def sprintf (m : Memory) (vaBool : Int → Option Bool) (format : Nat) (args : Args) :
    Option (List Int8 × Nat) :=
  args.sprintfLoop m vaBool format 0 [] 0

end Longhorn.FormatModel
