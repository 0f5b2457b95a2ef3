import Longhorn.Foundations.ByteMemory
import Longhorn.Foundations.CountedLoops

/-!
The text functions of the VESA driver of `drivers/vesa.c`, for a framebuffer without
padding.  The font is a parameter, together with the memory around it: a `char` is signed, and
those below zero index what stands in front of `vga_font`.
-/

namespace Longhorn.VesaModel

open Longhorn.Foundations.ByteMemory
open Longhorn.Foundations.CountedLoops

def fontWidth : Nat := 8
def fontHeight : Nat := 16
def black : Word := 0x00000000#32
def white : Word := 0x00ffffff#32

/-- The codes of the characters that `vesa_print_char` treats on their own. -/
def newline : Int8 := 10
def tab : Int8 := 9

/-- The pixels by their index, and the indices that have been read or written. -/
structure Framebuffer where
  pixels : Nat → Word
  accesses : List Nat

def Framebuffer.put (fb : Framebuffer) (i : Nat) (color : Word) : Framebuffer :=
  ⟨Function.update fb.pixels i color, i :: fb.accesses⟩

def Framebuffer.copy (fb : Framebuffer) (dst src : Nat) : Framebuffer :=
  ⟨Function.update fb.pixels dst (fb.pixels src), dst :: src :: fb.accesses⟩

/-- The globals of the driver. -/
structure Vesa where
  fb : Framebuffer
  width : Nat
  height : Nat
  numRows : Nat
  numCols : Nat
  cursorX : Nat
  cursorY : Nat
  cursorOn : Nat
  currentX : Nat
  currentY : Nat
  bgColor : Word
  fgColor : Word

/-- `init_vesa`, for a boot record with a 32-bit RGB framebuffer of this size. -/
def initVesa (width height : Nat) (v : Vesa) : Vesa :=
  { v with
    width := width
    height := height
    numCols := width / fontWidth
    numRows := height / fontHeight
    cursorX := 0
    cursorY := 0
    currentX := 0
    currentY := 0
    bgColor := black
    fgColor := white }

def vesaSetCursor (x y : Nat) (v : Vesa) : Vesa :=
  if y ≤ v.numRows ∧ x ≤ v.numCols then
    { v with
      currentX := wrap (fontWidth * x)
      cursorX := x
      currentY := wrap (fontHeight * y)
      cursorY := y }
  else v

/-- `framebuffer_addr + (current_y * width) + current_x`, as an index. -/
def Vesa.pixelPos (v : Vesa) : Nat := wrap (v.currentY * v.width) + v.currentX

/-- The two loops over a cell, for the color of each of its pixels. -/
def drawCell (color : Nat → Nat → Option Word) (pixelPos width : Nat) (fb : Framebuffer) :
    Framebuffer :=
  forUpTo fontHeight (fun i => forUpTo fontWidth fun j fb =>
    match color i j with
    | some c => fb.put (pixelPos + i * width + (fontWidth - j)) c
    | none => fb) fb

def Vesa.draw (v : Vesa) (color : Nat → Nat → Option Word) : Vesa :=
  { v with fb := drawCell color v.pixelPos v.width v.fb }

/-- Fill the cell of the cursor with the background color. -/
def Vesa.fill (v : Vesa) : Vesa := v.draw fun _ _ => some v.bgColor

def Vesa.withCursorX (v : Vesa) (x : Nat) : Vesa := { v with cursorX := x }

/-- `c_font & (1 << j)` in row `i` of a character. -/
def fontBit (font : Int → BitVec 8) (c : Int) (i j : Nat) : Bool :=
  (font (c * fontHeight + i)).getLsbD j

def vesaShowCursor (font : Int → BitVec 8) (v : Vesa) : Vesa :=
  { v.draw fun i j => if fontBit font 219 i j then some v.fgColor else none with cursorOn := 1 }

def vesaHideCursor (v : Vesa) : Vesa := { v.fill with cursorOn := 0 }

def vesaSetCursorVis (font : Int → BitVec 8) (state : Nat) (v : Vesa) : Vesa :=
  if state = 1 then vesaShowCursor font v else vesaHideCursor v

/-- The two loops of `scroll`. -/
def scrollPixels (width height : Nat) (fb : Framebuffer) : Framebuffer :=
  forUpTo (wrapSub height 1) (fun y => forUpTo width fun x fb =>
    fb.copy (wrap (y * width + x)) (wrap ((y + fontHeight) * width + x))) fb

/-- The first `if` of `scroll`: a full line goes on in the next one. -/
def wrapLine (v : Vesa) : Vesa :=
  if v.cursorX ≥ v.numCols then
    { v with
      currentY := wrap (v.currentY + fontHeight)
      cursorY := wrap (v.cursorY + 1)
      currentX := 0
      cursorX := 0 }
  else v

/-- The second `if` of `scroll`. -/
def scrollUp (v : Vesa) : Vesa :=
  if v.cursorY ≥ v.numRows then
    vesaSetCursor 0 (wrapSub v.numRows 1) { v with fb := scrollPixels v.width v.height v.fb }
  else v

def scroll (v : Vesa) : Vesa := scrollUp (wrapLine v)

/-- The column that a tab moves the cursor to. -/
def tabTarget (v : Vesa) : Nat :=
  if v.cursorX ≤ wrapSub v.numCols 4 then wrap (v.cursorX + 4)
  else wrap (v.cursorX + wrapSub v.numCols 4)

/-- `vesa_print_char` for a character that it draws. -/
def printGlyph (font : Int → BitVec 8) (c : Int8) (v : Vesa) : Vesa :=
  let v := v.draw fun i j => some (if fontBit font c.toInt i j then v.fgColor else v.bgColor)
  scroll { v with currentX := wrap (v.currentX + fontWidth), cursorX := wrap (v.cursorX + 1) }

def vesaPrintChar (font : Int → BitVec 8) (c : Int8) (v : Vesa) : Vesa :=
  if c = newline then
    let v := vesaHideCursor v
    scroll (vesaSetCursor 0 (wrap (v.cursorY + 1)) v)
  else if c = tab then
    let v := vesaHideCursor v
    vesaSetCursor (tabTarget v) v.cursorY v
  else printGlyph font c v

def vesaPrintBackspace (font : Int → BitVec 8) (v : Vesa) : Vesa :=
  let oldVis := v.cursorOn % 2 ^ 8
  let v := vesaHideCursor v
  let v := v.withCursorX (wrapSub v.cursorX 1)
  let v := (vesaSetCursor v.cursorX v.cursorY v).fill
  scroll (vesaSetCursorVis font oldVis v)

/-- The two loops of `vesa_clear_screen`. -/
def clearPixels (width height : Nat) (color : Word) (fb : Framebuffer) : Framebuffer :=
  forUpTo height (fun y => forUpTo width fun x fb => fb.put (wrap (y * width + x)) color) fb

def vesaClearScreen (v : Vesa) : Vesa :=
  vesaSetCursor 0 0 { v with fb := clearPixels v.width v.height v.bgColor v.fb }

section Accesses

variable {fb : Framebuffer} {width height a : Nat}

/-- The pixels that the loops over a cell touch. -/
theorem mem_drawCell (color : Nat → Nat → Option Word) (pixelPos : Nat) :
    a ∈ (drawCell color pixelPos width fb).accesses ↔
      (∃ i, i < fontHeight ∧ ∃ j, j < fontWidth ∧ (color i j).isSome ∧
        a = pixelPos + i * width + (fontWidth - j)) ∨ a ∈ fb.accesses := by
  refine mem_log_forUpTo Framebuffer.accesses
    (fun i b => ∃ j, j < fontWidth ∧ (color i j).isSome ∧
      b = pixelPos + i * width + (fontWidth - j)) (fun i t b => ?_) _ _ _
  refine mem_log_forUpTo Framebuffer.accesses
    (fun j b => (color i j).isSome ∧ b = pixelPos + i * width + (fontWidth - j))
    (fun j t b => ?_) _ _ _
  cases hcolor : color i j with
  | none => simp
  | some c => simp [Framebuffer.put]

/-- The pixels that the loops of `scroll` touch: they read 16 rows behind the row they
write. -/
theorem mem_scrollPixels :
    a ∈ (scrollPixels width height fb).accesses ↔
      (∃ y, y < wrapSub height 1 ∧ ∃ x, x < width ∧
        (a = wrap (y * width + x) ∨ a = wrap ((y + fontHeight) * width + x))) ∨
        a ∈ fb.accesses := by
  refine mem_log_forUpTo Framebuffer.accesses
    (fun y b => ∃ x, x < width ∧
      (b = wrap (y * width + x) ∨ b = wrap ((y + fontHeight) * width + x)))
    (fun y t b => ?_) _ _ _
  refine mem_log_forUpTo Framebuffer.accesses
    (fun x b => b = wrap (y * width + x) ∨ b = wrap ((y + fontHeight) * width + x))
    (fun x t b => ?_) _ _ _
  simp [Framebuffer.copy, or_assoc]

theorem mem_clearPixels (color : Word) :
    a ∈ (clearPixels width height color fb).accesses ↔
      (∃ y, y < height ∧ ∃ x, x < width ∧ a = wrap (y * width + x)) ∨ a ∈ fb.accesses := by
  refine mem_log_forUpTo Framebuffer.accesses
    (fun y b => ∃ x, x < width ∧ b = wrap (y * width + x)) (fun y t b => ?_) _ _ _
  refine mem_log_forUpTo Framebuffer.accesses (fun x b => b = wrap (y * width + x))
    (fun x t b => ?_) _ _ _
  simp [Framebuffer.put]

end Accesses

end Longhorn.VesaModel
