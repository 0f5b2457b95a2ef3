import Mathlib.Data.List.TakeWhile
import Longhorn.Scrolling
import Longhorn.Foundations.TextLines

/-!
The screen of the VESA driver as a window on a text: what the pixels of the framebuffer show
after any calls of the text functions.
-/

namespace Longhorn.TextScreen

open Longhorn.Foundations.ByteMemory
open Longhorn.Foundations.CountedLoops
open Longhorn.Foundations.TextLines
open Longhorn.VesaModel
open Longhorn.VesaSafety

/-- `vesa_set_color` -/
def vesaSetColor (fg bg : Word) (v : Vesa) : Vesa := { v with fgColor := fg, bgColor := bg }

def vesaSetFgColor (fg : Word) (v : Vesa) : Vesa := { v with fgColor := fg }

def vesaSetBgColor (bg : Word) (v : Vesa) : Vesa := { v with bgColor := bg }

def vesaSetDefaultColor (v : Vesa) : Vesa := vesaSetColor white black v

/-- `vesa_print`, for the characters of a buffer. -/
def vesaPrint (font : Int → BitVec 8) (string : List Int8) (v : Vesa) : Vesa :=
  (string.takeWhile (· ≠ 0)).foldl (fun v c => vesaPrintChar font c v) v

def vesaPrintln (font : Int → BitVec 8) (string : List Int8) (v : Vesa) : Vesa :=
  vesaPrintChar font newline (vesaPrint font string v)

inductive TextOp where
  | printChar (c : Int8)
  | printBackspace
  | print (string : List Int8)
  | println (string : List Int8)
  | setColor (fg bg : Word)
  | setFgColor (fg : Word)
  | setBgColor (bg : Word)
  | setDefaultColor
  | showCursor
  | hideCursor
  | clearScreen

def execText (font : Int → BitVec 8) (v : Vesa) : TextOp → Vesa
  | .printChar c => vesaPrintChar font c v
  | .printBackspace => vesaPrintBackspace font v
  | .print string => vesaPrint font string v
  | .println string => vesaPrintln font string v
  | .setColor fg bg => vesaSetColor fg bg v
  | .setFgColor fg => vesaSetFgColor fg v
  | .setBgColor bg => vesaSetBgColor bg v
  | .setDefaultColor => vesaSetDefaultColor v
  | .showCursor => vesaShowCursor font v
  | .hideCursor => vesaHideCursor v
  | .clearScreen => vesaClearScreen v

/-- A character of the text with its colors. -/
structure Glyph where
  code : Int8
  fg : Word
  bg : Word
  deriving DecidableEq

/-- The colors of the pixels of a glyph. -/
def Glyph.pixel (font : Int → BitVec 8) (g : Glyph) (i j : Nat) : Word :=
  if fontBit font g.code.toInt i j then g.fg else g.bg

/-- What the text functions are for: a text, and the colors of what comes next. -/
structure Console (cols : Nat) where
  text : Text Glyph cols
  fg : Word
  bg : Word

namespace Console

variable {cols : Nat}

def init (cols : Nat) : Console cols := ⟨Text.empty, white, black⟩

def withText (c : Console cols) (text : Text Glyph cols) : Console cols := { c with text := text }

/-- The column behind a tab. -/
def tabStop (cols x : Nat) : Nat := if x ≤ cols - 4 then x + 4 else x + (cols - 4)

def char (c : Console cols) (code : Int8) : Console cols :=
  if code = newline then c.withText c.text.erase.newline
  else if code = tab then
    c.withText (c.text.erase.moveTo (tabStop cols c.text.line.length))
  else c.withText (c.text.put ⟨code, c.fg, c.bg⟩)

def print (c : Console cols) (string : List Int8) : Console cols :=
  (string.takeWhile (· ≠ 0)).foldl char c

def exec (c : Console cols) : TextOp → Console cols
  | .printChar code => c.char code
  | .printBackspace => c.withText c.text.backspace
  | .print string => c.print string
  | .println string => (c.print string).char newline
  | .setColor fg bg => { c with fg := fg, bg := bg }
  | .setFgColor fg => { c with fg := fg }
  | .setBgColor bg => { c with bg := bg }
  | .setDefaultColor => { c with fg := white, bg := black }
  | .showCursor => c.withText c.text.erase
  | .hideCursor => c.withText c.text.erase
  | .clearScreen => c.withText Text.empty

end Console

section Pixels

variable {w x y x' y' i i' j j' a : Nat} {fb : Framebuffer} {color : Nat → Nat → Option Word}

/-- The index of a pixel of the cell `(x, y)`: the cells start one column to the right. -/
def cellPixel (w x y i j : Nat) : Nat :=
  (fontHeight * y + i) * w + (fontWidth * x + (fontWidth - j))

/-- A column counted from one and a row are decided by the index. -/
theorem row_column {r r' k k' : Nat} (hk : 1 ≤ k) (hkw : k ≤ w) (hk' : 1 ≤ k') (hkw' : k' ≤ w)
    (h : r * w + k = r' * w + k') : r = r' ∧ k = k' := by
  have hdiv : ∀ {r k : Nat}, 1 ≤ k → k ≤ w → (r * w + k - 1) / w = r := by
    intro r k h1 h2
    rw [Nat.add_sub_assoc h1, Nat.mul_comm, Nat.mul_add_div (by omega),
      Nat.div_eq_of_lt (by omega), Nat.add_zero]
  have hrow : r = r' := by
    rw [← hdiv (r := r) hk hkw, h, hdiv hk' hkw']
  subst hrow
  exact ⟨rfl, Nat.add_left_cancel h⟩

theorem cellPixel_inj (hx : x < w / fontWidth) (hx' : x' < w / fontWidth) (hi : i < fontHeight)
    (hi' : i' < fontHeight) (hj : j < fontWidth) (hj' : j' < fontWidth)
    (h : cellPixel w x y i j = cellPixel w x' y' i' j') :
    x = x' ∧ y = y' ∧ i = i' ∧ j = j' := by
  unfold fontWidth at hx hx' hj hj'
  unfold fontHeight at hi hi'
  obtain ⟨hrow, hcol⟩ := row_column (by unfold fontWidth; omega) (by unfold fontWidth; omega)
    (by unfold fontWidth; omega) (by unfold fontWidth; omega) h
  unfold fontHeight at hrow
  unfold fontWidth at hcol
  omega

/-- What is drawn behind the last column reaches the first one, in the same line or in the
next one. -/
theorem cellPixel_behind (hx' : x' < w / fontWidth) (hi : i < fontHeight) (hi' : i' < fontHeight)
    (hj : j < fontWidth) (hj' : j' < fontWidth)
    (h : cellPixel w (w / fontWidth) y i j = cellPixel w x' y' i' j') :
    x' = 0 ∧ (y' = y ∨ y' = y + 1) := by
  unfold fontWidth at hx' hj hj'
  unfold fontHeight at hi hi'
  by_cases hin : fontWidth * (w / fontWidth) + (fontWidth - j) ≤ w
  · obtain ⟨-, hcol⟩ := row_column (by unfold fontWidth; omega) hin (by unfold fontWidth; omega)
      (by unfold fontWidth; omega) h
    unfold fontWidth at hcol
    omega
  · obtain ⟨k, hk⟩ := Nat.exists_eq_add_of_lt (Nat.lt_of_not_le hin)
    have hnext : cellPixel w (w / fontWidth) y i j =
        (fontHeight * y + i + 1) * w + (k + 1) := by
      rw [cellPixel, hk, Nat.succ_mul]
      omega
    unfold fontWidth at hk
    obtain ⟨hrow, hcol⟩ := row_column (by omega) (by omega) (by unfold fontWidth; omega)
      (by unfold fontWidth; omega) (hnext.symm.trans h)
    unfold fontHeight at hrow
    unfold fontWidth at hcol
    omega

theorem pixelPos_add (w x y i j : Nat) :
    fontHeight * y * w + fontWidth * x + i * w + (fontWidth - j) = cellPixel w x y i j := by
  rw [cellPixel, Nat.add_mul]
  omega

theorem drawCell_of_ne (ha : ∀ i j, i < fontHeight → j < fontWidth → a ≠ cellPixel w x y i j) :
    (drawCell color (fontHeight * y * w + fontWidth * x) w fb).pixels a = fb.pixels a := by
  refine forUpTo_invariant (fun _ t => Framebuffer.pixels t a = fb.pixels a) rfl fun i t hi ht => ?_
  refine forUpTo_invariant (fun _ t => Framebuffer.pixels t a = fb.pixels a) ht fun j t hj ht => ?_
  cases color i j with
  | none => exact ht
  | some c =>
      rw [pixelPos_add]
      exact (Function.update_of_ne (ha i j hi hj) _ _).trans ht

/-- The pixels in front of `(i, j)` have the colors `p`. -/
def DrawnTo (w x y : Nat) (p : Nat → Nat → Word) (i j : Nat) (fb : Framebuffer) : Prop :=
  ∀ i' j', i' < fontHeight → j' < fontWidth → (i' < i ∨ i' = i ∧ j' < j) →
    fb.pixels (cellPixel w x y i' j') = p i' j'

theorem DrawnTo.row {p : Nat → Nat → Word} {i : Nat} (h : DrawnTo w x y p i fontWidth fb) :
    DrawnTo w x y p (i + 1) 0 fb :=
  fun i' j' hi' hj' _ => h i' j' hi' hj' (by omega)

/-- The cell `(x, y)` shows the colors `p`. -/
def ShowsCell (w x y : Nat) (p : Nat → Nat → Word) (fb : Framebuffer) : Prop :=
  ∀ i j, i < fontHeight → j < fontWidth → fb.pixels (cellPixel w x y i j) = p i j

theorem drawCell_same (hx : x < w / fontWidth) (p : Nat → Nat → Word) :
    ShowsCell w x y p (drawCell (fun i j => some (p i j)) (fontHeight * y * w + fontWidth * x) w
      fb) := by
  have hall : DrawnTo w x y p fontHeight 0 (drawCell (fun i j => some (p i j))
      (fontHeight * y * w + fontWidth * x) w fb) := by
    refine forUpTo_invariant (fun i => DrawnTo w x y p i 0) (fun _ _ _ _ h => by omega)
      fun i t hi ht => ?_
    refine DrawnTo.row (forUpTo_invariant (DrawnTo w x y p i) ht fun j t hj ht => ?_)
    intro i' j' hi' hj' h
    rw [pixelPos_add]
    by_cases hsame : i' = i ∧ j' = j
    · obtain ⟨rfl, rfl⟩ := hsame
      exact Function.update_self _ _ _
    · refine (Function.update_of_ne (fun heq => hsame ?_) _ _).trans
        (ht i' j' hi' hj' (by omega))
      obtain ⟨-, -, hii, hjj⟩ := cellPixel_inj hx hx hi' hi hj' hj heq
      exact ⟨hii, hjj⟩
  exact fun i j hi hj => hall i j hi hj (Or.inl hi)

theorem ShowsCell.congr {p : Nat → Nat → Word} {fb' : Framebuffer} (h : ShowsCell w x y p fb)
    (hfb : ∀ i j, i < fontHeight → j < fontWidth →
      fb'.pixels (cellPixel w x y i j) = fb.pixels (cellPixel w x y i j)) :
    ShowsCell w x y p fb' :=
  fun i j hi hj => (hfb i j hi hj).trans (h i j hi hj)

theorem ShowsCell.drawCell_other {p : Nat → Nat → Word} (h : ShowsCell w x' y' p fb)
    (hx : x < w / fontWidth) (hx' : x' < w / fontWidth) (hne : ¬ (x' = x ∧ y' = y)) :
    ShowsCell w x' y' p (drawCell color (fontHeight * y * w + fontWidth * x) w fb) := by
  refine h.congr fun i' j' hi' hj' => drawCell_of_ne fun i j hi hj heq => hne ?_
  obtain ⟨hxx, hyy, -, -⟩ := cellPixel_inj hx' hx hi' hi hj' hj heq
  exact ⟨hxx, hyy⟩

/-- Drawing behind the last column keeps what the cells show that it does not reach. -/
theorem ShowsCell.drawCell_behind {p : Nat → Nat → Word} (h : ShowsCell w x' y' p fb)
    (hx' : x' < w / fontWidth) (hne : ¬ (x' = 0 ∧ (y' = y ∨ y' = y + 1))) :
    ShowsCell w x' y' p
      (drawCell color (fontHeight * y * w + fontWidth * (w / fontWidth)) w fb) := by
  refine h.congr fun i' j' hi' hj' => drawCell_of_ne fun i j hi hj heq => hne ?_
  exact cellPixel_behind hx' hi hi' hj hj' heq.symm

end Pixels

section Scroll

variable {w h x y n : Nat} {fb fb' : Framebuffer}

/-- The first `n` pixels hold what was one text row further down. -/
def Shifted (w : Nat) (fb : Framebuffer) (n : Nat) (fb' : Framebuffer) : Prop :=
  (∀ a, a < n → fb'.pixels a = fb.pixels (a + fontHeight * w)) ∧
    ∀ a, n ≤ a → fb'.pixels a = fb.pixels a

theorem Shifted.copy (hs : Shifted w fb n fb') :
    Shifted w fb (n + 1) (fb'.copy n (n + fontHeight * w)) := by
  constructor
  · intro a ha
    rcases Nat.lt_succ_iff_lt_or_eq.mp ha with hlt | rfl
    · exact (Function.update_of_ne (by omega) _ _).trans (hs.1 a hlt)
    · exact (Function.update_self _ _ _).trans (hs.2 _ (Nat.le_add_right _ _))
  · intro a ha
    exact (Function.update_of_ne (by omega) _ _).trans (hs.2 a (by omega))

variable (fb) in
/-- The loops of `scroll` move every pixel they write, those behind the screen included. -/
theorem scrollPixels_shifted (hfits : (h + fontHeight) * w ≤ 2 ^ 32) (hh : 0 < h)
    (hlt : h < 2 ^ 32) : Shifted w fb ((h - 1) * w) (scrollPixels w h fb) := by
  rw [scrollPixels, wrapSub_of_le hlt hh]
  refine forUpTo_invariant (fun y => Shifted w fb (y * w)) (s := fb) ?_ fun y t hy ht => ?_
  · rw [Nat.zero_mul]
    exact ⟨fun a ha => absurd ha (Nat.not_lt_zero a), fun _ _ => rfl⟩
  · rw [Nat.succ_mul]
    refine forUpTo_invariant (fun x => Shifted w fb (y * w + x)) ht fun x t hx ht => ?_
    have hrow : (y + fontHeight) * w + w ≤ (h + fontHeight) * w := by
      rw [← Nat.succ_mul]
      exact Nat.mul_le_mul_right w (by omega)
    rw [Nat.add_mul] at hrow ⊢
    rw [wrap_of_lt (by omega), wrap_of_lt (by omega), Nat.add_right_comm]
    exact ht.copy

/-- `scroll` moves every cell up by one row. -/
theorem ShowsCell.scrollPixels {p : Nat → Nat → Word} (hfits : (h + fontHeight) * w ≤ 2 ^ 32)
    (hlt : h < 2 ^ 32) (hx : x < w / fontWidth) (hy : y + 1 < h / fontHeight)
    (hs : ShowsCell w x (y + 1) p fb) : ShowsCell w x y p (VesaModel.scrollPixels w h fb) := by
  intro i j hi hj
  have hh : 0 < h := by
    unfold fontHeight at hy
    omega
  have hshift := (scrollPixels_shifted fb hfits hh hlt).1 (cellPixel w x y i j)
  have hlast : (fontHeight * y + i) * w + w + w ≤ (h - 1) * w := by
    rw [← Nat.succ_mul, ← Nat.succ_mul]
    refine Nat.mul_le_mul_right w ?_
    unfold fontHeight at *
    omega
  have hbelow : cellPixel w x y i j + fontHeight * w = cellPixel w x (y + 1) i j := by
    rw [cellPixel, cellPixel, Nat.mul_succ, Nat.add_right_comm _ fontHeight,
      Nat.add_mul _ fontHeight]
    omega
  rw [hshift ?_, hbelow]
  · exact hs i j hi hj
  · rw [cellPixel]
    unfold fontWidth at *
    omega

end Scroll

section Lines

variable {w h row n : Nat} {font : Int → BitVec 8} {fb : Framebuffer} {v : Vesa}
  {lines : List (List (Option Glyph))}

/-- The cells show the lines, the first one in a row. -/
def Shows (font : Int → BitVec 8) (w : Nat) (lines : List (List (Option Glyph))) (row : Nat)
    (fb : Framebuffer) : Prop :=
  ∀ x y g, At lines row x y g → ShowsCell w x y (g.pixel font) fb

theorem Shows.draw {t : Text Glyph (w / fontWidth)} (hs : Shows font w t.lines row fb)
    (color : Nat → Nat → Option Word) :
    Shows font w t.erase.lines row
      (drawCell color (fontHeight * row * w + fontWidth * t.line.length) w fb) := by
  intro x y g hat
  have hx := hat.lt t.erase.lines_le
  rw [Text.erase] at hat
  split at hat
  · next hlt =>
      refine (hs x y g hat).drawCell_other hlt hx ?_
      rintro ⟨rfl, rfl⟩
      exact Nat.lt_irrefl _ (At.lt_line hat)
  · next hfull =>
      have hlen : t.line.length = w / fontWidth :=
        Nat.le_antisymm t.line_le (Nat.le_of_not_lt hfull)
      obtain ⟨hat', hne⟩ := At.of_set hat
      rw [hlen]
      refine (hs x y g hat').drawCell_behind hx ?_
      rintro ⟨rfl, rfl | rfl⟩
      · exact hne ⟨rfl, rfl⟩
      · exact Nat.not_succ_le_self _ hat.le_row

theorem Placed.draw_fb {x y : Nat} (hp : Placed w h v x y) (hfits : (h + fontHeight) * w ≤ 2 ^ 32)
    (hy : y < h / fontHeight) (hw : 0 < w) (color : Nat → Nat → Option Word) :
    (v.draw color).fb = drawCell color (fontHeight * y * w + fontWidth * x) w v.fb := by
  have hrow : fontHeight * y * w < (h + fontHeight) * w := by
    refine Nat.mul_lt_mul_of_pos_right ?_ hw
    unfold fontHeight at *
    omega
  rw [Vesa.draw, hp.pixelPos, wrap_of_lt (by omega), hp.width]

/-- The cursor has come to the next line, which may be behind the last row. -/
theorem Shows.scrollUp (hg : Geometry w h) (hfits : (h + fontHeight) * w ≤ 2 ^ 32)
    (hp : Placed w h v 0 (min n (h / fontHeight - 1) + 1))
    (hs : Shows font w lines (min n (h / fontHeight - 1)) v.fb)
    (hlines : ∀ l ∈ lines, l.length ≤ w / fontWidth) :
    Placed w h (VesaModel.scrollUp v) 0 (min (n + 1) (h / fontHeight - 1)) ∧
      Shows font w ([] :: lines) (min (n + 1) (h / fontHeight - 1)) (VesaModel.scrollUp v).fb := by
  have hone := hg.one_le
  by_cases hlast : n < h / fontHeight - 1
  · rw [Nat.min_eq_left hlast.le] at hp hs
    rw [Nat.min_eq_left hlast, hp.scrollUp_of_lt (by omega)]
    exact ⟨hp, fun x y g hat => hs x y g hat.of_next⟩
  · have hrow : min n (h / fontHeight - 1) = h / fontHeight - 1 := by omega
    have hrow' : min (n + 1) (h / fontHeight - 1) = h / fontHeight - 1 := by omega
    rw [hrow] at hp hs
    rw [hrow']
    have hheight := hg.height_lt
    have hge : v.numRows ≤ v.cursorY := by
      rw [hp.cursorY, hp.numRows]
      omega
    constructor
    · have hrows : wrapSub v.numRows 1 = h / fontHeight - 1 := by
        rw [hp.numRows]
        refine wrapSub_of_le ?_ hone
        unfold fontHeight
        omega
      rw [VesaModel.scrollUp, if_pos hge, hrows]
      exact (hp.toSized.withFb _).setCursor hg (Nat.zero_le _) (Nat.sub_le _ _)
    · intro x y g hat
      have hx : x < w / fontWidth := by
        refine hat.lt fun l hl => ?_
        rcases List.mem_cons.mp hl with rfl | hl
        · exact Nat.zero_le _
        · exact hlines l hl
      have hbelow := hat.of_scrolled
      have hle := hbelow.le_row
      rw [scrollUp_fb_of_ge hge, hp.width, hp.height]
      exact (hs x (y + 1) g hbelow).scrollPixels hfits hheight hx (by omega)

end Lines

section Colors

variable {v : Vesa} {fg bg : Word}

def Colored (fg bg : Word) (v : Vesa) : Prop := v.fgColor = fg ∧ v.bgColor = bg

theorem Colored.setCursor (h : Colored fg bg v) (x y : Nat) :
    Colored fg bg (vesaSetCursor x y v) := by
  rw [vesaSetCursor]
  split <;> exact h

theorem Colored.withFb (h : Colored fg bg v) (fb : Framebuffer) :
    Colored fg bg { v with fb := fb } :=
  ⟨h.1, h.2⟩

theorem Colored.scrollUp (h : Colored fg bg v) : Colored fg bg (scrollUp v) := by
  rw [VesaModel.scrollUp]
  split
  · exact (h.withFb _).setCursor _ _
  · exact h

theorem Colored.wrapLine (h : Colored fg bg v) : Colored fg bg (wrapLine v) := by
  rw [VesaModel.wrapLine]
  split <;> exact h

theorem Colored.setCursorVis (h : Colored fg bg v) (font : Int → BitVec 8) (state : Nat) :
    Colored fg bg (vesaSetCursorVis font state v) := by
  rw [vesaSetCursorVis]
  split <;> exact h

theorem Placed.colors {w h x y : Nat} (hp : Placed w h v x y) (fg bg : Word) :
    Placed w h { v with fgColor := fg, bgColor := bg } x y :=
  ⟨⟨hp.width, hp.height, hp.numCols, hp.numRows⟩, hp.cursorX, hp.cursorY, hp.currentX,
    hp.currentY⟩

end Colors

/-- A screen whose indices do not wrap around, one text row behind it included. -/
structure ScreenFits (w h : Nat) : Prop extends Geometry w h where
  fits : (h + fontHeight) * w ≤ 2 ^ 32

/-- The driver shows the end of a text: the cursor is behind it, and every character of the last
lines is in the cell where it belongs. -/
structure Represents (w h : Nat) (font : Int → BitVec 8) (v : Vesa)
    (c : Console (w / fontWidth)) : Prop where
  placed : Placed w h v c.text.line.length (c.text.row (h / fontHeight))
  colored : Colored c.fg c.bg v
  shows : Shows font w c.text.lines (c.text.row (h / fontHeight)) v.fb

section Steps

variable {w h : Nat} {font : Int → BitVec 8} {v : Vesa} {c : Console (w / fontWidth)}

theorem ScreenFits.row_lt (hf : ScreenFits w h) (t : Text Glyph (w / fontWidth)) :
    t.row (h / fontHeight) < h / fontHeight := by
  have hone := hf.one_le
  rw [Text.row]
  omega

theorem ScreenFits.width_pos (hf : ScreenFits w h) : 0 < w := by
  have hfour := hf.four_le
  unfold fontWidth at hfour
  omega

theorem Represents.draw (hf : ScreenFits w h) (hr : Represents w h font v c)
    (color : Nat → Nat → Option Word) :
    Represents w h font (v.draw color) (c.withText c.text.erase) := by
  have hrow : c.text.erase.row (h / fontHeight) = c.text.row (h / fontHeight) := by
    rw [Text.row, Text.row, Text.erase_above]
  refine ⟨?_, hr.colored, ?_⟩
  · simp only [Console.withText, hrow, Text.length_erase_line]
    exact hr.placed.draw color
  · simp only [Console.withText, hrow]
    rw [Placed.draw_fb hr.placed hf.fits (hf.row_lt _) hf.width_pos]
    exact hr.shows.draw color

theorem Represents.withCursorOn (hr : Represents w h font v c) (n : Nat) :
    Represents w h font { v with cursorOn := n } c :=
  ⟨hr.placed.withCursorOn n, hr.colored, hr.shows⟩

theorem Represents.hideCursor (hf : ScreenFits w h) (hr : Represents w h font v c) :
    Represents w h font (vesaHideCursor v) (c.withText c.text.erase) :=
  (hr.draw hf _).withCursorOn 0

theorem Represents.showCursor (hf : ScreenFits w h) (hr : Represents w h font v c) :
    Represents w h font (vesaShowCursor font v) (c.withText c.text.erase) :=
  (hr.draw hf _).withCursorOn 1

/-- Once the cursor is at the start of the next line, `scroll` finishes a newline. -/
theorem Represents.nextLine {u : Vesa} {text : Text Glyph (w / fontWidth)} (hf : ScreenFits w h)
    (hp : Placed w h u 0 (text.row (h / fontHeight) + 1)) (hcolored : Colored c.fg c.bg u)
    (hs : Shows font w text.lines (text.row (h / fontHeight)) u.fb) :
    Represents w h font (scrollUp u) (c.withText text.newline) := by
  obtain ⟨hp', hs'⟩ := hs.scrollUp hf.toGeometry hf.fits hp text.lines_le
  exact ⟨hp', hcolored.scrollUp, hs'⟩

theorem Represents.printNewline (hf : ScreenFits w h) (hr : Represents w h font v c) :
    Represents w h font (vesaPrintChar font newline v) (c.char newline) := by
  have hhide := hr.hideCursor hf
  have hrow := hf.row_lt c.text.erase
  have hfour := hf.four_le
  have hheight := hf.height_lt
  have hnext : wrap ((vesaHideCursor v).cursorY + 1) = c.text.erase.row (h / fontHeight) + 1 := by
    rw [hhide.placed.cursorY]
    refine wrap_of_lt ?_
    change c.text.erase.row (h / fontHeight) + 1 < 2 ^ 32
    unfold fontHeight at *
    omega
  have hmoved := hhide.placed.toSized.setCursor hf.toGeometry (Nat.zero_le (w / fontWidth))
    (show c.text.erase.row (h / fontHeight) + 1 ≤ h / fontHeight from hrow)
  rw [vesaPrintChar, if_pos rfl, Console.char, if_pos rfl]
  simp only [hnext]
  rw [scroll, hmoved.wrapLine_of_lt (by omega)]
  refine Represents.nextLine hf hmoved (hhide.colored.setCursor _ _) ?_
  rw [vesaSetCursor_fb]
  exact hhide.shows

theorem Represents.setCursorVis (hf : ScreenFits w h) (hr : Represents w h font v c)
    (hlt : c.text.line.length < w / fontWidth) (state : Nat) :
    Represents w h font (vesaSetCursorVis font state v) c := by
  have herase : c.withText c.text.erase = c := by rw [Text.erase_of_lt hlt, Console.withText]
  rw [vesaSetCursorVis]
  split
  · exact herase ▸ hr.showCursor hf
  · exact herase ▸ hr.hideCursor hf

theorem Represents.fill (hf : ScreenFits w h) (hr : Represents w h font v c)
    (hlt : c.text.line.length < w / fontWidth) : Represents w h font v.fill c := by
  have herase : c.withText c.text.erase = c := by rw [Text.erase_of_lt hlt, Console.withText]
  exact herase ▸ hr.draw hf _

/-- Without wrapping, the column of a tab is that of the text. -/
theorem Represents.tabTarget (hf : ScreenFits w h) (hr : Represents w h font v c) :
    tabTarget v = Console.tabStop (w / fontWidth) c.text.line.length := by
  have hwidth := hf.width_lt
  have hfour := hf.four_le
  have hle := c.text.line_le
  have hsub : wrapSub (w / fontWidth) 4 = w / fontWidth - 4 := by
    refine wrapSub_of_le ?_ hfour
    unfold fontWidth
    omega
  rw [VesaModel.tabTarget, hr.placed.cursorX, hr.placed.numCols, hsub, Console.tabStop]
  unfold fontWidth at *
  split
  · exact wrap_of_lt (by omega)
  · exact wrap_of_lt (by omega)

theorem Represents.printTab (hf : ScreenFits w h) (hr : Represents w h font v c) :
    Represents w h font (vesaPrintChar font tab v) (c.char tab) := by
  have hhide := hr.hideCursor hf
  have hy := hf.row_lt c.text.erase
  have htarget := hhide.tabTarget hf
  simp only [Console.withText, Text.length_erase_line] at htarget
  have hle : c.text.erase.line.length ≤ Console.tabStop (w / fontWidth) c.text.line.length := by
    rw [Text.length_erase_line, Console.tabStop]
    split <;> omega
  have hcursor : (vesaHideCursor v).cursorY = c.text.erase.row (h / fontHeight) :=
    hhide.placed.cursorY
  rw [vesaPrintChar, if_neg (by decide), if_pos rfl, Console.char, if_neg (by decide), if_pos rfl]
  simp only [htarget, hcursor]
  by_cases hin : Console.tabStop (w / fontWidth) c.text.line.length ≤ w / fontWidth
  · have hmoved := hhide.placed.toSized.setCursor hf.toGeometry hin hy.le
    rw [Text.moveTo, dif_pos ⟨hle, hin⟩]
    refine ⟨?_, hhide.colored.setCursor _ _, fun x y g hat => ?_⟩
    · simp only [Console.withText, List.length_append, List.length_replicate,
        Nat.add_sub_cancel' hle]
      exact hmoved
    · rw [vesaSetCursor_fb]
      exact hhide.shows x y g hat.of_replicate
  · rw [hhide.placed.toSized.setCursor_of_gt (Nat.lt_of_not_le hin), Text.moveTo,
      dif_neg fun h => hin h.2]
    exact hhide

theorem Represents.printGlyph_of_lt (hf : ScreenFits w h) (hr : Represents w h font v c)
    (hlt : c.text.line.length < w / fontWidth) (code : Int8) :
    Represents w h font (printGlyph font code v) (c.withText (c.text.put ⟨code, c.fg, c.bg⟩)) := by
  obtain ⟨u, hu⟩ : ∃ u, u = v.draw fun i j =>
    some (if fontBit font code.toInt i j then v.fgColor else v.bgColor) := ⟨_, rfl⟩
  have hplaced := hr.placed.advance hf.toGeometry hlt fun i j =>
    some (if fontBit font code.toInt i j then v.fgColor else v.bgColor)
  have hcolored : Colored c.fg c.bg u := hu ▸ hr.colored
  have hshows : Shows font w ((c.text.line ++ [some ⟨code, c.fg, c.bg⟩]) :: c.text.above)
      (c.text.row (h / fontHeight)) u.fb := by
    rw [hu, Placed.draw_fb hr.placed hf.fits (hf.row_lt _) hf.width_pos, hr.colored.1,
      hr.colored.2]
    intro x y g hat
    have hx := hat.lt fun l hl => by
      rcases List.mem_cons.mp hl with rfl | hl
      · exact Text.length_concat_le hlt _
      · exact c.text.above_le l hl
    rcases hat.of_concat with ⟨rfl, rfl, hg⟩ | ⟨hat', hne⟩
    · obtain rfl := Option.some_inj.mp hg
      exact drawCell_same hlt _
    · exact (hr.shows x y g hat').drawCell_other hlt hx hne
  have hlen : (c.text.line ++ [some (⟨code, c.fg, c.bg⟩ : Glyph)]).length =
      c.text.line.length + 1 := by
    rw [List.length_append, List.length_singleton]
  rw [VesaModel.printGlyph]
  rw [← hu] at hplaced
  simp only [← hu]
  by_cases hroom : c.text.line.length + 1 < w / fontWidth
  · rw [hplaced.scroll_of_lt hroom (hf.row_lt _), Text.put, dif_pos hlt]
    simp only [hlen, hroom, ↓reduceIte]
    refine ⟨?_, ⟨hcolored.1, hcolored.2⟩, hshows⟩
    simp only [Console.withText, hlen]
    exact hplaced
  · have hline := hplaced.toSized.wrapLine hf.toGeometry
      (by rw [hplaced.cursorX]; omega) hplaced.cursorY hplaced.currentY (hf.row_lt _)
    rw [scroll, Text.put, dif_pos hlt]
    simp only [hlen, hroom, ↓reduceIte]
    refine Represents.nextLine hf hline (Colored.wrapLine ⟨hcolored.1, hcolored.2⟩) ?_
    rw [wrapLine_fb]
    exact hshows

/-- A character behind the last column is lost, and the line is over. -/
theorem Represents.printGlyph_of_full (hf : ScreenFits w h) (hr : Represents w h font v c)
    (hfull : ¬ c.text.line.length < w / fontWidth) (code : Int8) :
    Represents w h font (printGlyph font code v) (c.withText (c.text.put ⟨code, c.fg, c.bg⟩)) := by
  have hwidth := hf.width_lt
  have hle := c.text.line_le
  have hdraw := hr.draw hf fun i j =>
    some (if fontBit font code.toInt i j then v.fgColor else v.bgColor)
  obtain ⟨u, hu⟩ : ∃ u, u = v.draw fun i j =>
    some (if fontBit font code.toInt i j then v.fgColor else v.bgColor) := ⟨_, rfl⟩
  rw [← hu] at hdraw
  have hx : w / fontWidth ≤ wrap (u.cursorX + 1) := by
    rw [hdraw.placed.cursorX]
    simp only [Console.withText, Text.length_erase_line]
    unfold fontWidth at *
    rw [wrap_of_lt (by omega)]
    omega
  have hsized : Sized w h
      { u with currentX := wrap (u.currentX + fontWidth), cursorX := wrap (u.cursorX + 1) } :=
    ⟨hdraw.placed.width, hdraw.placed.height, hdraw.placed.numCols, hdraw.placed.numRows⟩
  have hline := hsized.wrapLine hf.toGeometry hx hdraw.placed.cursorY hdraw.placed.currentY
    (hf.row_lt _)
  rw [VesaModel.printGlyph, Text.put, dif_neg hfull]
  simp only [← hu]
  rw [scroll]
  refine Represents.nextLine hf hline
    (Colored.wrapLine ⟨hdraw.colored.1, hdraw.colored.2⟩) ?_
  rw [wrapLine_fb]
  exact hdraw.shows

theorem Represents.printChar (hf : ScreenFits w h) (hr : Represents w h font v c) (code : Int8) :
    Represents w h font (vesaPrintChar font code v) (c.char code) := by
  by_cases hnewline : code = newline
  · rw [hnewline]
    exact hr.printNewline hf
  by_cases htab : code = tab
  · rw [htab]
    exact hr.printTab hf
  rw [vesaPrintChar, if_neg hnewline, if_neg htab, Console.char, if_neg hnewline, if_neg htab]
  by_cases hlt : c.text.line.length < w / fontWidth
  · exact hr.printGlyph_of_lt hf hlt code
  · exact hr.printGlyph_of_full hf hlt code

theorem Represents.backspace_first (hf : ScreenFits w h) (hr : Represents w h font v c)
    (hnil : c.text.line = []) :
    Represents w h font (vesaPrintBackspace font v) (c.withText c.text.newline) := by
  have hfour := hf.four_le
  have hlen : c.text.line.length = 0 := by rw [hnil, List.length_nil]
  have hlt : c.text.line.length < w / fontWidth := by omega
  have hplaced := hr.placed
  rw [hlen] at hplaced
  have hhide : Represents w h font (vesaHideCursor v) c := by
    have herase := hr.hideCursor hf
    rwa [Text.erase_of_lt hlt, Console.withText] at herase
  have hvis := (hhide.fill hf hlt).setCursorVis hf hlt (v.cursorOn % 2 ^ 8)
  have hline := (hvis.placed.toSized.withCursorX (wrapSub 0 1)).wrapLine hf.toGeometry
    (lt_wrapSub_zero_one hf.toGeometry).le hvis.placed.cursorY hvis.placed.currentY (hf.row_lt _)
  rw [hplaced.printBackspace_first hf.toGeometry, scroll]
  refine Represents.nextLine hf hline
    (Colored.wrapLine ⟨hvis.colored.1, hvis.colored.2⟩) ?_
  rw [wrapLine_fb]
  exact hvis.shows

theorem Represents.printBackspace (hf : ScreenFits w h) (hr : Represents w h font v c) :
    Represents w h font (vesaPrintBackspace font v) (c.withText c.text.backspace) := by
  rw [Text.backspace]
  split
  · next hnil => exact hr.backspace_first hf hnil
  · next hne =>
      have hpos := List.length_pos_iff.mpr hne
      have hle := c.text.line_le
      have hwidth := hf.width_lt
      have hhide := hr.hideCursor hf
      have hy := hf.row_lt c.text.erase
      have hleft : wrapSub c.text.line.length 1 = c.text.line.length - 1 := by
        refine wrapSub_of_le ?_ hpos
        unfold fontWidth at hle
        omega
      have hrow : c.text.erase.row (h / fontHeight) = c.text.row (h / fontHeight) := by
        rw [Text.row, Text.row, Text.erase_above]
      have hlen : c.text.erase.line.dropLast.length = c.text.line.length - 1 := by
        rw [List.length_dropLast, Text.length_erase_line]
      have hmoved := (hhide.placed.toSized.withCursorX (c.text.line.length - 1)).setCursor
        hf.toGeometry (show c.text.line.length - 1 ≤ _ by omega) hy.le
      rw [hr.placed.printBackspace_eq, hleft, ← hrow]
      -- the cursor is on the place that is taken off
      obtain ⟨u, hu⟩ : ∃ u, u = vesaSetCursor (c.text.line.length - 1)
        (c.text.erase.row (h / fontHeight))
        ((vesaHideCursor v).withCursorX (c.text.line.length - 1)) := ⟨_, rfl⟩
      rw [← hu] at hmoved ⊢
      obtain ⟨t, ht⟩ : ∃ t, t = (⟨c.text.erase.above, c.text.erase.line.dropLast,
        c.text.erase.above_le, Nat.le_trans (Nat.le_of_eq List.length_dropLast)
          (Nat.le_trans (Nat.sub_le _ _) c.text.erase.line_le)⟩ : Text Glyph (w / fontWidth)) :=
        ⟨_, rfl⟩
      have hrep : Represents w h font u (c.withText t) := by
        rw [ht]
        refine ⟨?_, ?_, fun x y g hat => ?_⟩
        · simp only [Console.withText, hlen]
          exact hmoved
        · rw [hu]
          have hcolored : Colored c.fg c.bg
              ((vesaHideCursor v).withCursorX (c.text.line.length - 1)) :=
            ⟨hhide.colored.1, hhide.colored.2⟩
          exact hcolored.setCursor _ _
        · rw [hu, vesaSetCursor_fb]
          exact hhide.shows x y g (At.of_dropLast hat).1
      have hlt : (c.withText t).text.line.length < w / fontWidth := by
        simp only [Console.withText, ht, hlen]
        omega
      have hvis := (hrep.fill hf hlt).setCursorVis hf hlt (v.cursorOn % 2 ^ 8)
      rw [← ht, hvis.placed.scroll_of_lt hlt (hf.row_lt _)]
      exact hvis

theorem shows_empty {row : Nat} {fb : Framebuffer} :
    Shows font w (Text.empty : Text Glyph (w / fontWidth)).lines row fb := by
  rintro x y g ⟨-, l, hl, hx⟩
  have hmem := List.mem_of_getElem? hl
  rw [Text.lines, Text.empty, List.mem_singleton] at hmem
  subst hmem
  exact absurd hx (by simp)

theorem row_empty (rows : Nat) : (Text.empty : Text Glyph (w / fontWidth)).row rows = 0 :=
  Nat.zero_min _

theorem Represents.clearScreen (hf : ScreenFits w h) (hr : Represents w h font v c) :
    Represents w h font (vesaClearScreen v) (c.withText Text.empty) := by
  have hcolored := hr.colored.withFb (clearPixels v.width v.height v.bgColor v.fb)
  refine ⟨?_, hcolored.setCursor 0 0, shows_empty⟩
  simp only [Console.withText, row_empty]
  exact (hr.placed.toSized.withFb _).setCursor hf.toGeometry (Nat.zero_le _) (Nat.zero_le _)

variable (font) in
theorem represents_init (hinit : VesaInit w h v) :
    Represents w h font v (Console.init (w / fontWidth)) := by
  obtain ⟨-, -, -, -, v₀, -, rfl⟩ := hinit
  refine ⟨?_, ⟨rfl, rfl⟩, shows_empty⟩
  simp only [Console.init, row_empty]
  exact ⟨⟨rfl, rfl, rfl, rfl⟩, rfl, rfl, rfl, rfl⟩

theorem Represents.print (hf : ScreenFits w h) (hr : Represents w h font v c)
    (string : List Int8) : Represents w h font (vesaPrint font string v) (c.print string) := by
  rw [vesaPrint, Console.print]
  induction string.takeWhile (· ≠ 0) generalizing v c with
  | nil => exact hr
  | cons code rest ih => exact ih (hr.printChar hf code)

/-- One call of a text function does to the screen what it does to the text. -/
theorem Represents.exec (hf : ScreenFits w h) (hr : Represents w h font v c) (op : TextOp) :
    Represents w h font (execText font v op) (c.exec op) := by
  cases op with
  | printChar code => exact hr.printChar hf code
  | printBackspace => exact hr.printBackspace hf
  | print string => exact hr.print hf string
  | println string => exact (hr.print hf string).printChar hf newline
  | setColor fg bg => exact ⟨Placed.colors hr.placed fg bg, ⟨rfl, rfl⟩, hr.shows⟩
  | setFgColor fg => exact ⟨Placed.colors hr.placed fg v.bgColor, ⟨rfl, hr.colored.2⟩, hr.shows⟩
  | setBgColor bg => exact ⟨Placed.colors hr.placed v.fgColor bg, ⟨hr.colored.1, rfl⟩, hr.shows⟩
  | setDefaultColor => exact ⟨Placed.colors hr.placed white black, ⟨rfl, rfl⟩, hr.shows⟩
  | showCursor => exact hr.showCursor hf
  | hideCursor => exact hr.hideCursor hf
  | clearScreen => exact hr.clearScreen hf

end Steps

section Runs

variable {w h : Nat} {font : Int → BitVec 8} {v : Vesa}

theorem ScreenFits.of_init (hinit : VesaInit w h v) (hfits : (h + fontHeight) * w ≤ 2 ^ 32) :
    ScreenFits w h :=
  ⟨hinit.geometry, hfits⟩

theorem Represents.run {c : Console (w / fontWidth)} (hf : ScreenFits w h)
    (hr : Represents w h font v c) (ops : List TextOp) :
    Represents w h font (ops.foldl (execText font) v) (ops.foldl Console.exec c) := by
  induction ops generalizing v c with
  | nil => exact hr
  | cons op ops ih => exact ih (hr.exec hf op)

variable (font) in
/-- After any calls the framebuffer shows the end of the text: every character of the last lines
has its pixels in the cell where it belongs, whatever has been scrolled, taken back or broken
into lines on the way. -/
theorem screen_shows_text (hinit : VesaInit w h v) (hfits : (h + fontHeight) * w ≤ 2 ^ 32)
    (ops : List TextOp) :
    let u := ops.foldl (execText font) v
    let c := ops.foldl Console.exec (Console.init (w / fontWidth))
    let row := min c.text.above.length (h / fontHeight - 1)
    u.cursorX = c.text.line.length ∧ u.cursorY = row ∧
      ∀ x y g, At c.text.lines row x y g → ∀ i j, i < fontHeight → j < fontWidth →
        u.fb.pixels (cellPixel w x y i j) =
          if fontBit font g.code.toInt i j then g.fg else g.bg := by
  have hrep := (represents_init font hinit).run (.of_init hinit hfits) ops
  exact ⟨hrep.placed.cursorX, hrep.placed.cursorY, hrep.shows⟩

/-- A font in which the rows of the glyphs count on. -/
def stripes (k : Int) : BitVec 8 := BitVec.ofInt 8 k

theorem screen_shows_text_echo :
    ∃ u : Vesa, u.cursorX = 2 ∧ u.cursorY = 1 ∧
      ∀ i j, i < fontHeight → j < fontWidth → u.fb.pixels (cellPixel 1024 1 1 i j) =
        if fontBit stripes 67 i j then white else black := by
  have hshown := screen_shows_text stripes vesaOff_init (by decide)
    [.println [65], .print [66, 66], .printBackspace, .printChar 67]
  refine ⟨_, hshown.1, hshown.2.1, hshown.2.2 1 1 ⟨67, white, black⟩ ?_⟩
  exact ⟨by decide, [some ⟨66, white, black⟩, some ⟨67, white, black⟩], by decide, rfl⟩

/-- A plain character neither ends a string nor moves the cursor on its own. -/
def Plain (c : Int8) : Prop := c ≠ 0 ∧ c ≠ newline ∧ c ≠ tab

theorem print_plain {cols : Nat} (c : Console cols) {string : List Int8}
    (hplain : ∀ code ∈ string, Plain code) :
    c.print string = c.withText
      ((string.map fun code => ⟨code, c.fg, c.bg⟩).foldl (fun t g => t.put g) c.text) := by
  have hall : string.takeWhile (· ≠ 0) = string :=
    List.takeWhile_eq_self_iff.mpr fun code hcode => decide_eq_true (hplain code hcode).1
  rw [Console.print, hall]
  clear hall
  induction string generalizing c with
  | nil => rfl
  | cons code rest ih =>
      obtain ⟨-, hnewline, htab⟩ := hplain code List.mem_cons_self
      rw [List.foldl_cons, List.map_cons, List.foldl_cons,
        ih _ fun code' hcode' => hplain code' (List.mem_cons_of_mem code hcode'), Console.char,
        if_neg hnewline, if_neg htab]
      rfl

variable (font) in
/-- A printed string is broken into lines of the width of the screen, and the last lines that
the screen has room for are on it. -/
theorem print_shows (hinit : VesaInit w h v) (hfits : (h + fontHeight) * w ≤ 2 ^ 32)
    {string : List Int8} (hplain : ∀ code ∈ string, Plain code) {k : Nat} {code : Int8}
    (hk : string[k]? = some code)
    (hseen : string.length / (w / fontWidth) - (h / fontHeight - 1) ≤ k / (w / fontWidth)) :
    ∀ i j, i < fontHeight → j < fontWidth →
      (vesaPrint font string v).fb.pixels (cellPixel w (k % (w / fontWidth))
          (k / (w / fontWidth) - (string.length / (w / fontWidth) - (h / fontHeight - 1))) i j) =
        if fontBit font code.toInt i j then white else black := by
  have hf := ScreenFits.of_init hinit hfits
  have hfour := hf.four_le
  have hrep := (represents_init font hinit).print hf string
  rw [print_plain _ hplain] at hrep
  have hcols : 0 < w / fontWidth := by omega
  have hfilled := filled_foldl hcols (string.map fun code => (⟨code, white, black⟩ : Glyph))
  have habove := hfilled.length_above
  rw [List.length_map] at habove
  have hat := hfilled.at_place k ⟨code, white, black⟩ (by rw [List.getElem?_map, hk]; rfl)
  have hrow : min (string.length / (w / fontWidth)) (h / fontHeight - 1) ≤ _ :=
    (Nat.min_le_left _ _).trans_eq habove.symm
  have hwindow := hat.window hrow (by rw [habove]; omega)
  rw [habove] at hwindow
  have hshown := hrep.shows _ _ _ (by
    simp only [Console.withText, Console.init, Text.row, habove]
    exact hwindow)
  rw [show string.length / (w / fontWidth) - min (string.length / (w / fontWidth))
      (h / fontHeight - 1) = string.length / (w / fontWidth) - (h / fontHeight - 1) by omega]
    at hshown
  exact hshown

theorem print_shows_word :
    let fb := (vesaPrint stripes [79, 75] (initVesa 1024 768 vesaOff)).fb
    fb.pixels (cellPixel 1024 1 0 3 2) = black ∧ fb.pixels (cellPixel 1024 1 0 3 4) = white := by
  have hplain : ∀ code ∈ [79, 75], Plain code := by simp [Plain, newline, tab]
  have hk : ([79, 75] : List Int8)[1]? = some 75 := rfl
  have hshown := print_shows stripes (k := 1) vesaOff_init (by decide) hplain hk
    (by decide)
  exact ⟨(hshown 3 2 (by decide) (by decide)).trans (if_neg (by decide)),
    (hshown 3 4 (by decide) (by decide)).trans (if_pos (by decide))⟩

end Runs

end Longhorn.TextScreen
