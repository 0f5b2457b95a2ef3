import Longhorn.Foundations.TransitionRuns
import Longhorn.VesaModel

/-!
Which calls keep the text cursor of the VESA driver on the screen and its accesses inside
the framebuffer.
-/

namespace Longhorn.VesaSafety

open Longhorn.Foundations.ByteMemory
open Longhorn.Foundations.TransitionRuns
open Longhorn.VesaModel

inductive VesaOp where
  | printChar (c : Int8)
  | printBackspace
  | setCursor (x y : Nat)
  | showCursor
  | hideCursor
  | clearScreen

def execOp (font : Int → BitVec 8) (v : Vesa) : VesaOp → Vesa
  | .printChar c => vesaPrintChar font c v
  | .printBackspace => vesaPrintBackspace font v
  | .setCursor x y => vesaSetCursor x y v
  | .showCursor => vesaShowCursor font v
  | .hideCursor => vesaHideCursor v
  | .clearScreen => vesaClearScreen v

inductive VesaStep (font : Int → BitVec 8) : Vesa → VesaOp → Vesa → Prop
  | call (v : Vesa) (op : VesaOp) : VesaStep font v op (execOp font v op)

/-- `init_vesa` has just run, for a framebuffer with at least four columns and one row. -/
def VesaInit (width height : Nat) (v : Vesa) : Prop :=
  width < 2 ^ 32 ∧ height < 2 ^ 32 ∧ 4 ≤ width / fontWidth ∧ 1 ≤ height / fontHeight ∧
    ∃ v₀ : Vesa, v₀.fb.accesses = [] ∧ v = initVesa width height v₀

/-- The cursor is in a cell of the screen, the pixel position is that of the cell, and
every access so far was to a pixel of the framebuffer. -/
structure VesaSafe (v : Vesa) : Prop where
  cursorX : v.cursorX < v.numCols
  cursorY : v.cursorY < v.numRows
  currentX : v.currentX = fontWidth * v.cursorX
  currentY : v.currentY = fontHeight * v.cursorY
  inBounds : ∀ a ∈ v.fb.accesses, a < v.width * v.height

/-- The cursor is in the last cell of the last line. -/
def AtCorner (v : Vesa) : Prop := v.cursorX + 1 = v.numCols ∧ v.cursorY + 1 = v.numRows

/-- The cell `(x, y)` is the last one of a screen that the cells fill: its last pixel
would come behind the framebuffer. -/
def LastCell (v : Vesa) (x y : Nat) : Prop :=
  x + 1 = v.numCols ∧ y + 1 = v.numRows ∧ v.width = fontWidth * v.numCols ∧
    v.height = fontHeight * v.numRows

def DrawsOff (v : Vesa) : Prop := LastCell v v.cursorX v.cursorY

/-- The condition on one call: no drawing in the last cell of a screen that the cells
fill, no cursor set to the column or the row behind the last one, and no line that has to
be scrolled. -/
def VesaGuard (v : Vesa) : VesaOp → Prop
  | .printChar c =>
      if c = newline then v.cursorY + 1 < v.numRows
      else if c = tab then ¬ DrawsOff v ∧ tabTarget v ≠ v.numCols
      else ¬ AtCorner v
  | .printBackspace => ¬ DrawsOff v ∧ (v.cursorX = 0 → v.cursorY + 1 < v.numRows)
  | .setCursor x y => x ≤ v.numCols ∧ y ≤ v.numRows → x ≠ v.numCols ∧ y ≠ v.numRows
  | .showCursor => ¬ DrawsOff v
  | .hideCursor => ¬ DrawsOff v
  | .clearScreen => True

/-- A screen has at least four columns and one row, and its size is of `uint32_t`. -/
structure Geometry (w h : Nat) : Prop where
  width_lt : w < 2 ^ 32
  height_lt : h < 2 ^ 32
  four_le : 4 ≤ w / fontWidth
  one_le : 1 ≤ h / fontHeight

/-- The fields that hold the size of the screen, which no call changes. -/
structure Sized (w h : Nat) (v : Vesa) : Prop where
  width : v.width = w
  height : v.height = h
  numCols : v.numCols = w / fontWidth
  numRows : v.numRows = h / fontHeight

/-- The cursor and the pixel position are those of the cell `(x, y)`, which may lie right
behind the screen. -/
structure Placed (w h : Nat) (v : Vesa) (x y : Nat) : Prop extends Sized w h v where
  cursorX : v.cursorX = x
  cursorY : v.cursorY = y
  currentX : v.currentX = fontWidth * x
  currentY : v.currentY = fontHeight * y

def InBounds (w h : Nat) (v : Vesa) : Prop := ∀ a ∈ v.fb.accesses, a < w * h

/-- `VesaSafe` for a screen of a known size. -/
def OnScreen (w h : Nat) (v : Vesa) : Prop :=
  ∃ x y, x < w / fontWidth ∧ y < h / fontHeight ∧ Placed w h v x y ∧ InBounds w h v

section Cells

variable {w h x y : Nat} {v : Vesa}

theorem OnScreen.sized (hv : OnScreen w h v) : Sized w h v := by
  obtain ⟨_, _, _, _, hp, _⟩ := hv
  exact hp.toSized

theorem Sized.vesaSafe_iff (hs : Sized w h v) : VesaSafe v ↔ OnScreen w h v := by
  constructor
  · rintro ⟨hx, hy, hcx, hcy, hin⟩
    rw [hs.numCols] at hx
    rw [hs.numRows] at hy
    rw [hs.width, hs.height] at hin
    exact ⟨_, _, hx, hy, ⟨hs, rfl, rfl, hcx, hcy⟩, hin⟩
  · rintro ⟨x, y, hx, hy, ⟨_, rfl, rfl, hcx, hcy⟩, hin⟩
    refine ⟨hs.numCols ▸ hx, hs.numRows ▸ hy, hcx, hcy, ?_⟩
    rw [hs.width, hs.height]
    exact hin

theorem Placed.drawsOff_iff (hp : Placed w h v x y) : DrawsOff v ↔ LastCell v x y := by
  rw [DrawsOff, hp.cursorX, hp.cursorY]

/-- A pixel of a row of the screen, or the first one of the next row. -/
theorem pixel_lt {r c : Nat} (hr : r < h) (hc : c < w ∨ c ≤ w ∧ r + 1 < h ∧ 0 < w) :
    r * w + c < w * h := by
  rcases hc with hc | ⟨hc, hr', hw⟩
  · calc r * w + c < r * w + w := Nat.add_lt_add_left hc _
      _ = w * (r + 1) := by rw [Nat.mul_succ, Nat.mul_comm]
      _ ≤ w * h := Nat.mul_le_mul_left w hr
  · calc r * w + c ≤ r * w + w := Nat.add_le_add_left hc _
      _ = w * (r + 1) := by rw [Nat.mul_succ, Nat.mul_comm]
      _ < w * h := Nat.mul_lt_mul_of_pos_left hr' hw

theorem wrap_le (n : Nat) : wrap n ≤ n := Nat.mod_le _ _

theorem Placed.pixelPos (hp : Placed w h v x y) :
    v.pixelPos = wrap (fontHeight * y * w) + fontWidth * x := by
  rw [Vesa.pixelPos, hp.currentX, hp.currentY, hp.width]

/-- The pixels of a cell, one column to the right of where they should be. -/
theorem Placed.cellPixel_lt (hp : Placed w h v x y) (hg : Geometry w h) (hx : x < w / fontWidth)
    (hy : y < h / fontHeight) (hoff : ¬ LastCell v x y) {i j : Nat} (hi : i < fontHeight) :
    v.pixelPos + i * w + (fontWidth - j) < w * h := by
  have hfour := hg.four_le
  have hle := wrap_le (fontHeight * y * w)
  have hpixel : (fontHeight * y + i) * w + (fontWidth * x + (fontWidth - j)) < w * h := by
    rw [LastCell, hp.width, hp.height, hp.numCols, hp.numRows] at hoff
    refine pixel_lt ?_ ?_
    · unfold fontHeight at *
      omega
    · unfold fontHeight fontWidth at *
      omega
  rw [Nat.add_mul] at hpixel
  rw [hp.pixelPos]
  omega

/-- The last pixel of the last cell comes behind the framebuffer. -/
theorem Placed.cellPixel_eq (hp : Placed w h v x y) (hsmall : w * h < 2 ^ 32)
    (hoff : LastCell v x y) : v.pixelPos + 15 * w + (fontWidth - 0) = w * h := by
  obtain ⟨hx, hy, hw, hh⟩ := hoff
  rw [hp.numCols] at hx hw
  rw [hp.numRows] at hy hh
  rw [hp.width] at hw
  rw [hp.height] at hh
  have hend : (fontHeight * y + 15) * w + w = w * h := by
    rw [← Nat.succ_mul, Nat.mul_comm w h]
    congr 1
    unfold fontHeight at *
    omega
  rw [Nat.add_mul] at hend
  rw [hp.pixelPos, wrap_of_lt (by omega)]
  unfold fontWidth at *
  omega

/-- Drawing moves nothing. -/
theorem Placed.draw (hp : Placed w h v x y) (color : Nat → Nat → Option Word) :
    Placed w h (v.draw color) x y :=
  ⟨⟨hp.width, hp.height, hp.numCols, hp.numRows⟩, hp.cursorX, hp.cursorY, hp.currentX,
    hp.currentY⟩

/-- Nor does the visibility of the cursor. -/
theorem Placed.withCursorOn (hp : Placed w h v x y) (n : Nat) :
    Placed w h { v with cursorOn := n } x y :=
  ⟨⟨hp.width, hp.height, hp.numCols, hp.numRows⟩, hp.cursorX, hp.cursorY, hp.currentX,
    hp.currentY⟩

theorem Placed.fill (hp : Placed w h v x y) : Placed w h v.fill x y := hp.draw _

theorem Placed.inBounds_draw (hp : Placed w h v x y) (hg : Geometry w h) (hx : x < w / fontWidth)
    (hy : y < h / fontHeight) (hoff : ¬ LastCell v x y) (hin : InBounds w h v)
    (color : Nat → Nat → Option Word) : InBounds w h (v.draw color) := by
  intro a ha
  rcases (mem_drawCell _ _).mp ha with ⟨i, hi, j, _, _, rfl⟩ | ha
  · rw [hp.width]
    exact hp.cellPixel_lt hg hx hy hoff hi
  · exact hin a ha

/-- Drawing that reaches the first column of the last row shows the last cell. -/
theorem Placed.not_lastCell (hp : Placed w h v x y) (hsmall : w * h < 2 ^ 32)
    {color : Nat → Nat → Option Word} (hcolor : (color 15 0).isSome)
    (hin : InBounds w h (v.draw color)) : ¬ LastCell v x y := by
  intro hoff
  refine absurd (hin (w * h) ((mem_drawCell _ _).mpr (Or.inl ?_))) (Nat.lt_irrefl _)
  refine ⟨15, by decide, 0, by decide, hcolor, ?_⟩
  rw [hp.width]
  exact (hp.cellPixel_eq hsmall hoff).symm

/-- What was out of bounds before the drawing still is. -/
theorem inBounds_of_draw {color : Nat → Nat → Option Word} (hin : InBounds w h (v.draw color)) :
    InBounds w h v :=
  fun a ha => hin a ((mem_drawCell _ _).mpr (Or.inr ha))

@[simp] theorem vesaSetCursor_fb (x y : Nat) (v : Vesa) : (vesaSetCursor x y v).fb = v.fb := by
  rw [vesaSetCursor]
  split <;> rfl

/-- `vesa_set_cursor` to a cell of the screen, or right behind it. -/
theorem Sized.setCursor (hs : Sized w h v) (hg : Geometry w h) (hx : x ≤ w / fontWidth)
    (hy : y ≤ h / fontHeight) : Placed w h (vesaSetCursor x y v) x y := by
  have hwidth := hg.width_lt
  have hheight := hg.height_lt
  rw [vesaSetCursor, if_pos ⟨hs.numRows ▸ hy, hs.numCols ▸ hx⟩]
  refine ⟨⟨hs.width, hs.height, hs.numCols, hs.numRows⟩, rfl, rfl, ?_, ?_⟩
  · unfold fontWidth at *
    exact wrap_of_lt (by omega)
  · unfold fontHeight at *
    exact wrap_of_lt (by omega)

theorem Sized.setCursor_of_gt (hs : Sized w h v) (hx : w / fontWidth < x) :
    vesaSetCursor x y v = v := by
  rw [vesaSetCursor, if_neg]
  rw [hs.numCols]
  omega

@[simp] theorem wrapLine_fb (v : Vesa) : (wrapLine v).fb = v.fb := by
  rw [wrapLine]
  split <;> rfl

/-- Behind the last column the cursor goes to the next line, wherever it came from. -/
theorem Sized.wrapLine (hs : Sized w h v) (hg : Geometry w h) (hx : w / fontWidth ≤ v.cursorX)
    (hcy : v.cursorY = y) (hpy : v.currentY = fontHeight * y) (hy : y < h / fontHeight) :
    Placed w h (wrapLine v) 0 (y + 1) := by
  have hheight := hg.height_lt
  rw [VesaModel.wrapLine, if_pos (hs.numCols ▸ hx)]
  unfold fontHeight at *
  refine ⟨⟨hs.width, hs.height, hs.numCols, hs.numRows⟩, rfl, ?_, rfl, ?_⟩
  · rw [hcy]
    exact wrap_of_lt (by omega)
  · rw [hpy]
    unfold fontHeight
    exact wrap_of_lt (by omega)

theorem Placed.wrapLine_of_lt (hp : Placed w h v x y) (hx : x < w / fontWidth) :
    VesaModel.wrapLine v = v := by
  rw [VesaModel.wrapLine, if_neg]
  rw [hp.cursorX, hp.numCols]
  omega

theorem Placed.scrollUp_of_lt (hp : Placed w h v x y) (hy : y < h / fontHeight) :
    scrollUp v = v := by
  rw [scrollUp, if_neg]
  rw [hp.cursorY, hp.numRows]
  omega

theorem scrollUp_fb_of_ge (hy : v.numRows ≤ v.cursorY) :
    (scrollUp v).fb = scrollPixels v.width v.height v.fb := by
  simp only [scrollUp, ge_iff_le, hy, ↓reduceIte, vesaSetCursor_fb]

/-- Below the last line the screen is scrolled, which reads a pixel behind the
framebuffer. -/
theorem Placed.not_inBounds_scrollUp (hp : Placed w h v x (h / fontHeight)) (hg : Geometry w h)
    (hsmall : w * h < 2 ^ 32) : ¬ InBounds w h (scrollUp v) := by
  have hheight := hg.height_lt
  have hfour := hg.four_le
  have hone := hg.one_le
  unfold fontWidth at hfour
  unfold fontHeight at hone
  intro hin
  have hfb := scrollUp_fb_of_ge (v := v) (by rw [hp.cursorY, hp.numRows])
  refine absurd (hin (w * h) ?_) (Nat.lt_irrefl _)
  rw [hfb]
  refine mem_scrollPixels.mpr (Or.inl ⟨h - fontHeight, ?_, 0, ?_, Or.inr ?_⟩)
  · unfold fontHeight
    rw [hp.height, wrapSub_of_le (by omega) (by omega)]
    omega
  · rw [hp.width]
    omega
  · rw [Nat.sub_add_cancel (by unfold fontHeight; omega), hp.width, Nat.add_zero, Nat.mul_comm h w,
      wrap_of_lt hsmall]

theorem Placed.scroll_of_lt (hp : Placed w h v x y) (hx : x < w / fontWidth)
    (hy : y < h / fontHeight) : scroll v = v := by
  rw [scroll, hp.wrapLine_of_lt hx, hp.scrollUp_of_lt hy]

/-- At the end of a line that is not the last one. -/
theorem Sized.scroll_next (hs : Sized w h v) (hg : Geometry w h) (hx : w / fontWidth ≤ v.cursorX)
    (hcy : v.cursorY = y) (hpy : v.currentY = fontHeight * y) (hy : y + 1 < h / fontHeight)
    (hin : InBounds w h v) : OnScreen w h (scroll v) := by
  have hfour := hg.four_le
  have hp := hs.wrapLine hg hx hcy hpy (by omega)
  rw [scroll, hp.scrollUp_of_lt hy]
  exact ⟨0, y + 1, by omega, hy, hp, by rwa [InBounds, wrapLine_fb]⟩

/-- At the end of the last line. -/
theorem Sized.not_inBounds_scroll (hs : Sized w h v) (hg : Geometry w h)
    (hx : w / fontWidth ≤ v.cursorX) (hcy : v.cursorY = y) (hpy : v.currentY = fontHeight * y)
    (hy : y + 1 = h / fontHeight) (hsmall : w * h < 2 ^ 32) : ¬ InBounds w h (scroll v) := by
  have hp := hs.wrapLine hg hx hcy hpy (by omega)
  rw [hy] at hp
  exact hp.not_inBounds_scrollUp hg hsmall

end Cells

section Calls

variable {w h : Nat} {v : Vesa} {font : Int → BitVec 8}

theorem Placed.hideCursor {x y : Nat} (hp : Placed w h v x y) :
    Placed w h (vesaHideCursor v) x y :=
  (hp.draw _).withCursorOn 0

theorem Placed.setCursorVis {x y : Nat} (hp : Placed w h v x y) (font : Int → BitVec 8)
    (state : Nat) :
    Placed w h (vesaSetCursorVis font state v) x y := by
  rw [vesaSetCursorVis]
  split
  · exact (hp.draw _).withCursorOn 1
  · exact hp.hideCursor

theorem Placed.inBounds_setCursorVis {x y : Nat} (hp : Placed w h v x y) (hg : Geometry w h)
    (hx : x < w / fontWidth) (hy : y < h / fontHeight) (hoff : ¬ LastCell v x y)
    (hin : InBounds w h v) (font : Int → BitVec 8) (state : Nat) :
    InBounds w h (vesaSetCursorVis font state v) := by
  rw [vesaSetCursorVis]
  split
  · exact hp.inBounds_draw hg hx hy hoff hin _
  · exact hp.inBounds_draw hg hx hy hoff hin _

/-- The cell that `vesa_print_char` goes on to. -/
theorem Placed.advance {x y : Nat} (hp : Placed w h v x y) (hg : Geometry w h)
    (hx : x < w / fontWidth) (color : Nat → Nat → Option Word) :
    Placed w h
      { v.draw color with
        currentX := wrap ((v.draw color).currentX + fontWidth)
        cursorX := wrap ((v.draw color).cursorX + 1) } (x + 1) y := by
  have hwidth := hg.width_lt
  have hd := hp.draw color
  unfold fontWidth at *
  refine ⟨⟨hd.width, hd.height, hd.numCols, hd.numRows⟩, ?_, hd.cursorY, ?_, hd.currentY⟩
  · rw [hd.cursorX]
    exact wrap_of_lt (by omega)
  · rw [hd.currentX]
    unfold fontWidth
    exact wrap_of_lt (by omega)

theorem OnScreen.showCursor (hv : OnScreen w h v) (hg : Geometry w h) (hoff : ¬ DrawsOff v) :
    OnScreen w h (vesaShowCursor font v) := by
  obtain ⟨x, y, hx, hy, hp, hin⟩ := hv
  rw [hp.drawsOff_iff] at hoff
  exact ⟨x, y, hx, hy, (hp.draw _).withCursorOn 1, hp.inBounds_draw hg hx hy hoff hin _⟩

theorem OnScreen.hideCursor (hv : OnScreen w h v) (hg : Geometry w h) (hoff : ¬ DrawsOff v) :
    OnScreen w h (vesaHideCursor v) := by
  obtain ⟨x, y, hx, hy, hp, hin⟩ := hv
  rw [hp.drawsOff_iff] at hoff
  exact ⟨x, y, hx, hy, hp.hideCursor, hp.inBounds_draw hg hx hy hoff hin _⟩

theorem OnScreen.setCursor (hv : OnScreen w h v) (hg : Geometry w h) {x y : Nat}
    (hguard : x ≤ v.numCols ∧ y ≤ v.numRows → x ≠ v.numCols ∧ y ≠ v.numRows) :
    OnScreen w h (vesaSetCursor x y v) := by
  have hs := hv.sized
  rw [hs.numCols, hs.numRows] at hguard
  by_cases hmove : x ≤ w / fontWidth ∧ y ≤ h / fontHeight
  · obtain ⟨_, _, _, _, _, hin⟩ := hv
    obtain ⟨hx, hy⟩ := hguard hmove
    exact ⟨x, y, by omega, by omega, hs.setCursor hg hmove.1 hmove.2,
      by rwa [InBounds, vesaSetCursor_fb]⟩
  · rwa [vesaSetCursor, if_neg]
    rw [hs.numCols, hs.numRows]
    omega

/-- A newline in a line that is not the last one. -/
theorem OnScreen.newline (hv : OnScreen w h v) (hg : Geometry w h)
    (hguard : v.cursorY + 1 < v.numRows) : OnScreen w h (vesaPrintChar font newline v) := by
  obtain ⟨x, y, hx, hy, hp, hin⟩ := hv
  have hfour := hg.four_le
  have hheight := hg.height_lt
  rw [hp.cursorY, hp.numRows] at hguard
  have hoff : ¬ LastCell v x y := by
    rintro ⟨_, hlast, _⟩
    rw [hp.numRows] at hlast
    omega
  have hnext : wrap ((vesaHideCursor v).cursorY + 1) = y + 1 := by
    rw [hp.hideCursor.cursorY]
    unfold fontHeight at hguard
    exact wrap_of_lt (by omega)
  have hmoved := hp.hideCursor.setCursor hg (Nat.zero_le _) hguard.le
  rw [vesaPrintChar, if_pos rfl]
  simp only [hnext]
  rw [hmoved.scroll_of_lt (by omega) hguard]
  refine ⟨0, y + 1, by omega, hguard, hmoved, ?_⟩
  rw [InBounds, vesaSetCursor_fb]
  exact hp.inBounds_draw hg hx hy hoff hin _

theorem OnScreen.tab (hv : OnScreen w h v) (hg : Geometry w h) (hoff : ¬ DrawsOff v)
    (htarget : tabTarget v ≠ v.numCols) : OnScreen w h (vesaPrintChar font tab v) := by
  obtain ⟨x, y, hx, hy, hp, _⟩ := id hv
  have hhide := hv.hideCursor hg hoff
  rw [vesaPrintChar, if_neg (by decide), if_pos rfl]
  refine hhide.setCursor hg fun _ => ⟨htarget, ?_⟩
  rw [hp.hideCursor.cursorY, hp.hideCursor.numRows]
  omega

/-- A character in any cell but the last one of the last line. -/
theorem OnScreen.printGlyph (hv : OnScreen w h v) (hg : Geometry w h) (hguard : ¬ AtCorner v)
    (c : Int8) : OnScreen w h (printGlyph font c v) := by
  obtain ⟨x, y, hx, hy, hp, hin⟩ := hv
  have hwidth := hg.width_lt
  rw [AtCorner, hp.cursorX, hp.cursorY, hp.numCols, hp.numRows] at hguard
  have hoff : ¬ LastCell v x y := by
    rintro ⟨hlastX, hlastY, _⟩
    rw [hp.numCols] at hlastX
    rw [hp.numRows] at hlastY
    omega
  have hdraw := hp.inBounds_draw hg hx hy hoff hin
    fun i j => some (if fontBit font c.toInt i j then v.fgColor else v.bgColor)
  have hnext := hp.advance hg hx fun i j =>
    some (if fontBit font c.toInt i j then v.fgColor else v.bgColor)
  rw [VesaModel.printGlyph]
  by_cases hlast : x + 1 < w / fontWidth
  · rw [hnext.scroll_of_lt hlast hy]
    exact ⟨x + 1, y, hlast, hy, hnext, hdraw⟩
  · refine hnext.toSized.scroll_next hg ?_ hnext.cursorY hnext.currentY (by omega) hdraw
    rw [hnext.cursorX]
    omega

theorem setCursorVis_withCursorX (font : Int → BitVec 8) (state n : Nat) (v : Vesa) :
    vesaSetCursorVis font state (v.withCursorX n) =
      (vesaSetCursorVis font state v).withCursorX n := by
  rw [vesaSetCursorVis, vesaSetCursorVis]
  split <;> rfl

theorem Sized.withCursorX (hs : Sized w h v) (n : Nat) : Sized w h (v.withCursorX n) :=
  ⟨hs.width, hs.height, hs.numCols, hs.numRows⟩

/-- What `vesa_print_backspace` does once it has hidden the cursor. -/
theorem Placed.printBackspace_eq {x y : Nat} (hp : Placed w h v x y) (font : Int → BitVec 8) :
    vesaPrintBackspace font v = scroll (vesaSetCursorVis font (v.cursorOn % 2 ^ 8)
      (vesaSetCursor (wrapSub x 1) y ((vesaHideCursor v).withCursorX (wrapSub x 1))).fill) := by
  obtain ⟨_, rfl, rfl, _, _⟩ := hp
  rfl

/-- No screen has a column `2^32 - 1`. -/
theorem lt_wrapSub_zero_one (hg : Geometry w h) : w / fontWidth < wrapSub 0 1 := by
  have hwidth := hg.width_lt
  have hwrap : wrapSub 0 1 = 2 ^ 32 - 1 := by decide
  unfold fontWidth
  omega

/-- In the first column the decrement wraps around, `vesa_set_cursor` rejects the column,
and `scroll` takes the line for a full one. -/
theorem Placed.printBackspace_first {y : Nat} (hp : Placed w h v 0 y) (hg : Geometry w h)
    (font : Int → BitVec 8) : vesaPrintBackspace font v =
      scroll ((vesaSetCursorVis font (v.cursorOn % 2 ^ 8) (vesaHideCursor v).fill).withCursorX
        (wrapSub 0 1)) := by
  rw [hp.printBackspace_eq,
    (hp.hideCursor.toSized.withCursorX _).setCursor_of_gt (lt_wrapSub_zero_one hg),
    ← setCursorVis_withCursorX]
  rfl

/-- In the other columns the cursor goes back by one cell. -/
theorem Placed.printBackspace_left {x y : Nat} (hp : Placed w h v x y) (hg : Geometry w h)
    (hpos : 0 < x) (hx : x < w / fontWidth) (hy : y < h / fontHeight) (font : Int → BitVec 8) :
    ∃ u, Placed w h u (x - 1) y ∧ u.fb = (vesaHideCursor v).fb ∧
      vesaPrintBackspace font v = vesaSetCursorVis font (v.cursorOn % 2 ^ 8) u.fill := by
  have hwidth := hg.width_lt
  have hleft : wrapSub x 1 = x - 1 := wrapSub_of_le (by unfold fontWidth at hx; omega) hpos
  have hmoved := (hp.hideCursor.toSized.withCursorX (x - 1)).setCursor hg
    (show x - 1 ≤ _ by omega) hy.le
  have hvis := hmoved.fill.setCursorVis font (v.cursorOn % 2 ^ 8)
  refine ⟨_, hmoved, vesaSetCursor_fb _ _ _, ?_⟩
  rw [hp.printBackspace_eq, hleft]
  exact hvis.scroll_of_lt (by omega) hy

theorem OnScreen.printBackspace (hv : OnScreen w h v) (hg : Geometry w h) (hoff : ¬ DrawsOff v)
    (hguard : v.cursorX = 0 → v.cursorY + 1 < v.numRows) :
    OnScreen w h (vesaPrintBackspace font v) := by
  obtain ⟨_, _, _, _, _, hin⟩ := hv.hideCursor hg hoff
  obtain ⟨x, y, hx, hy, hp, _⟩ := hv
  have hfour := hg.four_le
  rw [hp.cursorX, hp.cursorY, hp.numRows] at hguard
  have hcell : ∀ u, Sized w h u → ¬ LastCell u (x - 1) y := by
    rintro u hu ⟨hlast, _⟩
    rw [hu.numCols] at hlast
    omega
  rcases Nat.eq_zero_or_pos x with rfl | hpos
  · have hdraw := hp.hideCursor.fill
    have hvis := hdraw.setCursorVis font (v.cursorOn % 2 ^ 8)
    have hinDraw := hp.hideCursor.inBounds_draw hg hx hy (hcell _ hp.hideCursor.toSized) hin
      fun _ _ => some (vesaHideCursor v).bgColor
    have hinVis := hdraw.inBounds_setCursorVis hg hx hy (hcell _ hdraw.toSized) hinDraw font
      (v.cursorOn % 2 ^ 8)
    rw [hp.printBackspace_first hg]
    exact (hvis.toSized.withCursorX _).scroll_next hg (lt_wrapSub_zero_one hg).le hvis.cursorY
      hvis.currentY (hguard rfl) hinVis
  · obtain ⟨u, hu, hfb, heq⟩ := hp.printBackspace_left hg hpos hx hy font
    have hinU : InBounds w h u := by rwa [InBounds, hfb]
    have hdraw := hu.fill
    have hinDraw := hu.inBounds_draw hg (by omega) hy (hcell _ hu.toSized) hinU
      fun _ _ => some u.bgColor
    rw [heq]
    exact ⟨x - 1, y, by omega, hy, hdraw.setCursorVis font _,
      hdraw.inBounds_setCursorVis hg (by omega) hy (hcell _ hdraw.toSized) hinDraw font _⟩

theorem OnScreen.clearScreen (hv : OnScreen w h v) (hg : Geometry w h) :
    OnScreen w h (vesaClearScreen v) := by
  obtain ⟨x, y, hx, hy, hp, hin⟩ := hv
  have hsized : Sized w h { v with fb := clearPixels v.width v.height v.bgColor v.fb } :=
    ⟨hp.width, hp.height, hp.numCols, hp.numRows⟩
  refine ⟨0, 0, by omega, by omega, hsized.setCursor hg (Nat.zero_le _) (Nat.zero_le _), ?_⟩
  intro a ha
  rw [vesaClearScreen, vesaSetCursor_fb] at ha
  rcases (mem_clearPixels _).mp ha with ⟨r, hr, c, hc, rfl⟩ | ha
  · rw [hp.height] at hr
    rw [hp.width] at hc ⊢
    exact Nat.lt_of_le_of_lt (wrap_le _) (pixel_lt hr (Or.inl hc))
  · exact hin a ha

/-- One call that meets its condition keeps the cursor on the screen and draws inside the
framebuffer. -/
theorem OnScreen.exec (hv : OnScreen w h v) (hg : Geometry w h) {op : VesaOp}
    (hguard : VesaGuard v op) : OnScreen w h (execOp font v op) := by
  cases op with
  | printChar c =>
      simp only [VesaGuard] at hguard
      split at hguard
      · next hc =>
          rw [hc]
          exact hv.newline hg hguard
      · split at hguard
        · next hc =>
            rw [hc]
            exact hv.tab hg hguard.1 hguard.2
        · next hnewline htab =>
            simp only [execOp, vesaPrintChar, hnewline, htab, ↓reduceIte]
            exact hv.printGlyph hg hguard c
  | printBackspace => exact hv.printBackspace hg hguard.1 hguard.2
  | setCursor x y => exact hv.setCursor hg hguard
  | showCursor => exact hv.showCursor hg hguard
  | hideCursor => exact hv.hideCursor hg hguard
  | clearScreen => exact hv.clearScreen hg

end Calls

-- The converse, for a framebuffer with fewer than `2^32` pixels and a cursor whose last
-- row is set in its last column.
section Exact

variable {w h : Nat} {v : Vesa} {font : Int → BitVec 8}

theorem OnScreen.inBounds (hv : OnScreen w h v) : InBounds w h v := by
  obtain ⟨_, _, _, _, _, hin⟩ := hv
  exact hin

theorem Placed.not_drawsOff {x y : Nat} (hp : Placed w h v x y) (hsmall : w * h < 2 ^ 32)
    (hin : InBounds w h (vesaHideCursor v)) : ¬ DrawsOff v := by
  rw [hp.drawsOff_iff]
  exact hp.not_lastCell hsmall rfl hin

theorem inBounds_of_setCursorVis {state : Nat}
    (hin : InBounds w h (vesaSetCursorVis font state v)) : InBounds w h v := by
  rw [vesaSetCursorVis] at hin
  split at hin
  · exact inBounds_of_draw hin
  · exact inBounds_of_draw hin

theorem Placed.cursorY_lt_of_newline {x y : Nat} (hp : Placed w h v x y) (hg : Geometry w h)
    (hsmall : w * h < 2 ^ 32) (hy : y < h / fontHeight)
    (hin : InBounds w h (vesaPrintChar font newline v)) : y + 1 < h / fontHeight := by
  by_contra hge
  have hfour := hg.four_le
  have hheight := hg.height_lt
  have hlast : y + 1 = h / fontHeight := by omega
  have hnext : wrap ((vesaHideCursor v).cursorY + 1) = h / fontHeight := by
    rw [hp.hideCursor.cursorY, ← hlast]
    unfold fontHeight at hy
    exact wrap_of_lt (by omega)
  have hmoved := hp.hideCursor.toSized.setCursor hg (Nat.zero_le _) (le_refl (h / fontHeight))
  rw [vesaPrintChar, if_pos rfl] at hin
  simp only [hnext] at hin
  rw [scroll, hmoved.wrapLine_of_lt (by omega)] at hin
  exact hmoved.not_inBounds_scrollUp hg hsmall hin

theorem Placed.tabTarget_ne {x y : Nat} (hp : Placed w h v x y) (hg : Geometry w h)
    (hy : y < h / fontHeight) (hnext : OnScreen w h (vesaPrintChar font tab v)) :
    tabTarget v ≠ v.numCols := by
  intro htarget
  have htarget' : tabTarget (vesaHideCursor v) = w / fontWidth := htarget.trans hp.numCols
  rw [vesaPrintChar, if_neg (by decide), if_pos rfl] at hnext
  simp only [htarget', hp.hideCursor.cursorY] at hnext
  have hmoved := hp.hideCursor.toSized.setCursor hg le_rfl hy.le
  obtain ⟨x', _, hx', _, hp', _⟩ := hnext
  have hcursor := hp'.cursorX
  rw [hmoved.cursorX] at hcursor
  omega

theorem Placed.not_atCorner {x y : Nat} (hp : Placed w h v x y) (hg : Geometry w h)
    (hsmall : w * h < 2 ^ 32) (hx : x < w / fontWidth) {c : Int8}
    (hin : InBounds w h (printGlyph font c v)) : ¬ AtCorner v := by
  rw [AtCorner, hp.cursorX, hp.cursorY, hp.numCols, hp.numRows]
  rintro ⟨hlastX, hlastY⟩
  have hnext := hp.advance hg hx fun i j =>
    some (if fontBit font c.toInt i j then v.fgColor else v.bgColor)
  exact hnext.toSized.not_inBounds_scroll hg (by rw [hnext.cursorX]; omega) hnext.cursorY
    hnext.currentY hlastY hsmall hin

theorem Placed.guard_of_printBackspace {x y : Nat} (hp : Placed w h v x y) (hg : Geometry w h)
    (hsmall : w * h < 2 ^ 32) (hx : x < w / fontWidth) (hy : y < h / fontHeight)
    (hin : InBounds w h (vesaPrintBackspace font v)) :
    ¬ LastCell v x y ∧ (x = 0 → y + 1 < h / fontHeight) := by
  have hfour := hg.four_le
  rcases Nat.eq_zero_or_pos x with rfl | hpos
  · refine ⟨fun hlast => ?_, fun _ => ?_⟩
    · have hcols := hlast.1
      rw [hp.numCols] at hcols
      omega
    · by_contra hge
      have hvis := hp.hideCursor.fill.setCursorVis font (v.cursorOn % 2 ^ 8)
      rw [hp.printBackspace_first hg] at hin
      exact (hvis.toSized.withCursorX _).not_inBounds_scroll hg (lt_wrapSub_zero_one hg).le
        hvis.cursorY hvis.currentY (by omega) hsmall hin
  · obtain ⟨u, _, hfb, heq⟩ := hp.printBackspace_left hg hpos hx hy font
    rw [heq] at hin
    have hinHide : InBounds w h (vesaHideCursor v) := by
      rw [InBounds, ← hfb]
      exact inBounds_of_draw (inBounds_of_setCursorVis hin)
    exact ⟨hp.not_lastCell hsmall rfl hinHide, fun hzero => absurd hzero (Nat.ne_of_gt hpos)⟩

/-- A call that keeps the cursor on the screen and draws inside the framebuffer meets its
condition. -/
theorem OnScreen.guard_of_exec (hv : OnScreen w h v) (hg : Geometry w h) (hsmall : w * h < 2 ^ 32)
    (hfont : fontBit font 219 15 0 = true) {op : VesaOp}
    (hnext : OnScreen w h (execOp font v op)) : VesaGuard v op := by
  obtain ⟨x, y, hx, hy, hp, _⟩ := hv
  cases op with
  | printChar c =>
      simp only [execOp] at hnext
      simp only [VesaGuard]
      split
      · next hc =>
          rw [hc] at hnext
          rw [hp.cursorY, hp.numRows]
          exact hp.cursorY_lt_of_newline hg hsmall hy hnext.inBounds
      · split
        · next hc =>
            rw [hc] at hnext
            refine ⟨hp.not_drawsOff hsmall ?_, hp.tabTarget_ne hg hy hnext⟩
            have hin := hnext.inBounds
            rwa [vesaPrintChar, if_neg (by decide), if_pos rfl, InBounds, vesaSetCursor_fb] at hin
        · next hnewline htab =>
            simp only [vesaPrintChar, hnewline, htab, ↓reduceIte] at hnext
            exact hp.not_atCorner hg hsmall hx hnext.inBounds
  | printBackspace =>
      have hguard := hp.guard_of_printBackspace hg hsmall hx hy hnext.inBounds
      rwa [← hp.drawsOff_iff, ← hp.cursorX, ← hp.cursorY, ← hp.numRows] at hguard
  | setCursor x' y' =>
      rintro ⟨hx', hy'⟩
      rw [hp.numCols] at hx' ⊢
      rw [hp.numRows] at hy' ⊢
      have hmoved := hp.toSized.setCursor hg hx' hy'
      obtain ⟨a, b, ha, hb, hp', _⟩ := hnext
      have hcursorX := hp'.cursorX
      have hcursorY := hp'.cursorY
      simp only [execOp, hmoved.cursorX, hmoved.cursorY] at hcursorX hcursorY
      omega
  | showCursor =>
      rw [VesaGuard, hp.drawsOff_iff]
      exact hp.not_lastCell hsmall (by simp [hfont]) hnext.inBounds
  | hideCursor => exact hp.not_drawsOff hsmall hnext.inBounds
  | clearScreen => trivial

end Exact

section Runs

variable {w h : Nat} {v u : Vesa} {font : Int → BitVec 8}

theorem VesaInit.geometry (hinit : VesaInit w h v) : Geometry w h :=
  ⟨hinit.1, hinit.2.1, hinit.2.2.1, hinit.2.2.2.1⟩

theorem VesaInit.onScreen (hinit : VesaInit w h v) : OnScreen w h v := by
  obtain ⟨_, _, hfour, hone, v₀, hlog, rfl⟩ := hinit
  refine ⟨0, 0, by omega, by omega, ⟨⟨rfl, rfl, rfl, rfl⟩, rfl, rfl, rfl, rfl⟩, ?_⟩
  intro a ha
  rw [initVesa, hlog] at ha
  exact absurd ha List.not_mem_nil

theorem Sized.withFb (hs : Sized w h v) (fb : Framebuffer) : Sized w h { v with fb := fb } :=
  ⟨hs.width, hs.height, hs.numCols, hs.numRows⟩

theorem Sized.vesaSetCursor (hs : Sized w h v) (x y : Nat) :
    Sized w h (VesaModel.vesaSetCursor x y v) := by
  rw [VesaModel.vesaSetCursor]
  split
  · exact ⟨hs.width, hs.height, hs.numCols, hs.numRows⟩
  · exact hs

theorem Sized.scroll (hs : Sized w h v) : Sized w h (VesaModel.scroll v) := by
  have hline : Sized w h (VesaModel.wrapLine v) := by
    rw [VesaModel.wrapLine]
    split
    · exact ⟨hs.width, hs.height, hs.numCols, hs.numRows⟩
    · exact hs
  rw [VesaModel.scroll, scrollUp]
  split
  · exact (hline.withFb _).vesaSetCursor _ _
  · exact hline

theorem Sized.setCursorVis (hs : Sized w h v) (state : Nat) :
    Sized w h (vesaSetCursorVis font state v) := by
  rw [vesaSetCursorVis]
  split
  · exact ⟨hs.width, hs.height, hs.numCols, hs.numRows⟩
  · exact ⟨hs.width, hs.height, hs.numCols, hs.numRows⟩

theorem Sized.hideCursor (hs : Sized w h v) : Sized w h (vesaHideCursor v) :=
  ⟨hs.width, hs.height, hs.numCols, hs.numRows⟩

/-- No call changes the size of the screen. -/
theorem Sized.exec (hs : Sized w h v) (font : Int → BitVec 8) (op : VesaOp) :
    Sized w h (execOp font v op) := by
  cases op with
  | printChar c =>
      simp only [execOp, vesaPrintChar]
      split
      · exact (hs.hideCursor.vesaSetCursor _ _).scroll
      · split
        · exact hs.hideCursor.vesaSetCursor _ _
        · exact Sized.scroll ⟨hs.width, hs.height, hs.numCols, hs.numRows⟩
  | printBackspace =>
      exact Sized.scroll (Sized.setCursorVis
        (((hs.hideCursor.withCursorX _).vesaSetCursor _ _).withFb _) _)
  | setCursor x y => exact hs.vesaSetCursor x y
  | showCursor => exact ⟨hs.width, hs.height, hs.numCols, hs.numRows⟩
  | hideCursor => exact hs.hideCursor
  | clearScreen => exact (hs.withFb _).vesaSetCursor 0 0

/-- As long as every call meets its condition the cursor stays on the screen and every
access is to a pixel of the framebuffer; and the next call that does not meet it ends
this. -/
theorem vesa_safe_of_guarded {ops : List VesaOp} (hinit : VesaInit w h v)
    (hrun : Run (Guarded (VesaStep font) VesaGuard) v ops u) :
    VesaSafe u ∧ (w * h < 2 ^ 32 → fontBit font 219 15 0 = true →
      ∀ op, VesaSafe (execOp font u op) ↔ VesaGuard u op) := by
  have hg := hinit.geometry
  have hscreen : OnScreen w h u := by
    refine hrun.invariant (OnScreen w h) (fun t op t' ht hstep => ?_) hinit.onScreen
    obtain ⟨hguard, hcall⟩ := hstep
    cases hcall with
    | call => exact ht.exec hg hguard
  refine ⟨hscreen.sized.vesaSafe_iff.mpr hscreen, fun hsmall hfont op => ?_⟩
  rw [(hscreen.sized.exec font op).vesaSafe_iff]
  exact ⟨hscreen.guard_of_exec hg hsmall hfont, hscreen.exec hg⟩

end Runs

/-- A driver before `init_vesa`. -/
def vesaOff : Vesa := ⟨⟨fun _ => 0, []⟩, 0, 0, 0, 0, 0, 0, 0, 0, 0, 0, 0⟩

theorem vesaOff_init : VesaInit 1024 768 (initVesa 1024 768 vesaOff) :=
  ⟨by decide, by decide, by decide, by decide, vesaOff, rfl, rfl⟩

theorem vesa_safe_of_guarded_line : ∃ u, Run (VesaStep fun _ => 0xFF#8)
      (initVesa 1024 768 vesaOff) [.setCursor 0 46, .printChar newline] u ∧ VesaSafe u := by
  have hg := vesaOff_init.geometry
  have hfirst : VesaGuard (initVesa 1024 768 vesaOff) (.setCursor 0 46) :=
    fun _ => ⟨by decide, by decide⟩
  have hmoved := vesaOff_init.onScreen.sized.setCursor hg (Nat.zero_le (1024 / fontWidth))
    (show 46 ≤ 768 / fontHeight by decide)
  have hsecond : VesaGuard (vesaSetCursor 0 46 (initVesa 1024 768 vesaOff))
      (.printChar newline) := by
    rw [VesaGuard, if_pos rfl, hmoved.cursorY, hmoved.numRows]
    decide
  have hrun : Run (Guarded (VesaStep fun _ => 0xFF#8) VesaGuard) (initVesa 1024 768 vesaOff)
      [.setCursor 0 46, .printChar newline] _ :=
    .cons ⟨hfirst, .call _ _⟩ (.single ⟨hsecond, .call _ _⟩)
  exact ⟨_, hrun.of_guarded, (vesa_safe_of_guarded vesaOff_init hrun).1⟩

/-- A newline in the last line of a screen of 1024 by 768 pixels: `scroll` reads behind the
framebuffer. -/
theorem not_vesa_safe : ¬ ∀ (font : Int → BitVec 8) (w h : Nat) (v u : Vesa) (ops : List VesaOp),
    VesaInit w h v → Run (VesaStep font) v ops u → VesaSafe u := by
  intro hall
  have hg := vesaOff_init.geometry
  have hlast := vesaOff_init.onScreen.setCursor hg (x := 0) (y := 47)
    fun _ => ⟨by decide, by decide⟩
  have hmoved := vesaOff_init.onScreen.sized.setCursor hg (Nat.zero_le (1024 / fontWidth))
    (show 47 ≤ 768 / fontHeight by decide)
  have hfirst : VesaStep (fun _ => 0xFF#8) (initVesa 1024 768 vesaOff) (.setCursor 0 47) _ :=
    .call _ _
  have hsafe := hall _ _ _ _ _ _ vesaOff_init
    (.cons hfirst (.single (.call _ (.printChar newline))))
  have hnext := (hlast.sized.exec (fun _ => 0xFF#8) (.printChar newline)).vesaSafe_iff.mp hsafe
  have hguard := hlast.guard_of_exec hg (by decide) (by decide) hnext
  rw [VesaGuard, if_pos rfl, hmoved.cursorY, hmoved.numRows] at hguard
  exact absurd hguard (by decide)

end Longhorn.VesaSafety
