import Longhorn.LineEditing
import Longhorn.ModifierKeys
import Longhorn.TextScreen

/-!
From the keyboard to the screen: the line that the user edits is the line that the screen shows
and the line that a program reads.
-/

namespace Longhorn.TypedLines

open Longhorn.LineModel
open Longhorn.LineSafety
open Longhorn.LineEditing
open Longhorn.ModifierKeys
open Longhorn.Foundations.TextLines
open Longhorn.VesaModel
open Longhorn.VesaSafety
open Longhorn.Foundations.ByteMemory (Word wrap wrap_of_lt)
open Longhorn.TextScreen (Glyph Console TextOp execText ScreenFits Represents ShowsCell
  Placed.draw_fb drawCell_same cellPixel stripes)

/-- The functions of the VESA driver behind the calls of the display. -/
def displayOp : DisplayCall → TextOp
  | .putc c => .printChar c
  | .backspace => .printBackspace
  | .scur => .showCursor

/-- The driver after the calls, the last one first. -/
def execCalls (font : Int → BitVec 8) (calls : List DisplayCall) (v : Vesa) : Vesa :=
  (calls.reverse.map displayOp).foldl (execText font) v

/-- The keyboard interrupts for some scancodes in order. -/
def handleAll (scancodes : List Nat) (ld : LineDisc) : LineDisc :=
  scancodes.foldl (fun ld scancode => keyboardHandler scancode ld) ld

/-- The handler passes a scancode on. -/
def Forwards (s : Nat) : Prop :=
  (s = scLaltRel ∨ s = scLshiftRel ∨ s = scLctrlRel ∨ s = scRshiftRel) ∨ s < scReleased

instance (s : Nat) : Decidable (Forwards s) := inferInstanceAs (Decidable (_ ∨ _))

/-- What it passes on. -/
def forwarded (scancodes : List Nat) : List Int8 :=
  (scancodes.filter fun s => Forwards s).map toChar

theorem keyboardHandler_eq (s : Nat) (ld : LineDisc) :
    keyboardHandler s ld = if Forwards s then (lineIn ld (toChar s)).1 else ld := by
  rw [keyboardHandler]
  by_cases hrel : s = scLaltRel ∨ s = scLshiftRel ∨ s = scLctrlRel ∨ s = scRshiftRel
  · have hforwards : Forwards s := Or.inl hrel
    rw [if_pos hrel, if_pos hforwards]
    rfl
  · by_cases hlt : s < scReleased
    · have hforwards : Forwards s := Or.inr hlt
      rw [if_neg hrel, if_pos hlt, if_pos hforwards]
      rfl
    · have hforwards : ¬ Forwards s := not_or.mpr ⟨hrel, hlt⟩
      rw [if_neg hrel, if_neg hlt, if_neg hforwards]

theorem handleAll_eq (scancodes : List Nat) (ld : LineDisc) :
    handleAll scancodes ld = typeKeys ld (forwarded scancodes) := by
  induction scancodes generalizing ld with
  | nil => rfl
  | cons s rest ih =>
      have hstep : handleAll (s :: rest) ld = handleAll rest (keyboardHandler s ld) := rfl
      rw [hstep, ih, keyboardHandler_eq, forwarded, forwarded]
      by_cases hs : Forwards s
      · rw [if_pos hs, List.filter_cons_of_pos (by simp [hs]), List.map_cons]
        rfl
      · rw [if_neg hs, List.filter_cons_of_neg (by simp [hs])]

/-- The glyphs of a line that has been typed. -/
def glyphs {cols : Nat} (c : Console cols) (text : List Int8) : List (Option Glyph) :=
  text.map fun d => some ⟨d, c.fg, c.bg⟩

/-- The console with some characters typed behind its line. -/
structure TypedOn {cols : Nat} (c₀ : Console cols) (text : List Int8) (c : Console cols) :
    Prop where
  above : c.text.above = c₀.text.above
  line : c.text.line = c₀.text.line ++ glyphs c₀ text
  fg : c.fg = c₀.fg
  bg : c.bg = c₀.bg

section Console

variable {cols : Nat} {c₀ c : Console cols} {text : List Int8}

theorem length_glyphs : (glyphs c₀ text).length = text.length := List.length_map _

theorem TypedOn.length (h : TypedOn c₀ text c) :
    c.text.line.length = c₀.text.line.length + text.length := by
  rw [h.line, List.length_append, length_glyphs]

theorem TypedOn.showCursor (h : TypedOn c₀ text c)
    (hroom : c₀.text.line.length + text.length < cols) :
    TypedOn c₀ text (c.exec .showCursor) := by
  have herase : c.text.erase = c.text := Text.erase_of_lt (h.length ▸ hroom)
  rw [Console.exec, herase]
  exact ⟨h.above, h.line, h.fg, h.bg⟩

theorem TypedOn.printChar {d : Int8} (h : TypedOn c₀ text c) (hnewline : d ≠ newline)
    (htab : d ≠ tab) (hroom : c₀.text.line.length + (text ++ [d]).length < cols) :
    TypedOn c₀ (text ++ [d]) (c.exec (.printChar d)) := by
  rw [List.length_append, List.length_singleton] at hroom
  have hlen := h.length
  have hlt : c.text.line.length < cols := by omega
  have hnext : (c.text.line ++ [some (⟨d, c.fg, c.bg⟩ : Glyph)]).length < cols := by
    rw [List.length_append, List.length_singleton]
    omega
  rw [Console.exec, Console.char, if_neg hnewline, if_neg htab, Text.put, dif_pos hlt]
  simp only [hnext, ↓reduceIte]
  refine ⟨h.above, ?_, h.fg, h.bg⟩
  simp only [Console.withText, h.line, h.fg, h.bg, glyphs, List.map_append, List.map_singleton,
    List.append_assoc]

theorem TypedOn.printBackspace (h : TypedOn c₀ text c) (hne : text ≠ [])
    (hroom : c₀.text.line.length + text.length < cols) :
    TypedOn c₀ text.dropLast (c.exec .printBackspace) := by
  have herase : c.text.erase = c.text := Text.erase_of_lt (h.length ▸ hroom)
  have hline : c.text.line ≠ [] := by
    have hpos := List.length_pos_iff.mpr hne
    have hlen := h.length
    exact List.length_pos_iff.mp (by omega)
  have hglyphs : glyphs c₀ text ≠ [] := fun hnil => hne (List.map_eq_nil_iff.mp hnil)
  rw [Console.exec, Text.backspace, if_neg hline]
  refine ⟨?_, ?_, h.fg, h.bg⟩
  · simp only [Console.withText, herase]
    exact h.above
  · simp only [Console.withText, herase, h.line]
    rw [List.dropLast_append_of_ne_nil hglyphs, glyphs, glyphs, List.map_dropLast]

end Console

section Cells

variable {w h x y n : Nat} {font : Int → BitVec 8} {fb : Framebuffer} {v : Vesa} {bg : Word}
  {c : Console (w / fontWidth)}

/-- From a column on, the cells of a row have the background color. -/
def Blank (w x y : Nat) (bg : Word) (fb : Framebuffer) : Prop :=
  ∀ x', x ≤ x' → x' < w / fontWidth → ShowsCell w x' y (fun _ _ => bg) fb

theorem Blank.mono {x' : Nat} (hb : Blank w x y bg fb) (hle : x ≤ x') : Blank w x' y bg fb :=
  fun x'' hx'' => hb x'' (hle.trans hx'')

theorem Blank.drawCell_before (hb : Blank w (x + 1) y bg fb) (hx : x < w / fontWidth)
    (color : Nat → Nat → Option Word) : Blank w (x + 1) y bg
      (drawCell color (fontHeight * y * w + fontWidth * x) w fb) :=
  fun x' hx' hlt => (hb x' hx' hlt).drawCell_other hx hlt fun heq =>
    Nat.lt_irrefl x (heq.1 ▸ hx')

theorem Blank.drawCell_below {y' : Nat} (hb : Blank w x y bg fb) {x' : Nat}
    (hx' : x' < w / fontWidth) (hne : y ≠ y') (color : Nat → Nat → Option Word) : Blank w x y bg
      (drawCell color (fontHeight * y' * w + fontWidth * x') w fb) :=
  fun x'' hx'' hlt => (hb x'' hx'' hlt).drawCell_other hx' hlt fun heq => hne heq.2

theorem Blank.fill (hb : Blank w (x + 1) y bg fb) (hx : x < w / fontWidth) : Blank w x y bg
    (drawCell (fun _ _ => some bg) (fontHeight * y * w + fontWidth * x) w fb) := by
  intro x' hx' hlt
  rcases Nat.lt_or_eq_of_le hx' with hbehind | rfl
  · exact hb.drawCell_before hx _ x' hbehind hlt
  · exact drawCell_same hlt _

/-- `scroll` takes the row along in which the line ends that is over. -/
theorem Blank.scrollUp (hf : ScreenFits w h)
    (hp : Placed w h v 0 (min n (h / fontHeight - 1) + 1))
    (hb : Blank w x (min n (h / fontHeight - 1)) bg v.fb)
    (hpos : 0 < min (n + 1) (h / fontHeight - 1)) :
    Blank w x (min (n + 1) (h / fontHeight - 1) - 1) bg (VesaModel.scrollUp v).fb := by
  by_cases hlast : n < h / fontHeight - 1
  · rw [Nat.min_eq_left hlast.le] at hp hb
    rw [Nat.min_eq_left hlast, hp.scrollUp_of_lt (by omega)]
    exact hb
  · have hrow : min n (h / fontHeight - 1) = h / fontHeight - 1 - 1 + 1 := by omega
    have hrow' : min (n + 1) (h / fontHeight - 1) = h / fontHeight - 1 := by omega
    rw [hrow] at hp hb
    rw [hrow']
    have hge : v.numRows ≤ v.cursorY := by
      rw [hp.cursorY, hp.numRows]
      omega
    rw [scrollUp_fb_of_ge hge, hp.width, hp.height]
    exact fun x' hx' hlt =>
      (hb x' hx' hlt).scrollPixels hf.fits hf.height_lt hlt (by omega)

/-- The driver shows the console, and nothing stands behind the cursor in its row. -/
structure Tidy (w h : Nat) (font : Int → BitVec 8) (v : Vesa) (c : Console (w / fontWidth)) :
    Prop extends Represents w h font v c where
  blank : Blank w (c.text.line.length + 1) (c.text.row (h / fontHeight)) c.bg v.fb

theorem Tidy.draw_fb (hf : ScreenFits w h) (ht : Tidy w h font v c)
    (color : Nat → Nat → Option Word) : (v.draw color).fb =
      drawCell color (fontHeight * c.text.row (h / fontHeight) * w +
        fontWidth * c.text.line.length) w v.fb :=
  Placed.draw_fb ht.placed hf.fits (hf.row_lt _) hf.width_pos color

/-- Where the cursor is hidden, the row is blank from there on. -/
theorem Tidy.hideCursor (hf : ScreenFits w h) (ht : Tidy w h font v c)
    (hlt : c.text.line.length < w / fontWidth) : Blank w c.text.line.length
      (c.text.row (h / fontHeight)) c.bg (vesaHideCursor v).fb := by
  have hfb : (vesaHideCursor v).fb = (v.draw fun _ _ => some v.bgColor).fb := rfl
  rw [hfb, ht.draw_fb hf, ht.colored.2]
  exact ht.blank.fill hlt

theorem Tidy.showCursor (hf : ScreenFits w h) (ht : Tidy w h font v c)
    (hlt : c.text.line.length < w / fontWidth) :
    Tidy w h font (vesaShowCursor font v) (c.exec .showCursor) := by
  refine ⟨ht.toRepresents.showCursor hf, ?_⟩
  have hfb : (vesaShowCursor font v).fb = (v.draw fun i j =>
    if fontBit font 219 i j then some v.fgColor else none).fb := rfl
  rw [Console.exec, Text.erase_of_lt hlt, hfb, ht.draw_fb hf]
  exact ht.blank.drawCell_before hlt _

theorem Tidy.printChar {d : Int8} (hf : ScreenFits w h) (ht : Tidy w h font v c)
    (hnewline : d ≠ newline) (htab : d ≠ tab)
    (hroom : c.text.line.length + 1 < w / fontWidth) :
    Tidy w h font (vesaPrintChar font d v) (c.exec (.printChar d)) := by
  have hlt : c.text.line.length < w / fontWidth := Nat.lt_of_succ_lt hroom
  refine ⟨ht.toRepresents.printChar hf d, ?_⟩
  have hplaced := ht.placed.advance hf.toGeometry hlt fun i j =>
    some (if fontBit font d.toInt i j then v.fgColor else v.bgColor)
  have hlen : (c.text.line ++ [some (⟨d, c.fg, c.bg⟩ : Glyph)]).length =
      c.text.line.length + 1 := by
    rw [List.length_append, List.length_singleton]
  rw [vesaPrintChar, if_neg hnewline, if_neg htab, VesaModel.printGlyph,
    hplaced.scroll_of_lt hroom (hf.row_lt _), Console.exec, Console.char, if_neg hnewline,
    if_neg htab, Text.put, dif_pos hlt]
  simp only [hlen, hroom, ↓reduceIte, Console.withText]
  rw [ht.draw_fb hf]
  exact (ht.blank.drawCell_before hlt _).mono (Nat.le_succ _)

variable (font v) in
theorem setCursorVis_fb (state : Nat) :
    ∃ color, (vesaSetCursorVis font state v).fb = (v.draw color).fb := by
  rw [vesaSetCursorVis]
  split
  · exact ⟨fun i j => if fontBit font 219 i j then some v.fgColor else none, rfl⟩
  · exact ⟨fun _ _ => some v.bgColor, rfl⟩

theorem Tidy.printBackspace (hf : ScreenFits w h) (ht : Tidy w h font v c)
    (hne : c.text.line ≠ []) (hlt : c.text.line.length < w / fontWidth) :
    Tidy w h font (vesaPrintBackspace font v) (c.exec .printBackspace) := by
  have hpos := List.length_pos_iff.mpr hne
  have hleft : c.text.line.length - 1 < w / fontWidth := Nat.lt_of_le_of_lt (Nat.sub_le _ 1) hlt
  refine ⟨ht.toRepresents.printBackspace hf, ?_⟩
  obtain ⟨u, hu, hfb, heq⟩ := ht.placed.printBackspace_left hf.toGeometry hpos hlt (hf.row_lt _)
    font
  -- the cell that the cursor leaves is blank
  have hblank : Blank w (c.text.line.length - 1 + 1) (c.text.row (h / fontHeight)) c.bg u.fb := by
    rw [hfb, Nat.sub_add_cancel hpos]
    exact ht.hideCursor hf hlt
  have hdraw : ∀ {u' : Vesa}, Placed w h u' (c.text.line.length - 1) (c.text.row (h / fontHeight)) →
      Blank w (c.text.line.length - 1 + 1) (c.text.row (h / fontHeight)) c.bg u'.fb →
      ∀ color, Blank w (c.text.line.length - 1 + 1) (c.text.row (h / fontHeight)) c.bg
        (u'.draw color).fb := by
    intro u' hp' hb' color
    rw [Placed.draw_fb hp' hf.fits (hf.row_lt _) hf.width_pos]
    exact hb'.drawCell_before hleft color
  have hvis : Blank w (c.text.line.length - 1 + 1) (c.text.row (h / fontHeight)) c.bg
      (vesaSetCursorVis font (v.cursorOn % 2 ^ 8) u.fill).fb := by
    obtain ⟨color, hcolor⟩ := setCursorVis_fb font u.fill (v.cursorOn % 2 ^ 8)
    rw [hcolor]
    exact hdraw hu.fill (hdraw hu hblank _) color
  rw [heq, Console.exec, Text.backspace, if_neg hne]
  simp only [Console.withText, Text.erase_of_lt hlt, List.length_dropLast]
  exact hvis

/-- The line that is over, in the row above the cursor. -/
theorem Tidy.printNewline (hf : ScreenFits w h) (ht : Tidy w h font v c)
    (hlt : c.text.line.length < w / fontWidth)
    (hpos : 0 < c.text.newline.row (h / fontHeight)) : Blank w c.text.line.length
      (c.text.newline.row (h / fontHeight) - 1) c.bg (vesaPrintChar font newline v).fb := by
  have hrow := hf.row_lt c.text
  have hfour := hf.four_le
  have hheight := hf.height_lt
  have hnext : wrap ((vesaHideCursor v).cursorY + 1) = c.text.row (h / fontHeight) + 1 := by
    rw [ht.placed.hideCursor.cursorY]
    refine wrap_of_lt ?_
    unfold fontHeight at *
    omega
  have hmoved := ht.placed.hideCursor.toSized.setCursor hf.toGeometry
    (Nat.zero_le (w / fontWidth))
    (show c.text.row (h / fontHeight) + 1 ≤ h / fontHeight from hrow)
  rw [vesaPrintChar, if_pos rfl]
  simp only [hnext]
  rw [scroll, hmoved.wrapLine_of_lt (by omega)]
  refine Blank.scrollUp hf hmoved ?_ hpos
  rw [vesaSetCursor_fb]
  exact ht.hideCursor hf hlt

end Cells

section Keys

variable {ld : LineDisc} {e : Edit} {k : Int8} {cs : List Int8}

/-- What a key shows. -/
def echo (e : Edit) (k : Int8) : List DisplayCall :=
  match keyAction k with
  | .keep => []
  | .toggle => []
  | .erase => if e.text = [] then [] else [.scur, .backspace]
  | .print => [.scur, .putc (keyChar e.capitalize k)]

theorem screen_sendv (ld : LineDisc) : (lineSendv ld).1.screen = ld.screen := by
  rw [lineSendv]
  split <;> rfl

theorem screen_lineType (hc : keycode k ≤ kcMax) (h : Shows lineBufferSize ld e) :
    (lineType ld k).screen = .scur :: .putc (keyChar e.capitalize k) :: ld.screen := by
  obtain ⟨stored, hstored, hbuf, hi, hscreen⟩ : ∃ stored,
      lineType ld k = lineEcho (lineSendv stored).1 ∧
      stored.lineBuffer = Function.update ld.lineBuffer ld.bufferI
        (kcChar ld.ts.capitalize ld.behind (keycode k)) ∧
      stored.bufferI = ld.bufferI ∧ stored.screen = ld.screen := ⟨_, rfl, rfl, rfl, rfl⟩
  have hecho : ∀ x, (lineEcho x).screen = .scur :: .putc (x.lineBuffer x.bufferI) :: x.screen :=
    fun _ => rfl
  rw [hstored, hecho, lineBuffer_sendv, bufferI_sendv, screen_sendv, hbuf, hi, hscreen,
    Function.update_self, kcChar_eq_keyChar hc, h.capitalize]

theorem screen_lineIn (h : Shows lineBufferSize ld e) (hroom : e.text.length < lineBufferSize - 1) :
    (lineIn ld k).1.screen = echo e k ++ ld.screen := by
  have hi : ld.bufferI ≠ lineBufferSize - 1 := h.bufferI ▸ hroom.ne
  rw [echo]
  cases haction : keyAction k with
  | keep =>
      obtain ⟨-, hzero⟩ := evalKc_keep ld.ts haction
      rw [lineIn_cooked hi h.mode, if_pos hzero]
      rfl
  | toggle =>
      obtain ⟨-, hzero⟩ := evalKc_toggle ld.ts haction
      rw [lineIn_cooked hi h.mode, if_pos hzero]
      rfl
  | erase =>
      obtain ⟨heq, hkey⟩ := lineIn_erase h hroom haction
      rw [heq, lineErase, hkey.bufferI]
      by_cases hnil : e.text = []
      · rw [if_neg (by rw [hnil]; exact Nat.lt_irrefl 0), if_pos hnil]
        rfl
      · rw [if_pos (List.length_pos_iff.mpr hnil), if_neg hnil]
        rfl
  | print =>
      obtain ⟨heq, hkey, hc⟩ := lineIn_print h hroom haction
      rw [heq]
      exact screen_lineType hc hkey

theorem keyChar_ne (hc : keycode k ≤ kcMax) (hk : keycode k ≠ kcEnter) (b : Bool) :
    keyChar b k ≠ newline ∧ keyChar b k ≠ tab := by
  have hall : ∀ i, i ≤ kcMax → i ≠ kcEnter → ∀ b : Bool,
      (if b then kcAsciiCap.getD i 0 else kcAscii.getD i 0) ≠ newline ∧
        (if b then kcAsciiCap.getD i 0 else kcAscii.getD i 0) ≠ tab := by
    decide
  exact hall (keycode k) hc hk b

variable {cols : Nat} {c₀ c : Console cols}

/-- The console after the calls, the last one first. -/
def showCalls (calls : List DisplayCall) (c : Console cols) : Console cols :=
  (calls.reverse.map displayOp).foldl Console.exec c

theorem showCalls_append (calls calls' : List DisplayCall) (c : Console cols) :
    showCalls (calls' ++ calls) c = showCalls calls' (showCalls calls c) := by
  rw [showCalls, List.reverse_append, List.map_append, List.foldl_append]
  rfl

/-- One key changes the shown line as it changes the edited one. -/
theorem TypedOn.key (h : TypedOn c₀ e.text c) (hk : keycode k ≠ kcEnter)
    (hroom : c₀.text.line.length + e.text.length < cols)
    (hnext : c₀.text.line.length + (e.key k).text.length < cols) :
    TypedOn c₀ (e.key k).text (showCalls (echo e k) c) := by
  rw [Edit.key] at hnext ⊢
  rw [echo]
  cases haction : keyAction k with
  | keep => exact h
  | toggle => exact h
  | erase =>
      simp only [haction] at hnext
      by_cases hnil : e.text = []
      · simp only [hnil, ↓reduceIte, List.dropLast_nil]
        rw [hnil] at h
        exact h
      · simp only [hnil, ↓reduceIte]
        exact (h.printBackspace hnil hroom).showCursor hnext
  | print =>
      simp only [haction] at hnext
      obtain ⟨-, -, hc⟩ := evalKc_other ⟨e.capitalize, false, false⟩ (Or.inr haction)
      obtain ⟨hnewline, htab⟩ := keyChar_ne hc hk e.capitalize
      exact (h.printChar hnewline htab hnext).showCursor hnext

/-- One key keeps the row blank behind the cursor. -/
theorem Tidy.key {w h : Nat} {font : Int → BitVec 8} {v : Vesa} {c₀ c : Console (w / fontWidth)}
    (hf : ScreenFits w h) (hv : Tidy w h font v c) (ht : TypedOn c₀ e.text c)
    (hk : keycode k ≠ kcEnter) (hroom : c₀.text.line.length + e.text.length < w / fontWidth)
    (hnext : c₀.text.line.length + (e.key k).text.length < w / fontWidth) :
    Tidy w h font (execCalls font (echo e k) v) (showCalls (echo e k) c) := by
  have hlen := ht.length
  rw [Edit.key] at hnext
  rw [echo]
  cases haction : keyAction k with
  | keep => exact hv
  | toggle => exact hv
  | erase =>
      by_cases hnil : e.text = []
      · rw [if_pos hnil]
        exact hv
      · simp only [haction] at hnext
        rw [if_neg hnil]
        have hpos := List.length_pos_iff.mpr hnil
        have herased := ht.printBackspace hnil hroom
        refine Tidy.showCursor hf (hv.printBackspace hf ?_ (by omega)) (herased.length ▸ hnext)
        exact List.length_pos_iff.mp (by omega)
  | print =>
      simp only [haction] at hnext
      obtain ⟨-, -, hc⟩ := evalKc_other ⟨e.capitalize, false, false⟩ (Or.inr haction)
      obtain ⟨hnewline, htab⟩ := keyChar_ne hc hk e.capitalize
      have hprinted := ht.printChar hnewline htab hnext
      refine Tidy.showCursor hf (hv.printChar hf hnewline htab ?_) (hprinted.length ▸ hnext)
      rw [List.length_append, List.length_singleton] at hnext
      omega

theorem execCalls_append (font : Int → BitVec 8) (calls calls' : List DisplayCall) (v : Vesa) :
    execCalls font (calls' ++ calls) v = execCalls font calls' (execCalls font calls v) := by
  rw [execCalls, List.reverse_append, List.map_append, List.foldl_append]
  rfl

/-- The keys of a line that leave it in one line of the screen. -/
def FitsLine (cols : Nat) (c₀ : Console cols) (e : Edit) (cs : List Int8) : Prop :=
  ∀ p, p <+: cs → (e.keys p).text.length < lineBufferSize - 1 ∧
    c₀.text.line.length + (e.keys p).text.length < cols

theorem FitsLine.of_append (h : FitsLine cols c₀ e (cs ++ [k])) : FitsLine cols c₀ e cs :=
  fun p hp => h p (hp.trans (List.prefix_append cs [k]))

/-- The screen shows the line as it is edited. -/
theorem typed_keys {w h : Nat} {font : Int → BitVec 8} {v : Vesa} {c₀ c : Console (w / fontWidth)}
    {cs : List Int8} (hf : ScreenFits w h) (hs : Shows lineBufferSize ld e)
    (hv : Tidy w h font v c) (ht : TypedOn c₀ e.text c) (hcs : ∀ k ∈ cs, keycode k ≠ kcEnter)
    (hfits : FitsLine (w / fontWidth) c₀ e cs) :
    ∃ calls, (typeKeys ld cs).screen = calls ++ ld.screen ∧
      TypedOn c₀ (e.keys cs).text (showCalls calls c) ∧
      Tidy w h font (execCalls font calls v) (showCalls calls c) := by
  induction cs using List.reverseRecOn with
  | nil => exact ⟨[], rfl, ht, hv⟩
  | append_singleton cs k ih =>
      obtain ⟨calls, hscreen, htyped, htidy⟩ :=
        ih (fun k' hk' => hcs k' (List.mem_append_left _ hk')) hfits.of_append
      have hbefore : Shows lineBufferSize (typeKeys ld cs) (e.keys cs) :=
        hs.keys cs fun p hp _ => (hfits.of_append p hp).1
      have hfull := hfits (cs ++ [k]) (List.prefix_refl _)
      have hlast := hfits.of_append cs (List.prefix_refl cs)
      rw [keys_append] at hfull ⊢
      have hkey := hcs k (List.mem_append_right _ List.mem_cons_self)
      refine ⟨echo (e.keys cs) k ++ calls, ?_, ?_, ?_⟩
      · rw [typeKeys_append, screen_lineIn hbefore hlast.1, hscreen, List.append_assoc]
      · rw [showCalls_append]
        exact htyped.key hkey hlast.2 hfull.2
      · rw [showCalls_append, execCalls_append]
        exact htidy.key hf htyped hkey hlast.2 hfull.2

end Keys

section Lines

variable {w h : Nat} {font : Int → BitVec 8} {v : Vesa} {c : Console (w / fontWidth)}
  {ld : LineDisc} {scancodes : List Nat}

theorem Represents.calls (hf : ScreenFits w h) (hr : Represents w h font v c)
    (calls : List DisplayCall) :
    Represents w h font (execCalls font calls v) (showCalls calls c) :=
  hr.run hf (calls.reverse.map displayOp)

theorem screen_clearBuffer {k : Nat} : (clearBuffer ld k).screen = ld.screen := by
  induction k with
  | zero => rfl
  | succ k ih => exact ih

theorem screen_flush (ld : LineDisc) : (lineFlush ld).1.screen = ld.screen := by
  have hclear := @screen_clearBuffer ld lineBufferSize
  rw [lineFlush]
  generalize clearBuffer ld lineBufferSize = cleared at hclear
  exact hclear

theorem forwarded_append_enter (scancodes : List Nat) :
    forwarded (scancodes ++ [kcEnter]) = forwarded scancodes ++ [toChar kcEnter] := by
  rw [forwarded, forwarded, List.filter_append, List.map_append]
  rfl

theorem showCalls_enter {e : Edit} {c₀ : Console (w / fontWidth)} (hf : ScreenFits w h)
    (ht : TypedOn c₀ e.text c)
    (hroom : c₀.text.line.length + e.text.length < w / fontWidth) :
    (showCalls (echo e (toChar kcEnter)) c).text.above =
        (c₀.text.line ++ glyphs c₀ e.text) :: c₀.text.above ∧
      (showCalls (echo e (toChar kcEnter)) c).text.line = [] := by
  have henter : keycode (toChar kcEnter) = kcEnter := by decide
  have hfour := hf.four_le
  have hcalls : showCalls (echo e (toChar kcEnter)) c =
      (c.exec (.printChar newline)).exec .showCursor := by
    rw [echo, keyAction_enter henter, keyChar_enter henter]
    rfl
  have herase : c.text.erase = c.text := Text.erase_of_lt (ht.length ▸ hroom)
  have hempty : (c.text.newline).erase = c.text.newline :=
    Text.erase_of_lt (show 0 < w / fontWidth by omega)
  have hchar : c.exec (.printChar newline) = c.withText c.text.newline := by
    rw [Console.exec, Console.char, if_pos rfl, herase]
  have hshow : showCalls (echo e (toChar kcEnter)) c = c.withText c.text.newline := by
    rw [hcalls, hchar, Console.exec]
    simp only [Console.withText, hempty]
  rw [hshow]
  simp only [Console.withText, Text.newline, Text.lines, ht.line, ht.above, and_self]

/-- The line that is over stays blank behind its end. -/
theorem Tidy.enter {e : Edit} (hf : ScreenFits w h) (hv : Tidy w h font v c)
    (hlt : c.text.line.length < w / fontWidth) (hpos : 0 < c.text.newline.row (h / fontHeight)) :
    Blank w c.text.line.length (c.text.newline.row (h / fontHeight) - 1) c.bg
      (execCalls font (echo e (toChar kcEnter)) v).fb := by
  have henter : keycode (toChar kcEnter) = kcEnter := by decide
  have hfour := hf.four_le
  have hcalls : (execCalls font (echo e (toChar kcEnter)) v).fb =
      ((vesaPrintChar font newline v).draw fun i j => if fontBit font 219 i j
        then some (vesaPrintChar font newline v).fgColor else none).fb := by
    rw [echo, keyAction_enter henter, keyChar_enter henter]
    rfl
  have hchar : c.char newline = c.withText c.text.newline := by
    rw [Console.char, if_pos rfl, Text.erase_of_lt hlt]
  have hplaced := (hv.toRepresents.printNewline hf).placed
  rw [hchar] at hplaced
  rw [hcalls, Placed.draw_fb hplaced hf.fits (hf.row_lt _) hf.width_pos]
  refine (hv.printNewline hf hlt hpos).drawCell_below (show 0 < w / fontWidth by omega) ?_ _
  simp only [Console.withText]
  omega

theorem holdsString_enter {e : Edit} (hs : Shows lineBufferSize ld e)
    (hroom : e.text.length < lineBufferSize - 1) :
    HoldsString (lineIn ld (toChar kcEnter)).1.lineBuffer (e.text ++ [10]) := by
  have henter : keycode (toChar kcEnter) = kcEnter := by decide
  have hkey : Shows lineBufferSize (lineIn ld (toChar kcEnter)).1
      { e with text := e.text ++ [10] } := by
    have hprinted : Shows lineBufferSize _ (e.key (toChar kcEnter)) := hs.key hroom
    rwa [Edit.key, keyAction_enter henter, keyChar_enter henter] at hprinted
  refine ⟨hkey.text, hkey.nonzero, ?_⟩
  rw [List.length_append, List.length_singleton]
  exact hs.terminated hroom (by omega) (keyAction_enter henter)

theorem at_typed {e : Edit} {c₀ : Console (w / fontWidth)} {row k : Nat} {d : Int8}
    (hd : e.text[k]? = some d) (hrow : 0 < row) :
    At ([] :: (c₀.text.line ++ glyphs c₀ e.text) :: c₀.text.above) row
      (c₀.text.line.length + k) (row - 1) ⟨d, c₀.fg, c₀.bg⟩ := by
  refine ⟨Nat.sub_le row 1, c₀.text.line ++ glyphs c₀ e.text, ?_, ?_⟩
  · rw [Nat.sub_sub_self hrow]
    rfl
  · rw [List.getElem?_append_right (Nat.le_add_right _ _), Nat.add_sub_cancel_left, glyphs,
      List.getElem?_map, hd]
    rfl

/-- The line that has been typed up to Enter is what the buffer holds, and what the last full line
of the screen shows behind the prompt: every character that a program reads has its pixels
where the user has typed it, and what has been erased is on neither side, since the rest of the
row has the color of the background. -/
theorem typed_line_shown (hf : ScreenFits w h) (hr : Represents w h font v c)
    (hblank : Blank w (v.cursorX + 1) v.cursorY c.bg v.fb) (hmode : ld.mode = .cooked)
    (hcs : ∀ k ∈ forwarded scancodes, keycode k ≠ kcEnter)
    (hfits : FitsLine (w / fontWidth) c ⟨ld.ts.capitalize, []⟩ (forwarded scancodes)) :
    let text := (Edit.keys ⟨ld.ts.capitalize, []⟩ (forwarded scancodes)).text
    let ld' := handleAll (scancodes ++ [kcEnter]) (lineFlush ld).1
    HoldsString ld'.lineBuffer (text ++ [10]) ∧
      ∃ calls, ld'.screen = calls ++ ld.screen ∧
        let u := execCalls font calls v
        u.cursorX = 0 ∧ u.cursorY = min (c.text.above.length + 1) (h / fontHeight - 1) ∧
        (0 < u.cursorY →
          (∀ k d, text[k]? = some d → ∀ i j, i < fontHeight → j < fontWidth →
            u.fb.pixels (cellPixel w (c.text.line.length + k) (u.cursorY - 1) i j) =
              if fontBit font d.toInt i j then c.fg else c.bg) ∧
          ∀ x, c.text.line.length + text.length ≤ x → x < w / fontWidth →
            ∀ i j, i < fontHeight → j < fontWidth →
              u.fb.pixels (cellPixel w x (u.cursorY - 1) i j) = c.bg) := by
  intro text ld'
  have hflush := Shows.flush hmode
  have hstart : TypedOn c ([] : List Int8) c := ⟨rfl, (List.append_nil _).symm, rfl, rfl⟩
  have htidy : Tidy w h font v c := by
    refine ⟨hr, ?_⟩
    rwa [hr.placed.cursorX, hr.placed.cursorY] at hblank
  obtain ⟨calls, hscreen, htyped, htidied⟩ := typed_keys hf hflush htidy hstart hcs hfits
  have hbefore : Shows lineBufferSize (typeKeys (lineFlush ld).1 (forwarded scancodes)) _ :=
    hflush.keys (forwarded scancodes) fun p hp _ => (hfits p hp).1
  have hlast := hfits (forwarded scancodes) (List.prefix_refl _)
  have hld : ld' = (lineIn (typeKeys (lineFlush ld).1 (forwarded scancodes))
      (toChar kcEnter)).1 := by
    rw [← typeKeys_append, ← forwarded_append_enter]
    exact handleAll_eq _ _
  obtain ⟨habove, hline⟩ := showCalls_enter hf htyped hlast.2
  rw [← showCalls_append] at habove hline
  have hnewline : (showCalls calls c).text.newline.row (h / fontHeight) =
      min (c.text.above.length + 1) (h / fontHeight - 1) := by
    rw [← htyped.above]
    rfl
  have hrest := htidied.enter (e := Edit.keys ⟨ld.ts.capitalize, []⟩ (forwarded scancodes)) hf
    (htyped.length ▸ hlast.2)
  rw [hnewline, htyped.length, htyped.bg, ← execCalls_append] at hrest
  obtain ⟨shown, hshown⟩ : ∃ shown, shown =
      echo (Edit.keys ⟨ld.ts.capitalize, []⟩ (forwarded scancodes)) (toChar kcEnter) ++ calls :=
    ⟨_, rfl⟩
  rw [← hshown] at habove hline hrest
  have hrep := Represents.calls hf hr shown
  have hx := hrep.placed.cursorX
  have hy := hrep.placed.cursorY
  rw [hline, List.length_nil] at hx
  rw [Text.row, habove, List.length_cons] at hy
  refine ⟨?_, shown, ?_, hx, hy, fun hpos => ⟨fun k d hd => ?_, ?_⟩⟩
  · rw [hld]
    exact holdsString_enter hbefore hlast.1
  · rw [hld, screen_lineIn hbefore hlast.1, hscreen, screen_flush, hshown, List.append_assoc]
  · refine hrep.shows _ _ ⟨d, c.fg, c.bg⟩ ?_
    rw [Text.row, habove, List.length_cons, ← hy, Text.lines, habove, hline]
    exact at_typed hd hpos
  · rw [hy] at hpos ⊢
    exact hrest hpos

/-- The keys of three letters and a backspace, at the start of a line. -/
theorem typed_line_shown_erase :
    ∃ (ld : LineDisc) (u : Vesa), HoldsString ld.lineBuffer ([97, 98] ++ [10]) ∧ u.cursorX = 0 ∧
      (∀ i j, i < fontHeight → j < fontWidth → u.fb.pixels (cellPixel 1024 1 0 i j) =
        if fontBit stripes 98 i j then white else black) ∧
      ∀ i j, i < fontHeight → j < fontWidth → u.fb.pixels (cellPixel 1024 2 0 i j) = black := by
  have hfits : FitsLine (1024 / fontWidth) (Console.init (1024 / fontWidth)) ⟨false, []⟩
      (forwarded [0x1E, 0x9E, 0x30, 0x2E, 0x0E]) := by
    intro p hp
    have hle := (length_keys_le (e := ⟨false, []⟩) p).trans (Nat.add_le_add_left hp.length_le _)
    have hfour : 0 + (forwarded [0x1E, 0x9E, 0x30, 0x2E, 0x0E]).length = 4 := by decide
    change _ ≤ 0 + _ at hle
    rw [hfour] at hle
    refine ⟨lt_of_le_of_lt hle (by decide), ?_⟩
    change 0 + _ < _
    exact lt_of_le_of_lt (by rwa [Nat.zero_add]) (show 4 < 1024 / fontWidth by decide)
  have hmode : (lineStart .cooked).mode = .cooked := rfl
  have hkeys : ∀ k ∈ forwarded [0x1E, 0x9E, 0x30, 0x2E, 0x0E], keycode k ≠ kcEnter := by
    have hall : forwarded [0x1E, 0x9E, 0x30, 0x2E, 0x0E] = [0x1E, 0x30, 0x2E, 0x0E] := by decide
    rw [hall]
    simp only [List.forall_mem_cons]
    exact ⟨by decide, by decide, by decide, by decide, nofun⟩
  have hstart := TextScreen.represents_init stripes vesaOff_init
  have hblank : Blank 1024 1 0 black (initVesa 1024 768 vesaOff).fb := fun _ _ _ _ _ _ _ => rfl
  obtain ⟨hholds, calls, -, hx, hy, hpixels⟩ := typed_line_shown
    (.of_init vesaOff_init (by decide)) hstart hblank hmode hkeys hfits
  have hone : (execCalls stripes calls (initVesa 1024 768 vesaOff)).cursorY = 1 :=
    hy.trans (by decide)
  obtain ⟨hletters, hrest⟩ := hpixels (by rw [hone]; decide)
  have hletter := hletters 1 98 (by decide)
  have hcell := hrest 2 (by decide) (by decide)
  rw [hone] at hletter hcell
  exact ⟨_, _, hholds, hx, hletter, hcell⟩

end Lines

end Longhorn.TypedLines
