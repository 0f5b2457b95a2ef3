import Longhorn.VesaSafety

/-!
Which pixels `scroll` moves.
-/

namespace Longhorn.Scrolling

open Longhorn.Foundations.ByteMemory
open Longhorn.Foundations.CountedLoops
open Longhorn.VesaModel
open Longhorn.VesaSafety

/-- A call of `scroll` whose cursor is below the last text row when it is looked at. The
framebuffer has four bytes a pixel, and the log starts with the call. -/
structure ScrollCall (w h : Nat) (v : Vesa) : Prop where
  sized : Sized w h v
  width_dvd : fontWidth ∣ w
  height_dvd : fontHeight ∣ h
  fits : 4 * (w * h) ≤ 2 ^ 32
  below : v.numRows ≤ (wrapLine v).cursorY
  log : v.fb.accesses = []

/-- What `scroll` is for: each text row moves up by one, the last one becomes blank. -/
structure Scrolls (w h : Nat) (v : Vesa) : Prop where
  moved : ∀ r i x, r + 1 < h / fontHeight → i < fontHeight → x < w →
    (scroll v).fb.pixels ((fontHeight * r + i) * w + x) =
      v.fb.pixels ((fontHeight * (r + 1) + i) * w + x)
  blanked : ∀ r i x, r + 1 = h / fontHeight → i < fontHeight → x < w →
    (scroll v).fb.pixels ((fontHeight * r + i) * w + x) = v.bgColor
  inside : ∀ a ∈ (scroll v).fb.accesses, a < w * h

/-- The rows in front of row `n` hold what was 16 rows further down, if that is a row. -/
def Copied (w h : Nat) (fb : Framebuffer) (n : Nat) (fb' : Framebuffer) : Prop :=
  (∀ y x, y < n → y + fontHeight < h → x < w →
      fb'.pixels (y * w + x) = fb.pixels ((y + fontHeight) * w + x)) ∧
    ∀ a, n * w ≤ a → fb'.pixels a = fb.pixels a

/-- The same for the first `k` pixels of row `y`, and the rest as before that row. -/
def RowCopied (w h : Nat) (fb fb₁ : Framebuffer) (y k : Nat) (fb' : Framebuffer) : Prop :=
  (∀ x, x < k → y + fontHeight < h →
      fb'.pixels (y * w + x) = fb.pixels ((y + fontHeight) * w + x)) ∧
    ∀ a, a < y * w ∨ y * w + k ≤ a → fb'.pixels a = fb₁.pixels a

section Pixels

variable {w h y x n : Nat} {fb fb₁ : Framebuffer} {v : Vesa}

theorem row_le (hy : y < h) : y * w + w ≤ w * h := by
  calc y * w + w = w * (y + 1) := by rw [Nat.mul_succ, Nat.mul_comm]
    _ ≤ w * h := Nat.mul_le_mul_left w hy

theorem RowCopied.copy {k : Nat} {fb₂ : Framebuffer} (hsmall : w * h < 2 ^ 32) (hy : y < h)
    (hk : k < w) (h₁ : Copied w h fb y fb₁) (h₂ : RowCopied w h fb fb₁ y k fb₂) :
    RowCopied w h fb fb₁ y (k + 1)
      (fb₂.copy (wrap (y * w + k)) (wrap ((y + fontHeight) * w + k))) := by
  have hdst := row_le (w := w) hy
  rw [wrap_of_lt (by omega : y * w + k < 2 ^ 32)]
  constructor
  · intro x hx hrow
    rcases Nat.lt_succ_iff_lt_or_eq.mp hx with hlt | rfl
    · exact (Function.update_of_ne (by omega) _ _).trans (h₂.1 x hlt hrow)
    · have hsrc := row_le (w := w) hrow
      have hnext : y * w + w ≤ (y + fontHeight) * w := by
        rw [Nat.add_mul]
        exact Nat.add_le_add_left (Nat.le_mul_of_pos_left w (by decide)) _
      refine (Function.update_self _ _ _).trans ?_
      rw [wrap_of_lt (by omega), h₂.2 _ (by omega), h₁.2 _ (by omega)]
  · intro a ha
    exact (Function.update_of_ne (by omega) _ _).trans (h₂.2 a (by omega))

theorem Copied.row (hsmall : w * h < 2 ^ 32) (hy : y < h) (h₁ : Copied w h fb y fb₁) :
    Copied w h fb (y + 1) (forUpTo w (fun x fb =>
      fb.copy (wrap (y * w + x)) (wrap ((y + fontHeight) * w + x))) fb₁) := by
  have hrow := forUpTo_invariant (RowCopied w h fb fb₁ y) (s := fb₁)
    ⟨nofun, fun _ _ => rfl⟩ fun k _ hk h₂ => h₂.copy hsmall hy hk h₁
  constructor
  · intro y' x hy' hrows hx
    rcases Nat.lt_succ_iff_lt_or_eq.mp hy' with hlt | rfl
    · have hbefore : y' * w + w ≤ y * w := by
        rw [← Nat.succ_mul]
        exact Nat.mul_le_mul_right w hlt
      rw [hrow.2 _ (Or.inl (by omega)), h₁.1 y' x hlt hrows hx]
    · exact hrow.1 x hx hrows
  · intro a ha
    rw [Nat.succ_mul] at ha
    rw [hrow.2 a (Or.inr ha), h₁.2 a (by omega)]

/-- The loops of `scroll` go down the rows, so that they read no row they have written. -/
theorem scrollPixels_copied (hsmall : w * h < 2 ^ 32) (hh : 0 < h) (hlt : h < 2 ^ 32) :
    Copied w h fb (h - 1) (scrollPixels w h fb) := by
  rw [scrollPixels, wrapSub_of_le hlt hh]
  refine forUpTo_invariant (Copied w h fb) ⟨nofun, fun _ _ => rfl⟩ fun y _ hy h₁ => ?_
  exact h₁.row hsmall (by omega)

theorem ScrollCall.scroll_fb (hcall : ScrollCall w h v) :
    (scroll v).fb = scrollPixels w h v.fb := by
  have hsame : (wrapLine v).width = v.width ∧ (wrapLine v).height = v.height ∧
      (wrapLine v).numRows = v.numRows := by
    rw [wrapLine]
    split <;> exact ⟨rfl, rfl, rfl⟩
  rw [scroll, scrollUp_fb_of_ge (by rw [hsame.2.2]; exact hcall.below), wrapLine_fb, hsame.1,
    hsame.2.1, hcall.sized.width, hcall.sized.height]

/-- Every text row but the last is what the next one was. -/
theorem ScrollCall.moves_rows (hcall : ScrollCall w h v) {r i : Nat} (hr : r + 1 < h / fontHeight)
    (hi : i < fontHeight) (hx : x < w) :
    (scroll v).fb.pixels ((fontHeight * r + i) * w + x) =
      v.fb.pixels ((fontHeight * (r + 1) + i) * w + x) := by
  have hfits := hcall.fits
  have hrow : fontHeight * r + i + fontHeight < h := by
    unfold fontHeight at *
    omega
  have hheight : h ≤ w * h := Nat.le_mul_of_pos_left h (by omega)
  have hcopied : Copied w h v.fb (h - 1) (scrollPixels w h v.fb) :=
    scrollPixels_copied (by omega) (by omega) (by omega)
  have hbelow : fontHeight * r + i + fontHeight = fontHeight * (r + 1) + i := by
    rw [Nat.mul_succ, Nat.add_right_comm]
  rw [hcall.scroll_fb, hcopied.1 _ x (by unfold fontHeight at *; omega) hrow hx, hbelow]

/-- The last rows of the screen are read from behind it. -/
theorem ScrollCall.exists_outside (hcall : ScrollCall w h v) (hw : 0 < w) :
    ∃ a ∈ (scroll v).fb.accesses, w * h ≤ a := by
  have hfits := hcall.fits
  rw [hcall.scroll_fb]
  rcases Nat.eq_zero_or_pos h with rfl | hh
  · exact ⟨wrap (0 * w + 0), mem_scrollPixels.mpr (Or.inl ⟨0, by decide, 0, hw, Or.inl rfl⟩),
      Nat.zero_le _⟩
  · have hrows : fontHeight ≤ h := Nat.le_of_dvd hh hcall.height_dvd
    have hheight : h ≤ w * h := Nat.le_mul_of_pos_left h hw
    refine ⟨w * h, mem_scrollPixels.mpr (Or.inl ⟨h - fontHeight, ?_, 0, hw, Or.inr ?_⟩),
      Nat.le_refl _⟩
    · rw [wrapSub_of_le (by omega) hh]
      unfold fontHeight at *
      omega
    · rw [Nat.sub_add_cancel hrows, Nat.add_zero, Nat.mul_comm h, wrap_of_lt (by omega)]

end Pixels

/-- The text moves up, but on every screen with pixels `scroll` reads behind the
framebuffer. -/
theorem scrolls_iff {w h : Nat} {v : Vesa} (hcall : ScrollCall w h v) :
    (∀ r i x, r + 1 < h / fontHeight → i < fontHeight → x < w →
        (scroll v).fb.pixels ((fontHeight * r + i) * w + x) =
          v.fb.pixels ((fontHeight * (r + 1) + i) * w + x)) ∧
      (Scrolls w h v ↔ w = 0) := by
  refine ⟨fun r i x hr hi hx => hcall.moves_rows hr hi hx, ?_, ?_⟩
  · intro hscrolls
    by_contra hw
    obtain ⟨a, ha, hout⟩ := hcall.exists_outside (Nat.pos_of_ne_zero hw)
    exact Nat.not_lt_of_le hout (hscrolls.inside a ha)
  · rintro rfl
    refine ⟨nofun, nofun, fun a ha => ?_⟩
    rw [hcall.scroll_fb, mem_scrollPixels, hcall.log] at ha
    rcases ha with ⟨_, _, x, hx, _⟩ | hlog
    · exact absurd hx (Nat.not_lt_zero x)
    · cases hlog

/-- A screen of 1024 by 768 pixels with the cursor below its last row. -/
def fullScreen : Vesa := vesaSetCursor 0 48 (initVesa 1024 768 vesaOff)

theorem scrollCall_fullScreen : ScrollCall 1024 768 fullScreen :=
  ⟨⟨rfl, rfl, rfl, rfl⟩, by decide, by decide, by decide, by decide, rfl⟩

theorem scrolls_iff_fullScreen : ¬ Scrolls 1024 768 fullScreen :=
  mt (scrolls_iff scrollCall_fullScreen).2.mp (by decide)

theorem not_scrolls : ¬ ∀ (w h : Nat) (v : Vesa), ScrollCall w h v → Scrolls w h v := by
  intro hall
  obtain ⟨a, ha, hout⟩ := scrollCall_fullScreen.exists_outside (by decide)
  exact Nat.not_lt_of_le hout ((hall _ _ _ scrollCall_fullScreen).inside a ha)

end Longhorn.Scrolling
