import Longhorn.BmpModel

/-!
Where `draw_bmp_data` finds the rows of an image.
-/

namespace Longhorn.BmpDrawing

open Longhorn.Foundations.ByteMemory
open Longhorn.Foundations.PaddedRows
open Longhorn.BmpModel

/-- The length of a stored row: three bytes a pixel, padded to a multiple of four. -/
def stride (w : Nat) : Nat := (3 * w + 3) / 4 * 4

/-- The address of a pixel of the stored rows. -/
def storedAt (header : BmpFileHeader) (c : Nat × Nat) : Nat :=
  header.data + c.1 * stride header.width + 3 * c.2

/-- Each pixel is drawn in its place, the stored rows from the bottom up, and nothing behind
the image is read. -/
def DrawsRows (m : Memory) (header : BmpFileHeader) (x y : Word) : Prop :=
  (drawBmpData m header x y).draws = header.pixels.map (fun c =>
      ⟨x + BitVec.ofNat 32 c.2, y + BitVec.ofNat 32 (header.height - c.1),
        color m (storedAt header c)⟩) ∧
    ∀ a ∈ (drawBmpData m header x y).accesses,
      a < header.data + header.height * stride header.width

section Rows

variable {m : Memory} {header : BmpFileHeader} {x y : Word}

theorem drawBmpData_draws (hdata : header.data ≠ 0) :
    (drawBmpData m header x y).draws = header.pixels.map fun c =>
      ⟨x + BitVec.ofNat 32 c.2, y + BitVec.ofNat 32 (header.height - c.1),
        color m (header.pixelAt c)⟩ := by
  have hfold : ∀ (cs : List (Nat × Nat)) (s : Drawing),
      (cs.foldl
        (fun s c => drawPixel m x y (header.height - c.1) c.2 (header.pixelAt c) s) s).draws =
        s.draws ++ cs.map fun c => ⟨x + BitVec.ofNat 32 c.2,
          y + BitVec.ofNat 32 (header.height - c.1), color m (header.pixelAt c)⟩ := by
    intro cs
    induction cs with
    | nil => simp
    | cons c cs ih =>
        intro s
        rw [List.foldl_cons, ih, drawPixel, List.append_assoc]
        rfl
  rw [drawBmpData, forPixels_eq hdata, hfold]
  rfl

/-- For a multiple of four columns the padding is one word too long. -/
theorem row_eq (hbpp : header.infoHeader.bpp = 24#16) :
    header.row = stride header.width + if header.width % 4 = 0 then 4 else 0 := by
  rw [BmpFileHeader.row, BmpFileHeader.padding, hbpp, stride, wrap,
    Nat.mod_mod_of_dvd _ (by decide : 4 ∣ 2 ^ 32)]
  have hbytes : (24#16).toNat / 8 = 3 := by decide
  have hcases : header.width % 4 = 0 ∨ header.width % 4 = 1 ∨ header.width % 4 = 2 ∨
      header.width % 4 = 3 := by omega
  rw [hbytes]
  rcases hcases with h | h | h | h
  · rw [if_pos h]
    omega
  all_goals
    rw [if_neg (by omega)]
    omega

theorem le_stride (w : Nat) : 3 * w ≤ stride w := by
  rw [stride]
  omega

/-- Where the rows are as they are stored, or only the first one is looked at. -/
theorem pixelAt_eq (hbpp : header.infoHeader.bpp = 24#16)
    (hcond : header.width % 4 ≠ 0 ∨ header.height ≤ 1) {c : Nat × Nat} (hc : c ∈ header.pixels) :
    header.pixelAt c = storedAt header c := by
  rw [BmpFileHeader.pixelAt, storedAt, place, row_eq hbpp, Nat.mul_comm c.2]
  rcases hcond with hfour | hone
  · rw [if_neg hfour, Nat.add_zero]
  · have hfirst : c.1 = 0 := by
      have := (mem_pixels.mp hc).1
      omega
    rw [hfirst, Nat.zero_mul, Nat.zero_mul]

theorem drawsRows_of_pixelAt (hdata : header.data ≠ 0)
    (hplace : ∀ c ∈ header.pixels, header.pixelAt c = storedAt header c) :
    DrawsRows m header x y := by
  constructor
  · rw [drawBmpData_draws hdata]
    exact List.map_congr_left fun c hc => by rw [hplace c hc]
  · intro a ha
    obtain ⟨c, hc, _, hlt⟩ := (mem_drawBmpData hdata x y a).mp ha
    obtain ⟨hk, hj⟩ := mem_pixels.mp hc
    have hstride := le_stride header.width
    have hrows : (c.1 + 1) * stride header.width ≤ header.height * stride header.width :=
      Nat.mul_le_mul_right _ hk
    rw [hplace c hc, storedAt] at hlt
    rw [Nat.succ_mul] at hrows
    omega

/-- The last byte of the last row comes four bytes too late for each row before it. -/
theorem not_drawsRows_of_four (hdata : header.data ≠ 0) (hbpp : header.infoHeader.bpp = 24#16)
    (hfour : header.width % 4 = 0) (hwidth : header.width ≠ 0) (hheight : 1 < header.height) :
    ¬ DrawsRows m header x y := by
  rintro ⟨_, hbounds⟩
  have hlast : (header.height - 1, header.width - 1) ∈ header.pixels :=
    mem_pixels.mpr ⟨by omega, by omega⟩
  have ha := hbounds _ ((mem_drawBmpData hdata x y _).mpr
    ⟨_, hlast, Nat.le_add_right _ 2, Nat.lt_succ_self _⟩)
  have hstride : stride header.width = 3 * header.width := by
    rw [stride]
    omega
  have hrows : header.height * (3 * header.width) =
      (header.height - 1) * (3 * header.width) + 3 * header.width := by
    rw [← Nat.succ_mul]
    congr 1
    omega
  rw [BmpFileHeader.pixelAt, place, row_eq hbpp, if_pos hfour, Nat.mul_add, hstride, hrows] at ha
  dsimp only at ha
  omega

end Rows

/-- The rows are found if the number of columns is no multiple of four, and else only the
first one is. -/
theorem draws_rows_iff {m : Memory} {header : BmpFileHeader} {x y : Word}
    (hdata : header.data ≠ 0) (hbpp : header.infoHeader.bpp = 24#16) :
    DrawsRows m header x y ↔
      header.width % 4 ≠ 0 ∨ header.width = 0 ∨ header.height ≤ 1 := by
  constructor
  · intro hdraws
    by_contra hcond
    simp only [not_or, not_not, Nat.not_le] at hcond
    exact not_drawsRows_of_four hdata hbpp hcond.1 hcond.2.1 hcond.2.2 hdraws
  · rintro (hfour | hwidth | hheight)
    · exact drawsRows_of_pixelAt hdata fun c hc => pixelAt_eq hbpp (Or.inl hfour) hc
    · refine drawsRows_of_pixelAt hdata fun c hc => ?_
      exact absurd (mem_pixels.mp hc).2 (by omega)
    · exact drawsRows_of_pixelAt hdata fun c hc => pixelAt_eq hbpp (Or.inr hheight) hc

/-- The header of an image of 24 bits a pixel at 1000. -/
def imageHeader (width height : Word) : BmpFileHeader where
  header := ⟨0x4D42, 0, 0⟩
  infoHeader := ⟨40, width, height, 1, 24, 0, 0, 0, 0, 0, 0⟩
  colorTable := 0
  data := 1000

theorem draws_rows_iff_three : DrawsRows (fun a => BitVec.ofNat 8 a) (imageHeader 3 2) 10 20 :=
  (draws_rows_iff (by decide) rfl).mpr (Or.inl (by decide))

/-- Two rows of four pixels. -/
theorem not_draws_rows : ¬ ∀ (m : Memory) (header : BmpFileHeader) (x y : Word),
    header.data ≠ 0 → header.infoHeader.bpp = 24#16 → DrawsRows m header x y := by
  intro hall
  have hdraws := hall (fun a => BitVec.ofNat 8 a) (imageHeader 4 2) 10 20 (by decide) rfl
  exact not_drawsRows_of_four (by decide) rfl (by decide) (by decide) (by decide) hdraws

end Longhorn.BmpDrawing
