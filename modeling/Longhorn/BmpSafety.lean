import Longhorn.BmpModel

/-!
Which accepted images the loops over the pixels may be run on.
-/

namespace Longhorn.BmpSafety

open Longhorn.Foundations.ByteMemory
open Longhorn.Foundations.PaddedRows
open Longhorn.BmpModel

/-- The bytes of a file from its data offset to its end. -/
def InData (file : Nat) (header : BmpFileHeader) (a : Nat) : Prop :=
  file + header.header.dataOffset.toNat ≤ a ∧ a < file + header.header.fileSize.toNat

/-- The three functions access the data of the file only. -/
structure SafeToProcess (m : Memory) (file : Nat) (header : BmpFileHeader) : Prop where
  draw : ∀ x y, ∀ a ∈ (drawBmpData m header x y).accesses, InData file header a
  change : ∀ old new, ∀ a ∈ (bmpChangeColor m header old new).accesses, InData file header a
  remove : ∀ col, ∀ a ∈ (bmpRemoveAll m header col).accesses, InData file header a

section Accepted

variable {m : Memory} {file a : Nat} {header buf : BmpFileHeader}

/-- The data is taken to start behind the headers, whatever their data offset. -/
theorem data_of_accepted (haccept : 0 ≤ (readBmpHeader m file buf).2) :
    (readBmpHeader m file buf).1.data = file + 54 := by
  unfold readBmpHeader at haccept ⊢
  dsimp only at haccept ⊢
  have hneg : ¬ (0 : Int) ≤ -1 := by decide
  split at haccept
  · exact absurd haccept hneg
  · rename_i hsize
    rw [if_neg hsize]
    split at haccept
    · exact absurd haccept hneg
    · rename_i hbpp
      rw [if_neg hbpp]

theorem safeToProcess_iff (hdata : header.data ≠ 0) :
    SafeToProcess m file header ↔ ∀ a, header.Touches a → InData file header a := by
  constructor
  · exact fun h a ha => h.remove 0 a ((mem_recolor hdata _ _ _ _ a).mpr ha)
  · exact fun h => ⟨fun x y a ha => h a ((mem_drawBmpData hdata x y a).mp ha),
      fun _ _ a ha => h a ((mem_recolor hdata _ _ _ _ a).mp ha),
      fun _ a ha => h a ((mem_recolor hdata _ _ _ _ a).mp ha)⟩

theorem touches_first (hwidth : header.width ≠ 0) (hheight : header.height ≠ 0) :
    header.Touches header.data := by
  refine ⟨(0, 0), mem_pixels.mpr ⟨Nat.pos_of_ne_zero hheight, Nat.pos_of_ne_zero hwidth⟩, ?_⟩
  rw [BmpFileHeader.pixelAt, place, Nat.zero_mul, Nat.zero_mul]
  exact ⟨Nat.le_refl _, Nat.lt_add_of_pos_right (by decide)⟩

theorem touches_last (hwidth : header.width ≠ 0) (hheight : header.height ≠ 0) :
    header.Touches (header.data + (header.height - 1) * header.row + 3 * header.width - 1) := by
  refine ⟨(header.height - 1, header.width - 1), mem_pixels.mpr ⟨by omega, by omega⟩, ?_⟩
  rw [BmpFileHeader.pixelAt, place]
  dsimp only
  omega

theorem bounds_of_touches (ha : header.Touches a) :
    header.data ≤ a ∧ a < header.data + (header.height - 1) * header.row + 3 * header.width := by
  obtain ⟨c, hc, hle, hlt⟩ := ha
  obtain ⟨hk, hj⟩ := mem_pixels.mp hc
  have hrows : c.1 * header.row ≤ (header.height - 1) * header.row :=
    Nat.mul_le_mul_right _ (by omega)
  rw [BmpFileHeader.pixelAt, place] at hle hlt
  omega

end Accepted

/-- Only the size and the depth are checked: the width, the height and the data offset have
to fit by themselves. -/
theorem accepted_safe_iff {m : Memory} {file : Nat} {buf header : BmpFileHeader} {n : Int}
    (hread : readBmpHeader m file buf = (header, n)) (haccept : 0 ≤ n) :
    SafeToProcess m file header ↔ header.width = 0 ∨ header.height = 0 ∨
      header.header.dataOffset.toNat ≤ 54 ∧
        54 + (header.height - 1) * header.row + 3 * header.width ≤
          header.header.fileSize.toNat := by
  have hdata : header.data = file + 54 := by
    have hstart : (readBmpHeader m file buf).1.data = file + 54 :=
      data_of_accepted (by rw [hread]; exact haccept)
    rwa [hread] at hstart
  rw [safeToProcess_iff (by omega)]
  constructor
  · intro hall
    rw [or_iff_not_imp_left, or_iff_not_imp_left]
    intro hwidth hheight
    have hfirst := (hall _ (touches_first hwidth hheight)).1
    have hlast := (hall _ (touches_last hwidth hheight)).2
    omega
  · intro hcond a ha
    obtain ⟨hle, hlt⟩ := bounds_of_touches ha
    obtain ⟨c, hc, _⟩ := ha
    obtain ⟨hk, hj⟩ := mem_pixels.mp hc
    rw [InData]
    omega

/-- A file of this size at 1000, with the headers of an image of one pixel. -/
def onePixelFile (size : BitVec 8) : Memory := fun a =>
  [0x42, 0x4D, size, 0, 0, 0, 0, 0, 0, 0, 54, 0, 0, 0, 40, 0, 0, 0, 1, 0, 0, 0, 1, 0, 0, 0, 1, 0,
    24].getD (a - 1000) 0

theorem accepted_safe_iff_one : SafeToProcess (onePixelFile 58) 1000
    (readBmpHeader (onePixelFile 58) 1000 ⟨⟨0, 0, 0⟩, ⟨0, 0, 0, 0, 0, 0, 0, 0, 0, 0, 0⟩, 0, 0⟩).1 :=
  (accepted_safe_iff rfl (by decide)).mpr (Or.inr (Or.inr (by decide)))

/-- The headers alone, without the pixel they promise. -/
theorem not_accepted_safe : ¬ ∀ (m : Memory) (file : Nat) (buf header : BmpFileHeader) (n : Int),
    readBmpHeader m file buf = (header, n) → 0 ≤ n → SafeToProcess m file header := by
  intro hall
  have hsafe := hall (onePixelFile 56) 1000 ⟨⟨0, 0, 0⟩, ⟨0, 0, 0, 0, 0, 0, 0, 0, 0, 0, 0⟩, 0, 0⟩ _ _
    rfl (by decide)
  have hlast := (safeToProcess_iff (by decide)).mp hsafe _ (touches_last (by decide) (by decide))
  exact absurd hlast.2 (by decide)

end Longhorn.BmpSafety
