import Longhorn.BmpDrawing

/-!
Which pixels `bmp_change_color` and `bmp_remove_all` change.
-/

namespace Longhorn.BmpColors

open Longhorn.Foundations.ByteMemory
open Longhorn.Foundations.PaddedRows
open Longhorn.BmpModel
open Longhorn.BmpDrawing

/-- The pixels are mapped by a function on colors, and no other byte has changed. -/
structure Recolors (header : BmpFileHeader) (f : Word → Word) (m m' : Memory) : Prop where
  pixels : ∀ c ∈ header.pixels, color m' (storedAt header c) = f (color m (storedAt header c))
  others : ∀ a, (∀ c ∈ header.pixels, a < storedAt header c ∨ storedAt header c + 3 ≤ a) →
    m' a = m a

/-- Some pixel has the color. -/
def HasColor (m : Memory) (header : BmpFileHeader) (col : Word) : Prop :=
  ∃ c ∈ header.pixels, color m (storedAt header c) = col

/-- The memory after the body of the loops, for one pixel. -/
def recolorMemory (replaced : Word → Bool) (blue green red : BitVec 8) (m : Memory) (pixel : Nat) :
    Memory :=
  if replaced (color m pixel) then storeColor blue green red m pixel else m

section Bytes

variable {m m' : Memory} {pixel a : Nat} {new : Word} {blue green red : BitVec 8}

theorem color_congr (h : ∀ a, pixel ≤ a → a < pixel + 3 → m a = m' a) :
    color m pixel = color m' pixel := by
  rw [color, color, h pixel (Nat.le_refl _) (by omega), h (pixel + 1) (by omega) (by omega),
    h (pixel + 2) (by omega) (by omega)]

theorem extractLsb'_color (m : Memory) (pixel : Nat) {i : Nat} (hi : i < 3) :
    (color m pixel).extractLsb' (8 * i) 8 = m (pixel + i) := by
  have hcases : i = 0 ∨ i = 1 ∨ i = 2 := by omega
  apply BitVec.eq_of_getLsbD_eq
  intro j hj
  simp only [color, BitVec.getLsbD_extractLsb', BitVec.getLsbD_or, BitVec.getLsbD_shiftLeft,
    BitVec.getLsbD_setWidth]
  rcases hcases with rfl | rfl | rfl <;> grind

/-- A color has only one code. -/
theorem eq_of_color_eq (h : color m pixel = color m' pixel) (ha : pixel ≤ a) (hlt : a < pixel + 3) :
    m a = m' a := by
  have hbyte := extractLsb'_color m pixel (i := a - pixel) (by omega)
  rw [h, extractLsb'_color m' pixel (by omega), Nat.add_sub_cancel' ha] at hbyte
  exact hbyte.symm

theorem storeColor_of_outside (h : a < pixel ∨ pixel + 3 ≤ a) :
    storeColor blue green red m pixel a = m a := by
  rw [storeColor, writeByte_of_ne (by omega), writeByte_of_ne (by omega),
    writeByte_of_ne (by omega)]

theorem color_storeColor : color (storeColor blue green red m pixel) pixel =
    blue.setWidth 32 ||| green.setWidth 32 <<< 8 ||| red.setWidth 32 <<< 16 := by
  simp [color, storeColor, writeByte, Function.update]

/-- What is left of the green and the red part of a color in a byte. -/
theorem setWidth_masked {k : Nat} (hk : 8 ≤ k) : (new &&& (0xFF#32 <<< k)).setWidth 8 = 0#8 := by
  apply BitVec.eq_of_getLsbD_eq
  intro i hi
  simp only [BitVec.getLsbD_and, BitVec.getLsbD_shiftLeft, BitVec.getLsbD_setWidth]
  grind

theorem toNat_and_blue : (new &&& 0xFF#32).toNat = new.toNat % 256 := by
  rw [BitVec.toNat_and]
  exact Nat.and_two_pow_sub_one_eq_mod _ 8

theorem and_blue_eq_iff : new &&& 0xFF#32 = new ↔ new.toNat < 256 := by
  rw [← BitVec.toNat_inj, toNat_and_blue]
  omega

theorem setWidth_blue : ((new &&& 0xFF#32).setWidth 8).setWidth 32 = new &&& 0xFF#32 := by
  apply BitVec.eq_of_toNat_eq
  rw [BitVec.toNat_setWidth, BitVec.toNat_setWidth, toNat_and_blue]
  omega

end Bytes

theorem localUpdate_recolorMemory (replaced : Word → Bool) (blue green red : BitVec 8) :
    LocalUpdate 3 (recolorMemory replaced blue green red) where
  keeps m p a ha := by
    rw [recolorMemory]
    split
    · exact storeColor_of_outside ha
    · rfl
  reads m m' p h a ha hlt := by
    rw [recolorMemory, recolorMemory, color_congr h]
    split
    · refine eq_of_color_eq (color_storeColor.trans color_storeColor.symm) ha hlt
    · exact h a ha hlt

section Images

variable {m : Memory} {header : BmpFileHeader} {old new col : Word} {replaced : Word → Bool}
  {blue green red : BitVec 8}

theorem recolor_memory (hdata : header.data ≠ 0) :
    (header.forPixels (fun _ _ => recolorPixel replaced blue green red) ⟨m, []⟩).memory =
      (header.pixels.map header.pixelAt).foldl (recolorMemory replaced blue green red) m := by
  have hfold : ∀ (cs : List (Nat × Nat)) (s : Recoloring),
      (cs.foldl (fun s c => recolorPixel replaced blue green red (header.pixelAt c) s) s).memory =
        (cs.map header.pixelAt).foldl (recolorMemory replaced blue green red) s.memory := by
    intro cs
    induction cs with
    | nil => exact fun s => rfl
    | cons c cs ih =>
        intro s
        rw [List.foldl_cons, ih, List.map_cons, List.foldl_cons, recolorPixel, recolorMemory]
        split <;> rfl
  rw [forPixels_eq hdata, hfold]

/-- An image of 24 bits a pixel whose row length is no multiple of four. -/
structure PaddedImage (header : BmpFileHeader) : Prop where
  data : header.data ≠ 0
  bpp : header.infoHeader.bpp = 24#16
  padded : 3 * header.width % 4 ≠ 0

theorem PaddedImage.pixelAt (himage : PaddedImage header) {c : Nat × Nat}
    (hc : c ∈ header.pixels) : header.pixelAt c = storedAt header c := by
  have hpadded := himage.padded
  exact pixelAt_eq himage.bpp (Or.inl (by omega)) hc

theorem pairwise_pixels (header : BmpFileHeader) :
    (header.pixels.map header.pixelAt).Pairwise fun a b => a + 3 ≤ b :=
  pairwise_place (Nat.le_add_right _ _)

/-- Each pixel is recolored on its own. -/
theorem PaddedImage.recolors (himage : PaddedImage header) (m : Memory) (replaced : Word → Bool)
    (blue green red : BitVec 8) :
    Recolors header (fun c => if replaced c then
        blue.setWidth 32 ||| green.setWidth 32 <<< 8 ||| red.setWidth 32 <<< 16 else c) m
      (header.forPixels (fun _ _ => recolorPixel replaced blue green red) ⟨m, []⟩).memory := by
  rw [recolor_memory himage.data]
  obtain ⟨hin, hout⟩ :=
    (localUpdate_recolorMemory replaced blue green red).foldl (pairwise_pixels header) m
  constructor
  · intro c hc
    rw [← himage.pixelAt hc, color_congr (hin _ (List.mem_map_of_mem hc)), recolorMemory]
    by_cases hreplaced : replaced (color m (header.pixelAt c)) = true
    · rw [if_pos hreplaced, if_pos hreplaced]
      exact color_storeColor
    · rw [if_neg hreplaced, if_neg hreplaced]
  · intro a ha
    refine hout a fun p hp => ?_
    obtain ⟨c, hc, rfl⟩ := List.mem_map.mp hp
    rw [himage.pixelAt hc]
    exact ha c hc

theorem bmpRemoveAll_recolors (himage : PaddedImage header) :
    Recolors header (fun c => if c = col then c else 0) m (bmpRemoveAll m header col).memory := by
  have hrecolors := himage.recolors m (fun c => c ≠ col) 0 0 0
  refine ⟨fun c hc => (hrecolors.pixels c hc).trans ?_, hrecolors.others⟩
  simp only [decide_eq_true_eq, ne_eq, ite_not]
  rfl

/-- Only the blue part of the new color is stored. -/
theorem bmpChangeColor_recolors (himage : PaddedImage header) (m : Memory) (old new : Word) :
    Recolors header (fun c => if c = old then new &&& 0xFF#32 else c) m
      (bmpChangeColor m header old new).memory := by
  have hrecolors := himage.recolors m (fun c => c = old) ((new &&& 0xFF#32).setWidth 8)
    ((new &&& (0xFF#32 <<< 8)).setWidth 8) ((new &&& (0xFF#32 <<< 16)).setWidth 8)
  refine ⟨fun c hc => (hrecolors.pixels c hc).trans ?_, hrecolors.others⟩
  rw [setWidth_masked (Nat.le_refl 8), setWidth_masked (by decide : 8 ≤ 16), setWidth_blue]
  simp only [decide_eq_true_eq]
  simp

/-- An image is determined by its colors and its other bytes. -/
theorem Recolors.eq {f : Word → Word} {m' : Memory} (h : Recolors header f m m')
    (hsame : ∀ c ∈ header.pixels, f (color m (storedAt header c)) = color m (storedAt header c)) :
    m' = m := by
  funext a
  by_cases hin : ∃ c ∈ header.pixels, storedAt header c ≤ a ∧ a < storedAt header c + 3
  · obtain ⟨c, hc, ha, hlt⟩ := hin
    exact eq_of_color_eq ((h.pixels c hc).trans (hsame c hc)) ha hlt
  · refine h.others a fun c hc => ?_
    by_contra hcond
    exact hin ⟨c, hc, by omega, by omega⟩

theorem Recolors.comp {f g : Word → Word} {m₁ m₂ : Memory} (h₁ : Recolors header f m m₁)
    (h₂ : Recolors header g m₁ m₂) : Recolors header (g ∘ f) m m₂ where
  pixels c hc := by rw [h₂.pixels c hc, h₁.pixels c hc, Function.comp]
  others a ha := (h₂.others a ha).trans (h₁.others a ha)

/-- What the recoloring functions are for. -/
structure RecolorsExactly (m : Memory) (header : BmpFileHeader) (old new : Word) : Prop where
  changes : Recolors header (fun c => if c = old then new else c) m
    (bmpChangeColor m header old new).memory
  restores : ¬ HasColor m header new →
    (bmpChangeColor (bmpChangeColor m header old new).memory header new old).memory = m
  keeps : ∀ col, Recolors header (fun c => if c = col then c else 0) m
    (bmpRemoveAll m header col).memory

theorem bmpChangeColor_of_not_hasColor (himage : PaddedImage header)
    (hold : ¬ HasColor m header old) :
    (bmpChangeColor m header old new).memory = m :=
  (bmpChangeColor_recolors himage m old new).eq fun c hc => if_neg fun heq => hold ⟨c, hc, heq⟩

theorem recolorsExactly_of_not_hasColor (himage : PaddedImage header)
    (hold : ¬ HasColor m header old) : RecolorsExactly m header old new where
  changes := by
    rw [bmpChangeColor_of_not_hasColor himage hold]
    exact ⟨fun c hc => (if_neg fun heq => hold ⟨c, hc, heq⟩).symm, fun _ _ => rfl⟩
  restores hnew := by
    rw [bmpChangeColor_of_not_hasColor himage hold, bmpChangeColor_of_not_hasColor himage hnew]
  keeps _ := bmpRemoveAll_recolors himage

theorem recolorsExactly_of_blue (himage : PaddedImage header) (hnew : new.toNat < 256)
    (hold : old.toNat < 256 ∨ HasColor m header new) : RecolorsExactly m header old new := by
  have hchanges := bmpChangeColor_recolors himage m old new
  rw [and_blue_eq_iff.mpr hnew] at hchanges
  refine ⟨hchanges, fun hno => ?_, fun _ => bmpRemoveAll_recolors himage⟩
  have hback := bmpChangeColor_recolors himage (bmpChangeColor m header old new).memory new old
  rw [and_blue_eq_iff.mpr (hold.resolve_right hno)] at hback
  refine (hchanges.comp hback).eq fun c hc => ?_
  by_cases heq : color m (storedAt header c) = old
  · simp [heq]
  · have hne : color m (storedAt header c) ≠ new := fun heq => hno ⟨c, hc, heq⟩
    simp [heq, hne]

theorem blue_of_recolorsExactly (himage : PaddedImage header) (hold : HasColor m header old)
    (h : RecolorsExactly m header old new) :
    new.toNat < 256 ∧ (old.toNat < 256 ∨ HasColor m header new) := by
  obtain ⟨c, hc, heq⟩ := hold
  have hchanges := bmpChangeColor_recolors himage m old new
  have hblue : new &&& 0xFF#32 = new := by
    have hpixel := (hchanges.pixels c hc).symm.trans (h.changes.pixels c hc)
    simpa only [heq, if_true] using hpixel
  refine ⟨and_blue_eq_iff.mp hblue, or_iff_not_imp_right.mpr fun hno => ?_⟩
  have hback := bmpChangeColor_recolors himage (bmpChangeColor m header old new).memory new old
  rw [h.restores hno] at hback
  have hpixel := hback.pixels c hc
  rw [hchanges.pixels c hc, heq, if_pos rfl, hblue, if_pos rfl] at hpixel
  exact and_blue_eq_iff.mp hpixel.symm

end Images

/-- The green and the red part of a new color are lost. -/
theorem recolors_exactly_iff {m : Memory} {header : BmpFileHeader} {old new : Word}
    (himage : PaddedImage header) : RecolorsExactly m header old new ↔
      ¬ HasColor m header old ∨
        new.toNat < 256 ∧ (old.toNat < 256 ∨ HasColor m header new) := by
  constructor
  · exact fun h => or_iff_not_imp_left.mpr fun hold =>
      blue_of_recolorsExactly himage (not_not.mp hold) h
  · rintro (hold | ⟨hnew, hold⟩)
    · exact recolorsExactly_of_not_hasColor himage hold
    · exact recolorsExactly_of_blue himage hnew hold

theorem paddedImage_one : PaddedImage (imageHeader 1 1) := ⟨by decide, rfl, by decide⟩

/-- A black pixel becomes blue, and black again. -/
theorem recolors_exactly_iff_blue : RecolorsExactly (fun _ => 0) (imageHeader 1 1) 0 0xFF :=
  (recolors_exactly_iff paddedImage_one).mpr (Or.inr ⟨by decide, Or.inl (by decide)⟩)

/-- A black pixel does not become green. -/
theorem not_recolors_exactly : ¬ ∀ (m : Memory) (header : BmpFileHeader) (old new : Word),
    PaddedImage header → old.toNat < 2 ^ 24 → new.toNat < 2 ^ 24 →
    RecolorsExactly m header old new := by
  intro hall
  have hblack : HasColor (fun _ => 0) (imageHeader 1 1) 0 :=
    ⟨(0, 0), mem_pixels.mpr ⟨by decide, by decide⟩, rfl⟩
  have hgreen := hall (fun _ => 0) _ 0 0xFF00 paddedImage_one (by decide) (by decide)
  exact absurd (blue_of_recolorsExactly paddedImage_one hblack hgreen).1 (by decide)

end Longhorn.BmpColors
