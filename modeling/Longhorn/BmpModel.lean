import Longhorn.Foundations.ByteMemory
import Longhorn.Foundations.PaddedRows
import Longhorn.StreamModel

/-!
The functions of `drivers/bmp.c`.  An address is a number, and `NULL` is 0.
-/

namespace Longhorn.BmpModel

open Longhorn.Foundations.ByteMemory
open Longhorn.Foundations.PaddedRows
open Longhorn.StreamModel (Stream putStd stdStreamSize)

universe u

structure BmpHeader where
  signature : BitVec 16
  fileSize : Word
  dataOffset : Word

structure BmpInfoHeader where
  size : Word
  width : Word
  height : Word
  planes : BitVec 16
  bpp : BitVec 16
  compression : Word
  imageSize : Word
  xPixelsPm : Word
  yPixelsPm : Word
  colorsUsed : Word
  importantColors : Word

structure BmpFileHeader where
  header : BmpHeader
  infoHeader : BmpInfoHeader
  colorTable : Nat
  data : Nat

/-- `sizeof(struct bmp_header)`, with two bytes of padding behind the signature. -/
def headerSize : Nat := 16
def headerInfoSize : Nat := 40

def readHalf (m : Memory) (a : Nat) : BitVec 16 := m (a + 1) ++ m a

/-- `read_bmp_header`: what it leaves in `buf`, and its result. -/
def readBmpHeader (m : Memory) (file : Nat) (buf : BmpFileHeader) : BmpFileHeader × Int :=
  let buf := { buf with
    header := ⟨readHalf m file, readWord m (file + 2), readWord m (file + 10)⟩ }
  if buf.header.fileSize.toNat < headerSize + headerInfoSize then ({ buf with data := 0 }, -1)
  else
    let file := file + 14
    let buf := { buf with
      infoHeader := {
        size := readWord m file
        width := readWord m (file + 4)
        height := readWord m (file + 8)
        planes := readHalf m (file + 12)
        bpp := readHalf m (file + 14)
        compression := readWord m (file + 16)
        imageSize := readWord m (file + 20)
        xPixelsPm := readWord m (file + 24)
        yPixelsPm := readWord m (file + 28)
        colorsUsed := readWord m (file + 32)
        importantColors := readWord m (file + 36) } }
    if buf.infoHeader.bpp.toNat < 24 then ({ buf with data := 0 }, -1)
    else ({ buf with colorTable := 0, data := file + 40 }, headerSize + headerInfoSize + 1)

section Pixels

variable (header : BmpFileHeader)

def BmpFileHeader.width : Nat := header.infoHeader.width.toNat

def BmpFileHeader.height : Nat := header.infoHeader.height.toNat

/-- What `pixel` is moved on by at the end of a row. -/
def BmpFileHeader.padding : Nat :=
  4 - wrap (header.width * (header.infoHeader.bpp.toNat / 8)) % 4

/-- The distance of two rows for the loops over the pixels. -/
def BmpFileHeader.row : Nat := header.width * 3 + header.padding

/-- The two loops over the pixels, for the row `i`, the column `j` and the address of each.
The rows are counted down to 1. -/
def BmpFileHeader.forPixels {σ : Type u} (visit : Nat → Nat → Nat → σ → σ) (s : σ) : σ :=
  if header.data = 0 then s
  else
    (walkRows 3 header.padding header.width header.height (fun k => visit (header.height - k))
      (header.data, s)).2

end Pixels

/-- The color of the three bytes of a pixel. -/
def color (m : Memory) (pixel : Nat) : Word :=
  (m pixel).setWidth 32 ||| (m (pixel + 1)).setWidth 32 <<< 8 |||
    (m (pixel + 2)).setWidth 32 <<< 16

def pixelBytes (pixel : Nat) : List Nat := [pixel, pixel + 1, pixel + 2]

/-- A call of `vesa_draw`. -/
structure Draw where
  x : Word
  y : Word
  col : Word

/-- The bytes that have been read, and the calls of `vesa_draw` in their order. -/
structure Drawing where
  accesses : List Nat
  draws : List Draw

def drawPixel (m : Memory) (x y : Word) (i j pixel : Nat) (s : Drawing) : Drawing :=
  ⟨pixelBytes pixel ++ s.accesses,
    s.draws ++ [⟨x + BitVec.ofNat 32 j, y + BitVec.ofNat 32 i, color m pixel⟩]⟩

def drawBmpData (m : Memory) (header : BmpFileHeader) (x y : Word) : Drawing :=
  header.forPixels (drawPixel m x y) ⟨[], []⟩

def storeColor (blue green red : BitVec 8) (m : Memory) (pixel : Nat) : Memory :=
  writeByte (writeByte (writeByte m pixel blue) (pixel + 1) green) (pixel + 2) red

/-- The memory, and the bytes that have been read or written. -/
structure Recoloring where
  memory : Memory
  accesses : List Nat

/-- The body of `bmp_change_color` and `bmp_remove_all`, for the colors that are replaced. -/
def recolorPixel (replaced : Word → Bool) (blue green red : BitVec 8) (pixel : Nat)
    (s : Recoloring) : Recoloring :=
  if replaced (color s.memory pixel) then
    ⟨storeColor blue green red s.memory pixel,
      pixelBytes pixel ++ (pixelBytes pixel ++ s.accesses)⟩
  else ⟨s.memory, pixelBytes pixel ++ s.accesses⟩

def bmpChangeColor (m : Memory) (header : BmpFileHeader) (old new : Word) : Recoloring :=
  header.forPixels (fun _ _ => recolorPixel (fun col => col = old)
    ((new &&& 0xFF#32).setWidth 8) ((new &&& (0xFF#32 <<< 8)).setWidth 8)
    ((new &&& (0xFF#32 <<< 16)).setWidth 8)) ⟨m, []⟩

def bmpRemoveAll (m : Memory) (header : BmpFileHeader) (col : Word) : Recoloring :=
  header.forPixels (fun _ _ => recolorPixel (fun c => c ≠ col) 0 0 0) ⟨m, []⟩

/-- The static variables of `read_bmp_data`. -/
structure BmpReader where
  startPos : Nat
  imgSize : Word

/-- The loop of `read_bmp_data` over the rounds that are left: `header->data`, the stream and
`num_read` after it. -/
def readLoop (m : Memory) (r : BmpReader) (data : Nat) (s : Stream) (numRead : Nat) :
    Nat → Nat × Stream × Nat
  | 0 => (data, s, numRead)
  | left + 1 =>
      if (data : Int) - r.startPos < r.imgSize.toInt then
        readLoop m r (data + 1) (putStd s (Int8.ofBitVec (m data))).1 (numRead + 1) left
      else (data, s, numRead)

/-- `read_bmp_data`: the header, the static variables, the stream and its result. -/
def readBmpData (m : Memory) (header : BmpFileHeader) (r : BmpReader) (s : Stream) :
    BmpFileHeader × BmpReader × Stream × Nat :=
  let info := header.infoHeader
  let r := if r.startPos = 0 then ⟨header.data, info.width * info.height * info.bpp.setWidth 32⟩
    else r
  let (data, s, numRead) := readLoop m r header.data s 0 stdStreamSize
  if numRead < stdStreamSize then
    ({ header with data := r.startPos }, { r with startPos := 0 }, s, numRead)
  else ({ header with data := data }, r, s, numRead)

section Visits

variable {header : BmpFileHeader} {m : Memory} {σ : Type u} {s : σ} {c : Nat × Nat}

/-- The pixels of an image, row by row. -/
def BmpFileHeader.pixels (header : BmpFileHeader) : List (Nat × Nat) :=
  grid header.width header.height

/-- The address of a pixel for the loops. -/
def BmpFileHeader.pixelAt (header : BmpFileHeader) : Nat × Nat → Nat :=
  place header.data header.row 3

theorem forPixels_eq (hdata : header.data ≠ 0) (visit : Nat → Nat → Nat → σ → σ) :
    header.forPixels visit s = header.pixels.foldl
      (fun s c => visit (header.height - c.1) c.2 (header.pixelAt c) s) s := by
  rw [BmpFileHeader.forPixels, if_neg hdata, walkRows_eq]
  rfl

theorem mem_pixels : c ∈ header.pixels ↔ c.1 < header.height ∧ c.2 < header.width := mem_grid

/-- The bytes that every loop over the pixels touches. -/
def BmpFileHeader.Touches (header : BmpFileHeader) (a : Nat) : Prop :=
  ∃ c, c ∈ header.pixels ∧ header.pixelAt c ≤ a ∧ a < header.pixelAt c + 3

theorem mem_pixelBytes {pixel a : Nat} : a ∈ pixelBytes pixel ↔ pixel ≤ a ∧ a < pixel + 3 := by
  simp only [pixelBytes, List.mem_cons, List.not_mem_nil, or_false]
  omega

theorem mem_drawBmpData (hdata : header.data ≠ 0) (x y : Word) (a : Nat) :
    a ∈ (drawBmpData m header x y).accesses ↔ header.Touches a := by
  rw [drawBmpData, forPixels_eq hdata]
  refine (mem_log_foldl Drawing.accesses
    (fun c a => header.pixelAt c ≤ a ∧ a < header.pixelAt c + 3) (fun t c a => ?_) _ _ _).trans ?_
  · rw [drawPixel, List.mem_append, mem_pixelBytes]
  · exact or_iff_left List.not_mem_nil

theorem mem_recolor (hdata : header.data ≠ 0) (replaced : Word → Bool) (blue green red : BitVec 8)
    (a : Nat) : a ∈ (header.forPixels (fun _ _ => recolorPixel replaced blue green red)
      ⟨m, []⟩).accesses ↔ header.Touches a := by
  rw [forPixels_eq hdata]
  refine (mem_log_foldl Recoloring.accesses
    (fun c a => header.pixelAt c ≤ a ∧ a < header.pixelAt c + 3) (fun t c a => ?_) _ _ _).trans ?_
  · rw [recolorPixel]
    split
    · rw [List.mem_append, List.mem_append, mem_pixelBytes, or_self_left]
    · rw [List.mem_append, mem_pixelBytes]
  · exact or_iff_left List.not_mem_nil

end Visits

end Longhorn.BmpModel
