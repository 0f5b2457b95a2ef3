import Longhorn.BmpDrawing

/-!
What `read_bmp_data` puts on the stream, call by call.
-/

namespace Longhorn.BmpReading

open Longhorn.Foundations.ByteMemory
open Longhorn.BmpModel
open Longhorn.BmpDrawing
open Longhorn.StreamModel (Stream putStd stdStreamSize Holds)

/-- The characters of the `n` bytes at an address. -/
def charsAt (m : Memory) (p : Nat) : Nat → List Int8
  | 0 => []
  | n + 1 => Int8.ofBitVec (m p) :: charsAt m (p + 1) n

/-- The calls of `read_bmp_data`, each on an empty stream, up to the first that returns less
than the size of the stream: what each has put on its stream, and its result. -/
inductive ReadCalls (m : Memory) :
    BmpFileHeader → BmpReader → List (List Int8 × Nat) → BmpFileHeader → Prop
  | last {header header' : BmpFileHeader} {r r' : BmpReader} {s s' : Stream} {q : List Int8}
      {n : Nat} :
      Holds stdStreamSize s [] → readBmpData m header r s = (header', r', s', n) →
      n < stdStreamSize → Holds stdStreamSize s' q → ReadCalls m header r [(q, n)] header'
  | more {header header₁ header' : BmpFileHeader} {r r₁ : BmpReader} {s s' : Stream}
      {q : List Int8} {n : Nat} {calls : List (List Int8 × Nat)} :
      Holds stdStreamSize s [] → readBmpData m header r s = (header₁, r₁, s', n) →
      stdStreamSize ≤ n → Holds stdStreamSize s' q → ReadCalls m header₁ r₁ calls header' →
      ReadCalls m header r ((q, n) :: calls) header'

/-- The stored rows, each result the number of the characters put, and the header as before. -/
structure ReadsAll (m : Memory) (header : BmpFileHeader) (calls : List (List Int8 × Nat))
    (header' : BmpFileHeader) : Prop where
  contents : calls.flatMap Prod.fst =
    charsAt m header.data (header.height * stride header.width)
  results : ∀ c ∈ calls, c.2 = c.1.length
  restored : header'.data = header.data

/-- The calls come to an end, and have read the image by then. -/
def ReadsImage (m : Memory) (header : BmpFileHeader) : Prop :=
  ∀ imgSize, (∃ calls header', ReadCalls m header ⟨0, imgSize⟩ calls header') ∧
    ∀ calls header', ReadCalls m header ⟨0, imgSize⟩ calls header' → ReadsAll m header calls header'

section Chunks

variable {m : Memory} {header : BmpFileHeader} {r : BmpReader} {s : Stream} {q : List Int8}
  {p n : Nat}

theorem length_charsAt : (charsAt m p n).length = n := by
  induction n generalizing p with
  | zero => rfl
  | succ n ih => rw [charsAt, List.length_cons, ih]

/-- The loop stops after `left` rounds or at the end of the image; a full stream takes no
more characters. -/
theorem readLoop_spec (left data n : Nat) (hs : Holds stdStreamSize s q) :
    ∃ k s', k = min left (r.imgSize.toInt - (data - r.startPos)).toNat ∧
      readLoop m r data s n left = (data + k, s', n + k) ∧
      Holds stdStreamSize s' (q ++ (charsAt m data k).take (stdStreamSize - 1 - q.length)) := by
  induction left generalizing data s n q with
  | zero => exact ⟨0, s, by omega, rfl, by rwa [charsAt, List.take_nil, List.append_nil]⟩
  | succ left ih =>
      rw [readLoop]
      by_cases hmore : (data : Int) - r.startPos < r.imgSize.toInt
      · rw [if_pos hmore]
        have hlt := hs.length_lt
        by_cases hroom : q.length + 1 < stdStreamSize
        · have hput : Holds stdStreamSize (putStd s (Int8.ofBitVec (m data))).1
              (q ++ [Int8.ofBitVec (m data)]) := hs.put (by decide) hroom
          obtain ⟨k, s', hk, hrun, hs'⟩ := ih (data + 1) (n + 1) hput
          refine ⟨k + 1, s', by omega, ?_, ?_⟩
          · rw [hrun, Nat.add_assoc, Nat.add_assoc, Nat.add_comm 1]
          · have htake : stdStreamSize - 1 - q.length =
                stdStreamSize - 1 - (q ++ [Int8.ofBitVec (m data)]).length + 1 := by
              rw [List.length_append, List.length_singleton]
              omega
            rw [charsAt, htake, List.take_succ_cons, List.append_cons]
            exact hs'
        · have hfull : putStd s (Int8.ofBitVec (m data)) = (s, -1) :=
            hs.put_full (by decide) (by omega)
          obtain ⟨k, s', hk, hrun, hs'⟩ := ih (data + 1) (n + 1) hs
          have hnone : stdStreamSize - 1 - q.length = 0 := by omega
          rw [hnone, List.take_zero] at hs'
          refine ⟨k + 1, s', by omega, ?_, by rwa [hnone, List.take_zero]⟩
          rw [hfull, hrun, Nat.add_assoc, Nat.add_assoc, Nat.add_comm 1]
      · rw [if_neg hmore]
        exact ⟨0, s, by omega, rfl, by rwa [charsAt, List.take_nil, List.append_nil]⟩

/-- The size that `read_bmp_data` computes. -/
def countedSize (header : BmpFileHeader) : Word :=
  header.infoHeader.width * header.infoHeader.height * header.infoHeader.bpp.setWidth 32

/-- The bytes that the first call goes through. -/
def firstChunk (header : BmpFileHeader) : Nat :=
  min stdStreamSize (countedSize header).toInt.toNat

theorem readBmpData_first (m : Memory) (header : BmpFileHeader) (imgSize : Word)
    (hs : Holds stdStreamSize s []) :
    ∃ header' r' s', readBmpData m header ⟨0, imgSize⟩ s = (header', r', s', firstChunk header) ∧
      (firstChunk header < stdStreamSize → header' = header) ∧
      Holds stdStreamSize s'
        ((charsAt m header.data (firstChunk header)).take (stdStreamSize - 1)) := by
  obtain ⟨k, s', hk, hrun, hs'⟩ := readLoop_spec (m := m) (r := ⟨header.data, countedSize header⟩)
    stdStreamSize header.data 0 hs
  rw [Int.sub_self, Int.sub_zero] at hk
  have hk : k = firstChunk header := hk
  rw [List.length_nil, Nat.sub_zero, List.nil_append, hk] at hs'
  rw [Nat.zero_add, hk] at hrun
  have hdata : readBmpData m header ⟨0, imgSize⟩ s =
      if firstChunk header < stdStreamSize then
        (header, ⟨0, countedSize header⟩, s', firstChunk header)
      else ({ header with data := header.data + firstChunk header },
        ⟨header.data, countedSize header⟩, s', firstChunk header) := by
    rw [countedSize] at hrun
    rw [readBmpData]
    dsimp only
    rw [if_pos rfl, hrun]
    rfl
  by_cases hlast : firstChunk header < stdStreamSize
  · rw [if_pos hlast] at hdata
    exact ⟨_, _, s', hdata, fun _ => rfl, hs'⟩
  · rw [if_neg hlast] at hdata
    exact ⟨_, _, s', hdata, fun hlt => absurd hlt hlast, hs'⟩

theorem toNat_countedSize (hbpp : header.infoHeader.bpp = 24#16) :
    (countedSize header).toNat = header.width * header.height % 2 ^ 32 * 24 % 2 ^ 32 := by
  rw [countedSize, hbpp, BitVec.toNat_mul, BitVec.toNat_mul]
  rfl

theorem firstChunk_of_empty (hbpp : header.infoHeader.bpp = 24#16)
    (hempty : header.width = 0 ∨ header.height = 0) : firstChunk header = 0 := by
  have hzero : countedSize header = 0#32 := by
    apply BitVec.eq_of_toNat_eq
    rw [toNat_countedSize hbpp, Nat.mul_eq_zero.mpr hempty]
    rfl
  rw [firstChunk, hzero]
  rfl

/-- The code counts a byte for each bit of a pixel. -/
theorem firstChunk_ne (hbpp : header.infoHeader.bpp = 24#16) (hwidth : header.width ≠ 0)
    (hheight : header.height ≠ 0) (hlt : firstChunk header < stdStreamSize) :
    firstChunk header ≠ header.height * stride header.width := by
  intro heq
  have hrows : header.height * (3 * header.width) ≤ header.height * stride header.width :=
    Nat.mul_le_mul_left _ (le_stride _)
  have hstride : header.height * stride header.width ≤ header.height * (3 * header.width + 3) := by
    refine Nat.mul_le_mul_left _ ?_
    rw [stride]
    omega
  have harea : header.height * (3 * header.width) = 3 * (header.width * header.height) := by
    rw [Nat.mul_left_comm, Nat.mul_comm header.height]
  have hheight_le : header.height ≤ header.width * header.height :=
    Nat.le_mul_of_pos_left _ (Nat.pos_of_ne_zero hwidth)
  rw [Nat.mul_add, harea] at hstride
  have hsmall : header.width * header.height < 256 := by
    unfold stdStreamSize at hlt
    omega
  have hsize := toNat_countedSize hbpp
  rw [Nat.mod_eq_of_lt (by omega), Nat.mod_eq_of_lt (by omega)] at hsize
  rw [firstChunk] at heq hlt
  rw [BitVec.toInt_eq_toNat_of_lt (by omega), hsize, Int.toNat_natCast] at heq hlt
  unfold stdStreamSize at heq hlt
  omega

theorem not_readsImage (hbpp : header.infoHeader.bpp = 24#16) (hwidth : header.width ≠ 0)
    (hheight : header.height ≠ 0) : ¬ ReadsImage m header := by
  intro hreads
  obtain ⟨⟨calls, header', hcalls⟩, hall⟩ := hreads 0
  have hread := hall _ _ hcalls
  have hfirst : ∀ {header₁ : BmpFileHeader} {r₁ : BmpReader} {s s₁ : Stream}
      {q : List Int8} {n : Nat},
      Holds stdStreamSize s [] → readBmpData m header ⟨0, 0⟩ s = (header₁, r₁, s₁, n) →
      Holds stdStreamSize s₁ q → n = firstChunk header ∧
        q.length = min (stdStreamSize - 1) (firstChunk header) := by
    intro header₁ r₁ s s₁ q n hs hcall hq
    obtain ⟨_, _, s', hcall', _, hs'⟩ := readBmpData_first m header 0 hs
    cases hcall.symm.trans hcall'
    rw [hq.unique hs', List.length_take, length_charsAt]
    exact ⟨rfl, rfl⟩
  cases hcalls with
  | last hs hcall hn hq =>
      -- The only call has put all it went through, which is not the image.
      obtain ⟨rfl, hlen⟩ := hfirst hs hcall hq
      have hcontents := congrArg List.length hread.contents
      rw [List.flatMap_singleton, length_charsAt, hlen] at hcontents
      exact firstChunk_ne hbpp hwidth hheight hn (by omega)
  | more hs hcall hn hq hrest =>
      -- The first call has gone through one byte more than the stream takes.
      obtain ⟨rfl, hlen⟩ := hfirst hs hcall hq
      have hresult := hread.results _ List.mem_cons_self
      dsimp only at hresult
      rw [hlen] at hresult
      unfold stdStreamSize at hresult hn
      omega

theorem readsImage_of_empty (hbpp : header.infoHeader.bpp = 24#16)
    (hempty : header.width = 0 ∨ header.height = 0) : ReadsImage m header := by
  have hfirst := firstChunk_of_empty hbpp hempty
  have hsize : header.height * stride header.width = 0 := by
    rcases hempty with hwidth | hheight
    · rw [hwidth]
      rfl
    · rw [hheight, Nat.zero_mul]
  intro imgSize
  constructor
  · have hs : Holds stdStreamSize ⟨fun _ => 0, stdStreamSize, 0, 0⟩ [] :=
      Holds.of_zero rfl (by decide) rfl rfl
    obtain ⟨header', _, s', hcall, _, hs'⟩ := readBmpData_first m header imgSize hs
    exact ⟨_, _, .last hs hcall (by rw [hfirst]; decide) hs'⟩
  · intro calls header' hcalls
    cases hcalls with
    | last hs hcall hn hq =>
        obtain ⟨_, _, s', hcall', hsame, hs'⟩ := readBmpData_first m header imgSize hs
        cases hcall.symm.trans hcall'
        rw [hfirst, charsAt, List.take_nil] at hs'
        rw [hq.unique hs', hsame hn, hfirst]
        refine ⟨?_, ?_, rfl⟩
        · rw [hsize]
          rfl
        · simp
    | more hs hcall hn hq hrest =>
        obtain ⟨_, _, _, hcall', _, _⟩ := readBmpData_first m header imgSize hs
        cases hcall.symm.trans hcall'
        rw [hfirst] at hn
        exact absurd hn (by decide)

end Chunks

/-- An image with pixels is never read as it is stored: the code counts eight times its bytes,
and a full stream does not take the last byte of a chunk. -/
theorem reads_image_iff {m : Memory} {header : BmpFileHeader}
    (hbpp : header.infoHeader.bpp = 24#16) :
    ReadsImage m header ↔ header.width = 0 ∨ header.height = 0 := by
  constructor
  · intro hreads
    by_contra hempty
    obtain ⟨hwidth, hheight⟩ := not_or.mp hempty
    exact not_readsImage hbpp hwidth hheight hreads
  · exact readsImage_of_empty hbpp

theorem reads_image_iff_empty : ReadsImage (fun _ => 0) (imageHeader 5 0) :=
  (reads_image_iff rfl).mpr (Or.inr rfl)

/-- An image of one pixel. -/
theorem not_reads_image : ¬ ∀ (m : Memory) (header : BmpFileHeader), header.data ≠ 0 →
    header.infoHeader.bpp = 24#16 → ReadsImage m header := by
  intro hall
  exact not_readsImage rfl (by decide) (by decide)
    (hall (fun _ => 0) (imageHeader 1 1) (by decide) rfl)

end Longhorn.BmpReading
