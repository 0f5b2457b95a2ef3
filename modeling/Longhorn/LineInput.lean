import Longhorn.LineEditing

/-!
Editing a line that is full, and editing by the characters of a process.
-/

namespace Longhorn.LineInput

open Longhorn.StreamModel
open Longhorn.LineModel
open Longhorn.LineSafety
open Longhorn.LineEditing

/-- Backspace takes back the last character, and some key is accepted. -/
structure Editable (ld : LineDisc) : Prop where
  backspace : 0 < ld.bufferI →
    (lineIn ld kcBackspace).2 = lineSucc ∧ (lineIn ld kcBackspace).1.bufferI = ld.bufferI - 1
  accepts : ∃ c, (lineIn ld c).2 ≠ -lineInFail

/-- `line_recv` on each character in order. -/
def recvAll (ld : LineDisc) (cs : List Int8) : LineDisc :=
  cs.foldl (fun ld c => (lineRecv ld c).1) ld

def editChar (text : List Int8) (c : Int8) : List Int8 :=
  if c = 8 then text.dropLast else text ++ [c]

/-- The text that the characters edit, from an empty line on. -/
def edited (cs : List Int8) : List Int8 := cs.foldl editChar []

structure HoldsText (ld : LineDisc) (text : List Int8) : Prop where
  bufferI : ld.bufferI = text.length
  text : (List.range ld.bufferI).map ld.lineBuffer = text

/-- Before each of the characters there is room in the buffer. -/
def NeverFull (ld : LineDisc) (cs : List Int8) : Prop :=
  ∀ p, p <+: cs → p ≠ cs → (recvAll ld p).bufferI ≠ lineBufferSize - 1

section Keys

variable {n : Nat} {ld : LineDisc} {e : Edit}

/-- A key does not change a line that is full. -/
theorem shows_full (h : Shows n ld e) (hfull : e.text.length = lineBufferSize - 1) (c : Int8) :
    Shows n (lineIn ld c).1 { e with capitalize := (evalKc ld.ts (keycode c)).1.capitalize } := by
  rw [lineIn_full (h.bufferI.trans hfull)]
  exact ⟨h.mode, rfl, h.bufferI, h.text, h.nonzero, h.beyond⟩

theorem shows_keys_of_le (h : Shows n ld e) (hle : e.text.length ≤ lineBufferSize - 1)
    (cs : List Int8) :
    ∃ e', Shows n (typeKeys ld cs) e' ∧ e'.text.length ≤ lineBufferSize - 1 := by
  induction cs generalizing ld e with
  | nil => exact ⟨e, h, hle⟩
  | cons c cs ih =>
      rcases Nat.lt_or_eq_of_le hle with hroom | hfull
      · exact ih (h.key hroom) (length_key_le.trans hroom)
      · exact ih (shows_full h hfull c) hle

theorem editable_iff (h : Shows n ld e) (hle : e.text.length ≤ lineBufferSize - 1) :
    Editable ld ↔ ld.bufferI ≠ lineBufferSize - 1 := by
  constructor
  · rintro ⟨_, c, hc⟩ hfull
    exact hc (congrArg Prod.snd (lineIn_full hfull))
  · intro hroom
    have hlt : ld.bufferI < lineBufferSize - 1 :=
      Nat.lt_of_le_of_ne (h.bufferI.le.trans hle) hroom
    have hcode : ∀ c, (lineIn ld c).2 = lineSucc := fun c =>
      congrArg Prod.snd (lineIn_cooked hroom h.mode)
    refine ⟨fun hpos => ⟨hcode _, ?_⟩, kcBackspace, ?_⟩
    · have hback := (lineIn_erase h (h.bufferI ▸ hlt) (c := kcBackspace) rfl).1
      have hi : (ld.evalKey kcBackspace).bufferI = ld.bufferI := rfl
      rw [hback, lineErase, hi, if_pos hpos]
      exact sub32_one hpos (hlt.trans_le (Nat.sub_le _ _))
    · rw [hcode]
      decide

/-- A line in cooked mode can be edited as long as one more character would fit. -/
theorem editable_iff_of_cooked (hmode : ld.mode = .cooked) (cs : List Int8) :
    Editable (typeKeys (lineFlush ld).1 cs) ↔
      (typeKeys (lineFlush ld).1 cs).bufferI ≠ lineBufferSize - 1 := by
  obtain ⟨e, hshows, hle⟩ := shows_keys_of_le (Shows.flush hmode) (Nat.zero_le _) cs
  exact editable_iff hshows hle

theorem editable_iff_of_cooked_start :
    Editable (typeKeys (lineFlush (lineStart .cooked)).1 [0x1E]) ↔
      (typeKeys (lineFlush (lineStart .cooked)).1 [0x1E]).bufferI ≠ lineBufferSize - 1 :=
  editable_iff_of_cooked rfl [0x1E]

theorem keys_letters (b : Bool) (n : Nat) :
    (Edit.keys ⟨b, []⟩ (List.replicate n 0x1E)).text.length = n ∧
      (Edit.keys ⟨b, []⟩ (List.replicate n 0x1E)).capitalize = b := by
  induction n with
  | zero => exact ⟨rfl, rfl⟩
  | succ n ih =>
      have haction : keyAction 0x1E = .print := rfl
      rw [List.replicate_succ', keys_append, Edit.key, haction]
      exact ⟨by rw [List.length_append, ih.1, List.length_singleton], ih.2⟩

/-- A line of 1023 letters takes no key any more. -/
theorem not_editable_of_letters :
    ¬ ∀ (ld : LineDisc) (cs : List Int8), ld.mode = .cooked →
      Editable (typeKeys (lineFlush ld).1 cs) := by
  intro hall
  have hshows : Shows lineBufferSize (typeKeys (lineFlush (lineStart .cooked)).1
      (List.replicate (lineBufferSize - 1) 0x1E))
      (Edit.keys ⟨false, []⟩ (List.replicate (lineBufferSize - 1) 0x1E)) := by
    refine (Shows.flush rfl).keys _ ?_
    intro p hp hne
    have hlen : p.length < lineBufferSize - 1 := by
      have hlt := lt_of_le_of_ne hp.length_le fun heq => hne (hp.eq_of_length heq)
      rwa [List.length_replicate] at hlt
    have hletters : p = List.replicate p.length 0x1E :=
      List.eq_replicate_of_mem fun c hc => List.eq_of_mem_replicate (hp.subset hc)
    rw [hletters]
    exact (keys_letters false p.length).1.trans_lt hlen
  have hfull : (typeKeys (lineFlush (lineStart .cooked)).1
      (List.replicate (lineBufferSize - 1) 0x1E)).bufferI = lineBufferSize - 1 :=
    hshows.bufferI.trans (keys_letters false _).1
  obtain ⟨c, hc⟩ := (hall (lineStart .cooked) _ rfl).accepts
  exact hc (congrArg Prod.snd (lineIn_full hfull))

end Keys

section Recv

variable {ld : LineDisc} {c : Int8} {cs : List Int8}

theorem recvAll_append : recvAll ld (cs ++ [c]) = (lineRecv (recvAll ld cs) c).1 := by
  rw [recvAll, List.foldl_append, List.foldl_cons, List.foldl_nil, ← recvAll]

theorem edited_append : edited (cs ++ [c]) = editChar (edited cs) c := by
  rw [edited, List.foldl_append, List.foldl_cons, List.foldl_nil, ← edited]

theorem NeverFull.init (h : NeverFull ld (cs ++ [c])) :
    NeverFull ld cs ∧ (recvAll ld cs).bufferI ≠ lineBufferSize - 1 := by
  have hlt : ∀ p, p <+: cs → p ≠ cs ++ [c] := by
    rintro p hp rfl
    have := hp.length_le
    rw [List.length_append, List.length_singleton] at this
    omega
  constructor
  · intro p hp _
    exact h p (hp.trans (List.prefix_append _ _)) (hlt p hp)
  · exact h cs (List.prefix_append _ _) (hlt cs (List.prefix_refl cs))

theorem lineRecv_append (hroom : ld.bufferI < lineBufferSize - 1) (hc : c ≠ 8 ∨ ld.bufferI = 0) :
    (lineRecv ld c).1.lineBuffer = Function.update ld.lineBuffer ld.bufferI c ∧
      (lineRecv ld c).1.bufferI = ld.bufferI + 1 := by
  have hkeep : ¬ (c = 8 ∧ ld.bufferI > 0) := fun ⟨heq, hpos⟩ =>
    hc.elim (· heq) fun hzero => hpos.ne hzero.symm
  rw [lineRecv, if_neg hroom.ne]
  simp only [if_neg hkeep]
  exact ⟨rfl, add32_one (hroom.trans_le (Nat.sub_le _ _))⟩

/-- After the erasure the erasing character itself is appended. -/
theorem lineRecv_backspace (hroom : ld.bufferI < lineBufferSize - 1) (hpos : 0 < ld.bufferI) :
    (lineRecv ld 8).1.bufferI = ld.bufferI := by
  have hlt : ld.bufferI < lineBufferSize := hroom.trans_le (Nat.sub_le _ _)
  rw [lineRecv, if_neg hroom.ne]
  simp only [true_and, if_pos hpos]
  change add32 (sub32 ld.bufferI 1) 1 = ld.bufferI
  rw [sub32_one hpos hlt, add32_one ((Nat.sub_le _ _).trans_lt hlt)]
  exact Nat.sub_add_cancel hpos

/-- Once the characters have erased something, the buffer is longer than the edited text. -/
theorem length_edited_le (hflush : ld.bufferI = 0) (h : NeverFull ld cs) :
    (edited cs).length + (if 8 ∈ cs then 1 else 0) ≤ (recvAll ld cs).bufferI ∧
      (recvAll ld cs).bufferI ≤ lineBufferSize - 1 := by
  induction cs using List.reverseRecOn with
  | nil => exact ⟨hflush.ge, hflush.le.trans (Nat.zero_le _)⟩
  | append_singleton cs c ih =>
      obtain ⟨hcs, hroom⟩ := h.init
      obtain ⟨hlen, hle⟩ := ih hcs
      have hlt := Nat.lt_of_le_of_ne hle hroom
      rw [recvAll_append, edited_append, editChar]
      by_cases hc : c = 8
      · rw [if_pos hc, if_pos (by simp [hc]), List.length_dropLast]
        rcases Nat.eq_zero_or_pos (recvAll ld cs).bufferI with hzero | hpos
        · rw [(lineRecv_append hlt (Or.inr hzero)).2]
          omega
        · rw [hc, lineRecv_backspace hlt hpos]
          omega
      · have hmem : 8 ∈ cs ++ [c] ↔ 8 ∈ cs := by
          rw [List.mem_append, List.mem_singleton]
          exact or_iff_left fun heq => hc heq.symm
        rw [if_neg hc, (lineRecv_append hlt (Or.inl hc)).2, if_congr hmem rfl rfl,
          List.length_append, List.length_singleton]
        omega

theorem HoldsText.append {text : List Int8} (h : HoldsText ld text)
    (hroom : ld.bufferI < lineBufferSize - 1) (hc : c ≠ 8) :
    HoldsText (lineRecv ld c).1 (text ++ [c]) := by
  obtain ⟨hbuf, hi⟩ := lineRecv_append hroom (Or.inl hc)
  constructor
  · rw [hi, h.bufferI, List.length_append, List.length_singleton]
  · rw [hi, hbuf, List.range_succ, List.map_append, map_range_update le_rfl, h.text,
      List.map_singleton, Function.update_self]

theorem holdsText_edited (hflush : ld.bufferI = 0) (h : NeverFull ld cs) (hcs : 8 ∉ cs) :
    HoldsText (recvAll ld cs) (edited cs) := by
  induction cs using List.reverseRecOn with
  | nil =>
      refine ⟨hflush, ?_⟩
      change (List.range ld.bufferI).map ld.lineBuffer = []
      rw [hflush]
      rfl
  | append_singleton cs c ih =>
      rw [List.mem_append, List.mem_singleton, not_or] at hcs
      obtain ⟨hbefore, hroom⟩ := h.init
      have hle := (length_edited_le hflush hbefore).2
      have hc : c ≠ 8 := fun heq => hcs.2 heq.symm
      rw [recvAll_append, edited_append, editChar, if_neg hc]
      exact (ih hbefore hcs.1).append (Nat.lt_of_le_of_ne hle hroom) hc

/-- The characters of a process edit the line as they should if none of them erases. -/
theorem recv_edits_iff (h : NeverFull (lineFlush ld).1 cs) :
    HoldsText (recvAll (lineFlush ld).1 cs) (edited cs) ↔ 8 ∉ cs := by
  constructor
  · intro hholds hmem
    have hlen := (length_edited_le rfl h).1
    rw [if_pos hmem, hholds.bufferI] at hlen
    omega
  · exact holdsText_edited rfl h

theorem recv_edits_iff_letter :
    HoldsText (recvAll (lineFlush (lineStart .cooked)).1 [97]) (edited [97]) ↔
      8 ∉ ([97] : List Int8) :=
  recv_edits_iff fun p hp hne => by
    have hlen : p.length ≠ 1 := fun heq => hne (hp.eq_of_length heq)
    have hle : p.length ≤ 1 := hp.length_le
    have hnil : p = [] := List.length_eq_zero_iff.mp (by omega)
    rw [hnil]
    change 0 ≠ lineBufferSize - 1
    decide

/-- An erasure after one letter leaves the erasing character in the line. -/
theorem not_recv_edits :
    ¬ ∀ (ld : LineDisc) (cs : List Int8), NeverFull (lineFlush ld).1 cs →
      HoldsText (recvAll (lineFlush ld).1 cs) (edited cs) := by
  intro hall
  have hnever : NeverFull (lineFlush (lineStart .cooked)).1 [97, 8] := by
    intro p hp hne
    have hlen : p.length ≠ 2 := fun heq => hne (hp.eq_of_length heq)
    rcases List.prefix_cons_iff.mp hp with rfl | ⟨q, rfl, hq⟩
    · change 0 ≠ lineBufferSize - 1
      decide
    · rcases List.prefix_cons_iff.mp hq with rfl | ⟨r, rfl, _⟩
      · change 1 ≠ lineBufferSize - 1
        decide
      · rw [List.length_cons, List.length_cons] at hlen
        rw [List.prefix_nil.mp ‹r <+: []›] at hlen
        exact absurd rfl hlen
  have hholds := (hall (lineStart .cooked) [97, 8] hnever).bufferI
  exact absurd hholds (by decide)

end Recv

end Longhorn.LineInput
