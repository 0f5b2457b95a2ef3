import Longhorn.Foundations.TransitionRuns
import Longhorn.LineModel

/-!
Which calls keep the line discipline inside its buffer and its tables.
-/

namespace Longhorn.LineSafety

open Longhorn.Foundations.TransitionRuns
open Longhorn.StreamModel
open Longhorn.LineModel

inductive LineCall where
  | lineIn (c : Int8)
  | lineIns (s : CString)
  | lineRecv (c : Int8)
  | lineRecs (s : CString)
  | lineSend
  | lineOut
  | lineFlush

def execCall (ld : LineDisc) : LineCall → LineDisc
  | .lineIn c => (lineIn ld c).1
  | .lineIns s => (lineIns ld s).1
  | .lineRecv c => (lineRecv ld c).1
  | .lineRecs s => (lineRecs ld s).1
  | .lineSend => (lineSend ld).1
  | .lineOut => (lineOut ld).1
  | .lineFlush => (lineFlush ld).1

inductive LineStep : LineDisc → LineCall → LineDisc → Prop
  | call (ld : LineDisc) (k : LineCall) : LineStep ld k (execCall ld k)

def Access.Inside : Access → Prop
  | .buffer i => i < lineBufferSize
  | .table i => i < kcAscii.length ∧ i < kcAsciiCap.length

structure LineSafe (ld : LineDisc) : Prop where
  bufferI_le : ld.bufferI ≤ lineBufferSize - 1
  inside : ∀ a, a ∈ ld.accesses → Access.Inside a

/-- The keys of a raw line are in the tables, as far as they are looked up, and a
string from the process is shorter than the rest of the buffer. -/
def InBounds (ld : LineDisc) : LineCall → Prop
  | .lineIn c => ld.mode = .raw → ld.bufferI < lineBufferSize - 1 → keycode c ≤ kcMax
  | .lineIns s =>
      ld.mode = .raw → ∀ c, c ∈ s.text.take (lineBufferSize - 1 - ld.bufferI) → keycode c ≤ kcMax
  | .lineRecs s => strlen s < lineBufferSize - ld.bufferI
  | _ => True

section Preservation

variable {ld : LineDisc} {i : Nat} {c : Int8}

theorem LineSafe.touch {a : Access} (h : LineSafe ld) (ha : Access.Inside a) :
    LineSafe (ld.touch a) := by
  refine ⟨h.bufferI_le, ?_⟩
  intro b hb
  rcases List.mem_cons.mp hb with rfl | hb
  · exact ha
  · exact h.inside b hb

theorem LineSafe.store (h : LineSafe ld) (hi : i < lineBufferSize) : LineSafe (ld.store i c) :=
  ⟨h.bufferI_le, (h.touch (a := .buffer i) hi).inside⟩

theorem LineSafe.moveTo (h : LineSafe ld) (hi : i ≤ lineBufferSize - 1) :
    LineSafe (ld.moveTo i) :=
  ⟨hi, h.inside⟩

theorem LineSafe.show (h : LineSafe ld) (d : DisplayCall) : LineSafe (ld.show d) :=
  ⟨h.bufferI_le, h.inside⟩

theorem LineSafe.putOut (h : LineSafe ld) (c : Int8) : LineSafe (ld.putOut c) :=
  ⟨h.bufferI_le, h.inside⟩

theorem LineSafe.evalKey (h : LineSafe ld) (c : Int8) : LineSafe (ld.evalKey c) :=
  ⟨h.bufferI_le, h.inside⟩

theorem LineSafe.bufferI_lt (h : LineSafe ld) : ld.bufferI < lineBufferSize := by
  have hle := h.bufferI_le
  rw [lineBufferSize] at hle ⊢
  omega

theorem add32_one {i : Nat} (hi : i < lineBufferSize) : add32 i 1 = i + 1 := by
  rw [lineBufferSize] at hi
  rw [add32]
  omega

theorem sub32_one {i : Nat} (hi : 0 < i) (hlt : i < lineBufferSize) : sub32 i 1 = i - 1 := by
  rw [lineBufferSize] at hlt
  rw [sub32]
  omega

/-- What `line_in` lets through in cooked mode is in the tables. -/
theorem le_kcMax_of_evalKc {ts : TerminalState} (h : (evalKc ts i).2 ≠ 0) : i ≤ kcMax := by
  rw [evalKc] at h
  split_ifs at h <;> first | assumption | exact absurd rfl h

theorem LineSafe.sendv (h : LineSafe ld) :
    LineSafe (lineSendv ld).1 ∧ (lineSendv ld).1.bufferI = ld.bufferI := by
  have htouch : LineSafe (ld.touch (.buffer ld.bufferI)) := h.touch (a := .buffer _) h.bufferI_lt
  rw [lineSendv]
  split_ifs
  · exact ⟨(htouch.touch (a := .buffer _) h.bufferI_lt).putOut _, rfl⟩
  · exact ⟨htouch, rfl⟩

theorem LineSafe.echo (h : LineSafe ld) (hroom : ld.bufferI < lineBufferSize - 1) :
    LineSafe (lineEcho ld) ∧ (lineEcho ld).bufferI = ld.bufferI + 1 := by
  have hnext := add32_one h.bufferI_lt
  have htouch : LineSafe (ld.touch (.buffer ld.bufferI)) := h.touch (a := .buffer _) h.bufferI_lt
  refine ⟨((htouch.moveTo ?_).show _).show _, hnext⟩
  rw [hnext]
  exact hroom

theorem LineSafe.type (h : LineSafe ld) (hroom : ld.bufferI < lineBufferSize - 1)
    (hc : keycode c ≤ kcMax) :
    LineSafe (lineType ld c) ∧ (lineType ld c).bufferI = ld.bufferI + 1 := by
  have hlen : kcAscii.length = kcMax + 1 ∧ kcAsciiCap.length = kcMax + 1 := by decide
  have htable : Access.Inside (.table (keycode c)) :=
    ⟨hlen.1 ▸ Nat.lt_succ_of_le hc, hlen.2 ▸ Nat.lt_succ_of_le hc⟩
  obtain ⟨hsend, hi⟩ := ((h.touch htable).store (c := (kcGetchar ld (keycode c)).2)
    h.bufferI_lt).sendv
  obtain ⟨hecho, hnext⟩ := hsend.echo (lt_of_eq_of_lt hi hroom)
  exact ⟨hecho, hnext.trans (congrArg (· + 1) hi)⟩

theorem LineSafe.erase (h : LineSafe ld) : LineSafe (lineErase ld) := by
  have hi := h.bufferI_lt
  rw [lineErase]
  split_ifs with hpos
  · refine (((h.store hi).moveTo ?_).show _).show _
    rw [sub32_one hpos hi]
    exact (Nat.sub_le _ _).trans h.bufferI_le
  · exact h

/-- A key in raw mode goes into the buffer while there is room. -/
theorem LineSafe.lineIn_raw (h : LineSafe ld) (hmode : ld.mode = .raw)
    (hroom : ld.bufferI < lineBufferSize - 1) (hc : keycode c ≤ kcMax) :
    LineSafe (lineIn ld c).1 ∧ (lineIn ld c).1.bufferI = ld.bufferI + 1 := by
  rw [LineModel.lineIn_raw hroom.ne hmode]
  exact (h.evalKey c).type hroom hc

theorem LineSafe.lineIn (h : LineSafe ld) (hc : InBounds ld (.lineIn c)) :
    LineSafe (lineIn ld c).1 := by
  rcases h.bufferI_le.lt_or_eq with hroom | hfull
  · cases hmode : ld.mode with
    | raw => exact (h.lineIn_raw hmode hroom (hc hmode hroom)).1
    | cooked =>
        rw [lineIn_cooked hroom.ne hmode]
        split_ifs with hkc hback
        · exact h.evalKey c
        · exact (h.evalKey c).erase
        · exact ((h.evalKey c).type hroom (le_kcMax_of_evalKc hkc)).1
  · rw [lineIn_full hfull]
    exact h.evalKey c

theorem mode_sendv : (lineSendv ld).1.mode = ld.mode := by
  rw [lineSendv]
  split_ifs <;> rfl

theorem mode_type : (lineType ld c).mode = ld.mode := by
  obtain ⟨stored, htype, hstored⟩ : ∃ stored,
      lineType ld c = lineEcho (lineSendv stored).1 ∧ stored.mode = ld.mode := ⟨_, rfl, rfl⟩
  have hecho : (lineEcho (lineSendv stored).1).mode = (lineSendv stored).1.mode := rfl
  rw [htype, hecho, mode_sendv, hstored]

theorem mode_lineIn (hroom : ld.bufferI ≠ lineBufferSize - 1) :
    (LineModel.lineIn ld c).1.mode = ld.mode := by
  have htype : (lineType (ld.evalKey c) c).mode = ld.mode := mode_type
  cases hmode : ld.mode with
  | raw =>
      rw [LineModel.lineIn_raw hroom hmode]
      exact htype.trans hmode
  | cooked =>
      rw [lineIn_cooked hroom hmode]
      split_ifs
      · exact hmode
      · rw [lineErase]
        split_ifs <;> exact hmode
      · exact htype.trans hmode

theorem LineSafe.insLoop (h : LineSafe ld) (k : Nat) (keys : List Int8) (i : Nat)
    (hkeys : ld.mode = .raw →
      ∀ c, c ∈ keys.take (lineBufferSize - 1 - ld.bufferI) → keycode c ≤ kcMax) :
    LineSafe (lineInsLoop ld k keys i).1 := by
  induction k generalizing ld keys i with
  | zero => exact h
  | succ k ih =>
      cases keys with
      | nil => exact h
      | cons c rest =>
          have hin : LineSafe (LineModel.lineIn ld c).1 := by
            apply h.lineIn
            intro hmode hroom
            refine hkeys hmode c ?_
            rw [List.take_cons (by omega)]
            exact List.mem_cons_self
          rw [lineInsLoop]
          split_ifs with hcode
          · exact hin
          · apply ih hin
            intro hraw
            rcases h.bufferI_le.lt_or_eq with hroom | hfull
            · have hmode : ld.mode = .raw := (mode_lineIn hroom.ne).symm.trans hraw
              have hc : keycode c ≤ kcMax := by
                apply hkeys hmode
                rw [List.take_cons (by omega)]
                exact List.mem_cons_self
              intro d hd
              apply hkeys hmode
              rw [(h.lineIn_raw hmode hroom hc).2] at hd
              rw [List.take_cons (by omega)]
              exact List.mem_cons_of_mem _ hd
            · rw [lineIn_full hfull] at hcode
              exact absurd rfl hcode

theorem LineSafe.outLoop (h : LineSafe ld) (k i : Nat) (hk : i + k ≤ lineBufferSize) :
    LineSafe (lineOutLoop ld k i).1 := by
  induction k generalizing ld i with
  | zero => exact h
  | succ k ih =>
      have htouch : ∀ {ld : LineDisc}, LineSafe ld → LineSafe (ld.touch (.buffer i)) :=
        fun h => h.touch (a := .buffer i) (show i < lineBufferSize by omega)
      rw [lineOutLoop]
      split_ifs with hlt
      · dsimp only
        split_ifs
        · exact (htouch h).show _
        · exact ih ((htouch h).show _) (i + 1) (by omega)
        · exact (htouch (htouch h)).show _
        · exact ih ((htouch (htouch h)).show _) (i + 1) (by omega)
      · exact h

theorem LineSafe.sendLoop (h : LineSafe ld) (k i : Nat) (hk : i + k ≤ lineBufferSize) :
    LineSafe (lineSendLoop ld k i).1 := by
  induction k generalizing ld i with
  | zero => exact h
  | succ k ih =>
      have htouch : ∀ {ld : LineDisc}, LineSafe ld → LineSafe (ld.touch (.buffer i)) :=
        fun h => h.touch (a := .buffer i) (show i < lineBufferSize by omega)
      rw [lineSendLoop]
      split_ifs with hlt
      · dsimp only
        split_ifs
        · exact ih ((htouch (htouch h)).putOut _) (i + 1) (by omega)
        · exact htouch h
      · exact h

theorem LineSafe.recv (h : LineSafe ld) : LineSafe (lineRecv ld c).1 := by
  rcases h.bufferI_le.lt_or_eq with hroom | hfull
  · have hi := h.bufferI_lt
    rw [lineRecv, if_neg hroom.ne]
    split_ifs with hback
    · have hprev := sub32_one hback.2 hi
      have hle : ld.bufferI - 1 ≤ lineBufferSize - 1 := (Nat.sub_le _ _).trans h.bufferI_le
      have herased : LineSafe ((ld.store ld.bufferI 0).moveTo (sub32 ld.bufferI 1)) :=
        (h.store hi).moveTo (hprev ▸ hle)
      refine (herased.store herased.bufferI_lt).moveTo ?_
      change add32 (sub32 ld.bufferI 1) 1 ≤ lineBufferSize - 1
      rw [hprev, add32_one (by omega)]
      omega
    · refine (h.store hi).moveTo ?_
      rw [add32_one hi]
      omega
  · rw [lineRecv, if_pos hfull]
    exact h

theorem LineSafe.copyIn (h : LineSafe ld) (s : CString) {k : Nat}
    (hk : ld.bufferI + k ≤ lineBufferSize) : LineSafe (copyIn ld s k) := by
  induction k with
  | zero => exact h
  | succ k ih => exact (ih (by omega)).store (by omega)

theorem sub32_bufferI (h : LineSafe ld) :
    sub32 lineBufferSize ld.bufferI = lineBufferSize - ld.bufferI := by
  have hi := h.bufferI_lt
  rw [lineBufferSize] at hi ⊢
  rw [sub32]
  omega

theorem LineSafe.recs (h : LineSafe ld) {s : CString} (hs : InBounds ld (.lineRecs s)) :
    LineSafe (lineRecs ld s).1 := by
  change strlen s < lineBufferSize - ld.bufferI at hs
  have hsize : recsSize ld s = strlen s := by
    rw [recsSize, sub32_bufferI h, if_pos hs]
  have hnext : add32 ld.bufferI (strlen s) = ld.bufferI + strlen s := by
    rw [lineBufferSize] at hs
    rw [add32]
    omega
  have hmoved : LineSafe ((LineModel.copyIn ld s (strlen s)).moveTo (ld.bufferI + strlen s)) :=
    (h.copyIn s (by omega)).moveTo (by omega)
  rw [lineRecs, hsize, hnext]
  exact hmoved.store hmoved.bufferI_lt

theorem LineSafe.clearBuffer (h : LineSafe ld) {k : Nat} (hk : k ≤ lineBufferSize) :
    LineSafe (clearBuffer ld k) := by
  induction k with
  | zero => exact h
  | succ k ih => exact (ih (by omega)).store (by omega)

theorem LineSafe.exec {k : LineCall} (h : LineSafe ld) (hk : InBounds ld k) :
    LineSafe (execCall ld k) := by
  cases k with
  | lineIn c => exact h.lineIn hk
  | lineIns s => exact h.insLoop _ _ _ hk
  | lineRecv c => exact h.recv
  | lineRecs s => exact h.recs hk
  | lineSend => exact (h.sendLoop _ 0 (by simp)).moveTo (Nat.zero_le _)
  | lineOut => exact h.outLoop _ 0 (by simp)
  | lineFlush => exact (h.clearBuffer le_rfl).moveTo (Nat.zero_le _)

end Preservation

section Runs

variable {mem : Option (Nat → Int8)} {t : Option TerminalState} {out : Stream} {m : LdMode}
  {behind : Nat → Int8} {ld ld' : LineDisc} {ks : List LineCall}

theorem LineSafe.of_lineInit (h : lineInit mem t out m behind = some ld) : LineSafe ld := by
  cases mem with
  | none => exact absurd h nofun
  | some buffer =>
      rw [lineInit, Option.some.injEq] at h
      subst h
      exact ⟨Nat.zero_le _, nofun⟩

/-- While the calls stay in bounds, so does the code. -/
theorem line_safe_of_in_bounds (hinit : lineInit mem t out m behind = some ld)
    (hrun : Run (Guarded LineStep InBounds) ld ks ld') :
    ld'.bufferI ≤ lineBufferSize - 1 ∧ ∀ a, a ∈ ld'.accesses → Access.Inside a := by
  have hsafe : LineSafe ld' := by
    refine hrun.invariant LineSafe ?_ (LineSafe.of_lineInit hinit)
    rintro s k t hs ⟨hk, hstep⟩
    cases hstep
    exact hs.exec hk
  exact ⟨hsafe.bufferI_le, hsafe.inside⟩

/-- A fresh line discipline over zeroed memory. -/
def lineStart (m : LdMode) : LineDisc :=
  ⟨fun _ => 0, 0, ⟨false, false, false⟩, [], ⟨fun _ => 0, 256, 0, 0⟩, m, fun _ => 0, []⟩

theorem lineInit_lineStart (m : LdMode) :
    lineInit (some fun _ => 0) none ⟨fun _ => 0, 256, 0, 0⟩ m (fun _ => 0) = some (lineStart m) :=
  rfl

theorem line_safe_of_in_bounds_key :
    (lineIn (lineStart .raw) 0x1E).1.bufferI ≤ lineBufferSize - 1 ∧
      ∀ a, a ∈ (lineIn (lineStart .raw) 0x1E).1.accesses → Access.Inside a :=
  have hkey : InBounds (lineStart .raw) (.lineIn 0x1E) := fun _ _ => by decide
  line_safe_of_in_bounds (lineInit_lineStart .raw) (.single ⟨hkey, .call _ _⟩)

/-- A string that fills the rest of the buffer is copied past its end. -/
theorem touched_of_recs {s : CString} (h : LineSafe ld)
    (hs : lineBufferSize - ld.bufferI ≤ strlen s) :
    .buffer lineBufferSize ∈ (execCall ld (.lineRecs s)).accesses := by
  have hi := h.bufferI_lt
  have hsub := sub32_bufferI h
  have hsize : recsSize ld s = lineBufferSize - ld.bufferI + 1 := by
    rw [recsSize, hsub, if_neg (by omega), lineBufferSize, add32]
    omega
  have hlast : ld.bufferI + (lineBufferSize - ld.bufferI) = lineBufferSize := by omega
  refine List.mem_cons_of_mem _ ?_
  change _ ∈ (copyIn ld s (recsSize ld s)).accesses
  rw [hsize]
  refine List.mem_cons.mpr (Or.inl ?_)
  rw [hlast]

/-- A line of 1024 characters from the process, which does not fit. -/
def longLine : CString :=
  ⟨List.replicate 1024 97, fun h => absurd (List.eq_of_mem_replicate h) (by decide)⟩

theorem not_line_safe_of_run :
    ∃ ld ld' ks, lineInit (some fun _ => 0) none ⟨fun _ => 0, 256, 0, 0⟩ .cooked (fun _ => 0) =
      some ld ∧ Run LineStep ld ks ld' ∧ ∃ a, a ∈ ld'.accesses ∧ ¬ Access.Inside a := by
  refine ⟨lineStart .cooked, _, [.lineRecs longLine], rfl, .single (.call _ _),
    .buffer lineBufferSize, ?_, lt_irrefl _⟩
  apply touched_of_recs
  · exact LineSafe.of_lineInit (lineInit_lineStart .cooked)
  · change lineBufferSize - 0 ≤ (List.replicate 1024 (97 : Int8)).length
    rw [List.length_replicate]
    rfl

end Runs

end Longhorn.LineSafety
