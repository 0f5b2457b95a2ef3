import Longhorn.LineSafety

/-!
The keyboard handler of `drivers/keyboard.c`, and how the flags of the terminal follow the
keys that are held down on a keyboard with scancode set 1.
-/

namespace Longhorn.ModifierKeys

open Longhorn.Foundations.TransitionRuns
open Longhorn.LineModel
open Longhorn.LineSafety

def scLalt : Nat := 0x38
def scLshift : Nat := 0x2A
def scLctrl : Nat := 0x1D
def scCapslock : Nat := 0x3A
def scRshift : Nat := 0x36
def scReleased : Nat := 0x81
def scLaltRel : Nat := 0xB8
def scLshiftRel : Nat := 0xAA
def scLctrlRel : Nat := 0x9D
def scRshiftRel : Nat := 0xB6

/-- `uint8_t` to `char`. -/
def toChar (scancode : Nat) : Int8 := (UInt8.ofNat scancode).toInt8

def terminalIn (ld : LineDisc) (c : Int8) : LineDisc × Int := ((lineIn ld c).1, termSucc)

/-- `keyboard_handler` for the scancode it reads, once the terminal is set up. -/
def keyboardHandler (scancode : Nat) (ld : LineDisc) : LineDisc :=
  if scancode = scLaltRel ∨ scancode = scLshiftRel ∨ scancode = scLctrlRel ∨
      scancode = scRshiftRel then
    (terminalIn ld (toChar scancode)).1
  else if scancode < scReleased then (terminalIn ld (toChar scancode)).1
  else ld

/-- Where a keyboard is in a sequence of several scancodes. -/
inductive Phase where
  | idle
  | extended
  | pausing (sent : Nat)

/-- A keyboard: the keys that are held down, by their make codes, and how often Caps Lock
has been pressed. -/
structure Keyboard where
  phase : Phase
  held : Nat → Bool
  capsPresses : Nat

/-- The make codes of single scancodes; the others begin a sequence or report an error. -/
def IsKey (k : Nat) : Prop := 0 < k ∧ k < 0x80 ∧ k ≠ 0x60 ∧ k ≠ 0x61

instance (k : Nat) : Decidable (IsKey k) := inferInstanceAs (Decidable (_ ∧ _))

/-- What the Pause key sends behind its first scancode. -/
def pauseRest : List Nat := [0x1D, 0x45, 0xE1, 0x9D, 0xC5]

/-- Press a key, or repeat its make code while it is held. -/
def Keyboard.press (kb : Keyboard) (k : Nat) : Keyboard :=
  { kb with
    held := Function.update kb.held k true
    capsPresses :=
      if k = scCapslock ∧ kb.held k = false then kb.capsPresses + 1 else kb.capsPresses }

def Keyboard.release (kb : Keyboard) (k : Nat) : Keyboard :=
  { kb with held := Function.update kb.held k false }

def Keyboard.enter (kb : Keyboard) (phase : Phase) : Keyboard := { kb with phase := phase }

/-- The scancodes that a keyboard can send.  After `0xE0` come the codes of the right
control and alt keys and of the cursor keys, and the shift codes sent around them. -/
inductive Sends : Keyboard → Nat → Keyboard → Prop
  | make {kb : Keyboard} {k : Nat} (hidle : kb.phase = .idle) (hk : IsKey k) :
      Sends kb k (kb.press k)
  | release {kb : Keyboard} {k : Nat} (hidle : kb.phase = .idle) (hk : IsKey k)
      (hheld : kb.held k = true) : Sends kb (k + 0x80) (kb.release k)
  | extend {kb : Keyboard} (hidle : kb.phase = .idle) : Sends kb 0xE0 (kb.enter .extended)
  | extended {kb : Keyboard} {b : Nat} (hphase : kb.phase = .extended) (hb : b < 0x100) :
      Sends kb b (kb.enter .idle)
  | pause {kb : Keyboard} (hidle : kb.phase = .idle) : Sends kb 0xE1 (kb.enter (.pausing 0))
  | pausing {kb : Keyboard} {i : Nat} (hphase : kb.phase = .pausing i) (hi : i < pauseRest.length) :
      Sends kb pauseRest[i]
        (kb.enter (if i + 1 < pauseRest.length then .pausing (i + 1) else .idle))

/-- The keyboard and the line discipline that its handler feeds. -/
structure Console where
  kb : Keyboard
  ld : LineDisc

/-- One scancode: the keyboard sends it, and the handler reads it. -/
inductive KeyStep : Console → Nat → Console → Prop
  | scancode {c : Console} {b : Nat} {kb' : Keyboard} (h : Sends c.kb b kb') :
      KeyStep c b ⟨kb', keyboardHandler b c.ld⟩

/-- No key is held, and `terminal_init` has cleared the flags. -/
def Console.Init (c : Console) : Prop :=
  c.kb = ⟨.idle, fun _ => false, 0⟩ ∧ c.ld.ts = ⟨false, false, false⟩

def Keyboard.capsOn (kb : Keyboard) : Bool := decide (kb.capsPresses % 2 = 1)

/-- What the flags should be. -/
def Keyboard.flags (kb : Keyboard) : TerminalState where
  capitalize := kb.capsOn ^^ (kb.held scLshift || kb.held scRshift)
  altPressed := kb.held scLalt
  ctrlPressed := kb.held scLctrl

def Tracks (c : Console) : Prop := c.ld.ts = c.kb.flags

/-- The scancodes on which `eval_kc` flips `capitalize`, and those on which it flips
`ctrl_pressed`. -/
def capitalCodes : List Nat := [scLshift, scRshift, scLshiftRel, scRshiftRel, scCapslock]
def ctrlCodes : List Nat := [scLctrl, scLctrlRel]

/-- A scancode on which the flags change as the keys do: no left alt key comes up, no
modifier is repeated, the shift keys take turns, and no sequence contains the code of a
modifier. -/
def Balanced (kb : Keyboard) (b : Nat) : Prop :=
  match kb.phase with
  | .idle =>
      b ≠ scLaltRel ∧ (b = scLalt ∨ b = scLctrl ∨ b = scCapslock → kb.held b = false) ∧
        (b = scLshift ∨ b = scRshift → kb.held scLshift = false ∧ kb.held scRshift = false) ∧
        (b = scLshiftRel → kb.held scRshift = false) ∧ (b = scRshiftRel → kb.held scLshift = false)
  | _ => b ≠ scLalt ∧ b ∉ capitalCodes ∧ b ∉ ctrlCodes

/-- The flags after `eval_kc` of a scancode. -/
def flip (ts : TerminalState) (b : Nat) : TerminalState where
  capitalize := ts.capitalize ^^ decide (b ∈ capitalCodes)
  altPressed := ts.altPressed ^^ decide (b = scLalt)
  ctrlPressed := ts.ctrlPressed ^^ decide (b ∈ ctrlCodes)

theorem terminalState_eq_iff (s s' : TerminalState) : s = s' ↔
    s.capitalize = s'.capitalize ∧ s.altPressed = s'.altPressed ∧
      s.ctrlPressed = s'.ctrlPressed := by
  rw [TerminalState.mk.injEq]

section Handler

variable {ld : LineDisc}

theorem evalKc_fst (ts : TerminalState) (k : Nat) : (evalKc ts k).1 = flip ts k := by
  simp only [evalKc, flip, capitalCodes, ctrlCodes, kcLalt, kcLshift, kcRshift, kcLshiftRel,
    kcRshiftRel, kcCapslock, kcLctrl, kcLctrlRel, scLalt, scLshift, scRshift, scLshiftRel,
    scRshiftRel, scCapslock, scLctrl, scLctrlRel, List.mem_cons, List.not_mem_nil, or_false]
  split_ifs with halt hshift hcaps hctrl
  · simp [halt]
  · rcases hshift with rfl | rfl | rfl | rfl <;> simp
  · simp [hcaps]
  · rcases hctrl with rfl | rfl <;> simp
  all_goals
    simp only [not_or] at hshift hctrl
    simp [halt, hshift, hcaps, hctrl]

@[simp] theorem store_ts (i : Nat) (c : Int8) : (ld.store i c).ts = ld.ts := rfl

@[simp] theorem moveTo_ts (i : Nat) : (ld.moveTo i).ts = ld.ts := rfl

@[simp] theorem show_ts (d : DisplayCall) : (ld.show d).ts = ld.ts := rfl

@[simp] theorem putOut_ts (c : Int8) : (ld.putOut c).ts = ld.ts := rfl

@[simp] theorem touch_ts (a : Access) : (ld.touch a).ts = ld.ts := rfl

theorem lineSendv_ts : (lineSendv ld).1.ts = ld.ts := by
  simp only [lineSendv]
  split <;> simp

theorem lineType_ts (c : Int8) : (lineType ld c).ts = ld.ts := by
  simp only [lineType, lineEcho, terminalWrite, show_ts, moveTo_ts, touch_ts, lineSendv_ts,
    store_ts, kcGetchar]

theorem lineErase_ts : (lineErase ld).ts = ld.ts := by
  simp only [lineErase]
  split <;> simp

/-- Whatever else `line_in` does, the flags change as `eval_kc` changes them. -/
theorem lineIn_ts (c : Int8) : (lineIn ld c).1.ts = (evalKc ld.ts (keycode c)).1 := by
  have hkey : (ld.evalKey c).ts = (evalKc ld.ts (keycode c)).1 := rfl
  by_cases hfull : ld.bufferI = lineBufferSize - 1
  · rw [lineIn_full hfull, hkey]
  · cases hmode : ld.mode with
    | raw => rw [lineIn_raw hfull hmode, lineType_ts, hkey]
    | cooked =>
        rw [lineIn_cooked hfull hmode, ← hkey]
        simp only
        split_ifs
        · rfl
        · exact lineErase_ts
        · exact lineType_ts c

theorem keycode_toChar {b : Nat} (hb : b < 0x100) : keycode (toChar b) = b := by
  simp only [keycode, toChar, UInt8.toUInt8_toInt8, UInt8.toNat_ofNat']
  exact Nat.mod_eq_of_lt hb

theorem flip_eq_self_iff (ts : TerminalState) (b : Nat) :
    flip ts b = ts ↔ b ≠ scLalt ∧ b ∉ capitalCodes ∧ b ∉ ctrlCodes := by
  have hxor : ∀ x y : Bool, (x ^^ y) = x ↔ y = false := by decide
  rw [terminalState_eq_iff]
  simp only [flip, hxor, decide_eq_false_iff_not]
  exact ⟨fun ⟨hcap, halt, hctrl⟩ => ⟨halt, hcap, hctrl⟩,
    fun ⟨halt, hcap, hctrl⟩ => ⟨hcap, halt, hctrl⟩⟩

/-- Every scancode that flips a flag passes the handler. -/
theorem keyboardHandler_ts {b : Nat} (hb : b < 0x100) :
    (keyboardHandler b ld).ts = flip ld.ts b := by
  have hin : (terminalIn ld (toChar b)).1.ts = flip ld.ts b := by
    rw [terminalIn, lineIn_ts, keycode_toChar hb, evalKc_fst]
  rw [keyboardHandler]
  split_ifs with hrel hlow
  · exact hin
  · exact hin
  · simp only [scReleased, scLaltRel, scLshiftRel, scLctrlRel, scRshiftRel] at hrel hlow
    refine ((flip_eq_self_iff _ _).mpr ?_).symm
    simp only [scLalt, capitalCodes, ctrlCodes, scLshift, scRshift, scLshiftRel, scRshiftRel,
      scCapslock, scLctrl, scLctrlRel, List.mem_cons, List.not_mem_nil, or_false]
    omega

end Handler

section Flags

variable {kb : Keyboard} {k : Nat}

theorem update_true_eq_iff (held : Nat → Bool) (k m : Nat) :
    Function.update held k true m = (held m ^^ decide (k = m)) ↔ (k = m → held k = false) := by
  by_cases hk : k = m
  · subst hk
    simp
  · rw [Function.update_of_ne (Ne.symm hk)]
    simp [hk]

theorem update_true (held : Nat → Bool) (k m : Nat) :
    Function.update held k true m = (held m || decide (k = m)) := by
  by_cases hk : k = m
  · subst hk
    simp
  · rw [Function.update_of_ne (Ne.symm hk)]
    simp [hk]

theorem decide_odd_succ (n : Nat) : decide ((n + 1) % 2 = 1) = !decide (n % 2 = 1) := by
  rcases Nat.mod_two_eq_zero_or_one n with hn | hn
  · have : (n + 1) % 2 = 1 := by omega
    simp [hn, this]
  · have : (n + 1) % 2 = 0 := by omega
    simp [hn, this]

/-- The truth table of a make code: `o` is the parity of Caps Lock, `l` and `r` are the shift
keys, `h` is the key of the code, and at most one of `dc`, `dl` and `dr` says which it is. -/
theorem capitalize_table : ∀ o l r h dc dl dr : Bool,
    (dc && dl) = false → (dc && dr) = false → (dl && dr) = false →
      (((o ^^ (dc && !h)) ^^ ((l || dl) || (r || dr))) = ((o ^^ (l || r)) ^^ (dl || (dr || dc))) ↔
        (dc = true → h = false) ∧ (dl = true ∨ dr = true → l = false ∧ r = false)) := by
  decide

theorem press_capsOn (k : Nat) :
    (kb.press k).capsOn = (kb.capsOn ^^ (decide (k = scCapslock) && !kb.held k)) := by
  by_cases hcaps : k = scCapslock ∧ kb.held k = false
  · have hpress : (kb.press k).capsPresses = kb.capsPresses + 1 := if_pos hcaps
    have hfirst : (decide (k = scCapslock) && !kb.held k) = true := by simpa using hcaps
    rw [hfirst, Bool.xor_true, Keyboard.capsOn, hpress, decide_odd_succ, Keyboard.capsOn]
  · have hpress : (kb.press k).capsPresses = kb.capsPresses := if_neg hcaps
    have hnone : (decide (k = scCapslock) && !kb.held k) = false := by simpa using hcaps
    rw [hnone, Bool.xor_false, Keyboard.capsOn, hpress, Keyboard.capsOn]

theorem press_capitalize (k : Nat) : (kb.press k).flags.capitalize =
    ((kb.capsOn ^^ (decide (k = scCapslock) && !kb.held k)) ^^
      ((kb.held scLshift || decide (k = scLshift)) ||
        (kb.held scRshift || decide (k = scRshift)))) := by
  rw [Keyboard.flags, press_capsOn]
  simp only [Keyboard.press, update_true]

theorem mem_capitalCodes_of_isKey (hk : IsKey k) : decide (k ∈ capitalCodes) =
    (decide (k = scLshift) || (decide (k = scRshift) || decide (k = scCapslock))) := by
  rw [← Bool.decide_or, ← Bool.decide_or, decide_eq_decide]
  simp only [IsKey] at hk
  simp only [capitalCodes, scLshift, scRshift, scLshiftRel, scRshiftRel, scCapslock,
    List.mem_cons, List.not_mem_nil, or_false]
  omega

/-- `capitalize` follows a make code unless it repeats or comes next to a held shift key. -/
theorem press_capitalize_iff (hk : IsKey k) :
    (kb.press k).flags.capitalize = (flip kb.flags k).capitalize ↔
      (k = scCapslock → kb.held k = false) ∧
        (k = scLshift ∨ k = scRshift → kb.held scLshift = false ∧ kb.held scRshift = false) := by
  have hone : ∀ m n : Nat, m ≠ n → (decide (k = m) && decide (k = n)) = false := by
    intro m n hmn
    simp only [Bool.and_eq_false_iff, decide_eq_false_iff_not]
    omega
  have htable := capitalize_table kb.capsOn (kb.held scLshift)
    (kb.held scRshift) (kb.held k) (decide (k = scCapslock)) (decide (k = scLshift))
    (decide (k = scRshift)) (hone _ _ (by decide)) (hone _ _ (by decide)) (hone _ _ (by decide))
  rw [press_capitalize, flip, mem_capitalCodes_of_isKey hk]
  simpa only [Keyboard.flags, decide_eq_true_eq] using htable

/-- The flags follow a make code. -/
theorem press_flags_iff (hidle : kb.phase = .idle) (hk : IsKey k) :
    (kb.press k).flags = flip kb.flags k ↔ Balanced kb k := by
  have hcodes : k ≠ scLaltRel ∧ k ≠ scLctrlRel ∧ k ≠ scLshiftRel ∧ k ≠ scRshiftRel := by
    simp only [IsKey, scLaltRel, scLctrlRel, scLshiftRel, scRshiftRel] at hk ⊢
    omega
  obtain ⟨halt, hctrl, hlshift, hrshift⟩ := hcodes
  have hctrlCode : k ∈ ctrlCodes ↔ k = scLctrl := by simp [ctrlCodes, hctrl]
  rw [terminalState_eq_iff, press_capitalize_iff hk]
  simp only [Keyboard.flags, Keyboard.press, flip, hctrlCode, update_true_eq_iff, Balanced, hidle]
  grind

/-- The truth table of the break code of a held key. -/
theorem release_table : ∀ o l r dl dr : Bool, (dl && dr) = false → (dl = true → l = true) →
    (dr = true → r = true) →
      ((o ^^ ((l && !dl) || (r && !dr))) = ((o ^^ (l || r)) ^^ (dl || dr)) ↔
        (dl = true → r = false) ∧ (dr = true → l = false)) := by
  decide

theorem update_false (held : Nat → Bool) (k m : Nat) :
    Function.update held k false m = (held m && !decide (k = m)) := by
  by_cases hk : k = m
  · subst hk
    simp
  · rw [Function.update_of_ne (Ne.symm hk)]
    simp [hk]

/-- The flags follow a break code. -/
theorem release_flags_iff (hidle : kb.phase = .idle) (hk : IsKey k) (hheld : kb.held k = true) :
    (kb.release k).flags = flip kb.flags (k + 0x80) ↔ Balanced kb (k + 0x80) := by
  have hmakes : k + 0x80 ≠ scLalt ∧ k + 0x80 ≠ scLctrl ∧ k + 0x80 ≠ scCapslock ∧
      k + 0x80 ≠ scLshift ∧ k + 0x80 ≠ scRshift := by
    simp only [IsKey, scLalt, scLctrl, scCapslock, scLshift, scRshift] at hk ⊢
    omega
  obtain ⟨halt, hctrl, hcaps, hlshift, hrshift⟩ := hmakes
  have haltRel : k + 0x80 = scLaltRel ↔ k = scLalt := by
    unfold scLaltRel scLalt
    omega
  have hctrlCode : k + 0x80 ∈ ctrlCodes ↔ k = scLctrl := by
    simp only [ctrlCodes, List.mem_cons, hctrl, List.not_mem_nil, or_false, false_or]
    unfold scLctrlRel scLctrl
    omega
  have hlRel : k + 0x80 = scLshiftRel ↔ k = scLshift := by
    unfold scLshiftRel scLshift
    omega
  have hrRel : k + 0x80 = scRshiftRel ↔ k = scRshift := by
    unfold scRshiftRel scRshift
    omega
  have hcapCode : k + 0x80 ∈ capitalCodes ↔ k = scLshift ∨ k = scRshift := by
    simp only [capitalCodes, List.mem_cons, hlshift, hrshift, hcaps, hlRel, hrRel,
      List.not_mem_nil, or_false, false_or]
  have hone : (decide (k = scLshift) && decide (k = scRshift)) = false := by
    simp only [Bool.and_eq_false_iff, decide_eq_false_iff_not]
    unfold scLshift scRshift
    omega
  have htable := release_table kb.capsOn (kb.held scLshift) (kb.held scRshift)
    (decide (k = scLshift)) (decide (k = scRshift)) hone
    (fun h => of_decide_eq_true h ▸ hheld) (fun h => of_decide_eq_true h ▸ hheld)
  simp only [decide_eq_true_eq] at htable
  have hcapsOn : (kb.release k).capsOn = kb.capsOn := rfl
  rw [terminalState_eq_iff]
  simp only [Keyboard.flags, hcapsOn, flip, hctrlCode, hcapCode, halt, Bool.decide_or]
  simp only [Keyboard.release, update_false, htable, Balanced, hidle, hlRel, hrRel, halt, hctrl,
    hcaps, hlshift, hrshift]
  grind

end Flags

theorem Sends.lt {kb kb' : Keyboard} {b : Nat} (h : Sends kb b kb') : b < 0x100 := by
  cases h with
  | make _ hk => exact Nat.lt_trans hk.2.1 (by decide)
  | release _ hk _ =>
      have := hk.2.1
      omega
  | extend _ => decide
  | extended _ hb => exact hb
  | pause _ => decide
  | pausing _ hi =>
      have hall : ∀ b ∈ pauseRest, b < 0x100 := by decide
      exact hall _ (List.getElem_mem hi)

/-- The keys change as the flags do exactly on a scancode that is balanced. -/
theorem Sends.flags_iff {kb kb' : Keyboard} {b : Nat} (h : Sends kb b kb') :
    kb'.flags = flip kb.flags b ↔ Balanced kb b := by
  have henter : ∀ phase, (kb.enter phase).flags = kb.flags := fun _ => rfl
  have hselect : ∀ c, c = 0xE0 ∨ c = 0xE1 → kb.phase = .idle →
      (kb.flags = flip kb.flags c ↔ Balanced kb c) := by
    rintro c hc hidle
    have hkeep : flip kb.flags c = kb.flags := by
      rw [flip_eq_self_iff]
      rcases hc with rfl | rfl <;> decide
    rw [hkeep, Balanced, hidle]
    simp only [true_iff]
    rcases hc with rfl | rfl <;> simp [scLaltRel, scLalt, scLctrl, scCapslock, scLshift, scRshift,
      scLshiftRel, scRshiftRel]
  cases h with
  | make hidle hk => exact press_flags_iff hidle hk
  | release hidle hk hheld => exact release_flags_iff hidle hk hheld
  | extend hidle => rw [henter, hselect _ (Or.inl rfl) hidle]
  | extended hphase _ =>
      rw [henter, eq_comm, flip_eq_self_iff, Balanced, hphase]
  | pause hidle => rw [henter, hselect _ (Or.inr rfl) hidle]
  | pausing hphase _ =>
      rw [henter, eq_comm, flip_eq_self_iff, Balanced, hphase]

/-- From a state in which the flags are right, one scancode keeps them right exactly when
it is balanced. -/
theorem tracks_step_iff {c d : Console} {b : Nat} (h : Tracks c) (hstep : KeyStep c b d) :
    Tracks d ↔ Balanced c.kb b := by
  cases hstep with
  | scancode hsend =>
      rw [Tracks, keyboardHandler_ts hsend.lt, h, eq_comm]
      exact hsend.flags_iff

theorem Console.Init.tracks {c : Console} (h : c.Init) : Tracks c := by
  rw [Tracks, h.1, h.2]
  rfl

/-- The flags follow the keys as long as every scancode is balanced, and no longer. -/
theorem flags_track_of_balanced {c d : Console} {bs : List Nat} (hinit : c.Init)
    (hrun : Run (Guarded KeyStep fun c b => Balanced c.kb b) c bs d) :
    Tracks d ∧ ∀ b e, KeyStep d b e → (Tracks e ↔ Balanced d.kb b) := by
  have htracks : Tracks d :=
    Run.invariant Tracks (fun _ _ _ h hstep => (tracks_step_iff h hstep.2).mpr hstep.1) hrun
      hinit.tracks
  exact ⟨htracks, fun b e hstep => tracks_step_iff htracks hstep⟩

/-- A console at the start. -/
def consoleStart : Console := ⟨⟨.idle, fun _ => false, 0⟩, lineStart .cooked⟩

theorem consoleStart_init : consoleStart.Init := ⟨rfl, rfl⟩

/-- The left shift key goes down and up. -/
theorem flags_track_of_balanced_shift :
    ∃ d, Run KeyStep consoleStart [0x2A, 0xAA] d ∧ Tracks d := by
  have hdown : Sends consoleStart.kb 0x2A (consoleStart.kb.press 0x2A) :=
    .make rfl (by decide)
  have hup : Sends (consoleStart.kb.press 0x2A) (0x2A + 0x80)
      ((consoleStart.kb.press 0x2A).release 0x2A) :=
    .release rfl (by decide) (by decide)
  have hrun : Run (Guarded KeyStep fun c b => Balanced c.kb b) consoleStart [0x2A, 0xAA] _ :=
    .cons ⟨hdown.flags_iff.mp (by decide), .scancode hdown⟩
      (.single ⟨hup.flags_iff.mp (by decide), .scancode (c := ⟨_, _⟩) hup⟩)
  exact ⟨_, hrun.of_guarded, (flags_track_of_balanced consoleStart_init hrun).1⟩

/-- The left alt key goes down and up: `eval_kc` has no case for its break code. -/
theorem not_flags_track : ¬ ∀ (c d : Console) (bs : List Nat), c.Init →
    Run KeyStep c bs d → Tracks d := by
  intro hall
  have hdown : Sends consoleStart.kb 0x38 (consoleStart.kb.press 0x38) :=
    .make rfl (by decide)
  have hup : Sends (consoleStart.kb.press 0x38) (0x38 + 0x80)
      ((consoleStart.kb.press 0x38).release 0x38) :=
    .release rfl (by decide) (by decide)
  have hfirst : KeyStep consoleStart 0x38 _ := .scancode hdown
  have hsecond := KeyStep.scancode
    (c := ⟨consoleStart.kb.press 0x38, keyboardHandler 0x38 consoleStart.ld⟩) hup
  have htracks := hall _ _ _ consoleStart_init (.single hfirst)
  have hbalanced := (tracks_step_iff htracks hsecond).mp
    (hall _ _ _ consoleStart_init (.cons hfirst (.single hsecond)))
  exact absurd rfl hbalanced.1

end Longhorn.ModifierKeys
