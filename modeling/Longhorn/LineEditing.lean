import Mathlib.Data.List.GetD
import Longhorn.LineSafety

/-!
Line editing in cooked mode: the buffer holds what the keys have edited.
-/

namespace Longhorn.LineEditing

open Longhorn.StreamModel
open Longhorn.LineModel
open Longhorn.LineSafety

/-- What a key does to the text of a line. -/
inductive KeyAction where
  | keep
  | toggle
  | erase
  | print
  deriving DecidableEq

def keyAction (c : Int8) : KeyAction :=
  if keycode c ∈ [kcLshift, kcRshift, kcLshiftRel, kcRshiftRel, kcCapslock] then .toggle
  else if keycode c ∈ [kcLalt, kcLctrl, kcLctrlRel, kcEscape, kcNumlock, kcReleased] then .keep
  else if keycode c = 0 ∨ kcMax < keycode c then .keep
  else if c = kcBackspace then .erase
  else .print

/-- The character of a key in the table for small or capital letters. -/
def keyChar (capitalize : Bool) (c : Int8) : Int8 :=
  if capitalize then kcAsciiCap.getD (keycode c) 0 else kcAscii.getD (keycode c) 0

/-- A line that is being edited. -/
structure Edit where
  capitalize : Bool
  text : List Int8

def Edit.key (e : Edit) (c : Int8) : Edit :=
  match keyAction c with
  | .keep => e
  | .toggle => { e with capitalize := !e.capitalize }
  | .erase => { e with text := e.text.dropLast }
  | .print => { e with text := e.text ++ [keyChar e.capitalize c] }

def Edit.keys (e : Edit) (cs : List Int8) : Edit := cs.foldl Edit.key e

/-- `line_in` on each key in order. -/
def typeKeys (ld : LineDisc) (cs : List Int8) : LineDisc :=
  cs.foldl (fun ld c => (lineIn ld c).1) ld

/-- The memory holds the text as a NUL-terminated string. -/
def HoldsString (mem : Nat → Int8) (text : List Int8) : Prop :=
  (List.range text.length).map mem = text ∧ 0 ∉ text ∧ mem text.length = 0

/-- The line discipline shows the edited line: behind the cell at `buffer_i`, which may
hold an erased character, the cells below `zeros` are zero. -/
structure Shows (zeros : Nat) (ld : LineDisc) (e : Edit) : Prop where
  mode : ld.mode = .cooked
  capitalize : ld.ts.capitalize = e.capitalize
  bufferI : ld.bufferI = e.text.length
  text : (List.range e.text.length).map ld.lineBuffer = e.text
  nonzero : 0 ∉ e.text
  beyond : ∀ i, e.text.length < i → i < zeros → ld.lineBuffer i = 0

section Keys

variable {n : Nat} {ld : LineDisc} {e : Edit} {c : Int8}

theorem ofNat_ne_zero {k : Nat} (hk : k ≤ kcMax) (h : k ≠ 0) : Int8.ofNat k ≠ 0 := by
  have hall : ∀ k, k ≤ kcMax → k ≠ 0 → Int8.ofNat k ≠ 0 := by decide
  exact hall k hk h

theorem evalKc_of_toggle (ts : TerminalState) {k : Nat}
    (h : k ∈ [kcLshift, kcRshift, kcLshiftRel, kcRshiftRel, kcCapslock]) :
    evalKc ts k = ({ ts with capitalize := !ts.capitalize }, 0) := by
  simp only [List.mem_cons, List.not_mem_nil, or_false] at h
  rcases h with rfl | rfl | rfl | rfl | rfl <;> rfl

theorem evalKc_of_keep (ts : TerminalState) {k : Nat}
    (h : k ∈ [kcLalt, kcLctrl, kcLctrlRel, kcEscape, kcNumlock, kcReleased]) :
    (evalKc ts k).1.capitalize = ts.capitalize ∧ (evalKc ts k).2 = 0 := by
  simp only [List.mem_cons, List.not_mem_nil, or_false] at h
  rcases h with rfl | rfl | rfl | rfl | rfl | rfl <;> exact ⟨rfl, rfl⟩

theorem evalKc_of_other (ts : TerminalState) {k : Nat}
    (htoggle : k ∉ [kcLshift, kcRshift, kcLshiftRel, kcRshiftRel, kcCapslock])
    (hkeep : k ∉ [kcLalt, kcLctrl, kcLctrlRel, kcEscape, kcNumlock, kcReleased]) :
    evalKc ts k = if k ≤ kcMax then (ts, Int8.ofNat k) else (ts, 0) := by
  simp only [List.mem_cons, List.not_mem_nil, or_false, not_or] at htoggle hkeep
  rw [evalKc, if_neg hkeep.1, if_neg, if_neg htoggle.2.2.2.2, if_neg, if_neg]
  all_goals
    simp only [List.mem_cons, List.not_mem_nil, or_false, not_or]
    tauto

theorem evalKc_keep (ts : TerminalState) (h : keyAction c = .keep) :
    (evalKc ts (keycode c)).1.capitalize = ts.capitalize ∧ (evalKc ts (keycode c)).2 = 0 := by
  rw [keyAction] at h
  split_ifs at h with htoggle hkeep hrange
  · exact evalKc_of_keep ts hkeep
  · rw [evalKc_of_other ts htoggle hkeep]
    rcases hrange with hzero | hlt
    · rw [hzero]
      exact ⟨rfl, rfl⟩
    · rw [if_neg (Nat.not_le.mpr hlt)]
      exact ⟨rfl, rfl⟩

theorem evalKc_toggle (ts : TerminalState) (h : keyAction c = .toggle) :
    (evalKc ts (keycode c)).1.capitalize = !ts.capitalize ∧ (evalKc ts (keycode c)).2 = 0 := by
  rw [keyAction] at h
  split_ifs at h with htoggle
  rw [evalKc_of_toggle ts htoggle]
  exact ⟨rfl, rfl⟩

theorem evalKc_other (ts : TerminalState) (h : keyAction c = .erase ∨ keyAction c = .print) :
    (evalKc ts (keycode c)).1 = ts ∧ (evalKc ts (keycode c)).2 ≠ 0 ∧ keycode c ≤ kcMax := by
  rw [keyAction] at h
  split_ifs at h with htoggle hkeep hrange
  · exact absurd h (by decide)
  · exact absurd h (by decide)
  · exact absurd h (by decide)
  all_goals
    rw [not_or, Nat.not_lt] at hrange
    rw [evalKc_of_other ts htoggle hkeep, if_pos hrange.2]
    exact ⟨rfl, ofNat_ne_zero hrange.2 hrange.1, hrange.2⟩

theorem keyChar_ne_zero (hc : keycode c ≤ kcMax) (b : Bool) : keyChar b c ≠ 0 := by
  have hall : ∀ k, k ≤ kcMax → kcAscii.getD k 0 ≠ 0 ∧ kcAsciiCap.getD k 0 ≠ 0 := by decide
  rw [keyChar]
  split
  · exact (hall _ hc).2
  · exact (hall _ hc).1

theorem kcChar_eq_keyChar (hc : keycode c ≤ kcMax) (b : Bool) (behind : Nat → Int8) :
    kcChar b behind (keycode c) = keyChar b c := by
  have hlen : keycode c < kcAscii.length ∧ keycode c < kcAsciiCap.length :=
    ⟨Nat.lt_succ_of_le hc, Nat.lt_succ_of_le hc⟩
  rw [kcChar, keyChar]
  split
  · rw [List.getD_eq_getElem _ _ hlen.2, List.getD_eq_getElem _ _ hlen.2]
  · rw [List.getD_eq_getElem _ _ hlen.1, List.getD_eq_getElem _ _ hlen.1]

theorem map_range_update {n i : Nat} {mem : Nat → Int8} (hi : n ≤ i) (c : Int8) :
    (List.range n).map (Function.update mem i c) = (List.range n).map mem := by
  apply List.map_congr_left
  intro k hk
  have hlt := List.mem_range.mp hk
  exact Function.update_of_ne (show k ≠ i by omega) c mem

theorem lineBuffer_sendv : (lineSendv ld).1.lineBuffer = ld.lineBuffer := by
  rw [lineSendv]
  split_ifs <;> rfl

theorem ts_sendv : (lineSendv ld).1.ts = ld.ts := by
  rw [lineSendv]
  split_ifs <;> rfl

theorem bufferI_sendv : (lineSendv ld).1.bufferI = ld.bufferI := by
  rw [lineSendv]
  split_ifs <;> rfl

theorem out_sendv {d : Int8} (hd : ld.lineBuffer ld.bufferI = d) (hne : d ≠ 0) :
    (lineSendv ld).1.out = (putStd ld.out d).1 := by
  rw [lineSendv, hd, if_pos hne]
  rfl

theorem lineEcho_fields (ld : LineDisc) : (lineEcho ld).lineBuffer = ld.lineBuffer ∧
    (lineEcho ld).bufferI = add32 ld.bufferI 1 ∧ (lineEcho ld).ts = ld.ts ∧
    (lineEcho ld).out = ld.out :=
  ⟨rfl, rfl, rfl, rfl⟩

/-- What typing a key does to the parts of the line that editing is about. -/
theorem lineType_spec (hroom : ld.bufferI < lineBufferSize - 1) (hc : keycode c ≤ kcMax) :
    (lineType ld c).lineBuffer =
        Function.update ld.lineBuffer ld.bufferI (keyChar ld.ts.capitalize c) ∧
      (lineType ld c).bufferI = ld.bufferI + 1 ∧ (lineType ld c).ts = ld.ts ∧
      (lineType ld c).out = (putStd ld.out (keyChar ld.ts.capitalize c)).1 := by
  have hne := keyChar_ne_zero hc ld.ts.capitalize
  rw [← kcChar_eq_keyChar hc ld.ts.capitalize ld.behind] at hne ⊢
  obtain ⟨stored, hstored, hbuf, hi, hts, hout⟩ : ∃ stored,
      lineType ld c = lineEcho (lineSendv stored).1 ∧
      stored.lineBuffer = Function.update ld.lineBuffer ld.bufferI
        (kcChar ld.ts.capitalize ld.behind (keycode c)) ∧
      stored.bufferI = ld.bufferI ∧ stored.ts = ld.ts ∧ stored.out = ld.out :=
    ⟨_, rfl, rfl, rfl, rfl, rfl⟩
  obtain ⟨hbuf', hi', hts', hout'⟩ := lineEcho_fields (lineSendv stored).1
  have hput := out_sendv (by rw [hbuf, hi, Function.update_self]) hne
  rw [hstored]
  refine ⟨?_, ?_, ?_, ?_⟩
  · rw [hbuf', lineBuffer_sendv, hbuf]
  · rw [hi', bufferI_sendv, hi, add32_one (Nat.lt_of_lt_of_le hroom (Nat.sub_le _ _))]
  · rw [hts', ts_sendv, hts]
  · rw [hout', hput, hout]

theorem Shows.print (h : Shows n ld e) (hroom : e.text.length < lineBufferSize - 1)
    (hc : keycode c ≤ kcMax) :
    Shows n (lineType ld c) { e with text := e.text ++ [keyChar e.capitalize c] } := by
  have hlen : (e.text ++ [keyChar e.capitalize c]).length = e.text.length + 1 := by simp
  obtain ⟨hbuf, hi, hts, _⟩ := lineType_spec (c := c) (h.bufferI ▸ hroom) hc
  rw [h.bufferI, h.capitalize] at hbuf
  constructor
  · exact mode_type.trans h.mode
  · rw [hts, h.capitalize]
  · rw [hi, hlen, h.bufferI]
  · rw [hlen, hbuf, List.range_succ, List.map_append, map_range_update le_rfl, h.text,
      List.map_singleton, Function.update_self]
  · rw [List.mem_append, List.mem_singleton]
    rintro (hin | hzero)
    · exact h.nonzero hin
    · exact keyChar_ne_zero hc _ hzero.symm
  · intro i hlt hsize
    rw [hlen] at hlt
    rw [hbuf, Function.update_of_ne (by omega)]
    exact h.beyond i (by omega) hsize

theorem Shows.erase (h : Shows n ld e) (hroom : e.text.length < lineBufferSize - 1) :
    Shows n (lineErase ld) { e with text := e.text.dropLast } := by
  have hi := h.bufferI
  rcases List.eq_nil_or_concat e.text with hnil | ⟨text, d, htext⟩
  · rw [hnil] at hi ⊢
    rw [lineErase, if_neg (by rw [hi]; exact lt_irrefl 0)]
    refine ⟨h.mode, h.capitalize, hi, rfl, List.not_mem_nil, ?_⟩
    intro i hlt hsize
    exact h.beyond i (by rw [hnil]; exact hlt) hsize
  · have hlen : e.text.length = text.length + 1 := by simp [htext]
    have hdrop : e.text.dropLast = text := by simp [htext]
    have hold := h.text
    rw [hlen, List.range_succ, List.map_append, htext, List.concat_eq_append] at hold
    obtain ⟨hkept, _⟩ := List.append_inj hold (by simp)
    have hprev : sub32 ld.bufferI 1 = text.length := by
      rw [sub32_one (by omega) (by omega)]
      omega
    rw [lineErase, if_pos (by omega), hdrop, hprev, hi, hlen]
    constructor
    · exact h.mode
    · exact h.capitalize
    · rfl
    · exact (map_range_update (Nat.le_succ _) 0).trans hkept
    · intro hin
      apply h.nonzero
      rw [htext, List.concat_eq_append]
      exact List.mem_append_left _ hin
    · intro i hlt hsize
      rcases eq_or_ne i (text.length + 1) with rfl | hne
      · exact Function.update_self _ _ _
      · refine (Function.update_of_ne hne _ _).trans (h.beyond i ?_ hsize)
        change text.length < i at hlt
        omega

theorem Shows.evalKey (h : Shows n ld e)
    (hcap : (evalKc ld.ts (keycode c)).1.capitalize = e.capitalize) : Shows n (ld.evalKey c) e :=
  ⟨h.mode, hcap, h.bufferI, h.text, h.nonzero, h.beyond⟩

theorem lineIn_print (h : Shows n ld e) (hroom : e.text.length < lineBufferSize - 1)
    (haction : keyAction c = .print) :
    (lineIn ld c).1 = lineType (ld.evalKey c) c ∧ Shows n (ld.evalKey c) e ∧ keycode c ≤ kcMax := by
  obtain ⟨hts, hne, hc⟩ := evalKc_other ld.ts (Or.inr haction)
  have hi : ld.bufferI ≠ lineBufferSize - 1 := h.bufferI ▸ hroom.ne
  have hback : c ≠ kcBackspace := by
    rw [keyAction] at haction
    split_ifs at haction
    assumption
  refine ⟨?_, h.evalKey (by rw [hts]; exact h.capitalize), hc⟩
  rw [lineIn_cooked hi h.mode, if_neg hne, if_neg hback]

theorem lineIn_erase (h : Shows n ld e) (hroom : e.text.length < lineBufferSize - 1)
    (haction : keyAction c = .erase) :
    (lineIn ld c).1 = lineErase (ld.evalKey c) ∧ Shows n (ld.evalKey c) e := by
  obtain ⟨hts, hne, _⟩ := evalKc_other ld.ts (Or.inl haction)
  have hi : ld.bufferI ≠ lineBufferSize - 1 := h.bufferI ▸ hroom.ne
  have hback : c = kcBackspace := by
    rw [keyAction] at haction
    split_ifs at haction
    assumption
  refine ⟨?_, h.evalKey (by rw [hts]; exact h.capitalize)⟩
  rw [lineIn_cooked hi h.mode, if_neg hne, if_pos hback]

theorem Shows.key (h : Shows n ld e) (hroom : e.text.length < lineBufferSize - 1) :
    Shows n (lineIn ld c).1 (e.key c) := by
  have hi : ld.bufferI ≠ lineBufferSize - 1 := h.bufferI ▸ hroom.ne
  rw [Edit.key]
  cases haction : keyAction c with
  | keep =>
      obtain ⟨hcap, hzero⟩ := evalKc_keep ld.ts haction
      rw [lineIn_cooked hi h.mode, if_pos hzero]
      exact h.evalKey (hcap.trans h.capitalize)
  | toggle =>
      obtain ⟨hcap, hzero⟩ := evalKc_toggle ld.ts haction
      rw [lineIn_cooked hi h.mode, if_pos hzero]
      refine ⟨h.mode, ?_, h.bufferI, h.text, h.nonzero, h.beyond⟩
      rw [← h.capitalize]
      exact hcap
  | erase =>
      obtain ⟨heq, hkey⟩ := lineIn_erase h hroom haction
      rw [heq]
      exact hkey.erase hroom
  | print =>
      obtain ⟨heq, hkey, hc⟩ := lineIn_print h hroom haction
      rw [heq]
      exact hkey.print hroom hc

/-- Behind a character just typed there is a NUL. -/
theorem Shows.terminated (h : Shows n ld e) (hroom : e.text.length < lineBufferSize - 1)
    (hzeros : e.text.length + 1 < n) (haction : keyAction c = .print) :
    (lineIn ld c).1.lineBuffer (e.text.length + 1) = 0 := by
  obtain ⟨heq, hkey, hc⟩ := lineIn_print h hroom haction
  obtain ⟨hbuf, _⟩ := lineType_spec (hkey.bufferI ▸ hroom) hc
  rw [heq, hbuf, hkey.bufferI, Function.update_of_ne (Nat.succ_ne_self _)]
  exact hkey.beyond _ (Nat.lt_succ_self _) hzeros

theorem keyAction_enter (h : keycode c = kcEnter) : keyAction c = .print := by
  have hback : c ≠ kcBackspace := by
    rintro rfl
    exact absurd h (by decide)
  rw [keyAction, h, if_neg (by decide), if_neg (by decide), if_neg (by decide), if_neg hback]

theorem keyChar_enter (h : keycode c = kcEnter) (b : Bool) : keyChar b c = 10 := by
  rw [keyChar, h]
  cases b <;> rfl

theorem typeKeys_append (cs : List Int8) (c : Int8) :
    typeKeys ld (cs ++ [c]) = (lineIn (typeKeys ld cs) c).1 := by
  rw [typeKeys, List.foldl_append, List.foldl_cons, List.foldl_nil, ← typeKeys]

theorem keys_append (cs : List Int8) (c : Int8) : e.keys (cs ++ [c]) = (e.keys cs).key c := by
  rw [Edit.keys, List.foldl_append, List.foldl_cons, List.foldl_nil, ← Edit.keys]

theorem length_key_le : (e.key c).text.length ≤ e.text.length + 1 := by
  rw [Edit.key]
  cases keyAction c <;> simp
  omega

theorem length_keys_le (cs : List Int8) :
    (e.keys cs).text.length ≤ e.text.length + cs.length := by
  induction cs using List.reverseRecOn with
  | nil => exact le_rfl
  | append_singleton cs c ih =>
      rw [keys_append, List.length_append, List.length_singleton]
      exact length_key_le.trans (Nat.add_le_add_right ih 1)

/-- The buffer follows the edited line while it does not fill up. -/
theorem Shows.keys (h : Shows n ld e) (cs : List Int8)
    (hroom : ∀ p, p <+: cs → p ≠ cs → (e.keys p).text.length < lineBufferSize - 1) :
    Shows n (typeKeys ld cs) (e.keys cs) := by
  induction cs using List.reverseRecOn with
  | nil => exact h
  | append_singleton cs c ih =>
      have hcs : Shows n (typeKeys ld cs) (e.keys cs) := by
        apply ih
        intro p hp hne
        refine hroom p (hp.trans (List.prefix_append _ _)) ?_
        rintro rfl
        have := hp.length_le
        rw [List.length_append, List.length_singleton] at this
        omega
      rw [typeKeys_append, keys_append]
      apply hcs.key
      apply hroom cs (List.prefix_append _ _)
      intro heq
      have := congrArg List.length heq
      rw [List.length_append, List.length_singleton] at this
      omega

theorem lineBuffer_clearBuffer {k i : Nat} :
    (clearBuffer ld k).lineBuffer i = if i < k then 0 else ld.lineBuffer i := by
  induction k with
  | zero => rfl
  | succ k ih =>
      change Function.update (clearBuffer ld k).lineBuffer k 0 i = _
      rcases eq_or_ne i k with rfl | hne
      · rw [Function.update_self, if_pos (Nat.lt_succ_self i)]
      · rw [Function.update_of_ne hne, ih]
        exact if_congr (by omega) rfl rfl

theorem clearBuffer_same {k : Nat} :
    (clearBuffer ld k).mode = ld.mode ∧ (clearBuffer ld k).ts = ld.ts := by
  induction k with
  | zero => exact ⟨rfl, rfl⟩
  | succ k ih => exact ih

theorem Shows.flush (hmode : ld.mode = .cooked) :
    Shows lineBufferSize (lineFlush ld).1 ⟨ld.ts.capitalize, []⟩ := by
  have hsame := @clearBuffer_same ld lineBufferSize
  have hbuf : ∀ i, (clearBuffer ld lineBufferSize).lineBuffer i =
      if i < lineBufferSize then 0 else ld.lineBuffer i := fun i => lineBuffer_clearBuffer
  rw [lineFlush]
  generalize clearBuffer ld lineBufferSize = cleared at hsame hbuf
  constructor
  · exact hsame.1.trans hmode
  · exact congrArg TerminalState.capitalize hsame.2
  · rfl
  · rfl
  · exact List.not_mem_nil
  · intro i _ hsize
    refine (hbuf i).trans ?_
    rw [if_pos hsize]

/-- A line whose last key is Enter reads as the edited text and a newline. -/
theorem cooked_line_edited {cs : List Int8} {enter : Int8} (hmode : ld.mode = .cooked)
    (henter : keycode enter = kcEnter)
    (hroom : ∀ p, p <+: cs → (Edit.keys ⟨ld.ts.capitalize, []⟩ p).text.length <
      lineBufferSize - 1) :
    HoldsString (typeKeys (lineFlush ld).1 (cs ++ [enter])).lineBuffer
      ((Edit.keys ⟨ld.ts.capitalize, []⟩ cs).text ++ [10]) := by
  obtain ⟨e, he⟩ : ∃ e, e = Edit.keys ⟨ld.ts.capitalize, []⟩ cs := ⟨_, rfl⟩
  have hlast : e.text.length < lineBufferSize - 1 := he ▸ hroom cs (List.prefix_refl cs)
  have hbefore : Shows lineBufferSize (typeKeys (lineFlush ld).1 cs) e :=
    he ▸ (Shows.flush hmode).keys cs fun p hp _ => hroom p hp
  have hafter : Shows lineBufferSize (typeKeys (lineFlush ld).1 (cs ++ [enter]))
      { e with text := e.text ++ [10] } := by
    rw [typeKeys_append, ← keyChar_enter henter e.capitalize]
    have hkey : Shows lineBufferSize _ (e.key enter) := hbefore.key hlast
    rwa [Edit.key, keyAction_enter henter] at hkey
  rw [← he]
  refine ⟨hafter.text, hafter.nonzero, ?_⟩
  rw [typeKeys_append, List.length_append, List.length_singleton]
  exact hbefore.terminated hlast (by omega) (keyAction_enter henter)

/-- `a`, `b`, backspace, `c` and Enter read as `ac` and a newline. -/
theorem cooked_line_edited_erase :
    HoldsString (typeKeys (lineFlush (lineStart .cooked)).1
      ([0x1E, 0x30, 0x0E, 0x2E] ++ [0x1C])).lineBuffer ([97, 99] ++ [10]) :=
  cooked_line_edited rfl rfl fun p hp => by
    refine (length_keys_le p).trans_lt (lt_of_le_of_lt (Nat.add_le_add_left hp.length_le _) ?_)
    decide

end Keys

end Longhorn.LineEditing
