import Mathlib.Logic.Function.Basic
import Mathlib.Data.Nat.Bitwise

/-!
Byte-addressed memory with little-endian 32-bit words: the read-over-write laws
and the frame laws that the users of a memory region need.
-/

namespace Longhorn.Foundations.ByteMemory

abbrev Memory := Nat → BitVec 8

abbrev Word := BitVec 32

/-- An address or size after 32-bit arithmetic. -/
def wrap (n : Nat) : Nat := n % 2 ^ 32

/-- A difference in 32-bit arithmetic. -/
def wrapSub (a b : Nat) : Nat := wrap (a + (2 ^ 32 - wrap b))

theorem wrap_of_lt {n : Nat} (h : n < 2 ^ 32) : wrap n = n :=
  Nat.mod_eq_of_lt h

theorem wrapSub_of_le {a b : Nat} (ha : a < 2 ^ 32) (hb : b ≤ a) : wrapSub a b = a - b := by
  unfold wrapSub wrap
  omega

def writeByte (m : Memory) (a : Nat) (b : BitVec 8) : Memory :=
  Function.update m a b

def readWord (m : Memory) (a : Nat) : Word :=
  m (a + 3) ++ m (a + 2) ++ m (a + 1) ++ m a

def writeWord (m : Memory) (a : Nat) (w : Word) : Memory :=
  writeByte (writeByte (writeByte (writeByte m a (w.extractLsb' 0 8))
    (a + 1) (w.extractLsb' 8 8)) (a + 2) (w.extractLsb' 16 8)) (a + 3) (w.extractLsb' 24 8)

@[simp] theorem writeByte_same (m : Memory) (a : Nat) (b : BitVec 8) : writeByte m a b a = b := by
  simp [writeByte]

theorem writeByte_of_ne {a c : Nat} (h : c ≠ a) (m : Memory) (b : BitVec 8) :
    writeByte m a b c = m c := by
  simp [writeByte, h]

theorem writeWord_of_outside {a c : Nat} (h : c < a ∨ a + 4 ≤ c) (m : Memory) (w : Word) :
    writeWord m a w c = m c := by
  unfold writeWord
  rw [writeByte_of_ne (by omega), writeByte_of_ne (by omega), writeByte_of_ne (by omega),
    writeByte_of_ne (by omega)]

theorem append_extractLsb' (w : Word) :
    w.extractLsb' 24 8 ++ w.extractLsb' 16 8 ++ w.extractLsb' 8 8 ++ w.extractLsb' 0 8 = w := by
  apply BitVec.eq_of_getLsbD_eq
  intro i hi
  simp only [BitVec.getLsbD_append, BitVec.getLsbD_extractLsb']
  grind

@[simp] theorem readWord_writeWord_same (m : Memory) (a : Nat) (w : Word) :
    readWord (writeWord m a w) a = w := by
  have h0 : writeWord m a w a = w.extractLsb' 0 8 := by
    unfold writeWord
    rw [writeByte_of_ne (by omega), writeByte_of_ne (by omega), writeByte_of_ne (by omega),
      writeByte_same]
  have h1 : writeWord m a w (a + 1) = w.extractLsb' 8 8 := by
    unfold writeWord
    rw [writeByte_of_ne (by omega), writeByte_of_ne (by omega), writeByte_same]
  have h2 : writeWord m a w (a + 2) = w.extractLsb' 16 8 := by
    unfold writeWord
    rw [writeByte_of_ne (by omega), writeByte_same]
  have h3 : writeWord m a w (a + 3) = w.extractLsb' 24 8 := by
    unfold writeWord
    rw [writeByte_same]
  rw [readWord, h0, h1, h2, h3]
  exact append_extractLsb' w

/-- A word depends only on its four bytes. -/
theorem readWord_congr {m m' : Memory} {a : Nat} (h : ∀ c, a ≤ c → c < a + 4 → m c = m' c) :
    readWord m a = readWord m' a := by
  rw [readWord, readWord, h a (by omega) (by omega), h (a + 1) (by omega) (by omega),
    h (a + 2) (by omega) (by omega), h (a + 3) (by omega) (by omega)]

theorem readWord_writeWord_of_disjoint {a c : Nat} (h : c + 4 ≤ a ∨ a + 4 ≤ c) (m : Memory)
    (w : Word) : readWord (writeWord m a w) c = readWord m c :=
  readWord_congr fun _ _ _ => writeWord_of_outside (by omega) m w

theorem readWord_writeByte_of_outside {a c : Nat} (h : a < c ∨ c + 4 ≤ a) (m : Memory)
    (b : BitVec 8) : readWord (writeByte m a b) c = readWord m c :=
  readWord_congr fun _ _ _ => writeByte_of_ne (by omega) m b

/-- The address stored in a word. -/
def readPtr (m : Memory) (a : Nat) : Nat := (readWord m a).toNat

def writePtr (m : Memory) (a p : Nat) : Memory := writeWord m a (BitVec.ofNat 32 p)

theorem readPtr_congr {m m' : Memory} {a : Nat} (h : ∀ c, a ≤ c → c < a + 4 → m c = m' c) :
    readPtr m a = readPtr m' a :=
  congrArg BitVec.toNat (readWord_congr h)

theorem readPtr_writePtr_same (m : Memory) (a : Nat) {p : Nat} (hp : p < 2 ^ 32) :
    readPtr (writePtr m a p) a = p := by
  rw [readPtr, writePtr, readWord_writeWord_same, BitVec.toNat_ofNat, Nat.mod_eq_of_lt hp]

theorem writePtr_of_outside {a c : Nat} (h : c < a ∨ a + 4 ≤ c) (m : Memory) (p : Nat) :
    writePtr m a p c = m c :=
  writeWord_of_outside h m _

theorem readPtr_writePtr_of_disjoint {a c : Nat} (h : c + 4 ≤ a ∨ a + 4 ≤ c) (m : Memory)
    (p : Nat) : readPtr (writePtr m a p) c = readPtr m c :=
  congrArg BitVec.toNat (readWord_writeWord_of_disjoint h m _)

/-- The two memories hold the same bytes at every address of the set. -/
def AgreeOn (s : Nat → Prop) (m m' : Memory) : Prop :=
  ∀ a, s a → m' a = m a

theorem AgreeOn.refl (s : Nat → Prop) (m : Memory) : AgreeOn s m m :=
  fun _ _ => rfl

theorem AgreeOn.trans {s : Nat → Prop} {m m' m'' : Memory} (h : AgreeOn s m m')
    (h' : AgreeOn s m' m'') : AgreeOn s m m'' :=
  fun a ha => (h' a ha).trans (h a ha)

theorem AgreeOn.mono {s t : Nat → Prop} {m m' : Memory} (h : AgreeOn s m m')
    (hst : ∀ a, t a → s a) : AgreeOn t m m' :=
  fun a ha => h a (hst a ha)

theorem AgreeOn.readPtr {s : Nat → Prop} {m m' : Memory} (h : AgreeOn s m m') {a : Nat}
    (ha : ∀ c, a ≤ c → c < a + 4 → s c) : readPtr m' a = readPtr m a :=
  readPtr_congr fun c h1 h2 => h c (ha c h1 h2)

end Longhorn.Foundations.ByteMemory
