import Longhorn.KmallocSizes
import Longhorn.LineModel
import Longhorn.ShellParsing
import Longhorn.Tokens

/-!
How `read_stdin` of `kernel/shell.c` takes the arguments out of its key buffer.
-/

namespace Longhorn.ShellArguments

open Longhorn.Foundations.CStrings
open Longhorn.StringModel
open Longhorn.Tokens
open Longhorn.ShellParsing (maxNumArgs commands commandLoop)
open Longhorn.StreamModel (CString)
open Longhorn.LineModel (lineBufferSize)
open Longhorn.SlabModel (poolSlabSize)
open Longhorn.SlabSafety (poolSlot_ne_zero)
open Longhorn.KallocModel (AllocState kmalloc startAddr)
open Longhorn.PageSafety (InImage)
open Longhorn.HeapSafety (boots_zeroed exists_heapInit)
open Longhorn.KmallocSizes (reservedBytes)

def minArgMem : Nat := 16

/-- A block of memory and what its bytes hold when `kmalloc` returns it. -/
structure Block where
  addr : Nat
  bytes : List Int8

def Block.Has (b : Block) (a : Nat) : Prop := b.addr ≤ a ∧ a < b.addr + b.bytes.length

/-- What the calls of `kmalloc` return, by their number and by the size asked for. -/
abbrev Blocks := Nat → Nat → Option Block

/-- The bytes of a block that has been returned may be accessed. -/
def give (m : Memory) (b : Block) : Memory := fun a => (placed b.addr b.bytes a).or (m a)

/-- `args[argc] = kmalloc(arg_length)` and the `strcpy` that follows. -/
def copyArg (blocks : Blocks) (m : Memory) (argc argLength token : Nat) :
    Option (Memory × Nat) := do
  let b ← blocks argc argLength
  let m ← strcpy (give m b) b.addr token
  return (m, b.addr)

/-- The loop over the tokens behind the first, with room for some more arguments. -/
def argsLoop (blocks : Blocks) (delimeters : Nat) :
    Nat → Memory → Nat → List Nat → Option (Memory × List Nat)
  | 0, m, oldstr, args => do
      let (m, _) ← strtok m oldstr 0 delimeters
      return (m, args)
  | room + 1, m, oldstr, args => do
      let (m, oldstr, token) ← strtok m oldstr 0 delimeters
      if token = 0 then return (m, args)
      else
        let argLength ← strlen m token
        let (m, arg) ← copyArg blocks m args.length (max argLength minArgMem) token
        argsLoop blocks delimeters room m oldstr (args ++ [arg])

/-- The arguments of the line in the key buffer. -/
def parseLine (blocks : Blocks) (m : Memory) (keyBuffer delimeters oldstr : Nat) :
    Option (Memory × List Nat) := do
  let n ← strlen m keyBuffer
  let m ← store m (keyBuffer + n - 1) 0
  let (m, oldstr, token) ← strtok m oldstr keyBuffer delimeters
  let argLength ← strlen m token
  let (m, arg) ← copyArg blocks m 0 argLength token
  argsLoop blocks delimeters (maxNumArgs - 1) m oldstr [arg]

/-- The arguments of a line and the command that the first of them names, if it names one. -/
def readLine (blocks : Blocks) (m : Memory) (keyBuffer delimeters oldstr : Nat) :
    Option (Memory × List Nat × Option (List Int8)) := do
  let (m, args) ← parseLine blocks m keyBuffer delimeters oldstr
  let arg ← m.textAt (args.headD 0)
  return (m, args, commandLoop arg commands)

/-- The delimiters of the shell. -/
def blank : List Int8 := [32]

/-- The tokens of a line that begin at `i` or later. -/
def tokensFrom (text : List Int8) (i : Nat) : List (List Int8) :=
  (starts blank text i).map (run blank text)

def tokens (text : List Int8) : List (List Int8) := tokensFrom text 0

/-- The size that is asked for. -/
def argLength (k : Nat) (token : List Int8) : Nat :=
  if k = 0 then token.length else max token.length minArgMem

/-- The block is what a call of `kmalloc` over the pool's slabs sets aside. -/
structure Served (list size : Nat) (b : Block) : Prop where
  addr_ne : b.addr ≠ 0
  call : ∃ st st' : AllocState, st.slab.slabSize = poolSlabSize ∧
    kmalloc list size st = some (b.addr, st') ∧ b.bytes.length = reservedBytes st size

/-- The line is in the key buffer; the blocks are apart from each other and from the memory
in use, and `kmalloc` returns one for each argument. -/
structure Entered (blocks : Blocks) (list : Nat) (text : List Int8) (p q : Nat) (m : Memory) :
    Prop where
  line : StringAt m p (text ++ [10])
  delimeters : StringAt m q blank
  apart : ∀ a, p ≤ a → a ≤ p + text.length → a < q ∨ q + 1 < a
  null : m 0 = none
  served : ∀ k size b, blocks k size = some b → Served list size b
  fresh : ∀ k size b, blocks k size = some b → ∀ a, b.Has a → m a = none
  distinct : ∀ j k size size' b b', blocks j size = some b → blocks k size' = some b' → j ≠ k →
    ∀ a, b.Has a → ¬ b'.Has a
  succeeds : ∀ k token, (tokens text)[k]? = some token → k < maxNumArgs →
    ∃ b, blocks k (argLength k token) = some b

/-- The copy of a token, in the block of its argument. -/
def Copied (blocks : Blocks) (m : Memory) (k arg : Nat) (token : List Int8) : Prop :=
  ∃ size b, blocks k size = some b ∧ b.addr = arg ∧ token.length < b.bytes.length ∧
    StringAt m arg token

/-- The arguments are copies of the tokens of the line, and no token is no command. -/
def Parses (text : List Int8) : Prop :=
  ∀ (blocks : Blocks) (list p q oldstr : Nat) (m : Memory), Entered blocks list text p q m →
    ∃ m' args command, readLine blocks m p q oldstr = some (m', args, command) ∧
      args.length = min maxNumArgs (tokens text).length ∧
      (∀ k token, (tokens text)[k]? = some token → k < maxNumArgs →
        ∃ arg, args[k]? = some arg ∧ Copied blocks m' k arg token) ∧
      (tokens text = [] → command = none)

section Copies

variable {blocks : Blocks} {m m' : Memory} {b : Block} {k n p q token a list size : Nat}
  {s text : List Int8}

theorem give_of_has (h : b.Has a) : (give m b a).isSome := by
  have hlt : a - b.addr < b.bytes.length := by
    have := h.2
    have := h.1
    omega
  simp [give, placed, h.1, List.getElem?_eq_getElem hlt]

theorem give_of_not_has (h : ¬ b.Has a) : give m b a = m a := by
  have hnone : placed b.addr b.bytes a = none := by
    rw [placed]
    split_ifs with hle
    · rw [List.getElem?_eq_none_iff]
      by_contra hlt
      exact h ⟨hle, by omega⟩
    · rfl
  rw [give, hnone, Option.none_or]

theorem isSome_of_stringAt (h : StringAt m p s) (hlo : p ≤ a) (hhi : a ≤ p + s.length) :
    (m a).isSome := by
  have hlen : (s ++ [0]).length = s.length + 1 := by
    rw [List.length_append, List.length_singleton]
  have hread := h.2.read (i := a - p) (by omega)
  have haddr : p + (a - p) = a := by omega
  rw [haddr] at hread
  rw [hread]
  rfl

/-- What a block that is returned next holds may not be accessed yet. -/
theorem copyArg_spec (hb : blocks k n = some b) (hfresh : ∀ a, b.Has a → m a = none)
    (h : StringAt m token s) (hlen : s.length < b.bytes.length) :
    ∃ m', copyArg blocks m k n token = some (m', b.addr) ∧ StringAt m' b.addr s ∧
      ∀ a, ¬ b.Has a → m' a = m a := by
  have hoff : ∀ a, token ≤ a → a ≤ token + s.length → ¬ b.Has a := by
    intro a hlo hhi hhas
    have hsome := isSome_of_stringAt h hlo hhi
    rw [hfresh a hhas] at hsome
    cases hsome
  have hgiven : StringAt (give m b) token s :=
    h.congr fun a hlo hhi => give_of_not_has (hoff a hlo hhi)
  have hapart : b.addr + (s.length + 1) ≤ token ∨ token + (s.length + 1) ≤ b.addr := by
    by_contra hmeet
    refine hoff (max b.addr token) (by omega) (by omega) ⟨by omega, ?_⟩
    omega
  obtain ⟨m', hrun, hcopy, hframe⟩ := strcpy_spec hgiven
    (fun a hlo hhi => give_of_has ⟨hlo, by omega⟩) hapart
  refine ⟨m', ?_, hcopy, ?_⟩
  · rw [copyArg, hb]
    change (strcpy (give m b) b.addr token >>= fun m => some (m, b.addr)) = _
    rw [hrun]
    rfl
  · intro a ha
    have hout : a < b.addr ∨ b.addr + (s.length + 1) ≤ a := by
      by_contra hin
      exact ha ⟨by omega, by omega⟩
    rw [hframe a hout, give_of_not_has ha]

/-- A slab for a short token, a page's worth of slabs or a page for another. -/
theorem Served.length_lt (h : Served list size b) (hsize : size < lineBufferSize) :
    size < b.bytes.length := by
  obtain ⟨st, st', hslab, _, hlen⟩ := h.call
  rw [lineBufferSize] at hsize
  rw [hlen, reservedBytes, hslab]
  split_ifs with hfall
  · exact hsize.trans (by decide)
  · rw [KmallocSizes.numSlabsFor_eq (by decide) (by decide) (by omega), poolSlabSize]
    split_ifs with hzero
    · omega
    · have hup : (size / 64 + 64 - 1) / 64 = 1 := by omega
      rw [hup]
      omega

end Copies

section Rounds

variable {blocks : Blocks} {list p q k i room oldstr str : Nat} {m₀ m : Memory} {b : Block}
  {text done t token : List Int8} {args : List Nat}

theorem Entered.off (h : Entered blocks list text p q m₀) {size : Nat} (hb : blocks k size = some b)
    {a : Nat} (ha : b.Has a) :
    (a < p ∨ p + text.length + 1 < a) ∧ (a < q ∨ q + 1 < a) := by
  have hnone := h.fresh k size b hb a ha
  have hline : (text ++ [10]).length = text.length + 1 := by
    rw [List.length_append, List.length_singleton]
  constructor
  · by_contra hin
    have hsome := isSome_of_stringAt h.line (a := a) (by omega) (by omega)
    rw [hnone] at hsome
    cases hsome
  · by_contra hin
    have hsome := isSome_of_stringAt h.delimeters (a := a) (by omega)
      (by rw [blank, List.length_singleton]; omega)
    rw [hnone] at hsome
    cases hsome

theorem Entered.ne_zero (h : Entered blocks list text p q m₀) : p ≠ 0 := by
  rintro rfl
  have hsome := isSome_of_stringAt h.line (Nat.le_refl 0) (Nat.zero_le _)
  rw [h.null] at hsome
  cases hsome

/-- Between two rounds: the blocks from number `k` on have not been returned yet. -/
structure Reading (blocks : Blocks) (text : List Int8) (p q k : Nat) (m : Memory)
    (done t : List Int8) : Prop where
  scan : Scanning blank text p q m done t
  waiting : ∀ j size b, k ≤ j → blocks j size = some b → ∀ a, b.Has a → m a = none

/-- A memory that keeps the line and the blocks to come. -/
theorem Reading.congr (h : Reading blocks text p q k m done t)
    (hentered : Entered blocks list text p q m₀) {m' : Memory}
    {size : Nat} (hb : blocks k size = some b) (hkept : ∀ a, ¬ b.Has a → m' a = m a) :
    Reading blocks text p q (k + 1) m' done t := by
  have hlen : text.length = done.length + t.length := by
    rw [h.scan.split, List.length_append]
  refine ⟨⟨h.scan.split, h.scan.fresh, ?_, ?_⟩, ?_⟩
  · refine h.scan.text.congr fun a hlo hhi => hkept a fun ha => ?_
    have := (hentered.off hb ha).1
    omega
  · refine h.scan.delimiters.congr fun a hlo hhi => hkept a fun ha => ?_
    have := (hentered.off hb ha).2
    rw [blank, List.length_singleton] at hhi
    omega
  · intro j size' b' hj hb' a ha
    rw [hkept a (hentered.distinct j k size' size b' b hb' hb (by omega) a ha)]
    exact h.waiting j size' b' (by omega) hb' a ha

theorem Reading.strtok (oldstr : Nat) (h : Reading blocks text p q k m done t)
    (hentered : Entered blocks list text p q m₀)
    (hstr : (if str = 0 then oldstr else str) = p + done.length) :
    ∃ m' done' t' token, strtok m oldstr str q = some (m', p + done'.length, token) ∧
      Reading blocks text p q k m' done' t' ∧
        Returned blank text p m m' done.length done'.length token := by
  obtain ⟨m', done', t', token, hcall, hscan, hret⟩ :=
    h.scan.call hentered.ne_zero (fun a hlo hlt => hentered.apart a hlo (by omega)) hstr
  refine ⟨m', done', t', token, hcall, ⟨hscan, ?_⟩, hret⟩
  intro j size b hj hb a ha
  have := (hentered.off hb ha).1
  rw [hret.frame a (by omega)]
  exact h.waiting j size b hj hb a ha

theorem run_length_le (text : List Int8) (i : Nat) : (run blank text i).length ≤ text.length :=
  (List.takeWhile_prefix _).length_le.trans (by rw [List.length_drop]; omega)

theorem length_le_argLength : token.length ≤ argLength k token := by
  rw [argLength]
  split_ifs <;> omega

theorem argLength_lt (k : Nat) (h : token.length < lineBufferSize) :
    argLength k token < lineBufferSize := by
  rw [argLength]
  split_ifs
  · exact h
  · exact max_lt h (by decide)

/-- A token is copied to the next block. -/
theorem Reading.copyArg (h : Reading blocks text p q k m done t)
    (hentered : Entered blocks list text p q m₀) (htext : text.length + 1 < lineBufferSize)
    (hi : StringAt m (p + i) (run blank text i))
    (hb : blocks k (argLength k (run blank text i)) = some b) :
    ∃ m', copyArg blocks m k (argLength k (run blank text i)) (p + i) = some (m', b.addr) ∧
      Reading blocks text p q (k + 1) m' done t ∧ Copied blocks m' k b.addr (run blank text i) ∧
      ∀ a, ¬ b.Has a → m' a = m a := by
  have hle := run_length_le text i
  have hserved := (hentered.served _ _ _ hb).length_lt
    (argLength_lt k (Nat.lt_of_le_of_lt hle (by omega)))
  have hfits := Nat.lt_of_le_of_lt (length_le_argLength (k := k)) hserved
  obtain ⟨m', hcopy, hstring, hkept⟩ :=
    copyArg_spec hb (fun a => h.waiting k _ b (Nat.le_refl k) hb a) hi hfits
  exact ⟨m', hcopy, h.congr hentered hb hkept, ⟨_, b, hb, rfl, hfits, hstring⟩, hkept⟩

theorem argsLoop_none {m' : Memory} {oldstr' : Nat}
    (h : strtok m oldstr 0 q = some (m', oldstr', 0)) :
    argsLoop blocks q room m oldstr args = some (m', args) := by
  cases room with
  | zero =>
      rw [argsLoop, h]
      rfl
  | succ room =>
      rw [argsLoop, h]
      rfl

theorem argsLoop_token {m₁ m₂ : Memory} {oldstr' token n arg : Nat}
    (h : strtok m oldstr 0 q = some (m₁, oldstr', token)) (hne : token ≠ 0)
    (hlen : strlen m₁ token = some n)
    (hcopy : copyArg blocks m₁ args.length (max n minArgMem) token = some (m₂, arg)) :
    argsLoop blocks q (room + 1) m oldstr args =
      argsLoop blocks q room m₂ oldstr' (args ++ [arg]) := by
  rw [argsLoop, h]
  refine (if_neg hne).trans ?_
  change (strlen m₁ token >>= fun n => _) = _
  rw [hlen]
  change (copyArg blocks m₁ args.length (max n minArgMem) token >>= fun r => _) = _
  rw [hcopy]
  rfl

/-- A copy stays when only the line and later blocks change. -/
theorem Copied.congr {m' : Memory} {arg : Nat} (h : Copied blocks m k arg token)
    (hentered : Entered blocks list text p q m₀)
    (hkept : ∀ a, a < p ∨ p + text.length ≤ a →
      (∀ j size b, k + 1 ≤ j → blocks j size = some b → ¬ b.Has a) → m' a = m a) :
    Copied blocks m' k arg token := by
  obtain ⟨size, b, hb, rfl, hlen, hstring⟩ := h
  refine ⟨size, b, hb, rfl, hlen, hstring.congr fun a hlo hhi => ?_⟩
  have hhas : b.Has a := ⟨hlo, by omega⟩
  have hoff := (hentered.off hb hhas).1
  refine hkept a (by omega) fun j size' b' hj hb' => ?_
  exact hentered.distinct k j size size' b b' hb hb' (by omega) a hhas

/-- The rounds that remain copy the tokens that are left, as far as there is room. -/
theorem Reading.argsLoop (room : Nat) (h : Reading blocks text p q args.length m done t)
    (hentered : Entered blocks list text p q m₀) (htext : text.length + 1 < lineBufferSize)
    (hargs : args ≠ []) (hold : oldstr = p + done.length)
    (hsucceeds : ∀ j token, (tokensFrom text done.length)[j]? = some token → j < room →
      ∃ b, blocks (args.length + j) (argLength (args.length + j) token) = some b) :
    ∃ m' args', argsLoop blocks q room m oldstr args = some (m', args ++ args') ∧
      args'.length = min room (tokensFrom text done.length).length ∧
      (∀ j token, (tokensFrom text done.length)[j]? = some token → j < room →
        ∃ arg, args'[j]? = some arg ∧ Copied blocks m' (args.length + j) arg token) ∧
      ∀ a, a < p ∨ p + text.length ≤ a →
        (∀ j size b, args.length ≤ j → blocks j size = some b → ¬ b.Has a) → m' a = m a := by
  induction room generalizing m oldstr done t args with
  | zero =>
      obtain ⟨m₁, done', t', token, hcall, hread, hret⟩ :=
        h.strtok oldstr hentered ((if_pos rfl).trans hold)
      have hadvance := hret.advance
      refine ⟨m₁, [], ?_, (Nat.zero_min _).symm, fun j _ _ hj => absurd hj (Nat.not_lt_zero j),
        fun a ha _ => hret.frame a (by omega)⟩
      rw [ShellArguments.argsLoop, hcall, List.append_nil]
      rfl
  | succ room ih =>
      obtain ⟨m₁, done', t', token, hcall, hread, hret⟩ :=
        h.strtok oldstr hentered ((if_pos rfl).trans hold)
      have hadvance := hret.advance
      have hframe : ∀ a, a < p ∨ p + text.length ≤ a → m₁ a = m a :=
        fun a ha => hret.frame a (by omega)
      rcases hret.result with ⟨rfl, hnone, _⟩ | ⟨i, rfl, hstart, hi, _⟩
      · have htokens : tokensFrom text done.length = [] := by rw [tokensFrom, hnone, List.map_nil]
        rw [htokens]
        refine ⟨m₁, [], ?_, rfl, fun j _ hj => ?_, fun a ha _ => hframe a ha⟩
        · rw [argsLoop_none hcall, List.append_nil]
        · rw [List.getElem?_nil] at hj
          cases hj
      · have htokens : tokensFrom text done.length =
            run blank text i :: tokensFrom text done'.length := by
          rw [tokensFrom, hstart, List.map_cons, tokensFrom]
        rw [htokens] at hsucceeds ⊢
        obtain ⟨b, hb⟩ := hsucceeds 0 _ rfl (Nat.succ_pos room)
        rw [Nat.add_zero] at hb
        obtain ⟨m₂, hcopy, hread₂, hcopied, hkept⟩ := hread.copyArg hentered htext hi hb
        have hsize : argLength args.length (run blank text i) =
            max (run blank text i).length minArgMem :=
          if_neg (List.length_eq_zero_iff.not.mpr hargs)
        rw [hsize] at hcopy
        have hlen : (args ++ [b.addr]).length = args.length + 1 := by
          rw [List.length_append, List.length_singleton]
        have hnext : ∀ j, (args ++ [b.addr]).length + j = args.length + (j + 1) := fun j => by
          omega
        have hread' : Reading blocks text p q (args ++ [b.addr]).length m₂ done' t' := by
          rw [hlen]
          exact hread₂
        obtain ⟨m', args', hloop, hcount, hcopies, hrest⟩ :=
          ih hread' (by simp) rfl fun j token hj hroom => by
            rw [hnext]
            exact hsucceeds (j + 1) token hj (by omega)
        have hne : p + i ≠ 0 :=
          fun hzero => hentered.ne_zero (Nat.eq_zero_of_add_eq_zero_right hzero)
        refine ⟨m', b.addr :: args', ?_, ?_, ?_, ?_⟩
        · rw [argsLoop_token hcall hne (strlen_eq hi) hcopy, hloop, List.append_assoc,
            List.singleton_append]
        · rw [List.length_cons, List.length_cons, hcount]
          omega
        · intro j token hj hroom
          cases j with
          | zero =>
              obtain rfl := Option.some.inj hj
              exact ⟨b.addr, rfl, hcopied.congr hentered (hlen ▸ hrest)⟩
          | succ j =>
              obtain ⟨arg, harg, hcopied'⟩ := hcopies j token hj (by omega)
              rw [hnext] at hcopied'
              exact ⟨arg, harg, hcopied'⟩
        · intro a ha hout
          rw [hrest a ha fun j size b' hj hb' => hout j size b' (by omega) hb',
            hkept a (hout args.length _ b (Nat.le_refl _) hb), hframe a ha]

end Rounds

section Lines

variable {blocks : Blocks} {list p q oldstr : Nat} {m : Memory} {text : List Int8}

/-- The newline is overwritten. -/
theorem Entered.newline (h : Entered blocks list text p q m) :
    store m (p + text.length) 0 = some (Function.update m (p + text.length) (some 0)) ∧
      Reading blocks text p q 0 (Function.update m (p + text.length) (some 0)) [] text := by
  have hnewline := (stringAt_cons.mp h.line.append.2).1
  refine ⟨store_of_some hnewline 0, ⟨rfl, Or.inr (Or.inl rfl), h.line.cut, ?_⟩, ?_⟩
  · refine h.delimeters.congr fun a hlo hhi => Function.update_of_ne ?_ _ _
    rintro rfl
    have := h.apart _ (Nat.le_add_right p text.length) (Nat.le_refl _)
    rw [blank, List.length_singleton] at hhi
    omega
  · intro j size b _ hb a ha
    have := (h.off hb ha).1
    rw [Function.update_of_ne (by omega)]
    exact h.fresh j size b hb a ha

theorem parseLine_eq (h : Entered blocks list text p q m) :
    parseLine blocks m p q oldstr = (do
      let (m, oldstr, token) ← strtok (Function.update m (p + text.length) (some 0)) oldstr p q
      let argLength ← strlen m token
      let (m, arg) ← copyArg blocks m 0 argLength token
      argsLoop blocks q (maxNumArgs - 1) m oldstr [arg]) := by
  have hlen : p + (text ++ [10]).length - 1 = p + text.length := by
    rw [List.length_append, List.length_singleton]
    omega
  rw [parseLine, strlen_eq h.line]
  change (store m (p + (text ++ [10]).length - 1) 0 >>= fun m => _) = _
  rw [hlen, h.newline.1]
  rfl

theorem parseLine_none (h : Entered blocks list text p q m) (hnone : tokens text = []) :
    parseLine blocks m p q oldstr = none := by
  obtain ⟨m₁, done', t', token, hcall, hread, hret⟩ :=
    h.newline.2.strtok oldstr h (if_neg h.ne_zero)
  rcases hret.result with ⟨rfl, _⟩ | ⟨i, _, hstart, _⟩
  · rw [parseLine_eq h, hcall]
    change (strlen m₁ 0 >>= fun n => _) = none
    have hp := h.ne_zero
    have hnull : m₁ 0 = none := by
      rw [hret.frame 0 (Or.inl (Nat.pos_of_ne_zero hp)), Function.update_of_ne (by omega)]
      exact h.null
    rw [strlen, Memory.strlenLoop, Nat.zero_add, hnull]
    rfl
  · rw [List.length_nil] at hstart
    rw [tokens, tokensFrom, hstart] at hnone
    cases hnone

theorem parseLine_tokens (oldstr : Nat) (h : Entered blocks list text p q m)
    (htext : text.length + 1 < lineBufferSize) (hsome : tokens text ≠ []) :
    ∃ m' args, parseLine blocks m p q oldstr = some (m', args) ∧
      args.length = min maxNumArgs (tokens text).length ∧
      ∀ k token, (tokens text)[k]? = some token → k < maxNumArgs →
        ∃ arg, args[k]? = some arg ∧ Copied blocks m' k arg token := by
  obtain ⟨m₁, done', t', token, hcall, hread, hret⟩ :=
    h.newline.2.strtok oldstr h (if_neg h.ne_zero)
  rcases hret.result with ⟨rfl, hnone, _⟩ | ⟨i, rfl, hstart, hi, _⟩
  · rw [List.length_nil] at hnone
    rw [tokens, tokensFrom, hnone] at hsome
    exact absurd rfl hsome
  · have htokens : tokens text = run blank text i :: tokensFrom text done'.length := by
      rw [List.length_nil] at hstart
      rw [tokens, tokensFrom, hstart, List.map_cons, tokensFrom]
    have hsucceeds := h.succeeds
    rw [htokens] at hsucceeds ⊢
    obtain ⟨b, hb⟩ := hsucceeds 0 _ rfl (by decide)
    obtain ⟨m₂, hcopy, hread₂, hcopied, -⟩ := hread.copyArg h htext hi hb
    have hread' : Reading blocks text p q [b.addr].length m₂ done' t' := hread₂
    obtain ⟨m', args', hloop, hcount, hcopies, hrest⟩ := Reading.argsLoop (maxNumArgs - 1)
      hread' h htext (List.cons_ne_nil _ _) rfl fun j token hj hroom => by
        rw [List.length_singleton, Nat.add_comm]
        exact hsucceeds (j + 1) token hj (by omega)
    refine ⟨m', b.addr :: args', ?_, ?_, ?_⟩
    · rw [parseLine_eq h, hcall]
      change (strlen m₁ (p + i) >>= fun n => _) = _
      rw [strlen_eq hi]
      change (copyArg blocks m₁ 0 (run blank text i).length (p + i) >>= fun r => _) = _
      change copyArg blocks m₁ 0 (run blank text i).length (p + i) = _ at hcopy
      rw [hcopy]
      exact hloop
    · rw [List.length_cons, List.length_cons, hcount, maxNumArgs]
      omega
    · intro k token hk hroom
      cases k with
      | zero =>
          obtain rfl := Option.some.inj hk
          exact ⟨b.addr, rfl, hcopied.congr h hrest⟩
      | succ k =>
          obtain ⟨arg, harg, hcopied'⟩ := hcopies k token hk (by omega)
          rw [List.length_singleton, Nat.add_comm] at hcopied'
          exact ⟨arg, harg, hcopied'⟩

/-- Where there is no token, the length of `NULL` is taken. -/
theorem not_parses (text : List Int8) (hzero : 0 ∉ text) (hnone : tokens text = []) :
    ¬ Parses text := by
  intro h
  have hbytes : BytesAt (placed 1 (text ++ [10] ++ [0] ++ (blank ++ [0]))) 1
      (text ++ [10] ++ [0] ++ (blank ++ [0])) := bytesAt_placed
  have hparts := bytesAt_append.mp hbytes
  have hlen : 1 + (text ++ [10] ++ [0]).length = text.length + 3 := by
    simp only [List.length_append, List.length_singleton]
    omega
  rw [hlen] at hparts
  have hentered : Entered (fun _ _ => none) 0 text 1 (text.length + 3)
      (placed 1 (text ++ [10] ++ [0] ++ (blank ++ [0]))) := by
    refine ⟨⟨by simp [hzero], hparts.1⟩, ⟨by decide, hparts.2⟩, fun a _ h => ?_, rfl,
      fun k size b h => ?_, fun k size b h => ?_, fun j k size size' b b' h => ?_,
      fun k token h => ?_⟩
    · omega
    · cases h
    · cases h
    · cases h
    · rw [hnone] at h
      cases h
  obtain ⟨m', args, command, hrun, -⟩ := h _ _ _ _ 0 _ hentered
  rw [readLine, parseLine_none hentered hnone] at hrun
  cases hrun

/-- A line is parsed as it should be when it has a token. -/
theorem line_parses_iff (line : CString) (hline : line.text.length + 1 < lineBufferSize) :
    Parses line.text ↔ tokens line.text ≠ [] := by
  constructor
  · intro h hnone
    exact not_parses line.text line.nonzero hnone h
  · intro hsome blocks list p q oldstr m hentered
    obtain ⟨m', args, hparse, hcount, hcopies⟩ :=
      parseLine_tokens oldstr hentered hline hsome
    obtain ⟨token, rest, htokens⟩ := List.exists_cons_of_ne_nil hsome
    obtain ⟨arg, harg, hcopied⟩ := hcopies 0 token (by rw [htokens]; rfl) (by decide)
    have hhead : args.headD 0 = arg := by
      rw [List.headD_eq_head?_getD, List.head?_eq_getElem?, harg]
      rfl
    obtain ⟨size, b, _, _, _, hstring⟩ := hcopied
    refine ⟨m', args, commandLoop token commands, ?_, hcount, hcopies, fun h => absurd h hsome⟩
    rw [readLine, hparse]
    change (m'.textAt (args.headD 0) >>= fun arg => _) = _
    rw [hhead, textAt_eq hstring]
    rfl

/-- The line `a`; a block for its argument is the first one that `kmalloc` returns. -/
theorem line_parses_letter : Parses [97] ∧ ∃ b, Served 1048576 1 b := by
  refine ⟨(line_parses_iff ⟨[97], by decide⟩ (by decide)).mpr (by decide), ?_⟩
  have hboot := boots_zeroed (show startAddr ≤ 4140 * 1024 by decide) (by decide) (by decide)
  have hlist : InImage 1048576 := by decide
  obtain ⟨t, hinit⟩ := exists_heapInit hboot hlist
  have hslab := (hinit.inv hboot hlist).poolRecords.slabSize_eq
  obtain ⟨st', _, heq, _⟩ := hinit.kmalloc hboot hlist 1 (by decide) (by decide)
  exact ⟨⟨_, List.replicate (reservedBytes t.st 1) 0⟩, poolSlot_ne_zero t.st.slab.mem 0, t.st, st',
    hslab, heq, List.length_replicate⟩

/-- The empty line. -/
theorem not_line_parses :
    ¬ ∀ line : CString, line.text.length + 1 < lineBufferSize → Parses line.text := by
  intro h
  exact not_parses [] List.not_mem_nil rfl (h ⟨[], List.not_mem_nil⟩ (by decide))

end Lines

end Longhorn.ShellArguments
