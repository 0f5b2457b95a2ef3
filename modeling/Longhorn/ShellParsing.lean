import Mathlib.Data.List.TakeWhile
import Mathlib.Data.List.Basic

/-!
How `read_stdin` of `kernel/shell.c` splits a line into arguments and finds a command.
-/

namespace Longhorn.ShellParsing

def maxNumArgs : Nat := 26

/-- The code of a space. -/
def space : Int8 := 32

/-- The `commands` of the shell, as ASCII codes. -/
def commands : List (List Int8) :=
  [[104, 101, 108, 112],
    [115, 104, 117, 116, 100, 111, 119, 110],
    [101, 120, 105, 116],
    [112, 115],
    [99, 108, 101, 97, 114],
    [103, 101, 116, 98, 117, 102],
    [103, 114, 117, 98],
    [109, 111, 111, 110]]

/-- `strtok` with the delimiters `" "`: the token, if there is one, and what `oldstr`
points to afterwards. -/
def strtok (str : List Int8) : Option (List Int8) × List Int8 :=
  let str := str.dropWhile (· == space)
  if str = [] then (none, str)
  else (some (str.takeWhile (· != space)), (str.dropWhile (· != space)).tail)

/-- The loop over the tokens that remain, with room for `k` more arguments. -/
def argsLoop : Nat → List Int8 → List (List Int8)
  | 0, _ => []
  | k + 1, oldstr =>
      match strtok oldstr with
      | (none, _) => []
      | (some token, rest) => token :: argsLoop k rest

/-- The arguments of a line.  There is no result where the code takes the length of a
null token. -/
def parseArgs (line : List Int8) : Option (List (List Int8)) :=
  match strtok line with
  | (none, _) => none
  | (some token, rest) => some (token :: argsLoop (maxNumArgs - 1) rest)

/-- `trim`: the string it leaves in place and the one it returns. -/
def trim (str : List Int8) : List Int8 × List Int8 :=
  let i := (str.takeWhile (· == space)).length
  let j : Int := str.length - 1 - (str.reverse.takeWhile (· == space)).length
  if j ≤ i then ([], []) else (str.take (j + 1).toNat, (str.take (j + 1).toNat).drop i)

/-- The loop over the commands; each round trims the argument again. -/
def commandLoop (arg : List Int8) : List (List Int8) → Option (List Int8)
  | [] => none
  | command :: rest =>
      if (trim arg).2 = command then some command else commandLoop (trim arg).1 rest

/-- The typed words of a line. -/
def words (line : List Int8) : List (List Int8) := (line.splitOn space).filter (· ≠ [])

section Words

variable {line token rest : List Int8}

theorem words_nil : words [] = [] := rfl

theorem words_space (line : List Int8) : words (space :: line) = words line := by
  simp [words, List.splitOn_eq_splitOnP, List.splitOnP_cons_eq_if_modifyHead]

theorem words_dropWhile (line : List Int8) : words (line.dropWhile (· == space)) = words line := by
  induction line with
  | nil => rfl
  | cons c line ih =>
      rw [List.dropWhile_cons]
      split
      case isTrue hc =>
        rw [ih, beq_iff_eq.mp hc, words_space]
      case isFalse => rfl

theorem words_token (hne : token ≠ []) (hspace : space ∉ token) : words token = [token] := by
  have hsplit : token.splitOn space = [token] := by
    rw [List.splitOn_eq_splitOnP]
    apply List.splitOnP_eq_singleton
    intro c hc
    exact beq_false_of_ne fun heq => hspace (heq ▸ hc)
  rw [words, hsplit, List.filter_singleton]
  simp [hne]

theorem words_token_append (hne : token ≠ []) (hspace : space ∉ token) (rest : List Int8) :
    words (token ++ space :: rest) = token :: words rest := by
  have hsplit : (token ++ space :: rest).splitOn space = token :: rest.splitOn space := by
    rw [List.splitOn_eq_splitOnP]
    apply List.splitOnP_append_cons_of_forall_mem
    · intro c hc
      exact beq_false_of_ne fun heq => hspace (heq ▸ hc)
    · exact beq_self_eq_true space
  rw [words, hsplit, List.filter_cons]
  simp [hne, words]

theorem space_notMem_takeWhile (line : List Int8) : space ∉ line.takeWhile (· != space) := by
  intro hmem
  have := List.mem_takeWhile_imp hmem
  simp at this

theorem dropWhile_tail (line : List Int8) :
    line.dropWhile (· != space) = [] ∨
      line.dropWhile (· != space) = space :: (line.dropWhile (· != space)).tail := by
  cases hdrop : line.dropWhile (· != space) with
  | nil => exact Or.inl rfl
  | cons c rest =>
      have hne : line.dropWhile (· != space) ≠ [] := by rw [hdrop]; exact List.cons_ne_nil _ _
      have hhead := List.head_dropWhile_not (· != space) hne
      simp only [hdrop, List.head_cons, bne_eq_false_iff_eq] at hhead
      exact Or.inr (by rw [hhead, List.tail_cons])

/-- A call of `strtok` takes off the first word. -/
theorem strtok_words (line : List Int8) :
    (strtok line = (none, []) ∧ words line = []) ∨
      ∃ token rest, strtok line = (some token, rest) ∧ words line = token :: words rest := by
  rw [← words_dropWhile line]
  simp only [strtok]
  cases hstr : line.dropWhile (· == space) with
  | nil => exact Or.inl ⟨rfl, rfl⟩
  | cons c str =>
      have hc : (c != space) = true := by
        have hne : line.dropWhile (· == space) ≠ [] := by rw [hstr]; exact List.cons_ne_nil _ _
        have hhead := List.head_dropWhile_not (· == space) hne
        simpa [hstr] using hhead
      have hne : (c :: str).takeWhile (· != space) ≠ [] := by
        rw [List.takeWhile_cons, if_pos hc]
        exact List.cons_ne_nil _ _
      have hspace := space_notMem_takeWhile (c :: str)
      refine Or.inr ⟨_, _, if_neg (List.cons_ne_nil c str), ?_⟩
      conv_lhs => rw [← List.takeWhile_append_dropWhile (p := (· != space)) (l := c :: str)]
      rcases dropWhile_tail (c :: str) with hnil | hcons
      · rw [hnil, List.append_nil, List.tail_nil, words_nil, words_token hne hspace]
      · rw [hcons, List.tail_cons, words_token_append hne hspace]

theorem argsLoop_words (k : Nat) (oldstr : List Int8) :
    argsLoop k oldstr = (words oldstr).take k := by
  induction k generalizing oldstr with
  | zero => rfl
  | succ k ih =>
      rcases strtok_words oldstr with ⟨htok, hwords⟩ | ⟨token, rest, htok, hwords⟩
      · simp [argsLoop, htok, hwords]
      · simp [argsLoop, htok, hwords, ih]

/-- The arguments are the first words of the line. -/
theorem parseArgs_words (hblank : words line ≠ []) :
    parseArgs line = some ((words line).take maxNumArgs) := by
  rcases strtok_words line with ⟨_, hwords⟩ | ⟨token, rest, htok, hwords⟩
  · exact absurd hwords hblank
  · simp [parseArgs, htok, hwords, argsLoop_words, maxNumArgs]

theorem parseArgs_blank (hblank : words line = []) : parseArgs line = none := by
  rcases strtok_words line with ⟨htok, _⟩ | ⟨token, rest, _, hwords⟩
  · simp [parseArgs, htok]
  · rw [hwords] at hblank
    exact absurd hblank (List.cons_ne_nil _ _)

end Words

section Commands

variable {arg command : List Int8} {names : List (List Int8)}

theorem takeWhile_space (h : space ∉ arg) : arg.takeWhile (· == space) = [] := by
  cases arg with
  | nil => rfl
  | cons c arg =>
      rw [List.takeWhile_cons, if_neg]
      intro hc
      exact h (beq_iff_eq.mp hc ▸ List.mem_cons_self)

/-- An argument of one character is trimmed away. -/
theorem trim_token (h : space ∉ arg) :
    trim arg = if arg.length ≤ 1 then ([], []) else (arg, arg) := by
  have hrev : space ∉ arg.reverse := by rwa [List.mem_reverse]
  simp only [trim, takeWhile_space h, takeWhile_space hrev, List.length_nil]
  refine if_ctx_congr (by omega) (fun _ => rfl) fun hlong => ?_
  have hall : ((arg.length : Int) - 1 - (0 : Nat) + 1).toNat = arg.length := by omega
  rw [hall, List.take_length, List.drop_zero]

/-- Only an argument that is the command's own name runs it. -/
theorem commandLoop_token (h : space ∉ arg) (hnil : [] ∉ names)
    (hcommand : commandLoop arg names = some command) : command ∈ names ∧ arg = command := by
  induction names generalizing arg with
  | nil => cases hcommand
  | cons name names ih =>
      rw [commandLoop, trim_token h] at hcommand
      rw [List.mem_cons, not_or] at hnil
      split_ifs at hcommand with hshort hname hname
      · exact absurd hname hnil.1
      · obtain ⟨hmem, heq⟩ := ih List.not_mem_nil hnil.2 hcommand
        exact absurd (heq ▸ hmem) hnil.2
      · cases hcommand
        exact ⟨List.mem_cons_self, hname⟩
      · obtain ⟨hmem, heq⟩ := ih h hnil.2 hcommand
        exact ⟨List.mem_cons_of_mem _ hmem, heq⟩

end Commands

end Longhorn.ShellParsing
