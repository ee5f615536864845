import Remmy.CommandLine.Argv
import Mathlib.Tactic.Common

/-!
# Parsing Options as getopt(3) Does

What option parsing is for: the reference reading of a command line, in terms of the
letters before the operands, and that `Argv::Parse` computes it.

- `getopt` is the reference, with the option string "dfiIPRrvWx" and rm's checks.
- `parse_eq_getopt` is the agreement, for every argument vector.
-/

namespace Remmy.CommandLine

/-! ## The reference -/

/-- An argument that option letters are read from. -/
def isCluster (arg : Bytes) : Bool :=
  2 ≤ arg.length && arg.head? = some '-'.toUInt8 && arg ≠ text "--"

/-- The letters of all clusters before the operands, in order. -/
def optionLetters (args : List Bytes) : Bytes := (args.takeWhile isCluster).flatMap List.tail

/-- The arguments after the clusters, and after the "--" that ends them. -/
def operandsAfter (args : List Bytes) : List Bytes :=
  match args.dropWhile isCluster with
  | [] => []
  | arg :: rest => if arg = text "--" then rest else arg :: rest

/-- The option string. -/
def optionString : Bytes := text "dfiIPRrvWx"

/-- The last of `-f` and `-i` among the letters. -/
def lastOverride (letters : Bytes) : Option UInt8 :=
  (letters.filter fun c => c = 'f'.toUInt8 || c = 'i'.toUInt8).getLast?

/-- The options that the letters ask for. -/
def optionsOf (letters : Bytes) : Options where
  dir := 'd'.toUInt8 ∈ letters
  force := lastOverride letters = some 'f'.toUInt8
  interactive := lastOverride letters = some 'i'.toUInt8
  promptOnce := 'I'.toUInt8 ∈ letters
  overwrite := 'P'.toUInt8 ∈ letters
  recursive := 'r'.toUInt8 ∈ letters ∨ 'R'.toUInt8 ∈ letters
  verbose := 'v'.toUInt8 ∈ letters
  undelete := 'W'.toUInt8 ∈ letters
  oneFileSystem := 'x'.toUInt8 ∈ letters

/-- **The reference**: the options and operands of a command line, or why it has none. -/
def getopt (args : List Bytes) : Except UsageError (Options × List Bytes) :=
  match (optionLetters args).find? (· ∉ optionString) with
  | some letter => .error ⟨some letter⟩
  | none =>
    let options := optionsOf (optionLetters args)
    if operandsAfter args = [] ∧ options.force = false then .error .unknown
    else .ok (options, operandsAfter args)

/-! ## Letters -/

theorem mem_optionString {letter : UInt8} :
    letter ∈ optionString ↔ letter = 'd'.toUInt8 ∨ letter = 'f'.toUInt8 ∨ letter = 'i'.toUInt8 ∨
      letter = 'I'.toUInt8 ∨ letter = 'P'.toUInt8 ∨ letter = 'R'.toUInt8 ∨ letter = 'r'.toUInt8 ∨
      letter = 'v'.toUInt8 ∨ letter = 'W'.toUInt8 ∨ letter = 'x'.toUInt8 := by
  have hstring : optionString = ['d'.toUInt8, 'f'.toUInt8, 'i'.toUInt8, 'I'.toUInt8, 'P'.toUInt8,
    'R'.toUInt8, 'r'.toUInt8, 'v'.toUInt8, 'W'.toUInt8, 'x'.toUInt8] := rfl
  simp only [hstring, List.mem_cons, List.not_mem_nil, or_false]

theorem ite_some_eq_none {α : Type} {p : Prop} [Decidable p] {a : α} {x : Option α} :
    (if p then some a else x) = none ↔ ¬p ∧ x = none := by
  split_ifs with h <;> simp [h]

/-- `ApplyOption` knows the letters of the option string. -/
theorem applyOption_eq_none {options : Options} {letter : UInt8} :
    applyOption options letter = none ↔ letter ∉ optionString := by
  rw [mem_optionString]
  simp only [applyOption, ite_some_eq_none, not_or, and_true, and_assoc]

theorem lastOverride_snoc (letters : Bytes) (letter : UInt8) :
    lastOverride (letters ++ [letter]) =
      if letter = 'f'.toUInt8 ∨ letter = 'i'.toUInt8 then some letter else lastOverride letters := by
  rw [lastOverride, List.filter_append, List.getLast?_append]
  by_cases h : letter = 'f'.toUInt8 ∨ letter = 'i'.toUInt8
  · rw [if_pos h, List.filter_cons_of_pos (by simpa using h)]
    simp
  · rw [if_neg h, List.filter_cons_of_neg (by simpa using h)]
    simp [lastOverride]

/-- One more letter changes what the letters ask for as `ApplyOption` does. -/
theorem applyOption_optionsOf (letters : Bytes) {letter : UInt8} (h : letter ∈ optionString) :
    applyOption (optionsOf letters) letter = some (optionsOf (letters ++ [letter])) := by
  simp only [optionsOf, lastOverride_snoc, List.mem_append, List.mem_singleton]
  rcases mem_optionString.mp h with rfl | rfl | rfl | rfl | rfl | rfl | rfl | rfl | rfl | rfl
  all_goals simp [applyOption, Char.toUInt8]

/-- The loop over one argument, after some letters before it: it stops at the first letter
    outside the option string. -/
theorem applyLetters_eq (before letters : Bytes) :
    applyLetters (optionsOf before) letters =
      match letters.find? (· ∉ optionString) with
      | some letter => .error ⟨some letter⟩
      | none => .ok (optionsOf (before ++ letters)) := by
  induction letters generalizing before with
  | nil => simp [applyLetters]
  | cons letter rest ih =>
    by_cases hmem : letter ∈ optionString
    · rw [applyLetters, applyOption_optionsOf before hmem, List.find?_cons_of_neg (by simpa using hmem)]
      simpa using ih (before ++ [letter])
    · rw [applyLetters, applyOption_eq_none.mpr hmem, List.find?_cons_of_pos (by simpa using hmem)]

/-! ## Arguments -/

theorem isCluster_eq_false {arg : Bytes} :
    isCluster arg = false ↔
      (arg.length < 2 ∨ arg.head? ≠ some '-'.toUInt8) ∨ arg = text "--" := by
  simp only [isCluster, Bool.and_eq_false_iff, decide_eq_false_iff_not, not_le, ne_eq, not_not]

/-- An argument that stops the options is the first operand, unless it is "--". -/
theorem operandsAfter_cons {arg : Bytes} (rest : List Bytes) (h : isCluster arg = false) :
    operandsAfter (arg :: rest) = if arg = text "--" then rest else arg :: rest := by
  rw [operandsAfter, List.dropWhile_cons_of_neg (by simp [h])]

theorem optionLetters_cons_of_stop {arg : Bytes} (rest : List Bytes) (h : isCluster arg = false) :
    optionLetters (arg :: rest) = [] := by
  rw [optionLetters, List.takeWhile_cons_of_neg (by simp [h])]
  rfl

theorem operandsAfter_cons_of_cluster {arg : Bytes} (rest : List Bytes) (h : isCluster arg = true) :
    operandsAfter (arg :: rest) = operandsAfter rest := by
  rw [operandsAfter, List.dropWhile_cons_of_pos h, operandsAfter]

theorem optionLetters_cons_of_cluster {arg : Bytes} (rest : List Bytes) (h : isCluster arg = true) :
    optionLetters (arg :: rest) = arg.tail ++ optionLetters rest := by
  rw [optionLetters, List.takeWhile_cons_of_pos h, List.flatMap_cons, optionLetters]

/-- The operands are the end of the arguments. -/
theorem operandsAfter_suffix (args : List Bytes) : operandsAfter args <:+ args := by
  induction args with
  | nil => exact List.suffix_refl _
  | cons arg rest ih =>
    cases hstop : isCluster arg with
    | true =>
      rw [operandsAfter_cons_of_cluster rest hstop]
      exact ih.trans (List.suffix_cons arg rest)
    | false =>
      rw [operandsAfter_cons rest hstop]
      split_ifs
      · exact List.suffix_cons arg rest
      · exact List.suffix_refl _

/-- The loop of `Parse`, after some letters in the arguments before: it reads the clusters,
    and `index` ends where the operands start. -/
theorem parseOptions_eq (before : Bytes) (index : ℕ) (args : List Bytes) :
    parseOptions (optionsOf before) index args =
      match (optionLetters args).find? (· ∉ optionString) with
      | some letter => .error ⟨some letter⟩
      | none => .ok (optionsOf (before ++ optionLetters args),
          index + (args.length - (operandsAfter args).length)) := by
  induction args generalizing before index with
  | nil => simp [parseOptions, optionLetters, operandsAfter]
  | cons arg rest ih =>
    cases hstop : isCluster arg with
    | false =>
      -- The first operand, or `--`: nothing more is read.
      rw [optionLetters_cons_of_stop rest hstop, operandsAfter_cons rest hstop, parseOptions]
      rcases isCluster_eq_false.mp hstop with hshort | rfl
      · have hdashes : arg ≠ text "--" := by
          rintro rfl
          exact absurd hshort (by decide)
        rw [if_pos hshort]
        simp [hdashes]
      · have hlong : ¬((text "--").length < 2 ∨ (text "--").head? ≠ some '-'.toUInt8) := by decide
        rw [if_neg hlong, if_pos rfl, if_pos rfl]
        simp
    | true =>
      -- A cluster, and the arguments after it.
      have hgo : ¬(arg.length < 2 ∨ arg.head? ≠ some '-'.toUInt8) ∧ arg ≠ text "--" := by
        rw [← not_or, ← isCluster_eq_false, hstop]
        exact Bool.noConfusion
      have hlen := (operandsAfter_suffix rest).length_le
      rw [optionLetters_cons_of_cluster rest hstop, operandsAfter_cons_of_cluster rest hstop,
        parseOptions, if_neg hgo.1, if_neg hgo.2, applyLetters_eq, List.find?_append]
      cases hbad : arg.tail.find? (· ∉ optionString) with
      | some letter => rfl
      | none =>
        have hindex : index + ((arg :: rest).length - (operandsAfter rest).length) =
            index + 1 + (rest.length - (operandsAfter rest).length) := by
          rw [List.length_cons]
          omega
        simp only [Option.none_or, hindex, ← List.append_assoc]
        exact ih (before ++ arg.tail) (index + 1)

/-! ## Agreement -/

/-- The last elements of the arguments are the last elements of `argv`. -/
theorem last_argsSpan (argv : Argv) {operands : List Bytes} (h : operands <:+ argv.argsSpan) :
    last operands.length argv.span = operands :=
  (List.suffix_iff_eq_drop.mp (h.trans (List.tail_suffix _))).symm

/-- **Option parsing agrees with getopt(3)**, for every argument vector: the same options and
    operands, or the same failure. -/
theorem parse_eq_getopt (argv : Argv) :
    argv.parse = (getopt argv.argsSpan).map
      fun (options, operands) => ⟨options, operands, argv, false⟩ := by
  have hsuffix := operandsAfter_suffix argv.argsSpan
  have hstart : ({} : Options) = optionsOf [] := rfl
  have hcount : argv.argsSpan.length -
      (0 + (argv.argsSpan.length - (operandsAfter argv.argsSpan).length)) =
        (operandsAfter argv.argsSpan).length := by
    have hle := hsuffix.length_le
    omega
  rw [Argv.parse, getopt, hstart, parseOptions_eq]
  cases (optionLetters argv.argsSpan).find? (· ∉ optionString) with
  | some letter => rfl
  | none =>
    simp only [hcount, last_argsSpan argv hsuffix, List.nil_append]
    split_ifs <;> rfl

end Remmy.CommandLine
