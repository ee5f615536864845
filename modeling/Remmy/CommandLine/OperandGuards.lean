import Remmy.CommandLine.Argv
import Mathlib.Tactic.Common

/-!
# Operand Guards

Which operands are dropped, in terms of the components of a path, and what holds of
every command line that gets as far as removing something.
-/

namespace Remmy.CommandLine

open Remmy.Lib

/-! ## What may not be removed -/

/-- The root, and what ends in a component `.` or `..`. -/
def Unremovable (path : Bytes) : Prop :=
  path = text "/" ∨ (components slash path).getLast? = some (text ".") ∨
    (components slash path).getLast? = some (text "..")

/-! ## The last component -/

theorem strippedSize_le (path : Bytes) (size : ℕ) : strippedSize path size ≤ size := by
  induction size with
  | zero => exact le_rfl
  | succ size ih =>
    rw [strippedSize]
    split_ifs
    · exact ih.trans (Nat.le_succ size)
    · exact le_rfl

/-- Stripping keeps the components, and ends at the root or at a byte that is no slash. -/
theorem stripped_spec (path : Bytes) {size : ℕ} (hsize : size ≤ path.length) :
    components slash (path.take (strippedSize path size)) = components slash (path.take size) ∧
      (strippedSize path size ≤ 1 ∨ path[strippedSize path size - 1]? ≠ some slash) := by
  induction size with
  | zero => exact ⟨rfl, .inl (Nat.zero_le 1)⟩
  | succ size ih =>
    rw [strippedSize]
    split_ifs with hstrip
    · obtain ⟨hsame, hend⟩ := ih (Nat.le_of_succ_le hsize)
      refine ⟨?_, hend⟩
      have htake : path.take (size + 1) = path.take size ++ [slash] := by
        rw [List.take_add_one, hstrip.2]
        rfl
      rw [hsame, htake, components_append_self]
    · refine ⟨rfl, ?_⟩
      rw [not_and_or] at hstrip
      rcases hstrip with hzero | hbyte
      · left
        omega
      · right
        simpa using hbyte

/-- **The last component**: what `IsDotOrDotDotOperand` compares is the last non-empty
    component of the path. -/
theorem baseName_stripSlashes (path : Bytes) :
    baseName (stripSlashes path) = ((components slash path).getLast?).getD [] := by
  obtain ⟨hsame, hend⟩ := stripped_spec path le_rfl
  have hlen : (stripSlashes path).length = strippedSize path path.length :=
    List.length_take_of_le (strippedSize_le path path.length)
  rw [List.take_length] at hsame
  rw [← hsame, ← stripSlashes, baseName]
  cases hfind : rfind slash (stripSlashes path) (stripSlashes path).length with
  | none =>
    have hnone := notMem_of_rfind hfind
    by_cases hempty : stripSlashes path = []
    · simp [hempty]
    · simp [components_of_notMem hempty hnone]
  | some i =>
    have hcut := take_append_of_rfind hfind
    have hrest := notMem_drop_of_rfind hfind
    have hi := (List.getElem?_eq_some_iff.mp (rfind_eq_some.mp hfind).2.1).1
    have hcomponents : components slash (stripSlashes path) =
        components slash ((stripSlashes path).take i) ++
          components slash ((stripSlashes path).drop (i + 1)) := by
      conv_lhs => rw [hcut]
      exact components_append_cons _ _
    by_cases hempty : (stripSlashes path).drop (i + 1) = []
    · -- The path ends in the slash that was found, so it is the root.
      have hlast : i = strippedSize path path.length - 1 := by
        have hdrop := List.drop_eq_nil_iff.mp hempty
        omega
      have hroot : strippedSize path path.length ≤ 1 := by
        refine hend.resolve_right fun hbyte => hbyte ?_
        have hfound := (rfind_eq_some.mp hfind).2.1
        rwa [stripSlashes, List.getElem?_take_of_lt (by omega), hlast] at hfound
      have hzero : i = 0 := by omega
      change (stripSlashes path).drop (i + 1) = _
      rw [hempty, hcomponents, hempty, hzero]
      rfl
    · simp [hcomponents, components_of_notMem hempty hrest]

/-- `IsDotOrDotDotOperand` looks at the last component. -/
theorem isDotOrDotDotOperand_iff (path : Bytes) :
    isDotOrDotDotOperand path = true ↔
      (components slash path).getLast? = some (text ".") ∨
        (components slash path).getLast? = some (text "..") := by
  rw [isDotOrDotDotOperand, baseName_stripSlashes]
  cases (components slash path).getLast? with
  | none => decide
  | some last => simp

theorem unremovable_iff (path : Bytes) :
    (isDotOrDotDotOperand path || isSlash path) = true ↔ Unremovable path := by
  rw [Bool.or_eq_true, isDotOrDotDotOperand_iff, isSlash, decide_eq_true_eq, Unremovable, or_comm]

instance (path : Bytes) : Decidable (Unremovable path) :=
  decidable_of_iff _ (unremovable_iff path)

/-! ## Dropping -/

theorem removeIf_take {α : Type} (p : α → Bool) (l : List α) :
    (removeIf p l).1.take (l.length - (removeIf p l).2) = l.filter (!p ·) := by
  have hle := List.length_filter_le (!p ·) l
  have hcount : l.length - (l.length - (l.filter (!p ·)).length) = (l.filter (!p ·)).length := by
    omega
  simp only [removeIf, hcount, List.take_left]

/-- Dropping keeps, in order, the operands that may be removed. -/
theorem dropUnremovableOperands_operands (cli : Cli) (progName : Bytes) :
    (cli.dropUnremovableOperands progName).1.operands =
      cli.operands.filter (¬Unremovable ·) := by
  simp only [Cli.dropUnremovableOperands, removeIf_take]
  refine List.filter_congr fun path _ => ?_
  rw [Bool.eq_iff_iff, decide_eq_true_iff, ← unremovable_iff, Bool.not_eq_true', Bool.not_eq_true]

/-- Dropping says whether it dropped something. -/
theorem dropUnremovableOperands_dropped (cli : Cli) (progName : Bytes) :
    (cli.dropUnremovableOperands progName).1.hasDroppedOperands = true ↔
      cli.hasDroppedOperands = true ∨ ∃ path ∈ cli.operands, Unremovable path := by
  simp only [Cli.dropUnremovableOperands, Bool.or_eq_true, List.any_eq_true, ← unremovable_iff,
    ← exists_or, ← and_or_left]

/-! ## Unsupported options -/

/-- What `CheckUnsupported` lets through. -/
theorem checkUnsupported_ok {argv : Argv} {cli cli' : Cli} {out : Bytes}
    (h : argv.checkUnsupported cli = (.ok cli', out)) :
    cli' = cli ∧ cli.options.interactive = false ∧
      (cli.options.undelete = true → cli.options.recursive = true) ∧
      ¬(cli.options.oneFileSystem = true ∧ cli.options.recursive = true) := by
  rw [Argv.checkUnsupported] at h
  split_ifs at h with hi hw hx
  · cases h
  · cases h
  · cases h
  · cases h
    refine ⟨rfl, by simpa using hi, ?_, by simpa using hx⟩
    intro hundelete
    simpa [hundelete] using hw

theorem parse_hasDroppedOperands {argv : Argv} {parsed : Cli} (h : argv.parse = .ok parsed) :
    parsed.hasDroppedOperands = false := by
  rw [Argv.parse] at h
  split at h
  · cases h
  · dsimp only at h
    split_ifs at h
    cases h
    rfl

/-- **Operand guards**: when a command line that is not one of `unlink` yields a `Cli`, its
    operands are the parsed ones that may be removed, in order; it says whether any were
    dropped; and with operands left it has no option that is not supported. -/
theorem operand_guards {argv : Argv} {progName out : Bytes} {cli : Cli}
    (hmode : argv.isUnlinkMode = false)
    (h : argv.tryParseOrAbort progName = (.ok (.inl cli), out)) :
    ∃ parsed, argv.parse = .ok parsed ∧ cli.options = parsed.options ∧
      (∀ path ∈ cli.operands, path ≠ text "/" ∧
        (components slash path).getLast? ≠ some (text ".") ∧
        (components slash path).getLast? ≠ some (text "..")) ∧
      cli.operands = parsed.operands.filter (¬Unremovable ·) ∧
      (cli.hasDroppedOperands = true ↔ ∃ path ∈ parsed.operands, Unremovable path) ∧
      (cli.operands ≠ [] → cli.options.interactive = false ∧
        (cli.options.undelete = true → cli.options.recursive = true) ∧
        ¬(cli.options.oneFileSystem = true ∧ cli.options.recursive = true)) := by
  simp only [Argv.tryParseOrAbort, hmode, Bool.false_eq_true, if_false] at h
  cases hparse : argv.parse with
  | error e => simp [hparse] at h
  | ok parsed =>
    rw [hparse] at h
    have hoperands := dropUnremovableOperands_operands parsed progName
    have hdropped := dropUnremovableOperands_dropped parsed progName
    rw [parse_hasDroppedOperands hparse] at hdropped
    have hoptions : (parsed.dropUnremovableOperands progName).1.options = parsed.options := rfl
    have hkept : ∀ path ∈ (parsed.dropUnremovableOperands progName).1.operands, path ≠ text "/" ∧
        (components slash path).getLast? ≠ some (text ".") ∧
        (components slash path).getLast? ≠ some (text "..") := by
      intro path hpath
      rw [hoperands] at hpath
      have hfree : ¬Unremovable path := by simpa using (List.mem_filter.mp hpath).2
      rwa [Unremovable, not_or, not_or] at hfree
    -- What `DropUnremovableOperands` returns is what the caller gets, if anything.
    suffices hcli : cli = (parsed.dropUnremovableOperands progName).1 ∧
        (cli.operands ≠ [] → cli.options.interactive = false ∧
          (cli.options.undelete = true → cli.options.recursive = true) ∧
          ¬(cli.options.oneFileSystem = true ∧ cli.options.recursive = true)) by
      obtain ⟨rfl, hsupported⟩ := hcli
      exact ⟨parsed, rfl, hoptions, hkept, hoperands, by simpa using hdropped, hsupported⟩
    dsimp only at h
    split_ifs at h with hempty
    · cases h
      exact ⟨rfl, fun hne => absurd hempty hne⟩
    · cases hcheck : argv.checkUnsupported (parsed.dropUnremovableOperands progName).1 with
      | mk checked refused =>
        rw [hcheck] at h
        cases checked with
        | error code => simp [Except.map] at h
        | ok cli' =>
          obtain ⟨rfl, hsupported⟩ := checkUnsupported_ok hcheck
          cases h
          exact ⟨rfl, fun _ => hsupported⟩

/-- `rm -r x ..`: the second operand is dropped. -/
theorem operand_guards_parent : ∃ parsed,
    (Argv.mk [text "rm", text "-r", text "x", text ".."]).parse = .ok parsed ∧
      [text "x"] = parsed.operands.filter (¬Unremovable ·) := by
  obtain ⟨parsed, hparse, -, -, hoperands, -⟩ :=
    @operand_guards ⟨[text "rm", text "-r", text "x", text ".."]⟩ []
      (text "rm: \".\" and \"..\" may not be removed\n")
      ⟨{ recursive := true }, [text "x"], ⟨[text "rm", text "-r", text "x", text ".."]⟩, true⟩
      rfl rfl
  exact ⟨parsed, hparse, hoperands⟩

end Remmy.CommandLine
