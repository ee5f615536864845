import Remmy.Lib.Components
import Remmy.Bytes

/-!
# The Command Line

`remmy::Argv` and `remmy::Cli`: how the arguments become options and operands, which
operands are dropped, and which options are refused.

- An argument is the list of its bytes; `argv` is the list of the arguments.
- What goes to standard error is returned beside the result.
- `cutils::os::GetProgName` is a parameter, `progName`.
-/

namespace Remmy

namespace CommandLine

open Remmy.Lib

/-! ## Options -/

/-- The options of `rm`. -/
structure Options where
  dir : Bool := false
  force : Bool := false
  interactive : Bool := false
  promptOnce : Bool := false
  overwrite : Bool := false
  recursive : Bool := false
  verbose : Bool := false
  undelete : Bool := false
  oneFileSystem : Bool := false
  deriving DecidableEq

/-- `ApplyOption`: one option letter, `none` when it is not one of rm's. -/
def applyOption (options : Options) (letter : UInt8) : Option Options :=
  if letter = 'd'.toUInt8 then some { options with dir := true }
  -- -f and -i override each other: the last one wins.
  else if letter = 'f'.toUInt8 then some { options with force := true, interactive := false }
  else if letter = 'i'.toUInt8 then some { options with interactive := true, force := false }
  else if letter = 'I'.toUInt8 then some { options with promptOnce := true }
  else if letter = 'P'.toUInt8 then some { options with overwrite := true }
  else if letter = 'R'.toUInt8 ∨ letter = 'r'.toUInt8 then some { options with recursive := true }
  else if letter = 'v'.toUInt8 then some { options with verbose := true }
  else if letter = 'W'.toUInt8 then some { options with undelete := true }
  else if letter = 'x'.toUInt8 then some { options with oneFileSystem := true }
  else none

/-- `UsageError`: the option letter that was not understood, if there was one. -/
structure UsageError where
  illegalOption : Option UInt8
  deriving DecidableEq

/-- `UsageError::Unknown`. -/
def UsageError.unknown : UsageError := ⟨none⟩

/-- `kExitUsage`. -/
def kExitUsage : ℕ := 64

/-- `kExitUnsupported`. -/
def kExitUnsupported : ℕ := 1

/-- `kUsageMsg`. -/
def kUsageMsg : Bytes :=
  text "usage: rm [-f | -i] [-dIPRrvWx] file ...\n       unlink [--] file"

/-- What `PrintLn` adds to the text. -/
def newline : Bytes := text "\n"

/-! ## Argv -/

/-- The arguments, `argv[0]` included; empty when `argc` is 0. -/
structure Argv where
  span : List Bytes
  deriving DecidableEq

/-- `Cli`: the options and the operands of a command line. -/
structure Cli where
  options : Options
  operands : List Bytes
  argv : Argv
  hasDroppedOperands : Bool
  deriving DecidableEq

/-- `UnlinkCli`. -/
structure UnlinkCli where
  operand : Bytes
  argv : Argv
  deriving DecidableEq

/-- `std::span::last`. -/
def last {α : Type} (count : ℕ) (l : List α) : List α := l.drop (l.length - count)

/-- What follows the last slash of a path; all of it when there is none. -/
def baseName (path : Bytes) : Bytes :=
  match rfind slash path path.length with
  | none => path
  | some i => path.drop (i + 1)

namespace Argv

variable (argv : Argv)

/-- `ArgsSpan`. -/
def argsSpan : List Bytes := argv.span.tail

/-- `InvocationPath`. -/
def invocationPath : Bytes := argv.span.head?.getD (text "rm")

/-- `CommandName`. -/
def commandName (progName : Bytes) : Bytes :=
  if progName ≠ [] then progName
  else if baseName argv.invocationPath = [] then text "rm" else baseName argv.invocationPath

/-- `IsUnlinkMode`. -/
def isUnlinkMode : Bool := baseName argv.invocationPath = text "unlink"

/-- `ParseUnlinkOperand`. -/
def parseUnlinkOperand : Except UsageError Bytes :=
  match argv.argsSpan with
  | [operand] => .ok operand
  | [dashes, operand] => if dashes = text "--" then .ok operand else .error .unknown
  | _ => .error .unknown

end Argv

/-- The letters of one argument, applied in order. -/
def applyLetters (options : Options) : Bytes → Except UsageError Options
  | [] => .ok options
  | letter :: rest =>
    match applyOption options letter with
    | some options => applyLetters options rest
    | none => .error ⟨some letter⟩

/-- The loop of `Parse` from `ArgsSpan()[index]` on: the options and `index` after it. -/
def parseOptions (options : Options) (index : ℕ) : List Bytes → Except UsageError (Options × ℕ)
  | [] => .ok (options, index)
  | arg :: rest =>
    if arg.length < 2 ∨ arg.head? ≠ some '-'.toUInt8 then .ok (options, index)
    else if arg = text "--" then .ok (options, index + 1)
    else
      match applyLetters options arg.tail with
      | .ok options => parseOptions options (index + 1) rest
      | .error e => .error e

namespace Argv

variable (argv : Argv)

/-- `Parse`. -/
def parse : Except UsageError Cli :=
  match parseOptions {} 0 argv.argsSpan with
  | .error e => .error e
  | .ok (options, index) =>
    let operands := last (argv.argsSpan.length - index) argv.span
    if operands = [] ∧ options.force = false then .error .unknown
    else .ok ⟨options, operands, argv, false⟩

/-- `ReportUsage`. -/
def reportUsage (error : UsageError) : Bytes :=
  match error.illegalOption with
  | some letter =>
    argv.invocationPath ++ text ": illegal option -- " ++ [letter] ++ newline ++ kUsageMsg ++ newline
  | none => kUsageMsg ++ newline

/-- `refuse` in `CheckUnsupported`. -/
def refuse (option : UInt8) : Except ℕ Cli × Bytes :=
  (.error kExitUnsupported, argv.invocationPath ++ text ": -" ++ [option] ++
    text ": not supported yet; nothing was removed" ++ newline)

/-- `CheckUnsupported`. -/
def checkUnsupported (cli : Cli) : Except ℕ Cli × Bytes :=
  if cli.options.interactive then argv.refuse 'i'.toUInt8
  else if cli.options.undelete && !cli.options.recursive then argv.refuse 'W'.toUInt8
  else if cli.options.oneFileSystem && cli.options.recursive then argv.refuse 'x'.toUInt8
  else (.ok cli, [])

end Argv

/-! ## Dropped operands -/

/-- The size of `path.take size` without the slashes it ends with, but at least 1. -/
def strippedSize (path : Bytes) : ℕ → ℕ
  | 0 => 0
  | size + 1 => if 0 < size ∧ path[size]? = some slash then strippedSize path size else size + 1

/-- The loop of `IsDotOrDotDotOperand`: the path without the slashes it ends with. -/
def stripSlashes (path : Bytes) : Bytes := path.take (strippedSize path path.length)

/-- `IsDotOrDotDotOperand`. -/
def isDotOrDotDotOperand (path : Bytes) : Bool :=
  let last := baseName (stripSlashes path)
  last = text "." || last = text ".."

/-- `is_slash`. -/
def isSlash (path : Bytes) : Bool := path = text "/"

/-- `std::ranges::remove_if`: the span afterwards, and the size of the range it returns. -/
def removeIf {α : Type} (p : α → Bool) (l : List α) : List α × ℕ :=
  let kept := l.filter (!p ·)
  (kept ++ l.drop kept.length, l.length - kept.length)

/-- `DropUnremovableOperands`. -/
def Cli.dropUnremovableOperands (cli : Cli) (progName : Bytes) : Cli × Bytes :=
  let dot := cli.operands.any isDotOrDotDotOperand
  let slash := cli.operands.any isSlash
  let (after, dropped) := removeIf (fun path => isDotOrDotDotOperand path || isSlash path) cli.operands
  let name := cli.argv.commandName progName
  ({ cli with
      operands := after.take (cli.operands.length - dropped)
      hasDroppedOperands := cli.hasDroppedOperands || (dot || slash) },
    (if dot then name ++ text ": \".\" and \"..\" may not be removed" ++ newline else []) ++
      (if slash then name ++ text ": \"/\" may not be removed" ++ newline else []))

/-- `TryParseOrAbort`. -/
def Argv.tryParseOrAbort (argv : Argv) (progName : Bytes) : Except ℕ (Cli ⊕ UnlinkCli) × Bytes :=
  if argv.isUnlinkMode then
    match argv.parseUnlinkOperand with
    | .error e => (.error kExitUsage, argv.reportUsage e)
    | .ok operand => (.ok (.inr ⟨operand, argv⟩), [])
  else
    match argv.parse with
    | .error e => (.error kExitUsage, argv.reportUsage e)
    | .ok parsed =>
      let (cli, dropped) := parsed.dropUnremovableOperands progName
      if cli.operands = [] then (.ok (.inl cli), dropped)
      else
        let (checked, refused) := argv.checkUnsupported cli
        (checked.map .inl, dropped ++ refused)

end CommandLine

end Remmy
