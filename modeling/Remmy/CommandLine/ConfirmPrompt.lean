import Remmy.Io.BufferedReader
import Remmy.Io.Print
import Remmy.Io.StreamConservation

/-!
# The Question of `-I`

`ConfirmPromptOnce` of `main.cpp`: the question that `rm -I` asks before it starts, and how the
answer is read from standard input.

- An operand comes with what `lstat` says about it.
- Standard input is a `BufferedReader`, so the answer may arrive in chunks of any size.
- `prompt_once` says which line decides, and that nothing past that line is read.
-/

namespace Remmy.CommandLine

open Remmy.Io

universe v

variable {ε : Type v}

/-! ## The question -/

/-- `kMaxSilentOperands`. -/
def kMaxSilentOperands : ℕ := 3

/-- `kPromptBuffer`. -/
def kPromptBuffer : ℕ := 256

/-- `'\n'`. -/
def lineFeed : UInt8 := '\n'.toUInt8

/-- An operand, and whether `lstat` finds a directory there; `none` if it fails. -/
structure Operand where
  path : Bytes
  isDir : Option Bool

/-- `dirs`, `files` and `dir_name`. -/
structure Counts where
  dirs : ℕ := 0
  files : ℕ := 0
  dirName : Bytes := []

/-- One round of the loop over the operands. -/
def Counts.add (c : Counts) (operand : Operand) : Counts :=
  match operand.isDir with
  | none => c
  | some true => { c with dirs := c.dirs + 1, dirName := operand.path }
  | some false => { c with files := c.files + 1 }

/-- The loop over the operands. -/
def countOperands (operands : List Operand) : Counts := operands.foldl Counts.add {}

/-- `std::to_chars` of a count. -/
def decimal (n : ℕ) : Bytes := (Nat.toDigits 10 n).map Char.toUInt8

/-- `Print`, which gives `WriteMany` the pieces. -/
def print {n : ℕ} (fmt : FormatString n) (views : List Bytes) : WriterCall UInt8 :=
  .writeMany ((formatPieces fmt.str views).getD [])

/-- What `line` is given for one question. -/
def question (askRecursive : Bool) (c : Counts) : List (WriterCall UInt8) :=
  (if askRecursive then
    [print (n := 0) ⟨text "recursively remove", by decide⟩ [],
      if c.dirs = 1 then print (n := 1) ⟨text " \x7b\x7d", by decide⟩ [c.dirName]
      else print (n := 1) ⟨text " \x7b\x7d dirs", by decide⟩ [decimal c.dirs]] ++
    (if c.files = 1 then [print (n := 0) ⟨text " and 1 file", by decide⟩ []]
      else if 1 < c.files then
        [print (n := 1) ⟨text " and \x7b\x7d files", by decide⟩ [decimal c.files]]
      else [])
  else [print (n := 1) ⟨text "remove \x7b\x7d files", by decide⟩ [decimal (c.dirs + c.files)]]) ++
  [print (n := 0) ⟨text "? ", by decide⟩ [], .flush]

/-- A question is on standard error before the answer is read, unless writing it fails: `line`
    is flushed last.  This stands beside `prompt_once`: what is read does not depend on it. -/
theorem question_written {hasConcat : Bool} {behind : Behind UInt8 ε} {askRecursive : Bool}
    {c : Counts} {line : Io.Stream UInt8 ε}
    (hline : line = (Io.Stream.new kPromptBuffer).run hasConcat behind (question askRecursive c))
    (hwritten : ∀ entry ∈ line.log, entry.2 = none) :
    passed line.log = given (question askRecursive c) := by
  obtain ⟨later, hruns⟩ :=
    (Io.Stream.new kPromptBuffer).runs hasConcat behind (question askRecursive c)
  rw [← hline] at hruns
  have hlog : line.log = later := hruns.log
  have hempty : line.buffer.buffered = [] := by
    rw [hline, question, Io.Stream.run, List.foldl_append]
    exact BufferedWriter.buffered_flush _
  rw [hlog] at hwritten ⊢
  have hall := hruns.success hwritten
  rw [hempty, List.append_nil] at hall
  exact hall

/-! ## The answer -/

/-- What `ConfirmPromptOnce` gives back, the questions it has asked, and standard input after it. -/
structure Verdict (ε : Type v) where
  goAhead : Bool
  asked : List (List (WriterCall UInt8))
  input : BufferedReader UInt8 ε

/-- `first`, `line_ended`, and standard input after them. -/
def readAnswer (input : BufferedReader UInt8 ε) : Option UInt8 × Bool × BufferedReader UInt8 ε :=
  match input.readByte with
  | (none, input) => (none, false, input)
  | (some first, input) =>
    if first = lineFeed then (some first, true, input)
    else
      let (ended, input) := input.skipPast lineFeed
      (some first, ended, input)

/-- Every line that is ended takes its line feed off the stream. -/
theorem left_readAnswer_lt {input : BufferedReader UInt8 ε} (h : (readAnswer input).2.1 = true) :
    (readAnswer input).2.2.left.length < input.left.length := by
  unfold readAnswer at h ⊢
  split at h
  · cases h
  · rename_i first input' hbyte
    have hleft : input.left = first :: input'.left := by
      have hfirst : input.readByte.1 = some first := by rw [hbyte]
      have hread := BufferedReader.left_readByte hfirst
      rwa [hbyte] at hread
    rw [hleft, List.length_cons]
    split_ifs
    · exact Nat.lt_succ_self _
    · exact Nat.lt_succ_of_le (BufferedReader.left_skipPast_le input' lineFeed)

/-- `first == 'y' || first == 'Y'`. -/
def isYes (first : Option UInt8) : Bool := first = some 'y'.toUInt8 ∨ first = some 'Y'.toUInt8

/-- `first == 'n' || first == 'N'`. -/
def isNo (first : Option UInt8) : Bool := first = some 'n'.toUInt8 ∨ first = some 'N'.toUInt8

/-- The loop that asks until a line decides. -/
def askLoop (asking : List (WriterCall UInt8)) (input : BufferedReader UInt8 ε) : Verdict ε :=
  let first := (readAnswer input).1
  let lineEnded := (readAnswer input).2.1
  let input' := (readAnswer input).2.2
  if isYes first then ⟨true, [asking], input'⟩
  else if _h : isNo first ∨ lineEnded = false then ⟨false, [asking], input'⟩
  else
    let verdict := askLoop asking input'
    { verdict with asked := asking :: verdict.asked }
termination_by input.left.length
decreasing_by exact left_readAnswer_lt (by simpa using (not_or.mp _h).2)

/-- `ConfirmPromptOnce`. -/
def confirmPromptOnce (operands : List Operand) (recursive : Bool)
    (input : BufferedReader UInt8 ε) : Verdict ε :=
  let c := countOperands operands
  let askRecursive := recursive && 0 < c.dirs
  if askRecursive = false ∧ c.dirs + c.files ≤ kMaxSilentOperands then ⟨true, [], input⟩
  else askLoop (question askRecursive c) input

/-! ## Lines -/

/-- The line starts with `y` or `Y`. -/
def Agrees (line : Bytes) : Prop := isYes line.head? = true

/-- The line starts with `y`, `Y`, `n` or `N`. -/
def Decides (line : Bytes) : Prop := isYes line.head? = true ∨ isNo line.head? = true

/-- The stream read as lines: the lines `earlier` are complete and decide nothing; the line
    `body` decides, or is not ended by a line feed; `rest` comes after it. -/
structure Reading (stream : Bytes) (earlier : List Bytes) (body : Bytes) (ended : Bool)
    (rest : Bytes) : Prop where
  lines : stream =
    earlier.flatMap (· ++ [lineFeed]) ++ (body ++ (if ended then [lineFeed] else []) ++ rest)
  undecided : ∀ line ∈ earlier, lineFeed ∉ line ∧ ¬Decides line
  oneLine : lineFeed ∉ body
  last : if ended then Decides body else rest = []

/-- A first line that is ended, and what comes after it. -/
theorem first_line_unique {line line' rest rest' : Bytes} (hline : lineFeed ∉ line)
    (hline' : lineFeed ∉ line') (h : line ++ lineFeed :: rest = line' ++ lineFeed :: rest') :
    line = line' ∧ rest = rest' := by
  rcases List.append_eq_append_iff.mp h with ⟨c, rfl, hc⟩ | ⟨c, rfl, hc⟩
  · cases c with
    | nil => exact ⟨(List.append_nil _).symm, (List.cons.inj hc).2⟩
    | cons b c =>
      rw [← (List.cons.inj hc).1] at hline'
      exact absurd (List.mem_append_right line List.mem_cons_self) hline'
  · cases c with
    | nil => exact ⟨List.append_nil _, (List.cons.inj hc).2.symm⟩
    | cons b c =>
      rw [← (List.cons.inj hc).1] at hline
      exact absurd (List.mem_append_right line' List.mem_cons_self) hline

namespace Reading

variable {stream body body' rest rest' line : Bytes} {earlier earlier' : List Bytes}
  {ended ended' : Bool}

/-- A reading that goes past a first line. -/
theorem cons_iff : Reading stream (line :: earlier) body ended rest ↔
    ∃ stream', stream = line ++ lineFeed :: stream' ∧ lineFeed ∉ line ∧ ¬Decides line ∧
      Reading stream' earlier body ended rest := by
  constructor
  · intro h
    have hline := h.undecided line List.mem_cons_self
    refine ⟨_, ?_, hline.1, hline.2, rfl, fun l hl => ?_, h.oneLine, h.last⟩
    · rw [h.lines, List.flatMap_cons, List.append_assoc, List.append_assoc]
      rfl
    · exact h.undecided l (List.mem_cons_of_mem line hl)
  · rintro ⟨stream', rfl, hline, hdecides, h⟩
    refine ⟨?_, fun l hl => ?_, h.oneLine, h.last⟩
    · rw [h.lines, List.flatMap_cons]
      simp only [List.append_assoc, List.cons_append, List.nil_append]
    · rcases List.mem_cons.mp hl with rfl | hl
      · exact ⟨hline, hdecides⟩
      · exact h.undecided l hl

/-- A reading that stops at the first line. -/
theorem nil_iff : Reading stream [] body ended rest ↔
    lineFeed ∉ body ∧ if ended then stream = body ++ lineFeed :: rest ∧ Decides body
      else stream = body ∧ rest = [] := by
  constructor
  · rintro ⟨hlines, -, hbody, hlast⟩
    refine ⟨hbody, ?_⟩
    split_ifs at hlines hlast ⊢
    · exact ⟨hlines.trans (List.append_assoc ..), hlast⟩
    · rw [hlast, List.append_nil, List.append_nil] at hlines
      exact ⟨hlines, hlast⟩
  · rintro ⟨hbody, hlast⟩
    split_ifs at hlast with hended
    · refine ⟨?_, nofun, hbody, ?_⟩
      · rw [hlast.1, if_pos hended, List.append_assoc]
        rfl
      · rw [if_pos hended]
        exact hlast.2
    · refine ⟨?_, nofun, hbody, ?_⟩
      · rw [hlast.1, hlast.2, if_neg hended, List.append_nil, List.append_nil]
        rfl
      · rw [if_neg hended]
        exact hlast.2

/-- A reading does not stop where another goes on. -/
theorem not_nil_of_cons (h : Reading stream [] body ended rest)
    (h' : Reading stream (line :: earlier') body' ended' rest') : False := by
  obtain ⟨stream', rfl, hline, hdecides, -⟩ := cons_iff.mp h'
  obtain ⟨hbody, hlast⟩ := nil_iff.mp h
  split_ifs at hlast
  · obtain ⟨rfl, -⟩ := first_line_unique hline hbody hlast.1
    exact hdecides hlast.2
  · rw [← hlast.1] at hbody
    exact hbody (List.mem_append_right line List.mem_cons_self)

/-- There is one way to read a stream. -/
theorem unique (h : Reading stream earlier body ended rest)
    (h' : Reading stream earlier' body' ended' rest') :
    earlier = earlier' ∧ body = body' ∧ ended = ended' ∧ rest = rest' := by
  induction earlier generalizing stream earlier' with
  | nil =>
    cases earlier' with
    | cons line' earlier' => exact (h.not_nil_of_cons h').elim
    | nil =>
      obtain ⟨hbody, hlast⟩ := nil_iff.mp h
      obtain ⟨hbody', hlast'⟩ := nil_iff.mp h'
      -- The body has no line feed, so it ends where the first one is.
      have hmem (l r : Bytes) : lineFeed ∈ l ++ lineFeed :: r :=
        List.mem_append_right l List.mem_cons_self
      cases ended with
      | true =>
        rw [if_pos rfl] at hlast
        cases ended' with
        | true =>
          rw [if_pos rfl] at hlast'
          obtain ⟨rfl, rfl⟩ := first_line_unique hbody hbody' (hlast.1.symm.trans hlast'.1)
          exact ⟨rfl, rfl, rfl, rfl⟩
        | false =>
          rw [← hlast'.1, hlast.1] at hbody'
          exact absurd (hmem body rest) hbody'
      | false =>
        rw [if_neg Bool.false_ne_true] at hlast
        cases ended' with
        | true =>
          rw [if_pos rfl] at hlast'
          rw [← hlast.1, hlast'.1] at hbody
          exact absurd (hmem body' rest') hbody
        | false =>
          rw [if_neg Bool.false_ne_true] at hlast'
          exact ⟨rfl, hlast.1.symm.trans hlast'.1, rfl, hlast.2.trans hlast'.2.symm⟩
  | cons line earlier ih =>
    -- The first lines are the same, and so are the rests.
    cases earlier' with
    | nil => exact (h'.not_nil_of_cons h).elim
    | cons line' earlier' =>
      obtain ⟨stream', rfl, hline, -, hrest⟩ := cons_iff.mp h
      obtain ⟨stream'', hstream, hline', -, hrest'⟩ := cons_iff.mp h'
      obtain ⟨rfl, rfl⟩ := first_line_unique hline hline' hstream
      obtain ⟨rfl, hsame⟩ := ih hrest hrest'
      exact ⟨rfl, hsame⟩

end Reading

/-! ## One answer -/

/-- What `readAnswer` has read: a line, or all that was left. -/
theorem readAnswer_spec {input : BufferedReader UInt8 ε} (hplain : input.source.Plain) :
    ∃ body, lineFeed ∉ body ∧ (readAnswer input).2.2.source.Plain ∧
      input.left = body ++ (if (readAnswer input).2.1 then [lineFeed] else []) ++
        (readAnswer input).2.2.left ∧
      ((readAnswer input).2.1 = false → (readAnswer input).2.2.left = []) ∧
      isYes (readAnswer input).1 = isYes body.head? ∧ isNo (readAnswer input).1 = isNo body.head? := by
  obtain ⟨hleft, hend, hplain'⟩ := BufferedReader.readByte_spec hplain
  unfold readAnswer
  cases hread : input.readByte with
  | mk byte input' =>
    rw [hread] at hleft hend hplain'
    cases byte with
    | none =>
      -- the end of the input
      refine ⟨[], List.not_mem_nil, hplain', hleft, fun _ => ?_, rfl, rfl⟩
      exact hleft.symm.trans (hend rfl)
    | some first =>
      change input.left = first :: input'.left at hleft
      simp only
      by_cases hfeed : first = lineFeed
      · -- an empty line
        rw [if_pos hfeed]
        refine ⟨[], List.not_mem_nil, hplain', ?_, nofun, ?_, ?_⟩
        · rw [hleft, hfeed]
          rfl
        · rw [hfeed]
          rfl
        · rw [hfeed]
          rfl
      · rw [if_neg hfeed]
        obtain ⟨before, hbefore, hplain'', hskip⟩ :=
          BufferedReader.skipPast_spec (r := input') hplain' lineFeed
        refine ⟨first :: before, ?_, hplain'', ?_, ?_, rfl, rfl⟩
        · intro hmem
          rcases List.mem_cons.mp hmem with hfirst | hmem
          · exact hfeed hfirst.symm
          · exact hbefore hmem
        · rw [hleft]
          split_ifs at hskip ⊢
          · rw [hskip]
            rfl
          · rw [hskip.1, hskip.2, List.append_nil, List.append_nil]
        · intro hended
          simp only at hended
          rw [hended, if_neg Bool.false_ne_true] at hskip
          exact hskip.2

/-! ## The loop -/

/-- **Run lemma**: the loop asks for one line after another, up to one that decides. -/
theorem askLoop_spec (asking : List (WriterCall UInt8)) {input : BufferedReader UInt8 ε}
    (hplain : input.source.Plain) :
    ∃ earlier body ended, Reading input.left earlier body ended (askLoop asking input).input.left ∧
      ((askLoop asking input).goAhead = true ↔ Agrees body) ∧
      (askLoop asking input).asked = List.replicate (earlier.length + 1) asking := by
  fun_induction askLoop asking input with
  | case1 input first input' hyes =>
    -- The answer is yes.
    obtain ⟨body, hbody, -, hleft, hend, hfirst, -⟩ := readAnswer_spec hplain
    refine ⟨[], body, _, ⟨hleft, nofun, hbody, ?_⟩, ?_, rfl⟩
    · split_ifs with hended
      · exact .inl (hfirst ▸ hyes)
      · exact hend (Bool.eq_false_iff.mpr hended)
    · exact iff_of_true rfl (hfirst.symm.trans hyes)
  | case2 input first lineEnded input' hyes hno =>
    -- It is no, or the input has ended.
    obtain ⟨body, hbody, -, hleft, hend, hfirst, hfirst'⟩ := readAnswer_spec hplain
    refine ⟨[], body, _, ⟨hleft, nofun, hbody, ?_⟩, ?_, rfl⟩
    · split_ifs with hended
      · rcases hno with hno | hnone
        · exact .inr (hfirst' ▸ hno)
        · exact absurd hended (Bool.eq_false_iff.mp hnone)
      · exact hend (Bool.eq_false_iff.mpr hended)
    · refine iff_of_false Bool.false_ne_true ?_
      rw [Agrees, ← hfirst]
      exact hyes
  | case3 input first lineEnded input' hyes hno verdict ih =>
    -- It is neither, and is asked for again.
    obtain ⟨line, hline, hplain', hleft, -, hfirst, hfirst'⟩ := readAnswer_spec hplain
    obtain ⟨earlier, body, ended, hreading, hverdict, hasked⟩ := ih hplain'
    obtain ⟨hno, hended⟩ := not_or.mp hno
    refine ⟨line :: earlier, body, ended, ?_, hverdict, ?_⟩
    · refine Reading.cons_iff.mpr ⟨input'.left, ?_, hline, ?_, hreading⟩
      · rw [hleft, if_pos (Bool.not_eq_false _ ▸ hended), List.append_assoc]
        rfl
      · rw [Decides, ← hfirst, ← hfirst']
        exact not_or.mpr ⟨hyes, hno⟩
    · change asking :: verdict.asked = _
      rw [hasked]
      rfl

/-! ## The function -/

/-- The loop over the operands adds to what it has counted. -/
theorem foldl_add (operands : List Operand) (c : Counts) :
    (operands.foldl Counts.add c).dirs = c.dirs + operands.countP (·.isDir = some true) ∧
      (operands.foldl Counts.add c).files = c.files + operands.countP (·.isDir = some false) := by
  induction operands generalizing c with
  | nil => exact ⟨rfl, rfl⟩
  | cons operand operands ih =>
    obtain ⟨hdirs, hfiles⟩ := ih (c.add operand)
    rw [List.foldl_cons, hdirs, hfiles, List.countP_cons, List.countP_cons]
    obtain ⟨path, isDir⟩ := operand
    match isDir with
    | none => exact ⟨rfl, rfl⟩
    | some true =>
      exact ⟨by simp only [Counts.add]; simp; omega, rfl⟩
    | some false =>
      exact ⟨rfl, by simp only [Counts.add]; simp; omega⟩

/-- Every operand that exists is a directory or another file. -/
theorem countP_exists (operands : List Operand) :
    operands.countP (·.isDir.isSome) =
      operands.countP (·.isDir = some true) + operands.countP (·.isDir = some false) := by
  induction operands with
  | nil => rfl
  | cons operand operands ih =>
    rw [List.countP_cons, List.countP_cons, List.countP_cons, ih]
    obtain ⟨path, isDir⟩ := operand
    match isDir with
    | none => rfl
    | some true => simp; omega
    | some false => simp; omega

/-- There is nothing to ask: no directory under `-r`, and at most three operands exist. -/
def Silent (operands : List Operand) (recursive : Bool) : Prop :=
  ¬(recursive = true ∧ ∃ operand ∈ operands, operand.isDir = some true) ∧
    operands.countP (·.isDir.isSome) ≤ 3

theorem silent_iff (operands : List Operand) (recursive : Bool) :
    Silent operands recursive ↔
      (recursive && decide (0 < (countOperands operands).dirs)) = false ∧
        (countOperands operands).dirs + (countOperands operands).files ≤ kMaxSilentOperands := by
  obtain ⟨hdirs, hfiles⟩ := foldl_add operands {}
  change (countOperands operands).dirs = 0 + _ at hdirs
  change (countOperands operands).files = 0 + _ at hfiles
  rw [Silent, hdirs, hfiles, Nat.zero_add, Nat.zero_add, countP_exists]
  refine and_congr ?_ Iff.rfl
  rw [← Bool.not_eq_true, Bool.and_eq_true, decide_eq_true_iff, List.countP_pos_iff]
  simp only [decide_eq_true_iff]

/-- **The `-I` question.**  Nothing is asked or read when there is nothing to ask.  Otherwise
    standard input is read as lines, up to the first one that decides or is not ended: the
    answer is yes exactly if that line starts with `y` or `Y`, there is one question for each
    line, and standard input goes on after it. -/
theorem prompt_once (operands : List Operand) (recursive : Bool) (input : BufferedReader UInt8 ε)
    (hplain : input.source.Plain) :
    let verdict := confirmPromptOnce operands recursive input
    (Silent operands recursive → verdict = ⟨true, [], input⟩) ∧
      (¬Silent operands recursive →
        (∃ earlier body ended, Reading input.left earlier body ended verdict.input.left ∧
          verdict.asked = List.replicate (earlier.length + 1)
            (question (recursive && 0 < (countOperands operands).dirs) (countOperands operands))) ∧
        (verdict.goAhead = true ↔
          ∃ earlier body ended rest, Reading input.left earlier body ended rest ∧ Agrees body)) := by
  intro verdict
  rw [silent_iff]
  constructor
  · intro hsilent
    exact if_pos hsilent
  · intro hasks
    have hverdict : verdict = askLoop _ input := if_neg hasks
    rw [hverdict]
    obtain ⟨earlier, body, ended, hreading, hyes, hasked⟩ := askLoop_spec _ hplain
    refine ⟨⟨earlier, body, ended, hreading, hasked⟩, ?_⟩
    rw [hyes]
    constructor
    · exact fun h => ⟨earlier, body, ended, _, hreading, h⟩
    · rintro ⟨earlier', body', ended', rest', hreading', h⟩
      obtain ⟨-, hbody, -⟩ := hreading.unique hreading'
      exact hbody ▸ h

/-- Four files, and the input `"x\nyes\nrest"` in chunks of three bytes. -/
theorem prompt_once_yes :
    let file : Operand := ⟨text "f", some false⟩
    let source : Source UInt8 Empty := ⟨text "x\nyes\nrest", fun _ => .ok 3, 0⟩
    let input := BufferedReader.new source 4096 (Nat.succ_pos _)
    (confirmPromptOnce [file, file, file, file] false input).goAhead = true := by
  intro file source input
  have hverdict := prompt_once [file, file, file, file] false input fun _ => ⟨3, rfl⟩
  refine (hverdict.2 ?_).2.mpr ⟨[text "x"], text "yes", true, text "rest", ?_, rfl⟩
  · exact fun hsilent => absurd hsilent.2 (by decide)
  · exact ⟨rfl, by unfold Decides; decide, by decide, .inl rfl⟩

end Remmy.CommandLine
