import Remmy.Os.Errno
import Mathlib.Data.List.Basic
import Mathlib.Tactic.SplitIfs

/-!
# Directory Entries

`DirEntries` of `os.hpp`: the entries of one directory, read in blocks through a buffer, as a
range whose state is shared by the end test, the dereference, the step and the refill.

- The results of `getdirentries64` are a list, which may end before the range does.
- A record is looked up by its offset; that there is none at an offset is an outcome of its own.
- `directory_iteration` says which elements the range has, and that it ends.
-/

namespace Remmy.Os

universe u

/-! ## What the kernel delivers -/

/-- A `RawDirent`, which starts on a `Word` of `word` bytes. -/
structure Dirent (ρ : Type u) (word : ℕ) where
  content : ρ
  /-- `d_reclen`. -/
  reclen : ℕ
  reclen_pos : 0 < reclen
  aligned : word ∣ reclen

variable {ρ : Type u} {word size : ℕ}

/-- How many bytes packed records take. -/
def bytesOf : List (Dirent ρ word) → ℕ
  | [] => 0
  | record :: records => record.reclen + bytesOf records

/-- A block of packed records, no larger than the buffer. -/
structure DirBlock (ρ : Type u) (word size : ℕ) where
  records : List (Dirent ρ word)
  fits : bytesOf records ≤ size

/-- A result of `getdirentries64`: a block, which is empty at the end, or `errno`. -/
inductive DirResult (ρ : Type u) (word size : ℕ)
  | block (block : DirBlock ρ word size)
  | error (code : Errno)

/-! ## The range -/

/-- `DirEntries`, with the results that the next calls of `getdirentries64` will have. -/
structure DirEntries (ρ : Type u) (word size : ℕ) where
  results : List (DirResult ρ word size)
  /-- The records in the filled part of the buffer. -/
  filled : List (Dirent ρ word) := []
  offset : ℕ := 0
  error : Errno := .other 0
  failed : Bool := false

/-- How the range ends: `AtEnd`, or with a call that does not return, or with a read of the
    buffer where no record starts; or it was not followed that far. -/
inductive DirOutcome
  | ended
  | waiting
  | misread
  | unfinished
  deriving DecidableEq

/-- The record that starts at this byte of the filled part. -/
def recordAt : List (Dirent ρ word) → ℕ → Option (Dirent ρ word)
  | [], _ => none
  | record :: _, 0 => some record
  | record :: records, offset + 1 =>
    if record.reclen ≤ offset + 1 then recordAt records (offset + 1 - record.reclen) else none

namespace DirEntries

/-- The loop of `Fill`, over the results that are left; `none` if the last call does not return. -/
def fillLoop (entries : DirEntries ρ word size) :
    List (DirResult ρ word size) → Option (DirEntries ρ word size)
  | [] => none
  | .block block :: results =>
    some { entries with results := results, filled := block.records, offset := 0 }
  | .error code :: results =>
    -- a signal is not the end of the directory
    if code = .eintr then fillLoop entries results
    else some ⟨results, [], 0, code, true⟩

/-- `Fill`. -/
def fill (entries : DirEntries ρ word size) : Option (DirEntries ρ word size) :=
  entries.fillLoop entries.results

/-- `AtEnd`. -/
def atEnd (entries : DirEntries ρ word size) : Bool :=
  !entries.failed && bytesOf entries.filled ≤ entries.offset

/-- `CurrentEntry`, which steps in `Word`s. -/
def currentEntry (entries : DirEntries ρ word size) : Option (Dirent ρ word) :=
  recordAt entries.filled (entries.offset / word * word)

/-- `Current`. -/
def current (entries : DirEntries ρ word size) : Option (Except Errno (Dirent ρ word)) :=
  if entries.failed then some (.error entries.error) else entries.currentEntry.map .ok

/-- `Advance`. -/
def advance (entries : DirEntries ρ word size) : Except DirOutcome (DirEntries ρ word size) :=
  if entries.failed then .ok { entries with failed := false, filled := [], offset := 0 }
  else
    match entries.currentEntry with
    | none => .error .misread
    | some record =>
      let entries := { entries with offset := entries.offset + record.reclen }
      if bytesOf entries.filled ≤ entries.offset then
        match entries.fill with
        | none => .error .waiting
        | some entries => .ok entries
      else .ok entries

/-- `for (const auto& element : entries)`, for this many elements at most. -/
def iterate : ℕ → DirEntries ρ word size → List (Except Errno (Dirent ρ word)) × DirOutcome
  | 0, _ => ([], .unfinished)
  | fuel + 1, entries =>
    if entries.atEnd then ([], .ended)
    else
      match entries.current with
      | none => ([], .misread)
      | some element =>
        match entries.advance with
        | .error outcome => ([element], outcome)
        | .ok entries =>
          let (elements, outcome) := iterate fuel entries
          (element :: elements, outcome)

/-- The range after a refill. -/
def resume (fuel : ℕ) : Option (DirEntries ρ word size) →
    List (Except Errno (Dirent ρ word)) × DirOutcome
  | none => ([], .waiting)
  | some entries => iterate fuel entries

/-- `DirReader::Read`, which fills the buffer, and a loop over the range. -/
def read (fuel : ℕ) (results : List (DirResult ρ word size)) :
    List (Except Errno (Dirent ρ word)) × DirOutcome :=
  resume fuel (fill { results := results })

end DirEntries

/-! ## One block -/

@[simp] theorem bytesOf_nil : bytesOf ([] : List (Dirent ρ word)) = 0 := rfl

@[simp] theorem bytesOf_cons (record : Dirent ρ word) (records : List (Dirent ρ word)) :
    bytesOf (record :: records) = record.reclen + bytesOf records := rfl

@[simp] theorem bytesOf_append (l r : List (Dirent ρ word)) :
    bytesOf (l ++ r) = bytesOf l + bytesOf r := by
  induction l with
  | nil => exact (Nat.zero_add _).symm
  | cons record l ih => rw [List.cons_append, bytesOf_cons, bytesOf_cons, ih, Nat.add_assoc]

/-- Packed records of aligned lengths start on a `Word`. -/
theorem dvd_bytesOf (records : List (Dirent ρ word)) : word ∣ bytesOf records := by
  induction records with
  | nil => exact Nat.dvd_zero word
  | cons record records ih =>
    rw [bytesOf_cons]
    exact Nat.dvd_add record.aligned ih

/-- Behind the records `done` starts the next one. -/
theorem recordAt_append (done : List (Dirent ρ word)) (record : Dirent ρ word)
    (todo : List (Dirent ρ word)) :
    recordAt (done ++ record :: todo) (bytesOf done) = some record := by
  induction done with
  | nil => rfl
  | cons first done ih =>
    obtain ⟨offset, hoffset⟩ : ∃ offset, bytesOf (first :: done) = offset + 1 := by
      have hpos := first.reclen_pos
      exact ⟨bytesOf (first :: done) - 1, by rw [bytesOf_cons]; omega⟩
    have hrest : offset + 1 - first.reclen = bytesOf done := by
      rw [← hoffset, bytesOf_cons, Nat.add_sub_cancel_left]
    have hle : first.reclen ≤ offset + 1 := by
      rw [← hoffset, bytesOf_cons]
      exact Nat.le_add_right ..
    rw [hoffset, List.cons_append, recordAt, if_pos hle, hrest, ih]

namespace DirEntries

variable {entries entries' : DirEntries ρ word size} {done todo : List (Dirent ρ word)}
  {record : Dirent ρ word}

/-- The records `done` of the block are behind the iterator, and `todo` are to come. -/
structure At (entries : DirEntries ρ word size) (done todo : List (Dirent ρ word)) : Prop where
  filled : entries.filled = done ++ todo
  offset : entries.offset = bytesOf done
  failed : entries.failed = false

/-- The dereference gives the next record. -/
theorem At.currentEntry (h : entries.At done (record :: todo)) :
    entries.currentEntry = some record := by
  rw [DirEntries.currentEntry, h.offset, h.filled, Nat.div_mul_cancel (dvd_bytesOf done)]
  exact recordAt_append done record todo

theorem At.current (h : entries.At done (record :: todo)) :
    entries.current = some (.ok record) := by
  rw [DirEntries.current, h.failed, if_neg Bool.false_ne_true, h.currentEntry]
  rfl

theorem At.not_atEnd (h : entries.At done (record :: todo)) : entries.atEnd = false := by
  have hpos := record.reclen_pos
  rw [atEnd, h.failed, h.filled, h.offset, bytesOf_append, bytesOf_cons]
  simp only [Bool.not_false, Bool.true_and, decide_eq_false_iff_not]
  omega

/-- A refill depends on the results alone, and on whether the range has failed. -/
theorem fillLoop_congr (herror : entries.error = entries'.error)
    (hfailed : entries.failed = entries'.failed) (results : List (DirResult ρ word size)) :
    entries.fillLoop results = entries'.fillLoop results := by
  induction results with
  | nil => rfl
  | cons result results ih =>
    cases result with
    | block block => rw [fillLoop, fillLoop, herror, hfailed]
    | error code => rw [fillLoop, fillLoop, ih]

theorem fill_offset (entries : DirEntries ρ word size) (offset : ℕ) :
    ({ entries with offset := offset } : DirEntries ρ word size).fill = entries.fill := by
  apply fillLoop_congr <;> rfl

/-- The step goes to the next record of the block, or refills the buffer behind the last one. -/
theorem At.advance (h : entries.At done (record :: todo)) :
    entries.advance =
      if todo = [] then
        match entries.fill with
        | none => .error .waiting
        | some entries => .ok entries
      else .ok { entries with offset := entries.offset + record.reclen } := by
  have hfailed : ¬entries.failed = true := by
    rw [h.failed]
    exact Bool.false_ne_true
  rw [DirEntries.advance, if_neg hfailed, h.currentEntry]
  simp only [fill_offset]
  congr 1
  rw [h.filled, h.offset, bytesOf_append, bytesOf_cons, eq_iff_iff]
  cases todo with
  | nil => simp
  | cons next todo =>
    have hpos := next.reclen_pos
    simp only [bytesOf_cons, List.cons_ne_nil, iff_false]
    omega

/-- **A block**: its records one after another, and then what a refill brings. -/
theorem iterate_block (h : entries.At done (record :: todo)) (fuel : ℕ) :
    iterate (todo.length + 1 + fuel) entries =
      ((record :: todo).map .ok ++ (resume fuel entries.fill).1, (resume fuel entries.fill).2) := by
  induction todo generalizing entries done record with
  | nil =>
    rw [List.length_nil, Nat.zero_add, Nat.add_comm, iterate, h.not_atEnd,
      if_neg Bool.false_ne_true, h.current, h.advance, if_pos rfl]
    cases entries.fill with
    | none => rfl
    | some entries => rfl
  | cons next todo ih =>
    have hnext : ({ entries with offset := entries.offset + record.reclen } :
        DirEntries ρ word size).At (done ++ [record]) (next :: todo) := by
      refine ⟨?_, ?_, h.failed⟩
      · rw [h.filled, List.append_assoc]
        rfl
      · simp [h.offset]
    have hrest := ih hnext
    rw [fill_offset] at hrest
    rw [List.length_cons, Nat.add_right_comm _ 1 fuel, iterate, h.not_atEnd,
      if_neg Bool.false_ne_true, h.current, h.advance, if_neg (List.cons_ne_nil _ _)]
    simp only [hrest]
    rfl

end DirEntries

/-! ## The whole range -/

/-- The records of a result. -/
def DirResult.records : DirResult ρ word size → List (Dirent ρ word)
  | block b => b.records
  | error _ => []

/-- After this result the directory is read on: it was a block with a record, or a signal. -/
def DirResult.GoesOn : DirResult ρ word size → Prop
  | block b => b.records ≠ []
  | error code => code = .eintr

/-- The element that reports this result, if it is an error. -/
def DirResult.report : DirResult ρ word size → List (Except Errno (Dirent ρ word))
  | block _ => []
  | error code => [.error code]

namespace DirEntries

variable {entries : DirEntries ρ word size} {stop : DirResult ρ word size}

/-- A result that ends the range: nothing more, or one error and then nothing more. -/
theorem resume_stop (hfailed : entries.failed = false) (hstop : ¬stop.GoesOn)
    (results : List (DirResult ρ word size)) (fuel : ℕ) :
    resume (fuel + 2) (entries.fillLoop (stop :: results)) = (stop.report, .ended) := by
  cases stop with
  | block b =>
    have hnone : b.records = [] := not_not.mp hstop
    rw [fillLoop, hnone, resume, iterate]
    have hend : ({ entries with results := results, filled := [], offset := 0 } :
        DirEntries ρ word size).atEnd = true := by
      simp [atEnd, hfailed]
    rw [if_pos hend]
    rfl
  | error code =>
    rw [fillLoop, if_neg (show ¬code = .eintr from hstop)]
    rfl

/-- **Run lemma**: the elements after a refill, by induction on the results. -/
theorem resume_fill (hfailed : entries.failed = false) (before : List (DirResult ρ word size))
    (hbefore : ∀ result ∈ before, result.GoesOn) (after : List (DirResult ρ word size))
    {tail : List (Except Errno (Dirent ρ word)) × DirOutcome} {enough : ℕ}
    (htail : ∀ entries : DirEntries ρ word size, entries.failed = false → ∀ fuel, enough ≤ fuel →
      resume fuel (entries.fillLoop after) = tail) (fuel : ℕ)
    (hfuel : (before.flatMap DirResult.records).length + enough ≤ fuel) :
    resume fuel (entries.fillLoop (before ++ after)) =
      ((before.flatMap DirResult.records).map .ok ++ tail.1, tail.2) := by
  induction before generalizing entries fuel with
  | nil =>
    have hle : enough ≤ fuel := by simpa using hfuel
    exact htail entries hfailed fuel hle
  | cons result before ih =>
    have hrest : ∀ result ∈ before, result.GoesOn := fun result hresult =>
      hbefore result (List.mem_cons_of_mem _ hresult)
    rw [List.flatMap_cons, List.length_append] at hfuel
    cases result with
    | error code =>
      -- a signal, which nobody sees
      have hsignal : code = .eintr := hbefore _ List.mem_cons_self
      have hfuel' : (before.flatMap DirResult.records).length + enough ≤ fuel := by
        simpa [DirResult.records] using hfuel
      rw [List.cons_append, fillLoop, if_pos hsignal]
      exact ih hfailed hrest fuel hfuel'
    | block b =>
      obtain ⟨record, todo, hrecords⟩ := List.exists_cons_of_ne_nil (hbefore _ List.mem_cons_self)
      change b.records = record :: todo at hrecords
      have hcount : (DirResult.block b).records.length = todo.length + 1 := by
        rw [DirResult.records, hrecords]
        rfl
      obtain ⟨fuel', rfl⟩ := Nat.exists_eq_add_of_le (show todo.length + 1 ≤ fuel by omega)
      rw [List.cons_append, fillLoop, resume]
      let filled : DirEntries ρ word size :=
        { entries with results := before ++ after, filled := b.records, offset := 0 }
      have hat : filled.At [] (record :: todo) := ⟨hrecords, rfl, hfailed⟩
      change iterate (todo.length + 1 + fuel') filled = _
      have hagain : filled.failed = false := hfailed
      have hnext : resume fuel' filled.fill =
          ((before.flatMap DirResult.records).map .ok ++ tail.1, tail.2) :=
        ih hagain hrest fuel' (by omega)
      rw [iterate_block hat, hnext, List.flatMap_cons, List.map_append, List.append_assoc,
        DirResult.records, hrecords]

/-- **Directory iteration yields every record once.**  For results that go on and then one that
    does not, the range has exactly the records of the blocks before it, in order, then one
    error element if it is an error, and then ends; and as long as all results go on, it has
    their records and waits for the next.  No outcome is a read where no record starts. -/
theorem directory_iteration (before : List (DirResult ρ word size))
    (hbefore : ∀ result ∈ before, result.GoesOn) :
    (∀ (stop : DirResult ρ word size) (later : List (DirResult ρ word size)), ¬stop.GoesOn →
      ∃ enough, ∀ fuel, enough ≤ fuel → read fuel (before ++ stop :: later) =
        ((before.flatMap DirResult.records).map .ok ++ stop.report, .ended)) ∧
      ∃ enough, ∀ fuel, enough ≤ fuel → read fuel before =
        ((before.flatMap DirResult.records).map .ok, .waiting) := by
  constructor
  · intro stop later hstop
    refine ⟨(before.flatMap DirResult.records).length + 2, fun fuel hfuel => ?_⟩
    have hstart : ({ results := before ++ stop :: later } : DirEntries ρ word size).failed = false :=
      rfl
    have hstops : ∀ entries : DirEntries ρ word size, entries.failed = false → ∀ fuel, 2 ≤ fuel →
        resume fuel (entries.fillLoop (stop :: later)) = (stop.report, .ended) := by
      intro entries hfailed fuel hfuel
      obtain ⟨fuel', rfl⟩ := Nat.exists_eq_add_of_le' hfuel
      exact resume_stop hfailed hstop later fuel'
    exact resume_fill hstart before hbefore (stop :: later) hstops fuel hfuel
  · refine ⟨(before.flatMap DirResult.records).length, fun fuel hfuel => ?_⟩
    have hstart : ({ results := before } : DirEntries ρ word size).failed = false := rfl
    have hwaits : ∀ entries : DirEntries ρ word size, entries.failed = false → ∀ fuel, 0 ≤ fuel →
        resume fuel (entries.fillLoop []) = ([], .waiting) := fun _ _ _ _ => rfl
    have hall := resume_fill hstart before hbefore [] hwaits fuel hfuel
    rw [List.append_nil, List.append_nil] at hall
    exact hall

/-- Two records in a block, a signal, and then an error. -/
theorem directory_iteration_error :
    let entry : Dirent ℕ 8 := ⟨0, 24, by decide, by decide⟩
    let block : DirResult ℕ 8 64 := .block ⟨[entry, entry], by decide⟩
    ∃ fuel, read fuel [block, .error .eintr, .error .enoent] =
      ([.ok entry, .ok entry, .error .enoent], .ended) := by
  intro entry block
  have hbefore : ∀ result ∈ [block, .error .eintr], result.GoesOn := by
    intro result hresult
    rcases List.mem_cons.mp hresult with rfl | hresult
    · exact List.cons_ne_nil _ _
    · rw [List.mem_singleton.mp hresult]
      exact rfl
  have hstop : ¬(DirResult.error .enoent : DirResult ℕ 8 64).GoesOn := nofun
  obtain ⟨enough, hread⟩ := (directory_iteration [block, .error .eintr] hbefore).1 _ [] hstop
  exact ⟨enough, hread enough (Nat.le_refl _)⟩

end DirEntries

end Remmy.Os
