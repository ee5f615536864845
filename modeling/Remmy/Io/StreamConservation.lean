import Remmy.Io.BufferedWriter

/-!
# `BufferedWriter` Conserves the Stream

A `BufferedWriter` in front of a writer whose calls may fail: every call of a member function,
in any order, against any behaviour of the writer behind it.

`stream_conserved` says that nothing is lost, repeated or reordered as long as the writer
behind succeeds, and that after a failure the buffer starts afresh.
-/

namespace Remmy.Io

universe u v

/-- A call of a member function; `move` is a move into a new object, after which the old one is
    destroyed. -/
inductive WriterCall (α : Type u)
  | write (sv : List α)
  | writeMany (pieces : Pieces α)
  | flush
  | move

/-- The pieces given in a call. -/
def WriterCall.pieces {α : Type u} : WriterCall α → Pieces α
  | write sv => [sv]
  | writeMany pieces => pieces
  | flush | move => []

/-- The calls on the writer behind the buffer so far, each with its error if it failed. -/
abbrev Log (α : Type u) (ε : Type v) := List (Pieces α × Option ε)

/-- The writer behind the buffer: what it says to a call, after these calls. -/
abbrev Behind (α : Type u) (ε : Type v) := Log α ε → Pieces α → Option ε

/-- The buffer and what it has passed on. -/
structure Stream (α : Type u) (ε : Type v) where
  buffer : BufferedWriter α
  log : Log α ε

variable {α : Type u} {ε : Type v}

/-- Pass these calls on, up to the first failure: `and_then`. -/
def deliver (behind : Behind α ε) : List (Pieces α) → Log α ε → Option ε × Log α ε
  | [], log => (none, log)
  | request :: requests, log =>
    match behind log request with
    | none => deliver behind requests (log ++ [(request, none)])
    | some error => (some error, log ++ [(request, some error)])

namespace Stream

/-- A member function that leaves this buffer and passes these calls on. -/
def finish (behind : Behind α ε) (s : Stream α ε) (r : BufferedWriter α × List (Pieces α)) {ρ : Type}
    (result : ρ) : Except ε ρ × Stream α ε :=
  let (error, log) := deliver behind r.2 s.log
  (match error with
    | none => .ok result
    | some error => .error error, ⟨r.1, log⟩)

/-- A call of a member function; `Write` gives back the number of bytes. -/
def perform (hasConcat : Bool) (behind : Behind α ε) (s : Stream α ε) :
    WriterCall α → Except ε (Option ℕ) × Stream α ε
  | .write sv => s.finish behind (s.buffer.writeMany hasConcat [sv]) (some sv.length)
  | .writeMany pieces => s.finish behind (s.buffer.writeMany hasConcat pieces) none
  | .flush => s.finish behind s.buffer.flush none
  | .move =>
    -- `~BufferedWriter()` of the old object flushes, and ignores the result
    let (buffer, old) := s.buffer.move
    (.ok none, ⟨buffer, (deliver behind old.flush.2 s.log).2⟩)

/-- Calls one after another. -/
def run (hasConcat : Bool) (behind : Behind α ε) (s : Stream α ε) (calls : List (WriterCall α)) :
    Stream α ε :=
  calls.foldl (fun s call => (s.perform hasConcat behind call).2) s

/-- A new object. -/
def new (capacity : ℕ) : Stream α ε := ⟨.empty capacity, []⟩

end Stream

/-- The bytes passed on in these calls. -/
def passed (log : Log α ε) : List α := log.flatMap fun entry => entry.1.flatten

/-- The bytes given in these calls. -/
def given (calls : List (WriterCall α)) : List α := calls.flatMap fun call => call.pieces.flatten

/-! ## One call -/

namespace BufferedWriter

variable {b : BufferedWriter α} {pieces : Pieces α} {hasConcat : Bool}

@[simp] theorem size_flush : b.flush.1.size = b.size := by
  unfold flush
  split_ifs <;> rfl

@[simp] theorem size_writeMany : (b.writeMany hasConcat pieces).1.size = b.size := by
  unfold writeMany
  split_ifs
  · rfl
  · rfl
  · exact size_flush

/-- `Flush` leaves an empty buffer, also when there is nothing to do. -/
theorem fst_flush (b : BufferedWriter α) : b.flush.1 = b.cleared := by
  obtain ⟨size, buffered, hle⟩ := b
  unfold flush
  split_ifs with hused
  · obtain rfl : buffered = [] := buffered_of_used hused
    rfl
  · rfl

/-- Both variants leave the same buffer. -/
theorem writeMany_variants : (b.writeMany true pieces).1 = (b.writeMany false pieces).1 := by
  by_cases hroom : total pieces ≤ b.size - b.used
  · simp [writeMany, hroom]
  · simp [writeMany, hroom, fst_flush]

/-- What passes something on leaves nothing behind. -/
theorem buffered_writeMany (h : (b.writeMany hasConcat pieces).2 ≠ []) :
    (b.writeMany hasConcat pieces).1.buffered = [] := by
  unfold writeMany at h ⊢
  split_ifs at h ⊢ with hroom
  · exact absurd rfl h
  · rfl
  · exact buffered_flush b

end BufferedWriter

theorem passed_append (log log' : Log α ε) : passed (log ++ log') = passed log ++ passed log' :=
  List.flatMap_append

theorem passed_cons (entry : Pieces α × Option ε) (log : Log α ε) :
    passed (entry :: log) = entry.1.flatten ++ passed log := List.flatMap_cons

/-- What `deliver` does: it passes on the calls up to the first failure, which it reports. -/
theorem deliver_spec (behind : Behind α ε) (requests : List (Pieces α)) (log : Log α ε) :
    ∃ fresh, (deliver behind requests log).2 = log ++ fresh ∧
      (∃ rest, requests.flatten.flatten = passed fresh ++ rest ∧
        ((deliver behind requests log).1 = none → rest = [])) ∧
      ∀ error, (deliver behind requests log).1 = some error ↔
        ∃ entry ∈ fresh, entry.2 = some error := by
  induction requests generalizing log with
  | nil => exact ⟨[], by simp [deliver], ⟨[], rfl, fun _ => rfl⟩, by simp [deliver]⟩
  | cons request requests ih =>
    rw [deliver]
    cases hbehind : behind log request with
    | none =>
      obtain ⟨fresh, hlog, ⟨rest, hrest, hdone⟩, herror⟩ := ih (log ++ [(request, none)])
      refine ⟨(request, none) :: fresh, ?_, ⟨rest, ?_, hdone⟩, ?_⟩
      · rw [hlog, List.append_assoc]
        rfl
      · rw [List.flatten_cons, List.flatten_append, hrest, passed_cons, List.append_assoc]
      · intro error
        rw [herror]
        simp
    | some error =>
      refine ⟨[(request, some error)], rfl, ⟨requests.flatten.flatten, ?_, nofun⟩, ?_⟩
      · rw [List.flatten_cons, List.flatten_append, passed_cons]
        simp [passed]
      · simp

/-- What a call does, whatever becomes of it. -/
structure Performs (s : Stream α ε) (bytes : List α) (error : Option ε) (s' : Stream α ε)
    (fresh : Log α ε) : Prop where
  size : s'.buffer.size = s.buffer.size
  log : s'.log = s.log ++ fresh
  /-- What is passed on or buffered comes from what was buffered and is given now. -/
  sublist : (passed fresh ++ s'.buffer.buffered).Sublist (s.buffer.buffered ++ bytes)
  success : error = none → passed fresh ++ s'.buffer.buffered = s.buffer.buffered ++ bytes
  failure : error ≠ none → s'.buffer.buffered = []
  reports : ∀ e, error = some e ↔ ∃ entry ∈ fresh, entry.2 = some e

/-- A member function that passes on and buffers in order, and leaves nothing behind if it passes
    something on. -/
theorem performs_deliver (behind : Behind α ε) (s : Stream α ε) {b : BufferedWriter α}
    {requests : List (Pieces α)} {bytes : List α} (hsize : b.size = s.buffer.size)
    (hbytes : requests.flatten.flatten ++ b.buffered = s.buffer.buffered ++ bytes)
    (hempty : requests ≠ [] → b.buffered = []) :
    ∃ fresh, Performs s bytes (deliver behind requests s.log).1
      ⟨b, (deliver behind requests s.log).2⟩ fresh := by
  obtain ⟨fresh, hlog, ⟨rest, hrest, hdone⟩, herror⟩ := deliver_spec behind requests s.log
  refine ⟨fresh, hsize, hlog, ?_, ?_, ?_, herror⟩
  · rw [← hbytes, hrest]
    exact (List.sublist_append_left ..).append (List.Sublist.refl _)
  · intro hnone
    rw [← hbytes, hrest, hdone hnone, List.append_nil]
  · intro hfailed
    apply hempty
    rintro rfl
    exact hfailed rfl

/-- The error that a call reports. -/
def errorOf {ρ : Type} : Except ε ρ → Option ε
  | .ok _ => none
  | .error error => some error

theorem errorOf_finish (behind : Behind α ε) (s : Stream α ε)
    (r : BufferedWriter α × List (Pieces α)) {ρ : Type} (result : ρ) :
    errorOf (s.finish behind r result).1 = (deliver behind r.2 s.log).1 := by
  rw [Stream.finish]
  generalize deliver behind r.2 s.log = delivered
  obtain ⟨error, log⟩ := delivered
  cases error <;> rfl

/-- **Step lemma**: what each call does. -/
theorem Stream.performs (hasConcat : Bool) (behind : Behind α ε) (s : Stream α ε)
    (call : WriterCall α) : ∃ fresh, Performs s call.pieces.flatten
      (errorOf (s.perform hasConcat behind call).1) (s.perform hasConcat behind call).2 fresh := by
  cases call with
  | write sv | writeMany pieces =>
    rw [perform, errorOf_finish]
    exact performs_deliver behind s BufferedWriter.size_writeMany
      (BufferedWriter.writeMany_bytes ..) BufferedWriter.buffered_writeMany
  | flush =>
    rw [perform, errorOf_finish]
    refine performs_deliver behind s BufferedWriter.size_flush ?_ fun _ =>
      BufferedWriter.buffered_flush _
    exact (BufferedWriter.flush_bytes _).trans (List.append_nil _).symm
  | move =>
    -- nothing is left in the object that was moved from
    exact ⟨[], rfl, (List.append_nil _).symm, by simp [passed, WriterCall.pieces, perform, BufferedWriter.move],
      by simp [passed, WriterCall.pieces, perform, BufferedWriter.move], by simp [perform, errorOf],
      by simp [perform, errorOf]⟩

/-! ## Many calls -/

/-- What calls one after another do. -/
structure Runs (s : Stream α ε) (bytes : List α) (s' : Stream α ε) (later : Log α ε) : Prop where
  size : s'.buffer.size = s.buffer.size
  log : s'.log = s.log ++ later
  sublist : (passed later ++ s'.buffer.buffered).Sublist (s.buffer.buffered ++ bytes)
  success : (∀ entry ∈ later, entry.2 = none) →
    passed later ++ s'.buffer.buffered = s.buffer.buffered ++ bytes

theorem given_cons (call : WriterCall α) (calls : List (WriterCall α)) :
    given (call :: calls) = call.pieces.flatten ++ given calls := List.flatMap_cons

/-- **Run lemma**, by induction on the calls. -/
theorem Stream.runs (hasConcat : Bool) (behind : Behind α ε) (s : Stream α ε)
    (calls : List (WriterCall α)) :
    ∃ later, Runs s (given calls) (s.run hasConcat behind calls) later := by
  induction calls generalizing s with
  | nil => exact ⟨[], rfl, (List.append_nil _).symm, by simp [passed, given, run],
      by simp [passed, given, run]⟩
  | cons call calls ih =>
    obtain ⟨fresh, hcall⟩ := s.performs hasConcat behind call
    obtain ⟨later, hrest⟩ := ih (s.perform hasConcat behind call).2
    refine ⟨fresh ++ later, hrest.size.trans hcall.size, ?_, ?_, ?_⟩
    · rw [← List.append_assoc, ← hcall.log]
      exact hrest.log
    · rw [passed_append, given_cons, List.append_assoc, ← List.append_assoc _ _ (given calls)]
      refine ((List.Sublist.refl _).append hrest.sublist).trans ?_
      rw [← List.append_assoc]
      exact hcall.sublist.append (List.Sublist.refl _)
    · intro hsuccess
      have hnone : errorOf (s.perform hasConcat behind call).1 = none := by
        cases herror : errorOf (s.perform hasConcat behind call).1 with
        | none => rfl
        | some error =>
          obtain ⟨entry, hentry, hfailed⟩ := (hcall.reports error).mp herror
          rw [hsuccess entry (List.mem_append_left _ hentry)] at hfailed
          cases hfailed
      have hlater := hrest.success fun entry hentry =>
        hsuccess entry (List.mem_append_right _ hentry)
      rw [passed_append, given_cons, List.append_assoc]
      calc passed fresh ++ (passed later ++ (s.run hasConcat behind (call :: calls)).buffer.buffered)
          = (passed fresh ++ (s.perform hasConcat behind call).2.buffer.buffered) ++ given calls := by
            rw [List.append_assoc, ← hlater]
            rfl
        _ = s.buffer.buffered ++ (call.pieces.flatten ++ given calls) := by
            rw [hcall.success hnone, List.append_assoc]

/-- Both variants leave the same buffer, whatever becomes of the calls behind it. -/
theorem Stream.buffer_variants (behind behind' : Behind α ε) {s s' : Stream α ε}
    (h : s.buffer = s'.buffer) (calls : List (WriterCall α)) :
    (s.run true behind calls).buffer = (s'.run false behind' calls).buffer := by
  induction calls generalizing s s' with
  | nil => exact h
  | cons call calls ih =>
    apply ih
    cases call with
    | write sv =>
      change (s.buffer.writeMany true [sv]).1 = (s'.buffer.writeMany false [sv]).1
      rw [h]
      exact BufferedWriter.writeMany_variants
    | writeMany pieces =>
      change (s.buffer.writeMany true pieces).1 = (s'.buffer.writeMany false pieces).1
      rw [h]
      exact BufferedWriter.writeMany_variants
    | flush => exact congrArg (fun b => b.flush.1) h
    | move => exact h

/-- **The stream is conserved.**  After any calls on a new object, moves included:
    - `used_` is at most the capacity;
    - if no call behind the buffer has failed, what was passed on and what is buffered are
      together all that was given, and both variants pass on the same;
    - a call behind the buffer that fails makes the call report its error and leaves the buffer
      empty, and what is passed on from then on comes from what is given from then on. -/
theorem stream_conserved (capacity : ℕ) (hasConcat : Bool) (behind : Behind α ε)
    (calls : List (WriterCall α)) :
    let s := (Stream.new capacity).run hasConcat behind calls
    s.buffer.used ≤ capacity ∧
    ((∀ entry ∈ s.log, entry.2 = none) → passed s.log ++ s.buffer.buffered = given calls ∧
      ∀ behind' : Behind α ε, let s' := (Stream.new capacity).run (!hasConcat) behind' calls
        (∀ entry ∈ s'.log, entry.2 = none) → passed s'.log = passed s.log) ∧
    ∀ call, ∃ fresh, (s.perform hasConcat behind call).2.log = s.log ++ fresh ∧
      (∀ error, errorOf (s.perform hasConcat behind call).1 = some error ↔
        ∃ entry ∈ fresh, entry.2 = some error) ∧
      (errorOf (s.perform hasConcat behind call).1 ≠ none →
        (s.perform hasConcat behind call).2.buffer.used = 0 ∧
        ∀ after, ∃ later,
          ((s.perform hasConcat behind call).2.run hasConcat behind after).log =
            (s.perform hasConcat behind call).2.log ++ later ∧
          (passed later).Sublist (given after)) := by
  intro s
  -- What is passed on and what is buffered, for either variant.
  have hall (hasConcat : Bool) (behind : Behind α ε) :
      (∀ entry ∈ ((Stream.new capacity).run hasConcat behind calls).log, entry.2 = none) →
        passed ((Stream.new capacity).run hasConcat behind calls).log ++
          ((Stream.new capacity).run hasConcat behind calls).buffer.buffered = given calls := by
    obtain ⟨later, hrun⟩ := (Stream.new capacity).runs hasConcat behind calls
    have hlog : ((Stream.new capacity).run hasConcat behind calls).log = later := hrun.log
    rw [hlog]
    exact hrun.success
  refine ⟨?_, fun hsuccess => ⟨hall hasConcat behind hsuccess, ?_⟩, ?_⟩
  · obtain ⟨later, hrun⟩ := (Stream.new capacity).runs hasConcat behind calls
    exact Nat.le_trans s.buffer.used_le (Nat.le_of_eq hrun.size)
  · intro behind' s' hsuccess'
    -- Both variants buffer the same, whatever is behind them.
    have hsame : s'.buffer = s.buffer := by
      cases hasConcat with
      | true => exact (Stream.buffer_variants behind behind' rfl calls).symm
      | false => exact Stream.buffer_variants behind' behind rfl calls
    have h := hall hasConcat behind hsuccess
    rw [← hall (!hasConcat) behind' hsuccess'] at h
    change passed s.log ++ s.buffer.buffered = passed s'.log ++ s'.buffer.buffered at h
    rw [hsame, List.append_cancel_right_eq] at h
    exact h.symm
  · intro call
    obtain ⟨fresh, hcall⟩ := s.performs hasConcat behind call
    refine ⟨fresh, hcall.log, hcall.reports, fun hfailed => ?_⟩
    -- The failure leaves nothing behind, so what follows comes from later calls.
    have hempty := hcall.failure hfailed
    refine ⟨by rw [BufferedWriter.used, hempty]; rfl, fun after => ?_⟩
    obtain ⟨later, hrun⟩ := (s.perform hasConcat behind call).2.runs hasConcat behind after
    have hsublist := hrun.sublist
    rw [hempty, List.nil_append] at hsublist
    exact ⟨later, hrun.log, (List.sublist_append_left ..).trans hsublist⟩

/-- A writer that fails at its first call: what was buffered is gone. -/
theorem stream_conserved_failed : ∃ later : Log ℕ Unit,
    (((Stream.new 2).run true (fun log _ => if log = [] then some () else none)
      [.write [1], .write [2, 3]]).run true (fun log _ => if log = [] then some () else none)
      [.write [4], .flush]).log = ([([[1], [2, 3]], some ())] : Log ℕ Unit) ++ later ∧
      (passed later).Sublist [4] := by
  obtain ⟨-, -, hfailed⟩ := stream_conserved 2 true
    (fun (log : Log ℕ Unit) _ => if log = [] then some () else none) [.write [1]]
  obtain ⟨fresh, -, -, hrest⟩ := hfailed (.write [2, 3])
  obtain ⟨-, hafter⟩ := hrest (by decide)
  exact hafter [.write [4], .flush]

end Remmy.Io
