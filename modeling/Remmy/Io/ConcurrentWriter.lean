import Remmy.Io.BufferedWriter
import Remmy.Lib.Merge
import Remmy.Lib.System

/-!
# `ConcurrentWriter`

Threads write through `Handle`s, each with a buffer of its own, and directly, to one buffer
behind a mutex (`MutexWriter`) in front of a writer that never fails, after
`concurrent_writer.hpp` and `mutex_writer.hpp`.

A step is what a thread does between two points at which others may come in: a member
function's work on a buffer that only it may use, `mutex_.lock()`, the work under the lock,
and each piece that the writer behind the buffers accepts.
-/

namespace Remmy.Io

open Remmy.Lib

universe u v

/-- A call of a member function of `MutexWriter`. -/
inductive Request (α : Type u)
  | writeMany (pieces : Pieces α)
  | flush

/-- Whose member function a thread is in: of the `ConcurrentWriter`, of a `Handle`, or the
    destructor of a `Handle`. -/
inductive Job
  | direct
  | handle (h : ℕ)
  | endHandle (h : ℕ)
  deriving DecidableEq

/-- The `Handle` that a thread uses. -/
def Job.uses : Job → Option ℕ
  | direct => none
  | handle h | endHandle h => some h

/-- Where a thread is. -/
inductive WriterPc (α : Type u)
  | idle
  /-- With these calls on the `MutexWriter` to make. -/
  | calling (job : Job) (todo : List (Request α))
  /-- The mutex is locked for this call. -/
  | locked (job : Job) (request : Request α) (todo : List (Request α))
  /-- What the writer behind the shared buffer is given is being written. -/
  | writing (job : Job) (todo : List (Request α))
  /-- The same in the destructor of the `ConcurrentWriter`. -/
  | ending

namespace WriterPc

variable {α : Type u}

/-- The member function that a thread is in. -/
def job : WriterPc α → Option Job
  | idle | ending => none
  | calling job _ | locked job _ _ | writing job _ => some job

/-- The `Handle` that a thread uses. -/
def uses (pc : WriterPc α) : Option ℕ := pc.job.bind Job.uses

/-- The thread is between `mutex_.lock()` and `mutex_.unlock()`. -/
def holdsLock : WriterPc α → Bool
  | locked .. | writing .. => true
  | _ => false

end WriterPc

/-- `ConcurrentWriter::Capacity`. -/
structure Capacity where
  shared : ℕ
  handle : ℕ

/-- The `ConcurrentWriter`, its `Handle`s, the writer behind it, and the threads. -/
structure WriterState (ι : Type v) (α : Type u) where
  capacity : Capacity
  shared : BufferedWriter α
  mutex : Option ι
  /-- `Handle` objects, numbered as they are constructed. -/
  handles : ℕ → Option (BufferedWriter α)
  made : ℕ
  destroyed : Bool
  /-- What the writer behind the shared buffer has written, and has been given to write. -/
  output : List α
  unwritten : List α
  pcs : ι → WriterPc α

/-- Who a call is made through. -/
inductive Caller (ι : Type v)
  | direct (i : ι)
  | handle (h : ℕ)
  deriving DecidableEq

/-- What a step shows. -/
inductive WriterEvent (ι : Type v) (α : Type u)
  | call (caller : Caller ι) (bytes : List α)
  | moved (source target : ℕ)
  | internal

namespace WriterState

variable {ι : Type v} {α : Type u} [DecidableEq ι]

/-- After construction. -/
def initial (ι : Type v) (α : Type u) (capacity : Capacity) : WriterState ι α where
  capacity := capacity
  shared := .empty capacity.shared
  mutex := none
  handles _ := none
  made := 0
  destroyed := false
  output := []
  unwritten := []
  pcs _ := .idle

/-- Move thread `i`. -/
def setPc (s : WriterState ι α) (i : ι) (pc : WriterPc α) : WriterState ι α :=
  { s with pcs := Function.update s.pcs i pc }

/-- Construct or change a `Handle`. -/
def setHandle (s : WriterState ι α) (h : ℕ) (b : BufferedWriter α) : WriterState ι α :=
  { s with handles := Function.update s.handles h (some b) }

omit [DecidableEq ι] in
@[simp] theorem setHandle_handles (s : WriterState ι α) (h : ℕ) (b : BufferedWriter α) :
    (s.setHandle h b).handles = Function.update s.handles h (some b) := rfl

omit [DecidableEq ι] in
/-- The `Handle` is there, and no thread uses it. -/
def Free (s : WriterState ι α) (h : ℕ) (b : BufferedWriter α) : Prop :=
  s.handles h = some b ∧ ∀ i, (s.pcs i).uses ≠ some h

omit [DecidableEq ι] in
/-- All `Handle`s and then the `ConcurrentWriter` are destroyed. -/
def Finished (s : WriterState ι α) : Prop := s.destroyed = true ∧ ∀ i, s.pcs i = .idle

end WriterState

open WriterState

variable {ι : Type v} {α : Type u} [DecidableEq ι]

/-- The calls on the `MutexWriter` that a buffer of a `Handle` passes on. -/
def requests (passed : List (Pieces α)) : List (Request α) := passed.map .writeMany

/-- An atomic step of thread `i`. -/
inductive WriterStep (hasConcat : Bool) (i : ι) :
    WriterState ι α → WriterEvent ι α → WriterState ι α → Prop
  /-- `MakeHandle()`. -/
  | makeHandle {s : WriterState ι α} : s.pcs i = .idle → s.destroyed = false →
      WriterStep hasConcat i s .internal
        { s.setHandle s.made (.empty s.capacity.handle) with made := s.made + 1 }
  /-- `Handle(const Handle&)`, which reads `owner_` alone. -/
  | copyHandle {s : WriterState ι α} {h : ℕ} : s.pcs i = .idle → s.handles h ≠ none →
      WriterStep hasConcat i s .internal
        { s.setHandle s.made (.empty s.capacity.handle) with made := s.made + 1 }
  /-- `Handle(Handle&&)`. -/
  | moveHandle {s : WriterState ι α} {h : ℕ} {b : BufferedWriter α} : s.pcs i = .idle →
      s.Free h b → WriterStep hasConcat i s (.moved h s.made)
        { (s.setHandle h b.move.2).setHandle s.made b.move.1 with made := s.made + 1 }
  /-- `Handle::WriteMany`, or `Handle::Write` with one piece. -/
  | writeHandle {s : WriterState ι α} {h : ℕ} {b : BufferedWriter α} (pieces : Pieces α) :
      s.pcs i = .idle → s.Free h b → WriterStep hasConcat i s (.call (.handle h) pieces.flatten)
        ((s.setHandle h (b.writeMany hasConcat pieces).1).setPc i
          (.calling (.handle h) (requests (b.writeMany hasConcat pieces).2)))
  /-- `Handle::Flush`. -/
  | flushHandle {s : WriterState ι α} {h : ℕ} {b : BufferedWriter α} : s.pcs i = .idle →
      s.Free h b → WriterStep hasConcat i s .internal
        ((s.setHandle h b.flush.1).setPc i (.calling (.handle h) (requests b.flush.2)))
  /-- `~Handle()`, which is `~BufferedWriter()`. -/
  | endHandle {s : WriterState ι α} {h : ℕ} {b : BufferedWriter α} : s.pcs i = .idle →
      s.Free h b → WriterStep hasConcat i s .internal
        ((s.setHandle h b.flush.1).setPc i (.calling (.endHandle h) (requests b.flush.2)))
  /-- `ConcurrentWriter::WriteMany`, or `Write` with one piece. -/
  | writeDirect {s : WriterState ι α} (pieces : Pieces α) : s.pcs i = .idle →
      s.destroyed = false → WriterStep hasConcat i s (.call (.direct i) pieces.flatten)
        (s.setPc i (.calling .direct [.writeMany pieces]))
  /-- `ConcurrentWriter::Flush`. -/
  | flushDirect {s : WriterState ι α} : s.pcs i = .idle → s.destroyed = false →
      WriterStep hasConcat i s .internal (s.setPc i (.calling .direct [.flush]))
  /-- `const std::lock_guard lock(mutex_)`. -/
  | lock {s : WriterState ι α} {job : Job} {request : Request α} {todo : List (Request α)} :
      s.pcs i = .calling job (request :: todo) → s.mutex = none →
      WriterStep hasConcat i s .internal
        ({ s with mutex := some i }.setPc i (.locked job request todo))
  /-- `BufferedWriter::WriteMany` on the shared buffer. -/
  | perform {s : WriterState ι α} {job : Job} {pieces : Pieces α} {todo : List (Request α)} :
      s.pcs i = .locked job (.writeMany pieces) todo → WriterStep hasConcat i s .internal
        ({ s with shared := (s.shared.writeMany hasConcat pieces).1,
                  unwritten := (s.shared.writeMany hasConcat pieces).2.flatten.flatten }.setPc i
          (.writing job todo))
  /-- `BufferedWriter::Flush` on the shared buffer. -/
  | performFlush {s : WriterState ι α} {job : Job} {todo : List (Request α)} :
      s.pcs i = .locked job .flush todo → WriterStep hasConcat i s .internal
        ({ s with shared := s.shared.flush.1,
                  unwritten := s.shared.flush.2.flatten.flatten }.setPc i (.writing job todo))
  /-- The writer behind the shared buffer writes some of what it was given. -/
  | write {s : WriterState ι α} {job : Job} {todo : List (Request α)} {done rest : List α} :
      s.pcs i = .writing job todo → s.unwritten = done ++ rest →
      WriterStep hasConcat i s .internal { s with output := s.output ++ done, unwritten := rest }
  /-- The end of the scope of `lock`. -/
  | unlock {s : WriterState ι α} {job : Job} {todo : List (Request α)} :
      s.pcs i = .writing job todo → s.unwritten = [] →
      WriterStep hasConcat i s .internal ({ s with mutex := none }.setPc i (.calling job todo))
  | returned {s : WriterState ι α} {job : Job} : s.pcs i = .calling job [] →
      (∀ h, job ≠ .endHandle h) → WriterStep hasConcat i s .internal (s.setPc i .idle)
  | handleEnded {s : WriterState ι α} {h : ℕ} : s.pcs i = .calling (.endHandle h) [] →
      WriterStep hasConcat i s .internal
        ({ s with handles := Function.update s.handles h none }.setPc i .idle)
  /-- `~ConcurrentWriter()`, which is `~BufferedWriter()` of the shared buffer. -/
  | endWriter {s : WriterState ι α} : (∀ j, s.pcs j = .idle) → (∀ h, s.handles h = none) →
      s.destroyed = false → WriterStep hasConcat i s .internal
        ({ s with destroyed := true, shared := s.shared.flush.1,
                  unwritten := s.shared.flush.2.flatten.flatten }.setPc i .ending)
  | writeEnding {s : WriterState ι α} {done rest : List α} : s.pcs i = .ending →
      s.unwritten = done ++ rest →
      WriterStep hasConcat i s .internal { s with output := s.output ++ done, unwritten := rest }
  | writerEnded {s : WriterState ι α} : s.pcs i = .ending → s.unwritten = [] →
      WriterStep hasConcat i s .internal (s.setPc i .idle)

/-- All threads, in any interleaving. -/
def writerSystem (ι : Type v) (α : Type u) [DecidableEq ι] (hasConcat : Bool)
    (capacity : Capacity) : System (WriterState ι α) (WriterEvent ι α) where
  init s := s = .initial ι α capacity
  step s e s' := ∃ i, WriterStep hasConcat i s e s'

end Remmy.Io
