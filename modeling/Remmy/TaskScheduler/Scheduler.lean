import Remmy.WorkStealingQueue.ChaseLev
import Mathlib.Data.Fintype.Prod
import Mathlib.Data.Fintype.Sum
import Mathlib.Data.Fintype.Sigma
import Mathlib.Tactic.DeriveFintype

/-!
# The Task Scheduler

`cutils::TaskScheduler` with `W` slots and `P` priorities, used by one external thread
that submits tasks and then calls `Wait`.  A step is one atomic operation of one thread,
an atomic step inside a queue included: each queue is a `ChaseLev.Deque`, owned by the
worker of its slot or, for `submitted_`, by the external thread.

- `Process` may submit any tasks at any priorities before it returns.
- `compare_exchange_weak` may fail spuriously, `std::atomic::wait` may wake spuriously.
- `yield` has no effect and is left out.
-/

namespace Remmy.TaskScheduler

open Remmy.ChaseLev (Deque)

universe u

/-! ## Queues and program counters -/

/-- The queues: `slots_[w].queues[p]` and `submitted_[p]`. -/
inductive QueueId (W P : ℕ)
  | slot (w : Fin W) (p : Fin P)
  | submitted (p : Fin P)
  deriving DecidableEq, Fintype

/-- Where a `MaybeGrowThreads()` stands. -/
inductive Grow (W : ℕ)
  | load
  | check (index : ℕ)
  | cas (index : Fin W)
  | start (index : Fin W)

/-- Where the external thread stands. -/
inductive ExtPc (W P : ℕ) (T : Type u)
  | ready
  | submitCheck (task : T) (q : Fin P)
  | submitAdd (task : T) (q : Fin P)
  | submitInsert (task : T) (q : Fin P)
  | growing (g : Grow W)
  | waitLoad
  | waitCheck (owed : ℕ)
  | asleep (owed : ℕ)
  | storeStop
  | joining (index : ℕ)
  | done

/-- Where the thread of a slot stands in `WorkerLoop`; `unborn` before it is started. -/
inductive WorkerPc (W P : ℕ) (T : Type u)
  | unborn
  | checkStop
  | takeOwn (p : Fin P)
  | taking (p : Fin P)
  | victim (p : Fin P) (v : ℕ)
  | stealing (p : Fin P) (v : Fin W)
  | trySubmitted (p : Fin P)
  | stealingSubmitted (p : Fin P)
  | processing (task : T)
  | submitAdd (task new : T) (q : Fin P)
  | submitInsert (task new : T) (q : Fin P)
  | growing (task : T) (g : Grow W)
  | subtract (task : T)
  | notify
  | exited

/-- The scheduler and its threads. -/
structure State (W P : ℕ) (T : Type u) where
  /-- `pending_tasks_`. -/
  pending : ℕ
  /-- `stop_`. -/
  stop : Bool
  /-- `live_threads_`. -/
  live : ℕ
  queues : QueueId W P → Deque (Fin W) T
  ext : ExtPc W P T
  workers : Fin W → WorkerPc W P T

/-- What a step shows: the `fetch_add` of a submission, the start of a `Process` call,
    the `fetch_sub` after it, and the loop of `Wait` reading 0. -/
inductive Event (W : ℕ) (T : Type u)
  | submit (task : T)
  | start (w : Fin W) (task : T)
  | finish (w : Fin W) (task : T)
  | sawZero
  | internal

variable {W P : ℕ} {T : Type u}

/-- A new scheduler: no thread started, all queues empty. -/
def State.initial (W P : ℕ) (T : Type u) [Inhabited T] : State W P T where
  pending := 0
  stop := false
  live := 0
  queues _ := .empty
  ext := .ready
  workers _ := .unborn

namespace State

/-- Replace one queue. -/
def setQueue (s : State W P T) (k : QueueId W P) (d : Deque (Fin W) T) : State W P T :=
  { s with queues := Function.update s.queues k d }

/-- Replace where one worker stands. -/
def setWorker (s : State W P T) (w : Fin W) (pc : WorkerPc W P T) : State W P T :=
  { s with workers := Function.update s.workers w pc }

/-- Store to `pending_tasks_`. -/
def setPending (s : State W P T) (n : ℕ) : State W P T :=
  { s with pending := n }

/-- Store to `live_threads_`. -/
def setLive (s : State W P T) (n : ℕ) : State W P T :=
  { s with live := n }

/-- Replace where the external thread stands. -/
def setExt (s : State W P T) (pc : ExtPc W P T) : State W P T :=
  { s with ext := pc }

end State

/-! ## MaybeGrowThreads -/

/-- An atomic step of `MaybeGrowThreads` other than the start of a thread: the new value
    of `live_threads_`, and where the call stands then (`none` once it has returned). -/
inductive GrowStep (pending live : ℕ) : Grow W → ℕ → Option (Grow W) → Prop
  | load : GrowStep pending live .load live (some (.check live))
  | more {index : ℕ} (h : index < W) : pending ≠ 0 →
      GrowStep pending live (.check index) live (some (.cas ⟨index, h⟩))
  | enough {index : ℕ} : ¬(index < W ∧ pending ≠ 0) →
      GrowStep pending live (.check index) live none
  | won {index : Fin W} : live = index →
      GrowStep pending live (.cas index) (index + 1) (some (.start index))
  /-- Another thread was faster, or the exchange failed spuriously. -/
  | lost {index : Fin W} : GrowStep pending live (.cas index) live (some (.check live))

/-! ## Steps -/

/-- Where `AcquireNextTask` goes when `TakeSubmitted(p)` found nothing: the next priority,
    or round the loop of `WorkerLoop` once more. -/
def nextPriority (p : Fin P) : WorkerPc W P T :=
  if h : p + 1 < P then .takeOwn ⟨p + 1, h⟩ else .checkStop

/-- Where `AcquireNextTask` starts. -/
def firstPriority : WorkerPc W P T :=
  if h : 0 < P then .takeOwn ⟨0, h⟩ else .checkStop

variable [Inhabited T]

/-- An atomic step of the external thread. -/
inductive ExtStep : State W P T → Event W T → State W P T → Prop
  | submit {s : State W P T} (task : T) (q : Fin P) : s.ext = .ready →
      ExtStep s .internal (s.setExt (.submitCheck task q))
  | submitRefused {s : State W P T} {task : T} {q : Fin P} : s.ext = .submitCheck task q →
      s.stop = true → ExtStep s .internal (s.setExt .ready)
  | submitAccepted {s : State W P T} {task : T} {q : Fin P} : s.ext = .submitCheck task q →
      s.stop = false → ExtStep s .internal (s.setExt (.submitAdd task q))
  /-- `pending_tasks_.fetch_add(1)`, and into `submitted_[q].Insert(task)`. -/
  | submitAdd {s : State W P T} {task : T} {q : Fin P} {d : Deque (Fin W) T} :
      s.ext = .submitAdd task q →
      ChaseLev.Step (s.queues (.submitted q)) (.beginInsert task) d →
      ExtStep s (.submit task) (((s.setPending (s.pending + 1)).setQueue (.submitted q) d).setExt
        (.submitInsert task q))
  | insertStep {s : State W P T} {task : T} {q : Fin P} {d : Deque (Fin W) T} :
      s.ext = .submitInsert task q →
      ChaseLev.Step (s.queues (.submitted q)) .ownerStep d →
      ExtStep s .internal (s.setQueue (.submitted q) d)
  | inserted {s : State W P T} {task v : T} {q : Fin P} {d : Deque (Fin W) T} :
      s.ext = .submitInsert task q →
      ChaseLev.Step (s.queues (.submitted q)) (.inserted v) d →
      ExtStep s .internal ((s.setQueue (.submitted q) d).setExt (.growing .load))
  | grow {s : State W P T} {g g' : Grow W} {live : ℕ} : s.ext = .growing g →
      GrowStep s.pending s.live g live (some g') →
      ExtStep s .internal ((s.setLive live).setExt (.growing g'))
  | grown {s : State W P T} {g : Grow W} {live : ℕ} : s.ext = .growing g →
      GrowStep s.pending s.live g live none →
      ExtStep s .internal ((s.setLive live).setExt .ready)
  /-- `slots_[index].thread = std::jthread(...)`. -/
  | startThread {s : State W P T} {index : Fin W} : s.ext = .growing (.start index) →
      ExtStep s .internal ((s.setWorker index .checkStop).setExt .ready)
  | wait {s : State W P T} : s.ext = .ready → ExtStep s .internal (s.setExt .waitLoad)
  | waitOwed {s : State W P T} : s.ext = .waitLoad → s.pending ≠ 0 →
      ExtStep s .internal (s.setExt (.waitCheck s.pending))
  | waitZero {s : State W P T} : s.ext = .waitLoad → s.pending = 0 →
      ExtStep s .sawZero (s.setExt .storeStop)
  /-- `pending_tasks_.wait(owed)`: block while the value is still `owed`. -/
  | sleep {s : State W P T} {owed : ℕ} : s.ext = .waitCheck owed → s.pending = owed →
      ExtStep s .internal (s.setExt (.asleep owed))
  | waitChanged {s : State W P T} {owed : ℕ} : s.ext = .waitCheck owed → s.pending ≠ owed →
      ExtStep s .internal (s.setExt .waitLoad)
  | wakeSpuriously {s : State W P T} {owed : ℕ} : s.ext = .asleep owed →
      ExtStep s .internal (s.setExt (.waitCheck owed))
  | storeStop {s : State W P T} : s.ext = .storeStop →
      ExtStep s .internal ({ s with stop := true }.setExt (.joining 0))
  /-- `if (slot.thread.joinable()) slot.thread.join()` of one slot. -/
  | joinOne {s : State W P T} {index : ℕ} (h : index < W) : s.ext = .joining index →
      (s.workers ⟨index, h⟩ = .unborn ∨ s.workers ⟨index, h⟩ = .exited) →
      ExtStep s .internal (s.setExt (.joining (index + 1)))
  | joinedAll {s : State W P T} {index : ℕ} : s.ext = .joining index → W ≤ index →
      ExtStep s .internal (s.setExt .done)

/-- An atomic step of the worker of slot `w`. -/
inductive WorkerStep (w : Fin W) : State W P T → Event W T → State W P T → Prop
  | stopped {s : State W P T} : s.workers w = .checkStop → s.stop = true →
      WorkerStep w s .internal (s.setWorker w .exited)
  | acquire {s : State W P T} : s.workers w = .checkStop → s.stop = false →
      WorkerStep w s .internal (s.setWorker w firstPriority)
  | takeOwn {s : State W P T} {p : Fin P} {d : Deque (Fin W) T} : s.workers w = .takeOwn p →
      ChaseLev.Step (s.queues (.slot w p)) .beginTake d →
      WorkerStep w s .internal ((s.setQueue (.slot w p) d).setWorker w (.taking p))
  | takeStep {s : State W P T} {p : Fin P} {d : Deque (Fin W) T} : s.workers w = .taking p →
      ChaseLev.Step (s.queues (.slot w p)) .ownerStep d →
      WorkerStep w s .internal (s.setQueue (.slot w p) d)
  | took {s : State W P T} {p : Fin P} {d : Deque (Fin W) T} {task : T} : s.workers w = .taking p →
      ChaseLev.Step (s.queues (.slot w p)) (.took (some task)) d →
      WorkerStep w s (.start w task) ((s.setQueue (.slot w p) d).setWorker w (.processing task))
  | tookNone {s : State W P T} {p : Fin P} {d : Deque (Fin W) T} : s.workers w = .taking p →
      ChaseLev.Step (s.queues (.slot w p)) (.took none) d →
      WorkerStep w s .internal ((s.setQueue (.slot w p) d).setWorker w (.victim p 0))
  | skipSelf {s : State W P T} {p : Fin P} : s.workers w = .victim p w →
      WorkerStep w s .internal (s.setWorker w (.victim p (w + 1)))
  | victim {s : State W P T} {p : Fin P} {v : Fin W} {d : Deque (Fin W) T} :
      s.workers w = .victim p v → v ≠ w →
      ChaseLev.Step (s.queues (.slot v p)) (.beginSteal w) d →
      WorkerStep w s .internal ((s.setQueue (.slot v p) d).setWorker w (.stealing p v))
  | noVictimLeft {s : State W P T} {p : Fin P} {v : ℕ} : s.workers w = .victim p v → W ≤ v →
      WorkerStep w s .internal (s.setWorker w (.trySubmitted p))
  | stealStep {s : State W P T} {p : Fin P} {v : Fin W} {d : Deque (Fin W) T} :
      s.workers w = .stealing p v →
      ChaseLev.Step (s.queues (.slot v p)) (.thiefStep w) d →
      WorkerStep w s .internal (s.setQueue (.slot v p) d)
  | stole {s : State W P T} {p : Fin P} {v : Fin W} {d : Deque (Fin W) T} {task : T} :
      s.workers w = .stealing p v →
      ChaseLev.Step (s.queues (.slot v p)) (.stole w (some task)) d →
      WorkerStep w s (.start w task) ((s.setQueue (.slot v p) d).setWorker w (.processing task))
  | stoleNone {s : State W P T} {p : Fin P} {v : Fin W} {d : Deque (Fin W) T} :
      s.workers w = .stealing p v →
      ChaseLev.Step (s.queues (.slot v p)) (.stole w none) d →
      WorkerStep w s .internal ((s.setQueue (.slot v p) d).setWorker w (.victim p (v + 1)))
  | trySubmitted {s : State W P T} {p : Fin P} {d : Deque (Fin W) T} :
      s.workers w = .trySubmitted p →
      ChaseLev.Step (s.queues (.submitted p)) (.beginSteal w) d →
      WorkerStep w s .internal ((s.setQueue (.submitted p) d).setWorker w (.stealingSubmitted p))
  | submittedStep {s : State W P T} {p : Fin P} {d : Deque (Fin W) T} :
      s.workers w = .stealingSubmitted p →
      ChaseLev.Step (s.queues (.submitted p)) (.thiefStep w) d →
      WorkerStep w s .internal (s.setQueue (.submitted p) d)
  | stoleSubmitted {s : State W P T} {p : Fin P} {d : Deque (Fin W) T} {task : T} :
      s.workers w = .stealingSubmitted p →
      ChaseLev.Step (s.queues (.submitted p)) (.stole w (some task)) d →
      WorkerStep w s (.start w task) ((s.setQueue (.submitted p) d).setWorker w (.processing task))
  | stoleNoneSubmitted {s : State W P T} {p : Fin P} {d : Deque (Fin W) T} :
      s.workers w = .stealingSubmitted p →
      ChaseLev.Step (s.queues (.submitted p)) (.stole w none) d →
      WorkerStep w s .internal ((s.setQueue (.submitted p) d).setWorker w (nextPriority p))
  /-- `Process` calls `ctx.Submit(new, q)`. -/
  | submit {s : State W P T} {task : T} (new : T) (q : Fin P) : s.workers w = .processing task →
      WorkerStep w s .internal (s.setWorker w (.submitAdd task new q))
  | submitAdd {s : State W P T} {task new : T} {q : Fin P} {d : Deque (Fin W) T} :
      s.workers w = .submitAdd task new q →
      ChaseLev.Step (s.queues (.slot w q)) (.beginInsert new) d →
      WorkerStep w s (.submit new) (((s.setPending (s.pending + 1)).setQueue (.slot w q) d).setWorker
        w (.submitInsert task new q))
  | insertStep {s : State W P T} {task new : T} {q : Fin P} {d : Deque (Fin W) T} :
      s.workers w = .submitInsert task new q →
      ChaseLev.Step (s.queues (.slot w q)) .ownerStep d →
      WorkerStep w s .internal (s.setQueue (.slot w q) d)
  | inserted {s : State W P T} {task new v : T} {q : Fin P} {d : Deque (Fin W) T} :
      s.workers w = .submitInsert task new q →
      ChaseLev.Step (s.queues (.slot w q)) (.inserted v) d →
      WorkerStep w s .internal ((s.setQueue (.slot w q) d).setWorker w (.growing task .load))
  | grow {s : State W P T} {task : T} {g g' : Grow W} {live : ℕ} : s.workers w = .growing task g →
      GrowStep s.pending s.live g live (some g') →
      WorkerStep w s .internal ((s.setLive live).setWorker w (.growing task g'))
  | grown {s : State W P T} {task : T} {g : Grow W} {live : ℕ} : s.workers w = .growing task g →
      GrowStep s.pending s.live g live none →
      WorkerStep w s .internal ((s.setLive live).setWorker w (.processing task))
  | startThread {s : State W P T} {task : T} {index : Fin W} :
      s.workers w = .growing task (.start index) →
      WorkerStep w s .internal ((s.setWorker index .checkStop).setWorker w (.processing task))
  /-- `Process` returns. -/
  | processed {s : State W P T} {task : T} : s.workers w = .processing task →
      WorkerStep w s .internal (s.setWorker w (.subtract task))
  /-- `pending_tasks_.fetch_sub(1)`. -/
  | subtract {s : State W P T} {task : T} : s.workers w = .subtract task →
      WorkerStep w s (.finish w task) ((s.setPending (s.pending - 1)).setWorker w
        (if s.pending = 1 then .notify else .checkStop))
  /-- `notify_one` with nobody waiting. -/
  | notify {s : State W P T} : s.workers w = .notify → (∀ owed, s.ext ≠ .asleep owed) →
      WorkerStep w s .internal (s.setWorker w .checkStop)
  /-- `notify_one` unblocks the external thread, which compares again. -/
  | wake {s : State W P T} {owed : ℕ} : s.workers w = .notify → s.ext = .asleep owed →
      WorkerStep w s .internal ((s.setWorker w .checkStop).setExt (.waitCheck owed))

/-- The scheduler under all interleavings of its threads. -/
def system (W P : ℕ) (T : Type u) [Inhabited T] : Lib.System (State W P T) (Event W T) where
  init s := s = .initial W P T
  step s e s' := ExtStep s e s' ∨ ∃ w, WorkerStep w s e s'

end Remmy.TaskScheduler
