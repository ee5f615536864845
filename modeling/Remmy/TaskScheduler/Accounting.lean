import Remmy.TaskScheduler.Scheduler
import Remmy.WorkStealingQueue.ChaseLevSafety
import Mathlib.Algebra.Order.BigOperators.Group.Finset

/-!
# The Task Scheduler: Accounting for Every Task

Every task that was submitted and not yet finished is in exactly one place: stored in a
queue, offered to one by an `Insert` in progress, or running in a `Process` call.  Tasks
are counted through an arbitrary weight `g`, so that one lemma per step gives both the
number of tasks (`pending_tasks_`) and the number of copies of each single task.

`Inv` also says that no slot is started twice (`births`), without which starting a
thread could throw away a running task.
-/

namespace Remmy.TaskScheduler

open Remmy.Lib
open Remmy.ChaseLev (Deque)

universe u

variable {W P : ℕ} {T : Type u} (g : T → ℕ)

/-! ## Weights -/

/-- The total weight of a list of tasks. -/
def weigh (l : List T) : ℕ := (l.map g).sum

@[simp] theorem weigh_nil : weigh g [] = 0 := rfl

@[simp] theorem weigh_append (l l' : List T) : weigh g (l ++ l') = weigh g l + weigh g l' := by
  simp [weigh]

@[simp] theorem weigh_cons (x : T) (l : List T) : weigh g (x :: l) = g x + weigh g l := by
  simp [weigh]

/-- With weight 1 for each task, a list weighs its length. -/
theorem weigh_one (l : List T) : weigh (fun _ => 1) l = l.length := by
  induction l with
  | nil => rfl
  | cons x l ih => rw [weigh_cons, ih, List.length_cons, Nat.add_comm]

/-- With weight 1 for `x` alone, a list weighs the number of copies of `x` in it. -/
theorem weigh_count [DecidableEq T] (x : T) (l : List T) :
    weigh (fun y => if y = x then 1 else 0) l = l.count x := by
  induction l with
  | nil => rfl
  | cons y l ih => simp only [weigh_cons, ih, List.count_cons, beq_iff_eq, Nat.add_comm]

/-- The task an event submits. -/
def Event.submitted : Event W T → Option T
  | .submit task => some task
  | _ => none

/-- The task an event passes to `Process`. -/
def Event.started : Event W T → Option T
  | .start _ task => some task
  | _ => none

/-- The task an event counts as fully processed. -/
def Event.finished : Event W T → Option T
  | .finish _ task => some task
  | _ => none

/-- The task a worker is processing. -/
def WorkerPc.running : WorkerPc W P T → ℕ
  | .processing task | .submitAdd task _ _ | .submitInsert task _ _ | .growing task _
  | .subtract task => g task
  | _ => 0

/-- The task a worker has counted in `pending_tasks_` and is still inserting. -/
def WorkerPc.offered : WorkerPc W P T → ℕ
  | .submitInsert _ new _ => g new
  | _ => 0

/-- The task the external thread has counted and is still inserting. -/
def ExtPc.offered : ExtPc W P T → ℕ
  | .submitInsert task _ => g task
  | _ => 0

namespace State

variable (s : State W P T)

/-- All tasks stored in queues. -/
def queued : ℕ := ∑ k, weigh g (s.queues k).stored

/-- All tasks inside a `Process` call. -/
def running : ℕ := ∑ w, (s.workers w).running g

/-- All tasks being inserted. -/
def offered : ℕ := s.ext.offered g + ∑ w, (s.workers w).offered g

/-- All tasks submitted and not yet finished. -/
def load : ℕ := s.queued g + s.offered g + s.running g

end State

/-! ## How the total changes -/

/-- A worker looking for a task has none. -/
@[simp] theorem firstPriority_offered : (firstPriority : WorkerPc W P T).offered g = 0 := by
  unfold firstPriority
  split <;> rfl

@[simp] theorem firstPriority_running : (firstPriority : WorkerPc W P T).running g = 0 := by
  unfold firstPriority
  split <;> rfl

@[simp] theorem nextPriority_offered (p : Fin P) :
    (nextPriority p : WorkerPc W P T).offered g = 0 := by
  unfold nextPriority
  split <;> rfl

@[simp] theorem nextPriority_running (p : Fin P) :
    (nextPriority p : WorkerPc W P T).running g = 0 := by
  unfold nextPriority
  split <;> rfl

section Moves

variable (s : State W P T)

@[simp] theorem setQueue_workers (k : QueueId W P) (d : Deque (Fin W) T) :
    (s.setQueue k d).workers = s.workers := rfl

@[simp] theorem setQueue_ext (k : QueueId W P) (d : Deque (Fin W) T) :
    (s.setQueue k d).ext = s.ext := rfl

@[simp] theorem setWorker_queues (w : Fin W) (pc : WorkerPc W P T) :
    (s.setWorker w pc).queues = s.queues := rfl

@[simp] theorem setExt_queues (pc : ExtPc W P T) : (s.setExt pc).queues = s.queues := rfl

@[simp] theorem setExt_workers (pc : ExtPc W P T) : (s.setExt pc).workers = s.workers := rfl

@[simp] theorem setWorker_ext (w : Fin W) (pc : WorkerPc W P T) :
    (s.setWorker w pc).ext = s.ext := rfl

theorem setWorker_workers_self (w : Fin W) (pc : WorkerPc W P T) :
    (s.setWorker w pc).workers w = pc :=
  Function.update_self ..

theorem setWorker_workers_of_ne {w w' : Fin W} (pc : WorkerPc W P T) (h : w' ≠ w) :
    (s.setWorker w pc).workers w' = s.workers w' :=
  Function.update_of_ne h _ s.workers

@[simp] theorem setPending_queues (n : ℕ) : (s.setPending n).queues = s.queues := rfl

@[simp] theorem setPending_workers (n : ℕ) : (s.setPending n).workers = s.workers := rfl

@[simp] theorem setPending_ext (n : ℕ) : (s.setPending n).ext = s.ext := rfl

@[simp] theorem setLive_workers (n : ℕ) : (s.setLive n).workers = s.workers := rfl

@[simp] theorem setLive_ext (n : ℕ) : (s.setLive n).ext = s.ext := rfl

@[simp] theorem setLive_live (n : ℕ) : (s.setLive n).live = n := rfl

@[simp] theorem load_setPending (n : ℕ) : (s.setPending n).load g = s.load g := rfl

@[simp] theorem load_setLive (n : ℕ) : (s.setLive n).load g = s.load g := rfl

/-- The load when one queue changes. -/
theorem load_setQueue (k : QueueId W P) (d : Deque (Fin W) T) :
    (s.setQueue k d).load g + weigh g (s.queues k).stored = s.load g + weigh g d.stored := by
  have hsum := sum_update_add s.queues (fun _ d => weigh g d.stored) k d
  simp only [State.load, State.queued, State.offered, State.running, State.setQueue] at hsum ⊢
  omega

/-- The load when one worker moves. -/
theorem load_setWorker (w : Fin W) (pc : WorkerPc W P T) :
    (s.setWorker w pc).load g + ((s.workers w).offered g + (s.workers w).running g) =
      s.load g + (pc.offered g + pc.running g) := by
  have hoff := sum_update_add s.workers (fun _ pc => pc.offered g) w pc
  have hrun := sum_update_add s.workers (fun _ pc => pc.running g) w pc
  simp only [State.load, State.queued, State.offered, State.running, State.setWorker] at hoff hrun ⊢
  omega

/-- The load when the external thread moves. -/
theorem load_setExt (pc : ExtPc W P T) :
    (s.setExt pc).load g + s.ext.offered g = s.load g + pc.offered g := by
  simp only [State.load, State.queued, State.offered, State.running, State.setExt]
  omega

theorem load_setWorker_of_eq {w : Fin W} {pc : WorkerPc W P T}
    (hoff : (s.workers w).offered g = pc.offered g)
    (hrun : (s.workers w).running g = pc.running g) :
    (s.setWorker w pc).load g = s.load g := by
  have hload := load_setWorker g s w pc
  omega

theorem load_setExt_of_eq {pc : ExtPc W P T} (hoff : s.ext.offered g = pc.offered g) :
    (s.setExt pc).load g = s.load g := by
  have hload := load_setExt g s pc
  omega

end Moves

/-- What an event of a queue adds to it. -/
def pushed {ι : Type} : ChaseLev.Event ι T → ℕ
  | .inserted v => g v
  | _ => 0

/-- What an event of a queue takes from it. -/
def popped {ι : Type} : ChaseLev.Event ι T → ℕ
  | .took (some v) | .stole _ (some v) => g v
  | _ => 0

variable [Inhabited T]

/-- A queue's contents change by what its event shows. -/
theorem weigh_step {d d' : Deque (Fin W) T} {e : ChaseLev.Event (Fin W) T} (h : ChaseLev.Inv d)
    (hs : ChaseLev.Step d e d') :
    weigh g d'.stored + popped g e = weigh g d.stored + pushed g e := by
  have hstores := (h.step hs).2
  cases e with
  | inserted v =>
    simp only [ChaseLev.Event.Stores] at hstores
    simp [hstores, pushed, popped]
  | took r =>
    simp only [ChaseLev.Event.Stores] at hstores
    cases r <;> simp [hstores, pushed, popped]
  | stole i r =>
    simp only [ChaseLev.Event.Stores] at hstores
    cases r <;> simp [hstores, pushed, popped, Nat.add_comm]
  | _ =>
    simp only [ChaseLev.Event.Stores] at hstores
    simp [hstores, pushed, popped]

/-! ## Starts of threads -/

/-- How much a `MaybeGrowThreads()` in progress counts as a start of slot `i`. -/
def Grow.births (i : Fin W) : Grow W → ℕ
  | .start index => if index = i then 1 else 0
  | _ => 0

/-- How much the thread of slot `w` counts as a start of slot `i`: it is about to start
    it, or it is its thread. -/
def WorkerPc.births (i w : Fin W) : WorkerPc W P T → ℕ
  | .unborn => 0
  | .growing _ g => g.births i + if w = i then 1 else 0
  | _ => if w = i then 1 else 0

/-- How much the external thread counts as a start of slot `i`. -/
def ExtPc.births (i : Fin W) : ExtPc W P T → ℕ
  | .growing g => g.births i
  | _ => 0

/-- How often slot `i` was started or is about to be. -/
def State.births (s : State W P T) (i : Fin W) : ℕ :=
  s.ext.births i + ∑ w, (s.workers w).births i w

omit [Inhabited T] in
/-- The starts of a slot when one worker moves. -/
theorem births_setWorker (s : State W P T) (w i : Fin W) (pc : WorkerPc W P T) :
    (s.setWorker w pc).births i + (s.workers w).births i w = s.births i + pc.births i w := by
  have hsum := sum_update_add s.workers (fun w pc => pc.births i w) w pc
  simp only [State.births, State.setWorker] at hsum ⊢
  omega

omit [Inhabited T] in
theorem births_setWorker_of_eq {s : State W P T} {w i : Fin W} {pc : WorkerPc W P T}
    (heq : (s.workers w).births i w = pc.births i w) : (s.setWorker w pc).births i = s.births i := by
  have hworker := births_setWorker s w i pc
  omega

omit [Inhabited T] in
/-- The starts of a slot when the external thread moves. -/
theorem births_setExt (s : State W P T) (i : Fin W) (pc : ExtPc W P T) :
    (s.setExt pc).births i + s.ext.births i = s.births i + pc.births i := by
  simp only [State.births, State.setExt]
  omega

omit [Inhabited T] in
theorem births_setExt_of_eq {s : State W P T} {i : Fin W} {pc : ExtPc W P T}
    (heq : s.ext.births i = pc.births i) : (s.setExt pc).births i = s.births i := by
  have hext := births_setExt s i pc
  omega

omit [Inhabited T] in
/-- Winning the exchange on `live_threads_` is what entitles a thread to start the slot. -/
theorem GrowStep.births {pending live live' : ℕ} {g : Grow W} {g' : Option (Grow W)}
    (hs : GrowStep pending live g live' g') (i : Fin W) :
    (g'.elim 0 (Grow.births i)) + (if (i : ℕ) < live then 1 else 0) =
      g.births i + if (i : ℕ) < live' then 1 else 0 := by
  cases hs with
  | won hlive =>
    simp only [Option.elim, Grow.births, Fin.ext_iff]
    split_ifs <;> omega
  | _ => rfl

omit [Inhabited T] in
theorem births_le_sum (s : State W P T) (i w : Fin W) :
    (s.workers w).births i w ≤ ∑ w, (s.workers w).births i w :=
  Finset.single_le_sum (f := fun w => (s.workers w).births i w) (fun _ _ => Nat.zero_le _)
    (Finset.mem_univ w)

omit [Inhabited T] in
theorem births_self {pc : WorkerPc W P T} (i : Fin W) (hpc : pc ≠ .unborn) :
    1 ≤ pc.births i i := by
  cases pc <;> simp [WorkerPc.births] at hpc ⊢

omit [Inhabited T] in
/-- Who is about to start a thread is one of its starts. -/
theorem births_start (task : T) (i w : Fin W) :
    1 ≤ (WorkerPc.growing (P := P) task (.start i)).births i w := by
  simp [WorkerPc.births, Grow.births]

/-- The slots started, or about to be, are those below `live_threads_`, each once. -/
def State.Born (s : State W P T) : Prop :=
  ∀ i : Fin W, s.births i = if (i : ℕ) < s.live then 1 else 0

omit [Inhabited T] in
/-- The thread of a slot is not running while somebody is about to start it. -/
theorem State.Born.unborn_of_ext {s : State W P T} (h : s.Born) {index : Fin W}
    (hext : s.ext = .growing (.start index)) : s.workers index = .unborn := by
  by_contra hborn
  have hb := h index
  have hone := births_self index hborn
  have hle := births_le_sum s index index
  simp only [State.births, hext, ExtPc.births, Grow.births, if_true] at hb
  split_ifs at hb <;> omega

omit [Inhabited T] in
theorem two_births_le_sum (s : State W P T) (i : Fin W) {w w' : Fin W} (hw : w ≠ w') :
    (s.workers w).births i w + (s.workers w').births i w' ≤ ∑ w, (s.workers w).births i w := by
  rw [← Finset.sum_pair hw (f := fun w => (s.workers w).births i w)]
  exact Finset.sum_le_univ_sum_of_nonneg fun _ => Nat.zero_le _

omit [Inhabited T] in
theorem State.Born.unborn_of_worker {s : State W P T} (h : s.Born) {w index : Fin W} {task : T}
    (hpc : s.workers w = .growing task (.start index)) : s.workers index = .unborn := by
  by_contra hborn
  have hb := h index
  have hone := births_self index hborn
  have hstart : 1 ≤ (s.workers w).births index w := by
    rw [hpc]
    exact births_start task index w
  simp only [State.births] at hb
  by_cases hw : w = index
  · subst hw
    have htwo : 2 ≤ (s.workers w).births w w := by simp [hpc, WorkerPc.births, Grow.births]
    have hle := births_le_sum s w w
    split_ifs at hb <;> omega
  · have hle := two_births_le_sum s index hw
    split_ifs at hb <;> omega

/-! ## The invariant -/

/-- The queue an inserting thread works on is in an `Insert` of that thread's task. -/
def Inserting (d : Deque (Fin W) T) (v : T) : Prop :=
  ∃ pc, d.owner = .insert pc ∧ pc.value = v

/-- The external thread is on its way to start the first worker thread. -/
def ExtPc.mayGrow : ExtPc W P T → Prop
  | .submitInsert _ _ | .growing .load => True
  | .growing (.check index) => index = 0
  | .growing (.cas index) => (index : ℕ) = 0
  | _ => False

/-- The loop of `Wait` has read 0. -/
def ExtPc.waited : ExtPc W P T → Prop
  | .storeStop | .joining _ | .done => True
  | _ => False

/-- What holds in every reachable state of the scheduler. -/
structure Inv (s : State W P T) : Prop where
  deque : ∀ k, ChaseLev.Inv (s.queues k)
  births : ∀ i : Fin W, s.births i = if (i : ℕ) < s.live then 1 else 0
  insertingExt : ∀ task q, s.ext = .submitInsert task q → Inserting (s.queues (.submitted q)) task
  inserting : ∀ w task new q, s.workers w = .submitInsert task new q →
    Inserting (s.queues (.slot w q)) new
  pending : s.pending = s.load (fun _ => 1)
  owed : ∀ owed, s.ext = .waitCheck owed ∨ s.ext = .asleep owed → owed ≠ 0
  awake : ∀ owed, s.ext = .asleep owed → s.pending = 0 → ∃ w, s.workers w = .notify
  alive : s.pending ≠ 0 → s.live = 0 → W = 0 ∨ s.ext.mayGrow
  quiet : s.ext.waited → s.pending = 0
  stopped : s.stop = true → s.ext.waited
  exited : ∀ w, s.workers w = .exited → s.stop = true

omit [Inhabited T] in
theorem Inv.born {s : State W P T} (h : Inv s) : s.Born := h.births

/-! ## Queues under a step -/

/-- A step of a thief leaves the owner where it was. -/
theorem owner_of_thief {d d' : Deque (Fin W) T} {e : ChaseLev.Event (Fin W) T} {w : Fin W}
    (hs : ChaseLev.Step d e d')
    (he : e = .beginSteal w ∨ e = .thiefStep w ∨ ∃ r, e = .stole w r) : d'.owner = d.owner := by
  cases hs <;> first | rfl | simp at he

/-- The value of an `Insert` never changes while it runs. -/
theorem Inserting.ownerStep {d d' : Deque (Fin W) T} {v : T} (h : Inserting d v)
    (hs : ChaseLev.Step d .ownerStep d') : Inserting d' v := by
  obtain ⟨pc, hpc, rfl⟩ := h
  cases hs with
  | @insertStep pc₀ pc' _ hpc₀ hstep =>
    rw [hpc] at hpc₀
    cases hpc₀
    exact ⟨pc', rfl, ChaseLev.insertStep_value hstep⟩
  | takeStep hpc₀ _ =>
    rw [hpc] at hpc₀
    cases hpc₀

/-- An `Insert` shows the value it was called with. -/
theorem Inserting.inserted {d d' : Deque (Fin W) T} {v v' : T} (h : Inserting d v)
    (hs : ChaseLev.Step d (.inserted v') d') : v' = v := by
  obtain ⟨pc, hpc, rfl⟩ := h
  cases hs with
  | inserted hpc₀ _ =>
    rw [hpc] at hpc₀
    cases hpc₀
    rfl

/-- An `Insert` that has begun. -/
theorem inserting_begin {d d' : Deque (Fin W) T} {v : T}
    (hs : ChaseLev.Step d (.beginInsert v) d') : Inserting d' v := by
  cases hs
  exact ⟨_, rfl, rfl⟩

/-- A step that works on queue `k` leaves the others alone. -/
theorem setQueue_step {s : State W P T} {k : QueueId W P} {d : Deque (Fin W) T}
    {e : ChaseLev.Event (Fin W) T} (hd : ChaseLev.Step (s.queues k) e d) (k' : QueueId W P) :
    (s.setQueue k d).queues k' = s.queues k' ∨
      ∃ e, ChaseLev.Step (s.queues k') e ((s.setQueue k d).queues k') := by
  by_cases hk : k' = k
  · subst hk
    exact .inr ⟨e, by simpa [State.setQueue] using hd⟩
  · exact .inl (by simp [State.setQueue, Function.update_of_ne hk])

/-- Every step makes at most one atomic step in each queue. -/
theorem ExtStep.queues {s s' : State W P T} {e : Event W T} (hs : ExtStep s e s')
    (k : QueueId W P) :
    s'.queues k = s.queues k ∨ ∃ e, ChaseLev.Step (s.queues k) e (s'.queues k) := by
  cases hs with
  | submitAdd _ hd | insertStep _ hd | inserted _ hd => exact setQueue_step hd k
  | _ => exact .inl rfl

/-- A step of a worker is at most one step on each queue. -/
theorem WorkerStep.queues {w : Fin W} {s s' : State W P T} {e : Event W T}
    (hs : WorkerStep w s e s') (k : QueueId W P) :
    s'.queues k = s.queues k ∨ ∃ e, ChaseLev.Step (s.queues k) e (s'.queues k) := by
  cases hs with
  | takeOwn _ hd | takeStep _ hd | took _ hd | tookNone _ hd | stealStep _ hd | stole _ hd
  | stoleNone _ hd | trySubmitted _ hd | submittedStep _ hd | stoleSubmitted _ hd
  | stoleNoneSubmitted _ hd | submitAdd _ hd | insertStep _ hd | inserted _ hd
  | victim _ _ hd => exact setQueue_step hd k
  | _ => exact .inl rfl

/-! ## Load and running tasks under a step -/

section

variable {s : State W P T} {k : QueueId W P} {d : Deque (Fin W) T} {e : ChaseLev.Event (Fin W) T}

/-- The load when a call on a queue goes on: what it takes out and what it puts in. -/
theorem load_queue (h : ChaseLev.Inv (s.queues k)) (hd : ChaseLev.Step (s.queues k) e d) :
    (s.setQueue k d).load g + popped g e = s.load g + pushed g e := by
  have hload := load_setQueue g s k d
  have hweigh := weigh_step g h hd
  omega

theorem load_queue_worker (h : ChaseLev.Inv (s.queues k)) (hd : ChaseLev.Step (s.queues k) e d)
    (w : Fin W) (pc : WorkerPc W P T) :
    ((s.setQueue k d).setWorker w pc).load g + popped g e +
        ((s.workers w).offered g + (s.workers w).running g) =
      s.load g + pushed g e + (pc.offered g + pc.running g) := by
  have hqueue := load_queue g h hd
  have hworker := load_setWorker g (s.setQueue k d) w pc
  simp only [setQueue_workers] at hworker
  omega

/-- A worker that moves between tasks and a queue keeps the load. -/
theorem load_queue_worker_of_eq (h : ChaseLev.Inv (s.queues k))
    (hd : ChaseLev.Step (s.queues k) e d) {w : Fin W} {pc : WorkerPc W P T}
    (heq : popped g e + ((s.workers w).offered g + (s.workers w).running g) =
      pushed g e + (pc.offered g + pc.running g)) :
    ((s.setQueue k d).setWorker w pc).load g = s.load g := by
  have hload := load_queue_worker g h hd w pc
  omega

theorem load_queue_ext (h : ChaseLev.Inv (s.queues k)) (hd : ChaseLev.Step (s.queues k) e d)
    (pc : ExtPc W P T) :
    ((s.setQueue k d).setExt pc).load g + popped g e + s.ext.offered g =
      s.load g + pushed g e + pc.offered g := by
  have hqueue := load_queue g h hd
  have hext := load_setExt g (s.setQueue k d) pc
  simp only [setQueue_ext] at hext
  omega

end

/-- **Conservation**: a step of the external thread changes the load by what it submits. -/
theorem ExtStep.load {s s' : State W P T} {e : Event W T} (h : Inv s) (hs : ExtStep s e s') :
    s'.load g + weigh g e.finished.toList = s.load g + weigh g e.submitted.toList := by
  cases hs with
  | @submitAdd task q d hext hd =>
    have hload := load_queue_ext (s := s.setPending (s.pending + 1)) g (h.deque _) hd
      (.submitInsert task q)
    simpa [hext, ExtPc.offered, popped, pushed, Event.finished, Event.submitted] using hload
  | insertStep hext hd =>
    simpa [popped, pushed, Event.finished, Event.submitted] using load_queue g (h.deque _) hd
  | inserted hext hd =>
    obtain rfl := (h.insertingExt _ _ hext).inserted hd
    have hload := load_queue_ext g (h.deque _) hd (.growing .load)
    simpa [hext, ExtPc.offered, popped, pushed, Event.finished, Event.submitted, Nat.add_comm]
      using hload
  | @startThread index hext =>
    have hstart := load_setWorker g s index .checkStop
    have hload := load_setExt g (s.setWorker index .checkStop) .ready
    simp only [h.born.unborn_of_ext hext, WorkerPc.offered, WorkerPc.running, setWorker_ext, hext,
      ExtPc.offered] at hstart hload
    simp only [Event.finished, Event.submitted, Option.toList_none, weigh_nil]
    omega
  | submit _ _ hext | submitRefused hext | submitAccepted hext | grow hext | grown hext
  | wait hext | waitOwed hext | waitZero hext | sleep hext | waitChanged hext
  | wakeSpuriously hext | storeStop hext | joinOne _ hext | joinedAll hext =>
    refine congrArg (· + 0) (load_setExt_of_eq g _ ?_)
    simp [hext, ExtPc.offered]

/-- **Conservation**: a step of a worker changes the load by what it submits and by what
    it has finished processing. -/
theorem WorkerStep.load {w : Fin W} {s s' : State W P T} {e : Event W T} (h : Inv s)
    (hs : WorkerStep w s e s') :
    s'.load g + weigh g e.finished.toList = s.load g + weigh g e.submitted.toList := by
  cases hs with
  | takeStep _ hd | stealStep _ hd | submittedStep _ hd | insertStep _ hd =>
    -- Steps inside a call on a queue.
    simpa [popped, pushed, Event.finished, Event.submitted] using load_queue g (h.deque _) hd
  | takeOwn hpc hd | took hpc hd | tookNone hpc hd | victim hpc _ hd | stole hpc hd
  | stoleNone hpc hd | trySubmitted hpc hd | stoleSubmitted hpc hd =>
    refine congrArg (· + 0) (load_queue_worker_of_eq g (h.deque _) hd ?_)
    simp [hpc, WorkerPc.offered, WorkerPc.running, popped, pushed]
  | stoleNoneSubmitted hpc hd =>
    refine congrArg (· + 0) (load_queue_worker_of_eq g (h.deque _) hd ?_)
    rw [hpc, nextPriority_offered, nextPriority_running]
    rfl
  | inserted hpc hd =>
    obtain rfl := (h.inserting _ _ _ _ hpc).inserted hd
    refine congrArg (· + 0) (load_queue_worker_of_eq g (h.deque _) hd ?_)
    simp [hpc, WorkerPc.offered, WorkerPc.running, popped, pushed]
  | @submitAdd task new q d hpc hd =>
    -- The task is offered now, and counted as submitted.
    have hload := load_queue_worker (s := s.setPending (s.pending + 1)) g (h.deque _) hd w
      (.submitInsert task new q)
    simp only [setPending_workers, hpc, WorkerPc.offered, WorkerPc.running, popped, pushed,
      load_setPending] at hload
    simp only [Event.finished, Event.submitted, Option.toList_none, Option.toList_some, weigh_nil,
      weigh_cons]
    omega
  | @startThread task index hpc =>
    -- Two workers move: the one that grows the pool, and the one that is born.
    have hunborn := h.born.unborn_of_worker hpc
    have hne : w ≠ index := by
      rintro rfl
      simp [hpc] at hunborn
    have hstart := load_setWorker g s index .checkStop
    have hload := load_setWorker g (s.setWorker index .checkStop) w (.processing task)
    simp only [hunborn, setWorker_workers_of_ne _ _ hne, hpc, WorkerPc.offered,
      WorkerPc.running] at hstart hload
    simp only [Event.finished, Event.submitted, Option.toList_none, weigh_nil]
    omega
  | @subtract task hpc =>
    -- The task is no longer running, and counted as finished.
    have hload := load_setWorker g (s.setPending (s.pending - 1)) w
      (if s.pending = 1 then .notify else .checkStop)
    have hnew : (if s.pending = 1 then .notify else .checkStop : WorkerPc W P T).offered g +
        (if s.pending = 1 then .notify else .checkStop : WorkerPc W P T).running g = 0 := by
      split_ifs <;> rfl
    rw [hnew, setPending_workers, hpc, load_setPending] at hload
    simp only [WorkerPc.offered, WorkerPc.running] at hload
    simp only [Event.finished, Event.submitted, Option.toList_none, Option.toList_some, weigh_nil,
      weigh_cons]
    omega
  | wake hpc hext =>
    refine congrArg (· + 0) ?_
    rw [load_setExt_of_eq g _ (by simp [hext, ExtPc.offered]),
      load_setWorker_of_eq g _ (by simp [hpc, WorkerPc.offered])
        (by simp [hpc, WorkerPc.running])]
  | acquire hpc _ =>
    refine congrArg (· + 0) (load_setWorker_of_eq g _ ?_ ?_)
    · rw [hpc, firstPriority_offered]
      rfl
    · rw [hpc, firstPriority_running]
      rfl
  | stopped hpc _ | skipSelf hpc | noVictimLeft hpc _ | submit _ _ hpc | processed hpc
  | grow hpc _ | grown hpc _ | notify hpc _ =>
    refine congrArg (· + 0) (load_setWorker_of_eq g _ ?_ ?_)
    · simp [hpc, WorkerPc.offered]
    · simp [hpc, WorkerPc.running]

end Remmy.TaskScheduler
