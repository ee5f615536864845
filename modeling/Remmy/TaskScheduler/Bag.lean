import Remmy.TaskScheduler.Invariant
import Mathlib.Algebra.Order.BigOperators.Group.Multiset
import Mathlib.Algebra.BigOperators.Group.Multiset.Basic

/-!
# The Task Scheduler as a Bag of Tasks

What the scheduler is for, without queues and counters: a bag of waiting tasks from which
workers draw in any order, and which `Wait` closes when nothing waits and nobody works.
The scheduler of `Remmy.TaskScheduler.Scheduler` refines it, step by step.

`exactly_once` collects what follows for a run of the scheduler.
-/

namespace Remmy.TaskScheduler

open Remmy.Lib
open Remmy.ChaseLev (Deque)

universe u

variable {W P : ℕ} {T : Type u}

/-! ## The bag -/

/-- The tasks waiting, the task each worker processes, and whether `Wait` is over. -/
@[ext] structure Bag (W : ℕ) (T : Type u) where
  waiting : Multiset T
  running : Fin W → Option T
  closed : Bool

/-- Submitting, drawing and finishing a task, and finding nothing left to do. -/
inductive Bag.Step : Bag W T → Event W T → Bag W T → Prop
  | submit {b : Bag W T} (task : T) : b.closed = false →
      Bag.Step b (.submit task) { b with waiting := task ::ₘ b.waiting }
  | start {b : Bag W T} {w : Fin W} {task : T} {rest : Multiset T} : b.running w = none →
      b.waiting = task ::ₘ rest →
      Bag.Step b (.start w task)
        { b with waiting := rest, running := Function.update b.running w (some task) }
  | finish {b : Bag W T} {w : Fin W} {task : T} : b.running w = some task →
      Bag.Step b (.finish w task) { b with running := Function.update b.running w none }
  | sawZero {b : Bag W T} : b.waiting = 0 → (∀ w, b.running w = none) →
      Bag.Step b .sawZero { b with closed := true }

/-- The bag, empty and open at first. -/
def bagSystem (W : ℕ) (T : Type u) : System (Bag W T) (Event W T) where
  init b := b = ⟨0, fun _ => none, false⟩
  step := Bag.Step

/-- The tasks an observation of the events of a run shows, with repetitions. -/
def observed (f : Event W T → Option T) (tr : List (Event W T)) : Multiset T :=
  (tr.filterMap f : List T)

theorem observed_nil (f : Event W T → Option T) : observed f [] = 0 := rfl

theorem observed_snoc (f : Event W T → Option T) (tr : List (Event W T)) (e : Event W T) :
    observed f (tr ++ [e]) = observed f tr + (f e).toList := by
  rw [observed, List.filterMap_append, ← Multiset.coe_add]
  cases he : f e <;> simp [observed, he]

/-- The tasks submitted in a run. -/
def submits (tr : List (Event W T)) : Multiset T := observed Event.submitted tr

/-- The tasks passed to `Process` in a run. -/
def starts (tr : List (Event W T)) : Multiset T := observed Event.started tr

/-- The tasks fully processed in a run. -/
def finishes (tr : List (Event W T)) : Multiset T := observed Event.finished tr

/-- The tasks being processed. -/
def Bag.processing (b : Bag W T) : Multiset T := ∑ w, ((b.running w).toList : Multiset T)

theorem processing_update (b : Bag W T) (w : Fin W) (r : Option T) :
    (∑ k, ((Function.update b.running w r k).toList : Multiset T)) + (b.running w).toList =
      b.processing + r.toList :=
  sum_update_add b.running (fun _ r => (r.toList : Multiset T)) w r

/-- The books of a bag: every task submitted is waiting or was drawn once, every task drawn
    is being processed or was finished once, and a closed bag is empty. -/
structure Bag.Accounted (tr : List (Event W T)) (b : Bag W T) : Prop where
  submitted : submits tr = starts tr + b.waiting
  started : starts tr = finishes tr + b.processing
  closed : b.closed = true → b.waiting = 0 ∧ ∀ w, b.running w = none

/-- One step keeps the books. -/
theorem Bag.Accounted.step {tr : List (Event W T)} {b b' : Bag W T} {e : Event W T}
    (h : b.Accounted tr) (hs : Bag.Step b e b') : b'.Accounted (tr ++ [e]) := by
  have hsub := h.submitted
  have hstart := h.started
  simp only [submits, starts, finishes] at hsub hstart
  cases hs with
  | submit task hopen =>
    refine ⟨?_, ?_, fun hclosed => by simp [hopen] at hclosed⟩
    · simp only [submits, starts, observed_snoc, Event.submitted, Event.started, hsub]
      simp [Multiset.add_cons, add_comm _ {task}]
    · simp only [starts, finishes, observed_snoc, Event.started, Event.finished, hstart]
      simp [Bag.processing]
  | @start w task rest hidle hwait =>
    -- The task goes from those waiting to those being processed.
    have hproc := processing_update b w (some task)
    simp only [hidle, Option.toList_none, Multiset.coe_nil, add_zero] at hproc
    refine ⟨?_, ?_, fun hclosed => ?_⟩
    · simp only [submits, starts, observed_snoc, Event.submitted, Event.started, hsub, hwait]
      simp [add_assoc]
    · simp only [starts, finishes, observed_snoc, Event.started, Event.finished, hstart,
        Bag.processing, hproc]
      simp [add_assoc]
    · simp [(h.closed hclosed).1] at hwait
  | @finish w task hrun =>
    have hproc := processing_update b w none
    simp only [hrun, Option.toList_none, Multiset.coe_nil, add_zero] at hproc
    refine ⟨?_, ?_, fun hclosed => ?_⟩
    · simpa [submits, starts, observed_snoc, Event.submitted, Event.started] using hsub
    · rw [← hproc] at hstart
      simp only [starts, finishes, observed_snoc, Event.started, Event.finished, hstart,
        Bag.processing]
      simp [add_comm _ {task}]
    · simp [(h.closed hclosed).2 w] at hrun
  | sawZero hwait hrun =>
    -- The bag is closed when it is empty.
    refine ⟨?_, ?_, fun _ => ⟨hwait, hrun⟩⟩
    · simpa [submits, starts, observed_snoc, Event.submitted, Event.started] using hsub
    · simpa [starts, finishes, observed_snoc, Event.started, Event.finished, Bag.processing]
        using hstart

/-- The books are in order in every run of a bag. -/
theorem bag_accounted {tr : List (Event W T)} {b : Bag W T} (h : (bagSystem W T).Run tr b) :
    b.Accounted tr := by
  refine h.invariant (I := fun tr b => b.Accounted tr) ?_ fun _ _ _ _ _ hb hs => hb.step hs
  rintro b rfl
  exact ⟨rfl, by simp [starts, finishes, observed_nil, Bag.processing], nofun⟩

/-! ## The scheduler's bag -/

/-- The task a worker is processing. -/
def WorkerPc.task : WorkerPc W P T → Option T
  | .processing task | .submitAdd task _ _ | .submitInsert task _ _ | .growing task _
  | .subtract task => some task
  | _ => none

/-- The task a worker has counted and not yet inserted. -/
def WorkerPc.inserting : WorkerPc W P T → Option T
  | .submitInsert _ new _ => some new
  | _ => none

/-- The task the external thread has counted and not yet inserted. -/
def ExtPc.inserting : ExtPc W P T → Option T
  | .submitInsert task _ => some task
  | _ => none

/-- The tasks in queues or on their way into one. -/
def State.waiting (s : State W P T) : Multiset T :=
  (∑ k, ((s.queues k).stored : Multiset T)) +
    (s.ext.inserting.toList + ∑ w, ((s.workers w).inserting.toList : Multiset T))

open scoped Classical in
/-- What the scheduler's state is as a bag. -/
noncomputable def State.bag (s : State W P T) : Bag W T where
  waiting := s.waiting
  running w := (s.workers w).task
  closed := decide s.ext.waited

/-- What an event means for the bag. -/
def Event.visible : Event W T → Option (Event W T)
  | .internal => none
  | e => some e

/-! ## The scheduler refines the bag -/

theorem running_eq_task (g : T → ℕ) (pc : WorkerPc W P T) : pc.running g = weigh g pc.task.toList := by
  cases pc <;> simp [WorkerPc.running, WorkerPc.task]

/-- Weighing single copies of a task counts it in the bag. -/
theorem count_waiting [DecidableEq T] (s : State W P T) (x : T) :
    s.waiting.count x =
      s.queued (fun y => if y = x then 1 else 0) + s.offered (fun y => if y = x then 1 else 0) := by
  have hext : (s.ext.inserting.toList : Multiset T).count x =
      s.ext.offered (fun y => if y = x then 1 else 0) := by
    cases s.ext <;> simp [ExtPc.inserting, ExtPc.offered, Multiset.count_singleton, eq_comm]
  have hworkers : ∀ w, ((s.workers w).inserting.toList : Multiset T).count x =
      (s.workers w).offered (fun y => if y = x then 1 else 0) := by
    intro w
    cases s.workers w <;> simp [WorkerPc.inserting, WorkerPc.offered, Multiset.count_singleton, eq_comm]
  simp only [State.waiting, State.queued, State.offered, Multiset.count_add, Multiset.count_sum',
    hext, hworkers, Multiset.coe_count, weigh_count]

/-- With weight 1 for each task, the weights count the tasks of the bag. -/
theorem card_waiting (s : State W P T) :
    s.bag.waiting.card = s.queued (fun _ => 1) + s.offered (fun _ => 1) := by
  have hext : s.ext.inserting.toList.length = s.ext.offered (fun _ => 1) := by
    cases s.ext <;> rfl
  have hworkers : ∀ w, (s.workers w).inserting.toList.length =
      (s.workers w).offered (fun _ => 1) := by
    intro w
    cases s.workers w <;> rfl
  simp only [State.bag, State.waiting, State.queued, State.offered, Multiset.card_add,
    Multiset.card_sum, Multiset.coe_card, hext, hworkers, weigh_one]

theorem card_processing (s : State W P T) :
    s.bag.processing.card = s.running (fun _ => 1) := by
  simp only [State.bag, Bag.processing, State.running, Multiset.card_sum, Multiset.coe_card,
    running_eq_task, weigh_one]

variable [Inhabited T]

/-- The task a worker processes changes only with the events that say so. -/
theorem WorkerStep.task {w : Fin W} {s s' : State W P T} {e : Event W T}
    (hs : WorkerStep w s e s') :
    match e with
    | .start w' task => w' = w ∧ (s.workers w).task = none ∧ (s'.workers w).task = some task
    | .finish w' task => w' = w ∧ (s.workers w).task = some task ∧ (s'.workers w).task = none
    | .sawZero => False
    | _ => (s'.workers w).task = (s.workers w).task := by
  have hself (s : State W P T) (pc : WorkerPc W P T) : (s.setWorker w pc).workers w = pc :=
    Function.update_self ..
  cases hs with
  | took hpc | stole hpc | stoleSubmitted hpc => exact ⟨rfl, by rw [hpc]; rfl, by rw [hself]; rfl⟩
  | subtract hpc =>
    refine ⟨rfl, by rw [hpc]; rfl, ?_⟩
    rw [hself]
    split_ifs <;> rfl
  | takeStep | stealStep | submittedStep | insertStep => rfl
  | acquire hpc =>
    simp only [hself, hpc, firstPriority]
    split <;> rfl
  | stoleNoneSubmitted hpc =>
    simp only [hself, hpc, nextPriority]
    split <;> rfl
  | wake hpc => simp only [setExt_workers, hself, hpc, WorkerPc.task]
  | stopped hpc | takeOwn hpc | tookNone hpc | skipSelf hpc | victim hpc | noVictimLeft hpc
  | stoleNone hpc | trySubmitted hpc | submit _ _ hpc | submitAdd hpc | inserted hpc | grow hpc
  | grown hpc | startThread hpc | processed hpc | notify hpc =>
    simp only [hself, hpc, WorkerPc.task]

omit [Inhabited T] in
theorem task_of_other {pc pc' : WorkerPc W P T}
    (h : pc' = pc ∨ pc = .unborn ∧ pc' = .checkStop) : pc'.task = pc.task := by
  rcases h with rfl | ⟨rfl, rfl⟩ <;> rfl

theorem WorkerStep.tasks {w : Fin W} {s s' : State W P T} {e : Event W T} (h : Inv s)
    (hs : WorkerStep w s e s') :
    (fun k => (s'.workers k).task) =
      Function.update (fun k => (s.workers k).task) w (s'.workers w).task := by
  funext k
  by_cases hk : k = w
  · subst hk
    rw [Function.update_self]
  · rw [Function.update_of_ne hk]
    exact task_of_other (hs.workers h.born hk)

theorem WorkerStep.waiting {w : Fin W} {s s' : State W P T} {e : Event W T} (h : Inv s)
    (hs : WorkerStep w s e s') :
    s'.waiting + (s'.workers w).task.toList + e.finished.toList =
      s.waiting + (s.workers w).task.toList + (e.submitted.toList : Multiset T) := by
  classical
  refine Multiset.ext.mpr fun x => ?_
  have hload := hs.load (fun y => if y = x then 1 else 0) h
  have hrun := sum_update_add (fun k => (s.workers k).task)
    (fun _ task => weigh (fun y => if y = x then 1 else 0) task.toList) w (s'.workers w).task
  rw [← hs.tasks h] at hrun
  simp only [State.load, State.running, running_eq_task, weigh_count] at hload hrun
  simp only [Multiset.count_add, count_waiting, Multiset.coe_count]
  omega

theorem ExtStep.waiting {s s' : State W P T} {e : Event W T} (h : Inv s) (hs : ExtStep s e s') :
    s'.waiting + e.finished.toList = s.waiting + (e.submitted.toList : Multiset T) := by
  classical
  refine Multiset.ext.mpr fun x => ?_
  have hload := hs.load (fun y => if y = x then 1 else 0) h
  have htasks : ∀ k, (s'.workers k).task = (s.workers k).task :=
    fun k => task_of_other (hs.workers h.born k)
  simp only [State.load, State.running, running_eq_task, weigh_count, htasks] at hload
  simp only [Multiset.count_add, count_waiting, Multiset.coe_count]
  omega

omit [Inhabited T] in
/-- With nothing pending, nothing waits and nobody works. -/
theorem Inv.bag_empty {s : State W P T} (h : Inv s) (hzero : s.pending = 0) :
    s.bag.waiting = 0 ∧ (∀ w, s.bag.running w = none) ∧ ∀ k, (s.queues k).stored = [] := by
  classical
  have hload := h.pending.symm.trans hzero
  have hqueued : s.queued (fun _ => 1) = 0 := by simp only [State.load] at hload; omega
  have hoffered : s.offered (fun _ => 1) = 0 := by simp only [State.load] at hload; omega
  have hrunning : s.running (fun _ => 1) = 0 := by simp only [State.load] at hload; omega
  have hqueues : ∀ k, (s.queues k).stored = [] := by
    intro k
    have hk := Finset.sum_eq_zero_iff.mp hqueued k (Finset.mem_univ k)
    rw [weigh_one] at hk
    exact List.eq_nil_of_length_eq_zero hk
  refine ⟨?_, fun w => ?_, hqueues⟩
  · simp only [State.offered, Nat.add_eq_zero_iff, Finset.sum_eq_zero_iff, Finset.mem_univ,
      true_implies] at hoffered
    have hext : s.ext.inserting = none := by
      have hoff := hoffered.1
      revert hoff
      cases s.ext <;> simp [ExtPc.inserting, ExtPc.offered]
    have hworkers : ∀ w, (s.workers w).inserting = none := by
      intro w
      have hoff := hoffered.2 w
      revert hoff
      cases s.workers w <;> simp [WorkerPc.inserting, WorkerPc.offered]
    simp [State.bag, State.waiting, hqueues, hext, hworkers]
  · have hw := Finset.sum_eq_zero_iff.mp hrunning w (Finset.mem_univ w)
    revert hw
    simp only [State.bag]
    cases s.workers w <;> simp [WorkerPc.running, WorkerPc.task]

omit [Inhabited T] in
/-- Two states are the same bag when the same tasks wait and run. -/
theorem bag_eq {s : State W P T} {b : Bag W T} (hwait : s.waiting = b.waiting)
    (htasks : (fun k => (s.workers k).task) = b.running) (hclosed : s.ext.waited ↔ b.closed = true) :
    s.bag = b := by
  classical
  ext1
  · exact hwait
  · exact htasks
  · simp only [State.bag, hclosed, Bool.decide_eq_true]

theorem ExtStep.refines {s s' : State W P T} {e : Event W T} (h : Inv s) (hs : ExtStep s e s') :
    match e.visible with
    | some b => Bag.Step s.bag b s'.bag
    | none => s'.bag = s.bag := by
  have hwait := hs.waiting h
  have htasks : (fun k => (s'.workers k).task) = s.bag.running :=
    funext fun k => task_of_other (hs.workers h.born k)
  cases hs with
  | @submitAdd task q d hext hd =>
    have hopen : s.bag.closed = false := by simp [State.bag, hext, ExtPc.waited]
    have hbag := bag_eq (b := { s.bag with waiting := task ::ₘ s.bag.waiting })
      (by simpa [Event.finished, Event.submitted, State.bag, add_comm _ {task}] using hwait) htasks
      (by simp [hopen, State.setExt, ExtPc.waited])
    exact hbag ▸ .submit task hopen
  | waitZero hext hzero =>
    have hempty := h.bag_empty hzero
    have hbag := bag_eq (b := { s.bag with closed := true })
      (by simpa [Event.finished, Event.submitted, State.bag] using hwait) htasks
      (by simp [State.setExt, ExtPc.waited])
    exact hbag ▸ .sawZero hempty.1 hempty.2.1
  | insertStep hext _ =>
    refine bag_eq (by simpa [Event.finished, Event.submitted, State.bag] using hwait) htasks ?_
    simp [State.bag, hext, ExtPc.waited]
  | submit _ _ hext | submitRefused hext | submitAccepted hext | inserted hext | grow hext
  | grown hext | startThread hext | wait hext | waitOwed hext | sleep hext | waitChanged hext
  | wakeSpuriously hext | storeStop hext | joinOne _ hext | joinedAll hext =>
    refine bag_eq (by simpa [Event.finished, Event.submitted, State.bag] using hwait) htasks ?_
    simp [State.bag, State.setExt, hext, ExtPc.waited]

theorem WorkerStep.refines {w : Fin W} {s s' : State W P T} {e : Event W T} (h : Inv s)
    (hs : WorkerStep w s e s') :
    match e.visible with
    | some b => Bag.Step s.bag b s'.bag
    | none => s'.bag = s.bag := by
  have hwait := hs.waiting h
  have htasks := hs.tasks h
  have htask := hs.task
  have hclosed : s'.ext.waited ↔ s.bag.closed = true := by
    rw [hs.waited]
    simp [State.bag]
  cases e with
  | internal =>
    simp only at htask
    refine bag_eq ?_ ?_ hclosed
    · simpa [htask, Event.finished, Event.submitted, State.bag] using hwait
    · rw [htasks, htask, Function.update_eq_self]
      rfl
  | sawZero => exact htask.elim
  | submit task =>
    simp only at htask
    have hopen : s.bag.closed = false := by
      cases hs with
      | submitAdd hpc _ =>
        -- Whoever submits is being processed, so the counter is not 0 yet.
        have hpos := h.pending_pos (w := w) (by rw [hpc]; rfl)
        simp only [State.bag, decide_eq_false_iff_not]
        exact fun hwaited => hpos.ne' (h.quiet hwaited)
    have hbag := bag_eq (s := s') (b := { s.bag with waiting := task ::ₘ s.bag.waiting })
      (by
        simp only [htask, Event.finished, Event.submitted, Option.toList_none, Option.toList_some,
          Multiset.coe_nil, add_zero, add_right_comm _ _ (_ : Multiset T)] at hwait
        simpa [State.bag, add_comm _ {task}] using add_right_cancel hwait)
      (by rw [htasks, htask, Function.update_eq_self]; rfl) hclosed
    exact hbag ▸ .submit task hopen
  | start w' task =>
    obtain ⟨rfl, hidle, hrun⟩ := htask
    have hbag := bag_eq (s := s') (b := { s.bag with
        waiting := s'.waiting, running := Function.update s.bag.running w' (some task) }) rfl
      (by rw [htasks, hrun]; rfl) hclosed
    refine hbag ▸ .start hidle ?_
    simpa [hidle, hrun, Event.finished, Event.submitted, State.bag, add_comm _ {task}, eq_comm]
      using hwait
  | finish w' task =>
    obtain ⟨rfl, hrun, hidle⟩ := htask
    have hbag := bag_eq (s := s') (b := { s.bag with
        running := Function.update s.bag.running w' none })
      (by simpa [hidle, hrun, Event.finished, Event.submitted, State.bag] using hwait)
      (by rw [htasks, hidle]; rfl) hclosed
    exact hbag ▸ .finish hrun

/-- **Refinement**: a step of the scheduler is a step of the bag, or nothing to it. -/
theorem Inv.refines {s s' : State W P T} {e : Event W T} (h : Inv s)
    (hs : (system W P T).step s e s') :
    match e.visible with
    | some b => Bag.Step s.bag b s'.bag
    | none => s'.bag = s.bag := by
  rcases hs with hs | ⟨w, hs⟩
  · exact hs.refines h
  · exact hs.refines h

/-- Every run of the scheduler is a run of the bag. -/
theorem bag_of_run {tr : List (Event W T)} {s : State W P T} (h : (system W P T).Run tr s) :
    (bagSystem W T).Run (tr.filterMap Event.visible) s.bag := by
  refine h.simulates State.bag Event.visible ?_ ?_
  · rintro s rfl
    refine bag_eq ?_ rfl ?_
    · simp [State.waiting, State.initial, ExtPc.inserting, WorkerPc.inserting]
    · simp [State.initial, ExtPc.waited]
  · intro _ s e s' hr hs
    have hstep := (inv_of_run hr).refines hs
    cases hvis : e.visible with
    | none => simpa [hvis] using hstep
    | some b =>
      rw [hvis] at hstep
      exact hstep

omit [Inhabited T] in
/-- What is internal to the scheduler submits, starts and finishes nothing. -/
theorem observed_visible (f : Event W T → Option T) (hf : f .internal = none)
    (tr : List (Event W T)) : observed f (tr.filterMap Event.visible) = observed f tr := by
  rw [observed, observed, List.filterMap_filterMap]
  congr 2
  funext e
  cases e <;> simp [Event.visible, hf]

/-! ## Exactly once -/

omit [Inhabited T] in
/-- While a task is pending, some thread is in its loop, or about to be started. -/
theorem Inv.thread_alive {s : State W P T} (h : Inv s) (hW : 0 < W) (hp : s.pending ≠ 0) :
    s.ext.mayGrow ∨ (∃ w, s.workers w ≠ .unborn ∧ s.workers w ≠ .exited) ∨
      ∃ index, s.ext = .growing (.start index) := by
  by_cases hlive : s.live = 0
  · exact .inl ((h.alive hp hlive).resolve_left hW.ne')
  · refine .inr ?_
    have hb := h.births ⟨0, hW⟩
    rw [if_pos (Nat.pos_of_ne_zero hlive)] at hb
    have hnot : ∀ w, s.workers w ≠ .exited := fun w hw =>
      hp (h.quiet (h.stopped (h.exited w hw)))
    by_contra hnobody
    simp only [not_or, not_exists, not_and_not_right] at hnobody
    have hunborn : ∀ w, s.workers w = .unborn := fun w => by
      by_contra hw
      exact hnot w (hnobody.1 w hw)
    have hext : s.ext.births ⟨0, hW⟩ = 0 := by
      cases hext : s.ext with
      | growing g =>
        cases g with
        | start index => exact absurd hext (hnobody.2 index)
        | _ => rfl
      | _ => rfl
    simp [State.births, hext, hunborn, WorkerPc.births] at hb

/-- **Exactly once, and `Wait` means done.**  In every run: the tasks submitted are those
    passed to `Process`, each once, and those still in or on their way into a queue;
    `pending_tasks_` counts exactly these and the tasks in `Process`, so it never
    underflows; once the loop of `Wait` has read 0 every submitted task has been fully
    processed and every queue is empty; the external thread never sleeps on a counter of 0
    with nobody left to notify it; and tasks never wait with no thread to take them. -/
theorem exactly_once {tr : List (Event W T)} {s : State W P T} (h : (system W P T).Run tr s) :
    (submits tr = starts tr + s.bag.waiting ∧ starts tr = finishes tr + s.bag.processing) ∧
      (s.pending = s.bag.waiting.card + s.bag.processing.card ∧
        ∑ k, (s.queues k).stored.length ≤ s.bag.waiting.card ∧
        ∀ w task, s.workers w = .subtract task → 0 < s.pending) ∧
      (s.ext.waited → submits tr = starts tr ∧ starts tr = finishes tr ∧
        ∀ k, (s.queues k).stored = []) ∧
      (∀ owed, s.ext = .asleep owed → s.pending = 0 → ∃ w, s.workers w = .notify) ∧
      (0 < W → s.pending ≠ 0 → s.ext.mayGrow ∨
        (∃ w, s.workers w ≠ .unborn ∧ s.workers w ≠ .exited) ∨
          ∃ index, s.ext = .growing (.start index)) := by
  have hinv := inv_of_run h
  have hbooks := bag_accounted (bag_of_run h)
  have hsub : submits tr = starts tr + s.bag.waiting := by
    simpa only [submits, starts, observed_visible Event.submitted rfl,
      observed_visible Event.started rfl] using hbooks.submitted
  have hstart : starts tr = finishes tr + s.bag.processing := by
    simpa only [starts, finishes, observed_visible Event.started rfl,
      observed_visible Event.finished rfl] using hbooks.started
  refine ⟨⟨hsub, hstart⟩, ⟨?_, ?_, fun w task hw => hinv.pending_pos (w := w) (by rw [hw]; rfl)⟩,
    fun hwaited => ?_, hinv.awake, hinv.thread_alive⟩
  · rw [hinv.pending, State.load, card_waiting, card_processing]
  · rw [card_waiting, State.queued]
    simp only [weigh_one]
    exact Nat.le_add_right _ _
  · have hempty := hinv.bag_empty (hinv.quiet hwaited)
    refine ⟨?_, ?_, hempty.2.2⟩
    · rw [hsub, hempty.1, add_zero]
    · rw [hstart]
      simp [Bag.processing, hempty.2.1]

/-- One worker, which processes a task and another one that `Process` submits, while the external
    thread sleeps in `Wait`; it is woken for the last one, and `Wait` returns. -/
theorem exactly_once_two : ∃ (tr : List (Event 1 ℕ)) (s : State 1 1 ℕ),
    s.ext = .done ∧ starts tr = {5, 6} ∧
      submits tr = starts tr ∧ starts tr = finishes tr ∧ ∀ k, (s.queues k).stored = [] := by
  have h₀ : (system 1 1 ℕ).Run [] (.initial 1 1 ℕ) := .start rfl
  -- the external thread submits a task and starts the worker
  have hcalled := (h₀.next (.inl (.submit 5 0 rfl))).next (.inl (.submitAccepted rfl rfl))
  have hcounted := hcalled.next (.inl (.submitAdd rfl (.beginInsert 5 rfl)))
  have hdata := ((hcounted.next (.inl (.insertStep rfl (.insertStep rfl rfl)))).next
    (.inl (.insertStep rfl (.insertStep rfl rfl)))).next
    (.inl (.insertStep rfl (.insertStep rfl rfl)))
  have hslot := ((hdata.next (.inl (.insertStep rfl (.insertStep rfl rfl)))).next
    (.inl (.insertStep rfl (.insertStep rfl rfl)))).next
    (.inl (.insertStep rfl (.insertStep rfl rfl)))
  have hinserted := (hslot.next (.inl (.inserted rfl (.inserted rfl rfl)))).next
    (.inl (.grow rfl .load))
  have hgrown := (hinserted.next (.inl (.grow rfl (.more Nat.zero_lt_one (by decide))))).next
    (.inl (.grow rfl (.won rfl)))
  have hstarted := hgrown.next (.inl (.startThread rfl))
  -- it waits
  have hwaiting := (hstarted.next (.inl (.wait rfl))).next (.inl (.waitOwed rfl (by decide)))
  have hasleep := hwaiting.next (.inl (.sleep (show _ = ExtPc.waitCheck 1 from rfl) rfl))
  -- the worker finds its own queue empty, skips itself, and steals the task
  have htaking := (hasleep.next (.inr ⟨0, .acquire rfl rfl⟩)).next
    (.inr ⟨0, .takeOwn rfl (.beginTake rfl)⟩)
  have hrestore := (((htaking.next (.inr ⟨0, .takeStep rfl (.takeStep rfl rfl)⟩)).next
    (.inr ⟨0, .takeStep rfl (.takeStep rfl rfl)⟩)).next
    (.inr ⟨0, .takeStep rfl (.takeStep rfl rfl)⟩)).next
    (.inr ⟨0, .takeStep rfl (.takeStep rfl rfl)⟩)
  have hvictims := (hrestore.next (.inr ⟨0, .tookNone rfl (.took rfl rfl)⟩)).next
    (.inr ⟨0, .skipSelf rfl⟩)
  have hstealing := (hvictims.next (.inr ⟨0, .noVictimLeft rfl le_rfl⟩)).next
    (.inr ⟨0, .trySubmitted rfl (.beginSteal 0 rfl)⟩)
  have hstealData := ((hstealing.next (.inr ⟨0, .submittedStep rfl (.stealStep rfl rfl)⟩)).next
    (.inr ⟨0, .submittedStep rfl (.stealStep rfl rfl)⟩)).next
    (.inr ⟨0, .submittedStep rfl (.stealStep rfl rfl)⟩)
  have hstealCas := (hstealData.next (.inr ⟨0, .submittedStep rfl (.stealStep rfl rfl)⟩)).next
    (.inr ⟨0, .submittedStep rfl (.stealStep rfl rfl)⟩)
  have hprocessing := hstealCas.next (.inr ⟨0, .stoleSubmitted rfl (.stole rfl rfl)⟩)
  -- `Process` submits another one
  have hnew := (hprocessing.next (.inr ⟨0, .submit 6 0 rfl⟩)).next
    (.inr ⟨0, .submitAdd rfl (.beginInsert 6 rfl)⟩)
  have hnewData := ((hnew.next (.inr ⟨0, .insertStep rfl (.insertStep rfl rfl)⟩)).next
    (.inr ⟨0, .insertStep rfl (.insertStep rfl rfl)⟩)).next
    (.inr ⟨0, .insertStep rfl (.insertStep rfl rfl)⟩)
  have hnewSlot := ((hnewData.next (.inr ⟨0, .insertStep rfl (.insertStep rfl rfl)⟩)).next
    (.inr ⟨0, .insertStep rfl (.insertStep rfl rfl)⟩)).next
    (.inr ⟨0, .insertStep rfl (.insertStep rfl rfl)⟩)
  have hnewInserted := (hnewSlot.next (.inr ⟨0, .inserted rfl (.inserted rfl rfl)⟩)).next
    (.inr ⟨0, .grow rfl .load⟩)
  have hreturned := (hnewInserted.next (.inr ⟨0, .grown rfl (.enough (by decide))⟩)).next
    (.inr ⟨0, .processed rfl⟩)
  have hfirst := hreturned.next (.inr ⟨0, .subtract rfl⟩)
  -- which the worker takes from its own queue
  have hagain := (hfirst.next (.inr ⟨0, .acquire rfl rfl⟩)).next
    (.inr ⟨0, .takeOwn rfl (.beginTake rfl)⟩)
  have htakeTop := (((hagain.next (.inr ⟨0, .takeStep rfl (.takeStep rfl rfl)⟩)).next
    (.inr ⟨0, .takeStep rfl (.takeStep rfl rfl)⟩)).next
    (.inr ⟨0, .takeStep rfl (.takeStep rfl rfl)⟩)).next
    (.inr ⟨0, .takeStep rfl (.takeStep rfl rfl)⟩)
  have htakeLast := ((htakeTop.next (.inr ⟨0, .takeStep rfl (.takeStep rfl rfl)⟩)).next
    (.inr ⟨0, .takeStep rfl (.takeStep rfl rfl)⟩)).next
    (.inr ⟨0, .takeStep rfl (.takeStep rfl rfl)⟩)
  have hprocessed := (htakeLast.next (.inr ⟨0, .took rfl (.took rfl rfl)⟩)).next
    (.inr ⟨0, .processed rfl⟩)
  -- that was the last one: the external thread is woken
  have hlast := (hprocessed.next (.inr ⟨0, .subtract rfl⟩)).next
    (.inr ⟨0, .wake rfl (show _ = ExtPc.asleep 1 from rfl)⟩)
  have hzero := (hlast.next (.inl (.waitChanged (show _ = ExtPc.waitCheck 1 from rfl) (by decide)))).next
    (.inl (.waitZero rfl rfl))
  have hstop := hzero.next (.inl (.storeStop rfl))
  have hexited := hstop.next (.inr ⟨0, .stopped rfl rfl⟩)
  have hdone := (hexited.next (.inl (.joinOne Nat.zero_lt_one rfl (.inr rfl)))).next
    (.inl (.joinedAll rfl le_rfl))
  exact ⟨_, _, rfl, by decide +kernel, (exactly_once hdone).2.2.1 trivial⟩

end Remmy.TaskScheduler
