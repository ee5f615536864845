import Remmy.TaskScheduler.Bag
import Remmy.TaskScheduler.Threads
import Remmy.WorkStealingQueue.ChaseLevPhases
import Remmy.Lib.PriorityStacks

/-!
# One Worker: The Order of the Tasks

A scheduler of one slot to which one task is submitted from outside, under all interleavings of
its two threads.  `Process` may submit what it likes.

The reference scheduler keeps one stack for each priority and always runs the newest task of the
lowest-numbered priority that has one.  `State.stack` says where these stacks are in the
scheduler: a task counts from its `fetch_add` on, so a stack is made of the task being inserted,
the worker's own queue and the submission queue.

- `OneInv` is the invariant: calls on a queue are made one at a time (`State.phase`), and what
  `AcquireNextTask` has passed over is empty (`State.Searched`).
- `OneInv.step` is the step lemma; `order_of_run` is the run lemma.
-/

namespace Remmy.TaskScheduler

open Remmy.Lib
open Remmy.ChaseLev (Deque Phase PhaseStep)

universe u

variable {P : ℕ} {T : Type u}

/-! ## One slot, one submission from outside -/

/-- The two threads. -/
inductive OneThread
  | external
  | worker
  deriving DecidableEq

/-- Whose step it is, what it shows and, for a submission, the priority. -/
structure OneEvent (P : ℕ) (T : Type u) where
  thread : OneThread
  event : Event 1 T
  priority : Option (Fin P)

/-- The priority of the submission that the external thread is about to count. -/
def ExtPc.priority : ExtPc 1 P T → Option (Fin P)
  | .submitAdd _ q => some q
  | _ => none

/-- The priority of the submission that a worker is about to count. -/
def WorkerPc.priority : WorkerPc 1 P T → Option (Fin P)
  | .submitAdd _ _ q => some q
  | _ => none

/-- A step of the scheduler other than one that begins another submission from outside. -/
inductive OneStep [Inhabited T] : State 1 P T → OneEvent P T → State 1 P T → Prop
  | external {s s' : State 1 P T} {e : Event 1 T} : ExtStep s e s' →
      (∀ task q, s'.ext ≠ .submitCheck task q) → OneStep s ⟨.external, e, s.ext.priority⟩ s'
  | worker {s s' : State 1 P T} {e : Event 1 T} : WorkerStep 0 s e s' →
      OneStep s ⟨.worker, e, (s.workers 0).priority⟩ s'

/-- The scheduler in the call of `Submit(task, q)` that puts the first task into it. -/
def oneSystem (P : ℕ) (T : Type u) [Inhabited T] (task : T) (q : Fin P) :
    System (State 1 P T) (OneEvent P T) where
  init s := s = (State.initial 1 P T).setExt (.submitCheck task q)
  step := OneStep

/-! ## The reference scheduler -/

/-- What the reference scheduler is told: a submission, or that the next `Process` begins. -/
inductive Order (P : ℕ) (T : Type u)
  | submit (task : T) (q : Fin P)
  | next

/-- What an event tells the reference scheduler. -/
def OneEvent.order : OneEvent P T → Option (Order P T)
  | ⟨_, .submit task, some q⟩ => some (.submit task q)
  | ⟨_, .start _ _, _⟩ => some .next
  | _ => none

/-- The reference scheduler: its stacks, and the tasks it has run so far. -/
structure Reference (P : ℕ) (T : Type u) where
  stack : PriorityStacks P T
  processed : List T

/-- It runs the newest task of the lowest-numbered priority that has one. -/
def Reference.step (r : Reference P T) : Order P T → Reference P T
  | .submit task q => { r with stack := r.stack.push task q }
  | .next =>
    match r.stack.pop with
    | some (task, rest) => ⟨rest, r.processed ++ [task]⟩
    | none => r

/-- The reference scheduler after these orders. -/
def Reference.run (orders : List (Order P T)) : Reference P T :=
  orders.foldl Reference.step ⟨.empty, []⟩

/-- The tasks passed to `Process` in a run, in order. -/
def processedIn (tr : List (OneEvent P T)) : List T :=
  tr.filterMap fun e => e.event.started

/-- The orders a run contains. -/
def ordersIn (tr : List (OneEvent P T)) : List (Order P T) := tr.filterMap OneEvent.order

/-! ## Where the stacks are -/

/-- The call in progress that the external thread is making. -/
def ExtPc.phase : ExtPc 1 P T → QueueId 1 P → Phase (Fin 1) T
  | .submitInsert task q => Function.update (fun _ => .quiet) (.submitted q) (.inserting task)
  | _ => fun _ => .quiet

/-- The call in progress that the worker is making. -/
def WorkerPc.phase : WorkerPc 1 P T → QueueId 1 P → Phase (Fin 1) T
  | .taking p => Function.update (fun _ => .quiet) (.slot 0 p) .taking
  | .submitInsert _ new q => Function.update (fun _ => .quiet) (.slot 0 q) (.inserting new)
  | .stealingSubmitted p => Function.update (fun _ => .quiet) (.submitted p) (.stealing 0)
  | _ => fun _ => .quiet

/-- The only slot. -/
abbrev theSlot : Fin 1 := 0

/-- What a queue holds, newest first; a task being inserted counts already. -/
def heldIn : Phase (Fin 1) T → List T → List T
  | .inserting v, l => v :: l.reverse
  | _, l => l.reverse

namespace State

/-- The call in progress on each queue. -/
def phase (s : State 1 P T) : QueueId 1 P → Phase (Fin 1) T :=
  match s.workers 0 with
  | .unborn => s.ext.phase
  | pc => pc.phase

/-- What each queue holds, newest first. -/
def held (s : State 1 P T) (k : QueueId 1 P) : List T := heldIn (s.phase k) (s.queues k).stored

/-- The stacks of the reference scheduler. -/
def stack (s : State 1 P T) : PriorityStacks P T := fun p =>
  s.held (.slot 0 p) ++ s.held (.submitted p)

end State

/-- What `AcquireNextTask` has passed over is empty, of the stacks and of the own queues. -/
def WorkerPc.Searched (stack : PriorityStacks P T) (own : Fin P → List T) : WorkerPc 1 P T → Prop
  | .takeOwn p | .taking p => ∀ p' < p, stack p' = []
  | .victim p _ | .trySubmitted p | .stealingSubmitted p =>
    (∀ p' < p, stack p' = []) ∧ own p = []
  | _ => True

/-- What the worker has passed over is empty. -/
def State.Searched (s : State 1 P T) : Prop :=
  (s.workers 0).Searched s.stack fun p => s.held (.slot 0 p)

/-- The external thread is in its call of `Submit`. -/
def ExtPc.submitting : ExtPc 1 P T → Prop
  | .submitCheck .. | .submitAdd .. | .submitInsert .. | .growing _ => True
  | _ => False

/-- The external thread has not counted its task yet. -/
def ExtPc.before : ExtPc 1 P T → Prop
  | .submitCheck .. | .submitAdd .. => True
  | _ => False

/-- The external thread has not inserted its task yet. -/
def ExtPc.fresh : ExtPc 1 P T → Prop
  | .submitCheck .. | .submitAdd .. | .submitInsert .. => True
  | _ => False

/-- The worker has nobody to steal from, and no other thread to start. -/
def WorkerPc.Alone : WorkerPc 1 P T → Prop
  | .stealing .. => False
  | .growing _ g => g = .load ∨ g = .check 1
  | _ => True

/-- What holds in every reachable state of a scheduler with one slot and one submission. -/
structure OneInv (s : State 1 P T) : Prop where
  inv : Inv s
  phase : ∀ k, (s.queues k).Is (s.phase k)
  born : s.workers 0 ≠ .unborn → ¬s.ext.submitting
  live : s.live ≤ 1
  owed : s.workers 0 = .unborn → s.ext.before ∨ s.pending ≠ 0
  fresh : s.ext.fresh → ∀ k, (s.queues k).stored = []
  single : ∀ p, (s.queues (.submitted p)).stored.length ≤ 1
  searched : s.Searched
  alone : (s.workers 0).Alone

theorem OneInv.notStealing {s : State 1 P T} (h : OneInv s) {p : Fin P} {v : Fin 1}
    (hpc : s.workers 0 = .stealing p v) : False := by
  have halone := h.alone
  rw [hpc] at halone
  exact halone

theorem OneInv.growing {s : State 1 P T} (h : OneInv s) {task : T} {g : Grow 1}
    (hpc : s.workers 0 = .growing task g) : g = .load ∨ g = .check 1 := by
  have halone := h.alone
  rw [hpc] at halone
  exact halone

/-! ## One step of a queue -/

/-- The call in progress on a queue after an event. -/
def afterEvent (ph : Phase (Fin 1) T) : ChaseLev.Event (Fin 1) T → Phase (Fin 1) T
  | .beginInsert v => .inserting v
  | .beginTake => .taking
  | .beginSteal i => .stealing i
  | .ownerStep | .thiefStep _ => ph
  | .inserted _ | .took _ | .stole _ _ => .quiet

theorem afterEvent_eq {ph ph' : Phase (Fin 1) T} {l l' : List T} {e : ChaseLev.Event (Fin 1) T}
    (h : PhaseStep ph l e ph' l') : afterEvent ph e = ph' := by
  cases h <;> rfl

/-- What an event of a queue does to what it holds. -/
def Held (before after : List T) : ChaseLev.Event (Fin 1) T → Prop
  | .beginInsert v => after = v :: before
  | .took (some v) | .stole _ (some v) => before = v :: after
  | .took none | .stole _ none => before = [] ∧ after = []
  | _ => after = before

/-- A queue from whose front only a single element is stolen holds what a stack would. -/
theorem held_of_phaseStep {ph ph' : Phase (Fin 1) T} {l l' : List T}
    {e : ChaseLev.Event (Fin 1) T} (h : PhaseStep ph l e ph' l')
    (hone : ∀ i r, e = .stole i r → l.length ≤ 1) : Held (heldIn ph l) (heldIn ph' l') e := by
  cases h with
  | beginInsert v | insertStep | beginTake | takeStep | beginSteal i | stealStep => rfl
  | inserted => exact List.reverse_concat ..
  | took =>
    -- the back of the list is the top of the stack
    cases l using List.reverseRecOn with
    | nil => exact ⟨rfl, rfl⟩
    | append_singleton l v =>
      rw [List.getLast?_concat, List.dropLast_concat]
      exact List.reverse_concat ..
  | @stole _ i =>
    -- the front is the top only where nothing else is stored
    cases l with
    | nil => exact ⟨rfl, rfl⟩
    | cons v l =>
      have hlen := hone i _ rfl
      have hnil : l = [] := List.length_eq_zero_iff.mp (Nat.le_zero.mp (Nat.le_of_succ_le_succ hlen))
      subst hnil
      rfl

namespace State

variable (s : State 1 P T)

theorem phase_of_unborn (h : s.workers 0 = .unborn) : s.phase = s.ext.phase := by
  rw [phase, h]

theorem phase_of_born {pc : WorkerPc 1 P T} (h : s.workers 0 = pc) (hpc : pc ≠ .unborn) :
    s.phase = pc.phase := by
  subst h
  unfold phase
  split
  · contradiction
  · rfl

end State

/-- The priority of a queue. -/
def QueueId.priority : QueueId 1 P → Fin P
  | .slot _ p | .submitted p => p

/-- No queue of the same priority is above this one on their stack. -/
def State.Top (s : State 1 P T) (k : QueueId 1 P) : Prop :=
  ∀ p, k = .submitted p → s.held (.slot 0 p) = []

theorem top_slot (s : State 1 P T) (p : Fin P) : s.Top (.slot 0 p) := by
  intro q heq
  cases heq

/-- What an event of the scheduler shows of an event of a queue. -/
def OneEvent.Shows (e : OneEvent P T) (k : QueueId 1 P) : ChaseLev.Event (Fin 1) T → Prop
  | .beginInsert v => e.event = .submit v ∧ e.priority = some k.priority
  | .took (some v) | .stole _ (some v) => e.event = .start 0 v
  | _ => e.order = none ∧ e.event.started = none

/-- Where an event of a queue may happen. -/
def State.Ready (s : State 1 P T) (k : QueueId 1 P) : ChaseLev.Event (Fin 1) T → Prop
  | .beginInsert _ => s.phase k = .quiet ∧ s.Top k
  | .beginTake | .beginSteal _ => s.phase k = .quiet
  | .took _ => s.Top k ∧ ∀ p < k.priority, s.stack p = []
  | .stole _ _ => s.Top k ∧ (∀ p < k.priority, s.stack p = []) ∧ (s.queues k).stored.length ≤ 1
  | _ => True

/-- What a step does: nothing to any queue, or one step of one queue. -/
inductive OneMove [Inhabited T] (s : State 1 P T) (e : OneEvent P T) (s' : State 1 P T) : Prop
  | still : s'.queues = s.queues → s'.phase = s.phase → e.order = none → e.event.started = none →
      OneMove s e s'
  | queue (k : QueueId 1 P) (qe : ChaseLev.Event (Fin 1) T) (d : Deque (Fin 1) T) :
      ChaseLev.Step (s.queues k) qe d → s'.queues = Function.update s.queues k d →
      s'.phase = Function.update s.phase k (afterEvent (s.phase k) qe) → s.Ready k qe →
      e.Shows k qe → OneMove s e s'

/-! ## What a step does to the stacks -/

/-- What an event does to the stacks of the reference scheduler. -/
def OneEvent.Follows (before after : PriorityStacks P T) : OneEvent P T → Prop
  | ⟨_, .submit task, some q⟩ => after = before.push task q
  | ⟨_, .start _ task, _⟩ => before.pop = some (task, after)
  | e => e.order = none ∧ e.event.started = none ∧ after = before

section Stacks

variable {s s' : State 1 P T} {k : QueueId 1 P}

theorem stack_eq (hheld : ∀ k, s'.held k = s.held k) : s'.stack = s.stack := by
  funext p
  exact congrArg₂ (· ++ ·) (hheld _) (hheld _)

/-- What is below a queue on the stack of its priority. -/
def State.below (s : State 1 P T) : QueueId 1 P → List T
  | .slot _ p => s.held (.submitted p)
  | .submitted _ => []

theorem stack_of_top (h : s.Top k) : s.stack k.priority = s.held k ++ s.below k := by
  cases k with
  | slot w p =>
    obtain rfl : w = 0 := Subsingleton.elim w 0
    rfl
  | submitted p =>
    change s.held (.slot 0 p) ++ s.held (.submitted p) = _
    rw [h p rfl]
    exact (List.append_nil _).symm

theorem below_eq (hother : ∀ k', k' ≠ k → s'.held k' = s.held k') : s'.below k = s.below k := by
  cases k with
  | slot w p => exact hother _ (by intro heq; cases heq)
  | submitted p => rfl

theorem State.Top.step (h : s.Top k) (hother : ∀ k', k' ≠ k → s'.held k' = s.held k') :
    s'.Top k := by
  rintro p rfl
  rw [hother _ (by intro heq; cases heq)]
  exact h p rfl

/-- When one queue changes, so does the stack of its priority and no other. -/
theorem stack_update (h : s.Top k) (hother : ∀ k', k' ≠ k → s'.held k' = s.held k') :
    s'.stack = Function.update s.stack k.priority (s'.held k ++ s.below k) := by
  funext p
  by_cases hp : p = k.priority
  · subst hp
    rw [Function.update_self, stack_of_top (h.step hother), below_eq hother]
  · rw [Function.update_of_ne hp]
    have hslot : QueueId.slot 0 p ≠ k := by
      rintro rfl
      exact hp rfl
    have hsubmitted : QueueId.submitted p ≠ k := by
      rintro rfl
      exact hp rfl
    exact congrArg₂ (· ++ ·) (hother _ hslot) (hother _ hsubmitted)

end Stacks

variable [Inhabited T]

/-- A step of one queue of the scheduler is a step of a stack. -/
theorem OneInv.queueStep {s s' : State 1 P T} (h : OneInv s) {k : QueueId 1 P}
    {qe : ChaseLev.Event (Fin 1) T} {d : Deque (Fin 1) T}
    (hd : ChaseLev.Step (s.queues k) qe d) (hqueues : s'.queues = Function.update s.queues k d)
    (hphase : s'.phase = Function.update s.phase k (afterEvent (s.phase k) qe))
    (hready : s.Ready k qe) :
    (∀ k', (s'.queues k').Is (s'.phase k')) ∧ (∀ k', k' ≠ k → s'.held k' = s.held k') ∧
      Held (s.held k) (s'.held k) qe := by
  have hbegins : qe.Begins → s.phase k = .quiet := by
    intro hbegins
    cases qe with
    | beginInsert v => exact hready.1
    | beginTake | beginSteal i => exact hready
    | _ => cases hbegins
  have hone : ∀ i r, qe = .stole i r → (s.queues k).stored.length ≤ 1 := by
    rintro i r rfl
    exact hready.2.2
  obtain ⟨ph', his, hstep⟩ := (h.phase k).step (h.inv.deque k) hbegins hd
  rw [afterEvent_eq hstep] at hphase
  have hself : s'.held k = heldIn ph' d.stored := by
    rw [State.held, hphase, hqueues, Function.update_self, Function.update_self]
  refine ⟨fun k' => ?_, fun k' hk => ?_, hself ▸ held_of_phaseStep hstep hone⟩
  · rw [hphase, hqueues]
    by_cases hk : k' = k
    · subst hk
      rw [Function.update_self, Function.update_self]
      exact his
    · rw [Function.update_of_ne hk, Function.update_of_ne hk]
      exact h.phase k'
  · rw [State.held, hphase, hqueues, Function.update_of_ne hk, Function.update_of_ne hk]
    rfl

omit [Inhabited T] in
theorem follows_of_eq {e : OneEvent P T} {before after : PriorityStacks P T}
    (horder : e.order = none) (hstart : e.event.started = none) (heq : after = before) :
    e.Follows before after := by
  obtain ⟨thread, event, priority⟩ := e
  cases event with
  | submit task =>
    cases priority with
    | none => exact ⟨horder, hstart, heq⟩
    | some q => cases horder
  | start w task => cases hstart
  | finish w task | sawZero | internal => exact ⟨horder, hstart, heq⟩

omit [Inhabited T] in
/-- What an event of a queue does to what the queue holds, the event that shows it does to the
    stacks. -/
theorem follows_of_held {s s' : State 1 P T} {e : OneEvent P T} {k : QueueId 1 P}
    {qe : ChaseLev.Event (Fin 1) T} (hready : s.Ready k qe) (hshows : e.Shows k qe)
    (hother : ∀ k', k' ≠ k → s'.held k' = s.held k') (hheld : Held (s.held k) (s'.held k) qe) :
    e.Follows s.stack s'.stack := by
  have hsame (heq : s'.held k = s.held k) : s'.stack = s.stack := by
    apply stack_eq
    intro k'
    by_cases hk : k' = k
    · rw [hk, heq]
    · exact hother k' hk
  -- an element taken from `k` was on top of the first stack that is not empty
  have hpop {v : T} (htop : s.Top k) (hless : ∀ p < k.priority, s.stack p = [])
      (hheld : s.held k = v :: s'.held k) : s.stack.pop = some (v, s'.stack) := by
    rw [stack_update htop hother]
    refine PriorityStacks.pop_eq_some ?_ hless
    rw [stack_of_top htop, hheld, List.cons_append]
  obtain ⟨thread, event, priority⟩ := e
  cases qe with
  | beginInsert v =>
    obtain ⟨rfl, rfl⟩ : event = .submit v ∧ priority = some k.priority := hshows
    obtain ⟨-, htop⟩ := hready
    have hpush : s'.held k = v :: s.held k := hheld
    change s'.stack = Function.update s.stack k.priority (v :: s.stack k.priority)
    rw [stack_update htop hother, stack_of_top htop, hpush, List.cons_append]
  | took r =>
    cases r with
    | none => exact follows_of_eq hshows.1 hshows.2 (hsame (hheld.2.trans hheld.1.symm))
    | some v =>
      obtain rfl : event = .start 0 v := hshows
      exact hpop hready.1 hready.2 hheld
  | stole i r =>
    cases r with
    | none => exact follows_of_eq hshows.1 hshows.2 (hsame (hheld.2.trans hheld.1.symm))
    | some v =>
      obtain rfl : event = .start 0 v := hshows
      exact hpop hready.1 hready.2.1 hheld
  | inserted v | beginTake | beginSteal i | ownerStep | thiefStep i =>
    exact follows_of_eq hshows.1 hshows.2 (hsame hheld)

/-- **Step lemma** for the stacks. -/
theorem OneMove.follows {s s' : State 1 P T} {e : OneEvent P T} (h : OneInv s)
    (hm : OneMove s e s') :
    (∀ k, (s'.queues k).Is (s'.phase k)) ∧ e.Follows s.stack s'.stack := by
  cases hm with
  | still hqueues hphase horder hstart =>
    refine ⟨fun k => ?_, follows_of_eq horder hstart (stack_eq fun k => ?_)⟩
    · rw [hqueues, hphase]
      exact h.phase k
    · rw [State.held, State.held, hqueues, hphase]
  | queue k qe d hd hqueues hphase hready hshows =>
    obtain ⟨his, hother, hheld⟩ := h.queueStep hd hqueues hphase hready
    exact ⟨his, follows_of_held hready hshows hother hheld⟩

/-! ## Every step is such a move -/

omit [Inhabited T] in
/-- The phases are the external thread's or, once it is there, the worker's. -/
theorem phase_congr {s s' : State 1 P T} (hworkers : s'.workers 0 = s.workers 0)
    (hext : s'.ext.phase = s.ext.phase) : s'.phase = s.phase := by
  unfold State.phase
  rw [hworkers, hext]

omit [Inhabited T] in
/-- When a call has returned, no call is in progress. -/
theorem phase_returned (k : QueueId 1 P) (ph : Phase (Fin 1) T) :
    (fun _ => .quiet) = Function.update (Function.update (fun _ => .quiet) k ph) k .quiet := by
  rw [Function.update_idem, Function.update_eq_self]

omit [Inhabited T] in
theorem held_of_fresh {s : State 1 P T} (h : OneInv s) (hfresh : s.ext.fresh) {k : QueueId 1 P}
    (hquiet : s.phase k = .quiet) : s.held k = [] := by
  rw [State.held, hquiet, h.fresh hfresh k]
  rfl

/-- A step of the external thread moves at most one submission queue. -/
theorem OneInv.extMove {s s' : State 1 P T} {e : Event 1 T} (h : OneInv s) (hs : ExtStep s e s')
    (hnew : ∀ task q, s'.ext ≠ .submitCheck task q) :
    OneMove s ⟨.external, e, s.ext.priority⟩ s' := by
  have hunborn (hsubmitting : s.ext.submitting) : s.workers 0 = .unborn := by
    by_contra hborn
    exact h.born hborn hsubmitting
  cases hs with
  | submit task q hext => exact absurd rfl (hnew task q)
  | @submitAdd task q d hext hd =>
    -- The worker is not there, so no call on a queue is under way.
    have hw := hunborn (by rw [hext]; trivial)
    have hquiet : s.phase = fun _ => .quiet := by rw [s.phase_of_unborn hw, hext]; rfl
    refine .queue (.submitted q) _ d hd rfl ?_ ⟨by rw [hquiet], fun p _ => ?_⟩ ⟨rfl, ?_⟩
    · rw [hquiet]
      exact State.phase_of_unborn _ hw
    · exact held_of_fresh h (by rw [hext]; trivial) (by rw [hquiet])
    · change s.ext.priority = some q
      rw [hext]
      rfl
  | @insertStep task q d hext hd =>
    exact .queue (.submitted q) _ d hd rfl (Function.update_eq_self ..).symm trivial ⟨rfl, rfl⟩
  | @inserted task v q d hext hd =>
    have hw := hunborn (by rw [hext]; trivial)
    have hphase : s.phase = Function.update (fun _ => .quiet) (.submitted q) (.inserting task) := by
      rw [s.phase_of_unborn hw, hext]
      rfl
    have hphase' : ((s.setQueue (.submitted q) d).setExt (.growing .load)).phase =
        fun _ => .quiet := State.phase_of_unborn _ hw
    refine .queue (.submitted q) _ d hd rfl ?_ trivial ⟨rfl, rfl⟩
    rw [hphase, hphase']
    exact phase_returned _ _
  | @startThread index hext =>
    -- From here on the phases are the worker's, which begins with none.
    have hw := hunborn (by rw [hext]; trivial)
    obtain rfl : index = 0 := Subsingleton.elim index 0
    have hborn : ((s.setWorker 0 .checkStop).setExt .ready).workers 0 = .checkStop :=
      setWorker_workers_self s 0 .checkStop
    refine .still rfl ?_ rfl rfl
    rw [s.phase_of_unborn hw, hext, State.phase_of_born _ hborn (by intro heq; cases heq)]
    rfl
  | submitRefused hext | submitAccepted hext | grow hext | grown hext | wait hext | waitOwed hext
  | waitZero hext | sleep hext | waitChanged hext | wakeSpuriously hext | storeStop hext
  | joinOne _ hext | joinedAll hext =>
    refine .still rfl (phase_congr rfl ?_) rfl rfl
    rw [hext]
    rfl

omit [Inhabited T] in
theorem phase_setWorker (s : State 1 P T) {pc : WorkerPc 1 P T} (hpc : pc ≠ .unborn) :
    (s.setWorker 0 pc).phase = pc.phase :=
  State.phase_of_born _ (setWorker_workers_self s 0 pc) hpc

/-- The worker is running and makes no call on a queue. -/
def WorkerPc.Quiet (pc : WorkerPc 1 P T) : Prop := pc ≠ .unborn ∧ pc.phase = fun _ => .quiet

omit [Inhabited T] in
theorem firstPriority_quiet : (firstPriority : WorkerPc 1 P T).Quiet := by
  unfold firstPriority
  split_ifs
  all_goals
    refine ⟨?_, rfl⟩
    intro heq
    cases heq

omit [Inhabited T] in
theorem nextPriority_quiet (p : Fin P) : (nextPriority p : WorkerPc 1 P T).Quiet := by
  unfold nextPriority
  split_ifs
  all_goals
    refine ⟨?_, rfl⟩
    intro heq
    cases heq

/-- A worker that makes no call on a queue before or after its step moves none. -/
theorem OneMove.quiet {s s' : State 1 P T} {e : OneEvent P T} {pc : WorkerPc 1 P T}
    (hpc : s.workers 0 = pc) (hquiet : pc.Quiet) (hquiet' : (s'.workers 0).Quiet)
    (hqueues : s'.queues = s.queues) (horder : e.order = none)
    (hstart : e.event.started = none) : OneMove s e s' := by
  refine .still hqueues ?_ horder hstart
  rw [State.phase_of_born _ hpc hquiet.1, State.phase_of_born _ rfl hquiet'.1, hquiet.2, hquiet'.2]

/-- A step of the worker moves at most one queue. -/
theorem OneInv.workerMove {s s' : State 1 P T} {e : Event 1 T} (h : OneInv s)
    (hs : WorkerStep 0 s e s') : OneMove s ⟨.worker, e, (s.workers 0).priority⟩ s' := by
  have hsearched := h.searched
  have hborn {pc : WorkerPc 1 P T} (hpc : s.workers 0 = pc) (hne : pc ≠ .unborn) :
      s.phase = pc.phase := s.phase_of_born hpc hne
  cases hs with
  | @takeOwn p d hpc hd =>
    -- The worker makes no other call, so the queue is quiet before.
    have hphase := hborn hpc (by intro heq; cases heq)
    refine .queue (.slot 0 p) _ d hd rfl ?_ (congrFun hphase _) ⟨rfl, rfl⟩
    rw [hphase]
    exact phase_setWorker (s.setQueue _ d) (by intro heq; cases heq)
  | @takeStep p d hpc hd =>
    refine .queue (.slot 0 p) _ d hd rfl ?_ trivial ⟨rfl, rfl⟩
    exact (Function.update_eq_self ..).symm
  | @took p d task hpc hd =>
    -- All that was searched before this queue was empty, so the task is the first of all.
    have hphase := hborn hpc (by intro heq; cases heq)
    rw [State.Searched, hpc] at hsearched
    refine .queue (.slot 0 p) _ d hd rfl ?_ ⟨top_slot s p, hsearched⟩ rfl
    rw [hphase, phase_setWorker (s.setQueue _ d) (by intro heq; cases heq)]
    exact phase_returned _ _
  | @tookNone p d hpc hd =>
    have hphase := hborn hpc (by intro heq; cases heq)
    rw [State.Searched, hpc] at hsearched
    refine .queue (.slot 0 p) _ d hd rfl ?_ ⟨top_slot s p, hsearched⟩ ⟨rfl, rfl⟩
    rw [hphase, phase_setWorker (s.setQueue _ d) (by intro heq; cases heq)]
    exact phase_returned _ _
  | @trySubmitted p d hpc hd =>
    have hphase := hborn hpc (by intro heq; cases heq)
    refine .queue (.submitted p) _ d hd rfl ?_ (congrFun hphase _) ⟨rfl, rfl⟩
    rw [hphase]
    exact phase_setWorker (s.setQueue _ d) (by intro heq; cases heq)
  | @submittedStep p d hpc hd =>
    refine .queue (.submitted p) _ d hd rfl ?_ trivial ⟨rfl, rfl⟩
    exact (Function.update_eq_self ..).symm
  | @stoleSubmitted p d task hpc hd =>
    -- The queue of the worker at this priority was searched before, and was empty.
    have hphase := hborn hpc (by intro heq; cases heq)
    rw [State.Searched, hpc] at hsearched
    obtain ⟨hless, hown⟩ := hsearched
    refine .queue (.submitted p) _ d hd rfl ?_ ⟨?_, hless, h.single p⟩ rfl
    · rw [hphase, phase_setWorker (s.setQueue _ d) (by intro heq; cases heq)]
      exact phase_returned _ _
    · intro q heq
      cases heq
      exact hown
  | @stoleNoneSubmitted p d hpc hd =>
    have hphase := hborn hpc (by intro heq; cases heq)
    obtain ⟨hne, hquiet⟩ : (nextPriority p : WorkerPc 1 P T).Quiet := nextPriority_quiet p
    rw [State.Searched, hpc] at hsearched
    obtain ⟨hless, hown⟩ := hsearched
    refine .queue (.submitted p) _ d hd rfl ?_ ⟨?_, hless, h.single p⟩ ⟨rfl, rfl⟩
    · rw [hphase, phase_setWorker (s.setQueue _ d) hne, hquiet]
      exact phase_returned _ _
    · intro q heq
      cases heq
      exact hown
  | @submitAdd task new q d hpc hd =>
    -- The insertion begins at the priority of the worker.
    have hphase := hborn hpc (by intro heq; cases heq)
    refine .queue (.slot 0 q) _ d hd rfl ?_ ⟨congrFun hphase _, top_slot s q⟩ ⟨rfl, ?_⟩
    · rw [hphase]
      exact phase_setWorker ((s.setPending _).setQueue _ d) (by intro heq; cases heq)
    · change (s.workers 0).priority = some q
      rw [hpc]
      rfl
  | @insertStep task new q d hpc hd =>
    refine .queue (.slot 0 q) _ d hd rfl ?_ trivial ⟨rfl, rfl⟩
    exact (Function.update_eq_self ..).symm
  | @inserted task new v q d hpc hd =>
    have hphase := hborn hpc (by intro heq; cases heq)
    refine .queue (.slot 0 q) _ d hd rfl ?_ trivial ⟨rfl, rfl⟩
    rw [hphase, phase_setWorker (s.setQueue _ d) (by intro heq; cases heq)]
    exact phase_returned _ _
  | acquire hpc =>
    -- No step from here on moves a queue.
    refine .quiet hpc ⟨(by intro heq; cases heq), rfl⟩ ?_ rfl rfl rfl
    rw [setWorker_workers_self]
    exact firstPriority_quiet
  | @subtract task hpc =>
    refine .quiet hpc ⟨(by intro heq; cases heq), rfl⟩ ?_ rfl rfl rfl
    rw [setWorker_workers_self]
    split_ifs
    all_goals
      refine ⟨?_, rfl⟩
      intro heq
      cases heq
  | @victim p v d hpc hne => exact absurd (Subsingleton.elim v 0) hne
  | stealStep hpc | stole hpc | stoleNone hpc => exact (h.notStealing hpc).elim
  | @startThread task index hpc =>
    -- There is no other worker to steal from.
    rcases h.growing hpc with heq | heq <;> cases heq
  | stopped hpc | skipSelf hpc | noVictimLeft hpc | submit _ _ hpc | grow hpc | grown hpc
  | processed hpc | notify hpc | wake hpc =>
    refine .quiet hpc ⟨(by intro heq; cases heq), rfl⟩ ?_ rfl rfl rfl
    first | rw [setWorker_workers_self] | rw [setExt_workers, setWorker_workers_self]
    refine ⟨?_, rfl⟩
    intro heq
    cases heq

/-! ## The invariant is kept -/

/-- A step of the scheduler with one slot is a step of the scheduler. -/
theorem OneStep.step {s s' : State 1 P T} {e : OneEvent P T} (hs : OneStep s e s') :
    (system 1 P T).step s e.event s' := by
  cases hs with
  | external hs => exact .inl hs
  | worker hs => exact .inr ⟨0, hs⟩

/-- Every step moves at most one queue. -/
theorem OneInv.move {s s' : State 1 P T} {e : OneEvent P T} (h : OneInv s) (hs : OneStep s e s') :
    OneMove s e s' := by
  cases hs with
  | external hs hnew => exact h.extMove hs hnew
  | worker hs => exact h.workerMove hs

theorem OneInv.live_step {s s' : State 1 P T} {e : OneEvent P T} (h : OneInv s)
    (hs : OneStep s e s') : s'.live ≤ 1 := by
  have hgrow {g : Grow 1} {live : ℕ} {g' : Option (Grow 1)}
      (hg : GrowStep s.pending s.live g live g') : live ≤ 1 := by
    cases hg with
    | @won index hlive => exact index.isLt
    | load | more | enough | lost => exact h.live
  cases hs with
  | external hs =>
    cases hs with
    | grow _ hg | grown _ hg => exact hgrow hg
    | _ => exact h.live
  | worker hs =>
    cases hs with
    | grow _ hg | grown _ hg => exact hgrow hg
    | _ => exact h.live

/-- The external thread does not submit again. -/
theorem OneInv.born_step {s s' : State 1 P T} {e : OneEvent P T} (h : OneInv s)
    (hs : OneStep s e s') (hborn : s'.workers 0 ≠ .unborn) : ¬s'.ext.submitting := by
  cases hs with
  | external hs hnew =>
    cases hs with
    | submit task q => exact absurd rfl (hnew task q)
    | startThread | submitRefused | grown | wait | waitOwed | waitZero | sleep | waitChanged
    | wakeSpuriously | storeStop | joinOne | joinedAll => exact id
    | submitAccepted hext | submitAdd hext | insertStep hext | inserted hext | grow hext =>
      have hnot : ¬s.ext.submitting := h.born hborn
      rw [hext] at hnot
      exact absurd trivial hnot
  | worker hs =>
    have hnot := h.born hs.running.1.1
    rcases hs.ext with heq | ⟨owed, -, heq⟩
    · rw [heq]
      exact hnot
    · rw [heq]
      exact id

theorem OneInv.owed_step {s s' : State 1 P T} {e : OneEvent P T} (h : OneInv s)
    (hs : OneStep s e s') (hunborn : s'.workers 0 = .unborn) : s'.ext.before ∨ s'.pending ≠ 0 := by
  cases hs with
  | external hs hnew =>
    cases hs with
    | submit task q => exact absurd rfl (hnew task q)
    | submitAccepted => exact .inl trivial
    | submitAdd => exact .inr (Nat.succ_ne_zero _)
    | submitRefused hext hstop =>
      have hwaited := h.inv.stopped hstop
      rw [hext] at hwaited
      cases hwaited
    | @startThread index hext =>
      obtain rfl : index = 0 := Subsingleton.elim index 0
      rw [setExt_workers, setWorker_workers_self] at hunborn
      cases hunborn
    | insertStep hext | inserted hext | grow hext | grown hext | wait hext | waitOwed hext
    | waitZero hext | sleep hext | waitChanged hext | wakeSpuriously hext | storeStop hext
    | joinOne _ hext | joinedAll hext =>
      refine (h.owed hunborn).imp (fun hbefore => ?_) id
      rw [hext] at hbefore
      cases hbefore
  | worker hs => exact absurd hunborn hs.running.2

theorem OneInv.fresh_step {s s' : State 1 P T} {e : OneEvent P T} (h : OneInv s)
    (hs : OneStep s e s') (hfresh : s'.ext.fresh) (k : QueueId 1 P) :
    (s'.queues k).stored = [] := by
  have hqueue (s₀ : State 1 P T) {k₀ : QueueId 1 P} {qe : ChaseLev.Event (Fin 1) T}
      {d : Deque (Fin 1) T} (hfresh : s.ext.fresh) (hqueues : s₀.queues = s.queues)
      (hd : ChaseLev.Step (s.queues k₀) qe d) (hsame : d.stored = (s.queues k₀).stored) :
      ((s₀.setQueue k₀ d).queues k).stored = [] := by
    by_cases hk : k = k₀
    · subst hk
      rw [setQueue_self, hsame]
      exact h.fresh hfresh k
    · rw [setQueue_of_ne d hk, hqueues]
      exact h.fresh hfresh k
  cases hs with
  | external hs hnew =>
    cases hs with
    | submit task q => exact absurd rfl (hnew task q)
    | submitAccepted hext => exact h.fresh (by rw [hext]; trivial) k
    | submitAdd hext hd =>
      exact hqueue (s.setPending (s.pending + 1)) (by rw [hext]; trivial) rfl hd
        ((h.inv.deque _).step hd).2
    | insertStep hext hd =>
      exact hqueue s (by rw [hext]; trivial) rfl hd ((h.inv.deque _).step hd).2
    | submitRefused | inserted | grow | grown | startThread | wait | waitOwed | waitZero | sleep
    | waitChanged | wakeSpuriously | storeStop | joinOne | joinedAll => cases hfresh
  | worker hs =>
    -- With a worker nothing is fresh.
    have hnot := h.born hs.running.1.1
    rcases hs.ext with heq | ⟨owed, -, heq⟩
    · rw [heq] at hfresh
      refine absurd ?_ hnot
      cases hext : s.ext with
      | submitCheck | submitAdd | submitInsert => trivial
      | _ =>
        rw [hext] at hfresh
        cases hfresh
    · rw [heq] at hfresh
      cases hfresh

/-- Only an insertion makes a queue longer. -/
theorem OneInv.length_le {s : State 1 P T} (h : OneInv s) {k : QueueId 1 P}
    {qe : ChaseLev.Event (Fin 1) T} {d : Deque (Fin 1) T} (hd : ChaseLev.Step (s.queues k) qe d)
    (hne : ∀ v, qe ≠ .inserted v) : d.stored.length ≤ (s.queues k).stored.length := by
  have hstores := ((h.inv.deque k).step hd).2
  cases qe with
  | inserted v => exact absurd rfl (hne v)
  | took r =>
    rw [show (s.queues k).stored = d.stored ++ r.toList from hstores, List.length_append]
    exact Nat.le_add_right _ _
  | stole i r =>
    rw [show (s.queues k).stored = r.toList ++ d.stored from hstores, List.length_append]
    exact Nat.le_add_left _ _
  | _ => exact le_of_eq (congrArg List.length hstores)

theorem OneInv.single_step {s s' : State 1 P T} {e : OneEvent P T} (h : OneInv s)
    (hs : OneStep s e s') (p : Fin P) : (s'.queues (.submitted p)).stored.length ≤ 1 := by
  have hslot (s₀ : State 1 P T) (q : Fin P) (d : Deque (Fin 1) T)
      (hqueues : s₀.queues = s.queues) :
      ((s₀.setQueue (.slot 0 q) d).queues (.submitted p)).stored.length ≤ 1 := by
    rw [setQueue_of_ne d (by intro heq; cases heq), hqueues]
    exact h.single p
  have hsubmitted (s₀ : State 1 P T) {q : Fin P} {d : Deque (Fin 1) T}
      (hqueues : s₀.queues = s.queues) (hle : d.stored.length ≤ 1) :
      ((s₀.setQueue (.submitted q) d).queues (.submitted p)).stored.length ≤ 1 := by
    by_cases hp : (QueueId.submitted p : QueueId 1 P) = .submitted q
    · rw [hp, setQueue_self]
      exact hle
    · rw [setQueue_of_ne d hp, hqueues]
      exact h.single p
  cases hs with
  | external hs hnew =>
    cases hs with
    | submitAdd hext hd =>
      refine hsubmitted (s.setPending (s.pending + 1)) rfl ?_
      exact (h.length_le hd (by intro v heq; cases heq)).trans (h.single _)
    | insertStep hext hd =>
      refine hsubmitted s rfl ?_
      exact (h.length_le hd (by intro v heq; cases heq)).trans (h.single _)
    | @inserted task v q d hext hd =>
      -- Nothing was queued before.
      refine hsubmitted s rfl ?_
      have hstores : d.stored = (s.queues (.submitted q)).stored ++ [v] :=
        ((h.inv.deque _).step hd).2
      rw [hstores, h.fresh (by rw [hext]; trivial)]
      exact le_rfl
    | _ => exact h.single p
  | worker hs =>
    cases hs with
    | @takeOwn q d | @takeStep q d | @took q d | @tookNone q d => exact hslot s q d rfl
    | @insertStep task new q d | @inserted task new v q d => exact hslot s q d rfl
    | @submitAdd task new q d => exact hslot (s.setPending (s.pending + 1)) q d rfl
    | victim _ hne => exact absurd (Subsingleton.elim _ _) hne
    | stealStep hpc | stole hpc | stoleNone hpc => exact (h.notStealing hpc).elim
    | trySubmitted _ hd | submittedStep _ hd | stoleSubmitted _ hd | stoleNoneSubmitted _ hd =>
      refine hsubmitted s rfl ?_
      exact (h.length_le hd (by intro v heq; cases heq)).trans (h.single _)
    | _ => exact h.single p

/-! ## What `AcquireNextTask` has passed over -/

/-- A step that neither submits nor starts a task leaves what the queues hold as it was. -/
theorem OneMove.held_eq {s s' : State 1 P T} {e : OneEvent P T} (h : OneInv s)
    (hm : OneMove s e s') (horder : e.order = none) (hstart : e.event.started = none)
    (k : QueueId 1 P) : s'.held k = s.held k := by
  cases hm with
  | still hqueues hphase => rw [State.held, State.held, hqueues, hphase]
  | queue k₀ qe d hd hqueues hphase hready hshows =>
    obtain ⟨-, hother, hheld⟩ := h.queueStep hd hqueues hphase hready
    by_cases hk : k = k₀
    · subst hk
      obtain ⟨thread, event, priority⟩ := e
      cases qe with
      | beginInsert v =>
        obtain ⟨rfl, rfl⟩ : event = .submit v ∧ priority = some k.priority := hshows
        cases horder
      | took r =>
        cases r with
        | none => exact hheld.2.trans hheld.1.symm
        | some v =>
          obtain rfl : event = .start 0 v := hshows
          cases hstart
      | stole i r =>
        cases r with
        | none => exact hheld.2.trans hheld.1.symm
        | some v =>
          obtain rfl : event = .start 0 v := hshows
          cases hstart
      | inserted v | beginTake | beginSteal i | ownerStep | thiefStep i => exact hheld
    · exact hother k hk

/-- A call that finds nothing was made on a queue that holds nothing. -/
theorem OneInv.held_nil {s : State 1 P T} (h : OneInv s) {k : QueueId 1 P}
    {qe : ChaseLev.Event (Fin 1) T} {d : Deque (Fin 1) T} (hd : ChaseLev.Step (s.queues k) qe d)
    (hnone : qe = .took none ∨ ∃ i, qe = .stole i none) : s.held k = [] := by
  have hbegins : qe.Begins → s.phase k = .quiet := by
    intro hbegins
    rcases hnone with rfl | ⟨i, rfl⟩ <;> cases hbegins
  obtain ⟨ph', -, hstep⟩ := (h.phase k).step (h.inv.deque k) hbegins hd
  rw [State.held]
  generalize s.phase k = ph at hstep
  generalize (s.queues k).stored = l at hstep
  generalize d.stored = l' at hstep
  cases hstep with
  | took =>
    have hnil : l = [] := by
      rcases hnone with heq | ⟨i, heq⟩
      · exact List.getLast?_eq_none_iff.mp (ChaseLev.Event.took.inj heq)
      · cases heq
    rw [hnil]
    rfl
  | @stole _ i =>
    have hnil : l = [] := by
      rcases hnone with heq | ⟨i', heq⟩
      · cases heq
      · exact List.head?_eq_none_iff.mp (ChaseLev.Event.stole.inj heq).2
    rw [hnil]
    rfl
  | _ => rcases hnone with heq | ⟨i, heq⟩ <;> cases heq

omit [Inhabited T] in
theorem searched_congr {s s' : State 1 P T} (h : s.Searched)
    (hworkers : s'.workers 0 = s.workers 0) (hheld : ∀ k, s'.held k = s.held k) : s'.Searched := by
  unfold State.Searched at h ⊢
  rw [hworkers, stack_eq hheld, funext hheld]
  exact h

omit [Inhabited T] in
theorem searched_setWorker (s : State 1 P T) (pc : WorkerPc 1 P T) :
    (s.setWorker 0 pc).Searched ↔ pc.Searched (s.setWorker 0 pc).stack
      fun p => (s.setWorker 0 pc).held (.slot 0 p) := by
  rw [State.Searched, setWorker_workers_self]

/-- A worker has searched what it has passed. -/
theorem OneInv.searched_worker {s s' : State 1 P T} {e : Event 1 T} (h : OneInv s)
    (hs : WorkerStep 0 s e s') : s'.Searched := by
  have hmove := h.workerMove hs
  have hsearched {pc : WorkerPc 1 P T} (hpc : s.workers 0 = pc) :
      pc.Searched s.stack fun p => s.held (.slot 0 p) := hpc ▸ h.searched
  cases hs with
  | acquire hpc =>
    -- Nothing comes before the first priority.
    rw [searched_setWorker, firstPriority]
    split_ifs with hP
    · intro p' hp'
      exact absurd hp' (Nat.not_lt_zero _)
    · trivial
  | takeOwn hpc hd =>
    have hless := hsearched hpc
    rw [searched_setWorker]
    rw [← stack_eq (hmove.held_eq h rfl rfl)] at hless
    exact hless
  | takeStep hpc | submittedStep hpc =>
    exact searched_congr h.searched rfl (hmove.held_eq h rfl rfl)
  | tookNone hpc hd =>
    -- Its own queue is searched in vain, so it is empty.
    have hless := hsearched hpc
    have hheld := hmove.held_eq h rfl rfl
    rw [searched_setWorker]
    rw [← stack_eq hheld] at hless
    exact ⟨hless, (hheld _).trans (h.held_nil hd (.inl rfl))⟩
  | skipSelf hpc | noVictimLeft hpc | trySubmitted hpc =>
    obtain ⟨hless, hown⟩ := hsearched hpc
    have hheld := hmove.held_eq h rfl rfl
    rw [searched_setWorker]
    rw [← stack_eq hheld] at hless
    exact ⟨hless, (hheld _).trans hown⟩
  | @stoleNoneSubmitted p d hpc hd =>
    obtain ⟨hless, hown⟩ := hsearched hpc
    have hheld := hmove.held_eq h rfl rfl
    have hsub : s.held (.submitted p) = [] := h.held_nil hd (.inr ⟨0, rfl⟩)
    have hstack : s.stack p = [] := congrArg₂ (· ++ ·) hown hsub
    rw [searched_setWorker, stack_eq hheld, nextPriority]
    split_ifs with hP
    · -- the priority that is done with is empty too
      intro p' hp'
      rcases Nat.lt_succ_iff_lt_or_eq.mp hp' with hlt | heq
      · exact hless p' hlt
      · obtain rfl : p' = p := Fin.ext heq
        exact hstack
    · trivial
  | @subtract task hpc =>
    rw [searched_setWorker]
    split_ifs <;> trivial
  | insertStep hpc =>
    exact searched_congr h.searched rfl (hmove.held_eq h rfl rfl)
  | victim _ hne => exact absurd (Subsingleton.elim _ _) hne
  | stealStep hpc | stole hpc | stoleNone hpc => exact (h.notStealing hpc).elim
  | startThread hpc | stopped hpc | took hpc | stoleSubmitted hpc | submit _ _ hpc | submitAdd hpc
  | inserted hpc | grow hpc | grown hpc | processed hpc | notify hpc =>
    -- Nothing is said of a worker that does not search.
    rw [searched_setWorker]
    trivial
  | wake hpc =>
    rw [State.Searched, setExt_workers, setWorker_workers_self]
    trivial

/-- What the external thread does leaves the search as it was. -/
theorem OneInv.searched_ext {s s' : State 1 P T} {e : Event 1 T} (h : OneInv s)
    (hs : ExtStep s e s') (hnew : ∀ task q, s'.ext ≠ .submitCheck task q) : s'.Searched := by
  have hunborn (hsubmitting : s.ext.submitting) : s.workers 0 = .unborn := by
    by_contra hborn
    exact h.born hborn hsubmitting
  have htrivial {s₀ : State 1 P T} (hw : s₀.workers 0 = .unborn) : s₀.Searched := by
    rw [State.Searched, hw]
    trivial
  have hmove := h.extMove hs hnew
  cases hs with
  | submitAdd hext | insertStep hext | inserted hext =>
    exact htrivial (hunborn (by rw [hext]; trivial))
  | @startThread index hext =>
    obtain rfl : index = 0 := Subsingleton.elim index 0
    rw [State.Searched, setExt_workers, setWorker_workers_self]
    trivial
  | _ => exact searched_congr h.searched rfl (hmove.held_eq h rfl rfl)

/-- A worker that is there is the last: it starts no thread. -/
theorem OneInv.live_eq {s s' : State 1 P T} {e : Event 1 T} (h : OneInv s)
    (hs : WorkerStep 0 s e s') : s.live = 1 :=
  le_antisymm h.live (hs.live h.inv.born)

/-- The external thread starts the worker or leaves it alone. -/
theorem OneInv.workers_ext {s s' : State 1 P T} {e : Event 1 T} (h : OneInv s)
    (hs : ExtStep s e s') : s'.workers 0 = s.workers 0 ∨ s'.workers 0 = .checkStop :=
  (hs.workers h.inv.born 0).imp_right And.right

theorem OneInv.alone_step {s s' : State 1 P T} {e : OneEvent P T} (h : OneInv s)
    (hs : OneStep s e s') : (s'.workers 0).Alone := by
  cases hs with
  | external hs =>
    rcases h.workers_ext hs with heq | heq
    · rw [heq]
      exact h.alone
    · rw [heq]
      trivial
  | worker hs =>
    have hlive := h.live_eq hs
    cases hs with
    | inserted hpc =>
      rw [setWorker_workers_self]
      exact .inl rfl
    | grow hpc hg =>
      -- The one slot there is is live, so no thread is started.
      rw [setWorker_workers_self]
      rcases h.growing hpc with rfl | rfl
      · cases hg
        exact .inr (congrArg Grow.check hlive)
      · cases hg with
        | more hlt => exact absurd hlt (lt_irrefl 1)
    | victim _ hne => exact absurd (Subsingleton.elim _ _) hne
    | acquire hpc =>
      rw [setWorker_workers_self, firstPriority]
      split_ifs <;> trivial
    | stoleNoneSubmitted hpc =>
      rw [setWorker_workers_self, nextPriority]
      split_ifs <;> trivial
    | subtract hpc =>
      rw [setWorker_workers_self]
      split_ifs <;> trivial
    | wake hpc =>
      rw [setExt_workers, setWorker_workers_self]
      trivial
    | takeStep | stealStep | submittedStep | insertStep => exact h.alone
    | stopped | takeOwn | took | tookNone | skipSelf | noVictimLeft | stole | stoleNone
    | trySubmitted | stoleSubmitted | submit | submitAdd | grown | startThread | processed
    | notify =>
      rw [setWorker_workers_self]
      trivial

/-- **Step lemma**: every step keeps the invariant and does to the stacks what it shows. -/
theorem OneInv.step {s s' : State 1 P T} {e : OneEvent P T} (h : OneInv s) (hs : OneStep s e s') :
    OneInv s' ∧ e.Follows s.stack s'.stack := by
  obtain ⟨hphase, hfollows⟩ := (h.move hs).follows h
  refine ⟨⟨h.inv.step hs.step, hphase, h.born_step hs, h.live_step hs, h.owed_step hs,
    h.fresh_step hs, h.single_step hs, ?_, h.alone_step hs⟩, hfollows⟩
  cases hs with
  | external hs hnew => exact h.searched_ext hs hnew
  | worker hs => exact h.searched_worker hs

/-! ## Every run -/

theorem inv_submitCheck (task : T) (q : Fin P) :
    Inv ((State.initial 1 P T).setExt (.submitCheck task q)) := by
  have hsubmit : ExtStep (State.initial 1 P T) .internal _ := .submit task q rfl
  exact inv_initial.step (.inl hsubmit)

theorem oneInv_initial (task : T) (q : Fin P) :
    OneInv ((State.initial 1 P T).setExt (.submitCheck task q)) where
  inv := inv_submitCheck task q
  phase k := ⟨rfl, fun _ => rfl⟩
  born hborn := absurd rfl hborn
  live := Nat.zero_le 1
  owed _ := .inl trivial
  fresh _ _ := ChaseLev.stored_empty
  single p := by
    change (Deque.empty : Deque (Fin 1) T).stored.length ≤ 1
    rw [ChaseLev.stored_empty]
    exact Nat.zero_le 1
  searched := trivial
  alone := trivial

/-- The stacks are empty at first. -/
theorem stack_initial (task : T) (q : Fin P) :
    ((State.initial 1 P T).setExt (.submitCheck task q)).stack = .empty := by
  have hnil (k : QueueId 1 P) :
      ((State.initial 1 P T).setExt (.submitCheck task q)).held k = [] :=
    held_of_fresh (oneInv_initial task q) trivial rfl
  funext p
  exact congrArg₂ (· ++ ·) (hnil _) (hnil _)

omit [Inhabited T] in
/-- A reference scheduler with the scheduler's stacks does what an event shows. -/
theorem Reference.follows {e : OneEvent P T} {before after : PriorityStacks P T} {done : List T}
    (h : e.Follows before after) :
    e.order.toList.foldl Reference.step ⟨before, done⟩ =
      ⟨after, done ++ e.event.started.toList⟩ := by
  have hsame (heq : e.order = none ∧ e.event.started = none ∧ after = before) :
      e.order.toList.foldl Reference.step ⟨before, done⟩ =
        ⟨after, done ++ e.event.started.toList⟩ := by
    obtain ⟨horder, hstart, rfl⟩ := heq
    rw [horder, hstart]
    exact congrArg (Reference.mk after) (List.append_nil done).symm
  obtain ⟨thread, event, priority⟩ := e
  cases event with
  | submit task =>
    cases priority with
    | none => exact hsame h
    | some q =>
      obtain rfl : after = before.push task q := h
      exact congrArg (Reference.mk _) (List.append_nil done).symm
  | start w task =>
    have hpop : before.pop = some (task, after) := h
    change Reference.step ⟨before, done⟩ .next = _
    simp only [Reference.step, hpop]
    rfl
  | finish w task | sawZero | internal => exact hsame h

theorem filterMap_snoc {α β : Type*} (f : α → Option β) (l : List α) (x : α) :
    (l ++ [x]).filterMap f = l.filterMap f ++ (f x).toList := by
  rw [List.filterMap_append]
  cases h : f x <;> simp [h]

/-- **Run lemma**: the reference scheduler has run the same tasks in the same order. -/
theorem order_of_run {task : T} {q : Fin P} {tr : List (OneEvent P T)} {s : State 1 P T}
    (h : (oneSystem P T task q).Run tr s) :
    OneInv s ∧ Reference.run (ordersIn tr) = ⟨s.stack, processedIn tr⟩ := by
  induction h with
  | start hinit =>
    obtain rfl := hinit
    refine ⟨oneInv_initial task q, ?_⟩
    rw [stack_initial]
    rfl
  | @next tr s s' e hr hstep ih =>
    obtain ⟨hinv, hrun⟩ := ih
    obtain ⟨hinv', hfollows⟩ := hinv.step hstep
    refine ⟨hinv', ?_⟩
    have horders : ordersIn (tr ++ [e]) = ordersIn tr ++ e.order.toList := filterMap_snoc ..
    have hprocessed : processedIn (tr ++ [e]) = processedIn tr ++ e.event.started.toList :=
      filterMap_snoc ..
    rw [horders, hprocessed, Reference.run, List.foldl_append]
    rw [Reference.run] at hrun
    rw [hrun]
    exact Reference.follows hfollows

end Remmy.TaskScheduler
