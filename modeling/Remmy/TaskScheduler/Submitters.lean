import Remmy.TaskScheduler.Scheduler
import Remmy.WorkStealingQueue.ChaseLevSafety
import Mathlib.Algebra.BigOperators.Group.Multiset.Basic
import Mathlib.Algebra.BigOperators.Group.Finset.Piecewise

/-!
# Submitting from Several Threads

`TaskScheduler::Submit` called by any number of external threads `ι`, before any worker
takes a task.  The queue of a priority is a `ChaseLev::Shared`; each thread is in its own
`Insert` on it.

- `submit_lost`: two overlapping calls lose a task.
- `submit_exact`: as long as no thread loads `bottom_` of a queue while another one is
  between its load and its store of that `bottom_`, nothing is lost.
-/

namespace Remmy.TaskScheduler

open Remmy.Lib
open Remmy.ChaseLev (Shared InsertPc Core)

universe u v

variable {ι : Type u} {W P : ℕ} {T : Type v}

/-! ## The model -/

/-- Where an external thread stands in `Submit`. -/
inductive SubmitPc (W P : ℕ) (T : Type v)
  | ready
  | check (task : T) (q : Fin P)
  | add (task : T) (q : Fin P)
  | insert (pc : InsertPc T) (q : Fin P)
  | growing (g : Grow W)

/-- The scheduler's atomics, its submission queues and the external threads. -/
structure SubmitState (ι : Type u) (W P : ℕ) (T : Type v) where
  /-- `pending_tasks_`. -/
  pending : ℕ
  /-- `stop_`. -/
  stop : Bool
  /-- `live_threads_`. -/
  live : ℕ
  /-- `submitted_`. -/
  submitted : Fin P → Shared T
  pcs : ι → SubmitPc W P T

/-- What a step shows: the `fetch_add` of a submission, an atomic step in an `Insert`, the
    last one of it, and a submission refused because of `stop_`. -/
inductive SubmitEvent (ι : Type u) (P : ℕ) (T : Type v)
  | submit (task : T) (q : Fin P)
  | insert (i : ι)
  | inserted (task : T) (q : Fin P)
  | refused (i : ι)
  | internal

/-- A new scheduler. -/
def SubmitState.initial (ι : Type u) (W P : ℕ) (T : Type v) [Inhabited T] : SubmitState ι W P T where
  pending := 0
  stop := false
  live := 0
  submitted _ := .empty
  pcs _ := .ready

variable [DecidableEq ι]

namespace SubmitState

/-- Replace where one thread stands. -/
def setPc (s : SubmitState ι W P T) (i : ι) (pc : SubmitPc W P T) : SubmitState ι W P T :=
  { s with pcs := Function.update s.pcs i pc }

/-- Replace one queue. -/
def setQueue (s : SubmitState ι W P T) (q : Fin P) (d : Shared T) : SubmitState ι W P T :=
  { s with submitted := Function.update s.submitted q d }

omit [DecidableEq ι] in
theorem setQueue_submitted_self (s : SubmitState ι W P T) (q : Fin P) (d : Shared T) :
    (s.setQueue q d).submitted q = d := by
  simp [setQueue]

omit [DecidableEq ι] in
theorem setQueue_submitted_of_ne (s : SubmitState ι W P T) {q q' : Fin P} (d : Shared T)
    (h : q' ≠ q) : (s.setQueue q' d).submitted q = s.submitted q := by
  simp [setQueue, Function.update_of_ne (Ne.symm h)]

end SubmitState

variable [Inhabited T]

/-- An atomic step of the external thread `i`. -/
inductive SubmitStep (i : ι) : SubmitState ι W P T → SubmitEvent ι P T → SubmitState ι W P T → Prop
  | call {s : SubmitState ι W P T} (task : T) (q : Fin P) : s.pcs i = .ready →
      SubmitStep i s .internal (s.setPc i (.check task q))
  | refused {s : SubmitState ι W P T} {task : T} {q : Fin P} : s.pcs i = .check task q →
      s.stop = true → SubmitStep i s (.refused i) (s.setPc i .ready)
  | accepted {s : SubmitState ι W P T} {task : T} {q : Fin P} : s.pcs i = .check task q →
      s.stop = false → SubmitStep i s .internal (s.setPc i (.add task q))
  | add {s : SubmitState ι W P T} {task : T} {q : Fin P} : s.pcs i = .add task q →
      SubmitStep i s (.submit task q)
        ({ s with pending := s.pending + 1 }.setPc i (.insert (.loadBottom task) q))
  | insert {s : SubmitState ι W P T} {pc pc' : InsertPc T} {q : Fin P} {d : Shared T} :
      s.pcs i = .insert pc q → ChaseLev.insertStep (s.submitted q) pc = (d, some pc') →
      SubmitStep i s (.insert i) ((s.setQueue q d).setPc i (.insert pc' q))
  | inserted {s : SubmitState ι W P T} {pc : InsertPc T} {q : Fin P} {d : Shared T} :
      s.pcs i = .insert pc q → ChaseLev.insertStep (s.submitted q) pc = (d, none) →
      SubmitStep i s (.inserted pc.value q) ((s.setQueue q d).setPc i (.growing .load))
  | grow {s : SubmitState ι W P T} {g g' : Grow W} {live : ℕ} : s.pcs i = .growing g →
      GrowStep s.pending s.live g live (some g') →
      SubmitStep i s .internal ({ s with live := live }.setPc i (.growing g'))
  | grown {s : SubmitState ι W P T} {g : Grow W} {live : ℕ} : s.pcs i = .growing g →
      GrowStep s.pending s.live g live none →
      SubmitStep i s .internal ({ s with live := live }.setPc i .ready)
  /-- The thread started takes nothing yet. -/
  | startThread {s : SubmitState ι W P T} {index : Fin W} : s.pcs i = .growing (.start index) →
      SubmitStep i s .internal (s.setPc i .ready)

/-- All external threads, in any interleaving. -/
def submitSystem (ι : Type u) (W P : ℕ) (T : Type v) [DecidableEq ι] [Inhabited T] :
    Lib.System (SubmitState ι W P T) (SubmitEvent ι P T) where
  init s := s = .initial ι W P T
  step s e s' := ∃ i, SubmitStep i s e s'

/-! ## What was submitted -/

/-- The tasks submitted at a priority, oldest first. -/
def submittedAt (q : Fin P) (tr : List (SubmitEvent ι P T)) : List T :=
  tr.filterMap fun
    | .submit task q' => if q' = q then some task else none
    | _ => none

/-- The tasks whose `Insert` at a priority has returned, oldest first. -/
def insertedAt (q : Fin P) (tr : List (SubmitEvent ι P T)) : List T :=
  tr.filterMap fun
    | .inserted task q' => if q' = q then some task else none
    | _ => none

/-- The task that a thread is inserting at a priority. -/
def SubmitPc.inserting (q : Fin P) : SubmitPc W P T → Option T
  | .insert pc q' => if q' = q then some pc.value else none
  | _ => none

/-- The tasks being inserted at a priority. -/
def SubmitState.inserting [Fintype ι] (s : SubmitState ι W P T) (q : Fin P) : Multiset T :=
  ∑ i, (((s.pcs i).inserting q).toList : Multiset T)

/-- The books of a run: what was submitted is inserted or being inserted, and
    `pending_tasks_` counts it. -/
structure SubmitBooks [Fintype ι] (tr : List (SubmitEvent ι P T)) (s : SubmitState ι W P T) :
    Prop where
  submitted : ∀ q, (submittedAt q tr : Multiset T) = (insertedAt q tr : Multiset T) + s.inserting q
  pending : s.pending = ∑ q, (submittedAt q tr).length

omit [DecidableEq ι] [Inhabited T] in
theorem submittedAt_snoc (q : Fin P) (tr : List (SubmitEvent ι P T)) (e : SubmitEvent ι P T) :
    submittedAt q (tr ++ [e]) = submittedAt q tr ++ submittedAt q [e] :=
  List.filterMap_append

omit [DecidableEq ι] [Inhabited T] in
theorem insertedAt_snoc (q : Fin P) (tr : List (SubmitEvent ι P T)) (e : SubmitEvent ι P T) :
    insertedAt q (tr ++ [e]) = insertedAt q tr ++ insertedAt q [e] :=
  List.filterMap_append

omit [Inhabited T] in
/-- One thread moves. -/
theorem inserting_setPc [Fintype ι] (s : SubmitState ι W P T) (i : ι) (pc : SubmitPc W P T)
    (q : Fin P) :
    (s.setPc i pc).inserting q + ((s.pcs i).inserting q).toList =
      s.inserting q + (pc.inserting q).toList :=
  sum_update_add s.pcs (fun _ pc => ((pc.inserting q).toList : Multiset T)) i pc

omit [Inhabited T] in
theorem inserting_setPc_of_eq [Fintype ι] {s : SubmitState ι W P T} {i : ι} {pc : SubmitPc W P T}
    {q : Fin P} (h : pc.inserting q = (s.pcs i).inserting q) :
    (s.setPc i pc).inserting q = s.inserting q := by
  have hsum := inserting_setPc s i pc q
  rw [h] at hsum
  exact add_right_cancel hsum

omit [DecidableEq ι] [Inhabited T] in
@[simp] theorem inserting_setQueue [Fintype ι] (s : SubmitState ι W P T) (q q' : Fin P)
    (d : Shared T) : (s.setQueue q' d).inserting q = s.inserting q := rfl

/-- **Step lemma**: what a step adds to the books of one priority. -/
theorem SubmitStep.books [Fintype ι] {i : ι} {s s' : SubmitState ι W P T} {e : SubmitEvent ι P T}
    (hs : SubmitStep i s e s') (q : Fin P) :
    (submittedAt q [e] : Multiset T) + s.inserting q =
      (insertedAt q [e] : Multiset T) + s'.inserting q := by
  cases hs with
  | @add task q' hpc =>
    -- The task is submitted, and its insertion begins.
    have hsum := inserting_setPc { s with pending := s.pending + 1 } i
      (.insert (.loadBottom task) q') q
    have hold : (s.pcs i).inserting q = none := by
      rw [hpc]
      rfl
    change _ + ((((s.pcs i).inserting q).toList : List T) : Multiset T) = s.inserting q + _ at hsum
    rw [hold, Option.toList_none, Multiset.coe_nil, add_zero] at hsum
    rw [hsum, add_comm]
    by_cases hq : q' = q
    · simp [submittedAt, insertedAt, SubmitPc.inserting, InsertPc.value, hq]
    · simp [submittedAt, insertedAt, SubmitPc.inserting, hq]
  | @insert pc pc' q' d hpc hstep =>
    have hsame : (SubmitPc.insert pc' q' : SubmitPc W P T).inserting q =
        ((s.setQueue q' d).pcs i).inserting q := by
      change _ = (s.pcs i).inserting q
      rw [hpc, SubmitPc.inserting, SubmitPc.inserting, ChaseLev.insertStep_value hstep]
    rw [inserting_setPc_of_eq hsame, inserting_setQueue]
    rfl
  | @inserted pc q' d hpc hstep =>
    -- Its insertion is over.
    have hsum := inserting_setPc (s.setQueue q' d) i (.growing .load) q
    have hold : (s.pcs i).inserting q = if q' = q then some pc.value else none := by
      rw [hpc]
      rfl
    change _ + ((((s.pcs i).inserting q).toList : List T) : Multiset T) = s.inserting q + 0 at hsum
    rw [hold, add_zero] at hsum
    rw [← hsum]
    by_cases hq : q' = q
    · simp [submittedAt, insertedAt, hq, add_comm]
    · simp [submittedAt, insertedAt, hq]
  | call task q' hpc | refused hpc | accepted hpc | grow hpc | grown hpc | startThread hpc =>
    rw [inserting_setPc_of_eq (by rw [hpc]; rfl)]
    rfl

/-- What a step adds to `pending_tasks_`. -/
theorem SubmitStep.pending {i : ι} {s s' : SubmitState ι W P T} {e : SubmitEvent ι P T}
    (hs : SubmitStep i s e s') :
    s'.pending = s.pending + ∑ q, (submittedAt q [e]).length := by
  cases hs with
  | @add task q' hpc =>
    have hone : ∀ q, (submittedAt q [SubmitEvent.submit (ι := ι) task q']).length =
        if q' = q then 1 else 0 := by
      intro q
      by_cases hq : q' = q <;> simp [submittedAt, hq]
    simp only [hone, Finset.sum_ite_eq, Finset.mem_univ, if_true]
    rfl
  | _ => simp [submittedAt, SubmitState.setPc, SubmitState.setQueue]

/-- The books are in order in every run. -/
theorem submitBooks_of_run [Fintype ι] {tr : List (SubmitEvent ι P T)} {s : SubmitState ι W P T}
    (h : (submitSystem ι W P T).Run tr s) : SubmitBooks tr s := by
  refine h.invariant (I := SubmitBooks) ?_ ?_
  · rintro s rfl
    refine ⟨fun q => ?_, ?_⟩
    · simp [submittedAt, insertedAt, SubmitState.inserting, SubmitState.initial, SubmitPc.inserting]
    · simp [submittedAt, SubmitState.initial]
  · rintro tr s e s' - hb ⟨i, hs⟩
    refine ⟨fun q => ?_, ?_⟩
    · rw [submittedAt_snoc, insertedAt_snoc, ← Multiset.coe_add, ← Multiset.coe_add, hb.submitted,
        add_assoc, add_comm (s.inserting q), hs.books q, add_assoc]
    · rw [hs.pending, hb.pending, ← Finset.sum_add_distrib]
      refine Finset.sum_congr rfl fun q _ => ?_
      rw [submittedAt_snoc, List.length_append]

/-! ## Calls that do not overlap -/

/-- An `Insert` that has loaded `bottom_`. -/
def Loaded : InsertPc T → Prop
  | .loadBottom _ => False
  | _ => True

/-- The thread is between its load and its store of `bottom_` of a queue. -/
def SubmitPc.InInsert (q : Fin P) (pc : SubmitPc W P T) : Prop :=
  ∃ ins, pc = .insert ins q ∧ Loaded ins

/-- **The condition**: a thread that loads `bottom_` of a queue does so while no other thread
    is between its load and its store of it. -/
def Alone (s : SubmitState ι W P T) (e : SubmitEvent ι P T) : Prop :=
  ∀ i task q, e = .insert i → s.pcs i = .insert (.loadBottom task) q →
    ∀ j, j ≠ i → ¬(s.pcs j).InInsert q

/-- A queue with at most one thread in an `Insert`, holding `done`. -/
structure QueueOk (s : SubmitState ι W P T) (q : Fin P) (done : List T) : Prop where
  owner : ((∀ j, ¬(s.pcs j).InInsert q) ∧ Core (s.submitted q) .idle) ∨
    ∃ i pc, s.pcs i = .insert pc q ∧ Loaded pc ∧ Core (s.submitted q) (.insert pc) ∧
      ∀ j, (s.pcs j).InInsert q → j = i
  window : (s.submitted q).window = done

omit [Inhabited T] in
theorem storedBy_insert (d : Shared T) (pc : InsertPc T) :
    ChaseLev.storedBy d (.insert pc) = d.window := by
  simp [ChaseLev.storedBy, ChaseLev.OwnerPc.logicalBottom, ChaseLev.OwnerPc.claim, Shared.window]

/-- A step inside `Insert` is past the load of `bottom_`. -/
theorem loaded_of_insertStep {d d' : Shared T} {pc pc' : InsertPc T}
    (hs : ChaseLev.insertStep d pc = (d', some pc')) : Loaded pc' := by
  cases pc with
  | checkFull v b t a =>
    simp only [ChaseLev.insertStep] at hs
    split_ifs at hs <;> (cases hs; trivial)
  | resizeBottom | copyStore =>
    cases hs
    unfold InsertPc.copyNext
    split_ifs <;> trivial
  | storeBottom => simp [ChaseLev.insertStep] at hs
  | _ =>
    cases hs
    trivial

omit [DecidableEq ι] [Inhabited T] in
/-- A step that leaves a queue and the inserts on it alone. -/
theorem QueueOk.frame {s s' : SubmitState ι W P T} {q : Fin P} {done : List T}
    (h : QueueOk s q done) (hqueue : s'.submitted q = s.submitted q)
    (hpcs : ∀ j pc, Loaded pc → (s'.pcs j = .insert pc q ↔ s.pcs j = .insert pc q)) :
    QueueOk s' q done := by
  have hin : ∀ j, (s'.pcs j).InInsert q ↔ (s.pcs j).InInsert q := fun j =>
    exists_congr fun pc => and_congr_left fun hl => hpcs j pc hl
  refine ⟨?_, hqueue ▸ h.window⟩
  rcases h.owner with ⟨hnone, hcore⟩ | ⟨i, pc, hpc, hl, hcore, honly⟩
  · exact .inl ⟨fun j => (hin j).not.mpr (hnone j), hqueue ▸ hcore⟩
  · exact .inr ⟨i, pc, (hpcs i pc hl).mpr hpc, hl, hqueue ▸ hcore, fun j hj => honly j ((hin j).mp hj)⟩

omit [DecidableEq ι] [Inhabited T] in
/-- The invariant of an `Insert` is there from its first step on, and no other thread is in
    one on the same queue. -/
theorem QueueOk.core {s : SubmitState ι W P T} {q : Fin P} {done : List T} {i : ι}
    {pc : InsertPc T} (h : QueueOk s q done) (hpc : s.pcs i = .insert pc q)
    (halone : ∀ task, pc = .loadBottom task → ∀ j, j ≠ i → ¬(s.pcs j).InInsert q) :
    Core (s.submitted q) (.insert pc) ∧ ∀ j, (s.pcs j).InInsert q → j = i := by
  by_cases hl : Loaded pc
  · rcases h.owner with ⟨hnone, -⟩ | ⟨k, pc', hpc', -, hcore, honly⟩
    · exact absurd ⟨pc, hpc, hl⟩ (hnone i)
    · obtain rfl := honly i ⟨pc, hpc, hl⟩
      obtain ⟨rfl, -⟩ := SubmitPc.insert.inj (hpc.symm.trans hpc')
      exact ⟨hcore, honly⟩
  · -- the load of `bottom_`: the queue is idle, because nobody else is past it
    obtain ⟨task, rfl⟩ : ∃ task, pc = .loadBottom task := by
      cases pc with
      | loadBottom task => exact ⟨task, rfl⟩
      | _ => exact absurd trivial hl
    have hself : ¬(s.pcs i).InInsert q := by
      rintro ⟨pc, hpc', hl'⟩
      obtain ⟨rfl, -⟩ := SubmitPc.insert.inj (hpc.symm.trans hpc')
      exact hl hl'
    have hnone : ∀ j, ¬(s.pcs j).InInsert q := by
      intro j
      by_cases hj : j = i
      · rwa [hj]
      · exact halone task rfl j hj
    rcases h.owner with ⟨-, hcore⟩ | ⟨k, pc', hpc', hl', -, -⟩
    · refine ⟨⟨hcore.top_nonneg, hcore.top_le, hcore.len_pos, hcore.room, trivial⟩, ?_⟩
      intro j hj
      exact absurd hj (hnone j)
    · exact absurd ⟨pc', hpc', hl'⟩ (hnone k)

omit [Inhabited T] in
/-- A thread that is in no `Insert` on a queue before and after its step. -/
theorem QueueOk.move {s s' : SubmitState ι W P T} {q : Fin P} {done : List T} {i : ι}
    {pc : SubmitPc W P T} (h : QueueOk s q done) (hqueue : s'.submitted q = s.submitted q)
    (hpcs : s'.pcs = Function.update s.pcs i pc) (hold : ¬(s.pcs i).InInsert q)
    (hnew : ¬pc.InInsert q) : QueueOk s' q done := by
  apply h.frame hqueue
  intro j pc' hl
  rw [hpcs]
  by_cases hj : j = i
  · subst hj
    rw [Function.update_self]
    exact ⟨fun he => absurd ⟨pc', he, hl⟩ hnew, fun he => absurd ⟨pc', he, hl⟩ hold⟩
  · rw [Function.update_of_ne hj]

/-- A step inside `Insert`. -/
theorem QueueOk.insertStep {s : SubmitState ι W P T} {q : Fin P} {done : List T} {i : ι}
    {pc pc' : InsertPc T} {d : Shared T} (h : QueueOk s q done) (hpc : s.pcs i = .insert pc q)
    (halone : Alone s (.insert i)) (hstep : ChaseLev.insertStep (s.submitted q) pc = (d, some pc')) :
    QueueOk ((s.setQueue q d).setPc i (.insert pc' q)) q done := by
  have hload : ∀ task, pc = .loadBottom task → ∀ j, j ≠ i → ¬(s.pcs j).InInsert q := by
    intro task hp
    exact halone i task q rfl (hp ▸ hpc)
  obtain ⟨hcore, honly⟩ := h.core hpc hload
  obtain ⟨hkept, hstored⟩ := hcore.insertStep hstep
  have hself := s.setQueue_submitted_self q d
  rw [storedBy_insert, storedBy_insert] at hstored
  refine ⟨.inr ⟨i, pc', Function.update_self i _ _, loaded_of_insertStep hstep, ?_, ?_⟩, ?_⟩
  · change Core ((s.setQueue q d).submitted q) _
    rw [hself]
    exact hkept.core
  · intro j hj
    by_contra hne
    have hsame : ((s.setQueue q d).setPc i (.insert pc' q)).pcs j = s.pcs j :=
      Function.update_of_ne hne _ s.pcs
    rw [hsame] at hj
    exact hne (honly j hj)
  · change ((s.setQueue q d).submitted q).window = done
    rw [hself, hstored, h.window]

/-- The last step of `Insert`: the task is in the queue. -/
theorem QueueOk.inserted {s : SubmitState ι W P T} {q : Fin P} {done : List T} {i : ι}
    {pc : InsertPc T} {d : Shared T} (h : QueueOk s q done) (hpc : s.pcs i = .insert pc q)
    (hstep : ChaseLev.insertStep (s.submitted q) pc = (d, none)) :
    QueueOk ((s.setQueue q d).setPc i (.growing .load)) q (done ++ [pc.value]) := by
  have hload : ∀ task, pc = .loadBottom task → ∀ j, j ≠ i → ¬(s.pcs j).InInsert q := by
    rintro task rfl
    simp [ChaseLev.insertStep] at hstep
  obtain ⟨hcore, honly⟩ := h.core hpc hload
  obtain ⟨hkept, hstored⟩ := hcore.inserted hstep
  have hself := s.setQueue_submitted_self q d
  rw [storedBy_insert, ChaseLev.storedBy_idle] at hstored
  refine ⟨.inl ⟨?_, ?_⟩, ?_⟩
  · intro j hj
    by_cases hne : j = i
    · subst hne
      obtain ⟨pc', hpc', -⟩ := hj
      have hnew : ((s.setQueue q d).setPc j (.growing .load)).pcs j = .growing .load :=
        Function.update_self j _ s.pcs
      cases hnew.symm.trans hpc'
    · have hsame : ((s.setQueue q d).setPc i (.growing .load)).pcs j = s.pcs j :=
        Function.update_of_ne hne _ s.pcs
      rw [hsame] at hj
      exact hne (honly j hj)
  · change Core ((s.setQueue q d).submitted q) _
    rw [hself]
    exact hkept.core
  · change ((s.setQueue q d).submitted q).window = _
    rw [hself, hstored, h.window]

omit [DecidableEq ι] [Inhabited T] in
/-- A thread in an `Insert` on one queue is in none on another. -/
theorem not_inInsert_of_ne {q q' : Fin P} (pc : InsertPc T) (hq : q' ≠ q) :
    ¬(SubmitPc.insert pc q' : SubmitPc W P T).InInsert q := by
  rintro ⟨pc', hpc', -⟩
  exact hq (SubmitPc.insert.inj hpc').2

/-- **Step lemma**: a step of a thread that loads `bottom_` alone keeps what is queued. -/
theorem SubmitStep.queueOk {i : ι} {s s' : SubmitState ι W P T} {e : SubmitEvent ι P T}
    (hs : SubmitStep i s e s') (halone : Alone s e) {q : Fin P} {done : List T}
    (h : QueueOk s q done) : QueueOk s' q (done ++ insertedAt q [e]) := by
  have hout {pc : SubmitPc W P T} (hpc : ∀ ins q', pc ≠ .insert ins q') : ¬pc.InInsert q := by
    rintro ⟨ins, rfl, -⟩
    exact hpc ins q rfl
  cases hs with
  | @add task q' hpc =>
    have hnew : ¬(SubmitPc.insert (.loadBottom task) q' : SubmitPc W P T).InInsert q := by
      rintro ⟨ins, hins, hl⟩
      obtain ⟨rfl, -⟩ := SubmitPc.insert.inj hins
      exact hl
    have hmove : QueueOk ({ s with pending := s.pending + 1 }.setPc i
        (.insert (.loadBottom task) q')) q done :=
      h.move rfl rfl (hout (by simp [hpc])) hnew
    simpa [insertedAt] using hmove
  | @insert pc pc' q' d hpc hstep =>
    -- Steps on the queues of other priorities change nothing here.
    rw [show insertedAt q [SubmitEvent.insert (T := T) i] = [] from rfl, List.append_nil]
    by_cases hq : q' = q
    · subst hq
      exact h.insertStep hpc halone hstep
    · refine h.move (s.setQueue_submitted_of_ne d hq) rfl ?_ ?_
      · rw [hpc]
        exact not_inInsert_of_ne pc hq
      · exact not_inInsert_of_ne pc' hq
  | @inserted pc q' d hpc hstep =>
    -- The task that has been inserted is the last of the queue.
    by_cases hq : q' = q
    · subst hq
      have hone : insertedAt q' [SubmitEvent.inserted (ι := ι) pc.value q'] = [pc.value] := by
        simp [insertedAt]
      rw [hone]
      exact h.inserted hpc hstep
    · have hnone : insertedAt q [SubmitEvent.inserted (ι := ι) pc.value q'] = [] := by
        simp [insertedAt, hq]
      rw [hnone, List.append_nil]
      refine h.move (s.setQueue_submitted_of_ne d hq) rfl ?_ (hout (by simp))
      rw [hpc]
      exact not_inInsert_of_ne pc hq
  | call task q' hpc | refused hpc | accepted hpc | grow hpc | grown hpc | startThread hpc =>
    rw [show insertedAt q [_] = [] from rfl, List.append_nil]
    exact h.move rfl rfl (hout (by simp [hpc])) (hout (by simp))

/-- **Run lemma**: as long as every load of `bottom_` is alone, each queue holds exactly what
    was inserted into it, oldest first. -/
theorem queueOk_of_run {tr : List (SubmitEvent ι P T)} {s : SubmitState ι W P T}
    (h : ((submitSystem ι W P T).restrict Alone).Run tr s) (q : Fin P) :
    QueueOk s q (insertedAt q tr) := by
  refine h.invariant (I := fun tr s => QueueOk s q (insertedAt q tr)) ?_ ?_
  · rintro s rfl
    refine ⟨.inl ⟨?_, ?_⟩, rfl⟩
    · rintro j ⟨pc, hpc, -⟩
      cases hpc
    · exact (ChaseLev.inv_empty (ι := ι)).core
  · rintro tr s e s' - hq ⟨⟨i, hs⟩, halone⟩
    rw [insertedAt_snoc]
    exact hs.queueOk halone hq

/-! ## When nothing is lost -/

omit [DecidableEq ι] [Inhabited T] in
/-- Nothing is being inserted once every call has returned. -/
theorem inserting_of_ready [Fintype ι] {s : SubmitState ι W P T} (hall : ∀ i, s.pcs i = .ready)
    (q : Fin P) : s.inserting q = 0 := by
  apply Finset.sum_eq_zero
  intro i _
  rw [hall i]
  rfl

/-- **Nothing is lost while no two calls overlap.**  In every run in which each load of
    `bottom_` of a queue falls outside the other threads' stretches from their load to their
    store of it: once all calls have returned, each queue holds every task submitted at its
    priority exactly once, and `pending_tasks_` is the number of queued tasks. -/
theorem submit_exact [Fintype ι] {tr : List (SubmitEvent ι P T)} {s : SubmitState ι W P T}
    (h : ((submitSystem ι W P T).restrict Alone).Run tr s) (hall : ∀ i, s.pcs i = .ready) :
    (∀ q, ((s.submitted q).window : Multiset T) = submittedAt q tr) ∧
      s.pending = ∑ q, (s.submitted q).window.length := by
  have hbooks := submitBooks_of_run h.of_restrict
  have hqueue : ∀ q, ((s.submitted q).window : Multiset T) = submittedAt q tr := by
    intro q
    rw [(queueOk_of_run h q).window, hbooks.submitted q, inserting_of_ready hall q, add_zero]
  refine ⟨hqueue, ?_⟩
  rw [hbooks.pending]
  apply Finset.sum_congr rfl
  intro q _
  have hcard := congrArg Multiset.card (hqueue q)
  rw [Multiset.coe_card, Multiset.coe_card] at hcard
  exact hcard.symm

omit [DecidableEq ι] [Inhabited T] in
/-- A step outside an `Insert` disturbs nobody. -/
theorem alone_of_ne {s : SubmitState ι W P T} {e : SubmitEvent ι P T}
    (h : ∀ i, e ≠ .insert i) : Alone s e := by
  intro i _ _ he
  exact absurd he (h i)

omit [DecidableEq ι] [Inhabited T] in
/-- Nor does a step of an `Insert` that has loaded `bottom_`. -/
theorem alone_of_loaded {s : SubmitState ι W P T} {i : ι} {pc : InsertPc T} {q : Fin P}
    (hpc : s.pcs i = .insert pc q) (h : Loaded pc) : Alone s (.insert i) := by
  intro i' task q' he hload
  cases he
  rw [hpc] at hload
  cases hload
  exact h.elim

/-- Two threads submit a task each.  Both are in `Submit` at once, and each of them loads
    `bottom_` when the other one is not between its load and its store. -/
theorem submit_exact_two : ∃ (tr : List (SubmitEvent (Fin 2) 1 ℕ)) (s : SubmitState (Fin 2) 1 1 ℕ),
    submittedAt 0 tr = [5, 7] ∧ (s.submitted 0).window = [5, 7] ∧
      (∀ q, ((s.submitted q).window : Multiset ℕ) = submittedAt q tr) ∧
        s.pending = ∑ q, (s.submitted q).window.length := by
  have outside {s s' : SubmitState (Fin 2) 1 1 ℕ} {e : SubmitEvent (Fin 2) 1 ℕ} (i : Fin 2)
      (hs : SubmitStep i s e s') (he : ∀ i, e ≠ .insert i) :
      ((submitSystem (Fin 2) 1 1 ℕ).restrict Alone).step s e s' := ⟨⟨i, hs⟩, alone_of_ne he⟩
  have inside {s : SubmitState (Fin 2) 1 1 ℕ} (i : Fin 2) {pc pc' : InsertPc ℕ} {d : Shared ℕ}
      (hpc : s.pcs i = .insert pc 0) (h : Loaded pc)
      (hd : ChaseLev.insertStep (s.submitted 0) pc = (d, some pc')) :
      ((submitSystem (Fin 2) 1 1 ℕ).restrict Alone).step s (.insert i)
        ((s.setQueue 0 d).setPc i (.insert pc' 0)) := ⟨⟨i, .insert hpc hd⟩, alone_of_loaded hpc h⟩
  have hstart : ((submitSystem (Fin 2) 1 1 ℕ).restrict Alone).Run [] (.initial (Fin 2) 1 1 ℕ) :=
    .start rfl
  -- both threads count their tasks
  have hcall₀ := (hstart.next (outside 0 (.call 5 0 rfl) (by simp))).next
    (outside 0 (.accepted rfl rfl) (by simp))
  have hcall₁ := (hcall₀.next (outside 1 (.call 7 0 rfl) (by simp))).next
    (outside 1 (.accepted rfl rfl) (by simp))
  have hadd := (hcall₁.next (outside 0 (.add rfl) (by simp))).next (outside 1 (.add rfl) (by simp))
  -- thread 0 loads `bottom_` while thread 1 has not, and goes through to its store
  have halone₀ := hadd.next ⟨⟨0, .insert rfl rfl⟩, by
    intro i task q he _ j hj
    cases he
    obtain rfl : j = 1 := by omega
    rintro ⟨ins, hins, hloaded⟩
    cases hins
    exact hloaded⟩
  have hdata₀ := ((halone₀.next (inside 0 rfl trivial rfl)).next (inside 0 rfl trivial rfl)).next
    (inside 0 rfl trivial rfl)
  have hstored₀ := ((hdata₀.next (inside 0 rfl trivial rfl)).next (inside 0 rfl trivial rfl)).next
    (outside 0 (.inserted rfl rfl) (by simp))
  -- then thread 1 does, before thread 0 has returned
  have halone₁ := hstored₀.next ⟨⟨1, .insert rfl rfl⟩, by
    intro i task q he _ j hj
    cases he
    obtain rfl : j = 0 := by omega
    rintro ⟨ins, hins, -⟩
    cases hins⟩
  have hdata₁ := ((halone₁.next (inside 1 rfl trivial rfl)).next (inside 1 rfl trivial rfl)).next
    (inside 1 rfl trivial rfl)
  have hstored₁ := ((hdata₁.next (inside 1 rfl trivial rfl)).next (inside 1 rfl trivial rfl)).next
    (outside 1 (.inserted rfl rfl) (by simp))
  -- both return; thread 0 starts the worker
  have hgrow₀ := ((hstored₁.next (outside 0 (.grow rfl .load) (by simp))).next
    (outside 0 (.grow rfl (.more Nat.zero_lt_one (by decide))) (by simp))).next
    (outside 0 (.grow rfl (.won rfl)) (by simp))
  have hready₀ := hgrow₀.next (outside 0 (.startThread rfl) (by simp))
  have hready₁ := (hready₀.next (outside 1 (.grow rfl .load) (by simp))).next
    (outside 1 (.grown rfl (.enough (by decide))) (by simp))
  exact ⟨_, _, rfl, by decide +kernel, submit_exact hready₁ (Fin.forall_fin_two.mpr ⟨rfl, rfl⟩)⟩

/-- **Two overlapping calls lose a task.**  Both threads load `bottom_` before either of them
    stores it: the second store of the slot and of `bottom_` undoes the first. -/
theorem submit_lost : ∃ (tr : List (SubmitEvent (Fin 2) 1 ℕ)) (s : SubmitState (Fin 2) 1 1 ℕ),
    (submitSystem (Fin 2) 1 1 ℕ).Run tr s ∧ (∀ i, s.pcs i = .ready) ∧
      submittedAt 0 tr = [5, 7] ∧ (s.submitted 0).window = [7] ∧ s.pending = 2 := by
  have hstart : (submitSystem (Fin 2) 1 1 ℕ).Run [] (.initial (Fin 2) 1 1 ℕ) := .start rfl
  -- thread 0 adds its task to `pending_tasks_` and loads `bottom_`, then thread 1 does
  have hadd₀ := (hstart.next ⟨0, .call 5 0 rfl⟩).next ⟨0, .accepted rfl rfl⟩
  have hload₀ := (hadd₀.next ⟨0, .add rfl⟩).next ⟨0, .insert rfl rfl⟩
  have hadd₁ := (hload₀.next ⟨1, .call 7 0 rfl⟩).next ⟨1, .accepted rfl rfl⟩
  have hload₁ := (hadd₁.next ⟨1, .add rfl⟩).next ⟨1, .insert rfl rfl⟩
  -- thread 0 goes through to its store of `bottom_`
  have hdata₀ := (hload₁.next ⟨0, .insert rfl rfl⟩).next ⟨0, .insert rfl rfl⟩
  have hlen₀ := (hdata₀.next ⟨0, .insert rfl rfl⟩).next ⟨0, .insert rfl rfl⟩
  have hstore₀ := (hlen₀.next ⟨0, .insert rfl rfl⟩).next ⟨0, .inserted rfl rfl⟩
  -- and so does thread 1, with the same index
  have hdata₁ := (hstore₀.next ⟨1, .insert rfl rfl⟩).next ⟨1, .insert rfl rfl⟩
  have hlen₁ := (hdata₁.next ⟨1, .insert rfl rfl⟩).next ⟨1, .insert rfl rfl⟩
  have hstore₁ := (hlen₁.next ⟨1, .insert rfl rfl⟩).next ⟨1, .inserted rfl rfl⟩
  -- both return: thread 0 starts a worker, which takes nothing
  have hgrow₀ := (hstore₁.next ⟨0, .grow rfl .load⟩).next
    ⟨0, .grow rfl (.more Nat.zero_lt_one (by decide))⟩
  have hready₀ := (hgrow₀.next ⟨0, .grow rfl (.won rfl)⟩).next ⟨0, .startThread rfl⟩
  have hready₁ := (hready₀.next ⟨1, .grow rfl .load⟩).next ⟨1, .grown rfl (.enough (by decide))⟩
  refine ⟨_, _, hready₁, ?_, rfl, by decide +kernel, rfl⟩
  intro i
  match i with
  | 0 => rfl
  | 1 => rfl

end Remmy.TaskScheduler
