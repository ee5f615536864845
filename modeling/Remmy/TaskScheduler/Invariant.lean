import Remmy.TaskScheduler.Accounting

/-!
# The Task Scheduler: the Invariant

`Inv` of `Remmy.TaskScheduler.Accounting` is kept by every step of every thread.
-/

namespace Remmy.TaskScheduler

open Remmy.Lib
open Remmy.ChaseLev (Deque)

universe u

variable {W P : ℕ} {T : Type u} [Inhabited T]

/-! ## Starts of threads -/

omit [Inhabited T] in
/-- A worker looking for a task starts nobody. -/
theorem firstPriority_births (i w : Fin W) :
    (firstPriority : WorkerPc W P T).births i w = if w = i then 1 else 0 := by
  unfold firstPriority
  split <;> rfl

omit [Inhabited T] in
theorem nextPriority_births (p : Fin P) (i w : Fin W) :
    (nextPriority p : WorkerPc W P T).births i w = if w = i then 1 else 0 := by
  unfold nextPriority
  split <;> rfl

/-- The external thread keeps that each slot below `live_threads_` is started once, and no other. -/
theorem ExtStep.born {s s' : State W P T} {e : Event W T} (h : s.Born) (hs : ExtStep s e s') :
    s'.Born := by
  intro i
  have hb := h i
  cases hs with
  | @grow g g' live hext hgrow =>
    have hbirths := hgrow.births i
    have hsum := births_setExt (s.setLive live) i (.growing g')
    simp only [setLive_ext, hext, ExtPc.births, Option.elim] at hbirths hsum
    change _ + _ = s.births i + _ at hsum
    change _ = if (i : ℕ) < live then 1 else 0
    omega
  | @grown g live hext hgrow =>
    have hbirths := hgrow.births i
    have hsum := births_setExt (s.setLive live) i .ready
    simp only [setLive_ext, hext, ExtPc.births, Option.elim] at hbirths hsum
    change _ + _ = s.births i + _ at hsum
    change _ = if (i : ℕ) < live then 1 else 0
    omega
  | @startThread index hext =>
    have hworker := births_setWorker s index i .checkStop
    have hsum := births_setExt (s.setWorker index .checkStop) i .ready
    simp only [h.unborn_of_ext hext, setWorker_ext, hext, ExtPc.births, WorkerPc.births,
      Grow.births] at hworker hsum
    change _ = if (i : ℕ) < s.live then 1 else 0
    omega
  | insertStep hext hd => exact hb
  | submit _ _ hext | submitRefused hext | submitAccepted hext | submitAdd hext | inserted hext
  | wait hext | waitOwed hext | waitZero hext | sleep hext | waitChanged hext
  | wakeSpuriously hext | storeStop hext | joinOne _ hext | joinedAll hext =>
    refine (births_setExt_of_eq ?_).trans hb
    simp [hext, ExtPc.births, Grow.births]

/-- So does a worker, which starts slots when `Process` submits. -/
theorem WorkerStep.born {w : Fin W} {s s' : State W P T} {e : Event W T} (h : s.Born)
    (hs : WorkerStep w s e s') : s'.Born := by
  intro i
  have hb := h i
  cases hs with
  | @grow task g g' live hpc hgrow =>
    -- A slot is counted as live as soon as its thread is about to be started.
    have hbirths := hgrow.births i
    have hsum := births_setWorker (s.setLive live) w i (.growing task g')
    simp only [setLive_workers, hpc, WorkerPc.births, Option.elim] at hbirths hsum
    change _ + _ = s.births i + _ at hsum
    change _ = if (i : ℕ) < live then 1 else 0
    omega
  | @grown task g live hpc hgrow =>
    have hbirths := hgrow.births i
    have hsum := births_setWorker (s.setLive live) w i (.processing task)
    simp only [setLive_workers, hpc, WorkerPc.births, Option.elim] at hbirths hsum
    change _ + _ = s.births i + _ at hsum
    change _ = if (i : ℕ) < live then 1 else 0
    omega
  | @startThread task index hpc =>
    -- The thread that was about to be started is there now.
    have hunborn := h.unborn_of_worker hpc
    have hne : w ≠ index := by
      rintro rfl
      simp [hpc] at hunborn
    have hstart := births_setWorker s index i .checkStop
    have hsum := births_setWorker (s.setWorker index .checkStop) w i (.processing task)
    simp only [hunborn, setWorker_workers_of_ne _ _ hne, hpc, WorkerPc.births,
      Grow.births] at hstart hsum
    change _ = if (i : ℕ) < s.live then 1 else 0
    omega
  | takeStep _ hd | stealStep _ hd | submittedStep _ hd | insertStep _ hd => exact hb
  | acquire hpc _ =>
    refine (births_setWorker_of_eq ?_).trans hb
    rw [hpc, firstPriority_births]
    rfl
  | stoleNoneSubmitted hpc hd =>
    refine (births_setWorker_of_eq ?_).trans hb
    rw [setQueue_workers, hpc, nextPriority_births]
    rfl
  | subtract hpc =>
    refine (births_setWorker_of_eq ?_).trans hb
    rw [setPending_workers, hpc]
    split_ifs <;> rfl
  | wake hpc hext =>
    refine (births_setExt_of_eq ?_).trans ((births_setWorker_of_eq ?_).trans hb)
    · simp [hext, ExtPc.births]
    · simp [hpc, WorkerPc.births]
  | takeOwn hpc hd | took hpc hd | tookNone hpc hd | victim hpc _ hd | stole hpc hd
  | stoleNone hpc hd | trySubmitted hpc hd | stoleSubmitted hpc hd
  | inserted hpc hd | submitAdd hpc hd
  | stopped hpc _ | skipSelf hpc | noVictimLeft hpc _ | submit _ _ hpc | processed hpc
  | notify hpc _ =>
    refine (births_setWorker_of_eq ?_).trans hb
    simp [hpc, WorkerPc.births, Grow.births]

/-- A thread that takes a step has been started. -/
theorem WorkerStep.live {w : Fin W} {s s' : State W P T} {e : Event W T} (h : s.Born)
    (hs : WorkerStep w s e s') : (w : ℕ) < s.live := by
  have hborn : s.workers w ≠ .unborn := by
    intro hunborn
    cases hs <;> simp_all
  have hb := h w
  have hone := births_self w hborn
  have hle := births_le_sum s w w
  simp only [State.births] at hb
  split_ifs at hb with hlive
  · exact hlive
  · omega

/-! ## What a step leaves alone -/

omit [Inhabited T] in
theorem workers_of_start {s : State W P T} {index w : Fin W} (hunborn : s.workers index = .unborn) :
    (s.setWorker index .checkStop).workers w = s.workers w ∨
      s.workers w = .unborn ∧ (s.setWorker index .checkStop).workers w = .checkStop := by
  by_cases hw : w = index
  · subst hw
    exact .inr ⟨hunborn, Function.update_self ..⟩
  · exact .inl (setWorker_workers_of_ne s _ hw)

/-- The external thread does nothing to a worker but start it. -/
theorem ExtStep.workers {s s' : State W P T} {e : Event W T} (h : s.Born) (hs : ExtStep s e s')
    (w : Fin W) : s'.workers w = s.workers w ∨ s.workers w = .unborn ∧ s'.workers w = .checkStop := by
  cases hs with
  | startThread hext => exact workers_of_start (h.unborn_of_ext hext)
  | _ => exact .inl rfl

/-- A worker does nothing to another one but start it. -/
theorem WorkerStep.workers {w w' : Fin W} {s s' : State W P T} {e : Event W T} (h : s.Born)
    (hs : WorkerStep w s e s') (hw : w' ≠ w) :
    s'.workers w' = s.workers w' ∨ s.workers w' = .unborn ∧ s'.workers w' = .checkStop := by
  cases hs with
  | startThread hpc =>
    rw [setWorker_workers_of_ne _ _ hw]
    exact workers_of_start (h.unborn_of_worker hpc)
  | takeStep | stealStep | submittedStep | insertStep => exact .inl rfl
  | _ => exact .inl (setWorker_workers_of_ne _ _ hw)

/-- A worker moves the external thread only by waking it. -/
theorem WorkerStep.ext {w : Fin W} {s s' : State W P T} {e : Event W T}
    (hs : WorkerStep w s e s') :
    s'.ext = s.ext ∨ ∃ owed, s.ext = .asleep owed ∧ s'.ext = .waitCheck owed := by
  cases hs with
  | wake _ hext => exact .inr ⟨_, hext, rfl⟩
  | _ => exact .inl rfl

omit [Inhabited T] in
theorem setQueue_of_ne {s : State W P T} {k k' : QueueId W P} (d : Deque (Fin W) T) (hk : k' ≠ k) :
    (s.setQueue k d).queues k' = s.queues k' :=
  Function.update_of_ne hk _ s.queues

omit [Inhabited T] in
@[simp] theorem setQueue_self (s : State W P T) (k : QueueId W P) (d : Deque (Fin W) T) :
    (s.setQueue k d).queues k = d :=
  Function.update_self k _ s.queues

/-- The external thread works on `submitted_` alone. -/
theorem ExtStep.slot {s s' : State W P T} {e : Event W T} (hs : ExtStep s e s') (w : Fin W)
    (q : Fin P) : s'.queues (.slot w q) = s.queues (.slot w q) := by
  cases hs with
  | submitAdd | insertStep | inserted => simp [setQueue_of_ne]
  | _ => rfl

/-- The steps of a `Steal` leave the owner of every queue where it stands. -/
theorem owner_of_steal {s : State W P T} {k k' : QueueId W P} {d : Deque (Fin W) T}
    {e : ChaseLev.Event (Fin W) T} {w : Fin W} (hd : ChaseLev.Step (s.queues k) e d)
    (he : e = .beginSteal w ∨ e = .thiefStep w ∨ ∃ r, e = .stole w r) :
    ((s.setQueue k d).queues k').owner = (s.queues k').owner := by
  by_cases hk : k' = k
  · subst hk
    rw [setQueue_self]
    exact owner_of_thief hd he
  · rw [setQueue_of_ne d hk]

/-- A worker owns the queues of its slot and is a thief in all others. -/
theorem WorkerStep.owner {w : Fin W} {s s' : State W P T} {e : Event W T}
    (hs : WorkerStep w s e s') {k : QueueId W P} (hk : ∀ p, k ≠ .slot w p) :
    (s'.queues k).owner = (s.queues k).owner := by
  cases hs with
  | takeOwn _ hd | takeStep _ hd | took _ hd | tookNone _ hd | submitAdd _ hd | insertStep _ hd
  | inserted _ hd => simp [setQueue_of_ne, hk]
  | victim _ _ hd | trySubmitted _ hd => exact owner_of_steal hd (.inl rfl)
  | stealStep _ hd | submittedStep _ hd => exact owner_of_steal hd (.inr (.inl rfl))
  | stole _ hd | stoleNone _ hd | stoleSubmitted _ hd | stoleNoneSubmitted _ hd =>
    exact owner_of_steal hd (.inr (.inr ⟨_, rfl⟩))
  | _ => rfl

/-! ## Insertions in progress -/

omit [Inhabited T] in
theorem Inserting.of_owner {d d' : Deque (Fin W) T} {v : T} (h : Inserting d v)
    (howner : d'.owner = d.owner) : Inserting d' v := by
  obtain ⟨pc, hpc, hv⟩ := h
  exact ⟨pc, howner.trans hpc, hv⟩

/-- The external thread is in the `Insert` of the task that it submits. -/
theorem ExtStep.insertingExt {s s' : State W P T} {e : Event W T} (h : Inv s)
    (hs : ExtStep s e s') (task : T) (q : Fin P) (hext' : s'.ext = .submitInsert task q) :
    Inserting (s'.queues (.submitted q)) task := by
  cases hs with
  | submitAdd _ hd =>
    cases hext'
    simpa using inserting_begin hd
  | insertStep hext hd =>
    obtain ⟨rfl, rfl⟩ : _ = task ∧ _ = q := by simpa [hext] using hext'
    simpa using (h.insertingExt _ _ hext).ownerStep hd
  | _ => cases hext'

theorem WorkerStep.insertingExt {w : Fin W} {s s' : State W P T} {e : Event W T} (h : Inv s)
    (hs : WorkerStep w s e s') (task : T) (q : Fin P) (hext' : s'.ext = .submitInsert task q) :
    Inserting (s'.queues (.submitted q)) task := by
  have hext : s.ext = .submitInsert task q := by
    rcases hs.ext with heq | ⟨owed, -, heq⟩
    · rw [← heq, hext']
    · rw [hext'] at heq
      cases heq
  exact (h.insertingExt task q hext).of_owner (hs.owner nofun)

/-- A worker in `Process` is in the `Insert` of the task that it submits. -/
theorem ExtStep.inserting {s s' : State W P T} {e : Event W T} (h : Inv s) (hs : ExtStep s e s')
    (w : Fin W) (task new : T) (q : Fin P) (hpc' : s'.workers w = .submitInsert task new q) :
    Inserting (s'.queues (.slot w q)) new := by
  rcases hs.workers h.born w with heq | ⟨-, heq⟩
  · rw [hs.slot]
    exact h.inserting w task new q (heq.symm.trans hpc')
  · rw [heq] at hpc'
    cases hpc'

theorem WorkerStep.inserting {w : Fin W} {s s' : State W P T} {e : Event W T} (h : Inv s)
    (hs : WorkerStep w s e s') (w' : Fin W) (task new : T) (q : Fin P)
    (hpc' : s'.workers w' = .submitInsert task new q) : Inserting (s'.queues (.slot w' q)) new := by
  by_cases hw : w' = w
  · subst hw
    cases hs with
    | submitAdd hpc hd =>
      obtain ⟨-, rfl, rfl⟩ : _ = task ∧ _ = new ∧ _ = q := by
        simpa [State.setWorker] using hpc'
      simpa [State.setWorker] using inserting_begin hd
    | insertStep hpc hd =>
      obtain ⟨-, rfl, rfl⟩ : _ = task ∧ _ = new ∧ _ = q := by simpa [hpc] using hpc'
      simpa using (h.inserting _ _ _ _ hpc).ownerStep hd
    | takeStep hpc _ | stealStep hpc _ | submittedStep hpc _ =>
      rw [setQueue_workers, hpc] at hpc'
      cases hpc'
    | acquire hpc _ =>
      simp only [State.setWorker, Function.update_self, firstPriority] at hpc'
      split at hpc' <;> cases hpc'
    | stoleNoneSubmitted hpc hd =>
      simp only [State.setWorker, Function.update_self, nextPriority] at hpc'
      split at hpc' <;> cases hpc'
    | subtract hpc =>
      simp only [State.setWorker, Function.update_self] at hpc'
      split at hpc' <;> cases hpc'
    | _ =>
      simp only [State.setWorker, State.setExt, Function.update_self] at hpc'
      cases hpc'
  · rcases hs.workers h.born hw with heq | ⟨-, heq⟩
    · refine (h.inserting w' task new q (heq.symm.trans hpc')).of_owner (hs.owner fun p hp => hw ?_)
      cases hp
      rfl
    · rw [heq] at hpc'
      cases hpc'

/-! ## The counter -/

omit [Inhabited T] in
/-- A running task is part of the load. -/
theorem running_le_load (g : T → ℕ) (s : State W P T) (w : Fin W) :
    (s.workers w).running g ≤ s.load g := by
  have hle : (s.workers w).running g ≤ s.running g :=
    Finset.single_le_sum (f := fun w => (s.workers w).running g) (fun _ _ => Nat.zero_le _)
      (Finset.mem_univ w)
  exact hle.trans (Nat.le_add_left _ _)

omit [Inhabited T] in
/-- A task in `Process` is counted. -/
theorem Inv.pending_pos {s : State W P T} (h : Inv s) {w : Fin W}
    (hw : (s.workers w).running (fun _ => 1) = 1) : 0 < s.pending := by
  have hle := running_le_load (fun _ => 1) s w
  rw [h.pending]
  omega

/-- `pending_tasks_` counts the tasks that wait and those in `Process`. -/
theorem ExtStep.pending {s s' : State W P T} {e : Event W T} (h : Inv s) (hs : ExtStep s e s') :
    s'.pending = s'.load (fun _ => 1) := by
  have hload := hs.load (fun _ => 1) h
  have hp := h.pending
  cases hs with
  | submitAdd _ _ =>
    simp only [Event.finished, Event.submitted, Option.toList_none, Option.toList_some, weigh_nil,
      weigh_cons] at hload
    rw [← Nat.add_zero (State.load _ _), hload, ← hp]
    rfl
  | _ =>
    simp only [Event.finished, Event.submitted, Option.toList_none, weigh_nil, Nat.add_zero] at hload
    rw [hload, ← hp]
    rfl

theorem WorkerStep.pending {w : Fin W} {s s' : State W P T} {e : Event W T} (h : Inv s)
    (hs : WorkerStep w s e s') : s'.pending = s'.load (fun _ => 1) := by
  have hload := hs.load (fun _ => 1) h
  have hp := h.pending
  cases hs with
  | submitAdd _ _ =>
    simp only [Event.finished, Event.submitted, Option.toList_none, Option.toList_some, weigh_nil,
      weigh_cons] at hload
    rw [← Nat.add_zero (State.load _ _), hload, ← hp]
    rfl
  | subtract hpc =>
    -- The subtraction does not underflow: its own task is still counted.
    have hpos := h.pending_pos (w := w) (by rw [hpc]; rfl)
    simp only [Event.finished, Event.submitted, Option.toList_none, Option.toList_some, weigh_nil,
      weigh_cons] at hload
    change s.pending - 1 = _
    omega
  | _ =>
    simp only [Event.finished, Event.submitted, Option.toList_none, weigh_nil, Nat.add_zero] at hload
    rw [hload, ← hp]
    rfl

/-- Once the loop of `Wait` has read 0, nothing is submitted any more. -/
theorem WorkerStep.quiet {w : Fin W} {s s' : State W P T} {e : Event W T} (h : Inv s)
    (hs : WorkerStep w s e s') (hzero : s.pending = 0) : s'.pending = 0 := by
  cases hs with
  | submitAdd hpc _ | subtract hpc =>
    have hpos := h.pending_pos (w := w) (by rw [hpc]; rfl)
    omega
  | _ => exact hzero

/-! ## The waiting thread -/

/-- `Wait` compares, and sleeps, with a value that is not 0. -/
theorem ExtStep.owed {s s' : State W P T} {e : Event W T} (h : Inv s) (hs : ExtStep s e s')
    (owed : ℕ) (hext' : s'.ext = .waitCheck owed ∨ s'.ext = .asleep owed) : owed ≠ 0 := by
  cases hs with
  | waitOwed _ hne =>
    rcases hext' with h' | h' <;> cases h'
    exact hne
  | sleep hext _ =>
    rcases hext' with h' | h' <;> cases h'
    exact h.owed _ (.inl hext)
  | wakeSpuriously hext =>
    rcases hext' with h' | h' <;> cases h'
    exact h.owed _ (.inr hext)
  | insertStep hext _ =>
    rw [setQueue_ext, hext] at hext'
    rcases hext' with h' | h' <;> cases h'
  | _ => rcases hext' with h' | h' <;> cases h'

theorem WorkerStep.owed {w : Fin W} {s s' : State W P T} {e : Event W T} (h : Inv s)
    (hs : WorkerStep w s e s') (owed : ℕ)
    (hext' : s'.ext = .waitCheck owed ∨ s'.ext = .asleep owed) : owed ≠ 0 := by
  rcases hs.ext with heq | ⟨owed', hext, heq⟩
  · rw [heq] at hext'
    exact h.owed owed hext'
  · rw [heq] at hext'
    rcases hext' with h' | h' <;> cases h'
    exact h.owed _ (.inr hext)

/-- The external thread does not fall asleep on a counter that is already 0. -/
theorem ExtStep.awake {s s' : State W P T} {e : Event W T} (h : Inv s) (hs : ExtStep s e s')
    (owed : ℕ) (hext' : s'.ext = .asleep owed) (hzero : s'.pending = 0) :
    ∃ w, s'.workers w = .notify := by
  cases hs with
  | sleep hext hp =>
    cases hext'
    exact absurd (hp.symm.trans hzero) (h.owed _ (.inl hext))
  | insertStep hext _ =>
    rw [setQueue_ext, hext] at hext'
    cases hext'
  | _ => cases hext'

/-- The worker whose subtraction reaches 0 is the one that still has to notify. -/
theorem WorkerStep.awake {w : Fin W} {s s' : State W P T} {e : Event W T} (h : Inv s)
    (hs : WorkerStep w s e s') (owed : ℕ) (hext' : s'.ext = .asleep owed) (hzero : s'.pending = 0) :
    ∃ w, s'.workers w = .notify := by
  have hext : s.ext = .asleep owed := by
    rcases hs.ext with heq | ⟨_, -, heq⟩
    · rw [← heq, hext']
    · rw [hext'] at heq
      cases heq
  have hother (hp : s.pending = 0) (hw : s.workers w ≠ .notify) : ∃ w, s'.workers w = .notify := by
    obtain ⟨w', hw'⟩ := h.awake owed hext hp
    have hne : w' ≠ w := by
      rintro rfl
      exact hw hw'
    rcases hs.workers h.born hne with heq | ⟨hunborn, -⟩
    · exact ⟨w', heq.trans hw'⟩
    · rw [hw'] at hunborn
      cases hunborn
  cases hs with
  | subtract hpc =>
    have hpos := h.pending_pos (w := w) (by rw [hpc]; rfl)
    have hone : s.pending = 1 := by
      change s.pending - 1 = 0 at hzero
      omega
    refine ⟨w, ?_⟩
    simp [State.setWorker, hone]
  | notify _ hnobody => exact absurd hext (hnobody owed)
  | wake => cases hext'
  | submitAdd hpc _ => cases hzero
  | stopped hpc | acquire hpc | takeOwn hpc | takeStep hpc | took hpc | tookNone hpc | skipSelf hpc
  | victim hpc | noVictimLeft hpc | stealStep hpc | stole hpc | stoleNone hpc | trySubmitted hpc
  | submittedStep hpc | stoleSubmitted hpc | stoleNoneSubmitted hpc | submit _ _ hpc
  | insertStep hpc | inserted hpc | grow hpc | grown hpc | startThread hpc | processed hpc =>
    exact hother hzero (by simp [hpc])

/-! ## The first thread -/

/-- While tasks are pending and no thread runs, the submitting thread is about to start one. -/
theorem ExtStep.alive {s s' : State W P T} {e : Event W T} (h : Inv s) (hs : ExtStep s e s')
    (hp : s'.pending ≠ 0) (hlive : s'.live = 0) : W = 0 ∨ s'.ext.mayGrow := by
  have hidle (hp : s.pending ≠ 0) (hlive : s.live = 0) (hext : ¬s.ext.mayGrow) : W = 0 :=
    (h.alive hp hlive).resolve_right hext
  cases hs with
  | submitAdd => exact .inr trivial
  | inserted => exact .inr trivial
  | insertStep => exact h.alive hp hlive
  | grow hext hgrow =>
    cases hgrow with
    | load | lost => exact .inr hlive
    | more =>
      have hold := h.alive hp hlive
      rw [hext] at hold
      exact hold
    | won => cases hlive
  | grown hext hgrow =>
    cases hgrow with
    | enough hstop =>
      have hold := h.alive hp hlive
      rw [hext] at hold
      rcases hold with hW | hindex
      · exact .inl hW
      · simp only [ExtPc.mayGrow] at hindex
        exact .inl (Nat.eq_zero_of_not_pos fun hpos => hstop ⟨hindex ▸ hpos, hp⟩)
  | @startThread index hext =>
    have hold := h.births index
    simp only [State.births, hext, ExtPc.births, Grow.births, if_true] at hold
    change s.live = 0 at hlive
    rw [hlive] at hold
    simp at hold
  | submit _ _ hext | submitRefused hext | submitAccepted hext | wait hext | waitOwed hext
  | waitZero hext | sleep hext | waitChanged hext | wakeSpuriously hext | storeStop hext
  | joinOne _ hext | joinedAll hext =>
    exact .inl (hidle hp hlive (by simp [hext, ExtPc.mayGrow]))

/-- When a worker has taken a step, `live_threads_` is not 0. -/
theorem WorkerStep.alive {w : Fin W} {s s' : State W P T} {e : Event W T} (h : Inv s)
    (hs : WorkerStep w s e s') : s'.live ≠ 0 := by
  have hlive := hs.live h.born
  cases hs with
  | grow _ hgrow =>
    cases hgrow with
    | won => exact Nat.succ_ne_zero _
    | _ => exact Nat.ne_zero_of_lt hlive
  | grown _ hgrow =>
    cases hgrow with
    | enough => exact Nat.ne_zero_of_lt hlive
  | _ => exact Nat.ne_zero_of_lt hlive

/-! ## The end -/

/-- When `Wait` has read 0 there is nothing pending. -/
theorem ExtStep.quiet {s s' : State W P T} {e : Event W T} (h : Inv s) (hs : ExtStep s e s')
    (hwaited : s'.ext.waited) : s'.pending = 0 := by
  cases hs with
  | waitZero _ hzero => exact hzero
  | storeStop hext | joinOne _ hext | joinedAll hext => exact h.quiet (by simp [hext, ExtPc.waited])
  | insertStep => exact h.quiet hwaited
  | _ => exact hwaited.elim

/-- The destructor stops the workers after `Wait`. -/
theorem ExtStep.stopped {s s' : State W P T} {e : Event W T} (h : Inv s) (hs : ExtStep s e s')
    (hstop : s'.stop = true) : s'.ext.waited := by
  cases hs with
  | waitZero | storeStop | joinOne | joinedAll => trivial
  | insertStep => exact h.stopped hstop
  | submit _ _ hext | submitRefused hext | submitAccepted hext | submitAdd hext | inserted hext
  | grow hext | grown hext | startThread hext | wait hext | waitOwed hext | sleep hext
  | waitChanged hext | wakeSpuriously hext =>
    have hwaited := h.stopped hstop
    rw [hext] at hwaited
    exact hwaited.elim

theorem WorkerStep.waited {w : Fin W} {s s' : State W P T} {e : Event W T}
    (hs : WorkerStep w s e s') : s'.ext.waited ↔ s.ext.waited := by
  rcases hs.ext with heq | ⟨owed, hext, heq⟩
  · rw [heq]
  · rw [heq, hext]
    exact Iff.rfl

theorem WorkerStep.stop {w : Fin W} {s s' : State W P T} {e : Event W T}
    (hs : WorkerStep w s e s') : s'.stop = s.stop := by
  cases hs <;> rfl

/-- A worker exits when it is told to. -/
theorem ExtStep.exited {s s' : State W P T} {e : Event W T} (h : Inv s) (hs : ExtStep s e s')
    (w : Fin W) (hw : s'.workers w = .exited) : s'.stop = true := by
  have hold : s.workers w = .exited := by
    rcases hs.workers h.born w with heq | ⟨-, heq⟩
    · rw [← heq, hw]
    · rw [hw] at heq
      cases heq
  have hstop := h.exited w hold
  cases hs with
  | storeStop => rfl
  | _ => exact hstop

theorem WorkerStep.exited {w : Fin W} {s s' : State W P T} {e : Event W T} (h : Inv s)
    (hs : WorkerStep w s e s') (w' : Fin W) (hw' : s'.workers w' = .exited) : s'.stop = true := by
  rw [hs.stop]
  by_cases hw : w' = w
  · subst hw
    cases hs with
    | stopped _ hstop => exact hstop
    | takeStep | stealStep | submittedStep | insertStep => exact h.exited _ hw'
    | acquire hpc _ =>
      simp only [State.setWorker, Function.update_self, firstPriority] at hw'
      split at hw' <;> cases hw'
    | stoleNoneSubmitted hpc hd =>
      simp only [State.setWorker, Function.update_self, nextPriority] at hw'
      split at hw' <;> cases hw'
    | subtract hpc =>
      simp only [State.setWorker, Function.update_self] at hw'
      split at hw' <;> cases hw'
    | _ =>
      simp only [State.setWorker, State.setExt, Function.update_self] at hw'
      cases hw'
  · rcases hs.workers h.born hw with heq | ⟨-, heq⟩
    · exact h.exited w' (heq.symm.trans hw')
    · rw [hw'] at heq
      cases heq

/-! ## Every step -/

theorem inv_initial : Inv (State.initial W P T) where
  deque _ := ChaseLev.inv_empty
  births i := by simp [State.births, State.initial, ExtPc.births, WorkerPc.births]
  insertingExt := nofun
  inserting := nofun
  pending := by
    simp [State.load, State.queued, State.offered, State.running, State.initial, ExtPc.offered,
      WorkerPc.offered, WorkerPc.running, ChaseLev.stored_empty]
  owed := nofun
  awake := nofun
  alive := nofun
  quiet _ := rfl
  stopped := nofun
  exited := nofun

/-- **The invariant is kept** by every step of every thread. -/
theorem Inv.step {s s' : State W P T} {e : Event W T} (h : Inv s)
    (hs : (system W P T).step s e s') : Inv s' := by
  rcases hs with hs | ⟨w, hs⟩
  · refine ⟨fun k => ?_, hs.born h.born, hs.insertingExt h, hs.inserting h, hs.pending h, hs.owed h,
      hs.awake h, hs.alive h, hs.quiet h, hs.stopped h, hs.exited h⟩
    rcases hs.queues k with heq | ⟨_, hd⟩
    · exact heq ▸ h.deque k
    · exact ((h.deque k).step hd).1
  · refine ⟨fun k => ?_, hs.born h.born, hs.insertingExt h, hs.inserting h, hs.pending h, hs.owed h,
      hs.awake h, fun _ hlive => absurd hlive (hs.alive h),
      fun hw => hs.quiet h (h.quiet (hs.waited.mp hw)),
      fun hstop => hs.waited.mpr (h.stopped (hs.stop ▸ hstop)), hs.exited h⟩
    rcases hs.queues k with heq | ⟨_, hd⟩
    · exact heq ▸ h.deque k
    · exact ((h.deque k).step hd).1

/-- The invariant holds in every reachable state. -/
theorem inv_of_run {tr : List (Event W T)} {s : State W P T} (h : (system W P T).Run tr s) :
    Inv s := by
  refine h.invariant_state ?_ fun s e s' hi hs => hi.step hs
  rintro s rfl
  exact inv_initial

end Remmy.TaskScheduler
