import Remmy.TaskScheduler.Invariant

/-!
# The Threads of the Scheduler

Starting and joining the worker threads, with the handles that `StopAndJoinThreads` looks
at.  `slots_[index].thread = std::jthread(...)` is two steps here: the new thread runs
before its handle is stored.

- The external thread may destroy the scheduler at any moment between its calls.
- A worker only starts slots above its own, which is why no slot is skipped while its
  handle is on the way (`ThreadInv.storing`).
-/

namespace Remmy.TaskScheduler

open Remmy.Lib

universe u

variable {W P : ℕ} {T : Type u}

/-! ## Handles -/

/-- The scheduler and the handles of its threads. -/
structure Threads (W P : ℕ) (T : Type u) where
  sched : State W P T
  /-- `slots_[w].thread.joinable()`. -/
  joinable : Fin W → Bool
  /-- The slot that the external thread has just started, its handle not yet stored. -/
  extStoring : Option (Fin W)
  /-- The slots that the workers have just started. -/
  storing : Fin W → Option (Fin W)

/-- The external thread, or the thread of a slot. -/
inductive ThreadId (W : ℕ)
  | external
  | worker (w : Fin W)

/-- Who took a step, and the slot index whose thread it started. -/
structure ThreadEvent (W : ℕ) where
  thread : ThreadId W
  started : Option ℕ

/-- A new scheduler. -/
def Threads.initial (W P : ℕ) (T : Type u) [Inhabited T] : Threads W P T where
  sched := .initial W P T
  joinable _ := false
  extStoring := none
  storing _ := none

variable [Inhabited T]

/-- One step of one thread. -/
inductive ThreadStep : Threads W P T → ThreadEvent W → Threads W P T → Prop
  /-- The external thread, other than in a start or in the loop of `StopAndJoinThreads`. -/
  | ext {t : Threads W P T} {e : Event W T} {s' : State W P T} : t.extStoring = none →
      ExtStep t.sched e s' → (∀ i, t.sched.ext ≠ .growing (.start i)) →
      (∀ k, t.sched.ext ≠ .joining k) →
      ThreadStep t ⟨.external, none⟩ { t with sched := s' }
  | extStart {t : Threads W P T} {i : Fin W} : t.extStoring = none →
      t.sched.ext = .growing (.start i) →
      ThreadStep t ⟨.external, some i⟩
        { t with sched := (t.sched.setWorker i .checkStop).setExt .ready, extStoring := some i }
  | extStore {t : Threads W P T} {i : Fin W} : t.extStoring = some i →
      ThreadStep t ⟨.external, none⟩
        { t with joinable := Function.update t.joinable i true, extStoring := none }
  /-- `~TaskScheduler`, after `Wait` or without it. -/
  | destroy {t : Threads W P T} : t.extStoring = none → (t.sched.ext = .ready ∨ t.sched.ext = .done) →
      ThreadStep t ⟨.external, none⟩ { t with sched := t.sched.setExt .storeStop }
  | skip {t : Threads W P T} {k : ℕ} (h : k < W) : t.sched.ext = .joining k →
      t.joinable ⟨k, h⟩ = false →
      ThreadStep t ⟨.external, none⟩ { t with sched := t.sched.setExt (.joining (k + 1)) }
  | join {t : Threads W P T} {k : ℕ} (h : k < W) : t.sched.ext = .joining k →
      t.joinable ⟨k, h⟩ = true → t.sched.workers ⟨k, h⟩ = .exited →
      ThreadStep t ⟨.external, none⟩
        { t with
          sched := t.sched.setExt (.joining (k + 1))
          joinable := Function.update t.joinable ⟨k, h⟩ false }
  | joined {t : Threads W P T} {k : ℕ} : t.sched.ext = .joining k → W ≤ k →
      ThreadStep t ⟨.external, none⟩ { t with sched := t.sched.setExt .done }
  /-- The thread of slot `w`, other than in a start. -/
  | worker {t : Threads W P T} {w : Fin W} {e : Event W T} {s' : State W P T} : t.storing w = none →
      WorkerStep w t.sched e s' → (∀ task i, t.sched.workers w ≠ .growing task (.start i)) →
      ThreadStep t ⟨.worker w, none⟩ { t with sched := s' }
  | workerStart {t : Threads W P T} {w i : Fin W} {task : T} : t.storing w = none →
      t.sched.workers w = .growing task (.start i) →
      ThreadStep t ⟨.worker w, some i⟩
        { t with
          sched := (t.sched.setWorker i .checkStop).setWorker w (.processing task)
          storing := Function.update t.storing w (some i) }
  | workerStore {t : Threads W P T} {w i : Fin W} : t.storing w = some i →
      ThreadStep t ⟨.worker w, none⟩
        { t with
          joinable := Function.update t.joinable i true
          storing := Function.update t.storing w none }

/-- All threads of a scheduler, from its construction to its destruction. -/
def threadSystem (W P : ℕ) (T : Type u) [Inhabited T] :
    Lib.System (Threads W P T) (ThreadEvent W) where
  init t := t = .initial W P T
  step := ThreadStep

/-! ## What the steps of a worker leave alone -/

/-- A thread that takes a step is running, before and after unless it returns. -/
theorem WorkerStep.running {w : Fin W} {s s' : State W P T} {e : Event W T}
    (hs : WorkerStep w s e s') :
    (s.workers w ≠ .unborn ∧ s.workers w ≠ .exited) ∧ s'.workers w ≠ .unborn := by
  have hself (s : State W P T) (pc : WorkerPc W P T) := setWorker_workers_self s w pc
  cases hs with
  | takeStep hpc | stealStep hpc | submittedStep hpc | insertStep hpc =>
    rw [setQueue_workers, hpc]
    refine ⟨⟨?_, ?_⟩, ?_⟩ <;> (intro h; cases h)
  | acquire hpc =>
    rw [hself, hpc, firstPriority]
    split <;> refine ⟨⟨?_, ?_⟩, ?_⟩ <;> (intro h; cases h)
  | stoleNoneSubmitted hpc =>
    rw [hself, hpc, nextPriority]
    split <;> refine ⟨⟨?_, ?_⟩, ?_⟩ <;> (intro h; cases h)
  | subtract hpc =>
    rw [hself, hpc]
    split_ifs <;> refine ⟨⟨?_, ?_⟩, ?_⟩ <;> (intro h; cases h)
  | wake hpc =>
    rw [setExt_workers, hself, hpc]
    refine ⟨⟨?_, ?_⟩, ?_⟩ <;> (intro h; cases h)
  | stopped hpc | takeOwn hpc | took hpc | tookNone hpc | skipSelf hpc | victim hpc
  | noVictimLeft hpc | stole hpc | stoleNone hpc | trySubmitted hpc | stoleSubmitted hpc
  | submit _ _ hpc | submitAdd hpc | inserted hpc | grow hpc | grown hpc | startThread hpc
  | processed hpc | notify hpc =>
    rw [hself, hpc]
    refine ⟨⟨?_, ?_⟩, ?_⟩ <;> (intro h; cases h)

/-- A step of a worker that is no start leaves the other workers alone. -/
theorem WorkerStep.workers_of_ne {w w' : Fin W} {s s' : State W P T} {e : Event W T}
    (hs : WorkerStep w s e s') (hstart : ∀ task i, s.workers w ≠ .growing task (.start i))
    (hw : w' ≠ w) : s'.workers w' = s.workers w' := by
  cases hs with
  | startThread hpc => exact absurd hpc (hstart _ _)
  | takeStep | stealStep | submittedStep | insertStep => rfl
  | _ => exact setWorker_workers_of_ne _ _ hw

/-- A step of the external thread that is no start leaves the workers alone. -/
theorem ExtStep.workers_eq {s s' : State W P T} {e : Event W T} (hs : ExtStep s e s')
    (hstart : ∀ i, s.ext ≠ .growing (.start i)) : s'.workers = s.workers := by
  cases hs with
  | startThread hext => exact absurd hext (hstart _)
  | _ => rfl

/-- A `MaybeGrowThreads` that can only start slots above `w`. -/
def Grow.Above (w : Fin W) : Grow W → Prop
  | .load => True
  | .check index => (w : ℕ) < index
  | .cas index | .start index => w < index

theorem WorkerStep.above {w : Fin W} {s s' : State W P T} {e : Event W T} (h : s.Born)
    (hs : WorkerStep w s e s') (habove : ∀ task g, s.workers w = .growing task g → g.Above w)
    (task : T) (g : Grow W) (hpc' : s'.workers w = .growing task g) : g.Above w := by
  have hlive := hs.live h
  have hself (s : State W P T) (pc : WorkerPc W P T) := setWorker_workers_self s w pc
  cases hs with
  | inserted hpc =>
    -- It has not chosen a slot yet.
    rw [hself] at hpc'
    cases hpc'
    trivial
  | grow hpc hgrow =>
    -- The slots that are live include its own, so the next one is above.
    rw [hself] at hpc'
    cases hpc'
    have hold := habove _ _ hpc
    cases hgrow with
    | load | lost => exact hlive
    | more => exact hold
    | won => exact hold
  | takeStep hpc | stealStep hpc | submittedStep hpc | insertStep hpc =>
    rw [setQueue_workers, hpc] at hpc'
    cases hpc'
  | acquire hpc =>
    rw [hself, firstPriority] at hpc'
    split at hpc' <;> cases hpc'
  | stoleNoneSubmitted hpc =>
    rw [hself, nextPriority] at hpc'
    split at hpc' <;> cases hpc'
  | subtract hpc =>
    rw [hself] at hpc'
    split_ifs at hpc'
  | wake hpc =>
    rw [setExt_workers, hself] at hpc'
    cases hpc'
  | stopped hpc | takeOwn hpc | took hpc | tookNone hpc | skipSelf hpc | victim hpc
  | noVictimLeft hpc | stole hpc | stoleNone hpc | trySubmitted hpc | stoleSubmitted hpc
  | submit _ _ hpc | submitAdd hpc | grown hpc | startThread hpc | processed hpc | notify hpc =>
    rw [hself] at hpc'
    cases hpc'

/-- The loop of `StopAndJoinThreads` has passed slot `i`. -/
def ExtPc.joinedPast (i : Fin W) : ExtPc W P T → Prop
  | .joining k => (i : ℕ) < k
  | .done => True
  | _ => False

omit [Inhabited T] in
theorem ExtPc.joinedPast_of_lt {w i : Fin W} {pc : ExtPc W P T} (hlt : w < i)
    (h : pc.joinedPast i) : pc.joinedPast w := by
  cases pc with
  | joining k => exact Nat.lt_trans hlt h
  | done => trivial
  | _ => exact h

theorem WorkerStep.joinedPast {w i : Fin W} {s s' : State W P T} {e : Event W T}
    (hs : WorkerStep w s e s') : s'.ext.joinedPast i ↔ s.ext.joinedPast i := by
  rcases hs.ext with heq | ⟨owed, hext, heq⟩
  · rw [heq]
  · rw [heq, hext]
    exact Iff.rfl

theorem ExtStep.not_joinedPast {i : Fin W} {s s' : State W P T} {e : Event W T}
    (hs : ExtStep s e s') (hjoin : ∀ k, s.ext ≠ .joining k) : ¬s'.ext.joinedPast i := by
  cases hs with
  | joinOne _ hext | joinedAll hext => exact absurd hext (hjoin _)
  | insertStep hext =>
    rw [setQueue_ext, hext]
    exact id
  | storeStop => exact Nat.not_lt_zero _
  | _ => exact id

/-! ## The invariant -/

/-- What holds of the threads and their handles in every reachable state. -/
structure ThreadInv (t : Threads W P T) : Prop where
  born : t.sched.Born
  above : ∀ w task g, t.sched.workers w = .growing task g → g.Above w
  /-- A handle on the way belongs to a slot above the one that stores it. -/
  storing : ∀ w i, t.storing w = some i →
    w < i ∧ (∃ task, t.sched.workers w = .processing task) ∧ t.sched.workers i ≠ .unborn
  extStoring : ∀ i, t.extStoring = some i → t.sched.ext = .ready ∧ t.sched.workers i ≠ .unborn
  /-- A running thread has its handle stored or on the way. -/
  owned : ∀ i, t.sched.workers i ≠ .unborn → t.joinable i = true ∨ t.extStoring = some i ∨
    (∃ w, t.storing w = some i) ∨ t.sched.workers i = .exited
  joined : ∀ i, t.sched.ext.joinedPast i →
    t.sched.workers i = .unborn ∨ t.sched.workers i = .exited

omit [Inhabited T] in
theorem State.Born.setExt {s : State W P T} (h : s.Born) {pc : ExtPc W P T}
    (heq : ∀ i, s.ext.births i = pc.births i) : (s.setExt pc).Born :=
  fun i => (births_setExt_of_eq (heq i)).trans (h i)

omit [Inhabited T] in
/-- Whoever stores a handle is running. -/
theorem ThreadInv.storing_running {t : Threads W P T} (h : ThreadInv t) {w i : Fin W}
    (hw : t.storing w = some i) : t.sched.workers w ≠ .unborn ∧ t.sched.workers w ≠ .exited := by
  obtain ⟨-, ⟨task, hpc⟩, -⟩ := h.storing w i hw
  rw [hpc]
  exact ⟨nofun, nofun⟩

omit [Inhabited T] in
/-- When the slots below `k` are joined, a slot `k` without a handle has no running thread. -/
theorem ThreadInv.finished_of_skip {t : Threads W P T} (h : ThreadInv t) {k : Fin W}
    (hext : t.sched.ext = .joining k) (hhandle : t.joinable k = false) :
    t.sched.workers k = .unborn ∨ t.sched.workers k = .exited := by
  by_cases hborn : t.sched.workers k = .unborn
  · exact .inl hborn
  · right
    rcases h.owned k hborn with hjoin | hstore | ⟨w, hstore⟩ | hexited
    · simp [hjoin] at hhandle
    · -- The external thread stores no handle while it joins.
      have hready := (h.extStoring k hstore).1
      rw [hext] at hready
      cases hready
    · -- Whoever stores the handle is in a slot below, and that one is already joined.
      have hbelow : w < k := (h.storing w k hstore).1
      have hpast : t.sched.ext.joinedPast w := by
        rw [hext]
        exact hbelow
      have hrun := h.storing_running hstore
      rcases h.joined w hpast with hw | hw
      · exact absurd hw hrun.1
      · exact absurd hw hrun.2
    · exact hexited

/-! ## Every step -/

/-- A start by the external thread. -/
theorem ThreadInv.extStart {t : Threads W P T} (h : ThreadInv t) {i : Fin W}
    (hidle : t.extStoring = none) (hext : t.sched.ext = .growing (.start i)) :
    ThreadInv { t with
      sched := (t.sched.setWorker i .checkStop).setExt .ready, extStoring := some i } := by
  have hunborn := h.born.unborn_of_ext hext
  have hother {w : Fin W} (hw : t.sched.workers w ≠ .unborn) :
      (t.sched.setWorker i .checkStop).workers w = t.sched.workers w :=
    setWorker_workers_of_ne _ _ (fun heq => hw (heq ▸ hunborn))
  have hself := setWorker_workers_self t.sched i .checkStop
  refine ⟨(ExtStep.startThread hext).born h.born, ?_, ?_, ?_, ?_, nofun⟩
  · intro w task g hpc
    by_cases hw : w = i
    · subst hw
      rw [setExt_workers, hself] at hpc
      cases hpc
    · rw [setExt_workers, setWorker_workers_of_ne _ _ hw] at hpc
      exact h.above w task g hpc
  · intro w j hw
    obtain ⟨hlt, ⟨task, hpc⟩, hj⟩ := h.storing w j hw
    rw [setExt_workers, hother (h.storing_running hw).1, hother hj]
    exact ⟨hlt, ⟨task, hpc⟩, hj⟩
  · intro j hj
    cases hj
    rw [setExt_workers, hself]
    exact ⟨rfl, nofun⟩
  · intro j hj
    by_cases hji : j = i
    · subst hji
      exact .inr (.inl rfl)
    · rw [setExt_workers, setWorker_workers_of_ne _ _ hji] at hj ⊢
      rcases h.owned j hj with hhandle | hstore | hrest
      · exact .inl hhandle
      · rw [hidle] at hstore
        cases hstore
      · exact .inr (.inr hrest)

/-- Any other step of a worker. -/
theorem ThreadInv.worker {t : Threads W P T} (h : ThreadInv t) {w : Fin W} {e : Event W T}
    {s' : State W P T} (hidle : t.storing w = none) (hstep : WorkerStep w t.sched e s')
    (hstart : ∀ task i, t.sched.workers w ≠ .growing task (.start i)) :
    ThreadInv { t with sched := s' } := by
  have hrun := hstep.running
  have hsame {w' : Fin W} (hw : w' ≠ w) := hstep.workers_of_ne hstart hw
  have hborn {i : Fin W} (hi : t.sched.workers i ≠ .unborn) : s'.workers i ≠ .unborn := by
    by_cases hiw : i = w
    · exact hiw ▸ hrun.2
    · rwa [hsame hiw]
  refine ⟨hstep.born h.born, ?_, ?_, ?_, ?_, ?_⟩
  -- What a worker is about to start is above it.
  · intro w' task g hpc
    by_cases hw : w' = w
    · subst hw
      exact hstep.above h.born (h.above w') task g hpc
    · rw [hsame hw] at hpc
      exact h.above w' task g hpc
  -- A thread whose handle is being stored is still there; its starter does not move.
  · intro w' i hw'
    obtain ⟨hlt, ⟨task, hpc⟩, hi⟩ := h.storing w' i hw'
    have hw : w' ≠ w := by
      rintro rfl
      rw [hidle] at hw'
      cases hw'
    exact ⟨hlt, ⟨task, (hsame hw).trans hpc⟩, hborn hi⟩
  -- The same for the external thread, which does not wait while it stores a handle.
  · intro i hi
    obtain ⟨hready, hne⟩ := h.extStoring i hi
    refine ⟨?_, hborn hne⟩
    rcases hstep.ext with heq | ⟨owed, hext, -⟩
    · exact heq.trans hready
    · rw [hready] at hext
      cases hext
  · intro i hi
    by_cases hiw : i = w
    · subst hiw
      rcases h.owned i hrun.1.1 with hhandle | hstore | hstore | hexited
      · exact .inl hhandle
      · exact .inr (.inl hstore)
      · exact .inr (.inr (.inl hstore))
      · exact absurd hexited hrun.1.2
    · rw [hsame hiw] at hi ⊢
      exact h.owned i hi
  · intro i hi
    have hjoined := h.joined i (hstep.joinedPast.mp hi)
    have hiw : i ≠ w := by
      rintro rfl
      rcases hjoined with hw | hw
      · exact hrun.1.1 hw
      · exact hrun.1.2 hw
    rwa [hsame hiw]

/-- A start by a worker. -/
theorem ThreadInv.workerStart {t : Threads W P T} (h : ThreadInv t) {w i : Fin W} {task : T}
    (hidle : t.storing w = none) (hpc : t.sched.workers w = .growing task (.start i)) :
    ThreadInv { t with
      sched := (t.sched.setWorker i .checkStop).setWorker w (.processing task)
      storing := Function.update t.storing w (some i) } := by
  have hunborn := h.born.unborn_of_worker hpc
  have habove : w < i := h.above w task _ hpc
  have hself : ((t.sched.setWorker i .checkStop).setWorker w (.processing task)).workers w =
      .processing task := setWorker_workers_self _ w _
  have hstarted : ((t.sched.setWorker i .checkStop).setWorker w (.processing task)).workers i =
      .checkStop := by
    rw [setWorker_workers_of_ne _ _ habove.ne', setWorker_workers_self]
  have hother {j : Fin W} (hjw : j ≠ w) (hji : j ≠ i) :
      ((t.sched.setWorker i .checkStop).setWorker w (.processing task)).workers j =
        t.sched.workers j := by
    rw [setWorker_workers_of_ne _ _ hjw, setWorker_workers_of_ne _ _ hji]
  have hborn {j : Fin W} (hj : t.sched.workers j ≠ .unborn) :
      ((t.sched.setWorker i .checkStop).setWorker w (.processing task)).workers j ≠ .unborn := by
    by_cases hjw : j = w
    · subst hjw
      rw [hself]
      exact nofun
    · rw [hother hjw fun hji => hj (hji ▸ hunborn)]
      exact hj
  refine ⟨(WorkerStep.startThread hpc).born h.born, ?_, ?_, ?_, ?_, ?_⟩
  · intro w' task' g hpc'
    by_cases hw : w' = w
    · subst hw
      rw [hself] at hpc'
      cases hpc'
    · by_cases hwi : w' = i
      · subst hwi
        rw [hstarted] at hpc'
        cases hpc'
      · rw [hother hw hwi] at hpc'
        exact h.above w' task' g hpc'
  · intro w' j hw'
    by_cases hw : w' = w
    · subst hw
      have hji : some i = some j := (Function.update_self w' (some i) t.storing).symm.trans hw'
      cases hji
      exact ⟨habove, ⟨task, hself⟩, by rw [hstarted]; exact nofun⟩
    · have hold : t.storing w' = some j := (Function.update_of_ne hw ..).symm.trans hw'
      obtain ⟨hlt, ⟨task', hpc'⟩, hj⟩ := h.storing w' j hold
      have hwi : w' ≠ i := fun hwi => (h.storing_running hold).1 (hwi ▸ hunborn)
      exact ⟨hlt, ⟨task', (hother hw hwi).trans hpc'⟩, hborn hj⟩
  · intro j hj
    obtain ⟨hready, hne⟩ := h.extStoring j hj
    exact ⟨hready, hborn hne⟩
  · intro j hj
    by_cases hji : j = i
    · subst hji
      exact .inr (.inr (.inl ⟨w, Function.update_self ..⟩))
    · have hold : t.sched.workers j ≠ .unborn := by
        by_cases hjw : j = w
        · rw [hjw, hpc]
          exact nofun
        · rwa [hother hjw hji] at hj
      rcases h.owned j hold with hhandle | hstore | ⟨w', hstore⟩ | hexited
      · exact .inl hhandle
      · exact .inr (.inl hstore)
      · have hw : w' ≠ w := by
          rintro rfl
          rw [hidle] at hstore
          cases hstore
        exact .inr (.inr (.inl ⟨w', (Function.update_of_ne hw ..).trans hstore⟩))
      · have hjw : j ≠ w := by
          rintro rfl
          rw [hpc] at hexited
          cases hexited
        rw [hother hjw hji]
        exact .inr (.inr (.inr hexited))
  · intro j hj
    -- The loop has not passed slot `w`, and so no slot above it either.
    have hnot : ¬t.sched.ext.joinedPast w := by
      intro hw
      rcases h.joined w hw with hw | hw <;> (rw [hpc] at hw; cases hw)
    have hjw : j ≠ w := by
      rintro rfl
      exact hnot hj
    have hji : j ≠ i := by
      rintro rfl
      exact hnot (ExtPc.joinedPast_of_lt habove hj)
    rw [hother hjw hji]
    exact h.joined j hj

omit [Inhabited T] in
/-- A worker stores the handle of the thread it has started. -/
theorem ThreadInv.workerStore {t : Threads W P T} (h : ThreadInv t) {w i : Fin W}
    (hstoring : t.storing w = some i) :
    ThreadInv { t with
      joinable := Function.update t.joinable i true
      storing := Function.update t.storing w none } := by
  obtain ⟨hlt, -, hi⟩ := h.storing w i hstoring
  have hkeep {w' j : Fin W} (hw' : Function.update t.storing w none w' = some j) :
      t.storing w' = some j := by
    by_cases hw : w' = w
    · subst hw
      rw [Function.update_self] at hw'
      cases hw'
    · rwa [Function.update_of_ne hw] at hw'
  refine ⟨h.born, h.above, fun w' j hw' => h.storing w' j (hkeep hw'), h.extStoring, fun j hj => ?_,
    h.joined⟩
  by_cases hji : j = i
  · subst hji
    exact .inl (Function.update_self ..)
  · rcases h.owned j hj with hhandle | hstore | ⟨w', hstore⟩ | hexited
    · exact .inl ((Function.update_of_ne hji ..).trans hhandle)
    · exact .inr (.inl hstore)
    · have hw : w' ≠ w := by
        rintro rfl
        rw [hstoring] at hstore
        cases hstore
        exact hji rfl
      exact .inr (.inr (.inl ⟨w', (Function.update_of_ne hw ..).trans hstore⟩))
    · exact .inr (.inr (.inr hexited))

/-- **One step keeps the invariant.** -/
theorem ThreadInv.step {t t' : Threads W P T} {e : ThreadEvent W} (h : ThreadInv t)
    (hs : ThreadStep t e t') : ThreadInv t' := by
  cases hs with
  | @ext _ s' hidle hstep hstart hjoin =>
    -- No thread is started, so the workers stay as they are.
    have hworkers := hstep.workers_eq hstart
    refine ⟨hstep.born h.born, ?_, ?_, ?_, ?_, ?_⟩
    · simpa only [hworkers] using h.above
    · simpa only [hworkers] using h.storing
    · intro i hi
      rw [hidle] at hi
      cases hi
    · simpa only [hworkers] using h.owned
    · intro i hi
      exact absurd hi (hstep.not_joinedPast hjoin)
  | extStart hidle hext => exact h.extStart hidle hext
  | @extStore i hstoring =>
    -- The handle is stored: the thread has an owner from now on.
    refine ⟨h.born, h.above, h.storing, nofun, fun j hj => ?_, h.joined⟩
    by_cases hji : j = i
    · subst hji
      exact .inl (Function.update_self ..)
    · rcases h.owned j hj with hhandle | hstore | hrest
      · exact .inl ((Function.update_of_ne hji ..).trans hhandle)
      · rw [hstoring] at hstore
        cases hstore
        exact absurd rfl hji
      · exact .inr (.inr hrest)
  | destroy hidle hext =>
    -- Nothing is joined yet.
    refine ⟨h.born.setExt fun i => ?_, h.above, h.storing, ?_, h.owned, nofun⟩
    · rcases hext with hext | hext <;> simp [hext, ExtPc.births]
    · intro i hi
      rw [hidle] at hi
      cases hi
  | @skip k hk hext hhandle =>
    -- A slot without a handle has no thread that runs.
    refine ⟨h.born.setExt fun i => by simp [hext, ExtPc.births], h.above, h.storing, ?_, h.owned, ?_⟩
    · intro i hi
      have hready := (h.extStoring i hi).1
      rw [hext] at hready
      cases hready
    · intro i hi
      rcases Nat.lt_succ_iff_lt_or_eq.mp hi with hlt | heq
      · apply h.joined i
        rw [hext]
        exact hlt
      · obtain rfl : i = ⟨k, hk⟩ := Fin.ext heq
        exact h.finished_of_skip hext hhandle
  | @join k hk hext hhandle hexited =>
    -- The thread that was joined has exited, and its handle is empty.
    refine ⟨h.born.setExt fun i => by simp [hext, ExtPc.births], h.above, h.storing, ?_, ?_, ?_⟩
    · intro i hi
      have hready := (h.extStoring i hi).1
      rw [hext] at hready
      cases hready
    · intro i hi
      by_cases hik : i = ⟨k, hk⟩
      · subst hik
        exact .inr (.inr (.inr hexited))
      · rcases h.owned i hi with hhandle | hrest
        · exact .inl ((Function.update_of_ne hik ..).trans hhandle)
        · exact .inr hrest
    · intro i hi
      rcases Nat.lt_succ_iff_lt_or_eq.mp hi with hlt | heq
      · apply h.joined i
        rw [hext]
        exact hlt
      · obtain rfl : i = ⟨k, hk⟩ := Fin.ext heq
        exact .inr hexited
  | @joined k hext hk =>
    -- All slots are behind.
    refine ⟨h.born.setExt fun i => by simp [hext, ExtPc.births], h.above, h.storing, ?_, h.owned, ?_⟩
    · intro i hi
      have hready := (h.extStoring i hi).1
      rw [hext] at hready
      cases hready
    · intro i _
      apply h.joined i
      rw [hext]
      exact i.isLt.trans_le hk
  | worker hidle hstep hstart => exact h.worker hidle hstep hstart
  | workerStart hidle hpc => exact h.workerStart hidle hpc
  | workerStore hstoring => exact h.workerStore hstoring

theorem threadInv_initial : ThreadInv (Threads.initial W P T) where
  born i := by simp [State.births, Threads.initial, State.initial, ExtPc.births, WorkerPc.births]
  above := nofun
  storing := nofun
  extStoring := nofun
  owned i hi := absurd rfl hi
  joined := nofun

/-- The invariant holds in every reachable state. -/
theorem threadInv_of_run {tr : List (ThreadEvent W)} {t : Threads W P T}
    (h : (threadSystem W P T).Run tr t) : ThreadInv t := by
  refine h.invariant_state ?_ fun t e t' hi hs => hi.step hs
  rintro t rfl
  exact threadInv_initial

/-! ## Each slot is started once -/

/-- The slot indices whose threads were started. -/
def startedIn (tr : List (ThreadEvent W)) : List ℕ := tr.filterMap ThreadEvent.started

/-- A start takes its slot from unborn to running; no other step starts or unmakes a thread. -/
theorem ThreadStep.starts {t t' : Threads W P T} {e : ThreadEvent W} (h : ThreadInv t)
    (hs : ThreadStep t e t') :
    match e.started with
    | some index => ∃ i : Fin W, index = i ∧ t.sched.workers i = .unborn ∧
        t'.sched.workers i ≠ .unborn ∧
        ∀ j, j ≠ i → (t'.sched.workers j = .unborn ↔ t.sched.workers j = .unborn)
    | none => ∀ j, t'.sched.workers j = .unborn ↔ t.sched.workers j = .unborn := by
  cases hs with
  | ext hidle hstep hstart hjoin =>
    intro j
    rw [hstep.workers_eq hstart]
  | @extStart i hidle hext =>
    refine ⟨i, rfl, h.born.unborn_of_ext hext, ?_, fun j hj => ?_⟩
    · rw [setExt_workers, setWorker_workers_self]
      exact nofun
    · rw [setExt_workers, setWorker_workers_of_ne _ _ hj]
  | @worker w _ s' hidle hstep hstart =>
    intro j
    by_cases hj : j = w
    · subst hj
      exact iff_of_false hstep.running.2 hstep.running.1.1
    · rw [hstep.workers_of_ne hstart hj]
  | @workerStart w i task hidle hpc =>
    have hlt : w < i := h.above w task _ hpc
    refine ⟨i, rfl, h.born.unborn_of_worker hpc, ?_, fun j hj => ?_⟩
    · rw [setWorker_workers_of_ne _ _ hlt.ne', setWorker_workers_self]
      exact nofun
    · by_cases hjw : j = w
      · subst hjw
        rw [setWorker_workers_self, hpc]
        exact iff_of_false nofun nofun
      · rw [setWorker_workers_of_ne _ _ hjw, setWorker_workers_of_ne _ _ hj]
  | extStore | destroy | skip | join | joined | workerStore => exact fun j => Iff.rfl

/-- The starts of a run are the slots that are no longer unborn, each once. -/
theorem startedIn_of_run {tr : List (ThreadEvent W)} {t : Threads W P T}
    (h : (threadSystem W P T).Run tr t) :
    (startedIn tr).Nodup ∧ ∀ index, index ∈ startedIn tr ↔
      ∃ i : Fin W, index = i ∧ t.sched.workers i ≠ .unborn := by
  induction h with
  | start hinit =>
    cases hinit
    exact ⟨List.nodup_nil, fun index => iff_of_false (by simp [startedIn]) fun ⟨i, _, hi⟩ => hi rfl⟩
  | @next tr t t' e hr hstep ih =>
    -- A step starts a thread in an unborn slot, or none.
    have hstarts := ThreadStep.starts (threadInv_of_run hr) hstep
    cases he : e.started with
    | none =>
      have hsame : startedIn (tr ++ [e]) = startedIn tr := by simp [startedIn, he]
      rw [he] at hstarts
      have hunborn : ∀ j, t'.sched.workers j = .unborn ↔ t.sched.workers j = .unborn := hstarts
      simp only [hsame, ne_eq, hunborn]
      exact ih
    | some index =>
      have hmore : startedIn (tr ++ [e]) = startedIn tr ++ [index] := by simp [startedIn, he]
      rw [he] at hstarts
      obtain ⟨i, rfl, hunborn, hborn, hother⟩ := hstarts
      have hnew : (i : ℕ) ∉ startedIn tr := by
        rw [ih.2]
        rintro ⟨j, hj, hne⟩
        exact hne (Fin.ext hj ▸ hunborn)
      rw [hmore]
      refine ⟨List.nodup_append.mpr ⟨ih.1, List.nodup_singleton _, ?_⟩, fun index => ?_⟩
      · intro a ha b hb
        rw [List.mem_singleton] at hb
        rintro rfl
        exact hnew (hb ▸ ha)
      · rw [List.mem_append, List.mem_singleton, ih.2]
        constructor
        · rintro (⟨j, rfl, hj⟩ | rfl)
          · refine ⟨j, rfl, ?_⟩
            by_cases hji : j = i
            · exact hji ▸ hborn
            · rwa [ne_eq, hother j hji]
          · exact ⟨i, rfl, hborn⟩
        · rintro ⟨j, rfl, hj⟩
          by_cases hji : j = i
          · exact .inr (congrArg Fin.val hji)
          · rw [ne_eq, hother j hji] at hj
            exact .inl ⟨j, rfl, hj⟩

/-! ## After the last join -/

/-- `StopAndJoinThreads` has returned, or was called once more: no thread is running. -/
structure Over (t : Threads W P T) : Prop where
  finished : ∀ w, t.sched.workers w = .unborn ∨ t.sched.workers w = .exited
  ext : t.sched.ext = .done ∨ t.sched.ext = .storeStop ∨ ∃ k, t.sched.ext = .joining k

omit [Inhabited T] in
theorem ThreadInv.over {t : Threads W P T} (h : ThreadInv t) (hdone : t.sched.ext = .done) :
    Over t :=
  ⟨fun w => h.joined w (by rw [hdone]; trivial), .inl hdone⟩

/-- Once over, nothing starts and it stays over. -/
theorem Over.step {t t' : Threads W P T} {e : ThreadEvent W} (h : ThreadInv t) (ho : Over t)
    (hs : ThreadStep t e t') : e.started = none ∧ Over t' := by
  have hnot {w : Fin W} (hrun : t.sched.workers w ≠ .unborn ∧ t.sched.workers w ≠ .exited) : False :=
    (ho.finished w).elim hrun.1 hrun.2
  cases hs with
  | ext hidle hstep hstart hjoin =>
    have hstop : t.sched.ext = .storeStop ∨ t.sched.ext = .done := by
      rcases ho.ext with hext | hext | ⟨k, hext⟩
      · exact .inr hext
      · exact .inl hext
      · exact absurd hext (hjoin k)
    refine ⟨rfl, ⟨?_, ?_⟩⟩
    · rw [hstep.workers_eq hstart]
      exact ho.finished
    · cases hstep with
      | storeStop => exact .inr (.inr ⟨0, rfl⟩)
      | insertStep hext => simp [hext] at hstop
      | submit _ _ hext | submitRefused hext | submitAccepted hext | submitAdd hext | inserted hext
      | grow hext | grown hext | startThread hext | wait hext | waitOwed hext | waitZero hext
      | sleep hext | waitChanged hext | wakeSpuriously hext | joinOne _ hext | joinedAll hext =>
        simp [hext] at hstop
  | extStart hidle hext =>
    rcases ho.ext with hext' | hext' | ⟨k, hext'⟩ <;> (rw [hext] at hext'; cases hext')
  | extStore hstoring =>
    have hready := (h.extStoring _ hstoring).1
    rcases ho.ext with hext' | hext' | ⟨k, hext'⟩ <;> (rw [hready] at hext'; cases hext')
  | destroy => exact ⟨rfl, ho.finished, .inr (.inl rfl)⟩
  | skip | join => exact ⟨rfl, ho.finished, .inr (.inr ⟨_, rfl⟩)⟩
  | joined => exact ⟨rfl, ho.finished, .inl rfl⟩
  | worker hidle hstep => exact (hnot hstep.running.1).elim
  | workerStart hidle hpc => exact (hnot (by rw [hpc]; exact ⟨nofun, nofun⟩)).elim
  | workerStore hstoring => exact (hnot (h.storing_running hstoring)).elim

/-- Once over, nothing ever starts. -/
theorem Over.path {t t' : Threads W P T} {p : List (ThreadEvent W × Threads W P T)}
    (ho : Over t) (h : ThreadInv t) (hp : (threadSystem W P T).Path t p t') :
    startedIn (p.map Prod.fst) = [] := by
  induction hp with
  | nil t => rfl
  | @cons t t₁ t' e p hs _ ih =>
    obtain ⟨hnone, ho'⟩ := ho.step h hs
    have hrest := ih ho' (h.step hs)
    simpa [startedIn, hnone] using hrest

/-- The owner's side of a slot's queue moves only with the thread of the slot. -/
theorem ThreadStep.owner {t t' : Threads W P T} {e : ThreadEvent W} (hs : ThreadStep t e t')
    {w : Fin W} {p : Fin P}
    (hne : (t'.sched.queues (.slot w p)).owner ≠ (t.sched.queues (.slot w p)).owner) :
    e.thread = .worker w := by
  cases hs with
  | ext hidle hstep =>
    rw [hstep.slot] at hne
    exact absurd rfl hne
  | @worker w' _ s' hidle hstep =>
    by_cases hw : w' = w
    · rw [hw]
    · refine absurd (hstep.owner fun p' hp' => hw ?_) hne
      cases hp'
      rfl
  | extStart | extStore | destroy | skip | join | joined | workerStart | workerStore =>
    exact absurd rfl hne

/-- **One thread a slot, all joined.**  In every run: no slot index is started twice, and
    none at or above the number of slots; only the thread of a slot acts as the owner of its
    queues; and once `StopAndJoinThreads` has returned, every thread ever started has ended
    and none is started any more. -/
theorem threads_joined {tr : List (ThreadEvent W)} {t : Threads W P T}
    (h : (threadSystem W P T).Run tr t) :
    ((startedIn tr).Nodup ∧ ∀ index ∈ startedIn tr, index < W) ∧
      (∀ e t', (threadSystem W P T).step t e t' → ∀ w p,
        (t'.sched.queues (.slot w p)).owner ≠ (t.sched.queues (.slot w p)).owner →
          e.thread = .worker w) ∧
      (t.sched.ext = .done →
        (∀ w : Fin W, (w : ℕ) ∈ startedIn tr → t.sched.workers w = .exited) ∧
          ∀ p t', (threadSystem W P T).Path t p t' → startedIn (p.map Prod.fst) = []) := by
  have hinv := threadInv_of_run h
  obtain ⟨hnodup, hstarted⟩ := startedIn_of_run h
  refine ⟨⟨hnodup, fun index hindex => ?_⟩, fun e t' hs w p hne => ThreadStep.owner hs hne,
    fun hdone => ⟨fun w hw => ?_, fun p t' hp => (hinv.over hdone).path hinv hp⟩⟩
  · obtain ⟨i, rfl, -⟩ := (hstarted index).mp hindex
    exact i.isLt
  · obtain ⟨i, hi, hborn⟩ := (hstarted w).mp hw
    obtain rfl : w = i := Fin.ext hi
    exact ((hinv.over hdone).finished w).resolve_left hborn

/-- A scheduler of two slots, destroyed with a task in its queue: the worker of slot 0, which was
    started for the task, ends and is joined, and slot 1 has no thread. -/
theorem threads_joined_queued : ∃ (tr : List (ThreadEvent 2)) (t : Threads 2 1 ℕ),
    startedIn tr = [0] ∧ t.sched.pending = 1 ∧ t.sched.ext = .done ∧
      ((startedIn tr).Nodup ∧ ∀ index ∈ startedIn tr, index < 2) ∧
      (∀ w : Fin 2, (w : ℕ) ∈ startedIn tr → t.sched.workers w = .exited) ∧
        ∀ p t', (threadSystem 2 1 ℕ).Path t p t' → startedIn (p.map Prod.fst) = [] := by
  have external {t : Threads 2 1 ℕ} {e : Event 2 ℕ} {s' : State 2 1 ℕ} {pc : ExtPc 2 1 ℕ}
      (hs : ExtStep t.sched e s') (hstoring : t.extStoring = none) (hpc : t.sched.ext = pc)
      (hstart : ∀ i, pc ≠ .growing (.start i)) (hjoin : ∀ k, pc ≠ .joining k) :
      (threadSystem 2 1 ℕ).step t ⟨.external, none⟩ { t with sched := s' } :=
    .ext hstoring hs (hpc ▸ hstart) (hpc ▸ hjoin)
  have calling {t : Threads 2 1 ℕ} {task : ℕ} {d : ChaseLev.Deque (Fin 2) ℕ}
      (hstoring : t.extStoring = none) (hpc : t.sched.ext = .submitInsert task 0)
      (hd : ChaseLev.Step (t.sched.queues (.submitted 0)) .ownerStep d) :
      (threadSystem 2 1 ℕ).step t ⟨.external, none⟩
        { t with sched := t.sched.setQueue (.submitted 0) d } :=
    external (.insertStep hpc hd) hstoring hpc (fun _ h => by cases h) (fun _ h => by cases h)
  have h₀ : (threadSystem 2 1 ℕ).Run [] (.initial 2 1 ℕ) := .start rfl
  -- the task is submitted
  have hcheck := h₀.next
    (external (.submit 5 0 rfl) rfl rfl (fun _ h => by cases h) (fun _ h => by cases h))
  have hadd := hcheck.next
    (external (.submitAccepted rfl rfl) rfl rfl (fun _ h => by cases h) (fun _ h => by cases h))
  have hcounted := hadd.next (external (.submitAdd rfl (.beginInsert 5 rfl)) rfl rfl
    (fun _ h => by cases h) (fun _ h => by cases h))
  have hdata := ((hcounted.next (calling rfl rfl (.insertStep rfl rfl))).next
    (calling rfl rfl (.insertStep rfl rfl))).next (calling rfl rfl (.insertStep rfl rfl))
  have hslot := ((hdata.next (calling rfl rfl (.insertStep rfl rfl))).next
    (calling rfl rfl (.insertStep rfl rfl))).next (calling rfl rfl (.insertStep rfl rfl))
  have hinserted := hslot.next (external (.inserted rfl (.inserted rfl rfl)) rfl rfl
    (fun _ h => by cases h) (fun _ h => by cases h))
  -- and the worker of slot 0 is started for it
  have hload := hinserted.next
    (external (.grow rfl .load) rfl rfl (fun _ h => by cases h) (fun _ h => by cases h))
  have hmore := hload.next (external (.grow rfl (.more Nat.zero_lt_two (by decide))) rfl rfl
    (fun _ h => by cases h) (fun _ h => by cases h))
  have hwon := hmore.next
    (external (.grow rfl (.won rfl)) rfl rfl (fun _ h => by cases h) (fun _ h => by cases h))
  have hstarted := (hwon.next (.extStart rfl rfl)).next (.extStore rfl)
  -- the scheduler is destroyed before the worker has looked for a task
  have hdestroy := hstarted.next (.destroy rfl (.inl rfl))
  have hstop := hdestroy.next
    (external (.storeStop rfl) rfl rfl (fun _ h => by cases h) (fun _ h => by cases h))
  have hexited := hstop.next (.worker rfl (.stopped (w := 0) rfl rfl) fun _ _ h => by cases h)
  have hjoined := hexited.next (.join Nat.zero_lt_two rfl rfl rfl)
  have hdone := (hjoined.next (.skip Nat.one_lt_two rfl rfl)).next (.joined rfl le_rfl)
  obtain ⟨hstarts, -, hover⟩ := threads_joined hdone
  exact ⟨_, _, rfl, rfl, rfl, hstarts, hover rfl⟩

end Remmy.TaskScheduler
