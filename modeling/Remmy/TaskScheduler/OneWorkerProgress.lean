import Remmy.TaskScheduler.OneWorker
import Remmy.Lib.Execution
import Mathlib.Algebra.BigOperators.Fin
import Mathlib.Data.Prod.Lex
import Mathlib.Data.Set.Finite.Lattice

/-!
# One Worker: Every Task Is Processed

The executions of the scheduler with one slot and one submission from outside, when both threads
go on and only finitely many tasks are ever submitted.

- `State.rank` goes down with every step of the worker while something is pending, once no more
  submissions come; `ExtPc.rank` with every step of `Submit` up to the exchange.
- `one_worker_order` puts the order and the progress together.
-/

namespace Remmy.TaskScheduler

open Remmy.Lib
open Remmy.ChaseLev (Deque Phase)

universe u

variable {P : ℕ} {T : Type u}

/-! ## The worker gets on -/

/-- How far a worker is at most from its next `fetch_sub`, submissions apart. -/
def WorkerPc.rank (s : State 1 P T) : WorkerPc 1 P T → ℕ
  | .unborn | .exited | .submitAdd .. | .stealing .. => 0
  | .subtract _ => 1
  | .processing _ => 2
  | .growing _ (.check _) => 3
  | .growing .. => 4
  | .submitInsert _ _ q => 5 + (s.queues (.slot theSlot q)).remaining theSlot
  -- the search: twenty for each priority that is left
  | .stealingSubmitted p => 3 + 20 * (P - 1 - p) + (s.queues (.submitted p)).remaining theSlot
  | .trySubmitted p => 3 + 20 * (P - 1 - p) + 8
  | .victim p v => 3 + 20 * (P - 1 - p) + (if v = 0 then 10 else 9)
  | .taking p => 3 + 20 * (P - 1 - p) + 11 + (s.queues (.slot theSlot p)).remaining theSlot
  | .takeOwn p => 3 + 20 * (P - 1 - p) + 19
  | .checkStop => 3 + 20 * P
  | .notify => 4 + 20 * P

/-- The tasks that are pending, and how far the worker is from the next one. -/
def State.rank (s : State 1 P T) : ℕ ×ₗ ℕ := toLex (s.pending, (s.workers theSlot).rank s)

theorem rank_lt {s s' : State 1 P T} (hpending : s'.pending = s.pending)
    (hrank : (s'.workers 0).rank s' < (s.workers 0).rank s) : s'.rank < s.rank := by
  rw [State.rank, State.rank, Prod.Lex.toLex_lt_toLex]
  exact .inr ⟨hpending, hrank⟩

theorem rank_congr {s s' : State 1 P T} (hqueues : s'.queues = s.queues) (pc : WorkerPc 1 P T) :
    pc.rank s' = pc.rank s := by
  cases pc with
  | growing task g => cases g <;> rfl
  | submitInsert | stealingSubmitted | taking => rw [WorkerPc.rank, WorkerPc.rank, hqueues]
  | _ => rfl

theorem stored_of_held {s : State 1 P T} {k : QueueId 1 P} (hnil : s.held k = []) :
    (s.queues k).stored = [] := by
  rw [State.held] at hnil
  cases hph : s.phase k with
  | inserting v =>
    rw [hph] at hnil
    cases hnil
  | quiet | taking | stealing i =>
    rw [hph] at hnil
    exact List.reverse_eq_nil_iff.mp hnil

/-- Where all stacks are empty and the worker is searching, nothing is pending. -/
theorem OneInv.pending_eq_zero {s : State 1 P T} (h : OneInv s) (hborn : s.workers 0 ≠ .unborn)
    (hoffered : (s.workers 0).offered (fun _ => 1) = 0)
    (hrunning : (s.workers 0).running (fun _ => 1) = 0) (hheld : ∀ k, s.held k = []) :
    s.pending = 0 := by
  have hext : s.ext.offered (fun _ => 1) = 0 := by
    cases hext : s.ext with
    | submitInsert task q =>
      have hnot := h.born hborn
      rw [hext] at hnot
      exact absurd trivial hnot
    | _ => rfl
  rw [h.inv.pending, State.load, State.queued, State.offered, State.running, hext,
    Finset.sum_eq_zero fun k _ => by rw [stored_of_held (hheld k)]; rfl, Fin.sum_univ_one, Fin.sum_univ_one,
    hoffered, hrunning]

variable [Inhabited T]

omit [Inhabited T] in
/-- Where a stack is empty, so are the queues of its priority. -/
theorem held_of_stack {s : State 1 P T} {k : QueueId 1 P} (hnil : s.stack k.priority = []) :
    s.held k = [] := by
  cases k with
  | slot w p =>
    obtain rfl : w = 0 := Subsingleton.elim w 0
    exact (List.append_eq_nil_iff.mp hnil).1
  | submitted p => exact (List.append_eq_nil_iff.mp hnil).2

/-- A worker that has searched every priority in vain has nothing pending. -/
theorem OneInv.searched_all {s : State 1 P T} (h : OneInv s) {p : Fin P} {d : Deque (Fin 1) T}
    (hpc : s.workers 0 = .stealingSubmitted p)
    (hd : ChaseLev.Step (s.queues (.submitted p)) (.stole 0 none) d) (hlast : ¬p + 1 < P) :
    s.pending = 0 := by
  obtain ⟨hless, hown⟩ : WorkerPc.Searched s.stack (fun p => s.held (.slot 0 p))
      (.stealingSubmitted p) := hpc ▸ h.searched
  have hsub : s.held (.submitted p) = [] := h.held_nil hd (.inr ⟨0, rfl⟩)
  have hstack (p' : Fin P) : s.stack p' = [] := by
    rcases lt_or_eq_of_le (show p' ≤ p from Fin.le_def.mpr (by omega)) with hlt | rfl
    · exact hless p' hlt
    · exact congrArg₂ (· ++ ·) hown hsub
  refine h.pending_eq_zero ?_ (by rw [hpc]; rfl) (by rw [hpc]; rfl) fun k => held_of_stack (hstack _)
  rw [hpc]
  intro heq
  cases heq

/-- **Step lemma** for the rank: while something is pending and no task is submitted, each step
    of the worker leaves less to do. -/
theorem OneInv.rank_worker {s s' : State 1 P T} {e : Event 1 T} (h : OneInv s) (hP : 0 < P)
    (hs : WorkerStep 0 s e s') (hpending : s.pending ≠ 0) (hnone : e.submitted = none) :
    s'.rank < s.rank := by
  have hself (s₀ : State 1 P T) (pc : WorkerPc 1 P T) := setWorker_workers_self s₀ 0 pc
  have hmove {pc pc' : WorkerPc 1 P T} (hpc : s.workers 0 = pc) (hpc' : s'.workers 0 = pc')
      (hsame : s'.pending = s.pending) (hlt : pc'.rank s' < pc.rank s) : s'.rank < s.rank := by
    apply rank_lt hsame
    rw [hpc, hpc']
    exact hlt
  cases hs with
  | stopped hpc hstop => exact absurd (h.inv.quiet (h.inv.stopped hstop)) hpending
  | acquire hpc =>
    -- It stops only when nothing is pending.
    have hfirst : (firstPriority : WorkerPc 1 P T) = .takeOwn ⟨0, hP⟩ := dif_pos hP
    refine hmove hpc ((hself _ _).trans hfirst) rfl ?_
    simp only [WorkerPc.rank]
    omega
  | takeOwn hpc hd =>
    refine hmove hpc (hself _ _) rfl ?_
    have hseven := ChaseLev.remaining_beginTake 0 hd
    simp only [WorkerPc.rank, theSlot, setWorker_queues, setQueue_self]
    omega
  | takeStep hpc hd | insertStep hpc hd =>
    -- A call on a queue has fewer steps left.
    refine hmove hpc hpc rfl ?_
    have hless := ChaseLev.remaining_ownerStep 0 hd
    simp only [WorkerPc.rank, theSlot, setQueue_self]
    omega
  | took hpc | stoleSubmitted hpc | submit _ _ hpc | inserted hpc | processed hpc | notify hpc =>
    refine hmove hpc (hself _ _) rfl ?_
    simp only [WorkerPc.rank]
    omega
  | skipSelf hpc =>
    refine hmove hpc (hself _ _) rfl ?_
    exact Nat.add_lt_add_left (Nat.lt_succ_self 9) _
  | tookNone hpc | noVictimLeft hpc =>
    refine hmove hpc (hself _ _) rfl ?_
    simp only [WorkerPc.rank]
    split_ifs <;> omega
  | @trySubmitted p d hpc hd =>
    -- The theft begins on a quiet queue, so all its steps are left.
    refine hmove hpc (hself _ _) rfl ?_
    have hquiet : (s.queues (.submitted p)).Is .quiet := by
      have his := h.phase (.submitted p)
      rw [s.phase_of_born hpc (by intro heq; cases heq)] at his
      exact his
    have hfive := ChaseLev.remaining_beginSteal hquiet.1 hd
    simp only [WorkerPc.rank, theSlot, setWorker_queues, setQueue_self]
    omega
  | @submittedStep p d hpc hd =>
    refine hmove hpc hpc rfl ?_
    have hstealing : (s.queues (.submitted p)).Is (.stealing 0) := by
      have his := h.phase (.submitted p)
      rw [s.phase_of_born hpc (by intro heq; cases heq), WorkerPc.phase, Function.update_self] at his
      exact his
    have hless := ChaseLev.remaining_thiefStep hstealing.1 hd
    simp only [WorkerPc.rank, theSlot, setQueue_self]
    omega
  | @stoleNoneSubmitted p d hpc hd =>
    -- The next priority is searched.  Behind the last one nothing would be pending.
    by_cases hlast : p + 1 < P
    · have hnext : (nextPriority p : WorkerPc 1 P T) = .takeOwn ⟨p + 1, hlast⟩ := dif_pos hlast
      refine hmove hpc ((hself _ _).trans hnext) rfl ?_
      simp only [WorkerPc.rank]
      omega
    · exact absurd (h.searched_all hpc hd hlast) hpending
  | submitAdd => cases hnone
  | grow hpc hg =>
    refine hmove hpc (hself _ _) rfl ?_
    rcases h.growing hpc with rfl | rfl
    · cases hg
      exact Nat.lt_succ_self 3
    · cases hg with
      | more hlt => exact absurd hlt (lt_irrefl 1)
  | grown hpc hg =>
    refine hmove hpc (hself _ _) rfl ?_
    rcases h.growing hpc with rfl | rfl
    · cases hg
    · exact Nat.lt_succ_self 2
  | startThread hpc => rcases h.growing hpc with heq | heq <;> cases heq
  | subtract hpc =>
    -- Fewer tasks are pending, whatever is left to do about them.
    rw [State.rank, State.rank, Prod.Lex.toLex_lt_toLex]
    exact .inl (Nat.sub_lt (Nat.pos_of_ne_zero hpending) Nat.one_pos)
  | wake hpc =>
    refine hmove hpc (hself s .checkStop) rfl ?_
    simp only [WorkerPc.rank]
    omega
  | victim _ hne => exact absurd (Subsingleton.elim _ _) hne
  | stealStep hpc | stole hpc | stoleNone hpc => exact (h.notStealing hpc).elim

/-- Once the worker is there, the external thread neither helps nor hinders it. -/
theorem OneInv.rank_ext {s s' : State 1 P T} {e : Event 1 T} (h : OneInv s)
    (hborn : s.workers 0 ≠ .unborn) (hs : ExtStep s e s')
    (hnew : ∀ task q, s'.ext ≠ .submitCheck task q) :
    s'.pending = s.pending ∧ s'.rank = s.rank := by
  have hnot := h.born hborn
  cases hs with
  | submit task q => exact absurd rfl (hnew task q)
  | submitRefused hext | submitAccepted hext | submitAdd hext | insertStep hext | inserted hext
  | grow hext | grown hext | startThread hext =>
    rw [hext] at hnot
    exact absurd trivial hnot
  | wait | waitOwed | waitZero | sleep | waitChanged | wakeSpuriously | storeStop | joinOne
  | joinedAll => exact ⟨rfl, congrArg (fun r => toLex (s.pending, r)) (rank_congr rfl _)⟩

/-! ## The external thread gets on -/

/-- How far the external thread is at most from its exchange on `live_threads_`. -/
def ExtPc.rank (s : State 1 P T) : ExtPc 1 P T → ℕ ×ₗ ℕ
  | .submitCheck .. => toLex (3, 0)
  | .submitAdd .. => toLex (2, 0)
  | .submitInsert _ q => toLex (1, (s.queues (.submitted q)).remaining theSlot)
  | .growing .load => toLex (0, 2)
  | .growing (.check _) => toLex (0, 1)
  | _ => toLex (0, 0)

/-- The external thread is at its exchange, or has won it. -/
def ExtPc.exchanging : ExtPc 1 P T → Prop
  | .growing (.cas _) | .growing (.start _) => True
  | _ => False

omit [Inhabited T] in
/-- Until it has started the worker, the external thread is in its `Submit`. -/
theorem OneInv.submitting {s : State 1 P T} (h : OneInv s) (hunborn : s.workers 0 = .unborn) :
    s.ext.before ∨ s.pending ≠ 0 ∧ (s.ext.mayGrow ∨ ∃ index, s.ext = .growing (.start index)) := by
  refine (h.owed hunborn).imp_right fun hpending => ⟨hpending, ?_⟩
  rcases h.inv.thread_alive Nat.one_pos hpending with hgrow | ⟨w, hborn, -⟩ | hstart
  · exact .inl hgrow
  · obtain rfl : w = 0 := Subsingleton.elim w 0
    exact absurd hunborn hborn
  · exact .inr hstart

/-- **Step lemma** for `Submit`: each of its steps brings it nearer to its exchange. -/
theorem OneInv.rank_submit {s s' : State 1 P T} {e : Event 1 T} (h : OneInv s)
    (hunborn : s.workers 0 = .unborn) (hnot : ¬s.ext.exchanging) (hs : ExtStep s e s')
    (hnew : ∀ task q, s'.ext ≠ .submitCheck task q) : s'.ext.rank s' < s.ext.rank s := by
  have hsubmitting := h.submitting hunborn
  cases hs with
  | submit task q => exact absurd rfl (hnew task q)
  | submitRefused hext hstop =>
    have hwaited := h.inv.stopped hstop
    rw [hext] at hwaited
    cases hwaited
  | submitAccepted hext =>
    rw [hext]
    exact Prod.Lex.toLex_lt_toLex.mpr (.inl (Nat.lt_succ_self 2))
  | submitAdd hext =>
    rw [hext]
    exact Prod.Lex.toLex_lt_toLex.mpr (.inl (Nat.lt_succ_self 1))
  | insertStep hext hd =>
    have hless := ChaseLev.remaining_ownerStep 0 hd
    change s.ext.rank _ < _
    rw [hext, ExtPc.rank, setQueue_self]
    exact Prod.Lex.toLex_lt_toLex.mpr (.inr ⟨rfl, hless⟩)
  | inserted hext =>
    rw [hext]
    exact Prod.Lex.toLex_lt_toLex.mpr (.inl Nat.one_pos)
  | grow hext hg =>
    rw [hext] at hnot ⊢
    cases hg with
    | load => exact Prod.Lex.toLex_lt_toLex.mpr (.inr ⟨rfl, Nat.lt_succ_self 1⟩)
    | more => exact Prod.Lex.toLex_lt_toLex.mpr (.inr ⟨rfl, Nat.one_pos⟩)
    | won | lost => exact absurd trivial hnot
  | grown hext hg =>
    rw [hext] at hsubmitting
    cases hg with
    | @enough index henough =>
      -- no thread yet and one task pending: the exchange is tried
      rcases hsubmitting with hbefore | ⟨hpending, hgrow | ⟨i, hstart⟩⟩
      · cases hbefore
      · obtain rfl : index = 0 := hgrow
        exact absurd ⟨Nat.one_pos, hpending⟩ henough
      · cases hstart
  | startThread hext =>
    rw [hext] at hnot
    exact absurd trivial hnot
  | wait hext | waitOwed hext | waitZero hext | sleep hext | waitChanged hext | wakeSpuriously hext
  | storeStop hext | joinOne _ hext | joinedAll hext =>
    rw [hext] at hsubmitting
    rcases hsubmitting with hbefore | ⟨-, hgrow | ⟨i, hstart⟩⟩
    · cases hbefore
    · cases hgrow
    · cases hstart

/-! ## Executions in which both threads go on -/

theorem OneStep.external_of {s s' : State 1 P T} {e : OneEvent P T} (hs : OneStep s e s')
    (ht : e.thread = .external) :
    ExtStep s e.event s' ∧ ∀ task q, s'.ext ≠ .submitCheck task q := by
  cases hs with
  | external hs hnew => exact ⟨hs, hnew⟩
  | worker => cases ht

theorem OneStep.worker_of {s s' : State 1 P T} {e : OneEvent P T} (hs : OneStep s e s')
    (ht : e.thread = .worker) : WorkerStep 0 s e.event s' := by
  cases hs with
  | external => cases ht
  | worker hs => exact hs

section Executions

variable {task : T} {q : Fin P}

/-- A thread takes a step at this moment. -/
def StepsAt (x : (oneSystem P T task q).Execution) (thread : OneThread) (n : ℕ) : Prop :=
  ∃ e, x.event n = some e ∧ e.thread = thread

/-- Both threads go on, and a weak exchange does not fail for ever. -/
structure Fair (x : (oneSystem P T task q).Execution) : Prop where
  external : ∀ n, (x.state n).ext.submitting → ∃ m, n ≤ m ∧ StepsAt x .external m
  worker : ∀ n, (x.state n).workers 0 ≠ .unborn → (x.state n).workers 0 ≠ .exited →
    ∃ m, n ≤ m ∧ StepsAt x .worker m
  exchange : ∀ n i, (x.state n).ext = .growing (.cas i) → ∃ m, n ≤ m ∧ (x.state m).live ≠ i

/-- The moments at which a task is submitted. -/
def submissions (x : (oneSystem P T task q).Execution) : Set ℕ :=
  {n | ∃ e new, x.event n = some e ∧ e.event.submitted = some new}

variable {x : (oneSystem P T task q).Execution}

theorem oneInv_state (x : (oneSystem P T task q).Execution) (n : ℕ) : OneInv (x.state n) :=
  (order_of_run (x.run n)).1

omit [Inhabited T] in
theorem submitting_of {pc : ExtPc 1 P T}
    (h : pc.before ∨ pc.mayGrow ∨ ∃ index, pc = .growing (.start index)) : pc.submitting := by
  cases pc with
  | submitCheck | submitAdd | submitInsert | growing => trivial
  | _ =>
    rcases h with h | h | ⟨index, h⟩
    all_goals cases h

/-- The external thread gets to its exchange. -/
theorem Fair.exchanging (hf : Fair x) :
    ∃ n, (x.state n).workers 0 ≠ .unborn ∨ (x.state n).ext.exchanging := by
  have hless {n : ℕ} {e : OneEvent P T} (he : x.event n = some e)
      (hnot : ¬((x.state n).workers 0 ≠ .unborn ∨ (x.state n).ext.exchanging)) :
      (x.state (n + 1)).ext.rank (x.state (n + 1)) < (x.state n).ext.rank (x.state n) := by
    obtain ⟨hunborn, hnot⟩ := not_or.mp hnot
    have hunborn := not_not.mp hunborn
    cases ht : e.thread with
    | external =>
      obtain ⟨hs, hnew⟩ := (x.step he).external_of ht
      exact (oneInv_state x n).rank_submit hunborn hnot hs hnew
    | worker => exact absurd hunborn ((x.step he).worker_of ht).running.1.1
  refine (System.Execution.eventually_of_rank (fun n => (x.state n).ext.rank (x.state n)) _ 0
    (fun n _ hnot => ?_) (fun n _ hnot => ?_)).imp fun n hgoal => hgoal.2
  · cases he : x.event n with
    | none => rw [x.pause he]
    | some e => exact (hless he hnot).le
  · have hunborn := not_not.mp (not_or.mp hnot).1
    have hsubmitting := submitting_of (((oneInv_state x n).submitting hunborn).imp_right And.right)
    obtain ⟨m, hnm, e, he, -⟩ := hf.external n hsubmitting
    refine ⟨m, hnm, ?_⟩
    by_cases hgoal : (x.state m).workers 0 ≠ .unborn ∨ (x.state m).ext.exchanging
    · exact .inl hgoal
    · exact .inr (hless he hgoal)

omit [Inhabited T] in
/-- A slot that is counted and has no worker is about to be started. -/
theorem OneInv.starting {s : State 1 P T} (h : OneInv s) (hunborn : s.workers 0 = .unborn)
    (hlive : s.live ≠ 0) : s.ext = .growing (.start 0) := by
  have hbirths := h.inv.births 0
  rw [if_pos (show ((0 : Fin 1) : ℕ) < s.live from Nat.pos_of_ne_zero hlive), State.births,
    Fin.sum_univ_one, hunborn] at hbirths
  cases hext : s.ext with
  | growing g =>
    cases g with
    | start index => exact congrArg (ExtPc.growing ∘ Grow.start) (Subsingleton.elim index 0)
    | _ =>
      rw [hext] at hbirths
      cases hbirths
  | _ =>
    rw [hext] at hbirths
    cases hbirths

/-- The next step of an external thread that has won its exchange starts the worker. -/
theorem ExtStep.born_of_start {s s' : State 1 P T} {e : Event 1 T} (hs : ExtStep s e s')
    (hstart : s.ext = .growing (.start 0)) : s'.workers 0 ≠ .unborn := by
  cases hs with
  | @startThread index hext =>
    obtain rfl : index = 0 := Subsingleton.elim index 0
    rw [setExt_workers, setWorker_workers_self]
    intro heq
    cases heq
  | grow hext hg | grown hext hg =>
    rw [hstart] at hext
    cases hext
    cases hg
  | submit _ _ hext | submitRefused hext | submitAccepted hext | submitAdd hext | insertStep hext
  | inserted hext | wait hext | waitOwed hext | waitZero hext | sleep hext | waitChanged hext
  | wakeSpuriously hext | storeStop hext | joinOne _ hext | joinedAll hext =>
    rw [hstart] at hext
    cases hext

/-- The worker is started. -/
theorem Fair.born (hf : Fair x) : ∃ n, (x.state n).workers 0 ≠ .unborn := by
  by_contra hnever
  have hunborn (n : ℕ) : (x.state n).workers 0 = .unborn := by
    by_contra hborn
    exact hnever ⟨n, hborn⟩
  obtain ⟨n, hborn | hexchanging⟩ := hf.exchanging
  · exact hborn (hunborn n)
  -- the exchange is won some time
  obtain ⟨k, hstart⟩ : ∃ k, (x.state k).ext = .growing (.start 0) := by
    cases hext : (x.state n).ext with
    | growing g =>
      cases g with
      | cas i =>
        obtain ⟨m, -, hlive⟩ := hf.exchange n i hext
        rw [Subsingleton.elim i 0] at hlive
        exact ⟨m, (oneInv_state x m).starting (hunborn m) hlive⟩
      | start index => exact ⟨n, hext.trans (by rw [Subsingleton.elim index 0])⟩
      | _ =>
        rw [hext] at hexchanging
        cases hexchanging
    | _ =>
      rw [hext] at hexchanging
      cases hexchanging
  have hnext {m : ℕ} {e : OneEvent P T} (he : x.event m = some e)
      (hstart : (x.state m).ext = .growing (.start 0)) : False := by
    cases ht : e.thread with
    | external =>
      obtain ⟨hs, -⟩ := (x.step he).external_of ht
      exact hs.born_of_start hstart (hunborn (m + 1))
    | worker => exact absurd (hunborn m) ((x.step he).worker_of ht).running.1.1
  have hforever := x.always_of_step (I := fun s => s.ext = .growing (.start 0)) hstart
    fun m e _ he hstart => (hnext he hstart).elim
  obtain ⟨m, hkm, e, he, -⟩ := hf.external k (by rw [hstart]; trivial)
  exact hnext he (hforever m hkm)

/-- A worker that was started stays. -/
theorem born_of_le {n₀ : ℕ} (hborn : (x.state n₀).workers 0 ≠ .unborn) :
    ∀ n, n₀ ≤ n → (x.state n).workers 0 ≠ .unborn := by
  refine x.always_of_step (I := fun s => s.workers 0 ≠ .unborn) hborn fun n e _ he hborn => ?_
  cases ht : e.thread with
  | external =>
    obtain ⟨hs, -⟩ := (x.step he).external_of ht
    rcases (oneInv_state x n).workers_ext hs with heq | heq
    · rw [heq]
      exact hborn
    · rw [heq]
      intro heq
      cases heq
  | worker => exact ((x.step he).worker_of ht).running.2

/-- With nothing pending and nothing submitted, nothing is pending after the next step. -/
theorem WorkerStep.pending_zero {s s' : State 1 P T} {e : Event 1 T} (hs : WorkerStep 0 s e s')
    (hzero : s.pending = 0) (hnone : e.submitted = none) : s'.pending = 0 := by
  cases hs with
  | submitAdd => cases hnone
  | subtract =>
    change s.pending - 1 = 0
    rw [hzero]
  | _ => exact hzero

/-- Some time everything that was submitted has been processed, and stays so. -/
theorem Fair.finished (hf : Fair x) (hfin : (submissions x).Finite) :
    ∃ n, ∀ m, n ≤ m → (x.state m).workers 0 ≠ .unborn ∧ (x.state m).pending = 0 := by
  obtain ⟨last, hlast⟩ := hfin.bddAbove
  obtain ⟨n₁, hn₁⟩ := hf.born
  have hborn (n : ℕ) (hn : max (last + 1) n₁ ≤ n) : (x.state n).workers 0 ≠ .unborn :=
    born_of_le hn₁ n ((le_max_right _ _).trans hn)
  -- After the last submission nothing is submitted.
  have hnone {n : ℕ} {e : OneEvent P T} (hn : max (last + 1) n₁ ≤ n) (he : x.event n = some e) :
      e.event.submitted = none := by
    cases hsub : e.event.submitted with
    | none => rfl
    | some new =>
      have hle : n ≤ last := hlast ⟨e, new, he, hsub⟩
      exact absurd ((le_max_left _ _).trans hn) (not_le.mpr (Nat.lt_succ_of_le hle))
  have hworker {n : ℕ} {e : OneEvent P T} (hn : max (last + 1) n₁ ≤ n) (he : x.event n = some e)
      (ht : e.thread = .worker) (hpending : (x.state n).pending ≠ 0) :
      (x.state (n + 1)).rank < (x.state n).rank :=
    (oneInv_state x n).rank_worker (Nat.lt_of_le_of_lt (Nat.zero_le q) q.isLt)
      ((x.step he).worker_of ht) hpending (hnone hn he)
  -- The rank never grows while something is pending.
  have hle (n : ℕ) (hn : max (last + 1) n₁ ≤ n) (hpending : (x.state n).pending ≠ 0) :
      (x.state (n + 1)).rank ≤ (x.state n).rank := by
    cases he : x.event n with
    | none => rw [x.pause he]
    | some e =>
      cases ht : e.thread with
      | external =>
        obtain ⟨hs, hnew⟩ := (x.step he).external_of ht
        exact le_of_eq ((oneInv_state x n).rank_ext (hborn n hn) hs hnew).2
      | worker => exact (hworker hn he ht hpending).le
  -- The worker moves sooner or later, and the rank falls.
  have hlt (n : ℕ) (hn : max (last + 1) n₁ ≤ n) (hpending : (x.state n).pending ≠ 0) :
      ∃ m, n ≤ m ∧ ((x.state m).pending = 0 ∨ (x.state (m + 1)).rank < (x.state m).rank) := by
    have hinv := (oneInv_state x n).inv
    have hexited : (x.state n).workers 0 ≠ .exited := fun hexited =>
      hpending (hinv.quiet (hinv.stopped (hinv.exited 0 hexited)))
    obtain ⟨m, hnm, e, he, ht⟩ := hf.worker n (hborn n hn) hexited
    refine ⟨m, hnm, ?_⟩
    by_cases hgoal : (x.state m).pending = 0
    · exact .inl hgoal
    · exact .inr (hworker (hn.trans hnm) he ht hgoal)
  obtain ⟨n, hn, hzero⟩ := System.Execution.eventually_of_rank (fun n => (x.state n).rank)
    (fun n => (x.state n).pending = 0) _ hle hlt
  refine ⟨n, fun m hm => ⟨hborn m (hn.trans hm), ?_⟩⟩
  refine x.always_of_step (I := fun s => s.pending = 0) hzero (fun k e hk he hzero => ?_) m hm
  cases ht : e.thread with
  | external =>
    obtain ⟨hs, hnew⟩ := (x.step he).external_of ht
    have hsame := (oneInv_state x k).rank_ext (hborn k (hn.trans hk)) hs hnew
    exact hsame.1.trans hzero
  | worker => exact ((x.step he).worker_of ht).pending_zero hzero (hnone (hn.trans hk) he)

/-- A run of the scheduler with one slot is a run of the scheduler. -/
theorem run_of_oneSystem {tr : List (OneEvent P T)} {s : State 1 P T}
    (h : (oneSystem P T task q).Run tr s) :
    (system 1 P T).Run (.internal :: tr.map OneEvent.event) s := by
  induction h with
  | start hinit =>
    obtain rfl := hinit
    have h₀ : (system 1 P T).Run [] (.initial 1 P T) := .start rfl
    exact h₀.next (.inl (ExtStep.submit task q rfl))
  | @next tr s s' e hr hstep ih =>
    rw [List.map_append]
    exact ih.next hstep.step

/-- With nothing pending, what was submitted has been processed. -/
theorem finishes_eq {tr : List (OneEvent P T)} {s : State 1 P T}
    (h : (oneSystem P T task q).Run tr s) (hzero : s.pending = 0) :
    finishes (tr.map OneEvent.event) = submits (tr.map OneEvent.event) := by
  have hrun := run_of_oneSystem h
  have hbooks := bag_accounted (bag_of_run hrun)
  obtain ⟨hwaiting, hidle, -⟩ := (inv_of_run hrun).bag_empty hzero
  have hsub : submits (.internal :: tr.map OneEvent.event) =
      starts (.internal :: tr.map OneEvent.event) + s.bag.waiting := by
    simpa only [submits, starts, observed_visible Event.submitted rfl,
      observed_visible Event.started rfl] using hbooks.submitted
  have hstart : starts (.internal :: tr.map OneEvent.event) =
      finishes (.internal :: tr.map OneEvent.event) + s.bag.processing := by
    simpa only [starts, finishes, observed_visible Event.started rfl,
      observed_visible Event.finished rfl] using hbooks.started
  have hprocessing : s.bag.processing = 0 := by simp [Bag.processing, hidle]
  rw [hwaiting, add_zero] at hsub
  rw [hprocessing, add_zero] at hstart
  exact (hsub.trans hstart).symm

/-- The first task is counted before the worker starts. -/
theorem task_submitted {tr : List (OneEvent P T)} {s : State 1 P T}
    (h : (oneSystem P T task q).Run tr s) :
    (s.ext = .submitCheck task q ∨ s.ext = .submitAdd task q) ∨
      task ∈ submits (tr.map OneEvent.event) := by
  induction h with
  | start hinit =>
    obtain rfl := hinit
    exact .inl (.inl rfl)
  | @next tr s s' e hr hstep ih =>
    have hinv := (order_of_run hr).1
    rw [List.map_append, List.map_singleton, submits, observed_snoc]
    rcases ih with hext | hmem
    · have hsubmitting : s.ext.submitting := by
        rcases hext with hext | hext <;> (rw [hext]; trivial)
      cases hstep with
      | worker hs => exact absurd hsubmitting (hinv.born hs.running.1.1)
      | external hs hnew =>
        cases hs with
        | submit new q' => exact absurd rfl (hnew new q')
        | submitRefused _ hstop =>
          -- `Wait` has not been called.
          have hwaited := hinv.inv.stopped hstop
          rcases hext with hext | hext <;> (rw [hext] at hwaited; cases hwaited)
        | submitAccepted hext' =>
          rcases hext with hext | hext
          · rw [hext'] at hext
            cases hext
            exact .inl (.inr rfl)
          · rw [hext'] at hext
            cases hext
        | submitAdd hext' =>
          -- It is counted with this step.
          rcases hext with hext | hext
          · rw [hext'] at hext
            cases hext
          · rw [hext'] at hext
            cases hext
            exact .inr (Multiset.mem_add.mpr (.inr (Multiset.mem_singleton_self task)))
        | insertStep hext' | inserted hext' | grow hext' | grown hext' | startThread hext'
        | wait hext' | waitOwed hext' | waitZero hext' | sleep hext' | waitChanged hext'
        | wakeSpuriously hext' | storeStop hext' | joinOne _ hext' | joinedAll hext' =>
          rcases hext with hext | hext <;> (rw [hext'] at hext; cases hext)
    · exact .inr (Multiset.mem_add.mpr (.inl hmem))

/-- **One worker, most urgent and newest first.**  With one worker and one task submitted from
    outside, whatever `Process` submits and however the threads interleave: the tasks are
    processed in the order of the reference scheduler, each only while nothing more urgent is
    queued; and if both threads go on and finitely many tasks are submitted, every one of them
    is processed. -/
theorem one_worker_order (task : T) (q : Fin P) :
    (∀ tr s, (oneSystem P T task q).Run tr s →
      (Reference.run (ordersIn tr)).processed = processedIn tr ∧
        ∀ e s' w next, OneStep s e s' → e.event = .start w next →
          ∃ p, (∃ rest, s.stack p = next :: rest) ∧
            ∀ k : QueueId 1 P, k.priority < p → (s.queues k).stored = []) ∧
      ∀ x : (oneSystem P T task q).Execution, Fair x → (submissions x).Finite →
        ∃ n, ∀ m, n ≤ m → task ∈ submits ((x.trace m).map OneEvent.event) ∧
          finishes ((x.trace m).map OneEvent.event) = submits ((x.trace m).map OneEvent.event) := by
  refine ⟨fun tr s hr => ?_, fun x hf hfin => ?_⟩
  · obtain ⟨hinv, hrun⟩ := order_of_run hr
    refine ⟨congrArg Reference.processed hrun, fun e s' w next hs he => ?_⟩
    have hfollows := (hinv.step hs).2
    obtain ⟨thread, event, priority⟩ := e
    obtain rfl : event = .start w next := he
    obtain ⟨p, rest, hp, hless⟩ := PriorityStacks.pop_spec hfollows
    exact ⟨p, ⟨rest, hp⟩, fun k hk => stored_of_held (held_of_stack (hless _ hk))⟩
  · obtain ⟨n, hn⟩ := hf.finished hfin
    refine ⟨n, fun m hm => ?_⟩
    obtain ⟨hborn, hzero⟩ := hn m hm
    refine ⟨(task_submitted (x.run m)).resolve_left fun hext => ?_, finishes_eq (x.run m) hzero⟩
    apply (oneInv_state x m).born hborn
    rcases hext with hext | hext <;> (rw [hext]; trivial)

end Executions

/-! ## Such executions exist -/

/-- A worker that is not about to count a submission. -/
def WorkerPc.Calm : WorkerPc 1 P T → Prop
  | .submitAdd .. => False
  | _ => True

omit [Inhabited T] in
theorem calm_setWorker (s : State 1 P T) {pc : WorkerPc 1 P T} (hpc : pc.Calm) :
    ((s.setWorker 0 pc).workers 0).Calm := by
  rw [setWorker_workers_self]
  exact hpc

/-- **Progress** of the worker: it always has a step, and need not submit. -/
theorem OneInv.worker_next {s : State 1 P T} (h : OneInv s) (hborn : s.workers 0 ≠ .unborn)
    (hexited : s.workers 0 ≠ .exited) (hcalm : (s.workers 0).Calm) :
    ∃ e s', WorkerStep 0 s e s' ∧ e.submitted = none ∧ (s'.workers 0).Calm := by
  have hphase (k : QueueId 1 P) : (s.queues k).Is ((s.workers 0).phase k) := by
    have his := h.phase k
    rwa [s.phase_of_born rfl hborn] at his
  cases hpc : s.workers 0 with
  | unborn => exact absurd hpc hborn
  | exited => exact absurd hpc hexited
  | submitAdd task new q =>
    rw [hpc] at hcalm
    cases hcalm
  | stealing p v => exact (h.notStealing hpc).elim
  | checkStop =>
    cases hstop : s.stop with
    | true =>
      exact ⟨_, _, .stopped hpc hstop, rfl, calm_setWorker _ trivial⟩
    | false =>
      refine ⟨_, _, .acquire hpc hstop, rfl, calm_setWorker _ ?_⟩
      rw [firstPriority]
      split_ifs <;> trivial
  | takeOwn p =>
    have his := hphase (.slot 0 p)
    rw [hpc] at his
    exact ⟨_, _, .takeOwn hpc (.beginTake his.1), rfl, calm_setWorker _ trivial⟩
  | taking p =>
    -- The call has a next step or returns, with a task or without.
    have his := hphase (.slot 0 p)
    rw [hpc, WorkerPc.phase, Function.update_self] at his
    rcases his.take_next with ⟨d, hd⟩ | ⟨r, d, hd⟩
    · exact ⟨_, _, .takeStep hpc hd, rfl, hcalm⟩
    · cases r with
      | none =>
        exact ⟨_, _, .tookNone hpc hd, rfl, calm_setWorker _ trivial⟩
      | some v =>
        exact ⟨_, _, .took hpc hd, rfl, calm_setWorker _ trivial⟩
  | victim p v =>
    -- The worker is the only one: it skips itself, and then no victim is left.
    by_cases hv : v = 0
    · subst hv
      exact ⟨_, _, .skipSelf hpc, rfl, calm_setWorker _ trivial⟩
    · exact ⟨_, _, .noVictimLeft hpc (Nat.pos_of_ne_zero hv), rfl, calm_setWorker _ trivial⟩
  | trySubmitted p =>
    have his := hphase (.submitted p)
    rw [hpc] at his
    exact ⟨_, _, .trySubmitted hpc (.beginSteal 0 (his.2 0)), rfl, calm_setWorker _ trivial⟩
  | stealingSubmitted p =>
    have his := hphase (.submitted p)
    rw [hpc, WorkerPc.phase, Function.update_self] at his
    rcases his.steal_next with ⟨d, hd⟩ | ⟨r, d, hd⟩
    · exact ⟨_, _, .submittedStep hpc hd, rfl, hcalm⟩
    · cases r with
      | none =>
        refine ⟨_, _, .stoleNoneSubmitted hpc hd, rfl, calm_setWorker _ ?_⟩
        rw [nextPriority]
        split_ifs <;> trivial
      | some v =>
        exact ⟨_, _, .stoleSubmitted hpc hd, rfl, calm_setWorker _ trivial⟩
  | processing task =>
    exact ⟨_, _, .processed hpc, rfl, calm_setWorker _ trivial⟩
  | submitInsert task new q =>
    have his := hphase (.slot 0 q)
    rw [hpc, WorkerPc.phase, Function.update_self] at his
    rcases his.insert_next with ⟨d, hd⟩ | ⟨d, hd⟩
    · exact ⟨_, _, .insertStep hpc hd, rfl, hcalm⟩
    · exact ⟨_, _, .inserted hpc hd, rfl, calm_setWorker _ trivial⟩
  | growing task g =>
    -- There is no second worker to start.
    rcases h.growing hpc with rfl | rfl
    · exact ⟨_, _, .grow hpc .load, rfl, calm_setWorker _ trivial⟩
    · have hlast : ¬(1 < 1 ∧ s.pending ≠ 0) := fun hmore => lt_irrefl 1 hmore.1
      exact ⟨_, _, .grown hpc (.enough hlast), rfl, calm_setWorker _ trivial⟩
  | subtract task =>
    refine ⟨_, _, .subtract hpc, rfl, calm_setWorker _ ?_⟩
    split_ifs <;> trivial
  | notify =>
    -- The external thread may wait for this, or not.
    by_cases hasleep : ∃ owed, s.ext = .asleep owed
    · obtain ⟨owed, hext⟩ := hasleep
      refine ⟨_, _, .wake hpc hext, rfl, ?_⟩
      rw [setExt_workers]
      exact calm_setWorker _ trivial
    · exact ⟨_, _, .notify hpc (not_exists.mp hasleep), rfl, calm_setWorker _ trivial⟩

/-- **Progress** of the external thread: until the worker is there it has a step, and its
    exchange may succeed. -/
theorem OneInv.external_next {s : State 1 P T} (h : OneInv s) (hunborn : s.workers 0 = .unborn) :
    ∃ e s', ExtStep s e s' ∧ (∀ task q, s'.ext ≠ .submitCheck task q) ∧
      ∀ i, s.ext = .growing (.cas i) → s'.live ≠ i := by
  have hphase (k : QueueId 1 P) : (s.queues k).Is (s.ext.phase k) := by
    have his := h.phase k
    rwa [s.phase_of_unborn hunborn] at his
  have hsubmitting := h.submitting hunborn
  cases hext : s.ext with
  | submitCheck task q =>
    -- The scheduler is not stopped before the worker has been there.
    have hstop : s.stop = false := by
      by_contra hstop
      have hwaited := h.inv.stopped (Bool.eq_true_of_not_eq_false hstop)
      rw [hext] at hwaited
      cases hwaited
    exact ⟨_, _, .submitAccepted hext hstop, (fun _ _ heq => by cases heq),
      (fun _ heq => by cases heq)⟩
  | submitAdd task q =>
    have his := hphase (.submitted q)
    rw [hext] at his
    exact ⟨_, _, .submitAdd hext (.beginInsert task his.1), (fun _ _ heq => by cases heq),
      (fun _ heq => by cases heq)⟩
  | submitInsert task q =>
    have his := hphase (.submitted q)
    rw [hext, ExtPc.phase, Function.update_self] at his
    rcases his.insert_next with ⟨d, hd⟩ | ⟨d, hd⟩
    · refine ⟨_, _, .insertStep hext hd, fun task' q' heq => ?_, (fun _ heq => by cases heq)⟩
      rw [setQueue_ext, hext] at heq
      cases heq
    · exact ⟨_, _, .inserted hext hd, (fun _ _ heq => by cases heq), (fun _ heq => by cases heq)⟩
  | growing g =>
    -- It is about to start the worker, whatever else it might do later.
    rw [hext] at hsubmitting
    cases g with
    | load =>
      exact ⟨_, _, .grow hext .load, (fun _ _ heq => by cases heq), (fun _ heq => by cases heq)⟩
    | check index =>
      rcases hsubmitting with hbefore | ⟨hpending, hgrow | ⟨i, hstart⟩⟩
      · cases hbefore
      · obtain rfl : index = 0 := hgrow
        exact ⟨_, _, .grow hext (.more Nat.one_pos hpending), (fun _ _ heq => by cases heq),
          (fun _ heq => by cases heq)⟩
      · cases hstart
    | cas i =>
      have hlive : s.live = i := by
        rw [Subsingleton.elim i 0]
        by_contra hlive
        have hstart := h.starting hunborn hlive
        rw [hext] at hstart
        cases hstart
      refine ⟨_, _, .grow hext (.won hlive), (fun _ _ heq => by cases heq), fun i' heq => ?_⟩
      cases heq
      exact Nat.succ_ne_self i
    | start index =>
      exact ⟨_, _, .startThread hext, (fun _ _ heq => by cases heq), (fun _ heq => by cases heq)⟩
  | ready | waitLoad | waitCheck | asleep | storeStop | joining | done =>
    -- It does not come here before it has started the worker.
    rw [hext] at hsubmitting
    rcases hsubmitting with hbefore | ⟨-, hgrow | ⟨i, hstart⟩⟩
    · cases hbefore
    · cases hgrow
    · cases hstart

/-- What an execution does that goes on for as long as it can and submits nothing more. -/
def Eager (s : State 1 P T) (o : Option (OneEvent P T)) (s' : State 1 P T) : Prop :=
  (s.workers theSlot = .unborn → (∃ e, o = some e ∧ e.thread = .external) ∧
    ∀ i, s.ext = .growing (.cas i) → s'.live ≠ i) ∧
  (s.workers theSlot ≠ .unborn → s.workers theSlot ≠ .exited → ∃ e, o = some e ∧ e.thread = .worker) ∧
  (s.workers theSlot ≠ .unborn → ∀ e, o = some e → e.event.submitted = none)

theorem OneInv.eager_next {s : State 1 P T} (task : T) (q : Fin P) (h : OneInv s)
    (hcalm : (s.workers 0).Calm) :
    ∃ o s', (OneInv s' ∧ (s'.workers 0).Calm) ∧ Eager s o s' ∧
      (oneSystem P T task q).Moment s o s' := by
  by_cases hunborn : s.workers 0 = .unborn
  · obtain ⟨e, s', hs, hnew, hwon⟩ := h.external_next hunborn
    have hstep : OneStep s _ s' := .external hs hnew
    refine ⟨some _, s', ⟨(h.step hstep).1, ?_⟩, ⟨fun _ => ⟨⟨_, rfl, rfl⟩, hwon⟩,
      fun hborn => absurd hunborn hborn, fun hborn => absurd hunborn hborn⟩, hstep⟩
    rcases h.workers_ext hs with heq | heq
    · rw [heq]
      exact hcalm
    · rw [heq]
      trivial
  · by_cases hexited : s.workers 0 = .exited
    · exact ⟨none, s, ⟨h, hcalm⟩, ⟨fun heq => absurd heq hunborn,
        fun _ hne => absurd hexited hne, fun _ e heq => by cases heq⟩, rfl⟩
    · obtain ⟨e, s', hs, hnone, hcalm'⟩ := h.worker_next hunborn hexited hcalm
      have hstep : OneStep s _ s' := .worker hs
      refine ⟨some _, s', ⟨(h.step hstep).1, hcalm'⟩, ⟨fun heq => absurd heq hunborn,
        fun _ _ => ⟨_, rfl, rfl⟩, fun _ e' heq => ?_⟩, hstep⟩
      cases heq
      exact hnone

/-- There is a fair execution in which finitely many tasks are submitted. -/
theorem exists_fair (task : T) (q : Fin P) :
    ∃ x : (oneSystem P T task q).Execution, Fair x ∧ (submissions x).Finite := by
  have hprogress (s : State 1 P T) (hs : OneInv s ∧ (s.workers 0).Calm) := hs.1.eager_next task q hs.2
  obtain ⟨x, hx⟩ := System.Execution.exists_of_progress
    (I := fun s => OneInv s ∧ (s.workers 0).Calm) rfl ⟨oneInv_initial task q, trivial⟩ hprogress
  have hfair : Fair x := by
    refine ⟨fun n hsubmitting => ?_, fun n hborn hexited => ?_, fun n i hext => ?_⟩
    · have hunborn : (x.state n).workers 0 = .unborn := by
        by_contra hborn
        exact (hx n).1.1.born hborn hsubmitting
      exact ⟨n, le_rfl, ((hx n).2.1 hunborn).1⟩
    · exact ⟨n, le_rfl, (hx n).2.2.1 hborn hexited⟩
    · have hunborn : (x.state n).workers 0 = .unborn := by
        by_contra hborn
        exact (hx n).1.1.born hborn (by rw [hext]; trivial)
      exact ⟨n + 1, Nat.le_succ n, ((hx n).2.1 hunborn).2 i hext⟩
  obtain ⟨n₁, hborn⟩ := hfair.born
  refine ⟨x, hfair, (Set.finite_lt_nat n₁).subset fun n hn => ?_⟩
  obtain ⟨e, new, he, hsub⟩ := hn
  by_contra hle
  have hnone := (hx n).2.2.2 (born_of_le hborn n (not_lt.mp hle)) e he
  rw [hsub] at hnone
  cases hnone

/-- The worker processes 5, which submits 6 at priority 0, 7 at priority 1 and 8 at priority 0, and
    then 8, 6 and 7. -/
theorem processed_two_priorities : ∃ (tr : List (OneEvent 2 ℕ)) (s : State 1 2 ℕ),
    (oneSystem 2 ℕ 5 0).Run tr s ∧ processedIn tr = [5, 8, 6, 7] := by
  have h₀ : (oneSystem 2 ℕ 5 0).Run [] ((State.initial 1 2 ℕ).setExt (.submitCheck 5 0)) :=
    .start rfl
  -- the external thread submits 5 and starts the worker
  have hcalled := h₀.next (.external (.submitAccepted rfl rfl) (fun _ _ h => by cases h))
  have hcounted := hcalled.next
    (.external (.submitAdd rfl (.beginInsert 5 rfl)) (fun _ _ h => by cases h))
  have hdata := ((hcounted.next
    (.external (.insertStep rfl (.insertStep rfl rfl)) (fun _ _ h => by cases h))).next
    (.external (.insertStep rfl (.insertStep rfl rfl)) (fun _ _ h => by cases h))).next
    (.external (.insertStep rfl (.insertStep rfl rfl)) (fun _ _ h => by cases h))
  have hslot := ((hdata.next
    (.external (.insertStep rfl (.insertStep rfl rfl)) (fun _ _ h => by cases h))).next
    (.external (.insertStep rfl (.insertStep rfl rfl)) (fun _ _ h => by cases h))).next
    (.external (.insertStep rfl (.insertStep rfl rfl)) (fun _ _ h => by cases h))
  have hinserted := (hslot.next
    (.external (.inserted rfl (.inserted rfl rfl)) (fun _ _ h => by cases h))).next
    (.external (.grow rfl .load) (fun _ _ h => by cases h))
  have hgrown := (hinserted.next (.external (.grow rfl (.more Nat.zero_lt_one (by decide)))
    (fun _ _ h => by cases h))).next (.external (.grow rfl (.won rfl)) (fun _ _ h => by cases h))
  have hstarted := hgrown.next (.external (.startThread rfl) (fun _ _ h => by cases h))
  -- the worker finds its own queue empty, skips itself, and steals 5
  have htaking := (hstarted.next (.worker (.acquire rfl rfl))).next
    (.worker (.takeOwn rfl (.beginTake rfl)))
  have hrestore := (((htaking.next (.worker (.takeStep rfl (.takeStep rfl rfl)))).next
    (.worker (.takeStep rfl (.takeStep rfl rfl)))).next
    (.worker (.takeStep rfl (.takeStep rfl rfl)))).next
    (.worker (.takeStep rfl (.takeStep rfl rfl)))
  have hvictims := (hrestore.next (.worker (.tookNone rfl (.took rfl rfl)))).next
    (.worker (.skipSelf rfl))
  have hstealing := (hvictims.next (.worker (.noVictimLeft rfl le_rfl))).next
    (.worker (.trySubmitted rfl (.beginSteal 0 rfl)))
  have hstealData := ((hstealing.next (.worker (.submittedStep rfl (.stealStep rfl rfl)))).next
    (.worker (.submittedStep rfl (.stealStep rfl rfl)))).next
    (.worker (.submittedStep rfl (.stealStep rfl rfl)))
  have hstealCas := (hstealData.next (.worker (.submittedStep rfl (.stealStep rfl rfl)))).next
    (.worker (.submittedStep rfl (.stealStep rfl rfl)))
  have hfive := hstealCas.next (.worker (.stoleSubmitted rfl (.stole rfl rfl)))
  -- `Process` submits three tasks
  have hsix := (hfive.next (.worker (.submit 6 0 rfl))).next
    (.worker (.submitAdd rfl (.beginInsert 6 rfl)))
  have hsixDoneData := ((hsix.next (.worker (.insertStep rfl (.insertStep rfl rfl)))).next
    (.worker (.insertStep rfl (.insertStep rfl rfl)))).next
    (.worker (.insertStep rfl (.insertStep rfl rfl)))
  have hsixDoneSlot := ((hsixDoneData.next (.worker (.insertStep rfl (.insertStep rfl rfl)))).next
    (.worker (.insertStep rfl (.insertStep rfl rfl)))).next
    (.worker (.insertStep rfl (.insertStep rfl rfl)))
  have hsixDoneInserted := (hsixDoneSlot.next (.worker (.inserted rfl (.inserted rfl rfl)))).next
    (.worker (.grow rfl .load))
  have hsixDone := hsixDoneInserted.next (.worker (.grown rfl (.enough (by decide))))
  have hseven := (hsixDone.next (.worker (.submit 7 1 rfl))).next
    (.worker (.submitAdd rfl (.beginInsert 7 rfl)))
  have hsevenDoneData := ((hseven.next (.worker (.insertStep rfl (.insertStep rfl rfl)))).next
    (.worker (.insertStep rfl (.insertStep rfl rfl)))).next
    (.worker (.insertStep rfl (.insertStep rfl rfl)))
  have hsevenDoneSlot := ((hsevenDoneData.next (.worker (.insertStep rfl (.insertStep rfl rfl)))).next
    (.worker (.insertStep rfl (.insertStep rfl rfl)))).next
    (.worker (.insertStep rfl (.insertStep rfl rfl)))
  have hsevenDoneInserted := (hsevenDoneSlot.next (.worker (.inserted rfl (.inserted rfl rfl)))).next
    (.worker (.grow rfl .load))
  have hsevenDone := hsevenDoneInserted.next (.worker (.grown rfl (.enough (by decide))))
  have height := (hsevenDone.next (.worker (.submit 8 0 rfl))).next
    (.worker (.submitAdd rfl (.beginInsert 8 rfl)))
  have heightDoneData := ((height.next (.worker (.insertStep rfl (.insertStep rfl rfl)))).next
    (.worker (.insertStep rfl (.insertStep rfl rfl)))).next
    (.worker (.insertStep rfl (.insertStep rfl rfl)))
  have heightDoneSlot := ((heightDoneData.next (.worker (.insertStep rfl (.insertStep rfl rfl)))).next
    (.worker (.insertStep rfl (.insertStep rfl rfl)))).next
    (.worker (.insertStep rfl (.insertStep rfl rfl)))
  have heightDoneInserted := (heightDoneSlot.next (.worker (.inserted rfl (.inserted rfl rfl)))).next
    (.worker (.grow rfl .load))
  have heightDone := heightDoneInserted.next (.worker (.grown rfl (.enough (by decide))))
  have hreturned := (heightDone.next (.worker (.processed rfl))).next (.worker (.subtract rfl))
  -- 8 is taken, the newest of priority 0
  have hagain := (hreturned.next (.worker (.acquire rfl rfl))).next
    (.worker (.takeOwn rfl (.beginTake rfl)))
  have hloaded := (((hagain.next (.worker (.takeStep rfl (.takeStep rfl rfl)))).next
    (.worker (.takeStep rfl (.takeStep rfl rfl)))).next
    (.worker (.takeStep rfl (.takeStep rfl rfl)))).next
    (.worker (.takeStep rfl (.takeStep rfl rfl)))
  have htook := (hloaded.next (.worker (.takeStep rfl (.takeStep rfl rfl)))).next
    (.worker (.took rfl (.took rfl rfl)))
  have hprocessed := (htook.next (.worker (.processed rfl))).next (.worker (.subtract rfl))
  -- then 6, the last of priority 0
  have hlast := (hprocessed.next (.worker (.acquire rfl rfl))).next
    (.worker (.takeOwn rfl (.beginTake rfl)))
  have hraced := (((hlast.next (.worker (.takeStep rfl (.takeStep rfl rfl)))).next
    (.worker (.takeStep rfl (.takeStep rfl rfl)))).next
    (.worker (.takeStep rfl (.takeStep rfl rfl)))).next
    (.worker (.takeStep rfl (.takeStep rfl rfl)))
  have hwon := ((hraced.next (.worker (.takeStep rfl (.takeStep rfl rfl)))).next
    (.worker (.takeStep rfl (.takeStep rfl rfl)))).next
    (.worker (.takeStep rfl (.takeStep rfl rfl)))
  have htookLast := (hwon.next (.worker (.took rfl (.took rfl rfl)))).next
    (.worker (.processed rfl))
  have hfinished := htookLast.next (.worker (.subtract rfl))
  -- and 7, when nothing of priority 0 is left
  have hnothing := (hfinished.next (.worker (.acquire rfl rfl))).next
    (.worker (.takeOwn rfl (.beginTake rfl)))
  have hrestored := (((hnothing.next (.worker (.takeStep rfl (.takeStep rfl rfl)))).next
    (.worker (.takeStep rfl (.takeStep rfl rfl)))).next
    (.worker (.takeStep rfl (.takeStep rfl rfl)))).next
    (.worker (.takeStep rfl (.takeStep rfl rfl)))
  have hnobody := (hrestored.next (.worker (.tookNone rfl (.took rfl rfl)))).next
    (.worker (.skipSelf rfl))
  have hempty := (hnobody.next (.worker (.noVictimLeft rfl le_rfl))).next
    (.worker (.trySubmitted rfl (.beginSteal 0 rfl)))
  have hpassed := (hempty.next (.worker (.submittedStep rfl (.stealStep rfl rfl)))).next
    (.worker (.stoleNoneSubmitted rfl (.stole rfl rfl)))
  have hsecond := hpassed.next (.worker (.takeOwn rfl (.beginTake rfl)))
  have hracing := (((hsecond.next (.worker (.takeStep rfl (.takeStep rfl rfl)))).next
    (.worker (.takeStep rfl (.takeStep rfl rfl)))).next
    (.worker (.takeStep rfl (.takeStep rfl rfl)))).next
    (.worker (.takeStep rfl (.takeStep rfl rfl)))
  have hend := ((hracing.next (.worker (.takeStep rfl (.takeStep rfl rfl)))).next
    (.worker (.takeStep rfl (.takeStep rfl rfl)))).next
    (.worker (.takeStep rfl (.takeStep rfl rfl)))
  exact ⟨_, _, hend.next (.worker (.took rfl (.took rfl rfl))), by decide +kernel⟩

/-- The order when `Process` submits at two priorities, and the end when one task is submitted. -/
theorem one_worker_order_two : (∃ (tr : List (OneEvent 2 ℕ)) (s : State 1 2 ℕ),
      (oneSystem 2 ℕ 5 0).Run tr s ∧ processedIn tr = [5, 8, 6, 7] ∧
        (Reference.run (ordersIn tr)).processed = [5, 8, 6, 7]) ∧
    ∃ x : (oneSystem 3 ℕ 5 1).Execution, ∃ n,
      finishes ((x.trace n).map OneEvent.event) = submits ((x.trace n).map OneEvent.event) ∧
        5 ∈ submits ((x.trace n).map OneEvent.event) := by
  constructor
  · obtain ⟨tr, s, hrun, hprocessed⟩ := processed_two_priorities
    exact ⟨tr, s, hrun, hprocessed, ((one_worker_order 5 0).1 tr s hrun).1.trans hprocessed⟩
  · obtain ⟨x, hfair, hfin⟩ := exists_fair (P := 3) 5 1
    obtain ⟨n, hn⟩ := (one_worker_order (P := 3) 5 1).2 x hfair hfin
    obtain ⟨hmem, hall⟩ := hn n le_rfl
    exact ⟨x, n, hall, hmem⟩

end Remmy.TaskScheduler
