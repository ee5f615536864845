import Remmy.Io.ConcurrentWriter
import Mathlib.Logic.Equiv.Basic

/-!
# `ConcurrentWriter` Keeps Calls Whole

`calls_whole`: after every run that ends with all `Handle`s and then the `ConcurrentWriter`
destroyed, the output is a concatenation of the bytes of the calls, those made through one
`Handle` or directly by one thread in the order they were made.

Bytes move with a `Handle`: the calls of a `Handle` go on in the one constructed from it, and
the object that was moved from has nothing of them (`names`).  `moved_from_overtakes` shows
what becomes of a call through such an object.

The proof keeps a `Transit`: calls whose bytes are written or in the shared buffer are placed,
calls passed on to the `MutexWriter` wait, and the rest are held in the buffer of a `Handle`.
-/

namespace Remmy.Io

open Remmy.Lib
open WriterState

universe u v

variable {ι : Type v} {α : Type u}

/-! ## Histories -/

/-- What a run was told: which `Handle` each object carries on, and the calls, oldest first. -/
structure History (ι : Type v) (α : Type u) where
  names : ℕ → ℕ
  calls : List (Caller ι × List α)

/-- The caller under the name of the `Handle` that the object carries on. -/
def Caller.named (names : ℕ → ℕ) : Caller ι → Caller ι
  | direct i => direct i
  | handle h => handle (names h)

/-- A move exchanges the names of the two objects. -/
def History.next (H : History ι α) : WriterEvent ι α → History ι α
  | .call caller bytes => { H with calls := H.calls ++ [(caller.named H.names, bytes)] }
  | .moved h h' => { H with names := fun k => H.names (Equiv.swap h h' k) }
  | .internal => H

/-- The history of a run. -/
def historyOf (tr : List (WriterEvent ι α)) : History ι α := tr.foldl History.next ⟨id, []⟩

@[simp] theorem historyOf_snoc (tr : List (WriterEvent ι α)) (e : WriterEvent ι α) :
    historyOf (tr ++ [e]) = (historyOf tr).next e := by
  simp [historyOf]

/-- The calls of a run, under the objects they were made through. -/
def callsOf (tr : List (WriterEvent ι α)) : List (Caller ι × List α) :=
  tr.filterMap fun
    | .call caller bytes => some (caller, bytes)
    | _ => none

/-! ## Threads and their `Handle`s -/

attribute [local grind =] WriterPc.job WriterPc.uses WriterPc.holdsLock Job.uses Function.update_apply

/-- The member function that each thread is in. -/
def WriterState.jobs (s : WriterState ι α) (i : ι) : Option Job := (s.pcs i).job

/-- What is known of the `Handle`s, and of the threads that use them. -/
structure HandleInv (names : ℕ → ℕ) (s : WriterState ι α) : Prop where
  injective : Function.Injective names
  fresh : ∀ h, s.made ≤ h → names h = h ∧ s.handles h = none
  used : ∀ i h, (s.pcs i).uses = some h → s.handles h ≠ none
  apart : ∀ i j h, (s.pcs i).uses = some h → (s.pcs j).uses = some h → i = j
  /-- What a destructor has flushed stays empty. -/
  flushed : ∀ i h b, s.jobs i = some (.endHandle h) → s.handles h = some b → b.buffered = []

/-- What is known of the mutex, and of the writer behind the shared buffer. -/
structure LockInv (s : WriterState ι α) : Prop where
  mutex : ∀ i, (s.pcs i).holdsLock = true → s.mutex = some i
  unwritten : s.unwritten ≠ [] → ∃ i, (∃ job todo, s.pcs i = .writing job todo) ∨ s.pcs i = .ending
  ending : ∀ i, s.pcs i = .ending → s.destroyed = true
  destroyed : s.destroyed = true →
    s.shared.buffered = [] ∧ (∀ h, s.handles h = none) ∧ ∀ i, s.jobs i = none

section Control

variable {i : ι} {s s' : WriterState ι α} {e : WriterEvent ι α} {names : ℕ → ℕ}

theorem handleInv_initial (capacity : Capacity) : HandleInv id (initial ι α capacity) where
  injective _ _ h := h
  fresh _ _ := ⟨rfl, rfl⟩
  used _ _ h := by cases h
  apart _ _ _ h := by cases h
  flushed _ _ _ h := by cases h

theorem lockInv_initial (capacity : Capacity) : LockInv (initial ι α capacity) where
  mutex _ h := by cases h
  unwritten h := absurd rfl h
  ending _ h := by cases h
  destroyed h := by cases h

/-- A step that leaves the `Handle`s alone, and the thread in its member function. -/
theorem HandleInv.same (h : HandleInv names s) (hmade : s'.made = s.made)
    (hhandles : s'.handles = s.handles) (hjobs : s'.jobs = s.jobs) : HandleInv names s' := by
  obtain ⟨hinjective, hfresh, hused, hapart, hflushed⟩ := h
  have huses (j : ι) : (s.pcs j).uses = (s'.pcs j).uses :=
    congrArg (fun jobs => (jobs j).bind Job.uses) hjobs.symm
  simp only [huses] at hused hapart
  rw [← hmade, ← hhandles] at hfresh
  rw [← hhandles] at hused
  rw [← hhandles, ← hjobs] at hflushed
  exact ⟨hinjective, hfresh, hused, hapart, hflushed⟩

variable [DecidableEq ι]

theorem jobs_setPc {pc : WriterPc α} :
    (s.setPc i pc).jobs = Function.update s.jobs i pc.job := by
  funext j
  simp only [WriterState.jobs, setPc, Function.update_apply]
  split_ifs <;> rfl

theorem jobs_setPc_of_eq {pc : WriterPc α} (h : pc.job = (s.pcs i).job) :
    (s.setPc i pc).jobs = s.jobs := by
  rw [jobs_setPc, h]
  exact Function.update_eq_self ..

theorem HandleInv.step {hasConcat : Bool} {H : History ι α} (h : HandleInv H.names s)
    (hs : WriterStep hasConcat i s e s') : HandleInv (H.next e).names s' := by
  have hsame : s'.made = s.made → s'.handles = s.handles → s'.jobs = s.jobs →
      HandleInv H.names s' := h.same
  obtain ⟨hinjective, hfresh, hused, hapart, hflushed⟩ := h
  cases hs with
  | makeHandle hpc hopen | copyHandle hpc hh =>
    refine ⟨hinjective, ?_, ?_, hapart, ?_⟩
    all_goals
      simp only [History.next, setHandle, WriterState.jobs] at *
      grind
  | moveHandle hpc hfree =>
    refine ⟨hinjective.comp (Equiv.injective _), ?_, ?_, hapart, ?_⟩
    all_goals
      simp only [History.next, setHandle, WriterState.jobs] at *
      grind [Free]
  | writeHandle _ hpc hfree | flushHandle hpc hfree | endHandle hpc hfree =>
    refine ⟨hinjective, ?_, ?_, ?_, ?_⟩
    all_goals
      simp only [History.next, setPc, setHandle, WriterState.jobs] at *
      grind [Free, BufferedWriter.buffered_flush]
  | writeDirect _ hpc | flushDirect hpc | returned hpc | handleEnded hpc =>
    refine ⟨hinjective, ?_, ?_, ?_, ?_⟩
    all_goals
      simp only [History.next, setPc, WriterState.jobs] at *
      grind
  | lock hpc | perform hpc | performFlush hpc | unlock hpc | writerEnded hpc =>
    exact hsame rfl rfl (jobs_setPc_of_eq (by rw [hpc]; rfl))
  | write | writeEnding => exact hsame rfl rfl rfl
  | endWriter hidle => exact hsame rfl rfl (jobs_setPc_of_eq (by rw [hidle]; rfl))

/-- Another thread than the one that moves is at the writer behind the shared buffer. -/
theorem LockInv.still (h : LockInv s) (hwriting : ∀ job todo, s.pcs i ≠ .writing job todo)
    (hending : s.pcs i ≠ .ending) (hne : s.unwritten ≠ []) (pc : WriterPc α) :
    ∃ j, (∃ job todo, Function.update s.pcs i pc j = .writing job todo) ∨
      Function.update s.pcs i pc j = .ending := by
  obtain ⟨j, hj⟩ := h.unwritten hne
  have hji : j ≠ i := by
    rintro rfl
    rcases hj with ⟨job, todo, hj⟩ | hj
    · exact hwriting job todo hj
    · exact hending hj
  exact ⟨j, by rwa [Function.update_of_ne hji]⟩

/-- To look at the threads is to look at the one that moved, and at the others. -/
theorem forall_setPc {P : ι → WriterPc α → Prop} {pc : WriterPc α} (hself : P i pc)
    (hothers : ∀ j, j ≠ i → P j (s.pcs j)) (j : ι) : P j ((s.setPc i pc).pcs j) := by
  change P j (Function.update s.pcs i pc j)
  by_cases hji : j = i
  · rw [hji, Function.update_self]
    exact hself
  · rw [Function.update_of_ne hji]
    exact hothers j hji

/-- Whoever is behind `mutex_.lock()` has locked it. -/
theorem LockInv.mutex_step {hasConcat : Bool} (h : LockInv s) (hs : WriterStep hasConcat i s e s')
    (j : ι) : (s'.pcs j).holdsLock = true → s'.mutex = some j := by
  have hlocked := h.mutex
  cases hs with
  | makeHandle | copyHandle | moveHandle | write | writeEnding => exact hlocked j
  | writeHandle | flushHandle | endHandle | writeDirect | flushDirect | returned | handleEnded
  | endWriter | writerEnded =>
    exact forall_setPc (P := fun j pc => pc.holdsLock = true → s.mutex = some j)
      (fun hlock => by cases hlock) (fun k _ => hlocked k) j
  | lock hpc hfree =>
    refine forall_setPc (P := fun j pc => pc.holdsLock = true → some i = some j) (fun _ => rfl) ?_ j
    intro k _ hk
    have hmutex := hlocked k hk
    rw [hfree] at hmutex
    cases hmutex
  | perform hpc | performFlush hpc =>
    have hmutex : s.mutex = some i := hlocked i (by rw [hpc]; rfl)
    exact forall_setPc (P := fun j pc => pc.holdsLock = true → s.mutex = some j) (fun _ => hmutex)
      (fun k _ => hlocked k) j
  | unlock hpc hdone =>
    have hmutex : s.mutex = some i := hlocked i (by rw [hpc]; rfl)
    refine forall_setPc (P := fun j pc => pc.holdsLock = true → none = some j)
      (fun hlock => by cases hlock) ?_ j
    intro k hki hk
    rw [hlocked k hk] at hmutex
    exact absurd (Option.some.inj hmutex) hki

/-- Whoever is in the destructor has begun it. -/
theorem LockInv.ending_step {hasConcat : Bool} (h : LockInv s) (hs : WriterStep hasConcat i s e s')
    (j : ι) : s'.pcs j = .ending → s'.destroyed = true := by
  have hending := h.ending
  cases hs with
  | makeHandle | copyHandle | moveHandle | write | writeEnding => exact hending j
  | endWriter => exact fun _ => rfl
  | writeHandle | flushHandle | endHandle | writeDirect | flushDirect | returned | handleEnded
  | lock | perform | performFlush | unlock | writerEnded =>
    exact forall_setPc (P := fun _ pc => pc = .ending → s.destroyed = true)
      (fun hpc => by cases hpc) (fun k _ => hending k) j

/-- Nobody uses a `ConcurrentWriter` after its destructor has begun. -/
theorem LockInv.destroyed_step {hasConcat : Bool} (h : LockInv s)
    (hs : WriterStep hasConcat i s e s') (hend : s'.destroyed = true) :
    s'.shared.buffered = [] ∧ (∀ k, s'.handles k = none) ∧ ∀ j, s'.jobs j = none := by
  have hbusy {job : Job} (hjob : (s.pcs i).job = some job) : s.destroyed ≠ true := fun hend =>
    Option.some_ne_none job (hjob.symm.trans ((h.destroyed hend).2.2 i))
  have hused {k : ℕ} (hk : s.handles k ≠ none) : s.destroyed ≠ true := fun hend =>
    hk ((h.destroyed hend).2.1 k)
  cases hs with
  | makeHandle hpc hopen | writeDirect _ hpc hopen | flushDirect hpc hopen =>
    exact absurd hend (by simpa [setHandle, setPc] using hopen)
  | copyHandle hpc hh => exact absurd hend (hused hh)
  | moveHandle hpc hfree | writeHandle _ hpc hfree | flushHandle hpc hfree | endHandle hpc hfree =>
    exact absurd hend (hused (by rw [hfree.1]; exact Option.some_ne_none _))
  | lock hpc | perform hpc | performFlush hpc | unlock hpc | returned hpc | handleEnded hpc =>
    exact absurd hend (hbusy (by rw [hpc]; rfl))
  | write | writeEnding => exact h.destroyed hend
  | endWriter hidle hhandles hopen =>
    have hjobs (j : ι) : (s.pcs j).job = none := by rw [hidle j]; rfl
    have hsame : (s.setPc i .ending).jobs = s.jobs := jobs_setPc_of_eq (hjobs i).symm
    exact ⟨BufferedWriter.buffered_flush _, hhandles, fun j => (congrFun hsame j).trans (hjobs j)⟩
  | writerEnded hpc =>
    obtain ⟨hshared, hhandles, hjobs⟩ := h.destroyed hend
    have hsame : (s.setPc i .idle).jobs = s.jobs := jobs_setPc_of_eq (by rw [hpc]; rfl)
    exact ⟨hshared, hhandles, fun j => (congrFun hsame j).trans (hjobs j)⟩

/-- **Step lemma**: every step keeps what is known of the mutex. -/
theorem LockInv.step {hasConcat : Bool} (h : LockInv s) (hs : WriterStep hasConcat i s e s') :
    LockInv s' := by
  refine ⟨h.mutex_step hs, ?_, h.ending_step hs, h.destroyed_step hs⟩
  have hstill {pc₀ : WriterPc α} (hpc : s.pcs i = pc₀) (hwriting : ∀ job todo, pc₀ ≠ .writing job todo)
      (hending : pc₀ ≠ .ending) := h.still (hpc ▸ hwriting) (hpc ▸ hending)
  intro hne
  cases hs with
  | makeHandle | copyHandle | moveHandle => exact h.unwritten hne
  | writeHandle _ hpc | flushHandle hpc | endHandle hpc | writeDirect _ hpc | flushDirect hpc
  | lock hpc | returned hpc | handleEnded hpc => exact hstill hpc nofun nofun hne _
  | perform | performFlush => exact ⟨i, .inl ⟨_, _, Function.update_self ..⟩⟩
  | write hpc => exact ⟨i, .inl ⟨_, _, hpc⟩⟩
  | unlock hpc hdone | writerEnded hpc hdone => exact absurd hdone hne
  | endWriter => exact ⟨i, .inr (Function.update_self ..)⟩
  | writeEnding hpc => exact ⟨i, .inr hpc⟩

end Control

/-! ## What becomes of the calls -/

/-- The bytes of a call on the `MutexWriter`. -/
def Request.bytes : Request α → List α
  | writeMany pieces => pieces.flatten
  | flush => []

/-- The calls on the `MutexWriter` that a thread has yet to perform. -/
def WriterPc.todo : WriterPc α → List (Request α)
  | idle | ending => []
  | calling _ todo | writing _ todo => todo
  | locked _ request todo => request :: todo

/-- The name under which a thread in a member function writes. -/
def Job.line (names : ℕ → ℕ) (i : ι) : Job → Caller ι
  | direct => .direct i
  | handle h | endHandle h => .handle (names h)

/-- Each call on the `MutexWriter` has the bytes of one group of calls. -/
def Carried (todo : List (Request α)) (groups : List (List (Caller ι × List α))) : Prop :=
  List.Forall₂ (fun request group => request.bytes = group.flatMap Prod.snd) todo groups

theorem carried_requests {passed : List (Pieces α)} {groups : List (List (Caller ι × List α))}
    (h : BufferedWriter.Carries Prod.snd passed groups) : Carried (requests passed) groups := by
  unfold requests
  rw [Carried, List.forall₂_map_left_iff]
  exact h

/-- The bytes of every call are where the `Transit` says. -/
structure CallsInv [DecidableEq ι] (H : History ι α) (l : Transit (Caller ι) (Caller ι × List α))
    (s : WriterState ι α) : Prop where
  balanced : l.Balanced Prod.fst H.calls
  output : s.output ++ s.unwritten ++ s.shared.buffered = l.placed.flatMap Prod.snd
  handles : ∀ h b, s.handles h = some b → b.Holds Prod.snd (l.held (.handle (H.names h)))
  held : ∀ x, l.held x ≠ [] → ∃ h, x = .handle (H.names h) ∧ s.handles h ≠ none
  carried : ∀ i job, s.jobs i = some job → Carried (s.pcs i).todo (l.waiting (job.line H.names i))
  waiting : ∀ x, l.waiting x ≠ [] → ∃ i job, s.jobs i = some job ∧ job.line H.names i = x

section Calls

variable [DecidableEq ι] {hasConcat : Bool} {i : ι} {s s' : WriterState ι α} {e : WriterEvent ι α}
variable {H H' : History ι α} {l l' : Transit (Caller ι) (Caller ι × List α)}

omit [DecidableEq ι] in
theorem uses_of_job {j : ι} {job : Job} (h : s.jobs j = some job) : (s.pcs j).uses = job.uses :=
  congrArg (Option.bind · Job.uses) h

omit [DecidableEq ι] in
/-- Nobody else writes under the name of a `Handle` that thread `i` uses, or could. -/
theorem HandleInv.handle_line_ne (h : HandleInv H.names s) {k : ℕ} {j : ι}
    (hfree : (s.pcs j).uses ≠ some k) {job : Job} (hj : s.jobs j = some job) :
    job.line H.names j ≠ .handle (H.names k) := by
  have huses := uses_of_job hj
  intro hline
  cases job with
  | direct => cases hline
  | handle k' | endHandle k' =>
    have hk : k' = k := h.injective (Caller.handle.inj hline)
    rw [hk] at huses
    exact hfree huses

omit [DecidableEq ι] in
/-- Nobody else writes under the name that thread `i` writes under. -/
theorem HandleInv.line_ne (h : HandleInv H.names s) {j : ι} (hji : j ≠ i) {job job' : Job}
    (hi : s.jobs i = some job) (hj : s.jobs j = some job') :
    job'.line H.names j ≠ job.line H.names i := by
  have huses := uses_of_job hi
  cases job with
  | direct =>
    intro hline
    cases job' with
    | direct => exact hji (Caller.direct.inj hline)
    | handle k | endHandle k => cases hline
  | handle k | endHandle k =>
    apply h.handle_line_ne ?_ hj
    intro hk
    exact hji (h.apart j i k hk huses)

/-- **Frame rule**: thread `i` moves, and in the `Transit` only what is of `x`, which nobody else
    writes under, is waiting otherwise. -/
theorem CallsInv.turn (h : CallsInv H l s) {pc : WriterPc α} {x : Caller ι}
    (hnames : H'.names = H.names) (hpcs : s'.pcs = Function.update s.pcs i pc)
    (hothers : ∀ j, j ≠ i → ∀ job, s.jobs j = some job → job.line H.names j ≠ x)
    (hold : ∀ job, s.jobs i = some job → job.line H.names i = x)
    (hsame : ∀ y, y ≠ x → l'.waiting y = l.waiting y)
    (hnew : ∀ job, pc.job = some job → job.line H.names i = x ∧ Carried pc.todo (l'.waiting x))
    (hidle : pc.job = none → l'.waiting x = [])
    (hbalanced : l'.Balanced Prod.fst H'.calls)
    (houtput : s'.output ++ s'.unwritten ++ s'.shared.buffered = l'.placed.flatMap Prod.snd)
    (hhandles : ∀ k b, s'.handles k = some b → b.Holds Prod.snd (l'.held (.handle (H.names k))))
    (hheld : ∀ y, l'.held y ≠ [] → ∃ k, y = .handle (H.names k) ∧ s'.handles k ≠ none) :
    CallsInv H' l' s' := by
  have hself : s'.jobs i = pc.job := by rw [WriterState.jobs, hpcs, Function.update_self]
  have hjobs {j : ι} (hji : j ≠ i) : s'.jobs j = s.jobs j := by
    rw [WriterState.jobs, WriterState.jobs, hpcs, Function.update_of_ne hji]
  refine ⟨hbalanced, houtput, hnames ▸ hhandles, hnames ▸ hheld, ?_, ?_⟩
  · intro j job hj
    rw [hnames]
    by_cases hji : j = i
    · subst hji
      obtain ⟨hline, hcarried⟩ := hnew job (hself ▸ hj)
      rw [hline, hpcs, Function.update_self]
      exact hcarried
    · rw [hjobs hji] at hj
      rw [hsame _ (hothers j hji job hj), hpcs, Function.update_of_ne hji]
      exact h.carried j job hj
  -- What is waiting otherwise is with the thread it was with.
  · intro y hy
    rw [hnames]
    by_cases hyx : y = x
    · subst hyx
      cases hjob : pc.job with
      | none => exact absurd (hidle hjob) hy
      | some job => exact ⟨i, job, hself.trans hjob, (hnew job hjob).1⟩
    · rw [hsame y hyx] at hy
      obtain ⟨j, job, hj, hline⟩ := h.waiting y hy
      have hji : j ≠ i := by
        rintro rfl
        exact hyx (hline.symm.trans (hold job hj))
      exact ⟨j, job, (hjobs hji).trans hj, hline⟩

/-- What is in the buffers of the `Handle`s when one of them changes. -/
theorem CallsInv.setHandle (h : CallsInv H l s) (hinv : HandleInv H.names s) {k : ℕ}
    {b : BufferedWriter α} {held : List (Caller ι × List α)} (hb : b.Holds Prod.snd held) :
    (∀ k' b', Function.update s.handles k (some b) k' = some b' →
        b'.Holds Prod.snd (Function.update l.held (.handle (H.names k)) held (.handle (H.names k')))) ∧
      ∀ y, Function.update l.held (.handle (H.names k)) held y ≠ [] →
        ∃ k', y = .handle (H.names k') ∧ Function.update s.handles k (some b) k' ≠ none := by
  constructor
  · intro k' b' hb'
    by_cases hk : k' = k
    · subst hk
      rw [Function.update_self] at hb' ⊢
      obtain rfl := Option.some.inj hb'
      exact hb
    · have hne : Caller.handle (H.names k') ≠ (Caller.handle (H.names k) : Caller ι) :=
        fun heq => hk (hinv.injective (Caller.handle.inj heq))
      rw [Function.update_of_ne hk] at hb'
      rw [Function.update_of_ne hne]
      exact h.handles k' b' hb'
  · intro y hy
    by_cases hyk : y = .handle (H.names k)
    · exact ⟨k, hyk, by simp⟩
    · rw [Function.update_of_ne hyk] at hy
      obtain ⟨k', hk', hsome⟩ := h.held y hy
      refine ⟨k', hk', ?_⟩
      rw [Function.update_of_ne]
      · exact hsome
      · rintro rfl
        exact hyk hk'

/-- Nothing waits under a name that no thread writes under. -/
theorem CallsInv.waiting_eq_nil (h : CallsInv H l s) {x : Caller ι}
    (hx : ∀ j job, s.jobs j = some job → job.line H.names j ≠ x) : l.waiting x = [] := by
  by_contra hne
  obtain ⟨j, job, hj, hline⟩ := h.waiting x hne
  exact hx j job hj hline

/-- A thread begins with a member function of a `Handle`, which passes on some of what is held. -/
theorem CallsInv.begin (h : CallsInv H l s) (hinv : HandleInv H.names s) {k : ℕ}
    {b b' : BufferedWriter α} {job : Job} {passed : List (Pieces α)}
    {groups : List (List (Caller ι × List α))} {held : List (Caller ι × List α)}
    (new : List (Caller ι × List α)) (hpc : s.pcs i = .idle) (hfree : s.Free k b) (hjob : job.line H.names i = .handle (H.names k))
    (hnames : H'.names = H.names) (hcalls : H'.calls = H.calls ++ new)
    (hnew : ∀ c ∈ new, c.1 = .handle (H.names k)) (hpassed : b'.Holds Prod.snd held)
    (hcarries : BufferedWriter.Carries Prod.snd passed groups)
    (heq : groups.flatten ++ held = l.held (.handle (H.names k)) ++ new) :
    CallsInv H' (l.regroup (.handle (H.names k)) groups held)
      ((s.setHandle k b').setPc i (.calling job (requests passed))) := by
  have hothers (j : ι) (job : Job) (hj : s.jobs j = some job) :
      job.line H.names j ≠ .handle (H.names k) := hinv.handle_line_ne (hfree.2 j) hj
  obtain ⟨hhandles, hheld⟩ := h.setHandle hinv hpassed
  refine h.turn hnames rfl (fun j _ => hothers j) ?_ ?_ ?_ (by nofun) ?_ h.output hhandles hheld
  · intro job hj
    rw [WriterState.jobs, hpc] at hj
    cases hj
  · exact fun y hy => l.waiting_regroup_of_ne hy ..
  · intro job' hjob'
    obtain rfl := Option.some.inj hjob'
    refine ⟨hjob, ?_⟩
    rw [Transit.waiting_regroup]
    exact carried_requests hcarries
  · rw [hcalls]
    apply h.balanced.regroup hnew
    rw [h.waiting_eq_nil hothers]
    exact heq

/-- A call on the shared buffer is performed. -/
theorem CallsInv.perform (h : CallsInv H l s) (hinv : HandleInv H.names s) (hlock : LockInv s)
    {job : Job} {request : Request α} {todo : List (Request α)} {b : BufferedWriter α}
    {given : List α} (hpc : s.pcs i = .locked job request todo)
    (hgiven : given ++ b.buffered = s.shared.buffered ++ request.bytes) :
    ∃ l', CallsInv H l'
      ({ s with shared := b, unwritten := given }.setPc i (.writing job todo)) := by
  have hjob : s.jobs i = some job := by rw [WriterState.jobs, hpc]; rfl
  have hcarried := h.carried i job hjob
  rw [hpc] at hcarried
  -- nobody else is at the writer behind the shared buffer
  have hunwritten : s.unwritten = [] := by
    by_contra hne
    obtain ⟨j, ⟨job', todo', hj⟩ | hj⟩ := hlock.unwritten hne
    · have hi := hlock.mutex i (by rw [hpc]; rfl)
      rw [hlock.mutex j (by rw [hj]; rfl)] at hi
      obtain rfl := Option.some.inj hi
      rw [hpc] at hj
      cases hj
    · have hnone := (hlock.destroyed (hlock.ending j hj)).2.2 i
      rw [hjob] at hnone
      cases hnone
  generalize hgroups : l.waiting (job.line H.names i) = groups at hcarried
  cases hcarried with
  | @cons _ group _ groups hgroup hrest =>
    refine ⟨l.place (job.line H.names i) group groups, ?_⟩
    refine h.turn rfl rfl (fun j hji job' hj => hinv.line_ne hji hjob hj) ?_ ?_ ?_ (by nofun)
      (h.balanced.place hgroups) ?_ h.handles h.held
    · intro job' hjob'
      rw [hjob] at hjob'
      cases hjob'
      rfl
    · exact fun y hy => l.waiting_place_of_ne hy ..
    · intro job' hjob'
      cases hjob'
      refine ⟨rfl, ?_⟩
      rw [Transit.waiting_place]
      exact hrest
    · have houtput := h.output
      rw [hunwritten, List.append_nil] at houtput
      calc s.output ++ given ++ b.buffered
          = s.output ++ s.shared.buffered ++ request.bytes := by
            rw [List.append_assoc, hgiven, List.append_assoc]
        _ = (l.placed ++ group).flatMap Prod.snd := by
            rw [houtput, hgroup, List.flatMap_append]

/-- A thread that leaves its member function has passed on all that it was to. -/
theorem CallsInv.waiting_of_calling_nil (h : CallsInv H l s) {job : Job}
    (hpc : s.pcs i = .calling job []) : l.waiting (job.line H.names i) = [] := by
  have hcarried := h.carried i job (by rw [WriterState.jobs, hpc]; rfl)
  rw [hpc] at hcarried
  exact List.forall₂_nil_left_iff.mp hcarried

/-- A thread moves on within its member function. -/
theorem CallsInv.goOn (h : CallsInv H l s) {pc : WriterPc α} (hpcs : s'.pcs = Function.update s.pcs i pc)
    (hjob : pc.job = (s.pcs i).job) (htodo : pc.todo = (s.pcs i).todo)
    (hhandles : s'.handles = s.handles)
    (houtput : s'.output ++ s'.unwritten ++ s'.shared.buffered =
      s.output ++ s.unwritten ++ s.shared.buffered) : CallsInv H l s' := by
  have hjobs : s'.jobs = s.jobs := by
    funext j
    by_cases hji : j = i
    · rw [hji, WriterState.jobs, hpcs, Function.update_self, hjob]
      rfl
    · rw [WriterState.jobs, hpcs, Function.update_of_ne hji]
      rfl
  refine ⟨h.balanced, houtput.trans h.output, hhandles ▸ h.handles, hhandles ▸ h.held, ?_,
    hjobs ▸ h.waiting⟩
  intro j job hj
  rw [hjobs] at hj
  have hcarried := h.carried j job hj
  by_cases hji : j = i
  · subst hji
    rwa [hpcs, Function.update_self, htodo]
  · rwa [hpcs, Function.update_of_ne hji]

/-- A new `Handle` begins with nothing, under a name of its own. -/
theorem CallsInv.held_made (h : CallsInv H l s) (hinv : HandleInv H.names s) :
    l.held (.handle (H.names s.made)) = [] := by
  by_contra hne
  obtain ⟨k, hk, hsome⟩ := h.held _ hne
  obtain rfl : s.made = k := hinv.injective (Caller.handle.inj hk)
  exact hsome (hinv.fresh _ le_rfl).2
/-- Nothing is held back of what is written directly. -/
theorem CallsInv.held_direct (h : CallsInv H l s) : l.held (.direct i) = [] := by
  by_contra hne
  obtain ⟨k, hk, -⟩ := h.held _ hne
  cases hk

/-- A thread begins with a member function of the `ConcurrentWriter`. -/
theorem CallsInv.beginDirect (h : CallsInv H l s) {request : Request α}
    (new : List (Caller ι × List α)) (hpc : s.pcs i = .idle)
    (hnames : H'.names = H.names) (hcalls : H'.calls = H.calls ++ new)
    (hnew : ∀ c ∈ new, c.1 = .direct i) (hbytes : request.bytes = new.flatMap Prod.snd) :
    CallsInv H' (l.regroup (.direct i) [new] []) (s.setPc i (.calling .direct [request])) := by
  have hothers (j : ι) (hji : j ≠ i) (job : Job) : job.line H.names j ≠ .direct i := by
    intro hline
    cases job with
    | direct => exact hji (Caller.direct.inj hline)
    | handle k | endHandle k => cases hline
  have hnone (job : Job) : s.jobs i ≠ some job := by
    rw [WriterState.jobs, hpc]
    intro hjob
    cases hjob
  -- Thread `i` has no other call, and only it writes under this name.
  have hwaiting : l.waiting (.direct i) = [] := by
    apply h.waiting_eq_nil
    intro j job hj
    by_cases hji : j = i
    · rw [hji] at hj
      exact absurd hj (hnone job)
    · exact hothers j hji job
  have hheld : (l.regroup (.direct i) [new] []).held = l.held := by
    rw [Transit.regroup, ← h.held_direct (i := i), Function.update_eq_self]
  refine h.turn hnames rfl (fun j hji job _ => hothers j hji job) ?_ ?_ ?_ ?_ ?_ h.output ?_ ?_
  · exact fun job hj => absurd hj (hnone job)
  · exact fun y hy => l.waiting_regroup_of_ne hy ..
  · intro job hjob
    obtain rfl := Option.some.inj hjob
    refine ⟨rfl, ?_⟩
    rw [Transit.waiting_regroup]
    exact .cons hbytes .nil
  · intro hjob
    cases hjob
  · rw [hcalls]
    apply h.balanced.regroup hnew
    rw [hwaiting, h.held_direct]
    simp
  · rw [hheld]
    exact h.handles
  · rw [hheld]
    exact h.held

/-- A `Handle` is gone, with nothing left in its buffer. -/
theorem CallsInv.handleEnded (h : CallsInv H l s) (hinv : HandleInv H.names s) {k : ℕ}
    (hpc : s.pcs i = .calling (.endHandle k) []) : ∃ l', CallsInv H l'
      ({ s with handles := Function.update s.handles k none }.setPc i .idle) := by
  have hjob : s.jobs i = some (.endHandle k) := by rw [WriterState.jobs, hpc]; rfl
  have hwaiting : l.waiting (.handle (H.names k)) = [] := h.waiting_of_calling_nil hpc
  -- what is still held has no bytes, so it may be placed here
  have hbytes : (l.held (.handle (H.names k))).flatMap Prod.snd = [] := by
    cases hk : s.handles k with
    | none => exact absurd hk (hinv.used i k (uses_of_job hjob))
    | some b => rw [← hinv.flushed i k b hjob hk, h.handles k b hk]
  generalize hheld : l.held (.handle (H.names k)) = held at hbytes
  have hbalanced : ((l.regroup (.handle (H.names k)) [held] []).place (.handle (H.names k)) held
      []).Balanced Prod.fst H.calls := by
    refine Transit.Balanced.place ?_ (l.waiting_regroup ..)
    rw [← List.append_nil H.calls]
    apply h.balanced.regroup (by nofun)
    rw [hwaiting, hheld]
    simp
  refine ⟨_, h.turn rfl rfl (fun j hji job hj => hinv.line_ne hji hjob hj) ?_ ?_ (by nofun) ?_
    hbalanced ?_ ?_ ?_⟩
  · intro job hj
    rw [hjob] at hj
    cases hj
    rfl
  · intro y hy
    exact (Transit.waiting_place_of_ne _ hy ..).trans (l.waiting_regroup_of_ne hy ..)
  · exact fun _ => Transit.waiting_place ..
  · rw [Transit.place, List.flatMap_append, hbytes, List.append_nil]
    exact h.output
  · intro k' b hb
    by_cases hk : k' = k
    · subst hk
      simp [setPc] at hb
    · have hne : Caller.handle (H.names k') ≠ (Caller.handle (H.names k) : Caller ι) :=
        fun heq => hk (hinv.injective (Caller.handle.inj heq))
      simp only [setPc, Function.update_of_ne hk] at hb
      simp only [Transit.place, Transit.regroup, Function.update_of_ne hne]
      exact h.handles k' b hb
  · intro y hy
    by_cases hyk : y = .handle (H.names k)
    · subst hyk
      simp [Transit.place, Transit.regroup] at hy
    · simp only [Transit.place, Transit.regroup, Function.update_of_ne hyk] at hy
      obtain ⟨k', hk', hsome⟩ := h.held y hy
      refine ⟨k', hk', ?_⟩
      have hne : k' ≠ k := by
        rintro rfl
        exact hyk hk'
      simpa only [setPc, Function.update_of_ne hne] using hsome

/-- A `Handle` is moved from: its calls go on under the new object, which takes its name. -/
theorem CallsInv.move (h : CallsInv H l s) (hinv : HandleInv H.names s) {k : ℕ}
    {b : BufferedWriter α} (hfree : s.Free k b) :
    CallsInv (H.next (.moved k s.made)) l
      { (s.setHandle k b.move.2).setHandle s.made b.move.1 with made := s.made + 1 } := by
  have hnone : s.handles s.made = none := (hinv.fresh _ le_rfl).2
  have hsame {k' : ℕ} (h1 : k' ≠ k) (h2 : k' ≠ s.made) :
      H.names (Equiv.swap k s.made k') = H.names k' := by
    rw [Equiv.swap_apply_of_ne_of_ne h1 h2]
  -- a thread in a member function is in one of another object
  have hline {j : ι} {job : Job} (hj : s.jobs j = some job) :
      job.line (fun k' => H.names (Equiv.swap k s.made k')) j = job.line H.names j := by
    have huses := uses_of_job hj
    cases job with
    | direct => rfl
    | handle k' | endHandle k' =>
      refine congrArg Caller.handle (hsame ?_ ?_)
      · rintro rfl
        exact hfree.2 j huses
      · rintro rfl
        exact hinv.used j _ huses hnone
  refine ⟨h.balanced, h.output, ?_, ?_, ?_, ?_⟩
  · intro k' b' hb'
    simp only [History.next, setHandle_handles] at hb' ⊢
    by_cases h2 : k' = s.made
    · subst h2
      rw [Function.update_self] at hb'
      obtain rfl := Option.some.inj hb'
      rw [Equiv.swap_apply_right]
      exact h.handles k _ hfree.1
    · rw [Function.update_of_ne h2] at hb'
      by_cases h1 : k' = k
      · subst h1
        rw [Function.update_self] at hb'
        obtain rfl := Option.some.inj hb'
        rw [Equiv.swap_apply_left, h.held_made hinv]
        rfl
      · rw [Function.update_of_ne h1] at hb'
        rw [hsame h1 h2]
        exact h.handles k' b' hb'
  · intro y hy
    obtain ⟨k', rfl, hsome⟩ := h.held y hy
    have h2 : k' ≠ s.made := by
      rintro rfl
      exact hsome hnone
    simp only [History.next, setHandle_handles]
    by_cases h1 : k' = k
    · subst h1
      refine ⟨s.made, ?_, by simp⟩
      rw [Equiv.swap_apply_right]
    · refine ⟨k', by rw [hsame h1 h2], ?_⟩
      rw [Function.update_of_ne h2, Function.update_of_ne h1]
      exact hsome
  · intro j job hj
    change Carried _ (l.waiting (job.line (fun k' => H.names (Equiv.swap k s.made k')) j))
    rw [hline hj]
    exact h.carried j job hj
  · intro y hy
    obtain ⟨j, job, hj, rfl⟩ := h.waiting y hy
    exact ⟨j, job, hj, hline hj⟩

/-- **Step lemma**: every step keeps the bytes of every call where some `Transit` says. -/
theorem CallsInv.step (h : CallsInv H l s) (hinv : HandleInv H.names s) (hlock : LockInv s)
    (hs : WriterStep hasConcat i s e s') : ∃ l', CallsInv (H.next e) l' s' := by
  have hholds {k : ℕ} {b : BufferedWriter α} (hfree : s.Free k b) :=
    h.handles k b hfree.1
  cases hs with
  | makeHandle hpc hopen | copyHandle hpc hh =>
    -- A new handle holds nothing, whether it is made or copied.
    have hempty : (BufferedWriter.empty s.capacity.handle).Holds Prod.snd
        ([] : List (Caller ι × List α)) := rfl
    obtain ⟨hhandles, hheld⟩ := h.setHandle hinv (k := s.made) hempty
    have hsame : Function.update l.held (.handle (H.names s.made)) [] = l.held := by
      rw [← h.held_made hinv, Function.update_eq_self]
    rw [hsame] at hhandles hheld
    exact ⟨l, h.balanced, h.output, hhandles, hheld, h.carried, h.waiting⟩
  | moveHandle hpc hfree => exact ⟨l, h.move hinv hfree⟩
  | @writeHandle k b pieces hpc hfree =>
    -- The handle passes groups of calls on and holds the rest, the new call being the last.
    obtain ⟨groups, held, hcarries, hpassed, heq⟩ := BufferedWriter.writeMany_spec hasConcat
      (c := (Caller.handle (H.names k), pieces.flatten)) (hholds hfree) rfl
    refine ⟨_, h.begin hinv _ hpc hfree rfl rfl rfl ?_ hpassed hcarries heq⟩
    intro c hc
    rw [List.mem_singleton.mp hc]
    rfl
  | flushHandle hpc hfree | endHandle hpc hfree =>
    obtain ⟨groups, held, hcarries, hpassed, heq⟩ := BufferedWriter.flush_spec (hholds hfree)
    refine ⟨_, h.begin hinv [] hpc hfree rfl rfl (List.append_nil _).symm (by nofun) hpassed
      hcarries ?_⟩
    rw [List.append_nil]
    exact heq
  | writeDirect pieces hpc hopen =>
    refine ⟨_, h.beginDirect [(.direct i, pieces.flatten)] hpc rfl rfl ?_ ?_⟩
    · intro c hc
      rw [List.mem_singleton.mp hc]
    · rw [List.flatMap_singleton]
      rfl
  | flushDirect hpc hopen =>
    exact ⟨_, h.beginDirect [] hpc rfl (List.append_nil _).symm (by nofun) rfl⟩
  | lock hpc hfree | unlock hpc hdone =>
    exact ⟨l, h.goOn rfl (by rw [hpc]; rfl) (by rw [hpc]; rfl) rfl rfl⟩
  | perform hpc => exact h.perform hinv hlock hpc (BufferedWriter.writeMany_bytes ..)
  | performFlush hpc =>
    refine h.perform hinv hlock hpc ?_
    exact (BufferedWriter.flush_bytes _).trans (List.append_nil _).symm
  | write hpc hrest | writeEnding hpc hrest =>
    -- Bytes go from the unwritten to the output.
    refine ⟨l, h.balanced, ?_, h.handles, h.held, h.carried, h.waiting⟩
    rw [← h.output, hrest]
    simp only [List.append_assoc]
  | @returned job hpc hne =>
    have hjob : s.jobs i = some job := by rw [WriterState.jobs, hpc]; rfl
    refine ⟨l, h.turn rfl rfl (fun j hji job' hj => hinv.line_ne hji hjob hj) ?_ (fun _ _ => rfl) ?_
      (fun _ => h.waiting_of_calling_nil hpc) h.balanced h.output h.handles h.held⟩
    · intro job' hjob'
      rw [hjob] at hjob'
      cases hjob'
      rfl
    · nofun
  | @handleEnded k hpc =>
    exact h.handleEnded hinv hpc
  | endWriter hidle hhandles hopen =>
    -- Nothing is unwritten when no call is under way.
    have hunwritten : s.unwritten = [] := by
      by_contra hne
      obtain ⟨j, ⟨job, todo, hj⟩ | hj⟩ := hlock.unwritten hne
      · rw [hidle] at hj
        cases hj
      · rw [hidle] at hj
        cases hj
    refine ⟨l, h.goOn rfl (by rw [hidle]; rfl) (by rw [hidle]; rfl) rfl ?_⟩
    rw [hunwritten, List.append_nil]
    exact (List.append_assoc ..).trans (congrArg _ (BufferedWriter.flush_bytes _))
  | writerEnded hpc hdone => exact ⟨l, h.goOn rfl (by rw [hpc]; rfl) (by rw [hpc]; rfl) rfl rfl⟩

theorem callsInv_initial (capacity : Capacity) :
    CallsInv ⟨id, []⟩ .empty (initial ι α capacity) where
  balanced := Transit.balanced_empty
  output := rfl
  handles _ _ h := by cases h
  held _ h := absurd rfl h
  carried _ _ h := by cases h
  waiting _ h := absurd rfl h

/-- **Run lemma**. -/
theorem callsInv_of_run {capacity : Capacity} {tr : List (WriterEvent ι α)}
    (h : (writerSystem ι α hasConcat capacity).Run tr s) :
    HandleInv (historyOf tr).names s ∧ LockInv s ∧ ∃ l, CallsInv (historyOf tr) l s := by
  refine h.invariant (I := fun tr s => HandleInv (historyOf tr).names s ∧ LockInv s ∧
    ∃ l, CallsInv (historyOf tr) l s) ?_ ?_
  · rintro s rfl
    exact ⟨handleInv_initial capacity, lockInv_initial capacity, _, callsInv_initial capacity⟩
  · rintro tr s e s' - ⟨hinv, hlock, l, h⟩ ⟨i, hs⟩
    rw [historyOf_snoc]
    exact ⟨hinv.step hs, hlock.step hs, h.step hinv hlock hs⟩

/-- **Calls stay whole and in order.**  Once all `Handle`s and then the `ConcurrentWriter` are
    destroyed, the output is a concatenation of the bytes of the calls, each once, those of one
    `Handle` or made directly by one thread in the order in which they were made. -/
theorem calls_whole {capacity : Capacity} {tr : List (WriterEvent ι α)}
    (h : (writerSystem ι α hasConcat capacity).Run tr s) (hfinished : s.Finished) :
    ∃ order, IsMerge Prod.fst order (historyOf tr).calls ∧ s.output = order.flatMap Prod.snd := by
  obtain ⟨-, hlock, l, hcalls⟩ := callsInv_of_run h
  obtain ⟨hdestroyed, hidle⟩ := hfinished
  obtain ⟨hshared, hhandles, hjobs⟩ := hlock.destroyed hdestroyed
  have hunwritten : s.unwritten = [] := by
    by_contra hne
    obtain ⟨i, ⟨job, todo, hi⟩ | hi⟩ := hlock.unwritten hne
    · rw [hidle] at hi
      cases hi
    · rw [hidle] at hi
      cases hi
  have hwaiting (x : Caller ι) : l.waiting x = [] := by
    apply hcalls.waiting_eq_nil
    intro j job hj
    rw [hjobs] at hj
    cases hj
  have hheld (x : Caller ι) : l.held x = [] := by
    by_contra hne
    obtain ⟨k, -, hsome⟩ := hcalls.held x hne
    exact hsome (hhandles k)
  refine ⟨l.placed, hcalls.balanced.isMerge hwaiting hheld, ?_⟩
  rw [← hcalls.output, hunwritten, hshared, List.append_nil, List.append_nil]

end Calls

/-- A `Handle` with nobody in it. -/
theorem free_of_idle {s : WriterState Unit α} {h : ℕ} {b : BufferedWriter α}
    (hpc : s.pcs () = .idle) (hb : s.handles h = some b) : s.Free h b := by
  refine ⟨hb, fun i => ?_⟩
  rw [show s.pcs i = .idle from hpc]
  nofun

/-- Two `Handle`s have been made, and both have ended. -/
theorem all_ended {s : WriterState Unit α} (h₀ : s.handles 0 = none) (h₁ : s.handles 1 = none)
    (hrest : ∀ h, s.handles (h + 2) = none) : ∀ h, s.handles h = none := by
  intro h
  rcases h with _ | _ | h
  · exact h₀
  · exact h₁
  · exact hrest h

/-- A `Handle` is moved between its two calls, which are together in the output, after a call made
    directly that was made last. -/
theorem calls_whole_moved : ∃ (tr : List (WriterEvent Unit ℕ)) (s : WriterState Unit ℕ),
    (historyOf tr).calls = [(.handle 0, [1]), (.handle 0, [2]), (.direct (), [3])] ∧
      s.output = [3, 1, 2] ∧
      ∃ order, IsMerge Prod.fst order (historyOf tr).calls ∧ s.output = order.flatMap Prod.snd := by
  have hstart : (writerSystem Unit ℕ true ⟨8, 8⟩).Run [] (.initial Unit ℕ ⟨8, 8⟩) := .start rfl
  have hheld := ((hstart.next ⟨(), .makeHandle rfl rfl⟩).next ⟨(), .writeHandle (h := 0)
    (b := .empty 8) [[1]] rfl (free_of_idle rfl rfl)⟩).next ⟨(), .returned rfl nofun⟩
  have hmoved := hheld.next ⟨(), .moveHandle (h := 0) rfl (free_of_idle rfl rfl)⟩
  have hboth := (hmoved.next ⟨(), .writeHandle (h := 1) (b := ⟨8, [1], by decide⟩) [[2]] rfl
    (free_of_idle rfl rfl)⟩).next ⟨(), .returned rfl nofun⟩
  -- the call made directly
  have hcalled := hboth.next ⟨(), .writeDirect [[3]] rfl rfl⟩
  have hpassed := (((hcalled.next ⟨(), .lock rfl rfl⟩).next ⟨(), .perform rfl⟩).next
    ⟨(), .unlock rfl rfl⟩).next ⟨(), .returned rfl nofun⟩
  -- the destructors of the object that was moved from, and of the one that it was moved to
  have hended := (hpassed.next ⟨(), .endHandle (h := 0) (b := .empty 0) rfl
    (free_of_idle rfl rfl)⟩).next ⟨(), .handleEnded rfl⟩
  have hflushed := (((hended.next ⟨(), .endHandle (h := 1) (b := ⟨8, [1, 2], by decide⟩) rfl
    (free_of_idle rfl rfl)⟩).next ⟨(), .lock rfl rfl⟩).next ⟨(), .perform rfl⟩).next
    ⟨(), .unlock rfl rfl⟩
  have hgone := hflushed.next ⟨(), .handleEnded rfl⟩
  have hdone := ((hgone.next ⟨(), .endWriter (fun _ => rfl) ?_ rfl⟩).next
    ⟨(), .writeEnding rfl (show _ = [3, 1, 2] ++ [] from rfl)⟩).next ⟨(), .writerEnded rfl rfl⟩
  · exact ⟨_, _, rfl, rfl, calls_whole hdone ⟨rfl, fun _ => rfl⟩⟩
  · exact all_ended rfl rfl fun _ => rfl

/-- A `Handle` that is moved from, and then written to again: its old object has no buffer, so
    the later call is at the shared buffer before the earlier one. -/
theorem moved_from_overtakes : ∃ (tr : List (WriterEvent Unit ℕ)) (s : WriterState Unit ℕ),
    (writerSystem Unit ℕ true ⟨8, 8⟩).Run tr s ∧ s.Finished ∧
      callsOf tr = [(.handle 0, [1]), (.handle 0, [2])] ∧
      ¬∃ order, IsMerge Prod.fst order (callsOf tr) ∧ s.output = order.flatMap Prod.snd := by
  have hstart : (writerSystem Unit ℕ true ⟨8, 8⟩).Run [] (.initial Unit ℕ ⟨8, 8⟩) := .start rfl
  have hheld := ((hstart.next ⟨(), .makeHandle rfl rfl⟩).next ⟨(), .writeHandle (h := 0)
    (b := .empty 8) [[1]] rfl (free_of_idle rfl rfl)⟩).next ⟨(), .returned rfl nofun⟩
  have hmoved := hheld.next ⟨(), .moveHandle (h := 0) rfl (free_of_idle rfl rfl)⟩
  -- the second call goes through
  have hcalled := hmoved.next ⟨(), .writeHandle (h := 0) (b := .empty 0) [[2]] rfl
    (free_of_idle rfl rfl)⟩
  have hpassed := (((hcalled.next ⟨(), .lock rfl rfl⟩).next ⟨(), .perform rfl⟩).next
    ⟨(), .unlock rfl rfl⟩).next ⟨(), .returned rfl nofun⟩
  have hended := (hpassed.next ⟨(), .endHandle (h := 0) (b := .empty 0) rfl
    (free_of_idle rfl rfl)⟩).next ⟨(), .handleEnded rfl⟩
  -- the first call comes with the destructor of the new object
  have hflushed := (((hended.next ⟨(), .endHandle (h := 1) (b := ⟨8, [1], by decide⟩) rfl
    (free_of_idle rfl rfl)⟩).next ⟨(), .lock rfl rfl⟩).next ⟨(), .perform rfl⟩).next ⟨(), .unlock rfl rfl⟩
  have hgone := hflushed.next ⟨(), .handleEnded rfl⟩
  have hdone := ((hgone.next ⟨(), .endWriter (fun _ => rfl) ?_ rfl⟩).next
    ⟨(), .writeEnding rfl (show _ = [2, 1] ++ [] from rfl)⟩).next ⟨(), .writerEnded rfl rfl⟩
  · refine ⟨_, _, hdone, ⟨rfl, fun _ => rfl⟩, rfl, ?_⟩
    rintro ⟨order, hmerge, houtput⟩
    have hperm := hmerge.perm
    have hall : order.filter (·.1 = .handle 0) = order := by
      rw [List.filter_eq_self]
      intro c hc
      rcases List.mem_pair.mp (hperm.mem_iff.mp hc) with rfl | rfl <;> rfl
    have horder : order = [(.handle 0, [1]), (.handle 0, [2])] := hall.symm.trans (hmerge (.handle 0))
    rw [horder] at houtput
    have hwritten : [2, 1] = [1, 2] := houtput
    cases hwritten
  · exact all_ended rfl rfl fun _ => rfl

end Remmy.Io
