import Remmy.Removal.Visits

/-!
# The Life of the Nodes

What the counted references are for: in every run, under all interleavings of the workers, no
thread uses a node that has been freed, a directory is removed when nothing below it is left to
do, and when `Wait` returns every node has been freed once.

- `Paired`: a worker stands in `Process` exactly when the scheduler has given it a task.
- `node_protocol` and `nodes_freed_once` collect the results.
-/

namespace Remmy.Removal

open Remmy.Lib Remmy.TaskScheduler
open Remmy.Lib.RefTree (Hold Cell)

universe u

variable {ι : Type u} [DecidableEq ι] {W P : ℕ}
variable {job : Job ι} {b b' : Bag W ℕ} {s s' : State W ι} {l : Label W ι} {w : Fin W}

/-! ## Workers and the scheduler -/

/-- The scheduler and the workers agree on who is in `Process`, and on whether `Wait` is over. -/
structure Paired (b : Bag W ℕ) (s : State W ι) : Prop where
  workers : ∀ w, b.running w = none ↔ s.workers w = .idle
  main : b.closed = true ↔ ∃ status, s.main = .returned status

omit [DecidableEq ι] in
theorem settlePc_ne_idle {r : Option Os.Errno} {path : Bytes} {code : Os.Errno → Os.Errno}
    {after : After ι} : settlePc job r path code after ≠ .idle := by
  have hafter : after.pc ≠ .idle := by cases after <;> simp [After.pc]
  cases r <;> rw [settlePc] <;> split_ifs <;> first | exact hafter | simp

omit [DecidableEq ι] in
theorem openLabel_event (i : ι) (e : Os.Errno) : (openLabel i e : Label W ι).event = none := by
  rw [openLabel]
  split_ifs <;> rfl

omit [DecidableEq ι] in
theorem removeLabel_event (i : ι) (r : Option Os.Errno) :
    (removeLabel i r : Label W ι).event = none := by
  cases r with
  | none => rfl
  | some e =>
    rw [removeLabel]
    split_ifs <;> rfl

/-- A worker enters `Process` with a task, leaves it, or goes on in it. -/
theorem WorkerStep.process (hs : WorkerStep job w s l s') :
    (∃ n, l = .scheduler (.start w n) ∧ s.workers w = .idle ∧ s'.workers w = .openNode n) ∨
      (∃ n, l = .scheduler (.finish w n) ∧ s.workers w = .done ∧ s'.workers w = .idle) ∨
      (l.event = none ∨ ∃ n, l = .scheduler (.submit n)) ∧ s.workers w ≠ .idle ∧
        s'.workers w ≠ .idle := by
  have hset : ∀ (t : State W ι) (pc : Pc ι), pc ≠ .idle → (t.setWorker w pc).workers w ≠ .idle := by
    intro t pc hpc
    rwa [State.setWorker_workers, Function.update_self]
  cases hs with
  | start hpc => exact .inl ⟨_, rfl, hpc, Function.update_self ..⟩
  | finish hpc => exact .inr (.inl ⟨_, rfl, hpc, Function.update_self ..⟩)
  | resubmit hpc | submitChild hpc =>
    exact .inr (.inr ⟨.inr ⟨_, rfl⟩, by simp [hpc], hset _ _ (by simp)⟩)
  | openReady hpc | opened hpc | parked hpc | readDone hpc | readFailed hpc | statAbsent hpc
  | statFailed hpc | exhausted hpc | childOpened hpc | childRefused hpc | makeChild hpc
  | countChild hpc | close hpc | releaseShared hpc | releaseLast hpc =>
    exact .inr (.inr ⟨.inl rfl, by simp [hpc], hset _ _ (by simp)⟩)
  | openFailed hpc | openFailedForce hpc | childFailed hpc | childFailedForce hpc =>
    exact .inr (.inr ⟨.inl (openLabel_event ..), by simp [hpc], hset _ _ (by simp)⟩)
  | forceRemove hpc | remove hpc =>
    rw [settle_eq]
    exact .inr (.inr ⟨.inl (removeLabel_event ..), by simp [hpc], hset _ _ settlePc_ne_idle⟩)
  | unlinkat hpc | forceUnlinkat hpc =>
    rw [settle_eq]
    exact .inr (.inr ⟨.inl rfl, by simp [hpc], hset _ _ settlePc_ne_idle⟩)
  | @discard n x hpc | @delete n x hpc =>
    refine .inr (.inr ⟨.inl rfl, by simp [hpc], hset _ _ ?_⟩)
    cases x.parent <;> simp [climb]
  | @readEntry n seen x c hpc =>
    refine .inr (.inr ⟨.inl rfl, by simp [hpc], hset _ _ ?_⟩)
    rw [Job.entryRead]
    split_ifs
    · cases job.tree.isDir c <;> simp [entryPc]
    · simp
  | @stat n seen x c isDir hpc =>
    refine .inr (.inr ⟨.inl rfl, by simp [hpc], hset _ _ ?_⟩)
    cases isDir <;> simp [entryPc]
  | @say o after hpc =>
    refine .inr (.inr ⟨.inl rfl, by simp [hpc], hset _ _ ?_⟩)
    cases after <;> simp [After.pc]

omit [DecidableEq ι] in
/-- What is no start and no end of a `Process` only adds to the tasks that wait. -/
theorem Label.Handed.running (hb : l.Handed b b')
    (h : l.event = none ∨ ∃ n, l = .scheduler (.submit n)) :
    b'.running = b.running ∧ b'.closed = b.closed := by
  rcases h with h | ⟨n, rfl⟩
  · rw [Label.Handed, h] at hb
    rw [hb]
    exact ⟨rfl, rfl⟩
  · cases hb
    exact ⟨rfl, rfl⟩

theorem WorkerStep.paired (h : Paired b s) (hs : WorkerStep job w s l s') (hb : l.Handed b b') :
    Paired b' s' := by
  have hworkers := hs.workers_eq
  refine ⟨fun k => ?_, ?_⟩
  · have hk := h.workers k
    by_cases hkw : k = w
    · subst hkw
      rcases hs.process with ⟨n, rfl, -, hnew⟩ | ⟨n, rfl, -, hnew⟩ | ⟨hl, hold, hnew⟩
      · cases hb
        simp [hnew]
      · cases hb
        simp [hnew]
      · rw [(hb.running hl).1, hk]
        exact iff_of_false hold hnew
    · rw [hworkers, Function.update_of_ne hkw, ← hk]
      rcases hs.process with ⟨n, rfl, -, -⟩ | ⟨n, rfl, -, -⟩ | ⟨hl, -, -⟩
      · cases hb
        simp [Function.update_of_ne hkw]
      · cases hb
        simp [Function.update_of_ne hkw]
      · rw [(hb.running hl).1]
  · rw [hs.main_eq, ← h.main]
    rcases hs.process with ⟨n, rfl, -, -⟩ | ⟨n, rfl, -, -⟩ | ⟨hl, -, -⟩
    · cases hb
      rfl
    · cases hb
      rfl
    · rw [(hb.running hl).2]

/-- The main thread returns from `Wait`, or goes on in the operand loop. -/
theorem MainStep.process (hs : MainStep job s l s') :
    (l = .scheduler .sawZero ∧ s.main = .lstat [] ∧ ∃ status, s'.main = .returned status) ∨
      (l.event = none ∨ ∃ n, l = .scheduler (.submit n)) ∧ (∀ status, s.main ≠ .returned status) ∧
        ∀ status, s'.main ≠ .returned status := by
  cases hs with
  | wait hpc => exact .inl ⟨rfl, hpc, _, rfl⟩
  | submit hpc =>
    exact .inr ⟨.inr ⟨_, rfl⟩, by simp [hpc], by simp [State.setMain]⟩
  | confirmed hpc | declined hpc | isFile hpc | opened hpc | seed hpc | say hpc =>
    exact .inr ⟨.inl rfl, by simp [hpc], by simp [State.setMain]⟩
  | lstatFailed hpc | isDir hpc =>
    refine .inr ⟨.inl rfl, by simp [hpc], ?_⟩
    split_ifs <;> simp [State.setMain]
  | openFailed hpc =>
    refine .inr ⟨.inl (openLabel_event ..), by simp [hpc], ?_⟩
    split_ifs <;> simp [State.setMain]
  | @unlink text i rest r hpc | @rmdir text i rest r hpc | @forceRmdir text i e rest r hpc =>
    refine .inr ⟨.inl rfl, by simp [hpc], ?_⟩
    cases r <;> rw [settleMain] <;> split_ifs <;> simp [State.setMain]

theorem MainStep.paired (h : Paired b s) (hs : MainStep job s l s') (hb : l.Handed b b') :
    Paired b' s' := by
  refine ⟨fun k => ?_, ?_⟩
  · rw [hs.workers_eq, ← h.workers k]
    rcases hs.process with ⟨rfl, -, -⟩ | ⟨hl, -, -⟩
    · cases hb
      rfl
    · rw [(hb.running hl).1]
  · rcases hs.process with ⟨rfl, -, hnew⟩ | ⟨hl, hold, hnew⟩
    · cases hb
      exact iff_of_true rfl hnew
    · rw [(hb.running hl).2, h.main]
      exact iff_of_false (fun hret => hold _ hret.choose_spec) fun hret => hnew _ hret.choose_spec

theorem paired_of_run [Fintype ι] {tr : List (Label W ι)} {p : Bag W ℕ × State W ι}
    (h : (bagRemoval job W).Run tr p) : Paired p.1 p.2 := by
  refine bagRemoval_invariant (I := Paired) ?_ ?_ ?_ h
  · exact ⟨fun w => iff_of_true rfl rfl, by simp [State.initial]⟩
  · exact fun b s l b' s' w hI hs hb => hs.paired hI hb
  · exact fun b s l b' s' hI hs hb => hs.paired hI hb

/-- When `Wait` has returned, no task waits and no worker is in `Process`. -/
theorem idle_of_returned [Fintype ι] {tr : List (Label W ι)} {p : Bag W ℕ × State W ι}
    (h : (bagRemoval job W).Run tr p) {status : ℕ} (hmain : p.2.main = .returned status) :
    p.1.waiting = 0 ∧ ∀ w, p.2.workers w = .idle := by
  have hpaired := paired_of_run h
  have hbag := (bag_accounted h.left).closed (hpaired.main.mpr ⟨status, hmain⟩)
  exact ⟨hbag.1, fun w => (hpaired.workers w).mp (hbag.2 w)⟩

/-- When `Wait` has returned, nothing is held. -/
theorem held_of_returned [Fintype ι] {tr : List (Label W ι)} {p : Bag W ℕ × State W ι}
    (h : (bagRemoval job W).Run tr p) {status : ℕ} (hmain : p.2.main = .returned status) :
    held p.1 p.2 = 0 := by
  obtain ⟨hwait, hworkers⟩ := idle_of_returned h hmain
  have hidle : ∀ w, (p.2.workers w).hold = 0 := by
    intro w
    rw [hworkers w]
    rfl
  rw [held, outside, waitingHold, hwait, hmain, Finset.sum_eq_zero fun w _ => hidle w]
  rfl

/-- An idle worker does nothing when no task waits. -/
theorem WorkerStep.not_rest (hwait : b.waiting = 0) (hidle : s.workers w = .idle)
    (hs : WorkerStep job w s l s') (hb : l.Handed b b') : False := by
  rcases hs.process with ⟨n, rfl, -, -⟩ | ⟨n, rfl, hdone, -⟩ | ⟨-, hbusy, -⟩
  · cases hb with
    | start _ hdraw =>
      rw [hwait] at hdraw
      exact Multiset.zero_ne_cons hdraw
  · rw [hidle] at hdone
    cases hdone
  · exact hbusy hidle

/-- When `Wait` has returned, no worker does anything. -/
theorem WorkerStep.not_returned [Fintype ι] {tr : List (Label W ι)} {p : Bag W ℕ × State W ι}
    (h : (bagRemoval job W).Run tr p) (hs : WorkerStep job w p.2 l s') (hb : l.Handed p.1 b')
    (status : ℕ) : p.2.main ≠ .returned status := by
  intro hmain
  obtain ⟨hwait, hidle⟩ := idle_of_returned h hmain
  exact hs.not_rest hwait (hidle w) hb

/-! ## The question of `-I` -/

/-- The question has been passed: `RunRm` is past its first statement. -/
def MainPc.passed : MainPc ι → Bool
  | .prompt _ | .declined _ => false
  | _ => true

theorem settleMain_passed {i : ι} {r : Option Os.Errno} {path : Bytes}
    {code : Os.Errno → Os.Errno} {ignored : Os.Errno → Bool} {rest : List (Operand ι)} :
    (settleMain job s i r path code ignored rest).main.passed = true := by
  cases r <;> rw [settleMain] <;> split_ifs <;> rfl

/-- A step of the main thread answers the question, or comes after it. -/
theorem MainStep.asks (hs : MainStep job s l s') :
    s.main.passed = true ∧ s'.main.passed = true ∨ ∃ operands, s.main = .prompt operands ∧
      l = .internal ∧
        s' = s.setMain (if job.confirms then .lstat operands else .declined operands) := by
  cases hs with
  | @confirmed operands hpc hconfirms =>
    refine .inr ⟨operands, hpc, rfl, ?_⟩
    rw [if_pos hconfirms]
  | @declined operands hpc hdeclines =>
    refine .inr ⟨operands, hpc, rfl, ?_⟩
    rw [if_neg (Bool.eq_false_iff.mp hdeclines)]
  | unlink hpc | rmdir hpc | forceRmdir hpc =>
    rw [hpc]
    exact .inl ⟨rfl, settleMain_passed⟩
  | lstatFailed hpc | isDir hpc | openFailed hpc =>
    rw [hpc]
    refine .inl ⟨rfl, ?_⟩
    split_ifs <;> rfl
  | isFile hpc | opened hpc | seed hpc | submit hpc | say hpc | wait hpc =>
    rw [hpc]
    exact .inl ⟨rfl, rfl⟩

/-- **The question comes first**: before it nothing has happened, and nothing happens after it
    was declined. -/
theorem asked_of_run [Fintype ι] {tr : List (Label W ι)} {p : Bag W ℕ × State W ι}
    (h : (bagRemoval job W).Run tr p) :
    (tr = [] ∧ p = (⟨0, fun _ => none, false⟩, .initial job W)) ∨
      (job.confirms = false ∧ tr = [.internal] ∧ p = (⟨0, fun _ => none, false⟩,
        (State.initial job W).setMain (.declined job.operands))) ∨
        (job.confirms = true ∧ p.2.main.passed = true) := by
  refine h.invariant (I := fun tr p => (tr = [] ∧ p = (⟨0, fun _ => none, false⟩,
    .initial job W)) ∨ (job.confirms = false ∧ tr = [.internal] ∧
      p = (⟨0, fun _ => none, false⟩, (State.initial job W).setMain (.declined job.operands))) ∨
        (job.confirms = true ∧ p.2.main.passed = true)) ?_ ?_
  · exact fun p hinit => .inl ⟨rfl, bagRemoval_init hinit⟩
  · rintro tr p l ⟨b', s'⟩ _ hI hstep
    have hb := handed_of_join hstep
    rcases hI with ⟨rfl, rfl⟩ | ⟨hdeclines, rfl, rfl⟩ | ⟨hconfirms, hpassed⟩
    · rcases hstep.right with hs | ⟨w, hs⟩
      · rcases hs.asks with ⟨hpassed, -⟩ | ⟨operands, hpc, rfl, rfl⟩
        · cases hpassed
        · obtain rfl : job.operands = operands := by
            cases hpc
            rfl
          cases hb
          cases hconfirms : job.confirms with
          | true => exact .inr (.inr ⟨rfl, rfl⟩)
          | false => exact .inr (.inl ⟨rfl, rfl, rfl⟩)
      · exact (hs.not_rest rfl rfl hb).elim
    · rcases hstep.right with hs | ⟨w, hs⟩
      · rcases hs.asks with ⟨hpassed, -⟩ | ⟨operands, hpc, -⟩
        · cases hpassed
        · cases hpc
      · exact (hs.not_rest rfl rfl hb).elim
    · refine .inr (.inr ⟨hconfirms, ?_⟩)
      rcases hstep.right with hs | ⟨w, hs⟩
      · rcases hs.asks with ⟨-, hpassed'⟩ | ⟨operands, hpc, -⟩
        · exact hpassed'
        · rw [hpc] at hpassed
          cases hpassed
      · rw [hs.main_eq]
        exact hpassed

/-! ## What the threads use -/

/-- The nodes that a worker uses after it has written something. -/
def After.uses : After ι → List ℕ
  | .read n _ | .close n | .delete n | .discard n => [n]

/-- The nodes that a worker uses where it stands. -/
def Pc.uses : Pc ι → List ℕ
  | .idle | .done => []
  | .openNode n | .resubmit n | .forceRemove n _ | .discard n | .read n _ | .fstatat n _ _
  | .unlinkat n _ _ | .child n _ _ | .forceUnlinkat n _ _ _ | .makeChild n _ _ _ | .close n
  | .release n | .remove n | .delete n => [n]
  | .countChild n _ m | .submitChild n _ m => [n, m]
  | .say _ after => after.uses

/-- The nodes that the main thread uses. -/
def MainPc.uses : MainPc ι → List ℕ
  | .submit n _ => [n]
  | _ => []

/-- The node whose counter a worker is about to take one off. -/
def Pc.climbs : Pc ι → Option ℕ
  | .release n => some n
  | _ => none

/-- The node that does not count a child of it yet. -/
def Pc.counts : Pc ι → Option ℕ
  | .countChild n _ _ => some n
  | _ => none

/-- The node that a worker is about to remove and to free. -/
def Pc.removes : Pc ι → Option ℕ
  | .remove n | .delete n | .say _ (.delete n) => some n
  | _ => none

/-- The children of a node. -/
def State.children (s : State W ι) (n : ℕ) : Finset ℕ :=
  (Finset.range s.next).filter fun m => (s.nodes m).bind Node.parent = some n

/-- The workers that stand where `f` says `n`. -/
def State.workersAt (s : State W ι) (f : Pc ι → Option ℕ) (n : ℕ) : Finset (Fin W) :=
  Finset.univ.filter fun w => f (s.workers w) = some n

/-- Whether the task of a node has not been processed to its end: the node waits, is about to, or
    is opened or scanned. -/
def ownRef (b : Bag W ℕ) (s : State W ι) (n : ℕ) : ℕ := (held b s).active.count n

omit [DecidableEq ι] in
/-- What a worker uses is held. -/
theorem mem_of_uses {pc : Pc ι} {n : ℕ} (hn : n ∈ pc.uses) :
    n ∈ pc.hold.owned ∨ n ∈ pc.hold.active ∨ n ∈ pc.hold.dying := by
  cases pc with
  | idle | done => cases hn
  | countChild n m seen =>
    simp only [Pc.uses, List.mem_cons, List.not_mem_nil, or_false] at hn
    exact .inr (.inl (by simpa [Pc.hold] using hn))
  | submitChild n m seen =>
    simp only [Pc.uses, List.mem_cons, List.not_mem_nil, or_false] at hn
    exact .inl (by simpa [Pc.hold] using hn)
  | remove | delete =>
    rw [List.mem_singleton.mp hn]
    exact .inr (.inr (by simp [Pc.hold]))
  | say o after =>
    cases after with
    | delete n =>
      rw [List.mem_singleton.mp hn]
      exact .inr (.inr (by simp [Pc.hold, After.hold]))
    | read | close | discard =>
      rw [List.mem_singleton.mp hn]
      exact .inl (by simp [Pc.hold, After.hold])
  | openNode | resubmit | forceRemove | discard | read | fstatat | unlinkat | child
  | forceUnlinkat | makeChild | close | release =>
    rw [List.mem_singleton.mp hn]
    exact .inl (by simp [Pc.hold])

omit [DecidableEq ι] in
/-- What a worker uses lives. -/
theorem live_of_uses (h : References b s) {n : ℕ} (hn : n ∈ (s.workers w).uses) :
    ∃ x, s.nodes n = some x := by
  have hcell : ∃ c, s.cells n = some c := by
    rcases mem_of_uses hn with hn | hn | hn
    · apply h.live_of_owned
      rw [held_eq b s w, Hold.owned_add]
      exact Multiset.mem_add.mpr (.inr hn)
    · apply h.live_of_active
      rw [held_eq b s w, Hold.active_add]
      exact Multiset.mem_add.mpr (.inr hn)
    · apply h.live_of_dying
      rw [held_eq b s w, Hold.add_dying]
      exact Multiset.mem_add.mpr (.inr hn)
  obtain ⟨c, hc⟩ := hcell
  obtain ⟨x, hx, -⟩ := node_of_cells hc
  exact ⟨x, hx⟩

omit [DecidableEq ι] in
/-- A task that waits lives. -/
theorem live_of_waiting (h : References b s) {n : ℕ} (hn : n ∈ b.waiting) :
    ∃ x, s.nodes n = some x := by
  have hown : n ∈ (held b s).owned := by
    rw [held, outside, Hold.owned_add, Hold.owned_add]
    exact Multiset.mem_add.mpr (.inl (Multiset.mem_add.mpr (.inl (by simpa [waitingHold, Hold.owned]
      using hn))))
  obtain ⟨c, hc⟩ := h.live_of_owned hown
  obtain ⟨x, hx, -⟩ := node_of_cells hc
  exact ⟨x, hx⟩

omit [DecidableEq ι] in
/-- What the main thread uses lives. -/
theorem live_of_main (h : References b s) {n : ℕ} (hn : n ∈ s.main.uses) :
    ∃ x, s.nodes n = some x := by
  have hown : n ∈ (held b s).owned := by
    rw [held, outside, Hold.owned_add, Hold.owned_add]
    refine Multiset.mem_add.mpr (.inl (Multiset.mem_add.mpr (.inr ?_)))
    cases hmain : s.main with
    | submit m rest =>
      rw [hmain] at hn
      rw [List.mem_singleton.mp hn]
      simp [MainPc.hold]
    | _ =>
      rw [hmain] at hn
      cases hn
  obtain ⟨c, hc⟩ := h.live_of_owned hown
  obtain ⟨x, hx, -⟩ := node_of_cells hc
  exact ⟨x, hx⟩

omit [DecidableEq ι] in
/-- All nodes up the parent chain of a node live: its path can be put together. -/
theorem path_of_live (h : References b s) {n : ℕ} {x : Node ι} (hx : s.nodes n = some x) :
    ∃ names, chain s.nodes n = some names := by
  induction n using Nat.strong_induction_on generalizing x with
  | _ n ih =>
    cases hp : x.parent with
    | none => exact ⟨[x.name], chain_root hx hp⟩
    | some p =>
      have hlt := h.parent n _ p (cells_of_node hx) hp
      obtain ⟨c, hc⟩ := h.live_of_child (cells_of_node hx) hp
      obtain ⟨y, hy, -⟩ := node_of_cells hc
      obtain ⟨names, hnames⟩ := ih p hlt hy
      exact ⟨x.name :: names, chain_child hx hp hlt hnames⟩

omit [DecidableEq ι] in
theorem card_children (s : State W ι) (n : ℕ) :
    (RefTree.links s.cells s.next).count n = (s.children n).card := by
  rw [RefTree.count_links, State.children]
  congr 1
  refine Finset.filter_congr fun m _ => ?_
  rw [State.cells]
  cases s.nodes m with
  | none => exact Iff.rfl
  | some x => exact Iff.rfl

omit [DecidableEq ι] in
/-- A kind of reference that only workers hold is counted worker by worker. -/
theorem count_held (f : Hold →+ Multiset ℕ) (g : Pc ι → Option ℕ)
    (hpc : ∀ pc : Pc ι, f pc.hold = (g pc).toList) (hout : f (outside b s) = 0) (n : ℕ) :
    (f (held b s)).count n = (s.workersAt g n).card := by
  rw [held, map_add, hout, zero_add, map_sum, Multiset.count_sum', State.workersAt,
    Finset.card_filter]
  refine Finset.sum_congr rfl fun w _ => ?_
  rw [hpc]
  cases g (s.workers w) with
  | none => simp
  | some m => simp [Multiset.count_singleton, eq_comm]

omit [DecidableEq ι] in
theorem count_climbs (b : Bag W ℕ) (s : State W ι) (n : ℕ) :
    (held b s).held.count n = (s.workersAt Pc.climbs n).card := by
  refine count_held Hold.heldHom Pc.climbs (fun pc => ?_) ?_ n
  · cases pc with
    | say o after => cases after <;> rfl
    | _ => rfl
  · rw [outside]
    cases s.main <;> rfl

omit [DecidableEq ι] in
theorem count_uncounted (b : Bag W ℕ) (s : State W ι) (n : ℕ) :
    ((held b s).making.map Prod.fst).count n = (s.workersAt Pc.counts n).card := by
  refine count_held Hold.uncountedHom Pc.counts (fun pc => ?_) ?_ n
  · cases pc with
    | say o after => cases after <;> rfl
    | _ => rfl
  · rw [outside]
    cases s.main <;> rfl

omit [DecidableEq ι] in
theorem count_removes (b : Bag W ℕ) (s : State W ι) (n : ℕ) :
    (held b s).dying.count n = (s.workersAt Pc.removes n).card := by
  refine count_held Hold.dyingHom Pc.removes (fun pc => ?_) ?_ n
  · cases pc with
    | say o after => cases after <;> rfl
    | _ => rfl
  · rw [outside]
    cases s.main <;> rfl

omit [DecidableEq ι] in
/-- A counter is the number of the references. -/
theorem remaining_eq (h : References b s) {n : ℕ} {x : Node ι} (hx : s.nodes n = some x) :
    x.remaining + (s.workersAt Pc.counts n).card =
      ownRef b s n + (s.workersAt Pc.climbs n).card + (s.children n).card := by
  have hcell := h.cell n
  rw [cells_of_node hx, RefTree.count_refs, card_children] at hcell
  have hparts := congrArg (Multiset.count n) (Hold.active_add_held (held b s))
  rw [Multiset.count_add, Multiset.count_add, count_climbs, count_uncounted] at hparts
  have hcount : x.remaining = _ := hcell.1
  rw [ownRef]
  omega

omit [DecidableEq ι] in
/-- Whoever removes a node is alone with it. -/
theorem alone_at_removal (h : References b s) {n : ℕ} (hw : (s.workers w).removes = some n) :
    s.workersAt Pc.removes n = {w} ∧ ownRef b s n = 0 ∧ s.workersAt Pc.climbs n = ∅ ∧
      s.children n = ∅ := by
  have hmem : w ∈ s.workersAt Pc.removes n := Finset.mem_filter.mpr ⟨Finset.mem_univ w, hw⟩
  have hdying : n ∈ (held b s).dying := by
    rw [← Multiset.count_pos, count_removes]
    exact Finset.card_pos.mpr ⟨w, hmem⟩
  have hzero := h.refs_of_dying hdying
  have hactive := h.active_of_refs hzero
  have hone := h.dying_of_refs hdying
  have hparts := congrArg (Multiset.count n) (Hold.active_add_held (held b s))
  rw [count_removes] at hone
  rw [RefTree.count_refs, card_children] at hzero
  rw [Multiset.count_add, Multiset.count_add, count_climbs, hactive] at hparts
  refine ⟨?_, hactive, ?_, Finset.card_eq_zero.mp (by omega)⟩
  · obtain ⟨k, hk⟩ := Finset.card_eq_one.mp hone
    rw [hk] at hmem ⊢
    rw [Finset.mem_singleton.mp hmem]
  · have hle : ((held b s).making.map Prod.fst).count n ≤ (held b s).active.count n := by
      apply Multiset.count_le_of_le
      rw [Hold.active, add_right_comm]
      exact Multiset.le_add_left _ _
    exact Finset.card_eq_zero.mp (by omega)

/-- **The protocol of the nodes.**  In every run, with any number of workers: whatever a thread
    or a task uses lives, with everything up its parent chain; a counter is the number of the
    references, one of the node's own task until that gives it up, those of the child nodes that
    it counts, and those that workers are about to give up; and while a worker removes and frees
    a node, the task of the node is done, it has no child nodes and nobody else is at it. -/
theorem node_protocol [Fintype ι] (hfits : job.Fits) {tr : List (Option (Label W ι))}
    {p : TaskScheduler.State W P ℕ × State W ι} (h : (removal job W P).Run tr p) :
    ((∀ w, ∀ n ∈ (p.2.workers w).uses, (p.2.path n).isSome) ∧
        (∀ n ∈ p.1.bag.waiting, (p.2.path n).isSome) ∧
        ∀ n ∈ p.2.main.uses, (p.2.path n).isSome) ∧
      (∀ n x, p.2.nodes n = some x → ownRef p.1.bag p.2 n ≤ 1 ∧ x.remaining < 2 ^ 32 ∧
        x.remaining + (p.2.workersAt Pc.counts n).card =
          ownRef p.1.bag p.2 n + (p.2.workersAt Pc.climbs n).card + (p.2.children n).card) ∧
      ∀ n w, (p.2.workers w).removes = some n → p.2.workersAt Pc.removes n = {w} ∧
        ownRef p.1.bag p.2 n = 0 ∧ p.2.workersAt Pc.climbs n = ∅ ∧ p.2.children n = ∅ := by
  obtain ⟨href, hv⟩ := visits_of_run hfits (removal_refines h)
  have hpath : ∀ n x, p.2.nodes n = some x → (p.2.path n).isSome := by
    intro n x hx
    obtain ⟨names, hnames⟩ := path_of_live href hx
    rw [State.path, hnames]
    rfl
  refine ⟨⟨fun w n hn => ?_, fun n hn => ?_, fun n hn => ?_⟩, fun n x hx => ?_, fun n w hw => ?_⟩
  · obtain ⟨x, hx⟩ := live_of_uses href hn
    exact hpath n x hx
  · obtain ⟨x, hx⟩ := live_of_waiting href hn
    exact hpath n x hx
  · obtain ⟨x, hx⟩ := live_of_main href hn
    exact hpath n x hx
  · exact ⟨href.active_le n, (hv.nodes n x hx).small, remaining_eq href hx⟩
  · exact alone_at_removal href hw

theorem removeFolder_fits : removeFolder.Fits := Job.fits_of_card (by decide)

/-- The node of the subdirectory waits with its path, and is counted by the folder's; later the
    worker is alone with it. -/
theorem node_protocol_folder : ∃ (tr₁ tr₂ : List (Option (Label 1 (Fin 3))))
    (p₁ p₂ : TaskScheduler.State 1 1 ℕ × State 1 (Fin 3)),
    ((removal removeFolder 1 1).Run tr₁ p₁ ∧ p₁.1.bag.waiting = {1} ∧ (p₁.2.path 1).isSome ∧
      2 + (p₁.2.workersAt Pc.counts 0).card =
        ownRef p₁.1.bag p₁.2 0 + (p₁.2.workersAt Pc.climbs 0).card + (p₁.2.children 0).card) ∧
      (removal removeFolder 1 1).Run tr₂ p₂ ∧ p₂.2.workers 0 = .remove 1 ∧
        p₂.2.workersAt Pc.removes 1 = {0} ∧ p₂.2.children 1 = ∅ := by
  obtain ⟨tr₁, p₁, tr₂, p₂, -, -, ⟨h₁, hwaiting, hnode⟩, ⟨h₂, hremove⟩, -⟩ := removeFolder_run
  obtain ⟨⟨-, hpath, -⟩, hcount, -⟩ := node_protocol removeFolder_fits h₁
  obtain ⟨-, -, halone⟩ := node_protocol removeFolder_fits h₂
  obtain ⟨hworker, -, -, hchildren⟩ := halone 1 0 (by rw [hremove]; rfl)
  refine ⟨tr₁, tr₂, p₁, p₂, ⟨h₁, hwaiting, hpath 1 ?_, (hcount 0 _ hnode).2.2⟩, h₂, hremove,
    hworker, hchildren⟩
  rw [hwaiting]
  exact Multiset.mem_singleton_self 1

/-! ## Freed once -/

/-- The node that a step makes. -/
def Label.created : Label W ι → Option ℕ
  | .news n => some n
  | _ => none

/-- The node that a step frees. -/
def Label.deleted : Label W ι → Option ℕ
  | .deletes n => some n
  | _ => none

/-- The nodes made in a run. -/
def created (tr : List (Label W ι)) : Multiset ℕ := (tr.filterMap Label.created : List ℕ)

/-- The nodes freed in a run. -/
def deleted (tr : List (Label W ι)) : Multiset ℕ := (tr.filterMap Label.deleted : List ℕ)

/-- The nodes that live. -/
def State.live (s : State W ι) : Multiset ℕ :=
  ((Finset.range s.next).filter fun n => (s.nodes n).isSome).val

/-- What a step does to the nodes that live. -/
inductive Born (s s' : State W ι) : Label W ι → Prop
  | news {x : Node ι} : s'.nodes = Function.update s.nodes s.next (some x) →
      s'.next = s.next + 1 → Born s s' (.news s.next)
  | deletes {n : ℕ} {x : Node ι} : s.nodes n = some x →
      s'.nodes = Function.update s.nodes n none → s'.next = s.next → Born s s' (.deletes n)
  | kept {l : Label W ι} : l.created = none → l.deleted = none → s'.next = s.next →
      (∀ n, (s'.nodes n).isSome = (s.nodes n).isSome) → Born s s' l

omit [DecidableEq ι] in
theorem isSome_store {n : ℕ} {x y : Node ι} (hx : s.nodes n = some x)
    (h : s'.nodes = Function.update s.nodes n (some y)) (k : ℕ) :
    (s'.nodes k).isSome = (s.nodes k).isSome := by
  rw [h]
  by_cases hk : k = n
  · subst hk
    rw [Function.update_self, hx]
    rfl
  · rw [Function.update_of_ne hk]

omit [DecidableEq ι] in
theorem openLabel_born (i : ι) (e : Os.Errno) :
    (openLabel i e : Label W ι).created = none ∧ (openLabel i e : Label W ι).deleted = none := by
  rw [openLabel]
  split_ifs <;> exact ⟨rfl, rfl⟩

omit [DecidableEq ι] in
theorem removeLabel_born (i : ι) (r : Option Os.Errno) :
    (removeLabel i r : Label W ι).created = none ∧
      (removeLabel i r : Label W ι).deleted = none := by
  cases r with
  | none => exact ⟨rfl, rfl⟩
  | some e =>
    rw [removeLabel]
    split_ifs <;> exact ⟨rfl, rfl⟩

theorem WorkerStep.born (hs : WorkerStep job w s l s') : Born s s' l := by
  cases hs with
  | makeChild => exact .news rfl rfl
  | discard _ hx | delete _ hx => exact .deletes hx rfl rfl
  | opened _ hx | close _ hx | countChild _ hx | releaseShared _ hx | releaseLast _ hx =>
    exact .kept rfl rfl rfl (isSome_store hx rfl)
  | openFailed | openFailedForce | childFailed | childFailedForce =>
    exact .kept (openLabel_born ..).1 (openLabel_born ..).2 rfl fun _ => rfl
  | forceRemove | remove =>
    refine .kept (removeLabel_born ..).1 (removeLabel_born ..).2 (settle_next ..) fun n => ?_
    rw [settle_nodes]
  | unlinkat | forceUnlinkat =>
    refine .kept rfl rfl (settle_next ..) fun n => ?_
    rw [settle_nodes]
  | start | openReady | parked | resubmit | readEntry | readDone | readFailed | stat | statAbsent
  | statFailed | exhausted | childOpened | childRefused | submitChild | say | finish =>
    exact .kept rfl rfl rfl fun _ => rfl

theorem MainStep.born (hs : MainStep job s l s') : Born s s' l := by
  cases hs with
  | seed => exact .news rfl rfl
  | unlink | rmdir | forceRmdir =>
    obtain ⟨hnodes, hnext, -⟩ := settleMain_frame job s _ _ _ _ _ _
    refine .kept rfl rfl hnext fun n => ?_
    rw [hnodes]
  | openFailed =>
    refine .kept (openLabel_born ..).1 (openLabel_born ..).2 ?_ fun n => ?_ <;> split_ifs <;> rfl
  | lstatFailed | isDir =>
    refine .kept rfl rfl ?_ fun n => ?_ <;> split_ifs <;> rfl
  | confirmed | declined | isFile | opened | submit | say | wait =>
    exact .kept rfl rfl rfl fun _ => rfl

/-- The books of the nodes: each address below the next was used once, and freed once unless the
    node lives. -/
structure Ledger (tr : List (Label W ι)) (s : State W ι) : Prop where
  made : ∀ n, (created tr).count n = if n < s.next then 1 else 0
  freed : ∀ n, (deleted tr).count n + (if (s.nodes n).isSome then 1 else 0) =
    if n < s.next then 1 else 0

omit [DecidableEq ι] in
theorem count_created (tr : List (Label W ι)) (l : Label W ι) (n : ℕ) :
    (created (tr ++ [l])).count n =
      (created tr).count n + if l.created = some n then 1 else 0 := by
  rw [created, List.filterMap_append, ← Multiset.coe_add, Multiset.count_add, ← created]
  cases h : l.created with
  | none => simp [h]
  | some m => simp [h, Multiset.count_singleton, eq_comm]

omit [DecidableEq ι] in
theorem count_deleted (tr : List (Label W ι)) (l : Label W ι) (n : ℕ) :
    (deleted (tr ++ [l])).count n =
      (deleted tr).count n + if l.deleted = some n then 1 else 0 := by
  rw [deleted, List.filterMap_append, ← Multiset.coe_add, Multiset.count_add, ← deleted]
  cases h : l.deleted with
  | none => simp [h]
  | some m => simp [h, Multiset.count_singleton, eq_comm]

omit [DecidableEq ι] in
/-- One step keeps the books. -/
theorem Ledger.step {tr : List (Label W ι)} (h : Ledger tr s) (hs : Born s s' l) :
    Ledger (tr ++ [l]) s' := by
  refine ⟨fun n => ?_, fun n => ?_⟩
  -- A node has been made once if its number is below the next one.
  · have hn := h.made n
    rw [count_created]
    cases hs with
    | news hnodes hnext =>
      rw [hnext, hn]
      simp only [Label.created, Option.some.injEq]
      split_ifs <;> omega
    | deletes hx hnodes hnext => simpa [Label.created, hnext] using hn
    | kept hcreated _ hnext _ => simpa [hcreated, hnext] using hn
  -- A node that has been made is there, or has been freed once.
  · have hn := h.freed n
    rw [count_deleted]
    cases hs with
    | news hnodes hnext =>
      rw [hnext, hnodes]
      by_cases heq : n = s.next
      · subst heq
        rw [Function.update_self]
        simp only [lt_irrefl, if_false] at hn
        obtain ⟨hzero, -⟩ := Nat.add_eq_zero_iff.mp hn
        simp [Label.deleted, hzero]
      · rw [Function.update_of_ne heq]
        simp only [Label.deleted, reduceCtorEq, if_false, add_zero, hn]
        split_ifs <;> omega
    | @deletes m x hx hnodes hnext =>
      rw [hnext, hnodes]
      by_cases heq : n = m
      · subst heq
        rw [hx] at hn
        rw [Function.update_self, ← hn]
        simp [Label.deleted]
      · rw [Function.update_of_ne heq, ← hn]
        simp [Label.deleted, Ne.symm heq]
    | kept _ hdeleted hnext hkept => simpa [hdeleted, hnext, hkept] using hn

theorem ledger_of_run [Fintype ι] {tr : List (Label W ι)} {p : Bag W ℕ × State W ι}
    (h : (bagRemoval job W).Run tr p) : Ledger tr p.2 := by
  refine h.right.invariant (I := Ledger) ?_ ?_
  · rintro s rfl
    exact ⟨fun n => by simp [created, State.initial], fun n => by simp [deleted, State.initial]⟩
  · intro tr s l s' _ hI hstep
    rcases hstep with hmain | ⟨w, hworker⟩
    · exact hI.step hmain.born
    · exact hI.step hworker.born

omit [DecidableEq ι] in
theorem mem_live {n : ℕ} : n ∈ s.live ↔ n < s.next ∧ ∃ x, s.nodes n = some x := by
  rw [State.live, Finset.mem_val, Finset.mem_filter, Finset.mem_range, Option.isSome_iff_exists]

omit [DecidableEq ι] in
/-- What was made and not freed lives. -/
theorem Ledger.balance {tr : List (Label W ι)} (h : Ledger tr s) :
    created tr = deleted tr + s.live := by
  refine Multiset.ext.mpr fun n => ?_
  have hn := h.freed n
  rw [Multiset.count_add, h.made, ← hn]
  congr 1
  cases hx : s.nodes n with
  | none =>
    have hnot : n ∉ s.live := fun hmem => by
      obtain ⟨x, hx'⟩ := (mem_live.mp hmem).2
      rw [hx] at hx'
      cases hx'
    simp [Multiset.count_eq_zero.mpr hnot]
  | some x =>
    have hlt : n < s.next := by
      by_contra hge
      rw [hx, if_neg hge] at hn
      simp at hn
    exact (Multiset.count_eq_one_of_mem (Finset.nodup _) (mem_live.mpr ⟨hlt, x, hx⟩)).symm

/-- **Freed once.**  In every run no node is made or freed twice, what was made and not freed
    lives, and when `Wait` has returned everything that was made has been freed. -/
theorem nodes_freed_once [Fintype ι] (hfits : job.Fits) {tr : List (Option (Label W ι))}
    {p : TaskScheduler.State W P ℕ × State W ι} (h : (removal job W P).Run tr p) :
    (created tr.reduceOption).Nodup ∧ (deleted tr.reduceOption).Nodup ∧
      created tr.reduceOption = deleted tr.reduceOption + p.2.live ∧
      ∀ status, p.2.main = .returned status →
        created tr.reduceOption = deleted tr.reduceOption := by
  have hrun := removal_refines h
  have hledger : Ledger tr.reduceOption p.2 := ledger_of_run hrun
  have hnodup : (created tr.reduceOption).Nodup := by
    refine Multiset.nodup_iff_count_le_one.mpr fun n => ?_
    rw [hledger.made]
    split_ifs <;> omega
  refine ⟨hnodup, ?_, hledger.balance, fun status hstatus => ?_⟩
  · rw [hledger.balance] at hnodup
    exact (Multiset.nodup_add.mp hnodup).1
  · obtain ⟨href, -⟩ := visits_of_run hfits hrun
    rw [References, held_of_returned hrun hstatus] at href
    have hempty : p.2.live = 0 := by
      refine Multiset.eq_zero_of_forall_notMem fun n hn => ?_
      obtain ⟨x, hx⟩ := (mem_live.mp hn).2
      have hnone := href.empty n
      rw [cells_of_node hx] at hnone
      cases hnone
    rw [hledger.balance, hempty, add_zero]

/-- Both nodes of the folder have been freed. -/
theorem nodes_freed_once_folder : ∃ (tr : List (Option (Label 1 (Fin 3))))
    (p : TaskScheduler.State 1 1 ℕ × State 1 (Fin 3)), (removal removeFolder 1 1).Run tr p ∧
      p.2.main = .returned 0 ∧ created tr.reduceOption = {0, 1} ∧
        deleted tr.reduceOption = {0, 1} := by
  obtain ⟨-, -, -, -, tr, p, -, -, h, htr, hmain, -⟩ := removeFolder_run
  have hfreed := (nodes_freed_once removeFolder_fits h).2.2.2 0 hmain
  have hmade : created tr.reduceOption = {0, 1} := by
    rw [htr]
    rfl
  exact ⟨tr, p, h, hmain, hmade, hfreed.symm.trans hmade⟩

end Remmy.Removal
