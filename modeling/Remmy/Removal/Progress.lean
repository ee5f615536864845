import Remmy.Lib.Execution
import Remmy.Removal.Outcome

/-!
# A Removal Comes to an End

How many steps the threads of a removal may take, and that they do not get stuck before `RunRm`
returns.

- `potential` is what is left to do: every entry within an operand is worth a constant number of
  steps, and a directory hands to its entries what it does not need itself.
- `steps_bounded`: the steps of all threads together are linear in the number of entries and in
  the number of directories parked.
- `can_return`: until `RunRm` returns some thread may take a step, and there is a way to the end.
- `removal_returns` puts the two together for executions.
-/

namespace Remmy.Removal

open Remmy.Os Remmy.DirNode Remmy.Lib Remmy.TaskScheduler

universe u

variable {ι : Type u} [DecidableEq ι] [Fintype ι] {W P : ℕ}

/-! ## What is left to do -/

/-- The steps that everything within `i` is worth. -/
noncomputable def Job.cost (job : Job ι) (i : ι) : ℕ := 20 * job.tree.size i

/-- What the entries of `d` are worth that its read has not returned. -/
noncomputable def Job.unread (job : Job ι) (d : ι) (seen : Finset ι) : ℕ :=
  ∑ c ∈ Finset.univ.filter (fun c => job.tree.up c = some d ∧ c ∉ seen), job.cost c

/-- What operands are worth: everything within them, and as much as one entry where `lstat` never
    finds anything. -/
noncomputable def Job.costs (job : Job ι) (operands : List (Operand ι)) : ℕ :=
  (operands.map fun o =>
    match o.target with
    | .ok i => job.cost i
    | .error _ => 20).sum

/-- What the entries of the directory of a node are worth that its read has not returned. -/
noncomputable def State.unread (s : State W ι) (job : Job ι) (n : ℕ) (seen : Finset ι) : ℕ :=
  match s.nodes n with
  | none => 0
  | some x => job.unread x.entry seen

/-- What a worker has to do that is writing something; `todo` are the entries of the nodes. -/
def After.potential (todo : ℕ → Finset ι → ℕ) : After ι → ℕ
  | .read n seen => 8 + todo n seen
  | .close _ => 6
  | .delete _ => 2
  | .discard _ => 3

/-- What a worker has to do where it stands. -/
noncomputable def Pc.potential (job : Job ι) (todo : ℕ → Finset ι → ℕ) : Pc ι → ℕ
  | .idle => 0
  | .openNode n => 8 + todo n ∅
  | .resubmit n => 11 + todo n ∅
  | .forceRemove _ _ => 4
  | .discard _ => 2
  | .read n seen => 7 + todo n seen
  | .fstatat n seen c => 25 + todo n seen + job.unread c ∅
  | .unlinkat n seen _ | .forceUnlinkat n seen _ _ => 9 + todo n seen
  | .child n seen c => 24 + todo n seen + job.unread c ∅
  | .makeChild n seen c _ => 23 + todo n seen + job.unread c ∅
  | .countChild n seen m => 18 + todo n seen + todo m ∅
  | .submitChild n seen m => 17 + todo n seen + todo m ∅
  | .close _ => 5
  | .release _ => 4
  | .remove _ => 3
  | .delete _ => 1
  | .say _ after => after.potential todo
  | .done => 1

/-- What the main thread has to do. -/
noncomputable def MainPc.potential (job : Job ι) (todo : ℕ → Finset ι → ℕ) : MainPc ι → ℕ
  | .prompt operands => 2 + job.costs operands
  | .lstat operands => 1 + job.costs operands
  | .unlink _ _ rest | .rmdir _ _ rest | .forceRmdir _ _ _ rest => 3 + job.costs rest
  | .openDir _ i rest => 17 + job.unread i ∅ + job.costs rest
  | .seed _ i rest => 16 + job.unread i ∅ + job.costs rest
  | .submit n rest => 11 + todo n ∅ + job.costs rest
  | .say _ rest => 2 + job.costs rest
  | .declined _ | .returned _ => 0

/-- What a task is worth that waits. -/
noncomputable def State.waits (s : State W ι) (job : Job ι) (n : ℕ) : ℕ := 9 + s.unread job n ∅

/-- What is left to do. -/
noncomputable def potential (job : Job ι) (b : Bag W ℕ) (s : State W ι) : ℕ :=
  (b.waiting.map (s.waits job)).sum + s.main.potential job (s.unread job) +
    ∑ w, (s.workers w).potential job (s.unread job)

/-- A node is worth as much again when it is freed as it cost when it was made, and one that is
    parked is gone through once more. -/
def Label.given : Label W ι → ℕ
  | .deletes _ | .parks _ => 4
  | _ => 0

/-- What a new node costs. -/
def Label.saved : Label W ι → ℕ
  | .news _ => 4
  | _ => 0

/-- What the task is worth that a step submits. -/
noncomputable def Label.arrives (job : Job ι) (s : State W ι) (l : Label W ι) : ℕ :=
  (l.event.bind Event.submitted).elim 0 (s.waits job)

/-- What the task is worth that a step draws. -/
noncomputable def Label.leaves (job : Job ι) (s : State W ι) (l : Label W ι) : ℕ :=
  (l.event.bind Event.started).elim 0 (s.waits job)

variable {job : Job ι} {b b' : Bag W ℕ} {s s' : State W ι} {l : Label W ι} {w : Fin W}

/-- A directory is worth what its entries are, and more. -/
theorem Job.unread_le_cost (job : Job ι) (d : ι) : 20 + job.unread d ∅ ≤ job.cost d := by
  let children := Finset.univ.filter fun c => job.tree.up c = some d ∧ c ∉ (∅ : Finset ι)
  have hlt : ∑ c ∈ children, job.tree.size c < job.tree.size d :=
    Forest.sum_size_lt d children fun c hc => (Finset.mem_filter.mp hc).2.1
  have hsum : ∑ c ∈ children, 20 * job.tree.size c = 20 * ∑ c ∈ children, job.tree.size c :=
    Finset.sum_nsmul children 20 job.tree.size
  show 20 + ∑ c ∈ children, 20 * job.tree.size c ≤ 20 * job.tree.size d
  omega

/-- An entry that is returned takes what it is worth with it. -/
theorem Job.unread_insert {c d : ι} {seen : Finset ι} (hup : job.tree.up c = some d)
    (hc : c ∉ seen) : job.unread d (insert c seen) + job.cost c = job.unread d seen := by
  have hmem : c ∈ Finset.univ.filter fun c => job.tree.up c = some d ∧ c ∉ seen := by
    simp [hup, hc]
  rw [Job.unread, Job.unread, ← Finset.sum_erase_add _ _ hmem]
  congr 1
  refine Finset.sum_congr ?_ fun _ _ => rfl
  ext k
  simp only [Finset.mem_filter, Finset.mem_univ, true_and, Finset.mem_insert, not_or,
    Finset.mem_erase]
  tauto

omit [DecidableEq ι] in
/-- Going on after an output takes one less. -/
theorem After.pc_potential [DecidableEq ι] (job : Job ι) (after : After ι) (todo : ℕ → Finset ι → ℕ) :
    after.pc.potential job todo + 1 = after.potential todo := by
  cases after with
  | read n seen => exact Nat.add_right_comm 7 _ 1
  | _ => rfl

/-- The entries of a node that is stored again are as before. -/
theorem unread_store {n : ℕ} {x y : Node ι} (hx : s.nodes n = some x)
    (hnodes : s'.nodes = Function.update s.nodes n (some y)) (hentry : y.entry = x.entry) :
    s'.unread job = s.unread job := by
  funext k seen
  rw [State.unread, State.unread, hnodes]
  by_cases hk : k = n
  · subst hk
    rw [Function.update_self, hx]
    simp only [hentry]
  · rw [Function.update_of_ne hk]

theorem unread_congr (hnodes : s'.nodes = s.nodes) : s'.unread job = s.unread job := by
  funext k seen
  rw [State.unread, State.unread, hnodes]

theorem unread_of_node {n : ℕ} {x : Node ι} (hx : s.nodes n = some x) (seen : Finset ι) :
    s.unread job n seen = job.unread x.entry seen := by
  rw [State.unread, hx]

/-- The nodes of before have no more entries than before. -/
theorem Later.unread_le {active : Multiset ℕ} (h : Later s s' active) {n : ℕ} (hn : n ≠ s.next)
    (seen : Finset ι) : s'.unread job n seen ≤ s.unread job n seen := by
  cases hx : s'.nodes n with
  | none =>
    rw [State.unread, hx]
    exact Nat.zero_le _
  | some x' =>
    obtain ⟨x, hx₀, hentry, -⟩ := (h n x' hx).resolve_left hn
    rw [unread_of_node hx, unread_of_node hx₀, hentry]

/-- What a thread has to do depends on the nodes that it uses only. -/
theorem Pc.potential_mono {todo todo' : ℕ → Finset ι → ℕ} (pc : Pc ι)
    (h : ∀ n ∈ pc.uses, ∀ seen, todo' n seen ≤ todo n seen) :
    pc.potential job todo' ≤ pc.potential job todo := by
  cases pc with
  | openNode n | resubmit n =>
    have hn := h n (List.mem_singleton_self n) ∅
    simp only [Pc.potential]
    omega
  | read n seen | fstatat n seen | unlinkat n seen | child n seen | forceUnlinkat n seen
  | makeChild n seen =>
    have hn := h n (List.mem_singleton_self n) seen
    simp only [Pc.potential]
    omega
  | countChild n seen m | submitChild n seen m =>
    have hn := h n List.mem_cons_self seen
    have hm := h m (List.mem_cons_of_mem _ (List.mem_singleton_self m)) ∅
    simp only [Pc.potential]
    omega
  | say o after =>
    cases after with
    | read n seen =>
      have hn := h n (List.mem_singleton_self n) seen
      simp only [Pc.potential, After.potential]
      omega
    | _ => exact le_rfl
  | _ => exact le_rfl

theorem MainPc.potential_mono {todo todo' : ℕ → Finset ι → ℕ} (pc : MainPc ι)
    (h : ∀ n ∈ pc.uses, ∀ seen, todo' n seen ≤ todo n seen) :
    pc.potential job todo' ≤ pc.potential job todo := by
  cases pc with
  | submit n rest =>
    have hn := h n (List.mem_singleton_self n) ∅
    simp only [MainPc.potential]
    omega
  | _ => exact le_rfl

/-! ## What a step takes -/

/-- A step that brings what a thread has to do from `old` to `new` is paid for. -/
def Label.Paid (job : Job ι) (s : State W ι) (l : Label W ι) (old new : ℕ) : Prop :=
  new + 1 + l.saved + l.arrives job s ≤ old + l.given + l.leaves job s

theorem paid_internal {old new : ℕ} (h : new + 1 ≤ old) :
    (Label.internal : Label W ι).Paid job s old new := h

theorem openLabel_paid {i : ι} {e : Errno} {old new : ℕ} (h : new + 1 ≤ old) :
    (openLabel i e : Label W ι).Paid job s old new := by
  rw [openLabel]
  split_ifs <;> exact h

theorem removeLabel_paid {i : ι} {r : Option Errno} {old new : ℕ} (h : new + 1 ≤ old) :
    (removeLabel i r : Label W ι).Paid job s old new := by
  cases r with
  | none => exact h
  | some e =>
    rw [removeLabel]
    split_ifs <;> exact h

/-- After a removal a worker has no more to do than to write about it. -/
theorem settlePc_potential {r : Option Errno} {path : Bytes} {code : Errno → Errno}
    {after : After ι} (todo : ℕ → Finset ι → ℕ) :
    (settlePc job r path code after).potential job todo ≤ after.potential todo := by
  have hpc := After.pc_potential job after todo
  cases r with
  | none =>
    rw [settlePc]
    split_ifs
    · exact le_rfl
    · omega
  | some e =>
    rw [settlePc]
    split_ifs
    · omega
    · exact le_rfl

/-- A worker goes from `old` to `pc`, and the entries of the nodes are as before. -/
theorem paid_move {old pc : Pc ι} (hpc : s.workers w = old)
    (hworkers : s'.workers = Function.update s.workers w pc)
    (hunread : s'.unread job = s.unread job)
    (h : l.Paid job s (old.potential job (s.unread job)) (pc.potential job (s.unread job))) :
    l.Paid job s ((s.workers w).potential job (s.unread job))
      ((s'.workers w).potential job (s'.unread job)) := by
  rw [hpc, hworkers, Function.update_self, hunread]
  exact h

/-- A worker has settled what a removal has come to, and still has to do no more than `after`. -/
theorem paid_settle {old : Pc ι} {i : ι} {r : Option Errno} {path : Bytes} {code : Errno → Errno}
    {after : After ι} (hpc : s.workers w = old)
    (hl : ∀ {old new : ℕ}, new + 1 ≤ old → l.Paid job s old new)
    (h : after.potential (s.unread job) + 1 ≤ old.potential job (s.unread job)) :
    l.Paid job s ((s.workers w).potential job (s.unread job))
      (((settle job s w i r path code after).workers w).potential job
        ((settle job s w i r path code after).unread job)) := by
  rw [settle_eq]
  have hworkers : ((settleState s w i r).setWorker w (settlePc job r path code after)).workers =
      Function.update s.workers w (settlePc job r path code after) := by
    rw [State.setWorker_workers, settleState_workers]
  refine paid_move hpc hworkers (unread_congr (settleState_nodes ..)) ?_
  exact hl ((Nat.succ_le_succ (settlePc_potential _)).trans h)

/-- Going on with an entry that was read is worth less than the entry. -/
theorem entryRead_potential {n : ℕ} {seen : Finset ι} {x : Node ι} {c : ι}
    (hx : s.nodes n = some x) (hup : job.tree.up c = some x.entry) (hc : c ∉ seen) :
    (job.entryRead n seen c).potential job (s.unread job) + 1 ≤
      (Pc.read n seen).potential job (s.unread job) := by
  have hinsert := Job.unread_insert hup hc
  have hcost := job.unread_le_cost c
  rw [Job.entryRead]
  split_ifs
  · cases job.tree.isDir c <;>
      simp only [entryPc, Pc.potential, unread_of_node hx, if_true, if_false, Bool.false_eq_true] <;>
      omega
  · simp only [Pc.potential, unread_of_node hx]
    omega

/-- **A step of a worker is paid for.** -/
theorem WorkerStep.pays (h : References b s) (hs : WorkerStep job w s l s') :
    l.Paid job s ((s.workers w).potential job (s.unread job))
      ((s'.workers w).potential job (s'.unread job)) := by
  cases hs with
  | start hpc | openReady hpc | parked hpc | resubmit hpc | readDone hpc | readFailed hpc
  | statAbsent hpc | statFailed hpc | exhausted hpc | childOpened hpc | childRefused hpc
  | submitChild hpc | finish hpc =>
    refine paid_move hpc rfl rfl ?_
    simp only [Label.Paid, Label.saved, Label.given, Label.arrives, Label.leaves, Label.event,
      Event.visible, Event.submitted, Event.started, State.waits, Option.bind, Option.elim,
      Pc.potential, After.potential]
    omega
  | openFailed hpc | openFailedForce hpc | childFailed hpc | childFailedForce hpc =>
    refine paid_move hpc rfl rfl ?_
    apply openLabel_paid
    simp only [Pc.potential, After.potential]
    omega
  | opened hpc hx | close hpc hx | countChild hpc hx | releaseShared hpc hx
  | releaseLast hpc hx =>
    refine paid_move hpc rfl (unread_store hx rfl rfl) ?_
    apply paid_internal
    simp only [Pc.potential]
    omega
  | forceRemove hpc | remove hpc => exact paid_settle hpc removeLabel_paid le_rfl
  | unlinkat hpc | forceUnlinkat hpc =>
    apply paid_settle hpc id
    simp only [Pc.potential, After.potential]
    omega
  | readEntry hpc hx hread =>
    refine paid_move hpc rfl rfl ?_
    apply paid_internal
    cases hread with
    | entry hup hc _ => exact entryRead_potential hx hup hc
  | @stat n seen x c isDir hpc hx =>
    refine paid_move hpc rfl rfl ?_
    apply paid_internal
    cases isDir <;> simp only [entryPc, Pc.potential, if_true, if_false, Bool.false_eq_true] <;>
      omega
  | @say o after hpc =>
    refine paid_move hpc rfl rfl ?_
    exact (After.pc_potential job after (s.unread job)).le
  | @discard n x hpc hx | @delete n x hpc hx =>
    rw [hpc, State.setWorker_workers, Function.update_self]
    cases x.parent <;> simp [climb, Label.Paid, Label.saved, Label.given, Label.arrives,
      Label.leaves, Label.event, Pc.potential]
  | @makeChild n seen c opened hpc =>
    obtain ⟨x, hx⟩ := live_of_uses h (w := w) (n := n) (by
      rw [hpc]
      exact List.mem_singleton_self n)
    have hne : n ≠ s.next := (h.lt_next (cells_of_node hx)).ne
    rw [hpc, State.setWorker_workers, Function.update_self]
    -- The entries of the child are those of the entry that it is made for.
    simp only [Label.Paid, Label.saved, Label.given, Label.arrives, Label.leaves, Label.event,
      Option.bind, Option.elim, Pc.potential, State.unread, State.setWorker_nodes,
      State.new_nodes, Function.update_self, Function.update_of_ne hne]
    omega

/-- The main thread goes from `old` to `pc`, and the entries of the nodes are as before. -/
theorem paid_main {old pc : MainPc ι} (hpc : s.main = old) (hmain : s'.main = pc)
    (hunread : s'.unread job = s.unread job)
    (h : l.Paid job s (old.potential job (s.unread job)) (pc.potential job (s.unread job))) :
    l.Paid job s (s.main.potential job (s.unread job)) (s'.main.potential job (s'.unread job)) := by
  rw [hpc, hmain, hunread]
  exact h

/-- After a removal the main thread has no more to do than to write about it. -/
theorem paid_settleMain {old : MainPc ι} {i : ι} {r : Option Errno} {path : Bytes}
    {code : Errno → Errno} {ignored : Errno → Bool} {rest : List (Operand ι)}
    (hpc : s.main = old) (h : 3 + job.costs rest ≤ old.potential job (s.unread job)) :
    (Label.removes i r : Label W ι).Paid job s (s.main.potential job (s.unread job))
      ((settleMain job s i r path code ignored rest).main.potential job
        ((settleMain job s i r path code ignored rest).unread job)) := by
  rw [unread_congr (settleMain_frame job s _ _ _ _ _ _).1, hpc]
  show _ + 1 ≤ old.potential job (s.unread job)
  refine le_trans ?_ h
  cases r <;> rw [settleMain] <;> split_ifs <;>
    simp only [State.setMain, MainPc.potential] <;> omega

theorem Job.costs_cons (job : Job ι) (o : Operand ι) (rest : List (Operand ι)) :
    20 + job.costs rest ≤ job.costs (o :: rest) := by
  rw [Job.costs, Job.costs, List.map_cons, List.sum_cons]
  apply Nat.add_le_add_right
  cases o.target with
  | ok i => exact le_trans (Nat.le_add_right 20 _) (job.unread_le_cost i)
  | error e => exact le_rfl

theorem Job.costs_target (job : Job ι) {o : Operand ι} {i : ι} (htarget : o.target = .ok i)
    (rest : List (Operand ι)) : 20 + job.unread i ∅ + job.costs rest ≤ job.costs (o :: rest) := by
  rw [Job.costs, Job.costs, List.map_cons, List.sum_cons, htarget]
  exact Nat.add_le_add_right (job.unread_le_cost i) _

/-- **A step of the main thread is paid for.** -/
theorem MainStep.pays (hs : MainStep job s l s') :
    l.Paid job s (s.main.potential job (s.unread job)) (s'.main.potential job (s'.unread job)) := by
  cases hs with
  | confirmed hpc | declined hpc =>
    refine paid_main hpc rfl rfl (paid_internal ?_)
    simp only [State.setMain, MainPc.potential]
    omega
  | @lstatFailed o e rest hpc =>
    have hcosts := job.costs_cons o rest
    split_ifs <;> refine paid_main hpc rfl rfl (paid_internal ?_) <;>
      simp only [State.setMain, MainPc.potential] <;> omega
  | @isFile o i rest hpc =>
    have hcosts := job.costs_cons o rest
    refine paid_main hpc rfl rfl (paid_internal ?_)
    simp only [State.setMain, MainPc.potential]
    omega
  | @isDir o i rest hpc hlstat =>
    have hcosts := job.costs_target (Job.lstat_ok hlstat).1 rest
    split_ifs <;> refine paid_main hpc rfl rfl (paid_internal ?_) <;>
      simp only [State.setMain, MainPc.potential] <;> omega
  | unlink hpc | rmdir hpc | forceRmdir hpc => exact paid_settleMain hpc le_rfl
  | opened hpc =>
    refine paid_main hpc rfl rfl (paid_internal ?_)
    simp only [State.setMain, MainPc.potential]
    omega
  | openFailed hpc =>
    split_ifs <;> refine paid_main hpc rfl rfl (openLabel_paid ?_) <;>
      simp only [State.setMain, MainPc.potential] <;> omega
  | seed hpc =>
    rw [hpc]
    -- The entries of the root are those of the operand that it is made for.
    simp only [Label.Paid, Label.saved, Label.given, Label.arrives, Label.leaves, Label.event,
      Option.bind, Option.elim, MainPc.potential, State.unread, State.new_nodes,
      Function.update_self, State.setMain]
    omega
  | submit hpc | say hpc | wait hpc =>
    refine paid_main hpc rfl rfl ?_
    simp only [Label.Paid, Label.saved, Label.given, Label.arrives, Label.leaves, Label.event,
      Event.visible, Event.submitted, Event.started, State.waits, Option.bind, Option.elim,
      State.setMain, MainPc.potential]
    omega

/-! ## What a step costs altogether -/

/-- A task that is submitted waits, one that is drawn does not any more. -/
theorem Label.Handed.waits (job : Job ι) (s : State W ι) (hb : l.Handed b b') :
    (b'.waiting.map (s.waits job)).sum + l.leaves job s =
      (b.waiting.map (s.waits job)).sum + l.arrives job s := by
  rw [Label.Handed] at hb
  rw [Label.leaves, Label.arrives]
  cases hl : l.event with
  | none =>
    rw [hl] at hb
    rw [hb]
    rfl
  | some e =>
    rw [hl] at hb
    cases hb with
    | submit task _ =>
      simp [Event.submitted, Event.started, add_comm]
    | start _ hwait =>
      simp [Event.submitted, Event.started, hwait, add_comm]
    | finish _ | sawZero _ _ => rfl

/-- A step that makes no node leaves no node more entries than before. -/
theorem Born.unread_le (hborn : Born s s' l) (hl : l.created = none) (h : References b s)
    {active : Multiset ℕ} (hlater : Later s s' active) (n : ℕ) (seen : Finset ι) :
    s'.unread job n seen ≤ s.unread job n seen := by
  by_cases hn : n = s.next
  · have hnone : s'.nodes n = none := by
      cases hborn with
      | news => cases hl
      | deletes hx hnodes =>
        rw [hnodes, Function.update_of_ne (hn ▸ (h.lt_next (cells_of_node hx)).ne'), hn]
        exact Option.map_eq_none_iff.mp (h.unborn s.next le_rfl)
      | kept _ _ _ hkept =>
        rw [← Option.isNone_iff_eq_none, ← Option.not_isSome, hkept, hn]
        simp [Option.map_eq_none_iff.mp (h.unborn s.next le_rfl)]
    rw [State.unread, hnone]
    exact Nat.zero_le _
  · exact hlater.unread_le hn seen

/-- The tasks that wait after a step are worth no more than they were before it. -/
theorem waits_le (job : Job ι) (h : References b s) {active : Multiset ℕ} (hlater : Later s s' active)
    (hborn : Born s s' l) (hb : l.Handed b b') :
    (b'.waiting.map (s'.waits job)).sum ≤ (b'.waiting.map (s.waits job)).sum := by
  refine Multiset.sum_map_le_sum_map _ _ fun n hn => Nat.add_le_add_left ?_ 9
  cases hl : l.created with
  | none => exact hborn.unread_le hl h hlater n ∅
  | some m =>
    -- A node that has just been made is not submitted yet.
    cases hborn with
    | news =>
      obtain rfl : b' = b := hb
      obtain ⟨x, hx⟩ := live_of_waiting h hn
      exact hlater.unread_le (h.lt_next (cells_of_node hx)).ne ∅
    | deletes => cases hl
    | kept hcreated =>
      rw [hcreated] at hl
      cases hl

/-- What other threads have to do does not grow. -/
theorem others_potential_le (h : References b s) {active : Multiset ℕ}
    (hlater : Later s s' active) (k : Fin W) :
    (s.workers k).potential job (s'.unread job) ≤ (s.workers k).potential job (s.unread job) := by
  apply Pc.potential_mono
  intro n hn seen
  obtain ⟨x, hx⟩ := live_of_uses h hn
  exact hlater.unread_le (h.lt_next (cells_of_node hx)).ne seen

theorem main_potential_le (job : Job ι) (h : References b s) {active : Multiset ℕ}
    (hlater : Later s s' active) :
    s.main.potential job (s'.unread job) ≤ s.main.potential job (s.unread job) := by
  apply MainPc.potential_mono
  intro n hn seen
  obtain ⟨x, hx⟩ := live_of_main h hn
  exact hlater.unread_le (h.lt_next (cells_of_node hx)).ne seen

/-- **A step of a worker uses up a unit of what is left to do.** -/
theorem WorkerStep.potential_le (h : References b s) (hv : Visits job s)
    (hs : WorkerStep job w s l s') (hb : l.Handed b b') :
    potential job b' s' + 1 + l.saved ≤ potential job b s + l.given := by
  have hlater := hs.later h fun n x hx => (hv.nodes n x hx).small
  have hpays := hs.pays h
  have hwaits := Label.Handed.waits job s hb
  have hwaiting := waits_le job h hlater hs.born hb
  have hmain := main_potential_le job h hlater
  have hothers : ∑ k ∈ Finset.univ.erase w, (s'.workers k).potential job (s'.unread job) ≤
      ∑ k ∈ Finset.univ.erase w, (s.workers k).potential job (s.unread job) := by
    refine Finset.sum_le_sum fun k hk => ?_
    rw [hs.workers_eq, Function.update_of_ne (Finset.ne_of_mem_erase hk)]
    exact others_potential_le h hlater k
  rw [potential, potential, hs.main_eq, ← Finset.sum_erase_add _ _ (Finset.mem_univ w),
    ← Finset.sum_erase_add Finset.univ (fun k => (s.workers k).potential job (s.unread job))
      (Finset.mem_univ w)]
  rw [Label.Paid] at hpays
  omega

/-- **A step of the main thread uses up a unit of what is left to do.** -/
theorem MainStep.potential_le (h : References b s) (hs : MainStep job s l s')
    (hb : l.Handed b b') :
    potential job b' s' + 1 + l.saved ≤ potential job b s + l.given := by
  have hpays := hs.pays
  have hwaits := Label.Handed.waits job s hb
  have hwaiting := waits_le job h hs.later hs.born hb
  have hothers : ∑ k, (s'.workers k).potential job (s'.unread job) ≤
      ∑ k, (s.workers k).potential job (s.unread job) := by
    refine Finset.sum_le_sum fun k _ => ?_
    rw [hs.workers_eq]
    exact others_potential_le h hs.later k
  rw [potential, potential]
  rw [Label.Paid] at hpays
  omega

/-! ## Every run -/

/-- Whether a step parks a directory. -/
def Label.isPark : Label W ι → Bool
  | .parks _ => true
  | _ => false

/-- How often a run parks a directory. -/
def parks (tr : List (Label W ι)) : ℕ := tr.countP Label.isPark

omit [DecidableEq ι] [Fintype ι] in
theorem sum_saved (tr : List (Label W ι)) :
    (tr.map Label.saved).sum = 4 * (created tr).card := by
  induction tr with
  | nil => rfl
  | cons l tr ih =>
    rw [created, Multiset.coe_card] at ih ⊢
    rw [List.map_cons, List.sum_cons, List.filterMap_cons, ih]
    cases l <;> simp only [Label.saved, Label.created, List.length_cons] <;> omega

omit [DecidableEq ι] [Fintype ι] in
theorem sum_given (tr : List (Label W ι)) :
    (tr.map Label.given).sum = 4 * (deleted tr).card + 4 * parks tr := by
  induction tr with
  | nil => rfl
  | cons l tr ih =>
    rw [deleted, Multiset.coe_card, parks] at ih ⊢
    rw [List.map_cons, List.sum_cons, List.filterMap_cons, List.countP_cons, ih]
    cases l <;> simp only [Label.given, Label.deleted, Label.isPark, List.length_cons, if_true,
      if_false, Bool.false_eq_true] <;> omega

theorem steps_of_run (hfits : job.Fits) {tr : List (Label W ι)} {p : Bag W ℕ × State W ι}
    (h : (bagRemoval job W).Run tr p) :
    tr.length + potential job p.1 p.2 ≤ 2 + job.costs job.operands + 4 * parks tr := by
  have hstart : ∀ p, (bagRemoval job W).init p →
      potential job p.1 p.2 ≤ 2 + job.costs job.operands := by
    intro p hinit
    rw [bagRemoval_init hinit]
    simp [potential, State.initial, MainPc.potential, Pc.potential]
  have hkeep : ∀ tr p l p', (bagRemoval job W).Run tr p → (bagRemoval job W).step p l p' →
      potential job p'.1 p'.2 + 1 + l.saved ≤ potential job p.1 p.2 + l.given := by
    intro tr p l p' hr hstep
    obtain ⟨href, hv⟩ := visits_of_run hfits hr
    have hb := handed_of_join hstep
    rcases hstep.right with hmain | ⟨w, hworker⟩
    · exact hmain.potential_le href hb
    · exact hworker.potential_le href hv hb
  have hlength := h.length_le hstart hkeep
  -- No more nodes are freed than have been made.
  have hcard := congrArg Multiset.card (ledger_of_run h).balance
  rw [Multiset.card_add] at hcard
  rw [sum_saved, sum_given] at hlength
  omega

section Answers

variable (job) (left : Finset ι)

omit [Fintype ι] in
/-- An open need not be refused. -/
theorem exists_opens (i : ι) :
    ∃ r, Opens job.faults left i r ∧ ∀ e, r = .error e → e.retryable = false := by
  by_cases hleft : i ∈ left
  · cases hfault : job.faults.openDir i with
    | none => exact ⟨_, .opened hleft hfault, fun e he => (by cases he)⟩
    | some e =>
      refine ⟨_, .fault hfault, fun e he => ?_⟩
      cases he
      rfl
  · refine ⟨_, .absent hleft, fun e he => ?_⟩
    cases he
    rfl

omit [Fintype ι] in
theorem exists_stats (i : ι) : ∃ r, Stats job.tree job.faults left i r := by
  by_cases hleft : i ∈ left
  · cases hfault : job.faults.fstatat i with
    | none => exact ⟨_, .found hleft hfault⟩
    | some e => exact ⟨_, .fault hfault⟩
  · exact ⟨_, .absent hleft⟩

omit [Fintype ι] in
theorem exists_unlinks (i : ι) : ∃ r, Unlinks job.faults left i r := by
  by_cases hleft : i ∈ left
  · cases hfault : job.faults.unlink i with
    | none => exact ⟨_, .removed hleft hfault⟩
    | some e => exact ⟨_, .fault hfault⟩
  · exact ⟨_, .absent hleft⟩

omit [Fintype ι] in
theorem exists_rmdirs (i : ι) : ∃ r, Rmdirs job.tree job.faults left i r := by
  by_cases hempty : ∃ c, job.tree.up c = some i ∧ c ∈ left
  · obtain ⟨c, hup, hc⟩ := hempty
    exact ⟨_, .notEmpty hup hc⟩
  · by_cases hleft : i ∈ left
    · cases hfault : job.faults.rmdir i with
      | none => exact ⟨_, .removed hleft hfault fun c hup hc => hempty ⟨c, hup, hc⟩⟩
      | some e => exact ⟨_, .fault hfault⟩
    · exact ⟨_, .absent hleft⟩

omit [Fintype ι] in
/-- The read of a directory returns another entry, or ends. -/
theorem exists_reads (d : ι) (seen : Finset ι) : ∃ r, Reads job.tree job.faults left d seen r := by
  by_cases hmore : ∃ c ∈ left, job.tree.up c = some d ∧ ¬Lost job.tree job.faults c ∧ c ∉ seen
  · obtain ⟨c, -, hup, hlost, hc⟩ := hmore
    exact ⟨_, .entry hup hc hlost⟩
  · have hseen : ∀ c ∈ left, job.tree.up c = some d → ¬Lost job.tree job.faults c → c ∈ seen := by
      intro c hc hup hlost
      by_contra hnot
      exact hmore ⟨c, hc, hup, hlost, hnot⟩
    cases hfault : job.faults.read d with
    | none =>
      refine ⟨_, .done hfault fun c hc hup => hseen c hc hup ?_⟩
      rintro ⟨-, d', e, hup', hfault'⟩
      rw [hup] at hup'
      cases hup'
      rw [hfault] at hfault'
      cases hfault'
    | some e => exact ⟨_, .fault hfault hseen⟩

end Answers

/-! ## Someone may go on -/

/-- A thread may take a step with the bag that parks nothing. -/
def Enabled (job : Job ι) (b : Bag W ℕ) (s : State W ι) : Prop :=
  ∃ l p, (bagRemoval job W).step (b, s) l p ∧ l.isPark = false

theorem enabled_alone (hl : l.event = none ∧ l.isPark = false)
    (hs : (threads job W).step s l s') : Enabled job b s :=
  ⟨l, (b, s'), .alone hl.1 hs, hl.2⟩

theorem enabled_together {e : Event W ℕ} (hb : Bag.Step b e b') (he : e.visible = some e)
    (hs : (threads job W).step s (.scheduler e) s') : Enabled job b s :=
  ⟨_, (b', s'), .together (show (Label.scheduler e : Label W ι).event = _ from he) hb hs, rfl⟩

omit [DecidableEq ι] [Fintype ι] in
theorem openLabel_alone (i : ι) (e : Errno) :
    (openLabel i e : Label W ι).event = none ∧ (openLabel i e : Label W ι).isPark = false := by
  rw [openLabel]
  split_ifs <;> exact ⟨rfl, rfl⟩

omit [DecidableEq ι] [Fintype ι] in
theorem removeLabel_alone (i : ι) (r : Option Errno) :
    (removeLabel i r : Label W ι).event = none ∧ (removeLabel i r : Label W ι).isPark = false := by
  cases r with
  | none => exact ⟨rfl, rfl⟩
  | some e =>
    rw [removeLabel]
    split_ifs <;> exact ⟨rfl, rfl⟩

/-- **A worker that is in `Process` may go on.** -/
theorem enabled_of_busy (h : References b s) (hpaired : Paired b s) (hopen : b.closed = false)
    (hbusy : s.workers w ≠ .idle) : Enabled job b s := by
  have hlive : ∀ n ∈ (s.workers w).uses, ∃ x path, s.nodes n = some x ∧ s.path n = some path := by
    intro n hn
    obtain ⟨x, hx⟩ := live_of_uses h hn
    obtain ⟨names, hnames⟩ := path_of_live h hx
    refine ⟨x, pathInto names, hx, ?_⟩
    rw [State.path, hnames]
    rfl
  have hseen : ∀ {l s'}, l.event = none ∧ l.isPark = false → WorkerStep job w s l s' →
      Enabled job b s := fun hl hs => enabled_alone hl (.inr ⟨w, hs⟩)
  have hgo : ∀ {s'}, WorkerStep job w s .internal s' → Enabled job b s := hseen ⟨rfl, rfl⟩
  have hsubmit : ∀ {n s'}, WorkerStep job w s (.scheduler (.submit n)) s' → Enabled job b s :=
    fun hs => enabled_together (.submit _ hopen) rfl (.inr ⟨w, hs⟩)
  cases hpc : s.workers w with
  | idle => exact absurd hpc hbusy
  | openNode n =>
    rw [hpc] at hlive
    obtain ⟨x, path, hx, hpath⟩ := hlive n (List.mem_singleton_self n)
    cases hready : x.isOpen with
    | true => exact hgo (.openReady hpc hx hready)
    | false =>
      obtain ⟨r, hopens, hretry⟩ := exists_opens job (s.view job n) x.entry
      cases r with
      | ok u => exact hgo (.opened hpc hx hready hpath hopens)
      | error e =>
        have hfinal := hretry e rfl
        cases hforce : job.options.force with
        | true =>
          exact hseen (openLabel_alone ..)
            (.openFailedForce hpc hx hready hpath hopens hfinal hforce)
        | false =>
          exact hseen (openLabel_alone ..) (.openFailed hpc hx hready hpath hopens hfinal hforce)
  | resubmit n => exact hsubmit (.resubmit hpc)
  | forceRemove n e =>
    rw [hpc] at hlive
    obtain ⟨x, path, hx, hpath⟩ := hlive n (List.mem_singleton_self n)
    obtain ⟨r, hrmdirs⟩ := exists_rmdirs job (s.view job n) x.entry
    exact hseen (removeLabel_alone ..) (.forceRemove hpc hx hpath (.rmdir hrmdirs))
  | discard n =>
    rw [hpc] at hlive
    obtain ⟨x, path, hx, hpath⟩ := hlive n (List.mem_singleton_self n)
    exact hseen ⟨rfl, rfl⟩ (.discard hpc hx)
  | read n seen =>
    rw [hpc] at hlive
    obtain ⟨x, path, hx, hpath⟩ := hlive n (List.mem_singleton_self n)
    obtain ⟨r, hreads⟩ := exists_reads job s.left x.entry seen
    cases r with
    | none => exact hgo (.readDone hpc hx hreads)
    | some next =>
      cases next with
      | ok c => exact hgo (.readEntry hpc hx hreads)
      | error e => exact hgo (.readFailed hpc hx hpath hreads)
  | fstatat n seen c =>
    rw [hpc] at hlive
    obtain ⟨x, path, hx, hpath⟩ := hlive n (List.mem_singleton_self n)
    obtain ⟨r, hstats⟩ := exists_stats job s.left c
    cases r with
    | ok isDir => exact hgo (.stat hpc hx hstats)
    | error e =>
      by_cases he : e = .enoent
      · subst he
        exact hgo (.statAbsent hpc hx hstats)
      · exact hgo (.statFailed hpc hx hpath hstats he)
  | unlinkat n seen c =>
    rw [hpc] at hlive
    obtain ⟨x, path, hx, hpath⟩ := hlive n (List.mem_singleton_self n)
    obtain ⟨r, hunlinks⟩ := exists_unlinks job s.left c
    exact hseen ⟨rfl, rfl⟩ (.unlinkat hpc hx hpath hunlinks)
  | child n seen c => exact hgo (.exhausted hpc)
  | forceUnlinkat n seen c e =>
    rw [hpc] at hlive
    obtain ⟨x, path, hx, hpath⟩ := hlive n (List.mem_singleton_self n)
    obtain ⟨r, hrmdirs⟩ := exists_rmdirs job s.left c
    exact hseen ⟨rfl, rfl⟩ (.forceUnlinkat hpc hx hpath hrmdirs)
  | makeChild n seen c opened => exact hseen ⟨rfl, rfl⟩ (.makeChild hpc)
  | countChild n seen m =>
    rw [hpc] at hlive
    obtain ⟨x, path, hx, hpath⟩ := hlive n List.mem_cons_self
    exact hgo (.countChild hpc hx)
  | submitChild n seen m => exact hsubmit (.submitChild hpc)
  | close n =>
    rw [hpc] at hlive
    obtain ⟨x, path, hx, hpath⟩ := hlive n (List.mem_singleton_self n)
    exact hgo (.close hpc hx)
  | release n =>
    rw [hpc] at hlive
    obtain ⟨x, path, hx, hpath⟩ := hlive n (List.mem_singleton_self n)
    by_cases hlast : x.remaining = 1
    · exact hgo (.releaseLast hpc hx hlast)
    · exact hgo (.releaseShared hpc hx hlast)
  | remove n =>
    rw [hpc] at hlive
    obtain ⟨x, path, hx, hpath⟩ := hlive n (List.mem_singleton_self n)
    obtain ⟨r, hrmdirs⟩ := exists_rmdirs job (s.view job n) x.entry
    exact hseen (removeLabel_alone ..) (.remove hpc hx hpath (.rmdir hrmdirs))
  | delete n =>
    rw [hpc] at hlive
    obtain ⟨x, path, hx, hpath⟩ := hlive n (List.mem_singleton_self n)
    exact hseen ⟨rfl, rfl⟩ (.delete hpc hx)
  | say o after => exact hseen ⟨rfl, rfl⟩ (.say hpc)
  | done =>
    -- The scheduler knows which task this is.
    obtain ⟨n, hrun⟩ := Option.ne_none_iff_exists'.mp fun hnone =>
      hbusy ((hpaired.workers w).mp hnone)
    exact enabled_together (.finish hrun) rfl (.inr ⟨w, .finish hpc⟩)

/-- **The main thread may go on** in the operand loop. -/
theorem enabled_of_operand (hopen : b.closed = false)
    (hmain : s.main ≠ .lstat [] ∧ s.main.status = none) : Enabled job b s := by
  have hgo : ∀ {l s'}, l.event = none ∧ l.isPark = false → MainStep job s l s' → Enabled job b s :=
    fun hl hs => enabled_alone hl (.inl hs)
  cases hpc : s.main with
  | prompt operands =>
    cases hconfirms : job.confirms with
    | true => exact hgo ⟨rfl, rfl⟩ (.confirmed hpc hconfirms)
    | false => exact hgo ⟨rfl, rfl⟩ (.declined hpc hconfirms)
  | lstat operands =>
    cases operands with
    | nil => exact absurd hpc hmain.1
    | cons o rest =>
      cases hlstat : job.lstat s.left o with
      | error e => exact hgo ⟨rfl, rfl⟩ (.lstatFailed hpc hlstat)
      | ok i =>
        cases hdir : job.tree.isDir i with
        | true => exact hgo ⟨rfl, rfl⟩ (.isDir hpc hlstat hdir)
        | false => exact hgo ⟨rfl, rfl⟩ (.isFile hpc hlstat hdir)
  | unlink text i rest =>
    obtain ⟨r, hunlinks⟩ := exists_unlinks job (job.found s.left text) i
    exact hgo ⟨rfl, rfl⟩ (.unlink hpc hunlinks)
  | rmdir text i rest =>
    obtain ⟨r, hrmdirs⟩ := exists_rmdirs job (job.found s.left text) i
    exact hgo ⟨rfl, rfl⟩ (.rmdir hpc hrmdirs)
  | openDir text i rest =>
    obtain ⟨r, hopens, -⟩ := exists_opens job (job.found s.left text) i
    cases r with
    | ok u => exact hgo ⟨rfl, rfl⟩ (.opened hpc hopens)
    | error e => exact hgo (openLabel_alone ..) (.openFailed hpc hopens)
  | forceRmdir text i e rest =>
    obtain ⟨r, hrmdirs⟩ := exists_rmdirs job (job.found s.left text) i
    exact hgo ⟨rfl, rfl⟩ (.forceRmdir hpc hrmdirs)
  | seed text i rest => exact hgo ⟨rfl, rfl⟩ (.seed hpc)
  | submit n rest =>
    exact enabled_together (.submit n hopen) rfl (.inl (.submit hpc))
  | say o rest => exact hgo ⟨rfl, rfl⟩ (.say hpc)
  | declined | returned =>
    rw [hpc] at hmain
    cases hmain.2

/-- **Nobody gets stuck**: until `RunRm` has returned, some thread may go on. -/
theorem enabled_of_run (hfits : job.Fits) (hW : 0 < W) {tr : List (Label W ι)}
    {p : Bag W ℕ × State W ι} (h : (bagRemoval job W).Run tr p)
    (hmain : p.2.main.status = none) : Enabled job p.1 p.2 := by
  obtain ⟨href, -⟩ := visits_of_run hfits h
  have hpaired := paired_of_run h
  have hopen : p.1.closed = false := by
    rw [Bool.eq_false_iff]
    intro hclosed
    obtain ⟨status, hstatus⟩ := hpaired.main.mp hclosed
    rw [hstatus] at hmain
    cases hmain
  by_cases hwait : p.2.main = .lstat []
  · by_cases hidle : ∀ w, p.2.workers w = .idle
    · -- Nobody works: a task is drawn, or there is none and `Wait` returns.
      rcases Multiset.empty_or_exists_mem p.1.waiting with hempty | ⟨n, hn⟩
      · refine enabled_together (.sawZero hempty fun w => ?_) rfl (.inl (.wait hwait))
        exact (hpaired.workers w).mpr (hidle w)
      · obtain ⟨rest, hrest⟩ := Multiset.exists_cons_of_mem hn
        have hnone := (hpaired.workers ⟨0, hW⟩).mpr (hidle ⟨0, hW⟩)
        exact enabled_together (.start hnone hrest) rfl (.inr ⟨⟨0, hW⟩, .start (hidle _)⟩)
    · obtain ⟨w, hbusy⟩ := not_forall.mp hidle
      exact enabled_of_busy href hpaired hopen hbusy
  · exact enabled_of_operand hopen ⟨hwait, hmain⟩

/-! ## The way to the end -/

omit [DecidableEq ι] [Fintype ι] in
theorem parks_snoc (tr : List (Label W ι)) (h : l.isPark = false) :
    parks (tr ++ [l]) = parks tr := by
  rw [parks, List.countP_append, List.countP_singleton, h]
  rfl

/-- **The way to the end.**  From every state that a removal can be in, with at least one worker,
    there is a way on to the return of `RunRm` on which nothing is parked, and no more steps are
    taken altogether than the entries are worth. -/
theorem can_return (hfits : job.Fits) (hW : 0 < W) {tr : List (Label W ι)}
    {p : Bag W ℕ × State W ι} (h : (bagRemoval job W).Run tr p) :
    ∃ q p' status, (bagRemoval job W).Path p q p' ∧ parks (q.map Prod.fst) = 0 ∧
      p'.2.main.status = some status ∧
        tr.length + q.length ≤ 2 + job.costs job.operands + 4 * parks tr := by
  -- By induction on the steps that may still be taken.
  generalize hleft : 2 + job.costs job.operands + 4 * parks tr - tr.length = left
  induction left using Nat.strong_induction_on generalizing tr p with
  | _ left ih =>
    have hbound := steps_of_run hfits h
    cases hmain : p.2.main.status with
    | some status =>
      refine ⟨[], p, status, .nil p, rfl, hmain, ?_⟩
      rw [List.length_nil]
      omega
    | none =>
      obtain ⟨l, p', hstep, hpark⟩ := enabled_of_run hfits hW h hmain
      have hnext := h.next hstep
      have hparks := parks_snoc tr hpark
      have hlength : (tr ++ [l]).length = tr.length + 1 := by simp
      have hbound' := steps_of_run hfits hnext
      rw [hparks, hlength] at hbound'
      obtain ⟨q, p'', status, hpath, hq, hstatus, hsteps⟩ :=
        ih _ (by omega : 2 + job.costs job.operands + 4 * parks tr - (tr.length + 1) < left) hnext
          (by rw [hparks, hlength])
      refine ⟨(l, p') :: q, p'', status, .cons hstep hpath, ?_, hstatus, ?_⟩
      · rw [List.map_cons, parks, List.countP_cons, hpark]
        exact hq
      · rw [hparks, hlength] at hsteps
        rw [List.length_cons]
        omega

/-- From where the subdirectory waits there is a way to the end. -/
theorem can_return_folder : ∃ (p : Bag 1 ℕ × State 1 (Fin 3))
    (q : List (Label 1 (Fin 3) × (Bag 1 ℕ × State 1 (Fin 3)))) (p' : Bag 1 ℕ × State 1 (Fin 3))
    (status : ℕ), (bagRemoval removeFolder 1).Path p q p' ∧ p.1.waiting = {1} ∧
      p'.2.main.status = some status := by
  obtain ⟨tr, p, -, -, -, -, ⟨h, hwaiting, -⟩, -⟩ := removeFolder_run
  obtain ⟨q, p', status, hpath, -, hstatus, -⟩ :=
    can_return removeFolder_fits Nat.one_pos (removal_refines h)
  exact ⟨_, q, p', status, hpath, hwaiting, hstatus⟩

/-! ## Executions -/

/-- While some thread may go on, one does sooner or later: the scheduler does not keep its tasks
    from all workers for ever, and the system does not stop all threads for ever. -/
def Goes (x : (removal job W P).Execution) : Prop :=
  ∀ n, Enabled job (x.state n).1.bag (x.state n).2 → ∃ m, n ≤ m ∧ ∃ l, x.event m = some (some l)

/-- When `RunRm` has returned, nothing goes on. -/
theorem not_enabled_of_returned {tr : List (Label W ι)} {p : Bag W ℕ × State W ι}
    (h : (bagRemoval job W).Run tr p) {status : ℕ} (hmain : p.2.main.status = some status) :
    ¬Enabled job p.1 p.2 := by
  rintro ⟨l, p', hstep, -⟩
  rcases asked_of_run h with ⟨-, rfl⟩ | ⟨-, -, rfl⟩ | ⟨-, hpassed⟩
  · cases hmain
  · rcases hstep.right with hs | ⟨w, hs⟩
    · rcases hs.asks with ⟨hpassed, -⟩ | ⟨operands, hpc, -⟩
      · cases hpassed
      · cases hpc
    · exact hs.not_rest rfl rfl (handed_of_join hstep)
  · have hmain := returned_of_status hpassed hmain
    rcases hstep.right with hs | ⟨w, hs⟩
    · rcases hs.process with ⟨-, hlstat, -⟩ | ⟨-, hnot, -⟩
      · rw [hmain] at hlstat
        cases hlstat
      · exact hnot status hmain
    · exact hs.not_returned h (handed_of_join hstep) status hmain

/-- An execution that rests when `RunRm` has returned has gone on until then. -/
theorem goes_of_rest {x : (removal job W P).Execution} {n₀ status : ℕ}
    {tr : List (Option (Label W ι))} {p : TaskScheduler.State W P ℕ × State W ι}
    (h : x.RestsFrom n₀ tr p) (hmain : p.2.main.status = some status) : Goes x := by
  intro n henabled
  by_contra hquiet
  have hsilent : ∀ m l, n ≤ m → x.event m ≠ some (some l) :=
    fun m l hm hl => hquiet ⟨m, hm, l, hl⟩
  -- Without their steps the threads stay where they are.
  have hstays : ∀ m, n ≤ m → (x.state m).2 = (x.state n).2 := by
    refine x.always_of_step (I := fun q => q.2 = (x.state n).2) rfl fun m e hm hevent hI => ?_
    have hstep := x.step hevent
    generalize x.state (m + 1) = next at hstep ⊢
    generalize x.state m = now at hstep hI
    cases hstep with
    | hidden => exact hI
    | seen => exact absurd hevent (hsilent m _ hm)
  have hreturned : (x.state n).2.main.status = some status := by
    rw [← hstays (max n n₀) (le_max_left _ _), (h (max n n₀) (le_max_right _ _)).1]
    exact hmain
  exact not_enabled_of_returned (removal_refines (x.run n)) hreturned henabled

/-- An execution parks no more than the run that it has made when it rests. -/
theorem parks_of_rest {x : (removal job W P).Execution} {n₀ : ℕ}
    {tr : List (Option (Label W ι))} {p : TaskScheduler.State W P ℕ × State W ι}
    (h : x.RestsFrom n₀ tr p) (n : ℕ) :
    parks (x.trace n).reduceOption ≤ parks tr.reduceOption := by
  obtain ⟨later, hlater⟩ := x.trace_prefix (le_max_left n n₀)
  rw [← (h (max n n₀) (le_max_right _ _)).2.2, ← hlater, List.reduceOption_append, parks, parks,
    List.countP_append]
  exact Nat.le_add_right _ _

/-- **`RunRm` returns**: whatever the scheduler and the threads do, as long as some thread goes on
    when one may, and directories are parked at most `k` times. -/
theorem removal_returns (hfits : job.Fits) (hW : 0 < W) (x : (removal job W P).Execution)
    (hgoes : Goes x) {k : ℕ} (hparks : ∀ n, parks (x.trace n).reduceOption ≤ k) :
    ∃ n status, (x.state n).2.main.status = some status ∧
      (x.trace n).reduceOption.length ≤ 2 + job.costs job.operands + 4 * k := by
  have hbound : ∀ n, (x.trace n).reduceOption.length ≤ 2 + job.costs job.operands + 4 * k := by
    intro n
    have hsteps := steps_of_run hfits (removal_refines (x.run n))
    have hn := hparks n
    omega
  by_contra hnever
  have hmain : ∀ n, (x.state n).2.main.status = none := by
    intro n
    cases hstatus : (x.state n).2.main.status with
    | none => rfl
    | some status => exact absurd ⟨n, status, hstatus, hbound n⟩ hnever
  -- Otherwise there are as many steps as one likes.
  have hmore : ∀ j, ∃ n, j ≤ (x.trace n).reduceOption.length := by
    intro j
    induction j with
    | zero => exact ⟨0, Nat.zero_le _⟩
    | succ j ih =>
      obtain ⟨n, hn⟩ := ih
      obtain ⟨m, hnm, l, hl⟩ :=
        hgoes n (enabled_of_run hfits hW (removal_refines (x.run n)) (hmain n))
      obtain ⟨later, hlater⟩ := x.trace_prefix hnm
      refine ⟨m + 1, ?_⟩
      rw [x.trace_succ, hl, ← hlater, Option.toList_some, List.reduceOption_append,
        List.reduceOption_append, List.reduceOption_singleton]
      simp only [List.length_append, Option.toList_some, List.length_singleton]
      omega
  obtain ⟨n, hn⟩ := hmore (2 + job.costs job.operands + 4 * k + 1)
  have hle := hbound n
  omega

/-- The removal of the folder returns. -/
theorem removal_returns_folder : ∃ (x : (removal removeFolder 1 1).Execution) (n status : ℕ),
    (∃ m, (x.trace m).reduceOption = folderLabels 0 0 1 2) ∧
      (x.state n).2.main.status = some status := by
  obtain ⟨-, -, -, -, tr, p, -, -, h, htr, hmain, -⟩ := removeFolder_run
  obtain ⟨x, hx⟩ := System.Execution.exists_of_run h
  have hstatus : p.2.main.status = some 0 := by
    rw [hmain]
    rfl
  obtain ⟨n, status, hreturned, -⟩ := removal_returns removeFolder_fits Nat.one_pos x
    (goes_of_rest hx hstatus) (parks_of_rest hx)
  refine ⟨x, n, status, ⟨tr.length, ?_⟩, hreturned⟩
  rw [(hx tr.length le_rfl).2.2, htr]

end Remmy.Removal
