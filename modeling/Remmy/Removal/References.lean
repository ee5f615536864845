import Remmy.Lib.RefTree
import Remmy.Removal.System

/-!
# The References of the Workers

What the threads of a removal hold of the nodes, as references along a tree
(`Remmy.Lib.RefTree`): a task that waits is a fresh node, a worker that scans a directory has its
own reference, one that has freed a child has the child's.

- `held` collects what everybody holds, `References` is the invariant.
- `WorkerStep.references` and `MainStep.references`: a step is an action of the protocol.
-/

namespace Remmy.Removal

open Remmy.Lib Remmy.TaskScheduler
open Remmy.Lib.RefTree (Hold Cell)

universe u

variable {ι : Type u} {W P : ℕ}

/-! ## Who holds what -/

/-- What a worker holds that has written something. -/
def After.hold : After ι → Hold
  | .read n _ | .close n => .ofOwn n
  | .delete n => .ofDying n
  | .discard n => .ofFresh n

/-- What a worker holds. -/
def Pc.hold : Pc ι → Hold
  | .idle | .done => 0
  | .openNode n | .resubmit n | .forceRemove n _ | .discard n => .ofFresh n
  | .read n _ | .fstatat n _ _ | .unlinkat n _ _ | .child n _ _ | .forceUnlinkat n _ _ _
  | .makeChild n _ _ _ | .close n => .ofOwn n
  | .countChild n _ m => .ofMaking n m
  | .submitChild n _ m => .ofOwn n + .ofFresh m
  | .release n => .ofHeld n
  | .remove n | .delete n => .ofDying n
  | .say _ after => after.hold

/-- What the main thread holds. -/
def MainPc.hold : MainPc ι → Hold
  | .submit n _ => .ofFresh n
  | _ => 0

/-- The tasks that wait. -/
def waitingHold (b : Bag W ℕ) : Hold := ⟨b.waiting, 0, 0, 0, 0⟩

/-- What is held outside the workers. -/
def outside (b : Bag W ℕ) (s : State W ι) : Hold := waitingHold b + s.main.hold

/-- What is held. -/
def held (b : Bag W ℕ) (s : State W ι) : Hold := outside b s + ∑ w, (s.workers w).hold

/-- What everybody but one worker holds. -/
def others (b : Bag W ℕ) (s : State W ι) (w : Fin W) : Hold :=
  outside b s + ∑ k ∈ Finset.univ.erase w, (s.workers k).hold

/-- The nodes as counted references. -/
def State.cells (s : State W ι) (n : ℕ) : Option Cell :=
  (s.nodes n).map fun x => ⟨x.parent, x.remaining⟩

/-- **The protocol of the nodes.** -/
def References (b : Bag W ℕ) (s : State W ι) : Prop := RefTree.Ok s.cells s.next (held b s)

theorem After.pc_hold (after : After ι) : after.pc.hold = after.hold := by
  cases after <;> rfl

theorem held_eq (b : Bag W ℕ) (s : State W ι) (w : Fin W) :
    held b s = others b s w + (s.workers w).hold := by
  rw [held, others, add_assoc, Finset.sum_erase_add _ _ (Finset.mem_univ w)]

/-- What two workers hold is held apart. -/
theorem others_eq (b : Bag W ℕ) (s : State W ι) {w k : Fin W} (hk : k ≠ w) :
    ∃ rest, others b s w = rest + (s.workers k).hold := by
  have hmem : k ∈ Finset.univ.erase w := Finset.mem_erase.mpr ⟨hk, Finset.mem_univ k⟩
  refine ⟨outside b s + ∑ j ∈ (Finset.univ.erase w).erase k, (s.workers j).hold, ?_⟩
  rw [others, add_assoc, Finset.sum_erase_add _ _ hmem]

/-- Of a node only one thread holds the own reference. -/
theorem References.active_disjoint {b : Bag W ℕ} {s : State W ι} (h : References b s)
    {w k : Fin W} (hk : k ≠ w) {n : ℕ} (hn : n ∈ (s.workers k).hold.active) :
    n ∉ (s.workers w).hold.active := by
  intro hw
  obtain ⟨rest, hrest⟩ := others_eq b s hk
  have hle := h.active_le n
  rw [held_eq b s w, hrest] at hle
  simp only [Hold.active_add, Multiset.count_add] at hle
  have hposk := Multiset.count_pos.mpr hn
  have hposw := Multiset.count_pos.mpr hw
  omega

/-- When a worker has moved, it holds something else. -/
theorem held_move (b : Bag W ℕ) (s : State W ι) {s' : State W ι} {w : Fin W} (pc : Pc ι)
    (hmain : s'.main = s.main) (hworkers : s'.workers = Function.update s.workers w pc) :
    held b s' = others b s w + pc.hold := by
  have hrest : ∑ k ∈ Finset.univ.erase w, (s'.workers k).hold =
      ∑ k ∈ Finset.univ.erase w, (s.workers k).hold := by
    refine Finset.sum_congr rfl fun k hk => ?_
    rw [hworkers, Function.update_of_ne (Finset.ne_of_mem_erase hk)]
  rw [held_eq b s' w, hworkers, Function.update_self, others, others, hrest, outside, outside,
    hmain]

/-- When the main thread has moved, it holds something else. -/
theorem held_main (b : Bag W ℕ) (s : State W ι) {s' : State W ι} (hworkers : s'.workers = s.workers) :
    held b s' = waitingHold b + (∑ w, (s.workers w).hold) + s'.main.hold := by
  rw [held, outside, hworkers, add_right_comm]

/-- A task that is submitted waits. -/
theorem waitingHold_submit (b : Bag W ℕ) (n : ℕ) :
    waitingHold { b with waiting := n ::ₘ b.waiting } = waitingHold b + .ofFresh n := by
  ext1
  · simp [waitingHold, Hold.ofFresh, ← Multiset.singleton_add, add_comm]
  all_goals rfl

theorem others_submit (b : Bag W ℕ) (s : State W ι) (w : Fin W) (n : ℕ) :
    others { b with waiting := n ::ₘ b.waiting } s w = others b s w + .ofFresh n := by
  rw [others, others, outside, outside, waitingHold_submit]
  ac_rfl

/-- A task that is started does not wait any more. -/
theorem others_start {b b' : Bag W ℕ} (s : State W ι) (w : Fin W) {n : ℕ}
    (hwait : b.waiting = n ::ₘ b'.waiting) : others b s w = others b' s w + .ofFresh n := by
  rw [← others_submit, ← hwait]
  rfl

theorem others_congr {b b' : Bag W ℕ} (s : State W ι) (w : Fin W)
    (hwait : b'.waiting = b.waiting) : others b' s w = others b s w := by
  rw [others, others, outside, outside, waitingHold, waitingHold, hwait]

/-! ## The nodes -/

theorem cells_of_node {s : State W ι} {n : ℕ} {x : Node ι} (hx : s.nodes n = some x) :
    s.cells n = some ⟨x.parent, x.remaining⟩ := by
  rw [State.cells, hx]
  rfl

theorem node_of_cells {s : State W ι} {n : ℕ} {c : Cell} (hc : s.cells n = some c) :
    ∃ x, s.nodes n = some x ∧ c = ⟨x.parent, x.remaining⟩ := by
  obtain ⟨x, hx, rfl⟩ := Option.map_eq_some_iff.mp hc
  exact ⟨x, hx, rfl⟩

/-- A node is stored. -/
theorem cells_store {s s' : State W ι} {n : ℕ} {x : Node ι}
    (hnodes : s'.nodes = Function.update s.nodes n (some x)) :
    s'.cells = Function.update s.cells n (some ⟨x.parent, x.remaining⟩) := by
  funext k
  by_cases hk : k = n
  · subst hk
    rw [State.cells, hnodes, Function.update_self, Function.update_self]
    rfl
  · rw [State.cells, hnodes, Function.update_of_ne hk, Function.update_of_ne hk, State.cells]

/-- A node is freed. -/
theorem cells_free {s s' : State W ι} {n : ℕ} (hnodes : s'.nodes = Function.update s.nodes n none) :
    s'.cells = Function.update s.cells n none := by
  funext k
  by_cases hk : k = n
  · subst hk
    rw [State.cells, hnodes, Function.update_self, Function.update_self]
    rfl
  · rw [State.cells, hnodes, Function.update_of_ne hk, Function.update_of_ne hk, State.cells]

/-- A node is stored whose parent and count are as before. -/
theorem cells_same {s s' : State W ι} {n : ℕ} {x y : Node ι} (hx : s.nodes n = some x)
    (hnodes : s'.nodes = Function.update s.nodes n (some y)) (hparent : y.parent = x.parent)
    (hcount : y.remaining = x.remaining) : s'.cells = s.cells := by
  rw [cells_store hnodes, hparent, hcount, ← cells_of_node hx, Function.update_eq_self]

/-! ## What a removal does to a worker -/

section Settle

variable [DecidableEq ι]

/-- The entry that a removal takes away, or the failure that it counts. -/
def settleState (s : State W ι) (w : Fin W) (i : ι) (r : Option Os.Errno) : State W ι :=
  match r with
  | none => s.erase i
  | some e => if e = .enoent then s else s.fail w

/-- Where a worker goes after a removal. -/
def settlePc (job : Job ι) (r : Option Os.Errno) (path : Bytes) (code : Os.Errno → Os.Errno)
    (after : After ι) : Pc ι :=
  match r with
  | none => if job.options.verbose then .say (.line path) after else after.pc
  | some e => if e = .enoent then after.pc else .say (.warning path (code e)) after

theorem settle_eq (job : Job ι) (s : State W ι) (w : Fin W) (i : ι) (r : Option Os.Errno)
    (path : Bytes) (code : Os.Errno → Os.Errno) (after : After ι) :
    settle job s w i r path code after =
      (settleState s w i r).setWorker w (settlePc job r path code after) := by
  cases r with
  | none =>
    rw [settle, settleState, settlePc]
    split_ifs <;> rfl
  | some e =>
    rw [settle, settleState, settlePc]
    split_ifs <;> rfl

omit [DecidableEq ι] in
theorem settlePc_hold (job : Job ι) (r : Option Os.Errno) (path : Bytes)
    (code : Os.Errno → Os.Errno) (after : After ι) :
    (settlePc job r path code after).hold = after.hold := by
  cases r with
  | none =>
    rw [settlePc]
    split_ifs
    · rfl
    · exact after.pc_hold
  | some e =>
    rw [settlePc]
    split_ifs
    · exact after.pc_hold
    · rfl

variable (s : State W ι) (w : Fin W) (i : ι) (r : Option Os.Errno)

@[simp] theorem settleState_nodes : (settleState s w i r).nodes = s.nodes := by
  cases r with
  | none => rfl
  | some e =>
    rw [settleState]
    split_ifs <;> rfl

@[simp] theorem settleState_next : (settleState s w i r).next = s.next := by
  cases r with
  | none => rfl
  | some e =>
    rw [settleState]
    split_ifs <;> rfl

@[simp] theorem settleState_workers : (settleState s w i r).workers = s.workers := by
  cases r with
  | none => rfl
  | some e =>
    rw [settleState]
    split_ifs <;> rfl

@[simp] theorem settleState_main : (settleState s w i r).main = s.main := by
  cases r with
  | none => rfl
  | some e =>
    rw [settleState]
    split_ifs <;> rfl

@[simp] theorem settle_nodes (job : Job ι) (path : Bytes) (code : Os.Errno → Os.Errno)
    (after : After ι) : (settle job s w i r path code after).nodes = s.nodes := by
  rw [settle_eq]
  exact settleState_nodes s w i r

@[simp] theorem settle_next (job : Job ι) (path : Bytes) (code : Os.Errno → Os.Errno)
    (after : After ι) : (settle job s w i r path code after).next = s.next := by
  rw [settle_eq]
  exact settleState_next s w i r

@[simp] theorem settle_cells (job : Job ι) (path : Bytes) (code : Os.Errno → Os.Errno)
    (after : After ι) : (settle job s w i r path code after).cells = s.cells := by
  funext n
  rw [State.cells, settle_nodes, State.cells]

theorem held_settle (b : Bag W ℕ) (job : Job ι) (path : Bytes) (code : Os.Errno → Os.Errno)
    (after : After ι) :
    held b (settle job s w i r path code after) = others b s w + after.hold := by
  rw [settle_eq, ← settlePc_hold job r path code after]
  refine held_move b s _ (settleState_main s w i r) ?_
  rw [State.setWorker, settleState_workers]

end Settle

/-! ## The steps of the workers -/

section Steps

variable [DecidableEq ι] {job : Job ι} {b b' : Bag W ℕ} {s s' : State W ι} {l : Label W ι}

omit [DecidableEq ι] in
theorem entryPc_hold (n : ℕ) (seen : Finset ι) (c : ι) (isDir : Bool) :
    (entryPc n seen c isDir).hold = .ofOwn n := by
  cases isDir <;> rfl

theorem entryRead_hold (n : ℕ) (seen : Finset ι) (c : ι) :
    (job.entryRead n seen c).hold = .ofOwn n := by
  rw [Job.entryRead]
  split_ifs
  · exact entryPc_hold ..
  · rfl

omit [DecidableEq ι] in
theorem climb_hold (p : Option ℕ) : (climb p : Pc ι).hold = .ofParent p := by
  cases p <;> rfl

omit [DecidableEq ι] in
/-- After a step of a worker: the nodes are `cells`, the worker stands at `pc`. -/
theorem references_move (s : State W ι) {w : Fin W} (pc : Pc ι) {cells : ℕ → Option Cell}
    {next : ℕ} (h : RefTree.Ok cells next (others b s w + pc.hold)) (hcells : s'.cells = cells)
    (hnext : s'.next = next) (hmain : s'.main = s.main)
    (hworkers : s'.workers = Function.update s.workers w pc) : References b s' := by
  rw [References, hcells, hnext, held_move b s pc hmain hworkers]
  exact h

omit [DecidableEq ι] in
/-- After a step of a worker that neither gives nor takes a reference. -/
theorem references_turn (h : References b s) {w : Fin W} {pc pc' : Pc ι} (hpc : s.workers w = pc)
    (hworkers : s'.workers = Function.update s.workers w pc') (hhold : pc'.hold = pc.hold)
    (hcells : s'.cells = s.cells) (hnext : s'.next = s.next) (hmain : s'.main = s.main) :
    References b s' := by
  rw [References, held_eq b s w, hpc, ← hhold] at h
  exact references_move s pc' h hcells hnext hmain hworkers

/-- After a removal. -/
theorem references_settle (h : References b s) {w : Fin W} {pc : Pc ι} (hpc : s.workers w = pc)
    (i : ι) (r : Option Os.Errno) (path : Bytes) (code : Os.Errno → Os.Errno) {after : After ι}
    (hhold : after.hold = pc.hold) : References b (settle job s w i r path code after) := by
  rw [References, held_eq b s w, hpc, ← hhold] at h
  rw [References, settle_cells, settle_next, held_settle]
  exact h

/-- **A step of a worker is an action of the protocol**, as long as no counter is full. -/
theorem WorkerStep.references {w : Fin W} (h : References b s) (hs : WorkerStep job w s l s')
    (hb : l.Handed b b') (hsmall : ∀ n x, s.nodes n = some x → x.remaining < 2 ^ 32)
    (hroom : ∀ n seen m x, s.workers w = .countChild n seen m → s.nodes n = some x →
      x.remaining + 1 < 2 ^ 32) : References b' s' := by
  have hheld := h
  rw [References, held_eq b s w] at hheld
  cases hs with
  -- The worker goes on with the references that it has.
  | parked hpc | readDone hpc | readFailed hpc | statAbsent hpc | statFailed hpc | exhausted hpc
  | childOpened hpc | childRefused hpc =>
    cases hb
    exact references_turn h hpc rfl rfl rfl rfl rfl
  | readEntry hpc =>
    cases hb
    exact references_turn h hpc rfl (entryRead_hold ..) rfl rfl rfl
  | stat hpc =>
    cases hb
    exact references_turn h hpc rfl (entryPc_hold ..) rfl rfl rfl
  | say hpc =>
    cases hb
    exact references_turn h hpc rfl (After.pc_hold _) rfl rfl rfl
  | openFailed hpc | openFailedForce hpc | childFailed hpc | childFailedForce hpc =>
    rw [openLabel_handed hb]
    exact references_turn h hpc rfl rfl rfl rfl rfl
  | forceRemove hpc | remove hpc =>
    rw [removeLabel_handed hb]
    exact references_settle h hpc _ _ _ _ rfl
  | unlinkat hpc | forceUnlinkat hpc =>
    cases hb
    exact references_settle h hpc _ _ _ _ rfl
  -- A task goes from the bag to the worker, or back.
  | @start n hpc =>
    obtain ⟨-, hwait⟩ : b.running w = none ∧ b.waiting = n ::ₘ b'.waiting := by
      cases hb with
      | start hidle hwait => exact ⟨hidle, hwait⟩
    rw [hpc, others_start s w hwait, Pc.hold, add_zero] at hheld
    exact references_move s (.openNode n) hheld rfl rfl rfl rfl
  | resubmit hpc =>
    obtain rfl : b' = { b with waiting := _ ::ₘ b.waiting } := by
      cases hb
      rfl
    rw [hpc, Pc.hold, ← others_submit] at hheld
    exact references_move s .done (by rwa [Pc.hold, add_zero]) rfl rfl rfl rfl
  | submitChild hpc =>
    obtain rfl : b' = { b with waiting := _ ::ₘ b.waiting } := by
      cases hb
      rfl
    rw [hpc, Pc.hold, add_comm (Hold.ofOwn _), ← add_assoc, ← others_submit] at hheld
    exact references_move s (.read _ _) hheld rfl rfl rfl rfl
  | finish hpc =>
    have hwait : b'.waiting = b.waiting := by
      cases hb
      rfl
    rw [hpc, ← others_congr s w hwait] at hheld
    exact references_move s (.idle) hheld rfl rfl rfl rfl
  -- The node is touched, or closed, and its counter stays.
  | openReady hpc hx =>
    cases hb
    rw [hpc] at hheld
    exact references_move s (.read _ ∅) hheld.touch rfl rfl rfl rfl
  | opened hpc hx =>
    cases hb
    rw [hpc] at hheld
    exact references_move s (.read _ ∅) hheld.touch (cells_same hx rfl rfl rfl) rfl rfl rfl
  | close hpc hx =>
    cases hb
    rw [hpc] at hheld
    exact references_move s (.release _) hheld.share (cells_same hx rfl rfl rfl) rfl rfl rfl
  -- The child refers to its parent one step before the counter of the parent says so.
  | makeChild hpc =>
    cases hb
    rw [hpc] at hheld
    refine references_move s (.countChild _ _ _) hheld.child ?_ rfl rfl rfl
    rw [cells_store (s := s) rfl]
  | @countChild n m seen x hpc hx =>
    -- No counter is full, so the counter does not wrap.
    cases hb
    have hroom := hroom n seen m x hpc hx
    rw [hpc] at hheld
    have hcounted := hheld.counted (cells_of_node hx)
    refine references_move s (.submitChild _ _ _) hcounted ?_ rfl rfl rfl
    rw [cells_store (s := s) rfl, Nat.mod_eq_of_lt hroom]
  | @releaseShared n x hpc hx hcount =>
    -- What the worker holds is counted, so the counter is not 0 and does not wrap.
    cases hb
    rw [hpc] at hheld
    have hcounts := hheld.count_of_held (cells_of_node hx)
    have hsmall := hsmall n x hx
    have hsub : (x.remaining + (2 ^ 32 - 1)) % 2 ^ 32 = x.remaining - 1 := by
      have hpos : 0 < x.remaining := by
        have hcounted : x.remaining = _ := hcounts.1
        omega
      omega
    have hrelease := hheld.release (cells_of_node hx) hcount
    refine references_move s .done (by rwa [Pc.hold, add_zero]) ?_ rfl rfl rfl
    rw [cells_store (s := s) rfl, hsub]
  | releaseLast hpc hx hcount =>
    -- Only the worker is counted, so no child is left.
    cases hb
    rw [hpc] at hheld
    have hlast := hheld.last (cells_of_node hx) hcount
    refine references_move s (.remove _) hlast ?_ rfl rfl rfl
    rw [cells_store (s := s) rfl]
  | discard hpc hx =>
    -- The node was not opened, so it has no children, and nothing else refers to it.
    cases hb
    rw [hpc] at hheld
    have hfree := hheld.discard (cells_of_node hx)
    exact references_move s (climb _) (by rw [climb_hold]; exact hfree) (cells_free rfl) rfl rfl rfl
  | delete hpc hx =>
    -- The reference of the node to its parent is now the worker's.
    cases hb
    rw [hpc] at hheld
    have hfree := hheld.free (cells_of_node hx)
    exact references_move s (climb _) (by rw [climb_hold]; exact hfree) (cells_free rfl) rfl rfl rfl

/-! ## The steps of the main thread -/

/-- What the operand loop does after a removal changes no node and no worker. -/
theorem settleMain_frame (job : Job ι) (s : State W ι) (i : ι) (r : Option Os.Errno) (path : Bytes)
    (code : Os.Errno → Os.Errno) (ignored : Os.Errno → Bool) (rest : List (Operand ι)) :
    (settleMain job s i r path code ignored rest).nodes = s.nodes ∧
      (settleMain job s i r path code ignored rest).next = s.next ∧
      (settleMain job s i r path code ignored rest).workers = s.workers ∧
      (settleMain job s i r path code ignored rest).main.hold = 0 := by
  cases r <;> rw [settleMain] <;> split_ifs <;> exact ⟨rfl, rfl, rfl, rfl⟩

omit [DecidableEq ι] in
/-- After a step of the main thread: the nodes are `cells`. -/
theorem references_mainMove (s : State W ι) {cells : ℕ → Option Cell} {next : ℕ}
    (h : RefTree.Ok cells next (waitingHold b + (∑ w, (s.workers w).hold) + s'.main.hold))
    (hcells : s'.cells = cells) (hnext : s'.next = next) (hworkers : s'.workers = s.workers) :
    References b s' := by
  rw [References, hcells, hnext, held_main b s hworkers]
  exact h

omit [DecidableEq ι] in
/-- A step of the main thread that changes no node. -/
theorem references_main (h : References b s) (hnodes : s'.nodes = s.nodes)
    (hnext : s'.next = s.next) (hworkers : s'.workers = s.workers)
    (hhold : s'.main.hold = s.main.hold) : References b s' := by
  have hcells : s'.cells = s.cells := by
    funext n
    rw [State.cells, hnodes, State.cells]
  rw [References, held_main b s rfl, ← hhold] at h
  exact references_mainMove s h hcells hnext hworkers

/-- **A step of the main thread is an action of the protocol.** -/
theorem MainStep.references (h : References b s) (hs : MainStep job s l s')
    (hb : l.Handed b b') : References b' s' := by
  cases hs with
  | lstatFailed hpc _ =>
    -- No node is touched by the calls on operands.
    cases hb
    split_ifs
    · exact references_main h rfl rfl rfl (by rw [hpc]; rfl)
    · exact references_main h rfl rfl rfl (by rw [hpc]; rfl)
  | confirmed hpc _ | declined hpc _ | isFile hpc _ _ | opened hpc _ | say hpc =>
    cases hb
    exact references_main h rfl rfl rfl (by rw [hpc]; rfl)
  | isDir hpc _ _ =>
    cases hb
    split_ifs
    · exact references_main h rfl rfl rfl (by rw [hpc]; rfl)
    · exact references_main h rfl rfl rfl (by rw [hpc]; rfl)
    · exact references_main h rfl rfl rfl (by rw [hpc]; rfl)
  | unlink hpc _ | rmdir hpc _ | forceRmdir hpc _ =>
    cases hb
    obtain ⟨hnodes, hnext, hworkers, hhold⟩ := settleMain_frame job s _ _ _ _ _ _
    exact references_main h hnodes hnext hworkers (by rw [hhold, hpc]; rfl)
  | openFailed hpc _ =>
    rw [openLabel_handed hb]
    split_ifs
    · exact references_main h rfl rfl rfl (by rw [hpc]; rfl)
    · exact references_main h rfl rfl rfl (by rw [hpc]; rfl)
  | seed hpc =>
    -- A root is made, which nothing else refers to.
    cases hb
    rw [References, held_main b s rfl, hpc] at h
    have h := (add_zero (_ + _ : Hold)) ▸ h
    refine references_mainMove s h.root ?_ rfl rfl
    rw [cells_store (s := s) rfl]
  | submit hpc =>
    -- The root goes to the bag.
    obtain rfl : b' = { b with waiting := _ ::ₘ b.waiting } := by
      cases hb
      rfl
    rw [References, held_main b s rfl, hpc, MainPc.hold, add_right_comm, ← waitingHold_submit] at h
    exact references_mainMove s (by rwa [← add_zero (_ + _ : Hold)] at h) rfl rfl rfl
  | wait hpc =>
    have hwait : waitingHold b' = waitingHold b := by
      cases hb
      rfl
    rw [References, held_main b s rfl, hpc] at h
    rw [← hwait] at h
    exact references_mainMove s h rfl rfl rfl

end Steps

end Remmy.Removal
