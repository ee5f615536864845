import Remmy.Removal.Protocol

/-!
# Nothing Is Forgotten

What is still there of an operand is still to be done, or there is a reason for it to stay.

- `Excuse` are the reasons: which entries may stay after so many failures.
- `Settled`: whatever is left of an entry and below it may stay.
- `Coverage` is the invariant: a child of a node's directory that is left is awaited by the scan
  of the node, has a node of its own, or is settled; an operand likewise.
- `settled_of_returned`: when `Wait` has returned, every operand is settled, if no operand's path is
  broken by then.
-/

namespace Remmy.Removal

open Remmy.Os Remmy.Lib Remmy.TaskScheduler
open Remmy.Lib.RefTree (Hold)

universe u

variable {ι : Type u} [DecidableEq ι] {W P : ℕ}

/-! ## Reasons to stay -/

/-- The entry that an operand names. -/
def Operand.entry (o : Operand ι) : Option ι := o.target.toOption

/-- `K f i`: after `f` failures entry `i` may stay.  `R` tells whether a refusal for want of
    descriptors may be final. -/
structure Excuse (job : Job ι) (R : Prop) (K : ℕ → ι → Prop) : Prop where
  mono : ∀ {f g i}, f ≤ g → K f i → K g i
  above : ∀ {f c d}, K f c → job.tree.up c = some d → K f d
  unlink : ∀ {f i e}, job.tree.isDir i = false → job.faults.unlink i = some e → K (f + 1) i
  rmdir : ∀ {f i e}, job.tree.isDir i = true → job.faults.rmdir i = some e → K (f + 1) i
  opened : ∀ {f i e}, job.options.recursive = true → job.options.force = false →
    job.tree.isDir i = true → job.faults.openDir i = some e → K (f + 1) i
  inside : ∀ {f d c i e}, job.options.recursive = true → job.faults.openDir d = some e →
    job.tree.up c = some d → job.tree.Within c i → K (f + 1) i
  untyped : ∀ {f d c i e}, job.tree.up c = some d → job.tree.typeKnown c = false →
    job.faults.fstatat c = some e → job.tree.Within c i → K (f + 1) i
  lost : ∀ {f c i}, Lost job.tree job.faults c → job.tree.Within c i → K (f + 1) i
  /-- Without `-r` no directory is read. -/
  flat : ∀ {f d c i}, job.options.recursive = false → job.tree.up c = some d →
    job.tree.Within c i → K (f + 1) i
  directory : ∀ {f i}, job.options.recursive = false → job.options.dir = false →
    job.tree.isDir i = true → K (f + 1) i
  refused : ∀ {f i}, R → K (f + 1) i

/-- Whatever is left of `i` and below may stay. -/
def Settled (job : Job ι) (K : ι → Prop) (left : Finset ι) (i : ι) : Prop :=
  ∀ j, job.tree.Within i j → j ∈ left → K j

variable {job : Job ι} {left left' : Finset ι} {K K' : ι → Prop} {i c : ι}

namespace Settled

omit [DecidableEq ι] in
theorem mono (h : Settled job K left i) (hleft : left' ⊆ left) (hK : ∀ j, K j → K' j) :
    Settled job K' left' i := fun j hj hmem => hK j (h j hj (hleft hmem))

omit [DecidableEq ι] in
/-- Nothing is left below what is not there. -/
theorem of_absent (hgrown : job.tree.Grown left) (hi : i ∉ left) : Settled job K left i :=
  fun _ hj hmem => absurd (hgrown.within hj hmem) hi

omit [DecidableEq ι] in
/-- An entry is settled when it may stay itself and its children are settled. -/
theorem of_children (hgrown : job.tree.Grown left) (hself : i ∈ left → K i)
    (hchild : ∀ c ∈ left, job.tree.up c = some i → Settled job K left c) :
    Settled job K left i := by
  intro j hj hmem
  rcases hgrown.cases_down hj hmem with rfl | ⟨c, hc, hup, hwithin⟩
  · exact hself hmem
  · exact hchild c hc hup j hwithin hmem

omit [DecidableEq ι] in
/-- A file has nothing below it. -/
theorem of_file (hfile : job.tree.isDir i = false) (hself : i ∈ left → K i) :
    Settled job K left i := by
  intro j hj hmem
  rcases hj.cases_down with rfl | ⟨c, hup, -⟩
  · exact hself hmem
  · exact absurd hup (no_child_of_file hfile)

end Settled

/-! ## After a removal -/

/-- All failures so far. -/
def State.total (s : State W ι) : ℕ := s.failures + ∑ w, s.workerFailures w

/-- Entry `i` is settled after its removal had the result `r`. -/
def SettledBy (job : Job ι) (K : ℕ → ι → Prop) (f : ℕ) (left : Finset ι) (i : ι) :
    Option Errno → Prop
  | none => Settled job (K f) (left.erase i) i
  | some e => if e = .enoent then Settled job (K f) left i else Settled job (K (f + 1)) left i

section Removals

variable {R : Prop} {K : ℕ → ι → Prop} {f : ℕ} {r : Option Errno}

theorem settledBy_failed {e : Errno} (he : e ≠ .enoent) (h : Settled job (K (f + 1)) left i) :
    SettledBy job K f left i (some e) := by
  rw [SettledBy, if_neg he]
  exact h

theorem settledBy_absent (hgrown : job.tree.Grown left) (hi : i ∉ left) :
    SettledBy job K f left i (some .enoent) := by
  rw [SettledBy, if_pos rfl]
  exact .of_absent hgrown hi

theorem ne_enoent_of_outOfDescriptors {e : Errno} (h : e.outOfDescriptors = true) :
    e ≠ .enoent := by
  rintro rfl
  cases h

/-- The result of an `unlink` settles a file. -/
theorem settledBy_unlink (hK : Excuse job R K) (hgrown : job.tree.Grown left)
    (hfile : job.tree.isDir i = false) (h : Unlinks job.faults left i r) :
    SettledBy job K f left i r := by
  cases h with
  | removed => exact .of_file hfile fun hi => absurd hi (Finset.notMem_erase i left)
  | absent hi => exact settledBy_absent hgrown hi
  | fault he =>
    have hfault := job.faults.isFault (.inr (.inr (.inl he)))
    exact settledBy_failed hfault.1 (.of_file hfile fun _ => hK.unlink hfile he)

/-- The result of an `rmdir` settles a directory whose children are settled. -/
theorem settledBy_rmdir (hK : Excuse job R K) (hgrown : job.tree.Grown left)
    (hdir : job.tree.isDir i = true)
    (hchild : ∀ c ∈ left, job.tree.up c = some i → Settled job (K (f + 1)) left c)
    (h : Rmdirs job.tree job.faults left i r) : SettledBy job K f left i r := by
  cases h with
  | removed hi hnone hempty =>
    exact .of_absent (hgrown.erase hempty) (Finset.notMem_erase i left)
  | @notEmpty c hup hc =>
    refine settledBy_failed (by decide) (.of_children hgrown (fun _ => ?_) hchild)
    exact hK.above (hchild c hc hup c .self hc) hup
  | absent hi => exact settledBy_absent hgrown hi
  | fault he =>
    have hfault := job.faults.isFault (.inr (.inr (.inr (.inl he))))
    exact settledBy_failed hfault.1 (.of_children hgrown (fun _ => hK.rmdir hdir he) hchild)

/-- The same for a directory with a long path. -/
theorem settledBy_removeEmpty (hK : Excuse job R K) (hgrown : job.tree.Grown left)
    (hdir : job.tree.isDir i = true)
    (hchild : ∀ c ∈ left, job.tree.up c = some i → Settled job (K (f + 1)) left c)
    {path : Bytes} (hR : ∀ e, r = some e → e.outOfDescriptors = true → R)
    (h : RemovesEmpty job left i path r) : SettledBy job K f left i r := by
  cases h with
  | rmdir h => exact settledBy_rmdir hK hgrown hdir hchild h
  | refused _ he =>
    refine settledBy_failed (ne_enoent_of_outOfDescriptors he) fun j _ _ => ?_
    exact hK.refused (hR _ rfl he)

omit [DecidableEq ι] in
/-- A directory whose open has failed is not entered. -/
theorem settled_of_openFailed (hK : Excuse job R K) (hgrown : job.tree.Grown left)
    (hsound : ¬job.Broken left) (hrecursive : job.options.recursive = true) {e : Errno}
    (h : OpenFailed job left i e) (hR : e.outOfDescriptors = true → R) :
    ∀ c ∈ left, job.tree.up c = some i → Settled job (K (f + 1)) left c := by
  intro c hc hup j hj _
  rcases h with hi | he | hout | hbroken
  · exact absurd (hgrown c hc i hup) hi
  · exact hK.inside hrecursive he hup hj
  · exact hK.refused (hR hout)
  · exact absurd hbroken hsound

omit [DecidableEq ι] in
/-- Without `-f` it is settled. -/
theorem settled_of_opens (hK : Excuse job R K) (hgrown : job.tree.Grown left)
    (hsound : ¬job.Broken left) (hrecursive : job.options.recursive = true)
    (hforce : job.options.force = false) (hdir : job.tree.isDir i = true) {e : OpenError} (h : Opens job.faults left i (.error e))
    (hR : e.code.outOfDescriptors = true → R) : Settled job (K (f + 1)) left i := by
  refine .of_children hgrown (fun hi => ?_)
    (settled_of_openFailed hK hgrown hsound hrecursive h.failed hR)
  cases h with
  | absent hnot => exact absurd hi hnot
  | fault he => exact hK.opened hrecursive hforce hdir he
  | refused hout => exact hK.refused (hR hout)

omit [DecidableEq ι] in
/-- An entry whose type cannot be found out. -/
theorem settled_of_stats (hK : Excuse job R K) (hgrown : job.tree.Grown left) {d : ι}
    (hup : job.tree.up i = some d) (hknown : job.tree.typeKnown i = false) {e : Errno}
    (h : Stats job.tree job.faults left i (.error e)) : Settled job (K (f + 1)) left i := by
  cases h with
  | absent hi => exact .of_absent hgrown hi
  | fault he => exact fun j hj _ => hK.untyped hup hknown he hj

end Removals

/-! ## The failures -/

section Total

variable {s s' : State W ι} {w : Fin W}

omit [DecidableEq ι] in
theorem total_fail (s : State W ι) (w : Fin W) : (s.fail w).total = s.total + 1 := by
  have hsum := sum_update_add s.workerFailures (fun _ n => n) w (s.workerFailures w + 1)
  have hsum : (s.fail w).total + s.workerFailures w = s.total + (s.workerFailures w + 1) := by
    rw [State.total, State.total, add_assoc, add_assoc]
    exact congrArg (s.failures + ·) hsum
  omega

omit [DecidableEq ι] in
theorem total_failMain (s : State W ι) : s.failMain.total = s.total + 1 := by
  rw [State.total, State.total]
  exact Nat.succ_add ..

theorem total_settleState_le (s : State W ι) (w : Fin W) (i : ι) (r : Option Errno) :
    s.total ≤ (settleState s w i r).total := by
  cases r with
  | none => exact le_rfl
  | some e =>
    rw [settleState]
    split_ifs
    · exact le_rfl
    · rw [total_fail]
      exact Nat.le_succ _

/-- The entry that a worker has removed is settled then. -/
theorem settled_settleState {K : ℕ → ι → Prop} {r : Option Errno}
    (h : SettledBy job K s.total s.left i r) :
    Settled job (K (settleState s w i r).total) (settleState s w i r).left i := by
  cases r with
  | none => exact h
  | some e =>
    rw [SettledBy] at h
    rw [settleState]
    split_ifs at h ⊢
    · exact h
    · rw [total_fail]
      exact h

theorem WorkerStep.total_le {l : Label W ι} (hs : WorkerStep job w s l s') :
    s.total ≤ s'.total := by
  have hfail : ∀ pc, s.total ≤ ((s.fail w).setWorker w pc).total :=
    fun pc => (Nat.le_succ _).trans (total_fail s w).ge
  cases hs with
  | openFailed | readFailed | statFailed | childFailed => exact hfail _
  | forceRemove | unlinkat | forceUnlinkat | remove =>
    rw [settle_eq]
    exact total_settleState_le ..
  | _ => exact le_rfl

end Total

/-! ## The invariant -/

/-- The node whose directory a worker scans, and the entries that the scan is done with. -/
def Pc.scan : Pc ι → Option (ℕ × Finset ι)
  | .read n seen | .countChild n seen _ | .submitChild n seen _ | .say _ (.read n seen) =>
    some (n, seen)
  | .fstatat n seen c | .unlinkat n seen c | .child n seen c | .forceUnlinkat n seen c _
  | .makeChild n seen c _ => some (n, seen.erase c)
  | _ => none

/-- The node that a worker frees without doing any more about its directory. -/
def Pc.leaves : Pc ι → Option ℕ
  | .discard n | .delete n | .say _ (.discard n) | .say _ (.delete n) => some n
  | _ => none

/-- The error of an open that has failed for good. -/
def Pc.openError : Pc ι → Option Errno
  | .forceRemove _ e | .forceUnlinkat _ _ _ e => some e
  | _ => none

/-- The error of an open of an operand that has failed. -/
def MainPc.openError : MainPc ι → Option Errno
  | .forceRmdir _ _ e _ => some e
  | _ => none

/-- The entries of the operands that the main thread has not handed over or settled. -/
def MainPc.pending : MainPc ι → List ι
  | .prompt operands | .declined operands | .lstat operands => operands.filterMap Operand.entry
  | .unlink _ i rest | .rmdir _ i rest | .openDir _ i rest | .forceRmdir _ i _ rest
  | .seed _ i rest => i :: rest.filterMap Operand.entry
  | .submit _ rest | .say _ rest => rest.filterMap Operand.entry
  | .returned _ => []

/-- Something will still be done about entry `c` of the directory of node `n`: the node has not
    been scanned, the scan is not done with it, or it has a node. -/
def Awaits (b : Bag W ℕ) (s : State W ι) (n : ℕ) (c : ι) : Prop :=
  n ∈ (held b s).untouched ∨
    (∃ w seen, (s.workers w).scan = some (n, seen) ∧ c ∉ seen) ∨
      ∃ m y, s.nodes m = some y ∧ y.parent = some n ∧ y.entry = c

/-- **Nothing is forgotten.** -/
structure Coverage (job : Job ι) (R : Prop) (K : ℕ → ι → Prop) (b : Bag W ℕ) (s : State W ι) :
    Prop where
  grown : job.tree.Grown s.left
  node : ∀ n x c, s.nodes n = some x → c ∈ s.left → job.tree.up c = some x.entry →
    Awaits b s n c ∨ Settled job (K s.total) s.left c
  leaves : ∀ w n x, (s.workers w).leaves = some n → s.nodes n = some x →
    Settled job (K s.total) s.left x.entry
  operand : ∀ a ∈ job.operands.filterMap Operand.entry, a ∈ s.main.pending ∨
    (∃ n x, s.nodes n = some x ∧ x.parent = none ∧ x.entry = a) ∨
      Settled job (K s.total) s.left a
  refused : ∀ w e, (s.workers w).openError = some e → e.outOfDescriptors = true → R
  refusedMain : ∀ e, s.main.openError = some e → e.outOfDescriptors = true → R

/-- A step gives nothing up for want of descriptors, unless `R` allows it. -/
def Label.Allowed (R : Prop) (l : Label W ι) : Prop := ∀ i, l = .givesUp i → R

variable {R : Prop} {K : ℕ → ι → Prop} {b b' : Bag W ℕ} {s s' : State W ι} {l : Label W ι}
  {w : Fin W}

omit [DecidableEq ι] in
theorem openLabel_allowed {e : Errno} (h : (openLabel i e : Label W ι).Allowed R)
    (he : e.outOfDescriptors = true) : R := by
  apply h i
  rw [openLabel, if_pos he]

omit [DecidableEq ι] in
theorem removeLabel_allowed {r : Option Errno} (h : (removeLabel i r : Label W ι).Allowed R) :
    ∀ e, r = some e → e.outOfDescriptors = true → R := by
  rintro e rfl he
  apply h i
  rw [removeLabel, if_pos he]

theorem scan_entryPc (n : ℕ) (seen : Finset ι) (c : ι) (isDir : Bool) :
    (entryPc n seen c isDir).scan = some (n, seen.erase c) := by
  cases isDir <;> rfl

theorem scan_settlePc {r : Option Errno} {path : Bytes} {code : Errno → Errno} (n : ℕ)
    (seen : Finset ι) :
    (settlePc job r path code (.read n seen)).scan = some (n, seen) := by
  cases r <;> rw [settlePc] <;> split_ifs <;> rfl

/-- Who scans a node has its own reference, and has touched it. -/
theorem mem_touched_of_scan {pc : Pc ι} {n : ℕ} {seen : Finset ι}
    (h : pc.scan = some (n, seen)) : n ∈ pc.hold.touched := by
  cases pc with
  | read | countChild | submitChild | fstatat | unlinkat | child | forceUnlinkat | makeChild =>
    cases h
    simp [Pc.hold, Hold.touched, Hold.ofOwn, Hold.ofMaking, Hold.ofFresh]
  | say o after =>
    cases after with
    | read =>
      cases h
      simp [Pc.hold, After.hold, Hold.touched, Hold.ofOwn]
    | close | delete | discard => cases h
  | idle | openNode | resubmit | forceRemove | discard | close | release | remove | delete
  | done => cases h

theorem mem_active_of_scan {pc : Pc ι} {n : ℕ} {seen : Finset ι}
    (h : pc.scan = some (n, seen)) : n ∈ pc.hold.active :=
  Multiset.mem_of_le (Hold.touched_le_active _) (mem_touched_of_scan h)

/-! ## What a step of a worker does to it -/

omit [DecidableEq ι] in
/-- A worker goes on without touching a node. -/
theorem untouched_move {pc : Pc ι} (hwait : b'.waiting = b.waiting)
    (hmain : s'.main = s.main) (hworkers : s'.workers = Function.update s.workers w pc)
    (hle : (s.workers w).hold.untouched ≤ pc.hold.untouched) {n : ℕ}
    (hn : n ∈ (held b s).untouched) : n ∈ (held b' s').untouched := by
  rw [held_move b' s pc hmain hworkers, others_congr s w hwait, Hold.untouched_add]
  rw [held_eq b s w, Hold.untouched_add] at hn
  exact Multiset.mem_of_le (Multiset.add_le_add_left hle) hn

/-- A node that nothing has touched stays so, or it is opened, or freed. -/
theorem WorkerStep.fresh (hs : WorkerStep job w s l s') (hb : l.Handed b b') {n : ℕ}
    (hn : n ∈ (held b s).untouched) (hlive : (s'.nodes n).isSome) :
    n ∈ (held b' s').untouched ∨ (s'.workers w).scan = some (n, ∅) := by
  have hmain := hs.main_eq
  have hworkers := hs.workers_eq
  have hself : ∀ (t : State W ι) (pc : Pc ι), (t.setWorker w pc).workers w = pc :=
    fun t pc => Function.update_self ..
  cases hs with
  | @start m hpc =>
    -- The node goes from the bag to the worker.
    have hwait : b.waiting = m ::ₘ b'.waiting := by
      cases hb with
      | start _ hwait => exact hwait
    refine .inl ?_
    rw [held_move b' s _ hmain hworkers, hself]
    rwa [held_eq b s w, hpc, others_start s w hwait, show (Pc.idle : Pc ι).hold = 0 from rfl,
      add_zero] at hn
  | resubmit hpc =>
    -- The node goes back to the bag.
    obtain rfl : b' = { b with waiting := _ ::ₘ b.waiting } := by
      cases hb
      rfl
    refine .inl ?_
    rw [held_move _ s _ hmain hworkers, hself, others_submit,
      show (Pc.done : Pc ι).hold = 0 from rfl, add_zero]
    rwa [held_eq b s w, hpc] at hn
  | submitChild hpc =>
    obtain rfl : b' = { b with waiting := _ ::ₘ b.waiting } := by
      cases hb
      rfl
    refine .inl ?_
    rw [held_move _ s _ hmain hworkers, hself, others_submit, add_assoc,
      add_comm (Hold.ofFresh _)]
    rwa [held_eq b s w, hpc] at hn
  | @openReady m x hpc | @opened m x path hpc =>
    -- It is this node that is opened, or another one.
    cases hb
    rw [held_eq b s w, hpc, Hold.untouched_add, Multiset.mem_add] at hn
    rcases hn with hn | hn
    · refine .inl ?_
      rw [held_move b s _ hmain hworkers, Hold.untouched_add, Multiset.mem_add]
      exact .inl hn
    · rw [Pc.hold, Hold.untouched_ofFresh, Multiset.mem_singleton] at hn
      rw [hn, hself]
      exact .inr rfl
  | @discard m x hpc =>
    -- A node that is still there is not the one that was freed.
    cases hb
    have hne : n ≠ m := by
      rintro rfl
      rw [State.setWorker_nodes, State.delete_nodes, Function.update_self] at hlive
      cases hlive
    refine .inl ?_
    rw [held_eq b s w, hpc, Hold.untouched_add, Multiset.mem_add] at hn
    rw [held_move b s _ hmain hworkers, Hold.untouched_add, Multiset.mem_add]
    refine .inl (hn.resolve_right fun hm => hne ?_)
    rwa [Pc.hold, Hold.untouched_ofFresh, Multiset.mem_singleton] at hm
  | openFailed hpc | openFailedForce hpc | childFailed hpc | childFailedForce hpc =>
    rw [openLabel_handed hb]
    exact .inl (untouched_move rfl hmain hworkers (by rw [hpc, hself]; exact le_rfl) hn)
  | forceRemove hpc | remove hpc =>
    rw [removeLabel_handed hb]
    refine .inl (untouched_move rfl hmain hworkers ?_ hn)
    rw [hpc, settle_eq, hself, settlePc_hold]
    exact le_rfl
  | unlinkat hpc | forceUnlinkat hpc =>
    cases hb
    refine .inl (untouched_move rfl hmain hworkers ?_ hn)
    rw [hpc, settle_eq, hself, settlePc_hold]
    exact le_rfl
  | readEntry hpc =>
    cases hb
    refine .inl (untouched_move rfl hmain hworkers ?_ hn)
    rw [hpc, hself, entryRead_hold]
    exact le_rfl
  | stat hpc =>
    cases hb
    refine .inl (untouched_move rfl hmain hworkers ?_ hn)
    rw [hpc, hself, entryPc_hold]
    exact le_rfl
  | delete hpc =>
    cases hb
    refine .inl (untouched_move rfl hmain hworkers ?_ hn)
    rw [hpc, hself, climb_hold, Hold.untouched_ofParent]
    exact le_rfl
  | say hpc =>
    cases hb
    refine .inl (untouched_move rfl hmain hworkers ?_ hn)
    rw [hpc, hself, After.pc_hold]
    exact le_rfl
  | finish hpc =>
    have hwait : b'.waiting = b.waiting := by
      cases hb
      rfl
    exact .inl (untouched_move hwait hmain hworkers (by rw [hpc, hself]; exact le_rfl) hn)
  | makeChild hpc =>
    cases hb
    refine .inl (untouched_move rfl hmain hworkers ?_ hn)
    rw [hpc, hself, Pc.hold, Hold.untouched_ofOwn]
    exact Multiset.zero_le _
  | countChild hpc =>
    cases hb
    refine .inl (untouched_move rfl hmain hworkers ?_ hn)
    rw [hpc, hself, Pc.hold, Pc.hold, Hold.untouched_add]
    simp
  | close hpc | releaseShared hpc | releaseLast hpc =>
    cases hb
    refine .inl (untouched_move rfl hmain hworkers ?_ hn)
    rw [hpc, hself]
    simp [Pc.hold]
  | parked hpc | readDone hpc | readFailed hpc | statAbsent hpc | statFailed hpc | exhausted hpc
  | childOpened hpc | childRefused hpc =>
    cases hb
    exact .inl (untouched_move rfl hmain hworkers (by rw [hpc, hself]; exact le_rfl) hn)

/-- What happens to an entry that the scan of a worker is not done with. -/
def ScanGoes (job : Job ι) (K : ℕ → ι → Prop) (s' : State W ι) (w : Fin W) (n : ℕ) (c : ι) :
    Prop :=
  (∃ seen, (s'.workers w).scan = some (n, seen) ∧ c ∉ seen) ∨
    (∃ m y, s'.nodes m = some y ∧ y.parent = some n ∧ y.entry = c) ∨
      Settled job (K s'.total) s'.left c

theorem scanGoes_on {t : State W ι} {pc : Pc ι} {n : ℕ} {seen : Finset ι} {c : ι}
    (h : pc.scan = some (n, seen)) (hc : c ∉ seen) : ScanGoes job K (t.setWorker w pc) w n c := by
  refine .inl ⟨seen, ?_, hc⟩
  rw [State.setWorker_workers, Function.update_self]
  exact h

/-- The scan is done with one more entry, which is settled. -/
theorem scanGoes_done {t : State W ι} {pc : Pc ι} {n : ℕ} {seen : Finset ι} {c d : ι}
    (h : pc.scan = some (n, seen)) (hc : c ∉ seen.erase d)
    (hsettled : Settled job (K t.total) t.left d) : ScanGoes job K (t.setWorker w pc) w n c := by
  by_cases hcd : c = d
  · subst hcd
    exact .inr (.inr hsettled)
  · exact scanGoes_on h fun hmem => hc (Finset.mem_erase.mpr ⟨hcd, hmem⟩)

/-- **The scan of a worker** forgets no entry. -/
theorem WorkerStep.scan (hK : Excuse job R K) (hsound : ¬job.Broken s.left)
    (hcov : Coverage job R K b s) (hv : Visits job s) (hs : WorkerStep job w s l s')
    (hl : l.Allowed R) {n : ℕ} {seen : Finset ι} {c : ι} {x : Node ι} (hscan : (s.workers w).scan = some (n, seen))
    (hc : c ∉ seen) (hx : s.nodes n = some x) (hup : job.tree.up c = some x.entry)
    (hleft : c ∈ s'.left) : ScanGoes job K s' w n c := by
  have hpcOk := hv.workers w
  have hgrown := hcov.grown
  have hentry : x.entry ∈ s.left := hgrown c (hs.left_subset hleft) _ hup
  cases hs with
  | start hpc | openReady hpc | opened hpc | parked hpc | openFailed hpc | openFailedForce hpc
  | resubmit hpc | forceRemove hpc | discard hpc | close hpc | releaseShared hpc
  | releaseLast hpc | remove hpc | delete hpc | finish hpc =>
    -- There is no scan.
    rw [hpc] at hscan
    cases hscan
  | @readEntry m old y d hpc hy hreads =>
    rw [hpc] at hscan
    cases hscan
    cases hreads with
    | entry _ hnew _ =>
      refine scanGoes_on ?_ hc
      rw [Job.entryRead]
      split_ifs
      · rw [scan_entryPc, Finset.erase_insert hnew]
      · rw [Pc.scan, Finset.erase_insert hnew]
  | @readDone m old y hpc hy hreads =>
    -- The read is over, so all that is left has been seen.
    rw [hpc] at hscan
    cases hscan
    rw [hx] at hy
    cases hy
    cases hreads with
    | done _ hall => exact absurd (hall c hleft hup) hc
  | @readFailed m old y path e hpc hy _ hreads =>
    -- What the failed read did not return is excused.
    rw [hpc] at hscan
    cases hscan
    rw [hx] at hy
    cases hy
    cases hreads with
    | fault _ hall =>
      have hlost : Lost job.tree job.faults c := by
        by_contra hnot
        exact hc (hall c hleft hup hnot)
      refine .inr (.inr fun j hj _ => ?_)
      rw [show ((s.fail w).setWorker w _).total = (s.fail w).total from rfl, total_fail]
      exact hK.lost hlost hj
    | absent hnot => exact absurd hentry hnot
  | @stat m old y d isDir hpc =>
    rw [hpc] at hscan
    cases hscan
    exact scanGoes_on (scan_entryPc ..) hc
  | @statAbsent m old y d hpc hy hstats =>
    rw [hpc] at hscan
    cases hscan
    refine scanGoes_done rfl hc ?_
    cases hstats with
    | absent hnot => exact .of_absent hgrown hnot
    | fault he => exact absurd rfl (job.faults.isFault (.inr (.inl he))).1
  | @statFailed m old y d path e hpc hy _ hstats =>
    rw [hpc] at hscan hpcOk
    cases hscan
    refine scanGoes_done rfl hc ?_
    rw [total_fail]
    exact settled_of_stats hK hgrown (hpcOk.2.2.1.2 x hx) hpcOk.2.2.2 hstats
  | @unlinkat m old y d path r hpc hy _ hunlinks =>
    rw [hpc] at hscan hpcOk
    cases hscan
    rw [settle_eq]
    refine scanGoes_done (scan_settlePc ..) hc (settled_settleState ?_)
    exact settledBy_unlink hK hgrown hpcOk.2.2.2.2 hunlinks
  | exhausted hpc | childOpened hpc | childRefused hpc | childFailedForce hpc =>
    rw [hpc] at hscan
    cases hscan
    exact scanGoes_on rfl hc
  | @childFailed m old y d path e hpc hy _ hopens _ hforce =>
    rw [hpc] at hscan hpcOk
    cases hscan
    refine scanGoes_done rfl hc ?_
    rw [total_fail]
    exact settled_of_opens hK hgrown hsound (hv.nodes n x hx).recursive hforce hpcOk.2.2.2.2 hopens
      (openLabel_allowed hl)
  | @forceUnlinkat m old y d path e r hpc hy _ hrmdirs =>
    have hrefused := hcov.refused w e (by rw [hpc]; rfl)
    rw [hpc] at hscan hpcOk
    cases hscan
    rw [settle_eq]
    refine scanGoes_done (scan_settlePc ..) hc (settled_settleState ?_)
    obtain ⟨_, _, _, _, hdir, _, hfailed⟩ := hpcOk
    exact settledBy_rmdir hK hgrown hdir
      (settled_of_openFailed hK hgrown hsound (hv.nodes n x hx).recursive hfailed hrefused) hrmdirs
  | @makeChild m old d opened hpc =>
    -- The entry has a node now, or it is another one.
    rw [hpc] at hscan
    cases hscan
    by_cases hcd : c = d
    · exact .inr (.inl ⟨s.next, _, Function.update_self .., rfl, hcd.symm⟩)
    · exact scanGoes_on rfl fun hmem => hc (Finset.mem_erase.mpr ⟨hcd, hmem⟩)
  | countChild hpc | submitChild hpc =>
    rw [hpc] at hscan
    cases hscan
    exact scanGoes_on rfl hc
  | @say o after hpc =>
    rw [hpc] at hscan
    cases after with
    | read m old =>
      cases hscan
      exact scanGoes_on rfl hc
    | close | delete | discard => cases hscan

/-- Nothing awaits the children of a node that is being removed. -/
theorem not_awaits_of_removes (href : References b s) {n : ℕ} {c : ι}
    (hw : (s.workers w).removes = some n) : ¬Awaits b s n c := by
  obtain ⟨-, hown, -, hchildren⟩ := alone_at_removal href hw
  have hactive := Multiset.count_eq_zero.mp hown
  rintro (hfresh | ⟨k, seen, hscan, -⟩ | ⟨m, y, hy, hp, -⟩)
  · exact hactive (Multiset.mem_of_le (Hold.untouched_le_active _) hfresh)
  · apply hactive
    rw [held_eq b s k, Hold.active_add]
    exact Multiset.mem_add.mpr (.inr (mem_active_of_scan hscan))
  · have hmem : m ∈ s.children n := by
      refine Finset.mem_filter.mpr ⟨Finset.mem_range.mpr (href.lt_next (cells_of_node hy)), ?_⟩
      rw [hy]
      exact hp
    rw [hchildren] at hmem
    exact Finset.notMem_empty m hmem

omit [DecidableEq ι] in
theorem leaves_settlePc {r : Option Errno} {path : Bytes} {code : Errno → Errno}
    {after : After ι} :
    (settlePc job r path code after).leaves = after.pc.leaves := by
  cases r <;> rw [settlePc] <;> split_ifs <;> cases after <;> rfl

/-- The directory of a node that a worker leaves is settled. -/
theorem WorkerStep.leaves (hK : Excuse job R K) (hsound : ¬job.Broken s.left)
    (href : References b s) (hcov : Coverage job R K b s) (hv : Visits job s)
    (hs : WorkerStep job w s l s') (hl : l.Allowed R) {n : ℕ} {x : Node ι} (hleaves : (s'.workers w).leaves = some n)
    (hx : s'.nodes n = some x) : Settled job (K s'.total) s'.left x.entry := by
  have hpcOk := hv.workers w
  have hgrown := hcov.grown
  have hself : ∀ (t : State W ι) (pc : Pc ι), (t.setWorker w pc).workers w = pc :=
    fun t pc => Function.update_self ..
  cases hs with
  | @openFailed m y path e hpc hy _ hpath hopens _ hforce =>
    -- The open has failed for good, and is counted.
    rw [hself] at hleaves
    cases hleaves
    rw [show ((s.fail w).setWorker w _).total = (s.fail w).total from rfl, total_fail]
    rw [show ((s.fail w).setWorker w _).nodes = s.nodes from rfl] at hx
    rw [hx] at hy
    cases hy
    rw [hv.view_of_sound hpath hsound] at hopens
    exact settled_of_opens hK hgrown hsound (hv.nodes n x hx).recursive hforce (hv.nodes n x hx).isDir
      hopens (openLabel_allowed hl)
  | @forceRemove m y path e r hpc hy hpath hremoves =>
    -- Either the directory is removed, or the open that failed before is counted.
    have hrefused := hcov.refused w e (by rw [hpc]; rfl)
    rw [hpc] at hpcOk
    rw [hv.view_of_sound hpath hsound] at hremoves
    rw [settle_eq, hself, leaves_settlePc] at hleaves
    cases hleaves
    rw [settle_nodes, hy] at hx
    cases hx
    rw [settle_eq]
    refine settled_settleState ?_
    exact settledBy_removeEmpty hK hgrown (hv.nodes n x hy).isDir
      (settled_of_openFailed hK hgrown hsound (hv.nodes n x hy).recursive (hpcOk.2 x hy) hrefused)
      (removeLabel_allowed hl) hremoves
  | @remove m y path r hpc hy hpath hremoves =>
    -- Nothing awaits an entry of the directory, so all that it had are settled.
    rw [hv.view_of_sound hpath hsound] at hremoves
    rw [settle_eq, hself, leaves_settlePc] at hleaves
    cases hleaves
    rw [settle_nodes, hy] at hx
    cases hx
    rw [settle_eq]
    refine settled_settleState ?_
    refine settledBy_removeEmpty hK hgrown (hv.nodes n x hy).isDir (fun c hc hup => ?_)
      (removeLabel_allowed hl) hremoves
    have hsettled := (hcov.node n x c hy hc hup).resolve_left
      (not_awaits_of_removes href (by rw [hpc]; rfl))
    exact hsettled.mono (Finset.Subset.refl _) fun j => hK.mono (Nat.le_succ _)
  | @say o after hpc =>
    -- The worker was leaving it before.
    have hold := hcov.leaves w n x
    rw [hpc] at hold
    rw [hself] at hleaves
    refine hold ?_ hx
    cases after with
    | read | close => cases hleaves
    | delete | discard => exact hleaves
  | unlinkat | forceUnlinkat =>
    rw [settle_eq, hself, leaves_settlePc] at hleaves
    cases hleaves
  | @discard m y hpc | @delete m y hpc =>
    rw [hself] at hleaves
    cases hp : y.parent <;> rw [hp] at hleaves <;> cases hleaves
  | readEntry =>
    rw [hself, Job.entryRead] at hleaves
    split_ifs at hleaves
    · cases hdir : job.tree.isDir _ <;> rw [hdir] at hleaves <;> cases hleaves
    · cases hleaves
  | @stat m seen y d isDir hpc =>
    rw [hself] at hleaves
    cases isDir <;> cases hleaves
  | start | openReady | opened | parked | openFailedForce | resubmit | readDone | readFailed
  | statAbsent | statFailed | exhausted | childOpened | childRefused | childFailed
  | childFailedForce | makeChild | countChild | submitChild | close | releaseShared
  | releaseLast | finish =>
    rw [hself] at hleaves
    cases hleaves

/-- A refusal is final only where that is allowed. -/
theorem WorkerStep.openError (hs : WorkerStep job w s l s') (hl : l.Allowed R) {e : Errno}
    (he : (s'.workers w).openError = some e) (hout : e.outOfDescriptors = true) : R := by
  have hself : ∀ (t : State W ι) (pc : Pc ι), (t.setWorker w pc).workers w = pc :=
    fun t pc => Function.update_self ..
  have hsettle : ∀ {r : Option Errno} {path : Bytes} {code : Errno → Errno} {after : After ι},
      (settlePc job r path code after).openError = none := by
    intro r path code after
    cases r <;> rw [settlePc] <;> split_ifs <;> cases after <;> rfl
  cases hs with
  | openFailedForce | childFailedForce =>
    rw [hself] at he
    cases he
    exact openLabel_allowed hl hout
  | forceRemove | unlinkat | forceUnlinkat | remove =>
    rw [settle_eq, hself, hsettle] at he
    cases he
  | @discard m y | @delete m y =>
    rw [hself] at he
    cases hp : y.parent <;> rw [hp] at he <;> cases he
  | readEntry =>
    rw [hself, Job.entryRead] at he
    split_ifs at he
    · cases hdir : job.tree.isDir _ <;> rw [hdir] at he <;> cases he
    · cases he
  | @stat m seen y d isDir hpc =>
    rw [hself] at he
    cases isDir <;> cases he
  | @say o after hpc =>
    rw [hself] at he
    cases after <;> cases he
  | start | openReady | opened | parked | openFailed | resubmit | readDone | readFailed
  | statAbsent | statFailed | exhausted | childOpened | childRefused | childFailed | makeChild
  | countChild | submitChild | close | releaseShared | releaseLast | finish =>
    rw [hself] at he
    cases he

/-- Only a node that its worker has left is freed. -/
theorem WorkerStep.freed (hs : WorkerStep job w s l s') {m : ℕ} (hl : l.deleted = some m) :
    (s.workers w).leaves = some m := by
  cases hs with
  | discard hpc | delete hpc =>
    cases hl
    rw [hpc]
    rfl
  | openFailed | openFailedForce | childFailed | childFailedForce =>
    rw [(openLabel_born ..).2] at hl
    cases hl
  | forceRemove | remove =>
    rw [(removeLabel_born ..).2] at hl
    cases hl
  | start | openReady | opened | parked | resubmit | readEntry | readDone | readFailed | stat
  | statAbsent | statFailed | unlinkat | exhausted | childOpened | childRefused | forceUnlinkat
  | makeChild | countChild | submitChild | close | releaseShared | releaseLast | say | finish =>
    cases hl

/-- A node stays what it is, or its worker has left it. -/
theorem WorkerStep.kept (href : References b s) (hv : Visits job s)
    (hs : WorkerStep job w s l s') {m : ℕ} {y : Node ι} (hy : s.nodes m = some y) :
    (∃ y', s'.nodes m = some y' ∧ y'.entry = y.entry ∧ y'.parent = y.parent) ∨
      (s.workers w).leaves = some m := by
  have hm : m ≠ s.next := (href.lt_next (cells_of_node hy)).ne
  cases hx' : s'.nodes m with
  | some y' =>
    rcases hs.later href (fun n x hx => (hv.nodes n x hx).small) m y' hx' with
      hnext | ⟨z, hz, hentry, hparent, -⟩
    · exact absurd hnext hm
    · rw [hy] at hz
      cases hz
      exact .inl ⟨y', rfl, hentry, hparent⟩
  | none =>
    have hborn := hs.born
    cases hborn with
    | news hnodes _ =>
      rw [hnodes, Function.update_of_ne hm, hy] at hx'
      cases hx'
    | kept _ _ _ hkept =>
      have hsame := hkept m
      rw [hx', hy] at hsame
      cases hsame
    | @deletes k x hx hnodes _ =>
      by_cases hmk : m = k
      · exact .inr (hs.freed (congrArg some hmk.symm))
      · rw [hnodes, Function.update_of_ne hmk, hy] at hx'
        cases hx'

theorem grown_settleState (hgrown : job.tree.Grown s.left) {i : ι} {r : Option Errno}
    (h : r = none → job.tree.Grown (s.left.erase i)) :
    job.tree.Grown (settleState s w i r).left := by
  cases r with
  | none => exact h rfl
  | some e =>
    rw [settleState]
    split_ifs <;> exact hgrown

/-- What an `unlink` of a file leaves. -/
theorem grown_of_file {i : ι} (hgrown : job.tree.Grown left)
    (hfile : job.tree.isDir i = false) : job.tree.Grown (left.erase i) :=
  hgrown.erase fun _ hup => absurd hup (no_child_of_file hfile)

theorem RemovesEmpty.grown {i : ι} {path : Bytes} (h : RemovesEmpty job left i path none)
    (hgrown : job.tree.Grown left) : job.tree.Grown (left.erase i) := by
  cases h with
  | rmdir h => exact h.grown hgrown

/-- What is left stays a forest that is whole above. -/
theorem WorkerStep.grown (hgrown : job.tree.Grown s.left) (hv : Visits job s)
    (hs : WorkerStep job w s l s') : job.tree.Grown s'.left := by
  have hpcOk := hv.workers w
  cases hs with
  | forceRemove hpc _ _ hremoves | remove hpc _ _ hremoves =>
    rw [settle_eq]
    refine grown_settleState hgrown ?_
    rintro rfl
    exact hremoves.of_found.grown hgrown
  | unlinkat hpc =>
    rw [hpc] at hpcOk
    rw [settle_eq]
    exact grown_settleState hgrown fun _ => grown_of_file hgrown hpcOk.2.2.2.2
  | forceUnlinkat hpc _ _ hrmdirs =>
    rw [settle_eq]
    refine grown_settleState hgrown ?_
    rintro rfl
    exact hrmdirs.grown hgrown
  | start | openReady | opened | parked | openFailed | openFailedForce | resubmit | discard
  | readEntry | readDone | readFailed | stat | statAbsent | statFailed | exhausted | childOpened
  | childRefused | childFailed | childFailedForce | makeChild | countChild | submitChild | close
  | releaseShared | releaseLast | delete | say | finish => exact hgrown

/-- A node that is new is one that its worker is about to hand over. -/
theorem WorkerStep.made (hs : WorkerStep job w s l s') {m : ℕ} (hl : l.created = some m) :
    m ∈ (s'.workers w).hold.untouched := by
  cases hs with
  | makeChild =>
    cases hl
    rw [State.setWorker_workers, Function.update_self]
    simp [Pc.hold]
  | openFailed | openFailedForce | childFailed | childFailedForce =>
    rw [(openLabel_born ..).1] at hl
    cases hl
  | forceRemove | remove =>
    rw [(removeLabel_born ..).1] at hl
    cases hl
  | start | openReady | opened | parked | resubmit | discard | readEntry | readDone | readFailed
  | stat | statAbsent | statFailed | unlinkat | exhausted | childOpened | childRefused
  | forceUnlinkat | countChild | submitChild | close | releaseShared | releaseLast | delete | say
  | finish => cases hl

omit [DecidableEq ι] in
/-- Only a new node can be at the next address. -/
theorem Born.next (href : References b s) (hborn : Born s s' l) {x : Node ι}
    (hx : s'.nodes s.next = some x) : l.created = some s.next := by
  have hnone : s.nodes s.next = none := by
    cases hx : s.nodes s.next with
    | none => rfl
    | some x => exact absurd (href.lt_next (cells_of_node hx)) (lt_irrefl _)
  cases hborn with
  | news => rfl
  | @deletes k y hy hnodes _ =>
    have hne : s.next ≠ k := (href.lt_next (cells_of_node hy)).ne'
    rw [hnodes, Function.update_of_ne hne, hnone] at hx
    cases hx
  | kept _ _ _ hkept =>
    have hsame := hkept s.next
    rw [hx, hnone] at hsame
    cases hsame

omit [DecidableEq ι] in
theorem mem_uses_of_leaves {pc : Pc ι} {n : ℕ} (h : pc.leaves = some n) : n ∈ pc.uses := by
  cases pc with
  | discard | delete =>
    cases h
    exact List.mem_singleton_self _
  | say o after =>
    cases after with
    | delete | discard =>
      cases h
      exact List.mem_singleton_self _
    | read | close => cases h
  | idle | openNode | resubmit | forceRemove | read | fstatat | unlinkat | child | forceUnlinkat
  | makeChild | countChild | submitChild | close | release | remove | done => cases h

/-- **A step of a worker** forgets nothing. -/
theorem WorkerStep.coverage (hK : Excuse job R K) (hsound : ¬job.Broken s.left)
    (href : References b s) (hcov : Coverage job R K b s) (hv : Visits job s)
    (hs : WorkerStep job w s l s') (hb : l.Handed b b') (hl : l.Allowed R) : Coverage job R K b' s' := by
  have hsettled : ∀ i, Settled job (K s.total) s.left i → Settled job (K s'.total) s'.left i :=
    fun i h => h.mono hs.left_subset fun j => hK.mono hs.total_le
  have hothers : ∀ k, k ≠ w → s'.workers k = s.workers k := by
    intro k hk
    rw [hs.workers_eq, Function.update_of_ne hk]
  refine ⟨hs.grown hcov.grown hv, ?_, ?_, ?_, ?_, ?_⟩
  -- An entry of the directory of a node is awaited or settled.
  · intro n x' c hx' hc hup
    rcases hs.later href (fun n x hx => (hv.nodes n x hx).small) n x' hx' with
      rfl | ⟨x, hx, hentry, -⟩
    · refine .inl (.inl ?_)
      rw [held_eq b' s' w, Hold.untouched_add]
      exact Multiset.mem_add.mpr (.inr (hs.made (hs.born.next href hx')))
    · rw [hentry] at hup
      rcases hcov.node n x c hx (hs.left_subset hc) hup with hawaits | hdone
      -- It is awaited by a node that was not opened, by a scan, or has a node of its own.
      · rcases hawaits with hfresh | ⟨k, seen, hscan, hnot⟩ | ⟨m, y, hy, hp, rfl⟩
        · rcases hs.fresh hb hfresh (by rw [hx']; rfl) with hfresh | hscan
          · exact .inl (.inl hfresh)
          · exact .inl (.inr (.inl ⟨w, ∅, hscan, Finset.notMem_empty c⟩))
        · by_cases hk : k = w
          · subst hk
            rcases hs.scan hK hsound hcov hv hl hscan hnot hx hup hc with
              ⟨seen', hseen⟩ | hchild | hdone
            · exact .inl (.inr (.inl ⟨k, seen', hseen⟩))
            · exact .inl (.inr (.inr hchild))
            · exact .inr hdone
          · exact .inl (.inr (.inl ⟨k, seen, by rwa [hothers k hk], hnot⟩))
        · rcases hs.kept href hv hy with ⟨y', hy', hentry', hparent'⟩ | hleaves
          · exact .inl (.inr (.inr ⟨m, y', hy', hparent'.trans hp, hentry'⟩))
          · exact .inr (hsettled _ (hcov.leaves w m y hleaves hy))
      · exact .inr (hsettled c hdone)
  -- The directory of a node that is left is settled.
  · intro k n x' hleaves hx'
    by_cases hk : k = w
    · subst hk
      exact hs.leaves hK hsound href hcov hv hl hleaves hx'
    · rw [hothers k hk] at hleaves
      rcases hs.later href (fun n x hx => (hv.nodes n x hx).small) n x' hx' with
        rfl | ⟨x, hx, hentry, -⟩
      · obtain ⟨x, hx⟩ := live_of_uses href (mem_uses_of_leaves hleaves)
        exact absurd (href.lt_next (cells_of_node hx)) (lt_irrefl _)
      · rw [hentry]
        exact hsettled _ (hcov.leaves k n x hleaves hx)
  -- An operand is still to come, has a node, or is settled.
  · intro a ha
    rw [hs.main_eq]
    rcases hcov.operand a ha with hpending | ⟨n, x, hx, hp, rfl⟩ | hdone
    · exact .inl hpending
    · rcases hs.kept href hv hx with ⟨x', hx', hentry', hparent'⟩ | hleaves
      · exact .inr (.inl ⟨n, x', hx', hparent'.trans hp, hentry'⟩)
      · exact .inr (.inr (hsettled _ (hcov.leaves w n x hleaves hx)))
    · exact .inr (.inr (hsettled a hdone))
  -- An open that failed was not refused.
  · intro k e he hout
    by_cases hk : k = w
    · subst hk
      exact hs.openError hl he hout
    · rw [hothers k hk] at he
      exact hcov.refused k e he hout
  · intro e he hout
    rw [hs.main_eq] at he
    exact hcov.refusedMain e he hout

/-! ## What a step of the main thread does to it -/

theorem MainStep.total_le (hs : MainStep job s l s') : s.total ≤ s'.total := by
  have hfail : ∀ pc, s.total ≤ (s.failMain.setMain pc).total :=
    fun pc => (Nat.le_succ _).trans (total_failMain s).ge
  cases hs with
  | @unlink text i rest r | @rmdir text i rest r | @forceRmdir text i e rest r =>
    cases r <;> rw [settleMain] <;> split_ifs <;> first | exact le_rfl | exact hfail _
  | lstatFailed | isDir | openFailed =>
    split_ifs <;> first | exact le_rfl | exact hfail _
  | confirmed | declined | isFile | opened | seed | submit | say | wait => exact le_rfl

/-- The operand that the main thread has removed is settled then. -/
theorem settled_settleMain (hK : Excuse job R K) {i : ι} {r : Option Errno} {path : Bytes}
    {code : Errno → Errno} {ignored : Errno → Bool} {rest : List (Operand ι)}
    (hignored : ∀ e, ignored e = true → e = .enoent)
    (h : SettledBy job K s.total s.left i r) :
    Settled job (K (settleMain job s i r path code ignored rest).total)
      (settleMain job s i r path code ignored rest).left i := by
  cases r with
  | none =>
    rw [settleMain]
    split_ifs <;> exact h
  | some e =>
    rw [settleMain]
    rw [SettledBy] at h
    split_ifs with hi
    · rw [if_pos (hignored e hi)] at h
      exact h
    · have htotal : ∀ pc, (s.failMain.setMain pc).total = s.total + 1 :=
        fun pc => total_failMain s
      rw [htotal]
      split_ifs at h
      · exact h.mono (Finset.Subset.refl _) fun j => hK.mono (Nat.le_succ _)
      · exact h

omit [DecidableEq ι] in
theorem Job.ignores_enoent (e : Errno) (h : job.ignores e = true) : e = .enoent := by
  rw [Job.ignores, Bool.and_eq_true, decide_eq_true_iff] at h
  exact h.2

theorem pending_settleMain {i : ι} {r : Option Errno} {path : Bytes}
    {code : Errno → Errno} {ignored : Errno → Bool} {rest : List (Operand ι)} :
    (settleMain job s i r path code ignored rest).main.pending = rest.filterMap Operand.entry := by
  cases r <;> rw [settleMain] <;> split_ifs <;> rfl

omit [DecidableEq ι] in
theorem mem_pending_cons {a : ι} {o : Operand ι} {rest : List (Operand ι)} :
    a ∈ (o :: rest).filterMap Operand.entry ↔
      o.entry = some a ∨ a ∈ rest.filterMap Operand.entry := by
  rw [List.filterMap_cons]
  cases o.entry with
  | none => simp
  | some i => simp [eq_comm]

/-- An operand that `lstat` finds comes first. -/
theorem pending_of_lstat {o : Operand ι} {i : ι} {rest : List (Operand ι)}
    (h : job.lstat left o = .ok i) : (o :: rest).filterMap Operand.entry =
      i :: rest.filterMap Operand.entry := by
  have hentry : o.entry = some i := by
    rw [Operand.entry, (Job.lstat_ok h).1]
    rfl
  rw [List.filterMap_cons, hentry]

/-- What the operand loop is done with has a node or is settled. -/
theorem MainStep.pending (hK : Excuse job R K) (hsound : ¬job.Broken s.left)
    (hcov : Coverage job R K b s)
    (hv : Visits job s) (hs : MainStep job s l s') (hl : l.Allowed R) {a : ι}
    (ha : a ∈ s.main.pending) :
    a ∈ s'.main.pending ∨ (∃ n x, s'.nodes n = some x ∧ x.parent = none ∧ x.entry = a) ∨
      Settled job (K s'.total) s'.left a := by
  have hmainOk := hv.main
  have hgrown := hcov.grown
  have htotal : ∀ pc, (s.failMain.setMain pc).total = s.total + 1 :=
    fun pc => total_failMain s
  -- Without `-r` nothing below a directory is removed.
  have hflat : job.options.recursive = false → ∀ {f i}, ∀ c ∈ s.left,
      job.tree.up c = some i → Settled job (K (f + 1)) s.left c :=
    fun hrecursive _ _ c _ hup j hj _ => hK.flat hrecursive hup hj
  cases hs with
  | @lstatFailed o e rest hpc hlstat =>
    rw [hpc] at ha hmainOk
    have hmem := hmainOk _ List.mem_cons_self
    rcases mem_pending_cons.mp ha with hentry | ha
    · -- The operand is gone.
      have hgone : a ∉ s.left := by
        rcases Job.lstat_error hlstat hmem with htarget | ⟨-, ⟨i, htarget, hi⟩ | hbroken⟩
        · rw [Operand.entry, htarget] at hentry
          cases hentry
        · rw [Operand.entry, htarget] at hentry
          cases hentry
          exact hi
        · exact absurd hbroken hsound
      refine .inr (.inr ?_)
      split_ifs <;> exact .of_absent hgrown hgone
    · left
      split_ifs <;> exact ha
  | confirmed hpc | declined hpc | opened hpc | say hpc | submit hpc =>
    rw [hpc] at ha
    exact .inl ha
  | isFile hpc hlstat =>
    rw [hpc, MainPc.pending, pending_of_lstat hlstat] at ha
    exact .inl ha
  | @isDir o i rest hpc hlstat hdir =>
    rw [hpc, MainPc.pending, pending_of_lstat hlstat] at ha
    split_ifs with hrecursive hd
    · exact .inl ha
    · exact .inl ha
    · rcases List.mem_cons.mp ha with rfl | ha
      · refine .inr (.inr ?_)
        rw [htotal]
        have hrecursive := Bool.eq_false_iff.mpr hrecursive
        exact .of_children hgrown
          (fun _ => hK.directory hrecursive (Bool.eq_false_iff.mpr hd) hdir) (hflat hrecursive)
      · exact .inl ha
  | @unlink text i rest r hpc hunlinks =>
    rw [hpc] at ha hmainOk
    rw [pending_settleMain]
    rw [Job.found_of_sound hsound ⟨_, hmainOk.1, rfl⟩] at hunlinks
    rcases List.mem_cons.mp ha with rfl | ha
    · exact .inr (.inr (settled_settleMain hK Job.ignores_enoent
        (settledBy_unlink hK hgrown hmainOk.2.1 hunlinks)))
    · exact .inl ha
  | @rmdir text i rest r hpc hrmdirs =>
    rw [hpc] at ha hmainOk
    rw [pending_settleMain]
    rw [Job.found_of_sound hsound ⟨_, hmainOk.1, rfl⟩] at hrmdirs
    rcases List.mem_cons.mp ha with rfl | ha
    · exact .inr (.inr (settled_settleMain hK Job.ignores_enoent
        (settledBy_rmdir hK hgrown hmainOk.2.1 (hflat hmainOk.2.2.1) hrmdirs)))
    · exact .inl ha
  | @openFailed text i rest e hpc hopens =>
    rw [hpc] at ha hmainOk
    rw [Job.found_of_sound hsound ⟨_, hmainOk.1, rfl⟩] at hopens
    split_ifs with hforce
    · exact .inl ha
    · rcases List.mem_cons.mp ha with rfl | ha
      · refine .inr (.inr ?_)
        rw [htotal]
        exact settled_of_opens hK hgrown hsound hmainOk.2.2.1 (Bool.eq_false_iff.mpr hforce)
          hmainOk.2.1 hopens (openLabel_allowed hl)
      · exact .inl ha
  | @forceRmdir text i e rest r hpc hrmdirs =>
    have hrefused := hcov.refusedMain e (by rw [hpc]; rfl)
    rw [hpc] at ha hmainOk
    obtain ⟨hmem, hdir, hrecursive, _, hfailed, _⟩ := hmainOk
    rw [pending_settleMain]
    rw [Job.found_of_sound hsound ⟨_, hmem, rfl⟩] at hrmdirs
    rcases List.mem_cons.mp ha with rfl | ha
    · refine .inr (.inr (settled_settleMain hK (fun e he => of_decide_eq_true he) ?_))
      exact settledBy_rmdir hK hgrown hdir
        (settled_of_openFailed hK hgrown hsound hrecursive hfailed hrefused) hrmdirs
    · exact .inl ha
  | @seed text i rest hpc =>
    rw [hpc] at ha
    rcases List.mem_cons.mp ha with rfl | ha
    · exact .inr (.inl ⟨s.next, _, Function.update_self .., rfl, rfl⟩)
    · exact .inl ha
  | wait hpc =>
    rw [hpc] at ha
    cases ha

theorem MainStep.grown (hgrown : job.tree.Grown s.left) (hv : Visits job s)
    (hs : MainStep job s l s') : job.tree.Grown s'.left := by
  have hmainOk := hv.main
  cases hs with
  | @unlink text i rest r hpc =>
    rw [hpc] at hmainOk
    have herase := grown_of_file hgrown hmainOk.2.1
    cases r <;> rw [settleMain] <;> split_ifs <;> first | exact herase | exact hgrown
  | @rmdir text i rest r _ hrmdirs | @forceRmdir text i e rest r _ hrmdirs =>
    cases r with
    | none =>
      have herase := hrmdirs.of_found.grown hgrown
      rw [settleMain]
      split_ifs <;> exact herase
    | some e =>
      rw [settleMain]
      split_ifs <;> exact hgrown
  | lstatFailed | isDir | openFailed => split_ifs <;> exact hgrown
  | confirmed | declined | isFile | opened | seed | submit | say | wait => exact hgrown

theorem MainStep.openError (hs : MainStep job s l s') (hl : l.Allowed R) {e : Errno}
    (he : s'.main.openError = some e) (hout : e.outOfDescriptors = true) : R := by
  cases hs with
  | openFailed =>
    split_ifs at he
    · cases he
      exact openLabel_allowed hl hout
    · cases he
  | @unlink text i rest r | @rmdir text i rest r | @forceRmdir text i e rest r =>
    cases r <;> rw [settleMain] at he <;> split_ifs at he <;> cases he
  | lstatFailed | isDir => split_ifs at he <;> cases he
  | confirmed | declined | isFile | opened | seed | submit | say | wait => cases he

/-- A node that nothing has touched stays so. -/
theorem MainStep.untouched (hs : MainStep job s l s') (hb : l.Handed b b') :
    (held b s).untouched ≤ (held b' s').untouched := by
  have hworkers := hs.workers_eq
  have hsame : b' = b → s'.main.hold = s.main.hold →
      (held b s).untouched ≤ (held b' s').untouched := by
    rintro rfl hhold
    rw [held_main _ s hworkers, hhold, ← held_main _ s rfl]
  cases hs with
  | lstatFailed hpc | isDir hpc =>
    refine hsame (by cases hb; rfl) ?_
    split_ifs <;> rw [hpc] <;> rfl
  | confirmed hpc | declined hpc | isFile hpc | opened hpc | say hpc =>
    exact hsame (by cases hb; rfl) (by rw [hpc]; rfl)
  | unlink hpc | rmdir hpc | forceRmdir hpc =>
    refine hsame (by cases hb; rfl) ?_
    rw [(settleMain_frame job s _ _ _ _ _ _).2.2.2, hpc]
    rfl
  | openFailed hpc =>
    refine hsame (openLabel_handed hb) ?_
    split_ifs <;> rw [hpc] <;> rfl
  | seed hpc =>
    -- The root is new.
    cases hb
    rw [held_main b s hworkers, held_main b s rfl, hpc, Hold.untouched_add _ (MainPc.hold _),
      Hold.untouched_add _ (MainPc.hold _)]
    exact Multiset.add_le_add_left (Multiset.zero_le _)
  | submit hpc =>
    -- The root goes from the main thread to the bag.
    obtain rfl : b' = { b with waiting := _ ::ₘ b.waiting } := by
      cases hb
      rfl
    rw [held_main _ s hworkers, held_main b s rfl, hpc, waitingHold_submit]
    simp only [Hold.untouched_add]
    rw [show ((State.setMain s _).main.hold).untouched = 0 from rfl, add_zero, add_right_comm]
    exact le_rfl
  | wait hpc =>
    have hwait : waitingHold b' = waitingHold b := by
      cases hb
      rfl
    rw [held_main b' s hworkers, held_main b s rfl, hpc, hwait]
    exact le_rfl

theorem MainStep.made (hs : MainStep job s l s') {m : ℕ} (hl : l.created = some m) :
    m ∈ s'.main.hold.untouched := by
  cases hs with
  | seed =>
    cases hl
    exact Multiset.mem_add.mpr (.inl (Multiset.mem_singleton_self _))
  | openFailed =>
    rw [(openLabel_born ..).1] at hl
    cases hl
  | confirmed | declined | lstatFailed | isFile | isDir | unlink | rmdir | opened | forceRmdir
  | submit | say | wait => cases hl

/-- The main thread frees no node. -/
theorem MainStep.kept (hs : MainStep job s l s') {m : ℕ} {y : Node ι} (hy : s.nodes m = some y)
    (hm : m ≠ s.next) : s'.nodes m = some y := by
  cases hs with
  | seed => exact (Function.update_of_ne hm ..).trans hy
  | unlink | rmdir | forceRmdir =>
    rw [(settleMain_frame job s _ _ _ _ _ _).1]
    exact hy
  | lstatFailed | isDir | openFailed => split_ifs <;> exact hy
  | confirmed | declined | isFile | opened | submit | say | wait => exact hy

/-- **A step of the main thread** forgets nothing. -/
theorem MainStep.coverage (hK : Excuse job R K) (hsound : ¬job.Broken s.left)
    (href : References b s) (hcov : Coverage job R K b s) (hv : Visits job s)
    (hs : MainStep job s l s') (hb : l.Handed b b') (hl : l.Allowed R) : Coverage job R K b' s' := by
  have hsettled : ∀ i, Settled job (K s.total) s.left i → Settled job (K s'.total) s'.left i :=
    fun i h => h.mono hs.left_subset fun j => hK.mono hs.total_le
  have hkept : ∀ {m y}, s.nodes m = some y → s'.nodes m = some y :=
    fun hy => hs.kept hy (href.lt_next (cells_of_node hy)).ne
  have hworkers := hs.workers_eq
  refine ⟨hs.grown hcov.grown hv, ?_, ?_, ?_, ?_, ?_⟩
  -- A root that is made awaits all entries of its directory.
  · intro n x' c hx' hc hup
    rcases hs.later n x' hx' with rfl | ⟨x, hx, hentry, -⟩
    · refine .inl (.inl ?_)
      rw [held_main b' s hworkers, Hold.untouched_add]
      exact Multiset.mem_add.mpr (.inr (hs.made (hs.born.next href hx')))
    · rw [hentry] at hup
      rcases hcov.node n x c hx (hs.left_subset hc) hup with hawaits | hdone
      · rcases hawaits with hfresh | ⟨k, seen, hscan⟩ | ⟨m, y, hy, hp⟩
        · exact .inl (.inl (Multiset.mem_of_le (hs.untouched hb) hfresh))
        · exact .inl (.inr (.inl ⟨k, seen, by rwa [hworkers]⟩))
        · exact .inl (.inr (.inr ⟨m, y, hkept hy, hp⟩))
      · exact .inr (hsettled c hdone)
  · intro k n x' hleaves hx'
    rw [hworkers] at hleaves
    obtain ⟨x, hx⟩ := live_of_uses href (mem_uses_of_leaves hleaves)
    rw [hkept hx] at hx'
    cases hx'
    exact hsettled _ (hcov.leaves k n x' hleaves hx)
  · intro a ha
    rcases hcov.operand a ha with hpending | ⟨n, x, hx, hroot⟩ | hdone
    · exact hs.pending hK hsound hcov hv hl hpending
    · exact .inr (.inl ⟨n, x, hkept hx, hroot⟩)
    · exact .inr (.inr (hsettled a hdone))
  · intro k e he hout
    rw [hworkers] at he
    exact hcov.refused k e he hout
  · intro e he hout
    exact hs.openError hl he hout

/-! ## Every run -/

/-- What is left is whole above, in every run. -/
theorem grown_of_run [Fintype ι] (hfits : job.Fits) {tr : List (Label W ι)}
    {p : Bag W ℕ × State W ι} (h : (bagRemoval job W).Run tr p) : job.tree.Grown p.2.left := by
  refine h.invariant (I := fun _ p => job.tree.Grown p.2.left) ?_ ?_
  · intro p hinit
    rw [bagRemoval_init hinit]
    exact Forest.Grown.univ
  · intro tr p l p' hr hI hstep
    obtain ⟨-, hv⟩ := visits_of_run hfits hr
    rcases hstep.right with hmain | ⟨w, hworker⟩
    · exact hmain.grown hI hv
    · exact hworker.grown hI hv

/-- What an operand's path leads through has been there all the time, if it is there now. -/
theorem sound_before [Fintype ι] {p p' : Bag W ℕ × State W ι} {l : Label W ι}
    (hstep : (bagRemoval job W).step p l p') (hsound : ¬job.Broken p'.2.left) :
    ¬job.Broken p.2.left := by
  have hleft : p'.2.left ⊆ p.2.left := by
    rcases hstep.right with hmain | ⟨w, hworker⟩
    · exact hmain.left_subset
    · exact hworker.left_subset
  exact fun hbroken => hsound (hbroken.mono hleft)

/-- **Nothing is forgotten** in any run, as long as no operand's path is broken. -/
theorem coverage_of_run [Fintype ι] (hK : Excuse job R K) (hfits : job.Fits)
    {tr : List (Label W ι)} {p : Bag W ℕ × State W ι} (h : (bagRemoval job W).Run tr p)
    (hl : ∀ l ∈ tr, l.Allowed R) (hsound : ¬job.Broken p.2.left) : Coverage job R K p.1 p.2 := by
  revert hl hsound
  refine h.invariant (I := fun tr p => (∀ l ∈ tr, Label.Allowed R l) → ¬job.Broken p.2.left →
    Coverage job R K p.1 p.2) ?_ ?_
  · intro p hinit _ _
    rw [bagRemoval_init hinit]
    refine ⟨Forest.Grown.univ, fun n x c hx => (by cases hx), fun w n x hleaves => ?_,
      fun a ha => .inl ha, fun w e he => ?_, fun e he => ?_⟩
    · cases hleaves
    · cases he
    · cases he
  · intro tr p l p' hr hI hstep hl hsound
    have hsound := sound_before hstep hsound
    obtain ⟨href, hv⟩ := visits_of_run hfits hr
    have hcov := hI (fun l' hl' => hl l' (List.mem_append_left _ hl')) hsound
    have hlast := hl l (List.mem_append_right _ (List.mem_singleton_self l))
    have hb := handed_of_join hstep
    rcases hstep.right with hmain | ⟨w, hworker⟩
    · exact hmain.coverage hK hsound href hcov hv hb hlast
    · exact hworker.coverage hK hsound href hcov hv hb hlast

/-- When `Wait` has returned, every operand is settled. -/
theorem settled_of_returned [Fintype ι] (hK : Excuse job R K) (hfits : job.Fits)
    {tr : List (Label W ι)} {p : Bag W ℕ × State W ι} (h : (bagRemoval job W).Run tr p)
    (hl : ∀ l ∈ tr, l.Allowed R) (hsound : ¬job.Broken p.2.left) {status : ℕ}
    (hmain : p.2.main = .returned status) {a : ι}
    (ha : a ∈ job.operands.filterMap Operand.entry) : Settled job (K p.2.total) p.2.left a := by
  obtain ⟨href, -⟩ := visits_of_run hfits h
  rw [References, held_of_returned h hmain] at href
  rcases (coverage_of_run hK hfits h hl hsound).operand a ha with hpending | ⟨n, x, hx, -⟩ | hdone
  · rw [hmain] at hpending
    cases hpending
  · have hnone := href.empty n
    rw [cells_of_node hx] at hnone
    cases hnone
  · exact hdone

end Remmy.Removal
