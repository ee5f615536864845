import Remmy.Removal.Outcome

/-!
# Distinct Operands

When no operand repeats another one or lies inside it, every entry is taken up once: by the operand
loop, or by the one scan of its directory.  So no two walks meet.

- `TakenUp` is read off the state: the operand loop is past the entry, or the scan of the node of
  its directory is.
- `Once` is the invariant: whatever has a node or has been removed was taken up, with everything
  above it, and the directory of a node is there until the node's own removal.
- `nothing_missing` draws the conclusion that no call is made for an entry that is gone.
-/

namespace Remmy.Removal

open Remmy.Os Remmy.Lib Remmy.TaskScheduler
open Remmy.Lib.RefTree (Hold)

universe u

variable {ι : Type u} [DecidableEq ι] {W P : ℕ}
variable {job : Job ι} {b b' : Bag W ℕ} {s s' : State W ι} {l : Label W ι} {w : Fin W}
variable {i c : ι} {n m : ℕ} {seen : Finset ι} {x y : Node ι}

/-! ## What a step can do -/

omit [DecidableEq ι] in
theorem workers_setWorker (t : State W ι) (pc : Pc ι) : (t.setWorker w pc).workers w = pc :=
  Function.update_self ..

omit [DecidableEq ι] in
/-- What a worker leaves untouched after a step that submits and draws no task. -/
theorem untouched_back {pc : Pc ι} (hwait : b'.waiting = b.waiting) (hmain : s'.main = s.main)
    (hworkers : s'.workers = Function.update s.workers w pc)
    (hback : ∀ n ∈ pc.hold.untouched, n ∈ (s.workers w).hold.untouched ∨ n = s.next)
    (hn : n ∈ (held b' s').untouched) : n ∈ (held b s).untouched ∨ n = s.next := by
  rw [held_move b' s pc hmain hworkers, others_congr s w hwait, Hold.untouched_add] at hn
  rw [held_eq b s w, Hold.untouched_add]
  rcases Multiset.mem_add.mp hn with hother | hpc
  · exact .inl (Multiset.mem_add.mpr (.inl hother))
  · exact (hback n hpc).imp_left fun hold => Multiset.mem_add.mpr (.inr hold)

/-- A node that nothing has touched was so before, or is new. -/
theorem WorkerStep.untouched_before (hs : WorkerStep job w s l s') (hb : l.Handed b b')
    (hn : n ∈ (held b' s').untouched) : n ∈ (held b s).untouched ∨ n = s.next := by
  have hmain := hs.main_eq
  have hworkers := hs.workers_eq
  have hself : ∀ (t : State W ι) (pc : Pc ι), (t.setWorker w pc).workers w = pc :=
    workers_setWorker
  cases hs with
  | @start k hpc =>
    -- The node was in the bag.
    have hwait : b.waiting = k ::ₘ b'.waiting := by
      cases hb with
      | start _ hwait => exact hwait
    rw [held_move b' s _ hmain hworkers, hself] at hn
    rw [held_eq b s w, hpc, others_start s w hwait, show (Pc.idle : Pc ι).hold = 0 from rfl,
      add_zero]
    exact .inl hn
  | resubmit hpc =>
    -- The node was with the worker.
    obtain rfl : b' = { b with waiting := _ ::ₘ b.waiting } := by
      cases hb
      rfl
    rw [held_move _ s _ hmain hworkers, hself, others_submit,
      show (Pc.done : Pc ι).hold = 0 from rfl, add_zero] at hn
    rw [held_eq b s w, hpc]
    exact .inl hn
  | submitChild hpc =>
    obtain rfl : b' = { b with waiting := _ ::ₘ b.waiting } := by
      cases hb
      rfl
    rw [held_move _ s _ hmain hworkers, hself, others_submit, add_assoc,
      add_comm (Hold.ofFresh _)] at hn
    rw [held_eq b s w, hpc]
    exact .inl hn
  | openFailed hpc | openFailedForce hpc | childFailed hpc | childFailedForce hpc =>
    rw [openLabel_handed hb] at hn
    refine untouched_back rfl hmain hworkers (fun k hk => .inl ?_) hn
    rw [hself] at hk
    rw [hpc]
    exact hk
  | forceRemove hpc | remove hpc =>
    rw [removeLabel_handed hb] at hn
    refine untouched_back rfl hmain hworkers (fun k hk => .inl ?_) hn
    rw [settle_eq, hself, settlePc_hold] at hk
    rw [hpc]
    exact hk
  | unlinkat hpc | forceUnlinkat hpc =>
    cases hb
    refine untouched_back rfl hmain hworkers (fun k hk => .inl ?_) hn
    rw [settle_eq, hself, settlePc_hold] at hk
    rw [hpc]
    exact hk
  | readEntry hpc =>
    cases hb
    refine untouched_back rfl hmain hworkers (fun k hk => .inl ?_) hn
    rw [hself, entryRead_hold] at hk
    rw [hpc]
    exact hk
  | stat hpc =>
    cases hb
    refine untouched_back rfl hmain hworkers (fun k hk => .inl ?_) hn
    rw [hself, entryPc_hold] at hk
    rw [hpc]
    exact hk
  | discard hpc | delete hpc =>
    -- The worker holds a parent, which has been opened.
    cases hb
    refine untouched_back rfl hmain hworkers (fun k hk => ?_) hn
    rw [hself, climb_hold, Hold.untouched_ofParent] at hk
    exact absurd hk (Multiset.notMem_zero k)
  | say hpc =>
    cases hb
    refine untouched_back rfl hmain hworkers (fun k hk => .inl ?_) hn
    rw [hself, After.pc_hold] at hk
    rw [hpc]
    exact hk
  | finish hpc =>
    have hwait : b'.waiting = b.waiting := by
      cases hb
      rfl
    refine untouched_back hwait hmain hworkers (fun k hk => ?_) hn
    rw [hself] at hk
    exact absurd hk (Multiset.notMem_zero k)
  | makeChild hpc =>
    -- The node is the new one.
    cases hb
    refine untouched_back rfl hmain hworkers (fun k hk => .inr ?_) hn
    rw [hself] at hk
    simpa [Pc.hold] using hk
  | countChild hpc =>
    cases hb
    refine untouched_back rfl hmain hworkers (fun k hk => .inl ?_) hn
    rw [hself] at hk
    rw [hpc]
    simpa [Pc.hold] using hk
  | openReady hpc | opened hpc | close hpc | releaseShared hpc | releaseLast hpc =>
    cases hb
    refine untouched_back rfl hmain hworkers (fun k hk => ?_) hn
    rw [hself] at hk
    simp [Pc.hold] at hk
  | parked hpc | readDone hpc | readFailed hpc | statAbsent hpc | statFailed hpc | exhausted hpc
  | childOpened hpc | childRefused hpc =>
    cases hb
    refine untouched_back rfl hmain hworkers (fun k hk => .inl ?_) hn
    rw [hself] at hk
    rw [hpc]
    exact hk

/-- A scan goes on, or it begins with a node that nothing had touched. -/
theorem WorkerStep.scan_before (hs : WorkerStep job w s l s')
    (hscan : (s'.workers w).scan = some (n, seen)) :
    (∃ old, (s.workers w).scan = some (n, old) ∧ old ⊆ seen) ∨ n ∈ (s.workers w).hold.untouched := by
  cases hs with
  | openReady hpc | opened hpc =>
    -- A scan begins.
    rw [workers_setWorker] at hscan
    cases hscan
    rw [hpc]
    exact .inr (by simp [Pc.hold])
  | @readEntry k old z c hpc hz hreads =>
    -- The entry that was read counts as seen only when it has been dealt with.
    rw [workers_setWorker, Job.entryRead] at hscan
    refine .inl ⟨old, ?_⟩
    rw [hpc]
    cases hreads with
    | entry _ hnew =>
      split_ifs at hscan
      · rw [scan_entryPc, Finset.erase_insert hnew] at hscan
        cases hscan
        exact ⟨rfl, Finset.Subset.refl _⟩
      · rw [Pc.scan, Finset.erase_insert hnew] at hscan
        cases hscan
        exact ⟨rfl, Finset.Subset.refl _⟩
  | stat hpc =>
    rw [workers_setWorker, scan_entryPc] at hscan
    cases hscan
    rw [hpc]
    exact .inl ⟨_, rfl, Finset.Subset.refl _⟩
  | statAbsent hpc | statFailed hpc | childFailed hpc | makeChild hpc =>
    -- The entry has been dealt with.
    rw [workers_setWorker] at hscan
    cases hscan
    rw [hpc]
    exact .inl ⟨_, rfl, Finset.erase_subset _ _⟩
  | unlinkat hpc | forceUnlinkat hpc =>
    rw [settle_eq, workers_setWorker, scan_settlePc] at hscan
    cases hscan
    rw [hpc]
    exact .inl ⟨_, rfl, Finset.erase_subset _ _⟩
  | exhausted hpc | childOpened hpc | childRefused hpc | childFailedForce hpc | countChild hpc
  | submitChild hpc =>
    rw [workers_setWorker] at hscan
    cases hscan
    rw [hpc]
    exact .inl ⟨_, rfl, Finset.Subset.refl _⟩
  | @say o after hpc =>
    -- A diagnostic interrupts a scan.
    rw [workers_setWorker] at hscan
    rw [hpc]
    cases after with
    | read =>
      cases hscan
      exact .inl ⟨_, rfl, Finset.Subset.refl _⟩
    | close | delete | discard => cases hscan
  | @forceRemove k z path e r | @remove k z path r =>
    rw [settle_eq, workers_setWorker] at hscan
    cases r <;> rw [settlePc] at hscan <;> split_ifs at hscan <;> cases hscan
  | @discard k z | @delete k z =>
    rw [workers_setWorker] at hscan
    cases hp : z.parent <;> rw [hp] at hscan <;> cases hscan
  | start | parked | openFailed | openFailedForce | resubmit | readDone | readFailed | close
  | releaseShared | releaseLast | finish =>
    rw [workers_setWorker] at hscan
    cases hscan

/-- A new node is that of the entry that its worker has in hand. -/
theorem WorkerStep.makes (hs : WorkerStep job w s l s') (hl : l.created = some m) :
    m = s.next ∧ ∃ n seen c opened, s.workers w = .makeChild n seen c opened ∧
      s'.workers w = .countChild n seen m ∧ s'.left = s.left ∧
      s'.nodes = Function.update s.nodes m (some
        { entry := c, parent := some n, name := job.tree.name c, isOpen := opened,
          remaining := 1 }) := by
  cases hs with
  | makeChild hpc =>
    cases hl
    exact ⟨rfl, _, _, _, _, hpc, workers_setWorker .., rfl, rfl⟩
  | openFailed | openFailedForce | childFailed | childFailedForce =>
    rw [(openLabel_born ..).1] at hl
    cases hl
  | forceRemove | remove =>
    rw [(removeLabel_born ..).1] at hl
    cases hl
  | start | openReady | opened | parked | resubmit | discard | readEntry | readDone | readFailed
  | stat | statAbsent | statFailed | unlinkat | exhausted | childOpened | childRefused
  | forceUnlinkat | countChild | submitChild | close | releaseShared | releaseLast | delete | say
  | finish => cases hl

/-- A worker removes the directory of its node, which it leaves then, or the entry of the scan that
    it has in hand. -/
theorem WorkerStep.removes_what (hv : Visits job s) (hs : WorkerStep job w s l s')
    (hl : l.removed = some i) : s'.nodes = s.nodes ∧
      ((∃ n x, s.nodes n = some x ∧ x.entry = i ∧ (s'.workers w).leaves = some n) ∨
        ∃ n x seen, s.nodes n = some x ∧ job.tree.up i = some x.entry ∧ i ∈ seen ∧
          (s.workers w).scan = some (n, seen.erase i) ∧ (s'.workers w).scan = some (n, seen)) := by
  have hpcOk := hv.workers w
  have hremoved : ∀ {j r}, removedBy j r = some i → j = i ∧ r = none := by
    intro j r h
    cases r with
    | none => exact ⟨Option.some.inj h, rfl⟩
    | some e => cases h
  cases hs with
  | @forceRemove n x path e r hpc hx | @remove n x path r hpc hx =>
    -- The directory of the node itself.
    rw [removeLabel_removed] at hl
    refine ⟨settle_nodes .., .inl ⟨n, x, hx, (hremoved hl).1, ?_⟩⟩
    rw [settle_eq, workers_setWorker, leaves_settlePc]
    rfl
  | @unlinkat n seen x c path r hpc hx =>
    -- The entry of the scan.
    rw [hpc] at hpcOk
    obtain ⟨rfl, rfl⟩ := hremoved hl
    refine ⟨settle_nodes .., .inr ⟨n, x, seen, hx, hpcOk.2.2.1.2 x hx, hpcOk.1, ?_, ?_⟩⟩
    · rw [hpc]
      rfl
    · rw [settle_eq, workers_setWorker, scan_settlePc]
  | @forceUnlinkat n seen x c path e r hpc hx =>
    rw [hpc] at hpcOk
    obtain ⟨rfl, rfl⟩ := hremoved hl
    refine ⟨settle_nodes .., .inr ⟨n, x, seen, hx, hpcOk.2.2.1.2 x hx, hpcOk.1, ?_, ?_⟩⟩
    · rw [hpc]
      rfl
    · rw [settle_eq, workers_setWorker, scan_settlePc]
  | openFailed | openFailedForce | childFailed | childFailedForce =>
    rw [openLabel_removed] at hl
    cases hl
  | start | openReady | opened | parked | resubmit | discard | readEntry | readDone | readFailed
  | stat | statAbsent | statFailed | exhausted | childOpened | childRefused | makeChild | countChild
  | submitChild | close | releaseShared | releaseLast | delete | say | finish => cases hl

/-- Whoever leaves a node frees it before anything else. -/
theorem WorkerStep.leaves_keeps (hs : WorkerStep job w s l s')
    (hleaves : (s.workers w).leaves = some n) :
    (s'.workers w).leaves = some n ∨ s'.nodes n = none := by
  cases hs with
  | discard hpc | delete hpc =>
    rw [hpc] at hleaves
    cases hleaves
    exact .inr (Function.update_self ..)
  | @say o after hpc =>
    rw [hpc] at hleaves
    rw [workers_setWorker]
    cases after with
    | delete | discard => exact .inl hleaves
    | read | close => cases hleaves
  | start hpc | openReady hpc | opened hpc | parked hpc | openFailed hpc | openFailedForce hpc
  | resubmit hpc | forceRemove hpc | readEntry hpc | readDone hpc | readFailed hpc | stat hpc
  | statAbsent hpc | statFailed hpc | unlinkat hpc | exhausted hpc | childOpened hpc
  | childRefused hpc | childFailed hpc | childFailedForce hpc | forceUnlinkat hpc | makeChild hpc
  | countChild hpc | submitChild hpc | close hpc | releaseShared hpc | releaseLast hpc | remove hpc
  | finish hpc =>
    rw [hpc] at hleaves
    cases hleaves

/-! ## The invariant -/

/-- The operands are distinct, and none lies in a directory of the tree. -/
structure Job.Distinct (job : Job ι) : Prop where
  apart : job.Apart
  nodup : (job.operands.filterMap Operand.entry).Nodup

/-- Entry `i` has been taken up: the operand loop is past it, or the scan of its directory is. -/
structure TakenUp (job : Job ι) (b : Bag W ℕ) (s : State W ι) (i : ι) : Prop where
  operand : job.tree.up i = none → i ∉ s.main.pending
  touched : ∀ n x, s.nodes n = some x → job.tree.up i = some x.entry → n ∉ (held b s).untouched
  scan : ∀ n x w seen, s.nodes n = some x → job.tree.up i = some x.entry →
    (s.workers w).scan = some (n, seen) → i ∈ seen

/-- An entry and everything above it has been taken up. -/
def Begun (job : Job ι) (b : Bag W ℕ) (s : State W ι) (i : ι) : Prop :=
  ∀ a, job.tree.Within a i → TakenUp job b s a

/-- **Each entry once.** -/
structure Once (job : Job ι) (b : Bag W ℕ) (s : State W ι) : Prop where
  operands : s.main.pending.Nodup
  nodes : ∀ n m x y, s.nodes n = some x → s.nodes m = some y → x.entry = y.entry → n = m
  begun : ∀ n x, s.nodes n = some x → Begun job b s x.entry
  removed : ∀ i, i ∉ s.left → Begun job b s i
  left : ∀ n x, s.nodes n = some x → x.entry ∈ s.left ∨ ∃ w, (s.workers w).leaves = some n

namespace Begun

theorem self (h : Begun job b s i) : TakenUp job b s i := h i .self

theorem up {d : ι} (h : Begun job b s i) (hup : job.tree.up i = some d) : Begun job b s d :=
  fun a ha => h a (.step hup ha)

/-- With everything above it. -/
theorem of_up {d : ι} (h : Begun job b s d) (hup : job.tree.up i = some d)
    (hself : TakenUp job b s i) : Begun job b s i := by
  intro a ha
  cases ha with
  | self => exact hself
  | step hup' ha =>
    rw [hup] at hup'
    cases hup'
    exact h a ha

/-- An operand has nothing above it. -/
theorem of_root (hroot : job.tree.up i = none) (hself : TakenUp job b s i) : Begun job b s i := by
  intro a ha
  rw [ha.eq_of_root hroot]
  exact hself

end Begun

/-- What a worker has in hand has not been taken up. -/
theorem not_takenUp_of_scan (hx : s.nodes n = some x) (hup : job.tree.up c = some x.entry)
    (hscan : (s.workers w).scan = some (n, seen.erase c)) : ¬TakenUp job b s c :=
  fun h => Finset.notMem_erase c seen (h.scan n x w _ hx hup hscan)

namespace Once

/-- What has not been taken up is left. -/
theorem mem_left (h : Once job b s) (hnot : ¬TakenUp job b s i) : i ∈ s.left := by
  by_contra hi
  exact hnot (h.removed i hi).self

/-- What has not been taken up has no node. -/
theorem no_node (h : Once job b s) (hnot : ¬TakenUp job b s i) (hx : s.nodes n = some x) :
    x.entry ≠ i := by
  rintro rfl
  exact hnot (h.begun n x hx).self

end Once

/-! ## What a step of a worker does to it -/

/-- The entry that is made a node of has not been taken up. -/
theorem not_takenUp_of_makeChild (hv : Visits job s) {opened : Bool}
    (hpc : s.workers w = .makeChild n seen c opened) (hx : s.nodes n = some x) :
    ¬TakenUp job b s c := by
  have hpcOk := hv.workers w
  rw [hpc] at hpcOk
  have hscan : (s.workers w).scan = some (n, seen.erase c) := by
    rw [hpc]
    rfl
  exact not_takenUp_of_scan hx (hpcOk.2.2.1.2 x hx) hscan

/-- What was taken up stays so. -/
theorem WorkerStep.begun (href : References b s) (hv : Visits job s)
    (hs : WorkerStep job w s l s') (hb : l.Handed b b') (h : Begun job b s i) :
    Begun job b' s' i := by
  intro a ha
  have hold := h a ha
  -- The node of the directory of `a` is not new.
  have hnode : ∀ n x', s'.nodes n = some x' → job.tree.up a = some x'.entry →
      ∃ x, s.nodes n = some x ∧ x.entry = x'.entry := by
    intro n x' hx' hup
    rcases hs.later href (fun n x hx => (hv.nodes n x hx).small) n x' hx' with
      rfl | ⟨x, hx, hentry, -⟩
    · obtain ⟨-, k, seen, c, opened, hpc, -, -, hnodes⟩ := hs.makes (hs.born.next href hx')
      rw [hnodes, Function.update_self] at hx'
      cases hx'
      obtain ⟨y, hy⟩ := live_of_uses href (w := w) (n := k) (by rw [hpc]; simp [Pc.uses])
      have hc : TakenUp job b s c := h c ((Forest.Within.child hup).trans ha)
      exact absurd hc (not_takenUp_of_makeChild hv hpc hy)
    · exact ⟨x, hx, hentry.symm⟩
  refine ⟨fun hroot => ?_, fun n x' hx' hup hfresh => ?_, fun n x' k seen hx' hup hscan => ?_⟩
  · rw [hs.main_eq]
    exact hold.operand hroot
  · obtain ⟨x, hx, hentry⟩ := hnode n x' hx' hup
    rw [← hentry] at hup
    rcases hs.untouched_before hb hfresh with hbefore | rfl
    · exact hold.touched n x hx hup hbefore
    · exact absurd (href.lt_next (cells_of_node hx)) (lt_irrefl _)
  · obtain ⟨x, hx, hentry⟩ := hnode n x' hx' hup
    rw [← hentry] at hup
    by_cases hk : k = w
    · subst hk
      rcases hs.scan_before hscan with ⟨old, hscan, hsub⟩ | hfresh
      · exact hsub (hold.scan n x k old hx hup hscan)
      · exact absurd (mem_untouched hfresh) (hold.touched n x hx hup)
    · rw [hs.workers_eq, Function.update_of_ne hk] at hscan
      exact hold.scan n x k seen hx hup hscan

/-- Where a scan goes on, the entries that it is done with have been taken up. -/
theorem takenUp_of_scan (href : References b s)
    (hunique : ∀ n m x y, s.nodes n = some x → s.nodes m = some y → x.entry = y.entry → n = m)
    (hx : s.nodes n = some x)
    (hup : job.tree.up i = some x.entry) (hscan : (s.workers w).scan = some (n, seen))
    (hi : i ∈ seen) : TakenUp job b s i := by
  have hactive : n ∈ (s.workers w).hold.active := mem_active_of_scan hscan
  refine ⟨fun hroot => ?_, fun m y hy hup' hfresh => ?_, fun m y k old hy hup' hscan' => ?_⟩
  · rw [hroot] at hup
    cases hup
  · -- The worker has the own reference of the node, and it is not a fresh one.
    rw [hup] at hup'
    obtain rfl := hunique n m x y hx hy (Option.some.inj hup')
    apply href.not_touched_of_untouched hfresh
    rw [held_eq b s w, Hold.touched_add]
    exact Multiset.mem_add.mpr (.inr (mem_touched_of_scan hscan))
  · rw [hup] at hup'
    obtain rfl := hunique n m x y hx hy (Option.some.inj hup')
    by_cases hk : k = w
    · subst hk
      rw [hscan] at hscan'
      cases hscan'
      exact hi
    · exact absurd hactive (href.active_disjoint hk (mem_active_of_scan hscan'))

/-- A new node: its entry had not been taken up, and the scan that made it is done with it. -/
theorem WorkerStep.new_node (href : References b s) (hv : Visits job s)
    (hs : WorkerStep job w s l s') (hx : s'.nodes s.next = some x) :
    ∃ n y seen, s.nodes n = some y ∧ s'.nodes n = some y ∧ job.tree.up x.entry = some y.entry ∧
      ¬TakenUp job b s x.entry ∧ (s'.workers w).scan = some (n, seen) ∧ x.entry ∈ seen ∧
      s'.left = s.left := by
  obtain ⟨-, n, seen, c, opened, hpc, hpc', hleft, hnodes⟩ := hs.makes (hs.born.next href hx)
  obtain ⟨y, hy⟩ := live_of_uses href (w := w) (n := n) (by rw [hpc]; simp [Pc.uses])
  have hpcOk := hv.workers w
  rw [hpc] at hpcOk
  rw [hnodes, Function.update_self] at hx
  cases hx
  have hne : n ≠ s.next := (href.lt_next (cells_of_node hy)).ne
  refine ⟨n, y, seen, hy, ?_, hpcOk.2.2.1.2 y hy, not_takenUp_of_makeChild hv hpc hy, ?_,
    hpcOk.1, hleft⟩
  · rw [hnodes, Function.update_of_ne hne]
    exact hy
  · rw [hpc']
    rfl

/-- **A step of a worker** takes no entry up twice. -/
theorem WorkerStep.once (href : References b s) (href' : References b' s') (hv : Visits job s)
    (hentered : Entered job b s) (honce : Once job b s) (hs : WorkerStep job w s l s')
    (hb : l.Handed b b') : Once job b' s' := by
  have hlater := hs.later href fun n x hx => (hv.nodes n x hx).small
  have hbegun : ∀ i, Begun job b s i → Begun job b' s' i := fun i h => hs.begun href hv hb h
  have hunique : ∀ n m x y, s'.nodes n = some x → s'.nodes m = some y → x.entry = y.entry →
      n = m := by
    -- A new node stands for an entry that had none.
    intro n m x' y' hx' hy' heq
    rcases hlater n x' hx' with rfl | ⟨x, hx, hentryx, -⟩
    · rcases hlater m y' hy' with rfl | ⟨y, hy, hentryy, -⟩
      · rfl
      · obtain ⟨-, -, -, -, -, -, hnot, -⟩ := hs.new_node (b := b) href hv hx'
        exact absurd (hentryy.symm.trans heq.symm) (honce.no_node hnot hy)
    · rcases hlater m y' hy' with rfl | ⟨y, hy, hentryy, -⟩
      · obtain ⟨-, -, -, -, -, -, hnot, -⟩ := hs.new_node (b := b) href hv hy'
        exact absurd (hentryx.symm.trans heq) (honce.no_node hnot hx)
      · exact honce.nodes n m x y hx hy (hentryx.symm.trans (heq.trans hentryy))
  refine ⟨?_, hunique, fun n x' hx' => ?_, fun i hi => ?_, fun n x' hx' => ?_⟩
  · rw [hs.main_eq]
    exact honce.operands
  -- A new node is for an entry that its scan has taken up.
  · rcases hlater n x' hx' with rfl | ⟨x, hx, hentry, -⟩
    · obtain ⟨k, y, seen, hy, hy', hup, -, hscan, hmem, -⟩ := hs.new_node (b := b) href hv hx'
      exact (hbegun _ (honce.begun k y hy)).of_up hup
        (takenUp_of_scan href' hunique hy' hup hscan hmem)
    · rw [hentry]
      exact hbegun _ (honce.begun n x hx)
  · by_cases hold : i ∈ s.left
    · -- It is removed now.
      rcases hs.left_eq href hv hentered with ⟨-, heq⟩ | ⟨j, hl, -, heq, -⟩
      · rw [heq] at hi
        exact absurd hold hi
      · obtain rfl : i = j := by
          by_contra hne
          rw [heq] at hi
          exact hi (Finset.mem_erase.mpr ⟨hne, hold⟩)
        obtain ⟨hnodes, hwhat⟩ := hs.removes_what hv hl
        rcases hwhat with ⟨n, x, hx, rfl, -⟩ | ⟨n, x, seen, hx, hup, hmem, -, hscan⟩
        · exact hbegun _ (honce.begun n x hx)
        · rw [← hnodes] at hx
          refine (hbegun _ (honce.begun n x (hnodes ▸ hx))).of_up hup ?_
          exact takenUp_of_scan href' hunique hx hup hscan hmem
    · exact hbegun i (honce.removed i hold)
  · rcases hlater n x' hx' with rfl | ⟨x, hx, hentry, -⟩
    · obtain ⟨-, -, -, -, -, -, hnot, -, -, hleft⟩ := hs.new_node (b := b) href hv hx'
      rw [hleft]
      exact .inl (honce.mem_left hnot)
    · rw [hentry]
      rcases honce.left n x hx with hmem | ⟨k, hk⟩
      · rcases hs.left_eq href hv hentered with ⟨-, heq⟩ | ⟨j, hl, -, heq, -⟩
        · rw [heq]
          exact .inl hmem
        · by_cases hj : x.entry = j
          · -- Its own worker has removed it.
            obtain ⟨hnodes, hwhat⟩ := hs.removes_what hv hl
            rcases hwhat with ⟨m, y, hy, rfl, hleaves⟩ | ⟨m, y, seen, hy, hup, -, hscan, -⟩
            · rw [honce.nodes n m x y hx hy hj]
              exact .inr ⟨w, hleaves⟩
            · rw [← hj] at hup hscan
              exact absurd (honce.begun n x hx).self (not_takenUp_of_scan hy hup hscan)
          · rw [heq]
            exact .inl (Finset.mem_erase.mpr ⟨hj, hmem⟩)
      · by_cases hkw : k = w
        · subst hkw
          rcases hs.leaves_keeps hk with hleaves | hnone
          · exact .inr ⟨k, hleaves⟩
          · rw [hx'] at hnone
            cases hnone
        · refine .inr ⟨k, ?_⟩
          rwa [hs.workers_eq, Function.update_of_ne hkw]

/-! ## What a step of the main thread does to it -/

/-- The operand loop goes through the operands in order. -/
theorem MainStep.pending_sublist (hs : MainStep job s l s') :
    s'.main.pending.Sublist s.main.pending := by
  cases hs with
  | @lstatFailed o e rest hpc =>
    have hrest : (rest.filterMap Operand.entry).Sublist ((o :: rest).filterMap Operand.entry) :=
      (List.sublist_cons_self o rest).filterMap _
    rw [hpc]
    split_ifs <;> exact hrest
  | confirmed hpc | declined hpc | opened hpc | submit hpc | say hpc =>
    rw [hpc]
    exact List.Sublist.refl _
  | isFile hpc hlstat =>
    rw [hpc, MainPc.pending, pending_of_lstat hlstat]
    exact List.Sublist.refl _
  | isDir hpc hlstat =>
    rw [hpc, MainPc.pending, pending_of_lstat hlstat]
    split_ifs
    · exact List.Sublist.refl _
    · exact List.Sublist.refl _
    · exact List.sublist_cons_self ..
  | unlink hpc | rmdir hpc | forceRmdir hpc =>
    rw [hpc, pending_settleMain]
    exact List.sublist_cons_self ..
  | openFailed hpc =>
    rw [hpc]
    split_ifs
    · exact List.Sublist.refl _
    · exact List.sublist_cons_self ..
  | seed hpc =>
    rw [hpc]
    exact List.sublist_cons_self ..
  | wait hpc =>
    rw [hpc]
    exact List.Sublist.refl _

theorem MainStep.untouched_before (hs : MainStep job s l s') (hb : l.Handed b b')
    (hn : n ∈ (held b' s').untouched) : n ∈ (held b s).untouched ∨ n = s.next := by
  have hworkers := hs.workers_eq
  have hsame : b' = b → s'.main.hold = s.main.hold → n ∈ (held b s).untouched := by
    rintro rfl hhold
    rw [held_main _ s hworkers, hhold, ← held_main _ s rfl] at hn
    exact hn
  cases hs with
  | lstatFailed hpc | isDir hpc =>
    refine .inl (hsame (by cases hb; rfl) ?_)
    split_ifs <;> rw [hpc] <;> rfl
  | confirmed hpc | declined hpc | isFile hpc | opened hpc | say hpc =>
    exact .inl (hsame (by cases hb; rfl) (by rw [hpc]; rfl))
  | unlink hpc | rmdir hpc | forceRmdir hpc =>
    refine .inl (hsame (by cases hb; rfl) ?_)
    rw [(settleMain_frame job s _ _ _ _ _ _).2.2.2, hpc]
    rfl
  | openFailed hpc =>
    refine .inl (hsame (openLabel_handed hb) ?_)
    split_ifs <;> rw [hpc] <;> rfl
  | seed hpc =>
    -- It is the root that is made, or was there before.
    cases hb
    rw [held_main b s hworkers, Hold.untouched_add] at hn
    rw [held_main b s rfl, Hold.untouched_add]
    rcases Multiset.mem_add.mp hn with hold | hnew
    · exact .inl (Multiset.mem_add.mpr (.inl hold))
    · refine .inr ?_
      have hnew : n ∈ (Hold.ofFresh s.next).untouched := hnew
      rwa [Hold.untouched_ofFresh, Multiset.mem_singleton] at hnew
  | submit hpc =>
    -- The root was with the main thread before.
    obtain rfl : b' = { b with waiting := _ ::ₘ b.waiting } := by
      cases hb
      rfl
    rw [held_main _ s hworkers, waitingHold_submit] at hn
    rw [held_main b s rfl, hpc]
    simp only [Hold.untouched_add] at hn ⊢
    rw [show ((State.setMain s _).main.hold).untouched = 0 from rfl, add_zero,
      add_right_comm] at hn
    exact .inl hn
  | wait hpc =>
    have hwait : waitingHold b' = waitingHold b := by
      cases hb
      rfl
    rw [held_main b' s hworkers, hwait] at hn
    rw [held_main b s rfl, hpc]
    exact .inl hn

/-- The new node is that of the operand in hand. -/
theorem MainStep.makes (hs : MainStep job s l s') (hl : l.created = some m) :
    m = s.next ∧ ∃ text i rest, s.main = .seed text i rest ∧ s'.main = .submit m rest ∧
      s'.left = s.left ∧ s'.nodes = Function.update s.nodes m (some
        { entry := i, parent := none, name := text, isOpen := true, remaining := 1 }) := by
  cases hs with
  | seed hpc =>
    cases hl
    exact ⟨rfl, _, _, _, hpc, rfl, rfl, rfl⟩
  | openFailed =>
    rw [(openLabel_born ..).1] at hl
    cases hl
  | confirmed | declined | lstatFailed | isFile | isDir | unlink | rmdir | opened | forceRmdir
  | submit | say | wait => cases hl

/-- The main thread removes the operand that it has in hand. -/
theorem MainStep.removes_what (hv : Visits job s) (hs : MainStep job s l s')
    (hl : l.removed = some i) : (∃ text, ⟨text, .ok i⟩ ∈ job.operands) ∧
      s.main.pending = i :: s'.main.pending := by
  have hremoved : ∀ {j r}, removedBy j r = some i → j = i := by
    intro j r h
    cases r with
    | none => exact Option.some.inj h
    | some e => cases h
  have hmainOk := hv.main
  cases hs with
  | unlink hpc | rmdir hpc | forceRmdir hpc =>
    rw [hpc] at hmainOk
    obtain rfl := hremoved hl
    rw [hpc, pending_settleMain]
    exact ⟨⟨_, hmainOk.1⟩, rfl⟩
  | openFailed =>
    rw [openLabel_removed] at hl
    cases hl
  | confirmed | declined | lstatFailed | isFile | isDir | opened | seed | submit | say | wait =>
    cases hl

/-- An operand in hand has not been taken up. -/
theorem not_takenUp_of_pending (hroot : job.tree.up i = none) (hi : i ∈ s.main.pending) :
    ¬TakenUp job b s i := fun h => h.operand hroot hi

/-- A new node: its operand had not been taken up, and the loop is past it. -/
theorem MainStep.new_node (hdistinct : job.Distinct) (href : References b s) (hv : Visits job s)
    (hs : MainStep job s l s') (hx : s'.nodes s.next = some x) :
    job.tree.up x.entry = none ∧ ¬TakenUp job b s x.entry ∧
      s.main.pending = x.entry :: s'.main.pending ∧ s'.left = s.left := by
  obtain ⟨-, text, i, rest, hpc, hpc', hleft, hnodes⟩ := hs.makes (hs.born.next href hx)
  have hmainOk := hv.main
  rw [hpc] at hmainOk
  rw [hnodes, Function.update_self] at hx
  cases hx
  have hroot := hdistinct.apart text i hmainOk.1
  refine ⟨hroot, not_takenUp_of_pending hroot ?_, ?_, hleft⟩
  · rw [hpc]
    exact List.mem_cons_self
  · rw [hpc, hpc']
    rfl

/-- What was taken up stays so. -/
theorem MainStep.begun (hdistinct : job.Distinct) (href : References b s) (hv : Visits job s)
    (hs : MainStep job s l s') (hb : l.Handed b b') (h : Begun job b s i) : Begun job b' s' i := by
  intro a ha
  have hold := h a ha
  have hnode : ∀ n x', s'.nodes n = some x' → job.tree.up a = some x'.entry →
      ∃ x, s.nodes n = some x ∧ x.entry = x'.entry := by
    intro n x' hx' hup
    rcases hs.later n x' hx' with rfl | ⟨x, hx, hentry, -⟩
    · obtain ⟨-, hnot, -⟩ := hs.new_node (b := b) hdistinct href hv hx'
      exact absurd (h _ ((Forest.Within.child hup).trans ha)) hnot
    · exact ⟨x, hx, hentry.symm⟩
  refine ⟨fun hroot hi => ?_, fun n x' hx' hup hfresh => ?_, fun n x' k seen hx' hup hscan => ?_⟩
  · exact hold.operand hroot (hs.pending_sublist.subset hi)
  · obtain ⟨x, hx, hentry⟩ := hnode n x' hx' hup
    rw [← hentry] at hup
    rcases hs.untouched_before hb hfresh with hbefore | rfl
    · exact hold.touched n x hx hup hbefore
    · exact absurd (href.lt_next (cells_of_node hx)) (lt_irrefl _)
  · obtain ⟨x, hx, hentry⟩ := hnode n x' hx' hup
    rw [← hentry] at hup
    rw [hs.workers_eq] at hscan
    exact hold.scan n x k seen hx hup hscan

/-- The loop is past an operand, and nothing is above it. -/
theorem begun_of_past (hroot : job.tree.up i = none) (hpast : i ∉ s.main.pending) :
    Begun job b s i := by
  refine .of_root hroot ⟨fun _ => hpast, fun n x _ hup => ?_, fun n x w seen _ hup => ?_⟩
  · rw [hroot] at hup
    cases hup
  · rw [hroot] at hup
    cases hup

/-- **A step of the main thread** takes no entry up twice. -/
theorem MainStep.once (hdistinct : job.Distinct) (href : References b s) (hv : Visits job s)
    (honce : Once job b s) (hs : MainStep job s l s') (hb : l.Handed b b') : Once job b' s' := by
  have hbegun : ∀ i, Begun job b s i → Begun job b' s' i :=
    fun i h => hs.begun hdistinct href hv hb h
  -- The loop is past the operand that it had in hand.
  have hpast : ∀ i, s.main.pending = i :: s'.main.pending → i ∉ s'.main.pending := by
    intro i hpending
    have hnodup := honce.operands
    rw [hpending] at hnodup
    exact (List.nodup_cons.mp hnodup).1
  refine ⟨honce.operands.sublist hs.pending_sublist, fun n m x' y' hx' hy' heq => ?_,
    fun n x' hx' => ?_, fun i hi => ?_, fun n x' hx' => ?_⟩
  · rcases hs.later n x' hx' with rfl | ⟨x, hx, hentryx, -⟩
    · rcases hs.later m y' hy' with rfl | ⟨y, hy, hentryy, -⟩
      · rfl
      · obtain ⟨-, hnot, -⟩ := hs.new_node (b := b) hdistinct href hv hx'
        exact absurd (hentryy.symm.trans heq.symm) (honce.no_node hnot hy)
    · rcases hs.later m y' hy' with rfl | ⟨y, hy, hentryy, -⟩
      · obtain ⟨-, hnot, -⟩ := hs.new_node (b := b) hdistinct href hv hy'
        exact absurd (hentryx.symm.trans heq) (honce.no_node hnot hx)
      · exact honce.nodes n m x y hx hy (hentryx.symm.trans (heq.trans hentryy))
  · rcases hs.later n x' hx' with rfl | ⟨x, hx, hentry, -⟩
    · obtain ⟨hroot, -, hpending, -⟩ := hs.new_node (b := b) hdistinct href hv hx'
      exact begun_of_past hroot (hpast _ hpending)
    · rw [hentry]
      exact hbegun _ (honce.begun n x hx)
  · by_cases hold : i ∈ s.left
    · rcases hs.left_eq hv with ⟨-, heq⟩ | ⟨j, hl, -, heq, -⟩
      · rw [heq] at hi
        exact absurd hold hi
      · obtain rfl : i = j := by
          by_contra hne
          rw [heq] at hi
          exact hi (Finset.mem_erase.mpr ⟨hne, hold⟩)
        obtain ⟨⟨text, hmem⟩, hpending⟩ := hs.removes_what hv hl
        exact begun_of_past (hdistinct.apart text i hmem) (hpast i hpending)
    · exact hbegun i (honce.removed i hold)
  · rw [hs.workers_eq]
    rcases hs.later n x' hx' with rfl | ⟨x, hx, hentry, -⟩
    · obtain ⟨-, hnot, -, hleft⟩ := hs.new_node (b := b) hdistinct href hv hx'
      rw [hleft]
      exact .inl (honce.mem_left hnot)
    · rw [hentry]
      refine (honce.left n x hx).imp_left fun hmem => ?_
      rcases hs.left_eq hv with ⟨-, heq⟩ | ⟨j, hl, -, heq, -⟩
      · rw [heq]
        exact hmem
      · -- The operand in hand has no node.
        obtain ⟨⟨text, hoperand⟩, hpending⟩ := hs.removes_what hv hl
        have hnot : ¬TakenUp job b s j := by
          apply not_takenUp_of_pending (hdistinct.apart text j hoperand)
          rw [hpending]
          exact List.mem_cons_self
        rw [heq]
        exact Finset.mem_erase.mpr ⟨honce.no_node hnot hx, hmem⟩

/-! ## Every run -/

theorem once_of_run [Fintype ι] (hfits : job.Fits) (hdistinct : job.Distinct)
    {tr : List (Label W ι)} {p : Bag W ℕ × State W ι} (h : (bagRemoval job W).Run tr p) :
    Once job p.1 p.2 := by
  refine h.invariant (I := fun _ p => Once job p.1 p.2) ?_ ?_
  · intro p hinit
    rw [bagRemoval_init hinit]
    exact ⟨hdistinct.nodup, fun n m x y hx => (by cases hx), fun n x hx => (by cases hx),
      fun i hi => absurd (Finset.mem_univ i) hi, fun n x hx => (by cases hx)⟩
  · intro tr p l p' hr hI hstep
    obtain ⟨href, hv⟩ := visits_of_run hfits hr
    have hb := handed_of_join hstep
    rcases hstep.right with hmain | ⟨w, hworker⟩
    · exact hmain.once hdistinct href hv hI hb
    · exact hworker.once href (visits_of_run hfits (hr.next hstep)).1 hv (entered_of_run hfits hr)
        hI hb

/-! ## Nothing is missing -/

/-- The entry that the next call of a worker is about. -/
def Pc.subject (s : State W ι) : Pc ι → Option ι
  | .openNode n | .forceRemove n _ | .read n _ | .remove n => (s.nodes n).map Node.entry
  | .fstatat _ _ c | .unlinkat _ _ c | .child _ _ c | .forceUnlinkat _ _ c _ => some c
  | _ => none

/-- The entry that the next call of the main thread is about. -/
def MainPc.subject : MainPc ι → Option ι
  | .lstat (o :: _) => o.entry
  | .unlink _ i _ | .rmdir _ i _ | .openDir _ i _ | .forceRmdir _ i _ _ => some i
  | _ => none

/-- The node is a worker's alone, to process it or to remove it. -/
def Pc.Owns (pc : Pc ι) (n : ℕ) : Prop := n ∈ pc.hold.active ∨ pc.removes = some n

omit [DecidableEq ι] in
theorem owns_of_leaves {pc : Pc ι} (h : pc.leaves = some n) : pc.Owns n := by
  cases pc with
  | discard =>
    cases h
    exact .inl (by simp [Pc.hold])
  | delete =>
    cases h
    exact .inr rfl
  | say o after =>
    cases after with
    | discard =>
      cases h
      exact .inl (by simp [Pc.hold, After.hold])
    | delete =>
      cases h
      exact .inr rfl
    | read | close => cases h
  | idle | openNode | resubmit | forceRemove | read | fstatat | unlinkat | child | forceUnlinkat
  | makeChild | countChild | submitChild | close | release | remove | done => cases h

omit [DecidableEq ι] in
theorem not_active_of_removes (href : References b s) {k : Fin W}
    (hk : (s.workers k).removes = some n) (hw : n ∈ (s.workers w).hold.active) : False := by
  obtain ⟨-, hown, -⟩ := alone_at_removal href hk
  apply Multiset.count_eq_zero.mp hown
  rw [held_eq b s w, Hold.active_add]
  exact Multiset.mem_add.mpr (.inr hw)

omit [DecidableEq ι] in
/-- Two workers do not own one node. -/
theorem References.alone (href : References b s) {k : Fin W} (hw : (s.workers w).Owns n)
    (hk : (s.workers k).Owns n) : w = k := by
  by_contra hne
  rcases hw with hw | hw
  · rcases hk with hk | hk
    · exact href.active_disjoint hne hw hk
    · exact not_active_of_removes href hk hw
  · rcases hk with hk | hk
    · exact not_active_of_removes href hw hk
    · have hmem : k ∈ s.workersAt Pc.removes n := Finset.mem_filter.mpr ⟨Finset.mem_univ k, hk⟩
      rw [(alone_at_removal href hw).1] at hmem
      exact hne (Finset.mem_singleton.mp hmem).symm

/-- The directory of a node is there for its owner, who has not left it. -/
theorem Once.owned (h : Once job b s) (href : References b s) (hw : (s.workers w).Owns n)
    (hnot : (s.workers w).leaves ≠ some n) (hx : s.nodes n = some x) : x.entry ∈ s.left := by
  rcases h.left n x hx with hmem | ⟨k, hk⟩
  · exact hmem
  · rw [href.alone hw (owns_of_leaves hk)] at hnot
    exact absurd hk hnot

/-- What a worker is about to work on is there. -/
theorem Once.subject (h : Once job b s) (href : References b s) (hv : Visits job s)
    (hi : (s.workers w).subject s = some i) : i ∈ s.left := by
  have hpcOk := hv.workers w
  have hnode : ∀ n, (s.workers w).Owns n → (s.workers w).leaves ≠ some n →
      (s.nodes n).map Node.entry = some i → i ∈ s.left := by
    intro n howns hnot hentry
    obtain ⟨x, hx, rfl⟩ := Option.map_eq_some_iff.mp hentry
    exact h.owned href howns hnot hx
  have hscan : ∀ n (seen : Finset ι) c, (s.workers w).scan = some (n, seen.erase c) →
      EntryOk job s n c → n ∈ (s.workers w).uses → c ∈ s.left := by
    intro n seen c hscan hentry hn
    obtain ⟨x, hx⟩ := live_of_uses href hn
    exact h.mem_left (not_takenUp_of_scan hx (hentry.2 x hx) hscan)
  cases hpc : s.workers w with
  | openNode n | forceRemove n | read n =>
    rw [hpc] at hi hnode
    exact hnode n (.inl (by simp [Pc.hold])) (by simp [Pc.leaves]) hi
  | remove n =>
    rw [hpc] at hi hnode
    exact hnode n (.inr rfl) (by simp [Pc.leaves]) hi
  | fstatat n seen c | unlinkat n seen c | child n seen c | forceUnlinkat n seen c =>
    rw [hpc] at hi hscan hpcOk
    cases hi
    exact hscan n seen i rfl hpcOk.2.2.1 (List.mem_singleton_self n)
  | idle | resubmit | discard | makeChild | countChild | submitChild | close | release | delete
  | say | done =>
    rw [hpc] at hi
    cases hi

/-- What the main thread is about to work on is there. -/
theorem Once.subject_main (h : Once job b s) (hdistinct : job.Distinct) (hv : Visits job s)
    (hi : s.main.subject = some i) : i ∈ s.left := by
  have hmainOk := hv.main
  have hpending : ∀ text, ⟨text, .ok i⟩ ∈ job.operands → i ∈ s.main.pending → i ∈ s.left :=
    fun text hmem hi => h.mem_left (not_takenUp_of_pending (hdistinct.apart text i hmem) hi)
  cases hpc : s.main with
  | lstat operands =>
    rw [hpc] at hi hmainOk hpending
    cases operands with
    | nil => cases hi
    | cons o rest =>
      obtain ⟨text, target⟩ := o
      cases target with
      | error e => cases hi
      | ok j =>
        cases hi
        exact hpending text (hmainOk _ List.mem_cons_self) List.mem_cons_self
  | unlink text j rest | rmdir text j rest | openDir text j rest | forceRmdir text j e rest =>
    rw [hpc] at hi hmainOk hpending
    cases hi
    exact hpending text hmainOk.1 List.mem_cons_self
  | prompt | declined | seed | submit | say | returned =>
    rw [hpc] at hi
    cases hi

/-- **Nothing is missing.**  With distinct operands, in every run, whatever the calls that fail and
    the opens that are refused: no two nodes stand for one directory, whatever a thread is about
    to make a call for is still there, and every operand's path leads to what it led to at first, so
    that no call fails with `ENOENT`. -/
theorem nothing_missing [Fintype ι] (hfits : job.Fits) (hsteady : job.Steady)
    (hdistinct : job.Distinct) {tr : List (Option (Label W ι))}
    {p : TaskScheduler.State W P ℕ × State W ι} (h : (removal job W P).Run tr p) :
    (∀ n m x y, p.2.nodes n = some x → p.2.nodes m = some y → x.entry = y.entry → n = m) ∧
      (∀ w i, (p.2.workers w).subject p.2 = some i → i ∈ p.2.left) ∧
      (∀ i, p.2.main.subject = some i → i ∈ p.2.left) ∧
      ∀ o ∈ job.operands, job.found p.2.left o.text = p.2.left := by
  have hrun := removal_refines h
  obtain ⟨href, hv⟩ := visits_of_run hfits hrun
  have honce := once_of_run hfits hdistinct hrun
  exact ⟨honce.nodes, fun w i hi => honce.subject href hv hi,
    fun i hi => honce.subject_main hdistinct hv hi,
    fun o ho => Job.found_of_sound (sound_of_run hfits hsteady hrun) ⟨o, ho, rfl⟩⟩

theorem removeFolder_distinct : removeFolder.Distinct where
  apart text a ha := by
    cases List.mem_singleton.mp ha
    rfl
  nodup := List.nodup_singleton 0

/-- The subdirectory that is about to be removed is there. -/
theorem nothing_missing_folder : ∃ (tr : List (Option (Label 1 (Fin 3))))
    (p : TaskScheduler.State 1 1 ℕ × State 1 (Fin 3)), (removal removeFolder 1 1).Run tr p ∧
      p.2.workers 0 = .remove 1 ∧ ∀ i, (Pc.remove 1).subject p.2 = some i → i ∈ p.2.left := by
  obtain ⟨-, -, tr, p, -, -, -, ⟨h, hremove⟩, -⟩ := removeFolder_run
  have hthere := (nothing_missing removeFolder_fits removeFolder_steady removeFolder_distinct h).2.1 0
  rw [hremove] at hthere
  exact ⟨tr, p, h, hremove, hthere⟩

end Remmy.Removal
