import Remmy.Removal.Coverage
import Mathlib.Data.List.ReduceOption

/-!
# The Outcome of a Removal

What is true when `RunRm` returns: what its exit status says about the diagnostics, and which
entries are left.

- `status_of_diagnostics`: the status is 0 exactly when nothing was reported.
- `removed_visited`: nothing is removed that was not visited.
- `Job.Steady`: no operand's path leads through another operand, so that `ENOENT` always means that
  an entry is gone.
- `nothing_left_of_success`: status 0 means that all operands are gone, with all they had inside.
- `Job.Survives` are the entries that the failing calls protect, `left_exactly` says that no other
  entry of an operand is left.
-/

namespace Remmy.Removal

open Remmy.Os Remmy.Lib Remmy.TaskScheduler
open Remmy.Lib.RefTree (Hold)

universe u

variable {ι : Type u} [DecidableEq ι] {W P : ℕ}
variable {job : Job ι} {b b' : Bag W ℕ} {s s' : State W ι} {l : Label W ι} {w : Fin W} {i : ι}

/-! ## Diagnostics and the exit status -/

/-- What goes to standard error. -/
def Output.diagnostic : Output → Bool
  | .line _ => false
  | .warning .. | .isADirectory _ => true

/-- A step that writes a diagnostic. -/
def Label.diagnostic : Label W ι → Bool
  | .writes o => o.diagnostic
  | _ => false

/-- A diagnostic that a worker is about to write. -/
def Pc.unsaid : Pc ι → ℕ
  | .say o _ => o.diagnostic.toNat
  | _ => 0

/-- A diagnostic that the main thread is about to write. -/
def MainPc.unsaid : MainPc ι → ℕ
  | .say o _ => o.diagnostic.toNat
  | _ => 0

omit [DecidableEq ι] in
theorem unsaid_after (after : After ι) : after.pc.unsaid = 0 := by
  cases after <;> rfl

/-- A removal that counts as a failure is reported, and nothing else is. -/
theorem total_settleState (s : State W ι) (w : Fin W) (i : ι) (r : Option Errno) (path : Bytes)
    (code : Errno → Errno) (after : After ι) :
    (settleState s w i r).total = s.total + (settlePc job r path code after).unsaid := by
  cases r with
  | none =>
    rw [settlePc]
    split_ifs
    · rfl
    · rw [unsaid_after]
      rfl
  | some e =>
    rw [settleState, settlePc]
    split_ifs
    · rw [unsaid_after]
      rfl
    · exact total_fail s w

/-- Every failure of a worker is one diagnostic. -/
theorem WorkerStep.total_eq (hs : WorkerStep job w s l s') :
    s'.total + (s.workers w).unsaid =
      s.total + l.diagnostic.toNat + (s'.workers w).unsaid := by
  have hself : ∀ (t : State W ι) (pc : Pc ι), (t.setWorker w pc).workers w = pc :=
    fun t pc => Function.update_self ..
  have hfail : ∀ pc, ((s.fail w).setWorker w pc).total = s.total + 1 := fun pc => total_fail s w
  have hopen : ∀ i e, (openLabel i e : Label W ι).diagnostic = false := by
    intro i e
    rw [openLabel]
    split_ifs <;> rfl
  have hremove : ∀ i r, (removeLabel i r : Label W ι).diagnostic = false := by
    intro i r
    cases r with
    | none => rfl
    | some e =>
      rw [removeLabel]
      split_ifs <;> rfl
  cases hs with
  | openFailed hpc | childFailed hpc =>
    -- The failure is counted, and the diagnostic is still to be written.
    rw [hpc, hself, hfail, hopen]
    rfl
  | openFailedForce hpc | childFailedForce hpc =>
    rw [hpc, hself, hopen]
    rfl
  | readFailed hpc | statFailed hpc =>
    rw [hpc, hself, hfail]
    rfl
  | forceRemove hpc | remove hpc =>
    rw [hpc, settle_eq, hself, hremove]
    exact total_settleState ..
  | unlinkat hpc | forceUnlinkat hpc =>
    rw [hpc, settle_eq, hself]
    exact total_settleState ..
  | @discard n x hpc | @delete n x hpc =>
    rw [hpc, hself]
    cases x.parent <;> rfl
  | readEntry hpc =>
    rw [hpc, hself, Job.entryRead]
    split_ifs
    · cases job.tree.isDir _ <;> rfl
    · rfl
  | @stat n seen x c isDir hpc =>
    rw [hpc, hself]
    cases isDir <;> rfl
  | say hpc =>
    -- It is written.
    rw [hpc, hself, unsaid_after]
    rfl
  | start hpc | openReady hpc | opened hpc | parked hpc | resubmit hpc | readDone hpc
  | statAbsent hpc | exhausted hpc | childOpened hpc | childRefused hpc | makeChild hpc
  | countChild hpc | submitChild hpc | close hpc | releaseShared hpc | releaseLast hpc
  | finish hpc =>
    rw [hpc, hself]
    rfl

/-- Every failure of the main thread is one diagnostic. -/
theorem MainStep.total_eq (hs : MainStep job s l s') :
    s'.total + s.main.unsaid = s.total + l.diagnostic.toNat + s'.main.unsaid := by
  have hfail : ∀ pc, (s.failMain.setMain pc).total = s.total + 1 := fun pc => total_failMain s
  cases hs with
  | lstatFailed hpc | isDir hpc =>
    rw [hpc]
    split_ifs <;> first | rfl | exact hfail _
  | openFailed hpc =>
    rw [hpc, openLabel]
    split_ifs <;> first | rfl | exact hfail _
  | @unlink text i rest r hpc | @rmdir text i rest r hpc | @forceRmdir text i e rest r hpc =>
    rw [hpc]
    cases r <;> rw [settleMain] <;> split_ifs <;> first | rfl | exact hfail _
  | confirmed hpc | declined hpc | isFile hpc | opened hpc | seed hpc | submit hpc | say hpc
  | wait hpc =>
    rw [hpc]
    rfl

/-- The diagnostics that are about to be written. -/
def State.unsaid (s : State W ι) : ℕ := s.main.unsaid + ∑ w, (s.workers w).unsaid

/-- The failures are the operands that were dropped, the diagnostics written and those about to
    be. -/
theorem total_of_run [Fintype ι] {tr : List (Label W ι)} {p : Bag W ℕ × State W ι}
    (h : (bagRemoval job W).Run tr p) :
    p.2.total = job.dropped.toNat + tr.countP Label.diagnostic + p.2.unsaid := by
  refine h.right.invariant (I := fun tr s => s.total = job.dropped.toNat +
    tr.countP Label.diagnostic + s.unsaid) ?_ ?_
  · rintro s rfl
    have hzero : ∑ w : Fin W, (Pc.idle : Pc ι).unsaid = 0 := Finset.sum_const_zero
    show (if job.dropped = true then 1 else 0) + ∑ w : Fin W, 0 =
      job.dropped.toNat + 0 + (0 + ∑ w : Fin W, (Pc.idle : Pc ι).unsaid)
    rw [hzero, Finset.sum_const_zero]
    cases job.dropped <;> rfl
  · intro tr s l s' _ hI hstep
    rw [List.countP_append, List.countP_singleton]
    have hlabel : (if l.diagnostic = true then 1 else 0) = l.diagnostic.toNat := by
      cases l.diagnostic <;> rfl
    rw [hlabel]
    rcases hstep with hmain | ⟨w, hworker⟩
    · have heq := hmain.total_eq
      have hworkers := hmain.workers_eq
      rw [State.unsaid] at hI ⊢
      rw [hworkers]
      omega
    · have heq := hworker.total_eq
      have hsum := sum_update_add s.workers (fun _ pc => pc.unsaid) w (s'.workers w)
      rw [← hworker.workers_eq] at hsum
      rw [State.unsaid] at hI ⊢
      rw [hworker.main_eq]
      omega

/-- The main thread returns 0 or 1. -/
theorem MainStep.returned (hs : MainStep job s l s') {status : ℕ}
    (hmain : s'.main = .returned status) : status = if s'.total = 0 then 0 else 1 := by
  rcases hs.process with ⟨hl, -, -⟩ | ⟨-, -, hnot⟩
  · cases hs with
    | wait =>
      cases hmain
      rfl
    | openFailed =>
      rw [openLabel] at hl
      split_ifs at hl
    | confirmed | declined | lstatFailed | isFile | isDir | unlink | rmdir | opened | forceRmdir
    | seed | submit | say => cases hl
  · exact absurd hmain (hnot status)

/-- The exit status tells whether anything has failed. -/
theorem status_of_total [Fintype ι] {tr : List (Label W ι)} {p : Bag W ℕ × State W ι}
    (h : (bagRemoval job W).Run tr p) {status : ℕ} (hmain : p.2.main = .returned status) :
    status = if p.2.total = 0 then 0 else 1 := by
  have hall : ∀ status, p.2.main = .returned status →
      status = if p.2.total = 0 then 0 else 1 := by
    refine h.invariant (I := fun _ p => ∀ status, p.2.main = .returned status →
      status = if p.2.total = 0 then 0 else 1) ?_ ?_
    · intro p hinit status hmain
      rw [bagRemoval_init hinit] at hmain
      cases hmain
    · intro tr p l p' hr _ hstep status hmain
      rcases hstep.right with hs | ⟨w, hs⟩
      · exact hs.returned hmain
      · -- No worker does anything any more.
        rw [hs.main_eq] at hmain
        exact absurd hmain (hs.not_returned hr (handed_of_join hstep) status)
  exact hall status hmain

omit [DecidableEq ι] in
/-- Past the question, `RunRm` returns after `Wait`. -/
theorem returned_of_status {pc : MainPc ι} (hpassed : pc.passed = true) {status : ℕ}
    (h : pc.status = some status) : pc = .returned status := by
  cases pc with
  | returned => rw [Option.some.inj h]
  | declined => cases hpassed
  | _ => cases h

/-- **What the exit status says.**  When `RunRm` returns: if the question of `-I` was declined,
    nothing was removed, nothing but the question written, and the status is 1; otherwise all that
    was counted as a failure has been reported, once, besides the operands that were dropped
    before, and the status is 0 exactly when nothing was counted. -/
theorem status_of_diagnostics [Fintype ι] {tr : List (Option (Label W ι))}
    {p : TaskScheduler.State W P ℕ × State W ι} (h : (removal job W P).Run tr p) {status : ℕ}
    (hmain : p.2.main.status = some status) :
    if job.confirms then
      p.2.total = job.dropped.toNat + tr.reduceOption.countP Label.diagnostic ∧
        status = if job.dropped.toNat + tr.reduceOption.countP Label.diagnostic = 0 then 0 else 1
    else status = 1 ∧ p.2.left = Finset.univ ∧ ∀ o, some (.writes o) ∉ tr := by
  have hrun := removal_refines h
  rcases asked_of_run hrun with ⟨-, hp⟩ | ⟨hdeclines, htr, hp⟩ | ⟨hconfirms, hpassed⟩
  · have hstate : p.2 = .initial job W := congrArg Prod.snd hp
    rw [hstate] at hmain
    cases hmain
  · have hstate : p.2 = (State.initial job W).setMain (.declined job.operands) :=
      congrArg Prod.snd hp
    rw [hstate] at hmain ⊢
    rw [if_neg (Bool.eq_false_iff.mp hdeclines)]
    cases hmain
    refine ⟨rfl, rfl, fun o ho => ?_⟩
    have hmem := List.reduceOption_mem_iff.mpr ho
    rw [htr] at hmem
    cases List.mem_singleton.mp hmem
  · have hmain := returned_of_status hpassed hmain
    have htotal : p.2.total = _ + _ + p.2.unsaid := total_of_run hrun
    have hunsaid : p.2.unsaid = 0 := by
      obtain ⟨-, hidle⟩ := idle_of_returned hrun hmain
      have hworkers : ∀ w, (p.2.workers w).unsaid = 0 := by
        intro w
        rw [hidle w]
        rfl
      rw [State.unsaid, hmain, Finset.sum_eq_zero fun w _ => hworkers w]
      rfl
    rw [hunsaid, add_zero] at htotal
    rw [if_pos hconfirms]
    refine ⟨htotal, ?_⟩
    rw [← htotal]
    exact status_of_total hrun hmain

/-- The directory cannot be opened. -/
def locked : Faults (Fin 3) where
  openDir i := if i.val = 0 then some (.other 13) else none
  fstatat _ := none
  unlink _ := none
  rmdir _ := none
  read _ := none
  unread _ := false
  isFault h := by
    simp only [reduceCtorEq, or_false] at h
    split_ifs at h
    cases h
    exact ⟨by decide, rfl⟩

/-- `rm -r d` -/
def removeLocked : Job (Fin 3) := { removeFolder with faults := locked }

/-- The open fails and is reported. -/
theorem removeLocked_returned : ∃ tr p, (removal removeLocked 1 1).Run tr p ∧
    tr = [some .internal, some .internal, some .internal,
      some (.writes (.warning [100] (.other 13))), none, some (.scheduler .sawZero)] ∧ p.2.main = .returned 1 := by
  have h₀ : (removal removeLocked 1 1).Run [] (.initial 1 1 ℕ, .initial removeLocked 1) :=
    .start ⟨rfl, rfl⟩
  have hyes := h₀.next (.seen (.alone rfl (.inl (.confirmed rfl rfl))))
  have hdir := hyes.next (.seen (.alone rfl (.inl (.isDir rfl rfl rfl))))
  have hopen := hdir.next (.seen (.alone rfl (.inl (.openFailed rfl
    (.fault (e := .other 13) rfl)))))
  have hsay := hopen.next (.seen (.alone rfl (.inl (.say rfl))))
  have hwait := hsay.next (.hidden rfl (.inl (.wait rfl)))
  have hzero := hwait.next (.seen (.together rfl (.inl (.waitZero rfl rfl)) (.inl (.wait rfl))))
  exact ⟨_, _, hzero, rfl, rfl⟩

/-- One diagnostic, so the status is 1. -/
theorem status_of_diagnostics_locked : ∃ (tr : List (Option (Label 1 (Fin 3))))
    (p : TaskScheduler.State 1 1 ℕ × State 1 (Fin 3)), (removal removeLocked 1 1).Run tr p ∧
      p.2.main = .returned 1 ∧ p.2.total = 1 := by
  obtain ⟨tr, p, h, htr, hmain⟩ := removeLocked_returned
  refine ⟨tr, p, h, hmain, ?_⟩
  have hone : p.2.main.status = some 1 := congrArg MainPc.status hmain
  have hstatus := status_of_diagnostics h hone
  rw [htr] at hstatus
  exact hstatus.1

/-! ## What a step removes -/

/-- `i` can be removed now. -/
structure Removable (job : Job ι) (left : Finset ι) (i : ι) : Prop where
  visited : job.Visited i
  unlink : job.tree.isDir i = false → job.faults.unlink i = none
  rmdir : job.tree.isDir i = true → job.faults.rmdir i = none
  empty : ∀ c, job.tree.up c = some i → c ∉ left
  opened : job.tree.isDir i = true → job.options.recursive = true → job.options.force = false →
    job.faults.openDir i = none
  flat : job.tree.isDir i = true → job.options.recursive = false → job.options.dir = true

omit [DecidableEq ι] in
theorem Removable.of_unlink {left : Finset ι} (hvisited : job.Visited i)
    (hfile : job.tree.isDir i = false) (h : Unlinks job.faults left i none) :
    Removable job left i := by
  have hdir : job.tree.isDir i ≠ true := by
    rw [hfile]
    exact Bool.false_ne_true
  cases h with
  | removed _ hnone =>
    exact ⟨hvisited, fun _ => hnone, fun h => absurd h hdir,
      fun c hup => absurd hup (no_child_of_file hfile), fun h => absurd h hdir,
      fun h => absurd h hdir⟩

omit [DecidableEq ι] in
theorem Removable.of_rmdir {left : Finset ι} (hvisited : job.Visited i)
    (hdir : job.tree.isDir i = true)
    (hopened : job.options.recursive = true → job.options.force = false →
      job.faults.openDir i = none)
    (hflat : job.options.recursive = false → job.options.dir = true)
    (h : Rmdirs job.tree job.faults left i none) : Removable job left i := by
  cases h with
  | removed _ hnone hempty =>
    refine ⟨hvisited, fun h => ?_, fun _ => hnone, hempty, fun _ => hopened, fun _ => hflat⟩
    rw [hdir] at h
    cases h

/-- A node of which more than its name is known has been opened. -/
def Entered (job : Job ι) (b : Bag W ℕ) (s : State W ι) : Prop :=
  ∀ n x, s.nodes n = some x → n ∈ (held b s).untouched ∨ job.faults.openDir x.entry = none

omit [DecidableEq ι] in
/-- The node that is removed has been opened. -/
theorem Entered.removes (h : Entered job b s) (href : References b s) {n : ℕ} {x : Node ι}
    (hx : s.nodes n = some x) (hw : (s.workers w).removes = some n) :
    job.faults.openDir x.entry = none := by
  obtain ⟨-, hown, -⟩ := alone_at_removal href hw
  rcases h n x hx with hfresh | hopen
  · have hactive := Multiset.mem_of_le (Hold.untouched_le_active _) hfresh
    exact absurd hactive (Multiset.count_eq_zero.mp hown)
  · exact hopen

/-- The entry that is removed with the result `r`. -/
def removedBy (i : ι) : Option Errno → Option ι
  | none => some i
  | some _ => none

/-- The entry that a step removes. -/
def Label.removed : Label W ι → Option ι
  | .removes i r => removedBy i r
  | _ => none

omit [DecidableEq ι] in
theorem openLabel_removed {e : Errno} : (openLabel i e : Label W ι).removed = none := by
  rw [openLabel]
  split_ifs <;> rfl

omit [DecidableEq ι] in
theorem removeLabel_removed {r : Option Errno} :
    (removeLabel i r : Label W ι).removed = removedBy i r := by
  cases r with
  | none => rfl
  | some e =>
    rw [removeLabel]
    split_ifs <;> rfl

/-- What is left after a step: everything, or one entry less. -/
def Leaves (job : Job ι) (s s' : State W ι) (l : Label W ι) : Prop :=
  l.removed = none ∧ s'.left = s.left ∨ ∃ i, l.removed = some i ∧ i ∈ s.left ∧
    s'.left = s.left.erase i ∧ Removable job s.left i

theorem leaves_settle {r : Option Errno} {path : Bytes} {code : Errno → Errno} {after : After ι}
    (hl : l.removed = removedBy i r) (h : r = none → i ∈ s.left ∧ Removable job s.left i) :
    Leaves job s (settle job s w i r path code after) l := by
  rw [settle_eq]
  cases r with
  | none =>
    obtain ⟨hi, hremovable⟩ := h rfl
    exact .inr ⟨i, hl, hi, rfl, hremovable⟩
  | some e =>
    refine .inl ⟨hl, ?_⟩
    rw [settleState]
    split_ifs <;> rfl

theorem leaves_settleMain {r : Option Errno} {path : Bytes} {code : Errno → Errno}
    {ignored : Errno → Bool} {rest : List (Operand ι)}
    (h : r = none → i ∈ s.left ∧ Removable job s.left i) :
    Leaves job s (settleMain job s i r path code ignored rest) (.removes i r) := by
  cases r with
  | none =>
    obtain ⟨hi, hremovable⟩ := h rfl
    refine .inr ⟨i, rfl, hi, ?_, hremovable⟩
    rw [settleMain]
    split_ifs <;> rfl
  | some e =>
    refine .inl ⟨rfl, ?_⟩
    rw [settleMain]
    split_ifs <;> rfl

/-- **What a step of a worker removes.** -/
theorem WorkerStep.left_eq (href : References b s) (hv : Visits job s) (hentered : Entered job b s)
    (hs : WorkerStep job w s l s') : Leaves job s s' l := by
  have hpcOk := hv.workers w
  cases hs with
  | @forceRemove n x path e r hpc hx _ hremoves =>
    -- Under -f, and -r is given, as for every node.
    rw [hpc] at hpcOk
    have hnode := hv.nodes n x hx
    apply leaves_settle removeLabel_removed
    rintro rfl
    cases hremoves.of_found with
    | rmdir hrmdirs =>
      refine ⟨?_, .of_rmdir hnode.visited hnode.isDir (fun _ hforce => ?_) (fun hflat => ?_)
        hrmdirs⟩
      · cases hrmdirs with
        | removed hi => exact hi
      · rw [hpcOk.1] at hforce
        cases hforce
      · rw [hnode.recursive] at hflat
        cases hflat
  | @remove n x path r hpc hx _ hremoves =>
    -- The worker has opened the directory.
    have hnode := hv.nodes n x hx
    have hopened := hentered.removes href hx (w := w) (by rw [hpc]; rfl)
    apply leaves_settle removeLabel_removed
    rintro rfl
    cases hremoves.of_found with
    | rmdir hrmdirs =>
      refine ⟨?_, .of_rmdir hnode.visited hnode.isDir (fun _ _ => hopened) (fun hflat => ?_)
        hrmdirs⟩
      · cases hrmdirs with
        | removed hi => exact hi
      · rw [hnode.recursive] at hflat
        cases hflat
  | @unlinkat n seen x c path r hpc hx _ hunlinks =>
    -- The entry was read from a directory that may be scanned.
    rw [hpc] at hpcOk
    obtain ⟨_, hscan, hentry, htyped, hfile⟩ := hpcOk
    have hnode := hv.nodes n x hx
    apply leaves_settle rfl
    rintro rfl
    refine ⟨?_, .of_unlink ?_ hfile hunlinks⟩
    · cases hunlinks with
      | removed hi => exact hi
    · exact .entry (hentry.2 x hx) hnode.visited hnode.recursive (hscan x hx).1 hentry.1 htyped
  | @forceUnlinkat n seen x c path e r hpc hx _ hrmdirs =>
    rw [hpc] at hpcOk
    obtain ⟨_, hscan, hentry, htyped, hdir, hforce, _⟩ := hpcOk
    have hnode := hv.nodes n x hx
    apply leaves_settle rfl
    rintro rfl
    refine ⟨?_, .of_rmdir ?_ hdir (fun _ hnot => ?_) (fun hflat => ?_) hrmdirs⟩
    · cases hrmdirs with
      | removed hi => exact hi
    · exact .entry (hentry.2 x hx) hnode.visited hnode.recursive (hscan x hx).1 hentry.1 htyped
    · rw [hforce] at hnot
      cases hnot
    · rw [hnode.recursive] at hflat
      cases hflat
  | openFailed | openFailedForce | childFailed | childFailedForce =>
    exact .inl ⟨openLabel_removed, rfl⟩
  | start | openReady | opened | parked | resubmit | discard | readEntry | readDone | readFailed
  | stat | statAbsent | statFailed | exhausted | childOpened | childRefused | makeChild | countChild
  | submitChild | close | releaseShared | releaseLast | delete | say | finish =>
    exact .inl ⟨rfl, rfl⟩

/-- **What a step of the main thread removes.** -/
theorem MainStep.left_eq (hv : Visits job s) (hs : MainStep job s l s') : Leaves job s s' l := by
  have hmainOk := hv.main
  cases hs with
  | @unlink text i rest r hpc hunlinks =>
    rw [hpc] at hmainOk
    obtain ⟨hmem, hfile, -⟩ := hmainOk
    apply leaves_settleMain
    rintro rfl
    have hunlinks := hunlinks.of_found
    refine ⟨?_, .of_unlink (.operand hmem) hfile hunlinks⟩
    cases hunlinks with
    | removed hi => exact hi
  | @rmdir text i rest r hpc hrmdirs =>
    -- Without -r, so -d is given.
    rw [hpc] at hmainOk
    obtain ⟨hmem, hdir, hflat, hd, -⟩ := hmainOk
    apply leaves_settleMain
    rintro rfl
    have hrmdirs := hrmdirs.of_found
    refine ⟨?_, .of_rmdir (.operand hmem) hdir (fun hrecursive => ?_) (fun _ => hd) hrmdirs⟩
    · cases hrmdirs with
      | removed hi => exact hi
    · rw [hflat] at hrecursive
      cases hrecursive
  | @forceRmdir text i e rest r hpc hrmdirs =>
    -- Under -f and -r.
    rw [hpc] at hmainOk
    obtain ⟨hmem, hdir, hrecursive, hforce, -⟩ := hmainOk
    apply leaves_settleMain
    rintro rfl
    have hrmdirs := hrmdirs.of_found
    refine ⟨?_, .of_rmdir (.operand hmem) hdir (fun _ hnot => ?_) (fun hflat => ?_) hrmdirs⟩
    · cases hrmdirs with
      | removed hi => exact hi
    · rw [hforce] at hnot
      cases hnot
    · rw [hrecursive] at hflat
      cases hflat
  | openFailed =>
    refine .inl ⟨openLabel_removed, ?_⟩
    split_ifs <;> rfl
  | lstatFailed | isDir =>
    refine .inl ⟨rfl, ?_⟩
    split_ifs <;> rfl
  | confirmed | declined | isFile | opened | seed | submit | say | wait => exact .inl ⟨rfl, rfl⟩

/-- Whose scan of a node begins has opened it. -/
theorem openDir_of_scan (href : References b s) (hv : Visits job s) {n : ℕ} {seen : Finset ι}
    {x : Node ι} (hscan : (s.workers w).scan = some (n, seen)) (hx : s.nodes n = some x) :
    job.faults.openDir x.entry = none := by
  have hpcOk := hv.workers w
  cases hpc : s.workers w with
  | read | submitChild =>
    rw [hpc] at hscan hpcOk
    cases hscan
    exact (hpcOk x hx).1
  | fstatat | unlinkat | child | forceUnlinkat | makeChild =>
    rw [hpc] at hscan hpcOk
    cases hscan
    exact (hpcOk.2.1 x hx).1
  | countChild k old m =>
    obtain ⟨y, hy⟩ := live_of_uses href (w := w) (n := m) (by rw [hpc]; simp [Pc.uses])
    rw [hpc] at hscan hpcOk
    cases hscan
    exact ((hpcOk y hy).2.2.1 x hx).1
  | say o after =>
    rw [hpc] at hscan hpcOk
    cases after with
    | read =>
      cases hscan
      exact (hpcOk x hx).1
    | close | delete | discard => cases hscan
  | idle | openNode | resubmit | forceRemove | discard | close | release | remove | delete
  | done =>
    rw [hpc] at hscan
    cases hscan

theorem WorkerStep.entered (href : References b s) (href' : References b' s')
    (hv : Visits job s) (hentered : Entered job b s) (hs : WorkerStep job w s l s')
    (hb : l.Handed b b') : Entered job b' s' := by
  intro n x' hx'
  rcases hs.later href (fun n x hx => (hv.nodes n x hx).small) n x' hx' with
    rfl | ⟨x, hx, hentry, -⟩
  · refine .inl ?_
    rw [held_eq b' s' w, Hold.untouched_add]
    exact Multiset.mem_add.mpr (.inr (hs.made (hs.born.next href hx')))
  · rcases hentered n x hx with hfresh | hopen
    · rcases hs.fresh hb hfresh (by rw [hx']; rfl) with hfresh | hscan
      · exact .inl hfresh
      · exact .inr (openDir_of_scan href' (hs.visits href hv) hscan hx')
    · rw [hentry]
      exact .inr hopen

theorem MainStep.entered (href : References b s) (hentered : Entered job b s)
    (hs : MainStep job s l s') (hb : l.Handed b b') : Entered job b' s' := by
  intro n x' hx'
  rcases hs.later n x' hx' with rfl | ⟨x, hx, hentry, -⟩
  · refine .inl ?_
    rw [held_main b' s hs.workers_eq, Hold.untouched_add]
    exact Multiset.mem_add.mpr (.inr (hs.made (hs.born.next href hx')))
  · rw [hentry]
    exact (hentered n x hx).imp_left fun hfresh => Multiset.mem_of_le (hs.untouched hb) hfresh

theorem entered_of_run [Fintype ι] (hfits : job.Fits) {tr : List (Label W ι)}
    {p : Bag W ℕ × State W ι} (h : (bagRemoval job W).Run tr p) : Entered job p.1 p.2 := by
  refine h.invariant (I := fun _ p => Entered job p.1 p.2) ?_ ?_
  · intro p hinit n x hx
    rw [bagRemoval_init hinit] at hx
    cases hx
  · intro tr p l p' hr hI hstep
    obtain ⟨href, hv⟩ := visits_of_run hfits hr
    have hb := handed_of_join hstep
    rcases hstep.right with hmain | ⟨w, hworker⟩
    · exact hmain.entered href hI hb
    · exact hworker.entered href (visits_of_run hfits (hr.next hstep)).1 hv hI hb

/-- Rule for what is left: if `Q` holds of no entry at the moment when it is removed, then what
    has `Q` is left. -/
theorem left_of_run [Fintype ι] (hfits : job.Fits) {Q : ι → Prop}
    (hQ : ∀ left i, (∀ j, Q j → j ∈ left) → Removable job left i → ¬Q i) {tr : List (Label W ι)}
    {p : Bag W ℕ × State W ι} (h : (bagRemoval job W).Run tr p) {i : ι} (hi : Q i) :
    i ∈ p.2.left := by
  refine h.invariant (I := fun _ p => ∀ j, Q j → j ∈ p.2.left) ?_ ?_ i hi
  · intro p hinit j _
    rw [bagRemoval_init hinit]
    exact Finset.mem_univ j
  · intro tr p l p' hr hI hstep j hj
    obtain ⟨href, hv⟩ := visits_of_run hfits hr
    have hleaves : Leaves job p.2 p'.2 l := by
      rcases hstep.right with hmain | ⟨w, hworker⟩
      · exact hmain.left_eq hv
      · exact hworker.left_eq href hv (entered_of_run hfits hr)
    rcases hleaves with ⟨-, heq⟩ | ⟨k, -, -, heq, hremovable⟩
    · rw [heq]
      exact hI j hj
    · rw [heq]
      refine Finset.mem_erase.mpr ⟨?_, hI j hj⟩
      rintro rfl
      exact hQ _ _ hI hremovable hj

/-! ## Containment -/

omit [DecidableEq ι] in
/-- What is visited belongs to an operand. -/
theorem Job.Visited.within (h : job.Visited i) :
    ∃ text a, ⟨text, .ok a⟩ ∈ job.operands ∧ job.tree.Within a i := by
  induction h with
  | operand hmem => exact ⟨_, _, hmem, .self⟩
  | entry hup _ _ _ _ _ ih =>
    obtain ⟨text, a, hmem, hwithin⟩ := ih
    exact ⟨text, a, hmem, .step hup hwithin⟩

/-- **Containment.**  In every run, whatever the calls that fail and the opens that are refused:
    what has been removed is an operand, or was read under `-r` from a directory that was itself
    reached in this way and can be opened. -/
theorem removed_visited [Fintype ι] (hfits : job.Fits) {tr : List (Option (Label W ι))}
    {p : TaskScheduler.State W P ℕ × State W ι} (h : (removal job W P).Run tr p) {i : ι}
    (hi : i ∉ p.2.left) : job.Visited i := by
  by_contra hnot
  have hleft : i ∈ p.2.left := by
    refine left_of_run (Q := fun i => ¬job.Visited i) hfits ?_ (removal_refines h) hnot
    exact fun left i _ hremovable hQ => hQ hremovable.visited
  exact hi hleft

/-- The file was read from the subdirectory, which was read from the operand. -/
theorem removed_visited_folder : ∃ (tr : List (Option (Label 1 (Fin 3))))
    (p : TaskScheduler.State 1 1 ℕ × State 1 (Fin 3)), (removal removeFolder 1 1).Run tr p ∧
      2 ∉ p.2.left ∧ removeFolder.Visited 2 := by
  obtain ⟨-, -, -, -, tr, p, -, -, h, -, -, hleft⟩ := removeFolder_run
  have hgone : 2 ∉ p.2.left := by
    rw [hleft]
    exact Finset.notMem_empty 2
  exact ⟨tr, p, h, hgone, removed_visited removeFolder_fits h hgone⟩

/-! ## The paths of the operands -/

/-- No operand's path leads through an entry that belongs to an operand: neither through a symbolic
    link nor through a directory before a `..` that the removal may take away. -/
def Job.Steady (job : Job ι) : Prop :=
  ∀ o ∈ job.operands, ∀ j ∈ job.through o.text, ∀ text a, ⟨text, .ok a⟩ ∈ job.operands →
    ¬job.tree.Within a j

omit [DecidableEq ι] in
/-- Operands whose paths lead through nothing else. -/
theorem Job.steady_of_through (h : ∀ text, job.through text = ∅) : job.Steady := by
  intro o _ j hj
  rw [h] at hj
  exact absurd hj (Finset.notMem_empty j)

/-- Then every path leads to the same entries all the time. -/
theorem sound_of_run [Fintype ι] (hfits : job.Fits) (hsteady : job.Steady)
    {tr : List (Label W ι)} {p : Bag W ℕ × State W ι} (h : (bagRemoval job W).Run tr p) :
    ¬job.Broken p.2.left := by
  rintro ⟨o, ho, hgone⟩
  apply hgone
  intro j hj
  refine left_of_run (Q := fun j => j ∈ job.through o.text) hfits ?_ h hj
  intro left i _ hremovable hi
  obtain ⟨text, a, hmem, hwithin⟩ := hremovable.visited.within
  exact hsteady o ho i hi text a hmem hwithin

/-! ## Nothing is left of a success -/

omit [DecidableEq ι] in
/-- As long as nothing has failed, nothing may stay. -/
theorem excuse_of_failure : Excuse job True fun f _ => 0 < f where
  mono hle hpos := hpos.trans_le hle
  above hpos _ := hpos
  unlink _ _ := Nat.succ_pos _
  rmdir _ _ := Nat.succ_pos _
  opened _ _ _ _ := Nat.succ_pos _
  inside _ _ _ _ := Nat.succ_pos _
  untyped _ _ _ _ := Nat.succ_pos _
  lost _ _ := Nat.succ_pos _
  flat _ _ _ := Nat.succ_pos _
  directory _ _ _ := Nat.succ_pos _
  refused _ := Nat.succ_pos _

omit [DecidableEq ι] in
/-- A success is a return after `Wait`. -/
theorem returned_of_success {pc : MainPc ι} (h : pc.status = some 0) : pc = .returned 0 := by
  cases pc with
  | returned => rw [Option.some.inj h]
  | declined => cases h
  | _ => cases h

omit [DecidableEq ι] in
theorem mem_entries {text : Bytes} {a : ι} (h : ⟨text, .ok a⟩ ∈ job.operands) :
    a ∈ job.operands.filterMap Operand.entry := List.mem_filterMap.mpr ⟨_, h, rfl⟩

/-- **A success is complete.**  When `RunRm` returns 0, every operand that `lstat` can find is gone,
    with everything that was anywhere inside it, whatever the operands, the options, the calls that
    fail and the opens that are refused, as long as no operand's path leads through another. -/
theorem nothing_left_of_success [Fintype ι] (hfits : job.Fits) (hsteady : job.Steady)
    {tr : List (Option (Label W ι))} {p : TaskScheduler.State W P ℕ × State W ι}
    (h : (removal job W P).Run tr p) (hmain : p.2.main.status = some 0) {text : Bytes} {a : ι}
    (ha : ⟨text, .ok a⟩ ∈ job.operands) {i : ι} (hwithin : job.tree.Within a i) :
    i ∉ p.2.left := by
  intro hi
  have hrun := removal_refines h
  have hmain := returned_of_success hmain
  have hsettled := settled_of_returned excuse_of_failure hfits hrun (fun _ _ _ _ => trivial)
    (sound_of_run hfits hsteady hrun) hmain (mem_entries ha)
  have hpos : 0 < p.2.total := hsettled i hwithin hi
  have hstatus := status_of_total hrun hmain
  have hne : p.2.total ≠ 0 := hpos.ne'
  rw [if_neg hne] at hstatus
  cases hstatus

theorem removeFolder_steady : removeFolder.Steady := Job.steady_of_through fun _ => rfl

/-- The file inside the folder is gone. -/
theorem nothing_left_of_success_folder : ∃ (tr : List (Option (Label 1 (Fin 3))))
    (p : TaskScheduler.State 1 1 ℕ × State 1 (Fin 3)), (removal removeFolder 1 1).Run tr p ∧
      p.2.main.status = some 0 ∧ 2 ∉ p.2.left := by
  obtain ⟨-, -, -, -, tr, p, -, -, h, -, hmain, -⟩ := removeFolder_run
  have hstatus : p.2.main.status = some 0 := by
    rw [hmain]
    rfl
  exact ⟨tr, p, h, hstatus, nothing_left_of_success removeFolder_fits removeFolder_steady h hstatus
    List.mem_cons_self (.step (d := 1) rfl (.step (d := 0) rfl .self))⟩

/-! ## The exact outcome -/

/-- What a removal leaves of its operands when no refusal for want of descriptors is final. -/
inductive Job.Survives (job : Job ι) : ι → Prop
  /-- A file whose `unlink` fails. -/
  | unlink {i : ι} {e : Errno} : job.tree.isDir i = false → job.faults.unlink i = some e →
      Survives job i
  /-- A directory whose `rmdir` fails. -/
  | rmdir {i : ι} {e : Errno} : job.tree.isDir i = true → job.faults.rmdir i = some e →
      Survives job i
  /-- A directory that cannot be opened; with `-f` its removal is tried all the same. -/
  | opened {i : ι} {e : Errno} : job.options.recursive = true → job.options.force = false →
      job.tree.isDir i = true → job.faults.openDir i = some e → Survives job i
  /-- Everything in a directory that cannot be opened. -/
  | inside {d c i : ι} {e : Errno} : job.options.recursive = true →
      job.faults.openDir d = some e → job.tree.up c = some d → job.tree.Within c i →
      Survives job i
  /-- An entry whose type cannot be found out, with everything below it. -/
  | untyped {d c i : ι} {e : Errno} : job.tree.up c = some d → job.tree.typeKnown c = false →
      job.faults.fstatat c = some e → job.tree.Within c i → Survives job i
  /-- An entry that a failed read did not return, with everything below it. -/
  | lost {c i : ι} : Lost job.tree job.faults c → job.tree.Within c i → Survives job i
  /-- Without `-r`, everything in a directory. -/
  | flat {d c i : ι} : job.options.recursive = false → job.tree.up c = some d →
      job.tree.Within c i → Survives job i
  /-- Without `-r` and `-d`, a directory. -/
  | directory {i : ι} : job.options.recursive = false → job.options.dir = false →
      job.tree.isDir i = true → Survives job i
  /-- A directory with something left in it. -/
  | above {c d : ι} : Survives job c → job.tree.up c = some d → Survives job d

omit [DecidableEq ι] in
theorem excuse_of_survives : Excuse job False fun _ i => job.Survives i where
  mono _ h := h
  above := .above
  unlink := .unlink
  rmdir := .rmdir
  opened := .opened
  inside := .inside
  untyped := .untyped
  lost := .lost
  flat := .flat
  directory := .directory
  refused h := h.elim

/-- No operand lies in a directory of the tree. -/
def Job.Apart (job : Job ι) : Prop :=
  ∀ text a, ⟨text, .ok a⟩ ∈ job.operands → job.tree.up a = none

omit [DecidableEq ι] in
/-- The way down to an entry that is visited. -/
theorem Job.Visited.way (hapart : job.Apart) (h : job.Visited i) {c d : ι}
    (hup : job.tree.up c = some d) (hwithin : job.tree.Within c i) :
    job.options.recursive = true ∧ job.faults.openDir d = none ∧
      ¬Lost job.tree job.faults c ∧ job.Typed c := by
  induction h with
  | @operand text a hmem =>
    obtain rfl := hwithin.eq_of_root (hapart text a hmem)
    rw [hapart text c hmem] at hup
    cases hup
  | @entry k e hk _ hrecursive hopen hlost htyped ih =>
    cases hwithin with
    | self =>
      rw [hk] at hup
      cases hup
      exact ⟨hrecursive, hopen, hlost, htyped⟩
    | step hk' hwithin =>
      rw [hk] at hk'
      cases hk'
      exact ih hwithin

omit [DecidableEq ι] in
/-- What survives cannot be removed. -/
theorem Removable.not_survives (hapart : job.Apart) {left : Finset ι} {i : ι}
    (hleft : ∀ j, job.Survives j → j ∈ left) (h : Removable job left i) : ¬job.Survives i := by
  have hway : ∀ {c d}, job.tree.up c = some d → job.tree.Within c i →
      job.options.recursive = true ∧ job.faults.openDir d = none ∧
        ¬Lost job.tree job.faults c ∧ job.Typed c := fun hup => h.visited.way hapart hup
  intro hi
  cases hi with
  | unlink hfile he =>
    rw [h.unlink hfile] at he
    cases he
  | rmdir hdir he =>
    rw [h.rmdir hdir] at he
    cases he
  | opened hrecursive hforce hdir he =>
    rw [h.opened hdir hrecursive hforce] at he
    cases he
  | inside _ he hup hwithin =>
    rw [(hway hup hwithin).2.1] at he
    cases he
  | untyped hup hknown he hwithin =>
    rcases (hway hup hwithin).2.2.2 with htyped | hnone
    · rw [hknown] at htyped
      cases htyped
    · rw [hnone] at he
      cases he
  | lost hlost hwithin =>
    obtain ⟨d, -, hup, -⟩ := hlost.2
    exact (hway hup hwithin).2.2.1 hlost
  | flat hrecursive hup hwithin =>
    rw [(hway hup hwithin).1] at hrecursive
    cases hrecursive
  | directory hrecursive hd hdir =>
    rw [h.flat hdir hrecursive] at hd
    cases hd
  | above hc hup => exact h.empty _ hup (hleft _ hc)

/-- **The exact outcome.**  When `RunRm` returns and no refusal for want of descriptors was final,
    there is left exactly what is in no operand, and what the failing calls protect: under all
    interleavings, with any number of workers. -/
theorem left_exactly [Fintype ι] (hfits : job.Fits) (hsteady : job.Steady) (hapart : job.Apart)
    {tr : List (Option (Label W ι))} {p : TaskScheduler.State W P ℕ × State W ι}
    (h : (removal job W P).Run tr p) (hfinal : ∀ i, some (.givesUp i) ∉ tr) {status : ℕ}
    (hmain : p.2.main = .returned status) (i : ι) :
    i ∈ p.2.left ↔
      (∀ text a, ⟨text, .ok a⟩ ∈ job.operands → ¬job.tree.Within a i) ∨ job.Survives i := by
  have hrun := removal_refines h
  constructor
  · intro hi
    by_cases hoperand : ∃ text a, ⟨text, .ok a⟩ ∈ job.operands ∧ job.tree.Within a i
    · obtain ⟨text, a, ha, hwithin⟩ := hoperand
      have hallowed : ∀ l ∈ tr.reduceOption, l.Allowed False := by
        rintro l hl j rfl
        exact hfinal j (List.reduceOption_mem_iff.mp hl)
      exact .inr (settled_of_returned excuse_of_survives hfits hrun hallowed
        (sound_of_run hfits hsteady hrun) hmain (mem_entries ha) i hwithin hi)
    · exact .inl fun text a ha hwithin => hoperand ⟨text, a, ha, hwithin⟩
  · rintro (houtside | hsurvives)
    · by_contra hi
      obtain ⟨text, a, ha, hwithin⟩ := (removed_visited hfits h hi).within
      exact houtside text a ha hwithin
    · refine left_of_run hfits ?_ hrun hsurvives
      exact fun left i hleft hremovable => hremovable.not_survives hapart hleft

/-- The directory stays, and what is in it. -/
theorem left_exactly_locked : ∃ (tr : List (Option (Label 1 (Fin 3))))
    (p : TaskScheduler.State 1 1 ℕ × State 1 (Fin 3)), (removal removeLocked 1 1).Run tr p ∧
      p.2.main = .returned 1 ∧ 0 ∈ p.2.left ∧ 1 ∈ p.2.left := by
  obtain ⟨tr, p, h, htr, hmain⟩ := removeLocked_returned
  have hapart : removeLocked.Apart := by
    intro text a ha
    cases List.mem_singleton.mp ha
    rfl
  have hfinal : ∀ i, some (.givesUp i) ∉ tr := by simp [htr]
  have hsteady : removeLocked.Steady := Job.steady_of_through fun _ => rfl
  have hleft := left_exactly (Job.fits_of_card (by decide)) hsteady hapart h hfinal hmain
  refine ⟨tr, p, h, hmain, (hleft 0).mpr (.inr ?_), (hleft 1).mpr (.inr ?_)⟩
  · exact .opened rfl rfl rfl (e := .other 13) rfl
  · exact .inside (d := 0) (e := .other 13) rfl rfl rfl .self

end Remmy.Removal
