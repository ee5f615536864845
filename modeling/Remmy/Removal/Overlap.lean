import Remmy.Removal.Outcome

/-!
# Overlapping Operands

Operands may repeat each other, or one may lie inside another: then several walks remove the same
directories at the same time.  They only ever find that something is gone already.

- `Output.Absent` is what may be written: a line, or that something does not exist.
- `Excused`: no thread holds another error, or is about to report one.
- `overlapping_operands` is the result.
-/

namespace Remmy.Removal

open Remmy.Os Remmy.Lib Remmy.TaskScheduler

universe u

variable {ι : Type u} {W P : ℕ}

/-- No call is made to fail. -/
structure Job.Faultless (job : Job ι) : Prop where
  openDir : ∀ i, job.faults.openDir i = none
  fstatat : ∀ i, job.faults.fstatat i = none
  unlink : ∀ i, job.faults.unlink i = none
  rmdir : ∀ i, job.faults.rmdir i = none
  read : ∀ i, job.faults.read i = none

/-- A line, or a diagnostic that something does not exist. -/
def Output.Absent : Output → Prop
  | .line _ => True
  | .warning _ e => e = .enoent
  | .isADirectory _ => False

/-- A worker has met no other error than that something does not exist. -/
def Pc.Absent : Pc ι → Prop
  | .say o _ => o.Absent
  | .forceRemove _ e | .forceUnlinkat _ _ _ e => e = .enoent
  | _ => True

/-- The same of the main thread. -/
def MainPc.Absent : MainPc ι → Prop
  | .say o _ => o.Absent
  | .forceRmdir _ _ e _ => e = .enoent
  | _ => True

variable {job : Job ι} {b : Bag W ℕ} {s s' : State W ι} {l : Label W ι} {w : Fin W}
variable {left : Finset ι} {i : ι} {r : Option Errno}

namespace Job.Faultless

/-- An open fails because there is nothing to open, or for want of descriptors. -/
theorem opens (h : job.Faultless) {e : OpenError} (hopens : Opens job.faults left i (.error e))
    (hl : (openLabel i e.code : Label W ι).Allowed False) : e.code = .enoent := by
  cases hopens with
  | absent => rfl
  | fault he =>
    rw [h.openDir] at he
    cases he
  | refused hout => exact (openLabel_allowed hl hout).elim

theorem unlinks (h : job.Faultless) {e : Errno} (hunlinks : Unlinks job.faults left i (some e)) :
    e = .enoent := by
  cases hunlinks with
  | absent => rfl
  | fault he =>
    rw [h.unlink] at he
    cases he

/-- A directory with nothing left in it. -/
theorem rmdirs (h : job.Faultless) {e : Errno} (hempty : ∀ c ∈ left, job.tree.up c ≠ some i)
    (hrmdirs : Rmdirs job.tree job.faults left i (some e)) : e = .enoent := by
  cases hrmdirs with
  | notEmpty hup hc => exact absurd hup (hempty _ hc)
  | absent => rfl
  | fault he =>
    rw [h.rmdir] at he
    cases he

end Job.Faultless

variable [DecidableEq ι]

omit [DecidableEq ι] in
theorem absent_after (after : After ι) : after.pc.Absent := by
  cases after <;> trivial

omit [DecidableEq ι] in
/-- After a removal that found nothing, or whose error is not reported. -/
theorem absent_settlePc {path : Bytes} {code : Errno → Errno} {after : After ι}
    (h : ∀ e, r = some e → e ≠ .enoent → code e = .enoent) :
    (settlePc job r path code after).Absent := by
  cases r with
  | none =>
    rw [settlePc]
    split_ifs
    · trivial
    · exact absent_after after
  | some e =>
    rw [settlePc]
    split_ifs with he
    · exact absent_after after
    · exact h e rfl he

theorem absent_settleMain {path : Bytes} {code : Errno → Errno} {ignored : Errno → Bool}
    {rest : List (Operand ι)} (h : ∀ e, r = some e → code e = .enoent) :
    (settleMain job s i r path code ignored rest).main.Absent := by
  cases r with
  | none =>
    rw [settleMain]
    split_ifs <;> trivial
  | some e =>
    rw [settleMain]
    split_ifs
    · trivial
    · exact h e rfl

/-- When a node's directory is removed, nothing is left in it. -/
theorem empty_of_removes (href : References b s)
    (hcov : Coverage job False (fun _ _ => False) b s) {n : ℕ} {x : Node ι}
    (hw : (s.workers w).removes = some n) (hx : s.nodes n = some x) :
    ∀ c ∈ s.left, job.tree.up c ≠ some x.entry := by
  intro c hc hup
  rcases hcov.node n x c hx hc hup with hawaits | hsettled
  · exact not_awaits_of_removes href hw hawaits
  · exact hsettled c .self hc

/-- **A step of a worker** meets no other error. -/
theorem WorkerStep.absent (hjob : job.Faultless) (hsound : ¬job.Broken s.left)
    (href : References b s) (hv : Visits job s)
    (hcov : Coverage job False (fun _ _ => False) b s) (habsent : (s.workers w).Absent)
    (hs : WorkerStep job w s l s') (hl : l.Allowed False) : (s'.workers w).Absent := by
  have hself : ∀ (t : State W ι) (pc : Pc ι), (t.setWorker w pc).workers w = pc :=
    fun t pc => Function.update_self ..
  cases hs with
  | openFailed _ _ _ _ hopens | childFailed _ _ _ hopens =>
    rw [hself]
    exact hjob.opens hopens hl
  | openFailedForce _ _ _ _ hopens | childFailedForce _ _ hopens =>
    rw [hself]
    exact hjob.opens hopens hl
  | readFailed _ _ _ hreads =>
    -- Only a directory that is gone cannot be read.
    rw [hself]
    cases hreads with
    | fault he =>
      rw [hjob.read] at he
      cases he
    | absent => exact rfl
  | statFailed _ _ _ hstats hne =>
    cases hstats with
    | absent => exact absurd rfl hne
    | fault he =>
      rw [hjob.fstatat] at he
      cases he
  | forceRemove hpc | forceUnlinkat hpc =>
    rw [hpc] at habsent
    rw [settle_eq, hself]
    exact absent_settlePc fun _ _ _ => habsent
  | unlinkat _ _ _ hunlinks =>
    rw [settle_eq, hself]
    apply absent_settlePc
    rintro e rfl _
    exact hjob.unlinks hunlinks
  | @remove n x path r hpc hx hpath hremoves =>
    -- The directory is empty, so ENOTEMPTY is not possible.
    rw [settle_eq, hself]
    apply absent_settlePc
    rintro e rfl _
    rw [hv.view_of_sound hpath hsound] at hremoves
    cases hremoves with
    | rmdir hrmdirs =>
      exact hjob.rmdirs (empty_of_removes href hcov (by rw [hpc]; rfl) hx) hrmdirs
    | refused _ hout => exact (removeLabel_allowed hl e rfl hout).elim
  | @discard n x | @delete n x =>
    rw [hself]
    cases x.parent <;> trivial
  | readEntry =>
    rw [hself, Job.entryRead]
    split_ifs
    · cases job.tree.isDir _ <;> trivial
    · trivial
  | @stat n seen x c isDir =>
    rw [hself]
    cases isDir <;> trivial
  | say =>
    rw [hself]
    exact absent_after _
  | start | openReady | opened | parked | resubmit | readDone | statAbsent | exhausted
  | childOpened | childRefused | makeChild | countChild | submitChild | close | releaseShared
  | releaseLast | finish =>
    rw [hself]
    trivial

/-- **A step of the main thread** meets no other error. -/
theorem MainStep.absent (hjob : job.Faultless) (hrecursive : job.options.recursive = true)
    (htargets : ∀ text e, ⟨text, .error e⟩ ∈ job.operands → e = .enoent) (hv : Visits job s)
    (habsent : s.main.Absent) (hs : MainStep job s l s') (hl : l.Allowed False) :
    s'.main.Absent := by
  have hmainOk := hv.main
  cases hs with
  | @lstatFailed o e rest hpc hlstat =>
    rw [hpc] at hmainOk
    have hmem := hmainOk _ List.mem_cons_self
    split_ifs
    · trivial
    · rcases Job.lstat_error hlstat hmem with htarget | ⟨hcode, -⟩
      · refine htargets o.text e ?_
        rw [← htarget]
        exact hmem
      · exact hcode
  | isDir =>
    -- Under `-r` it is opened.
    rw [if_pos hrecursive]
    trivial
  | unlink _ hunlinks =>
    apply absent_settleMain
    rintro e rfl
    exact hjob.unlinks hunlinks
  | rmdir hpc =>
    rw [hpc] at hmainOk
    rw [hmainOk.2.2.1] at hrecursive
    cases hrecursive
  | forceRmdir hpc =>
    rw [hpc] at habsent
    exact absent_settleMain fun _ _ => habsent
  | openFailed _ hopens =>
    split_ifs
    · exact hjob.opens hopens hl
    · exact hjob.opens hopens hl
  | confirmed | declined | isFile | opened | seed | submit | say | wait => trivial

omit [DecidableEq ι] in
theorem openLabel_writes {e : Errno} {o : Output} : (openLabel i e : Label W ι) ≠ .writes o := by
  intro h
  rw [openLabel] at h
  split_ifs at h

omit [DecidableEq ι] in
theorem removeLabel_writes {o : Output} : (removeLabel i r : Label W ι) ≠ .writes o := by
  intro h
  cases r with
  | none => cases h
  | some e =>
    rw [removeLabel] at h
    split_ifs at h

/-- A worker writes what it was about to. -/
theorem WorkerStep.writes (hs : WorkerStep job w s l s') {o : Output} (hl : l = .writes o) :
    ∃ after, s.workers w = .say o after := by
  cases hs with
  | say hpc =>
    cases hl
    exact ⟨_, hpc⟩
  | openFailed | openFailedForce | childFailed | childFailedForce => exact absurd hl openLabel_writes
  | forceRemove | remove => exact absurd hl removeLabel_writes
  | start | openReady | opened | parked | resubmit | discard | readEntry | readDone | readFailed
  | stat | statAbsent | statFailed | unlinkat | exhausted | childOpened | childRefused
  | forceUnlinkat | makeChild | countChild | submitChild | close | releaseShared | releaseLast
  | delete | finish => cases hl

/-- The main thread writes what it was about to. -/
theorem MainStep.writes (hs : MainStep job s l s') {o : Output} (hl : l = .writes o) :
    ∃ rest, s.main = .say o rest := by
  cases hs with
  | say hpc =>
    cases hl
    exact ⟨_, hpc⟩
  | openFailed => exact absurd hl openLabel_writes
  | confirmed | declined | lstatFailed | isFile | isDir | unlink | rmdir | opened | forceRmdir
  | seed | submit | wait => cases hl

end Remmy.Removal
