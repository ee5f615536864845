import Remmy.Removal.Protocol
import Mathlib.Data.List.ReduceOption

/-!
# Unlink Mode

`RunUnlink` of `main.cpp`, which runs instead of `RunRm` when the program is called `unlink`.  What
comes before the two, such as the operands that `rm` drops, is not compared here.

- `RunUnlink` says how it can end: with what exit status and diagnostics, and what is left.
- `Stage` is how far `RunRm` is with the same operand and no options; nothing is submitted and the
  workers stay idle.
- `runUnlink_iff`: the two can end in the same ways.
-/

namespace Remmy.Removal

open Remmy.Os Remmy.Lib Remmy.TaskScheduler

universe u

variable {ι : Type u} [DecidableEq ι] [Fintype ι] {W P : ℕ}

/-! ## The two modes -/

/-- `RunUnlink`: the exit status, what is written, and what is left. -/
inductive RunUnlink (tree : Tree ι) (faults : Faults ι) (operand : Operand ι) (left : Finset ι) :
    ℕ → List Output → Finset ι → Prop
  | lstatFailed {e : Errno} : operand.target = .error e →
      RunUnlink tree faults operand left 1 [.warning operand.text e] left
  | lstatAbsent {i : ι} : operand.target = .ok i → i ∉ left →
      RunUnlink tree faults operand left 1 [.warning operand.text .enoent] left
  | isDir {i : ι} : operand.target = .ok i → i ∈ left → tree.isDir i = true →
      RunUnlink tree faults operand left 1 [.isADirectory operand.text] left
  | unlinkFailed {i : ι} {e : Errno} : operand.target = .ok i → i ∈ left → tree.isDir i = false →
      Unlinks faults left i (some e) →
      RunUnlink tree faults operand left 1 [.warning operand.text e] left
  | unlinked {i : ι} : operand.target = .ok i → i ∈ left → tree.isDir i = false →
      Unlinks faults left i none → RunUnlink tree faults operand left 0 [] (left.erase i)

/-- `rm` with one operand and no options. -/
def Job.plain (job : Job ι) (operand : Operand ι) : Job ι :=
  { job with options := {}, operands := [operand], dropped := false }

/-- What a step writes. -/
def Label.written : Label W ι → Option Output
  | .writes o => some o
  | _ => none

/-- What is written in a run. -/
def written (tr : List (Label W ι)) : List Output := tr.filterMap Label.written

omit [DecidableEq ι] [Fintype ι] in
theorem written_snoc (tr : List (Label W ι)) (l : Label W ι) :
    written (tr ++ [l]) = written tr ++ l.written.toList := by
  rw [written, List.filterMap_append]
  cases hl : l.written <;> simp [written, hl]

variable {job : Job ι} {operand : Operand ι} {b b' : Bag W ℕ} {s s' : State W ι} {l : Label W ι}
variable {out : List Output}

/-- While nothing has been removed, a path leads to what it always led to. -/
theorem Job.found_univ (job : Job ι) (text : Bytes) :
    job.found Finset.univ text = Finset.univ := if_pos (Finset.subset_univ _)

/-- While nothing has been removed, `lstat` finds what it always found. -/
theorem Job.lstat_univ (job : Job ι) (o : Operand ι) : job.lstat Finset.univ o = o.target := by
  rw [Job.lstat, if_pos (Finset.subset_univ _)]
  split
  · rename_i i htarget
    rw [if_pos (Finset.mem_univ i), htarget]
  · rename_i e htarget
    exact htarget.symm

/-! ## Every end of `RunRm` is one of `RunUnlink` -/

/-- How far `RunRm` is with one operand: where it stands, what is left, what it has counted and
    written. -/
inductive Stage (tree : Tree ι) (faults : Faults ι) (operand : Operand ι) (s : State W ι)
    (out : List Output) : Prop
  | prompt : s.main = .prompt [operand] → s.left = Finset.univ → s.failures = 0 → out = [] →
      Stage tree faults operand s out
  | lstat : s.main = .lstat [operand] → s.left = Finset.univ → s.failures = 0 → out = [] →
      Stage tree faults operand s out
  | unlink {i : ι} : s.main = .unlink operand.text i [] → operand.target = .ok i →
      tree.isDir i = false → s.left = Finset.univ → s.failures = 0 → out = [] →
      Stage tree faults operand s out
  | say {o : Output} : s.main = .say o [] → RunUnlink tree faults operand Finset.univ 1 [o] s.left →
      s.failures = 1 → out = [] → Stage tree faults operand s out
  | wait {status : ℕ} : s.main = .lstat [] →
      RunUnlink tree faults operand Finset.univ status out s.left →
      status = (if s.failures = 0 then 0 else 1) → Stage tree faults operand s out
  | returned {status : ℕ} : s.main = .returned status →
      RunUnlink tree faults operand Finset.univ status out s.left → Stage tree faults operand s out

/-- The workers have nothing to do. -/
structure Quiet (b : Bag W ℕ) (s : State W ι) : Prop where
  waiting : b.waiting = 0
  workers : ∀ w, s.workers w = .idle
  failures : ∀ w, s.workerFailures w = 0

omit [Fintype ι] in
/-- A worker can only wait for a task. -/
theorem Quiet.no_step {w : Fin W} (h : Quiet b s) (hs : WorkerStep job w s l s')
    (hb : l.Handed b b') : False := hs.not_rest h.waiting (h.workers w) hb

omit [Fintype ι] in
theorem settleMain_workerFailures (job : Job ι) (s : State W ι) (i : ι) (r : Option Errno)
    (path : Bytes) (code : Errno → Errno) (ignored : Errno → Bool) (rest : List (Operand ι)) :
    (settleMain job s i r path code ignored rest).workerFailures = s.workerFailures := by
  cases r <;> rw [settleMain] <;> split_ifs <;> rfl

omit [Fintype ι] in
theorem MainStep.workerFailures_eq (hs : MainStep job s l s') :
    s'.workerFailures = s.workerFailures := by
  cases hs with
  | unlink | rmdir | forceRmdir => exact settleMain_workerFailures ..
  | lstatFailed | isDir | openFailed => split_ifs <;> rfl
  | confirmed | declined | isFile | opened | seed | submit | say | wait => rfl

omit [Fintype ι] in
/-- They still have nothing to do when nothing is submitted. -/
theorem Quiet.main (h : Quiet b s) (hs : MainStep job s l s') (hb : l.Handed b b')
    (hsubmit : ∀ n rest, s.main ≠ .submit n rest) : Quiet b' s' := by
  have hworkers : ∀ w, s'.workers w = .idle := by
    intro w
    rw [hs.workers_eq]
    exact h.workers w
  have hfailures : ∀ w, s'.workerFailures w = 0 := by
    intro w
    rw [hs.workerFailures_eq]
    exact h.failures w
  refine ⟨?_, hworkers, hfailures⟩
  cases hs with
  | submit hm => exact absurd hm (hsubmit _ _)
  | wait _ =>
    cases hb
    exact h.waiting
  | openFailed _ _ =>
    rw [openLabel_handed hb]
    exact h.waiting
  | _ =>
    have hbag : b' = b := hb
    rw [hbag]
    exact h.waiting

theorem Stage.not_submit (h : Stage job.tree job.faults operand s out) (n : ℕ)
    (rest : List (Operand ι)) : s.main ≠ .submit n rest := by
  cases h <;> simp_all

/-- A failure is counted, and reported next. -/
theorem Stage.of_failure {o : Output} (hleft : s.left = Finset.univ) (hfailures : s.failures = 0)
    (hout : out = []) (hends : RunUnlink job.tree job.faults operand Finset.univ 1 [o] Finset.univ) :
    Stage job.tree job.faults operand (s.failMain.setMain (.say o [])) out := by
  have hcounted : s.failures + 1 = 1 := by rw [hfailures]
  rw [← hleft] at hends
  exact .say rfl (hleft ▸ hends) hcounted hout

/-- A step of `RunRm` brings it on. -/
theorem Stage.step (h : Stage job.tree job.faults operand s out) (hq : Quiet b s)
    (hs : MainStep (job.plain operand) s l s') :
    Stage job.tree job.faults operand s' (out ++ l.written.toList) := by
  cases h with
  | prompt hmain hleft hfailures hout =>
    -- Without -I nothing is asked.
    cases hs with
    | confirmed hm =>
      rw [hmain] at hm
      cases hm
      exact .lstat rfl hleft hfailures (by rw [hout]; rfl)
    | declined _ hdeclines => cases hdeclines
    | _ => simp_all
  | lstat hmain hleft hfailures hout =>
    -- Nothing is removed yet, so `lstat` says what it said of the whole tree.
    cases hs with
    | lstatFailed hm hlstat =>
      rw [hmain] at hm
      cases hm
      rw [hleft, Job.lstat_univ] at hlstat
      exact .of_failure hleft hfailures (by rw [hout]; rfl) (.lstatFailed hlstat)
    | isFile hm hlstat hfile =>
      rw [hmain] at hm
      cases hm
      rw [hleft, Job.lstat_univ] at hlstat
      exact .unlink rfl hlstat hfile hleft hfailures (by rw [hout]; rfl)
    | isDir hm hlstat hdir =>
      rw [hmain] at hm
      cases hm
      rw [hleft, Job.lstat_univ] at hlstat
      exact .of_failure hleft hfailures (by rw [hout]; rfl)
        (.isDir hlstat (Finset.mem_univ _) hdir)
    | _ => simp_all
  | @unlink i hmain htarget hfile hleft hfailures hout =>
    -- The call removes the file, or its error is reported.
    cases hs with
    | @unlink _ _ _ r hm hr =>
      rw [hmain] at hm
      cases hm
      rw [hleft, Job.found_univ] at hr
      cases r with
      | none =>
        have hends : RunUnlink job.tree job.faults operand Finset.univ 0 [] (s.left.erase i) := by
          rw [hleft]
          exact .unlinked htarget (Finset.mem_univ i) hfile hr
        rw [hout]
        exact .wait rfl hends (if_pos hfailures).symm
      | some e =>
        exact .of_failure hleft hfailures (by rw [hout]; rfl)
          (.unlinkFailed htarget (Finset.mem_univ i) hfile hr)
    | _ => simp_all
  | say hmain hends hfailures hout =>
    -- The diagnostic is written, and one failure is counted.
    cases hs with
    | say hm =>
      rw [hmain] at hm
      cases hm
      have hcounted : s.failures ≠ 0 := by rw [hfailures]; exact Nat.one_ne_zero
      rw [hout]
      exact .wait rfl hends (if_neg hcounted).symm
    | _ => simp_all
  | wait hmain hends hstatus =>
    -- No worker has counted a failure.
    cases hs with
    | wait hm =>
      rw [Finset.sum_eq_zero fun w _ => hq.failures w, add_zero, ← hstatus]
      exact .returned rfl (by rw [← List.append_nil out] at hends; exact hends)
    | _ => simp_all
  | returned hmain _ =>
    cases hs with
    | _ => simp_all

theorem stage_of_run {tr : List (Label W ι)} {p : Bag W ℕ × State W ι}
    (h : (bagRemoval (job.plain operand) W).Run tr p) :
    Quiet p.1 p.2 ∧ Stage job.tree job.faults operand p.2 (written tr) := by
  refine h.invariant (I := fun tr p => Quiet p.1 p.2 ∧
    Stage job.tree job.faults operand p.2 (written tr)) ?_ ?_
  · intro p hinit
    rw [bagRemoval_init hinit]
    exact ⟨⟨rfl, fun _ => rfl, fun _ => rfl⟩, .prompt rfl rfl rfl rfl⟩
  · rintro tr p l p' - ⟨hq, hstage⟩ hstep
    have hhanded := handed_of_join hstep
    rw [written_snoc]
    rcases hstep.right with hmain | ⟨w, hworker⟩
    -- The main thread does not submit, so the workers still have nothing to do.
    · exact ⟨hq.main hmain hhanded hstage.not_submit, hstage.step hq hmain⟩
    · exact (hq.no_step hworker hhanded).elim

/-! ## Every end of `RunUnlink` is one of `RunRm` -/

/-- `RunRm` can return with this status, having written `out`, and `left` is left. -/
def Returns (job : Job ι) (W P : ℕ) (status : ℕ) (out : List Output) (left : Finset ι) : Prop :=
  ∃ tr p, (removal job W P).Run tr p ∧ p.2.main = .returned status ∧
    written tr.reduceOption = out ∧ p.2.left = left

section Returns

variable {tr : List (Option (Label W ι))}

omit [DecidableEq ι] [Fintype ι] in
theorem reduceOption_snoc (tr : List (Option (Label W ι))) (l : Label W ι) :
    (tr ++ [some l]).reduceOption = tr.reduceOption ++ [l] := by
  rw [List.reduceOption_append]
  rfl

/-- After the last operand, nothing having been submitted, `Wait` returns. -/
theorem returns_of_wait (h : (removal job W P).Run tr (.initial W P ℕ, s))
    (hmain : s.main = .lstat []) (hworkers : ∀ w, s.workerFailures w = 0) :
    Returns job W P (if s.failures = 0 then 0 else 1) (written tr.reduceOption) s.left := by
  have hwait := h.next (.hidden rfl (.inl (.wait rfl)))
  have hzero := hwait.next (.seen (.together rfl (.inl (.waitZero rfl rfl)) (.inl (.wait hmain))))
  have hnone : (tr ++ [none]).reduceOption = tr.reduceOption := by
    rw [List.reduceOption_append]
    exact List.append_nil _
  refine ⟨_, _, hzero, ?_, ?_, rfl⟩
  · show MainPc.returned _ = _
    rw [Finset.sum_eq_zero fun w _ => hworkers w, add_zero]
  · rw [reduceOption_snoc, hnone, written_snoc]
    exact List.append_nil _

/-- A failure is reported before. -/
theorem returns_of_say {o : Output} (h : (removal job W P).Run tr (.initial W P ℕ, s))
    (hmain : s.main = .say o []) (hfailures : s.failures = 1)
    (hworkers : ∀ w, s.workerFailures w = 0) :
    Returns job W P 1 (written tr.reduceOption ++ [o]) s.left := by
  have hsay := h.next (.seen (.alone rfl (.inl (.say hmain))))
  have hreturns : Returns job W P (if s.failures = 0 then 0 else 1) _ s.left :=
    returns_of_wait (s := s.setMain (.lstat [])) hsay rfl hworkers
  have hcounted : s.failures ≠ 0 := by rw [hfailures]; exact Nat.one_ne_zero
  rw [if_neg hcounted, reduceOption_snoc, written_snoc] at hreturns
  exact hreturns

end Returns

theorem RunUnlink.returns {status : ℕ} {left : Finset ι} (W P : ℕ)
    (h : RunUnlink job.tree job.faults operand Finset.univ status out left) :
    Returns (job.plain operand) W P status out left := by
  have h₀ : (removal (job.plain operand) W P).Run []
      (.initial W P ℕ, .initial (job.plain operand) W) := .start ⟨rfl, rfl⟩
  have hyes := h₀.next (.seen (.alone rfl (.inl (.confirmed rfl rfl))))
  cases h with
  | lstatFailed htarget =>
    rw [← (job.plain operand).lstat_univ] at htarget
    have hlstat := hyes.next (.seen (.alone rfl (.inl (.lstatFailed rfl htarget))))
    exact returns_of_say hlstat rfl rfl fun _ => rfl
  | @lstatAbsent i _ habsent => exact absurd (Finset.mem_univ i) habsent
  | isDir htarget _ hdir =>
    rw [← (job.plain operand).lstat_univ] at htarget
    have hlstat := hyes.next (.seen (.alone rfl (.inl (.isDir rfl htarget hdir))))
    exact returns_of_say hlstat rfl rfl fun _ => rfl
  | unlinkFailed htarget _ hfile hr =>
    rw [← (job.plain operand).lstat_univ] at htarget
    rw [← (job.plain operand).found_univ operand.text] at hr
    have hlstat := hyes.next (.seen (.alone rfl (.inl (.isFile rfl htarget hfile))))
    have hunlink := hlstat.next (.seen (.alone rfl (.inl (.unlink rfl hr))))
    exact returns_of_say hunlink rfl rfl fun _ => rfl
  | unlinked htarget _ hfile hr =>
    rw [← (job.plain operand).lstat_univ] at htarget
    rw [← (job.plain operand).found_univ operand.text] at hr
    have hlstat := hyes.next (.seen (.alone rfl (.inl (.isFile rfl htarget hfile))))
    have hunlink := hlstat.next (.seen (.alone rfl (.inl (.unlink rfl hr))))
    exact returns_of_wait hunlink rfl fun _ => rfl

/-- **Unlink mode.**  `RunUnlink` ends in exactly the ways in which `RunRm` does with the same operand
    and no options: the same exit status, the same diagnostics and the same entries left. -/
theorem runUnlink_iff (job : Job ι) (operand : Operand ι) (W P : ℕ) (status : ℕ)
    (out : List Output) (left : Finset ι) :
    RunUnlink job.tree job.faults operand Finset.univ status out left ↔
      Returns (job.plain operand) W P status out left := by
  constructor
  · exact fun h => h.returns W P
  · rintro ⟨tr, p, h, hmain, rfl, rfl⟩
    obtain ⟨-, hstage⟩ := stage_of_run (removal_refines h)
    cases hstage with
    | returned hm hends =>
      rw [hmain] at hm
      cases hm
      exact hends
    | _ => simp_all

end Remmy.Removal
