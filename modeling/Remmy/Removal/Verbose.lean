import Remmy.Removal.Distinct
import Mathlib.Data.Fintype.Option

/-!
# The Log of -v

The lines that a removal writes under `-v`, when the operands are distinct.

- `Job.PathTo` says what a line is: the text of an operand with the names down to the entry.
- `Reports` is what a step does to the line that its thread owes: it has removed something and
  owes the line, or it writes the line, or there is none.
- `Logged` is the invariant: the lines written, with the entries that they are about, and the
  entries whose lines are owed are together what has been removed.
- `verbose_log` is the result.
-/

namespace Remmy.Removal

open Remmy.Os Remmy.DirNode Remmy.Lib Remmy.TaskScheduler
open Remmy.Lib.RefTree (Hold)

universe u

variable {ι : Type u} [DecidableEq ι] {W P : ℕ}
variable {job : Job ι} {b b' : Bag W ℕ} {s s' : State W ι} {l : Label W ι} {w : Fin W}
variable {i c : ι} {n m : ℕ} {seen : Finset ι} {x y : Node ι} {path : Bytes}

/-! ## Paths -/

/-- The text of an operand with a slash and a name for each step down to the entry. -/
inductive Job.PathTo (job : Job ι) : Bytes → ι → Prop
  | operand {text : Bytes} {a : ι} : ⟨text, .ok a⟩ ∈ job.operands → PathTo job text a
  | entry {path : Bytes} {c d : ι} : PathTo job path d → job.tree.up c = some d →
      PathTo job (below path (job.tree.name c)) c

theorem pathFill_append (names : List Bytes) (written : Bytes) (h : names ≠ []) :
    pathFill names written = pathInto names ++ written := by
  induction names generalizing written with
  | nil => exact absurd rfl h
  | cons name names ih =>
    cases names with
    | nil => simp [pathFill, pathInto]
    | cons parent rest =>
      have hne : parent :: rest ≠ [] := List.cons_ne_nil parent rest
      rw [pathInto, pathFill_cons_cons, pathFill_cons_cons, ih _ hne,
        ih (slash :: (name ++ [])) hne]
      simp

/-- The path of a node is the path of its parent, a slash and its name. -/
theorem pathInto_cons (name : Bytes) {names : List Bytes} (h : names ≠ []) :
    pathInto (name :: names) = below (pathInto names) name := by
  cases names with
  | nil => exact absurd rfl h
  | cons parent rest =>
    rw [pathInto, pathFill_cons_cons, pathFill_append _ _ h, List.append_nil]
    rfl

omit [DecidableEq ι] in
theorem chain_ne_nil {nodes : ℕ → Option (Node ι)} {names : List Bytes}
    (h : chain nodes n = some names) : names ≠ [] := by
  rw [chain] at h
  split at h
  · cases h
  · split at h
    · cases h
      exact List.cons_ne_nil _ _
    · split at h
      · obtain ⟨rest, -, rfl⟩ := Option.map_eq_some_iff.mp h
        exact List.cons_ne_nil _ _
      · cases h

/-- The path that is put together for a node is the path of its directory. -/
theorem pathTo_of_path (hv : Visits job s) (hx : s.nodes n = some x) (hpath : s.path n = some path) :
    job.PathTo path x.entry := by
  obtain ⟨names, hchain, rfl⟩ := Option.map_eq_some_iff.mp hpath
  clear hpath
  induction n using Nat.strong_induction_on generalizing x names with
  | _ n ih =>
    have hnode := hv.nodes n x hx
    rw [chain] at hchain
    simp only [hx] at hchain
    cases hp : x.parent with
    | none =>
      rw [hp] at hchain
      cases hchain
      rw [show pathInto [x.name] = x.name from List.append_nil _]
      exact .operand (hnode.root hp)
    | some p =>
      simp only [hp] at hchain
      split_ifs at hchain with hlt
      obtain ⟨rest, hrest, rfl⟩ := Option.map_eq_some_iff.mp hchain
      obtain ⟨y, hy⟩ : ∃ y, s.nodes p = some y := by
        cases hy : s.nodes p with
        | none =>
          rw [chain] at hrest
          simp only [hy] at hrest
          cases hrest
        | some y => exact ⟨y, rfl⟩
      obtain ⟨hup, hname⟩ := hnode.child p y hp hy
      rw [pathInto_cons _ (chain_ne_nil hrest), hname]
      exact .entry (ih p hlt hy rest hrest) hup

/-! ## The line that a thread owes -/

/-- The line that a worker is about to write. -/
def Pc.line : Pc ι → Option Bytes
  | .say (.line path) _ => some path
  | _ => none

/-- The line that the main thread is about to write. -/
def MainPc.line : MainPc ι → Option Bytes
  | .say (.line path) _ => some path
  | _ => none

/-- The line that a thread is about to write, `none` being the main thread. -/
def State.line (s : State W ι) : Option (Fin W) → Option Bytes
  | none => s.main.line
  | some w => (s.workers w).line

/-- The line that a step writes. -/
def Label.line : Label W ι → Option Bytes
  | .writes (.line path) => some path
  | _ => none

/-- The lines written in a run. -/
def lines (tr : List (Label W ι)) : List Bytes := tr.filterMap Label.line

/-- The entries removed in a run. -/
def removals (tr : List (Label W ι)) : List ι := tr.filterMap Label.removed

/-- The entry that the line of a worker is about: one that its scan has returned, or the directory
    of its node. -/
def Pc.Due (job : Job ι) (s : State W ι) (i : ι) : Pc ι → Prop
  | .say _ (.read n _) => ∀ x, s.nodes n = some x → job.tree.up i = some x.entry
  | .say _ (.delete n) | .say _ (.discard n) => ∀ x, s.nodes n = some x → x.entry = i
  | _ => False

/-- The entry that the line of a thread is about. -/
def Due (job : Job ι) (s : State W ι) (i : ι) : Option (Fin W) → Prop
  | none => job.tree.up i = none
  | some w => (s.workers w).Due job s i

/-- What a step with label `l` does to the line that its thread owes. -/
inductive Reports (job : Job ι) (l : Label W ι) (due : ι → Prop) : Option Bytes → Option Bytes → Prop
  | quiet : l.removed = none → l.line = none → Reports job l due none none
  | owes {i : ι} {path : Bytes} : l.removed = some i → l.line = none → job.PathTo path i → due i →
      Reports job l due none (some path)
  | writes {path : Bytes} : l.removed = none → l.line = some path → Reports job l due (some path) none

omit [DecidableEq ι] in
theorem line_after (after : After ι) : after.pc.line = none := by
  cases after <;> rfl

omit [DecidableEq ι] in
theorem openLabel_line {e : Errno} : (openLabel i e : Label W ι).line = none := by
  rw [openLabel]
  split_ifs <;> rfl

omit [DecidableEq ι] in
theorem removeLabel_line {r : Option Errno} : (removeLabel i r : Label W ι).line = none := by
  cases r with
  | none => rfl
  | some e =>
    rw [removeLabel]
    split_ifs <;> rfl

omit [DecidableEq ι] in
/-- A removal that succeeds is owed a line, any other is not. -/
theorem reports_settlePc (hverbose : job.options.verbose = true) {r : Option Errno}
    {code : Errno → Errno} {after : After ι} {due : ι → Prop} (hl : l.removed = removedBy i r)
    (hline : l.line = none) (hpath : job.PathTo path i) (hdue : r = none → due i) :
    Reports job l due none (settlePc job r path code after).line := by
  cases r with
  | none =>
    rw [settlePc, if_pos hverbose]
    exact .owes hl hline hpath (hdue rfl)
  | some e =>
    have hnone : (settlePc job (some e) path code after).line = none := by
      rw [settlePc]
      split_ifs
      · exact line_after after
      · rfl
    rw [hnone]
    exact .quiet hl hline

/-- **What a step of a worker reports.** -/
theorem WorkerStep.reports (hverbose : job.options.verbose = true) (hv : Visits job s)
    (hs : WorkerStep job w s l s') :
    Reports job l (fun i => (s'.workers w).Due job s' i) (s.workers w).line (s'.workers w).line := by
  have hpcOk := hv.workers w
  cases hs with
  | @forceRemove n x path e r hpc hx hpath | @remove n x path r hpc hx hpath =>
    -- The path of the node is the one to its entry.
    rw [hpc, settle_eq, workers_setWorker]
    refine reports_settlePc hverbose removeLabel_removed removeLabel_line
      (pathTo_of_path hv hx hpath) ?_
    rintro rfl
    rw [settlePc, if_pos hverbose]
    intro y hy
    have hy : s.nodes n = some y := hy
    rw [hx] at hy
    cases hy
    rfl
  | @unlinkat n seen x c path r hpc hx hpath =>
    -- The path of an entry is that of its directory and its name.
    rw [hpc] at hpcOk
    rw [hpc, settle_eq, workers_setWorker]
    refine reports_settlePc hverbose rfl rfl
      (.entry (pathTo_of_path hv hx hpath) (hpcOk.2.2.1.2 x hx)) ?_
    rintro rfl
    rw [settlePc, if_pos hverbose]
    exact hpcOk.2.2.1.2
  | @forceUnlinkat n seen x c path e r hpc hx hpath =>
    rw [hpc] at hpcOk
    rw [hpc, settle_eq, workers_setWorker]
    refine reports_settlePc hverbose rfl rfl
      (.entry (pathTo_of_path hv hx hpath) (hpcOk.2.2.1.2 x hx)) ?_
    rintro rfl
    rw [settlePc, if_pos hverbose]
    exact hpcOk.2.2.1.2
  | @say o after hpc =>
    rw [hpc, workers_setWorker, line_after]
    cases o with
    | line path => exact .writes rfl rfl
    | warning | isADirectory => exact .quiet rfl rfl
  | openFailed hpc | openFailedForce hpc | childFailed hpc | childFailedForce hpc =>
    rw [hpc, workers_setWorker]
    exact .quiet openLabel_removed openLabel_line
  | @discard n x hpc | @delete n x hpc =>
    rw [hpc, workers_setWorker]
    cases x.parent <;> exact .quiet rfl rfl
  | readEntry hpc =>
    rw [hpc, workers_setWorker, Job.entryRead]
    split_ifs
    · cases job.tree.isDir _ <;> exact .quiet rfl rfl
    · exact .quiet rfl rfl
  | @stat n seen x c isDir hpc =>
    rw [hpc, workers_setWorker]
    cases isDir <;> exact .quiet rfl rfl
  | start hpc | openReady hpc | opened hpc | parked hpc | resubmit hpc | readDone hpc
  | readFailed hpc | statAbsent hpc | statFailed hpc | exhausted hpc | childOpened hpc
  | childRefused hpc | makeChild hpc | countChild hpc | submitChild hpc | close hpc
  | releaseShared hpc | releaseLast hpc | finish hpc =>
    rw [hpc, workers_setWorker]
    exact .quiet rfl rfl

/-- The same in the operand loop. -/
theorem reports_settleMain (hverbose : job.options.verbose = true) {r : Option Errno}
    {code : Errno → Errno} {ignored : Errno → Bool} {rest : List (Operand ι)}
    {due : ι → Prop} (hpath : job.PathTo path i) (hdue : due i) :
    Reports job (.removes i r : Label W ι) due none
      (settleMain job s i r path code ignored rest).main.line := by
  cases r with
  | none =>
    rw [settleMain, if_pos hverbose]
    exact .owes rfl rfl hpath hdue
  | some e =>
    rw [settleMain]
    split_ifs <;> exact .quiet rfl rfl

/-- **What a step of the main thread reports.** -/
theorem MainStep.reports (hverbose : job.options.verbose = true) (hdistinct : job.Distinct)
    (hv : Visits job s) (hs : MainStep job s l s') :
    Reports job l (fun i => job.tree.up i = none) s.main.line s'.main.line := by
  have hmainOk := hv.main
  cases hs with
  | unlink hpc | rmdir hpc | forceRmdir hpc =>
    rw [hpc] at hmainOk ⊢
    exact reports_settleMain hverbose (.operand hmainOk.1) (hdistinct.apart _ _ hmainOk.1)
  | @say o rest hpc =>
    rw [hpc]
    cases o with
    | line path => exact .writes rfl rfl
    | warning | isADirectory => exact .quiet rfl rfl
  | openFailed hpc =>
    rw [hpc]
    split_ifs <;> exact .quiet openLabel_removed openLabel_line
  | lstatFailed hpc | isDir hpc =>
    rw [hpc]
    split_ifs <;> exact .quiet rfl rfl
  | confirmed hpc | declined hpc | isFile hpc | opened hpc | seed hpc | submit hpc | wait hpc =>
    rw [hpc]
    exact .quiet rfl rfl

/-! ## What has been removed -/

omit [DecidableEq ι] in
theorem lines_snoc (tr : List (Label W ι)) (l : Label W ι) :
    lines (tr ++ [l]) = lines tr ++ l.line.toList := by
  rw [lines, List.filterMap_append]
  cases h : l.line <;> simp [lines, h]

omit [DecidableEq ι] in
theorem removals_snoc (tr : List (Label W ι)) (l : Label W ι) :
    removals (tr ++ [l]) = removals tr ++ l.removed.toList := by
  rw [removals, List.filterMap_append]
  cases h : l.removed <;> simp [removals, h]

/-- The removals of a run are what is not left, each once. -/
structure Gone (tr : List (Label W ι)) (s : State W ι) : Prop where
  nodup : (removals tr).Nodup
  mem : ∀ i, i ∈ removals tr ↔ i ∉ s.left

theorem Gone.step {tr : List (Label W ι)} (h : Gone tr s) (hs : Leaves job s s' l) :
    Gone (tr ++ [l]) s' := by
  rcases hs with ⟨hl, hleft⟩ | ⟨i, hl, hi, hleft, -⟩
  · refine ⟨?_, fun j => ?_⟩
    · rw [removals_snoc, hl]
      simpa using h.nodup
    · rw [removals_snoc, hl, hleft]
      simpa using h.mem j
  · have hnew : i ∉ removals tr := fun hmem => (h.mem i).mp hmem hi
    refine ⟨?_, fun j => ?_⟩
    · rw [removals_snoc, hl]
      exact List.nodup_append.mpr ⟨h.nodup, List.nodup_singleton i, fun a ha b hb heq => by
        rw [List.mem_singleton.mp hb] at heq
        exact hnew (heq ▸ ha)⟩
    · rw [removals_snoc, hl, hleft, Finset.mem_erase, List.mem_append, h.mem]
      by_cases hj : j = i
      · simp [hj]
      · simp [hj]

theorem gone_of_run [Fintype ι] (hfits : job.Fits) {tr : List (Label W ι)}
    {p : Bag W ℕ × State W ι} (h : (bagRemoval job W).Run tr p) : Gone tr p.2 := by
  refine h.invariant (I := fun tr p => Gone tr p.2) ?_ ?_
  · intro p hinit
    rw [bagRemoval_init hinit]
    refine ⟨List.nodup_nil, fun i => iff_of_false (List.not_mem_nil) ?_⟩
    exact fun hi => hi (Finset.mem_univ i)
  · intro tr p l p' hr hI hstep
    obtain ⟨href, hv⟩ := visits_of_run hfits hr
    rcases hstep.right with hs | ⟨w, hs⟩
    · exact hI.step (hs.left_eq hv)
    · exact hI.step (hs.left_eq href hv (entered_of_run hfits hr))

/-! ## The log -/

/-- What a thread owes: the line about entry `o`, if that is one. -/
def Owes (job : Job ι) (s : State W ι) (t : Option (Fin W)) : Option ι → Prop
  | none => s.line t = none
  | some i => ∃ path, s.line t = some path ∧ job.PathTo path i ∧ Due job s i t

/-- **The log** of a run: the lines written so far, each with the entry that it is about, and the
    entries about which lines are due. -/
structure Logged (job : Job ι) (tr : List (Label W ι)) (s : State W ι) (log : List (Bytes × ι))
    (due : Option (Fin W) → Option ι) : Prop where
  lines : lines tr = log.map Prod.fst
  removed : (removals tr : Multiset ι) =
    (log.map Prod.snd : List ι) + ∑ t, ((due t).toList : Multiset ι)
  path : ∀ x ∈ log, job.PathTo x.1 x.2
  owes : ∀ t, Owes job s t (due t)
  order : log.Pairwise fun x y => ¬job.tree.Within x.2 y.2
  /-- No line about an entry inside a directory is due when the line of the directory is written. -/
  late : ∀ x ∈ log, ∀ t i, due t = some i → ¬job.tree.Within x.2 i

variable {tr : List (Label W ι)} {log : List (Bytes × ι)} {due : Option (Fin W) → Option ι}
  {t : Option (Fin W)}

namespace Logged

/-- The due entries of two threads are two entries. -/
theorem due_ne (h : Logged job tr s log due) (hgone : Gone tr s) {t' : Option (Fin W)} {i j : ι}
    (hi : due t = some i) (hj : due t' = some j) (hne : t ≠ t') : i ≠ j := by
  rintro rfl
  have hcount : (removals tr : Multiset ι).count i ≤ 1 :=
    Multiset.nodup_iff_count_le_one.mp (Multiset.coe_nodup.mpr hgone.nodup) i
  have hone : ∀ k, due k = some i → Multiset.count i ((due k).toList : Multiset ι) = 1 := by
    intro k hk
    rw [hk]
    exact Multiset.count_singleton_self i
  rw [h.removed, Multiset.count_add, Multiset.count_sum'] at hcount
  have htwo : ∑ k ∈ {t, t'}, Multiset.count i ((due k).toList : Multiset ι) ≤
      ∑ k, Multiset.count i ((due k).toList : Multiset ι) :=
    Finset.sum_le_sum_of_subset (Finset.subset_univ _)
  rw [Finset.sum_pair hne, hone t hi, hone t' hj] at htwo
  omega

omit [DecidableEq ι] in
/-- What is in the log has been removed. -/
theorem mem_removals (h : Logged job tr s log due) {z : Bytes × ι} (hz : z ∈ log) :
    z.2 ∈ removals tr := by
  rw [← Multiset.mem_coe, h.removed]
  exact Multiset.mem_add.mpr (.inl (List.mem_map.mpr ⟨z, hz, rfl⟩))

omit [DecidableEq ι] in
/-- What is due has been removed. -/
theorem due_removals (h : Logged job tr s log due) {i : ι} (hi : due t = some i) :
    i ∈ removals tr := by
  rw [← Multiset.mem_coe, h.removed]
  refine Multiset.mem_add.mpr (.inr (Multiset.mem_sum.mpr ⟨t, Finset.mem_univ t, ?_⟩))
  rw [hi]
  exact List.mem_singleton_self i

omit [DecidableEq ι] in
/-- A thread that is not about to write a line owes none. -/
theorem due_eq_none (h : Logged job tr s log due) (hline : s.line t = none) : due t = none := by
  cases hd : due t with
  | none => rfl
  | some i =>
    have howes := h.owes t
    rw [hd] at howes
    obtain ⟨path, hpath, -⟩ := howes
    rw [hline] at hpath
    cases hpath

omit [DecidableEq ι] in
/-- A thread that is about to write a line owes it. -/
theorem due_eq_some (h : Logged job tr s log due) {path : Bytes} (hline : s.line t = some path) :
    ∃ i, due t = some i ∧ job.PathTo path i := by
  have howes := h.owes t
  cases hd : due t with
  | none =>
    rw [hd] at howes
    have hnone : s.line t = none := howes
    rw [hline] at hnone
    cases hnone
  | some i =>
    rw [hd] at howes
    obtain ⟨path', hpath, hto, -⟩ := howes
    rw [hline] at hpath
    cases hpath
    exact ⟨i, rfl, hto⟩

omit [DecidableEq ι] in
/-- One thread owes something else, the others what they owed. -/
theorem owes_update (h : Logged job tr s log due)
    (hkept : ∀ t', t' ≠ t → ∀ o, Owes job s t' o → Owes job s' t' o) {o : Option ι}
    (hnew : Owes job s' t o) (t' : Option (Fin W)) :
    Owes job s' t' (Function.update due t o t') := by
  by_cases ht : t' = t
  · subst ht
    rwa [Function.update_self]
  · rw [Function.update_of_ne ht]
    exact hkept t' ht _ (h.owes t')

/-- **A step** keeps the log. -/
theorem step (h : Logged job tr s log due) (hgone : Gone tr s) (hgrown : job.tree.Grown s.left)
    (hplace : ∀ t i, due t = some i → ∀ d, job.tree.up i = some d → d ∈ s.left)
    (hleaves : Leaves job s s' l)
    (hreports : Reports job l (fun i => Due job s' i t) (s.line t) (s'.line t))
    (hothers : ∀ t', t' ≠ t → s'.line t' = s.line t' ∧ ∀ i, Due job s i t' → Due job s' i t') :
    ∃ log' due', Logged job (tr ++ [l]) s' log' due' := by
  -- The other threads owe what they owed.
  have hkept : ∀ t', t' ≠ t → ∀ o, Owes job s t' o → Owes job s' t' o := by
    intro t' ht o ho
    obtain ⟨hline, hdue⟩ := hothers t' ht
    cases o with
    | none => exact hline.trans ho
    | some i =>
      obtain ⟨path, hpath, hto, hd⟩ := ho
      exact ⟨path, hline.trans hpath, hto, hdue i hd⟩
  have hsum := sum_update_add due (fun _ o => ((o.toList : List ι) : Multiset ι)) t
  generalize hold : s.line t = old at hreports
  generalize hnew : s'.line t = new at hreports
  cases hreports with
  | quiet hremoved hline =>
    -- Nothing is removed and nothing written: the log and what is due stay.
    have hnone := h.due_eq_none hold
    have howes := h.owes_update hkept (o := none) hnew
    rw [← hnone, Function.update_eq_self] at howes
    refine ⟨log, due, ⟨?_, ?_, h.path, howes, h.order, h.late⟩⟩
    · rw [lines_snoc, hline, h.lines]
      exact List.append_nil _
    · rw [removals_snoc, hremoved, ← h.removed]
      exact congrArg _ (List.append_nil _)
  | @owes i path hremoved hline hpath hdue =>
    -- An entry is removed, and its line is due from now on; nothing was due before.
    have hnone := h.due_eq_none hold
    have howes : Owes job s' t (some i) := ⟨path, hnew, hpath, hdue⟩
    have hi : i ∈ s.left := by
      rcases hleaves with ⟨hnot, -⟩ | ⟨j, hj, hmem, -⟩
      · rw [hremoved] at hnot
        cases hnot
      · rw [hremoved] at hj
        cases hj
        exact hmem
    refine ⟨log, Function.update due t (some i),
      ⟨?_, ?_, h.path, h.owes_update hkept howes, h.order, ?_⟩⟩
    · rw [lines_snoc, hline, h.lines]
      exact List.append_nil _
    · have hsum := hsum (some i)
      simp only [hnone, Option.toList_none, Multiset.coe_nil, add_zero] at hsum
      rw [hsum, removals_snoc, hremoved, ← Multiset.coe_add, h.removed, add_assoc]
    · intro z hz t' j hj hwithin
      by_cases ht : t' = t
      · subst ht
        rw [Function.update_self] at hj
        cases hj
        -- The directory in the log is gone, and so is everything inside it.
        exact (hgone.mem z.2).mp (h.mem_removals hz) (hgrown.within hwithin hi)
      · rw [Function.update_of_ne ht] at hj
        exact h.late z hz t' j hj hwithin
  | @writes path hremoved hline =>
    -- The line that was due is written, and is the last of the log.
    obtain ⟨i, hd, hto⟩ := h.due_eq_some hold
    refine ⟨log ++ [(path, i)], Function.update due t none,
      ⟨?_, ?_, ?_, h.owes_update hkept hnew, ?_, ?_⟩⟩
    · rw [lines_snoc, hline, h.lines]
      simp
    · have hsum := hsum none
      simp only [hd, Option.toList_none, Multiset.coe_nil, add_zero, Option.toList_some] at hsum
      rw [removals_snoc, hremoved, Option.toList_none, List.append_nil, h.removed, ← hsum,
        List.map_append, ← Multiset.coe_add]
      simp only [List.map_cons, List.map_nil]
      abel
    · intro z hz
      rcases List.mem_append.mp hz with hz | hz
      · exact h.path z hz
      · rw [List.mem_singleton.mp hz]
        exact hto
    · refine List.pairwise_append.mpr ⟨h.order, List.pairwise_singleton _ _, fun z hz z' hz' => ?_⟩
      rw [List.mem_singleton.mp hz']
      exact h.late z hz t i hd
    · intro z hz t' j hj hwithin
      have ht : t' ≠ t := by
        rintro rfl
        rw [Function.update_self] at hj
        cases hj
      rw [Function.update_of_ne ht] at hj
      rcases List.mem_append.mp hz with hz | hz
      · exact h.late z hz t' j hj hwithin
      · rw [List.mem_singleton.mp hz] at hwithin
        -- What is inside the directory is due while the directory is there.
        cases hwithin with
        | self => exact h.due_ne hgone hd hj ht.symm rfl
        | step hup hwithin =>
          have hgone := (hgone.mem i).mp (h.due_removals hd)
          exact hgone (hgrown.within hwithin (hplace t' j hj _ hup))

end Logged

/-! ## Where the due entries are -/

omit [DecidableEq ι] in
/-- The others do not change what a line is about. -/
theorem due_later {k : Fin W} {active : Multiset ℕ} (href : References b s)
    (hlater : Later s s' active) (hsame : s'.workers k = s.workers k)
    (h : (s.workers k).Due job s i) : (s'.workers k).Due job s' i := by
  have hnode : ∀ n ∈ (s.workers k).uses, ∀ x', s'.nodes n = some x' →
      ∃ x, s.nodes n = some x ∧ x'.entry = x.entry := by
    intro n hn x' hx'
    obtain ⟨x, hx⟩ := live_of_uses href hn
    rcases hlater n x' hx' with rfl | ⟨z, hz, hentry, -⟩
    · exact absurd (href.lt_next (cells_of_node hx)) (lt_irrefl _)
    · exact ⟨z, hz, hentry⟩
  rw [hsame]
  cases hpc : s.workers k with
  | say o after =>
    rw [hpc] at h hnode
    cases after with
    | read n seen =>
      intro x' hx'
      obtain ⟨x, hx, hentry⟩ := hnode n (List.mem_singleton_self n) x' hx'
      rw [hentry]
      exact h x hx
    | delete n | discard n =>
      intro x' hx'
      obtain ⟨x, hx, hentry⟩ := hnode n (List.mem_singleton_self n) x' hx'
      rw [hentry]
      exact h x hx
    | close n => exact h
  | _ =>
    rw [hpc] at h
    exact h

omit [DecidableEq ι] in
/-- A node that its worker leaves has no children. -/
theorem no_child_of_leaves (href : References b s) (hw : (s.workers w).leaves = some n)
    (hy : s.nodes m = some y) : y.parent ≠ some n := by
  have hheld : n ∈ (s.workers w).hold.untouched ∨ n ∈ (s.workers w).hold.dying := by
    cases hpc : s.workers w with
    | discard =>
      rw [hpc] at hw
      cases hw
      exact .inl (by simp [Pc.hold])
    | delete =>
      rw [hpc] at hw
      cases hw
      exact .inr (by simp [Pc.hold])
    | say o after =>
      rw [hpc] at hw
      cases after with
      | discard =>
        cases hw
        exact .inl (by simp [Pc.hold, After.hold])
      | delete =>
        cases hw
        exact .inr (by simp [Pc.hold, After.hold])
      | read | close => cases hw
    | _ =>
      rw [hpc] at hw
      cases hw
  have hcell := cells_of_node hy
  rcases hheld with hfresh | hdying
  · exact href.no_child_of_untouched (mem_untouched hfresh) hcell
  · refine href.no_child_of_dying ?_ hcell
    rw [held_eq b s w, Hold.add_dying]
    exact Multiset.mem_add.mpr (.inr hdying)

/-- The directory of an entry is there while a line about the entry is due. -/
theorem place_of_due (href : References b s) (hv : Visits job s) (honce : Once job b s)
    (hdistinct : job.Distinct) (h : Due job s i t) {d : ι} (hup : job.tree.up i = some d) :
    d ∈ s.left := by
  cases t with
  | none =>
    have hroot : job.tree.up i = none := h
    rw [hroot] at hup
    cases hup
  | some w =>
    -- The directory of a node that is left by its worker: its parent node is not.
    have hnode : ∀ n ∈ (s.workers w).uses, (∀ x, s.nodes n = some x → x.entry = i) →
        d ∈ s.left := by
      intro n hn hentry
      obtain ⟨x, hx⟩ := live_of_uses href hn
      obtain rfl := hentry x hx
      cases hp : x.parent with
      | none =>
        rw [hdistinct.apart _ _ ((hv.nodes n x hx).root hp)] at hup
        cases hup
      | some p =>
        obtain ⟨cell, hcell⟩ := href.live_of_child (cells_of_node hx) hp
        obtain ⟨y, hy, -⟩ := node_of_cells hcell
        have hparent := ((hv.nodes n x hx).child p y hp hy).1
        rw [hup] at hparent
        cases hparent
        rcases honce.left p y hy with hmem | ⟨k, hk⟩
        · exact hmem
        · exact absurd hp (no_child_of_leaves href hk hx)
    have hdue : (s.workers w).Due job s i := h
    cases hpc : s.workers w with
    | say o after =>
      rw [hpc] at hdue hnode
      cases after with
      | read n seen =>
        obtain ⟨x, hx⟩ := live_of_uses href (w := w) (n := n)
          (by rw [hpc]; simp [Pc.uses, After.uses])
        rw [hdue x hx] at hup
        cases hup
        refine honce.owned href (w := w) (n := n) ?_ ?_ hx
        · rw [hpc]
          exact .inl (by simp [Pc.hold, After.hold])
        · rw [hpc]
          intro hleaves
          cases hleaves
      | delete n | discard n => exact hnode n (List.mem_singleton_self n) hdue
      | close n => exact hdue.elim
    | _ =>
      rw [hpc] at hdue
      exact hdue.elim

/-! ## Every run -/

theorem logged_of_run [Fintype ι] (hfits : job.Fits) (hdistinct : job.Distinct)
    (hverbose : job.options.verbose = true) {tr : List (Label W ι)} {p : Bag W ℕ × State W ι}
    (h : (bagRemoval job W).Run tr p) : ∃ log due, Logged job tr p.2 log due := by
  refine h.invariant (I := fun tr p => ∃ log due, Logged job tr p.2 log due) ?_ ?_
  · intro p hinit
    rw [bagRemoval_init hinit]
    refine ⟨[], fun _ => none, ⟨rfl, ?_, fun x hx => (by cases hx), fun t => ?_, .nil,
      fun x hx => (by cases hx)⟩⟩
    · have hzero : ∑ _ : Option (Fin W), (0 : Multiset ι) = 0 := Finset.sum_const_zero
      exact (zero_add (0 : Multiset ι)).symm.trans (congrArg (0 + ·) hzero.symm)
    · cases t <;> rfl
  · rintro tr p l p' hr ⟨log, due, hlogged⟩ hstep
    obtain ⟨href, hv⟩ := visits_of_run hfits hr
    have honce := once_of_run hfits hdistinct hr
    have hgone := gone_of_run hfits hr
    have hgrown := grown_of_run hfits hr
    -- The directory of an entry whose line is due is still there.
    have hplace : ∀ t i, due t = some i → ∀ d, job.tree.up i = some d → d ∈ p.2.left := by
      intro t i hi d hup
      have howes := hlogged.owes t
      rw [hi] at howes
      obtain ⟨-, -, -, hdue⟩ := howes
      exact place_of_due href hv honce hdistinct hdue hup
    rcases hstep.right with hs | ⟨w, hs⟩
    -- The main thread moves: it touches no node.
    · refine hlogged.step (t := none) hgone hgrown hplace (hs.left_eq hv)
        (hs.reports hverbose hdistinct hv) fun t' ht' => ?_
      cases t' with
      | none => exact absurd rfl ht'
      | some k =>
        have hsame : p'.2.workers k = p.2.workers k := by rw [hs.workers_eq]
        refine ⟨?_, fun i hdue => due_later href hs.later hsame hdue⟩
        show (p'.2.workers k).line = (p.2.workers k).line
        rw [hsame]
    -- A worker moves: the others find their nodes as they were.
    · refine hlogged.step (t := some w) hgone hgrown hplace
        (hs.left_eq href hv (entered_of_run hfits hr)) (hs.reports hverbose hv) fun t' ht' => ?_
      cases t' with
      | none =>
        refine ⟨?_, fun i hdue => hdue⟩
        show p'.2.main.line = p.2.main.line
        rw [hs.main_eq]
      | some k =>
        have hk : k ≠ w := fun heq => ht' (congrArg some heq)
        have hsame : p'.2.workers k = p.2.workers k := by
          rw [hs.workers_eq, Function.update_of_ne hk]
        have hlater := hs.later href fun n x hx => (hv.nodes n x hx).small
        refine ⟨?_, fun i hdue => due_later href hlater hsame hdue⟩
        show (p'.2.workers k).line = (p.2.workers k).line
        rw [hsame]

/-- **The log of -v.**  With distinct operands, when `RunRm` returns, whatever the calls that fail
    and the opens that are refused: the lines written are one for each entry that was removed and
    no other, each the text of its operand with the names down to the entry, and the line of a
    directory comes after the lines of everything removed inside it. -/
theorem verbose_log [Fintype ι] (hfits : job.Fits) (hdistinct : job.Distinct)
    (hverbose : job.options.verbose = true) {tr : List (Option (Label W ι))}
    {p : TaskScheduler.State W P ℕ × State W ι} (h : (removal job W P).Run tr p) {status : ℕ}
    (hmain : p.2.main = .returned status) :
    ∃ log : List (Bytes × ι), lines tr.reduceOption = log.map Prod.fst ∧
      (log.map Prod.snd).Nodup ∧ (∀ i, i ∈ log.map Prod.snd ↔ i ∉ p.2.left) ∧
      (∀ x ∈ log, job.PathTo x.1 x.2) ∧ log.Pairwise fun x y => ¬job.tree.Within x.2 y.2 := by
  have hrun := removal_refines h
  obtain ⟨log, due, hlogged⟩ := logged_of_run hfits hdistinct hverbose hrun
  have hgone : Gone tr.reduceOption p.2 := gone_of_run hfits hrun
  obtain ⟨-, hidle⟩ := idle_of_returned hrun hmain
  -- No thread owes a line any more.
  have hnone : ∀ t, due t = none := by
    intro t
    have howes := hlogged.owes t
    have hline : p.2.line t = none := by
      cases t with
      | none =>
        show p.2.main.line = none
        rw [hmain]
        rfl
      | some w =>
        have hw : p.2.workers w = .idle := hidle w
        show (p.2.workers w).line = none
        rw [hw]
        rfl
    cases hd : due t with
    | none => rfl
    | some i =>
      rw [hd] at howes
      obtain ⟨path, hpath, -⟩ := howes
      have hpath : p.2.line t = some path := hpath
      rw [hline] at hpath
      cases hpath
  have hremoved := hlogged.removed
  rw [Finset.sum_eq_zero fun t _ => by rw [hnone t]; rfl, add_zero] at hremoved
  have hperm : (removals tr.reduceOption).Perm (log.map Prod.snd) := Multiset.coe_eq_coe.mp hremoved
  refine ⟨log, hlogged.lines, hperm.nodup_iff.mp hgone.nodup, fun i => ?_, hlogged.path,
    hlogged.order⟩
  rw [← hperm.mem_iff]
  exact hgone.mem i

/-- The lines of the folder: the file, the subdirectory it is in, and the operand. -/
theorem verbose_log_folder : ∃ (tr : List (Option (Label 1 (Fin 3))))
    (p : TaskScheduler.State 1 1 ℕ × State 1 (Fin 3)) (log : List (Bytes × Fin 3)),
    (removal removeFolder 1 1).Run tr p ∧ p.2.main = .returned 0 ∧
      log.map Prod.fst = [[100, 47, 101, 47, 102], [100, 47, 101], [100]] ∧
      (log.map Prod.snd).Nodup ∧ (∀ i, i ∈ log.map Prod.snd) ∧
        log.Pairwise fun x y => ¬removeFolder.tree.Within x.2 y.2 := by
  obtain ⟨-, -, -, -, tr, p, -, -, h, htr, hmain, hleft⟩ := removeFolder_run
  obtain ⟨log, hlines, hnodup, hmem, -, horder⟩ :=
    verbose_log removeFolder_fits removeFolder_distinct rfl h hmain
  refine ⟨tr, p, log, h, hmain, ?_, hnodup, fun i => (hmem i).mpr ?_, horder⟩
  · rw [← hlines, htr]
    rfl
  · rw [hleft]
    exact Finset.notMem_empty i

end Remmy.Removal
