import Remmy.Removal.References
import Mathlib.Data.Finset.Card

/-!
# What the Threads Visit

The local facts that each thread may rely on: which entry it works on and how it came there, and
that the counters of the nodes do not overflow.

- `Visited` are the entries on which a removal may be tried.
- `Job.Broken`: the path of an operand leads through an entry that is gone; until then every path
  leads to what it led to at first (`Visits.view_of_sound`).
- `PcOk` and `MainOk` say what holds where a thread stands, `NodeOk` what holds of a node.
- `PcOk.later`: the other threads do not disturb it.
- `Visits` collects this, and `visits_of_run` is the invariant.
-/

namespace Remmy.Removal

open Remmy.Os Remmy.Lib Remmy.TaskScheduler

universe u

variable {ι : Type u} [DecidableEq ι] {W P : ℕ}

/-! ## Local facts -/

/-- The type of an entry that was read can be found out. -/
def Job.Typed (job : Job ι) (c : ι) : Prop :=
  job.tree.typeKnown c = true ∨ job.faults.fstatat c = none

/-- The entries on which a removal may be tried: the operands, and whatever is returned by the
    read of a directory that is visited and can be opened. -/
inductive Job.Visited (job : Job ι) : ι → Prop
  | operand {text : Bytes} {i : ι} : ⟨text, .ok i⟩ ∈ job.operands → Visited job i
  | entry {c d : ι} : job.tree.up c = some d → Visited job d → job.options.recursive = true →
      job.faults.openDir d = none → ¬Lost job.tree job.faults c → job.Typed c → Visited job c

/-- How often a node may be counted whose directory has returned the entries `seen`. -/
def Job.dirs (job : Job ι) (seen : Finset ι) : ℕ := (seen.filter (job.tree.isDir · = true)).card

/-- No directory has so many subdirectories that a counter of 32 bits overflows. -/
def Job.Fits [Fintype ι] (job : Job ι) : Prop :=
  ∀ d, (Finset.univ.filter fun c => job.tree.up c = some d ∧ job.tree.isDir c = true).card <
    2 ^ 32 - 1

/-- With fewer entries than that every directory has fewer. -/
theorem Job.fits_of_card [Fintype ι] {job : Job ι} (h : Fintype.card ι < 2 ^ 32 - 1) : job.Fits :=
  fun _ => (Finset.card_le_univ _).trans_lt h

/-- A node stands for a directory that is visited. -/
structure NodeOk (job : Job ι) (s : State W ι) (x : Node ι) : Prop where
  visited : job.Visited x.entry
  isDir : job.tree.isDir x.entry = true
  recursive : job.options.recursive = true
  opened : x.isOpen = true → job.faults.openDir x.entry = none
  root : x.parent = none → ⟨x.name, .ok x.entry⟩ ∈ job.operands
  child : ∀ p y, x.parent = some p → s.nodes p = some y →
    job.tree.up x.entry = some y.entry ∧ x.name = job.tree.name x.entry
  small : x.remaining < 2 ^ 32

/-- The scan of a node has returned `seen`, and counted at most the directories of it. -/
def ScanOk (job : Job ι) (s : State W ι) (n : ℕ) (seen : Finset ι) : Prop :=
  ∀ x, s.nodes n = some x → job.faults.openDir x.entry = none ∧
    (∀ c ∈ seen, job.tree.up c = some x.entry) ∧ x.remaining ≤ 1 + job.dirs seen

/-- An entry that the scan of a node has returned. -/
def EntryOk (job : Job ι) (s : State W ι) (n : ℕ) (c : ι) : Prop :=
  ¬Lost job.tree job.faults c ∧ ∀ x, s.nodes n = some x → job.tree.up c = some x.entry

/-- The text of an operand. -/
def Job.HasText (job : Job ι) (text : Bytes) : Prop := ∃ o ∈ job.operands, o.text = text

/-- The path of an operand leads through an entry that is gone. -/
def Job.Broken (job : Job ι) (left : Finset ι) : Prop :=
  ∃ o ∈ job.operands, ¬job.through o.text ⊆ left

/-- Why an open has failed with `e`. -/
def OpenFailed (job : Job ι) (left : Finset ι) (i : ι) (e : Errno) : Prop :=
  i ∉ left ∨ job.faults.openDir i = some e ∨ e.outOfDescriptors = true ∨ job.Broken left

/-- What holds after an output. -/
def AfterOk (job : Job ι) (s : State W ι) : After ι → Prop
  | .read n seen => ScanOk job s n seen
  | .close _ | .delete _ | .discard _ => True

/-- What holds where a worker stands. -/
def PcOk (job : Job ι) (s : State W ι) : Pc ι → Prop
  | .idle | .done | .openNode _ | .resubmit _ | .discard _ | .close _ | .release _ | .remove _
  | .delete _ => True
  | .forceRemove n e => job.options.force = true ∧
      ∀ x, s.nodes n = some x → OpenFailed job s.left x.entry e
  | .read n seen | .submitChild n seen _ => ScanOk job s n seen
  | .fstatat n seen c => c ∈ seen ∧ ScanOk job s n (seen.erase c) ∧ EntryOk job s n c ∧
      job.tree.typeKnown c = false
  | .unlinkat n seen c => c ∈ seen ∧ ScanOk job s n (seen.erase c) ∧ EntryOk job s n c ∧
      job.Typed c ∧ job.tree.isDir c = false
  | .child n seen c => c ∈ seen ∧ ScanOk job s n (seen.erase c) ∧ EntryOk job s n c ∧
      job.Typed c ∧ job.tree.isDir c = true
  | .makeChild n seen c opened => c ∈ seen ∧ ScanOk job s n (seen.erase c) ∧
      EntryOk job s n c ∧ job.Typed c ∧ job.tree.isDir c = true ∧
      (opened = true → job.faults.openDir c = none)
  | .forceUnlinkat n seen c e => c ∈ seen ∧ ScanOk job s n (seen.erase c) ∧
      EntryOk job s n c ∧ job.Typed c ∧ job.tree.isDir c = true ∧ job.options.force = true ∧
      OpenFailed job s.left c e
  | .countChild n seen m => ∀ y, s.nodes m = some y → y.parent = some n ∧ y.entry ∈ seen ∧
      ScanOk job s n (seen.erase y.entry) ∧ EntryOk job s n y.entry ∧
      job.tree.isDir y.entry = true
  | .say _ after => AfterOk job s after

/-- What holds where the main thread stands. -/
def MainOk (job : Job ι) (left : Finset ι) : MainPc ι → Prop
  | .prompt operands | .lstat operands => ∀ o ∈ operands, o ∈ job.operands
  | .unlink text i rest => ⟨text, .ok i⟩ ∈ job.operands ∧ job.tree.isDir i = false ∧
      ∀ o ∈ rest, o ∈ job.operands
  | .rmdir text i rest => ⟨text, .ok i⟩ ∈ job.operands ∧ job.tree.isDir i = true ∧
      job.options.recursive = false ∧ job.options.dir = true ∧ ∀ o ∈ rest, o ∈ job.operands
  | .openDir text i rest => ⟨text, .ok i⟩ ∈ job.operands ∧ job.tree.isDir i = true ∧
      job.options.recursive = true ∧ ∀ o ∈ rest, o ∈ job.operands
  | .forceRmdir text i e rest => ⟨text, .ok i⟩ ∈ job.operands ∧ job.tree.isDir i = true ∧
      job.options.recursive = true ∧ job.options.force = true ∧ OpenFailed job left i e ∧
      ∀ o ∈ rest, o ∈ job.operands
  | .seed text i rest => ⟨text, .ok i⟩ ∈ job.operands ∧ job.tree.isDir i = true ∧
      job.options.recursive = true ∧ job.faults.openDir i = none ∧ ∀ o ∈ rest, o ∈ job.operands
  | .submit _ rest | .say _ rest => ∀ o ∈ rest, o ∈ job.operands
  | .declined _ | .returned _ => True

/-- The local facts of all threads and nodes. -/
structure Visits (job : Job ι) (s : State W ι) : Prop where
  nodes : ∀ n x, s.nodes n = some x → NodeOk job s x
  workers : ∀ w, PcOk job s (s.workers w)
  main : MainOk job s.left s.main

/-! ## What a path leads to -/

/-- A path leads to what it always led to, or to nothing. -/
theorem Job.found_cases (job : Job ι) (left : Finset ι) (text : Bytes) :
    job.found left text = left ∨ job.found left text = ∅ ∧ (job.HasText text → job.Broken left) := by
  rw [Job.found]
  split_ifs with hthrough
  · exact .inl rfl
  · refine .inr ⟨rfl, ?_⟩
    rintro ⟨o, ho, rfl⟩
    exact ⟨o, ho, hthrough⟩

theorem Job.found_of_sound {job : Job ι} {left : Finset ι} {text : Bytes} (h : ¬job.Broken left)
    (htext : job.HasText text) : job.found left text = left :=
  (job.found_cases left text).resolve_right fun hbroken => h (hbroken.2 htext)

omit [DecidableEq ι] in
/-- A path that is broken stays so. -/
theorem Job.Broken.mono {job : Job ι} {left left' : Finset ι} (h : job.Broken left)
    (hleft : left' ⊆ left) : job.Broken left' := by
  obtain ⟨o, ho, hgone⟩ := h
  exact ⟨o, ho, fun hthrough => hgone (hthrough.trans hleft)⟩

/-- A path finds what is left. -/
theorem Job.found_subset (job : Job ι) (left : Finset ι) (text : Bytes) :
    job.found left text ⊆ left := by
  rcases job.found_cases left text with hfound | ⟨hfound, -⟩
  · rw [hfound]
  · rw [hfound]
    exact Finset.empty_subset left

/-- An operand that `lstat` finds is still there. -/
theorem Job.lstat_ok {job : Job ι} {left : Finset ι} {o : Operand ι} {i : ι}
    (h : job.lstat left o = .ok i) : o.target = .ok i ∧ i ∈ left := by
  rw [Job.lstat] at h
  split_ifs at h
  split at h
  · rename_i j htarget
    split_ifs at h with hj
    cases h
    exact ⟨htarget, hj⟩
  · cases h

/-- An operand that `lstat` does not find was never found, is gone, or has a path that is
    broken. -/
theorem Job.lstat_error {job : Job ι} {left : Finset ι} {o : Operand ι} {e : Errno}
    (h : job.lstat left o = .error e) (ho : o ∈ job.operands) : o.target = .error e ∨
      e = .enoent ∧ ((∃ i, o.target = .ok i ∧ i ∉ left) ∨ job.Broken left) := by
  rw [Job.lstat] at h
  split_ifs at h with hthrough
  · split at h
    · rename_i j htarget
      split_ifs at h with hj
      cases h
      exact .inr ⟨rfl, .inl ⟨j, htarget, hj⟩⟩
    · rename_i e' htarget
      cases h
      exact .inl htarget
  · cases h
    exact .inr ⟨rfl, .inr ⟨o, ho, hthrough⟩⟩

/-- What is unlinked by a path is there. -/
theorem Unlinks.of_found {job : Job ι} {left : Finset ι} {text : Bytes} {i : ι}
    (h : Unlinks job.faults (job.found left text) i none) : Unlinks job.faults left i none := by
  cases h with
  | removed hi hnone => exact .removed (job.found_subset left text hi) hnone

/-- What is removed by a path is there, and empty. -/
theorem Rmdirs.of_found {job : Job ι} {left : Finset ι} {text : Bytes} {i : ι}
    (h : Rmdirs job.tree job.faults (job.found left text) i none) :
    Rmdirs job.tree job.faults left i none := by
  rcases job.found_cases left text with hfound | ⟨hfound, -⟩
  · rwa [hfound] at h
  · rw [hfound] at h
    cases h with
    | removed hi => exact absurd hi (Finset.notMem_empty i)

theorem RemovesEmpty.of_found {job : Job ι} {left : Finset ι} {text path : Bytes} {i : ι}
    (h : RemovesEmpty job (job.found left text) i path none) :
    RemovesEmpty job left i path none := by
  cases h with
  | rmdir h => exact .rmdir h.of_found

/-- The names of a node end with the text of an operand. -/
theorem Visits.getLast_chain {W : ℕ} {job : Job ι} {s : State W ι} (hv : Visits job s) (n : ℕ)
    {names : List Bytes} (h : chain s.nodes n = some names) :
    ∃ text, names.getLast? = some text ∧ job.HasText text := by
  induction n using Nat.strong_induction_on generalizing names with
  | _ n ih =>
    rw [chain] at h
    cases hx : s.nodes n with
    | none =>
      rw [hx] at h
      cases h
    | some x =>
      simp only [hx] at h
      cases hp : x.parent with
      | none =>
        simp only [hp] at h
        cases h
        exact ⟨x.name, rfl, _, (hv.nodes n x hx).root hp, rfl⟩
      | some p =>
        simp only [hp] at h
        split_ifs at h with hlt
        obtain ⟨above, habove, rfl⟩ := Option.map_eq_some_iff.mp h
        obtain ⟨text, hlast, htext⟩ := ih p hlt habove
        refine ⟨text, ?_, htext⟩
        rw [List.getLast?_cons, hlast]
        rfl

/-- The path of a node starts with the text of an operand. -/
theorem Visits.hasText {W : ℕ} {job : Job ι} {s : State W ι} (hv : Visits job s) {n : ℕ}
    {path : Bytes} (h : s.path n = some path) : job.HasText (s.operandText n) := by
  obtain ⟨names, hnames, -⟩ := Option.map_eq_some_iff.mp h
  obtain ⟨text, hlast, htext⟩ := hv.getLast_chain n hnames
  rw [State.operandText, hnames, Option.bind_some, hlast]
  exact htext

/-- As long as no path is broken, that of a node leads to what is left. -/
theorem Visits.view_of_sound {W : ℕ} {job : Job ι} {s : State W ι} (hv : Visits job s) {n : ℕ}
    {path : Bytes} (h : s.path n = some path) (hsound : ¬job.Broken s.left) :
    s.view job n = s.left :=
  Job.found_of_sound hsound (hv.hasText h)

/-! ## What others do -/

variable {job : Job ι} {b b' : Bag W ℕ} {s s' : State W ι} {l : Label W ι} {w : Fin W}

/-- The nodes after a step: those of before, some with a smaller count, and the one that is new;
    only nodes that are `active` may be counted up. -/
def Later (s s' : State W ι) (active : Multiset ℕ) : Prop :=
  ∀ n x', s'.nodes n = some x' → n = s.next ∨ ∃ x, s.nodes n = some x ∧ x'.entry = x.entry ∧
    x'.parent = x.parent ∧ x'.name = x.name ∧ (x'.remaining ≤ x.remaining ∨ n ∈ active)

omit [DecidableEq ι] in
theorem Later.refl (s : State W ι) (active : Multiset ℕ) (h : s'.nodes = s.nodes) :
    Later s s' active := by
  intro n x hx
  rw [h] at hx
  exact .inr ⟨x, hx, rfl, rfl, rfl, .inl le_rfl⟩

omit [DecidableEq ι] in
/-- A node is stored. -/
theorem Later.store {active : Multiset ℕ} {n : ℕ} {x y : Node ι} (hx : s.nodes n = some x)
    (h : s'.nodes = Function.update s.nodes n (some y)) (hentry : y.entry = x.entry)
    (hparent : y.parent = x.parent) (hname : y.name = x.name)
    (hcount : y.remaining ≤ x.remaining ∨ n ∈ active) : Later s s' active := by
  intro k z hz
  rw [h] at hz
  by_cases hk : k = n
  · subst hk
    rw [Function.update_self] at hz
    cases hz
    exact .inr ⟨x, hx, hentry, hparent, hname, hcount⟩
  · rw [Function.update_of_ne hk] at hz
    exact .inr ⟨z, hz, rfl, rfl, rfl, .inl le_rfl⟩

omit [DecidableEq ι] in
/-- A node is freed. -/
theorem Later.free {active : Multiset ℕ} {n : ℕ} (h : s'.nodes = Function.update s.nodes n none) :
    Later s s' active := by
  intro k z hz
  rw [h] at hz
  by_cases hk : k = n
  · subst hk
    rw [Function.update_self] at hz
    cases hz
  · rw [Function.update_of_ne hk] at hz
    exact .inr ⟨z, hz, rfl, rfl, rfl, .inl le_rfl⟩

omit [DecidableEq ι] in
/-- A node is made. -/
theorem Later.new {active : Multiset ℕ} {x : Node ι}
    (h : s'.nodes = Function.update s.nodes s.next (some x)) : Later s s' active := by
  intro k z hz
  rw [h] at hz
  by_cases hk : k = s.next
  · exact .inl hk
  · rw [Function.update_of_ne hk] at hz
    exact .inr ⟨z, hz, rfl, rfl, rfl, .inl le_rfl⟩

omit [DecidableEq ι] in
/-- A scan that another thread's step does not disturb. -/
theorem ScanOk.later {n : ℕ} {seen : Finset ι} (h : ScanOk job s n seen)
    (hnode : ∀ x', s'.nodes n = some x' → ∃ x, s.nodes n = some x ∧ x'.entry = x.entry ∧
      x'.remaining ≤ x.remaining) : ScanOk job s' n seen := by
  intro x' hx'
  obtain ⟨x, hx, hentry, hcount⟩ := hnode x' hx'
  obtain ⟨hopen, hup, hle⟩ := h x hx
  rw [hentry]
  exact ⟨hopen, hup, hcount.trans hle⟩

omit [DecidableEq ι] in
theorem EntryOk.later {n : ℕ} {c : ι} (h : EntryOk job s n c)
    (hnode : ∀ x', s'.nodes n = some x' → ∃ x, s.nodes n = some x ∧ x'.entry = x.entry ∧
      x'.remaining ≤ x.remaining) : EntryOk job s' n c := by
  refine ⟨h.1, fun x' hx' => ?_⟩
  obtain ⟨x, hx, hentry, -⟩ := hnode x' hx'
  rw [hentry]
  exact h.2 x hx

omit [DecidableEq ι] in
theorem OpenFailed.later {left left' : Finset ι} {i : ι} {e : Errno}
    (h : OpenFailed job left i e) (hleft : left' ⊆ left) : OpenFailed job left' i e := by
  rcases h with hi | he | hout | hbroken
  · exact .inl fun hi' => hi (hleft hi')
  · exact .inr (.inl he)
  · exact .inr (.inr (.inl hout))
  · exact .inr (.inr (.inr (hbroken.mono hleft)))

/-- **A thread is not disturbed** by what the others do, as long as they leave the nodes alone
    whose own reference it holds. -/
theorem PcOk.later {pc : Pc ι} (h : PcOk job s pc) (hleft : s'.left ⊆ s.left)
    (hnode : ∀ n ∈ pc.hold.active, ∀ x', s'.nodes n = some x' → ∃ x, s.nodes n = some x ∧
      x'.entry = x.entry ∧ x'.parent = x.parent ∧ x'.remaining ≤ x.remaining) :
    PcOk job s' pc := by
  have hscan : ∀ n ∈ pc.hold.active, ∀ x', s'.nodes n = some x' → ∃ x, s.nodes n = some x ∧
      x'.entry = x.entry ∧ x'.remaining ≤ x.remaining := by
    intro n hn x' hx'
    obtain ⟨x, hx, hentry, -, hcount⟩ := hnode n hn x' hx'
    exact ⟨x, hx, hentry, hcount⟩
  cases pc with
  | idle | done | openNode | resubmit | discard | close | release | remove | delete => trivial
  | forceRemove n e =>
    -- Nothing is said of the worker here.
    refine ⟨h.1, fun x' hx' => ?_⟩
    obtain ⟨x, hx, hentry, -⟩ := hscan n (by simp [Pc.hold]) x' hx'
    rw [hentry]
    exact (h.2 x hx).later hleft
  | read n seen => exact ScanOk.later h (hscan n (by simp [Pc.hold]))
  | submitChild n seen m => exact ScanOk.later h (hscan n (by simp [Pc.hold]))
  | fstatat n seen c =>
    have hn := hscan n (by simp [Pc.hold])
    exact ⟨h.1, h.2.1.later hn, h.2.2.1.later hn, h.2.2.2⟩
  | unlinkat n seen c =>
    have hn := hscan n (by simp [Pc.hold])
    exact ⟨h.1, h.2.1.later hn, h.2.2.1.later hn, h.2.2.2⟩
  | child n seen c =>
    have hn := hscan n (by simp [Pc.hold])
    exact ⟨h.1, h.2.1.later hn, h.2.2.1.later hn, h.2.2.2⟩
  | makeChild n seen c opened =>
    have hn := hscan n (by simp [Pc.hold])
    exact ⟨h.1, h.2.1.later hn, h.2.2.1.later hn, h.2.2.2⟩
  | forceUnlinkat n seen c e =>
    have hn := hscan n (by simp [Pc.hold])
    exact ⟨h.1, h.2.1.later hn, h.2.2.1.later hn, h.2.2.2.1, h.2.2.2.2.1, h.2.2.2.2.2.1,
      h.2.2.2.2.2.2.later hleft⟩
  | countChild n seen m =>
    -- Of the child too, which the worker holds alone.
    intro y' hy'
    obtain ⟨y, hy, hentry, hparent, -⟩ := hnode m (by simp [Pc.hold]) y' hy'
    have hn := hscan n (by simp [Pc.hold])
    obtain ⟨hup, hmem, hscan, hentryok, hdir⟩ := h y hy
    rw [hentry, hparent]
    exact ⟨hup, hmem, hscan.later hn, hentryok.later hn, hdir⟩
  | say o after =>
    cases after with
    | read n seen => exact ScanOk.later h (hscan n (by simp [Pc.hold, After.hold]))
    | close | delete | discard => trivial

omit [DecidableEq ι] in
theorem MainOk.later {left left' : Finset ι} {pc : MainPc ι} (h : MainOk job left pc)
    (hleft : left' ⊆ left) : MainOk job left' pc := by
  cases pc with
  | forceRmdir text i e rest =>
    exact ⟨h.1, h.2.1, h.2.2.1, h.2.2.2.1, h.2.2.2.2.1.later hleft, h.2.2.2.2.2⟩
  | prompt | declined | lstat | unlink | rmdir | openDir | seed | submit | say | returned => exact h

omit [DecidableEq ι] in
theorem NodeOk.later {x x' : Node ι} {active : Multiset ℕ} (h : NodeOk job s x)
    (hlater : Later s s' active) (hentry : x'.entry = x.entry) (hparent : x'.parent = x.parent)
    (hname : x'.name = x.name) (hopened : x'.isOpen = true → job.faults.openDir x.entry = none)
    (hsmall : x'.remaining < 2 ^ 32) (hold : x'.parent ≠ some s.next) : NodeOk job s' x' where
  visited := hentry ▸ h.visited
  isDir := hentry ▸ h.isDir
  recursive := h.recursive
  opened := hentry ▸ hopened
  root hnone := by
    rw [hentry, hname]
    exact h.root (hparent ▸ hnone)
  child p y hp hy := by
    rcases hlater p y hy with rfl | ⟨z, hz, hentryz, -⟩
    · exact absurd hp hold
    · rw [hentry, hname, hentryz]
      exact h.child p z (hparent ▸ hp) hz
  small := hsmall

/-! ## The steps of the workers -/

/-- A removal adds nothing. -/
theorem settle_left_subset (job : Job ι) (s : State W ι) (w : Fin W) (i : ι) (r : Option Errno)
    (path : Bytes) (code : Errno → Errno) (after : After ι) :
    (settle job s w i r path code after).left ⊆ s.left := by
  cases r <;> rw [settle] <;> split_ifs <;>
    first | exact Finset.erase_subset _ _ | exact Finset.Subset.refl _

/-- A step of a worker counts no node up but one of its own. -/
theorem WorkerStep.later (h : References b s) (hs : WorkerStep job w s l s')
    (hsmall : ∀ n x, s.nodes n = some x → x.remaining < 2 ^ 32) :
    Later s s' (s.workers w).hold.active := by
  cases hs with
  | opened _ hx _ _ _ => exact .store hx rfl rfl rfl rfl (.inl le_rfl)
  | close _ hx => exact .store hx rfl rfl rfl rfl (.inl le_rfl)
  | countChild hpc hx =>
    exact .store hx rfl rfl rfl rfl (.inr (by rw [hpc]; simp [Pc.hold]))
  | @releaseShared n x hpc hx _ =>
    refine .store hx rfl rfl rfl rfl (.inl ?_)
    rw [References, held_eq b s w, hpc] at h
    have hcounted : x.remaining = _ := (h.count_of_held (cells_of_node hx)).1
    have hlt := hsmall n x hx
    show (x.remaining + (2 ^ 32 - 1)) % 2 ^ 32 ≤ x.remaining
    omega
  | releaseLast _ hx _ => exact .store hx rfl rfl rfl rfl (.inl (Nat.zero_le _))
  | discard | delete => exact .free rfl
  | makeChild => exact .new rfl
  | forceRemove | unlinkat | forceUnlinkat | remove => exact .refl s _ (settle_nodes ..)
  | start | openReady | parked | openFailed | openFailedForce | resubmit | readEntry | readDone
  | readFailed | stat | statAbsent | statFailed | exhausted | childOpened | childRefused
  | childFailed | childFailedForce | submitChild | say | finish => exact .refl s _ rfl

theorem WorkerStep.left_subset (hs : WorkerStep job w s l s') : s'.left ⊆ s.left := by
  cases hs with
  | forceRemove | unlinkat | forceUnlinkat | remove => exact settle_left_subset ..
  | _ => exact Finset.Subset.refl _

theorem afterOk_pc (after : After ι) : PcOk job s after.pc ↔ AfterOk job s after := by
  cases after <;> exact Iff.rfl

theorem pcOk_settle {r : Option Errno} {path : Bytes} {code : Errno → Errno}
    {after : After ι} (h : AfterOk job s after) :
    PcOk job s (settlePc job r path code after) := by
  cases r with
  | none =>
    rw [settlePc]
    split_ifs
    · exact h
    · exact (afterOk_pc after).mpr h
  | some e =>
    rw [settlePc]
    split_ifs
    · exact (afterOk_pc after).mpr h
    · exact h

theorem WorkerStep.workers_eq (hs : WorkerStep job w s l s') :
    s'.workers = Function.update s.workers w (s'.workers w) := by
  have hset : ∀ (t : State W ι) (pc : Pc ι), t.workers = s.workers →
      (t.setWorker w pc).workers =
        Function.update s.workers w ((t.setWorker w pc).workers w) := by
    intro t pc ht
    rw [← ht]
    show _ = Function.update t.workers w (Function.update t.workers w pc w)
    rw [Function.update_self]
    rfl
  cases hs with
  | forceRemove | unlinkat | forceUnlinkat | remove =>
    rw [settle_eq]
    exact hset _ _ (settleState_workers ..)
  | _ => exact hset _ _ rfl

omit [DecidableEq ι] in
/-- A node that nothing refers to yet has a count of 1. -/
theorem remaining_of_fresh (h : References b s) {n : ℕ} {x : Node ι}
    (hn : n ∈ (held b s).untouched) (hx : s.nodes n = some x) : x.remaining = 1 := by
  have hcell := h.cell n
  rw [cells_of_node hx, h.refs_of_untouched hn] at hcell
  exact hcell.1

omit [DecidableEq ι] in
theorem mem_untouched {n : ℕ} (hn : n ∈ (s.workers w).hold.untouched) :
    n ∈ (held b s).untouched := by
  rw [held_eq b s w, RefTree.Hold.untouched_add]
  exact Multiset.mem_add.mpr (.inr hn)

omit [DecidableEq ι] in
theorem Opens.failed {left : Finset ι} {i : ι} {e : OpenError}
    (h : Opens job.faults left i (.error e)) : OpenFailed job left i e.code := by
  cases h with
  | absent hi => exact .inl hi
  | fault he => exact .inr (.inl he)
  | refused hr => exact .inr (.inr (.inl hr))

/-- The same of an open by a path. -/
theorem Opens.failed_of_found {left : Finset ι} {text : Bytes} {i : ι} {e : OpenError}
    (h : Opens job.faults (job.found left text) i (.error e)) (htext : job.HasText text) :
    OpenFailed job left i e.code := by
  rcases job.found_cases left text with hfound | ⟨-, hbroken⟩
  · rw [hfound] at h
    exact h.failed
  · exact .inr (.inr (.inr (hbroken htext)))

omit [DecidableEq ι] in
/-- What was opened is not made to fail. -/
theorem Opens.no_fault {left : Finset ι} {i : ι} (h : Opens job.faults left i (.ok ())) :
    job.faults.openDir i = none := by
  cases h with
  | opened _ hnone => exact hnone

/-- One directory less is to be counted. -/
theorem Job.dirs_erase {seen : Finset ι} {c : ι} (hc : c ∈ seen)
    (hdir : job.tree.isDir c = true) : job.dirs seen = job.dirs (seen.erase c) + 1 := by
  have hmem : c ∈ seen.filter (job.tree.isDir · = true) := Finset.mem_filter.mpr ⟨hc, hdir⟩
  rw [Job.dirs, Job.dirs, Finset.filter_erase, Finset.card_erase_of_mem hmem]
  exact (Nat.succ_pred_eq_of_pos (Finset.card_pos.mpr ⟨c, hmem⟩)).symm

/-- An entry that the scan is done with. -/
theorem ScanOk.done {n : ℕ} {seen : Finset ι} {c : ι} (h : ScanOk job s n (seen.erase c))
    (hentry : EntryOk job s n c) : ScanOk job s n seen := by
  intro x hx
  obtain ⟨hopen, hup, hle⟩ := h x hx
  refine ⟨hopen, fun d hd => ?_, hle.trans ?_⟩
  · by_cases hdc : d = c
    · rw [hdc]
      exact hentry.2 x hx
    · exact hup d (Finset.mem_erase.mpr ⟨hdc, hd⟩)
  · exact Nat.add_le_add_left
      (Finset.card_le_card (Finset.filter_subset_filter _ (Finset.erase_subset _ _))) _

theorem pcOk_move {t : State W ι} {pc : Pc ι} (h : PcOk job t pc) :
    PcOk job (t.setWorker w pc) ((t.setWorker w pc).workers w) := by
  rw [show (t.setWorker w pc).workers w = pc from Function.update_self ..]
  apply h.later (Finset.Subset.refl _)
  exact fun n _ x hx => ⟨x, hx, rfl, rfl, le_rfl⟩

/-- What a read returns is an entry to go on with. -/
theorem pcOk_entryRead {n : ℕ} {seen : Finset ι} {c : ι} (hnew : c ∉ seen)
    (hscan : ScanOk job s n seen) (hentry : EntryOk job s n c) :
    PcOk job s (job.entryRead n seen c) := by
  have hmem := Finset.mem_insert_self c seen
  have hscan' : ScanOk job s n ((insert c seen).erase c) := by
    rwa [Finset.erase_insert hnew]
  rw [Job.entryRead]
  split_ifs with hknown
  · cases hdir : job.tree.isDir c with
    | false => exact ⟨hmem, hscan', hentry, .inl hknown, hdir⟩
    | true => exact ⟨hmem, hscan', hentry, .inl hknown, hdir⟩
  · exact ⟨hmem, hscan', hentry, Bool.eq_false_iff.mpr hknown⟩

/-- A worker begins to read a node that it has opened, or that was opened for it. -/
theorem pcOk_fresh (h : References b s) {n : ℕ} {x y : Node ι} {t : State W ι}
    (hpc : s.workers w = .openNode n) (hx : s.nodes n = some x) (hy : t.nodes n = some y)
    (hopened : job.faults.openDir y.entry = none) (hcount : y.remaining = x.remaining) :
    PcOk job (t.setWorker w (.read n ∅)) ((t.setWorker w (.read n ∅)).workers w) := by
  have hone := remaining_of_fresh h (mem_untouched (w := w) (by rw [hpc]; simp [Pc.hold])) hx
  apply pcOk_move
  intro z hz
  rw [hy] at hz
  cases hz
  exact ⟨hopened, by simp, by omega⟩

/-- A worker is done with an entry that it has removed, or tried to. -/
theorem pcOk_removed {n : ℕ} {seen : Finset ι} {c : ι} (hscan : ScanOk job s n (seen.erase c))
    (hentry : EntryOk job s n c) (r : Option Errno) (path : Bytes) (code : Errno → Errno) :
    PcOk job (settle job s w c r path code (.read n seen))
      ((settle job s w c r path code (.read n seen)).workers w) := by
  rw [settle_eq]
  refine pcOk_move (pcOk_settle ?_)
  apply (hscan.done hentry).later
  rw [settleState_nodes]
  exact fun x hx => ⟨x, hx, rfl, le_rfl⟩

/-- The local facts of the worker that moves. -/
theorem WorkerStep.pcOk (h : References b s) (hv : Visits job s) (hs : WorkerStep job w s l s') :
    PcOk job s' (s'.workers w) := by
  have hpcOk := hv.workers w
  cases hs with
  | start | parked | openFailed | resubmit | readDone | readFailed | close | releaseShared
  | releaseLast | finish => exact pcOk_move trivial
  | @openReady n x hpc hx hopen =>
    exact pcOk_fresh h hpc hx hx ((hv.nodes n x hx).opened hopen) rfl
  | opened hpc hx _ _ hopens =>
    exact pcOk_fresh h hpc hx (Function.update_self ..) hopens.no_fault rfl
  | @openFailedForce n x path e hpc hx _ hpath hopens _ hforce =>
    apply pcOk_move
    refine ⟨hforce, fun y hy => ?_⟩
    rw [hx] at hy
    cases hy
    exact hopens.failed_of_found (hv.hasText hpath)
  | forceRemove | remove =>
    rw [settle_eq]
    exact pcOk_move (pcOk_settle trivial)
  | @discard n x hpc hx | @delete n x hpc hx =>
    apply pcOk_move
    cases x.parent <;> trivial
  | @readEntry n seen x c hpc hx hreads =>
    -- The entry is new, so it is one of those that are still to be scanned.
    rw [hpc] at hpcOk
    cases hreads with
    | entry hup hnew hlost =>
      refine pcOk_move (pcOk_entryRead hnew hpcOk ⟨hlost, fun y hy => ?_⟩)
      rw [hx] at hy
      cases hy
      exact hup
  | @stat n seen x c isDir hpc _ hstats =>
    rw [hpc] at hpcOk
    obtain ⟨hmem, hscan, hentry, -⟩ := hpcOk
    apply pcOk_move
    cases hstats with
    | found _ hnone =>
      cases hdir : job.tree.isDir c with
      | false => exact ⟨hmem, hscan, hentry, .inr hnone, hdir⟩
      | true => exact ⟨hmem, hscan, hentry, .inr hnone, hdir⟩
  | statAbsent hpc | statFailed hpc | childFailed hpc =>
    rw [hpc] at hpcOk
    exact pcOk_move (hpcOk.2.1.done hpcOk.2.2.1)
  | unlinkat hpc | forceUnlinkat hpc =>
    rw [hpc] at hpcOk
    exact pcOk_removed hpcOk.2.1 hpcOk.2.2.1 ..
  | exhausted hpc | childRefused hpc =>
    rw [hpc] at hpcOk
    obtain ⟨hmem, hscan, hentry, htyped, hdir⟩ := hpcOk
    exact pcOk_move ⟨hmem, hscan, hentry, htyped, hdir, fun hopen => by cases hopen⟩
  | childOpened hpc _ hopens =>
    rw [hpc] at hpcOk
    obtain ⟨hmem, hscan, hentry, htyped, hdir⟩ := hpcOk
    exact pcOk_move ⟨hmem, hscan, hentry, htyped, hdir, fun _ => hopens.no_fault⟩
  | childFailedForce hpc _ hopens _ hforce =>
    rw [hpc] at hpcOk
    obtain ⟨hmem, hscan, hentry, htyped, hdir⟩ := hpcOk
    exact pcOk_move ⟨hmem, hscan, hentry, htyped, hdir, hforce, hopens.failed⟩
  | @makeChild n seen c opened hpc =>
    -- The new node is not the one that is scanned.
    rw [hpc] at hpcOk
    obtain ⟨hmem, hscan, hentry, _, hdir, _⟩ := hpcOk
    have hlive := h.live_of_owned (n := n) (by
      rw [held_eq b s w, hpc]
      simp [Pc.hold])
    have hne : n ≠ s.next := (h.lt_next hlive.choose_spec).ne
    have hnode : ∀ x', (Function.update s.nodes s.next (some
        { entry := c, parent := some n, name := job.tree.name c, isOpen := opened,
          remaining := 1 })) n = some x' → ∃ x, s.nodes n = some x ∧ x'.entry = x.entry ∧
        x'.remaining ≤ x.remaining := by
      intro x' hx'
      rw [Function.update_of_ne hne] at hx'
      exact ⟨x', hx', rfl, le_rfl⟩
    apply pcOk_move
    intro y hy
    rw [State.new_nodes, Function.update_self] at hy
    cases hy
    exact ⟨rfl, hmem, hscan.later hnode, hentry.later hnode, hdir⟩
  | @countChild n m seen x hpc hx =>
    -- The child is one of the directories that were not seen, and is one of those seen now: what
    -- the counter may be grows with it.
    rw [hpc] at hpcOk
    obtain ⟨cell, hcell⟩ := h.live_of_owned (n := m) (by
      rw [held_eq b s w, hpc]
      simp [Pc.hold])
    obtain ⟨y, hy, -⟩ := node_of_cells hcell
    obtain ⟨-, hmem, hscan, hentry, hdir⟩ := hpcOk y hy
    have hdirs := Job.dirs_erase hmem hdir
    have hle := (hscan x hx).2.2
    have hdone := hscan.done hentry
    apply pcOk_move
    intro z hz
    rw [State.setNode_nodes, Function.update_self] at hz
    cases hz
    refine ⟨(hdone x hx).1, (hdone x hx).2.1, ?_⟩
    show (x.remaining + 1) % 2 ^ 32 ≤ _
    omega
  | submitChild hpc =>
    rw [hpc] at hpcOk
    exact pcOk_move hpcOk
  | @say o after hpc =>
    rw [hpc] at hpcOk
    exact pcOk_move ((afterOk_pc after).mpr hpcOk)

/-! ## The nodes -/

omit [DecidableEq ι] in
/-- The parent of a node is not a new node. -/
theorem parent_ne_next (h : References b s) {n : ℕ} {x : Node ι} (hx : s.nodes n = some x) :
    x.parent ≠ some s.next := by
  intro hp
  have hlt := h.lt_next (cells_of_node hx)
  have hparent := h.parent n _ _ (cells_of_node hx) hp
  omega

/-- The nodes after a step that stores a node, or none. -/
theorem nodesOk_later {active : Multiset ℕ} (h : References b s) (hv : Visits job s)
    (hlater : Later s s' active)
    (hnew : ∀ x', s'.nodes s.next = some x' → NodeOk job s' x')
    (hstored : ∀ n x x', s.nodes n = some x → s'.nodes n = some x' →
      (x'.isOpen = true → job.faults.openDir x.entry = none) ∧ x'.remaining < 2 ^ 32) :
    ∀ n x', s'.nodes n = some x' → NodeOk job s' x' := by
  intro n x' hx'
  rcases hlater n x' hx' with rfl | ⟨x, hx, hentry, hparent, hname, -⟩
  · exact hnew x' hx'
  · obtain ⟨hopened, hsmall⟩ := hstored n x x' hx hx'
    refine (hv.nodes n x hx).later hlater hentry hparent hname hopened hsmall ?_
    rw [hparent]
    exact parent_ne_next h hx

theorem nodesOk_store {active : Multiset ℕ} {n : ℕ} {x y : Node ι} (h : References b s)
    (hv : Visits job s) (hlater : Later s s' active) (hx : s.nodes n = some x)
    (hnodes : s'.nodes = Function.update s.nodes n (some y))
    (hopened : y.isOpen = true → job.faults.openDir x.entry = none)
    (hsmall : y.remaining < 2 ^ 32) : ∀ k x', s'.nodes k = some x' → NodeOk job s' x' := by
  refine nodesOk_later h hv hlater (fun x' hx' => ?_) fun k z z' hz hz' => ?_
  · rw [hnodes, Function.update_of_ne (h.lt_next (cells_of_node hx)).ne'] at hx'
    have hnone := h.unborn s.next le_rfl
    rw [cells_of_node hx'] at hnone
    cases hnone
  · rw [hnodes] at hz'
    by_cases hk : k = n
    · subst hk
      rw [Function.update_self] at hz'
      rw [hx] at hz
      cases hz
      cases hz'
      exact ⟨hopened, hsmall⟩
    · rw [Function.update_of_ne hk, hz] at hz'
      cases hz'
      exact ⟨(hv.nodes k z hz).opened, (hv.nodes k z hz).small⟩

/-- The nodes after a step that stores no node. -/
theorem nodesOk_kept {active : Multiset ℕ} (h : References b s) (hv : Visits job s)
    (hlater : Later s s' active) (hnodes : ∀ n x, s'.nodes n = some x → s.nodes n = some x) :
    ∀ n x', s'.nodes n = some x' → NodeOk job s' x' := by
  refine nodesOk_later h hv hlater (fun x' hx' => ?_) fun k z z' hz hz' => ?_
  · have hnone := h.unborn s.next le_rfl
    rw [cells_of_node (hnodes _ _ hx')] at hnone
    cases hnone
  · rw [hnodes k z' hz'] at hz
    cases hz
    exact ⟨(hv.nodes k z (hnodes k z hz')).opened, (hv.nodes k z (hnodes k z hz')).small⟩

omit [DecidableEq ι] in
theorem of_delete {n k : ℕ} {x : Node ι} (h : (s.delete n).nodes k = some x) :
    s.nodes k = some x := by
  by_cases hk : k = n
  · subst hk
    rw [State.delete_nodes, Function.update_self] at h
    cases h
  · rwa [State.delete_nodes, Function.update_of_ne hk] at h

/-- A node that is counted up once more still fits. -/
theorem room_of_fits [Fintype ι] (hfits : job.Fits) (h : References b s) (hv : Visits job s)
    {n m : ℕ} {seen : Finset ι} {x : Node ι} (hpc : s.workers w = .countChild n seen m)
    (hx : s.nodes n = some x) : x.remaining + 1 < 2 ^ 32 := by
  have hpcOk := hv.workers w
  rw [hpc] at hpcOk
  obtain ⟨cell, hcell⟩ := h.live_of_owned (n := m) (by
    rw [held_eq b s w, hpc]
    simp [Pc.hold])
  obtain ⟨y, hy, -⟩ := node_of_cells hcell
  obtain ⟨-, hmem, hscan, hentry, hdir⟩ := hpcOk y hy
  have hdirs := Job.dirs_erase hmem hdir
  have hle := (hscan x hx).2.2
  have hup := (hscan.done hentry x hx).2.1
  have hcard : job.dirs seen ≤ (Finset.univ.filter fun c =>
      job.tree.up c = some x.entry ∧ job.tree.isDir c = true).card := by
    apply Finset.card_le_card
    intro c hc
    obtain ⟨hcseen, hcdir⟩ := Finset.mem_filter.mp hc
    exact Finset.mem_filter.mpr ⟨Finset.mem_univ c, hup c hcseen, hcdir⟩
  have hlt := hfits x.entry
  omega

/-- The local facts of the nodes. -/
theorem WorkerStep.nodesOk (h : References b s) (hv : Visits job s)
    (hs : WorkerStep job w s l s') :
    ∀ n x, s'.nodes n = some x → NodeOk job s' x := by
  have hlater := hs.later h fun n x hx => (hv.nodes n x hx).small
  have hpcOk := hv.workers w
  cases hs with
  | @opened n x path hpc hx _ _ hopens =>
    -- A node changes in its own fields only.
    exact nodesOk_store h hv hlater hx rfl (fun _ => hopens.no_fault) (hv.nodes n x hx).small
  | @close n x hpc hx =>
    exact nodesOk_store h hv hlater hx rfl (fun hopen => by cases hopen) (hv.nodes n x hx).small
  | @countChild n m seen x hpc hx =>
    refine nodesOk_store h hv hlater hx rfl (hv.nodes n x hx).opened ?_
    exact Nat.mod_lt _ (by norm_num)
  | @releaseShared n x hpc hx =>
    refine nodesOk_store h hv hlater hx rfl (hv.nodes n x hx).opened ?_
    exact Nat.mod_lt _ (by norm_num)
  | @releaseLast n x hpc hx =>
    exact nodesOk_store h hv hlater hx rfl (hv.nodes n x hx).opened (by norm_num)
  | discard | delete => exact nodesOk_kept h hv hlater fun n x hx => of_delete hx
  | @makeChild n seen c opened hpc =>
    -- The entry of the child was read from the directory of the node, which is visited.
    rw [hpc] at hpcOk
    obtain ⟨hmem, hscan, hentry, htyped, hdir, hopened⟩ := hpcOk
    obtain ⟨cell, hcell⟩ := h.live_of_owned (n := n) (by
      rw [held_eq b s w, hpc]
      simp [Pc.hold])
    obtain ⟨y, hy, -⟩ := node_of_cells hcell
    have hne : n ≠ s.next := (h.lt_next hcell).ne
    have hnode := hv.nodes n y hy
    refine nodesOk_later h hv hlater (fun x' hx' => ?_) fun k z z' hz hz' => ?_
    · rw [State.setWorker_nodes, State.new_nodes, Function.update_self] at hx'
      cases hx'
      refine ⟨.entry (hentry.2 y hy) hnode.visited hnode.recursive (hscan y hy).1 hentry.1 htyped,
        hdir, hnode.recursive, hopened, fun hnone => (by cases hnone), ?_, by norm_num⟩
      intro p z hp hz
      cases hp
      rw [State.setWorker_nodes, State.new_nodes, Function.update_of_ne hne] at hz
      exact ⟨hentry.2 z hz, rfl⟩
    · have hk : k ≠ s.next := (h.lt_next (cells_of_node hz)).ne
      rw [State.setWorker_nodes, State.new_nodes, Function.update_of_ne hk, hz] at hz'
      cases hz'
      exact ⟨(hv.nodes k z hz).opened, (hv.nodes k z hz).small⟩
  | forceRemove | unlinkat | forceUnlinkat | remove =>
    refine nodesOk_kept h hv hlater fun n x hx => ?_
    rwa [settle_nodes] at hx
  | start | openReady | parked | openFailed | openFailedForce | resubmit | readEntry | readDone
  | readFailed | stat | statAbsent | statFailed | exhausted | childOpened | childRefused
  | childFailed | childFailedForce | submitChild | say | finish =>
    exact nodesOk_kept h hv hlater fun n x hx => hx

theorem WorkerStep.main_eq (hs : WorkerStep job w s l s') : s'.main = s.main := by
  cases hs with
  | forceRemove | unlinkat | forceUnlinkat | remove =>
    rw [settle_eq]
    exact settleState_main ..
  | _ => rfl

/-- **A step of a worker** keeps the local facts of all. -/
theorem WorkerStep.visits (h : References b s) (hv : Visits job s)
    (hs : WorkerStep job w s l s') : Visits job s' := by
  have hlater := hs.later h fun n x hx => (hv.nodes n x hx).small
  refine ⟨hs.nodesOk h hv, fun k => ?_, ?_⟩
  · by_cases hk : k = w
    · subst hk
      exact hs.pcOk h hv
    · rw [hs.workers_eq, Function.update_of_ne hk]
      apply (hv.workers k).later hs.left_subset
      -- The nodes of the others are neither new nor counted up.
      intro n hn x' hx'
      have hactive : n ∈ (held b s).active := by
        rw [held_eq b s k, RefTree.Hold.active_add]
        exact Multiset.mem_add.mpr (.inr hn)
      obtain ⟨cell, hcell⟩ := h.live_of_active hactive
      rcases hlater n x' hx' with rfl | ⟨x, hx, hentry, hparent, -, hcount⟩
      · exact absurd (h.lt_next hcell) (lt_irrefl _)
      · exact ⟨x, hx, hentry, hparent, hcount.resolve_right (h.active_disjoint hk hn)⟩
  · rw [hs.main_eq]
    exact hv.main.later hs.left_subset

/-! ## The steps of the main thread -/

theorem settleMain_left_subset (s : State W ι) (i : ι) (r : Option Errno) (path : Bytes)
    (code : Errno → Errno) (ignored : Errno → Bool) (rest : List (Operand ι)) :
    (settleMain job s i r path code ignored rest).left ⊆ s.left := by
  cases r <;> rw [settleMain] <;> split_ifs <;>
    first | exact Finset.erase_subset _ _ | exact Finset.Subset.refl _

theorem MainStep.left_subset (hs : MainStep job s l s') : s'.left ⊆ s.left := by
  cases hs with
  | unlink | rmdir | forceRmdir => exact settleMain_left_subset ..
  | lstatFailed | isDir | openFailed =>
    split_ifs <;> exact Finset.Subset.refl _
  | confirmed | declined | isFile | opened | seed | submit | say | wait => exact Finset.Subset.refl _

theorem MainStep.workers_eq (hs : MainStep job s l s') : s'.workers = s.workers := by
  cases hs with
  | unlink | rmdir | forceRmdir => exact (settleMain_frame job s _ _ _ _ _ _).2.2.1
  | lstatFailed | isDir | openFailed => split_ifs <;> rfl
  | confirmed | declined | isFile | opened | seed | submit | say | wait => rfl

theorem MainStep.later (hs : MainStep job s l s') : Later s s' 0 := by
  cases hs with
  | unlink | rmdir | forceRmdir => exact .refl s _ (settleMain_frame job s _ _ _ _ _ _).1
  | lstatFailed | isDir | openFailed => split_ifs <;> exact .refl s _ rfl
  | seed => exact .new rfl
  | confirmed | declined | isFile | opened | submit | say | wait => exact .refl s _ rfl

theorem settleMain_mainOk {i : ι} {r : Option Errno} {path : Bytes} {code : Errno → Errno}
    {ignored : Errno → Bool} {rest : List (Operand ι)} (hrest : ∀ o ∈ rest, o ∈ job.operands) :
    MainOk job (settleMain job s i r path code ignored rest).left
      (settleMain job s i r path code ignored rest).main := by
  cases r <;> rw [settleMain] <;> split_ifs <;> exact hrest

/-- What `lstat` finds is what the operand stood for at first. -/
theorem mem_operands_of_lstat {left : Finset ι} {o : Operand ι} {i : ι}
    (h : job.lstat left o = .ok i) (ho : o ∈ job.operands) :
    ⟨o.text, .ok i⟩ ∈ job.operands := by
  rw [← (Job.lstat_ok h).1]
  exact ho

/-- The local facts of the operand loop. -/
theorem MainStep.mainOk (hv : Visits job s) (hs : MainStep job s l s') :
    MainOk job s'.left s'.main := by
  have hmain := hv.main
  cases hs with
  | confirmed hpc =>
    rw [hpc] at hmain
    exact hmain
  | lstatFailed hpc =>
    rw [hpc] at hmain
    have hrest := fun o ho => hmain o (List.mem_cons_of_mem _ ho)
    split_ifs <;> exact hrest
  | isFile hpc hlstat hfile =>
    rw [hpc] at hmain
    have hmem := mem_operands_of_lstat hlstat (hmain _ List.mem_cons_self)
    exact ⟨hmem, hfile, fun o ho => hmain o (List.mem_cons_of_mem _ ho)⟩
  | isDir hpc hlstat hdir =>
    -- What the options say of directories.
    rw [hpc] at hmain
    have hmem := mem_operands_of_lstat hlstat (hmain _ List.mem_cons_self)
    have hrest := fun o ho => hmain o (List.mem_cons_of_mem _ ho)
    split_ifs with hrecursive hd
    · exact ⟨hmem, hdir, hrecursive, hrest⟩
    · exact ⟨hmem, hdir, Bool.eq_false_iff.mpr hrecursive, hd, hrest⟩
    · exact hrest
  | unlink hpc =>
    rw [hpc] at hmain
    exact settleMain_mainOk hmain.2.2
  | rmdir hpc =>
    rw [hpc] at hmain
    exact settleMain_mainOk hmain.2.2.2.2
  | opened hpc hopens =>
    rw [hpc] at hmain
    obtain ⟨hmem, hdir, hrecursive, hrest⟩ := hmain
    exact ⟨hmem, hdir, hrecursive, hopens.no_fault, hrest⟩
  | openFailed hpc hopens =>
    rw [hpc] at hmain
    obtain ⟨hmem, hdir, hrecursive, hrest⟩ := hmain
    split_ifs with hforce
    · exact ⟨hmem, hdir, hrecursive, hforce, hopens.failed_of_found ⟨_, hmem, rfl⟩, hrest⟩
    · exact hrest
  | forceRmdir hpc =>
    rw [hpc] at hmain
    exact settleMain_mainOk hmain.2.2.2.2.2
  | seed hpc =>
    rw [hpc] at hmain
    exact hmain.2.2.2.2
  | submit hpc | say hpc =>
    rw [hpc] at hmain
    exact hmain
  | declined | wait => trivial

theorem MainStep.nodesOk (h : References b s) (hv : Visits job s) (hs : MainStep job s l s') :
    ∀ n x, s'.nodes n = some x → NodeOk job s' x := by
  have hlater := hs.later
  have hmain := hv.main
  cases hs with
  | unlink | rmdir | forceRmdir =>
    refine nodesOk_kept h hv hlater fun n x hx => ?_
    rwa [(settleMain_frame job s _ _ _ _ _ _).1] at hx
  | lstatFailed | openFailed =>
    refine nodesOk_kept h hv hlater fun n x hx => ?_
    split_ifs at hx <;> exact hx
  | isDir =>
    refine nodesOk_kept h hv hlater fun n x hx => ?_
    split_ifs at hx <;> exact hx
  | seed hpc =>
    rw [hpc] at hmain
    obtain ⟨hmem, hdir, hrecursive, hopen, -⟩ := hmain
    refine nodesOk_later h hv hlater (fun x' hx' => ?_) fun k z z' hz hz' => ?_
    · rw [State.setMain_nodes, State.new_nodes, Function.update_self] at hx'
      cases hx'
      exact ⟨.operand hmem, hdir, hrecursive, fun _ => hopen, fun _ => hmem,
        fun p y hp => (by cases hp), by norm_num⟩
    · have hk : k ≠ s.next := (h.lt_next (cells_of_node hz)).ne
      rw [State.setMain_nodes, State.new_nodes, Function.update_of_ne hk, hz] at hz'
      cases hz'
      exact ⟨(hv.nodes k z hz).opened, (hv.nodes k z hz).small⟩
  | confirmed | declined | isFile | opened | submit | say | wait =>
    exact nodesOk_kept h hv hlater fun n x hx => hx

/-- **A step of the main thread** keeps the local facts of all. -/
theorem MainStep.visits (h : References b s) (hv : Visits job s) (hs : MainStep job s l s') :
    Visits job s' := by
  refine ⟨hs.nodesOk h hv, fun k => ?_, hs.mainOk hv⟩
  rw [hs.workers_eq]
  apply (hv.workers k).later hs.left_subset
  intro n hn x' hx'
  have hactive : n ∈ (held b s).active := by
    rw [held_eq b s k, RefTree.Hold.active_add]
    exact Multiset.mem_add.mpr (.inr hn)
  obtain ⟨cell, hcell⟩ := h.live_of_active hactive
  rcases hs.later n x' hx' with rfl | ⟨x, hx, hentry, hparent, -, hcount⟩
  · exact absurd (h.lt_next hcell) (lt_irrefl _)
  · exact ⟨x, hx, hentry, hparent, hcount.resolve_right (Multiset.notMem_zero n)⟩

/-! ## Every run -/

/-- **The references are counted right and the local facts hold** in every run. -/
theorem visits_of_run [Fintype ι] (hfits : job.Fits) {tr : List (Label W ι)}
    {p : Bag W ℕ × State W ι} (h : (bagRemoval job W).Run tr p) :
    References p.1 p.2 ∧ Visits job p.2 := by
  refine bagRemoval_invariant (I := fun b s => References b s ∧ Visits job s) ?_ ?_ ?_ h
  · refine ⟨?_, fun n x hx => (by cases hx), fun w => trivial, fun o ho => ho⟩
    have hheld : held ⟨0, fun _ => none, false⟩ (State.initial job W) = 0 :=
      (zero_add _).trans Finset.sum_const_zero
    rw [References, hheld]
    exact RefTree.Ok.initial
  · intro b s l b' s' w hI hs hb
    refine ⟨hs.references hI.1 hb (fun n x hx => (hI.2.nodes n x hx).small) ?_,
      hs.visits hI.1 hI.2⟩
    exact fun n seen m x hpc hx => room_of_fits hfits hI.1 hI.2 hpc hx
  · intro b s l b' s' hI hs hb
    exact ⟨hs.references hI.1 hb, hs.visits hI.1 hI.2⟩

end Remmy.Removal
