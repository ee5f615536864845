import Remmy.Lib.Join
import Remmy.Removal.Threads

/-!
# A Removal as a System

The threads of a removal together with the scheduler that hands the tasks around.

- `removal` has the scheduler of `Remmy.TaskScheduler.Scheduler`, `bagRemoval` the bag.
- `removal_refines`: a removal with the scheduler is one with the bag.
- `Label.Handed` is what a step does to the bag; `bagRemoval_invariant` is the induction over
  runs: what the steps of the workers and of the main thread keep, every run keeps.
- `removeFolder_run` is a run from the first step to the return, with one worker.
-/

namespace Remmy.Removal

open Remmy.Lib Remmy.TaskScheduler

universe u

variable {ι : Type u} [DecidableEq ι] [Fintype ι] (job : Job ι) (W P : ℕ)

/-- A removal with `W` workers and `P` priorities.  Who of the threads submits a task is left
    open to both sides. -/
def removal : System (TaskScheduler.State W P ℕ × State W ι) (Option (Label W ι)) :=
  (TaskScheduler.system W P ℕ).joinHidden (threads job W) Label.event (· = .internal)

/-- A removal whose tasks are in a bag. -/
def bagRemoval : System (Bag W ℕ × State W ι) (Label W ι) :=
  (bagSystem W ℕ).join (threads job W) Label.event

variable {job W P}

/-- What an event shows is shown as it is. -/
theorem Event.visible_visible (e : Event W ℕ) : e.visible.bind Event.visible = e.visible := by
  cases e <;> rfl

omit [DecidableEq ι] [Fintype ι] in
theorem Label.event_visible (l : Label W ι) : l.event = l.event.bind Event.visible := by
  cases l with
  | scheduler e => exact (Event.visible_visible e).symm
  | _ => rfl

/-- **Refinement**: a removal with the scheduler, without what only the scheduler sees, is a
    removal with the bag. -/
theorem removal_refines {tr : List (Option (Label W ι))}
    {p : TaskScheduler.State W P ℕ × State W ι} (h : (removal job W P).Run tr p) :
    (bagRemoval job W).Run tr.reduceOption (p.1.bag, p.2) := by
  refine h.join_refines State.bag Event.visible ?_ ?_ ?_ Label.event_visible
  · intro s hinit
    exact (bag_of_run (.start hinit)).init_of_nil
  · intro _ s e s' hr hs
    have hstep := (inv_of_run hr).refines hs
    cases hvis : e.visible with
    | none => simpa [hvis] using hstep
    | some b =>
      rw [hvis] at hstep
      exact hstep
  · rintro e rfl
    rfl

/-! ## A run -/

/-- A directory with a directory in it, and a file in that. -/
def folder : Tree (Fin 3) where
  up := Fin.cases none fun i => some i.castSucc
  wf := Subrelation.wf (r := (· < ·)) (fun {a i} => by revert a i; decide) wellFounded_lt
  isDir i := i ≠ Fin.last 2
  name i := [100 + UInt8.ofNat i]
  typeKnown _ := true
  isDir_up {i d} := by revert i d; decide

/-- No call fails. -/
def noFaults : Faults (Fin 3) where
  openDir _ := none
  fstatat _ := none
  unlink _ := none
  rmdir _ := none
  read _ := none
  unread _ := false
  isFault h := by simp at h

/-- Standard input is at its end. -/
def noInput : Io.BufferedReader UInt8 Os.Errno := .new ⟨[], fun _ => .ok 0, 0⟩ 1 Nat.one_pos

/-- `rm -rv d` -/
def removeFolder : Job (Fin 3) where
  tree := folder
  faults := noFaults
  through _ := ∅
  options := { recursive := true, verbose := true }
  input := noInput
  superuser := false
  pathMax := 1024
  operands := [⟨[100], .ok ⟨0, Nat.succ_pos 2⟩⟩]
  dropped := false

/-- What the threads show when the worker `w` removes the folder `d`. -/
def folderLabels (w : Fin 1) (d e f : Fin 3) : List (Label 1 (Fin 3)) :=
  [.internal, .internal, .internal, .news 0, .scheduler (.submit 0), .scheduler (.start w 0),
    .internal, .internal, .internal, .news 1, .internal, .scheduler (.submit 1), .internal,
    .internal, .internal, .scheduler (.finish w 0), .scheduler (.start w 1), .internal, .internal,
    .removes f none, .writes (.line [100, 47, 101, 47, 102]), .internal, .internal, .internal,
    .removes e none, .writes (.line [100, 47, 101]), .deletes 1, .internal, .removes d none,
    .writes (.line [100]), .deletes 0, .scheduler (.finish w 1), .scheduler .sawZero]

/-- The worker steals the folder's node, submits one for the subdirectory (`p₁`), takes that one
    (`p₂`, before its removal), and removes both; `Wait` returns (`p`). -/
theorem removeFolder_run : ∃ tr₁ p₁ tr₂ p₂ tr p,
    ((removal removeFolder 1 1).Run tr₁ p₁ ∧ p₁.1.bag.waiting = {1} ∧
      p₁.2.nodes 0 = some ⟨0, none, [100], true, 2⟩) ∧
    ((removal removeFolder 1 1).Run tr₂ p₂ ∧ p₂.2.workers 0 = .remove 1) ∧
    (removal removeFolder 1 1).Run tr p ∧ tr.reduceOption = folderLabels 0 0 1 2 ∧
      p.2.main = .returned 0 ∧ p.2.left = ∅ := by
  have hkept : ∀ c, ¬Lost removeFolder.tree removeFolder.faults c :=
    fun c h => Bool.false_ne_true h.1
  have hseen₀ : ∀ c, folder.up c = some 0 → c ∈ (insert 1 ∅ : Finset (Fin 3)) := by decide
  have hseen₁ : ∀ c, folder.up c = some 1 → c ∈ (insert 2 ∅ : Finset (Fin 3)) := by decide
  have hleft₁ : 1 ∈ (Finset.univ : Finset (Fin 3)).erase 2 := by decide
  have hempty₁ : ∀ c, folder.up c = some 1 → c ∉ (Finset.univ : Finset (Fin 3)).erase 2 := by decide
  have hleft₀ : 0 ∈ ((Finset.univ : Finset (Fin 3)).erase 2).erase 1 := by decide
  have hempty₀ : ∀ c, folder.up c = some 0 →
      c ∉ ((Finset.univ : Finset (Fin 3)).erase 2).erase 1 := by decide
  have h₀ : (removal removeFolder 1 1).Run [] (.initial 1 1 ℕ, .initial removeFolder 1) :=
    .start ⟨rfl, rfl⟩
  -- the operand is opened and seeded
  have hopened := (h₀.next (.seen (.alone rfl (.inl (.confirmed rfl rfl))))).next
    (.seen (.alone rfl (.inl (.isDir rfl rfl rfl))))
  have hseeded := (hopened.next
    (.seen (.alone rfl (.inl (.opened rfl (.opened (Finset.mem_univ _) rfl)))))).next
    (.seen (.alone rfl (.inl (.seed rfl))))
  -- `Submit` queues its node and starts the worker
  have hsubmitting := (hseeded.next (.hidden rfl (.inl (.submit 0 0 rfl)))).next
    (.hidden rfl (.inl (.submitAccepted rfl rfl)))
  have hsubmitted := hsubmitting.next
    (.seen (.together rfl (.inl (.submitAdd rfl (.beginInsert 0 rfl))) (.inl (.submit rfl))))
  have hdata := ((hsubmitted.next (.hidden rfl (.inl (.insertStep rfl (.insertStep rfl rfl))))).next
    (.hidden rfl (.inl (.insertStep rfl (.insertStep rfl rfl))))).next
    (.hidden rfl (.inl (.insertStep rfl (.insertStep rfl rfl))))
  have hslot := ((hdata.next (.hidden rfl (.inl (.insertStep rfl (.insertStep rfl rfl))))).next
    (.hidden rfl (.inl (.insertStep rfl (.insertStep rfl rfl))))).next
    (.hidden rfl (.inl (.insertStep rfl (.insertStep rfl rfl))))
  have hinserted := (hslot.next (.hidden rfl (.inl (.inserted rfl (.inserted rfl rfl))))).next
    (.hidden rfl (.inl (.grow rfl .load)))
  have hgrowing := (hinserted.next
    (.hidden rfl (.inl (.grow rfl (.more Nat.zero_lt_one (by decide)))))).next
    (.hidden rfl (.inl (.grow rfl (.won rfl))))
  -- `Wait` blocks
  have hstarted := ((hgrowing.next (.hidden rfl (.inl (.startThread rfl)))).next
    (.hidden rfl (.inl (.wait rfl)))).next (.hidden rfl (.inl (.waitOwed rfl (by decide))))
  have hasleep := hstarted.next
    (.hidden rfl (.inl (.sleep (show _ = ExtPc.waitCheck 1 from rfl) rfl)))
  -- the worker steals the node
  have htaking := (hasleep.next (.hidden rfl (.inr ⟨0, .acquire rfl rfl⟩))).next
    (.hidden rfl (.inr ⟨0, .takeOwn rfl (.beginTake rfl)⟩))
  have hempty := (((htaking.next (.hidden rfl (.inr ⟨0, .takeStep rfl (.takeStep rfl rfl)⟩))).next
    (.hidden rfl (.inr ⟨0, .takeStep rfl (.takeStep rfl rfl)⟩))).next
    (.hidden rfl (.inr ⟨0, .takeStep rfl (.takeStep rfl rfl)⟩))).next
    (.hidden rfl (.inr ⟨0, .takeStep rfl (.takeStep rfl rfl)⟩))
  have hvictims := (hempty.next (.hidden rfl (.inr ⟨0, .tookNone rfl (.took rfl rfl)⟩))).next
    (.hidden rfl (.inr ⟨0, .skipSelf rfl⟩))
  have hstealing := (hvictims.next (.hidden rfl (.inr ⟨0, .noVictimLeft rfl le_rfl⟩))).next
    (.hidden rfl (.inr ⟨0, .trySubmitted rfl (.beginSteal 0 rfl)⟩))
  have hloaded := ((hstealing.next
    (.hidden rfl (.inr ⟨0, .submittedStep rfl (.stealStep rfl rfl)⟩))).next
    (.hidden rfl (.inr ⟨0, .submittedStep rfl (.stealStep rfl rfl)⟩))).next
    (.hidden rfl (.inr ⟨0, .submittedStep rfl (.stealStep rfl rfl)⟩))
  have hswapped := (hloaded.next
    (.hidden rfl (.inr ⟨0, .submittedStep rfl (.stealStep rfl rfl)⟩))).next
    (.hidden rfl (.inr ⟨0, .submittedStep rfl (.stealStep rfl rfl)⟩))
  have hroot := hswapped.next (.seen (.together rfl (.inr ⟨0, .stoleSubmitted rfl (.stole rfl rfl)⟩)
      (.inr ⟨0, .start rfl⟩)))
  -- it reads the subdirectory, opens it, makes its node and counts it
  have hread := (hroot.next (.seen (.alone rfl (.inr ⟨0, .openReady rfl rfl rfl⟩)))).next
    (.seen (.alone rfl (.inr ⟨0, .readEntry rfl rfl
      (.entry (c := 1) rfl (Finset.notMem_empty 1) (hkept 1))⟩)))
  have hchild := (hread.next
    (.seen (.alone rfl (.inr ⟨0, .childOpened rfl rfl (.opened (Finset.mem_univ _) rfl)⟩)))).next
    (.seen (.alone rfl (.inr ⟨0, .makeChild rfl⟩)))
  have hcounted := hchild.next (.seen (.alone rfl (.inr ⟨0, .countChild rfl rfl⟩)))
  -- `Process` submits it
  have hcalling := (hcounted.next (.hidden rfl (.inr ⟨0, .submit 1 0 rfl⟩))).next
    (.seen (.together rfl (.inr ⟨0, .submitAdd rfl (.beginInsert 1 rfl)⟩)
      (.inr ⟨0, .submitChild rfl⟩)))
  have hchildData := ((hcalling.next
    (.hidden rfl (.inr ⟨0, .insertStep rfl (.insertStep rfl rfl)⟩))).next
    (.hidden rfl (.inr ⟨0, .insertStep rfl (.insertStep rfl rfl)⟩))).next
    (.hidden rfl (.inr ⟨0, .insertStep rfl (.insertStep rfl rfl)⟩))
  have hchildSlot := ((hchildData.next
    (.hidden rfl (.inr ⟨0, .insertStep rfl (.insertStep rfl rfl)⟩))).next
    (.hidden rfl (.inr ⟨0, .insertStep rfl (.insertStep rfl rfl)⟩))).next
    (.hidden rfl (.inr ⟨0, .insertStep rfl (.insertStep rfl rfl)⟩))
  have hqueued := (hchildSlot.next (.hidden rfl (.inr ⟨0, .inserted rfl (.inserted rfl rfl)⟩))).next
    (.hidden rfl (.inr ⟨0, .grow rfl .load⟩))
  have hreturned := hqueued.next (.hidden rfl (.inr ⟨0, .grown rfl (.enough (by decide))⟩))
  -- the directory is not removed yet
  have hclosed := (hreturned.next
    (.seen (.alone rfl (.inr ⟨0, .readDone rfl rfl (.done rfl (fun c _ => hseen₀ c))⟩)))).next
    (.seen (.alone rfl (.inr ⟨0, .close rfl rfl⟩)))
  have hshared := (hclosed.next
    (.seen (.alone rfl (.inr ⟨0, .releaseShared rfl rfl (by decide)⟩)))).next
    (.hidden rfl (.inr ⟨0, .processed rfl⟩))
  have hfirst := hshared.next
    (.seen (.together rfl (.inr ⟨0, .subtract rfl⟩) (.inr ⟨0, .finish rfl⟩)))
  -- the worker takes the other node
  have hagain := (hfirst.next (.hidden rfl (.inr ⟨0, .acquire rfl rfl⟩))).next
    (.hidden rfl (.inr ⟨0, .takeOwn rfl (.beginTake rfl)⟩))
  have htop := (((hagain.next (.hidden rfl (.inr ⟨0, .takeStep rfl (.takeStep rfl rfl)⟩))).next
    (.hidden rfl (.inr ⟨0, .takeStep rfl (.takeStep rfl rfl)⟩))).next
    (.hidden rfl (.inr ⟨0, .takeStep rfl (.takeStep rfl rfl)⟩))).next
    (.hidden rfl (.inr ⟨0, .takeStep rfl (.takeStep rfl rfl)⟩))
  have hlast := ((htop.next (.hidden rfl (.inr ⟨0, .takeStep rfl (.takeStep rfl rfl)⟩))).next
    (.hidden rfl (.inr ⟨0, .takeStep rfl (.takeStep rfl rfl)⟩))).next
    (.hidden rfl (.inr ⟨0, .takeStep rfl (.takeStep rfl rfl)⟩))
  have hstart := hlast.next
    (.seen (.together rfl (.inr ⟨0, .took rfl (.took rfl rfl)⟩) (.inr ⟨0, .start rfl⟩)))
  -- it removes the file, and then the subdirectory
  have hfile := (hstart.next (.seen (.alone rfl (.inr ⟨0, .openReady rfl rfl rfl⟩)))).next
    (.seen (.alone rfl (.inr ⟨0, .readEntry rfl rfl
      (.entry (c := 2) rfl (Finset.notMem_empty 2) (hkept 2))⟩)))
  have hunlinked := hfile.next (.seen (.alone rfl (.inr ⟨0, .unlinkat rfl rfl
      (State.path_of_chain (chain_child rfl rfl Nat.zero_lt_one (chain_root rfl rfl)))
      (.removed (Finset.mem_univ _) rfl)⟩)))
  have hsaid := ((hunlinked.next (.seen (.alone rfl (.inr ⟨0, .say rfl⟩)))).next
    (.seen (.alone rfl (.inr ⟨0, .readDone rfl rfl (.done rfl (fun c _ => hseen₁ c))⟩)))).next
    (.seen (.alone rfl (.inr ⟨0, .close rfl rfl⟩)))
  have hremoving := hsaid.next (.seen (.alone rfl (.inr ⟨0, .releaseLast rfl rfl rfl⟩)))
  have hremoved := hremoving.next (.seen (.alone rfl (.inr ⟨0, .remove rfl rfl
      (State.path_of_chain (chain_child rfl rfl Nat.zero_lt_one (chain_root rfl rfl)))
      (.rmdir (.removed hleft₁ rfl hempty₁))⟩)))
  have hfreed := (hremoved.next (.seen (.alone rfl (.inr ⟨0, .say rfl⟩)))).next
    (.seen (.alone rfl (.inr ⟨0, .delete rfl rfl⟩)))
  -- and the directory above it
  have hclimbed := hfreed.next (.seen (.alone rfl (.inr ⟨0, .releaseLast rfl rfl rfl⟩)))
  have hremovedRoot := hclimbed.next (.seen (.alone rfl (.inr ⟨0, .remove rfl rfl
      (State.path_of_chain (chain_root rfl rfl))
      (.rmdir (.removed hleft₀ rfl hempty₀))⟩)))
  have hfreedRoot := ((hremovedRoot.next (.seen (.alone rfl (.inr ⟨0, .say rfl⟩)))).next
    (.seen (.alone rfl (.inr ⟨0, .delete rfl rfl⟩)))).next (.hidden rfl (.inr ⟨0, .processed rfl⟩))
  have hfinished := hfreedRoot.next
    (.seen (.together rfl (.inr ⟨0, .subtract rfl⟩) (.inr ⟨0, .finish rfl⟩)))
  -- that was the last one: `Wait` returns
  have hwoken := (hfinished.next
    (.hidden rfl (.inr ⟨0, .wake rfl (show _ = ExtPc.asleep 1 from rfl)⟩))).next
    (.hidden rfl (.inl (.waitChanged (show _ = ExtPc.waitCheck 1 from rfl) (by decide))))
  have hzero := hwoken.next (.seen (.together rfl (.inl (.waitZero rfl rfl)) (.inl (.wait rfl))))
  exact ⟨_, _, _, _, _, _, ⟨hcalling, by decide +kernel, rfl⟩, ⟨hremoving, rfl⟩, hzero, rfl, rfl,
    by decide +kernel⟩

/-- With the bag the two nodes are started and finished, and `Wait` reads 0. -/
theorem removal_refines_folder : ∃ p, (bagRemoval removeFolder 1).Run (folderLabels 0 0 1 2) p ∧
    p.2.main = .returned 0 := by
  obtain ⟨-, -, -, -, tr, p, -, -, h, htr, hmain, -⟩ := removeFolder_run
  refine ⟨(p.1.bag, p.2), ?_, hmain⟩
  rw [← htr]
  exact removal_refines h

/-! ## Steps with the bag -/

/-- What a step with this label does to the bag. -/
def Label.Handed (l : Label W ι) (b b' : Bag W ℕ) : Prop :=
  match l.event with
  | none => b' = b
  | some e => Bag.Step b e b'

omit [DecidableEq ι] [Fintype ι] in
theorem openLabel_handed {i : ι} {e : Os.Errno} {b b' : Bag W ℕ}
    (h : (openLabel i e : Label W ι).Handed b b') : b' = b := by
  rw [openLabel] at h
  split_ifs at h <;> exact h

omit [DecidableEq ι] [Fintype ι] in
theorem removeLabel_handed {i : ι} {r : Option Os.Errno} {b b' : Bag W ℕ}
    (h : (removeLabel i r : Label W ι).Handed b b') : b' = b := by
  cases r with
  | none => exact h
  | some e =>
    rw [removeLabel] at h
    split_ifs at h <;> exact h

omit [DecidableEq ι] [Fintype ι] in
theorem handed_of_join [DecidableEq ι] [Fintype ι] {p p' : Bag W ℕ × State W ι} {l : Label W ι}
    (h : (bagRemoval job W).step p l p') : l.Handed p.1 p'.1 := by
  rw [Label.Handed]
  cases h with
  | alone hnone _ => rw [hnone]
  | together hsome hbag _ =>
    rw [hsome]
    exact hbag

/-- Before the first operand, with an empty bag. -/
theorem bagRemoval_init {p : Bag W ℕ × State W ι} (h : (bagRemoval job W).init p) :
    p = (⟨0, fun _ => none, false⟩, .initial job W) := Prod.ext h.1 h.2

/-- Invariant rule: what holds at first and what the workers and the main thread keep holds in
    every run. -/
theorem bagRemoval_invariant {I : Bag W ℕ → State W ι → Prop}
    (start : I ⟨0, fun _ => none, false⟩ (.initial job W))
    (worker : ∀ b s l b' s' w, I b s → WorkerStep job w s l s' → l.Handed b b' → I b' s')
    (main : ∀ b s l b' s', I b s → MainStep job s l s' → l.Handed b b' → I b' s')
    {tr : List (Label W ι)} {p : Bag W ℕ × State W ι} (h : (bagRemoval job W).Run tr p) :
    I p.1 p.2 := by
  refine h.invariant_state (I := fun p => I p.1 p.2) ?_ ?_
  · intro p hinit
    rw [bagRemoval_init hinit]
    exact start
  · intro p l p' hp hstep
    have hhanded := handed_of_join hstep
    rcases hstep.right with hmain | ⟨w, hworker⟩
    · exact main _ _ _ _ _ hp hmain hhanded
    · exact worker _ _ _ _ _ w hp hworker hhanded

end Remmy.Removal
