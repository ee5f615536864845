import Remmy.CommandLine.Argv
import Remmy.CommandLine.ConfirmPrompt
import Remmy.DirNode.Path
import Remmy.Removal.Kernel
import Remmy.TaskScheduler.Bag

/-!
# The Threads of a Removal

`FileUnlinkWorker` and `RunRm` of `main.cpp`: what the workers and the thread that seeds them do,
one atomic operation or system call a step.

- Nodes are `DirNode`s on the heap; an address is a number and is not used twice, so that a step
  that uses a node after its `delete` is not possible.
- A call and what its thread does with the result before the next call are one step; a path is
  put together when it is needed, from the nodes up the parent chain.
- A call that is given a path finds what the path leads to at that moment: an operand's text may
  lead through an entry (a symbolic link, a directory before `..`) that is gone by then.
- The question of `-I` is asked and answered in one step, which shows nothing.
- A task is handed over in steps that show an event of the scheduler; which tasks there are to
  take is not said here.
- Of a node's descriptor there is only whether it is open; any open may be refused.
-/

namespace Remmy.Removal

open Remmy.Os Remmy.DirNode Remmy.CommandLine

universe u

/-! ## Nodes and outputs -/

/-- A `DirNode`; `entry` is the directory that it stands for. -/
structure Node (ι : Type u) where
  entry : ι
  parent : Option ℕ
  name : Bytes
  /-- `fd_.IsOpen()`. -/
  isOpen : Bool
  /-- `remaining_children_dirs_`. -/
  remaining : ℕ

/-- What is written: a line of `-v`, or a diagnostic. -/
inductive Output
  | line (path : Bytes)
  | warning (path : Bytes) (error : Errno)
  | isADirectory (path : Bytes)

/-- `path/name`. -/
def below (path name : Bytes) : Bytes := path ++ slash :: name

/-- The names from a node up its parent chain, if no node of the chain is gone.  A node is younger
    than its parent. -/
def chain {ι : Type u} (nodes : ℕ → Option (Node ι)) (n : ℕ) : Option (List Bytes) :=
  match nodes n with
  | none => none
  | some x =>
    match x.parent with
    | none => some [x.name]
    | some p => if p < n then (chain nodes p).map (x.name :: ·) else none

theorem chain_root {ι : Type u} {nodes : ℕ → Option (Node ι)} {n : ℕ} {x : Node ι}
    (hx : nodes n = some x) (hp : x.parent = none) : chain nodes n = some [x.name] := by
  rw [chain]
  simp only [hx, hp]

theorem chain_child {ι : Type u} {nodes : ℕ → Option (Node ι)} {n p : ℕ} {x : Node ι}
    {names : List Bytes} (hx : nodes n = some x) (hp : x.parent = some p) (hlt : p < n)
    (hnames : chain nodes p = some names) : chain nodes n = some (x.name :: names) := by
  rw [chain]
  simp only [hx, hp, hlt, if_true, hnames, Option.map_some]

/-! ## Where the threads stand -/

/-- What a worker does after it has written something. -/
inductive After (ι : Type u)
  | read (n : ℕ) (seen : Finset ι)
  | close (n : ℕ)
  | delete (n : ℕ)
  | discard (n : ℕ)

/-- Where a worker stands in `Process`; `n` is the node it works on, `seen` are the entries that
    the directory read has returned, `c` is the one it has to do with. -/
inductive Pc (ι : Type u)
  | idle
  | openNode (n : ℕ)
  | resubmit (n : ℕ)
  /-- `RemoveEmptyLogged(task)` under `-f`; the open has failed with `error`. -/
  | forceRemove (n : ℕ) (error : Errno)
  /-- `delete task` of a node that was not opened. -/
  | discard (n : ℕ)
  | read (n : ℕ) (seen : Finset ι)
  | fstatat (n : ℕ) (seen : Finset ι) (c : ι)
  | unlinkat (n : ℕ) (seen : Finset ι) (c : ι)
  | child (n : ℕ) (seen : Finset ι) (c : ι)
  /-- `unlinkat` with `AT_REMOVEDIR` under `-f`; the open has failed with `error`. -/
  | forceUnlinkat (n : ℕ) (seen : Finset ι) (c : ι) (error : Errno)
  | makeChild (n : ℕ) (seen : Finset ι) (c : ι) (opened : Bool)
  | countChild (n : ℕ) (seen : Finset ι) (child : ℕ)
  | submitChild (n : ℕ) (seen : Finset ι) (child : ℕ)
  | close (n : ℕ)
  /-- `fetch_sub` in `MaybeCleanupDirNode`. -/
  | release (n : ℕ)
  | remove (n : ℕ)
  | delete (n : ℕ)
  | say (o : Output) (after : After ι)
  | done

/-- An operand of `RunRm`: its text, and the entry that `lstat` finds when nothing has been removed
    yet, or the error it fails with. -/
structure Operand (ι : Type u) where
  text : Bytes
  target : Except Errno ι

/-- Where `RunRm` stands; `rest` are the operands after this one. -/
inductive MainPc (ι : Type u)
  /-- Before `ConfirmPromptOnce`. -/
  | prompt (operands : List (Operand ι))
  /-- `return 1` after the question of `-I`. -/
  | declined (operands : List (Operand ι))
  | lstat (operands : List (Operand ι))
  | unlink (text : Bytes) (i : ι) (rest : List (Operand ι))
  | rmdir (text : Bytes) (i : ι) (rest : List (Operand ι))
  | openDir (text : Bytes) (i : ι) (rest : List (Operand ι))
  | forceRmdir (text : Bytes) (i : ι) (error : Errno) (rest : List (Operand ι))
  /-- `SeedRoot`. -/
  | seed (text : Bytes) (i : ι) (rest : List (Operand ι))
  | submit (n : ℕ) (rest : List (Operand ι))
  | say (o : Output) (rest : List (Operand ι))
  | returned (status : ℕ)

/-- The exit status, when `RunRm` has returned. -/
def MainPc.status {ι : Type u} : MainPc ι → Option ℕ
  | .declined _ => some 1
  | .returned status => some status
  | _ => none

/-- What a run is about: the tree, the calls that fail, the command line. -/
structure Job (ι : Type u) where
  tree : Tree ι
  faults : Faults ι
  /-- The entries, other than the directories above what it leads to, that the path in an operand's
      text leads through. -/
  through : Bytes → Finset ι
  options : Options
  /-- Standard input. -/
  input : Io.BufferedReader UInt8 Errno
  /-- `GetEUid() == 0`. -/
  superuser : Bool
  pathMax : ℕ
  operands : List (Operand ι)
  /-- `HasDroppedOperands()`; the messages about them are written before `RunRm`. -/
  dropped : Bool

/-- The heap, the entries that are left, and where the threads stand. -/
structure State (W : ℕ) (ι : Type u) where
  nodes : ℕ → Option (Node ι)
  next : ℕ
  left : Finset ι
  workers : Fin W → Pc ι
  /-- `failures_` of each worker. -/
  workerFailures : Fin W → ℕ
  main : MainPc ι
  /-- `failures` of `RunRm`. -/
  failures : ℕ

/-- What a step shows. -/
inductive Label (W : ℕ) (ι : Type u)
  | scheduler (e : TaskScheduler.Event W ℕ)
  /-- An `unlink` or `rmdir` and its result. -/
  | removes (i : ι) (r : Option Errno)
  /-- A refusal for want of descriptors after which nothing is tried again. -/
  | givesUp (i : ι)
  /-- A refusal after which the directory is parked. -/
  | parks (n : ℕ)
  | news (n : ℕ)
  | deletes (n : ℕ)
  | writes (o : Output)
  | internal

/-- The event of the scheduler that a step takes part in. -/
def Label.event {W : ℕ} {ι : Type u} : Label W ι → Option (TaskScheduler.Event W ℕ)
  | .scheduler e => e.visible
  | _ => none

section Code

variable {W : ℕ} {ι : Type u}

/-- Going on after an output. -/
def After.pc : After ι → Pc ι
  | .read n seen => .read n seen
  | .close n => .close n
  | .delete n => .delete n
  | .discard n => .discard n

namespace State

variable (s : State W ι)

def setNode (n : ℕ) (x : Node ι) : State W ι :=
  { s with nodes := Function.update s.nodes n (some x) }

/-- `new DirNode`. -/
def new (x : Node ι) : State W ι :=
  { s with nodes := Function.update s.nodes s.next (some x), next := s.next + 1 }

/-- `delete`. -/
def delete (n : ℕ) : State W ι := { s with nodes := Function.update s.nodes n none }

def setWorker (w : Fin W) (pc : Pc ι) : State W ι :=
  { s with workers := Function.update s.workers w pc }

def setMain (pc : MainPc ι) : State W ι := { s with main := pc }

/-- `failures_++`. -/
def fail (w : Fin W) : State W ι :=
  { s with workerFailures := Function.update s.workerFailures w (s.workerFailures w + 1) }

/-- `++failures` in `RunRm`. -/
def failMain : State W ι := { s with failures := s.failures + 1 }

/-- `PathInto`. -/
def path (n : ℕ) : Option Bytes := (chain s.nodes n).map pathInto

theorem path_of_chain {s : State W ι} {n : ℕ} {names : List Bytes}
    (h : chain s.nodes n = some names) : s.path n = some (pathInto names) := by
  rw [path, h]
  rfl

section Fields

variable (n : ℕ) (x : Node ι) (w : Fin W) (pc : Pc ι)

@[simp] theorem setNode_nodes : (s.setNode n x).nodes = Function.update s.nodes n (some x) := rfl
@[simp] theorem setNode_left : (s.setNode n x).left = s.left := rfl
@[simp] theorem setNode_main : (s.setNode n x).main = s.main := rfl
@[simp] theorem new_nodes : (s.new x).nodes = Function.update s.nodes s.next (some x) := rfl
@[simp] theorem new_left : (s.new x).left = s.left := rfl
@[simp] theorem new_main : (s.new x).main = s.main := rfl
@[simp] theorem delete_nodes : (s.delete n).nodes = Function.update s.nodes n none := rfl
@[simp] theorem delete_left : (s.delete n).left = s.left := rfl
@[simp] theorem delete_main : (s.delete n).main = s.main := rfl
@[simp] theorem setWorker_nodes : (s.setWorker w pc).nodes = s.nodes := rfl
@[simp] theorem setWorker_left : (s.setWorker w pc).left = s.left := rfl
@[simp] theorem setWorker_main : (s.setWorker w pc).main = s.main := rfl
@[simp] theorem setWorker_workers :
    (s.setWorker w pc).workers = Function.update s.workers w pc := rfl

@[simp] theorem setMain_nodes (m : MainPc ι) : (s.setMain m).nodes = s.nodes := rfl
@[simp] theorem setMain_left (m : MainPc ι) : (s.setMain m).left = s.left := rfl
@[simp] theorem setMain_workers (m : MainPc ι) : (s.setMain m).workers = s.workers := rfl

end Fields

end State

variable [DecidableEq ι]

/-- An entry is gone. -/
def State.erase (s : State W ι) (i : ι) : State W ι := { s with left := s.left.erase i }

variable (job : Job ι)

/-- `LogIfRemoved(...) != 0 && errno != ENOENT`, then `failures_++` and `WarnAt`: what a worker does
    with the result of a removal. -/
def settle (s : State W ι) (w : Fin W) (i : ι) (r : Option Errno) (path : Bytes)
    (code : Errno → Errno) (after : After ι) : State W ι :=
  match r with
  | none =>
    if job.options.verbose then (s.erase i).setWorker w (.say (.line path) after)
    else (s.erase i).setWorker w after.pc
  | some e =>
    if e = .enoent then s.setWorker w after.pc
    else (s.fail w).setWorker w (.say (.warning path (code e)) after)

/-- The same in the operand loop; `ignored` are the errors that do not count. -/
def settleMain (s : State W ι) (i : ι) (r : Option Errno) (path : Bytes) (code : Errno → Errno)
    (ignored : Errno → Bool) (rest : List (Operand ι)) : State W ι :=
  match r with
  | none =>
    if job.options.verbose then (s.erase i).setMain (.say (.line path) rest)
    else (s.erase i).setMain (.lstat rest)
  | some e =>
    if ignored e then s.setMain (.lstat rest)
    else s.failMain.setMain (.say (.warning path (code e)) rest)

/-! ## Paths -/

/-- The entries that the path in `text` can lead to: what is left, unless it leads through an entry
    that is gone. -/
def Job.found (left : Finset ι) (text : Bytes) : Finset ι :=
  if job.through text ⊆ left then left else ∅

/-- `lstat` of an operand. -/
def Job.lstat (left : Finset ι) (o : Operand ι) : Except Errno ι :=
  if job.through o.text ⊆ left then
    match o.target with
    | .ok i => if i ∈ left then .ok i else .error .enoent
    | .error e => .error e
  else .error .enoent

/-- The operand that the path of a node starts with. -/
def State.operandText (s : State W ι) (n : ℕ) : Bytes :=
  ((chain s.nodes n).bind List.getLast?).getD []

/-- The entries that the path of a node can lead to. -/
def State.view (s : State W ι) (n : ℕ) : Finset ι := job.found s.left (s.operandText n)

/-! ## The question of `-I` -/

/-- `ConfirmPromptOnce`, which is called when nothing has been removed yet. -/
def Job.confirmPromptOnce : Verdict Errno :=
  CommandLine.confirmPromptOnce
    (job.operands.map fun o => ⟨o.text, o.target.toOption.map job.tree.isDir⟩)
    job.options.recursive job.input

/-- `prompt_once && !ConfirmPromptOnce(...)` does not hold. -/
def Job.confirms : Bool := !job.options.promptOnce || job.confirmPromptOnce.goAhead

/-! ## Results -/

/-- `!force || error != ENOENT` does not hold. -/
def Job.ignores (e : Errno) : Bool := job.options.force && e = .enoent

/-- `lstat` of an operand has failed and is not reported. -/
def Job.ignoresLstat (e : Errno) : Bool :=
  job.options.force && job.options.recursive && !job.superuser || job.ignores e

/-- `is_dir` of an entry that was read: go on with it as a file or as a directory. -/
def entryPc (n : ℕ) (seen : Finset ι) (c : ι) (isDir : Bool) : Pc ι :=
  if isDir then .child n seen c else .unlinkat n seen c

/-- Go on with an entry that was read. -/
def Job.entryRead (n : ℕ) (seen : Finset ι) (c : ι) : Pc ι :=
  if job.tree.typeKnown c then entryPc n (insert c seen) c (job.tree.isDir c)
  else .fstatat n (insert c seen) c

/-- What a failed open that is final shows. -/
def openLabel (i : ι) (e : Errno) : Label W ι :=
  if e.outOfDescriptors then .givesUp i else .internal

/-- What a removal shows. -/
def removeLabel (i : ι) (r : Option Errno) : Label W ι :=
  match r with
  | some e => if e.outOfDescriptors then .givesUp i else .removes i r
  | none => .removes i r

/-- `DirNode::RemoveEmpty` of the node whose path is `path`: a path that is too long for `rmdir`
    needs a descriptor for its parent. -/
inductive RemovesEmpty (left : Finset ι) (i : ι) (path : Bytes) : Option Errno → Prop
  | rmdir {r : Option Errno} : Rmdirs job.tree job.faults left i r → RemovesEmpty left i path r
  | refused {e : Errno} : job.pathMax ≤ path.length → e.outOfDescriptors = true →
      RemovesEmpty left i path (some e)

/-- After `delete`: the parent, or nothing more. -/
def climb (parent : Option ℕ) : Pc ι :=
  match parent with
  | none => .done
  | some p => .release p

/-! ## Steps -/

/-- A step of worker `w`. -/
inductive WorkerStep (w : Fin W) : State W ι → Label W ι → State W ι → Prop
  | start {s : State W ι} {n : ℕ} : s.workers w = .idle →
      WorkerStep w s (.scheduler (.start w n)) (s.setWorker w (.openNode n))
  /-- `Open` of a node that is open. -/
  | openReady {s : State W ι} {n : ℕ} {x : Node ι} : s.workers w = .openNode n →
      s.nodes n = some x → x.isOpen = true → WorkerStep w s .internal (s.setWorker w (.read n ∅))
  | opened {s : State W ι} {n : ℕ} {x : Node ι} {path : Bytes} : s.workers w = .openNode n →
      s.nodes n = some x → x.isOpen = false → s.path n = some path →
      Opens job.faults (s.view job n) x.entry (.ok ()) →
      WorkerStep w s .internal ((s.setNode n { x with isOpen := true }).setWorker w (.read n ∅))
  | parked {s : State W ι} {n : ℕ} {x : Node ι} {path : Bytes} {e : OpenError} :
      s.workers w = .openNode n → s.nodes n = some x → x.isOpen = false → s.path n = some path →
      Opens job.faults (s.view job n) x.entry (.error e) → e.retryable = true →
      WorkerStep w s (.parks n) (s.setWorker w (.resubmit n))
  | openFailed {s : State W ι} {n : ℕ} {x : Node ι} {path : Bytes} {e : OpenError} :
      s.workers w = .openNode n → s.nodes n = some x → x.isOpen = false → s.path n = some path →
      Opens job.faults (s.view job n) x.entry (.error e) → e.retryable = false →
      job.options.force = false →
      WorkerStep w s (openLabel x.entry e.code)
        ((s.fail w).setWorker w (.say (.warning path e.code) (.discard n)))
  | openFailedForce {s : State W ι} {n : ℕ} {x : Node ι} {path : Bytes} {e : OpenError} :
      s.workers w = .openNode n → s.nodes n = some x → x.isOpen = false → s.path n = some path →
      Opens job.faults (s.view job n) x.entry (.error e) → e.retryable = false →
      job.options.force = true →
      WorkerStep w s (openLabel x.entry e.code) (s.setWorker w (.forceRemove n e.code))
  /-- `ctx.Submit(task, kAwaitingDescriptor)`. -/
  | resubmit {s : State W ι} {n : ℕ} : s.workers w = .resubmit n →
      WorkerStep w s (.scheduler (.submit n)) (s.setWorker w .done)
  | forceRemove {s : State W ι} {n : ℕ} {x : Node ι} {path : Bytes} {e : Errno}
      {r : Option Errno} : s.workers w = .forceRemove n e → s.nodes n = some x →
      s.path n = some path → RemovesEmpty job (s.view job n) x.entry path r →
      WorkerStep w s (removeLabel x.entry r)
        (settle job s w x.entry r path (fun _ => e) (.discard n))
  | discard {s : State W ι} {n : ℕ} {x : Node ι} : s.workers w = .discard n →
      s.nodes n = some x → WorkerStep w s (.deletes n) ((s.delete n).setWorker w (climb x.parent))
  | readEntry {s : State W ι} {n : ℕ} {seen : Finset ι} {x : Node ι} {c : ι} :
      s.workers w = .read n seen → s.nodes n = some x →
      Reads job.tree job.faults s.left x.entry seen (some (.ok c)) →
      WorkerStep w s .internal (s.setWorker w (job.entryRead n seen c))
  | readDone {s : State W ι} {n : ℕ} {seen : Finset ι} {x : Node ι} :
      s.workers w = .read n seen → s.nodes n = some x →
      Reads job.tree job.faults s.left x.entry seen none →
      WorkerStep w s .internal (s.setWorker w (.close n))
  | readFailed {s : State W ι} {n : ℕ} {seen : Finset ι} {x : Node ι} {path : Bytes} {e : Errno} :
      s.workers w = .read n seen → s.nodes n = some x → s.path n = some path →
      Reads job.tree job.faults s.left x.entry seen (some (.error e)) →
      WorkerStep w s .internal ((s.fail w).setWorker w (.say (.warning path e) (.close n)))
  | stat {s : State W ι} {n : ℕ} {seen : Finset ι} {x : Node ι} {c : ι} {isDir : Bool} :
      s.workers w = .fstatat n seen c → s.nodes n = some x →
      Stats job.tree job.faults s.left c (.ok isDir) →
      WorkerStep w s .internal (s.setWorker w (entryPc n seen c isDir))
  | statAbsent {s : State W ι} {n : ℕ} {seen : Finset ι} {x : Node ι} {c : ι} :
      s.workers w = .fstatat n seen c → s.nodes n = some x →
      Stats job.tree job.faults s.left c (.error .enoent) →
      WorkerStep w s .internal (s.setWorker w (.read n seen))
  | statFailed {s : State W ι} {n : ℕ} {seen : Finset ι} {x : Node ι} {c : ι} {path : Bytes}
      {e : Errno} : s.workers w = .fstatat n seen c → s.nodes n = some x → s.path n = some path →
      Stats job.tree job.faults s.left c (.error e) → e ≠ .enoent →
      WorkerStep w s .internal ((s.fail w).setWorker w
        (.say (.warning (below path (job.tree.name c)) e) (.read n seen)))
  | unlinkat {s : State W ι} {n : ℕ} {seen : Finset ι} {x : Node ι} {c : ι} {path : Bytes}
      {r : Option Errno} : s.workers w = .unlinkat n seen c → s.nodes n = some x →
      s.path n = some path → Unlinks job.faults s.left c r →
      WorkerStep w s (.removes c r)
        (settle job s w c r (below path (job.tree.name c)) id (.read n seen))
  /-- `Pool::Exhausted()`: the child is not opened now. -/
  | exhausted {s : State W ι} {n : ℕ} {seen : Finset ι} {c : ι} : s.workers w = .child n seen c →
      WorkerStep w s .internal (s.setWorker w (.makeChild n seen c false))
  | childOpened {s : State W ι} {n : ℕ} {seen : Finset ι} {x : Node ι} {c : ι} :
      s.workers w = .child n seen c → s.nodes n = some x → Opens job.faults s.left c (.ok ()) →
      WorkerStep w s .internal (s.setWorker w (.makeChild n seen c true))
  | childRefused {s : State W ι} {n : ℕ} {seen : Finset ι} {x : Node ι} {c : ι} {e : OpenError} :
      s.workers w = .child n seen c → s.nodes n = some x → Opens job.faults s.left c (.error e) →
      e.retryable = true → WorkerStep w s .internal (s.setWorker w (.makeChild n seen c false))
  | childFailed {s : State W ι} {n : ℕ} {seen : Finset ι} {x : Node ι} {c : ι} {path : Bytes}
      {e : OpenError} : s.workers w = .child n seen c → s.nodes n = some x →
      s.path n = some path → Opens job.faults s.left c (.error e) → e.retryable = false →
      job.options.force = false →
      WorkerStep w s (openLabel c e.code) ((s.fail w).setWorker w
        (.say (.warning (below path (job.tree.name c)) e.code) (.read n seen)))
  | childFailedForce {s : State W ι} {n : ℕ} {seen : Finset ι} {x : Node ι} {c : ι}
      {e : OpenError} : s.workers w = .child n seen c → s.nodes n = some x →
      Opens job.faults s.left c (.error e) → e.retryable = false → job.options.force = true →
      WorkerStep w s (openLabel c e.code) (s.setWorker w (.forceUnlinkat n seen c e.code))
  | forceUnlinkat {s : State W ι} {n : ℕ} {seen : Finset ι} {x : Node ι} {c : ι} {path : Bytes}
      {e : Errno} {r : Option Errno} : s.workers w = .forceUnlinkat n seen c e →
      s.nodes n = some x → s.path n = some path → Rmdirs job.tree job.faults s.left c r →
      WorkerStep w s (.removes c r)
        (settle job s w c r (below path (job.tree.name c)) (fun _ => e) (.read n seen))
  | makeChild {s : State W ι} {n : ℕ} {seen : Finset ι} {c : ι} {opened : Bool} :
      s.workers w = .makeChild n seen c opened →
      WorkerStep w s (.news s.next) ((s.new
        { entry := c, parent := some n, name := job.tree.name c, isOpen := opened,
          remaining := 1 }).setWorker w (.countChild n seen s.next))
  /-- `task->remaining_children_dirs_.fetch_add(1)`. -/
  | countChild {s : State W ι} {n m : ℕ} {seen : Finset ι} {x : Node ι} :
      s.workers w = .countChild n seen m → s.nodes n = some x →
      WorkerStep w s .internal
        ((s.setNode n { x with remaining := (x.remaining + 1) % 2 ^ 32 }).setWorker w
          (.submitChild n seen m))
  | submitChild {s : State W ι} {n m : ℕ} {seen : Finset ι} : s.workers w = .submitChild n seen m →
      WorkerStep w s (.scheduler (.submit m)) (s.setWorker w (.read n seen))
  /-- `task->fd_.Close()`. -/
  | close {s : State W ι} {n : ℕ} {x : Node ι} : s.workers w = .close n → s.nodes n = some x →
      WorkerStep w s .internal ((s.setNode n { x with isOpen := false }).setWorker w (.release n))
  /-- `fetch_sub(1) != 1`. -/
  | releaseShared {s : State W ι} {n : ℕ} {x : Node ι} : s.workers w = .release n →
      s.nodes n = some x → x.remaining ≠ 1 →
      WorkerStep w s .internal
        ((s.setNode n { x with remaining := (x.remaining + (2 ^ 32 - 1)) % 2 ^ 32 }).setWorker w
          .done)
  | releaseLast {s : State W ι} {n : ℕ} {x : Node ι} : s.workers w = .release n →
      s.nodes n = some x → x.remaining = 1 →
      WorkerStep w s .internal ((s.setNode n { x with remaining := 0 }).setWorker w (.remove n))
  | remove {s : State W ι} {n : ℕ} {x : Node ι} {path : Bytes} {r : Option Errno} :
      s.workers w = .remove n → s.nodes n = some x → s.path n = some path →
      RemovesEmpty job (s.view job n) x.entry path r →
      WorkerStep w s (removeLabel x.entry r) (settle job s w x.entry r path id (.delete n))
  | delete {s : State W ι} {n : ℕ} {x : Node ι} : s.workers w = .delete n →
      s.nodes n = some x → WorkerStep w s (.deletes n) ((s.delete n).setWorker w (climb x.parent))
  | say {s : State W ι} {o : Output} {after : After ι} : s.workers w = .say o after →
      WorkerStep w s (.writes o) (s.setWorker w after.pc)
  | finish {s : State W ι} {n : ℕ} : s.workers w = .done →
      WorkerStep w s (.scheduler (.finish w n)) (s.setWorker w .idle)

/-- A step of the thread that runs `RunRm`. -/
inductive MainStep : State W ι → Label W ι → State W ι → Prop
  | confirmed {s : State W ι} {operands : List (Operand ι)} : s.main = .prompt operands →
      job.confirms = true → MainStep s .internal (s.setMain (.lstat operands))
  | declined {s : State W ι} {operands : List (Operand ι)} : s.main = .prompt operands →
      job.confirms = false → MainStep s .internal (s.setMain (.declined operands))
  | lstatFailed {s : State W ι} {o : Operand ι} {e : Errno} {rest : List (Operand ι)} :
      s.main = .lstat (o :: rest) → job.lstat s.left o = .error e →
      MainStep s .internal
        (if job.ignoresLstat e then s.setMain (.lstat rest)
        else s.failMain.setMain (.say (.warning o.text e) rest))
  | isFile {s : State W ι} {o : Operand ι} {i : ι} {rest : List (Operand ι)} :
      s.main = .lstat (o :: rest) → job.lstat s.left o = .ok i → job.tree.isDir i = false →
      MainStep s .internal (s.setMain (.unlink o.text i rest))
  | isDir {s : State W ι} {o : Operand ι} {i : ι} {rest : List (Operand ι)} :
      s.main = .lstat (o :: rest) → job.lstat s.left o = .ok i → job.tree.isDir i = true →
      MainStep s .internal
        (if job.options.recursive then s.setMain (.openDir o.text i rest)
        else if job.options.dir then s.setMain (.rmdir o.text i rest)
        else s.failMain.setMain (.say (.isADirectory o.text) rest))
  | unlink {s : State W ι} {text : Bytes} {i : ι} {rest : List (Operand ι)} {r : Option Errno} :
      s.main = .unlink text i rest → Unlinks job.faults (job.found s.left text) i r →
      MainStep s (.removes i r) (settleMain job s i r text id job.ignores rest)
  | rmdir {s : State W ι} {text : Bytes} {i : ι} {rest : List (Operand ι)} {r : Option Errno} :
      s.main = .rmdir text i rest → Rmdirs job.tree job.faults (job.found s.left text) i r →
      MainStep s (.removes i r) (settleMain job s i r text id job.ignores rest)
  | opened {s : State W ι} {text : Bytes} {i : ι} {rest : List (Operand ι)} :
      s.main = .openDir text i rest → Opens job.faults (job.found s.left text) i (.ok ()) →
      MainStep s .internal (s.setMain (.seed text i rest))
  /-- A refusal is not told from other errors here. -/
  | openFailed {s : State W ι} {text : Bytes} {i : ι} {rest : List (Operand ι)} {e : OpenError} :
      s.main = .openDir text i rest → Opens job.faults (job.found s.left text) i (.error e) →
      MainStep s (openLabel i e.code)
        (if job.options.force then s.setMain (.forceRmdir text i e.code rest)
        else s.failMain.setMain (.say (.warning text e.code) rest))
  | forceRmdir {s : State W ι} {text : Bytes} {i : ι} {e : Errno} {rest : List (Operand ι)}
      {r : Option Errno} : s.main = .forceRmdir text i e rest →
      Rmdirs job.tree job.faults (job.found s.left text) i r →
      MainStep s (.removes i r)
        (settleMain job s i r text (fun _ => e) (fun e => decide (e = .enoent)) rest)
  | seed {s : State W ι} {text : Bytes} {i : ι} {rest : List (Operand ι)} :
      s.main = .seed text i rest →
      MainStep s (.news s.next) ((s.new
        { entry := i, parent := none, name := text, isOpen := true, remaining := 1 }).setMain
          (.submit s.next rest))
  | submit {s : State W ι} {n : ℕ} {rest : List (Operand ι)} : s.main = .submit n rest →
      MainStep s (.scheduler (.submit n)) (s.setMain (.lstat rest))
  | say {s : State W ι} {o : Output} {rest : List (Operand ι)} : s.main = .say o rest →
      MainStep s (.writes o) (s.setMain (.lstat rest))
  /-- `Wait` has returned, and the failures are added up. -/
  | wait {s : State W ι} : s.main = .lstat [] →
      MainStep s (.scheduler .sawZero)
        (s.setMain (.returned (if s.failures + ∑ w, s.workerFailures w = 0 then 0 else 1)))

/-- Before the first statement of `RunRm`. -/
def State.initial (W : ℕ) [Fintype ι] : State W ι where
  nodes _ := none
  next := 0
  left := Finset.univ
  workers _ := .idle
  workerFailures _ := 0
  main := .prompt job.operands
  failures := if job.dropped then 1 else 0

/-- The threads of a removal. -/
def threads (W : ℕ) [Fintype ι] : Lib.System (State W ι) (Label W ι) where
  init s := s = .initial job W
  step s l s' := MainStep job s l s' ∨ ∃ w, WorkerStep job w s l s'

end Code

end Remmy.Removal
