import Remmy.Lib.Forest
import Remmy.Bytes
import Remmy.Os.Errno

/-!
# What the Kernel Answers

The entries a removal may reach, as a forest of files and directories, and the answers of the
system calls while only this process changes it.

- `left` are the entries that are still there.
- A call may be made to fail: `Faults` says which calls on which entries fail whenever they are
  made, and with what error.
- An open may be refused for want of descriptors, any open at any time.
-/

namespace Remmy.Removal

open Remmy.Os

universe u

variable {ι : Type u}

/-- Files and directories, each in the directory `up`, or in none of these. -/
structure Tree (ι : Type u) extends Lib.Forest ι where
  isDir : ι → Bool
  name : ι → Bytes
  /-- Whether a directory read gives the type (`d_type` is not `DT_UNKNOWN`). -/
  typeKnown : ι → Bool
  isDir_up : ∀ {i d : ι}, up i = some d → isDir d = true

/-- `ENOTEMPTY`, as macOS numbers it. -/
def enotempty : Errno := .other 66

/-- An error that a call can be made to fail with: the code looks for `ENOENT` and for a want of
    descriptors itself. -/
def Errno.IsFault (e : Errno) : Prop := e ≠ .enoent ∧ e.outOfDescriptors = false

/-- The calls that are made to fail. -/
structure Faults (ι : Type u) where
  openDir : ι → Option Errno
  fstatat : ι → Option Errno
  /-- `unlink`, or `unlinkat` of a file. -/
  unlink : ι → Option Errno
  /-- `rmdir`, or `unlinkat` of a directory. -/
  rmdir : ι → Option Errno
  /-- The read of a directory, after the entries that are not `unread`. -/
  read : ι → Option Errno
  unread : ι → Bool
  isFault : ∀ {i : ι} {e : Errno}, openDir i = some e ∨ fstatat i = some e ∨ unlink i = some e ∨
    rmdir i = some e ∨ read i = some e → Errno.IsFault e

variable (tree : Tree ι) (faults : Faults ι) (left : Finset ι)

/-- An entry that a failed read of its directory did not return. -/
def Lost (c : ι) : Prop :=
  faults.unread c = true ∧ ∃ d e, tree.up c = some d ∧ faults.read d = some e

/-- `open` and `openat` with `O_DIRECTORY` of a directory. -/
inductive Opens (i : ι) : Except OpenError Unit → Prop
  | opened : i ∈ left → faults.openDir i = none → Opens i (.ok ())
  | absent : i ∉ left → Opens i (.error ⟨.enoent, false⟩)
  | fault {e : Errno} : faults.openDir i = some e → Opens i (.error ⟨e, false⟩)
  /-- Out of descriptors; the pool says whether one of ours will be freed. -/
  | refused {e : OpenError} : e.code.outOfDescriptors = true → Opens i (.error e)

/-- `fstatat` of an entry: whether it is a directory. -/
inductive Stats (i : ι) : Except Errno Bool → Prop
  | found : i ∈ left → faults.fstatat i = none → Stats i (.ok (tree.isDir i))
  | absent : i ∉ left → Stats i (.error .enoent)
  | fault {e : Errno} : faults.fstatat i = some e → Stats i (.error e)

/-- `unlink` of a file, `none` if it succeeds. -/
inductive Unlinks (i : ι) : Option Errno → Prop
  | removed : i ∈ left → faults.unlink i = none → Unlinks i none
  | absent : i ∉ left → Unlinks i (some .enoent)
  | fault {e : Errno} : faults.unlink i = some e → Unlinks i (some e)

/-- `rmdir` of a directory, `none` if it succeeds. -/
inductive Rmdirs (i : ι) : Option Errno → Prop
  | removed : i ∈ left → faults.rmdir i = none → (∀ c, tree.up c = some i → c ∉ left) →
      Rmdirs i none
  | notEmpty {c : ι} : tree.up c = some i → c ∈ left → Rmdirs i (some enotempty)
  | absent : i ∉ left → Rmdirs i (some .enoent)
  | fault {e : Errno} : faults.rmdir i = some e → Rmdirs i (some e)

/-- The next element of the range `DirReader::Read(fd)` of directory `d` after the entries `seen`;
    `none` if the range ends.  An entry that was removed in between may still be returned, one
    that is there the whole time always is. -/
inductive Reads (d : ι) (seen : Finset ι) : Option (Except Errno ι) → Prop
  | entry {c : ι} : tree.up c = some d → c ∉ seen → ¬Lost tree faults c → Reads d seen (some (.ok c))
  | done : faults.read d = none → (∀ c ∈ left, tree.up c = some d → c ∈ seen) → Reads d seen none
  | fault {e : Errno} : faults.read d = some e →
      (∀ c ∈ left, tree.up c = some d → ¬Lost tree faults c → c ∈ seen) →
      Reads d seen (some (.error e))
  | absent : d ∉ left → Reads d seen (some (.error .enoent))

variable {tree faults left}

/-- What is left of the tree after a removal is grown again. -/
theorem Rmdirs.grown [DecidableEq ι] {i : ι} (h : Rmdirs tree faults left i none)
    (hleft : tree.Grown left) : tree.Grown (left.erase i) := by
  cases h with
  | removed _ _ hempty => exact hleft.erase hempty

/-- A file has nothing below it. -/
theorem no_child_of_file {i c : ι} (hfile : tree.isDir i = false) : tree.up c ≠ some i := by
  intro hup
  rw [tree.isDir_up hup] at hfile
  cases hfile

end Remmy.Removal
