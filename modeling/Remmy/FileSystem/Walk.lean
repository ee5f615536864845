import Remmy.Lib.Components
import Remmy.Bytes

/-!
# Path Resolution

A file system as the graph that path resolution walks: the entries of each directory,
symbolic links included, and where `..` leads.

- `Walk` follows components one by one from a directory to a directory.
- `Reach` is what a path names when it is opened as a directory, with or without
  `O_NOFOLLOW`.
- A walk says nothing about permissions, loops of links or limits: these make a call
  fail, they do not change what it finds.
-/

namespace Remmy.FileSystem

open Remmy.Lib

universe u

/-- What an entry of a directory is. -/
inductive Object (ι : Type u)
  | dir (i : ι)
  | file
  | link (target : Bytes)
  deriving DecidableEq

/-- Directories `ι`, their entries by name, and where `..` leads from each. -/
structure FileTree (ι : Type u) where
  root : ι
  /-- The working directory. -/
  cwd : ι
  up : ι → ι
  entry : ι → Bytes → Option (Object ι)

variable {ι : Type u}

/-- `.`, which names the directory itself. -/
def self : Bytes := text "."

/-- `..`, which names the directory above. -/
def parent : Bytes := text ".."

namespace FileTree

variable (fs : FileTree ι)

/-- Where the resolution of a path starts. -/
def base (d : ι) (path : Bytes) : ι := if path.head? = some slash then fs.root else d

/-- `fs.Walk d cs e`: from `d`, the components `cs` lead to the directory `e`, through links
    wherever there are any. -/
inductive Walk : ι → List Bytes → ι → Prop
  | nil (d : ι) : Walk d [] d
  | self {d e : ι} {cs : List Bytes} : Walk d cs e → Walk d (self :: cs) e
  | up {d e : ι} {cs : List Bytes} : Walk (fs.up d) cs e → Walk d (parent :: cs) e
  | dir {d i e : ι} {c : Bytes} {cs : List Bytes} : c ≠ FileSystem.self → c ≠ parent →
      fs.entry d c = some (.dir i) → Walk i cs e → Walk d (c :: cs) e
  | link {d m e : ι} {c target : Bytes} {cs : List Bytes} : c ≠ FileSystem.self → c ≠ parent →
      fs.entry d c = some (.link target) → Walk (fs.base d target) (components slash target) m →
      Walk m cs e → Walk d (c :: cs) e

/-- The last component of a path, looked up without following it, is no link. -/
def EndsInLink (d : ι) (path : Bytes) : Prop :=
  ∃ init c m target, components slash path = init ++ [c] ∧ c ≠ FileSystem.self ∧ c ≠ parent ∧
    fs.Walk (fs.base d path) init m ∧ fs.entry m c = some (.link target)

/-- `fs.Reach d path noFollow e`: opened relative to `d` as a directory, `path` is `e`.  A
    slash at the end follows a link even with `O_NOFOLLOW`. -/
structure Reach (d : ι) (path : Bytes) (noFollow : Bool) (e : ι) : Prop where
  nonempty : path ≠ []
  walk : fs.Walk (fs.base d path) (components slash path) e
  noLink : noFollow = true → path.getLast? ≠ some slash → ¬fs.EndsInLink d path

variable {fs}

namespace Walk

/-- A walk ends in one place. -/
theorem unique {d e e' : ι} {cs : List Bytes} (h : fs.Walk d cs e) (h' : fs.Walk d cs e') :
    e = e' := by
  induction h generalizing e' with
  | nil d =>
    cases h'
    rfl
  | self _ ih =>
    cases h' with
    | self h' => exact ih h'
    | dir hself => exact absurd rfl hself
    | link hself => exact absurd rfl hself
  | up _ ih =>
    cases h' with
    | up h' => exact ih h'
    | dir _ hparent => exact absurd rfl hparent
    | link _ hparent => exact absurd rfl hparent
  | dir hself hparent hentry _ ih =>
    -- The entry is what it is: a directory here cannot be a link there.
    cases h' with
    | self => exact absurd rfl hself
    | up => exact absurd rfl hparent
    | dir _ _ hentry' h' =>
      rw [hentry] at hentry'
      cases hentry'
      exact ih h'
    | link _ _ hentry' =>
      rw [hentry] at hentry'
      cases hentry'
  | link hself hparent hentry _ _ ihtarget ih =>
    cases h' with
    | self => exact absurd rfl hself
    | up => exact absurd rfl hparent
    | dir _ _ hentry' =>
      rw [hentry] at hentry'
      cases hentry'
    | link _ _ hentry' htarget h' =>
      rw [hentry] at hentry'
      cases hentry'
      rw [ihtarget htarget] at ih
      exact ih h'

/-- Two walks, one after the other. -/
theorem append {d m e : ι} {cs cs' : List Bytes} (h : fs.Walk d cs m) (h' : fs.Walk m cs' e) :
    fs.Walk d (cs ++ cs') e := by
  induction h with
  | nil d => exact h'
  | self _ ih => exact .self (ih h')
  | up _ ih => exact .up (ih h')
  | dir hself hparent hentry _ ih => exact .dir hself hparent hentry (ih h')
  | link hself hparent hentry htarget _ _ ih => exact .link hself hparent hentry htarget (ih h')

/-- A walk of two parts passes through a directory between them. -/
theorem split {d e : ι} {cs cs' : List Bytes} (h : fs.Walk d (cs ++ cs') e) :
    ∃ m, fs.Walk d cs m ∧ fs.Walk m cs' e := by
  induction cs generalizing d with
  | nil => exact ⟨d, .nil d, h⟩
  | cons c cs ih =>
    cases h with
    | self h =>
      obtain ⟨m, hm, he⟩ := ih h
      exact ⟨m, .self hm, he⟩
    | up h =>
      obtain ⟨m, hm, he⟩ := ih h
      exact ⟨m, .up hm, he⟩
    | dir hself hparent hentry h =>
      obtain ⟨m, hm, he⟩ := ih h
      exact ⟨m, .dir hself hparent hentry hm, he⟩
    | link hself hparent hentry htarget h =>
      obtain ⟨m, hm, he⟩ := ih h
      exact ⟨m, .link hself hparent hentry htarget hm, he⟩

end Walk

/-- A path names at most one directory. -/
theorem Reach.unique {d e e' : ι} {path : Bytes} {noFollow : Bool}
    (h : fs.Reach d path noFollow e) (h' : fs.Reach d path noFollow e') : e = e' :=
  h.walk.unique h'.walk

end FileTree

end Remmy.FileSystem
