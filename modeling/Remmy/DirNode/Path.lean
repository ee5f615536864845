import Remmy.Lib.Components
import Remmy.Bytes
import Mathlib.Algebra.BigOperators.Group.List.Basic

/-!
# Paths of Directory Nodes

How the path of a `DirNode` is built from the names of its parent chain, and how
`OpenLong` cuts a path that is `PATH_MAX` bytes or longer.

A chain is the list of the names from the node up to the root, whose name is the operand.
-/

namespace Remmy.DirNode

open Remmy.Lib

/-! ## PathInto -/

/-- The first pass of `PathInto`: the bytes needed. -/
def pathSize : List Bytes → ℕ
  | [] => 0
  | [root] => root.length
  | name :: parents => name.length + 1 + pathSize parents

/-- The second pass of `PathInto`, which writes in reverse order: `written` is what stands
    behind the cursor. -/
def pathFill : List Bytes → Bytes → Bytes
  | [], written => written
  | [root], written => root ++ written
  | name :: parents, written => pathFill parents (slash :: (name ++ written))

/-- `PathInto`. -/
def pathInto (chain : List Bytes) : Bytes := pathFill chain []

theorem pathSize_cons_cons (name parent : Bytes) (rest : List Bytes) :
    pathSize (name :: parent :: rest) = name.length + 1 + pathSize (parent :: rest) := rfl

theorem pathFill_cons_cons (name parent : Bytes) (rest : List Bytes) (written : Bytes) :
    pathFill (name :: parent :: rest) written =
      pathFill (parent :: rest) (slash :: (name ++ written)) := rfl

/-- The second pass writes as many bytes as the first one counted. -/
theorem length_pathFill (chain : List Bytes) (written : Bytes) :
    (pathFill chain written).length = pathSize chain + written.length := by
  induction chain generalizing written with
  | nil => simp [pathFill, pathSize]
  | cons name parents ih =>
    cases parents with
    | nil => simp [pathFill, pathSize]
    | cons parent rest =>
      rw [pathFill_cons_cons, ih, pathSize_cons_cons, List.length_cons, List.length_append]
      omega

theorem pathFill_append_root (names : List Bytes) (operand written : Bytes) :
    pathFill (names ++ [operand]) written =
      operand ++ names.reverse.flatMap (slash :: ·) ++ written := by
  induction names generalizing written with
  | nil => simp [pathFill]
  | cons name names ih =>
    rw [List.cons_append]
    cases hchain : names ++ [operand] with
    | nil => simp at hchain
    | cons parent rest =>
      rw [pathFill_cons_cons, ← hchain, ih]
      simp

/-- **The path of a chain**: the operand, and a slash before each name below it. -/
theorem pathInto_eq (operand : Bytes) (names : List Bytes) :
    pathInto (names.reverse ++ [operand]) = operand ++ names.flatMap (slash :: ·) := by
  rw [pathInto, pathFill_append_root, List.reverse_reverse, List.append_nil]

/-- A name that can stand in a directory. -/
def IsName (name : Bytes) : Prop := name ≠ [] ∧ slash ∉ name

theorem components_names {names : List Bytes} (h : ∀ name ∈ names, IsName name) :
    components slash (names.flatMap (slash :: ·)) = names := by
  induction names with
  | nil => rfl
  | cons name names ih =>
    have hname := h name List.mem_cons_self
    have hrest := ih fun n hn => h n (List.mem_cons_of_mem _ hn)
    rw [List.flatMap_cons, List.cons_append, components_cons_self]
    cases names with
    | nil => simpa using components_of_notMem hname.1 hname.2
    | cons next names =>
      rw [List.flatMap_cons, List.cons_append, components_append_cons,
        components_of_notMem hname.1 hname.2]
      rw [List.flatMap_cons, List.cons_append, components_cons_self] at hrest
      rw [hrest, List.singleton_append]

/-- The components of a chain's path are those of the operand and the names. -/
theorem components_path (operand : Bytes) {names : List Bytes} (h : ∀ name ∈ names, IsName name) :
    components slash (operand ++ names.flatMap (slash :: ·)) = components slash operand ++ names := by
  cases names with
  | nil => simp
  | cons name names =>
    have hnames := components_names h
    rw [List.flatMap_cons, List.cons_append, components_cons_self] at hnames
    rw [List.flatMap_cons, List.cons_append, components_append_cons, hnames]

/-! ## The pieces of OpenLong -/

/-- What one round of the loop of `OpenLong` finds. -/
inductive Piece
  /-- The path fits. -/
  | whole
  /-- No slash to cut at. -/
  | tooLong
  | piece (first rest : Bytes)

/-- One round of the loop of `OpenLong`. -/
def nextPiece (pathMax : ℕ) (path : Bytes) : Piece :=
  if path.length < pathMax then .whole
  else
    match rfind slash path (pathMax - 1) with
    | none => .tooLong
    | some 0 => .tooLong
    -- The rest is relative to what is opened, even after a doubled slash.
    | some (cut + 1) => .piece (path.take (cut + 1)) ((path.drop (cut + 1)).dropWhile (· = slash))

variable {pathMax : ℕ} {path first rest : Bytes}

theorem nextPiece_whole (h : path.length < pathMax) : nextPiece pathMax path = .whole :=
  if_pos h

/-- What a cut does: it is made at the last slash that fits, and not at the start. -/
theorem nextPiece_piece (h : nextPiece pathMax path = .piece first rest) :
    ∃ cut, 0 < cut ∧ rfind slash path (pathMax - 1) = some cut ∧ first = path.take cut ∧
      rest = (path.drop cut).dropWhile (· = slash) := by
  rw [nextPiece] at h
  split_ifs at h
  split at h
  · cases h
  · cases h
  · rename_i cut hcut
    cases h
    exact ⟨cut + 1, Nat.succ_pos cut, hcut, rfl, rfl⟩

/-- A cut leaves less to open. -/
theorem length_rest_lt (h : nextPiece pathMax path = .piece first rest) :
    rest.length < path.length := by
  obtain ⟨cut, hcut, hfind, -, rfl⟩ := nextPiece_piece h
  have hlt := (List.getElem?_eq_some_iff.mp (rfind_eq_some.mp hfind).2.1).1
  have hle := (List.dropWhile_suffix (fun x : UInt8 => decide (x = slash)) (l := path.drop cut)).length_le
  rw [List.length_drop] at hle
  omega

end Remmy.DirNode
