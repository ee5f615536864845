import Mathlib.Data.List.Flatten
import Mathlib.Data.List.Forall2

/-!
# `BufferedWriter`

A buffer in front of another writer, after `buffered_writer.hpp`.  A member function works on
the buffer alone and passes on calls of `WriteMany` of the writer behind it; these are the
second component of what the functions here return.

`writeMany_spec` and `flush_spec` say what becomes of calls: those held in the buffer are
passed on in whole groups, and none is lost, repeated or overtaken.
-/

namespace Remmy.Io

universe u v

variable {α : Type u}

/-- A range of pieces. -/
abbrev Pieces (α : Type u) := List (List α)

/-- The buffer: `std::ranges::size(buf_)`, and `Buffered()`, which is its first `used_` bytes. -/
structure BufferedWriter (α : Type u) where
  size : ℕ
  buffered : List α
  used_le : buffered.length ≤ size

namespace BufferedWriter

/-- A new buffer. -/
def empty (capacity : ℕ) : BufferedWriter α := ⟨capacity, [], Nat.zero_le _⟩

/-- `used_`. -/
def used (b : BufferedWriter α) : ℕ := b.buffered.length

/-- `used_ = 0`. -/
def cleared (b : BufferedWriter α) : BufferedWriter α := ⟨b.size, [], Nat.zero_le _⟩

/-- `Flush`. -/
def flush (b : BufferedWriter α) : BufferedWriter α × List (Pieces α) :=
  if b.used = 0 then (b, []) else (b.cleared, [[b.buffered]])

/-- The bytes of all pieces, which `WriteMany` counts first. -/
def total (pieces : Pieces α) : ℕ := pieces.foldl (fun n piece => n + piece.length) 0

theorem total_eq (pieces : Pieces α) : total pieces = pieces.flatten.length := by
  have hfold (n : ℕ) : pieces.foldl (fun n piece => n + piece.length) n =
      n + pieces.flatten.length := by
    induction pieces generalizing n with
    | nil => rfl
    | cons piece pieces ih =>
      rw [List.foldl_cons, ih, List.flatten_cons, List.length_append, Nat.add_assoc]
  rw [total, hfold, Nat.zero_add]

theorem fits {b : BufferedWriter α} {pieces : Pieces α} (h : total pieces ≤ b.size - b.used) :
    (b.buffered ++ pieces.flatten).length ≤ b.size := by
  have hused := b.used_le
  rw [total_eq, used] at h
  rw [List.length_append]
  omega

/-- `WriteMany`, where `hasConcat` is `__cpp_lib_ranges_concat`. -/
def writeMany (hasConcat : Bool) (b : BufferedWriter α) (pieces : Pieces α) :
    BufferedWriter α × List (Pieces α) :=
  if h : total pieces ≤ b.size - b.used then (⟨b.size, b.buffered ++ pieces.flatten, fits h⟩, [])
  else if hasConcat then (b.cleared, [b.buffered :: pieces])
  else (b.flush.1, b.flush.2 ++ [pieces])

/-- The move constructor: the new buffer, and what is left of the old one. -/
def move (b : BufferedWriter α) : BufferedWriter α × BufferedWriter α := (b, empty 0)

/-! ## What becomes of calls -/

@[simp] theorem buffered_empty (capacity : ℕ) : (empty capacity : BufferedWriter α).buffered = [] := rfl

@[simp] theorem buffered_cleared (b : BufferedWriter α) : b.cleared.buffered = [] := rfl

variable {C : Type v} {bytes : C → List α} {b : BufferedWriter α} {held : List C}

/-- The buffer has the bytes of these calls. -/
def Holds (bytes : C → List α) (b : BufferedWriter α) (held : List C) : Prop :=
  b.buffered = held.flatMap bytes

/-- Each range of pieces has the bytes of one group of calls. -/
def Carries (bytes : C → List α) (requests : List (Pieces α)) (groups : List (List C)) : Prop :=
  List.Forall₂ (fun pieces group => pieces.flatten = group.flatMap bytes) requests groups

theorem buffered_of_used (h : b.used = 0) : b.buffered = [] := List.length_eq_zero_iff.mp h

/-- After `Flush` the buffer has nothing. -/
theorem buffered_flush (b : BufferedWriter α) : b.flush.1.buffered = [] := by
  unfold flush
  split_ifs with h
  · exact buffered_of_used h
  · rfl

/-- `Flush` passes on what is held, as one group. -/
theorem flush_spec (h : Holds bytes b held) : ∃ groups held',
    Carries bytes b.flush.2 groups ∧ Holds bytes b.flush.1 held' ∧
      groups.flatten ++ held' = held := by
  unfold flush
  split_ifs with hused
  · exact ⟨[], held, .nil, h, rfl⟩
  · refine ⟨[held], [], .cons ?_ .nil, rfl, by simp⟩
    rw [List.flatten_cons, List.flatten_nil, List.append_nil]
    exact h

/-- `WriteMany` adds a call to what is held, or passes both on in order. -/
theorem writeMany_spec (hasConcat : Bool) {pieces : Pieces α} {c : C} (h : Holds bytes b held)
    (hc : pieces.flatten = bytes c) : ∃ groups held',
    Carries bytes (b.writeMany hasConcat pieces).2 groups ∧
      Holds bytes (b.writeMany hasConcat pieces).1 held' ∧
      groups.flatten ++ held' = held ++ [c] := by
  have hsnoc : b.buffered ++ pieces.flatten = (held ++ [c]).flatMap bytes := by
    rw [List.flatMap_append, List.flatMap_singleton, ← hc, h]
  unfold writeMany
  split_ifs with hroom hasConcat
  · exact ⟨[], held ++ [c], .nil, hsnoc, rfl⟩
  · refine ⟨[held ++ [c]], [], .cons ?_ .nil, rfl, by simp⟩
    rw [List.flatten_cons]
    exact hsnoc
  · -- one group for what `Flush` passes on, with what it found to have no bytes, and one for `c`
    unfold flush
    split_ifs with hused
    · refine ⟨[held ++ [c]], [], .cons ?_ .nil, buffered_of_used hused, by simp⟩
      rw [← hsnoc, buffered_of_used hused, List.nil_append]
    · refine ⟨[held, [c]], [], .cons ?_ (.cons ?_ .nil), rfl, by simp⟩
      · rw [List.flatten_cons, List.flatten_nil, List.append_nil]
        exact h
      · rw [List.flatMap_singleton]
        exact hc

/-- `WriteMany` passes on or holds the bytes in order. -/
theorem writeMany_bytes (hasConcat : Bool) (b : BufferedWriter α) (pieces : Pieces α) :
    (b.writeMany hasConcat pieces).2.flatten.flatten ++ (b.writeMany hasConcat pieces).1.buffered =
      b.buffered ++ pieces.flatten := by
  unfold writeMany
  split_ifs with hroom hasConcat
  · rfl
  · simp
  · unfold flush
    split_ifs with hused
    · simp [buffered_of_used hused]
    · simp

/-- `Flush` passes on all bytes. -/
theorem flush_bytes (b : BufferedWriter α) :
    b.flush.2.flatten.flatten ++ b.flush.1.buffered = b.buffered := by
  unfold flush
  split_ifs with hused
  · rfl
  · simp

end BufferedWriter

end Remmy.Io
