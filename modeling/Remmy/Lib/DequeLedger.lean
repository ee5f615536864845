import Remmy.Lib.System
import Mathlib.Data.List.Perm.Basic
import Mathlib.Data.List.Range

/-!
# A Ledger for Double-Ended Queues

The purpose of a work-stealing queue, stated without any implementation: values are
pushed at the back and popped from either end, and every push is told apart from
every other by its position in the order of pushes.  `Ledger.Accounted` is what any
sequence of these operations keeps: each push is popped at most once, and both what
is left and what was popped at the front are in push order.
-/

namespace Remmy.Lib

universe u

variable {T : Type u}

/-- The three operations that move a value. -/
inductive DequeOp (T : Type u)
  | push (v : T)
  | popBack (v : T)
  | popFront (v : T)

/-- All pushes so far, and where each of them is now.  A push is named by its position
    in `pushed`. -/
structure Ledger (T : Type u) where
  pushed : List T
  /-- The pushes still in the queue, front first. -/
  queue : List ℕ
  /-- The pushes popped at the back, oldest pop first. -/
  back : List ℕ
  /-- The pushes popped at the front, oldest pop first. -/
  front : List ℕ

namespace Ledger

/-- Nothing pushed yet. -/
def empty : Ledger T := ⟨[], [], [], []⟩

/-- The effect of one operation; a pop names the value of the push it removes. -/
inductive Step : Ledger T → DequeOp T → Ledger T → Prop
  | push (L : Ledger T) (v : T) :
      Step L (.push v)
        { L with pushed := L.pushed ++ [v], queue := L.queue ++ [L.pushed.length] }
  | popBack {L : Ledger T} {q : List ℕ} {i : ℕ} {v : T} : L.queue = q ++ [i] →
      L.pushed[i]? = some v → Step L (.popBack v) { L with queue := q, back := L.back ++ [i] }
  | popFront {L : Ledger T} {q : List ℕ} {i : ℕ} {v : T} : L.queue = i :: q →
      L.pushed[i]? = some v → Step L (.popFront v) { L with queue := q, front := L.front ++ [i] }

/-- The ledgers that a sequence of operations leads to from the empty one. -/
def Of (ops : List (DequeOp T)) (L : Ledger T) : Prop :=
  (System.mk (· = empty) Step).Run ops L

theorem Of.empty : Of ([] : List (DequeOp T)) empty :=
  .start rfl

theorem Of.step {ops : List (DequeOp T)} {L L' : Ledger T} {op : DequeOp T} (h : Of ops L)
    (hs : Step L op L') : Of (ops ++ [op]) L' :=
  System.Run.next h hs

/-- The values still in the queue, front first. -/
def values (L : Ledger T) : List (Option T) := L.queue.map (L.pushed[·]?)

/-- Every push is in exactly one place, and pushes leave the front in push order. -/
structure Accounted (L : Ledger T) : Prop where
  /-- Each push is in the queue or was popped, and only once. -/
  once : (L.back ++ L.front ++ L.queue).Perm (List.range L.pushed.length)
  /-- What is left is in push order. -/
  queue_sorted : L.queue.Pairwise (· < ·)
  /-- Front pops are in push order. -/
  front_sorted : L.front.Pairwise (· < ·)
  /-- A push popped at the front is older than all that are left. -/
  front_lt : ∀ j ∈ L.front, ∀ i ∈ L.queue, j < i

theorem Accounted.lt_length {L : Ledger T} (h : L.Accounted) {i : ℕ} (hi : i ∈ L.queue) :
    i < L.pushed.length := by
  have hmem : i ∈ List.range L.pushed.length := h.once.mem_iff.mp (by simp [hi])
  exact List.mem_range.mp hmem

theorem Accounted.front_lt_length {L : Ledger T} (h : L.Accounted) {i : ℕ} (hi : i ∈ L.front) :
    i < L.pushed.length := by
  have hmem : i ∈ List.range L.pushed.length := h.once.mem_iff.mp (by simp [hi])
  exact List.mem_range.mp hmem

theorem accounted_empty : (empty : Ledger T).Accounted where
  once := by simp [empty]
  queue_sorted := List.Pairwise.nil
  front_sorted := List.Pairwise.nil
  front_lt := by simp [empty]

/-- One operation keeps the accounts. -/
theorem Accounted.step {L L' : Ledger T} {op : DequeOp T} (h : L.Accounted)
    (hs : Step L op L') : L'.Accounted := by
  cases hs with
  | push v =>
    refine ⟨?_, ?_, h.front_sorted, ?_⟩
    · simp only [List.length_append, List.length_singleton, List.range_succ, ← List.append_assoc]
      exact h.once.append_right _
    · refine List.pairwise_append.mpr ⟨h.queue_sorted, List.pairwise_singleton _ _, ?_⟩
      intro i hi j hj
      rw [List.mem_singleton.mp hj]
      exact h.lt_length hi
    · intro j hj i hi
      rcases List.mem_append.mp hi with hi | hi
      · exact h.front_lt j hj i hi
      · rw [List.mem_singleton.mp hi]
        exact h.front_lt_length hj
  | @popBack q i v hq hv =>
    have hsorted := h.queue_sorted
    rw [hq] at hsorted
    refine ⟨?_, (List.pairwise_append.mp hsorted).1, h.front_sorted, ?_⟩
    · refine List.Perm.trans ?_ h.once
      rw [hq]
      -- the popped push only moves from the end of the queue to the end of `back`
      have hmove : ([i] ++ (L.front ++ q)).Perm ((L.front ++ q) ++ [i]) := List.perm_append_comm
      simpa only [List.append_assoc] using hmove.append_left L.back
    · intro j hj k hk
      exact h.front_lt j hj k (by rw [hq]; exact List.mem_append_left _ hk)
  | @popFront q i v hq hv =>
    have hsorted := h.queue_sorted
    rw [hq] at hsorted
    obtain ⟨hi, hqs⟩ := List.pairwise_cons.mp hsorted
    refine ⟨?_, hqs, ?_, ?_⟩
    · simpa only [hq, List.append_assoc, List.singleton_append] using h.once
    · refine List.pairwise_append.mpr ⟨h.front_sorted, List.pairwise_singleton _ _, ?_⟩
      intro j hj k hk
      rw [List.mem_singleton.mp hk]
      exact h.front_lt j hj i (by rw [hq]; exact List.mem_cons_self)
    · intro j hj k hk
      rcases List.mem_append.mp hj with hj | hj
      · exact h.front_lt j hj k (by rw [hq]; exact List.mem_cons_of_mem _ hk)
      · rw [List.mem_singleton.mp hj]
        exact hi k hk

/-- Any sequence of operations keeps the accounts. -/
theorem Of.accounted {ops : List (DequeOp T)} {L : Ledger T} (h : Of ops L) : L.Accounted := by
  refine System.Run.invariant_state (I := Ledger.Accounted) ?_ ?_ h
  · rintro L rfl
    exact accounted_empty
  · intro L op L' hL hs
    exact hL.step hs

end Ledger

end Remmy.Lib
