import Mathlib.Data.List.Basic
import Mathlib.Logic.Function.Basic
import Mathlib.Data.Nat.Basic
import Mathlib.Order.Basic

/-!
# Memory Made of Blocks

Blocks that come from allocators, and objects that are constructed and destroyed in their slots.
What a program may not do is not possible: to use a block that is not live, to construct an
object where there is one, to destroy one where there is none, and to give a block back with
objects in it, with another count, or to an allocator that is not equal to the one it came from.

- Blocks are numbered in the order of their allocation, so a number is never used twice.
- A memory carries the log of what was done to it, and the proof that it accounts for its blocks.
-/

namespace Remmy.Lib

universe u v

variable {A : Type u} {T : Type v}

/-- A block: the allocator it came from, how many elements it has room for, and the objects in
    its slots. -/
structure Block (A : Type u) (T : Type v) where
  owner : A
  count : ℕ
  slot : ℕ → Option T

/-- A block in whose first slots the objects of a list are. -/
def Block.ofList (owner : A) (count : ℕ) (l : List T) : Block A T where
  owner := owner
  count := count
  slot i := l[i]?

/-- What is done to the memory. -/
inductive MemoryEvent (A : Type u)
  | allocated (p : ℕ) (a : A) (n : ℕ)
  | deallocated (p : ℕ) (a : A) (n : ℕ)
  | constructed (p i : ℕ)
  | destroyed (p i : ℕ)

namespace MemoryEvent

/-- The block it is done to. -/
def block : MemoryEvent A → ℕ
  | allocated p _ _ => p
  | deallocated p _ _ => p
  | constructed p _ => p
  | destroyed p _ => p

/-- Whether it allocates or deallocates block `p`. -/
def onBlock (p : ℕ) : MemoryEvent A → Bool
  | allocated q _ _ => q == p
  | deallocated q _ _ => q == p
  | constructed _ _ => false
  | destroyed _ _ => false

/-- Whether it constructs or destroys an object in slot `i` of block `p`. -/
def onSlot (p i : ℕ) : MemoryEvent A → Bool
  | allocated _ _ _ => false
  | deallocated _ _ _ => false
  | constructed q j => q == p && j == i
  | destroyed q j => q == p && j == i

/-- `k` objects, one after another, each constructed and then destroyed. -/
def lifetimes (p i k : ℕ) : List (MemoryEvent A) :=
  (List.replicate k [constructed p i, destroyed p i]).flatten

theorem onBlock_of_ne {e : MemoryEvent A} {p : ℕ} (h : e.block ≠ p) : e.onBlock p = false := by
  cases e <;> simp_all [block, onBlock]

theorem onSlot_of_ne {e : MemoryEvent A} {p : ℕ} (h : e.block ≠ p) (i : ℕ) :
    e.onSlot p i = false := by
  cases e <;> simp_all [block, onSlot]

/-- One more object. -/
theorem lifetimes_succ (p i k : ℕ) :
    (lifetimes p i (k + 1) : List (MemoryEvent A)) =
      lifetimes p i k ++ [constructed p i] ++ [destroyed p i] := by
  rw [lifetimes, List.replicate_succ', List.flatten_append, List.append_assoc]
  rfl

end MemoryEvent

/-! ## The account of a log -/

section Account

variable [Setoid A]

/-- A block is gone: it was deallocated once, with its own count and by an allocator equal to the
    one it came from, and every object that was constructed in it was destroyed once. -/
def Settled (log : List (MemoryEvent A)) (p : ℕ) : Prop :=
  (∃ a n a', a ≈ a' ∧ log.filter (·.onBlock p) = [.allocated p a n, .deallocated p a' n]) ∧
    ∀ i, ∃ k, log.filter (·.onSlot p i) = MemoryEvent.lifetimes p i k

/-- What a log says of a block that was allocated. -/
def BlockAccounted (log : List (MemoryEvent A)) (p : ℕ) : Option (Block A T) → Prop
  -- It was not deallocated, and the objects in its slots are those that were constructed and not
  -- destroyed.
  | some b => log.filter (·.onBlock p) = [.allocated p b.owner b.count] ∧
      (∀ i, b.count ≤ i → b.slot i = none) ∧
      ∀ i, ∃ k, log.filter (·.onSlot p i) =
        MemoryEvent.lifetimes p i k ++ if (b.slot i).isSome then [.constructed p i] else []
  | none => Settled log p

/-- A log accounts for the blocks of a memory. -/
structure Accounted (block : ℕ → Option (Block A T)) (next : ℕ) (log : List (MemoryEvent A)) :
    Prop where
  fresh : ∀ p, next ≤ p → block p = none
  logged : ∀ e ∈ log, e.block < next
  used : ∀ p < next, BlockAccounted log p (block p)

variable {block : ℕ → Option (Block A T)} {next p : ℕ} {log : List (MemoryEvent A)}

/-- What is done to other blocks does not matter. -/
theorem BlockAccounted.snoc {b : Option (Block A T)} (h : BlockAccounted log p b)
    {e : MemoryEvent A} (he : e.block ≠ p) : BlockAccounted (log ++ [e]) p b := by
  have hblock : (log ++ [e]).filter (·.onBlock p) = log.filter (·.onBlock p) := by
    rw [List.filter_append, List.filter_singleton, e.onBlock_of_ne he]
    exact List.append_nil _
  have hslot : ∀ i, (log ++ [e]).filter (·.onSlot p i) = log.filter (·.onSlot p i) := by
    intro i
    rw [List.filter_append, List.filter_singleton, e.onSlot_of_ne he]
    exact List.append_nil _
  cases b with
  | none =>
    unfold BlockAccounted Settled
    simp only [hblock, hslot]
    exact h
  | some b =>
    unfold BlockAccounted
    simp only [hblock, hslot]
    exact h

/-- To account for what is done to a block is to account for that block. -/
theorem Accounted.snoc (h : Accounted block next log) (hlt : p < next) {e : MemoryEvent A}
    (he : e.block = p) {b : Option (Block A T)} (hb : BlockAccounted (log ++ [e]) p b) :
    Accounted (Function.update block p b) next (log ++ [e]) where
  fresh q hq := by
    rw [Function.update_of_ne (lt_of_lt_of_le hlt hq).ne']
    exact h.fresh q hq
  logged e' he' := by
    rcases List.mem_append.mp he' with hmem | hmem
    · exact h.logged e' hmem
    · rw [List.mem_singleton.mp hmem, he]
      exact hlt
  used q hq := by
    by_cases hqp : q = p
    · subst hqp
      rw [Function.update_self]
      exact hb
    · rw [Function.update_of_ne hqp]
      refine (h.used q hq).snoc ?_
      rw [he]
      exact Ne.symm hqp

/-- A live block was allocated. -/
theorem Accounted.lt_next (h : Accounted block next log) {b : Block A T} (hb : block p = some b) :
    p < next := by
  by_contra hge
  rw [h.fresh p (not_lt.mp hge)] at hb
  cases hb

theorem Accounted.live (h : Accounted block next log) {b : Block A T} (hb : block p = some b) :
    BlockAccounted log p (some b) := hb ▸ h.used p (h.lt_next hb)

theorem Accounted.allocate (h : Accounted block next log) (a : A) (n : ℕ) :
    Accounted (Function.update block next (some (.ofList a n []))) (next + 1)
      (log ++ [.allocated next a n]) := by
  -- No event is on the block that is new.
  have hblock : log.filter (·.onBlock next) = [] := by
    rw [List.filter_eq_nil_iff]
    intro e he
    rw [e.onBlock_of_ne (Nat.ne_of_lt (h.logged e he))]
    exact Bool.false_ne_true
  have hslot : ∀ i, log.filter (·.onSlot next i) = [] := by
    intro i
    rw [List.filter_eq_nil_iff]
    intro e he
    rw [e.onSlot_of_ne (Nat.ne_of_lt (h.logged e he))]
    exact Bool.false_ne_true
  refine ⟨?_, ?_, ?_⟩
  · intro p hp
    rw [Function.update_of_ne (Nat.ne_of_gt (Nat.lt_of_succ_le hp))]
    exact h.fresh p (Nat.le_of_succ_le hp)
  · intro e he
    rcases List.mem_append.mp he with hmem | hmem
    · exact Nat.lt_succ_of_lt (h.logged e hmem)
    · rw [List.mem_singleton.mp hmem]
      exact Nat.lt_succ_self next
  · intro p hp
    by_cases hpn : p = next
    · subst hpn
      rw [Function.update_self]
      refine ⟨?_, fun i _ => rfl, fun i => ⟨0, ?_⟩⟩
      · rw [List.filter_append, hblock]
        simp [MemoryEvent.onBlock, Block.ofList]
      · rw [List.filter_append, hslot]
        simp [MemoryEvent.onSlot, MemoryEvent.lifetimes, Block.ofList]
    · rw [Function.update_of_ne hpn]
      have hlt : p < next := lt_of_le_of_ne (Nat.le_of_lt_succ hp) hpn
      exact (h.used p hlt).snoc (Nat.ne_of_gt hlt)

theorem Accounted.deallocate (h : Accounted block next log) {b : Block A T} {a : A}
    (hb : block p = some b) (ha : b.owner ≈ a) (hempty : ∀ i < b.count, b.slot i = none) :
    Accounted (Function.update block p none) next (log ++ [.deallocated p a b.count]) := by
  obtain ⟨hblock, hroom, hslot⟩ := h.live hb
  refine h.snoc (h.lt_next hb) rfl ⟨⟨b.owner, b.count, a, ha, ?_⟩, ?_⟩
  · show (log ++ _).filter (·.onBlock p) = _
    rw [List.filter_append, hblock]
    simp [MemoryEvent.onBlock]
  · intro i
    obtain ⟨k, hk⟩ := hslot i
    have hnone : b.slot i = none := by
      by_cases hi : i < b.count
      · exact hempty i hi
      · exact hroom i (not_lt.mp hi)
    refine ⟨k, ?_⟩
    show (log ++ _).filter (·.onSlot p i) = MemoryEvent.lifetimes p i k
    rw [List.filter_append, hk, hnone]
    simp [MemoryEvent.onSlot]

theorem Accounted.construct (h : Accounted block next log) {b : Block A T} {i : ℕ}
    (hb : block p = some b) (hi : i < b.count) (hnone : b.slot i = none) (x : T) :
    Accounted (Function.update block p (some { b with slot := Function.update b.slot i (some x) }))
      next (log ++ [.constructed p i]) := by
  obtain ⟨hblock, hroom, hslot⟩ := h.live hb
  refine h.snoc (h.lt_next hb) rfl ⟨?_, ?_, ?_⟩
  · show (log ++ _).filter (·.onBlock p) = _
    rw [List.filter_append, hblock]
    simp [MemoryEvent.onBlock]
  · intro j hj
    show Function.update b.slot i (some x) j = none
    rw [Function.update_of_ne (lt_of_lt_of_le hi hj).ne']
    exact hroom j hj
  · intro j
    obtain ⟨k, hk⟩ := hslot j
    refine ⟨k, ?_⟩
    show (log ++ _).filter (·.onSlot p j) =
      _ ++ if (Function.update b.slot i (some x) j).isSome then _ else _
    rw [List.filter_append, hk]
    by_cases hji : j = i
    · subst hji
      rw [Function.update_self, hnone]
      simp [MemoryEvent.onSlot]
    · rw [Function.update_of_ne hji]
      simp [MemoryEvent.onSlot, Ne.symm hji]

theorem Accounted.destroy (h : Accounted block next log) {b : Block A T} {i : ℕ}
    (hb : block p = some b) (hsome : (b.slot i).isSome) :
    Accounted (Function.update block p (some { b with slot := Function.update b.slot i none }))
      next (log ++ [.destroyed p i]) := by
  obtain ⟨hblock, hroom, hslot⟩ := h.live hb
  refine h.snoc (h.lt_next hb) rfl ⟨?_, ?_, ?_⟩
  · show (log ++ _).filter (·.onBlock p) = _
    rw [List.filter_append, hblock]
    simp [MemoryEvent.onBlock]
  · intro j hj
    show Function.update b.slot i none j = none
    by_cases hji : j = i
    · rw [hji, Function.update_self]
    · rw [Function.update_of_ne hji]
      exact hroom j hj
  · intro j
    obtain ⟨k, hk⟩ := hslot j
    show ∃ k, (log ++ _).filter (·.onSlot p j) =
      _ ++ if (Function.update b.slot i none j).isSome then _ else _
    rw [List.filter_append, hk]
    by_cases hji : j = i
    · -- The object that was in the slot has had its lifetime.
      subst hji
      refine ⟨k + 1, ?_⟩
      rw [Function.update_self, if_pos hsome, MemoryEvent.lifetimes_succ]
      simp [MemoryEvent.onSlot]
    · refine ⟨k, ?_⟩
      rw [Function.update_of_ne hji]
      simp [MemoryEvent.onSlot, Ne.symm hji]

theorem Accounted.store (h : Accounted block next log) {b : Block A T} {i : ℕ}
    (hb : block p = some b) (hsome : (b.slot i).isSome) (x : T) :
    Accounted (Function.update block p (some { b with slot := Function.update b.slot i (some x) }))
      next log := by
  obtain ⟨hblock, hroom, hslot⟩ := h.live hb
  have hsame : ∀ j, (Function.update b.slot i (some x) j).isSome = (b.slot j).isSome := by
    intro j
    by_cases hji : j = i
    · rw [hji, Function.update_self, hsome]
      rfl
    · rw [Function.update_of_ne hji]
  refine ⟨?_, h.logged, ?_⟩
  · intro q hq
    rw [Function.update_of_ne (lt_of_lt_of_le (h.lt_next hb) hq).ne']
    exact h.fresh q hq
  · intro q hq
    by_cases hqp : q = p
    · subst hqp
      rw [Function.update_self]
      refine ⟨hblock, ?_, ?_⟩
      · intro j hj
        have hnone := hsame j
        rw [hroom j hj] at hnone
        exact Option.isNone_iff_eq_none.mp (by simpa using hnone)
      · intro j
        show ∃ k, _ = _ ++ if (Function.update b.slot i (some x) j).isSome then _ else _
        rw [hsame]
        exact hslot j
    · rw [Function.update_of_ne hqp]
      exact h.used q hq

end Account

/-- The live blocks, the number of the next one, and what was done so far. -/
structure Memory (A : Type u) (T : Type v) [Setoid A] where
  block : ℕ → Option (Block A T)
  next : ℕ
  log : List (MemoryEvent A)
  accounted : Accounted block next log

namespace Memory

variable [Setoid A]

/-- No block yet. -/
def empty : Memory A T where
  block _ := none
  next := 0
  log := []
  accounted :=
    { fresh := fun _ _ => rfl
      logged := fun _ he => absurd he List.not_mem_nil
      used := fun p hp => absurd hp p.not_lt_zero }

/-- A new block `m.next` with room for `n` elements. -/
def allocate (m : Memory A T) (a : A) (n : ℕ) : Memory A T where
  block := Function.update m.block m.next (some (.ofList a n []))
  next := m.next + 1
  log := m.log ++ [.allocated m.next a n]
  accounted := m.accounted.allocate a n

/-- Give block `p` back to allocator `a`. -/
def deallocate [DecidableRel ((· ≈ ·) : A → A → Prop)] (m : Memory A T) (a : A) (p n : ℕ) :
    Option (Memory A T) :=
  match hp : m.block p with
  | none => none
  | some b =>
    if hb : b.count = n ∧ b.owner ≈ a ∧ ∀ i < b.count, b.slot i = none then
      some
        { block := Function.update m.block p none
          next := m.next
          log := m.log ++ [.deallocated p a b.count]
          accounted := m.accounted.deallocate hp hb.2.1 hb.2.2 }
    else none

/-- Construct an object in a slot. -/
def construct (m : Memory A T) (p i : ℕ) (x : T) : Option (Memory A T) :=
  match hp : m.block p with
  | none => none
  | some b =>
    if hb : i < b.count ∧ b.slot i = none then
      some
        { block :=
            Function.update m.block p (some { b with slot := Function.update b.slot i (some x) })
          next := m.next
          log := m.log ++ [.constructed p i]
          accounted := m.accounted.construct hp hb.1 hb.2 x }
    else none

/-- Destroy the object in a slot. -/
def destroy (m : Memory A T) (p i : ℕ) : Option (Memory A T) :=
  match hp : m.block p with
  | none => none
  | some b =>
    if hb : (b.slot i).isSome then
      some
        { block :=
            Function.update m.block p (some { b with slot := Function.update b.slot i none })
          next := m.next
          log := m.log ++ [.destroyed p i]
          accounted := m.accounted.destroy hp hb }
    else none

/-- The object in a slot. -/
def load (m : Memory A T) (p i : ℕ) : Option T := (m.block p).bind fun b => b.slot i

/-- Give the object in a slot another value. -/
def store (m : Memory A T) (p i : ℕ) (x : T) : Option (Memory A T) :=
  match hp : m.block p with
  | none => none
  | some b =>
    if hb : (b.slot i).isSome then
      some
        { block :=
            Function.update m.block p (some { b with slot := Function.update b.slot i (some x) })
          next := m.next
          log := m.log
          accounted := m.accounted.store hp hb x }
    else none

theorem block_next (m : Memory A T) : m.block m.next = none := m.accounted.fresh m.next le_rfl

/-! ## Blocks that hold lists -/

section Lists

variable {m : Memory A T} {p : ℕ} {owner : A} {count : ℕ} {l : List T}

theorem load_ofList (h : m.block p = some (.ofList owner count l)) (i : ℕ) : m.load p i = l[i]? := by
  rw [load, h]
  rfl

/-- To construct behind the last object is to append. -/
theorem construct_ofList (h : m.block p = some (.ofList owner count l)) (hlt : l.length < count)
    (x : T) : ∃ m', m.construct p l.length x = some m' ∧ m'.next = m.next ∧
      m'.block = Function.update m.block p (some (.ofList owner count (l ++ [x]))) := by
  have hslot : Function.update (fun i => l[i]?) l.length (some x) = fun i => (l ++ [x])[i]? := by
    funext i
    rcases Nat.lt_trichotomy i l.length with hi | rfl | hi
    · rw [Function.update_of_ne (Nat.ne_of_lt hi), List.getElem?_append_left hi]
    · rw [Function.update_self, List.getElem?_concat_length]
    · rw [Function.update_of_ne (Nat.ne_of_gt hi), List.getElem?_eq_none (Nat.le_of_lt hi),
        List.getElem?_eq_none]
      rw [List.length_append, List.length_singleton]
      exact hi
  unfold construct
  split
  · next hp => rw [h] at hp; cases hp
  · next b hp =>
    rw [h] at hp
    cases hp
    rw [dif_pos ⟨hlt, List.getElem?_eq_none le_rfl⟩]
    refine ⟨_, rfl, rfl, ?_⟩
    simp only [Block.ofList, hslot]

/-- To destroy the last object is to remove it. -/
theorem destroy_ofList {x : T} (h : m.block p = some (.ofList owner count (l ++ [x]))) :
    ∃ m', m.destroy p l.length = some m' ∧ m'.next = m.next ∧
      m'.block = Function.update m.block p (some (.ofList owner count l)) := by
  have hslot : Function.update (fun i => (l ++ [x])[i]?) l.length none = fun i => l[i]? := by
    funext i
    rcases Nat.lt_trichotomy i l.length with hi | rfl | hi
    · rw [Function.update_of_ne (Nat.ne_of_lt hi), List.getElem?_append_left hi]
    · rw [Function.update_self, List.getElem?_eq_none le_rfl]
    · rw [Function.update_of_ne (Nat.ne_of_gt hi), List.getElem?_eq_none (Nat.le_of_lt hi),
        List.getElem?_eq_none]
      rw [List.length_append, List.length_singleton]
      exact hi
  unfold destroy
  split
  · next hp => rw [h] at hp; cases hp
  · next b hp =>
    rw [h] at hp
    cases hp
    rw [dif_pos (by simp [Block.ofList])]
    refine ⟨_, rfl, rfl, ?_⟩
    simp only [Block.ofList, hslot]

/-- To give an object another value is to set it in the list. -/
theorem store_ofList (h : m.block p = some (.ofList owner count l)) {i : ℕ} (hi : i < l.length)
    (x : T) : ∃ m', m.store p i x = some m' ∧ m'.next = m.next ∧
      m'.block = Function.update m.block p (some (.ofList owner count (l.set i x))) := by
  have hslot : Function.update (fun i => l[i]?) i (some x) = fun j => (l.set i x)[j]? := by
    funext j
    by_cases hj : j = i
    · subst hj
      rw [Function.update_self, List.getElem?_set_self hi]
    · rw [Function.update_of_ne hj, List.getElem?_set_ne (Ne.symm hj)]
  unfold store
  split
  · next hp => rw [h] at hp; cases hp
  · next b hp =>
    rw [h] at hp
    cases hp
    rw [dif_pos (by simp [Block.ofList, hi])]
    refine ⟨_, rfl, rfl, ?_⟩
    simp only [Block.ofList, hslot]

/-- A block without objects can be given back to an equal allocator. -/
theorem deallocate_ofList [DecidableRel ((· ≈ ·) : A → A → Prop)]
    (h : m.block p = some (.ofList owner count [])) {a : A} (ha : owner ≈ a) :
    ∃ m', m.deallocate a p count = some m' ∧ m'.next = m.next ∧
      m'.block = Function.update m.block p none := by
  unfold deallocate
  split
  · next hp => rw [h] at hp; cases hp
  · next b hp =>
    rw [h] at hp
    cases hp
    rw [dif_pos ⟨rfl, ha, fun i _ => rfl⟩]
    exact ⟨_, rfl, rfl, rfl⟩

end Lists

end Memory

end Remmy.Lib
