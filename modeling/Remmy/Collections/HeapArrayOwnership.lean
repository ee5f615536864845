import Mathlib.Logic.Equiv.Basic
import Remmy.Collections.HeapArray

/-!
# Who Owns a Block

The arrays as plain lists with allocators, and the invariant that relates a world to them: every
array that holds elements has a block of its own, which came from an equal allocator, has room for
exactly these elements and holds them, and there is no other block.

- `Owns.replace`: what an array stands for changes, in the block it has or in a new one.
- `Owns.exchange`: two arrays exchange everything.
- `Owns.rebuild`, `Owns.remove`, `Owns.take`: what the member functions do to the invariant.
-/

namespace Remmy.Collections

open Remmy.Lib

/-- The contents and the allocator of every array that exists. -/
abbrev Lists (ι A T : Type) := ι → Option (List T × A)

section Ownership

variable {ι A T : Type} [Setoid A]

/-- An array holds the objects of a list: it has no storage, or a block for exactly these objects
    from an allocator equal to its own. -/
structure Holds (block : ℕ → Option (Block A T)) (h : HeapArray A) (l : List T) : Prop where
  size_eq : h.size = l.length
  data_eq_none : h.data = none ↔ l = []
  block_eq : ∀ p, h.data = some p →
    ∃ owner, owner ≈ h.alloc ∧ block p = some (.ofList owner l.length l)

/-- What a name stands for, in the world and among the lists. -/
def Entry (block : ℕ → Option (Block A T)) : Option (HeapArray A) → Option (List T × A) → Prop
  | none, none => True
  | some h, some (l, a) => h.alloc = a ∧ Holds block h l
  | none, some _ => False
  | some _, none => False

/-- The storage of an array. -/
def storage (array : ι → Option (HeapArray A)) (i : ι) : Option ℕ :=
  (array i).bind HeapArray.data

/-- The arrays hold the lists, in blocks of their own, and there are no other blocks. -/
structure Owns (array : ι → Option (HeapArray A)) (block : ℕ → Option (Block A T))
    (lists : Lists ι A T) : Prop where
  entry : ∀ i, Entry block (array i) (lists i)
  distinct : ∀ i j p, storage array i = some p → storage array j = some p → i = j
  owned : ∀ p, (block p).isSome → ∃ i, storage array i = some p

variable {array : ι → Option (HeapArray A)} {block block' : ℕ → Option (Block A T)}
  {lists : Lists ι A T}

omit [Setoid A] in
theorem storage_eq {i : ι} {x : HeapArray A} (h : array i = some x) : storage array i = x.data := by
  rw [storage, h]
  rfl

/-- Only the block that an array has matters to it. -/
theorem Holds.congr {h : HeapArray A} {l : List T} (hh : Holds block h l)
    (hsame : ∀ p, h.data = some p → block' p = block p) : Holds block' h l where
  size_eq := hh.size_eq
  data_eq_none := hh.data_eq_none
  block_eq p hp := by
    rw [hsame p hp]
    exact hh.block_eq p hp

theorem Entry.congr {x : Option (HeapArray A)} {s : Option (List T × A)} (hx : Entry block x s)
    (hsame : ∀ p, x.bind HeapArray.data = some p → block' p = block p) : Entry block' x s := by
  cases x with
  | none =>
    cases s with
    | none => exact trivial
    | some s => exact hx
  | some h =>
    cases s with
    | none => exact hx
    | some s => exact ⟨hx.1, hx.2.congr hsame⟩

/-- Storage is live. -/
theorem Entry.isSome {x : Option (HeapArray A)} {s : Option (List T × A)} (hx : Entry block x s)
    {p : ℕ} (hp : x.bind HeapArray.data = some p) : (block p).isSome := by
  cases x with
  | none => cases hp
  | some h =>
    cases s with
    | none => exact hx.elim
    | some s =>
      obtain ⟨owner, -, hblock⟩ := hx.2.block_eq p hp
      rw [hblock]
      rfl

/-- An array that is among the lists exists. -/
theorem Owns.exists {i : ι} {l : List T} {a : A} (h : Owns array block lists)
    (hi : lists i = some (l, a)) : ∃ x, array i = some x ∧ x.alloc = a ∧ Holds block x l := by
  have hentry := h.entry i
  rw [hi] at hentry
  cases hx : array i with
  | none =>
    rw [hx] at hentry
    exact hentry.elim
  | some x =>
    rw [hx] at hentry
    exact ⟨x, rfl, hentry⟩

/-- An array that is not among the lists does not exist. -/
theorem Owns.eq_none {i : ι} (h : Owns array block lists) (hi : lists i = none) :
    array i = none := by
  have hentry := h.entry i
  rw [hi] at hentry
  cases hx : array i with
  | none => rfl
  | some x =>
    rw [hx] at hentry
    exact hentry.elim

variable [DecidableEq ι]

/-- One array changes: the block it had is gone unless it keeps it, and the block it has was its
    own or was not there. -/
theorem Owns.replace (h : Owns array block lists) {i : ι} {x : Option (HeapArray A)}
    {s : Option (List T × A)} (hnew : Entry block' x s)
    (hframe : ∀ p, storage array i ≠ some p → x.bind HeapArray.data ≠ some p →
      block' p = block p)
    (hgone : ∀ p, storage array i = some p → x.bind HeapArray.data ≠ some p → block' p = none)
    (hfresh : ∀ p, x.bind HeapArray.data = some p → storage array i = some p ∨ block p = none) :
    Owns (Function.update array i x) block' (Function.update lists i s) := by
  have hother : ∀ j p, j ≠ i → storage (Function.update array i x) j = some p →
      storage array j = some p := by
    intro j p hj hp
    rwa [storage, Function.update_of_ne hj] at hp
  have hself : storage (Function.update array i x) i = x.bind HeapArray.data := by
    rw [storage, Function.update_self]
  -- The storage of another array is neither what this array had nor what it has.
  have hapart : ∀ j p, j ≠ i → storage array j = some p →
      storage array i ≠ some p ∧ x.bind HeapArray.data ≠ some p := by
    intro j p hj hp
    have hnot : storage array i ≠ some p := fun hi => hj (h.distinct j i p hp hi)
    refine ⟨hnot, fun hx => ?_⟩
    rcases hfresh p hx with hi | hnone
    · exact hnot hi
    · have hlive := (h.entry j).isSome hp
      rw [hnone] at hlive
      cases hlive
  refine ⟨?_, ?_, ?_⟩
  · intro j
    by_cases hj : j = i
    · subst hj
      rw [Function.update_self, Function.update_self]
      exact hnew
    · rw [Function.update_of_ne hj, Function.update_of_ne hj]
      apply (h.entry j).congr
      intro p hp
      obtain ⟨hnot, hx⟩ := hapart j p hj hp
      exact hframe p hnot hx
  · intro j k p hj hk
    by_cases hji : j = i
    · by_cases hki : k = i
      · rw [hji, hki]
      · rw [hji, hself] at hj
        exact absurd hj (hapart k p hki (hother k p hki hk)).2
    · by_cases hki : k = i
      · rw [hki, hself] at hk
        exact absurd hk (hapart j p hji (hother j p hji hj)).2
      · exact h.distinct j k p (hother j p hji hj) (hother k p hki hk)
  · intro p hp
    by_cases hx : x.bind HeapArray.data = some p
    · exact ⟨i, hself.trans hx⟩
    · by_cases hi : storage array i = some p
      · rw [hgone p hi hx] at hp
        cases hp
      · rw [hframe p hi hx] at hp
        obtain ⟨j, hj⟩ := h.owned p hp
        refine ⟨j, ?_⟩
        have hji : j ≠ i := by
          intro hji
          rw [hji] at hj
          exact hi hj
        rw [storage, Function.update_of_ne hji]
        exact hj

/-- Two names exchange what they stand for. -/
theorem Owns.exchange (h : Owns array block lists) (i j : ι) :
    Owns (Function.update (Function.update array j (array i)) i (array j)) block
      (Function.update (Function.update lists j (lists i)) i (lists j)) := by
  rw [← Equiv.comp_swap_eq_update, ← Equiv.comp_swap_eq_update]
  refine ⟨fun k => h.entry _, ?_, ?_⟩
  · intro k k' p hk hk'
    exact (Equiv.swap i j).injective (h.distinct _ _ p hk hk')
  · intro p hp
    obtain ⟨k, hk⟩ := h.owned p hp
    refine ⟨Equiv.swap i j k, ?_⟩
    show (array (Equiv.swap i j (Equiv.swap i j k))).bind _ = some p
    rw [Equiv.swap_apply_self]
    exact hk

/-! ## What the member functions do -/

/-- The blocks, with another one in some storage. -/
def place (data : Option ℕ) (b : Option (Block A T)) (block : ℕ → Option (Block A T)) :
    ℕ → Option (Block A T) :=
  match data with
  | none => block
  | some p => Function.update block p b

omit [Setoid A] [DecidableEq ι] in
theorem place_of_ne {data : Option ℕ} {p : ℕ} (h : data ≠ some p) (b : Option (Block A T)) :
    place data b block p = block p := by
  cases data with
  | none => rfl
  | some q => exact Function.update_of_ne (fun hpq => h (congrArg some hpq.symm)) b block

omit [Setoid A] [DecidableEq ι] in
theorem place_self {data : Option ℕ} {p : ℕ} (h : data = some p) (b : Option (Block A T)) :
    place data b block p = b := by
  rw [h]
  exact Function.update_self p b block

/-- An array gets a block that was just built, and the block it had is gone. -/
theorem Owns.rebuild (h : Owns array block lists) (i : ι) {data : Option ℕ} {l : List T} {a a' : A}
    (hdata : data = none ↔ l = []) (hfresh : ∀ p, data = some p → block p = none) (ha : a ≈ a') :
    Owns (Function.update array i (some { data := data, size := l.length, alloc := a' }))
      (place (storage array i) none (place data (some (.ofList a l.length l)) block))
      (Function.update lists i (some (l, a'))) := by
  -- The block it had is not the one that is new.
  have hother : ∀ p, data = some p → storage array i ≠ some p := by
    intro p hp hi
    have hlive := (h.entry i).isSome hi
    rw [hfresh p hp] at hlive
    cases hlive
  apply h.replace
  · refine ⟨rfl, rfl, hdata, ?_⟩
    intro p hp
    refine ⟨a, ha, ?_⟩
    rw [place_of_ne (hother p hp), place_self hp]
  · intro p hi hx
    rw [place_of_ne hi]
    exact place_of_ne hx _
  · intro p hi _
    exact place_self hi none
  · exact fun p hp => .inr (hfresh p hp)

/-- An array becomes empty, and the block it had is gone. -/
theorem Owns.clear (h : Owns array block lists) (i : ι) (a : A) :
    Owns (Function.update array i (some { data := none, size := 0, alloc := a }))
      (place (storage array i) none block) (Function.update lists i (some ([], a))) := by
  have hnone : (none : Option ℕ) = none ↔ ([] : List T) = [] :=
    Iff.intro (fun _ => rfl) fun _ => rfl
  exact h.rebuild i hnone (fun _ hp => by cases hp) (Setoid.refl a)

/-- An array is gone with its block. -/
theorem Owns.remove (h : Owns array block lists) (i : ι) :
    Owns (Function.update array i none) (place (storage array i) none block)
      (Function.update lists i none) := by
  apply h.replace
  · exact trivial
  · exact fun p hi _ => place_of_ne hi none
  · exact fun p hi _ => place_self hi none
  · exact fun p hp => by cases hp

/-- An array keeps its block under an equal allocator. -/
theorem Owns.reallocate (h : Owns array block lists) {i : ι} {x : HeapArray A} {l : List T} {a : A}
    (hx : array i = some x) (hi : lists i = some (l, x.alloc)) (ha : x.alloc ≈ a) :
    Owns (Function.update array i (some { x with alloc := a })) block
      (Function.update lists i (some (l, a))) := by
  obtain ⟨x', hx', -, hholds⟩ := h.exists hi
  obtain rfl : x = x' := Option.some.inj (hx.symm.trans hx')
  have hstorage : storage array i = x.data := storage_eq hx
  apply h.replace
  · refine ⟨rfl, hholds.size_eq, hholds.data_eq_none, ?_⟩
    intro p hp
    obtain ⟨owner, howner, hblock⟩ := hholds.block_eq p hp
    exact ⟨owner, Setoid.trans howner ha, hblock⟩
  · exact fun _ _ _ => rfl
  · exact fun p hp hne => absurd (hstorage.symm.trans hp) hne
  · exact fun p hp => .inl (hstorage.trans hp)

/-- The objects of an array change in its block. -/
theorem Owns.rewrite (h : Owns array block lists) {i : ι} {x : HeapArray A} {l : List T}
    (hx : array i = some x) (hholds : Holds block' x l)
    (hframe : ∀ p, x.data ≠ some p → block' p = block p) :
    Owns array block' (Function.update lists i (some (l, x.alloc))) := by
  have hstorage : storage array i = x.data := storage_eq hx
  have hsame : Function.update array i (some x) = array := by
    rw [← hx]
    exact Function.update_eq_self i array
  rw [← hsame]
  apply h.replace
  · exact ⟨rfl, hholds⟩
  · exact fun p _ hp => hframe p hp
  · exact fun p hp hne => absurd (hstorage.symm.trans hp) hne
  · exact fun p hp => .inl (hstorage.trans hp)

/-- An array takes the storage of another one, which becomes empty; the block it had is gone. -/
theorem Owns.take (h : Owns array block lists) {i j : ι} (hij : i ≠ j) {x : HeapArray A}
    {l : List T} {a : A} (hx : array j = some x) (hj : lists j = some (l, x.alloc))
    (ha : x.alloc ≈ a) (a' : A) :
    Owns
      (Function.update (Function.update array j (some { data := none, size := 0, alloc := a' })) i
        (some { x with alloc := a }))
      (place (storage array i) none block)
      (Function.update (Function.update lists j (some ([], a'))) i (some (l, a))) := by
  -- As if it were gone first, then the other one got its name, and then the other name were used
  -- for an empty array.
  have hgone := (h.remove i).exchange i j
  rw [Function.update_self, Function.update_self, Function.update_of_ne hij.symm,
    Function.update_of_ne hij.symm, hx, hj] at hgone
  have htaken := hgone.reallocate (i := i) (Function.update_self i _ _)
    (Function.update_self i _ _) ha
  have hstorage : storage
      (Function.update (Function.update (Function.update (Function.update array i none) j none) i
        (some x)) i (some { x with alloc := a })) j = none := by
    rw [storage, Function.update_of_ne hij.symm, Function.update_of_ne hij.symm,
      Function.update_self]
    rfl
  have hempty := htaken.clear j a'
  rw [hstorage] at hempty
  simp only [Function.update_idem, Function.update_comm hij.symm] at hempty
  rw [Function.update_comm hij.symm, Function.update_comm hij.symm]
  exact hempty

end Ownership

end Remmy.Collections
