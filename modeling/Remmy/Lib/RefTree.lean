import Mathlib.Algebra.BigOperators.Group.Finset.Basic
import Mathlib.Algebra.Order.BigOperators.Group.Multiset
import Mathlib.Algebra.BigOperators.Group.Finset.Piecewise
import Mathlib.Data.Multiset.AddSub
import Mathlib.Tactic.Abel

/-!
# Reference Counts Along a Tree

A heap of nodes that count their references: a node refers to its parent as long as it lives,
and threads hold further references.  Whoever gives up the last reference to a node frees it
and then holds the node's own reference to its parent.

- `Hold` is what the threads hold, whoever holds it.
- `Step` are the actions of the protocol, `Ok` is its invariant, `Ok.step` says that every
  action keeps it.
- `Ok.empty`: when nothing is held, no node is left.
-/

namespace Remmy.Lib.RefTree

/-! ## What is held -/

/-- References that are held.  Every node is born with one, which is its own: at first nothing
    else refers to the node (`fresh`), then something may (`own`).  The others come from children
    that were freed. -/
@[ext] structure Hold where
  fresh : Multiset ℕ
  own : Multiset ℕ
  held : Multiset ℕ
  /-- The nodes about to be freed. -/
  dying : Multiset ℕ
  /-- The pairs of a node, whose own reference this is, and a fresh child of it, which it does
      not count yet. -/
  making : Multiset (ℕ × ℕ)

namespace Hold

instance : Zero Hold := ⟨⟨0, 0, 0, 0, 0⟩⟩

instance : Add Hold :=
  ⟨fun a b => ⟨a.fresh + b.fresh, a.own + b.own, a.held + b.held, a.dying + b.dying,
    a.making + b.making⟩⟩

@[simp] theorem zero_making : (0 : Hold).making = 0 := rfl
@[simp] theorem zero_dying : (0 : Hold).dying = 0 := rfl
@[simp] theorem add_fresh (a b : Hold) : (a + b).fresh = a.fresh + b.fresh := rfl
@[simp] theorem add_own (a b : Hold) : (a + b).own = a.own + b.own := rfl
@[simp] theorem add_held (a b : Hold) : (a + b).held = a.held + b.held := rfl
@[simp] theorem add_dying (a b : Hold) : (a + b).dying = a.dying + b.dying := rfl
@[simp] theorem add_making (a b : Hold) : (a + b).making = a.making + b.making := rfl

instance : AddCommMonoid Hold where
  add_assoc a b c := by ext1 <;> exact add_assoc ..
  zero_add a := by ext1 <;> exact zero_add _
  add_zero a := by ext1 <;> exact add_zero _
  add_comm a b := by ext1 <;> exact add_comm ..
  nsmul := nsmulRec

/-- The own reference of a node to which nothing else refers. -/
def ofFresh (n : ℕ) : Hold := ⟨{n}, 0, 0, 0, 0⟩

/-- The own reference of a node. -/
def ofOwn (n : ℕ) : Hold := ⟨0, {n}, 0, 0, 0⟩

/-- A reference. -/
def ofHeld (n : ℕ) : Hold := ⟨0, 0, {n}, 0, 0⟩

/-- A node about to be freed. -/
def ofDying (n : ℕ) : Hold := ⟨0, 0, 0, {n}, 0⟩

/-- A node and a child that it does not count yet. -/
def ofMaking (n m : ℕ) : Hold := ⟨0, 0, 0, 0, {(n, m)}⟩

/-- The reference of a node to its parent. -/
def ofParent (p : Option ℕ) : Hold := ⟨0, 0, p.toList, 0, 0⟩

/-- The references that are counted, apart from those of nodes to their parents. -/
def owned (a : Hold) : Multiset ℕ := a.fresh + a.own + a.held + a.making.map Prod.snd

/-- The nodes to which nothing else refers. -/
def untouched (a : Hold) : Multiset ℕ := a.fresh + a.making.map Prod.snd

/-- The nodes whose own reference is held. -/
def active (a : Hold) : Multiset ℕ :=
  a.fresh + a.own + a.making.map Prod.fst + a.making.map Prod.snd

@[simp] theorem owned_add (a b : Hold) : (a + b).owned = a.owned + b.owned := by
  simp only [owned, add_fresh, add_own, add_held, add_making, Multiset.map_add]
  abel

@[simp] theorem untouched_add (a b : Hold) : (a + b).untouched = a.untouched + b.untouched := by
  simp only [untouched, add_fresh, add_making, Multiset.map_add]
  abel

/-- The nodes whose own reference is held where others may refer to them. -/
def touched (a : Hold) : Multiset ℕ := a.own + a.making.map Prod.fst

@[simp] theorem touched_add (a b : Hold) : (a + b).touched = a.touched + b.touched := by
  simp only [touched, add_own, add_making, Multiset.map_add]
  abel

theorem active_eq (a : Hold) : a.active = a.untouched + a.touched := by
  rw [active, untouched, touched]
  abel

theorem untouched_le_active (a : Hold) : a.untouched ≤ a.active := by
  rw [active_eq]
  exact Multiset.le_add_right _ _

theorem touched_le_active (a : Hold) : a.touched ≤ a.active := by
  rw [active_eq]
  exact Multiset.le_add_left _ _

@[simp] theorem active_add (a b : Hold) : (a + b).active = a.active + b.active := by
  simp only [active, add_fresh, add_own, add_making, Multiset.map_add]
  abel

section Parts

variable (n m : ℕ) (p : Option ℕ)

@[simp] theorem owned_zero : (0 : Hold).owned = 0 := rfl
@[simp] theorem owned_ofFresh : (ofFresh n).owned = {n} := by simp [owned, ofFresh]
@[simp] theorem owned_ofOwn : (ofOwn n).owned = {n} := by simp [owned, ofOwn]
@[simp] theorem owned_ofHeld : (ofHeld n).owned = {n} := by simp [owned, ofHeld]
@[simp] theorem owned_ofDying : (ofDying n).owned = 0 := by simp [owned, ofDying]
@[simp] theorem owned_ofMaking : (ofMaking n m).owned = {m} := by simp [owned, ofMaking]
@[simp] theorem owned_ofParent : (ofParent p).owned = (p.toList : Multiset ℕ) := by
  simp [owned, ofParent]

@[simp] theorem untouched_zero : (0 : Hold).untouched = 0 := rfl
@[simp] theorem untouched_ofFresh : (ofFresh n).untouched = {n} := by simp [untouched, ofFresh]
@[simp] theorem untouched_ofOwn : (ofOwn n).untouched = 0 := by simp [untouched, ofOwn]
@[simp] theorem untouched_ofHeld : (ofHeld n).untouched = 0 := by simp [untouched, ofHeld]
@[simp] theorem untouched_ofDying : (ofDying n).untouched = 0 := by simp [untouched, ofDying]
@[simp] theorem untouched_ofMaking : (ofMaking n m).untouched = {m} := by
  simp [untouched, ofMaking]
@[simp] theorem untouched_ofParent : (ofParent p).untouched = 0 := by simp [untouched, ofParent]

@[simp] theorem active_zero : (0 : Hold).active = 0 := rfl
@[simp] theorem active_ofFresh : (ofFresh n).active = {n} := by simp [active, ofFresh]
@[simp] theorem active_ofOwn : (ofOwn n).active = {n} := by simp [active, ofOwn]
@[simp] theorem active_ofHeld : (ofHeld n).active = 0 := by simp [active, ofHeld]
@[simp] theorem active_ofDying : (ofDying n).active = 0 := by simp [active, ofDying]
@[simp] theorem active_ofMaking : (ofMaking n m).active = {n} + {m} := by
  simp [active, ofMaking]
@[simp] theorem active_ofParent : (ofParent p).active = 0 := by simp [active, ofParent]

@[simp] theorem dying_ofFresh : (ofFresh n).dying = 0 := rfl
@[simp] theorem dying_ofOwn : (ofOwn n).dying = 0 := rfl
@[simp] theorem dying_ofHeld : (ofHeld n).dying = 0 := rfl
@[simp] theorem dying_ofDying : (ofDying n).dying = {n} := rfl
@[simp] theorem dying_ofMaking : (ofMaking n m).dying = 0 := rfl
@[simp] theorem dying_ofParent : (ofParent p).dying = 0 := rfl

@[simp] theorem making_ofFresh : (ofFresh n).making = 0 := rfl
@[simp] theorem making_ofOwn : (ofOwn n).making = 0 := rfl
@[simp] theorem making_ofHeld : (ofHeld n).making = 0 := rfl
@[simp] theorem making_ofDying : (ofDying n).making = 0 := rfl
@[simp] theorem making_ofMaking : (ofMaking n m).making = {(n, m)} := rfl
@[simp] theorem making_ofParent : (ofParent p).making = 0 := rfl

end Parts

/-- A node that does not count a child yet has its own reference lent to it. -/
theorem active_add_held (a : Hold) :
    a.active + a.held = a.owned + a.making.map Prod.fst := by
  rw [active, owned]
  abel

/-- One kind of references. -/
def heldHom : Hold →+ Multiset ℕ where
  toFun := held
  map_zero' := rfl
  map_add' _ _ := rfl

/-- The nodes that do not count a child yet. -/
def uncountedHom : Hold →+ Multiset ℕ where
  toFun a := a.making.map Prod.fst
  map_zero' := rfl
  map_add' a b := Multiset.map_add Prod.fst a.making b.making

/-- The nodes about to be freed. -/
def dyingHom : Hold →+ Multiset ℕ where
  toFun := dying
  map_zero' := rfl
  map_add' _ _ := rfl

theorem untouched_le (a : Hold) : a.untouched ≤ a.owned := by
  have heq : a.owned = a.untouched + (a.own + a.held) := by
    rw [untouched, owned]
    abel
  rw [heq]
  exact Multiset.le_add_right _ _

end Hold

/-! ## The heap -/

/-- A node: its parent, and how many references to it are counted. -/
structure Cell where
  parent : Option ℕ
  count : ℕ

/-- The reference of the node at an address to its parent. -/
def link (cells : ℕ → Option Cell) (n : ℕ) : Multiset ℕ := ((cells n).bind Cell.parent).toList

/-- The references of all nodes to their parents. -/
def links (cells : ℕ → Option Cell) (next : ℕ) : Multiset ℕ := ∑ n ∈ Finset.range next, link cells n

/-- Every reference that counts. -/
def refs (cells : ℕ → Option Cell) (next : ℕ) (hold : Hold) : Multiset ℕ :=
  hold.owned + links cells next

theorem link_some {cells : ℕ → Option Cell} {n : ℕ} {x : Cell} (h : cells n = some x) :
    link cells n = (x.parent.toList : Multiset ℕ) := by
  rw [link, h]
  rfl

theorem mem_link {cells : ℕ → Option Cell} {n p : ℕ} :
    p ∈ link cells n ↔ ∃ x, cells n = some x ∧ x.parent = some p := by
  rw [link, Multiset.mem_coe, Option.mem_toList, Option.bind_eq_some_iff]

theorem mem_links {cells : ℕ → Option Cell} {next p : ℕ} :
    p ∈ links cells next ↔ ∃ n < next, ∃ x, cells n = some x ∧ x.parent = some p := by
  rw [links, Multiset.mem_sum]
  simp only [Finset.mem_range, mem_link]

/-- Who refers to a node as its parent. -/
theorem count_links (cells : ℕ → Option Cell) (next n : ℕ) :
    (links cells next).count n =
      ((Finset.range next).filter fun m => (cells m).bind Cell.parent = some n).card := by
  rw [links, Multiset.count_sum', Finset.card_filter]
  refine Finset.sum_congr rfl fun m _ => ?_
  rw [link]
  cases (cells m).bind Cell.parent with
  | none => simp
  | some p => simp [Multiset.count_singleton, eq_comm]

theorem links_congr {cells cells' : ℕ → Option Cell} {next : ℕ}
    (h : ∀ n < next, link cells' n = link cells n) : links cells' next = links cells next :=
  Finset.sum_congr rfl fun n hn => h n (Finset.mem_range.mp hn)

theorem link_update_of_ne {cells : ℕ → Option Cell} {n k : ℕ} {x : Option Cell} (h : n ≠ k) :
    link (Function.update cells k x) n = link cells n := by
  rw [link, link, Function.update_of_ne h]

/-- A new node brings its reference to its parent. -/
theorem links_new (cells : ℕ → Option Cell) (next : ℕ) (x : Cell) :
    links (Function.update cells next (some x)) (next + 1) =
      links cells next + (x.parent.toList : Multiset ℕ) := by
  rw [links, Finset.sum_range_succ, link_some (Function.update_self ..)]
  congr 1
  exact links_congr fun n hn => link_update_of_ne hn.ne

/-- A node that is freed takes its reference with it. -/
theorem links_free {cells : ℕ → Option Cell} {next n : ℕ} {x : Cell} (hn : n < next)
    (hx : cells n = some x) :
    links (Function.update cells n none) next + (x.parent.toList : Multiset ℕ) =
      links cells next := by
  have hmem := Finset.mem_range.mpr hn
  rw [links, links, ← Finset.add_sum_erase _ _ hmem, ← Finset.add_sum_erase _ (link cells) hmem,
    link_some hx, link, Function.update_self]
  have hrest : ∑ k ∈ (Finset.range next).erase n, link (Function.update cells n none) k =
      ∑ k ∈ (Finset.range next).erase n, link cells k :=
    Finset.sum_congr rfl fun k hk => link_update_of_ne (Finset.ne_of_mem_erase hk)
  rw [hrest]
  simp [add_comm]

/-- Counting changes no reference to a parent. -/
theorem links_count {cells : ℕ → Option Cell} {next n c : ℕ} {x : Cell} (hx : cells n = some x) :
    links (Function.update cells n (some { x with count := c })) next = links cells next := by
  apply links_congr
  intro k _
  by_cases hk : k = n
  · subst hk
    rw [link_some hx, link_some (Function.update_self ..)]
  · exact link_update_of_ne hk

/-! ## The invariant -/

/-- What holds of a node with `refs` references when `a` is held. -/
def CellOk (c : Option Cell) (refs n : ℕ) (a : Hold) : Prop :=
  match c with
  | none => refs = 0 ∧ a.dying.count n = 0 ∧ a.active.count n = 0
  | some x => x.count = refs ∧ (0 < a.untouched.count n → refs = 1) ∧
      a.dying.count n = (if refs = 0 then 1 else 0) ∧ a.active.count n ≤ 1

/-- The invariant of the protocol. -/
structure Ok (cells : ℕ → Option Cell) (next : ℕ) (hold : Hold) : Prop where
  /-- Addresses are not used twice. -/
  unborn : ∀ n, next ≤ n → cells n = none
  /-- A parent is older. -/
  parent : ∀ n x p, cells n = some x → x.parent = some p → p < n
  /-- The count of a node is the number of references to it, which are to nodes that live; at
      0 one thread is about to free it. -/
  cell : ∀ n, CellOk (cells n) ((refs cells next hold).count n) n hold
  making : ∀ n m, (n, m) ∈ hold.making → ∃ x, cells m = some x ∧ x.parent = some n

variable {cells : ℕ → Option Cell} {next n m : ℕ} {hold rest old new : Hold} {x : Cell}

theorem count_refs (cells : ℕ → Option Cell) (next : ℕ) (hold : Hold) (n : ℕ) :
    (refs cells next hold).count n = hold.owned.count n + (links cells next).count n :=
  Multiset.count_add ..

theorem untouched_le_owned (a : Hold) (n : ℕ) : a.untouched.count n ≤ a.owned.count n :=
  Multiset.count_le_of_le n a.untouched_le

namespace Ok

theorem lt_next (h : Ok cells next hold) (hx : cells n = some x) : n < next := by
  by_contra hge
  rw [h.unborn n (Nat.le_of_not_lt hge)] at hx
  cases hx

/-- Whatever is referred to lives. -/
theorem live_of_refs (h : Ok cells next hold) (hn : n ∈ refs cells next hold) :
    ∃ x, cells n = some x := by
  have hpos := Multiset.count_pos.mpr hn
  have hcell := h.cell n
  cases hx : cells n with
  | none =>
    rw [hx] at hcell
    exact absurd hcell.1 hpos.ne'
  | some x => exact ⟨x, rfl⟩

/-- What is held lives. -/
theorem live_of_owned (h : Ok cells next hold) (hn : n ∈ hold.owned) : ∃ x, cells n = some x :=
  h.live_of_refs (Multiset.mem_add.mpr (.inl hn))

/-- What is about to be freed lives. -/
theorem live_of_dying (h : Ok cells next hold) (hn : n ∈ hold.dying) : ∃ x, cells n = some x := by
  have hpos := Multiset.count_pos.mpr hn
  have hcell := h.cell n
  cases hx : cells n with
  | none =>
    rw [hx] at hcell
    exact absurd hcell.2.1 hpos.ne'
  | some x => exact ⟨x, rfl⟩

/-- A child is a reference to its parent. -/
theorem mem_links (h : Ok cells next hold) (hx : cells m = some x) (hp : x.parent = some n) :
    n ∈ links cells next :=
  RefTree.mem_links.mpr ⟨m, h.lt_next hx, x, hx, hp⟩

theorem count_links_pos (h : Ok cells next hold) (hx : cells m = some x)
    (hp : x.parent = some n) : 0 < (links cells next).count n :=
  Multiset.count_pos.mpr (h.mem_links hx hp)

/-- A parent lives as long as its children. -/
theorem live_of_child (h : Ok cells next hold) (hx : cells m = some x)
    (hp : x.parent = some n) : ∃ y, cells n = some y :=
  h.live_of_refs (Multiset.mem_add.mpr (.inr (h.mem_links hx hp)))

/-- A node about to be freed has no references. -/
theorem refs_of_dying (h : Ok cells next hold) (hn : n ∈ hold.dying) :
    (refs cells next hold).count n = 0 := by
  obtain ⟨x, hx⟩ := h.live_of_dying hn
  have hpos := Multiset.count_pos.mpr hn
  have hcell := h.cell n
  rw [hx] at hcell
  by_contra hne
  rw [hcell.2.2.1, if_neg hne] at hpos
  exact absurd hpos (lt_irrefl 0)

/-- One thread is about to free it. -/
theorem dying_of_refs (h : Ok cells next hold) (hn : n ∈ hold.dying) : hold.dying.count n = 1 := by
  obtain ⟨x, hx⟩ := h.live_of_dying hn
  have hcell := h.cell n
  rw [hx] at hcell
  rw [hcell.2.2.1, if_pos (h.refs_of_dying hn)]

/-- A node about to be freed has no children. -/
theorem no_child_of_dying (h : Ok cells next hold) (hn : n ∈ hold.dying)
    (hx : cells m = some x) : x.parent ≠ some n := by
  intro hp
  have hlink := h.count_links_pos hx hp
  have hzero := h.refs_of_dying hn
  rw [count_refs] at hzero
  omega

/-- What nothing else refers to has one reference. -/
theorem refs_of_untouched (h : Ok cells next hold) (hn : n ∈ hold.untouched) :
    (refs cells next hold).count n = 1 := by
  obtain ⟨x, hx⟩ := h.live_of_owned (Multiset.mem_of_le hold.untouched_le hn)
  have hcell := h.cell n
  rw [hx] at hcell
  exact hcell.2.1 (Multiset.count_pos.mpr hn)

/-- An untouched node has no children. -/
theorem no_child_of_untouched (h : Ok cells next hold) (hn : n ∈ hold.untouched)
    (hx : cells m = some x) : x.parent ≠ some n := by
  intro hp
  have hlink := h.count_links_pos hx hp
  have hpos := Multiset.count_pos.mpr hn
  have hle := untouched_le_owned hold n
  have hone := h.refs_of_untouched hn
  rw [count_refs] at hone
  omega

/-- The own reference of a node is held once. -/
theorem active_le (h : Ok cells next hold) (n : ℕ) : hold.active.count n ≤ 1 := by
  have hcell := h.cell n
  cases hx : cells n with
  | none =>
    rw [hx] at hcell
    exact hcell.2.2.le.trans zero_le_one
  | some x =>
    rw [hx] at hcell
    exact hcell.2.2.2

/-- An own reference is held in one way. -/
theorem not_touched_of_untouched (h : Ok cells next hold) (hn : n ∈ hold.untouched) :
    n ∉ hold.touched := by
  intro hn'
  have hle := h.active_le n
  rw [Hold.active_eq, Multiset.count_add] at hle
  have hpos := Multiset.count_pos.mpr hn
  have hpos' := Multiset.count_pos.mpr hn'
  omega

/-- What is born with one reference and is still held lives. -/
theorem live_of_active (h : Ok cells next hold) (hn : n ∈ hold.active) : ∃ x, cells n = some x := by
  have hpos := Multiset.count_pos.mpr hn
  have hcell := h.cell n
  cases hx : cells n with
  | none =>
    rw [hx] at hcell
    exact absurd hcell.2.2 hpos.ne'
  | some x => exact ⟨x, rfl⟩

/-- **No leaks.**  When nothing is held, every node has been freed. -/
theorem empty (h : Ok cells next 0) (n : ℕ) : cells n = none := by
  -- A node that is left is referred to by a younger one.
  induction hk : next - n using Nat.strong_induction_on generalizing n with
  | _ k ih =>
    cases hx : cells n with
    | none => rfl
    | some x =>
      exfalso
      have hlt := h.lt_next hx
      have hcell := h.cell n
      rw [hx] at hcell
      have hpos : 0 < (refs cells next 0).count n := by
        by_contra hzero
        have hdying := hcell.2.2.1
        rw [if_pos (Nat.eq_zero_of_not_pos hzero)] at hdying
        cases hdying
      rw [count_refs, Hold.owned_zero, Multiset.count_zero, zero_add] at hpos
      obtain ⟨m, _, y, hy, hp⟩ := RefTree.mem_links.mp (Multiset.count_pos.mp hpos)
      have hyoung := h.parent m y n hy hp
      have hnone := ih (next - m) (by omega) m rfl
      rw [hy] at hnone
      cases hnone

/-- The heap is empty at first. -/
theorem initial : Ok (fun _ => none) 0 0 where
  unborn _ _ := rfl
  parent _ _ _ h := by cases h
  cell n := ⟨by simp [refs, links], rfl, rfl⟩
  making _ _ h := absurd h (Multiset.notMem_zero _)

/-! ## What the actions keep -/

/-- A step that changes the count of one node, and what is held of it. -/
theorem recount {c : ℕ} (h : Ok cells next (rest + old)) (hx : cells n = some x)
    (hother : ∀ k, k ≠ n → new.owned.count k = old.owned.count k ∧
      new.untouched.count k ≤ old.untouched.count k ∧ new.dying.count k = old.dying.count k ∧
      new.active.count k ≤ old.active.count k)
    (hself : CellOk (some { x with count := c })
      ((rest + new).owned.count n + (links cells next).count n) n (rest + new))
    (hmaking : ∀ p ∈ new.making, p ∈ old.making) :
    Ok (Function.update cells n (some { x with count := c })) next (rest + new) where
  unborn k hk := by
    have hne : k ≠ n := fun heq => absurd (h.lt_next hx) (by omega)
    rw [Function.update_of_ne hne]
    exact h.unborn k hk
  parent k y p hy hp := by
    by_cases hk : k = n
    · subst hk
      rw [Function.update_self] at hy
      cases hy
      exact h.parent k x p hx hp
    · rw [Function.update_of_ne hk] at hy
      exact h.parent k y p hy hp
  -- What is held of the other nodes is the same or less, and their counters stay.
  cell k := by
    rw [count_refs, links_count hx]
    by_cases hk : k = n
    · subst hk
      rw [Function.update_self]
      exact hself
    · have hcell := h.cell k
      obtain ⟨howned, huntouched, hdying, hactive⟩ := hother k hk
      rw [count_refs] at hcell
      rw [Function.update_of_ne hk]
      simp only [CellOk, Hold.owned_add, Hold.untouched_add, Hold.add_dying, Hold.active_add,
        Multiset.count_add, howned, hdying] at hcell ⊢
      cases hy : cells k with
      | none =>
        rw [hy] at hcell
        exact ⟨hcell.1, hcell.2.1, by have := hcell.2.2; omega⟩
      | some y =>
        rw [hy] at hcell
        exact ⟨hcell.1, fun hpos => hcell.2.1 (by omega), hcell.2.2.1, by
          have := hcell.2.2.2; omega⟩
  -- A child in the making keeps its parent.
  making a b hab := by
    have hold : (a, b) ∈ (rest + old).making := by
      rcases Multiset.mem_add.mp hab with hrest | hnew
      · exact Multiset.mem_add.mpr (.inl hrest)
      · exact Multiset.mem_add.mpr (.inr (hmaking _ hnew))
    obtain ⟨y, hy, hp⟩ := h.making a b hold
    by_cases hb : b = n
    · subst hb
      rw [hx] at hy
      cases hy
      exact ⟨_, Function.update_self .., hp⟩
    · exact ⟨y, (Function.update_of_ne hb ..).trans hy, hp⟩

/-- What is held of a node changes, its count does not. -/
theorem rehold (h : Ok cells next (rest + old)) (howned : new.owned = old.owned)
    (huntouched : new.untouched ≤ old.untouched)
    (hdying : new.dying = old.dying) (hactive : new.active ≤ old.active)
    (hmaking : new.making ≤ old.making) : Ok cells next (rest + new) := by
  have hrefs : refs cells next (rest + new) = refs cells next (rest + old) := by
    rw [refs, refs, Hold.owned_add, Hold.owned_add, howned]
  refine ⟨h.unborn, h.parent, fun k => ?_, fun a b hab => h.making a b ?_⟩
  · have hcell := h.cell k
    have huntouched := Multiset.count_le_of_le k huntouched
    have hactive := Multiset.count_le_of_le k hactive
    rw [hrefs]
    simp only [CellOk, Hold.untouched_add, Hold.add_dying, Hold.active_add, Multiset.count_add,
      hdying] at hcell ⊢
    cases hx : cells k with
    | none =>
      rw [hx] at hcell
      exact ⟨hcell.1, hcell.2.1, by have := hcell.2.2; omega⟩
    | some x =>
      rw [hx] at hcell
      exact ⟨hcell.1, fun hpos => hcell.2.1 (by omega), hcell.2.2.1, by
        have := hcell.2.2.2; omega⟩
  · rw [Hold.add_making] at hab ⊢
    exact Multiset.mem_of_le (Multiset.add_le_add_left hmaking) hab

/-- From now on others may refer to the node. -/
theorem touch (h : Ok cells next (rest + .ofFresh n)) : Ok cells next (rest + .ofOwn n) :=
  h.rehold (by simp) (by simp) rfl (by simp) le_rfl

/-- The own reference becomes one like others. -/
theorem share (h : Ok cells next (rest + .ofOwn n)) : Ok cells next (rest + .ofHeld n) :=
  h.rehold (by simp) (by simp) rfl (by simp) le_rfl

/-- A node that is held is counted. -/
theorem count_of_held (h : Ok cells next (rest + .ofHeld n)) (hx : cells n = some x) :
    x.count = rest.owned.count n + 1 + (links cells next).count n ∧ rest.dying.count n = 0 ∧
      rest.active.count n ≤ 1 := by
  have hcell := h.cell n
  rw [hx, count_refs] at hcell
  simp only [CellOk, Hold.owned_add, Hold.owned_ofHeld, Hold.add_dying, Hold.dying_ofHeld,
    Hold.active_add, Hold.active_ofHeld, add_zero, Multiset.count_add,
    Multiset.count_singleton_self] at hcell
  refine ⟨hcell.1, ?_, hcell.2.2.2⟩
  rw [hcell.2.2.1, if_neg (by omega)]

/-- A reference is given up that is not the last. -/
theorem release (h : Ok cells next (rest + .ofHeld n)) (hx : cells n = some x)
    (hcount : x.count ≠ 1) :
    Ok (Function.update cells n (some { x with count := x.count - 1 })) next rest := by
  obtain ⟨hheld, hdying, hactive⟩ := h.count_of_held hx
  have hcell := h.cell n
  rw [hx] at hcell
  have hrest : Ok (Function.update cells n (some { x with count := x.count - 1 })) next
      (rest + 0) := by
    refine h.recount hx (fun k hk => by simp [hk]) ?_
      (fun p hp => absurd hp (Multiset.notMem_zero p))
    rw [add_zero]
    refine ⟨by simp only; omega, fun hpos => ?_, ?_, hactive⟩
    · exfalso
      have hone := hcell.2.1 (by simpa using hpos)
      exact hcount (hcell.1.trans hone)
    · rw [hdying, if_neg (by omega)]
  rwa [add_zero] at hrest

/-- The last reference is given up. -/
theorem last (h : Ok cells next (rest + .ofHeld n)) (hx : cells n = some x)
    (hcount : x.count = 1) :
    Ok (Function.update cells n (some { x with count := 0 })) next (rest + .ofDying n) := by
  obtain ⟨hheld, hdying, hactive⟩ := h.count_of_held hx
  have hle := untouched_le_owned rest n
  refine h.recount (c := 0) hx (fun k hk => by simp [hk]) ?_
    (fun p hp => absurd hp (Multiset.notMem_zero p))
  simp only [CellOk, Hold.owned_add, Hold.owned_ofDying, Hold.untouched_add,
    Hold.untouched_ofDying, Hold.add_dying, Hold.dying_ofDying, Hold.active_add,
    Hold.active_ofDying, Multiset.count_add, add_zero, Multiset.count_singleton_self, hdying]
  refine ⟨by omega, fun hpos => by omega, ?_, hactive⟩
  rw [if_pos (by omega)]

/-- The parent counts a child. -/
theorem counted (h : Ok cells next (rest + .ofMaking n m)) (hx : cells n = some x) :
    Ok (Function.update cells n (some { x with count := x.count + 1 })) next
      (rest + (.ofOwn n + .ofFresh m)) := by
  obtain ⟨y, hy, hp⟩ := h.making n m (by simp)
  have hlink := h.count_links_pos hy hp
  have hne : n ≠ m := (h.parent m y n hy hp).ne
  have hcell := h.cell n
  have hle := untouched_le_owned rest n
  rw [hx, count_refs] at hcell
  simp only [CellOk, Hold.owned_add, Hold.owned_ofMaking, Hold.untouched_add,
    Hold.untouched_ofMaking, Hold.add_dying, Hold.dying_ofMaking, Hold.active_add,
    Hold.active_ofMaking, Multiset.count_add, Multiset.count_singleton, if_neg hne,
    add_zero] at hcell
  refine h.recount hx (fun k hk => by simp [hk]) ?_ (fun p hp => absurd hp (Multiset.notMem_zero p))
  simp only [CellOk, Hold.owned_add, Hold.owned_ofOwn, Hold.owned_ofFresh, Hold.untouched_add,
    Hold.untouched_ofOwn, Hold.untouched_ofFresh, Hold.add_dying, Hold.dying_ofOwn,
    Hold.dying_ofFresh, Hold.active_add, Hold.active_ofOwn, Hold.active_ofFresh,
    Multiset.count_add, Multiset.count_singleton, if_neg hne, add_zero, Multiset.count_zero]
  -- Its child refers to it, so it has been touched and is not about to be freed.
  refine ⟨by simp only [if_true]; omega, fun hpos => ?_, ?_, hcell.2.2.2⟩
  · have hone := hcell.2.1 (by omega)
    omega
  · rw [hcell.2.2.1, if_neg (by omega), if_neg (by omega)]

/-- A node that is new, and what is held of it and its parent. -/
theorem grow {p : Option ℕ} (h : Ok cells next (rest + old))
    (hparent : ∀ q, p = some q → q ∈ old.owned)
    (howned : new.owned + (p.toList : Multiset ℕ) = old.owned + {next})
    (huntouched : new.untouched = old.untouched + {next}) (hdying : new.dying = old.dying)
    (hactive : new.active = old.active + {next})
    (hmaking : ∀ q ∈ new.making, q ∈ old.making ∨ q.2 = next ∧ p = some q.1) :
    Ok (Function.update cells next (some ⟨p, 1⟩)) (next + 1) (rest + new) := by
  -- The new node is the only one with one reference more.
  have hrefs : refs (Function.update cells next (some ⟨p, 1⟩)) (next + 1) (rest + new) =
      refs cells next (rest + old) + {next} := by
    simp only [refs, links_new, Hold.owned_add]
    calc rest.owned + new.owned + (links cells next + (p.toList : Multiset ℕ))
        = rest.owned + (new.owned + (p.toList : Multiset ℕ)) + links cells next := by abel
      _ = rest.owned + old.owned + links cells next + {next} := by rw [howned]; abel
  refine ⟨fun k hk => ?_, fun k y q hy hq => ?_, fun k => ?_, fun a b hab => ?_⟩
  · rw [Function.update_of_ne (by omega)]
    exact h.unborn k (by omega)
  · by_cases hk : k = next
    · subst hk
      rw [Function.update_self] at hy
      cases hy
      obtain ⟨z, hz⟩ := h.live_of_owned (n := q) (by
        rw [Hold.owned_add]
        exact Multiset.mem_add.mpr (.inr (hparent q hq)))
      exact h.lt_next hz
    · rw [Function.update_of_ne hk] at hy
      exact h.parent k y q hy hq
  · have hcell := h.cell k
    simp only [CellOk, hrefs, Hold.untouched_add, huntouched, Hold.add_dying, hdying,
      Hold.active_add, hactive, Multiset.count_add] at hcell ⊢
    by_cases hk : k = next
    · subst hk
      rw [h.unborn k le_rfl] at hcell
      rw [Function.update_self, hcell.1, hcell.2.1]
      exact ⟨by simp, fun _ => by simp, by simp, by simp; omega⟩
    · rw [Function.update_of_ne hk]
      simpa only [Multiset.count_singleton, if_neg hk, add_zero] using hcell
  · have hold : (a, b) ∈ (rest + old).making ∨ b = next ∧ p = some a := by
      rcases Multiset.mem_add.mp hab with hrest | hnew
      · exact .inl (Multiset.mem_add.mpr (.inl hrest))
      · exact (hmaking _ hnew).imp (fun hold => Multiset.mem_add.mpr (.inr hold)) id
    rcases hold with hold | ⟨rfl, hp⟩
    · obtain ⟨y, hy, hq⟩ := h.making a b hold
      exact ⟨y, (Function.update_of_ne (h.lt_next hy).ne ..).trans hy, hq⟩
    · exact ⟨_, Function.update_self .., hp⟩

/-- A new node without a parent. -/
theorem root (h : Ok cells next rest) :
    Ok (Function.update cells next (some ⟨none, 1⟩)) (next + 1) (rest + .ofFresh next) := by
  rw [← add_zero rest] at h
  refine h.grow (fun q hq => by cases hq) (by simp) (by simp) rfl (by simp) ?_
  exact fun q hq => absurd hq (Multiset.notMem_zero q)

/-- A new child of a node. -/
theorem child (h : Ok cells next (rest + .ofOwn n)) :
    Ok (Function.update cells next (some ⟨some n, 1⟩)) (next + 1) (rest + .ofMaking n next) := by
  refine h.grow (fun q hq => ?_) ?_ (by simp) rfl (by simp) fun q hq => ?_
  · cases hq
    simp
  · simp [add_comm]
  · rw [Hold.making_ofMaking, Multiset.mem_singleton] at hq
    exact .inr ⟨by rw [hq], by rw [hq]⟩

/-- A node without further references is freed, and its reference to its parent is held. -/
theorem freed (h : Ok cells next (rest + old)) (hx : cells n = some x)
    (hown : (rest + Hold.ofParent x.parent).owned.count n = 0)
    (hlinks : (links cells next).count n = 0) (hdying : rest.dying.count n = 0)
    (hactive : rest.active.count n = 0) (hmaking : old.making = 0)
    (hother : ∀ k, k ≠ n → old.owned.count k = 0 ∧ old.untouched.count k = 0 ∧
      old.dying.count k = 0 ∧ old.active.count k = 0) :
    Ok (Function.update cells n none) next (rest + .ofParent x.parent) := by
  have hfree := links_free (h.lt_next hx) hx
  -- The node was a child of its parent, and of no other.
  have hcount : ∀ k, (links (Function.update cells n none) next).count k +
      (x.parent.toList : Multiset ℕ).count k = (links cells next).count k := by
    intro k
    rw [← hfree, Multiset.count_add]
  refine ⟨fun k hk => ?_, fun k y q hy hq => ?_, fun k => ?_, fun a b hab => ?_⟩
  · rw [Function.update_of_ne (by have := h.lt_next hx; omega)]
    exact h.unborn k hk
  · by_cases hk : k = n
    · subst hk
      rw [Function.update_self] at hy
      cases hy
    · rw [Function.update_of_ne hk] at hy
      exact h.parent k y q hy hq
  · have hk := hcount k
    by_cases hkn : k = n
    · subst hkn
      rw [Function.update_self, count_refs, hown]
      exact ⟨by omega, by simpa using hdying, by simpa using hactive⟩
    · have hcell := h.cell k
      obtain ⟨howned, huntouched, hdying, hactive⟩ := hother k hkn
      rw [count_refs] at hcell ⊢
      rw [Function.update_of_ne hkn]
      simp only [CellOk, Hold.owned_add, Hold.untouched_add, Hold.add_dying, Hold.active_add,
        Multiset.count_add, howned, huntouched, hdying, hactive, Hold.owned_ofParent,
        Hold.untouched_ofParent, Hold.dying_ofParent, Hold.active_ofParent,
        add_zero] at hcell ⊢
      rwa [add_assoc, add_comm (Multiset.count k (x.parent.toList : Multiset ℕ)), hk]
  · have hrest : (a, b) ∈ rest.making := by simpa using hab
    obtain ⟨y, hy, hq⟩ := h.making a b (by rw [Hold.add_making, hmaking, add_zero]; exact hrest)
    have hb : b ≠ n := by
      rintro rfl
      have hmem : b ∈ rest.owned :=
        Multiset.mem_add.mpr (.inr (Multiset.mem_map.mpr ⟨(a, b), hrest, rfl⟩))
      rw [Hold.owned_add, Multiset.count_add] at hown
      exact absurd (Multiset.count_pos.mpr hmem) (by omega)
    exact ⟨y, (Function.update_of_ne hb ..).trans hy, hq⟩

/-- The parent of a node is not the node. -/
theorem count_parent (h : Ok cells next hold) (hx : cells n = some x) :
    (x.parent.toList : Multiset ℕ).count n = 0 := by
  apply Multiset.count_eq_zero.mpr
  intro hmem
  rw [Multiset.mem_coe, Option.mem_toList] at hmem
  exact lt_irrefl _ (h.parent n x n hx hmem)

/-- Without references, nobody holds the node's own one. -/
theorem active_of_refs (h : Ok cells next hold) (hzero : (refs cells next hold).count n = 0) :
    hold.active.count n = 0 := by
  rw [count_refs] at hzero
  by_contra hne
  have hmem := Multiset.count_pos.mp (Nat.pos_of_ne_zero hne)
  rw [Hold.active, Multiset.mem_add, Multiset.mem_add] at hmem
  rcases hmem with (hmem | hmem) | hmem
  · have hown : n ∈ hold.owned := by
      rw [Hold.owned, Multiset.mem_add, Multiset.mem_add]
      exact .inl (.inl hmem)
    have hpos := Multiset.count_pos.mpr hown
    omega
  · obtain ⟨⟨a, b⟩, hab, rfl⟩ := Multiset.mem_map.mp hmem
    obtain ⟨y, hy, hp⟩ := h.making a b hab
    have hpos := h.count_links_pos hy hp
    simp only at hzero
    omega
  · have hown : n ∈ hold.owned := Multiset.mem_add.mpr (.inr hmem)
    have hpos := Multiset.count_pos.mpr hown
    omega

/-- A node about to be freed is freed. -/
theorem free (h : Ok cells next (rest + .ofDying n)) (hx : cells n = some x) :
    Ok (Function.update cells n none) next (rest + .ofParent x.parent) := by
  have hparent := h.count_parent hx
  have hzero := h.refs_of_dying (n := n) (by simp)
  have hactive := h.active_of_refs hzero
  have hcell := h.cell n
  rw [hx] at hcell
  have hdying := hcell.2.2.1
  rw [if_pos hzero] at hdying
  rw [count_refs] at hzero
  simp only [Hold.owned_add, Hold.owned_ofDying, Hold.add_dying, Hold.dying_ofDying,
    Hold.active_add, Hold.active_ofDying, add_zero, Multiset.count_add,
    Multiset.count_singleton_self] at hzero hdying hactive
  refine h.freed hx ?_ (by omega) (by omega) hactive rfl fun k hk => by simp [hk]
  simp only [Hold.owned_add, Hold.owned_ofParent, Multiset.count_add]
  omega

/-- A node that nothing else has referred to is freed. -/
theorem discard (h : Ok cells next (rest + .ofFresh n)) (hx : cells n = some x) :
    Ok (Function.update cells n none) next (rest + .ofParent x.parent) := by
  have hparent := h.count_parent hx
  have hone := h.refs_of_untouched (n := n) (by simp)
  have hcell := h.cell n
  rw [hx] at hcell
  have hdying := hcell.2.2.1
  have hactive := hcell.2.2.2
  rw [if_neg (by omega)] at hdying
  rw [count_refs] at hone
  simp only [Hold.owned_add, Hold.owned_ofFresh, Hold.add_dying, Hold.dying_ofFresh,
    Hold.active_add, Hold.active_ofFresh, add_zero, Multiset.count_add,
    Multiset.count_singleton_self] at hone hdying hactive
  refine h.freed hx ?_ (by omega) (by omega) (by omega) rfl fun k hk => by simp [hk]
  simp only [Hold.owned_add, Hold.owned_ofParent, Multiset.count_add]
  omega

end Ok

end Remmy.Lib.RefTree
