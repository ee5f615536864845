import Remmy.Collections.HeapArrayOwnership

/-!
# The Member Functions, One by One

What the pieces of `HeapArray` do to the arrays and the blocks of a world, each as a rule with its
two outcomes: it returns, or something was thrown and neither an array nor a block is another.
-/

namespace Remmy.Collections

open Remmy.Lib Program

variable {ι A T : Type} [Setoid A]

/-- The arrays and the blocks of a world. -/
structure World.Is (w : World ι A T) (array : ι → Option (HeapArray A))
    (block : ℕ → Option (Block A T)) : Prop where
  array_eq : w.array = array
  block_eq : w.memory.block = block

variable {w : World ι A T} {array : ι → Option (HeapArray A)} {block : ℕ → Option (Block A T)}
  {R : Exception → World ι A T → Prop}

/-! ## Pointers -/

section Pointers

variable {p count : ℕ} {owner : A} {l : List T}

/-- The memory changes as it should, and nothing else. -/
theorem onMemory_ends {block' : ℕ → Option (Block A T)} {f : Memory A T → Option (Memory A T)}
    (hw : w.Is array block)
    (hf : ∃ m', f w.memory = some m' ∧ m'.next = w.memory.next ∧ m'.block = block') :
    Ends (onMemory f) w (fun _ w' => w'.Is array block') R := by
  obtain ⟨m', hm', -, hblock⟩ := hf
  apply Ends.change
  · show (f w.memory).map _ = _
    rw [hm']
    rfl
  · exact ⟨hw.array_eq, hblock⟩

theorem load_ends (hw : w.Is array block) (hp : block p = some (.ofList owner count l)) {i : ℕ}
    {x : T} (hx : l[i]? = some x) {Q : T → World ι A T → Prop} (h : Q x w) :
    Ends (load (some p) i) w Q R := by
  apply Ends.read (a := x)
  · show w.memory.load p i = _
    rw [Memory.load_ofList (hw.block_eq ▸ hp)]
    exact hx
  · exact h

theorem construct_ends (hw : w.Is array block) (hp : block p = some (.ofList owner count l))
    (hlt : l.length < count) (x : T) :
    Ends (construct (some p) l.length x) w
      (fun _ w' => w'.Is array (Function.update block p (some (.ofList owner count (l ++ [x])))))
      R := by
  apply onMemory_ends hw
  rw [← hw.block_eq] at hp ⊢
  exact Memory.construct_ofList hp hlt x

theorem store_ends (hw : w.Is array block) (hp : block p = some (.ofList owner count l)) {i : ℕ}
    (hi : i < l.length) (x : T) :
    Ends (store (some p) i x) w
      (fun _ w' => w'.Is array (Function.update block p (some (.ofList owner count (l.set i x)))))
      R := by
  apply onMemory_ends hw
  rw [← hw.block_eq] at hp ⊢
  exact Memory.store_ofList hp hi x

theorem destroy_ends {x : T} (hw : w.Is array block)
    (hp : block p = some (.ofList owner count (l ++ [x]))) :
    Ends (destroy (some p) l.length) w
      (fun _ w' => w'.Is array (Function.update block p (some (.ofList owner count l)))) R := by
  apply onMemory_ends hw
  rw [← hw.block_eq] at hp ⊢
  exact Memory.destroy_ofList hp

theorem deallocate_ends [DecidableRel ((· ≈ ·) : A → A → Prop)] (hw : w.Is array block)
    (hp : block p = some (.ofList owner count [])) {a : A} (ha : owner ≈ a) :
    Ends (deallocate a (some p) count) w
      (fun _ w' => w'.Is array (Function.update block p none)) R := by
  apply onMemory_ends hw
  rw [← hw.block_eq] at hp ⊢
  exact Memory.deallocate_ofList hp ha

/-- A new block has a number that no block has. -/
theorem allocate_ends (traits : AllocTraits A T) (hw : w.Is array block) (a : A) (n : ℕ) :
    Ends (allocate traits a n) w
      (fun raw w' => ∃ p, raw = some p ∧ block p = none ∧
        w'.Is array (Function.update block p (some (.ofList a n []))))
      (fun _ w' => w'.Is array block) := by
  -- Every call counts, also one that is refused.
  apply Ends.bind
  apply Ends.read (a := w.calls)
  · rfl
  apply Ends.bind
  apply Ends.change
  · rfl
  by_cases hrefuses : traits.refuses w.calls
  · rw [if_pos hrefuses]
    exact Ends.throw ⟨hw.array_eq, hw.block_eq⟩
  · rw [if_neg hrefuses]
    apply Ends.bind
    apply Ends.read (a := w.memory.next)
    · rfl
    apply Ends.bind
    apply Ends.change
    · rfl
    apply Ends.pure
    refine ⟨w.memory.next, rfl, ?_, hw.array_eq, ?_⟩
    · rw [← hw.block_eq]
      exact w.memory.block_next
    · rw [← hw.block_eq]
      rfl

end Pointers

/-! ## Objects -/

section Objects

variable [DecidableEq ι] {this : ι} {h : HeapArray A}

omit [DecidableEq ι] in
theorem deref_ends (hw : w.Is array block) (hthis : array this = some h)
    {Q : HeapArray A → World ι A T → Prop} (hQ : Q h w) : Ends (deref this) w Q R := by
  apply Ends.read _ hQ
  rw [hw.array_eq]
  exact hthis

theorem assign_ends (hw : w.Is array block) (hthis : array this = some h)
    (f : HeapArray A → HeapArray A) :
    Ends (assign this f) w
      (fun _ w' => w'.Is (Function.update array this (some (f h))) block) R := by
  apply Ends.change
  · show (w.array this).map _ = _
    rw [hw.array_eq, hthis]
    rfl
  · exact ⟨rfl, hw.block_eq⟩

theorem emplace_ends (hw : w.Is array block) (hthis : array this = none) (h : HeapArray A) :
    Ends (emplace this h) w
      (fun _ w' => w'.Is (Function.update array this (some h)) block) R := by
  apply Ends.change
  · simp only [hw.array_eq, hthis]
    rfl
  · exact ⟨rfl, hw.block_eq⟩

theorem vanish_ends (hw : w.Is array block) (hthis : array this = some h) :
    Ends (vanish this) w (fun _ w' => w'.Is (Function.update array this none) block) R := by
  apply Ends.change
  · show (w.array this).map _ = _
    rw [hw.array_eq, hthis]
    rfl
  · exact ⟨rfl, hw.block_eq⟩

end Objects

/-! ## Storage -/

namespace HeapArray

section Release

variable [DecidableRel ((· ≈ ·) : A → A → Prop)] {this : ι} {h : HeapArray A} {l : List T}

/-- The objects are destroyed, the last first, and the block goes back to an equal allocator. -/
theorem destroyAndDeallocate_ends (hw : w.Is array block) (hthis : array this = some h)
    (hholds : Holds block h l) :
    Ends (destroyAndDeallocate this) w (fun _ w' => w'.Is array (place h.data none block)) R := by
  apply Ends.bind
  apply deref_ends hw hthis
  cases hdata : h.data with
  | none =>
    have hzero : h.size = 0 := by
      rw [hholds.size_eq, hholds.data_eq_none.mp hdata]
      rfl
    rw [if_pos hzero]
    exact Ends.pure hw
  | some p =>
    obtain ⟨owner, howner, hp⟩ := hholds.block_eq p hdata
    have hsize : h.size ≠ 0 := by
      rw [hholds.size_eq]
      intro hzero
      have hnone := hholds.data_eq_none.mpr (List.eq_nil_of_length_eq_zero hzero)
      rw [hdata] at hnone
      cases hnone
    rw [if_neg hsize, hholds.size_eq]
    -- While the loop runs, the objects that are left are the first ones.
    have hloop : Ends (Program.forDown (destroy (some p)) l.length) w
        (fun _ w' => w'.Is array
          (Function.update block p (some (.ofList owner l.length (l.take 0))))) R := by
      refine Ends.forDown (I := fun i (w' : World ι A T) => w'.Is array
        (Function.update block p (some (.ofList owner l.length (l.take i))))) ?_ ?_
      · intro i hi w' hw'
        rw [List.take_succ_eq_append_getElem hi] at hw'
        have hstep := destroy_ends (R := R) hw' (Function.update_self p _ _)
        rw [List.length_take_of_le hi.le, Function.update_idem] at hstep
        exact hstep
      · rw [List.take_length, ← hp, Function.update_eq_self]
        exact hw
    apply Ends.andThen hloop
    intro _ w' hw'
    rw [List.take_zero] at hw'
    apply (deallocate_ends hw' (Function.update_self p _ _) howner).imp
    intro _ w'' hw''
    rw [Function.update_idem] at hw''
    exact hw''

end Release

section Build

variable {init : Option ℕ → ℕ → Action ι A T Unit} {a : A} {l : List T}

/-- `init` makes the objects of `l`, one behind the other, in a block that is new.  Apart from that
    block there may be another change with each object: `blocks k` are the blocks after `k`. -/
def Initialises (array : ι → Option (HeapArray A)) (blocks : ℕ → ℕ → Option (Block A T))
    (init : Option ℕ → ℕ → Action ι A T Unit) (a : A) (l : List T)
    (R : Exception → World ι A T → Prop) : Prop :=
  ∀ p, blocks 0 p = none → ∀ k < l.length, ∀ w : World ι A T,
    w.Is array (Function.update (blocks k) p (some (.ofList a l.length (l.take k)))) →
    Ends (init (some p) k) w
      (fun _ w' => w'.Is array
        (Function.update (blocks (k + 1)) p (some (.ofList a l.length (l.take (k + 1)))))) R

/-- The elements are built in a new block; without elements there is none.  Where this throws,
    nothing has happened. -/
theorem buildBlock_ends (traits : AllocTraits A T) {blocks : ℕ → ℕ → Option (Block A T)}
    (hw : w.Is array (blocks 0))
    (hinit : Initialises array blocks init a l fun _ w' => w'.Is array (blocks 0)) :
    Ends (buildBlock traits a l.length init) w
      (fun data w' => (data = none ↔ l = []) ∧ (∀ p, data = some p → blocks 0 p = none) ∧
        w'.Is array (place data (some (.ofList a l.length l)) (blocks l.length)))
      (fun _ w' => w'.Is array (blocks 0)) := by
  unfold buildBlock
  by_cases hl : l.length = 0
  · rw [if_pos hl]
    have hnil : l = [] := List.eq_nil_of_length_eq_zero hl
    apply Ends.pure
    refine ⟨Iff.intro (fun _ => hnil) fun _ => rfl, fun p hp => (by cases hp), ?_⟩
    rw [hl]
    exact hw
  · rw [if_neg hl]
    by_cases hmax : maxSize traits a < l.length
    · rw [if_pos hmax]
      exact Ends.throw hw
    · rw [if_neg hmax]
      unfold allocateBlock
      rw [if_neg hl]
      apply Ends.andThen (allocate_ends traits hw a l.length)
      rintro _ w' ⟨p, rfl, hp, hw'⟩
      -- While the loop runs, the first objects are made.
      apply Ends.andThen (Ends.forUp (I := fun k w => w.Is array
        (Function.update (blocks k) p (some (.ofList a l.length (l.take k)))))
        (fun k hk w hI => hinit p hp k hk w hI) hw')
      intro _ w'' hw''
      rw [List.take_length] at hw''
      apply Ends.pure
      refine ⟨Iff.intro (fun hnone => by cases hnone) ?_, ?_, hw''⟩
      · intro hnil
        rw [hnil] at hl
        exact absurd rfl hl
      · intro q hq
        cases hq
        exact hp

/-- An element that is constructed and nothing else. -/
theorem Initialises.of_construct
    (h : ∀ p, block p = none → ∀ k, (hk : k < l.length) → ∀ (w : World ι A T) b,
      w.Is array (Function.update block p b) → ∀ Q : Unit → World ι A T → Prop,
      Ends (Collections.construct (some p) k l[k]) w Q R → Ends (init (some p) k) w Q R) :
    Initialises array (fun _ => block) init a l R := by
  intro p hp k hk w hw
  apply h p hp k hk w _ hw
  have hlength : (l.take k).length = k := List.length_take_of_le hk.le
  have hlt : (l.take k).length < l.length := hlength.symm ▸ hk
  have hstep := construct_ends (R := R) hw (Function.update_self p _ _) hlt l[k]
  rw [hlength, Function.update_idem, ← List.take_succ_eq_append_getElem hk] at hstep
  exact hstep

/-- The elements an iterator goes through. -/
theorem fromIterator_initialises :
    Initialises array (fun _ => block) (fromIterator l) a l R := by
  apply Initialises.of_construct
  intro p _ k hk w b _ Q h
  apply Ends.bind
  apply Ends.read (a := l[k])
  · exact List.getElem?_eq_getElem hk
  · exact h

/-- The elements of another array, copied. -/
theorem copyElement_initialises {o : HeapArray A} (ho : Holds block o l) :
    Initialises array (fun _ => block) (copyElement o.data) a l R := by
  apply Initialises.of_construct
  intro p hp k hk w b hw Q h
  cases hdata : o.data with
  | none =>
    rw [ho.data_eq_none.mp hdata] at hk
    cases hk
  | some q =>
    obtain ⟨owner, -, hq⟩ := ho.block_eq q hdata
    have hpq : q ≠ p := by
      intro heq
      rw [heq, hp] at hq
      cases hq
    apply Ends.bind
    exact load_ends hw ((Function.update_of_ne hpq _ _).trans hq) (List.getElem?_eq_getElem hk) h

/-- A list whose first `k` elements were moved from. -/
def movedPrefix (f : T → T) (l : List T) (k : ℕ) : List T := (l.take k).map f ++ l.drop k

omit [Setoid A] in
theorem length_movedPrefix (f : T → T) (l : List T) (k : ℕ) :
    (movedPrefix f l k).length = l.length := by
  rw [movedPrefix, List.length_append, List.length_map, ← List.length_append, List.take_append_drop]

theorem movedPrefix_eq (f : T → T) {l : List T} {k : ℕ} (hk : k < l.length) :
    movedPrefix f l k = (l.take k).map f ++ l[k] :: l.drop (k + 1) := by
  rw [movedPrefix, List.drop_eq_getElem_cons hk]

/-- The next element was not moved from. -/
theorem movedPrefix_getElem? (f : T → T) {l : List T} {k : ℕ} (hk : k < l.length) :
    (movedPrefix f l k)[k]? = some l[k] := by
  have hlength : ((l.take k).map f).length = k := by
    rw [List.length_map, List.length_take_of_le hk.le]
  rw [movedPrefix_eq f hk, List.getElem?_append_right hlength.le, hlength, Nat.sub_self]
  rfl

/-- One more element is moved from. -/
theorem movedPrefix_set (f : T → T) {l : List T} {k : ℕ} (hk : k < l.length) :
    (movedPrefix f l k).set k (f l[k]) = movedPrefix f l (k + 1) := by
  have hlength : ((l.take k).map f).length = k := by
    rw [List.length_map, List.length_take_of_le hk.le]
  rw [movedPrefix_eq f hk, List.set_append_right _ _ hlength.le, hlength, Nat.sub_self,
    List.set_cons_zero, movedPrefix, List.take_succ_eq_append_getElem hk, List.map_append,
    List.append_assoc]
  rfl

/-- The elements of another array, moved: those of the other array are what a move leaves. -/
theorem buildBlock_moveElement_ends (traits : AllocTraits A T) (hw : w.Is array block)
    {o : HeapArray A} (ho : Holds block o l) :
    Ends (buildBlock traits a l.length (moveElement traits o.data)) w
      (fun data w' => ∃ block', Holds block' o (l.map traits.movedElement) ∧
        (∀ p, o.data ≠ some p → block' p = block p) ∧
        (data = none ↔ l = []) ∧ (∀ p, data = some p → block' p = none) ∧
        w'.Is array (place data (some (.ofList a l.length l)) block'))
      (fun _ w' => w'.Is array block) := by
  cases hdata : o.data with
  | none =>
    -- There is nothing to move.
    have hnil : l = [] := ho.data_eq_none.mp hdata
    subst hnil
    have hnone : Initialises array (fun _ => block) (moveElement traits none) a ([] : List T)
        (fun _ w' => w'.Is array block) := fun p _ k hk => (by cases hk)
    apply (buildBlock_ends traits hw hnone).imp
    rintro data w' ⟨hiff, hfresh, hw'⟩
    exact ⟨block, ho, fun _ _ => rfl, hiff, hfresh, hw'⟩
  | some q =>
    obtain ⟨owner, howner, hq⟩ := ho.block_eq q hdata
    -- The other array when `k` of its elements have been moved from.
    let blocks (k : ℕ) : ℕ → Option (Block A T) :=
      Function.update block q (some (.ofList owner l.length (movedPrefix traits.movedElement l k)))
    have hblocks : blocks 0 = block := by
      show Function.update block q (some (.ofList owner l.length l)) = block
      rw [← hq]
      exact Function.update_eq_self q block
    have hinit : Initialises array blocks (moveElement traits (some q)) a l
        (fun _ w' => w'.Is array (blocks 0)) := by
      intro p hp k hk w hw
      -- The new block is not the one of the other array.
      have hpq : q ≠ p := by
        intro heq
        rw [hblocks, ← heq, hq] at hp
        cases hp
      have hlength : (l.take k).length = k := List.length_take_of_le hk.le
      have hsource : Function.update (blocks k) p (some (.ofList a l.length (l.take k))) q =
          some (.ofList owner l.length (movedPrefix traits.movedElement l k)) := by
        rw [Function.update_of_ne hpq]
        exact Function.update_self q _ block
      have hk' : k < (movedPrefix traits.movedElement l k).length :=
        (length_movedPrefix traits.movedElement l k).symm ▸ hk
      apply Ends.bind
      apply load_ends hw hsource (movedPrefix_getElem? traits.movedElement hk)
      apply Ends.bind
      -- The element is built in the new block, and what is left of it stays in the old one.
      have hstep := construct_ends (R := fun _ w' => w'.Is array (blocks 0)) hw
        (Function.update_self p _ _) (hlength.symm ▸ hk) l[k]
      rw [hlength, Function.update_idem, ← List.take_succ_eq_append_getElem hk] at hstep
      apply hstep.imp
      intro _ w' hw'
      have hsource' : Function.update (blocks k) p (some (.ofList a l.length (l.take (k + 1)))) q =
          some (.ofList owner l.length (movedPrefix traits.movedElement l k)) := by
        rw [Function.update_of_ne hpq]
        exact Function.update_self q _ block
      have hstore := store_ends (R := fun _ w' => w'.Is array (blocks 0)) hw' hsource' hk'
        (traits.movedElement l[k])
      rw [movedPrefix_set traits.movedElement hk, Function.update_comm hpq.symm,
        Function.update_idem] at hstore
      exact hstore
    have hend := buildBlock_ends traits (hblocks.symm ▸ hw) hinit
    rw [hblocks] at hend
    apply hend.imp
    rintro data w' ⟨hiff, hfresh, hw'⟩
    refine ⟨blocks l.length, ?_, ?_, hiff, ?_, hw'⟩
    · refine ⟨?_, ?_, ?_⟩
      · rw [List.length_map]
        exact ho.size_eq
      · rw [List.map_eq_nil_iff]
        exact ho.data_eq_none
      · intro p hp
        rw [hdata] at hp
        cases hp
        refine ⟨owner, howner, ?_⟩
        show Function.update block q _ q = _
        rw [Function.update_self, List.length_map, movedPrefix, List.take_length,
          List.drop_length, List.append_nil]
    · intro p hp
      exact Function.update_of_ne (fun heq => hp (congrArg some heq.symm)) _ _
    · intro p hp
      have hpq : p ≠ q := by
        intro heq
        rw [← heq, hfresh p hp] at hq
        cases hq
      exact (Function.update_of_ne hpq _ _).trans (hfresh p hp)

end Build

end HeapArray

end Remmy.Collections
