import Remmy.WorkStealingQueue.ChaseLevInvariant
import Remmy.Lib.DequeLedger

/-!
# The Chase-Lev Queue: Safety

Every interleaving of one owner and any number of thieves, seen through the last step
of each call, is a run of the ledger of a double-ended queue (`Remmy.Lib.Ledger`), and
the ledger's queue is what is stored.

- `Inv.step` is the step lemma: the invariant is kept, and an event changes what is
  stored by exactly the value it shows (`Event.Stores`).  The scheduler's model uses it
  for each of its queues.
- `chaseLev_safety` is the run lemma.
-/

namespace Remmy.ChaseLev

open Remmy.Lib

universe u v

variable {ι : Type u} {T : Type v}

/-! ## Steps of Steal -/

/-- A step inside `Steal` changes nothing and keeps the thief's reads right. -/
theorem ThiefOk.stealStep {s s' : Shared T} {o : OwnerPc T} {pc pc' : StealPc T}
    (hc : Core s o) (h : ThiefOk s (o.logicalBottom s.bottom) pc)
    (hs : ChaseLev.stealStep s pc = (s', .inl pc')) :
    s' = s ∧ ThiefOk s (o.logicalBottom s.bottom) pc' := by
  cases pc with
  | loadTop =>
    cases hs
    exact ⟨rfl, le_refl _⟩
  | loadBottom t =>
    simp only [ChaseLev.stealStep] at hs
    split_ifs at hs with hlt
    · cases hs
      exact ⟨rfl, h, fun _ => lt_of_lt_of_le hlt hc.bottom_le⟩
    · simp at hs
  | loadData t =>
    cases hs
    exact ⟨rfl, h.1, le_refl _, fun ht => ⟨h.2 ht, rfl⟩⟩
  | loadLen t a =>
    cases hs
    exact ⟨rfl, h.1, h.2.1, rfl, h.2.2⟩
  | loadSlot t a len =>
    cases hs
    obtain ⟨ht, ha, rfl, hread⟩ := h
    exact ⟨rfl, ht, hread⟩
  | cas t val =>
    simp only [ChaseLev.stealStep] at hs
    split_ifs at hs <;> simp at hs

/-- A `Steal` that returns either returns nothing and changes nothing, or returns the
    value at `top_` and moves `top_` past it. -/
theorem ThiefOk.stole {s s' : Shared T} {lb : ℤ} {pc : StealPc T} {r : Option T}
    (h : ThiefOk s lb pc) (hs : ChaseLev.stealStep s pc = (s', .inr r)) :
    (r = none ∧ s' = s) ∨
      (r = some ((s.buffers s.data).slot s.top) ∧ s.top < lb ∧ s' = { s with top := s.top + 1 }) := by
  cases pc with
  | loadBottom t =>
    simp only [ChaseLev.stealStep] at hs
    split_ifs at hs
    · simp at hs
    · cases hs
      exact .inl ⟨rfl, rfl⟩
  | cas t val =>
    simp only [ChaseLev.stealStep] at hs
    split_ifs at hs with hwin
    · cases hs
      obtain ⟨hlt, rfl⟩ := h.2 hwin.symm
      subst hwin
      exact .inr ⟨rfl, hlt, rfl⟩
    · cases hs
      exact .inl ⟨rfl, rfl⟩
  | _ => simp [ChaseLev.stealStep] at hs

/-- A successful steal takes the front element from under the owner, wherever it stands. -/
theorem Core.pop {s : Shared T} {o : OwnerPc T} (h : Core s o)
    (hlt : s.top < o.logicalBottom s.bottom) :
    Core { s with top := s.top + 1 } o ∧
      storedBy s o = (s.buffers s.data).slot s.top :: storedBy { s with top := s.top + 1 } o := by
  have h0 := h.top_nonneg
  have hroom := h.room
  refine ⟨⟨by simp only; omega, by simp only; omega, h.len_pos, by simp only; omega, ?_⟩, ?_⟩
  · have ho := h.owner
    cases o with
    | idle => trivial
    | insert pc =>
      cases pc with
      | copyLoad v b old oldLen nd i e =>
        obtain ⟨hcopy, hie⟩ := ho
        obtain ⟨t, ht0, ht, hrest⟩ := hcopy.copied
        exact ⟨⟨hcopy.bottom_eq, hcopy.stop_eq, hcopy.data_eq, hcopy.oldLen_eq, hcopy.newLen_eq,
          t, ht0, by simp only; omega, hrest⟩, hie⟩
      | copyStore v b old oldLen nd i e value =>
        obtain ⟨hcopy, hie, hval⟩ := ho
        obtain ⟨t, ht0, ht, hrest⟩ := hcopy.copied
        exact ⟨⟨hcopy.bottom_eq, hcopy.stop_eq, hcopy.data_eq, hcopy.oldLen_eq, hcopy.newLen_eq,
          t, ht0, by simp only; omega, hrest⟩, hie, hval⟩
      | publish v b nd =>
        obtain ⟨hb, hlen, hcopied⟩ := ho
        exact ⟨hb, hlen, fun j hj => hcopied j (by simp only at hj; omega)⟩
      | storeBottom v b =>
        obtain ⟨hb, hfree, hslot⟩ := ho
        exact ⟨hb, by simp only; omega, hslot⟩
      | loadBottom v => trivial
      | _ =>
        simp only [OwnerOk, InsertOk] at ho ⊢
        omega
    | take pc =>
      -- `finishLast` and `restore` have `top_` at the bound already, so no steal can win there
      cases pc with
      | cas b t val =>
        obtain ⟨hb, htb, ht, hval⟩ := ho
        exact ⟨hb, htb, by simp only; omega, hval⟩
      | loadBottom => trivial
      | _ =>
        simp only [OwnerOk, TakeOk, OwnerPc.logicalBottom] at ho hlt ⊢
        omega
  · have hclaim : o.claim { s with top := s.top + 1 } = o.claim s := by
      cases o with
      | idle | insert pc => rfl
      | take pc =>
        cases pc with
        | finishLast b r => cases r <;> rfl
        | _ => rfl
    unfold storedBy
    rw [hclaim, contents_of_lt hlt, List.cons_append]

/-! ## One step of the queue -/

/-- How an event changes the list of stored values. -/
def Event.Stores (before after : List T) : Event ι T → Prop
  | .inserted v => after = before ++ [v]
  | .took r => before = after ++ r.toList
  | .stole _ r => before = r.toList ++ after
  | _ => after = before

/-- A framed move of the owner leaves every thief's knowledge intact. -/
theorem Inv.owner_move {d : Deque ι T} {s' : Shared T} {o' : OwnerPc T} (h : Inv d)
    (hk : Kept d.shared d.owner s' o') : Inv { d with shared := s', owner := o' } where
  core := hk.core
  thief i pc hpc := (h.thief i pc hpc).frame hk.frame

variable [DecidableEq ι]

/-- When thief `i` moves, what holds of its new state and of the others' old ones holds of all. -/
theorem forall_thief_update {f : ι → Option (StealPc T)} {P : StealPc T → Prop} {i : ι}
    {new : Option (StealPc T)} (hnew : ∀ pc, new = some pc → P pc)
    (hold : ∀ j pc, f j = some pc → P pc) :
    ∀ j pc, Function.update f i new j = some pc → P pc := by
  intro j pc hpc
  by_cases hj : j = i
  · subst hj
    rw [Function.update_self] at hpc
    exact hnew pc hpc
  · rw [Function.update_of_ne hj] at hpc
    exact hold j pc hpc

variable [Inhabited T]

/-- **Step lemma**: every atomic step of the owner or of a thief keeps the invariant and
    changes what is stored only by the value its event shows. -/
theorem Inv.step {d d' : Deque ι T} {e : Event ι T} (h : Inv d) (hs : Step d e d') :
    Inv d' ∧ e.Stores d.stored d'.stored := by
  cases hs with
  | beginInsert v hidle =>
    have hcore := h.core
    have hthief := h.thief
    rw [hidle] at hcore hthief
    refine ⟨⟨⟨hcore.top_nonneg, hcore.top_le, hcore.len_pos, hcore.room, trivial⟩, hthief⟩, ?_⟩
    simp [Event.Stores, Deque.stored, storedBy, hidle, OwnerPc.logicalBottom, OwnerPc.claim]
  | beginTake hidle =>
    have hcore := h.core
    have hthief := h.thief
    rw [hidle] at hcore hthief
    refine ⟨⟨⟨hcore.top_nonneg, hcore.top_le, hcore.len_pos, hcore.room, trivial⟩, hthief⟩, ?_⟩
    simp [Event.Stores, Deque.stored, storedBy, hidle, OwnerPc.logicalBottom, OwnerPc.claim]
  | beginSteal i hi =>
    refine ⟨⟨h.core, forall_thief_update (fun pc hpc => ?_) h.thief⟩, rfl⟩
    cases hpc
    trivial
  | insertStep hpc hstep =>
    -- The owner writes behind what any thief may still read.
    have hcore := h.core
    rw [hpc] at hcore
    obtain ⟨hkept, hstored⟩ := hcore.insertStep hstep
    refine ⟨h.owner_move (hpc ▸ hkept), ?_⟩
    simpa [Event.Stores, Deque.stored, hpc] using hstored
  | inserted hpc hstep =>
    have hcore := h.core
    rw [hpc] at hcore
    obtain ⟨hkept, hstored⟩ := hcore.inserted hstep
    refine ⟨h.owner_move (hpc ▸ hkept), ?_⟩
    simpa [Event.Stores, Deque.stored, hpc] using hstored
  | takeStep hpc hstep =>
    have hcore := h.core
    rw [hpc] at hcore
    obtain ⟨hkept, hstored⟩ := hcore.takeStep hstep
    refine ⟨h.owner_move (hpc ▸ hkept), ?_⟩
    simpa [Event.Stores, Deque.stored, hpc] using hstored
  | took hpc hstep =>
    have hcore := h.core
    rw [hpc] at hcore
    obtain ⟨hkept, hstored⟩ := hcore.took hstep
    refine ⟨h.owner_move (hpc ▸ hkept), ?_⟩
    simpa [Event.Stores, Deque.stored, hpc] using hstored
  | @stealStep i pc pc' s hpc hstep =>
    obtain ⟨rfl, hok⟩ := (h.thief i pc hpc).stealStep h.core hstep
    refine ⟨⟨h.core, forall_thief_update (fun pc'' hpc'' => ?_) h.thief⟩, rfl⟩
    cases hpc''
    exact hok
  | @stole i pc s r hpc hstep =>
    -- The thief has lost the race, or the front is its.
    rcases (h.thief i pc hpc).stole hstep with ⟨rfl, rfl⟩ | ⟨rfl, hlt, rfl⟩
    · exact ⟨⟨h.core, forall_thief_update (by simp) h.thief⟩, rfl⟩
    · obtain ⟨hcore, hstored⟩ := h.core.pop hlt
      refine ⟨⟨hcore, forall_thief_update (by simp) fun j pc'' hj => ?_⟩, hstored⟩
      exact (h.thief j pc'' hj).frame (.of_lt (Int.lt_succ _) rfl rfl)

/-- The invariant holds in every state of every run. -/
theorem inv_of_run {tr : List (Event ι T)} {d : Deque ι T} (h : (system ι T).Run tr d) : Inv d :=
  h.invariant_state (I := Inv) (by rintro d rfl; exact inv_empty) fun _ _ _ hi hs => (hi.step hs).1

/-! ## The run as a ledger -/

/-- The operation an event completes, if it moves a value. -/
def Event.op : Event ι T → Option (DequeOp T)
  | .inserted v => some (.push v)
  | .took (some v) => some (.popBack v)
  | .stole _ (some v) => some (.popFront v)
  | _ => none

omit [Inhabited T] [DecidableEq ι] in
/-- A ledger whose queue holds what is stored can follow every event. -/
theorem Event.Stores.ledger {e : Event ι T} {before after : List T} (he : e.Stores before after)
    {L : Ledger T} (hacc : L.Accounted) (hL : L.values = before.map some) :
    ∃ L' : Ledger T, L'.values = after.map some ∧
      match e.op with
      | some op => Ledger.Step L op L'
      | none => L' = L := by
  have hsame (h : after = before) : L.values = after.map some := by rw [h]; exact hL
  cases e with
  | beginInsert v => exact ⟨L, hsame he, rfl⟩
  | beginTake => exact ⟨L, hsame he, rfl⟩
  | beginSteal i => exact ⟨L, hsame he, rfl⟩
  | ownerStep => exact ⟨L, hsame he, rfl⟩
  | thiefStep i => exact ⟨L, hsame he, rfl⟩
  | inserted v =>
    -- The new value gets the next number, so those that are queued keep theirs.
    refine ⟨_, ?_, Ledger.Step.push L v⟩
    have hold : L.queue.map ((L.pushed ++ [v])[·]?) = L.values := by
      refine List.map_congr_left fun i hi => ?_
      exact List.getElem?_append_left (hacc.lt_length hi)
    rw [Event.Stores] at he
    simp only [Ledger.values] at hold ⊢
    rw [List.map_append, hold, he]
    simpa [Ledger.values] using hL
  | took r =>
    -- The value taken is that of the last number queued.
    cases r with
    | none => exact ⟨L, hsame (by simpa [Event.Stores] using he.symm), rfl⟩
    | some v =>
      rw [Event.Stores] at he
      rw [he] at hL
      simp only [Ledger.values, Option.toList_some, List.map_append, List.map_cons, List.map_nil] at hL
      obtain ⟨q, l, hq, hqv, hl⟩ := List.map_eq_append_iff.mp hL
      obtain ⟨i, l', rfl, hi, hnil⟩ := List.map_eq_cons_iff.mp hl
      obtain rfl := List.map_eq_nil_iff.mp hnil
      exact ⟨{ L with queue := q, back := L.back ++ [i] }, hqv, .popBack hq hi⟩
  | stole j r =>
    -- The value stolen is that of the first.
    cases r with
    | none => exact ⟨L, hsame (by simpa [Event.Stores] using he.symm), rfl⟩
    | some v =>
      rw [Event.Stores] at he
      rw [he] at hL
      simp only [Ledger.values, Option.toList_some, List.singleton_append, List.map_cons] at hL
      obtain ⟨i, q, hq, hi, hqv⟩ := List.map_eq_cons_iff.mp hL
      exact ⟨{ L with queue := q, front := L.front ++ [i] }, hqv, .popFront hq hi⟩

/-- The operations of a run in the order in which they completed. -/
def ops (tr : List (Event ι T)) : List (DequeOp T) := tr.filterMap Event.op

/-- Every run is a run of the ledger, and the ledger's queue is what is stored. -/
theorem exists_ledger {tr : List (Event ι T)} {d : Deque ι T} (h : (system ι T).Run tr d) :
    ∃ L : Ledger T, Ledger.Of (ops tr) L ∧ L.values = d.stored.map some := by
  refine h.invariant (I := fun tr d => ∃ L, Ledger.Of (ops tr) L ∧ L.values = d.stored.map some) ?_ ?_
  · rintro d rfl
    exact ⟨.empty, .empty, by simp [Ledger.values, Ledger.empty]⟩
  · rintro tr d e d' hrun ⟨L, hof, hL⟩ hs
    obtain ⟨L', hL', hop⟩ := ((inv_of_run hrun).step hs).2.ledger hof.accounted hL
    refine ⟨L', ?_, hL'⟩
    rw [ops, List.filterMap_append]
    cases he : e.op with
    | none =>
      rw [he] at hop
      subst hop
      simpa [ops, he] using hof
    | some op =>
      rw [he] at hop
      simpa [ops, he] using hof.step hop

/-- **Chase-Lev safety**.  In every interleaving of one owner and any number of thieves,
    the completed operations replay as those of a double-ended queue: each insertion is
    returned by at most one `Take` or `Steal`, with its own value; steals come in
    insertion order; and whenever the owner is between calls, the insertions not yet
    returned are, in insertion order, the values at `top_` to `bottom_ - 1` of the active
    buffer. -/
theorem chaseLev_safety {tr : List (Event ι T)} {d : Deque ι T} (h : (system ι T).Run tr d) :
    ∃ L : Ledger T, Ledger.Of (ops tr) L ∧
      (L.back ++ L.front ++ L.queue).Perm (List.range L.pushed.length) ∧
      L.front.Pairwise (· < ·) ∧ L.queue.Pairwise (· < ·) ∧
      (d.owner = .idle → L.values = d.shared.window.map some) := by
  obtain ⟨L, hof, hL⟩ := exists_ledger h
  have hacc := hof.accounted
  refine ⟨L, hof, hacc.once, hacc.front_sorted, hacc.queue_sorted, fun hidle => ?_⟩
  rw [hL, Deque.stored_of_idle hidle]

/-- Two values are inserted; a thief that began between the insertions steals the first, and the
    owner takes the other, which is the last that is left. -/
theorem chaseLev_safety_two : ∃ d : Deque (Fin 1) ℕ, ∃ tr, (system (Fin 1) ℕ).Run tr d ∧
    ops tr = [.push 7, .push 8, .popFront 7, .popBack 8] ∧
      ∃ L : Ledger ℕ, Ledger.Of (ops tr) L ∧
        (L.back ++ L.front ++ L.queue).Perm (List.range L.pushed.length) ∧ L.values = [] := by
  have h₀ : (system (Fin 1) ℕ).Run [] .empty := .start rfl
  have hcheck := (((h₀.next (Step.beginInsert 7 rfl)).next (Step.insertStep rfl rfl)).next
    (Step.insertStep rfl rfl)).next (Step.insertStep rfl rfl)
  have hinserted := (((hcheck.next (Step.insertStep rfl rfl)).next (Step.insertStep rfl rfl)).next
    (Step.insertStep rfl rfl)).next (Step.inserted rfl rfl)
  have hbottom := (hinserted.next (Step.beginSteal 0 rfl)).next
    (Step.stealStep (Function.update_self ..) rfl)
  -- the second insertion, while the thief has read `top_` only
  have hcheck₂ := (((hbottom.next (Step.beginInsert 8 rfl)).next (Step.insertStep rfl rfl)).next
    (Step.insertStep rfl rfl)).next (Step.insertStep rfl rfl)
  have hinserted₂ := (((hcheck₂.next (Step.insertStep rfl rfl)).next
    (Step.insertStep rfl rfl)).next (Step.insertStep rfl rfl)).next (Step.inserted rfl rfl)
  have hread := ((hinserted₂.next (Step.stealStep (Function.update_self ..) rfl)).next
    (Step.stealStep (Function.update_self ..) rfl)).next
    (Step.stealStep (Function.update_self ..) rfl)
  have hstole := (hread.next (Step.stealStep (Function.update_self ..) rfl)).next
    (Step.stole (Function.update_self ..) rfl)
  -- the owner races for the last value
  have hstored := (((hstole.next (Step.beginTake rfl)).next (Step.takeStep rfl rfl)).next
    (Step.takeStep rfl rfl)).next (Step.takeStep rfl rfl)
  have hloaded := ((hstored.next (Step.takeStep rfl rfl)).next (Step.takeStep rfl rfl)).next
    (Step.takeStep rfl rfl)
  have htook := (hloaded.next (Step.takeStep rfl rfl)).next (Step.took rfl rfl)
  obtain ⟨L, hof, hperm, -, -, hvalues⟩ := chaseLev_safety htook
  exact ⟨_, _, htook, rfl, L, hof, hperm, (hvalues rfl).trans rfl⟩

end Remmy.ChaseLev
