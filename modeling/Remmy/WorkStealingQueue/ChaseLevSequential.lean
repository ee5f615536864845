import Remmy.WorkStealingQueue.ChaseLevSafety

/-!
# The Chase-Lev Queue from One Thread

Calls of `Insert`, `Take` and `Steal` made one after another: each takes the atomic steps of
its call until it has returned, with nothing in between.

`sequential_deque` says that the queue is then a double-ended queue.
-/

namespace Remmy.ChaseLev

universe v

variable {T : Type v}

/-! ## Calls that nobody disturbs -/

/-- How many steps of an `Insert` are left at most. -/
def InsertPc.remaining (s : Shared T) : InsertPc T → ℕ
  | storeBottom .. => 1
  | storeSlot .. => 2
  | loadLen .. => 3
  | reloadData .. => 4
  | publish .. => 5
  -- two steps for each slot that the copy loop of `Resize` has to move
  | copyStore _ _ _ _ _ i e _ => 2 * (e - i).toNat + 6
  | copyLoad _ _ _ _ _ i e => 2 * (e - i).toNat + 7
  | resizeBottom _ _ _ _ t => 2 * (s.bottom - t).toNat + 8
  | resizeTop .. => 2 * (s.bottom - s.top).toNat + 9
  | resizeLen .. => 2 * (s.bottom - s.top).toNat + 10
  | resizeData .. => 2 * (s.bottom - s.top).toNat + 11
  | checkFull .. => 2 * (s.bottom - s.top).toNat + 12
  | loadData .. => 2 * (s.bottom - s.top).toNat + 13
  | loadTop .. => 2 * (s.bottom - s.top).toNat + 14
  | loadBottom .. => 2 * (s.bottom - s.top).toNat + 15

theorem InsertPc.remaining_copyNext (s : Shared T) (v : T) (b : ℤ) (old oldLen : ℕ) (nd : Data T)
    (i e : ℤ) : (copyNext v b old oldLen nd i e).remaining s ≤ 2 * (e - i).toNat + 7 ∧
      ((e - i).toNat = 0 → (copyNext v b old oldLen nd i e).remaining s ≤ 5) := by
  unfold copyNext
  split_ifs with hlt
  · exact ⟨Nat.le_refl _, fun h => by omega⟩
  · exact ⟨by simp only [remaining]; omega, fun _ => Nat.le_refl _⟩

/-- How many steps of a `Take` are left at most. -/
def TakePc.remaining : TakePc T → ℕ
  | loadBottom => 7
  | loadData .. => 6
  | storeBottom .. => 5
  | loadTop .. => 4
  | loadLen .. => 3
  | loadSlot .. => 2
  | cas .. => 1
  | finishLast .. | restore .. => 0

/-- How many steps of a `Steal` are left at most. -/
def StealPc.remaining : StealPc T → ℕ
  | loadTop => 5
  | loadBottom .. => 4
  | loadData .. => 3
  | loadLen .. => 2
  | loadSlot .. => 1
  | cas .. => 0

theorem insertStep_remaining [Inhabited T] {s s' : Shared T} {pc pc' : InsertPc T}
    (h : insertStep s pc = (s', some pc')) : pc'.remaining s' < pc.remaining s := by
  cases pc with
  | checkFull v b t a =>
    simp only [insertStep] at h
    split_ifs at h
    · cases h
      exact Nat.lt_succ_self _
    · cases h
      simp only [InsertPc.remaining]
      omega
  | resizeBottom v b old oldLen t =>
    cases h
    exact Nat.lt_succ_of_le (InsertPc.remaining_copyNext ..).1
  | copyStore v b old oldLen nd i e value =>
    cases h
    obtain ⟨hle, hend⟩ := InsertPc.remaining_copyNext s v b old oldLen
      (nd.store nd.len i value) (i + 1) e
    change (InsertPc.copyNext v b old oldLen (nd.store nd.len i value) (i + 1) e).remaining s <
      2 * (e - i).toNat + 6
    by_cases hlast : (e - (i + 1)).toNat = 0
    · have hfive := hend hlast
      omega
    · omega
  | storeBottom v b => simp [insertStep] at h
  | _ =>
    cases h
    exact Nat.lt_succ_self _

theorem takeStep_remaining {s s' : Shared T} {pc pc' : TakePc T}
    (h : takeStep s pc = (s', .inl pc')) : pc'.remaining < pc.remaining := by
  cases pc with
  | loadTop b a | cas b t val =>
    simp only [takeStep] at h
    split_ifs at h
    all_goals
      cases h
      simp only [TakePc.remaining]
      omega
  | loadSlot b t a len =>
    simp only [takeStep] at h
    split_ifs at h
    · cases h
      exact Nat.lt_succ_self _
    · simp at h
  | finishLast b result | restore b => simp [takeStep] at h
  | _ =>
    cases h
    exact Nat.lt_succ_self _

theorem stealStep_remaining {s s' : Shared T} {pc pc' : StealPc T}
    (h : stealStep s pc = (s', .inl pc')) : pc'.remaining < pc.remaining := by
  cases pc with
  | loadBottom t =>
    simp only [stealStep] at h
    split_ifs at h
    · cases h
      exact Nat.lt_succ_self _
    · simp at h
  | cas t val =>
    simp only [stealStep] at h
    split_ifs at h <;> simp at h
  | _ =>
    cases h
    exact Nat.lt_succ_self _

/-- The rest of an `Insert`. -/
def finishInsert [Inhabited T] (s : Shared T) (pc : InsertPc T) : Shared T :=
  match _h : insertStep s pc with
  | (s', none) => s'
  | (s', some pc') => finishInsert s' pc'
termination_by pc.remaining s
decreasing_by exact insertStep_remaining _h

/-- The rest of a `Take`. -/
def finishTake (s : Shared T) (pc : TakePc T) : Option T × Shared T :=
  match _h : takeStep s pc with
  | (s', .inr result) => (result, s')
  | (s', .inl pc') => finishTake s' pc'
termination_by pc.remaining
decreasing_by exact takeStep_remaining _h

/-- The rest of a `Steal`. -/
def finishSteal (s : Shared T) (pc : StealPc T) : Option T × Shared T :=
  match _h : stealStep s pc with
  | (s', .inr result) => (result, s')
  | (s', .inl pc') => finishSteal s' pc'
termination_by pc.remaining
decreasing_by exact stealStep_remaining _h

/-- A call of a member function. -/
inductive QueueCall (T : Type v)
  | insert (v : T)
  | take
  | steal

theorem finishTake_next {s s' : Shared T} {pc pc' : TakePc T}
    (h : takeStep s pc = (s', .inl pc')) : finishTake s pc = finishTake s' pc' := by
  rw [finishTake]
  split
  · rename_i hdone
    rw [h] at hdone
    cases hdone
  · rename_i hnext
    rw [h] at hnext
    cases hnext
    rfl

theorem finishTake_done {s s' : Shared T} {pc : TakePc T} {result : Option T}
    (h : takeStep s pc = (s', .inr result)) : finishTake s pc = (result, s') := by
  rw [finishTake]
  split
  · rename_i hdone
    rw [h] at hdone
    cases hdone
    rfl
  · rename_i hnext
    rw [h] at hnext
    cases hnext

theorem finishSteal_next {s s' : Shared T} {pc pc' : StealPc T}
    (h : stealStep s pc = (s', .inl pc')) : finishSteal s pc = finishSteal s' pc' := by
  rw [finishSteal]
  split
  · rename_i hdone
    rw [h] at hdone
    cases hdone
  · rename_i hnext
    rw [h] at hnext
    cases hnext
    rfl

theorem finishSteal_done {s s' : Shared T} {pc : StealPc T} {result : Option T}
    (h : stealStep s pc = (s', .inr result)) : finishSteal s pc = (result, s') := by
  rw [finishSteal]
  split
  · rename_i hdone
    rw [h] at hdone
    cases hdone
    rfl
  · rename_i hnext
    rw [h] at hnext
    cases hnext

variable [Inhabited T]

/-- A call, and what it returns. -/
def Shared.call (s : Shared T) : QueueCall T → Option T × Shared T
  | .insert v => (none, finishInsert s (.loadBottom v))
  | .take => finishTake s .loadBottom
  | .steal => finishSteal s .loadTop

/-- Calls one after another. -/
def Shared.calls (s : Shared T) : List (QueueCall T) → List (Option T) × Shared T
  | [] => ([], s)
  | call :: calls =>
    let (result, s) := s.call call
    let (results, s) := s.calls calls
    (result :: results, s)

/-! ## The double-ended queue -/

omit [Inhabited T] in
/-- A call on a list: `Insert` appends at the back, `Take` removes the back element and
    `Steal` the front element. -/
def dequeCall (l : List T) : QueueCall T → Option T × List T
  | .insert v => (none, l ++ [v])
  | .take => (l.getLast?, l.dropLast)
  | .steal => (l.head?, l.tail)

/-- Calls on a list, one after another. -/
def dequeCalls (l : List T) : List (QueueCall T) → List (Option T) × List T
  | [] => ([], l)
  | call :: calls =>
    let (result, l) := dequeCall l call
    let (results, l) := dequeCalls l calls
    (result :: results, l)

/-! ## Each call -/

/-- **Run lemma** for `Insert`: it puts its value at the back. -/
theorem finishInsert_spec {s : Shared T} {pc : InsertPc T} (h : Core s (.insert pc)) :
    Core (finishInsert s pc) .idle ∧
      storedBy (finishInsert s pc) .idle = storedBy s (.insert pc) ++ [pc.value] := by
  fun_induction finishInsert s pc with
  | case1 s pc s' hstep =>
    obtain ⟨hkept, hstored⟩ := h.inserted hstep
    exact ⟨hkept.core, hstored⟩
  | case2 s pc s' pc' hstep ih =>
    obtain ⟨hkept, hstored⟩ := h.insertStep hstep
    obtain ⟨hcore, hrest⟩ := ih hkept.core
    rw [hstored, insertStep_value hstep] at hrest
    exact ⟨hcore, hrest⟩

omit [Inhabited T] in
/-- **Run lemma** for `Take`: what it returns was at the back. -/
theorem finishTake_spec {s : Shared T} {pc : TakePc T} (h : Core s (.take pc)) :
    Core (finishTake s pc).2 .idle ∧
      storedBy s (.take pc) = storedBy (finishTake s pc).2 .idle ++ (finishTake s pc).1.toList := by
  fun_induction finishTake s pc with
  | case1 s pc s' result hstep =>
    obtain ⟨hkept, hstored⟩ := h.took hstep
    exact ⟨hkept.core, hstored⟩
  | case2 s pc s' pc' hstep ih =>
    obtain ⟨hkept, hstored⟩ := h.takeStep hstep
    obtain ⟨hcore, hrest⟩ := ih hkept.core
    rw [hstored] at hrest
    exact ⟨hcore, hrest⟩

omit [Inhabited T] in
/-- The first steps of a `Take`, up to the load of `top_`. -/
theorem finishTake_loadBottom (s : Shared T) : finishTake s .loadBottom =
    finishTake { s with bottom := s.bottom - 1 } (.loadTop (s.bottom - 1) s.data) := by
  rw [finishTake_next rfl, finishTake_next rfl, finishTake_next rfl]

omit [Inhabited T] in
/-- Nobody else takes the last element: a `Take` of a queue that is not empty succeeds. -/
theorem finishTake_of_lt {s : Shared T} (h : s.top < s.bottom) :
    ∃ v, (finishTake s .loadBottom).1 = some v := by
  have hle : s.top ≤ s.bottom - 1 := by omega
  let s' : Shared T := { s with bottom := s.bottom - 1 }
  let len := (s.buffers s.data).len
  let val := (s.buffers s.data).buffer ((s.bottom - 1).toNat % len)
  have htop : takeStep s' (.loadTop (s.bottom - 1) s.data) =
      (s', .inl (.loadLen (s.bottom - 1) s.top s.data)) := if_pos hle
  rw [finishTake_loadBottom, finishTake_next htop, finishTake_next rfl]
  by_cases hlast : s.top = s.bottom - 1
  · have hslot : takeStep s' (.loadSlot (s.bottom - 1) s.top s.data len) =
        (s', .inl (.cas (s.bottom - 1) s.top val)) := if_pos hlast
    have hcas : takeStep s' (.cas (s.bottom - 1) s.top val) =
        ({ s' with top := s.top + 1 }, .inl (.finishLast (s.bottom - 1) (some val))) := if_pos rfl
    rw [finishTake_next hslot, finishTake_next hcas, finishTake_done rfl]
    exact ⟨val, rfl⟩
  · have hslot : takeStep s' (.loadSlot (s.bottom - 1) s.top s.data len) =
        (s', .inr (some val)) := if_neg hlast
    rw [finishTake_done hslot]
    exact ⟨val, rfl⟩

omit [Inhabited T] in
/-- A `Take` of an empty queue leaves it as it was. -/
theorem finishTake_of_eq {s : Shared T} (h : s.top = s.bottom) :
    finishTake s .loadBottom = (none, s) := by
  have hlt : ¬s.top ≤ s.bottom - 1 := by omega
  have htop : takeStep { s with bottom := s.bottom - 1 } (.loadTop (s.bottom - 1) s.data) =
      ({ s with bottom := s.bottom - 1 }, .inl (.restore (s.bottom - 1))) := if_neg hlt
  rw [finishTake_loadBottom, finishTake_next htop, finishTake_done rfl]
  simp only [Int.sub_add_cancel]

omit [Inhabited T] in
/-- A `Steal` takes the element at `top_`, if there is one. -/
theorem finishSteal_eq (s : Shared T) : finishSteal s .loadTop =
    if s.top < s.bottom then (some ((s.buffers s.data).slot s.top), { s with top := s.top + 1 })
    else (none, s) := by
  rw [finishSteal_next rfl]
  split_ifs with hlt
  · have hbottom : stealStep s (.loadBottom s.top) = (s, .inl (.loadData s.top)) := if_pos hlt
    rw [finishSteal_next hbottom, finishSteal_next rfl, finishSteal_next rfl, finishSteal_next rfl]
    exact finishSteal_done (if_pos rfl)
  · exact finishSteal_done (if_neg hlt)

/-! ## Any sequence of calls -/

omit [Inhabited T] in
/-- Between calls the queue is empty exactly when its indices meet. -/
theorem window_eq_nil {s : Shared T} (h : Core s .idle) : s.window = [] ↔ s.top = s.bottom := by
  have hle : s.top ≤ s.bottom := h.top_le
  constructor
  · intro hnone
    by_contra hne
    have hlt : s.top < s.bottom := lt_of_le_of_ne hle hne
    rw [Shared.window, contents_of_lt hlt] at hnone
    cases hnone
  · intro heq
    exact contents_of_le (le_of_eq heq.symm)

/-- **Step lemma**: a call on the queue is the call on the list of what is stored. -/
theorem call_spec {s : Shared T} (h : Core s .idle) (call : QueueCall T) :
    Core (s.call call).2 .idle ∧
      dequeCall s.window call = ((s.call call).1, (s.call call).2.window) := by
  cases call with
  | insert v =>
    have hbegin : Core s (.insert (.loadBottom v)) :=
      ⟨h.top_nonneg, h.top_le, h.len_pos, h.room, trivial⟩
    obtain ⟨hcore, hstored⟩ := finishInsert_spec hbegin
    refine ⟨hcore, ?_⟩
    rw [storedBy_idle] at hstored
    exact Prod.ext rfl (hstored.trans (congrArg (· ++ [v]) (List.append_nil _))).symm
  | take =>
    -- Without thieves the last element is not lost to one.
    have hbegin : Core s (.take .loadBottom) :=
      ⟨h.top_nonneg, h.top_le, h.len_pos, h.room, trivial⟩
    obtain ⟨hcore, hstored⟩ := finishTake_spec hbegin
    rw [storedBy_idle, show storedBy s (.take .loadBottom) = s.window from List.append_nil _]
      at hstored
    refine ⟨hcore, ?_⟩
    change (s.window.getLast?, s.window.dropLast) =
      ((finishTake s .loadBottom).1, (finishTake s .loadBottom).2.window)
    rcases eq_or_lt_of_le (show s.top ≤ s.bottom from h.top_le) with heq | hlt
    · rw [finishTake_of_eq heq, (window_eq_nil h).mpr heq]
      rfl
    · obtain ⟨v, hv⟩ := finishTake_of_lt hlt
      rw [hv] at hstored ⊢
      rw [hstored]
      exact Prod.ext List.getLast?_concat List.dropLast_concat
  | steal =>
    change Core (finishSteal s .loadTop).2 .idle ∧ (s.window.head?, s.window.tail) =
      ((finishSteal s .loadTop).1, (finishSteal s .loadTop).2.window)
    rw [finishSteal_eq]
    split_ifs with hlt
    · obtain ⟨hcore, hstored⟩ := h.pop hlt
      rw [storedBy_idle, storedBy_idle] at hstored
      refine ⟨hcore, ?_⟩
      rw [hstored]
      rfl
    · have heq : s.top = s.bottom := le_antisymm h.top_le (not_lt.mp hlt)
      refine ⟨h, ?_⟩
      rw [(window_eq_nil h).mpr heq]
      rfl

/-- **Run lemma**, by induction on the calls. -/
theorem calls_spec {s : Shared T} (h : Core s .idle) (calls : List (QueueCall T)) :
    Core (s.calls calls).2 .idle ∧
      dequeCalls s.window calls = ((s.calls calls).1, (s.calls calls).2.window) := by
  induction calls generalizing s with
  | nil => exact ⟨h, rfl⟩
  | cons call calls ih =>
    obtain ⟨hcore, hcall⟩ := call_spec h call
    obtain ⟨hcore', hcalls⟩ := ih hcore
    refine ⟨hcore', ?_⟩
    rw [dequeCalls, hcall]
    simp only [hcalls]
    rfl

theorem core_empty : Core (Shared.empty : Shared T) .idle :=
  (inv_empty : Inv (Deque.empty : Deque Empty T)).core

/-- **From one thread the queue is a double-ended queue.**  For every sequence of calls on a new
    queue, the results are those of the list, which is what is stored in the end; and where
    nothing is stored, `Take` and `Steal` return nothing and change nothing. -/
theorem sequential_deque (calls : List (QueueCall T)) :
    let s := ((Shared.empty : Shared T).calls calls).2
    dequeCalls [] calls = (((Shared.empty : Shared T).calls calls).1, s.window) ∧
      (s.window = [] → s.call .take = (none, s) ∧ s.call .steal = (none, s)) := by
  intro s
  obtain ⟨hcore, hcalls⟩ := calls_spec core_empty calls
  refine ⟨hcalls, fun hnone => ?_⟩
  have heq : s.top = s.bottom := (window_eq_nil hcore).mp hnone
  refine ⟨finishTake_of_eq heq, (finishSteal_eq s).trans (if_neg ?_)⟩
  rw [heq]
  exact lt_irrefl _

end Remmy.ChaseLev
