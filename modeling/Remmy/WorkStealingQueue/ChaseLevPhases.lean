import Remmy.WorkStealingQueue.ChaseLevSequential

/-!
# The Chase-Lev Queue with One Call at a Time

When only one call is in progress on a queue at any time, whoever makes it, the queue is a
double-ended queue, step by step: `Is.step` says what each atomic step does to the phase the
queue is in and to what is stored.  `Deque.remaining` counts the steps a call still takes.
-/

namespace Remmy.ChaseLev

universe u v

variable {ι : Type u} {T : Type v}

/-- Which call is in progress. -/
inductive Phase (ι : Type u) (T : Type v)
  | quiet
  | inserting (v : T)
  | taking
  | stealing (i : ι)

/-- What a `Take` knows when no thief is there: its `t` is `top_`, and it does not lose. -/
def TakePc.Alone (s : Shared T) : TakePc T → Prop
  | loadLen _ t _ | loadSlot _ t _ _ | cas _ t _ => t = s.top
  | finishLast _ result => result ≠ none
  | _ => True

/-- What a `Steal` knows when nobody else is there: its `t` is `top_`. -/
def StealPc.Alone (s : Shared T) : StealPc T → Prop
  | loadTop => True
  | loadBottom t | loadData t | loadLen t _ | loadSlot t _ _ | cas t _ => t = s.top

/-- The call in progress is this one, and there is no other. -/
def Deque.Is (d : Deque ι T) : Phase ι T → Prop
  | .quiet => d.owner = .idle ∧ ∀ i, d.thief i = none
  | .inserting v => (∃ pc, d.owner = .insert pc ∧ pc.value = v) ∧ ∀ i, d.thief i = none
  | .taking => (∃ pc, d.owner = .take pc ∧ pc.Alone d.shared) ∧ ∀ i, d.thief i = none
  | .stealing i => d.owner = .idle ∧ (∃ pc, d.thief i = some pc ∧ pc.Alone d.shared) ∧
      ∀ j, j ≠ i → d.thief j = none

/-- What a step does to the phase and to the list of what is stored. -/
inductive PhaseStep : Phase ι T → List T → Event ι T → Phase ι T → List T → Prop
  | beginInsert {l : List T} (v : T) : PhaseStep .quiet l (.beginInsert v) (.inserting v) l
  | insertStep {l : List T} {v : T} : PhaseStep (.inserting v) l .ownerStep (.inserting v) l
  | inserted {l : List T} {v : T} : PhaseStep (.inserting v) l (.inserted v) .quiet (l ++ [v])
  | beginTake {l : List T} : PhaseStep .quiet l .beginTake .taking l
  | takeStep {l : List T} : PhaseStep .taking l .ownerStep .taking l
  | took {l : List T} : PhaseStep .taking l (.took l.getLast?) .quiet l.dropLast
  | beginSteal {l : List T} (i : ι) : PhaseStep .quiet l (.beginSteal i) (.stealing i) l
  | stealStep {l : List T} {i : ι} : PhaseStep (.stealing i) l (.thiefStep i) (.stealing i) l
  | stole {l : List T} {i : ι} : PhaseStep (.stealing i) l (.stole i l.head?) .quiet l.tail

theorem PhaseStep.took_none {l l' : List T} (h : l = []) (h' : l' = []) :
    PhaseStep (ι := ι) .taking l (.took none) .quiet l' := by
  subst h h'
  exact .took

theorem PhaseStep.took_some {l l' : List T} {v : T} (h : l = l' ++ [v]) :
    PhaseStep (ι := ι) .taking l (.took (some v)) .quiet l' := by
  have htook : PhaseStep (ι := ι) .taking (l' ++ [v]) _ .quiet _ := .took
  rw [List.getLast?_concat, List.dropLast_concat] at htook
  rwa [h]

theorem PhaseStep.stole_none {i : ι} {l l' : List T} (h : l = []) (h' : l' = []) :
    PhaseStep (.stealing i) l (.stole i none) .quiet l' := by
  subst h h'
  exact .stole

theorem PhaseStep.stole_some {i : ι} {l l' : List T} {v : T} (h : l = [v] ++ l') :
    PhaseStep (.stealing i) l (.stole i (some v)) .quiet l' := by
  subst h
  exact .stole

/-! ## Calls that nobody disturbs -/

/-- A `Take` alone stays alone. -/
theorem TakePc.Alone.step {s s' : Shared T} {pc pc' : TakePc T} (h : pc.Alone s)
    (hs : takeStep s pc = (s', .inl pc')) : pc'.Alone s' := by
  cases pc with
  | loadTop b a =>
    simp only [takeStep] at hs
    split_ifs at hs
    · cases hs
      exact rfl
    · cases hs
      trivial
  | loadSlot b t a len =>
    simp only [takeStep] at hs
    split_ifs at hs
    · cases hs
      exact h
    · cases hs
  | cas b t val =>
    -- the compare-exchange finds the `top_` that was loaded
    simp only [takeStep] at hs
    rw [if_pos (show s.top = t from h.symm)] at hs
    cases hs
    exact Option.some_ne_none val
  | finishLast b result | restore b => cases hs
  | loadLen b t a =>
    cases hs
    exact h
  | loadBottom | loadData b | storeBottom b a =>
    cases hs
    trivial

/-- A `Take` alone comes back without an element only if there is none. -/
theorem TakePc.Alone.stored_eq_nil {s s' : Shared T} {pc : TakePc T} (h : pc.Alone s)
    (hcore : Core s (.take pc)) (hs : takeStep s pc = (s', .inr none)) :
    storedBy s (.take pc) = [] := by
  cases pc with
  | restore b =>
    obtain ⟨-, htop⟩ : TakeOk s (.restore b) := hcore.owner
    have hnone : s.contents (b + 1) = [] := contents_of_le (le_of_eq htop.symm)
    exact (List.append_nil _).trans hnone
  | finishLast b result =>
    cases hs
    exact absurd rfl h
  | loadSlot b t a len =>
    simp only [takeStep] at hs
    split_ifs at hs
    · cases hs
    · cases hs
  | cas b t val =>
    simp only [takeStep] at hs
    split_ifs at hs <;> cases hs
  | loadTop b a =>
    simp only [takeStep] at hs
    split_ifs at hs <;> cases hs
  | loadBottom | loadData b | storeBottom b a | loadLen b t a => cases hs

/-- A `Steal` alone stays alone. -/
theorem StealPc.Alone.step {s s' : Shared T} {pc pc' : StealPc T} (h : pc.Alone s)
    (hs : stealStep s pc = (s', .inl pc')) : pc'.Alone s' := by
  cases pc with
  | loadTop =>
    cases hs
    exact rfl
  | loadBottom t =>
    simp only [stealStep] at hs
    split_ifs at hs
    · cases hs
      exact h
    · cases hs
  | cas t val =>
    simp only [stealStep] at hs
    split_ifs at hs <;> cases hs
  | loadData t | loadLen t a | loadSlot t a len =>
    cases hs
    exact h

/-- A `Steal` alone comes back without an element only if there is none. -/
theorem StealPc.Alone.window_eq_nil {s s' : Shared T} {pc : StealPc T} (h : pc.Alone s)
    (hs : stealStep s pc = (s', .inr none)) : s.window = [] := by
  cases pc with
  | loadBottom t =>
    simp only [stealStep] at hs
    split_ifs at hs with hlt
    · cases hs
    · rw [show t = s.top from h] at hlt
      exact contents_of_le (not_lt.mp hlt)
  | cas t val =>
    simp only [stealStep] at hs
    rw [if_pos (show s.top = t from h.symm)] at hs
    cases hs
  | loadTop | loadData t | loadLen t a | loadSlot t a len => cases hs

/-! ## How long a call takes -/

/-- How many steps are left at most of the owner's call, or else of the call of thief `i`. -/
def Deque.remaining (d : Deque ι T) (i : ι) : ℕ :=
  match d.owner with
  | .insert pc => pc.remaining d.shared
  | .take pc => pc.remaining
  | .idle => (d.thief i).elim 0 StealPc.remaining

/-! ## One step -/

/-- The event of a call that begins. -/
def Event.Begins : Event ι T → Prop
  | .beginInsert _ | .beginTake | .beginSteal _ => True
  | _ => False

/-- The phase of a queue is the call that is in progress on it. -/
theorem Deque.Is.eq_taking {d : Deque ι T} {ph : Phase ι T} {pc : TakePc T} (h : d.Is ph)
    (hpc : d.owner = .take pc) : ph = .taking := by
  cases ph with
  | taking => rfl
  | quiet | stealing i =>
    have hidle := h.1
    rw [hpc] at hidle
    cases hidle
  | inserting v =>
    obtain ⟨pc', hpc', -⟩ := h.1
    rw [hpc] at hpc'
    cases hpc'

theorem Deque.Is.eq_inserting {d : Deque ι T} {ph : Phase ι T} {pc : InsertPc T} (h : d.Is ph)
    (hpc : d.owner = .insert pc) : ph = .inserting pc.value := by
  cases ph with
  | inserting v =>
    obtain ⟨pc', hpc', rfl⟩ := h.1
    rw [hpc] at hpc'
    cases hpc'
    rfl
  | quiet | stealing i =>
    have hidle := h.1
    rw [hpc] at hidle
    cases hidle
  | taking =>
    obtain ⟨pc', hpc', -⟩ := h.1
    rw [hpc] at hpc'
    cases hpc'

theorem Deque.Is.eq_stealing {d : Deque ι T} {ph : Phase ι T} {i : ι} {pc : StealPc T} (h : d.Is ph)
    (hpc : d.thief i = some pc) : ph = .stealing i := by
  cases ph with
  | stealing j =>
    by_contra hne
    have hij : i ≠ j := fun hij => hne (congrArg Phase.stealing hij.symm)
    have hnone := h.2.2 i hij
    rw [hpc] at hnone
    cases hnone
  | quiet | inserting v | taking =>
    have hnone := h.2 i
    rw [hpc] at hnone
    cases hnone

variable [Inhabited T] [DecidableEq ι]

/-- **Step lemma**: while calls are made one at a time, each atomic step does to the phase and
    to what is stored what it would do to a double-ended queue. -/
theorem Deque.Is.step {d d' : Deque ι T} {ph : Phase ι T} {e : Event ι T} (hinv : Inv d)
    (h : d.Is ph) (hone : e.Begins → ph = .quiet) (hs : Step d e d') :
    ∃ ph', d'.Is ph' ∧ PhaseStep ph d.stored e ph' d'.stored := by
  have hstores := (hinv.step hs).2
  cases hs with
  | beginInsert v hidle =>
    obtain rfl := hone trivial
    have hsame : Deque.stored _ = d.stored := hstores
    rw [hsame]
    exact ⟨.inserting v, ⟨⟨_, rfl, rfl⟩, h.2⟩, .beginInsert v⟩
  | beginTake hidle =>
    obtain rfl := hone trivial
    have hsame : Deque.stored _ = d.stored := hstores
    rw [hsame]
    exact ⟨.taking, ⟨⟨_, rfl, trivial⟩, h.2⟩, .beginTake⟩
  | beginSteal i hi =>
    obtain rfl := hone trivial
    have hsame : Deque.stored _ = d.stored := hstores
    rw [hsame]
    refine ⟨.stealing i, ⟨h.1, ⟨_, Function.update_self .., trivial⟩, fun j hj => ?_⟩, .beginSteal i⟩
    exact (Function.update_of_ne hj ..).trans (h.2 j)
  | @insertStep pc pc' s' hpc hstep =>
    obtain rfl := h.eq_inserting hpc
    have hsame : Deque.stored _ = d.stored := hstores
    rw [hsame]
    exact ⟨.inserting pc.value, ⟨⟨pc', rfl, insertStep_value hstep⟩, h.2⟩, .insertStep⟩
  | @inserted pc s' hpc hstep =>
    obtain rfl := h.eq_inserting hpc
    have hmore : Deque.stored _ = d.stored ++ [pc.value] := hstores
    rw [hmore]
    exact ⟨.quiet, ⟨rfl, h.2⟩, .inserted⟩
  | @takeStep pc pc' s' hpc hstep =>
    obtain rfl := h.eq_taking hpc
    obtain ⟨⟨pc₀, hpc₀, halone⟩, hthief⟩ := h
    rw [hpc] at hpc₀
    cases hpc₀
    have hsame : Deque.stored _ = d.stored := hstores
    rw [hsame]
    exact ⟨.taking, ⟨⟨pc', rfl, halone.step hstep⟩, hthief⟩, .takeStep⟩
  | @took pc s' r hpc hstep =>
    obtain rfl := h.eq_taking hpc
    obtain ⟨⟨pc₀, hpc₀, halone⟩, hthief⟩ := h
    rw [hpc] at hpc₀
    cases hpc₀
    have hback : d.stored = Deque.stored _ ++ r.toList := hstores
    have hcore := hinv.core
    rw [hpc] at hcore
    refine ⟨.quiet, ⟨rfl, hthief⟩, ?_⟩
    cases r with
    | none =>
      -- nobody else has taken the last element, so there was none
      have hnil : d.stored = [] := by
        rw [Deque.stored, hpc]
        exact halone.stored_eq_nil hcore hstep
      exact .took_none hnil ((List.append_nil _).symm.trans (hback.symm.trans hnil))
    | some v => exact .took_some hback
  | @stealStep i pc pc' s' hpc hstep =>
    obtain rfl := h.eq_stealing hpc
    obtain ⟨hidle, ⟨pc₀, hpc₀, halone⟩, hother⟩ := h
    rw [hpc] at hpc₀
    cases hpc₀
    have hsame : Deque.stored _ = d.stored := hstores
    rw [hsame]
    refine ⟨.stealing i, ⟨hidle, ⟨pc', Function.update_self .., halone.step hstep⟩, fun j hj => ?_⟩,
      .stealStep⟩
    exact (Function.update_of_ne hj ..).trans (hother j hj)
  | @stole i pc s' r hpc hstep =>
    obtain rfl := h.eq_stealing hpc
    obtain ⟨hidle, ⟨pc₀, hpc₀, halone⟩, hother⟩ := h
    rw [hpc] at hpc₀
    cases hpc₀
    have hfront : d.stored = r.toList ++ Deque.stored _ := hstores
    refine ⟨.quiet, ⟨hidle, fun j => ?_⟩, ?_⟩
    · by_cases hj : j = i
      · subst hj
        exact Function.update_self ..
      · exact (Function.update_of_ne hj ..).trans (hother j hj)
    · cases r with
      | none =>
        -- nobody else has moved `top_`, so the queue was empty
        have hnil : d.stored = [] := by
          rw [Deque.stored, hidle]
          exact (List.append_nil _).trans (halone.window_eq_nil hstep)
        exact .stole_none hnil (hfront.symm.trans hnil)
      | some v => exact .stole_some hfront

/-- A call in progress has a next step. -/
theorem Deque.Is.insert_next {d : Deque ι T} {v : T} (h : d.Is (.inserting v)) :
    (∃ d', Step d .ownerStep d') ∨ ∃ d', Step d (.inserted v) d' := by
  obtain ⟨⟨pc, hpc, rfl⟩, -⟩ := h
  rcases hstep : insertStep d.shared pc with ⟨s', next⟩
  cases next with
  | none => exact .inr ⟨_, .inserted hpc hstep⟩
  | some pc' => exact .inl ⟨_, .insertStep hpc hstep⟩

theorem Deque.Is.take_next {d : Deque ι T} (h : d.Is .taking) :
    (∃ d', Step d .ownerStep d') ∨ ∃ r d', Step d (.took r) d' := by
  obtain ⟨⟨pc, hpc, -⟩, -⟩ := h
  rcases hstep : takeStep d.shared pc with ⟨s', next⟩
  cases next with
  | inr r => exact .inr ⟨r, _, .took hpc hstep⟩
  | inl pc' => exact .inl ⟨_, .takeStep hpc hstep⟩

theorem Deque.Is.steal_next {d : Deque ι T} {i : ι} (h : d.Is (.stealing i)) :
    (∃ d', Step d (.thiefStep i) d') ∨ ∃ r d', Step d (.stole i r) d' := by
  obtain ⟨-, ⟨pc, hpc, -⟩, -⟩ := h
  rcases hstep : stealStep d.shared pc with ⟨s', next⟩
  cases next with
  | inr r => exact .inr ⟨r, _, .stole hpc hstep⟩
  | inl pc' => exact .inl ⟨_, .stealStep hpc hstep⟩

theorem remaining_beginTake {d d' : Deque ι T} (i : ι) (hs : Step d .beginTake d') :
    d'.remaining i = 7 := by
  cases hs
  rfl

theorem remaining_beginSteal {d d' : Deque ι T} {i : ι} (hidle : d.owner = .idle)
    (hs : Step d (.beginSteal i) d') : d'.remaining i = 5 := by
  cases hs
  change (match d.owner with
    | .insert pc => pc.remaining d.shared
    | .take pc => pc.remaining
    | .idle => (Function.update d.thief i (some .loadTop) i).elim 0 StealPc.remaining) = 5
  rw [hidle, Function.update_self]
  rfl

/-- Each step of the owner's call leaves fewer. -/
theorem remaining_ownerStep {d d' : Deque ι T} (i : ι) (hs : Step d .ownerStep d') :
    d'.remaining i < d.remaining i := by
  cases hs with
  | insertStep hpc hstep =>
    rw [Deque.remaining, Deque.remaining, hpc]
    exact insertStep_remaining hstep
  | takeStep hpc hstep =>
    rw [Deque.remaining, Deque.remaining, hpc]
    exact takeStep_remaining hstep

/-- Each step of a thief's call leaves fewer. -/
theorem remaining_thiefStep {d d' : Deque ι T} {i : ι} (hidle : d.owner = .idle)
    (hs : Step d (.thiefStep i) d') : d'.remaining i < d.remaining i := by
  cases hs with
  | @stealStep _ pc pc' s' hpc hstep =>
    change (match d.owner with
      | .insert pc => pc.remaining s'
      | .take pc => pc.remaining
      | .idle => (Function.update d.thief i (some pc') i).elim 0 StealPc.remaining) < _
    rw [Deque.remaining, hidle, hpc, Function.update_self]
    exact stealStep_remaining hstep

end Remmy.ChaseLev
