import Remmy.Os.FdRefused

/-!
# The Raise of the Descriptor Limit

`RaiseIfNeeded` raises the soft limit once, stores the new capacity in `known_capacity`
and clears `observed_ceiling`.  Two other threads store to these atomics what they found
before: `CapacityImpl` the limit that `Get()` returned, `Refused` the leases it held.

- `raise_kept`: as long as neither stores, after the raise, what it found before it, the
  raise is not undone.
- `raise_undone`: otherwise it is, for good.
-/

namespace Remmy.Os

open Remmy.Lib
open FdState

universe u v

variable {ι : Type u} {F : Type v}

/-! ## What is stored late -/

/-- What a thread in `CapacityImpl` is about to store in `known_capacity`. -/
def FdPc.caching : FdPc → Option ℕ
  | .capacity _ (.store cached) | .readCapacity (.store cached) => some cached
  | _ => none

/-- The thread is in `Refused`, before the end of the loop that lowers the ceiling. -/
def FdPc.lowering : FdPc → Bool
  | .forget _ _ | .loadCeiling _ _ | .casCeiling _ _ _ => true
  | _ => false

/-- The thread is raising the limit and has not stored the new capacity. -/
def FdPc.raising : FdPc → Bool
  | .setMax _ | .setLimit _ _ | .storeCapacity _ _ => true
  | _ => false

/-- `CapacityImpl` stores a limit that is no longer the limit. -/
def CachesOld (s s' : FdState ι F) : Prop :=
  ∃ i cached, (s.pc i).caching = some cached ∧ (s'.pc i).caching = none ∧ cached ≠ 0 ∧
    cached ≠ min s.soft s.maxFiles

/-- The compare-exchange of thread `i` in `Refused` succeeds. -/
def Lowers (i : ι) (s s' : FdState ι F) : Prop :=
  ∃ before code, s.pc i = .casCeiling before code s.observedCeiling ∧
    lowersCeiling before.live.toNat s.observedCeiling = true ∧ s'.pc i = .loadLeases before code

/-- **The condition** on a stretch: `CapacityImpl` stores no old limit, and no thread of
    `late` lowers the ceiling before its next refused open. -/
def Timely : (ι → Prop) → FdState ι F → List (FdEvent ι F × FdState ι F) → Prop
  | _, _, [] => True
  | late, s, (e, s') :: p =>
    ¬CachesOld s s' ∧ (∀ i, late i → ¬Lowers i s s') ∧
      Timely (fun i => late i ∧ ∀ code, e ≠ .refused i code) s' p

variable [DecidableEq ι] [DecidableEq F]

/-! ## What a step does to the limit and its caches -/

section Steps

variable {i : ι} {s s' : FdState ι F} {e : FdEvent ι F}

/-- Only the first thread to get there starts to raise. -/
theorem FdStep.raising (hs : FdStep i s e s') (hattempted : s.raiseAttempted = true) (j : ι)
    (hj : (s'.pc j).raising = true) : (s.pc j).raising = true := by
  by_cases hij : j = i
  · subst hij
    cases hs with
    | raise _ _ hfirst =>
      rw [hattempted] at hfirst
      cases hfirst
    | setMax hpc | setLimit hpc =>
      rw [hpc]
      rfl
    | forget hpc =>
      rw [setPc_self] at hj
      split_ifs at hj <;> cases hj
    | handOff | move | notExhausted => simpa using hj
    | _ =>
      rw [setPc_self] at hj
      cases hj
  · rwa [hs.pc_of_ne hij] at hj

theorem FdStep.attempted (hs : FdStep i s e s') (h : s.raiseAttempted = true) :
    s'.raiseAttempted = true := by
  cases hs with
  | raise => rfl
  | reserve | dropReservation | forget | release =>
    rw [setPc_raiseAttempted, addLeases_raiseAttempted, h]
  | handOff => rw [setFd_raiseAttempted, addLeases_raiseAttempted, h]
  | _ => exact h

/-- The limit changes in the `setrlimit` of the raise alone. -/
theorem FdStep.soft (hs : FdStep i s e s') :
    s'.hard = s.hard ∧ s'.maxFiles = s.maxFiles ∧
      (s'.soft = s.soft ∨ ∃ before, s.pc i = .setLimit before s'.soft) := by
  cases hs with
  | setLimit hpc => exact ⟨rfl, rfl, .inr ⟨_, hpc⟩⟩
  | reserve | dropReservation | forget | release =>
    rw [setPc_hard, setPc_maxFiles, setPc_soft, addLeases_hard, addLeases_maxFiles, addLeases_soft]
    exact ⟨rfl, rfl, .inl rfl⟩
  | handOff =>
    rw [setFd_hard, setFd_maxFiles, setFd_soft, addLeases_hard, addLeases_maxFiles, addLeases_soft]
    exact ⟨rfl, rfl, .inl rfl⟩
  | _ => exact ⟨rfl, rfl, .inl rfl⟩

/-- `known_capacity` takes what `CapacityImpl` found, or the raised capacity. -/
theorem FdStep.knownCapacity (hs : FdStep i s e s') :
    s'.knownCapacity = s.knownCapacity ∨
      ((s.pc i).caching = some s'.knownCapacity ∧ (s'.pc i).caching = none) ∨
      ∃ before, s.pc i = .storeCapacity before s'.knownCapacity := by
  have hcapacity {c : CapacityPc} {known : ℕ} {r : CapacityPc ⊕ ℕ}
      (hc : CapacityStep s.knownCapacity s.soft s.maxFiles c known r) :
      known = s.knownCapacity ∨ (c = .store known ∧ ∃ n, r = .inr n) := by
    cases hc with
    | store => exact .inr ⟨rfl, _, rfl⟩
    | _ => exact .inl rfl
  cases hs with
  | storeCapacity hpc => exact .inr (.inr ⟨_, hpc⟩)
  | capacityDone hpc hc | capacityRead hpc hc =>
    rcases hcapacity hc with hsame | ⟨rfl, -⟩
    · exact .inl hsame
    · refine .inr (.inl ⟨?_, ?_⟩)
      · rw [hpc]
        rfl
      · rw [setPc_self]
        rfl
  | capacityStep _ hc | readCapacityStep _ hc =>
    rcases hcapacity hc with hsame | ⟨-, n, hn⟩
    · exact .inl hsame
    · cases hn
  | reserve | dropReservation | forget | release =>
    rw [setPc_knownCapacity, addLeases_knownCapacity]
    exact .inl rfl
  | handOff =>
    rw [setFd_knownCapacity, addLeases_knownCapacity]
    exact .inl rfl
  | _ => exact .inl rfl

/-- `observed_ceiling` is lowered by a compare-exchange, or cleared by the raise. -/
theorem FdStep.observedCeiling (hs : FdStep i s e s') :
    s'.observedCeiling = s.observedCeiling ∨ Lowers i s s' ∨
      s'.observedCeiling = 0 := by
  cases hs with
  | storeCeiling => exact .inr (.inr rfl)
  | ceilingLowered hpc hlow => exact .inr (.inl ⟨_, _, hpc, hlow, setPc_self ..⟩)
  | reserve | dropReservation | forget | release =>
    rw [setPc_observedCeiling, addLeases_observedCeiling]
    exact .inl rfl
  | handOff =>
    rw [setFd_observedCeiling, addLeases_observedCeiling]
    exact .inl rfl
  | _ => exact .inl rfl

/-- `Capacity()` returns what is cached, or what it has just cached. -/
theorem FdStep.capacityRead_cases {j : ι} {c : ℕ} (hs : FdStep i s (.capacityRead j c) s') :
    c = s.knownCapacity ∨ ((s.pc i).caching = some c ∧ (s'.pc i).caching = none) := by
  cases hs with
  | capacityRead hpc hc =>
    cases hc with
    | cached => exact .inl rfl
    | store =>
      refine .inr ⟨?_, ?_⟩
      · rw [hpc]
        rfl
      · rw [setPc_self]
        rfl

/-- `Exhausted()` goes on to compare only with a ceiling that it found. -/
theorem FdStep.exhausted (hs : FdStep i s e s') {j : ι} {c : ℕ} (hj : s'.pc j = .exhausted c) :
    s.pc j = .exhausted c ∨ s.observedCeiling ≠ 0 := by
  by_cases hij : j = i
  · subst hij
    cases hs with
    | exhaustedCeiling _ hne => exact .inr hne
    | handOff | move | notExhausted => exact .inl (by simpa using hj)
    | forget =>
      rw [setPc_self] at hj
      split_ifs at hj
    | _ =>
      rw [setPc_self] at hj
      cases hj
  · exact .inl (by rwa [hs.pc_of_ne hij] at hj)

/-- `Exhausted()` says yes only after it found a ceiling. -/
theorem FdStep.exhausted_of_read {j : ι} (hs : FdStep i s (.exhaustedRead j true) s') :
    ∃ c, s.pc j = .exhausted c := by
  generalize he : FdEvent.exhaustedRead j true = e at hs
  cases hs with
  | exhaustedRead hpc =>
    obtain ⟨rfl, -⟩ := FdEvent.exhaustedRead.inj he
    exact ⟨_, hpc⟩
  | _ => cases he

/-- A thread gets to the loop of `Refused` from a refused open only. -/
theorem FdStep.lowering (hs : FdStep i s e s') (j : ι) (hj : (s'.pc j).lowering = true) :
    (s.pc j).lowering = true ∨ ∃ code, e = .refused j code := by
  by_cases hij : j = i
  · subst hij
    cases hs with
    | refused code => exact .inr ⟨code, rfl⟩
    | forget hpc | loadCeiling hpc | ceilingAgain hpc =>
      rw [hpc]
      exact .inl rfl
    | handOff | move | notExhausted => exact .inl (by simpa using hj)
    | _ =>
      rw [setPc_self] at hj
      cases hj
  · exact .inl (by rwa [hs.pc_of_ne hij] at hj)

end Steps

/-! ## Before the raise -/

/-- What is known of the limits, `soft` being the soft limit at the start: nobody has come
    to `setrlimit` yet, or the first thread to raise is on its way to its store. -/
structure LimitOk (soft hard maxFiles : ℕ) (s : FdState ι F) : Prop where
  hard_eq : s.hard = hard
  maxFiles_eq : s.maxFiles = maxFiles
  /-- One thread raises. -/
  alone : ∀ i j, (s.pc i).raising = true → (s.pc j).raising = true → i = j
  attempted : ∀ i, (s.pc i).raising = true → s.raiseAttempted = true
  target : ∀ i before target, s.pc i = .setLimit before target → target = min hard maxFiles
  stored : ∀ i before raised, s.pc i = .storeCapacity before raised →
    raised = min hard maxFiles ∧ s.soft = min hard maxFiles
  /-- Until the first attempt, everything found is the limit at the start. -/
  known : s.raiseAttempted = false → s.soft = soft ∧
    (s.knownCapacity = 0 ∨ s.knownCapacity = min soft maxFiles) ∧
    (∀ i c, (s.pc i).caching = some c → c = 0 ∨ c = min soft maxFiles) ∧
    ∀ i before c, s.pc i = .checkRaise before c → c = 0 ∨ c = min soft maxFiles
  /-- The limit is not 0 if somebody attempts to raise it. -/
  pos : s.raiseAttempted = true → 0 < min soft maxFiles

section Before

variable {soft hard maxFiles : ℕ} {i : ι} {s s' : FdState ι F} {e : FdEvent ι F}

/-- What `CapacityImpl` finds is cached, or read from the limit, or unknown. -/
theorem FdStep.caching (hs : FdStep i s e s') {j : ι} {c : ℕ} (hj : (s'.pc j).caching = some c) :
    (s.pc j).caching = some c ∨ c = 0 ∨ c = min s.soft s.maxFiles := by
  by_cases hij : j = i
  · subst hij
    cases hs with
    | capacityStep _ hc | readCapacityStep _ hc =>
      rw [setPc_self] at hj
      cases hc with
      | unknown => cases hj
      | get =>
        cases hj
        exact .inr (.inr rfl)
      | getFailed =>
        cases hj
        exact .inr (.inl rfl)
    | handOff | move | notExhausted => exact .inl (by simpa using hj)
    | forget =>
      rw [setPc_self] at hj
      split_ifs at hj <;> cases hj
    | _ =>
      rw [setPc_self] at hj
      cases hj
  · exact .inl (by rwa [hs.pc_of_ne hij] at hj)

/-- The capacity that `RaiseIfNeeded` looks at is what `CapacityImpl` returned. -/
theorem FdStep.checkRaise (hs : FdStep i s e s') {j : ι} {before : Leases} {c : ℕ}
    (hj : s'.pc j = .checkRaise before c) :
    s.pc j = .checkRaise before c ∨ c = s.knownCapacity ∨ (s.pc j).caching = some c := by
  by_cases hij : j = i
  · subst hij
    cases hs with
    | capacityDone hpc hc =>
      rw [setPc_self] at hj
      cases hj
      cases hc with
      | cached => exact .inr (.inl rfl)
      | store =>
        rw [hpc]
        exact .inr (.inr rfl)
    | handOff | move | notExhausted => exact .inl (by simpa using hj)
    | forget =>
      rw [setPc_self] at hj
      split_ifs at hj
    | _ =>
      rw [setPc_self] at hj
      cases hj
  · exact .inl (by rwa [hs.pc_of_ne hij] at hj)

/-- The first attempt to raise is made by a thread that finds the leases near the limit. -/
theorem FdStep.attempts (hs : FdStep i s e s') (h : s.raiseAttempted = false)
    (h' : s'.raiseAttempted = true) :
    ∃ before c, s.pc i = .checkRaise before c ∧ belowRaise before c = false := by
  have hsame (heq : s'.raiseAttempted = s.raiseAttempted) :
      ∃ before c, s.pc i = .checkRaise before c ∧ belowRaise before c = false := by
    rw [h', h] at heq
    cases heq
  cases hs with
  | raise hpc hbelow => exact ⟨_, _, hpc, hbelow⟩
  | reserve | dropReservation | forget | release =>
    exact hsame (by rw [setPc_raiseAttempted, addLeases_raiseAttempted])
  | handOff => exact hsame (by rw [setFd_raiseAttempted, addLeases_raiseAttempted])
  | _ => exact hsame rfl

/-- A thread starts to raise in the step of the first attempt. -/
theorem FdStep.starts (hs : FdStep i s e s') {j : ι} (h : (s.pc j).raising = false)
    (h' : (s'.pc j).raising = true) : j = i ∧ s'.raiseAttempted = true := by
  have hij : j = i := by
    by_contra hne
    rw [hs.pc_of_ne hne, h] at h'
    cases h'
  subst hij
  refine ⟨rfl, ?_⟩
  cases hs with
  | raise => rfl
  | setMax hpc | setLimit hpc =>
    rw [hpc] at h
    cases h
  | handOff | move | notExhausted =>
    have hsame : (s.pc j).raising = true := by simpa using h'
    rw [h] at hsame
    cases hsame
  | forget =>
    rw [setPc_self] at h'
    split_ifs at h' <;> cases h'
  | _ =>
    rw [setPc_self] at h'
    cases h'

/-- The limit to set is the highest one permitted. -/
theorem FdStep.target (hs : FdStep i s e s') {j : ι} {before : Leases} {target : ℕ}
    (hj : s'.pc j = .setLimit before target) :
    s.pc j = .setLimit before target ∨ target = min s.hard s.maxFiles := by
  by_cases hij : j = i
  · subst hij
    cases hs with
    | setMax =>
      rw [setPc_self] at hj
      cases hj
      exact .inr rfl
    | handOff | move | notExhausted => exact .inl (by simpa using hj)
    | forget =>
      rw [setPc_self] at hj
      split_ifs at hj
    | _ =>
      rw [setPc_self] at hj
      cases hj
  · exact .inl (by rwa [hs.pc_of_ne hij] at hj)

/-- The capacity to store is the limit just set. -/
theorem FdStep.stores (hs : FdStep i s e s') {j : ι} {before : Leases} {raised : ℕ}
    (hj : s'.pc j = .storeCapacity before raised) :
    s.pc j = .storeCapacity before raised ∨
      (s.pc j = .setLimit before raised ∧ s'.soft = raised) := by
  by_cases hij : j = i
  · subst hij
    cases hs with
    | setLimit hpc =>
      rw [setPc_self] at hj
      cases hj
      exact .inr ⟨hpc, rfl⟩
    | handOff | move | notExhausted => exact .inl (by simpa using hj)
    | forget =>
      rw [setPc_self] at hj
      split_ifs at hj
    | _ =>
      rw [setPc_self] at hj
      cases hj
  · exact .inl (by rwa [hs.pc_of_ne hij] at hj)

omit [DecidableEq ι] [DecidableEq F] in
theorem LimitOk.not_raising (h : LimitOk soft hard maxFiles s) (hno : s.raiseAttempted = false)
    (j : ι) : (s.pc j).raising = false := by
  by_contra hj
  rw [Bool.not_eq_false] at hj
  rw [h.attempted j hj] at hno
  cases hno

/-- **Step lemma**: what is known of the limits. -/
theorem FdStep.limitOk (hs : FdStep i s e s') (h : LimitOk soft hard maxFiles s) :
    LimitOk soft hard maxFiles s' := by
  obtain ⟨hhard, hmax, hsoft⟩ := hs.soft
  -- a thread that raises has been raising, or this is the first attempt
  have hraise (j : ι) (hj : (s'.pc j).raising = true) : (s.pc j).raising = true ∨
      (j = i ∧ s.raiseAttempted = false ∧ s'.raiseAttempted = true) := by
    cases hattempted : s.raiseAttempted with
    | true => exact .inl (hs.raising hattempted j hj)
    | false =>
      obtain ⟨hij, hset⟩ := hs.starts (h.not_raising hattempted j) hj
      exact .inr ⟨hij, rfl, hset⟩
  refine ⟨hhard.trans h.hard_eq, hmax.trans h.maxFiles_eq, ?_, ?_, ?_, ?_, ?_, ?_⟩
  -- Only one thread raises.
  · intro j k hj hk
    rcases hraise j hj with hj' | ⟨rfl, hno, -⟩
    · rcases hraise k hk with hk' | ⟨-, hno, -⟩
      · exact h.alone j k hj' hk'
      · rw [h.attempted j hj'] at hno
        cases hno
    · rcases hraise k hk with hk' | ⟨rfl, -, -⟩
      · rw [h.attempted k hk'] at hno
        cases hno
      · rfl
  · intro j hj
    rcases hraise j hj with hj' | ⟨-, -, hset⟩
    · exact hs.attempted (h.attempted j hj')
    · exact hset
  · intro j before target hj
    rcases hs.target hj with hj' | rfl
    · exact h.target j before target hj'
    · rw [h.hard_eq, h.maxFiles_eq]
  · intro j before raised hj
    rcases hs.stores hj with hj' | ⟨hj', hset⟩
    · obtain ⟨hraised, hold⟩ := h.stored j before raised hj'
      rcases hsoft with hsame | ⟨before', hlimit⟩
      · exact ⟨hraised, hsame.trans hold⟩
      · -- nobody else is raising
        have hij := h.alone j i (by rw [hj']; rfl) (by rw [hlimit]; rfl)
        rw [hij, hlimit] at hj'
        cases hj'
    · have htarget := h.target j before raised hj'
      exact ⟨htarget, hset.trans htarget⟩
  -- Before the first attempt nothing has been raised.
  · intro hno'
    have hno : s.raiseAttempted = false := by
      by_contra hyes
      rw [Bool.not_eq_false] at hyes
      rw [hs.attempted hyes] at hno'
      cases hno'
    obtain ⟨hold, hknown, hcaching, hcheck⟩ := h.known hno
    refine ⟨?_, ?_, ?_, ?_⟩
    · rcases hsoft with hsame | ⟨before, hlimit⟩
      · exact hsame.trans hold
      · have hraising := h.not_raising hno i
        rw [hlimit] at hraising
        cases hraising
    · rcases hs.knownCapacity with hsame | ⟨hstore, -⟩ | ⟨before, hstore⟩
      · rwa [hsame]
      · exact hcaching i _ hstore
      · have hraising := h.not_raising hno i
        rw [hstore] at hraising
        cases hraising
    · intro j c hj
      rcases hs.caching hj with hj' | rfl | rfl
      · exact hcaching j c hj'
      · exact .inl rfl
      · rw [hold, h.maxFiles_eq]
        exact .inr rfl
    · intro j before c hj
      rcases hs.checkRaise hj with hj' | rfl | hj'
      · exact hcheck j before c hj'
      · exact hknown
      · exact hcaching j c hj'
  · intro hset
    cases hattempted : s.raiseAttempted with
    | true => exact h.pos hattempted
    | false =>
      obtain ⟨before, c, hpc, hbelow⟩ := hs.attempts hattempted hset
      obtain ⟨-, -, -, hcheck⟩ := h.known hattempted
      rcases hcheck i before c hpc with rfl | rfl
      · simp [belowRaise] at hbelow
      · apply Nat.pos_of_ne_zero
        intro hzero
        rw [hzero] at hbelow
        simp [belowRaise] at hbelow

omit [DecidableEq ι] [DecidableEq F] in
theorem limitOk_initial :
    LimitOk soft hard maxFiles (.initial soft hard maxFiles : FdState ι F) where
  hard_eq := rfl
  maxFiles_eq := rfl
  alone _ _ h := by cases h
  attempted _ h := by cases h
  target _ _ _ h := by cases h
  stored _ _ _ h := by cases h
  known _ := ⟨rfl, .inl rfl, fun _ _ h => (by cases h), fun _ _ _ h => (by cases h)⟩
  pos h := by cases h

/-- What is known of the limits holds in every run from a start with the soft limit `soft`. -/
theorem limitOk_path {p : List (FdEvent ι F × FdState ι F)}
    (h : (fdSystem ι F).Path (.initial soft hard maxFiles) p s) : LimitOk soft hard maxFiles s := by
  apply h.invariant limitOk_initial
  rintro s x - hok ⟨i, hs⟩
  exact hs.limitOk hok

end Before

/-! ## After the raise -/

/-- The new capacity is stored: nothing else is cached any more. -/
structure Raised (capacity : ℕ) (s : FdState ι F) : Prop where
  attempted : s.raiseAttempted = true
  done : ∀ i, (s.pc i).raising = false
  limit : min s.soft s.maxFiles = capacity
  known : s.knownCapacity = 0 ∨ s.knownCapacity = capacity

section After

variable {soft hard maxFiles capacity : ℕ} {i r : ι} {s s' s₁ t t₁ u : FdState ι F}
  {e : FdEvent ι F} {before : Leases} {p q : List (FdEvent ι F × FdState ι F)}

omit [DecidableEq F] in
/-- Storing the raised capacity. -/
theorem LimitOk.raised {target : ℕ} (h : LimitOk soft hard maxFiles s)
    (hpc : s.pc r = .storeCapacity before target) :
    Raised (min hard maxFiles) ({ s with knownCapacity := target }.setPc r (.storeCeiling before)) := by
  obtain ⟨rfl, hsoft⟩ := h.stored r before target hpc
  have hraising : (s.pc r).raising = true := by
    rw [hpc]
    rfl
  refine ⟨h.attempted r hraising, ?_, ?_, .inr rfl⟩
  · intro j
    by_cases hj : j = r
    · rw [hj, setPc_self]
      rfl
    · rw [setPc_of_ne _ _ hj]
      by_contra hyes
      exact hj (h.alone j r (by simpa using hyes) hraising)
  · change min s.soft s.maxFiles = _
    rw [hsoft, h.maxFiles_eq]
    omega

/-- **Step lemma**: a step that stores no old limit leaves the raised capacity in place, and
    `Capacity()` returns it, or 0 when `Get()` fails. -/
theorem FdStep.raised (hs : FdStep i s e s') (h : Raised capacity s) (hfresh : ¬CachesOld s s') :
    Raised capacity s' ∧ ∀ j c, e = .capacityRead j c → c = 0 ∨ c = capacity := by
  obtain ⟨-, hmax, hsoft⟩ := hs.soft
  have hcached {c : ℕ} (hc : (s.pc i).caching = some c ∧ (s'.pc i).caching = none) :
      c = 0 ∨ c = capacity := by
    by_contra hold
    rw [not_or] at hold
    exact hfresh ⟨i, c, hc.1, hc.2, hold.1, by rw [h.limit]; exact hold.2⟩
  refine ⟨⟨hs.attempted h.attempted, ?_, ?_, ?_⟩, ?_⟩
  · intro j
    by_contra hj
    rw [Bool.not_eq_false] at hj
    have hraising := hs.raising h.attempted j hj
    rw [h.done j] at hraising
    cases hraising
  · rcases hsoft with hsame | ⟨before, hlimit⟩
    · rw [hsame, hmax, h.limit]
    · have hdone := h.done i
      rw [hlimit] at hdone
      cases hdone
  · rcases hs.knownCapacity with hsame | hc | ⟨before, hstore⟩
    · rw [hsame]
      exact h.known
    · exact hcached hc
    · have hdone := h.done i
      rw [hstore] at hdone
      cases hdone
  · rintro j c rfl
    rcases hs.capacityRead_cases with rfl | hc
    · exact h.known
    · exact hcached hc

/-- **Run lemma**: what every timely step keeps. -/
theorem raised_path {late : ι → Prop} (h : (fdSystem ι F).Path s p t) (hraised : Raised capacity s)
    (htimely : Timely late s p) :
    Raised capacity t ∧ ∀ x ∈ p, ∀ j c, x.1 = .capacityRead j c → c = 0 ∨ c = capacity := by
  induction h generalizing late with
  | nil s => exact ⟨hraised, fun x hx => by cases hx⟩
  | @cons s s' t e p hstep _ ih =>
    obtain ⟨i, hs⟩ := hstep
    obtain ⟨hfresh, -, hrest⟩ := htimely
    obtain ⟨hraised', hread⟩ := hs.raised hraised hfresh
    obtain ⟨hend, hreads⟩ := ih hraised' hrest
    refine ⟨hend, ?_⟩
    intro x hx
    rcases List.mem_cons.mp hx with rfl | hx
    · exact hread
    · exact hreads x hx

/-- No ceiling has been observed since it was cleared: `late` are the threads whose open was
    refused before that, and `old` those whose `Exhausted()` had found a ceiling. -/
structure Cleared (late old : ι → Prop) (s : FdState ι F) : Prop where
  ceiling : s.observedCeiling = 0
  refused : ∀ i, (s.pc i).lowering = true → late i
  found : ∀ i c, s.pc i = .exhausted c → old i

omit [DecidableEq F] in
/-- A thread whose `Exhausted()` returns is not in a call of it any more. -/
theorem FdStep.not_exhausted [DecidableEq F] {j : ι} {b : Bool} (hs : FdStep i s (.exhaustedRead j b) s')
    (c : ℕ) : s'.pc j ≠ .exhausted c := by
  generalize he : FdEvent.exhaustedRead j b = e at hs
  cases hs with
  | exhaustedRead hpc =>
    obtain ⟨rfl, -⟩ := FdEvent.exhaustedRead.inj he
    rw [setPc_self]
    exact fun hc => by cases hc
  | notExhausted hidle =>
    obtain ⟨rfl, -⟩ := FdEvent.exhaustedRead.inj he
    rw [hidle]
    exact fun hc => by cases hc
  | _ => cases he

/-- **Step lemma**: without a refused open, and without a ceiling lowered late, no ceiling
    is observed, and `Exhausted()` says no to every call that began since. -/
theorem FdStep.cleared {late old : ι → Prop} (hs : FdStep i s e s') (h : Cleared late old s)
    (hrefused : ∀ j code, e ≠ .refused j code) (hlate : ∀ j, late j → ¬Lowers j s s') :
    Cleared late (fun j => old j ∧ ∀ b, e ≠ .exhaustedRead j b) s' ∧
      ∀ j, e = .exhaustedRead j true → old j := by
  refine ⟨⟨?_, ?_, ?_⟩, ?_⟩
  · rcases hs.observedCeiling with hsame | hlowers | hclear
    · exact hsame.trans h.ceiling
    · obtain ⟨before, code, hpc, -, -⟩ := id hlowers
      exact absurd hlowers (hlate i (h.refused i (by rw [hpc]; rfl)))
    · exact hclear
  · intro j hj
    rcases hs.lowering j hj with hj' | ⟨code, he⟩
    · exact h.refused j hj'
    · exact absurd he (hrefused j code)
  · intro j c hj
    rcases hs.exhausted hj with hj' | hne
    · refine ⟨h.found j c hj', ?_⟩
      rintro b rfl
      exact hs.not_exhausted c hj
    · exact absurd h.ceiling hne
  · rintro j rfl
    obtain ⟨c, hj⟩ := hs.exhausted_of_read
    exact h.found j c hj

/-- **Run lemma**: along a timely stretch without a refused open, `Exhausted()` says yes at
    most once to a thread of `old`, and never to any other. -/
theorem cleared_path {late old : ι → Prop} (h : (fdSystem ι F).Path s p t)
    (hcleared : Cleared late old s) (htimely : Timely late s p)
    (hrefused : ∀ x ∈ p, ∀ j code, x.1 ≠ .refused j code) :
    t.observedCeiling = 0 ∧ ∀ p₁ j v p₂, p = p₁ ++ (.exhaustedRead j true, v) :: p₂ →
      old j ∧ ∀ x ∈ p₁, ∀ b, x.1 ≠ .exhaustedRead j b := by
  induction h generalizing late old with
  | nil s =>
    refine ⟨hcleared.ceiling, ?_⟩
    intro p₁ j v p₂ hp
    simp at hp
  | @cons s s' t e p hstep _ ih =>
    obtain ⟨i, hs⟩ := hstep
    obtain ⟨-, hlate, hrest⟩ := htimely
    have hno := hrefused (e, s') List.mem_cons_self
    obtain ⟨⟨hzero, hlowering, hfound⟩, hyes⟩ := hs.cleared hcleared hno hlate
    -- nobody leaves `late`, because no open is refused
    have hkept : Cleared (fun j => late j ∧ ∀ code, e ≠ .refused j code)
        (fun j => old j ∧ ∀ b, e ≠ .exhaustedRead j b) s' :=
      ⟨hzero, fun j hj => ⟨hlowering j hj, hno j⟩, hfound⟩
    obtain ⟨hend, hanswers⟩ := ih hkept hrest fun x hx => hrefused x (List.mem_cons_of_mem _ hx)
    refine ⟨hend, ?_⟩
    intro p₁ j v p₂ hp
    cases p₁ with
    | nil =>
      obtain ⟨hhead, -⟩ := List.cons.inj hp
      exact ⟨hyes j (congrArg Prod.fst hhead), fun x hx => by cases hx⟩
    | cons y p₁ =>
      obtain ⟨rfl, htail⟩ := List.cons.inj hp
      obtain ⟨⟨hold, hfirst⟩, hothers⟩ := hanswers p₁ j v p₂ htail
      refine ⟨hold, ?_⟩
      intro x hx
      rcases List.mem_cons.mp hx with rfl | hx
      · exact hfirst
      · exact hothers x hx

/-- **A raise that nobody undoes.**  From a start with nothing cached, thread `r` stores the
    raised capacity in `s` and clears the ceiling in `t`.  If from the store on `CapacityImpl`
    stores no limit that is out of date, and from the clear on no thread lowers the ceiling
    for an open refused before it, then
    - `Capacity()` does not return the smaller limit of before the raise again;
    - as long as no open is refused, the ceiling stays clear, and `Exhausted()` says yes to
      no call but those that had found a ceiling before the clear. -/
theorem raise_kept {target : ℕ} {tr : List (FdEvent ι F × FdState ι F)}
    (hrun : (fdSystem ι F).Path (.initial soft hard maxFiles) tr s)
    (hstore : s.pc r = .storeCapacity before target)
    (hs₁ : s₁ = { s with knownCapacity := target }.setPc r (.storeCeiling before))
    (hp : (fdSystem ι F).Path s₁ p t) (hclear : t.pc r = .storeCeiling before)
    (ht₁ : t₁ = { t with observedCeiling := 0 }.setPc r (.opening before))
    (hq : (fdSystem ι F).Path t₁ q u) (hstored : Timely (fun _ => False) s₁ p)
    (hcleared : Timely (fun i => (t₁.pc i).lowering = true) t₁ q) :
    (min soft maxFiles < min hard maxFiles →
      ∀ x ∈ q, ∀ i c, x.1 = .capacityRead i c → c ≠ min soft maxFiles) ∧
    ((∀ x ∈ q, ∀ i code, x.1 ≠ .refused i code) → u.observedCeiling = 0 ∧
      ∀ q₁ i v q₂, q = q₁ ++ (.exhaustedRead i true, v) :: q₂ →
        (∃ c, t₁.pc i = .exhausted c) ∧ ∀ x ∈ q₁, ∀ b, x.1 ≠ .exhaustedRead i b) := by
  have hlimits := limitOk_path hrun
  have hpos : 0 < min soft maxFiles :=
    hlimits.pos (hlimits.attempted r (by rw [hstore]; rfl))
  constructor
  · intro hsmaller x hx i c he
    have hraised : Raised (min hard maxFiles) s₁ := by
      rw [hs₁]
      exact hlimits.raised hstore
    obtain ⟨hraisedt, -⟩ := raised_path hp hraised hstored
    have hclearing : FdStep r t .internal t₁ := by
      rw [ht₁]
      exact .storeCeiling hclear
    have hfresh : ¬CachesOld t t₁ := by
      rintro ⟨j, cached, hj, hj', -, -⟩
      -- the thread that clears the ceiling caches nothing
      by_cases hjr : j = r
      · rw [hjr, hclear] at hj
        cases hj
      · rw [hclearing.pc_of_ne hjr, hj] at hj'
        cases hj'
    have hraisedt₁ := (hclearing.raised hraisedt hfresh).1
    rcases (raised_path hq hraisedt₁ hcleared).2 x hx i c he with rfl | rfl
    · exact hpos.ne
    · exact hsmaller.ne'
  · intro hrefused
    have hstart : Cleared (fun i => (t₁.pc i).lowering = true) (fun i => ∃ c, t₁.pc i = .exhausted c) t₁ := by
      refine ⟨?_, fun i hi => hi, fun i c hc => ⟨c, hc⟩⟩
      rw [ht₁]
      rfl
    exact cleared_path hq hstart hcleared hrefused

end After

/-! ## A raise by a thread on its own -/

/-- Nothing about the limit has changed. -/
structure SameLimits (s s' : FdState ι F) : Prop where
  known : s.knownCapacity = 0 → s'.knownCapacity = 0
  ceiling : s'.observedCeiling = s.observedCeiling
  attempted : s'.raiseAttempted = s.raiseAttempted
  soft : s'.soft = s.soft
  hard : s'.hard = s.hard
  maxFiles : s'.maxFiles = s.maxFiles

omit [DecidableEq ι] [DecidableEq F] in
theorem SameLimits.trans {s t u : FdState ι F} (h : SameLimits s t) (h' : SameLimits t u) :
    SameLimits s u :=
  ⟨fun hs => h'.known (h.known hs), h'.ceiling.trans h.ceiling, h'.attempted.trans h.attempted,
    h'.soft.trans h.soft, h'.hard.trans h.hard, h'.maxFiles.trans h.maxFiles⟩

omit [DecidableEq ι] [DecidableEq F] in
theorem sameLimits_addLeases (s : FdState ι F) (n : BitVec 64) : SameLimits s (s.addLeases n) := by
  constructor
  · intro h
    rw [addLeases_knownCapacity, h]
  · rw [addLeases_observedCeiling]
  · rw [addLeases_raiseAttempted]
  · rw [addLeases_soft]
  · rw [addLeases_hard]
  · rw [addLeases_maxFiles]

omit [DecidableEq F] in
theorem sameLimits_setPc (s : FdState ι F) (i : ι) (pc : FdPc) : SameLimits s (s.setPc i pc) :=
  ⟨fun h => h, rfl, rfl, rfl, rfl, rfl⟩

/-- A `Reserve`. -/
theorem reserve_path {i : ι} {s : FdState ι F} (hidle : s.pc i = .idle) :
    ∃ p s', (fdSystem ι F).Path s p s' ∧ s'.leases = s.leases + kAcquire ∧ SameLimits s s' ∧
      s'.pc = Function.update s.pc i (.capacity (.unpack s.leases) .load) := by
  refine ⟨_, _, .cons ⟨i, .reserve hidle⟩ (.nil _), ?_, ?_, ?_⟩
  · rw [setPc_leases, addLeases_leases]
  · exact (sameLimits_addLeases s kAcquire).trans (sameLimits_setPc ..)
  · rw [FdState.setPc, addLeases_pc]

/-- A thread on its own gets from its `Reserve` to the store of the raised capacity. -/
theorem raise_alone {r : ι} {s : FdState ι F} (hidle : s.pc r = .idle) (hknown : s.knownCapacity = 0)
    (hfirst : s.raiseAttempted = false)
    (hnear : belowRaise (.unpack s.leases) (min s.soft s.maxFiles) = false) :
    ∃ p s', (fdSystem ι F).Path s p s' ∧ s'.leases = s.leases + kAcquire ∧
      s'.observedCeiling = s.observedCeiling ∧
      s'.pc = Function.update s.pc r
        (.storeCapacity (.unpack s.leases) (min s.hard s.maxFiles)) := by
  obtain ⟨p, s₁, hreserve, hword₁, hlimits, hpcs⟩ := reserve_path hidle
  have hpc₁ : s₁.pc r = .capacity (.unpack s.leases) .load := by rw [hpcs, Function.update_self]
  have hload := hreserve.snoc ⟨r, .capacityStep hpc₁ (.unknown (hlimits.known hknown))⟩
  have hget := hload.snoc ⟨r, .capacityStep (setPc_self ..) .get⟩
  have hcheck := hget.snoc ⟨r, .capacityDone (setPc_self ..) .store⟩
  have hnear₁ : belowRaise (.unpack s.leases) (min s₁.soft s₁.maxFiles) = false := by
    rw [hlimits.soft, hlimits.maxFiles, hnear]
  have hraise := hcheck.snoc ⟨r, .raise (setPc_self ..) hnear₁ (hlimits.attempted.trans hfirst)⟩
  have hmax := hraise.snoc ⟨r, .setMax (setPc_self ..)⟩
  have hlimit := hmax.snoc ⟨r, .setLimit (setPc_self ..)⟩
  refine ⟨_, _, hlimit, hword₁, hlimits.ceiling, ?_⟩
  simp [FdState.setPc, hpcs, hlimits.hard, hlimits.maxFiles]

/-- The `Exhausted()` of an idle thread after its `Capacity()`, once a ceiling was lowered. -/
theorem capacity_then_exhausted {i : ι} {s : FdState ι F} {c : ℕ} (hidle : s.pc i = .idle)
    (hknown : s.knownCapacity = c) (hc : c ≠ 0) (hceiling : s.observedCeiling ≠ 0)
    (hlive : s.observedCeiling ≤ (Leases.unpack s.leases).live.toNat) :
    ∃ q u, (fdSystem ι F).Path s q u ∧
      q.map Prod.fst = [.internal, .capacityRead i c, .internal, .exhaustedRead i true] := by
  have hread := (System.Path.nil s).snoc (S := fdSystem ι F) ⟨i, .readCapacity hidle⟩
  have hcapacity := hread.snoc ⟨i, .capacityRead (setPc_self ..) (.cached (hknown ▸ hc))⟩
  have hfound := hcapacity.snoc ⟨i, .exhaustedCeiling (setPc_self ..) hceiling⟩
  have hexhausted := hfound.snoc ⟨i, .exhaustedRead (setPc_self ..)⟩
  refine ⟨_, _, hexhausted, ?_⟩
  simp [hknown, hlive]

omit [DecidableEq ι] [DecidableEq F] in
theorem not_cachesOld {s s' : FdState ι F} (h : ∀ i, (s.pc i).caching = none) : ¬CachesOld s s' := by
  rintro ⟨i, cached, hi, -⟩
  rw [h i] at hi
  cases hi

omit [DecidableEq ι] [DecidableEq F] in
theorem not_lowers {i : ι} {s s' : FdState ι F} (h : (s.pc i).lowering = false) : ¬Lowers i s s' := by
  rintro ⟨before, code, hi, -⟩
  rw [hi] at h
  cases h

/-- Thread 0 raises the limit, and thread 1 calls `Capacity()` and `Exhausted()`. -/
theorem raise_kept_alone : ∃ (t u : FdState (Fin 2) Unit)
    (q : List (FdEvent (Fin 2) Unit × FdState (Fin 2) Unit)), (fdSystem (Fin 2) Unit).Path t q u ∧
      q.map Prod.fst = [.internal, .capacityRead 1 8, .exhaustedRead 1 false] ∧
      (∀ x ∈ q, ∀ i c, x.1 = .capacityRead i c → c ≠ min 2 8) ∧ u.observedCeiling = 0 := by
  obtain ⟨tr, s, hrun, -, -, hpc⟩ := raise_alone (ι := Fin 2) (F := Unit) (r := 0)
    (s := .initial 2 8 8) rfl rfl rfl (by decide)
  have hstore : s.pc 0 = .storeCapacity (.unpack 0) 8 := by
    rw [hpc]
    rfl
  have hother : s.pc 1 = .idle := by
    rw [hpc]
    rfl
  have hne : (1 : Fin 2) ≠ 0 := by decide
  set t := { s with knownCapacity := 8 }.setPc 0 (.storeCeiling (.unpack 0)) with ht
  set t₁ := { t with observedCeiling := 0 }.setPc 0 (.opening (.unpack 0)) with ht₁
  have hraiser : t₁.pc 0 = .opening (.unpack 0) := by rw [ht₁, setPc_self]
  have hidle : t₁.pc 1 = .idle :=
    calc t₁.pc 1 = t.pc 1 := setPc_of_ne _ _ hne
      _ = s.pc 1 := setPc_of_ne _ _ hne
      _ = .idle := hother
  have hread := (System.Path.nil t₁).snoc (S := fdSystem (Fin 2) Unit) ⟨1, .readCapacity hidle⟩
  have hcapacity := hread.snoc
    ⟨1, .capacityRead (setPc_self ..) (.cached (show (8 : ℕ) ≠ 0 by decide))⟩
  have hexhausted := hcapacity.snoc ⟨1, .notExhausted (setPc_self ..) rfl⟩
  have hraiser' : (t₁.setPc 1 (.readCapacity .load)).pc 0 = .opening (.unpack 0) := by
    rw [setPc_of_ne _ _ hne.symm, hraiser]
  have hquiet : ∀ i, (t₁.pc i).caching = none ∧ (t₁.pc i).lowering = false := by
    rw [Fin.forall_fin_two, hraiser, hidle]
    exact ⟨⟨rfl, rfl⟩, ⟨rfl, rfl⟩⟩
  have hquiet' : ∀ i, ((t₁.setPc 1 (.readCapacity .load)).pc i).caching = none ∧
      ((t₁.setPc 1 (.readCapacity .load)).pc i).lowering = false := by
    rw [Fin.forall_fin_two, hraiser', setPc_self]
    exact ⟨⟨rfl, rfl⟩, ⟨rfl, rfl⟩⟩
  have hquiet'' : ∀ i, (((t₁.setPc 1 (.readCapacity .load)).setPc 1 .idle).pc i).caching = none ∧
      (((t₁.setPc 1 (.readCapacity .load)).setPc 1 .idle).pc i).lowering = false := by
    rw [Fin.forall_fin_two, setPc_of_ne _ _ hne.symm, hraiser', setPc_self]
    exact ⟨⟨rfl, rfl⟩, ⟨rfl, rfl⟩⟩
  obtain ⟨hcapacities, hceiling⟩ :=
    raise_kept hrun hstore ht (.nil t) (setPc_self ..) ht₁ hexhausted trivial
      ⟨not_cachesOld fun i => (hquiet i).1, fun i _ => not_lowers (hquiet i).2,
        not_cachesOld fun i => (hquiet' i).1, fun i _ => not_lowers (hquiet' i).2,
        not_cachesOld fun i => (hquiet'' i).1, fun i _ => not_lowers (hquiet'' i).2, trivial⟩
  refine ⟨t₁, _, _, hexhausted, rfl, hcapacities (by decide), (hceiling ?_).1⟩
  intro x hx i code
  simp only [List.nil_append, List.cons_append, List.mem_cons, List.not_mem_nil, or_false] at hx
  rcases hx with rfl | rfl | rfl <;> simp

/-- An open whose `Get()` fails and that is refused. -/
theorem refused_path {i : ι} {s : FdState ι F} {before : Leases}
    (hpc : s.pc i = .capacity before .load) (hknown : s.knownCapacity = 0) :
    ∃ p s', (fdSystem ι F).Path s p s' ∧ s'.leases = s.leases ∧ SameLimits s s' ∧
      s'.pc = Function.update s.pc i (.forget before .emfile) := by
  have hload := (System.Path.nil s).snoc (S := fdSystem ι F) ⟨i, .capacityStep hpc (.unknown hknown)⟩
  have hget := hload.snoc ⟨i, .capacityStep (setPc_self ..) .getFailed⟩
  have hcheck := hget.snoc ⟨i, .capacityDone (setPc_self ..) .store⟩
  have hopening := hcheck.snoc ⟨i, .noRaise (setPc_self ..) (.inl rfl)⟩
  have hrefused := hopening.snoc ⟨i, .refused .emfile (setPc_self ..) rfl⟩
  refine ⟨_, _, hrefused, rfl, ⟨fun _ => rfl, rfl, rfl, rfl, rfl, rfl⟩, ?_⟩
  simp [FdState.setPc]

/-- A refused thread with leases before its own comes to its compare-exchange. -/
theorem forget_path {i : ι} {s : FdState ι F} {before : Leases} {code : Errno}
    (hpc : s.pc i = .forget before code) (hlive : before.live ≠ 0) :
    ∃ p s', (fdSystem ι F).Path s p s' ∧ s'.leases = s.leases + -kAcquire ∧ SameLimits s s' ∧
      s'.pc = Function.update s.pc i (.casCeiling before code s.observedCeiling) := by
  have hforget := (System.Path.nil s).snoc (S := fdSystem ι F) ⟨i, .forget hpc⟩
  rw [if_pos hlive] at hforget
  refine ⟨_, _, hforget.snoc ⟨i, .loadCeiling (setPc_self ..)⟩, ?_, ?_, ?_⟩
  · rw [setPc_leases, setPc_leases, addLeases_leases]
  · exact ((sameLimits_addLeases s _).trans (sameLimits_setPc ..)).trans (sameLimits_setPc ..)
  · rw [setPc_observedCeiling, addLeases_observedCeiling, FdState.setPc, FdState.setPc, addLeases_pc]
    exact Function.update_idem ..

/-- A thread in `Capacity()` finds the limit. -/
theorem getCapacity_path {i : ι} {s : FdState ι F} (hidle : s.pc i = .idle)
    (hknown : s.knownCapacity = 0) :
    ∃ p s', (fdSystem ι F).Path s p s' ∧ s'.leases = s.leases ∧ SameLimits s s' ∧
      s'.pc = Function.update s.pc i (.readCapacity (.store (min s.soft s.maxFiles))) := by
  have hread := (System.Path.nil s).snoc (S := fdSystem ι F) ⟨i, .readCapacity hidle⟩
  have hload := hread.snoc ⟨i, .readCapacityStep (setPc_self ..) (.unknown hknown)⟩
  have hget := hload.snoc ⟨i, .readCapacityStep (setPc_self ..) .get⟩
  refine ⟨_, _, hget, rfl, ⟨fun h => h, rfl, rfl, rfl, rfl, rfl⟩, ?_⟩
  simp [FdState.setPc]

/-- Before the raise thread 0 has found the limit 2 in `Capacity()`, and the open of thread 2
    was refused while thread 3 had a lease; thread 1 is about to store the capacity 8. -/
theorem raise_undone_before : ∃ (tr : List (FdEvent (Fin 4) Unit × FdState (Fin 4) Unit))
    (s : FdState (Fin 4) Unit) (before refused : Leases) (code : Errno),
    (fdSystem (Fin 4) Unit).Path (.initial 2 8 8) tr s ∧ s.pc 0 = .readCapacity (.store 2) ∧
      s.pc 1 = .storeCapacity before 8 ∧ s.pc 2 = .casCeiling refused code 0 ∧
      refused.live = 1 ∧ s.leases = leaseWord 2 0 := by
  -- thread 3 reserves, and thread 2 comes to its compare-exchange
  obtain ⟨p₃, s₃, hrun₃, hword₃, hlimits₃, hpc₃⟩ :=
    reserve_path (ι := Fin 4) (F := Unit) (i := 3) (s := .initial 2 8 8) rfl
  obtain ⟨p₂, s₂, hrun₂, hword₂, hlimits₂, hpc₂⟩ :=
    reserve_path (i := 2) (s := s₃) (by rw [hpc₃]; rfl)
  have hone : s₃.leases = leaseWord 1 0 := by
    rw [hword₃, ← leaseWord_acquire, leaseWord_zero]
    rfl
  have hlive : (Leases.unpack s₃.leases).live = 1 := by
    rw [hone, unpack_word]
    rfl
  have hknown₂ := hlimits₂.known (hlimits₃.known rfl)
  have hcapacity : s₂.pc 2 = .capacity (.unpack s₃.leases) .load := by
    rw [hpc₂]
    rfl
  obtain ⟨q₂, t₂, hrefused₂, hword₂', hlimits₂', hpc₂'⟩ := refused_path hcapacity hknown₂
  have hforget : t₂.pc 2 = .forget (.unpack s₃.leases) .emfile := by
    rw [hpc₂']
    rfl
  obtain ⟨r₂, u₂, hforget₂, hword₂'', hlimits₂'', hpc₂''⟩ :=
    forget_path hforget (by rw [hlive]; decide)
  have hlimits := ((hlimits₃.trans hlimits₂).trans hlimits₂').trans hlimits₂''
  -- thread 0 finds the limit, and thread 1 raises it
  obtain ⟨p₀, s₀, hrun₀, hword₀, hlimits₀, hpc₀⟩ :=
    getCapacity_path (i := 0) (s := u₂) (by rw [hpc₂'', hpc₂', hpc₂, hpc₃]; rfl) (hlimits.known rfl)
  have hword : s₀.leases = leaseWord 1 0 := by
    rw [hword₀, hword₂'', hword₂', hword₂, hone, leaseWord_acquire, leaseWord_forget]
  have hsoft₀ := (hlimits.trans hlimits₀).soft
  have hmax₀ := (hlimits.trans hlimits₀).maxFiles
  obtain ⟨p₁, s₁, hrun₁, hword₁, hceiling₁, hpc₁⟩ :=
    raise_alone (r := 1) (s := s₀) (by rw [hpc₀, hpc₂'', hpc₂', hpc₂, hpc₃]; rfl)
      (hlimits₀.known (hlimits.known rfl)) ((hlimits.trans hlimits₀).attempted)
      (by rw [hsoft₀, hmax₀, hword, unpack_word]; decide)
  refine ⟨_, s₁, .unpack s₀.leases, .unpack s₃.leases, .emfile,
    (((hrun₃.append hrun₂).append hrefused₂).append hforget₂ |>.append hrun₀).append hrun₁,
    ?_, ?_, ?_, hlive, ?_⟩
  · rw [hpc₁, hpc₀, hlimits.soft, hlimits.maxFiles]
    rfl
  · rw [hpc₁, (hlimits.trans hlimits₀).hard, hmax₀]
    rfl
  · rw [hpc₁, hpc₀, hpc₂'', ((hlimits₃.trans hlimits₂).trans hlimits₂').ceiling]
    rfl
  · rw [hword₁, hword, leaseWord_acquire]

/-- **A raise that is undone.**  After the raise from 2 to 8 thread 0 stores the 2 that it
    found before, and thread 2 lowers the ceiling for its open refused before: `Capacity()`
    returns 2 from then on, and `Exhausted()` says yes although no open was refused since. -/
theorem raise_undone : ∃ (tr q : List (FdEvent (Fin 4) Unit × FdState (Fin 4) Unit))
    (s t t₁ u : FdState (Fin 4) Unit) (before : Leases),
    (fdSystem (Fin 4) Unit).Path (.initial 2 8 8) tr s ∧ s.pc 1 = .storeCapacity before 8 ∧
      t = { s with knownCapacity := 8 }.setPc 1 (.storeCeiling before) ∧
      t₁ = { t with observedCeiling := 0 }.setPc 1 (.opening before) ∧
      (fdSystem (Fin 4) Unit).Path t₁ q u ∧
      q.map Prod.fst = [.internal, .capacityRead 0 2,
        .internal, .capacityRead 0 2, .internal, .exhaustedRead 0 true] := by
  obtain ⟨tr, s, before, refused, code, hrun, hpc₀, hpc₁, hpc₂, hlive, hword⟩ := raise_undone_before
  obtain ⟨t, ht⟩ : ∃ t, t = { s with knownCapacity := 8 }.setPc 1 (.storeCeiling before) := ⟨_, rfl⟩
  obtain ⟨t₁, ht₁⟩ : ∃ t₁, t₁ = { t with observedCeiling := 0 }.setPc 1 (.opening before) := ⟨_, rfl⟩
  have hpct : t₁.pc = Function.update s.pc 1 (.opening before) := by
    rw [ht₁, ht]
    simp [FdState.setPc]
  have hceiling : t₁.observedCeiling = 0 := by
    rw [ht₁]
    rfl
  have hwordt : t₁.leases = leaseWord 2 0 := by
    rw [ht₁, ht]
    exact hword
  have hcas : t₁.pc 2 = .casCeiling refused code t₁.observedCeiling := by
    rw [hpct, hceiling, Function.update_of_ne (by decide), hpc₂]
  -- Thread 2 lowers the ceiling that has just been reset.
  have hlower := (System.Path.nil t₁).snoc (S := fdSystem (Fin 4) Unit)
    ⟨2, .ceilingLowered hcas (by rw [hceiling]; rfl)⟩
  obtain ⟨t₂, ht₂⟩ : ∃ t₂, t₂ = { t₁ with observedCeiling := refused.live.toNat }.setPc 2
      (.loadLeases refused code) := ⟨_, rfl⟩
  rw [← ht₂] at hlower
  have hstore : t₂.pc 0 = .readCapacity (.store 2) := by
    rw [ht₂, setPc_of_ne _ _ (by decide)]
    change t₁.pc 0 = _
    rw [hpct, Function.update_of_ne (by decide), hpc₀]
  -- Thread 0 stores what it found before the raise.
  have hread := hlower.snoc ⟨0, .capacityRead hstore .store⟩
  have hlowered : t₂.observedCeiling = 1 := by
    rw [ht₂, setPc_observedCeiling, hlive]
    rfl
  obtain ⟨q, u, hlast, hq⟩ := capacity_then_exhausted (ι := Fin 4) (F := Unit) (i := 0) (c := 2)
    (s := { t₂ with knownCapacity := 2 }.setPc 0 .idle) (setPc_self ..) rfl (by decide)
    (by rw [setPc_observedCeiling]; change t₂.observedCeiling ≠ 0; rw [hlowered]; decide)
    (by
      change t₂.observedCeiling ≤ (Leases.unpack t₂.leases).live.toNat
      rw [hlowered, ht₂, setPc_leases, hwordt, unpack_word]
      decide)
  refine ⟨tr, _, s, t, t₁, u, before, hrun, hpc₁, ht, ht₁, hread.append hlast, ?_⟩
  rw [List.map_append, hq]
  rfl

end Remmy.Os
