import Mathlib.Data.Nat.Notation

/-!
# Programs that Change a World

A program of this kind reads and changes a world, and returns a value or throws.  Where it does
what has no defined result there is no outcome at all, so that a program which ends did nothing
of the kind.

- `Ends` is the total correctness of such a program, with a postcondition for the value and one
  for what is thrown; its rules follow the program's text.
- `Throws` says what is thrown, and so whether the program returns.
-/

namespace Remmy.Lib

universe u

/-- A program over worlds `W` that throws `E`. -/
abbrev Program (E W : Type u) := ExceptT E (StateT W Option)

namespace Program

variable {E W : Type u} {α β : Type u}

/-- The outcome of a program, if there is one. -/
def outcome (x : Program E W α) (w : W) : Option (Except E α × W) := StateT.run (ExceptT.run x) w

/-- Look at the world. -/
def read (f : W → Option α) : Program E W α :=
  ExceptT.mk (StateT.mk fun w => (f w).map fun a => (.ok a, w))

/-- Change the world. -/
def change (f : W → Option W) : Program E W PUnit :=
  ExceptT.mk (StateT.mk fun w => (f w).map fun w' => (.ok ⟨⟩, w'))

/-- `body 0`, `body 1` and so on, up to and without `n`. -/
def forUp (body : ℕ → Program E W PUnit) : ℕ → Program E W PUnit
  | 0 => pure ⟨⟩
  | n + 1 => do
    forUp body n
    body n

/-- `body (n - 1)`, `body (n - 2)` and so on, down to `body 0`. -/
def forDown (body : ℕ → Program E W PUnit) : ℕ → Program E W PUnit
  | 0 => pure ⟨⟩
  | n + 1 => do
    body n
    forDown body n

/-- The program has an outcome: a value with `Q`, or something thrown with `R`. -/
def Ends (x : Program E W α) (w : W) (Q : α → W → Prop) (R : E → W → Prop) : Prop :=
  (∃ a w', x.outcome w = some (.ok a, w') ∧ Q a w') ∨
    ∃ e w', x.outcome w = some (.error e, w') ∧ R e w'

/-- One program after another: the second one runs when the first one has returned. -/
theorem outcome_bind (x : Program E W α) (f : α → Program E W β) (w : W) :
    (x >>= f).outcome w = (x.outcome w).bind fun r =>
      match r.1 with
      | .ok a => (f a).outcome r.2
      | .error e => some (.error e, r.2) := by
  show StateT.run (ExceptT.run (x >>= f)) w = _
  rw [ExceptT.run_bind, StateT.run_bind]
  refine congrArg (Option.bind _) (funext fun r => ?_)
  obtain ⟨r, w'⟩ := r
  cases r with
  | ok a => rfl
  | error e => rfl

namespace Ends

variable {x : Program E W α} {f : α → Program E W β} {w : W} {Q : α → W → Prop}
  {R : E → W → Prop}

protected theorem pure {a : α} (h : Q a w) : Ends (pure a) w Q R := .inl ⟨a, w, rfl, h⟩

protected theorem throw {e : E} (h : R e w) : Ends (throw e : Program E W α) w Q R :=
  .inr ⟨e, w, rfl, h⟩

protected theorem read {g : W → Option α} {a : α} (hg : g w = some a) (h : Q a w) :
    Ends (read g) w Q R := by
  refine .inl ⟨a, w, ?_, h⟩
  show (g w).map _ = _
  rw [hg]
  rfl

protected theorem change {g : W → Option W} {w' : W} {Q : PUnit → W → Prop} (hg : g w = some w')
    (h : Q ⟨⟩ w') : Ends (change g) w Q R := by
  refine .inl ⟨⟨⟩, w', ?_, h⟩
  show (g w).map _ = _
  rw [hg]
  rfl

/-- One program after another. -/
protected theorem bind {Q : β → W → Prop} (h : Ends x w (fun a w' => Ends (f a) w' Q R) R) :
    Ends (x >>= f) w Q R := by
  unfold Ends
  rw [outcome_bind]
  rcases h with ⟨a, w', ha, h⟩ | ⟨e, w', he, h⟩
  · rw [ha]
    exact h
  · rw [he]
    exact .inr ⟨e, w', rfl, h⟩

theorem mono {Q' : α → W → Prop} {R' : E → W → Prop} (h : Ends x w Q R)
    (hQ : ∀ a w', Q a w' → Q' a w') (hR : ∀ e w', R e w' → R' e w') : Ends x w Q' R' := by
  rcases h with ⟨a, w', ha, h⟩ | ⟨e, w', he, h⟩
  · exact .inl ⟨a, w', ha, hQ a w' h⟩
  · exact .inr ⟨e, w', he, hR e w' h⟩

theorem imp {Q' : α → W → Prop} (h : Ends x w Q R) (hQ : ∀ a w', Q a w' → Q' a w') :
    Ends x w Q' R := h.mono hQ fun _ _ hR => hR

/-- One program after another, with what is known in between. -/
theorem andThen {Q' : β → W → Prop} (h : Ends x w Q R)
    (hf : ∀ a w', Q a w' → Ends (f a) w' Q' R) : Ends (x >>= f) w Q' R := Ends.bind (h.imp hf)

/-- The rule for a loop that counts up. -/
theorem forUp {body : ℕ → Program E W PUnit} {I : ℕ → W → Prop} {n : ℕ}
    (hstep : ∀ i < n, ∀ w, I i w → Ends (body i) w (fun _ w' => I (i + 1) w') R) (h : I 0 w) :
    Ends (Program.forUp body n) w (fun _ w' => I n w') R := by
  induction n with
  | zero => exact Ends.pure h
  | succ n ih =>
    apply Ends.andThen (ih fun i hi => hstep i (Nat.lt_succ_of_lt hi))
    intro _ w' hw'
    exact hstep n (Nat.lt_succ_self n) w' hw'

/-- The rule for a loop that counts down. -/
theorem forDown {body : ℕ → Program E W PUnit} {I : ℕ → W → Prop} {n : ℕ}
    (hstep : ∀ i < n, ∀ w, I (i + 1) w → Ends (body i) w (fun _ w' => I i w') R) (h : I n w) :
    Ends (Program.forDown body n) w (fun _ w' => I 0 w') R := by
  induction n generalizing w with
  | zero => exact Ends.pure h
  | succ n ih =>
    apply Ends.andThen (hstep n (Nat.lt_succ_self n) w h)
    intro _ w' hw'
    exact ih (fun i hi => hstep i (Nat.lt_succ_of_lt hi)) hw'

end Ends

/-- What a result has thrown. -/
def thrown : Except E α → Option E
  | .ok _ => none
  | .error e => some e

/-- The program throws `r`, or nothing if that is `none`, when it has an outcome. -/
def Throws (x : Program E W α) (w : W) (r : Option E) : Prop :=
  ∀ result w', x.outcome w = some (result, w') → thrown result = r

namespace Throws

variable {x : Program E W α} {f : α → Program E W β} {w : W} {r : Option E}

protected theorem pure (a : α) : Throws (pure a : Program E W α) w none := by
  intro result w' h
  cases h
  rfl

protected theorem throw (e : E) : Throws (throw e : Program E W α) w (some e) := by
  intro result w' h
  cases h
  rfl

protected theorem read (g : W → Option α) : Throws (read g : Program E W α) w none := by
  intro result w' h
  change (g w).map _ = _ at h
  obtain ⟨a, -, ha⟩ := Option.map_eq_some_iff.mp h
  cases ha
  rfl

protected theorem change (g : W → Option W) : Throws (change g : Program E W PUnit) w none := by
  intro result w' h
  change (g w).map _ = _ at h
  obtain ⟨a, -, ha⟩ := Option.map_eq_some_iff.mp h
  cases ha
  rfl

/-- A look at the world, and a program that depends on what is seen. -/
theorem read_bind {g : W → Option α} {a : α} (hg : g w = some a) (h : Throws (f a) w r) :
    Throws (Program.read g >>= f) w r := by
  intro result w' hresult
  have hread : (Program.read g : Program E W α).outcome w = some (.ok a, w) := by
    change (g w).map _ = _
    rw [hg]
    rfl
  rw [outcome_bind, hread] at hresult
  exact h result w' hresult

/-- Only the first one of two programs throws. -/
theorem andThen (h : Throws x w r) (hf : ∀ a w', Throws (f a) w' none) : Throws (x >>= f) w r := by
  intro result w' hresult
  rw [outcome_bind] at hresult
  obtain ⟨⟨first, w₁⟩, hfirst, hresult⟩ := Option.bind_eq_some_iff.mp hresult
  have hthrown := h first w₁ hfirst
  cases first with
  | ok a => exact (hf a w₁ result w' hresult).trans hthrown
  | error e =>
    cases hresult
    exact hthrown

/-- Only the second one of two programs throws, and what it throws does not depend on the first. -/
theorem bind (h : Throws x w none) (hf : ∀ a w', Throws (f a) w' r) : Throws (x >>= f) w r := by
  intro result w' hresult
  rw [outcome_bind] at hresult
  obtain ⟨⟨first, w₁⟩, hfirst, hresult⟩ := Option.bind_eq_some_iff.mp hresult
  have hthrown := h first w₁ hfirst
  cases first with
  | ok a => exact hf a w₁ result w' hresult
  | error e => cases hthrown

theorem forUp {body : ℕ → Program E W PUnit} (h : ∀ i w, Throws (body i) w none) (n : ℕ) :
    Throws (Program.forUp body n) w none := by
  induction n with
  | zero => exact Throws.pure _
  | succ n ih => exact ih.andThen fun _ w' => h n w'

theorem forDown {body : ℕ → Program E W PUnit} (h : ∀ i w, Throws (body i) w none) (n : ℕ) :
    Throws (Program.forDown body n) w none := by
  induction n generalizing w with
  | zero => exact Throws.pure _
  | succ n ih => exact (h n w).andThen fun _ _ => ih

end Throws

end Program

end Remmy.Lib
