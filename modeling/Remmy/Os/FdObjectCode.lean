import Remmy.Os.FdObject

/-!
# Objects of Type `Fd`: the Member Functions Do What They Are For

`code_ok`: run to its end, the code of every call has the effect that `Op.effect` says,
and leaves no temporary behind.  `SafeAll` is what the accounts of the descriptors need of
the code: no step overwrites an object that owns one.
-/

namespace Remmy.Os

universe u v w

variable {ι : Type u} {A : Type v} {O : Type w}

/-! ## Which places a step touches -/

/-- The places of a step. -/
def Instr.locs : Instr ι A O → List (Loc ι A O)
  | .set l _ | .close l | .release l | .drop l => [l]
  | .take l other => [l, other]

/-- The places of a list of steps. -/
def codeLocs (code : List (Instr ι A O)) : List (Loc ι A O) := code.flatMap Instr.locs

@[simp] theorem codeLocs_nil : codeLocs ([] : List (Instr ι A O)) = [] := rfl

@[simp] theorem codeLocs_cons (ins : Instr ι A O) (code : List (Instr ι A O)) :
    codeLocs (ins :: code) = ins.locs ++ codeLocs code := rfl

@[simp] theorem codeLocs_append (code code' : List (Instr ι A O)) :
    codeLocs (code ++ code') = codeLocs code ++ codeLocs code' :=
  List.flatMap_append

variable [DecidableEq ι] [DecidableEq A] [DecidableEq O]

/-- A step changes its own places only. -/
theorem exec_of_notMem {m : Mem ι A O} {ins : Instr ι A O} {l : Loc ι A O} (h : l ∉ ins.locs) :
    ins.exec m l = m l := by
  cases ins with
  | take l' other =>
    simp only [Instr.locs, List.mem_cons, List.not_mem_nil, or_false, not_or] at h
    simp [Instr.exec, Function.update_of_ne h.1, Function.update_of_ne h.2]
  | set l' v | close l' | release l' | drop l' =>
    simp only [Instr.locs, List.mem_cons, List.not_mem_nil, or_false] at h
    simp [Instr.exec, Function.update_of_ne h]

/-- A step depends on its own places only. -/
theorem exec_congr {P : Loc ι A O → Prop} {m m' : Mem ι A O} {ins : Instr ι A O}
    (hlocs : ∀ l ∈ ins.locs, P l) (h : ∀ l, P l → m l = m' l) :
    ∀ l, P l → ins.exec m l = ins.exec m' l := by
  intro l hl
  cases ins with
  | take l' other =>
    have hother := h other (hlocs other (by simp [Instr.locs]))
    simp only [Instr.exec, Function.update_apply, hother, h l hl]
  | set l' v | close l' | release l' | drop l' =>
    simp only [Instr.exec, Function.update_apply, h l hl]

/-- So does a list of steps. -/
theorem execAll_congr {P : Loc ι A O → Prop} {m m' : Mem ι A O} {code : List (Instr ι A O)}
    (hlocs : ∀ l ∈ codeLocs code, P l) (h : ∀ l, P l → m l = m' l) :
    ∀ l, P l → execAll code m l = execAll code m' l := by
  induction code generalizing m m' with
  | nil => exact h
  | cons ins code ih =>
    rw [codeLocs_cons] at hlocs
    apply ih
    · intro l hl
      exact hlocs l (List.mem_append_right _ hl)
    · exact exec_congr (fun l hl => hlocs l (List.mem_append_left _ hl)) h

theorem execAll_append (code code' : List (Instr ι A O)) (m : Mem ι A O) :
    execAll (code ++ code') m = execAll code' (execAll code m) := by
  induction code generalizing m with
  | nil => rfl
  | cons ins code ih => exact ih _

/-! ## Steps that overwrite no owner -/

/-- What the step does not overwrite, and does not copy. -/
def Instr.Safe (m : Mem ι A O) : Instr ι A O → Prop
  | .set l v => (∀ w, ¬(m l).Owns w) ∧ v < 0
  | .take l other => (∀ w, ¬(m l).Owns w) ∧ l ≠ other ∧ (m other).closed = false
  | .close _ | .release _ => True
  | .drop l => ∀ w, ¬(m l).Owns w

/-- Every step of the list is safe when its turn comes. -/
def SafeAll : List (Instr ι A O) → Mem ι A O → Prop
  | [], _ => True
  | ins :: code, m => ins.Safe m ∧ SafeAll code (ins.exec m)

theorem safeAll_append {code code' : List (Instr ι A O)} {m : Mem ι A O} :
    SafeAll (code ++ code') m ↔ SafeAll code m ∧ SafeAll code' (execAll code m) := by
  induction code generalizing m with
  | nil => simp [SafeAll, execAll]
  | cons ins code ih => simp [SafeAll, execAll, ih, and_assoc]

/-- Whether steps are safe depends on their places. -/
theorem SafeAll.congr {m m' : Mem ι A O} {code : List (Instr ι A O)} (hsafe : SafeAll code m)
    (h : ∀ l ∈ codeLocs code, m l = m' l) : SafeAll code m' := by
  induction code generalizing m m' with
  | nil => trivial
  | cons ins code ih =>
    rw [codeLocs_cons] at h
    refine ⟨?_, ih hsafe.2 ?_⟩
    · have hins := hsafe.1
      cases ins with
      | set l v =>
        rw [Instr.Safe, ← h l (by simp [Instr.locs])]
        exact hins
      | take l other =>
        rw [Instr.Safe, ← h l (by simp [Instr.locs]), ← h other (by simp [Instr.locs])]
        exact hins
      | close l | release l => trivial
      | drop l =>
        rw [Instr.Safe, ← h l (by simp [Instr.locs])]
        exact hins
    · intro l hl
      apply exec_congr (P := fun l => l ∈ ins.locs ++ codeLocs code)
      · exact fun l hl => List.mem_append_left _ hl
      · exact h
      · exact List.mem_append_right _ hl

/-! ## What the pieces leave in memory -/

@[simp] theorem closed_live (v : ℤ) (b : Bool) : (Cell.live v b).closed = b := rfl

@[simp] theorem closed_dead : Cell.dead.closed = false := rfl

@[simp] theorem fd_live (v : ℤ) (b : Bool) : (Cell.live v b).fd = v := rfl

theorem kInvalid_neg : kInvalid < 0 := by decide

theorem kReserved_neg : kReserved < 0 := by decide

omit [DecidableEq ι] [DecidableEq A] [DecidableEq O] in
theorem not_owns_dead (v : ℤ) : ¬Cell.dead.Owns v := by
  rintro ⟨h, -⟩
  cases h

omit [DecidableEq ι] [DecidableEq A] [DecidableEq O] in
theorem not_owns_live {v w : ℤ} {b : Bool} (h : v < 0) : ¬(Cell.live v b).Owns w := by
  rintro ⟨heq, hw⟩
  cases heq
  omega

/-- `Fd::operator=(Fd&&)` of two objects leaves what a move leaves. -/
theorem execAll_moveAssign {l other : Loc ι A O} (m : Mem ι A O) (h : l ≠ other) :
    execAll (moveAssign l other) m = (Instr.take l other).exec m := by
  simp [moveAssign, h, execAll, Instr.exec, Function.update_of_ne h.symm]

/-- A destructor leaves no object. -/
theorem execAll_destroy (l : Loc ι A O) (m : Mem ι A O) :
    execAll (destroy l) m = Function.update m l .dead := by
  simp [destroy, execAll, Instr.exec]

/-! ## What is seen of memory -/

/-- What is seen after one named object has changed. -/
theorem view_update_obj (m : Mem ι A O) (x : Obj A O) (c : Cell) :
    Mem.view (Function.update m (.obj x) c) = Function.update m.view x c.seen := by
  funext y
  by_cases hy : y = x
  · subst hy
    simp [Mem.view]
  · simp [Mem.view, Function.update_of_ne hy,
      Function.update_of_ne (show Loc.obj y ≠ .obj x by simpa using hy)]

@[simp] theorem seen_dead : Cell.dead.seen = .gone := rfl

@[simp] theorem seen_kInvalid (b : Bool) : (Cell.live kInvalid b).seen = .holds none := by rfl

@[simp] theorem seen_kReserved (b : Bool) : (Cell.live kReserved b).seen = .disengaged := by rfl

omit [DecidableEq ι] [DecidableEq A] [DecidableEq O] in
/-- Where no object is seen there is none. -/
theorem eq_dead_of_gone {m : Mem ι A O} {x : Obj A O} (h : m.view x = .gone) :
    m (.obj x) = .dead := by
  unfold Mem.view at h
  cases hc : m (.obj x) with
  | dead => rfl
  | live v b =>
    rw [hc, Cell.seen] at h
    split_ifs at h

omit [DecidableEq ι] [DecidableEq A] [DecidableEq O] in
theorem eq_live_of_ne_gone {m : Mem ι A O} {x : Obj A O} (h : m.view x ≠ .gone)
    (hclean : (m (.obj x)).closed = false) : ∃ v, m (.obj x) = .live v false := by
  unfold Mem.view at h
  cases hc : m (.obj x) with
  | dead => exact absurd (by rw [hc]; rfl) h
  | live v b =>
    rw [hc] at hclean
    obtain rfl : b = false := hclean
    exact ⟨v, rfl⟩

omit [DecidableEq ι] [DecidableEq A] [DecidableEq O] in
/-- An object that is there and not in the middle of a `Close()`. -/
theorem exists_live {m : Mem ι A O} {x : Obj A O} (h : m.view x ≠ .gone)
    (hclean : (m (.obj x)).closed = false) :
    ∃ v, m (.obj x) = .live v false ∧ m.view x = (Cell.live v false).seen := by
  obtain ⟨v, hv⟩ := eq_live_of_ne_gone h hclean
  exact ⟨v, hv, by rw [Mem.view, hv]⟩

omit [DecidableEq ι] [DecidableEq A] [DecidableEq O] in
theorem Op.IsFd.ne_gone {σ : View A O} {r : Obj A O} (h : Op.IsFd σ r) : σ r ≠ .gone := by
  obtain ⟨d, hd⟩ := h
  simp [hd]

/-- What the code of a call by thread `i` does, begun in `m`. -/
structure CodeOk (i : ι) (m : Mem ι A O) (op : Op A O) : Prop where
  safe : SafeAll (op.code i m) m
  view : (execAll (op.code i m) m).view = op.effect m.view
  temps : ∀ k, execAll (op.code i m) m (.temp i k) = .dead
  clean : ∀ x ∈ op.objs, (execAll (op.code i m) m (.obj x)).closed = false

section Calls

variable {i : ι} {m : Mem ι A O}

/-- A call that changes nothing in the end. -/
theorem codeOk_same {op : Op A O} (hsafe : SafeAll (op.code i m) m)
    (hexec : execAll (op.code i m) m = m) (heffect : op.effect m.view = m.view)
    (htemps : ∀ k, m (.temp i k) = .dead)
    (hclean : ∀ y ∈ op.objs, (m (.obj y)).closed = false) : CodeOk i m op := by
  refine ⟨hsafe, ?_, ?_, ?_⟩
  · rw [hexec, heffect]
  · rw [hexec]
    exact htemps
  · rw [hexec]
    exact hclean

/-- A call that changes one object. -/
theorem codeOk_one {op : Op A O} {x : Obj A O} {c : Cell} (hsafe : SafeAll (op.code i m) m)
    (hexec : execAll (op.code i m) m = Function.update m (.obj x) c)
    (heffect : op.effect m.view = Function.update m.view x c.seen) (hc : c.closed = false)
    (htemps : ∀ k, m (.temp i k) = .dead)
    (hclean : ∀ y ∈ op.objs, (m (.obj y)).closed = false) : CodeOk i m op := by
  refine ⟨hsafe, ?_, ?_, ?_⟩
  · rw [hexec, view_update_obj, heffect]
  · intro k
    rw [hexec, Function.update_of_ne (by simp), htemps]
  · intro y hy
    rw [hexec, Function.update_apply]
    split_ifs
    · exact hc
    · exact hclean y hy

/-- A call that changes two objects. -/
theorem codeOk_two {op : Op A O} {x y : Obj A O} {c d : Cell} (hsafe : SafeAll (op.code i m) m)
    (hexec : execAll (op.code i m) m =
      Function.update (Function.update m (.obj x) c) (.obj y) d)
    (heffect : op.effect m.view = Function.update (Function.update m.view x c.seen) y d.seen)
    (hc : c.closed = false) (hd : d.closed = false) (htemps : ∀ k, m (.temp i k) = .dead)
    (hclean : ∀ z ∈ op.objs, (m (.obj z)).closed = false) : CodeOk i m op := by
  refine ⟨hsafe, ?_, ?_, ?_⟩
  · rw [hexec, view_update_obj, view_update_obj, heffect]
  · intro k
    rw [hexec, Function.update_of_ne (by simp), Function.update_of_ne (by simp), htemps]
  · intro z hz
    rw [hexec, Function.update_apply, Function.update_apply]
    split_ifs
    · exact hd
    · exact hc
    · exact hclean z hz

/-- A call that moves the value of `r` to `x`, which owns nothing. -/
theorem codeOk_move {op : Op A O} {x r : Obj A O} (hsafe : SafeAll (op.code i m) m)
    (hexec : execAll (op.code i m) m = (Instr.take (.obj x) (.obj r)).exec m)
    (heffect : op.effect m.view = Op.moveValue m.view x r) (hr : m.view r ≠ .gone)
    (htemps : ∀ k, m (.temp i k) = .dead)
    (hclean : ∀ y ∈ op.objs, (m (.obj y)).closed = false) (hmem : r ∈ op.objs) : CodeOk i m op := by
  obtain ⟨v, hv, hseen⟩ := exists_live hr (hclean r hmem)
  refine codeOk_two hsafe hexec ?_ rfl rfl htemps hclean
  rw [heffect, Op.moveValue, hseen, hv]
  rfl

/-- Moving into a fresh object is safe. -/
theorem safeAll_take {x r : Obj A O} (hgone : m.view x = .gone) (hr : m.view r ≠ .gone)
    (hclean : (m (.obj r)).closed = false) :
    SafeAll [(Instr.take (.obj x) (.obj r) : Instr ι A O)] m := by
  refine ⟨⟨?_, ?_, hclean⟩, trivial⟩
  · rw [eq_dead_of_gone hgone]
    exact not_owns_dead
  · rintro h
    obtain rfl := Loc.obj.inj h
    exact hr hgone

/-- A call that moves the value of `r` into an object that it constructs. -/
theorem codeOk_take {op : Op A O} {x r : Obj A O}
    (hcode : op.code i m = [.take (.obj x) (.obj r)])
    (heffect : op.effect m.view = Op.moveValue m.view x r) (hgone : m.view x = .gone)
    (hr : m.view r ≠ .gone) (htemps : ∀ k, m (.temp i k) = .dead)
    (hclean : ∀ y ∈ op.objs, (m (.obj y)).closed = false) (hmem : r ∈ op.objs) : CodeOk i m op := by
  refine codeOk_move ?_ ?_ heffect hr htemps hclean hmem
  · rw [hcode]
    exact safeAll_take hgone hr (hclean r hmem)
  · rw [hcode]
    rfl

/-- `storage_ = T(...)`, the new value being in the temporary 2. -/
theorem execAll_assignTemp (i : ι) (o : O) (m : Mem ι A O) :
    execAll (Op.assignTemp i o) m =
      Function.update (Function.update m (.obj (.opt o)) (.live (m (.temp i 2)).fd false))
        (.temp i 2) .dead := by
  rw [Op.assignTemp, execAll_append, execAll_moveAssign _ (by simp), execAll_destroy, Instr.exec,
    Function.update_idem]

/-- The value in the temporary is moved before that one ends. -/
theorem safeAll_assignTemp {o : O} (h : (m (.temp i 2)).closed = false) :
    SafeAll (Op.assignTemp i o : List (Instr ι A O)) m := by
  simp [Op.assignTemp, moveAssign, destroy, SafeAll, Instr.Safe, Instr.exec, h,
    not_owns_live kInvalid_neg]

/-- `storage_ = T(v)` for a sentinel, or for a new `Fd`. -/
theorem codeOk_setTemp {op : Op A O} {o : O} {v : ℤ} (hv : v < 0)
    (hcode : op.code i m = [.set (.temp i 2) v] ++ Op.assignTemp i o)
    (heffect : op.effect m.view = Function.update m.view (.opt o) (Cell.live v false).seen)
    (htemps : ∀ k, m (.temp i k) = .dead)
    (hclean : ∀ y ∈ op.objs, (m (.obj y)).closed = false) : CodeOk i m op := by
  refine codeOk_one ?_ ?_ heffect rfl htemps hclean
  · rw [hcode, safeAll_append]
    refine ⟨⟨⟨?_, hv⟩, trivial⟩, safeAll_assignTemp (by simp [execAll, Instr.exec])⟩
    rw [htemps]
    exact not_owns_dead
  · rw [hcode, execAll_append, execAll_assignTemp]
    funext y
    simp only [execAll, Instr.exec, Function.update_apply]
    split_ifs <;> simp_all

/-- `storage_ = T(std::move(r))`. -/
theorem codeOk_setValue {op : Op A O} {o : O} {r : Obj A O}
    (hcode : op.code i m = [.take (.temp i 2) (.obj r)] ++ Op.assignTemp i o)
    (heffect : op.effect m.view = if r = .opt o then m.view else Op.moveValue m.view (.opt o) r)
    (hr : m.view r ≠ .gone) (htemps : ∀ k, m (.temp i k) = .dead)
    (hclean : ∀ y ∈ op.objs, (m (.obj y)).closed = false) (hmem : r ∈ op.objs) : CodeOk i m op := by
  obtain ⟨v, hv⟩ := eq_live_of_ne_gone hr (hclean r hmem)
  have hsafe : SafeAll (op.code i m) m := by
    rw [hcode, safeAll_append]
    refine ⟨⟨⟨?_, by simp, hclean r hmem⟩, trivial⟩, safeAll_assignTemp (by simp [execAll, Instr.exec])⟩
    rw [htemps]
    exact not_owns_dead
  by_cases hself : r = .opt o
  · -- the value comes back from the temporary
    refine codeOk_same hsafe ?_ (by rw [heffect, if_pos hself]) htemps hclean
    rw [hcode, execAll_append, execAll_assignTemp]
    funext y
    simp only [execAll, Instr.exec, Function.update_apply]
    split_ifs <;> simp_all
  · refine codeOk_move hsafe ?_ (by rw [heffect, if_neg hself]) hr htemps hclean hmem
    rw [hcode, execAll_append, execAll_assignTemp]
    funext y
    simp only [execAll, Instr.exec, Function.update_apply]
    split_ifs <;> simp_all

/-- `std::exchange` of the storage of an `optional` with a sentinel. -/
theorem execAll_exchange {l : Loc ι A O} {x : Obj A O} (m : Mem ι A O) (hx : l ≠ .obj x)
    (hnew : l ≠ .temp i 0) :
    execAll (exchange i l (.obj x)) m =
      Function.update (Function.update (Function.update (Function.update m
        l (.live (m (.obj x)).fd false)) (.obj x) (.live kReserved false))
        (.temp i 1) .dead) (.temp i 0) (.live kInvalid false) := by
  rw [exchange, execAll_append, execAll_append, execAll_append, execAll_destroy,
    execAll_moveAssign _ (by simp)]
  simp only [execAll, Instr.exec]
  funext y
  simp only [Function.update_apply]
  split_ifs <;> simp_all

/-- An exchange overwrites temporaries only, and what it has just taken from. -/
theorem safeAll_exchange {l : Loc ι A O} {x : Obj A O} (hx : l ≠ .obj x) (hold : l ≠ .temp i 1)
    (hnew : l ≠ .temp i 0) (hdead : m l = .dead) (htemps : ∀ k, m (.temp i k) = .dead)
    (hclean : (m (.obj x)).closed = false) : SafeAll (exchange i l (.obj x)) m := by
  simp [exchange, moveAssign, destroy, SafeAll, Instr.Safe, Instr.exec, htemps, hclean, not_owns_dead,
    hold, hdead, hx, hnew, not_owns_live kInvalid_neg, kReserved_neg]

/-- A call that moves the value of one `optional` to another, and leaves the first disengaged. -/
theorem codeOk_exchange {op : Op A O} {o p : O} (hsafe : SafeAll (op.code i m) m)
    (hexec : execAll (op.code i m) m = Function.update (Function.update m
      (.obj (.opt o)) (.live (m (.obj (.opt p))).fd false)) (.obj (.opt p)) (.live kReserved false))
    (heffect : op.effect m.view = Function.update (Function.update m.view
      (.opt o) (m.view (.opt p))) (.opt p) .disengaged)
    (hp : m.view (.opt p) ≠ .gone) (htemps : ∀ k, m (.temp i k) = .dead)
    (hclean : ∀ y ∈ op.objs, (m (.obj y)).closed = false) (hmem : .opt p ∈ op.objs) :
    CodeOk i m op := by
  obtain ⟨v, hv, hseen⟩ := exists_live hp (hclean (.opt p) hmem)
  refine codeOk_two hsafe hexec ?_ rfl rfl htemps hclean
  rw [heffect, hseen, hv, seen_kReserved]
  rfl

/-- **Every call does what it is for**, when it is on objects that are there. -/
theorem code_ok (op : Op A O) (hvalid : op.Valid m.view) (hopen : ∀ a, op ≠ .openFd a)
    (htemps : ∀ k, m (.temp i k) = .dead)
    (hclean : ∀ x ∈ op.objs, (m (.obj x)).closed = false) : CodeOk i m op := by
  have hunowned {x : Obj A O} (h : m.view x = .gone) (w : ℤ) : ¬(m (.obj x)).Owns w := by
    rw [eq_dead_of_gone h]
    exact not_owns_dead w
  cases op with
  | openFd a => exact absurd rfl (hopen a)
  | fdDefault a | optInPlace o =>
    -- One object, built where there was none.
    exact codeOk_one ⟨⟨hunowned hvalid, kInvalid_neg⟩, trivial⟩ rfl (by rw [seen_kInvalid]; rfl) rfl
      htemps hclean
  | optEmpty o =>
    exact codeOk_one ⟨⟨hunowned hvalid, kReserved_neg⟩, trivial⟩ rfl (by rw [seen_kReserved]; rfl) rfl
      htemps hclean
  | fdClose r | fdRelease r =>
    exact codeOk_one ⟨trivial, trivial⟩ rfl (by rw [seen_kInvalid]; rfl) rfl htemps hclean
  | fdDestroy a | optDestroy o =>
    -- What the object has goes with it.
    refine codeOk_one ?_ (execAll_destroy _ m) rfl rfl htemps hclean
    simp [Op.code, destroy, SafeAll, Instr.Safe, Instr.exec, not_owns_live kInvalid_neg]
  | fdMove a r | optFromValue o r =>
    -- The descriptor goes from one object to another.
    exact codeOk_take rfl rfl hvalid.1 hvalid.2.ne_gone htemps hclean (by simp [Op.objs])
  | valueOr a o r =>
    obtain ⟨ha, ho, hr⟩ := hvalid
    obtain ⟨v, hv, hseen⟩ := exists_live ho (hclean (.opt o) (by simp [Op.objs]))
    by_cases hdis : v = kReserved
    · -- the fallback
      have hcode : (Op.valueOr a o r).code i m = [.take (.obj (.fd a)) (.obj r)] := by
        simp [Op.code, hv, hdis]
      have heffect : (Op.valueOr a o r).effect m.view = Op.moveValue m.view (.fd a) r := by
        simp [Op.effect, hseen, hdis]
      exact codeOk_take hcode heffect ha hr.ne_gone htemps hclean (by simp [Op.objs])
    · have hcode : (Op.valueOr a o r).code i m = [.take (.obj (.fd a)) (.obj (.opt o))] := by
        simp [Op.code, hv, hdis]
      have heffect : (Op.valueOr a o r).effect m.view = Op.moveValue m.view (.fd a) (.opt o) := by
        simp [Op.effect, hseen, Cell.seen, hdis]
      exact codeOk_take hcode heffect ha ho htemps hclean (by simp [Op.objs])
  | fdAssign r r' =>
    -- An assignment to itself does nothing.
    by_cases hne : r = r'
    · subst hne
      refine codeOk_same ?_ ?_ ?_ htemps hclean <;>
        simp [Op.code, Op.effect, moveAssign, SafeAll, execAll]
    · have hloc : (Loc.obj r : Loc ι A O) ≠ .obj r' := by simpa using hne
      refine codeOk_move ?_ (execAll_moveAssign m hloc) ?_ hvalid.2.ne_gone htemps hclean
        (by simp [Op.objs])
      · have hclean' := hclean r' (by simp [Op.objs])
        simp [Op.code, moveAssign, hne, SafeAll, Instr.Safe, Instr.exec, not_owns_live kInvalid_neg,
          Function.update_of_ne hloc.symm, hclean']
      · simp [Op.effect, hne]
  | optSetValue o r =>
    exact codeOk_setValue rfl rfl hvalid.2.ne_gone htemps hclean (by simp [Op.objs])
  | optEmplace o r =>
    exact codeOk_setValue rfl rfl hvalid.2.1.ne_gone htemps hclean (by simp [Op.objs])
  | optEmplaceDefault o =>
    exact codeOk_setTemp kInvalid_neg rfl (by rw [seen_kInvalid]; rfl) htemps hclean
  | optReset o =>
    exact codeOk_setTemp kReserved_neg rfl (by rw [seen_kReserved]; rfl) htemps hclean
  | optSwap o p =>
    obtain ⟨ho, hp⟩ := hvalid
    have hcleano := hclean (.opt o) (by simp [Op.objs])
    obtain ⟨v, hv, hseeno⟩ := exists_live ho hcleano
    obtain ⟨w, hw, hseenp⟩ := exists_live hp (hclean (.opt p) (by simp [Op.objs]))
    have htake : SafeAll [(Instr.take (.temp i 2) (.obj (.opt o)) : Instr ι A O)] m := by
      refine ⟨⟨?_, by simp, hcleano⟩, trivial⟩
      rw [htemps]
      exact not_owns_dead
    by_cases hne : o = p
    · -- the value goes to the temporary and back
      subst hne
      refine codeOk_same ?_ ?_ (by simp [Op.effect]) htemps hclean
      · rw [Op.code, safeAll_append, safeAll_append]
        refine ⟨⟨htake, ?_⟩, safeAll_assignTemp ?_⟩ <;>
          simp [moveAssign, SafeAll, execAll, Instr.exec]
      · rw [Op.code, execAll_append, execAll_append, execAll_assignTemp]
        funext y
        simp only [moveAssign, if_true, execAll, Instr.exec, Function.update_apply]
        split_ifs <;> simp_all
    · have hloc : (Loc.obj (.opt o) : Loc ι A O) ≠ .obj (.opt p) := by simpa using hne
      refine codeOk_two (x := .opt o) (y := .opt p) (c := .live w false) (d := .live v false)
        ?_ ?_ (by rw [Op.effect, hseeno, hseenp]) rfl rfl htemps hclean
      · rw [Op.code, safeAll_append, safeAll_append]
        refine ⟨⟨htake, ?_⟩, safeAll_assignTemp ?_⟩
        · simp [moveAssign, hne, SafeAll, Instr.Safe, execAll, Instr.exec, hw,
            Function.update_of_ne hloc.symm, not_owns_live kInvalid_neg]
        · simp [moveAssign, hne, execAll, Instr.exec]
      · rw [Op.code, execAll_append, execAll_append, execAll_assignTemp, execAll_moveAssign _ hloc]
        funext y
        simp only [execAll, Instr.exec, Function.update_apply]
        split_ifs <;> simp_all
  | optMove o p =>
    -- The new object takes what the other has.
    obtain ⟨ho, hp⟩ := hvalid
    have hne : o ≠ p := by
      rintro rfl
      exact hp ho
    refine codeOk_exchange ?_ ?_ rfl hp htemps hclean (by simp [Op.objs])
    · rw [Op.code, safeAll_append]
      refine ⟨safeAll_exchange (by simpa using hne) (by simp) (by simp) (eq_dead_of_gone ho) htemps
        (hclean (.opt p) (by simp [Op.objs])), ?_⟩
      simp [destroy, SafeAll, Instr.Safe, Instr.exec, not_owns_live kInvalid_neg]
    · rw [Op.code, execAll_append, execAll_exchange _ (by simpa using hne) (by simp), execAll_destroy]
      funext y
      simp only [Function.update_apply]
      split_ifs <;> simp_all
  | optAssign o p =>
    -- What the other has goes to a temporary first, and is assigned from there.
    obtain ⟨ho, hp⟩ := hvalid
    by_cases hne : o = p
    · refine codeOk_same ?_ ?_ ?_ htemps hclean <;> simp [Op.code, Op.effect, hne, SafeAll, execAll]
    · refine codeOk_exchange ?_ ?_ (by rw [Op.effect, if_neg hne]) hp htemps hclean
        (by simp [Op.objs])
      · rw [Op.code, if_neg hne, safeAll_append, safeAll_append]
        refine ⟨⟨safeAll_exchange (by simp) (by simp) (by simp) (htemps 2) htemps
          (hclean (.opt p) (by simp [Op.objs])), safeAll_assignTemp ?_⟩, ?_⟩
        · rw [execAll_exchange _ (by simp) (by simp)]
          simp
        · simp [destroy, SafeAll, Instr.Safe, Instr.exec, not_owns_live kInvalid_neg]
      · rw [Op.code, if_neg hne, execAll_append, execAll_append, execAll_exchange _ (by simp) (by simp),
          execAll_assignTemp, execAll_destroy]
        funext y
        simp only [Function.update_apply]
        split_ifs <;> simp_all

end Calls

/-! ## What a call is about -/

/-- A place of a call of thread `i`: one of its objects, or one of its temporaries. -/
def Op.Place (i : ι) (op : Op A O) (l : Loc ι A O) : Prop :=
  (∃ x ∈ op.objs, l = .obj x) ∨ ∃ k, l = .temp i k

theorem mem_locs_moveAssign {l other l' : Loc ι A O} (h : l' ∈ codeLocs (moveAssign l other)) :
    l' = l ∨ l' = other := by
  unfold moveAssign at h
  split_ifs at h
  · cases h
  · simpa [Instr.locs, or_comm, or_assoc] using h

omit [DecidableEq ι] [DecidableEq A] [DecidableEq O] in
theorem mem_locs_destroy {l l' : Loc ι A O} (h : l' ∈ codeLocs (destroy l)) : l' = l := by
  simpa [destroy, Instr.locs] using h

theorem mem_locs_assignTemp {i : ι} {o : O} {l : Loc ι A O}
    (h : l ∈ codeLocs (Op.assignTemp i o)) : l = .obj (.opt o) ∨ l = .temp i 2 := by
  rw [Op.assignTemp, codeLocs_append, List.mem_append] at h
  rcases h with h | h
  · exact mem_locs_moveAssign h
  · exact .inr (mem_locs_destroy h)

/-- The places of an exchange. -/
theorem mem_locs_exchange {i : ι} {l obj l' : Loc ι A O} (h : l' ∈ codeLocs (exchange i l obj)) :
    l' = l ∨ l' = obj ∨ ∃ k, l' = .temp i k := by
  simp only [exchange, codeLocs_append, codeLocs_cons, codeLocs_nil, Instr.locs, List.mem_append,
    List.mem_cons, List.not_mem_nil, or_false, List.append_nil] at h
  rcases h with ((((rfl | rfl | rfl) | h) | rfl | rfl) | h)
  · exact .inr (.inr ⟨0, rfl⟩)
  · exact .inr (.inr ⟨1, rfl⟩)
  · exact .inr (.inl rfl)
  · rcases mem_locs_moveAssign h with rfl | rfl
    · exact .inr (.inl rfl)
    · exact .inr (.inr ⟨0, rfl⟩)
  · exact .inl rfl
  · exact .inr (.inr ⟨1, rfl⟩)
  · exact .inr (.inr ⟨1, mem_locs_destroy h⟩)

/-- The code of a call touches its own places only. -/
theorem code_places {i : ι} {m : Mem ι A O} {op : Op A O} {l : Loc ι A O}
    (h : l ∈ codeLocs (op.code i m)) : op.Place i l := by
  have hobj {x : Obj A O} (hl : l = .obj x) (hx : x ∈ op.objs) : op.Place i l := .inl ⟨x, hx, hl⟩
  have htemp (k : Fin 3) (hl : l = .temp i k) : op.Place i l := .inr ⟨k, hl⟩
  cases op with
  | openFd a => cases h
  | fdDefault a | optEmpty o | optInPlace o | fdClose r | fdRelease r =>
    exact hobj (List.mem_singleton.mp h) (by simp [Op.objs])
  | fdMove a r | optFromValue o r =>
    simp only [Op.code, codeLocs_cons, codeLocs_nil, Instr.locs, List.append_nil, List.mem_cons,
      List.not_mem_nil, or_false] at h
    rcases h with h | h
    · exact hobj h (by simp [Op.objs])
    · exact hobj h (by simp [Op.objs])
  | fdAssign r r' =>
    rcases mem_locs_moveAssign h with h | h
    · exact hobj h (by simp [Op.objs])
    · exact hobj h (by simp [Op.objs])
  | fdDestroy a | optDestroy o => exact hobj (mem_locs_destroy h) (by simp [Op.objs])
  | optMove o p =>
    -- Two objects, and the temporaries of the exchange.
    rw [Op.code, codeLocs_append, List.mem_append] at h
    rcases h with h | h
    · rcases mem_locs_exchange h with h | h | ⟨k, h⟩
      · exact hobj h (by simp [Op.objs])
      · exact hobj h (by simp [Op.objs])
      · exact htemp k h
    · exact htemp 0 (mem_locs_destroy h)
  | optAssign o p =>
    rw [Op.code] at h
    split_ifs at h
    · cases h
    · rw [codeLocs_append, codeLocs_append, List.mem_append, List.mem_append] at h
      rcases h with (h | h) | h
      · rcases mem_locs_exchange h with h | h | ⟨k, h⟩
        · exact htemp 2 h
        · exact hobj h (by simp [Op.objs])
        · exact htemp k h
      · rcases mem_locs_assignTemp h with h | h
        · exact hobj h (by simp [Op.objs])
        · exact htemp 2 h
      · exact htemp 0 (mem_locs_destroy h)
  | optSetValue o r | optEmplace o r =>
    rw [Op.code, codeLocs_append, List.mem_append] at h
    rcases h with h | h
    · simp only [codeLocs_cons, codeLocs_nil, Instr.locs, List.append_nil, List.mem_cons,
        List.not_mem_nil, or_false] at h
      rcases h with h | h
      · exact htemp 2 h
      · exact hobj h (by simp [Op.objs])
    · rcases mem_locs_assignTemp h with h | h
      · exact hobj h (by simp [Op.objs])
      · exact htemp 2 h
  | optEmplaceDefault o | optReset o =>
    rw [Op.code, codeLocs_append, List.mem_append] at h
    rcases h with h | h
    · exact htemp 2 (by simpa [Instr.locs] using h)
    · rcases mem_locs_assignTemp h with h | h
      · exact hobj h (by simp [Op.objs])
      · exact htemp 2 h
  | optSwap o p =>
    rw [Op.code, codeLocs_append, codeLocs_append, List.mem_append, List.mem_append] at h
    rcases h with (h | h) | h
    · simp only [codeLocs_cons, codeLocs_nil, Instr.locs, List.append_nil, List.mem_cons,
        List.not_mem_nil, or_false] at h
      rcases h with h | h
      · exact htemp 2 h
      · exact hobj h (by simp [Op.objs])
    · rcases mem_locs_moveAssign h with h | h
      · exact hobj h (by simp [Op.objs])
      · exact hobj h (by simp [Op.objs])
    · rcases mem_locs_assignTemp h with h | h
      · exact hobj h (by simp [Op.objs])
      · exact htemp 2 h
  | valueOr a o r =>
    rw [Op.code] at h
    split_ifs at h <;>
      simp only [codeLocs_cons, codeLocs_nil, Instr.locs, List.append_nil, List.mem_cons,
        List.not_mem_nil, or_false] at h <;> rcases h with h | h
    all_goals exact hobj h (by simp [Op.objs])

theorem moveValue_of_ne {σ : View A O} {x r y : Obj A O} (hx : y ≠ x) (hr : y ≠ r) :
    Op.moveValue σ x r y = σ y := by
  simp [Op.moveValue, Function.update_of_ne hx, Function.update_of_ne hr]

/-- A call changes its own objects only. -/
theorem effect_of_notMem {σ : View A O} {op : Op A O} {x : Obj A O} (h : x ∉ op.objs) :
    op.effect σ x = σ x := by
  cases op with
  | openFd a => rfl
  | fdAssign r r' | optSetValue o r | optEmplace o r =>
    simp only [Op.objs, List.mem_cons, List.not_mem_nil, or_false, not_or] at h
    simp only [Op.effect]
    split_ifs
    · rfl
    · exact moveValue_of_ne h.1 h.2
  | fdMove a r | optFromValue o r =>
    simp only [Op.objs, List.mem_cons, List.not_mem_nil, or_false, not_or] at h
    exact moveValue_of_ne h.1 h.2
  | valueOr a o r =>
    simp only [Op.objs, List.mem_cons, List.not_mem_nil, or_false, not_or] at h
    simp only [Op.effect]
    split_ifs
    · exact moveValue_of_ne h.1 h.2.2
    · exact moveValue_of_ne h.1 h.2.1
  | optAssign o p =>
    simp only [Op.objs, List.mem_cons, List.not_mem_nil, or_false, not_or] at h
    simp only [Op.effect]
    split_ifs
    · rfl
    · rw [Function.update_of_ne h.2, Function.update_of_ne h.1]
  | optMove o p | optSwap o p =>
    simp only [Op.objs, List.mem_cons, List.not_mem_nil, or_false, not_or] at h
    rw [Op.effect, Function.update_of_ne h.2, Function.update_of_ne h.1]
  | _ =>
    simp only [Op.objs, List.mem_cons, List.not_mem_nil, or_false] at h
    rw [Op.effect, Function.update_of_ne h]

/-- What a call does to its objects depends on what is seen of them alone. -/
theorem effect_congr {σ σ' : View A O} {op : Op A O} (h : ∀ x ∈ op.objs, σ x = σ' x) :
    ∀ x ∈ op.objs, op.effect σ x = op.effect σ' x := by
  intro x hx
  have hx' := h x hx
  cases op with
  | openFd a => exact hx'
  | fdAssign r r' | optSetValue o r | optEmplace o r =>
    have hr := h _ (List.mem_cons_of_mem _ List.mem_cons_self)
    simp only [Op.effect]
    split_ifs
    · exact hx'
    · simp only [Op.moveValue, Function.update_apply, hr, hx']
  | fdMove a r | optFromValue o r =>
    have hr := h _ (List.mem_cons_of_mem _ List.mem_cons_self)
    simp only [Op.effect, Op.moveValue, Function.update_apply, hr, hx']
  | valueOr a o r =>
    have ho := h (.opt o) (by simp [Op.objs])
    have hr := h r (by simp [Op.objs])
    simp only [Op.effect, ho]
    split_ifs <;> simp only [Op.moveValue, Function.update_apply, ho, hr, hx']
  | optAssign o p =>
    have hp := h _ (List.mem_cons_of_mem _ List.mem_cons_self)
    simp only [Op.effect]
    split_ifs
    · exact hx'
    · simp only [Function.update_apply, hp, hx']
  | optMove o p | optSwap o p =>
    have ho := h _ List.mem_cons_self
    have hp := h _ (List.mem_cons_of_mem _ List.mem_cons_self)
    simp only [Op.effect, Function.update_apply, ho, hp, hx']
  | _ => simp only [Op.effect, Function.update_apply, hx']

end Remmy.Os
