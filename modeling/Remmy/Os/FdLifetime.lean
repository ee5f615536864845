import Remmy.Os.FdObjectCode
import Remmy.Os.FdRetry

/-!
# Objects of Type `Fd`: Whole Lifetimes

`lease_accounting`: in every interleaving of calls on `Fd` and `std::optional<Fd>` objects,
the lease word counts the objects that own a descriptor, the unsettled reservations and the
closes under way; every descriptor is closed or handed out once; and an `optional` is
disengaged when `Op.effect` says so.

- `ObjInv` is about objects: what the rest of each call's code will leave in memory is what
  the calls so far are for.
- `Weight` is a total over all cells in which only owners count; `ObjStep.weight` says how
  it changes, for the owners of all descriptors and for those of one.
-/

namespace Remmy.Os

open Remmy.Lib
open FdState ObjState

universe u v w

variable {ι : Type u} {A : Type v} {O : Type w}

/-! ## Histories -/

/-- The sum of a quantity over the events of a run. -/
def total (g : ObjEvent ι A O → ℕ) (tr : List (ObjEvent ι A O)) : ℕ := (tr.map g).sum

@[simp] theorem total_nil (g : ObjEvent ι A O → ℕ) : total g [] = 0 := rfl

@[simp] theorem total_snoc (g : ObjEvent ι A O → ℕ) (tr : List (ObjEvent ι A O))
    (e : ObjEvent ι A O) : total g (tr ++ [e]) = total g tr + g e := by
  simp [total]

namespace ObjEvent

/-- The event is a `Pool::Release`: a close is complete. -/
def releases : ObjEvent ι A O → ℕ
  | pool e => e.releases
  | _ => 0

/-- `open_fn` gives the descriptor `v`. -/
def opens (v : ℤ) : ObjEvent ι A O → ℕ
  | opened _ _ w => if w = v then 1 else 0
  | _ => 0

/-- `::close(v)`. -/
def closes (v : ℤ) : ObjEvent ι A O → ℕ
  | closed _ w => if w = v then 1 else 0
  | _ => 0

/-- `Release()` gives the descriptor `v` away. -/
def handsOff (v : ℤ) : ObjEvent ι A O → ℕ
  | handedOff _ w => if w = v then 1 else 0
  | _ => 0

variable [DecidableEq A] [DecidableEq O]

/-- What an event does to what is seen of the objects. -/
def effect (σ : View A O) : ObjEvent ι A O → View A O
  | call _ op => op.effect σ
  | opened _ a v => Function.update σ (.fd a) (.holds (some v))
  | _ => σ

end ObjEvent

/-- What the calls of a run say is to be seen of the objects. -/
def viewOf [DecidableEq A] [DecidableEq O] (tr : List (ObjEvent ι A O)) : View A O :=
  tr.foldl ObjEvent.effect fun _ => .gone

@[simp] theorem viewOf_snoc [DecidableEq A] [DecidableEq O] (tr : List (ObjEvent ι A O))
    (e : ObjEvent ι A O) : viewOf (tr ++ [e]) = e.effect (viewOf tr) := by
  simp [viewOf]

variable [DecidableEq ι] [DecidableEq A] [DecidableEq O]

/-! ## The calls do what they are for -/

/-- The cell shows this, outside of any `Close()`. -/
def Shows (c : Cell) (seen : Seen) : Prop := c.seen = seen ∧ c.closed = false

/-- What is known of the call that thread `i` is in, `σ` being what the calls so far are for. -/
structure ThreadInv (σ : View A O) (s : ObjState ι A O) (i : ι) : Prop where
  rest : s.op i = none → s.code i = []
  place : ∀ op, s.op i = some op → ∀ l ∈ codeLocs (s.code i), op.Place i l
  safe : SafeAll (s.code i) s.mem
  temps : ∀ k, execAll (s.code i) s.mem (.temp i k) = .dead
  used : ∀ op, s.op i = some op → ∀ x ∈ op.objs,
    Shows (execAll (s.code i) s.mem (.obj x)) (σ x)

/-- The invariant of the objects. -/
structure ObjInv (σ : View A O) (s : ObjState ι A O) : Prop where
  threads : ∀ i, ThreadInv σ s i
  apart : ∀ i j op op', i ≠ j → s.op i = some op → s.op j = some op' →
    ∀ x ∈ op.objs, x ∉ op'.objs
  unused : ∀ x, s.Unused x → Shows (s.mem (.obj x)) (σ x)

/-- The places of thread `i`. -/
def ObjState.Mine (s : ObjState ι A O) (i : ι) (l : Loc ι A O) : Prop :=
  (∃ op, s.op i = some op ∧ op.Place i l) ∨ ∃ k, l = .temp i k

/-- Thread `i` moves, and changes nothing that is not its own. -/
structure Moves (i : ι) (σ σ' : View A O) (s s' : ObjState ι A O) : Prop where
  op : ∀ j, j ≠ i → s'.op j = s.op j
  code : ∀ j, j ≠ i → s'.code j = s.code j
  mem : ∀ l, ¬s.Mine i l → s'.mem l = s.mem l
  view : ∀ x, (∀ op, s.op i = some op → x ∉ op.objs) →
    (∀ op, s'.op i = some op → x ∉ op.objs) → σ' x = σ x
  /-- A new call is on objects that nobody uses. -/
  fresh : ∀ op, s'.op i = some op → s.op i = some op ∨ ∀ x ∈ op.objs, s.Unused x

section Objects

variable {i : ι} {σ σ' : View A O} {s s' : ObjState ι A O} {e : ObjEvent ι A O}

omit [DecidableEq ι] [DecidableEq A] [DecidableEq O] in
/-- The places of two threads are apart. -/
theorem ObjInv.not_mine [DecidableEq ι] [DecidableEq A] [DecidableEq O] (h : ObjInv σ s) {j : ι}
    (hj : j ≠ i) {l : Loc ι A O} (hl : s.Mine j l) : ¬s.Mine i l := by
  rcases hl with ⟨op', hop', ⟨x, hx, rfl⟩ | ⟨k, rfl⟩⟩ | ⟨k, rfl⟩
  · rintro (⟨op, hop, ⟨y, hy, hl⟩ | ⟨k, hl⟩⟩ | ⟨k, hl⟩)
    · obtain rfl := Loc.obj.inj hl
      exact h.apart j i op' op hj hop' hop x hx hy
    · cases hl
    · cases hl
  all_goals
    rintro (⟨op, hop, ⟨y, hy, hl⟩ | ⟨k', hl⟩⟩ | ⟨k', hl⟩)
    · cases hl
    · exact hj (Loc.temp.inj hl).1
    · exact hj (Loc.temp.inj hl).1

/-- **Frame rule**: when thread `i` moves, the calls of the other threads go on as before. -/
theorem ObjInv.frame (h : ObjInv σ s) (hm : Moves i σ σ' s s') {j : ι} (hj : j ≠ i) :
    ThreadInv σ' s' j := by
  have hold := h.threads j
  have hmem (l : Loc ι A O) (hl : s.Mine j l) : s.mem l = s'.mem l :=
    (hm.mem l (h.not_mine hj hl)).symm
  have hlocs (l : Loc ι A O) (hl : l ∈ codeLocs (s.code j)) : s.Mine j l := by
    cases hop : s.op j with
    | none =>
      rw [hold.rest hop] at hl
      cases hl
    | some op => exact .inl ⟨op, hop, hold.place op hop l hl⟩
  have hexec (l : Loc ι A O) (hl : s.Mine j l) :
      execAll (s.code j) s'.mem l = execAll (s.code j) s.mem l :=
    (execAll_congr hlocs hmem l hl).symm
  refine ⟨?_, ?_, ?_, ?_, ?_⟩
  · rw [hm.op j hj, hm.code j hj]
    exact hold.rest
  · rw [hm.op j hj, hm.code j hj]
    exact hold.place
  · rw [hm.code j hj]
    exact hold.safe.congr fun l hl => hmem l (hlocs l hl)
  · intro k
    rw [hm.code j hj, hexec _ (.inr ⟨k, rfl⟩)]
    exact hold.temps k
  · intro op hop x hx
    rw [hm.op j hj] at hop
    rw [hm.code j hj, hexec _ (.inl ⟨op, hop, .inl ⟨x, hx, rfl⟩⟩), hm.view]
    · exact hold.used op hop x hx
    · intro op' hop' hx'
      exact h.apart j i op op' hj hop hop' x hx hx'
    · intro op' hop' hx'
      rcases hm.fresh op' hop' with hsame | hunused
      · exact h.apart j i op op' hj hop hsame x hx hx'
      · exact hunused x hx' j op hop hx

/-- The invariant after a move of thread `i`, from what is known of its own call. -/
theorem ObjInv.moves (h : ObjInv σ s) (hm : Moves i σ σ' s s') (hown : ThreadInv σ' s' i)
    (hfreed : ∀ x, s'.Unused x → ∀ op, s.op i = some op → x ∈ op.objs →
      Shows (s'.mem (.obj x)) (σ' x)) : ObjInv σ' s' := by
  refine ⟨?_, ?_, ?_⟩
  · intro j
    by_cases hj : j = i
    · rw [hj]
      exact hown
    · exact h.frame hm hj
  · -- a new call of `i` is on objects that nobody uses
    have hnew {j : ι} {op op' : Op A O} (hj : j ≠ i) (hop : s'.op i = some op)
        (hop' : s'.op j = some op') {x : Obj A O} (hx : x ∈ op.objs) : x ∉ op'.objs := by
      rw [hm.op j hj] at hop'
      rcases hm.fresh op hop with hsame | hunused
      · exact h.apart i j op op' hj.symm hsame hop' x hx
      · exact hunused x hx j op' hop'
    intro j k op op' hjk hop hop' x hx hx'
    by_cases hj : j = i
    · subst hj
      exact hnew hjk.symm hop hop' hx hx'
    · by_cases hk : k = i
      · subst hk
        exact hnew hj hop' hop hx' hx
      · rw [hm.op j hj] at hop
        rw [hm.op k hk] at hop'
        exact h.apart j k op op' hjk hop hop' x hx hx'
  -- An object that nobody uses now: `i` has just let go of it, or nobody used it before.
  · intro x hx
    by_cases hmine : ∃ op, s.op i = some op ∧ x ∈ op.objs
    · obtain ⟨op, hop, hmem⟩ := hmine
      exact hfreed x hx op hop hmem
    · rw [not_exists] at hmine
      have hx' : s.Unused x := by
        intro j op hop hmem
        by_cases hj : j = i
        · subst hj
          exact hmine op ⟨hop, hmem⟩
        · exact hx j op (by rw [hm.op j hj, hop]) hmem
      have hloc : ¬s.Mine i (.obj x) := by
        rintro (⟨op, hop, ⟨y, hy, hl⟩ | ⟨k, hl⟩⟩ | ⟨k, hl⟩)
        · obtain rfl := Loc.obj.inj hl
          exact hmine op ⟨hop, hy⟩
        · cases hl
        · cases hl
      rw [hm.mem _ hloc, hm.view x (fun op hop hmem => hmine op ⟨hop, hmem⟩) (hx i)]
      exact h.unused x hx'

/-- Thread `i` gets on with the code of its call. -/
structure Progress (i : ι) (s s' : ObjState ι A O) : Prop where
  op : s'.op = s.op
  others : ∀ j, j ≠ i → s'.code j = s.code j
  nonempty : s.code i ≠ []
  locs : ∀ l ∈ codeLocs (s'.code i), l ∈ codeLocs (s.code i)
  frame : ∀ l, l ∉ codeLocs (s.code i) → s'.mem l = s.mem l
  /-- What the rest leaves in the end is the same. -/
  exec : execAll (s'.code i) s'.mem = execAll (s.code i) s.mem
  safe : SafeAll (s'.code i) s'.mem

theorem ObjInv.progress (h : ObjInv σ s) (hp : Progress i s s') : ObjInv σ s' := by
  have hold := h.threads i
  obtain ⟨op, hop⟩ : ∃ op, s.op i = some op := by
    cases hnone : s.op i with
    | none => exact absurd (hold.rest hnone) hp.nonempty
    | some op => exact ⟨op, rfl⟩
  have hop' : s'.op i = some op := by rw [hp.op, hop]
  refine h.moves (i := i) ⟨?_, hp.others, ?_, fun _ _ _ => rfl, ?_⟩ ⟨?_, ?_, hp.safe, ?_, ?_⟩ ?_
  · intro j _
    rw [hp.op]
  · intro l hl
    apply hp.frame l
    intro hmem
    exact hl (.inl ⟨op, hop, hold.place op hop l hmem⟩)
  · intro op' hop'
    rw [hp.op] at hop'
    exact .inl hop'
  · intro hnone
    rw [hop'] at hnone
    cases hnone
  · intro op' hop' l hl
    rw [hp.op] at hop'
    exact hold.place op' hop' l (hp.locs l hl)
  · intro k
    rw [hp.exec]
    exact hold.temps k
  · intro op' hop' x hx
    rw [hp.op] at hop'
    rw [hp.exec]
    exact hold.used op' hop' x hx
  · intro x hx op' hop' hmem
    exact absurd hmem (hx i op' (by rw [hp.op, hop']))

/-- Thread `i` begins a call on objects that nobody uses. -/
theorem ObjInv.begin (h : ObjInv σ s) {op : Op A O} {code : List (Instr ι A O)}
    (hidle : s.op i = none) (hunused : ∀ x ∈ op.objs, s.Unused x)
    (hop : s'.op = Function.update s.op i (some op))
    (hcode : s'.code = Function.update s.code i code) (hmem : s'.mem = s.mem)
    (hplace : ∀ l ∈ codeLocs code, op.Place i l) (hsafe : SafeAll code s.mem)
    (htemps : ∀ k, execAll code s.mem (.temp i k) = .dead)
    (hshows : ∀ x ∈ op.objs, Shows (execAll code s.mem (.obj x)) (op.effect σ x)) :
    ObjInv (op.effect σ) s' := by
  have hself : s'.op i = some op := by rw [hop, Function.update_self]
  have hcodeSelf : s'.code i = code := by rw [hcode, Function.update_self]
  refine h.moves (i := i) ⟨?_, ?_, ?_, ?_, ?_⟩ ⟨?_, ?_, ?_, ?_, ?_⟩ ?_
  · intro j hj
    rw [hop, Function.update_of_ne hj]
  · intro j hj
    rw [hcode, Function.update_of_ne hj]
  · intro l _
    rw [hmem]
  · intro x _ hx
    exact effect_of_notMem (hx op hself)
  · intro op' hop'
    rw [hself] at hop'
    obtain rfl := Option.some.inj hop'
    exact .inr hunused
  · intro hnone
    rw [hself] at hnone
    cases hnone
  · intro op' hop' l hl
    rw [hself] at hop'
    obtain rfl := Option.some.inj hop'
    rw [hcodeSelf] at hl
    exact hplace l hl
  · rw [hcodeSelf, hmem]
    exact hsafe
  · rw [hcodeSelf, hmem]
    exact htemps
  · intro op' hop' x hx
    rw [hself] at hop'
    obtain rfl := Option.some.inj hop'
    rw [hcodeSelf, hmem]
    exact hshows x hx
  -- It had no call, so it lets go of nothing.
  · intro x _ op' hop'
    rw [hidle] at hop'
    cases hop'

/-- A descriptor is claimed for the object that `Fd::Open` initialises. -/
theorem ObjInv.claim (h : ObjInv σ s) {a : A} {v : ℤ} (hop : s.op i = some (.openFd a))
    (hgone : σ (.fd a) = .gone) (hv : 0 ≤ v) (hop' : s'.op = s.op)
    (hcode : s'.code = Function.update s.code i (Op.claimed i a))
    (hmem : s'.mem = Function.update s.mem (.temp i 0) (.live v false)) (hrest : s.code i = []) :
    ObjInv (Function.update σ (.fd a) (.holds (some v))) s' := by
  have hold := h.threads i
  have htemps := hold.temps
  have hshows := hold.used _ hop (.fd a) List.mem_cons_self
  rw [hrest] at htemps hshows
  have hdead : s.mem (.obj (.fd a)) = .dead := eq_dead_of_gone (hshows.1.trans hgone)
  have hcodeSelf : s'.code i = Op.claimed i a := by rw [hcode, Function.update_self]
  -- The object is initialised from the temporary, which is then destroyed.
  have hexec : execAll (s'.code i) s'.mem =
      Function.update (Function.update s.mem (.obj (.fd a)) (.live v false)) (.temp i 0) .dead := by
    rw [hcodeSelf, hmem, Op.claimed, execAll_append, execAll_destroy]
    funext l
    simp only [execAll, Instr.exec, Function.update_apply]
    split_ifs <;> simp_all
  refine h.moves (i := i) ⟨?_, ?_, ?_, ?_, ?_⟩ ⟨?_, ?_, ?_, ?_, ?_⟩ ?_
  · intro j _
    rw [hop']
  · intro j hj
    rw [hcode, Function.update_of_ne hj]
  · intro l hl
    rw [hmem, Function.update_of_ne]
    rintro rfl
    exact hl (.inr ⟨0, rfl⟩)
  -- Objects that no call is on stay as they are.
  · intro x hx _
    have hne : x ≠ .fd a := by
      rintro rfl
      exact hx _ hop List.mem_cons_self
    exact Function.update_of_ne hne ..
  · intro op hop''
    rw [hop'] at hop''
    exact .inl hop''
  · intro hnone
    rw [hop', hop] at hnone
    cases hnone
  · intro op hop'' l hl
    rw [hop', hop] at hop''
    obtain rfl := Option.some.inj hop''
    rw [hcodeSelf, Op.claimed, codeLocs_append, List.mem_append] at hl
    rcases hl with hl | hl
    · simp only [codeLocs_cons, codeLocs_nil, Instr.locs, List.append_nil, List.mem_cons,
        List.not_mem_nil, or_false] at hl
      rcases hl with rfl | rfl
      · exact .inl ⟨_, List.mem_cons_self, rfl⟩
      · exact .inr ⟨0, rfl⟩
    · exact .inr ⟨0, mem_locs_destroy hl⟩
  -- The object that is initialised owns nothing yet.
  · rw [hcodeSelf, Op.claimed, safeAll_append, hmem]
    refine ⟨⟨⟨?_, by simp, by simp⟩, trivial⟩, ?_⟩
    · rw [Function.update_of_ne (by simp), hdead]
      exact not_owns_dead
    · simp [destroy, SafeAll, Instr.Safe, Instr.exec, not_owns_live kInvalid_neg]
  · intro k
    rw [hexec, Function.update_apply]
    split_ifs
    · rfl
    · rw [Function.update_of_ne (by simp)]
      exact htemps k
  · intro op hop'' x hx
    rw [hop', hop] at hop''
    obtain rfl := Option.some.inj hop''
    obtain rfl := List.mem_singleton.mp hx
    rw [hexec, Function.update_of_ne (by simp), Function.update_self, Function.update_self]
    have hne : v ≠ kReserved := by
      rintro rfl
      exact absurd kReserved_neg (not_lt.mpr hv)
    exact ⟨by simp [Cell.seen, hne, hv], rfl⟩
  · intro x hx op hop'' hmem
    exact absurd hmem (hx i op (by rw [hop', hop'']))

/-- A call returns. -/
theorem ObjInv.returned (h : ObjInv σ s) (hrest : s.code i = [])
    (hop : s'.op = Function.update s.op i none) (hcode : s'.code = s.code) (hmem : s'.mem = s.mem) :
    ObjInv σ s' := by
  have hold := h.threads i
  have hself : s'.op i = none := by rw [hop, Function.update_self]
  refine h.moves (i := i) ⟨?_, ?_, ?_, fun _ _ _ => rfl, ?_⟩ ⟨?_, ?_, ?_, ?_, ?_⟩ ?_
  · intro j hj
    rw [hop, Function.update_of_ne hj]
  · intro j _
    rw [hcode]
  · intro l _
    rw [hmem]
  · intro op hop'
    rw [hself] at hop'
    cases hop'
  · intro _
    rw [hcode, hrest]
  · intro op hop'
    rw [hself] at hop'
    cases hop'
  · rw [hcode, hmem]
    exact hold.safe
  · rw [hcode, hmem]
    exact hold.temps
  · intro op hop'
    rw [hself] at hop'
    cases hop'
  · intro x _ op hop' hx
    have hshows := hold.used op hop' x hx
    rw [hrest] at hshows
    rw [hmem]
    exact hshows

/-- The object that `Fd::Open` initialises is not there before `open_fn` has succeeded. -/
def OpenInv (σ : View A O) (s : ObjState ι A O) : Prop :=
  ∀ i a, s.op i = some (.openFd a) → (s.pool.pc i).reserved = true → σ (.fd a) = .gone

end Objects

/-- A reservation is taken in `Reserve`. -/
theorem FdStep.reserved {F : Type w} [DecidableEq F] {i : ι} {s s' : FdState ι F} {e : FdEvent ι F}
    (hs : FdStep i s e s') {j : ι} (hj : (s'.pc j).reserved = true) :
    (s.pc j).reserved = true ∨ e = .reserve j := by
  by_cases hij : j = i
  · subst hij
    cases hs with
    | reserve => exact .inr rfl
    | capacityStep hpc | capacityDone hpc | noRaise hpc | raise hpc | setMax hpc | setMaxFailed hpc
    | setLimit hpc | setLimitFailed hpc | storeCapacity hpc | storeCeiling hpc | failed _ hpc
    | refused _ hpc =>
      rw [hpc]
      exact .inl rfl
    | handOff | move | notExhausted => exact .inl (by simpa using hj)
    | forget =>
      rw [setPc_self] at hj
      split_ifs at hj <;> cases hj
    | _ =>
      rw [setPc_self] at hj
      cases hj
  · exact .inl (by rwa [hs.pc_of_ne hij] at hj)

section Runs

variable {i : ι} {σ : View A O} {s s' : ObjState ι A O} {e : ObjEvent ι A O}

/-- **Step lemma**: the objects go on showing what the calls are for. -/
theorem ObjStep.objInv (hs : ObjStep i s e s') (h : ObjInv σ s) (hopen : OpenInv σ s) :
    ObjInv (e.effect σ) s' := by
  have hold := h.threads i
  -- the head of the code is done, and leaves what it is to leave
  have hstep {ins : Instr ι A O} {code : List (Instr ι A O)} (hcode : s.code i = ins :: code)
      (hop : s'.op = s.op) (hcode' : s'.code = Function.update s.code i code)
      (hmem : s'.mem = ins.exec s.mem) : ObjInv σ s' := by
    have hself : s'.code i = code := by rw [hcode', Function.update_self]
    have hsafe := hold.safe
    rw [hcode] at hsafe
    refine h.progress (i := i) ⟨hop, ?_, ?_, ?_, ?_, ?_, ?_⟩
    · intro j hj
      rw [hcode', Function.update_of_ne hj]
    · rw [hcode]
      exact List.cons_ne_nil _ _
    · intro l hl
      rw [hself] at hl
      rw [hcode, codeLocs_cons]
      exact List.mem_append_right _ hl
    · intro l hl
      rw [hcode, codeLocs_cons, List.mem_append, not_or] at hl
      rw [hmem, exec_of_notMem hl.1]
    · rw [hself, hmem, hcode]
      rfl
    · rw [hself, hmem]
      exact hsafe.2
  cases hs with
  | call op hidle hne hvalid hunused =>
    -- What a whole call does is known of its code; the view changes at once, when it begins.
    have hview (x : Obj A O) (hx : x ∈ op.objs) : s.mem.view x = σ x := (h.unused x (hunused x hx)).1
    have hclean (x : Obj A O) (hx : x ∈ op.objs) := (h.unused x (hunused x hx)).2
    have htemps := hold.temps
    rw [hold.rest hidle.2] at htemps
    have hok : CodeOk i s.mem op := code_ok op hvalid hne htemps hclean
    refine h.begin hidle.2 hunused rfl rfl rfl (fun l hl => code_places hl) hok.safe hok.temps ?_
    intro x hx
    refine ⟨?_, hok.clean x hx⟩
    change Mem.view _ x = _
    rw [hok.view]
    exact effect_congr hview x hx
  | openFd a hidle hvalid hunused hreserve =>
    -- The object is gone until `Fd::Open` has a descriptor for it.
    have htemps := hold.temps
    have hrest := hold.rest hidle.2
    rw [hrest] at htemps
    have hcode : s.code = Function.update s.code i [] := by
      rw [← hrest, Function.update_eq_self]
    have hunusedOp : ∀ x ∈ (Op.openFd a : Op A O).objs, s.Unused x := by
      intro x hx
      rw [List.mem_singleton.mp hx]
      exact hunused
    refine h.begin hidle.2 hunusedOp rfl hcode rfl ?_ trivial htemps ?_
    · intro l hl
      cases hl
    · intro x hx
      rw [List.mem_singleton.mp hx]
      exact h.unused _ hunused
  | opened v hpc hop hrest hv hfree =>
    exact h.claim hop (hopen i _ hop (by rw [hpc]; rfl)) hv rfl rfl rfl hrest
  | exec hpc hcode => exact hstep hcode rfl rfl rfl
  | closeDone hpc hcode | releaseNone hpc hcode => exact hstep hcode rfl rfl rfl
  | release hpc hcode =>
    apply hstep hcode
    · rw [setCode_op, setMem_op]
    · rw [setCode_code, setMem_code]
    · rw [setCode_mem, setMem_mem]
      rfl
  | @close l code v hpc hcode howns =>
    -- The descriptor is closed, but the object does not say so yet.
    have hexec : execAll (s.code i) (Function.update s.mem l (.live v true)) =
        execAll (s.code i) s.mem := by
      rw [hcode]
      simp only [execAll, Instr.exec, Function.update_idem]
    have hsafe := hold.safe
    rw [hcode] at hsafe
    refine h.progress (i := i) ⟨rfl, fun _ _ => rfl, ?_, fun _ hl => hl, ?_, hexec, ?_⟩
    · rw [hcode]
      exact List.cons_ne_nil _ _
    · intro l' hl'
      apply Function.update_of_ne
      rintro rfl
      rw [hcode] at hl'
      simp [Instr.locs] at hl'
    · change SafeAll (s.code i) (Function.update s.mem l (.live v true))
      rw [hcode]
      refine ⟨trivial, ?_⟩
      have hsame : (Instr.close l).exec (Function.update s.mem l (.live v true)) =
          (Instr.close l).exec s.mem := by
        simp only [Instr.exec, Function.update_idem]
      rw [hsame]
      exact hsafe.2
  | returned hpc hop hrest => exact h.returned hrest rfl rfl rfl
  | pool | outside => exact ⟨fun i => ⟨(h.threads i).rest, (h.threads i).place, (h.threads i).safe,
      (h.threads i).temps, (h.threads i).used⟩, h.apart, h.unused⟩

/-- **Step lemma**: what `Fd::Open` is to initialise is not there yet. -/
theorem ObjStep.openInv (hs : ObjStep i s e s') (h : ObjInv σ s) (hopen : OpenInv σ s) :
    OpenInv (e.effect σ) s' := by
  intro j b hop hreserved
  cases hs with
  | call op hidle hne hvalid hunused =>
    -- The object of another open is not one that this call is on.
    rw [setCode_op] at hop
    by_cases hj : j = i
    · subst hj
      rw [setCode_pool] at hreserved
      rw [show s.pool.pc j = .idle from hidle.1] at hreserved
      cases hreserved
    · simp only [Function.update_of_ne hj] at hop
      have hnot : Obj.fd b ∉ op.objs := fun hmem => hunused _ hmem j _ hop List.mem_cons_self
      exact (effect_of_notMem hnot).trans (hopen j b hop hreserved)
  | @openFd a pool hidle hvalid hunused hreserve =>
    -- The object that is opened is not there, which is what the open needs.
    change σ (.fd b) = .gone
    by_cases hj : j = i
    · subst hj
      simp only [Function.update_self] at hop
      cases hop
      rw [← (h.unused _ hunused).1]
      exact hvalid
    · simp only [Function.update_of_ne hj] at hop
      refine hopen j b hop ?_
      rwa [hreserve.pc_of_ne hj] at hreserved
  | pool hstep hne =>
    rcases hstep.reserved hreserved with hold | rfl
    · exact hopen j b hop hold
    · -- only thread `j` itself reserves for `j`
      cases hstep with
      | reserve => exact absurd rfl hne
  | @opened a before v hpc hopi hrest hv hfree =>
    -- The open that has ended is not this one, and it is on another object.
    rw [setCode_pool, setMem_pool] at hreserved
    rw [setCode_op, setMem_op] at hop
    by_cases hj : j = i
    · rw [hj, setPc_self] at hreserved
      cases hreserved
    · rw [setPc_of_ne _ _ hj] at hreserved
      have hba : Obj.fd (O := O) b ≠ .fd a := by
        intro heq
        refine h.apart j i _ _ hj hop hopi _ List.mem_cons_self ?_
        rw [heq]
        exact List.mem_cons_self
      exact (Function.update_of_ne hba ..).trans (hopen j b hop hreserved)
  | close hpc hcode howns =>
    rw [setMem_pool] at hreserved
    by_cases hj : j = i
    · rw [hj, setPc_self] at hreserved
      cases hreserved
    · rw [setPc_of_ne _ _ hj] at hreserved
      exact hopen j b hop hreserved
  | release hpc hcode howns =>
    rw [setCode_pool, setMem_pool, addLeases_pc] at hreserved
    rw [setCode_op, setMem_op] at hop
    exact hopen j b hop hreserved
  | returned hpc hopi hrest =>
    by_cases hj : j = i
    · subst hj
      simp at hop
    · simp only [Function.update_of_ne hj] at hop
      exact hopen j b hop hreserved
  | exec | closeDone | releaseNone | outside => exact hopen j b hop hreserved

end Runs

/-! ## Totals over all objects -/

/-- A quantity of cells in which only owners count. -/
structure Weight (g : Cell → ℕ) : Prop where
  dead : g .dead = 0
  closed : ∀ v, g (.live v true) = 0
  neg : ∀ v, v < 0 → g (.live v false) = 0

theorem Weight.of_not_owns {g : Cell → ℕ} (hg : Weight g) {c : Cell} (h : ∀ w, ¬c.Owns w) :
    g c = 0 := by
  cases c with
  | dead => exact hg.dead
  | live v b =>
    cases b with
    | true => exact hg.closed v
    | false =>
      apply hg.neg
      by_contra hv
      exact h v ⟨rfl, not_lt.mp hv⟩

/-- What an event adds to a total of owners. -/
def gained (g : Cell → ℕ) : ObjEvent ι A O → ℕ
  | .opened _ _ v => g (.live v false)
  | _ => 0

/-- What an event takes from a total of owners. -/
def lost (g : Cell → ℕ) : ObjEvent ι A O → ℕ
  | .closed _ v | .handedOff _ v => g (.live v false)
  | _ => 0

section Totals

variable [Fintype ι] [Fintype A] [Fintype O]
variable {i : ι} {s s' : ObjState ι A O} {e : ObjEvent ι A O} {g : Cell → ℕ}

/-- The total of a quantity over all cells. -/
def sumCells (g : Cell → ℕ) (m : Mem ι A O) : ℕ := ∑ l, g (m l)

theorem sumCells_update (g : Cell → ℕ) (m : Mem ι A O) (l : Loc ι A O) (c : Cell) :
    sumCells g (Function.update m l c) + g (m l) = sumCells g m + g c :=
  sum_update_add m (fun _ c => g c) l c

/-- A step that neither closes nor hands off keeps the total. -/
theorem Instr.sumCells_exec (hg : Weight g) {m : Mem ι A O} {ins : Instr ι A O} (hsafe : ins.Safe m)
    (hins : ∀ l, ins ≠ .close l ∧ ins ≠ .release l) : sumCells g (ins.exec m) = sumCells g m := by
  cases ins with
  | set l v =>
    have hsum := sumCells_update g m l (.live v false)
    rw [hg.of_not_owns hsafe.1, hg.neg v hsafe.2] at hsum
    exact hsum
  | take l other =>
    obtain ⟨hunowned, hne, hclean⟩ := hsafe
    have hfirst := sumCells_update g m l (.live (m other).fd false)
    have hsecond := sumCells_update g (Function.update m l (.live (m other).fd false)) other
      (.live kInvalid false)
    have hmoved : g (.live (m other).fd false) = g (m other) := by
      cases hc : m other with
      | dead => exact (hg.neg _ kInvalid_neg).trans hg.dead.symm
      | live v b =>
        rw [hc] at hclean
        obtain rfl : b = false := hclean
        rfl
    rw [hg.of_not_owns hunowned] at hfirst
    rw [Function.update_of_ne hne.symm, hg.neg _ kInvalid_neg] at hsecond
    change sumCells g (Function.update _ other _) = _
    omega
  | close l => exact absurd rfl (hins l).1
  | release l => exact absurd rfl (hins l).2
  | drop l =>
    have hsum := sumCells_update g m l .dead
    rw [hg.of_not_owns hsafe, hg.dead] at hsum
    exact hsum

/-- **Step lemma**: a total of owners changes with `opened`, `closed` and `handedOff` alone. -/
theorem ObjStep.weight {σ : View A O} (hs : ObjStep i s e s') (h : ObjInv σ s) (hg : Weight g) :
    sumCells g s'.mem + lost g e = sumCells g s.mem + gained g e := by
  have hold := h.threads i
  have hdone {l : Loc ι A O} (hl : ∀ v, ¬(s.mem l).Owns v) :
      sumCells g (Function.update s.mem l (.live kInvalid false)) = sumCells g s.mem := by
    have hsum := sumCells_update g s.mem l (.live kInvalid false)
    rw [hg.of_not_owns hl, hg.neg _ kInvalid_neg] at hsum
    exact hsum
  cases hs with
  | opened v hpc hop hrest =>
    have hsum := sumCells_update g s.mem (.temp i 0) (.live v false)
    have htemp := hold.temps 0
    rw [hrest] at htemp
    rw [show s.mem (.temp i 0) = .dead from htemp, hg.dead] at hsum
    exact hsum
  | exec hpc hcode hins =>
    have hsafe := hold.safe
    rw [hcode] at hsafe
    exact Instr.sumCells_exec hg hsafe.1 hins
  | @close l code v hpc hcode howns =>
    have hsum := sumCells_update g s.mem l (.live v true)
    rw [howns.1, hg.closed] at hsum
    exact hsum
  | @release l code v hpc hcode howns =>
    have hsum := sumCells_update g s.mem l (.live kInvalid false)
    rw [howns.1, hg.neg _ kInvalid_neg] at hsum
    exact hsum
  | closeDone hpc hcode hl | releaseNone hpc hcode hl => exact hdone hl
  | call | openFd | pool | returned | outside => rfl

/-- 1 for an object that owns a descriptor. -/
def Cell.owner : Cell → ℕ
  | .live v false => if 0 ≤ v then 1 else 0
  | _ => 0

/-- 1 for an object that owns the descriptor `v`. -/
def Cell.ownerOf (v : ℤ) (c : Cell) : ℕ := if c.Owns v then 1 else 0

theorem weight_owner : Weight Cell.owner where
  dead := rfl
  closed _ := rfl
  neg _ hv := if_neg (not_le.mpr hv)

theorem weight_ownerOf (v : ℤ) : Weight (Cell.ownerOf v) where
  dead := if_neg (not_owns_dead v)
  closed w := if_neg fun h => by cases h.1
  neg w hw := if_neg (not_owns_live hw)

theorem ownerOf_live {v : ℤ} (hv : 0 ≤ v) (w : ℤ) :
    (Cell.live v false).ownerOf w = if v = w then 1 else 0 := by
  unfold Cell.ownerOf
  apply if_congr _ rfl rfl
  constructor
  · rintro ⟨h, -⟩
    cases h
    rfl
  · rintro rfl
    exact ⟨rfl, hv⟩

/-- How many objects own a descriptor. -/
def ObjState.owners (s : ObjState ι A O) : ℕ := sumCells Cell.owner s.mem

/-- How many objects own the descriptor `v`. -/
def ObjState.ownersOf (s : ObjState ι A O) (v : ℤ) : ℕ := sumCells (Cell.ownerOf v) s.mem

/-- The leases out: objects that own a descriptor, unsettled reservations, and descriptors
    closed and not yet counted as released. -/
def ObjState.leaseTotal (s : ObjState ι A O) : ℕ := s.owners + s.pool.leaseCount

/-- **Step lemma**: what a step does to the lease word. -/
theorem ObjStep.leaseMove {σ : View A O} (hs : ObjStep i s e s') (h : ObjInv σ s) :
    LeaseMove s.pool.leases s'.pool.leases s.leaseTotal s'.leaseTotal e.releases := by
  have howners := hs.weight h weight_owner
  have hone {v : ℤ} (hv : 0 ≤ v) : Cell.owner (.live v false) = 1 := if_pos hv
  change s'.owners + _ = s.owners + _ at howners
  unfold ObjState.leaseTotal
  cases hs with
  | openFd a hidle hvalid hunused hreserve => exact hreserve.leaseMove.add s.owners
  | pool hstep => exact hstep.leaseMove.add s.owners
  | @opened a before v hpc hop hrest hv hfree =>
    simp only [gained, lost, hone hv, add_zero] at howners
    have hcount : (s.pool.setPc i .idle).leaseCount + 1 = s.pool.leaseCount :=
      leaseCount_setPc_lose s.pool (by rw [hpc]; rfl) rfl
    refine .same rfl ?_
    rw [howners]
    change s.owners + 1 + (s.pool.setPc i .idle).leaseCount = _
    omega
  | @close l code v hpc hcode howns =>
    simp only [gained, lost, hone howns.2, add_zero] at howners
    have hcount : (s.pool.setPc i (.closing v.toNat)).leaseCount = s.pool.leaseCount + 1 :=
      leaseCount_setPc_gain s.pool (by rw [hpc]; rfl) rfl
    refine .same rfl ?_
    change _ + (s.pool.setPc i (.closing v.toNat)).leaseCount = _
    omega
  | @release l code v hpc hcode howns =>
    simp only [gained, lost, hone howns.2, add_zero] at howners
    refine .forget ?_ ?_
    · rw [setCode_pool, setMem_pool, addLeases_leases]
    · rw [setCode_pool, setMem_pool, leaseCount_addLeases]
      omega
  | call | exec | closeDone | releaseNone | returned | outside =>
    simp only [gained, lost, add_zero] at howners
    exact .same rfl (congrArg (· + s.pool.leaseCount) howners)

/-- A descriptor is open as long as an object owns it, and one object does. -/
def TableInv (s : ObjState ι A O) : Prop := ∀ v, s.ownersOf v ≤ (s.isOpen v).toNat

omit [DecidableEq ι] [DecidableEq A] [DecidableEq O] in
theorem ownersOf_eq_zero {v : ℤ} (h : ∀ l, ¬(s.mem l).Owns v) : s.ownersOf v = 0 :=
  Finset.sum_eq_zero fun l _ => if_neg (h l)

/-- **Step lemma**: no descriptor gets a second owner. -/
theorem ObjStep.tableInv {σ : View A O} (hs : ObjStep i s e s') (h : ObjInv σ s)
    (ht : TableInv s) : TableInv s' := by
  intro v
  have hv := ht v
  have howners : s'.ownersOf v + lost (Cell.ownerOf v) e = s.ownersOf v + gained (Cell.ownerOf v) e :=
    hs.weight h (weight_ownerOf v)
  cases hs with
  | @opened a before w hpc hop hrest hw hfree =>
    -- The kernel gives a number that is not in use, so nothing owned it.
    simp only [gained, lost, ownerOf_live hw, add_zero] at howners
    change _ ≤ (Function.update s.isOpen w true v).toNat
    by_cases hvw : w = v
    · subst hvw
      rw [hfree] at hv
      rw [if_pos rfl] at howners
      rw [Function.update_self]
      simp only [Bool.toNat_false, Bool.toNat_true] at hv ⊢
      omega
    · rw [if_neg hvw] at howners
      rw [Function.update_of_ne (Ne.symm hvw)]
      omega
  | @close l code w hpc hcode howns =>
    -- The descriptor loses its owner with the step that closes it.
    simp only [gained, lost, ownerOf_live howns.2, add_zero] at howners
    change _ ≤ (Function.update s.isOpen w false v).toNat
    by_cases hvw : w = v
    · subst hvw
      rw [if_pos rfl] at howners
      rw [Function.update_self]
      have hle := Bool.toNat_le (s.isOpen w)
      omega
    · rw [if_neg hvw] at howners
      rw [Function.update_of_ne (Ne.symm hvw)]
      omega
  | @outside w b hfree =>
    -- What no object owns may be opened and closed by others.
    change s.ownersOf v ≤ (Function.update s.isOpen w b v).toNat
    by_cases hvw : w = v
    · subst hvw
      rw [ownersOf_eq_zero hfree]
      exact Nat.zero_le _
    · rw [Function.update_of_ne (Ne.symm hvw)]
      exact hv
  | release hpc hcode howns =>
    simp only [gained, add_zero] at howners
    rw [setCode_isOpen, setMem_isOpen]
    change _ ≤ (s.isOpen v).toNat
    omega
  | call | openFd | pool | exec | closeDone | releaseNone | returned =>
    simp only [gained, lost, add_zero] at howners
    change _ ≤ (s.isOpen v).toNat
    omega

omit [Fintype ι] [Fintype A] [Fintype O] in
/-- The events count the owners of a descriptor. -/
theorem ObjStep.counts (hs : ObjStep i s e s') (v : ℤ) :
    gained (Cell.ownerOf v) e = e.opens v ∧
      lost (Cell.ownerOf v) e = e.closes v + e.handsOff v := by
  cases hs with
  | opened w _ _ _ hw => exact ⟨ownerOf_live hw v, rfl⟩
  | close _ _ howns => exact ⟨rfl, ownerOf_live howns.2 v⟩
  | release _ _ howns =>
    refine ⟨rfl, (ownerOf_live howns.2 v).trans ?_⟩
    exact (zero_add _).symm
  | _ => exact ⟨rfl, rfl⟩

/-- What is known of every run. -/
structure RunInv (tr : List (ObjEvent ι A O)) (s : ObjState ι A O) : Prop where
  objects : ObjInv (viewOf tr) s
  opening : OpenInv (viewOf tr) s
  table : TableInv s
  word : s.pool.leases = leaseWord s.leaseTotal (total ObjEvent.releases tr)
  owners : ∀ v, total (ObjEvent.opens v) tr =
    total (ObjEvent.closes v) tr + total (ObjEvent.handsOff v) tr + s.ownersOf v

theorem runInv_initial (soft hard maxFiles : ℕ) (isOpen : ℤ → Bool) :
    RunInv [] (.initial soft hard maxFiles isOpen : ObjState ι A O) := by
  have hzero {g : Cell → ℕ} (hg : Weight g) :
      sumCells g (ObjState.initial soft hard maxFiles isOpen : ObjState ι A O).mem = 0 :=
    Finset.sum_eq_zero fun _ _ => hg.dead
  refine ⟨⟨fun i => ?_, ?_, ?_⟩, ?_, ?_, ?_, ?_⟩
  · refine ⟨fun _ => rfl, ?_, trivial, fun _ => rfl, ?_⟩
    · intro op hop
      cases hop
    · intro op hop
      cases hop
  · intro i j op op' _ hop
    cases hop
  · exact fun _ _ => ⟨rfl, rfl⟩
  · intro i a hop
    cases hop
  · intro v
    rw [show (ObjState.initial soft hard maxFiles isOpen : ObjState ι A O).ownersOf v = 0 from
      hzero (weight_ownerOf v)]
    exact Nat.zero_le _
  · have htotal : (ObjState.initial soft hard maxFiles isOpen : ObjState ι A O).leaseTotal = 0 := by
      have howners : (ObjState.initial soft hard maxFiles isOpen : ObjState ι A O).owners = 0 :=
        hzero weight_owner
      rw [ObjState.leaseTotal, howners]
      simp [FdState.leaseCount, ObjState.initial, FdState.initial, FdPc.leases, FdPc.reserved,
        FdPc.releasing]
    rw [htotal]
    exact leaseWord_zero.symm
  · intro v
    rw [total_nil, total_nil, total_nil, zero_add, zero_add]
    exact (hzero (weight_ownerOf v)).symm

/-- **Run lemma**. -/
theorem runInv_of_run {tr : List (ObjEvent ι A O)} (h : (objSystem ι A O).Run tr s) : RunInv tr s := by
  refine h.invariant (I := RunInv) ?_ ?_
  · rintro s ⟨soft, hard, maxFiles, isOpen, rfl⟩
    exact runInv_initial soft hard maxFiles isOpen
  · rintro tr s e s' - hr ⟨i, hs⟩
    refine ⟨?_, ?_, hs.tableInv hr.objects hr.table, ?_, ?_⟩
    · rw [viewOf_snoc]
      exact hs.objInv hr.objects hr.opening
    · rw [viewOf_snoc]
      exact hs.openInv hr.objects hr.opening
    · rw [total_snoc]
      exact (hs.leaseMove hr.objects).word hr.word
    · intro v
      have hold := hr.owners v
      have howners : s'.ownersOf v + lost (Cell.ownerOf v) e =
          s.ownersOf v + gained (Cell.ownerOf v) e := hs.weight hr.objects (weight_ownerOf v)
      rw [(hs.counts v).1, (hs.counts v).2] at howners
      simp only [total_snoc]
      omega

/-! ## The accounts of every run -/

omit [Fintype ι] [Fintype A] [Fintype O] [DecidableEq ι] [DecidableEq A] [DecidableEq O] in
/-- `has_value()` reads off what is seen. -/
theorem hasValue_eq_false {o : O} :
    s.hasValue o = false ↔ s.mem.view (.opt o) = .disengaged := by
  simp only [ObjState.hasValue, Mem.view]
  cases s.mem (.obj (.opt o)) with
  | dead => simp [Cell.fd, Cell.seen, kInvalid, kReserved]
  | live v b => by_cases hv : v = kReserved <;> simp [Cell.fd, Cell.seen, hv]

/-- **Descriptor lease accounting.**  After every run of calls on `Fd` and
    `std::optional<Fd>` objects, with fewer than `2 ^ 32` leases out:
    - the low half of the lease word is the number of objects that own a descriptor, plus
      the unsettled reservations, plus the descriptors closed and not yet released;
    - the high half is the number of completed closes modulo `2 ^ 32`;
    - each descriptor has been closed or handed out as often as it was obtained, but for the
      one object at most that owns it now;
    - every object that is in no call shows what the calls so far are for, so an `optional`
      is disengaged when they say so. -/
theorem lease_accounting {tr : List (ObjEvent ι A O)} (h : (objSystem ι A O).Run tr s)
    (hfew : s.leaseTotal < 2 ^ 32) :
    (Leases.unpack s.pool.leases).live.toNat =
        s.owners + s.pool.reservedCount + s.pool.releasingCount ∧
      (Leases.unpack s.pool.leases).epoch.toNat = total ObjEvent.releases tr % 2 ^ 32 ∧
      (∀ v, s.ownersOf v ≤ 1 ∧ total (ObjEvent.opens v) tr =
        total (ObjEvent.closes v) tr + total (ObjEvent.handsOff v) tr + s.ownersOf v) ∧
      (∀ x, s.Unused x → s.mem.view x = viewOf tr x) ∧
      ∀ o, s.Unused (.opt o) → (s.hasValue o = false ↔ viewOf tr (.opt o) = .disengaged) := by
  have hr := runInv_of_run h
  have hcount : s.leaseTotal = s.owners + s.pool.reservedCount + s.pool.releasingCount := by
    have hnone : ¬s.pool.Holds := by
      rintro ⟨f, -⟩
      exact f.elim
    rw [ObjState.leaseTotal, leaseCount_of_not_holds hnone, add_assoc]
  have hview (x : Obj A O) (hx : s.Unused x) : s.mem.view x = viewOf tr x := (hr.objects.unused x hx).1
  refine ⟨?_, ?_, ?_, hview, ?_⟩
  · rw [hr.word, unpack_word, ← hcount]
    exact Nat.mod_eq_of_lt hfew
  · rw [hr.word, unpack_word, Nat.div_eq_of_lt hfew, add_zero]
    exact BitVec.toNat_ofNat ..
  · intro v
    exact ⟨(hr.table v).trans (Bool.toNat_le _), hr.owners v⟩
  · intro o ho
    rw [← hview _ ho, hasValue_eq_false]

end Totals

/-- A descriptor is opened, moved into an `optional`, and closed when that is reset. -/
theorem lease_accounting_reset : ∃ (tr : List (ObjEvent (Fin 1) Unit Unit))
    (s : ObjState (Fin 1) Unit Unit), (objSystem (Fin 1) Unit Unit).Run tr s ∧
      (Leases.unpack s.pool.leases).live.toNat = 0 ∧
      (Leases.unpack s.pool.leases).epoch.toNat = 1 ∧
      total (ObjEvent.opens 3) tr = 1 ∧ total (ObjEvent.closes 3) tr = 1 ∧
      s.mem.view (.fd ()) = .holds none ∧ s.hasValue () = false := by
  have busy {s : ObjState (Fin 1) Unit Unit} {pc : FdPc} (hpc : s.pool.pc 0 = pc)
      (hne : pc ≠ .idle) : s.pool.pc 0 = .idle → s.op 0 = none :=
    fun hidle => absurd (hpc.symm.trans hidle) hne
  have unused {s : ObjState (Fin 1) Unit Unit} (hop : s.op 0 = none) (x : Obj Unit Unit) :
      s.Unused x := by
    intro i op hi
    rw [Subsingleton.elim i 0, hop] at hi
    cases hi
  have hstart : (objSystem (Fin 1) Unit Unit).Run [] (.initial 8 8 8 fun _ => false) :=
    .start ⟨8, 8, 8, _, rfl⟩
  have hcalled := hstart.next ⟨0, .openFd () ⟨rfl, rfl⟩ rfl (unused rfl _) (.reserve rfl)⟩
  -- the capacity is not known yet
  have hunknown := hcalled.next ⟨0, .pool (.capacityStep (setPc_self ..)
    (.unknown (by rw [setPc_knownCapacity, addLeases_knownCapacity]; rfl))) (by simp)
    (busy (setPc_self ..) (by simp))⟩
  have hread := hunknown.next ⟨0, .pool (.capacityStep (setPc_self ..) .get) (by simp)
    (busy (setPc_self ..) (by simp))⟩
  have hstored := hread.next ⟨0, .pool (.capacityDone (setPc_self ..) .store) (by simp)
    (busy (setPc_self ..) (by simp))⟩
  have hready := hstored.next ⟨0, .pool (.noRaise (setPc_self ..) (.inl (by decide +kernel)))
    (by simp) (busy (setPc_self ..) (by simp))⟩
  have hopened := hready.next ⟨0, .opened 3 (setPc_self ..) rfl rfl (by decide) rfl⟩
  -- the temporary of the `return` gives its descriptor to the object, and ends
  have htaken := hopened.next ⟨0, .exec (setPc_self ..) rfl (fun l => by simp)⟩
  have hclosed := htaken.next ⟨0, .closeDone (setPc_self ..) rfl
    (fun _ => not_owns_live kInvalid_neg)⟩
  have hdropped := hclosed.next ⟨0, .exec (setPc_self ..) rfl (fun l => by simp)⟩
  have hreturned := hdropped.next ⟨0, .returned (setPc_self ..) rfl rfl⟩
  -- `std::optional<Fd> o(std::move(a))`
  have hmove := hreturned.next ⟨0, .call (.optFromValue () (.fd ())) ⟨setPc_self .., rfl⟩
    (fun _ => by simp) ⟨rfl, some 3, rfl⟩ (fun x _ => unused rfl x)⟩
  have hmoved := hmove.next ⟨0, .exec (setPc_self ..) rfl (fun l => by simp)⟩
  have hheld := hmoved.next ⟨0, .returned (setPc_self ..) rfl rfl⟩
  -- `o.reset()`
  have hreset := hheld.next ⟨0, .call (.optReset ()) ⟨setPc_self .., rfl⟩ (fun _ => by simp)
    (fun h => by cases h) (fun x _ => unused rfl x)⟩
  have hempty := hreset.next ⟨0, .exec (setPc_self ..) rfl (fun l => by simp)⟩
  have hclose := hempty.next ⟨0, .close (v := 3) (setPc_self ..) rfl ⟨rfl, by decide⟩⟩
  have hrelease := hclose.next ⟨0, .pool (.release (setPc_self ..)) (by simp)
    (busy (setPc_self ..) (by simp))⟩
  have hdone := hrelease.next ⟨0, .closeDone (setPc_self ..) rfl
    (fun _ h => by simp [Cell.Owns] at h)⟩
  have hset := hdone.next ⟨0, .exec (setPc_self ..) rfl (fun l => by simp)⟩
  have hnothing := hset.next ⟨0, .closeDone (setPc_self ..) rfl
    (fun _ => not_owns_live kInvalid_neg)⟩
  have hend := hnothing.next ⟨0, .exec (setPc_self ..) rfl (fun l => by simp)⟩
  have hlast := hend.next ⟨0, .returned (setPc_self ..) rfl rfl⟩
  obtain ⟨hlive, hepoch, -, hview, hvalue⟩ := lease_accounting hlast (by decide +kernel)
  refine ⟨_, _, hlast, hlive.trans ?_, hepoch.trans ?_, ?_, ?_, (hview _ (unused rfl _)).trans ?_,
    (hvalue () (unused rfl _)).mpr ?_⟩
  · decide +kernel
  all_goals rfl

end Remmy.Os
