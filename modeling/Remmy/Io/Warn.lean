import Remmy.Io.Print
import Mathlib.Data.List.GetD
import Mathlib.Data.List.TakeWhile

/-!
# Warnings

`WarnPieces` of `warn.hpp`: an iterator over three lists of pieces at once, of which the
second is escaped.

- `Iterator.text` is what is still to come; `settle` leaves it as it is, and `operator++`
  takes off what `operator*` yields.
- `warn_escaped` is what a whole pass yields.
-/

namespace Remmy.Io

/-! ## The escapes -/

/-- `kWarnEscapes`. -/
def kWarnEscapes : List Bytes :=
  [text "", text "\\001", text "\\002", text "\\003", text "\\004", text "\\005", text "\\006",
    text "\\a", text "\\b", text "", text "", text "\\v", text "\\f", text "\\r", text "\\016",
    text "\\017", text "\\020", text "\\021", text "\\022", text "\\023", text "\\024",
    text "\\025", text "\\026", text "\\027", text "\\030", text "\\031", text "\\032",
    text "\\033", text "\\034", text "\\035", text "\\036", text "\\037"]

/-- `WarnEscape`. -/
def warnEscape (byte : UInt8) : Bytes := kWarnEscapes.getD byte.toNat []

/-- A C0 control other than NUL, TAB and LF. -/
def IsEscaped (byte : UInt8) : Prop := byte.toNat < 32 ∧ byte ≠ 0 ∧ byte ≠ 9 ∧ byte ≠ 10

theorem warnEscape_ne_nil {byte : UInt8} : warnEscape byte ≠ [] ↔ IsEscaped byte := by
  have hsmall : ∀ n < 32, (kWarnEscapes.getD n [] ≠ [] ↔ n ≠ 0 ∧ n ≠ 9 ∧ n ≠ 10) := by decide
  have htoNat (k : UInt8) : byte ≠ k ↔ byte.toNat ≠ k.toNat := by
    rw [Ne, ← UInt8.toNat_inj]
  unfold IsEscaped warnEscape
  rw [htoNat 0, htoNat 9, htoNat 10]
  by_cases hbyte : byte.toNat < 32
  · rw [hsmall _ hbyte]
    simp [hbyte]
  · have hlength : kWarnEscapes.length ≤ byte.toNat := not_lt.mp hbyte
    rw [List.getD_eq_default _ _ hlength]
    simp [hbyte]

/-- A byte of the body as it is printed. -/
def escapeByte (byte : UInt8) : Bytes := if warnEscape byte = [] then [byte] else warnEscape byte

/-- No escape has a control byte. -/
theorem not_control_of_mem_escapes {c : UInt8} {escape : Bytes} (h : escape ∈ kWarnEscapes)
    (hc : c ∈ escape) : 32 ≤ c.toNat := by
  have hall : kWarnEscapes.all (fun escape => escape.all fun c => decide (32 ≤ c.toNat)) = true := by
    decide
  have hescape := List.all_eq_true.mp hall escape h
  exact of_decide_eq_true (List.all_eq_true.mp hescape c hc)

theorem not_isEscaped_of_mem {byte c : UInt8} (h : c ∈ escapeByte byte) : ¬IsEscaped c := by
  unfold escapeByte at h
  split_ifs at h with hraw
  · obtain rfl := List.mem_singleton.mp h
    exact fun hc => warnEscape_ne_nil.mpr hc hraw
  · have hlength : byte.toNat < kWarnEscapes.length := by
      by_contra hlong
      exact hraw (List.getD_eq_default _ _ (not_lt.mp hlong))
    have hmem : warnEscape byte ∈ kWarnEscapes := by
      rw [warnEscape, List.getD_eq_getElem _ _ hlength]
      exact List.getElem_mem hlength
    exact fun hc => absurd hc.1 (not_lt.mpr (not_control_of_mem_escapes hmem h))

/-! ## The iterator -/

/-- `WarnPieces`. -/
structure WarnPieces where
  head : List Bytes
  body : List Bytes
  tail : List Bytes

namespace WarnPieces

/-- `parts_`. -/
def parts (w : WarnPieces) : ℕ → List Bytes
  | 0 => w.head
  | 1 => w.body
  | _ => w.tail

/-- `WarnPieces::iterator`, without its owner. -/
@[ext] structure Iterator where
  part : ℕ
  index : ℕ
  offset : ℕ
  deriving DecidableEq

/-- `kBody` and `kEnd`. -/
def kBody : ℕ := 1
def kEnd : ℕ := 3

/-- `end()`, which the constructor does not move. -/
def last : Iterator := ⟨kEnd, 0, 0⟩

variable (w : WarnPieces)

/-- `Settle`. -/
def settle (it : Iterator) : Iterator :=
  if it.part < kEnd then
    if it.index = (w.parts it.part).length then settle ⟨it.part + 1, 0, 0⟩
    else
      match hpiece : (w.parts it.part)[it.index]? with
      | none => it
      | some piece => if it.offset = piece.length then settle ⟨it.part, it.index + 1, 0⟩ else it
  else it
termination_by (kEnd - it.part, (w.parts it.part).length - it.index)
decreasing_by
  · exact Prod.Lex.left _ _ (by omega)
  · have hlt := (List.getElem?_eq_some_iff.mp hpiece).1
    exact Prod.Lex.right _ (by omega)

/-- `begin()`. -/
def first : Iterator := w.settle ⟨0, 0, 0⟩

/-- `Rest`. -/
def rest (it : Iterator) : Bytes := ((w.parts it.part).getD it.index []).drop it.offset

/-- `RawRun`. -/
def rawRun (rest : Bytes) : ℕ := (rest.takeWhile fun byte => warnEscape byte = []).length

/-- `operator*`; `none` is `front()` of nothing. -/
def deref (it : Iterator) : Option Bytes :=
  if it.part ≠ kBody then some (w.rest it)
  else (w.rest it).head?.map fun front =>
    if warnEscape front ≠ [] then warnEscape front else (w.rest it).take (rawRun (w.rest it))

/-- `operator++`. -/
def next (it : Iterator) : Iterator :=
  let rest := w.rest it
  let step :=
    if it.part ≠ kBody then rest.length
    else if warnEscape (rest.headD 0) ≠ [] then 1
    else rawRun rest
  w.settle { it with offset := it.offset + step }

/-- A pass from `it` to `end()`, of as many steps as `fuel` allows. -/
def pass : ℕ → Iterator → Option (List Bytes)
  | 0, _ => none
  | fuel + 1, it =>
    if it = last then some []
    else do
      let view ← w.deref it
      let views ← pass fuel (w.next it)
      return view :: views

/-! ## What is still to come -/

/-- Bytes of a part as they are printed, `esc` being what is made of a byte of the body. -/
def printed (esc : UInt8 → Bytes) (part : ℕ) (bytes : Bytes) : Bytes :=
  if part = kBody then bytes.flatMap esc else bytes

/-- The parts from `part` on. -/
def after (esc : UInt8 → Bytes) : ℕ → Bytes
  | 0 => w.head.flatten ++ (w.body.flatten.flatMap esc ++ w.tail.flatten)
  | 1 => w.body.flatten.flatMap esc ++ w.tail.flatten
  | 2 => w.tail.flatten
  | _ => []

theorem after_eq (esc : UInt8 → Bytes) {part : ℕ} (h : part < kEnd) :
    w.after esc part = printed esc part (w.parts part).flatten ++ w.after esc (part + 1) := by
  match part with
  | 0 => rfl
  | 1 => rfl
  | 2 => simp [after, printed, kBody, parts]
  | _ + 3 => exact absurd h (by simp [kEnd])

/-- What is left of the part that the iterator is in. -/
def unread (it : Iterator) : Bytes := ((w.parts it.part).drop it.index).flatten.drop it.offset

/-- What is still to come. -/
def text (esc : UInt8 → Bytes) (it : Iterator) : Bytes :=
  if it.part < kEnd then printed esc it.part (w.unread it) ++ w.after esc (it.part + 1) else []

/-- The iterator is within its bounds. -/
structure Valid (it : Iterator) : Prop where
  index_le : it.part < kEnd → it.index ≤ (w.parts it.part).length
  offset_le : it.part < kEnd → ∀ piece, (w.parts it.part)[it.index]? = some piece →
    it.offset ≤ piece.length
  ended : ¬it.part < kEnd → it = last

/-- The iterator is at the end or at a byte. -/
structure Settled (it : Iterator) : Prop where
  valid : w.Valid it
  inside : it.part < kEnd → ∃ piece, (w.parts it.part)[it.index]? = some piece ∧
    it.offset < piece.length

variable {w} {it : Iterator}

theorem unread_eq {piece : Bytes} (hpiece : (w.parts it.part)[it.index]? = some piece)
    (hoffset : it.offset ≤ piece.length) :
    w.unread it = piece.drop it.offset ++ ((w.parts it.part).drop (it.index + 1)).flatten := by
  obtain ⟨hlt, rfl⟩ := List.getElem?_eq_some_iff.mp hpiece
  rw [unread, List.drop_eq_getElem_cons hlt, List.flatten_cons, List.drop_append_of_le_length hoffset]

/-- `Settle` stops at the end or at a byte, and passes over nothing. -/
theorem settle_spec (h : w.Valid it) :
    w.Settled (w.settle it) ∧ ∀ esc, w.text esc (w.settle it) = w.text esc it := by
  induction it using settle.induct w with
  | case1 it hpart hindex ih =>
    -- on to the next part
    have hnext : w.Valid ⟨it.part + 1, 0, 0⟩ := by
      refine ⟨fun _ => Nat.zero_le _, fun _ _ _ => Nat.zero_le _, fun hend => ?_⟩
      have heq : it.part + 1 = kEnd := le_antisymm hpart (not_lt.mp hend)
      rw [heq]
      rfl
    rw [settle, if_pos hpart, if_pos hindex]
    refine ⟨(ih hnext).1, fun esc => ((ih hnext).2 esc).trans ?_⟩
    have hunread : w.unread it = [] := by
      rw [unread, hindex, List.drop_length, List.flatten_nil, List.drop_nil]
    rw [text, text, if_pos hpart, hunread]
    have hnone : printed esc it.part [] = [] := by
      unfold printed
      split_ifs <;> rfl
    rw [hnone, List.nil_append]
    split_ifs with hmore
    · rw [w.after_eq esc hmore]
      rfl
    · have heq : it.part + 1 = kEnd := le_antisymm hpart (not_lt.mp hmore)
      rw [heq]
      rfl
  | case2 it hpart hindex hpiece =>
    have hlt := (h.index_le hpart).lt_of_ne hindex
    rw [List.getElem?_eq_getElem hlt] at hpiece
    cases hpiece
  | case3 it hpart hindex piece hpiece hoffset ih =>
    -- on to the next piece
    have hlt := (List.getElem?_eq_some_iff.mp hpiece).1
    have hnext : w.Valid ⟨it.part, it.index + 1, 0⟩ :=
      ⟨fun _ => hlt, fun _ _ _ => Nat.zero_le _, fun hend => absurd hpart hend⟩
    have hsettle : w.settle it = w.settle ⟨it.part, it.index + 1, 0⟩ := by
      rw [settle, if_pos hpart, if_neg hindex]
      split
      · next hnone => rw [hnone] at hpiece; cases hpiece
      · next piece' hpiece' =>
        obtain rfl : piece' = piece := Option.some.inj (hpiece'.symm.trans hpiece)
        rw [if_pos hoffset]
    rw [hsettle]
    refine ⟨(ih hnext).1, fun esc => ((ih hnext).2 esc).trans ?_⟩
    have hunread : w.unread it = w.unread ⟨it.part, it.index + 1, 0⟩ := by
      rw [unread_eq hpiece hoffset.le, hoffset, List.drop_length, List.nil_append]
      rfl
    rw [text, text, hunread]
  | case4 it hpart hindex piece hpiece hoffset =>
    have hsettle : w.settle it = it := by
      rw [settle, if_pos hpart, if_neg hindex]
      split
      · rfl
      · next piece' hpiece' =>
        obtain rfl : piece' = piece := Option.some.inj (hpiece'.symm.trans hpiece)
        rw [if_neg hoffset]
    rw [hsettle]
    exact ⟨⟨h, fun _ => ⟨piece, hpiece, (h.offset_le hpart piece hpiece).lt_of_ne hoffset⟩⟩,
      fun _ => rfl⟩
  | case5 it hpart =>
    rw [settle, if_neg hpart]
    exact ⟨⟨h, fun hin => absurd hin hpart⟩, fun _ => rfl⟩

/-- The step of `operator++`: what it passes over comes first in what is still to come. -/
theorem text_step (h : w.Settled it) (hpart : it.part < kEnd) {k : ℕ}
    (hk : k ≤ (w.rest it).length) :
    w.Settled (w.settle { it with offset := it.offset + k }) ∧ ∀ esc, w.text esc it =
      printed esc it.part ((w.rest it).take k) ++
        w.text esc (w.settle { it with offset := it.offset + k }) := by
  obtain ⟨piece, hpiece, hoffset⟩ := h.inside hpart
  have hrest : w.rest it = piece.drop it.offset := by
    rw [rest, List.getD_eq_getElem?_getD, hpiece]
    rfl
  rw [hrest, List.length_drop] at hk
  have hle : it.offset + k ≤ piece.length := by omega
  have hvalid : w.Valid { it with offset := it.offset + k } := by
    refine ⟨h.valid.index_le, ?_, fun hend => absurd hpart hend⟩
    intro _ piece' hpiece'
    obtain rfl : piece' = piece := Option.some.inj (hpiece'.symm.trans hpiece)
    exact hle
  obtain ⟨hsettled, htext⟩ := settle_spec hvalid
  refine ⟨hsettled, fun esc => ?_⟩
  -- What is passed over is cut off the piece that the iterator is in.
  have hunread : w.unread it =
      (w.rest it).take k ++ w.unread { it with offset := it.offset + k } := by
    have hcut : piece.drop it.offset =
        (piece.drop it.offset).take k ++ piece.drop (it.offset + k) := by
      rw [← List.drop_drop, List.take_append_drop]
    have hlater : w.unread { it with offset := it.offset + k } =
        piece.drop (it.offset + k) ++ ((w.parts it.part).drop (it.index + 1)).flatten :=
      unread_eq hpiece hle
    rw [unread_eq hpiece hoffset.le, hrest, hlater, ← List.append_assoc]
    exact congrArg (· ++ _) hcut
  rw [htext esc, text, text, if_pos hpart, hunread]
  change _ = printed esc it.part _ ++ (if it.part < kEnd then _ else _)
  rw [if_pos hpart, ← List.append_assoc]
  congr 1
  unfold printed
  split_ifs
  · exact List.flatMap_append
  · rfl

/-! ## One step of a pass -/

theorem rest_ne_nil (h : w.Settled it) (hpart : it.part < kEnd) : w.rest it ≠ [] := by
  obtain ⟨piece, hpiece, hoffset⟩ := h.inside hpart
  have hrest : w.rest it = piece.drop it.offset := by
    rw [rest, List.getD_eq_getElem?_getD, hpiece]
    rfl
  rw [hrest, Ne, List.drop_eq_nil_iff]
  omega

/-- A run of bytes that are not escaped. -/
theorem take_rawRun (rest : Bytes) :
    rest.take (rawRun rest) = rest.takeWhile fun byte => warnEscape byte = [] := by
  rw [rawRun]
  exact (List.prefix_iff_eq_take.mp (List.takeWhile_prefix _)).symm

theorem flatMap_takeWhile_raw (rest : Bytes) :
    (rest.takeWhile fun byte => warnEscape byte = []).flatMap escapeByte =
      rest.takeWhile fun byte => warnEscape byte = [] := by
  have hraw : ∀ c ∈ rest.takeWhile fun byte => warnEscape byte = [], escapeByte c = [c] := by
    intro c hc
    have hnil := List.mem_takeWhile_imp hc
    rw [decide_eq_true_eq] at hnil
    exact if_pos hnil
  rw [List.flatMap_congr hraw, List.flatMap_singleton']

/-- **Step lemma**: `operator*` yields something, which `operator++` passes over. -/
theorem step_spec (h : w.Settled it) (hpart : it.part < kEnd) : ∃ view, w.deref it = some view ∧
    view ≠ [] ∧ w.Settled (w.next it) ∧
    w.text escapeByte it = view ++ w.text escapeByte (w.next it) ∧
    (w.text (fun c => [c]) (w.next it)).length < (w.text (fun c => [c]) it).length := by
  have hne := rest_ne_nil h hpart
  -- it is enough to say how far the step goes, and what it yields
  suffices hstep : ∃ k, k ≠ 0 ∧ k ≤ (w.rest it).length ∧
      w.next it = w.settle { it with offset := it.offset + k } ∧
      w.deref it = some (printed escapeByte it.part ((w.rest it).take k)) by
    obtain ⟨k, hk, hle, hnext, hview⟩ := hstep
    obtain ⟨hsettled, htext⟩ := text_step h hpart hle
    rw [hnext]
    have htake : (w.rest it).take k ≠ [] := by
      rw [Ne, List.take_eq_nil_iff, not_or]
      exact ⟨hk, hne⟩
    refine ⟨_, hview, ?_, hsettled, htext escapeByte, ?_⟩
    · unfold printed
      split_ifs
      · cases htaken : (w.rest it).take k with
        | nil => exact absurd htaken htake
        | cons c cs =>
          rw [List.flatMap_cons]
          unfold escapeByte
          split_ifs with hraw
          · simp
          · simp [hraw]
      · exact htake
    · rw [htext fun c => [c], List.length_append]
      have hlength : 0 < (printed (fun c => [c]) it.part ((w.rest it).take k)).length := by
        unfold printed
        rw [List.flatMap_singleton', ite_self]
        exact List.length_pos_iff.mpr htake
      omega
  by_cases hbody : it.part = kBody
  · cases hrest : w.rest it with
    | nil => exact absurd hrest hne
    | cons front rest =>
      by_cases hescape : warnEscape front = []
      · refine ⟨rawRun (front :: rest), ?_, ?_, ?_, ?_⟩
        · simp [rawRun, hescape]
        · exact (List.takeWhile_prefix _).length_le
        · simp [next, hbody, hrest, hescape]
        · rw [take_rawRun, printed, if_pos hbody, flatMap_takeWhile_raw, ← take_rawRun]
          simp [deref, hbody, hrest, hescape]
      · refine ⟨1, Nat.one_ne_zero, by simp, ?_, ?_⟩
        · simp [next, hbody, hrest, hescape]
        · simp [deref, hbody, hrest, hescape, printed, escapeByte]
  · refine ⟨(w.rest it).length, ?_, le_rfl, ?_, ?_⟩
    · rwa [Ne, List.length_eq_zero_iff]
    · simp [next, hbody]
    · simp [deref, hbody, printed]

/-- **Run lemma**: a pass from a settled iterator ends, and yields what is still to come. -/
theorem pass_spec (h : w.Settled it) {fuel : ℕ}
    (hfuel : (w.text (fun c => [c]) it).length < fuel) :
    ∃ views, w.pass fuel it = some views ∧ views.flatten = w.text escapeByte it ∧
      ∀ view ∈ views, view ≠ [] := by
  induction fuel generalizing it with
  | zero => exact absurd hfuel (Nat.not_lt_zero _)
  | succ fuel ih =>
    by_cases hpart : it.part < kEnd
    · obtain ⟨view, hview, hne, hsettled, htext, hless⟩ := step_spec h hpart
      obtain ⟨views, hviews, hflatten, hall⟩ := ih hsettled (by omega)
      have hlast : it ≠ last := by
        rintro rfl
        exact absurd hpart (lt_irrefl kEnd)
      refine ⟨view :: views, ?_, ?_, ?_⟩
      · rw [pass, if_neg hlast, hview, Option.bind_eq_bind, Option.bind_some, hviews]
        rfl
      · rw [List.flatten_cons, hflatten, htext]
      · exact List.forall_mem_cons.mpr ⟨hne, hall⟩
    · obtain rfl := h.valid.ended hpart
      exact ⟨[], rfl, rfl, nofun⟩

/-- The iterations from `begin()` to `end()` yield these views. -/
def Yields (w : WarnPieces) (views : List Bytes) : Prop :=
  ∃ n, ∀ fuel, n ≤ fuel → w.pass fuel w.first = some views

/-- Every pass yields the same. -/
theorem Yields.unique {views views' : List Bytes} (h : w.Yields views) (h' : w.Yields views') :
    views' = views := by
  obtain ⟨n, hn⟩ := h
  obtain ⟨n', hn'⟩ := h'
  exact Option.some.inj ((hn' (max n n') (le_max_right ..)).symm.trans (hn _ (le_max_left ..)))

theorem settled_first (w : WarnPieces) : w.Settled w.first ∧
    ∀ esc, w.text esc w.first = w.after esc 0 := by
  have hvalid : w.Valid ⟨0, 0, 0⟩ :=
    ⟨fun _ => Nat.zero_le _, fun _ _ _ => Nat.zero_le _, fun h => absurd (by decide) h⟩
  obtain ⟨hsettled, htext⟩ := settle_spec hvalid
  exact ⟨hsettled, htext⟩

/-- With more fuel a pass that ends is the same. -/
theorem pass_mono {fuel fuel' : ℕ} {views : List Bytes} (h : w.pass fuel it = some views)
    (hle : fuel ≤ fuel') : w.pass fuel' it = some views := by
  induction fuel generalizing fuel' it views with
  | zero => cases h
  | succ fuel ih =>
    obtain ⟨fuel', rfl⟩ : ∃ k, fuel' = k + 1 := ⟨fuel' - 1, by omega⟩
    rw [pass] at h ⊢
    split_ifs at h ⊢ with hlast
    · exact h
    · obtain ⟨view, hview, hrest⟩ := Option.bind_eq_some_iff.mp h
      obtain ⟨rest, hpass, hviews⟩ := Option.bind_eq_some_iff.mp hrest
      rw [hview, Option.bind_eq_bind, Option.bind_some, ih hpass (Nat.le_of_succ_le_succ hle)]
      exact hviews

/-- What a pass yields. -/
theorem yields (w : WarnPieces) : ∃ views, w.Yields views ∧
    views.flatten = w.after escapeByte 0 ∧ ∀ view ∈ views, view ≠ [] := by
  obtain ⟨hsettled, htext⟩ := w.settled_first
  obtain ⟨views, hviews, hflatten, hall⟩ := pass_spec hsettled (Nat.lt_succ_self _)
  exact ⟨views, ⟨_, fun fuel hfuel => pass_mono hviews hfuel⟩, hflatten.trans (htext escapeByte), hall⟩

end WarnPieces

/-! ## What a warning says -/

/-- Bytes as they are printed. -/
def escaped (bytes : Bytes) : Bytes := bytes.flatMap escapeByte

theorem not_isEscaped_of_mem_escaped {bytes : Bytes} {c : UInt8} (h : c ∈ escaped bytes) :
    ¬IsEscaped c := by
  obtain ⟨byte, -, hc⟩ := List.mem_flatMap.mp h
  exact not_isEscaped_of_mem hc

/-- What `Warn` and `Warnx` write: `prog: `, the formatted text, and the tail. -/
def warnWith (prog fmt : Bytes) (args tail : List Bytes) : Option WarnPieces :=
  (formatPieces fmt args).map fun body => ⟨[prog, text ": "], body, tail⟩

/-- `Warn`, with the text of the error. -/
def warn (prog : Bytes) (error : Bytes) (fmt : Bytes) (args : List Bytes) : Option WarnPieces :=
  warnWith prog fmt args [text ": ", error, text "\n"]

/-- `Warnx`. -/
def warnx (prog : Bytes) (fmt : Bytes) (args : List Bytes) : Option WarnPieces :=
  warnWith prog fmt args [text "\n"]

/-- The text of a warning. -/
theorem text_warnWith (prog : Bytes) {fmt : Bytes} {args : List Bytes} (tail : List Bytes)
    (h : scanHoles fmt = some args.length) : ∃ w views, warnWith prog fmt args tail = some w ∧
      w.Yields views ∧ views.flatten =
        prog ++ text ": " ++ escaped (replaceHoles fmt args) ++ tail.flatten := by
  obtain ⟨segments, hcount, hraw, rfl⟩ := scanHoles_eq_some.mp h
  obtain ⟨hpieces, htext⟩ := formatPieces_joinHoles hcount hraw
  obtain ⟨views, hyields, hflatten, -⟩ :=
    WarnPieces.yields ⟨[prog, text ": "], weave segments args, tail⟩
  refine ⟨_, views, ?_, hyields, ?_⟩
  · rw [warnWith, hpieces]
    rfl
  · rw [hflatten, ← htext]
    simp [WarnPieces.after, escaped]

/-- **Warnings are escaped exactly.**  A pass over any pieces ends, with views that are not empty
    and are together the head, the escaped body and the tail.  A byte is printed as its escape if
    it is a C0 control other than NUL, TAB and LF, and as it is otherwise; so what `Warn` and
    `Warnx` take from their arguments has no such control. -/
theorem warn_escaped (w : WarnPieces) :
    (∃ views, w.Yields views ∧ (∀ views', w.Yields views' → views' = views) ∧
      (∀ view ∈ views, view ≠ []) ∧ views.flatten = w.head.flatten ++ (escaped w.body.flatten ++ w.tail.flatten)) ∧
    (∀ byte, (IsEscaped byte → escapeByte byte = kWarnEscapes.getD byte.toNat []) ∧
      (¬IsEscaped byte → escapeByte byte = [byte])) ∧
    (∀ bytes, ∀ c ∈ escaped bytes, ¬IsEscaped c) ∧
    ∀ prog error fmt args, scanHoles fmt = some args.length →
      (∃ w views, warn prog error fmt args = some w ∧ w.Yields views ∧ views.flatten =
        prog ++ text ": " ++ escaped (replaceHoles fmt args) ++ (text ": " ++ error ++ text "\n")) ∧
      ∃ w views, warnx prog fmt args = some w ∧ w.Yields views ∧ views.flatten =
        prog ++ text ": " ++ escaped (replaceHoles fmt args) ++ text "\n" := by
  refine ⟨?_, ?_, fun bytes c hc => not_isEscaped_of_mem_escaped hc, ?_⟩
  · obtain ⟨views, hyields, hflatten, hall⟩ := w.yields
    exact ⟨views, hyields, fun _ h => hyields.unique h, hall, hflatten⟩
  · intro byte
    unfold escapeByte
    constructor
    · intro hbyte
      rw [if_neg (warnEscape_ne_nil.mpr hbyte)]
      rfl
    · intro hbyte
      rw [if_pos (not_not.mp fun hne => hbyte (warnEscape_ne_nil.mp hne))]
  · intro prog error fmt args h
    refine ⟨?_, ?_⟩
    · obtain ⟨w, views, hw, hyields, htext⟩ := text_warnWith prog [text ": ", error, text "\n"] h
      exact ⟨w, views, hw, hyields, htext.trans (by simp)⟩
    · obtain ⟨w, views, hw, hyields, htext⟩ := text_warnWith prog [text "\n"] h
      exact ⟨w, views, hw, hyields, htext.trans (by simp)⟩

/-- The warning about a file whose name has a bell in it. -/
theorem warn_escaped_bell : ∃ w views, warnx (text "rm") (text "{}") [[7]] = some w ∧
    w.Yields views ∧ views.flatten = text "rm: \\a\n" := by
  obtain ⟨-, -, -, hwarn⟩ := warn_escaped ⟨[], [], []⟩
  obtain ⟨-, w, views, hw, hyields, htext⟩ := hwarn (text "rm") [] (text "{}") [[7]] (by decide)
  exact ⟨w, views, hw, hyields, htext.trans (by decide)⟩

end Remmy.Io
