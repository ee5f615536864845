import Remmy.Bytes
import Mathlib.Data.List.Flatten
import Mathlib.Data.List.Infix

/-!
# Format Strings

`FormatString` and `FormatPieces` of `print.hpp`: one scanner that runs when the program is
compiled and accepts a format string, and one that splits it at run time.

- `scanHoles_eq_some` says which strings the first one accepts: those that `"{}"` cuts into
  texts without braces.
- `format_splitting` says that the second one cuts at the same places.
-/

namespace Remmy.Io

/-- `'{'` and `'}'`. -/
def lbrace : UInt8 := '{'.toUInt8
def rbrace : UInt8 := '}'.toUInt8

/-- `"{}"`. -/
def hole : Bytes := [lbrace, rbrace]

/-! ## The two scanners -/

/-- The loop of the constructor of `FormatString`: the number of holes, or `none` after
    `InvalidFormatString()`. -/
def scanHoles : Bytes → Option ℕ
  | [] => some 0
  | [c] => if c = lbrace ∨ c = rbrace then none else some 0
  | c :: d :: rest =>
    if c = lbrace ∧ d = rbrace then (scanHoles rest).map (· + 1)
    else if c = lbrace ∨ c = rbrace then none
    else scanHoles (d :: rest)

/-- A string that the constructor of `FormatString` accepts for `n` arguments. -/
structure FormatString (n : ℕ) where
  str : Bytes
  accepted : scanHoles str = some n

/-- `fmt.find("{}")`. -/
def findHole : Bytes → Option ℕ
  | [] | [_] => none
  | c :: d :: rest =>
    if c = lbrace ∧ d = rbrace then some 0 else (findHole (d :: rest)).map (· + 1)

/-- `FormatPieces`, with `none` if `find` fails. -/
def formatPieces (fmt : Bytes) : List Bytes → Option (List Bytes)
  | [] => some [fmt]
  | view :: views => do
    let hole ← findHole fmt
    let pieces ← formatPieces (fmt.drop (hole + 2)) views
    return fmt.take hole :: view :: pieces

/-! ## One step of each -/

/-- The byte is not a brace. -/
def IsRaw (c : UInt8) : Prop := c ≠ lbrace ∧ c ≠ rbrace

theorem scanHoles_raw {c : UInt8} (h : IsRaw c) (rest : Bytes) :
    scanHoles (c :: rest) = scanHoles rest := by
  obtain ⟨hl, hr⟩ := h
  cases rest with
  | nil => simp [scanHoles, hl, hr]
  | cons d rest => simp [scanHoles, hl, hr]

@[simp] theorem scanHoles_hole (rest : Bytes) :
    scanHoles (lbrace :: rbrace :: rest) = (scanHoles rest).map (· + 1) := by
  simp [scanHoles]

theorem findHole_raw {c : UInt8} (h : IsRaw c) (rest : Bytes) :
    findHole (c :: rest) = (findHole rest).map (· + 1) := by
  cases rest with
  | nil => rfl
  | cons d rest => simp [findHole, h.1]

@[simp] theorem findHole_hole (rest : Bytes) : findHole (lbrace :: rbrace :: rest) = some 0 := by
  simp [findHole]

/-- What the constructor has read of a string that it accepts. -/
theorem scanHoles_cases {fmt : Bytes} {n : ℕ} (h : scanHoles fmt = some n) :
    (fmt = [] ∧ n = 0) ∨
    (∃ c rest, IsRaw c ∧ fmt = c :: rest ∧ scanHoles rest = some n) ∨
    ∃ rest m, fmt = lbrace :: rbrace :: rest ∧ n = m + 1 ∧ scanHoles rest = some m := by
  cases fmt with
  | nil => exact .inl ⟨rfl, by simpa [scanHoles] using h.symm⟩
  | cons c rest =>
    by_cases hc : IsRaw c
    · rw [scanHoles_raw hc] at h
      exact .inr (.inl ⟨c, rest, hc, rfl, h⟩)
    · have hbrace : c = lbrace ∨ c = rbrace := by
        by_contra hne
        rw [not_or] at hne
        exact hc hne
      cases rest with
      | nil => simp [scanHoles, hbrace] at h
      | cons d rest =>
        rw [scanHoles] at h
        split_ifs at h with hhole
        obtain ⟨rfl, rfl⟩ := hhole
        obtain ⟨m, hm, rfl⟩ := Option.map_eq_some_iff.mp h
        exact .inr (.inr ⟨rest, m, rfl, rfl, hm⟩)

/-! ## Segments -/

/-- A text without braces. -/
def RawText (s : Bytes) : Prop := ∀ c ∈ s, IsRaw c

theorem scanHoles_append {s : Bytes} (hs : RawText s) (rest : Bytes) :
    scanHoles (s ++ rest) = scanHoles rest := by
  induction s with
  | nil => rfl
  | cons c s ih =>
    have hc : IsRaw c := hs c List.mem_cons_self
    rw [List.cons_append, scanHoles_raw hc]
    exact ih fun d hd => hs d (List.mem_cons_of_mem c hd)

theorem findHole_append {s : Bytes} (hs : RawText s) (rest : Bytes) :
    findHole (s ++ (hole ++ rest)) = some s.length := by
  induction s with
  | nil => exact findHole_hole rest
  | cons c s ih =>
    have hc : IsRaw c := hs c List.mem_cons_self
    rw [List.cons_append, findHole_raw hc, ih fun d hd => hs d (List.mem_cons_of_mem c hd)]
    rfl

/-- The string that `"{}"` cuts into these segments. -/
def joinHoles : List Bytes → Bytes
  | [] => []
  | [s] => s
  | s :: t :: segments => s ++ (hole ++ joinHoles (t :: segments))

theorem joinHoles_cons {s : Bytes} {segments : List Bytes} (h : segments ≠ []) :
    joinHoles (s :: segments) = s ++ (hole ++ joinHoles segments) := by
  cases segments with
  | nil => exact absurd rfl h
  | cons t segments => rfl

/-- A byte more in the first segment. -/
theorem joinHoles_cons_cons (c : UInt8) (s : Bytes) (segments : List Bytes) :
    joinHoles ((c :: s) :: segments) = c :: joinHoles (s :: segments) := by
  cases segments <;> rfl

/-- **What the constructor accepts** for `n` arguments: what `n` holes cut into `n + 1` texts
    without braces. -/
theorem scanHoles_eq_some {fmt : Bytes} {n : ℕ} : scanHoles fmt = some n ↔
    ∃ segments, segments.length = n + 1 ∧ (∀ s ∈ segments, RawText s) ∧
      fmt = joinHoles segments := by
  constructor
  · -- the induction is on the part of the string that is still to be read
    intro h
    induction hlength : fmt.length using Nat.strong_induction_on generalizing fmt n with
    | _ length ih =>
      subst hlength
      rcases scanHoles_cases h with ⟨rfl, rfl⟩ | ⟨c, rest, hc, rfl, hrest⟩ | ⟨rest, m, rfl, rfl, hrest⟩
      · exact ⟨[[]], rfl, by simp [RawText], rfl⟩
      · obtain ⟨segments, hcount, hraw, rfl⟩ := ih rest.length (by simp) hrest rfl
        cases segments with
        | nil => cases hcount
        | cons s segments =>
          refine ⟨(c :: s) :: segments, hcount, ?_, (joinHoles_cons_cons c s segments).symm⟩
          intro t ht
          rcases List.mem_cons.mp ht with rfl | ht
          · intro d hd
            rcases List.mem_cons.mp hd with rfl | hd
            · exact hc
            · exact hraw s List.mem_cons_self d hd
          · exact hraw t (List.mem_cons_of_mem s ht)
      · obtain ⟨segments, hcount, hraw, rfl⟩ := ih rest.length (by simp only [List.length_cons]; omega) hrest rfl
        refine ⟨[] :: segments, by rw [List.length_cons, hcount], ?_, ?_⟩
        · intro t ht
          rcases List.mem_cons.mp ht with rfl | ht
          · simp [RawText]
          · exact hraw t ht
        · rw [joinHoles_cons]
          · rfl
          · rintro rfl
            cases hcount
  -- The induction is on the segments: each is scanned, and then the hole behind it.
  · rintro ⟨segments, hcount, hraw, rfl⟩
    induction segments generalizing n with
    | nil => cases hcount
    | cons s segments ih =>
      have hs : RawText s := hraw s List.mem_cons_self
      cases segments with
      | nil =>
        obtain rfl : n = 0 := by simpa using hcount.symm
        have hscan := scanHoles_append hs []
        rwa [List.append_nil] at hscan
      | cons t segments =>
        obtain ⟨m, rfl⟩ : ∃ m, n = m + 1 := ⟨segments.length, by simpa using hcount.symm⟩
        rw [joinHoles_cons (List.cons_ne_nil t segments), scanHoles_append hs]
        have hrest := ih (n := m) (by simpa using hcount) fun u hu => hraw u (List.mem_cons_of_mem s hu)
        rw [show hole ++ joinHoles (t :: segments) = lbrace :: rbrace :: joinHoles (t :: segments) from
          rfl, scanHoles_hole, hrest]
        rfl

/-! ## Splitting -/

/-- Segments and texts in turn. -/
def weave : List Bytes → List Bytes → List Bytes
  | s :: segments, t :: texts => s :: t :: weave segments texts
  | segments, _ => segments

/-- The format string with its `i`-th `"{}"` replaced by the `i`-th text.  What it puts in is not
    read again. -/
def replaceHoles : Bytes → List Bytes → Bytes
  | c :: d :: rest, t :: texts =>
    if c = lbrace ∧ d = rbrace then t ++ replaceHoles rest texts
    else c :: replaceHoles (d :: rest) (t :: texts)
  | rest, _ => rest

theorem replaceHoles_append {s : Bytes} (hs : RawText s) (rest t : Bytes) (texts : List Bytes) :
    replaceHoles (s ++ (hole ++ rest)) (t :: texts) = s ++ (t ++ replaceHoles rest texts) := by
  induction s with
  | nil => simp [hole, replaceHoles]
  | cons c s ih =>
    have hc : IsRaw c := hs c List.mem_cons_self
    have hstep (u : Bytes) (hu : u ≠ []) :
        replaceHoles (c :: u) (t :: texts) = c :: replaceHoles u (t :: texts) := by
      cases u with
      | nil => exact absurd rfl hu
      | cons d u => simp [replaceHoles, hc.1]
    rw [List.cons_append, hstep _ (by simp [hole]), ih fun d hd => hs d (List.mem_cons_of_mem c hd)]
    rfl

/-- `FormatPieces` cuts where the holes are. -/
theorem formatPieces_joinHoles {segments texts : List Bytes}
    (hcount : segments.length = texts.length + 1) (hraw : ∀ s ∈ segments, RawText s) :
    formatPieces (joinHoles segments) texts = some (weave segments texts) ∧
      (weave segments texts).flatten = replaceHoles (joinHoles segments) texts := by
  induction texts generalizing segments with
  | nil =>
    obtain ⟨s, rfl⟩ := List.length_eq_one_iff.mp hcount
    refine ⟨rfl, ?_⟩
    rw [replaceHoles] <;> simp [weave, joinHoles]
  | cons t texts ih =>
    cases segments with
    | nil => cases hcount
    | cons s segments =>
      have hs : RawText s := hraw s List.mem_cons_self
      have hne : segments ≠ [] := by
        rintro rfl
        cases hcount
      obtain ⟨hpieces, htext⟩ := @ih segments (by simpa using hcount)
        fun u hu => hraw u (List.mem_cons_of_mem s hu)
      have hdrop : (s ++ (hole ++ joinHoles segments)).drop (s.length + 2) = joinHoles segments := by
        rw [← List.append_assoc]
        exact List.drop_left' (by simp [hole])
      rw [joinHoles_cons hne]
      constructor
      · simp only [formatPieces, findHole_append hs, hdrop, hpieces, Option.bind_eq_bind,
          Option.bind_some, List.take_left', Option.pure_def]
        rfl
      · rw [replaceHoles_append hs, ← htext]
        simp [weave]

theorem length_weave {segments texts : List Bytes} (hcount : segments.length = texts.length + 1) :
    (weave segments texts).length = 2 * texts.length + 1 := by
  induction texts generalizing segments with
  | nil =>
    obtain ⟨s, rfl⟩ := List.length_eq_one_iff.mp hcount
    rfl
  | cons t texts ih =>
    cases segments with
    | nil => cases hcount
    | cons s segments =>
      have hrest := @ih segments (by simpa using hcount)
      rw [weave, List.length_cons, List.length_cons, hrest, List.length_cons]
      omega

/-- **Format splitting agrees with the check.**  The constructor accepts a string for `n`
    arguments exactly when `n` holes cut it into texts without braces, and for every such string
    and any `n` texts `FormatPieces` finds all holes, and its `2 * n + 1` pieces together are the
    string with each hole replaced by its text. -/
theorem format_splitting (fmt : Bytes) (texts : List Bytes) :
    (scanHoles fmt = some texts.length ↔
      ∃ segments, segments.length = texts.length + 1 ∧ (∀ s ∈ segments, RawText s) ∧
        fmt = joinHoles segments) ∧
    (scanHoles fmt = some texts.length →
      ∃ pieces, formatPieces fmt texts = some pieces ∧ pieces.length = 2 * texts.length + 1 ∧
        pieces.flatten = replaceHoles fmt texts) := by
  refine ⟨scanHoles_eq_some, fun h => ?_⟩
  obtain ⟨segments, hcount, hraw, rfl⟩ := scanHoles_eq_some.mp h
  obtain ⟨hpieces, htext⟩ := formatPieces_joinHoles hcount hraw
  exact ⟨_, hpieces, length_weave hcount, htext⟩

/-- A text with `"{}"` in it is not read again. -/
theorem format_splitting_path : ∃ pieces,
    formatPieces (text "{}/{}") [text "d{}", text "x"] = some pieces ∧ pieces.length = 5 ∧
      pieces.flatten = text "d{}/x" := by
  obtain ⟨pieces, hpieces, hlength, htext⟩ :=
    (format_splitting (text "{}/{}") [text "d{}", text "x"]).2 (by decide)
  exact ⟨pieces, hpieces, hlength, htext.trans (by decide)⟩

end Remmy.Io
