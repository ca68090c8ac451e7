import Mathlib.Data.List.DropRight
import Terse.Proofs.StoredNames
import Terse.Report.Summary

/-!
# Reading a printed listing

What a listing shows is what a reader finds in the printed text. The reader
takes it line by line, looks at what stands between the bars of each line, and
drops the blanks around it. `Report.shown k text` is what is found on the lines
that start with the key `k`: the two lengths.

A listing of entries whose keys are spelled as digests shows for each key just
the entries with that key, one line for each (`shown_listing`). When an entry
was made is text of any kind, bars and line feeds included, but it stands in the
last column, so it has no influence on what is read before it.
-/

namespace Terse.Report

/-! ### The reader -/

def isBar (c : Char) : Bool := c == '│' || c == '┆'

def trim (s : List Char) : List Char :=
  (s.dropWhile (· == ' ')).rdropWhile (· == ' ')

def columns (line : List Char) : List (List Char) :=
  (line.splitOnP isBar).map trim

/-- The two lengths on a line that starts with the key. -/
def shownBy (k : Store.Key) (line : List Char) :
    Option (List Char × List Char) :=
  match columns line with
  | _ :: key :: source :: output :: _ =>
    if key = k.text.toList then some (source, output) else none
  | _ => none

/-- The two lengths on each of the lines that start with the key. -/
def shown (k : Store.Key) (text : String) : List (List Char × List Char) :=
  (text.toList.splitOn '\n').filterMap (shownBy k)

/-! ### Lines -/

theorem not_mem_of_mem_splitOn {c : Char} {s piece : List Char}
    (h : piece ∈ s.splitOn c) : c ∉ piece := by
  induction s generalizing piece with
  | nil =>
    rw [List.splitOn_nil, List.mem_singleton] at h
    simp [h]
  | cons a s ih =>
    obtain ⟨first, rest, hs⟩ := List.exists_cons_of_ne_nil
      (List.splitOn_ne_nil c s)
    rw [hs] at ih
    rw [List.splitOn_cons_eq_if_modifyHead, hs] at h
    split at h
    · rcases List.mem_cons.mp h with rfl | h
      · simp
      · exact ih h
    · next hne =>
      rw [List.modifyHead_cons] at h
      rcases List.mem_cons.mp h with rfl | h
      · have hac : c ≠ a := by rintro rfl; simp at hne
        simp [hac, ih List.mem_cons_self]
      · exact ih (List.mem_cons_of_mem _ h)

/-- Lines that are written out one by one are read as they are. Nothing comes
after the last line feed. -/
theorem splitOn_flatMap_lines {ls : List (List Char)}
    (h : ∀ l ∈ ls, '\n' ∉ l) :
    (ls.flatMap (· ++ ['\n'])).splitOn '\n' = ls ++ [[]] := by
  induction ls with
  | nil => rfl
  | cons l ls ih =>
    rw [List.flatMap_cons, List.append_assoc, List.singleton_append,
      List.splitOn_append_cons_self_of_not_mem (h l List.mem_cons_self),
      ih fun l' hl' => h l' (List.mem_cons_of_mem _ hl'), List.cons_append]

theorem forall_mem_intercalate {α : Type} {p : α → Prop} {sep : List α}
    {ls : List (List α)} (hsep : ∀ a ∈ sep, p a)
    (hls : ∀ l ∈ ls, ∀ a ∈ l, p a) : ∀ a ∈ sep.intercalate ls, p a := by
  induction ls with
  | nil => simp
  | cons l ls ih =>
    obtain ⟨hl, hls⟩ := List.forall_mem_cons.mp hls
    cases ls with
    | nil => simpa using hl
    | cons l' ls =>
      rw [List.intercalate_cons_cons]
      intro a ha
      rcases List.mem_append.mp ha with ha | ha
      · rcases List.mem_append.mp ha with ha | ha
        · exact hl a ha
        · exact hsep a ha
      · exact ih hls a ha

theorem filterMap_intercalate {α β : Type} {f : α → Option β} {sep : List α}
    (hsep : sep.filterMap f = []) (ls : List (List α)) :
    (sep.intercalate ls).filterMap f = ls.flatMap (List.filterMap f) := by
  induction ls with
  | nil => rfl
  | cons l ls ih =>
    cases ls with
    | nil => simp
    | cons l' ls =>
      rw [List.intercalate_cons_cons, List.filterMap_append,
        List.filterMap_append, hsep, ih, List.append_nil]
      rfl

theorem flatMap_ite {α β : Type} (p : α → Prop) [DecidablePred p] (f : α → β)
    (as : List α) :
    as.flatMap (fun a => if p a then [f a] else []) = (as.filter p).map f := by
  induction as with
  | nil => rfl
  | cons a as ih =>
    rw [List.flatMap_cons, ih]
    by_cases ha : p a <;> simp [ha]

/-! ### Columns -/

theorem trim_replicate_append {s : List Char} (h : ∀ c ∈ s, c ≠ ' ')
    (m n : Nat) :
    trim (List.replicate m ' ' ++ s ++ List.replicate n ' ') = s := by
  cases s with
  | nil => simp [trim]
  | cons a s =>
    have ha : (a == ' ') = false := by simpa using h a List.mem_cons_self
    have hstart : (List.replicate m ' ' ++ a :: s ++
        List.replicate n ' ').dropWhile (· == ' ') =
          a :: s ++ List.replicate n ' ' := by
      rw [List.append_assoc, List.dropWhile_append_of_pos (by simp),
        List.cons_append, List.dropWhile_cons_of_neg (by simp [ha])]
    have hlast : ((a :: s).reverse).dropWhile (· == ' ') =
        (a :: s).reverse := by
      refine List.dropWhile_eq_self_iff.mpr fun hne => ?_
      simpa using h _ (List.mem_reverse.mp (List.getElem_mem hne))
    rw [trim, hstart, List.rdropWhile, List.reverse_append,
      List.reverse_replicate, List.dropWhile_append_of_pos (by simp), hlast,
      List.reverse_reverse]

theorem exists_line_eq (c : Cell) (w i : Nat) :
    ∃ m n, c.line w i =
      List.replicate m ' ' ++ c.lines.getD i [] ++ List.replicate n ' ' := by
  obtain ⟨lines, alignment⟩ := c
  let k := w - Text.CellWidth.ofText (lines.getD i [])
  cases alignment with
  | left =>
    refine ⟨1, k + 1, ?_⟩
    simp [Cell.line, k, List.replicate_succ']
  | right =>
    refine ⟨k + 1, 1, ?_⟩
    simp [Cell.line, k, List.replicate_succ]

theorem mem_line {c : Cell} {w i : Nat} {a : Char} (h : a ∈ c.line w i) :
    a = ' ' ∨ a ∈ c.lines.getD i [] := by
  obtain ⟨m, n, hline⟩ := exists_line_eq c w i
  simp only [hline, List.mem_append, List.mem_replicate] at h
  tauto

theorem trim_line {c : Cell} {i : Nat} (h : ∀ a ∈ c.lines.getD i [], a ≠ ' ')
    (w : Nat) : trim (c.line w i) = c.lines.getD i [] := by
  obtain ⟨m, n, hline⟩ := exists_line_eq c w i
  rw [hline, trim_replicate_append h]

theorem columns_append {s : List Char} (h : ∀ c ∈ s, isBar c = false)
    {bar : Char} (hbar : isBar bar = true) (rest : List Char) :
    columns (s ++ bar :: rest) = trim s :: columns rest := by
  rw [columns, List.splitOnP_append_cons_of_forall_mem h bar hbar]
  rfl

theorem shownBy_line {k : Store.Key} {c₁ c₂ c₃ : List Char}
    (h₁ : ∀ c ∈ c₁, isBar c = false) (h₂ : ∀ c ∈ c₂, isBar c = false)
    (h₃ : ∀ c ∈ c₃, isBar c = false) (c₄ : List Char) :
    shownBy k ('│' :: ['┆'].intercalate [c₁, c₂, c₃, c₄] ++ ['│']) =
      if trim c₁ = k.text.toList then some (trim c₂, trim c₃) else none := by
  have hline : '│' :: ['┆'].intercalate [c₁, c₂, c₃, c₄] ++ ['│'] =
      [] ++ '│' ::
        (c₁ ++ '┆' :: (c₂ ++ '┆' :: (c₃ ++ '┆' :: (c₄ ++ ['│'])))) := by
    simp [List.intercalate_cons_cons]
  rw [shownBy, hline, columns_append (by simp) rfl, columns_append h₁ rfl,
    columns_append h₂ rfl, columns_append h₃ rfl]

theorem shownBy_eq_none {k : Store.Key} {line : List Char}
    (h : ∀ c ∈ line, isBar c = false) : shownBy k line = none := by
  rw [shownBy, columns, List.splitOnP_eq_singleton h]
  rfl

/-! ### Rules and rows -/

theorem mem_rule {ws : List Nat} {start stroke cross stop c : Char}
    (h : c ∈ Table.rule ws start stroke cross stop) :
    c ∈ [start, stroke, cross, stop] := by
  have hinner : ∀ a ∈ [cross].intercalate
      (ws.map fun w => List.replicate (w + 2) stroke),
        a ∈ [start, stroke, cross, stop] :=
    forall_mem_intercalate (by simp) (by simp)
  rw [Table.rule] at h
  rcases List.mem_append.mp h with h | h
  · rcases List.mem_cons.mp h with rfl | h
    · simp
    · exact hinner c h
  · simp [List.mem_singleton.mp h]

def marks : List Char := ['│', '┆', ' ', '\n']

/-- The text of the cell is on one line, and there are no marks in it. -/
structure IsPlain (c : Cell) (text : List Char) : Prop where
  lines_eq : c.lines = [text]
  not_mem_marks : ∀ a ∈ text, a ∉ marks

theorem isBar_line {c : Cell} {text : List Char} (hc : c.lines = [text])
    (h : text.any isBar = false) (w i : Nat) :
    ∀ a ∈ c.line w i, isBar a = false := by
  intro a ha
  rcases mem_line ha with rfl | ha
  · rfl
  · rw [hc] at ha
    cases i with
    | zero => exact Bool.eq_false_iff.mpr (List.any_eq_false.mp h a ha)
    | succ i => simp at ha

theorem isPlain_of_lines {c : Cell} {text : List Char}
    (hc : c.lines = text.splitOn '\n') (h : ∀ a ∈ text, a ∉ marks) :
    IsPlain c text where
  lines_eq := by
    rw [hc, List.splitOn_eq_singleton]
    exact fun hbreak => h _ hbreak (by decide)
  not_mem_marks := h

namespace IsPlain

variable {c : Cell} {text : List Char} (h : IsPlain c text)

include h

theorem isBar_line (w i : Nat) : ∀ a ∈ c.line w i, isBar a = false := by
  refine Report.isBar_line h.lines_eq (List.any_eq_false.mpr fun a ha => ?_) w i
  have hmark := h.not_mem_marks a ha
  simp only [marks, List.mem_cons, not_or] at hmark
  simp [isBar, hmark]

theorem trim_line_zero (w : Nat) : trim (c.line w 0) = text := by
  have htext : c.lines.getD 0 [] = text := by rw [h.lines_eq]; rfl
  have hblank : ∀ a ∈ text, a ≠ ' ' := by
    rintro a ha rfl
    exact h.not_mem_marks _ ha (by decide)
  rw [trim_line (htext ▸ hblank), htext]

theorem trim_line_succ (w i : Nat) : trim (c.line w (i + 1)) = [] := by
  have htext : c.lines.getD (i + 1) [] = [] := by rw [h.lines_eq]; rfl
  rw [trim_line (by rw [htext]; simp), htext]

end IsPlain

/-- Of a row that starts with a plain cell, it is the first line that shows
something. -/
theorem filterMap_rowLines {k : Store.Key} {c₁ c₂ c₃ : Cell}
    {text : List Char} {w₂ w₃ : Nat} (h₁ : IsPlain c₁ text)
    (h₂ : ∀ i, ∀ a ∈ c₂.line w₂ i, isBar a = false)
    (h₃ : ∀ i, ∀ a ∈ c₃.line w₃ i, isBar a = false)
    (hk : k.text.toList ≠ []) (c₄ : Cell) (w₁ w₄ : Nat) :
    (Table.rowLines [w₁, w₂, w₃, w₄] [c₁, c₂, c₃, c₄]).filterMap (shownBy k) =
      if text = k.text.toList then
        [(trim (c₂.line w₂ 0), trim (c₃.line w₃ 0))]
      else [] := by
  let line (i : Nat) : List Char := '│' :: ['┆'].intercalate
    ([w₁, w₂, w₃, w₄].zipWith (fun w c => c.line w i) [c₁, c₂, c₃, c₄]) ++ ['│']
  obtain ⟨n, hheight⟩ : ∃ n,
      ([c₁, c₂, c₃, c₄].map (·.lines.length)).foldl max 0 = n + 1 := by
    refine Nat.exists_eq_add_one.mpr ?_
    simp only [List.map_cons, List.map_nil, List.foldl_cons, List.foldl_nil,
      h₁.lines_eq, List.length_singleton]
    omega
  have hrow : Table.rowLines [w₁, w₂, w₃, w₄] [c₁, c₂, c₃, c₄] =
      line 0 :: (List.range n).map fun i => line (i + 1) := by
    rw [Table.rowLines, hheight, List.range_succ_eq_map, List.map_cons,
      List.map_map]
    rfl
  have hline : ∀ i, shownBy k (line i) =
      if trim (c₁.line w₁ i) = k.text.toList then
        some (trim (c₂.line w₂ i), trim (c₃.line w₃ i))
      else none :=
    fun i => shownBy_line (h₁.isBar_line w₁ i) (h₂ i) (h₃ i) _
  have hlater : ((List.range n).map fun i => line (i + 1)).filterMap
      (shownBy k) = [] := by
    rw [List.filterMap_map, List.filterMap_eq_nil_iff]
    intro i _
    rw [Function.comp_apply, hline, h₁.trim_line_succ, if_neg hk.symm]
  rw [hrow, List.filterMap_cons, hlater, hline, h₁.trim_line_zero]
  by_cases htext : text = k.text.toList
  · rw [if_pos htext, if_pos htext]
  · rw [if_neg htext, if_neg htext]

theorem not_mem_rowLines {ws : List Nat} {row : List Cell}
    (h : ∀ c ∈ row, ∀ l ∈ c.lines, '\n' ∉ l) :
    ∀ l ∈ Table.rowLines ws row, '\n' ∉ l := by
  intro l hl
  obtain ⟨i, -, rfl⟩ := List.mem_map.mp hl
  have hcells : ∀ s ∈ ws.zipWith (fun w c => c.line w i) row,
      ∀ a ∈ s, a ≠ '\n' := by
    rw [← List.map_uncurry_zip_eq_zipWith]
    rintro s hs a ha rfl
    obtain ⟨⟨w, c⟩, hc, rfl⟩ := List.mem_map.mp hs
    have hc := (List.of_mem_zip hc).2
    rcases mem_line ha with hblank | ha
    · revert hblank
      decide
    · rw [List.getD_eq_getElem?_getD] at ha
      cases hline : c.lines[i]? with
      | none =>
        rw [hline] at ha
        cases ha
      | some l =>
        rw [hline] at ha
        exact h c hc l (List.mem_of_getElem? hline) ha
  have hinner : ∀ a ∈ ['┆'].intercalate
      (ws.zipWith (fun w c => c.line w i) row), a ≠ '\n' :=
    forall_mem_intercalate (by simp) hcells
  intro hbreak
  rcases List.mem_append.mp hbreak with hbreak | hbreak
  · rcases List.mem_cons.mp hbreak with hbreak | hbreak
    · revert hbreak
      decide
    · exact hinner _ hbreak rfl
  · revert hbreak
    decide

/-! ### The listing -/

theorem not_mem_marks_of_digest {k : Store.Key} (hk : k.IsDigest) :
    ∀ a ∈ k.text.toList, a ∉ marks := by
  intro a ha hmark
  have hother : marks.any (fun a =>
      (String.utf8EncodeChar a).all Store.isHexDigit) = false := by decide
  have hall : (String.utf8EncodeChar a).all Store.isHexDigit = true :=
    List.all_eq_true.mpr fun b hb =>
      hk.isHexDigit b (List.mem_flatMap.mpr ⟨a, ha, hb⟩)
  exact List.any_eq_false.mp hother a hmark hall

theorem not_mem_marks_of_decimal (n : Nat) :
    ∀ a ∈ (toString n).toList, a ∉ marks := by
  intro a ha hmark
  have hother : marks.any Char.isDigit = false := by decide
  rw [Nat.toString_eq_repr, Nat.toList_repr] at ha
  have hdigit := Nat.isDigit_of_mem_toDigits (by decide) (by decide) ha
  exact List.any_eq_false.mp hother a hmark hdigit

theorem exists_widths_listing (es : List Store.Entry) :
    ∃ w₁ w₂ w₃ w₄, (listing es).widths = [w₁, w₂, w₃, w₄] := by
  have hfold : ∀ v₁ v₂ v₃ v₄, ∃ w₁ w₂ w₃ w₄, (listing es).rows.foldl
      (fun ws row => ws.zipWith max (row.map Cell.width)) [v₁, v₂, v₃, v₄] =
        [w₁, w₂, w₃, w₄] := by
    induction es with
    | nil => exact fun v₁ v₂ v₃ v₄ => ⟨v₁, v₂, v₃, v₄, rfl⟩
    | cons e es ih => exact fun v₁ v₂ v₃ v₄ => ih _ _ _ _
  exact hfold _ _ _ _

theorem splitOn_render {t : Table}
    (h : ∀ row ∈ t.headerCells :: t.rows, ∀ c ∈ row, ∀ l ∈ c.lines, '\n' ∉ l) :
    t.render.toList.splitOn '\n' = t.lines ++ [[]] := by
  obtain ⟨hheader, hrows⟩ := List.forall_mem_cons.mp h
  have hrule : ∀ {ws start stroke cross stop},
      '\n' ∉ [start, stroke, cross, stop] →
        ∀ l ∈ [Table.rule ws start stroke cross stop], '\n' ∉ l :=
    fun hne l hl => List.mem_singleton.mp hl ▸ fun hbreak =>
      hne (mem_rule hbreak)
  rw [Table.render, String.toList_ofList, splitOn_flatMap_lines]
  simp only [Table.lines, List.forall_mem_append]
  refine ⟨⟨⟨⟨hrule (by decide), not_mem_rowLines hheader⟩, hrule (by decide)⟩,
    forall_mem_intercalate (hrule (by decide)) ?_⟩, hrule (by decide)⟩
  intro ls hls
  obtain ⟨row, hrow, rfl⟩ := List.mem_map.mp hls
  exact not_mem_rowLines (hrows row hrow)

theorem not_mem_lines_listing (es : List Store.Entry) :
    ∀ row ∈ (listing es).headerCells :: (listing es).rows, ∀ c ∈ row,
      ∀ l ∈ c.lines, '\n' ∉ l := by
  intro row hrow c hc l hl
  rcases List.mem_cons.mp hrow with rfl | hrow
  · obtain ⟨s, -, rfl⟩ := List.mem_map.mp hc
    exact not_mem_of_mem_splitOn hl
  · obtain ⟨e, -, rfl⟩ := List.mem_map.mp hrow
    simp only [List.mem_cons, List.not_mem_nil, or_false] at hc
    rcases hc with rfl | rfl | rfl | rfl <;> exact not_mem_of_mem_splitOn hl

theorem ne_text_of_digest {k : Store.Key} (hk : k.IsDigest) {s : List Char}
    (hs : (s.flatMap String.utf8EncodeChar).length ≠ 64) :
    s ≠ k.text.toList := by
  rintro rfl
  exact hs hk.length_bytes

theorem filterMap_rule (k : Store.Key) {ws : List Nat}
    {start stroke cross stop : Char}
    (h : [start, stroke, cross, stop].any isBar = false) :
    [Table.rule ws start stroke cross stop].filterMap (shownBy k) = [] := by
  rw [List.filterMap_cons, shownBy_eq_none fun c hc =>
    Bool.eq_false_iff.mpr (List.any_eq_false.mp h c (mem_rule hc))]
  rfl

section

variable {k : Store.Key} (hk : k.IsDigest) (w₁ w₂ w₃ w₄ : Nat)

include hk

theorem filterMap_header (es : List Store.Entry) :
    (Table.rowLines [w₁, w₂, w₃, w₄] (listing es).headerCells).filterMap
      (shownBy k) = [] := by
  have hkey : IsPlain (.left "Key") "Key".toList :=
    isPlain_of_lines rfl (by simp [marks])
  have hsource : (Cell.left "Source bytes").lines =
      ["Source bytes".toList] := by decide
  have houtput : (Cell.left "Minified bytes").lines =
      ["Minified bytes".toList] := by decide
  rw [listing, Table.headerCells]
  simp only [List.map_cons, List.map_nil]
  rw [filterMap_rowLines hkey (isBar_line hsource (by decide) w₂)
    (isBar_line houtput (by decide) w₃)
    (ne_text_of_digest hk (by decide)).symm,
    if_neg (ne_text_of_digest hk (by decide))]

theorem filterMap_entry {e : Store.Entry} (he : e.key.IsDigest) :
    (Table.rowLines [w₁, w₂, w₃, w₄]
      [.left e.key.text, .right (toString e.sourceLength),
        .right (toString e.outputLength), .left e.createdAt]).filterMap
        (shownBy k) =
      if e.key = k then
        [((toString e.sourceLength).toList, (toString e.outputLength).toList)]
      else [] := by
  have hsource : IsPlain (.right (toString e.sourceLength)) _ :=
    isPlain_of_lines rfl (not_mem_marks_of_decimal e.sourceLength)
  have houtput : IsPlain (.right (toString e.outputLength)) _ :=
    isPlain_of_lines rfl (not_mem_marks_of_decimal e.outputLength)
  have hkey : e.key.text.toList = k.text.toList ↔ e.key = k :=
    ⟨fun h => congrArg Store.Key.mk (String.toList_inj.mp h), fun h => h ▸ rfl⟩
  rw [filterMap_rowLines (isPlain_of_lines rfl (not_mem_marks_of_digest he))
    (hsource.isBar_line w₂) (houtput.isBar_line w₃)
    (ne_text_of_digest hk (by decide)).symm,
    hsource.trim_line_zero, houtput.trim_line_zero]
  simp only [hkey]

theorem shown_listing {es : List Store.Entry}
    (hes : ∀ e ∈ es, e.key.IsDigest) :
    shown k (listing es).render = (es.filter (·.key = k)).map fun e =>
      ((toString e.sourceLength).toList, (toString e.outputLength).toList) := by
  obtain ⟨w₁, w₂, w₃, w₄, hwidths⟩ := exists_widths_listing es
  have hlast : [[]].filterMap (shownBy k) = [] := by
    rw [List.filterMap_cons, shownBy_eq_none (by simp)]
    rfl
  rw [shown, splitOn_render (not_mem_lines_listing es), Table.lines, hwidths]
  simp only [List.filterMap_append]
  rw [filterMap_rule k (by decide), filterMap_rule k (by decide),
    filterMap_rule k (by decide), filterMap_header hk,
    filterMap_intercalate (filterMap_rule k (by decide)), hlast]
  simp only [List.nil_append, List.append_nil, listing, List.flatMap_map]
  rw [List.flatMap_congr fun e he => filterMap_entry hk w₁ w₂ w₃ w₄ (hes e he),
    flatMap_ite]

end

end Terse.Report
