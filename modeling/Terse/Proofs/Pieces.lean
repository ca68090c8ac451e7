import Terse.Files.Path

/-!
# The pieces of a path

How the text of a path and its pieces belong together: which pieces a joined
path has, which bytes are in them, and that the text made of a list of names has
these names for pieces. `moves` are the pieces that matter for where a path
leads; a path that is taken apart into its parts and put together again keeps
them.
-/

namespace Terse.Files

namespace Path

theorem split_ne_nil (p : Bytes) : split p ≠ [] := by
  cases p with
  | nil => simp [split]
  | cons b s =>
    rw [split]
    split
    · simp
    · split <;> simp

theorem split_cons (b : UInt8) {s piece : Bytes} {pieces : List Bytes}
    (h : split s = piece :: pieces) :
    split (b :: s) = if b == separator then [] :: piece :: pieces
      else (b :: piece) :: pieces := by
  rw [split, h]

theorem split_append_separator (p q : Bytes) :
    split (p ++ separator :: q) = split p ++ split q := by
  obtain ⟨piece, pieces, hq⟩ := List.exists_cons_of_ne_nil (split_ne_nil q)
  induction p with
  | nil => simp [split, hq]
  | cons b s ih =>
    obtain ⟨first, rest, hs⟩ := List.exists_cons_of_ne_nil (split_ne_nil s)
    have hsq : split (s ++ separator :: q) = first :: (rest ++ split q) := by
      rw [ih, hs]; rfl
    rw [List.cons_append, split_cons b hsq, split_cons b hs]
    split <;> rfl

theorem split_of_not_mem {name : Bytes} (h : separator ∉ name) :
    split name = [name] := by
  induction name with
  | nil => rfl
  | cons b s ih =>
    have hb : (b == separator) = false :=
      beq_eq_false_iff_ne.mpr (List.ne_of_not_mem_cons h).symm
    rw [split_cons b (ih (List.not_mem_of_not_mem_cons h)), hb]
    rfl

theorem mem_of_mem_split {p piece : Bytes} (h : piece ∈ split p) {b : UInt8}
    (hb : b ∈ piece) :
    b ∈ p ∧ b ≠ separator := by
  induction p generalizing piece with
  | nil =>
    obtain rfl : piece = [] := by simpa [split] using h
    simp at hb
  | cons a s ih =>
    obtain ⟨first, rest, hs⟩ := List.exists_cons_of_ne_nil (split_ne_nil s)
    rw [split_cons a hs] at h
    split at h
    · rcases List.mem_cons.mp h with rfl | h
      · simp at hb
      · obtain ⟨hmem, hne⟩ := ih (hs ▸ h) hb
        exact ⟨List.mem_cons_of_mem a hmem, hne⟩
    · next ha =>
      rcases List.mem_cons.mp h with rfl | h
      · rcases List.mem_cons.mp hb with rfl | hb
        · exact ⟨List.mem_cons_self, fun e => ha (beq_iff_eq.mpr e)⟩
        · obtain ⟨hmem, hne⟩ := ih (hs ▸ List.mem_cons_self) hb
          exact ⟨List.mem_cons_of_mem a hmem, hne⟩
      · obtain ⟨hmem, hne⟩ := ih (hs ▸ List.mem_cons_of_mem first h) hb
        exact ⟨List.mem_cons_of_mem a hmem, hne⟩

theorem intercalate_cons_cons (c d : Bytes) (names : List Bytes) :
    [separator].intercalate (c :: d :: names) = c ++ separator ::
      [separator].intercalate (d :: names) := by
  simp [List.intercalate]

theorem split_intercalate {names : List Bytes} (hne : names ≠ [])
    (h : ∀ c ∈ names, separator ∉ c) :
    split ([separator].intercalate names) = names := by
  induction names with
  | nil => exact absurd rfl hne
  | cons c names ih =>
    obtain ⟨hc, hnames⟩ := List.forall_mem_cons.mp h
    cases names with
    | nil => simpa [List.intercalate] using split_of_not_mem hc
    | cons c' names =>
      rw [intercalate_cons_cons, split_append_separator, split_of_not_mem hc,
        ih (by simp) hnames]
      rfl

/-- A name that can stand for something in a directory. -/
structure IsName (name : Bytes) : Prop where
  ne_nil : name ≠ []
  ne_here : name ≠ here
  ne_above : name ≠ above
  separator_notMem : separator ∉ name
  zero_notMem : (0 : UInt8) ∉ name

theorem IsName.not_isAbsolute {name : Bytes} (h : IsName name) :
    isAbsolute name = false := by
  rcases hn : name with _ | ⟨b, s⟩
  · rfl
  · have hb : b ≠ separator := by
      rintro rfl
      exact h.separator_notMem (hn ▸ List.mem_cons_self)
    simpa [isAbsolute] using hb

/-- The pieces that lead away from where they are met: empty ones and single
dots do not. -/
def moves (pieces : List Bytes) : List Bytes :=
  pieces.filter fun c => !c.isEmpty && c != here

theorem moves_append (cs ds : List Bytes) :
    moves (cs ++ ds) = moves cs ++ moves ds :=
  List.filter_append ..

theorem moves_moves (cs : List Bytes) : moves (moves cs) = moves cs := by
  simp [moves]

variable {p name : Bytes}

theorem join_ne_nil (p : Bytes) (hname : IsName name) : join p name ≠ [] := by
  rw [join, hname.not_isAbsolute]
  split
  · simp at *
  · split
    · exact hname.ne_nil
    · split
      · simp [hname.ne_nil]
      · simp

theorem mem_of_mem_join {b : UInt8} (h : b ∈ join p name) :
    b ∈ p ∨ b = separator ∨ b ∈ name := by
  rw [join] at h
  split at h
  · exact .inr (.inr h)
  · split at h
    · exact .inr (.inr h)
    · split at h
      · rcases List.mem_append.mp h with h | h
        · exact .inl h
        · exact .inr (.inr h)
      · rcases List.mem_append.mp h with h | h
        · exact .inl h
        · exact .inr (List.mem_cons.mp h)

/-- The pieces of a path up to the last that is not empty. -/
def solid (p : Bytes) : List Bytes :=
  ((split p).reverse.dropWhile List.isEmpty).reverse

theorem exists_split_eq_solid_append (p : Bytes) :
    ∃ es, split p = solid p ++ es ∧ ∀ c ∈ es, List.isEmpty c = true := by
  refine ⟨((split p).reverse.takeWhile List.isEmpty).reverse, ?_, ?_⟩
  · rw [solid, ← List.reverse_append, List.takeWhile_append_dropWhile,
      List.reverse_reverse]
  · intro c hc
    exact List.all_eq_true.mp List.all_takeWhile c (List.mem_reverse.mp hc)

theorem isEmpty_of_solid_eq_concat {front : List Bytes} {c : Bytes}
    (h : solid p = front ++ [c]) :
    c.isEmpty = false := by
  have hrev : (split p).reverse.dropWhile List.isEmpty = c ::
      front.reverse := by
    rw [← List.reverse_reverse (List.dropWhile _ _), ← solid, h,
      List.reverse_append]
    rfl
  have hhead := List.head?_dropWhile_not List.isEmpty (split p).reverse
  rw [hrev] at hhead
  simpa using hhead

theorem exists_parts_eq_concat {cs : List Bytes} (hname : IsName name)
    (hsplit : split p = cs ++ [name]) :
    ∃ front, parts p = front ++ [name] ∧ moves front = moves cs ∧
      (∀ c ∈ front, c ∈ split p ∧ c ≠ []) := by
  have hmove : (!name.isEmpty && name != here) = true := by
    simp [hname.ne_nil, hname.ne_here]
  cases cs with
  | nil =>
    refine ⟨[], ?_, rfl, by simp⟩
    simp [parts, hsplit, hname.ne_nil]
  | cons c cs =>
    refine ⟨(if c.isEmpty then [] else [c]) ++ moves cs, ?_, ?_, ?_⟩
    · simp [parts, hsplit, moves, hmove]
    · cases hc : c.isEmpty with
      | true =>
        rw [List.isEmpty_iff.mp hc]
        exact moves_moves cs
      | false =>
        rw [show c :: cs = [c] ++ cs from rfl, moves_append, moves_append,
          moves_moves]
        rfl
    · intro d hd
      rw [hsplit]
      rcases List.mem_append.mp hd with hd | hd
      · split at hd
        · cases hd
        · next hc =>
          obtain rfl := List.mem_singleton.mp hd
          exact ⟨by simp, by simpa using hc⟩
      · obtain ⟨hmem, hkeep⟩ := List.mem_filter.mp hd
        exact ⟨by simp [hmem], by simpa using (Bool.and_eq_true_iff.mp hkeep).1⟩

theorem moves_split_ofParts (absolute : Bool) {names : List Bytes}
    (h : ∀ c ∈ names, separator ∉ c) :
    moves (split (ofParts absolute names)) = moves names := by
  cases names with
  | nil => cases absolute <;> rfl
  | cons c names =>
    have hsplit := split_intercalate (List.cons_ne_nil c names) h
    cases absolute with
    | false => exact congrArg moves hsplit
    | true =>
      have htext : ofParts true (c :: names) =
          [] ++ separator :: [separator].intercalate (c :: names) := rfl
      rw [htext, split_append_separator, hsplit]
      rfl

theorem isAbsolute_ofParts (absolute : Bool) {names : List Bytes}
    (h : ∀ c ∈ names, c ≠ [] ∧ separator ∉ c) :
    isAbsolute (ofParts absolute names) = absolute := by
  cases absolute with
  | true => rfl
  | false =>
    rcases names with _ | ⟨c, names⟩
    · rfl
    · obtain ⟨hne, hsep⟩ := h c List.mem_cons_self
      obtain ⟨b, s, rfl⟩ := List.exists_cons_of_ne_nil hne
      have hb : b ≠ separator := by
        rintro rfl
        exact hsep List.mem_cons_self
      cases names <;> simpa [ofParts, isAbsolute, List.intercalate] using hb

theorem mem_of_mem_intercalate {names : List Bytes} {b : UInt8}
    (h : b ∈ [separator].intercalate names) :
    b = separator ∨ ∃ c ∈ names, b ∈ c := by
  induction names with
  | nil => cases h
  | cons c names ih =>
    cases names with
    | nil =>
      exact .inr ⟨c, List.mem_singleton_self c,
        by simpa [List.intercalate] using h⟩
    | cons d names =>
      rw [intercalate_cons_cons] at h
      rcases List.mem_append.mp h with h | h
      · exact .inr ⟨c, List.mem_cons_self, h⟩
      · rcases List.mem_cons.mp h with h | h
        · exact .inl h
        · rcases ih h with h | ⟨e, he, h⟩
          · exact .inl h
          · exact .inr ⟨e, List.mem_cons_of_mem c he, h⟩

theorem mem_of_mem_ofParts {absolute : Bool} {names : List Bytes} {b : UInt8}
    (h : b ∈ ofParts absolute names) : b = separator ∨ ∃ c ∈ names, b ∈ c := by
  rcases List.mem_append.mp h with h | h
  · cases absolute with
    | true => exact .inl (List.mem_singleton.mp h)
    | false => cases h
  · exact mem_of_mem_intercalate h

end Path

end Terse.Files
