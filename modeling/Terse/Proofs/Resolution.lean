import Terse.Files.Disk
import Terse.Proofs.Pieces

/-!
# Where paths lead

A path is text and a place is a list of names. This file connects the two for
the paths that a store makes out of the path of its directory: a name joined to
it, and a last name replaced. The directory's own path may be anything: relative
or absolute, with repeated separators, dots and steps upwards, or empty for the
working directory. What the operations need to know of a joined path is that all
but its last piece leads to the directory and that the last piece is the name
(`exists_split_join`); the other lemmas follow from that.
-/

namespace Terse.Files

/-! ### Following pieces -/

namespace Tree

open Files.Path

variable {t t' : Tree} {p name : Bytes} {place q : Place} {cs ds : List Bytes}

theorem follow_append (t : Tree) (place : Place) (cs ds : List Bytes) :
    t.follow place (cs ++ ds) = (t.follow place cs).bind fun q =>
      t.follow q ds := by
  induction cs generalizing place with
  | nil => rfl
  | cons c cs ih =>
    rw [List.cons_append, follow, follow]
    split
    · rfl
    · split
      · exact ih place
      · split
        · exact ih place.dropLast
        · exact ih (place ++ [c])
    · rfl

theorem follow_append_of_eq_ok (h : t.follow place cs = .ok q) :
    t.follow place (cs ++ ds) = t.follow q ds := by
  rw [follow_append, h]
  rfl

theorem exists_follow_of_append {r : Place}
    (h : t.follow place (cs ++ ds) = .ok r) :
    ∃ q, t.follow place cs = .ok q ∧ t.follow q ds = .ok r := by
  rw [follow_append] at h
  cases hq : t.follow place cs with
  | error c => rw [hq] at h; cases h
  | ok q => exact ⟨q, rfl, by rw [hq] at h; exact h⟩

theorem node?_of_follow_cons {c : Bytes}
    (h : t.follow place (c :: cs) = .ok q) :
    t.node? place = some .directory := by
  rw [follow] at h
  split at h
  · cases h
  · assumption
  · cases h

theorem follow_cons_of_stay {c : Bytes} (hd : t.node? place = some .directory)
    (hc : (c.isEmpty || c == here) = true) :
    t.follow place (c :: cs) = t.follow place cs := by
  rw [follow, hd]
  simp only [hc, if_true]

theorem follow_name (hname : IsName name)
    (hd : t.node? place = some .directory) :
    t.follow place [name] = .ok (place ++ [name]) := by
  have hhere : (name == here) = false := beq_eq_false_iff_ne.mpr hname.ne_here
  have habove : (name == above) = false :=
    beq_eq_false_iff_ne.mpr hname.ne_above
  simp [follow, hd, hname.ne_nil, hhere, habove]

theorem node?_start_of_follow (h : t.follow place cs = .ok q)
    (hq : t.node? q = some .directory) :
    t.node? place = some .directory := by
  cases cs with
  | nil =>
    cases h
    exact hq
  | cons c cs => exact node?_of_follow_cons h

/-- Pieces that do not move can be left out, or put in where they are met in a
directory. -/
theorem follow_moves_iff (hq : t.node? q = some .directory) :
    t.follow place (moves cs) = .ok q ↔ t.follow place cs = .ok q := by
  induction cs generalizing place with
  | nil => exact Iff.rfl
  | cons c cs ih =>
    cases hc : c.isEmpty || c == here with
    | true =>
      have hm : moves (c :: cs) = moves cs := by
        rw [moves, List.filter_cons_of_neg]
        · rfl
        · simpa [Decidable.or_iff_not_imp_left] using hc
      rw [hm, ih]
      constructor
      · intro h
        rw [follow_cons_of_stay (node?_start_of_follow h hq) hc]
        exact h
      · intro h
        rw [follow_cons_of_stay (node?_of_follow_cons h) hc] at h
        exact h
    | false =>
      have hm : moves (c :: cs) = c :: moves cs := by
        rw [moves, List.filter_cons_of_pos]
        · rfl
        · simpa using hc
      rw [hm, follow, follow]
      simp only [hc]
      split
      · exact Iff.rfl
      · simp only [Bool.false_eq_true, if_false]
        split
        · exact ih
        · exact ih
      · exact Iff.rfl

/-- Nothing that was a directory has stopped being one. -/
structure Keeps (t t' : Tree) : Prop where
  cwd_eq : t'.cwd = t.cwd
  directory : ∀ {q : Place}, t.node? q = some .directory →
    t'.node? q = some .directory

theorem Keeps.trans {t'' : Tree} (h : t.Keeps t') (h' : t'.Keeps t'') :
    t.Keeps t'' where
  cwd_eq := h'.cwd_eq.trans h.cwd_eq
  directory hq := h'.directory (h.directory hq)

theorem Keeps.follow (hk : t.Keeps t') (h : t.follow place cs = .ok q) :
    t'.follow place cs = .ok q := by
  induction cs generalizing place with
  | nil => exact h
  | cons c cs ih =>
    have hd := node?_of_follow_cons h
    rw [Tree.follow, hd] at h
    rw [Tree.follow, hk.directory hd]
    dsimp only at h ⊢
    split at h <;> rename_i hc
    · rw [if_pos hc]
      exact ih h
    · rw [if_neg hc]
      split at h <;> rename_i hu
      · rw [if_pos hu]
        exact ih h
      · rw [if_neg hu]
        exact ih h

/-! ### Where a path leads -/

/-- The path `p` leads to `place`, where something may or may not be. The empty
path leads to the working place, although no operation takes it. -/
structure Leads (t : Tree) (p : Bytes) (place : Place) : Prop where
  zero_notMem : (0 : UInt8) ∉ p
  follow_eq : t.follow (t.start p) (split p) = .ok place

theorem Keeps.leads (hk : t.Keeps t') (h : t.Leads p place) :
    t'.Leads p place where
  zero_notMem := h.zero_notMem
  follow_eq := by
    have hstart : t'.start p = t.start p := by rw [start, start, hk.cwd_eq]
    rw [hstart]
    exact hk.follow h.follow_eq

theorem Leads.locate_eq (h : t.Leads p place) (hp : p ≠ []) :
    t.locate p = .ok place := by
  simp [locate, hp, h.zero_notMem, h.follow_eq]

theorem leads_of_locate (h : t.locate p = .ok place) : t.Leads p place := by
  rw [locate] at h
  split at h
  · cases h
  · next hz =>
    split at h
    · cases h
    · exact ⟨by simpa using hz, h⟩

/-- A joined path is a name behind pieces that lead where the path does that it
was joined to. A separator at the end of that path is not among them, so only if
they lead to a directory does the path lead there as well. -/
theorem exists_split_join (t : Tree) (p : Bytes) (hname : IsName name) :
    ∃ cs, split (join p name) = cs ++ [name] ∧ ∀ {place : Place},
      (t.follow (t.start p) (split p) = .ok place →
        t.follow (t.start (join p name)) cs = .ok place) ∧
      (t.node? place = some .directory →
        t.follow (t.start (join p name)) cs = .ok place →
        t.follow (t.start p) (split p) = .ok place) := by
  have hsplit : split name = [name] := split_of_not_mem hname.separator_notMem
  rcases List.eq_nil_or_concat p with rfl | ⟨r, b, rfl⟩
  · have hstart : t.start (join [] name) = t.start [] := by
      rw [join_nil_left, start, start, hname.not_isAbsolute]
      rfl
    refine ⟨[], by rw [join_nil_left, hsplit]; rfl, fun h => ?_, fun hd h => ?_⟩
    · rw [show split [] = [[]] from rfl,
        follow_cons_of_stay (node?_of_follow_cons h) rfl] at h
      rw [hstart, h]
    · rw [hstart] at h
      obtain rfl := Except.ok.inj h
      rw [show split [] = [[]] from rfl, follow_cons_of_stay hd rfl, h]
  · rw [List.concat_eq_append]
    by_cases hb : b = separator
    · subst hb
      have hjoin : join (r ++ [separator]) name = r ++ separator :: name := by
        simp [join, hname.not_isAbsolute]
      have hstart : t.start (r ++ separator :: name) =
          t.start (r ++ [separator]) := by
        cases r <;> rfl
      have hroot : split (r ++ [separator]) = split r ++ [[]] :=
        split_append_separator r []
      refine ⟨split r, by rw [hjoin, split_append_separator, hsplit],
        fun h => ?_, fun hd h => ?_⟩
      · obtain ⟨q, hq, hstay⟩ := exists_follow_of_append (hroot ▸ h)
        rw [follow_cons_of_stay (node?_of_follow_cons hstay) rfl] at hstay
        rw [hjoin, hstart, hq, ← Except.ok.inj hstay]
      · rw [hjoin, hstart] at h
        rw [hroot, follow_append_of_eq_ok h, follow_cons_of_stay hd rfl]
        rfl
    · have hjoin : join (r ++ [b]) name = (r ++ [b]) ++ separator :: name := by
        simp [join, hname.not_isAbsolute, hb]
      have hstart : t.start ((r ++ [b]) ++ separator :: name) =
          t.start (r ++ [b]) := by
        cases r <;> rfl
      refine ⟨split (r ++ [b]), by rw [hjoin, split_append_separator, hsplit],
        fun h => ?_, fun _ h => ?_⟩
      · rw [hjoin, hstart]
        exact h
      · rw [hjoin, hstart] at h
        exact h

theorem Leads.exists_pieces (h : t.Leads p place) (hname : IsName name) :
    ∃ cs, split (join p name) = cs ++ [name] ∧
      t.follow (t.start (join p name)) cs = .ok place := by
  obtain ⟨cs, hsplit, hcs⟩ := t.exists_split_join p hname
  exact ⟨cs, hsplit, hcs.1 h.follow_eq⟩

theorem Leads.zero_notMem_join (h : t.Leads p place) (hname : IsName name) :
    (0 : UInt8) ∉ join p name := by
  intro hz
  rcases mem_of_mem_join hz with hz | hz | hz
  · exact h.zero_notMem hz
  · exact absurd hz (by decide)
  · exact hname.zero_notMem hz

/-- A name joined to the path of a directory leads to the name in that
directory. -/
theorem Leads.join (h : t.Leads p place) (hd : t.node? place = some .directory)
    (hname : IsName name) : t.Leads (join p name) (place ++ [name]) where
  zero_notMem := h.zero_notMem_join hname
  follow_eq := by
    obtain ⟨cs, hsplit, hcs⟩ := h.exists_pieces hname
    rw [hsplit, follow_append_of_eq_ok hcs]
    exact follow_name hname hd

theorem Leads.find_join_of_missing (h : t.Leads p place)
    (hd : t.node? place = none) (hname : IsName name) :
    t.find (Path.join p name) = .error .missing := by
  obtain ⟨cs, hsplit, hcs⟩ := h.exists_pieces hname
  have hz : (Path.join p name).contains 0 = false := by
    simpa using h.zero_notMem_join hname
  have hfollow : t.follow (t.start (Path.join p name))
      (split (Path.join p name)) = .error .missing := by
    rw [hsplit, follow_append_of_eq_ok hcs, follow, hd]
  rw [find, locate, hz, hfollow]
  simp [join_ne_nil p hname]
  rfl

theorem Leads.find_eq (h : t.Leads p place) (hp : p ≠ []) {n : Node}
    (hn : t.node? place = some n) :
    t.find p = .ok (place, n) := by
  rw [find, h.locate_eq hp]
  simp only [bind, Except.bind, hn]

theorem Leads.find_eq_missing (h : t.Leads p place) (hp : p ≠ [])
    (hn : t.node? place = none) :
    t.find p = .error .missing := by
  rw [find, h.locate_eq hp]
  simp only [bind, Except.bind, hn]

theorem leads_of_find {n : Node} (h : t.find p = .ok (place, n)) :
    t.Leads p place ∧ t.node? place = some n := by
  rw [find] at h
  cases hlocate : t.locate p with
  | error c =>
    rw [hlocate] at h
    cases h
  | ok q =>
    simp only [hlocate, bind, Except.bind] at h
    split at h
    · cases h
    · next hn =>
      cases h
      exact ⟨leads_of_locate hlocate, hn⟩

/-! ### Where something new would go -/

theorem site_eq (hz : (0 : UInt8) ∉ p) (hp : p ≠ []) {front : List Bytes}
    {c : Bytes} (hpieces : solid p = front ++ [c])
    (hfront : t.follow (t.start p) front = .ok place)
    (hd : t.node? place = some .directory) :
    t.site p = .ok (place, if c == here || c == above then
      none else some c) := by
  have hz' : p.contains 0 = false := by simpa using hz
  rw [solid] at hpieces
  rw [site, hz', hpieces]
  simp [hp, hfront, bind, Except.bind, hd]

theorem site_eq_of_solid_eq_nil (hz : (0 : UInt8) ∉ p) (hp : p ≠ [])
    (hpieces : solid p = []) (hd : t.node? (t.start p) = some .directory) :
    t.site p = .ok (t.start p, none) := by
  have hz' : p.contains 0 = false := by simpa using hz
  rw [solid] at hpieces
  rw [site, hz', hpieces]
  simp [hp, follow, bind, Except.bind, hd]

theorem Leads.site_join (h : t.Leads p place)
    (hd : t.node? place = some .directory) (hname : IsName name) :
    t.site (Path.join p name) = .ok (place, some name) := by
  obtain ⟨cs, hsplit, hcs⟩ := h.exists_pieces hname
  have hpieces : solid (Path.join p name) = cs ++ [name] := by
    rw [solid, hsplit, List.reverse_append]
    simp [hname.ne_nil]
  rw [site_eq (h.zero_notMem_join hname) (join_ne_nil p hname) hpieces hcs hd]
  simp [hname.ne_here, hname.ne_above]

theorem eq_of_follow_empty {es : List Bytes}
    (hes : ∀ c ∈ es, List.isEmpty c = true) (h : t.follow place es = .ok q) :
    place = q := by
  induction es with
  | nil => exact Except.ok.inj h
  | cons c es ih =>
    have hc : (c.isEmpty || c == here) = true := by
      rw [hes c List.mem_cons_self]; rfl
    rw [follow_cons_of_stay (node?_of_follow_cons h) hc] at h
    exact ih (fun c hc => hes c (List.mem_cons_of_mem _ hc)) h

theorem Leads.follow_solid (h : t.Leads p place) :
    t.follow (t.start p) (solid p) = .ok place := by
  obtain ⟨es, hsplit, hes⟩ := exists_split_eq_solid_append p
  obtain ⟨q, hq, hrest⟩ := exists_follow_of_append (hsplit ▸ h.follow_eq)
  rw [hq, eq_of_follow_empty hes hrest]

theorem Leads.makeDirectory_eq_occupied (h : t.Leads p place) (hp : p ≠ [])
    (hd : t.node? place = some .directory) :
    t.makeDirectory p = .error .occupied := by
  have hfollow := h.follow_solid
  rcases List.eq_nil_or_concat (solid p) with hs | ⟨front, c, hs⟩
  · rw [hs] at hfollow
    have hstart : t.node? (t.start p) = some .directory :=
      node?_start_of_follow hfollow hd
    rw [makeDirectory, site_eq_of_solid_eq_nil h.zero_notMem hp hs hstart]
    rfl
  · rw [List.concat_eq_append] at hs
    obtain ⟨q, hq, hlast⟩ := exists_follow_of_append (hs ▸ hfollow)
    have hqd := node?_of_follow_cons hlast
    rw [makeDirectory, site_eq h.zero_notMem hp hs hq hqd]
    cases hdot : c == here || c == above with
    | true => rfl
    | false =>
      have hplace : place = q ++ [c] := by
        have hc := isEmpty_of_solid_eq_concat hs
        obtain ⟨hhere, habove⟩ := Bool.or_eq_false_iff.mp hdot
        rw [follow, hqd] at hlast
        simp only [hc, hhere, habove, Bool.or_self, Bool.false_eq_true,
          if_false] at hlast
        exact (Except.ok.inj hlast).symm
      simp [bind, Except.bind, ← hplace, hd]

/-! ### Replacing the last name -/

/-- The directory above a joined path, as the path itself names it, leads where
the name was joined. -/
theorem Leads.exists_parent (h : t.Leads p place)
    (hd : t.node? place = some .directory) (hname : IsName name) :
    ∃ up, parent? (Path.join p name) = some up ∧ t.Leads up place := by
  obtain ⟨cs, hsplit, hcs⟩ := h.exists_pieces hname
  obtain ⟨front, hparts, hmoves, hfront⟩ := exists_parts_eq_concat hname hsplit
  have hsep : ∀ c ∈ front, separator ∉ c := fun c hc hb =>
    (mem_of_mem_split (hfront c hc).1 hb).2 rfl
  refine ⟨ofParts (isAbsolute (Path.join p name)) front, ?_, ?_, ?_⟩
  · rw [parent?, hparts, List.reverse_append]
    simp [aboveParts]
  · intro hz
    rcases mem_of_mem_ofParts hz with hz | ⟨c, hc, hz⟩
    · exact absurd hz (by decide)
    · exact h.zero_notMem_join hname (mem_of_mem_split (hfront c hc).1 hz).1
  · have hstart : t.start (ofParts (isAbsolute (Path.join p name)) front) =
        t.start (Path.join p name) := by
      rw [start, start,
        isAbsolute_ofParts _ fun c hc => ⟨(hfront c hc).2, hsep c hc⟩]
    rw [hstart, ← follow_moves_iff hd, moves_split_ofParts _ hsep, hmoves,
      follow_moves_iff hd]
    exact hcs

theorem Leads.fileName?_join (h : t.Leads p place) (hname : IsName name) :
    fileName? (Path.join p name) = some name := by
  obtain ⟨cs, hsplit, -⟩ := h.exists_pieces hname
  obtain ⟨front, hparts, -, -⟩ := exists_parts_eq_concat hname hsplit
  rw [fileName?, hparts, List.getLast?_concat]
  simp [hname.ne_here, hname.ne_above]

/-- A joined path with its last name replaced is again a name joined to the same
directory. -/
theorem Leads.exists_withFileName (h : t.Leads p place)
    (hd : t.node? place = some .directory) (hname : IsName name)
    (other : Bytes) :
    ∃ up, withFileName (Path.join p name) other = Path.join up other ∧
      t.Leads up place := by
  obtain ⟨up, hparent, hup⟩ := h.exists_parent hd hname
  refine ⟨up, ?_, hup⟩
  rw [withFileName, h.fileName?_join hname, hparent]

end Tree
end Terse.Files
