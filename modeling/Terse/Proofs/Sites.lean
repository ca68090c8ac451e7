import Terse.Proofs.ProperTree

/-!
# Making and writing by path

The paths that a store makes are a name joined to the path of a directory. What
a user names may be any path, and here is what making a directory or writing a
file by such a path comes to: it fails, or it puts something in one place, and
there the path leads from then on (`makeDirectory_cases`, `write_cases`). A
trailing separator is what needs care: the site of a path does not see it, but
the path leads through it only if there is a directory in front of it.

Making a directory with all that are missing above it puts directories where
nothing was and does nothing else, whether it succeeds or not
(`addsDirectories_makeDirectories`). If it succeeds, the path leads to a
directory, and so does the path that its last name was joined to
(`Proper.exists_rooted_of_isDirectory_join`).
-/

namespace Terse.Files

namespace Path

variable {p : Bytes}

/-- The last piece of a path that does not end in a separator is not empty. -/
theorem exists_split_concat {b : UInt8} (hb : b ≠ separator) (s : Bytes) :
    ∃ front c, split (s ++ [b]) = front ++ [c ++ [b]] := by
  have hbeq : (b == separator) = false := beq_eq_false_iff_ne.mpr hb
  induction s with
  | nil =>
    exact ⟨[], [],
      by rw [List.nil_append, split_cons b (show split [] = [[]] from rfl),
        hbeq]; rfl⟩
  | cons a s ih =>
    obtain ⟨front, c, hs⟩ := ih
    rw [List.cons_append]
    cases front with
    | nil =>
      rw [split_cons a hs]
      split
      · exact ⟨[[]], c, rfl⟩
      · exact ⟨[], a :: c, rfl⟩
    | cons d front =>
      rw [split_cons a hs]
      split
      · exact ⟨[] :: d :: front, c, rfl⟩
      · exact ⟨(a :: d) :: front, c, rfl⟩

theorem solid_eq_split (hp : p ≠ []) (h : p.getLast? ≠ some separator) :
    solid p = split p := by
  obtain ⟨s, b, rfl⟩ := List.eq_nil_or_concat p |>.resolve_left hp
  rw [List.concat_eq_append, List.getLast?_concat] at h
  obtain ⟨front, c, hsplit⟩ :=
    exists_split_concat (fun hb => h (congrArg some hb)) s
  rw [solid, List.concat_eq_append, hsplit, List.reverse_append]
  simp

theorem subset_join {name : Bytes} (p : Bytes) (hname : IsName name) :
    p ⊆ join p name := by
  intro b hb
  rw [join, hname.not_isAbsolute]
  simp only [Bool.false_eq_true, if_false]
  split
  · next hnone => simp [List.getLast?_eq_none_iff.mp hnone] at hb
  · split <;> exact List.mem_append_left _ hb

end Path

namespace Tree

open Files.Path

variable {t t' : Tree} {p name : Bytes} {place q : Place} {n : Node}

/-! ### Sites -/

theorem follow_empty {es : List Bytes} (hes : ∀ c ∈ es, List.isEmpty c = true)
    (hd : t.node? q = some .directory) :
    t.follow q es = .ok q := by
  induction es with
  | nil => rfl
  | cons c es ih =>
    obtain ⟨hc, hes⟩ := List.forall_mem_cons.mp hes
    rw [follow_cons_of_stay hd (by rw [hc]; rfl)]
    exact ih hes

/-- The site of a path: its pieces but the last solid one lead to a directory,
and that one is the name. -/
theorem site_eq_ok_iff : t.site p = .ok (place, some name) ↔
    (0 : UInt8) ∉ p ∧ p ≠ [] ∧ t.node? place = some .directory ∧ name ≠ here ∧
      name ≠ above ∧
      ∃ front, solid p = front ++ [name] ∧ t.follow (t.start p) front =
        .ok place := by
  constructor
  · intro h
    rw [site] at h
    split at h
    · cases h
    · next hz =>
      split at h
      · cases h
      · next hp =>
        refine ⟨by simpa using hz, by simpa using hp, ?_⟩
        rw [← solid] at h
        cases hfollow : t.follow (t.start p) (solid p).dropLast with
        | error c =>
          simp only [hfollow, bind, Except.bind] at h
          cases h
        | ok up =>
          simp only [hfollow, bind, Except.bind] at h
          split at h
          · cases h
          · next hd =>
            split at h
            · cases h
            · next c hc =>
              obtain ⟨rfl, hname⟩ := Prod.mk.inj (Except.ok.inj h)
              obtain ⟨front, hfront⟩ := List.getLast?_eq_some_iff.mp hc
              rw [hfront, List.dropLast_concat] at hfollow
              split at hname
              · cases hname
              · next hdot =>
                obtain rfl := Option.some.inj hname
                simp only [Bool.or_eq_true, beq_iff_eq, not_or] at hdot
                exact ⟨hd, hdot.1, hdot.2, front, hfront, hfollow⟩
          · cases h
  · rintro ⟨hz, hp, hd, hhere, habove, front, hfront, hfollow⟩
    rw [site_eq hz hp hfront hfollow hd]
    simp [hhere, habove]

theorem isName_of_site (h : t.site p = .ok (place, some name)) :
    IsName name := by
  obtain ⟨hz, -, -, hhere, habove, front, hfront, -⟩ := site_eq_ok_iff.mp h
  obtain ⟨es, hsplit, -⟩ := exists_split_eq_solid_append p
  have hmem : name ∈ split p := by
    rw [hsplit, hfront]
    simp
  exact
    { ne_nil := by simpa using isEmpty_of_solid_eq_concat hfront
      ne_here := hhere
      ne_above := habove
      zero_notMem := fun hb => hz (mem_of_mem_split hmem hb).1
      separator_notMem := fun hb => (mem_of_mem_split hmem hb).2 rfl }

/-- The path leads to its site if a directory is there, and also if it does not
ask for one. -/
theorem leads_of_site (h : t.site p = .ok (place, some name))
    (hd : t.node? (place ++ [name]) = some .directory ∨
      p.getLast? ≠ some separator) :
    t.Leads p (place ++ [name]) := by
  obtain ⟨hz, hp, hplace, hhere, habove, front, hfront, hfollow⟩ :=
    site_eq_ok_iff.mp h
  have hsolid : t.follow (t.start p) (solid p) = .ok (place ++ [name]) := by
    rw [hfront, follow_append_of_eq_ok hfollow, follow, hplace]
    simp [isEmpty_of_solid_eq_concat hfront, hhere, habove, follow]
  refine ⟨hz, ?_⟩
  rcases hd with hd | hlast
  · obtain ⟨es, hsplit, hes⟩ := exists_split_eq_solid_append p
    rw [hsplit, follow_append_of_eq_ok hsolid, follow_empty hes hd]
  · rw [← solid_eq_split hp hlast, hsolid]

theorem Keeps.site_eq (hk : t.Keeps t')
    (h : t.site p = .ok (place, some name)) :
    t'.site p = .ok (place, some name) := by
  obtain ⟨hz, hp, hd, hhere, habove, front, hfront, hfollow⟩ :=
    site_eq_ok_iff.mp h
  have hstart : t'.start p = t.start p := by rw [start, start, hk.cwd_eq]
  exact site_eq_ok_iff.mpr
    ⟨hz, hp, hk.directory hd, hhere, habove, front, hfront,
      hstart.symm ▸ hk.follow hfollow⟩

/-! ### Making a directory -/

theorem makeDirectory_cases (t : Tree) (p : Bytes) :
    (∃ c, t.makeDirectory p = .error c) ∨
      ∃ place name, t.makeDirectory p =
        .ok (t.set (place ++ [name]) .directory) ∧
        t.site p = .ok (place, some name) ∧ t.node? (place ++ [name]) = none ∧
        (t.set (place ++ [name]) .directory).Leads p (place ++ [name]) := by
  rw [makeDirectory]
  cases hsite : t.site p with
  | error c => exact .inl ⟨c, rfl⟩
  | ok found =>
    obtain ⟨place, _ | name⟩ := found
    · exact .inl ⟨.occupied, rfl⟩
    · cases hn : t.node? (place ++ [name]) with
      | some n => exact .inl ⟨.occupied, by simp [bind, Except.bind, hn]⟩
      | none =>
        have hput := putAt_set t (show place ++ [name] ≠ [] by simp) .directory
        have hkeeps := hput.keeps fun _ => rfl
        refine .inr ⟨place, name, by simp [bind, Except.bind, hn], rfl, hn, ?_⟩
        exact leads_of_site (hkeeps.site_eq hsite) (.inl hput.node?_self)

/-- The tree `t'` is `t` with directories where nothing was, each in a place
that one of the paths leads to. -/
structure AddsDirectories (ps : List Bytes) (t t' : Tree) : Prop where
  proper : t.Proper → t'.Proper
  cwd_eq : t'.cwd = t.cwd
  node?_eq : ∀ q, t'.node? q = t.node? q ∨
    t.node? q = none ∧ t'.node? q = some .directory ∧ ∃ p ∈ ps, t'.Leads p q

namespace AddsDirectories

variable {ps : List Bytes}

theorem refl (ps : List Bytes) (t : Tree) : AddsDirectories ps t t where
  proper := id
  cwd_eq := rfl
  node?_eq _ := .inl rfl

theorem keeps (h : AddsDirectories ps t t') : t.Keeps t' where
  cwd_eq := h.cwd_eq
  directory {q} hq := by
    rcases h.node?_eq q with heq | ⟨hnone, -⟩
    · rw [heq, hq]
    · rw [hq] at hnone
      cases hnone

theorem content?_eq (h : AddsDirectories ps t t') :
    t'.content? = t.content? := by
  funext q
  rcases h.node?_eq q with heq | ⟨hnone, hd, -⟩
  · exact content?_of_node? heq
  · rw [content?, content?, hnone, hd]

theorem trans {t'' : Tree} (h : AddsDirectories ps t t')
    (h' : AddsDirectories ps t' t'') :
    AddsDirectories ps t t'' where
  proper := h'.proper ∘ h.proper
  cwd_eq := h'.cwd_eq.trans h.cwd_eq
  node?_eq q := by
    rcases h'.node?_eq q with heq' | ⟨hnone', hd', hp'⟩
    · rcases h.node?_eq q with heq | ⟨hnone, hd, p, hp, hleads⟩
      · exact .inl (heq'.trans heq)
      · exact .inr ⟨hnone, heq'.trans hd, p, hp, h'.keeps.leads hleads⟩
    · rcases h.node?_eq q with heq | ⟨-, hd, -⟩
      · exact .inr ⟨heq.symm.trans hnone', hd', hp'⟩
      · rw [hd] at hnone'
        cases hnone'

theorem mono {ps' : List Bytes} (h : AddsDirectories ps t t') (hps : ps ⊆ ps') :
    AddsDirectories ps' t t' where
  proper := h.proper
  cwd_eq := h.cwd_eq
  node?_eq q := (h.node?_eq q).imp id fun ⟨hnone, hd, p, hp, hleads⟩ => ⟨hnone,
    hd, p, hps hp, hleads⟩

end AddsDirectories

theorem addsDirectories_of_makeDirectory {ps : List Bytes} (hp : p ∈ ps)
    (h : t.makeDirectory p = .ok t') :
    AddsDirectories ps t t' := by
  rcases t.makeDirectory_cases p with
    ⟨c, herror⟩ | ⟨place, name, hok, hsite, hnone, hleads⟩
  · rw [h] at herror
    cases herror
  · obtain rfl := Except.ok.inj (h.symm.trans hok)
    refine ⟨fun ht => ?_, rfl, fun q => ?_⟩
    · exact ht.of_putAt (putAt_set t (by simp) _)
        (site_eq_ok_iff.mp hsite).2.2.1 (isName_of_site hsite) (by simp)
        fun _ => rfl
    by_cases hq : q = place ++ [name]
    · subst hq
      exact .inr ⟨hnone, node?_set_self t _ (by simp), p, hp, hleads⟩
    · exact .inl (node?_set_of_ne t _ hq)

/-- The tree that is there after a computation, whether it succeeded or not. -/
def after {ε α : Type} : EStateM.Result ε Tree α → Tree
  | .ok _ t => t
  | .error _ t => t

theorem addsDirectories_makeDirectoriesFrom (ps : List Bytes) (t : Tree) :
    AddsDirectories ps t (after (Disk.makeDirectoriesFrom ps t)) := by
  induction ps with
  | nil => exact .refl [] t
  | cons p ps ih =>
    have hself := List.mem_cons_self (a := p) (l := ps)
    have hrest := ih.mono (List.subset_cons_self p ps)
    rw [Disk.makeDirectoriesFrom]
    split
    · exact .refl _ t
    · dsimp only
      split
      · next hmake => exact addsDirectories_of_makeDirectory hself hmake
      · split
        · next hmore =>
          rw [hmore] at hrest
          exact hrest
        · next t' hmore =>
          rw [hmore] at hrest
          split
          · next hmake =>
              exact hrest.trans (addsDirectories_of_makeDirectory hself hmake)
          · split
            · exact hrest
            · exact hrest
      · split
        · exact .refl _ t
        · exact .refl _ t

theorem addsDirectories_makeDirectories (p : Bytes) (t : Tree) :
    AddsDirectories (ancestors p) t (after (Disk.makeDirectories p t)) :=
  addsDirectories_makeDirectoriesFrom (ancestors p) t

theorem addsDirectories_of_makeDirectories
    (h : Disk.makeDirectories p t = .ok () t') :
    AddsDirectories (ancestors p) t t' := by
  have hadds := addsDirectories_makeDirectories p t
  rw [h] at hadds
  exact hadds

/-! ### Directories that are there -/

theorem isDirectory_of_makeDirectory (h : t.makeDirectory p = .ok t') :
    t'.isDirectory p = true := by
  rcases t.makeDirectory_cases p with
    ⟨c, herror⟩ | ⟨place, name, hok, hsite, -, hleads⟩
  · rw [h] at herror
    cases herror
  · obtain rfl := Except.ok.inj (h.symm.trans hok)
    exact hleads.isDirectory_eq_true (site_eq_ok_iff.mp hsite).2.1
      (node?_set_self t _ (by simp))

theorem isDirectory_of_makeDirectories (hp : p ≠ [])
    (h : Disk.makeDirectories p t = .ok () t') :
    t'.isDirectory p = true := by
  simp only [Disk.makeDirectories, ancestors, Disk.makeDirectoriesFrom] at h
  rw [if_neg (by simpa using hp)] at h
  split at h
  · next hmake =>
    cases h
    exact isDirectory_of_makeDirectory hmake
  · split at h
    · cases h
    · split at h
      · next hmake =>
        cases h
        exact isDirectory_of_makeDirectory hmake
      · split at h
        · next hd =>
          cases h
          exact hd
        · cases h
  · split at h
    · next hd =>
      cases h
      exact hd
    · cases h

/-- A name behind a path leads into the directory that the path leads to. -/
theorem exists_leads_of_leads_join (h : t.Leads (join p name) q)
    (hname : IsName name) :
    ∃ place, t.Leads p place ∧ t.node? place = some .directory ∧
      q = place ++ [name] := by
  obtain ⟨cs, hsplit, hfront⟩ := t.exists_split_join p hname
  obtain ⟨place, hplace, hstep⟩ :=
    exists_follow_of_append (hsplit ▸ h.follow_eq)
  have hd := node?_of_follow_cons hstep
  rw [follow_name hname hd] at hstep
  exact ⟨place,
    ⟨fun hz => h.zero_notMem (subset_join p hname hz), hfront.2 hd hplace⟩, hd,
    (Except.ok.inj hstep).symm⟩

/-- A directory has a directory above it, to which the rest of the path
leads. -/
theorem Proper.exists_rooted_of_isDirectory_join (ht : t.Proper)
    (hname : IsName name) (h : t.isDirectory (join p name) = true) :
    ∃ place, t.Rooted p place ∧ t.node? (place ++ [name]) =
      some .directory := by
  rw [isDirectory] at h
  split at h
  · next q hfind =>
    obtain ⟨hleads, hnode⟩ := leads_of_find hfind
    obtain ⟨place, hplace, hd, rfl⟩ := exists_leads_of_leads_join hleads hname
    exact ⟨place, ⟨ht, hplace, hd⟩, hnode⟩
  · cases h

/-! ### Writing a file -/

theorem write_cases (t : Tree) (p : Bytes) :
    (∃ c, ∀ content, t.write p content = .error c) ∨
      ∃ place name, t.site p = .ok (place, some name) ∧
        t.node? (place ++ [name]) ≠ some .directory ∧
        p.getLast? ≠ some separator ∧
        ∀ content, t.write p content =
          .ok (t.fill (place ++ [name]) content) := by
  simp only [write]
  cases hsite : t.site p with
  | error c => exact .inl ⟨c, fun _ => rfl⟩
  | ok found =>
    obtain ⟨place, _ | name⟩ := found
    · exact .inl ⟨.isDirectory, fun _ => rfl⟩
    · by_cases hlast : p.getLast? = some separator
      · exact .inl ⟨.isDirectory, fun _ => by simp [bind, Except.bind, hlast]⟩
      · by_cases hd : t.node? (place ++ [name]) = some .directory
        · exact .inl ⟨.isDirectory,
            fun _ => by simp [bind, Except.bind, hlast, hd]⟩
        · exact .inr ⟨place, name, rfl, hd, hlast,
            fun _ => by simp [bind, Except.bind, hlast]⟩

theorem keeps_fill (hq : q ≠ []) (hd : t.node? q ≠ some .directory)
    (content : Bytes) : t.Keeps (t.fill q content) := by
  rw [fill]
  split
  · exact ⟨rfl, id⟩
  · exact (putAt_set t hq _).keeps fun hdir => absurd hdir hd

theorem node?_fill_ne_directory (hq : q ≠ [])
    (hd : t.node? q ≠ some .directory) (content : Bytes) :
    (t.fill q content).node? q ≠ some .directory := by
  rw [fill]
  split
  · exact hd
  · rw [node?_set_self t _ hq]
    simp

theorem set_set (t : Tree) (q : Place) (m n : Node) :
    (t.set q m).set q n = t.set q n := by
  simp [set]

theorem fill_fill (hq : q ≠ []) (content other : Bytes) :
    (t.fill q content).fill q other = t.fill q other := by
  by_cases hdevice : t.node? q = some .device
  · rw [fill_of_eq_device hdevice]
  · have hself := node?_set_self t (.file content) hq
    rw [fill_of_ne_device hdevice, fill_of_ne_device hdevice,
      fill_of_ne_device (by rw [hself]; simp), set_set]

theorem read_of_write {content : Bytes} (h : t.write p content = .ok t') :
    t'.read p = .ok content ∨ t' = t ∧ t.read p = .ok [] ∧
      ∃ q, t.node? q = some .device := by
  rcases t.write_cases p with ⟨c, herror⟩ | ⟨place, name, hsite, hd, hlast, hok⟩
  · rw [herror] at h
    cases h
  · obtain rfl := Except.ok.inj ((hok content).symm.trans h)
    have hne : place ++ [name] ≠ [] := by simp
    have hsite' := (keeps_fill hne hd content).site_eq hsite
    have hleads := leads_of_site hsite' (.inr hlast)
    have hp := (site_eq_ok_iff.mp hsite').2.1
    by_cases hdevice : t.node? (place ++ [name]) = some .device
    · rw [fill_of_eq_device hdevice] at hleads ⊢
      refine .inr ⟨rfl, ?_, _, hdevice⟩
      rw [read, hleads.find_eq hp hdevice]
      rfl
    · rw [fill_of_ne_device hdevice] at hleads ⊢
      have hself := node?_set_self t (.file content) hne
      refine .inl ?_
      rw [read, hleads.find_eq hp hself]
      rfl

/-- A file that was written can be written again, and nothing is left of the
first writing. -/
theorem write_of_write {content : Bytes} (h : t.write p content = .ok t')
    (other : Bytes) : t'.write p other = t.write p other := by
  rcases t.write_cases p with ⟨c, herror⟩ | ⟨place, name, hsite, hd, hlast, hok⟩
  · rw [herror] at h
    cases h
  · obtain rfl := Except.ok.inj ((hok content).symm.trans h)
    have hne : place ++ [name] ≠ [] := by simp
    have hsite' := (keeps_fill hne hd content).site_eq hsite
    have hlast' : (p.getLast? == some separator) = false :=
      beq_eq_false_iff_ne.mpr hlast
    have hd' := node?_fill_ne_directory hne hd content
    rw [hok, write, hsite']
    simp only [bind, Except.bind, hlast', Bool.false_eq_true, if_false,
      fill_fill hne]

end Tree

end Terse.Files
