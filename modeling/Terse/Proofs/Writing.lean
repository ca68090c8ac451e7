import Terse.Store
import Terse.Proofs.Resolution

/-!
# What writing does to the tree

The two things a store does to the tree when it keeps something: it makes sure
that a directory is there, and it writes a whole file by way of a temporary
name. Each changes one place of the tree and no other (`PutAt`). For a file this
needs that nothing is at the temporary name, since what is there is lost.
-/

namespace Terse

open Files Files.Path

namespace Files.Tree

variable {t t' : Tree} {p name : Bytes} {place : Place} {n : Node}

/-- The tree `t'` is `t` with `n` at `place`. -/
structure PutAt (t : Tree) (place : Place) (n : Node) (t' : Tree) : Prop where
  cwd_eq : t'.cwd = t.cwd
  node?_eq : ∀ q, t'.node? q = if q = place then some n else t.node? q

theorem PutAt.node?_self (h : t.PutAt place n t') :
    t'.node? place = some n := by
  rw [h.node?_eq, if_pos rfl]

theorem PutAt.node?_of_ne (h : t.PutAt place n t') {q : Place}
    (hq : q ≠ place) :
    t'.node? q = t.node? q := by
  rw [h.node?_eq, if_neg hq]

theorem putAt_set (t : Tree) {place : Place} (hp : place ≠ []) (n : Node) :
    t.PutAt place n (t.set place n) where
  cwd_eq := rfl
  node?_eq q := by
    by_cases hq : q = place
    · rw [if_pos hq, hq, node?_set_self t n hp]
    · rw [if_neg hq, node?_set_of_ne t n hq]

theorem putAt_self (h : t.node? place = some n) : t.PutAt place n t where
  cwd_eq := rfl
  node?_eq q := by
    split
    · next hq => rw [hq, h]
    · rfl

theorem PutAt.keeps (h : t.PutAt place n t')
    (hn : t.node? place = some .directory → n = .directory) :
    t.Keeps t' where
  cwd_eq := h.cwd_eq
  directory {q} hq := by
    by_cases hqp : q = place
    · rw [hqp, h.node?_self, hn (hqp ▸ hq)]
    · rw [h.node?_of_ne hqp, hq]

/-! ### Making directories -/

theorem Leads.isDirectory_eq_true (h : t.Leads p place) (hp : p ≠ [])
    (hd : t.node? place = some .directory) : t.isDirectory p = true := by
  rw [isDirectory, h.find_eq hp hd]

theorem Leads.makeDirectories_eq (h : t.Leads p place)
    (hd : t.node? place = some .directory) :
    Disk.makeDirectories p t = .ok () t := by
  simp only [Disk.makeDirectories, ancestors, Disk.makeDirectoriesFrom]
  by_cases hp : p = []
  · rw [if_pos (List.isEmpty_iff.mpr hp)]
  · rw [if_neg (by simpa using hp), h.makeDirectory_eq_occupied hp hd]
    simp only [h.isDirectory_eq_true hp hd, if_true]

theorem Leads.makeDirectory_join (h : t.Leads p place)
    (hd : t.node? place = some .directory) (hname : IsName name) :
    t.makeDirectory (Path.join p name) =
      match t.node? (place ++ [name]) with
      | some _ => .error .occupied
      | none => .ok (t.set (place ++ [name]) .directory) := by
  rw [makeDirectory, h.site_join hd hname]
  rfl

/-- Making a directory in a directory that is there fails exactly if something
else is in its place. -/
theorem Leads.makeDirectories_join (h : t.Leads p place)
    (hd : t.node? place = some .directory) (hname : IsName name) :
    Disk.makeDirectories (Path.join p name) t =
      match t.node? (place ++ [name]) with
      | none => .ok () (t.set (place ++ [name]) .directory)
      | some .directory => .ok () t
      | some _ => .error .occupied t := by
  have hne := join_ne_nil p hname
  cases hn : t.node? (place ++ [name]) with
  | none =>
    simp only [Disk.makeDirectories, ancestors, Disk.makeDirectoriesFrom,
      h.makeDirectory_join hd hname, hn]
    rw [if_neg (by simpa using hne)]
  | some n =>
    by_cases hdir : n = .directory
    · subst hdir
      exact (h.join hd hname).makeDirectories_eq hn
    · have hfile : t.isDirectory (Path.join p name) = false := by
        rw [isDirectory, (h.join hd hname).find_eq hne hn]
        cases n <;> simp_all
      simp only [Disk.makeDirectories, ancestors, Disk.makeDirectoriesFrom,
        h.makeDirectory_join hd hname, hn, hfile]
      rw [if_neg (by simpa using hne), if_neg Bool.false_ne_true]

/-- Making a directory in a directory that is there, unless something else is in
its place. -/
theorem Leads.exists_makeDirectories_join (h : t.Leads p place)
    (hd : t.node? place = some .directory) (hname : IsName name)
    (hother : ∀ n, t.node? (place ++ [name]) = some n → n = .directory) :
    ∃ t', Disk.makeDirectories (Path.join p name) t = .ok () t' ∧
      t.PutAt (place ++ [name]) .directory t' := by
  have hmake := h.makeDirectories_join hd hname
  cases hn : t.node? (place ++ [name]) with
  | none =>
    rw [hn] at hmake
    exact ⟨_, hmake, putAt_set t (by simp) _⟩
  | some n =>
    obtain rfl := hother n hn
    rw [hn] at hmake
    exact ⟨t, hmake, putAt_self hn⟩

/-! ### Writing a file -/

theorem getLast?_join_ne_separator (p : Bytes) (hname : IsName name) :
    (Path.join p name).getLast? ≠ some separator := by
  have hlast : (Path.join p name).getLast? = name.getLast? := by
    obtain ⟨b, hb⟩ : ∃ b, name.getLast? = some b := by
      exact ⟨_, List.getLast?_eq_some_getLast hname.ne_nil⟩
    rw [Path.join, hname.not_isAbsolute, hb]
    simp only [Bool.false_eq_true, if_false]
    split
    · exact hb
    · split
      · rw [List.getLast?_append, hb]
        rfl
      · rw [List.getLast?_append, List.getLast?_cons, hb]
        rfl
  rw [hlast]
  intro h
  exact hname.separator_notMem (List.mem_of_getLast? h)

theorem Leads.write_join (h : t.Leads p place)
    (hd : t.node? place = some .directory) (hname : IsName name)
    (content : Bytes) :
    t.write (Path.join p name) content =
      if t.node? (place ++ [name]) = some .directory then .error .isDirectory
      else .ok (t.fill (place ++ [name]) content) := by
  have hlast : ((Path.join p name).getLast? == some separator) = false :=
    beq_eq_false_iff_ne.mpr (getLast?_join_ne_separator p hname)
  rw [write, h.site_join hd hname]
  simp only [bind, Except.bind, hlast, Bool.false_eq_true, if_false]
  split
  · next hn => rw [if_pos hn]
  · next hn => rw [if_neg hn]

theorem Leads.rename_join {source : Bytes} {old : Place} (h : t.Leads p place)
    (hd : t.node? place = some .directory) (hname : IsName name)
    (hold : t.find source = .ok (old, n)) (hn : n ≠ .directory) :
    t.rename source (Path.join p name) =
      if t.node? (place ++ [name]) = some .directory then .error .isDirectory
      else .ok ((t.erase old).set (place ++ [name]) n) := by
  rw [rename, hold]
  simp only [bind, Except.bind, h.site_join hd hname]
  split
  · next hdir => rw [if_pos hdir]
  · next hdir => rw [if_neg hdir]

end Files.Tree

namespace Store

variable {t : Tree} {p name : Bytes} {place : Place}

theorem temporaryName_ne (w : Writer) (name : Bytes) :
    temporaryName w name ≠ name := by
  intro heq
  have hlen := congrArg List.length heq
  simp [temporaryName] at hlen

/-- The tree after a file was written under a temporary name and then
renamed. -/
def replaced (w : Writer) (t : Tree) (place : Place) (name content : Bytes) :
    Tree :=
  ((t.set (place ++ [temporaryName w name]) (.file content)).erase
    (place ++ [temporaryName w name])).set
    (place ++ [name]) (.file content)

/-- Writing a whole file fails exactly if a directory has one of its two names.
If it is the name that comes second, the file stays under the first. -/
theorem writeWhole_join (w : Writer) (h : t.Leads p place)
    (hd : t.node? place = some .directory) (hname : IsName name)
    (htemp : IsName (temporaryName w name))
    (hdevice : t.node? (place ++ [temporaryName w name]) ≠ some .device)
    (content : Bytes) :
    writeWhole w (Path.join p name) content t =
      if t.node? (place ++ [temporaryName w name]) = some .directory then
        .error .isDirectory t
      else if t.node? (place ++ [name]) = some .directory then
        .error .isDirectory (t.set (place ++ [temporaryName w name])
          (.file content))
      else .ok () (replaced w t place name content) := by
  obtain ⟨up, hup, hleads⟩ :=
    h.exists_withFileName hd hname (temporaryName w name)
  have hwrite := hleads.write_join hd htemp content
  rw [Tree.fill_of_ne_device hdevice] at hwrite
  by_cases htempDir : t.node? (place ++ [temporaryName w name]) =
    some .directory
  · rw [if_pos htempDir] at hwrite ⊢
    simp only [writeWhole, h.fileName?_join hname, Option.getD_some, hup, bind,
      EStateM.bind, Disk.change, hwrite]
  · rw [if_neg htempDir] at hwrite ⊢
    have hput : t.PutAt (place ++ [temporaryName w name]) (.file content) _ :=
      Tree.putAt_set t (by simp) (.file content)
    have hkeeps := hput.keeps fun hdir => absurd hdir htempDir
    have hfound :=
      ((hkeeps.leads hleads).join (hkeeps.directory hd) htemp).find_eq
      (join_ne_nil up htemp) hput.node?_self
    have hne : place ++ [name] ≠ place ++ [temporaryName w name] := by
      simpa using (temporaryName_ne w name).symm
    have hrename :=
      (hkeeps.leads h).rename_join (hkeeps.directory hd) hname hfound (by simp)
    rw [hput.node?_of_ne hne] at hrename
    simp only [writeWhole, h.fileName?_join hname, Option.getD_some, hup, bind,
      EStateM.bind, Disk.change, hwrite,
      hrename]
    by_cases hdir : t.node? (place ++ [name]) = some .directory
    · rw [if_pos hdir, if_pos hdir]
    · rw [if_neg hdir, if_neg hdir]
      rfl

/-- If a device has the temporary name, what is written is lost, and the device
gets the name of the file. -/
theorem writeWhole_join_of_device (w : Writer) (h : t.Leads p place)
    (hd : t.node? place = some .directory) (hname : IsName name)
    (htemp : IsName (temporaryName w name))
    (hdevice : t.node? (place ++ [temporaryName w name]) = some .device)
    (hn : t.node? (place ++ [name]) ≠ some .directory) (content : Bytes) :
    writeWhole w (Path.join p name) content t =
      .ok () ((t.erase (place ++ [temporaryName w name])).set
        (place ++ [name]) .device) := by
  obtain ⟨up, hup, hleads⟩ :=
    h.exists_withFileName hd hname (temporaryName w name)
  have hwrite := hleads.write_join hd htemp content
  rw [Tree.fill_of_eq_device hdevice, if_neg (by rw [hdevice]; simp)] at hwrite
  have hfound :=
    (hleads.join hd htemp).find_eq (join_ne_nil up htemp) hdevice
  have hrename := h.rename_join hd hname hfound (by simp)
  rw [if_neg hn] at hrename
  simp only [writeWhole, h.fileName?_join hname, Option.getD_some, hup, bind,
    EStateM.bind, Disk.change, hwrite, hrename]

/-- A file written under a free temporary name and then renamed is the only
thing that has changed. -/
theorem exists_writeWhole_join (w : Writer) (h : t.Leads p place)
    (hd : t.node? place = some .directory) (hname : IsName name)
    (htemp : IsName (temporaryName w name))
    (hn : t.node? (place ++ [name]) ≠ some .directory)
    (hfree : ∀ r, t.node? (place ++ temporaryName w name :: r) = none)
    (content : Bytes) :
    ∃ t', writeWhole w (Path.join p name) content t = .ok () t' ∧
      t.PutAt (place ++ [name]) (.file content) t' := by
  have hput : t.PutAt (place ++ [temporaryName w name]) (.file content) _ :=
    Tree.putAt_set t (by simp) (.file content)
  refine ⟨replaced w t place name content, ?_, ?_⟩
  · rw [writeWhole_join w h hd hname htemp (by rw [hfree []]; simp),
      if_neg (by rw [hfree []]; simp), if_neg hn]
  · refine ⟨rfl, fun q => ?_⟩
    rw [replaced]
    by_cases hq : q = place ++ [name]
    · rw [if_pos hq, hq, Tree.node?_set_self _ _ (by simp)]
    · rw [if_neg hq, Tree.node?_set_of_ne _ _ hq]
      cases hbelow : (place ++ [temporaryName w name]).isPrefixOf q with
      | true =>
        obtain ⟨r, rfl⟩ := List.isPrefixOf_iff_prefix.mp hbelow
        rw [Tree.node?_erase_of_below _ (by simp) hbelow, List.append_assoc]
        exact (hfree r).symm
      | false =>
        have hqt : q ≠ place ++ [temporaryName w name] := by
          intro hq
          rw [hq, List.isPrefixOf_iff_prefix.mpr (List.prefix_refl _)] at hbelow
          cases hbelow
        rw [Tree.node?_erase_of_not_below _ hbelow, hput.node?_of_ne hqt]

end Store

end Terse
