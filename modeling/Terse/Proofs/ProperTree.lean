import Mathlib.Data.List.Induction
import Mathlib.Logic.Function.Basic
import Terse.Proofs.Writing

/-!
# Proper trees

A tree is a map from places to nodes, and not every such map is a tree that a
disk can hold. A proper tree has nothing without a directory above it and no
name that a path could not give. Putting something under a name in a directory
keeps a tree proper, and so does taking a file away, since there is nothing
below it (`Proper.of_putAt`, `Proper.refiles_erase`).

What a store answers depends on the contents of files only, so the changes are
also described as changes of the map `content?` from places to contents.
-/

namespace Terse

open Files Files.Path

namespace Files.Tree

variable {t t' : Tree} {p place q : Place} {name root content : Bytes}
  {n : Node}

/-- The tree is one of files and directories: everything stands in a directory,
has a proper name, and is no device. -/
structure Proper (t : Tree) : Prop where
  directory_above : ∀ {p : Place} {name : Bytes} {n : Node},
    t.node? (p ++ [name]) = some n → t.node? p = some .directory
  isName : ∀ {p : Place} {name : Bytes} {n : Node},
    t.node? (p ++ [name]) = some n → IsName name
  ne_device : ∀ p : Place, t.node? p ≠ some .device

theorem proper_empty (cwd : Place) : Proper { cwd } where
  directory_above {p name n} h := by
    rw [node?_of_ne_nil _ (by simp)] at h
    cases h
  isName {p name n} h := by
    rw [node?_of_ne_nil _ (by simp)] at h
    cases h
  ne_device p h := by
    cases p <;> cases h

theorem Proper.node?_below (ht : t.Proper) (hp : t.node? p ≠ some .directory)
    {r : Place} (hr : r ≠ []) :
    t.node? (p ++ r) = none := by
  induction r using List.reverseRecOn with
  | nil => exact absurd rfl hr
  | append_singleton r name ih =>
    cases hn : t.node? (p ++ (r ++ [name])) with
    | none => rfl
    | some n =>
      rw [← List.append_assoc] at hn
      have habove := ht.directory_above hn
      by_cases hnil : r = []
      · rw [hnil, List.append_nil] at habove
        exact absurd habove hp
      · rw [ih hnil] at habove
        cases habove

/-- Putting something under a name in a directory. Only a directory can take the
place of a directory. -/
theorem Proper.of_putAt (ht : t.Proper) (h : t.PutAt (p ++ [name]) n t')
    (hp : t.node? p = some .directory) (hname : IsName name)
    (hdevice : n ≠ .device)
    (hn : t.node? (p ++ [name]) = some .directory → n = .directory) :
    t'.Proper where
  directory_above {q c m} hm := by
    have hkeeps := h.keeps hn
    by_cases hq : q ++ [c] = p ++ [name]
    · rw [(List.append_inj' hq rfl).1]
      exact hkeeps.directory hp
    · rw [h.node?_of_ne hq] at hm
      exact hkeeps.directory (ht.directory_above hm)
  isName {q c m} hm := by
    by_cases hq : q ++ [c] = p ++ [name]
    · obtain rfl : c = name := by simpa using (List.append_inj' hq rfl).2
      exact hname
    · rw [h.node?_of_ne hq] at hm
      exact ht.isName hm
  ne_device q hq := by
    by_cases hqp : q = p ++ [name]
    · rw [hqp, h.node?_self] at hq
      exact hdevice (Option.some.inj hq)
    · rw [h.node?_of_ne hqp] at hq
      exact ht.ne_device q hq

theorem Proper.set_directory (ht : t.Proper)
    (hp : t.node? p = some .directory) (hname : IsName name) :
    (t.set (p ++ [name]) .directory).Proper :=
  ht.of_putAt (putAt_set t (by simp) _) hp hname (by simp) fun _ => rfl

theorem Proper.node?_erase (ht : t.Proper) (hp : t.node? p ≠ some .directory)
    (q : Place) :
    (t.erase p).node? q = if q = p then none else t.node? q := by
  cases hbelow : p.isPrefixOf q with
  | false =>
    have hq : q ≠ p := by
      rintro rfl
      rw [List.isPrefixOf_iff_prefix.mpr (List.prefix_refl _)] at hbelow
      cases hbelow
    rw [node?_erase_of_not_below t hbelow, if_neg hq]
  | true =>
    obtain ⟨r, rfl⟩ := List.isPrefixOf_iff_prefix.mp hbelow
    -- the top is a directory
    have hne : p ≠ [] := by
      rintro rfl
      exact hp rfl
    rw [node?_erase_of_below t (by simp [hne]) hbelow]
    split
    · rfl
    · next hr => exact (ht.node?_below hp (by simpa using hr)).symm

/-! ### Changes to files -/

/-- The tree `t'` is proper and has the directories of `t`, so that only files
can differ. -/
structure Refiles (t t' : Tree) : Prop where
  proper : t'.Proper
  cwd_eq : t'.cwd = t.cwd
  directory_iff : ∀ q, t'.node? q = some .directory ↔
    t.node? q = some .directory

theorem Refiles.keeps (h : t.Refiles t') : t.Keeps t' where
  cwd_eq := h.cwd_eq
  directory hq := (h.directory_iff _).mpr hq

theorem Refiles.trans {t'' : Tree} (h : t.Refiles t') (h' : t'.Refiles t'') :
    t.Refiles t'' where
  proper := h'.proper
  cwd_eq := h'.cwd_eq.trans h.cwd_eq
  directory_iff q := (h'.directory_iff q).trans (h.directory_iff q)

/-- A file can be put under any name in a directory that no directory has. -/
theorem Proper.refiles_set (ht : t.Proper) (hp : t.node? p = some .directory)
    (hname : IsName name) (hn : t.node? (p ++ [name]) ≠ some .directory)
    (content : Bytes) :
    t.Refiles (t.set (p ++ [name]) (.file content)) where
  proper :=
    ht.of_putAt (putAt_set t (by simp) _) hp hname (by simp) fun hd =>
      absurd hd hn
  cwd_eq := rfl
  directory_iff q := by
    by_cases hq : q = p ++ [name]
    · rw [hq, node?_set_self t _ (by simp)]
      simp [hn]
    · rw [node?_set_of_ne t _ hq]

theorem Proper.refiles_erase (ht : t.Proper)
    (hp : t.node? p ≠ some .directory) : t.Refiles (t.erase p) where
  proper :=
    { directory_above := fun {q name n} hn => by
        have hnode : t.node? (q ++ [name]) = some n := by
          rw [ht.node?_erase hp] at hn
          split at hn
          · cases hn
          · exact hn
        have habove := ht.directory_above hnode
        rw [ht.node?_erase hp, if_neg, habove]
        rintro rfl
        exact hp habove
      isName := fun {q name n} hn => by
        rw [ht.node?_erase hp] at hn
        split at hn
        · cases hn
        · exact ht.isName hn
      ne_device := fun q hq => by
        rw [ht.node?_erase hp] at hq
        split at hq
        · cases hq
        · exact ht.ne_device q hq }
  cwd_eq := rfl
  directory_iff q := by
    rw [ht.node?_erase hp]
    split
    · next hq => simp [hq, hp]
    · rfl

/-! ### Contents of files -/

def content? (t : Tree) (p : Place) : Option Bytes :=
  match t.node? p with
  | some (.file content) => some content
  | _ => none

theorem content?_of_node? (h : t.node? p = t'.node? q) :
    t.content? p = t'.content? q := by
  rw [content?, h, content?]

theorem content?_eq_some_iff :
    t.content? p = some content ↔ t.node? p = some (.file content) := by
  rw [content?]
  split
  · next hn => simp [hn]
  · next hn =>
    constructor
    · intro h
      cases h
    · intro h
      exact absurd h (hn content)

theorem content?_of_file (h : t.node? p = some (.file content)) :
    t.content? p = some content :=
  content?_eq_some_iff.mpr h

theorem content?_eq_none (h : ∀ content, t.node? p ≠ some (.file content)) :
    t.content? p = none := by
  rw [content?]
  split
  · next hn => exact absurd hn (h _)
  · rfl

theorem content?_empty (cwd p : Place) :
    ({ cwd } : Tree).content? p = none := by
  cases p <;> rfl

theorem PutAt.content?_file (h : t.PutAt p (.file content) t') :
    t'.content? = Function.update t.content? p (some content) := by
  funext q
  by_cases hq : q = p
  · rw [hq, Function.update_self, content?_of_file h.node?_self]
  · rw [Function.update_of_ne hq, content?_of_node? (h.node?_of_ne hq)]

theorem PutAt.content?_directory (h : t.PutAt p .directory t')
    (hp : ∀ content, t.node? p ≠ some (.file content)) :
    t'.content? = t.content? := by
  funext q
  by_cases hq : q = p
  · rw [hq, content?_eq_none hp, content?_eq_none (by rw [h.node?_self]; simp)]
  · rw [content?_of_node? (h.node?_of_ne hq)]

theorem Proper.content?_erase (ht : t.Proper)
    (hp : t.node? p ≠ some .directory) :
    (t.erase p).content? = Function.update t.content? p none := by
  funext q
  have hnode := ht.node?_erase hp q
  by_cases hq : q = p
  · subst hq
    rw [if_pos rfl] at hnode
    rw [Function.update_self, content?, hnode]
  · rw [if_neg hq] at hnode
    rw [Function.update_of_ne hq, content?_of_node? hnode]

/-! ### The directory of a store -/

/-- The path `root` leads to a directory of a proper tree. -/
structure Rooted (t : Tree) (root : Bytes) (place : Place) : Prop where
  proper : t.Proper
  leads : t.Leads root place
  directory : t.node? place = some .directory

theorem Rooted.of_keeps (h : t.Rooted root place) (hk : t.Keeps t')
    (ht' : t'.Proper) : t'.Rooted root place :=
  ⟨ht', hk.leads h.leads, hk.directory h.directory⟩

theorem Rooted.of_refiles (h : t.Rooted root place) (hr : t.Refiles t') :
    t'.Rooted root place :=
  h.of_keeps hr.keeps hr.proper

theorem Rooted.join (h : t.Rooted root place) (hname : IsName name)
    (hd : t.node? (place ++ [name]) = some .directory) :
    t.Rooted (Path.join root name) (place ++ [name]) :=
  ⟨h.proper, h.leads.join h.directory hname, hd⟩

/-- A directory is made unless a file is in its place, and no file changes. -/
theorem Rooted.exists_makeDirectories (h : t.Rooted root place)
    (hname : IsName name) (hfile : t.content? (place ++ [name]) = none) :
    ∃ t', Disk.makeDirectories (Path.join root name) t = .ok () t' ∧
      t'.Rooted root place ∧
      t.PutAt (place ++ [name]) .directory t' ∧ t'.content? = t.content? := by
  have hnot : ∀ content, t.node? (place ++ [name]) ≠ some (.file content) := by
    intro content hn
    rw [content?_of_file hn] at hfile
    cases hfile
  have hother : ∀ n, t.node? (place ++ [name]) = some n → n = .directory := by
    intro n hn
    cases n with
    | file content => exact absurd hn (hnot content)
    | directory => rfl
    | device => exact absurd hn (h.proper.ne_device _)
  obtain ⟨t', hmake, hput⟩ :=
    h.leads.exists_makeDirectories_join h.directory hname hother
  have hproper :=
    h.proper.of_putAt hput h.directory hname (by simp) fun _ => rfl
  exact ⟨t', hmake, h.of_keeps (hput.keeps fun _ => rfl) hproper, hput,
    hput.content?_directory hnot⟩

theorem Leads.exists_find_join_eq_error (h : t.Leads root place)
    (hd : t.node? place ≠ some .directory) (hname : IsName name) :
    ∃ c, t.find (Path.join root name) = .error c := by
  obtain ⟨cs, hsplit, hcs⟩ := h.exists_pieces hname
  cases hfind : t.find (Path.join root name) with
  | error c => exact ⟨c, rfl⟩
  | ok found =>
    have hfollow := (leads_of_find hfind).1.follow_eq
    rw [hsplit, follow_append_of_eq_ok hcs] at hfollow
    exact absurd (node?_of_follow_cons hfollow) hd

end Files.Tree

namespace Store

variable {t : Tree} {p name : Bytes} {place : Place}

/-- A whole file that was written is there, and nothing is under its temporary
name. -/
theorem refiles_replaced (w : Writer) (h : t.Rooted p place)
    (hname : IsName name) (htemp : IsName (temporaryName w name))
    (hn : t.node? (place ++ [name]) ≠ some .directory)
    (ht : t.node? (place ++ [temporaryName w name]) ≠ some .directory)
    (content : Bytes) :
    t.Refiles (replaced w t place name content) ∧
      (replaced w t place name content).content? =
        Function.update
          (Function.update t.content? (place ++ [temporaryName w name]) none)
          (place ++ [name])
          (some content) := by
  have hset := h.proper.refiles_set h.directory htemp ht content
  have hfile : (t.set (place ++ [temporaryName w name]) (.file content)).node?
    (place ++ [temporaryName w name]) ≠
      some .directory := fun hd => ht ((hset.directory_iff _).mp hd)
  have herase := hset.trans (hset.proper.refiles_erase hfile)
  have hfinal :=
    herase.proper.refiles_set (herase.keeps.directory h.directory) hname
    (fun hd => hn ((herase.directory_iff _).mp hd)) content
  refine ⟨herase.trans hfinal, ?_⟩
  rw [replaced, (Tree.putAt_set _ (by simp) _).content?_file,
    hset.proper.content?_erase hfile,
    (Tree.putAt_set t (by simp) _).content?_file, Function.update_idem]

end Store

end Terse
