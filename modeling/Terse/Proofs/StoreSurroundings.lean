import Terse.Proofs.RunEndings

/-!
# Files beside a store

A command that uses a store also reads and writes files by paths that its user
gives, and these may lead anywhere. What is said here is that the two do not
disturb each other, if the files are aside from the store: found without going
through it, and not in it. What is stored then has no influence on what is read
from such a file (`Holds.read_of_base`, `Holds.exists_node?_of_read`), and
writing one has no influence on what is stored: the tree holds the same, over
another base (`exists_overwritten`).

At the end is what a run does with a store that holds a map, whether the output
is found or made.
-/

namespace Terse

open Files Files.Path

namespace Files.Tree

variable {base t t' : Tree} {p name content : Bytes} {q up : Place} {n : Node}

theorem Leads.read_eq (h : t.Leads p q) (hp : p ≠ [])
    (hn : t.node? q = some n) : t.read p = n.read := by
  rw [read, h.find_eq hp hn]
  rfl

theorem exists_leads_of_read (h : t.read p = .ok content) :
    p ≠ [] ∧ ∃ q n, t.Leads p q ∧ t.node? q = some n ∧
      n.read = .ok content := by
  rw [read] at h
  cases hfind : t.find p with
  | error c =>
    rw [hfind] at h
    cases h
  | ok found =>
    obtain ⟨q, n⟩ := found
    rw [hfind] at h
    obtain ⟨hleads, hn⟩ := leads_of_find hfind
    refine ⟨?_, q, n, hleads, hn, h⟩
    rintro rfl
    cases hfind

theorem AddsDirectories.read_eq {ps : List Bytes}
    (h : AddsDirectories ps t t') (hread : t.read p = .ok content) :
    t'.read p = .ok content := by
  obtain ⟨hp, q, n, hleads, hn, hcontent⟩ := exists_leads_of_read hread
  have hn' : t'.node? q = some n := by
    rcases h.node?_eq q with heq | ⟨hnone, -⟩
    · rw [heq, hn]
    · rw [hn] at hnone
      cases hnone
  rw [(h.keeps.leads hleads).read_eq hp hn', hcontent]

/-- Where a path leads is also its site, if it has one in a tree with more
directories. -/
theorem Keeps.site_of_leads (hk : base.Keeps t) (hleads : base.Leads p q)
    (hsite : t.site p = .ok (up, some name))
    (hlast : p.getLast? ≠ some separator) :
    base.site p = .ok (up, some name) ∧ q = up ++ [name] := by
  have hname := isName_of_site hsite
  obtain ⟨hz, hp, -, hhere, habove, front, hfront, hfollow⟩ :=
    site_eq_ok_iff.mp hsite
  have hpieces := hleads.follow_eq
  rw [← solid_eq_split hp hlast, hfront] at hpieces
  obtain ⟨up', hup, hstep⟩ := exists_follow_of_append hpieces
  have hstart : t.start p = base.start p := by rw [start, start, hk.cwd_eq]
  obtain rfl : up' = up :=
    Except.ok.inj ((hk.follow hup).symm.trans (hstart ▸ hfollow))
  have hd := node?_of_follow_cons hstep
  rw [follow_name hname hd] at hstep
  exact ⟨site_eq_ok_iff.mpr ⟨hz, hp, hd, hhere, habove, front, hfront, hup⟩,
    (Except.ok.inj hstep).symm⟩

end Files.Tree

namespace Store

variable {base base' t t' : Tree} {place q : Place} {m : Contents}
  {p content : Bytes} {n : Node}

/-- The place is not in the directory at `place`. -/
def Aside (place q : Place) : Prop := ∀ c r, q ≠ place ++ c :: r

theorem Vacant.fill (hv : Vacant base place) (hq : Aside place q)
    (hne : q ≠ place) (content : Bytes) :
    Vacant (base.fill q content) place where
  directory := by rw [Tree.node?_fill_of_ne _ _ hne.symm, hv.directory]
  empty c r := by rw [Tree.node?_fill_of_ne _ _ (hq c r).symm, hv.empty]

theorem Holds.fill (h : Holds base place m t) (hq : Aside place q)
    (hne : q ≠ []) (content : Bytes) :
    Holds (base.fill q content) place m (t.fill q content) where
  isDigest := h.isDigest
  cwd_eq := by
    rw [Tree.fill, Tree.fill, h.outside hq]
    split
    · exact h.cwd_eq
    · exact h.cwd_eq
  outside {q'} hq' := by
    by_cases heq : q' = q
    · rw [heq, Tree.fill, Tree.fill, h.outside hq]
      split
      · exact h.outside hq
      · rw [Tree.node?_set_self _ _ hne, Tree.node?_set_self _ _ hne]
    · rw [Tree.node?_fill_of_ne _ _ heq, Tree.node?_fill_of_ne _ _ heq,
        h.outside hq']
  shards_iff {d n'} := by
    rw [Tree.node?_fill_of_ne _ _ (hq d []).symm, h.shards_iff]
  files_iff {d f n'} := by
    rw [Tree.node?_fill_of_ne _ _ (hq d [f]).symm, h.files_iff]
  shallow d f g r := by
    rw [Tree.node?_fill_of_ne _ _ (hq d (f :: g :: r)).symm, h.shallow]

/-! ### Reading -/

theorem Holds.exists_node?_of_read (h : Holds base place m t)
    (hv : Vacant base place) (hleads : base.Leads p q) (hq : Aside place q)
    (hread : t.read p = .ok content) :
    ∃ n, base.node? q = some n ∧ n.read = .ok content := by
  obtain ⟨-, q', n, hleads', hn, hcontent⟩ := Tree.exists_leads_of_read hread
  obtain rfl := ((h.keeps hv).leads hleads).unique hleads'
  exact ⟨n, h.outside hq ▸ hn, hcontent⟩

theorem Holds.read_of_base (h : Holds base place m t) (hv : Vacant base place)
    (hleads : base.Leads p q) (hp : p ≠ []) (hn : base.node? q = some n) :
    t.read p = n.read := by
  refine ((h.keeps hv).leads hleads).read_eq hp ?_
  rw [h.outside, hn]
  rintro c r rfl
  rw [hv.empty] at hn
  cases hn

/-! ### Writing -/

/-- The tree `base'` is `base` with `output` in the file that `target` names, if
it does. The file can be written again, whatever is stored. -/
structure Overwritten (base base' : Tree) (place : Place)
    (target : Option Bytes) (output : Bytes) : Prop where
  vacant : Vacant base' place
  keeps : base.Keeps base'
  node?_eq : ∀ {q}, (∀ p, target = some p → ¬ base.Leads p q) →
    base'.node? q = base.node? q
  again : ∀ {p m u}, target = some p → Holds base' place m u →
    ∃ u', u.write p output = .ok u' ∧ Holds base' place m u'

theorem overwritten_none (hv : Vacant base place) (output : Bytes) :
    Overwritten base base place none output where
  vacant := hv
  keeps := ⟨rfl, id⟩
  node?_eq _ := rfl
  again h := by cases h

theorem exists_overwritten (h : Holds base place m t) (hv : Vacant base place)
    (hleads : base.Leads p q) (hq : Aside place q) {output : Bytes}
    (hwrite : t.write p output = .ok t') :
    ∃ base', Overwritten base base' place (some p) output ∧
      Holds base' place m t' := by
  rcases t.write_cases p with ⟨c, herror⟩ | ⟨up, name, hsite, hd, hlast, hok⟩
  · rw [herror] at hwrite
    cases hwrite
  · obtain rfl := Except.ok.inj ((hok output).symm.trans hwrite)
    obtain ⟨hsite', rfl⟩ := (h.keeps hv).site_of_leads hleads hsite hlast
    have hne : up ++ [name] ≠ [] := by simp
    have hplace : up ++ [name] ≠ place := fun heq => hd (heq ▸ h.directory hv)
    have hfile : base.node? (up ++ [name]) ≠ some .directory :=
      h.outside hq ▸ hd
    have hkeeps := Tree.keeps_fill hne hfile output
    have hv' := hv.fill hq hplace output
    refine ⟨base.fill (up ++ [name]) output,
      ⟨hv', hkeeps, fun {q} hother => ?_, fun {p' m' u} hp hu => ?_⟩,
      h.fill hq hne output⟩
    · refine Tree.node?_fill_of_ne _ _ ?_
      rintro rfl
      exact hother p rfl hleads
    · obtain rfl : p = p' := Option.some.inj hp
      have hsame := hu.fill hq hne output
      rw [Tree.fill_fill hne] at hsame
      have hsiteu := (hu.keeps hv').site_eq (hkeeps.site_eq hsite')
      have hlast' : (p.getLast? == some separator) = false :=
        beq_eq_false_iff_ne.mpr hlast
      have hdu : u.node? (up ++ [name]) ≠ some .directory :=
        hu.outside hq ▸ Tree.node?_fill_ne_directory hne hfile output
      refine ⟨_, ?_, hsame⟩
      rw [Tree.write, hsiteu]
      simp only [bind, Except.bind, hlast', Bool.false_eq_true, if_false]

end Store

/-! ### Runs -/

namespace Job

variable {j : Job} {base t t' : Tree} {root source output : Bytes} {w : Writer}
  {place : Place} {m : Store.Contents}
  {o : Outcome}

section

variable (hst : j.activeStore = some ⟨root, w⟩) (h : Store.Holds base place m t)
  (hv : Store.Vacant base place)
  (hroot : base.Leads root place)

include hst h hv hroot

theorem misses_iff :
    j.Misses t source ↔ m (.derive j.engine.options source) = none := by
  have hget :=
    h.get_eq hv hroot (Store.Key.isDigest_derive j.engine.options source) w
  constructor
  · intro hmiss
    rw [hmiss _ hst] at hget
    exact Option.map_eq_none_iff.mp (Except.ok.inj hget).symm
  · intro hm
    rw [hm] at hget
    exact misses_of_get hst hget

/-- If nothing is stored for the source, its output is made and added to what is
stored. -/
theorem exists_run_of_missing (hm : m (.derive j.engine.options source) = none)
    (happly : j.engine.apply source = .ok output) :
    ∃ t', j.run source t = .ok (j.outcome ⟨root, w⟩ source output false) t' ∧
      Store.Holds base place
        (m.insert (.derive j.engine.options source) ⟨output, source.length,
          w.now⟩) t' := by
  have hmiss := (misses_iff hst h hv hroot).mpr hm
  obtain ⟨p, t', hput, hholds⟩ :=
    h.exists_put hv hroot (Store.Key.isDigest_derive j.engine.options source) w
      source.length output
  exact ⟨t', run_of_put_eq_ok hst (hmiss _ hst) happly hput, hholds⟩

/-- A run that succeeds has found the output, or has made it and added it to
what is stored. -/
theorem holds_of_run_eq_ok (hrun : j.run source t = .ok o t') :
    (∃ v, m (.derive j.engine.options source) = some v ∧
      o = j.outcome ⟨root, w⟩ source v.output true ∧
        Store.Holds base place m t') ∨
      ∃ output, m (.derive j.engine.options source) = none ∧
        j.engine.apply source = .ok output ∧
        o = j.outcome ⟨root, w⟩ source output false ∧
        Store.Holds base place
          (m.insert (.derive j.engine.options source) ⟨output, source.length,
            w.now⟩) t' := by
  cases hm : m (.derive j.engine.options source) with
  | some v =>
    have hget :=
      h.get_eq hv hroot (Store.Key.isDigest_derive j.engine.options source) w
    rw [hm] at hget
    rw [run_of_found hst hget] at hrun
    cases hrun
    exact .inl ⟨v, rfl, rfl, h⟩
  | none =>
    cases happly : j.engine.apply source with
    | error f =>
      rw [run_of_apply_eq_error ((misses_iff hst h hv hroot).mpr hm)
        happly] at hrun
      cases hrun
    | ok output =>
      obtain ⟨t₁, hrun', hholds⟩ :=
        exists_run_of_missing hst h hv hroot hm happly
      rw [hrun'] at hrun
      cases hrun
      exact .inr ⟨output, rfl, rfl, rfl, hholds⟩

end

end Job

end Terse
