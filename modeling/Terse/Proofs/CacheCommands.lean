import Terse.Proofs.ExitStatus
import Terse.Proofs.Idempotence
import Terse.Proofs.PrintedListing
import Terse.Proofs.StoreRefinement
import Terse.Proofs.StoreSurroundings

/-!
# The minify command and the commands for its store

Both kinds of command look for the directory of the store on their own: the
first lays its options over the settings and asks them, the second takes the
directory that is named and reads settings only if none is. They come to the
same one (`cacheDirectory_eq`). So what one of them leaves is there for the
next, and a session can be followed from tree to tree: the command stores an
output (`Prepared.exists_kept`), listing shows it (`exists_run_cacheList`),
clearing takes it (`exists_run_cacheClear`), and the command stores it again
(`Prepared.exists_minify_again`). `execute_minify_shares_store` puts this
together.

A session can go wrong by way of the files that are named. If the output is
written over the settings, later commands read other settings or none, and if it
is written over the source, another output is stored the next time. `Separate`
says that nothing of the kind happens, and that none of the files is in the
store.
-/

namespace Terse

open Files

/-! ### Opening a job -/

/-- The job that the settings describe, with a store. -/
def Settings.job (s : Settings) (st : Store) : Job where
  engine := .ofSettings s
  store := some st
  suppress := s.suppressesResult

namespace Job

variable {w : Writer} {env : Environment} {s : Settings} {t t' : Tree} {j : Job}
  {root source output : Bytes}

theorem activeStore_job (hs : s.usesStore = true) (st : Store) :
    (s.job st).activeStore = some st := by
  rw [activeStore, Settings.job, Engine.ofSettings_of_usesStore hs]
  rfl

theorem options_job (hs : s.usesStore = true) (st : Store) :
    (s.job st).engine.options = s.options := by
  rw [Settings.job, Engine.ofSettings_of_usesStore hs]
  rfl

theorem ofSettings_eq_of_usesStore (hc : s.contradiction? = none)
    (hs : s.usesStore = true) (hroot : s.cacheDirectory? env = some root)
    (w : Writer) (t : Tree) :
    ofSettings w env s t =
      match Disk.makeDirectories root t with
      | .ok _ t' => .ok (s.job ⟨root, w⟩) t'
      | .error c t' => .error (.store
          ("cannot create cache directory " ++ Text.Utf8.display root ++ ": " ++
            c.message)) t' := by
  have hcond : (s.isDryRun || !s.usesCache) = false := by
    obtain ⟨hdry, hcache⟩ := Bool.and_eq_true_iff.mp hs
    have hdry : s.isDryRun = false := by simpa using hdry
    rw [hcache, hdry]
    rfl
  rw [ofSettings, hc]
  simp only [hcond, hroot, bind, EStateM.bind, Store.create_eq,
    Bool.false_eq_true, if_false]
  cases Disk.makeDirectories root t <;> rfl

theorem exists_root_of_ofSettings (h : ofSettings w env s t = .ok j t')
    (hs : s.usesStore = true) :
    ∃ root, s.cacheDirectory? env = some root ∧ s.contradiction? = none ∧
      j = s.job ⟨root, w⟩ ∧
      Disk.makeDirectories root t = .ok () t' := by
  obtain ⟨hj, ⟨hs', -⟩ | ⟨-, root, hroot, hmake⟩⟩ :=
    ofSettings_eq_ok h fun _ _ hroot => hroot
  · rw [hs] at hs'
    cases hs'
  · rw [ofSettings_eq_of_usesStore hj.consistent hs hroot, hmake] at h
    cases h
    exact ⟨root, hroot, hj.consistent, rfl, hmake⟩

end Job

/-! ### A store with nothing else in it -/

namespace Store

variable {base t : Tree} {root : Bytes} {place : Place} {m : Contents}

/-- The directory at `place`, to which `root` leads also when it is empty, holds
what `m` says and nothing else. -/
structure Keeping (base : Tree) (root : Bytes) (place : Place) (m : Contents)
    (t : Tree) : Prop where
  vacant : Vacant base place
  leads : base.Leads root place
  holds : Holds base place m t
  bounded : m.Bounded

theorem Keeping.makeDirectories_eq (hk : Keeping base root place m t) :
    Disk.makeDirectories root t = .ok () t :=
  (hk.holds.leads hk.vacant hk.leads).makeDirectories_eq
    (hk.holds.directory hk.vacant)

theorem Keeping.exists_entries (hk : Keeping base root place m t)
    (hne : root ≠ []) (w : Writer) :
    ∃ es, Store.entries ⟨root, w⟩ t = .ok es ∧ (∀ e, e ∈ es ↔ m.Lists e) ∧
      es.Pairwise fun a b => a.key.bytes < b.key.bytes :=
  hk.holds.exists_entriesBy hk.vacant hk.leads hk.bounded hne w .byName

/-- In a list that is sorted by the keys, an entry is the only one with its
key. -/
theorem filter_key_eq {es : List Entry} {e : Entry}
    (hsorted : es.Pairwise fun a b => a.key.bytes < b.key.bytes) (he : e ∈ es) :
    es.filter (·.key = e.key) = [e] := by
  induction es with
  | nil => cases he
  | cons a es ih =>
    obtain ⟨hlt, hsorted⟩ := List.pairwise_cons.mp hsorted
    rcases List.mem_cons.mp he with rfl | he
    · have hnone : es.filter (·.key = e.key) = [] := by
        refine List.filter_eq_nil_iff.mpr fun b hb => ?_
        have hne : b.key ≠ e.key :=
          fun hkey => List.lt_irrefl _ (hkey ▸ hlt b hb)
        simpa using hne
      rw [List.filter_cons_of_pos (by simp), hnone]
    · have hne : a.key ≠ e.key := fun hkey => List.lt_irrefl _ (hkey ▸ hlt e he)
      rw [List.filter_cons_of_neg (by simpa using hne), ih hsorted he]

theorem Keeping.entries_eq {k : Key} {v : Deposit}
    (hk : Keeping base root place (Contents.empty.insert k v) t)
    (hne : root ≠ []) (w : Writer) :
    Store.entries ⟨root, w⟩ t = .ok [v.entry k] := by
  obtain ⟨es, hes, hmem, hsorted⟩ := hk.exists_entries hne w
  have hself : v.entry k ∈ es :=
    (hmem _).mpr ⟨v, Contents.insert_self _ k v, rfl⟩
  have hall : es.filter (·.key = k) = es := by
    refine List.filter_eq_self.mpr fun e he => decide_eq_true ?_
    by_contra hkey
    obtain ⟨v', hv', -⟩ := (hmem e).mp he
    rw [Contents.insert_of_ne _ v hkey] at hv'
    cases hv'
  rw [hes, ← filter_key_eq hsorted hself]
  exact congrArg Except.ok hall.symm

end Store

namespace Command

def Location.files (location : Location) : List Bytes :=
  if location.cacheDirectory.isSome then [] else location.config.toList

/-- The store of a request, in the words of the commands for the store. -/
def MinifyRequest.location (r : MinifyRequest) : Location where
  cacheDirectory := r.cacheDirectory
  config := r.config

/-- Where the payload of a request is written to, if it is to be written to a
file. -/
def MinifyRequest.target (r : MinifyRequest) (s : Settings) : Option Bytes :=
  if s.suppressesResult then none else r.output

namespace Shell

variable {i : Invocation} {r : MinifyRequest} {quiet : Bool} {h h' h₂ : Host}
  {s b : Settings} {j : Job}
  {source output root : Bytes} {t : Tree} {base base' : Tree} {place : Place}
  {m : Store.Contents} {location : Location}

/-! ### Which store -/

/-- Settings are read from the file that is named, and from nothing else. -/
theorem loadSettings_of_read {p : Option Bytes}
    (hload : loadSettings p h = .ok b h)
    (hread : ∀ q c, p = some q → h.tree.read q = .ok c →
      h₂.tree.read q = .ok c) :
    loadSettings p h₂ = .ok b h₂ := by
  cases p with
  | none =>
    cases hload
    rfl
  | some q =>
    simp only [loadSettings, readSettings, bind, EStateM.bind, disk,
      Disk.ask] at hload ⊢
    cases hq : h.tree.read q with
    | error c =>
      rw [hq] at hload
      cases hload
    | ok content =>
      rw [hq] at hload
      rw [hread q content rfl hq]
      dsimp only at hload ⊢
      cases htext : Text.Utf8.toString? content with
      | none =>
        rw [htext] at hload
        cases hload
      | some text =>
        rw [htext] at hload
        dsimp only at hload ⊢
        cases hdocument : Settings.ofDocument? text with
        | none =>
          rw [hdocument] at hload
          cases hload
        | some s =>
          rw [hdocument] at hload
          cases hload
          rfl

/-- A directory that is named comes before the settings in both kinds of
command, so both come to the same one. -/
theorem cacheDirectory_eq
    (hload : r.cacheDirectory = none → loadSettings r.config h = .ok b h)
    (hroot : ((requestedSettings r).laidOver b).cacheDirectory? h.environment =
      some root) :
    cacheDirectory r.location h = .ok root h := by
  rw [cacheDirectory, MinifyRequest.location]
  cases hdir : r.cacheDirectory with
  | some p =>
    have hp : some p = some root := by
      simpa [Settings.cacheDirectory?, Settings.laidOver, requestedSettings,
        hdir] using hroot
    rw [Option.some.inj hp]
    rfl
  | none =>
    have hb : b.cacheDirectory? h.environment = some root := by
      simpa [Settings.cacheDirectory?, Settings.laidOver, requestedSettings,
        hdir] using hroot
    simp only [bind, EStateM.bind, hload hdir, get_apply, hb]
    rfl

/-! ### What the commands for the store do -/

theorem execute_of_run_eq_ok (hrun : run i h = .ok () h') :
    execute i h = (0, h') := by
  rw [execute, hrun]

theorem run_cachePath (hi : i.request = .cachePath location)
    (hdir : cacheDirectory location h = .ok root h) :
    run i h = .ok () { h with
      output :=
        h.output ++ Bytes.ofString (Text.Utf8.display root ++ "\n") } := by
  rw [run, hi]
  simp only [cachePath, bind, EStateM.bind, hdir]
  rfl

section

variable (hdir : cacheDirectory location h = .ok root h)
  (hk : Store.Keeping base root place m h.tree)

include hdir hk

theorem openStore_eq : openStore location h = .ok ⟨root, h.writer⟩ h := by
  simp only [openStore, bind, EStateM.bind, hdir, get_apply, disk,
    Store.create_eq, hk.makeDirectories_eq]

theorem exists_run_cacheList (hi : i.request = .cacheList location)
    (hne : root ≠ []) {k : Store.Key} {v : Store.Deposit}
    (hkey : m k = some v) :
    ∃ text, run i h =
        .ok () { h with output := h.output ++ Bytes.ofString text } ∧
      Report.shown k text = [((toString v.sourceLength).toList,
        (toString v.output.length).toList)] := by
  obtain ⟨es, hes, hmem, hsorted⟩ := hk.exists_entries hne h.writer
  have hself : v.entry k ∈ es := (hmem (v.entry k)).mpr ⟨v, hkey, rfl⟩
  have hdigest : ∀ e ∈ es, e.key.IsDigest := by
    intro e he
    obtain ⟨v', hv', -⟩ := (hmem e).mp he
    exact hk.holds.isDigest hv'
  refine ⟨(Report.listing es).render, ?_, ?_⟩
  · rw [run, hi]
    simp only [cacheList, bind, EStateM.bind, openStore_eq hdir hk,
      get_apply, hes]
    cases es with
    | nil => cases hself
    | cons e es => rfl
  · rw [Report.shown_listing (hk.holds.isDigest hkey) hdigest]
    have honly : es.filter (·.key = k) = [v.entry k] :=
      Store.filter_key_eq hsorted hself
    rw [honly]
    rfl

theorem exists_run_cacheClear (hi : i.request = .cacheClear location true)
    (hne : root ≠ []) :
    ∃ h', run i h = .ok () h' ∧
      Store.Keeping base root place .empty h'.tree := by
  obtain ⟨ks, t', hclear, -, -, hempty⟩ :=
    hk.holds.exists_clearBy hk.vacant hk.leads hne h.writer .byName
  have hclear : Store.clear ⟨root, h.writer⟩ h.tree = .ok ks.length t' := hclear
  obtain ⟨messages, hnotify⟩ := exists_notify i.quiet .success
    ("Removed " ++ toString ks.length ++ " cached output(s).")
      { h with tree := t' }
  refine ⟨{ h with tree := t', messages := messages }, ?_, hk.vacant, hk.leads,
    hempty, Store.Contents.bounded_empty⟩
  rw [run, hi]
  simp only [cacheClear, bind, EStateM.bind, openStore_eq hdir hk, if_true,
    pure, EStateM.pure]
  simp only [disk, hclear]
  exact hnotify

end

/-! ### Files that are named -/

/-- The files `ps` and the file `target`, if it is given, are found without
going through the store and are not in it, and `target` is none of `ps`. -/
structure Separate (ps : List Bytes) (target : Option Bytes) (base : Tree)
    (place : Place) : Prop where
  aside : ∀ p ∈ ps ++ target.toList, ∃ q, base.Leads p q ∧ Store.Aside place q
  apart : ∀ p ∈ ps, ∀ p', target = some p' → ∀ q, base.Leads p q →
    ¬ base.Leads p' q

theorem Separate.of_append {ps ps' : List Bytes} {target : Option Bytes}
    (h : Separate (ps ++ ps') target base place) :
    Separate ps target base place where
  aside p hp := h.aside p (by
    rcases List.mem_append.mp hp with hp | hp
    · exact List.mem_append_left _ (List.mem_append_left _ hp)
    · exact List.mem_append_right _ hp)
  apart p hp := h.apart p (List.mem_append_left _ hp)

/-- Such files are read alike, whatever is stored and when the target has been
written. -/
theorem Separate.read_eq {ps : List Bytes} {target : Option Bytes}
    {m' : Store.Contents} {u : Tree} {p content : Bytes}
    (h : Separate ps target base place) (hp : p ∈ ps)
    (hv : Store.Vacant base place) (hholds : Store.Holds base place m t)
    (hover : Store.Overwritten base base' place target output)
    (hu : Store.Holds base' place m' u) (hread : t.read p = .ok content) :
    u.read p = .ok content := by
  obtain ⟨q, hleads, hq⟩ := h.aside p (List.mem_append_left _ hp)
  obtain ⟨n, hn, hcontent⟩ := hholds.exists_node?_of_read hv hleads hq hread
  rw [← hover.node?_eq fun p' hp' => h.apart p hp p' hp' q hleads] at hn
  rw [hu.read_of_base hover.vacant (hover.keeps.leads hleads)
    (Tree.exists_leads_of_read hread).1 hn, hcontent]

/-! ### The command and what it leaves -/

namespace Prepared

section

variable (hp : Prepared r h s j source t)

include hp

/-- A command that uses a store opens it where the commands for the store look,
if they read the same settings. -/
theorem exists_root (hs : s.usesStore = true) :
    ∃ root, s.cacheDirectory? h.environment = some root ∧
      j = s.job ⟨root, h.writer⟩ ∧
      ∀ h₂, h₂.environment = h.environment →
        (∀ p ∈ r.location.files, ∀ c, h.tree.read p = .ok c →
          h₂.tree.read p = .ok c) →
          cacheDirectory r.location h₂ = .ok root h₂ := by
  obtain ⟨b, hload, rfl⟩ := hp.loads
  obtain ⟨root, hroot, -, rfl, -⟩ := Job.exists_root_of_ofSettings hp.opens hs
  refine ⟨root, hroot, rfl, fun h₂ henv hread => ?_⟩
  refine cacheDirectory_eq
    (fun hnone => loadSettings_of_read hload fun q c hq => hread q ?_ c)
    (henv ▸ hroot)
  simp [Location.files, MinifyRequest.location, hnone, hq]

/-- What is read from a file before the job is opened is read afterwards. -/
theorem read_eq {p content : Bytes} (hread : h.tree.read p = .ok content) :
    t.read p = .ok content := by
  rcases hp.opened_cases with rfl | ⟨st, -, hadds⟩
  · exact hread
  · exact hadds.read_eq hread

/-- On a host with the same settings and source, where the directory of the
store is, the command gets as far. -/
theorem again (hs : s.usesStore = true)
    (hroot : s.cacheDirectory? h.environment = some root)
    (henv : h₂.environment = h.environment)
    (hread : ∀ p ∈ r.config.toList ++ r.inputFile.toList, ∀ c,
      t.read p = .ok c → h₂.tree.read p = .ok c)
    (hinput : r.inputFile = none → h₂.input = h.input)
    (hmake : Disk.makeDirectories root h₂.tree = .ok () h₂.tree) :
    Prepared r h₂ s (s.job ⟨root, h₂.writer⟩) source h₂.tree where
  loads := by
    obtain ⟨b, hload, rfl⟩ := hp.loads
    refine ⟨b, loadSettings_of_read hload fun q c hq hc => ?_, rfl⟩
    exact hread q (List.mem_append_left _ (Option.mem_toList.mpr hq)) c
      (hp.read_eq hc)
  opens := by
    rw [Job.ofSettings_eq_of_usesStore hp.serves.consistent hs (henv ▸ hroot),
      hmake]
  reads := by
    obtain ⟨h', hsource⟩ := hp.reads
    cases hfile : r.inputFile with
    | none =>
      rw [hfile] at hsource
      cases hsource
      exact ⟨_, congrArg (EStateM.Result.ok · _) (hinput hfile)⟩
    | some p =>
      rw [hfile] at hsource
      simp only [readSource, disk, Disk.ask] at hsource ⊢
      cases hc : t.read p with
      | error c =>
        rw [hc] at hsource
        cases hsource
      | ok content =>
        rw [hc] at hsource
        cases hsource
        rw [hread p
          (List.mem_append_right _ (Option.mem_toList.mpr hfile)) _ hc]
        exact ⟨_, rfl⟩

end

end Prepared

section

variable {o : Outcome} (hpayload : o.payload = if s.suppressesResult then
  none else some output)

include hpayload

/-- Delivering an outcome changes the tree at the target, if there is one. -/
theorem Delivered.tree_cases (hd : Delivered o r.output h h') :
    (r.target s = none ∧ h'.tree = h.tree) ∨
      ∃ p, r.target s = some p ∧ h.tree.write p output = .ok h'.tree := by
  rw [MinifyRequest.target]
  cases hs : s.suppressesResult with
  | true =>
    rw [hs] at hpayload
    exact .inl ⟨rfl, hd.tree_eq hpayload⟩
  | false =>
    rw [hs] at hpayload
    rw [Delivered.eq_def, hpayload] at hd
    cases hout : r.output with
    | none =>
      rw [hout] at hd
      exact .inl ⟨rfl, hd.2⟩
    | some p =>
      rw [hout] at hd
      exact .inr ⟨p, rfl, hd.2⟩

theorem Undeliverable.exists_target (hu : Undeliverable o r.output t) :
    ∃ p c, r.target s = some p ∧ t.write p output = .error c := by
  obtain ⟨text, p, c, htext, hout, hwrite⟩ := hu
  rw [htext] at hpayload
  rw [MinifyRequest.target]
  cases hs : s.suppressesResult with
  | true =>
    rw [hs] at hpayload
    cases hpayload
  | false =>
    rw [hs] at hpayload
    obtain rfl : text = output := Option.some.inj hpayload
    exact ⟨p, c, hout, hwrite⟩

theorem Delivered.exists_overwritten (hd : Delivered o r.output h h')
    (hk : Store.Keeping base root place m h.tree)
    (haside : ∀ p, r.target s = some p → ∃ q, base.Leads p q ∧
      Store.Aside place q) :
    ∃ base', Store.Overwritten base base' place (r.target s) output ∧
      Store.Keeping base' root place m h'.tree := by
  rcases hd.tree_cases hpayload with ⟨hnone, htree⟩ | ⟨p, hsome, hwrite⟩
  · rw [hnone, htree]
    exact ⟨base, Store.overwritten_none hk.vacant output, hk⟩
  · obtain ⟨q, hleads, hq⟩ := haside p hsome
    obtain ⟨base', hover, hholds⟩ :=
      Store.exists_overwritten hk.holds hk.vacant hleads hq hwrite
    rw [hsome]
    exact ⟨base', hover, hover.vacant, hover.keeps.leads hk.leads,
      hholds, hk.bounded⟩

end

/-- What a command that succeeds leaves: the output where it was asked for, and
what is stored. -/
theorem Prepared.exists_kept
    (hp : Prepared r h s (s.job ⟨root, h.writer⟩) source t)
    (hs : s.usesStore = true) (hm : minify r quiet h = .ok () h')
    (hk : Store.Keeping base root place m t)
    (hbound : source.length < Store.Entry.lengthBound)
    (hmade : ∀ v, m (.derive s.options source) = some v →
      Script.minify s.options source = .ok v.output)
    (haside : ∀ p, r.target s = some p → ∃ q, base.Leads p q ∧
      Store.Aside place q) :
    ∃ output base' m', Script.minify s.options source = .ok output ∧
      Store.Overwritten base base' place (r.target s) output ∧
        Store.Keeping base' root place m' h'.tree ∧
      (m (.derive s.options source) = none →
        m' (.derive s.options source) = some ⟨output, source.length,
          h.writer.now⟩) := by
  have hst := Job.activeStore_job hs ⟨root, h.writer⟩
  obtain ⟨o, t', h₁, hrun, -, rfl, hdelivered⟩ := hp.exists_delivered hm
  have hcases := Job.holds_of_run_eq_ok hst hk.holds hk.vacant hk.leads hrun
  rw [Job.options_job hs] at hcases
  rcases hcases with ⟨v, hv, rfl, hholds⟩ | ⟨output, hnone, happly, rfl, hholds⟩
  · obtain ⟨base', hover, hk'⟩ :=
      hdelivered.exists_overwritten rfl ⟨hk.vacant, hk.leads, hholds,
        hk.bounded⟩ haside
    refine ⟨v.output, base', m, hmade v hv, hover, hk', fun hnone => ?_⟩
    rw [hv] at hnone
    cases hnone
  · have hminify : Script.minify s.options source = .ok output :=
      (Settings.transform_eq_ok_iff hs).mp happly
    have hlength := Script.length_minify_le hminify
    obtain ⟨base', hover, hk'⟩ := hdelivered.exists_overwritten rfl
      ⟨hk.vacant, hk.leads, hholds,
        hk.bounded.insert ⟨hbound, by dsimp only; omega⟩⟩ haside
    exact ⟨output, base', _, hminify, hover, hk',
      fun _ => Store.Contents.insert_self _ _ _⟩

/-- The command once more, when nothing is stored for its source: it succeeds
and stores the output. -/
theorem Prepared.exists_minify_again
    (hp : Prepared r h s (s.job ⟨root, h.writer⟩) source h.tree)
    (hs : s.usesStore = true)
    (hover : Store.Overwritten base base' place (r.target s) output)
    (hk : Store.Keeping base' root place m h.tree)
    (hbound : source.length < Store.Entry.lengthBound)
    (hnone : m (.derive s.options source) = none)
    (hminify : Script.minify s.options source = .ok output) (quiet : Bool) :
    ∃ h', minify r quiet h = .ok () h' ∧
      Store.Keeping base' root place
        (m.insert (.derive s.options source) ⟨output, source.length,
          h.writer.now⟩)
        h'.tree := by
  have hst := Job.activeStore_job hs ⟨root, h.writer⟩
  have happly : (s.job ⟨root, h.writer⟩).engine.apply source = .ok output :=
    (Settings.transform_eq_ok_iff hs).mpr hminify
  have hlength := Script.length_minify_le hminify
  obtain ⟨h₁, hstart, htree, -⟩ := hp.exists_minify_eq quiet
  obtain ⟨t', hrun, hholds⟩ :=
    Job.exists_run_of_missing hst hk.holds hk.vacant hk.leads
    (by rw [Job.options_job hs, hnone]) happly
  rw [Job.options_job hs] at hholds
  rw [← htree] at hrun
  have hbounded := hk.bounded.insert (k := .derive s.options source)
    (v := ⟨output, source.length, h.writer.now⟩)
    ⟨hbound, by dsimp only; omega⟩
  rw [hstart]
  rcases conclude_of_run_eq_ok hrun with
    ⟨d, h', -, -, hu⟩ | ⟨h', hok, hdelivered⟩
  · obtain ⟨p, c, htarget, hwrite⟩ := hu.exists_target (s := s) rfl
    obtain ⟨u, hu, -⟩ := hover.again htarget hholds
    rw [hwrite] at hu
    cases hu
  · refine ⟨h', hok, hk.vacant, hk.leads, ?_, hbounded⟩
    rcases hdelivered.tree_cases (s := s) rfl with
      ⟨-, hsame⟩ | ⟨p, htarget, hwrite⟩
    · rw [hsame]
      exact hholds
    · obtain ⟨u, hu, hholds'⟩ := hover.again htarget hholds
      rw [hwrite] at hu
      cases hu
      exact hholds'

/-! ### One session -/

/-- The command prints a text, in which one line starts with the key of the
entry `e`, and there its lengths are told. -/
def Prints (i : Invocation) (h : Host) (e : Store.Entry) : Prop :=
  ∃ text, execute i h =
      (0, { h with output := h.output ++ Bytes.ofString text }) ∧
    Report.shown e.key text = [((toString e.sourceLength).toList,
      (toString e.outputLength).toList)]

/-- The command stores the output of a source anew: it finds nothing, succeeds,
and then the output is found and its entry is the only one. -/
structure StoresAnew (i : Invocation) (r : MinifyRequest) (s : Settings)
    (root source output : Bytes) (h : Host) :
    Prop where
  prepared : Prepared r h s (s.job ⟨root, h.writer⟩) source h.tree
  misses : (s.job ⟨root, h.writer⟩).Misses h.tree source
  succeeds : (execute i h).1 = 0
  get_eq :
    Store.get ⟨root, h.writer⟩ (execute i h).2.tree (.derive s.options source) =
      .ok (some output)
  entries_eq : Store.entries ⟨root, h.writer⟩ (execute i h).2.tree =
    .ok [⟨.derive s.options source, source.length, output.length, h.writer.now⟩]

theorem Prepared.storesAnew
    (hp : Prepared r h s (s.job ⟨root, h.writer⟩) source h.tree)
    (hr : i.request = .minify r) (hs : s.usesStore = true)
    (hover : Store.Overwritten base base' place (r.target s) output)
    (hk : Store.Keeping base' root place .empty h.tree) (hne : root ≠ [])
    (hbound : source.length < Store.Entry.lengthBound)
    (hminify : Script.minify s.options source = .ok output) :
    StoresAnew i r s root source output h := by
  obtain ⟨h', hm, hk'⟩ :=
    hp.exists_minify_again hs hover hk hbound rfl hminify i.quiet
  have hexec : execute i h = (0, h') := by rw [execute_eq hr, hm]
  have hget :=
    hk'.holds.get_eq hk'.vacant hk'.leads
      (Store.Key.isDigest_derive s.options source) h.writer
  rw [Store.Contents.insert_self] at hget
  refine ⟨hp, ?_, ?_, ?_, ?_⟩
  · exact (Job.misses_iff (Job.activeStore_job hs _) hk.holds hk.vacant
      hk.leads).mpr rfl
  · rw [hexec]
  · rw [hexec]
    exact hget
  · rw [hexec]
    exact hk'.entries_eq hne h.writer

/-- A command that succeeds and the commands for the store, given the same
options, are about the same directory. If nothing but outputs is stored there
and no file that is named is in the way, listing shows what the command stored,
and after clearing the command stores it again. -/
theorem execute_minify_shares_store (hr : i.request = .minify r)
    (hp : Prepared r h s j source t) (hs : s.usesStore = true)
    (hstatus : (execute i h).1 = 0) :
    ∃ root, j = s.job ⟨root, h.writer⟩ ∧
      (∀ i₂ h₂, i₂.request = .cachePath r.location →
        h₂.environment = h.environment →
        (∀ p ∈ r.location.files, ∀ c, h.tree.read p = .ok c →
          h₂.tree.read p = .ok c) →
          cacheDirectory r.location h₂ = .ok root h₂ ∧
          execute i₂ h₂ = (0, { h₂ with
            output := h₂.output ++
              Bytes.ofString (Text.Utf8.display root ++ "\n") })) ∧
      ∀ base place m, root ≠ [] → Store.Keeping base root place m t →
        source.length < Store.Entry.lengthBound →
        (∀ v, m (.derive s.options source) = some v →
          Script.minify s.options source = .ok v.output) →
        Separate r.location.files (r.target s) base place →
          ∃ output, Script.minify s.options source = .ok output ∧
            ∀ i₂ h₂, h₂.tree = (execute i h).2.tree →
              h₂.environment = h.environment →
              (i₂.request = .cacheList r.location → j.Misses t source →
                Prints i₂ h₂ ⟨.derive s.options source, source.length,
                  output.length, h.writer.now⟩) ∧
              (i₂.request = .cacheClear r.location true →
                (execute i₂ h₂).1 = 0 ∧
                  (Separate (r.config.toList ++ r.inputFile.toList)
                    (r.target s) base place →
                    ∀ h₃, h₃.tree = (execute i₂ h₂).2.tree →
                      h₃.environment = h.environment →
                      (r.inputFile = none → h₃.input = h.input) →
                        StoresAnew i r s root source output h₃)) := by
  have hm := minify_eq_ok_of_execute hr hstatus
  obtain ⟨root, hroot, rfl, hdir⟩ := hp.exists_root hs
  refine ⟨root, rfl, fun i₂ h₂ hi₂ henv hread => ?_,
    fun base place m hne hk hbound hmade hsep => ?_⟩
  · have hdir₂ := hdir h₂ henv hread
    exact ⟨hdir₂, execute_of_run_eq_ok (run_cachePath hi₂ hdir₂)⟩
  obtain ⟨output, base', m', hminify, hover, hk', hstored⟩ :=
    hp.exists_kept hs hm hk hbound hmade fun p htarget => hsep.aside p
      (List.mem_append_right _ (by simp [htarget]))
  refine ⟨output, hminify, fun i₂ h₂ htree henv => ?_⟩
  rw [← htree] at hk'
  have hdir₂ : cacheDirectory r.location h₂ = .ok root h₂ :=
    hdir h₂ henv fun p hconfig c hc =>
    hsep.read_eq hconfig hk.vacant hk.holds hover hk'.holds (hp.read_eq hc)
  constructor
  · intro hi₂ hmiss
    rw [Job.misses_iff (Job.activeStore_job hs _) hk.holds hk.vacant hk.leads,
      Job.options_job hs] at hmiss
    obtain ⟨text, hrun, hshown⟩ :=
      exists_run_cacheList hdir₂ hk' hi₂ hne (hstored hmiss)
    exact ⟨text, execute_of_run_eq_ok hrun, hshown⟩
  · intro hi₂
    obtain ⟨h', hrun, hempty⟩ := exists_run_cacheClear hdir₂ hk' hi₂ hne
    rw [execute_of_run_eq_ok hrun]
    refine ⟨rfl, fun hsep h₃ htree₃ henv₃ hinput => ?_⟩
    rw [← htree₃] at hempty
    have hp₃ := hp.again hs hroot henv₃
      (fun p hfile c => hsep.read_eq hfile hk.vacant hk.holds hover
        hempty.holds) hinput hempty.makeDirectories_eq
    exact hp₃.storesAnew hr hs hover hempty hne hbound hminify

/-! ### Sessions on a small tree -/

/-- A request with settings in the file `s`. -/
def configured (source? target? : Option String) : MinifyRequest where
  inputFile := source?.map Bytes.ofAscii
  output := target?.map Bytes.ofAscii
  config := some (Bytes.ofAscii "s")

/-- A tree with an empty directory `c`, settings in the file `s` and a source in
the file `a`. -/
def settledTree (settings : String) : Tree :=
  ((({} : Tree).set [Bytes.ofAscii "c"] .directory).set [Bytes.ofAscii "s"]
    (.file (Bytes.ofAscii settings))).set
    [Bytes.ofAscii "a"] (.file (Bytes.ofAscii "a = 1;"))

/-- A host with such a tree, where the environment names a directory and the
source is also the input. -/
def settledHost (settings directory : String) : Host where
  tree := settledTree settings
  environment := { cacheDirectory := some (Bytes.ofAscii directory) }
  writer := ⟨1, "now"⟩
  input := Bytes.ofAscii "a = 1;"

theorem keeping_settledTree (settings : String) :
    Store.Keeping (settledTree settings) (Bytes.ofAscii "c")
      [Bytes.ofAscii "c"] .empty (settledTree settings) := by
  have hv : Store.Vacant (settledTree settings) [Bytes.ofAscii "c"] :=
    ⟨rfl, fun _ _ => rfl⟩
  exact ⟨hv, ⟨by decide, rfl⟩, hv.holds, Store.Contents.bounded_empty⟩

theorem separate_of_leads {name : Bytes} {ps : List Bytes}
    {target : Option Bytes}
    (hnames : ∀ p ∈ ps ++ target.toList, base.Leads p [p] ∧ p ≠ name)
    (hne : ∀ p ∈ ps, target ≠ some p) :
    Separate ps target base [name] where
  aside p hp := by
    obtain ⟨hleads, hname⟩ := hnames p hp
    exact ⟨[p], hleads, fun c r heq => hname (List.cons.inj heq).1⟩
  apart p hp p' hp' q hq hq' := by
    have hleads := (hnames p (List.mem_append_left _ hp)).1
    have hleads' := (hnames p' (List.mem_append_right _ (by simp [hp']))).1
    have hsame : [p'] = [p] :=
      (hleads'.unique hq').trans (hleads.unique hq).symm
    exact hne p hp (hp'.trans (congrArg some (List.cons.inj hsame).1))

theorem separate_settledTree (settings : String) :
    Separate [Bytes.ofAscii "s", Bytes.ofAscii "a"] (some (Bytes.ofAscii "o"))
      (settledTree settings)
      [Bytes.ofAscii "c"] := by
  refine separate_of_leads ?_ (by decide)
  simp only [Option.toList_some, List.cons_append, List.nil_append,
    List.forall_mem_cons, List.not_mem_nil,
    false_implies, implies_true, and_true]
  exact ⟨⟨⟨by decide, rfl⟩, by decide⟩, ⟨⟨by decide, rfl⟩, by decide⟩,
    ⟨by decide, rfl⟩, by decide⟩

/-- The settings that such a request comes to. -/
def settled (b : Settings) : Settings :=
  (requestedSettings (configured none none)).laidOver
    (.merged .default (some b))

theorem prepared_settledHost (settings directory : String) {b : Settings}
    (source? target? : Option String)
    (hdocument : Settings.ofDocument? settings = some b)
    (hascii : Text.Utf8.toString? (Bytes.ofAscii settings) = some settings)
    (hs : (settled b).usesStore = true)
    (hsuppress : (settled b).suppressesResult = false)
    (hroot :
      (settled b).cacheDirectory? (settledHost settings directory).environment =
        some (Bytes.ofAscii "c"))
    (hreads : ∃ h',
      readSource (configured source? target?).inputFile
      (settledHost settings directory) = .ok (Bytes.ofAscii "a = 1;") h') :
    Prepared (configured source? target?) (settledHost settings directory)
      (settled b)
      ((settled b).job ⟨Bytes.ofAscii "c", ⟨1, "now"⟩⟩) (Bytes.ofAscii "a = 1;")
        (settledTree settings) where
  loads := by
    refine ⟨.merged .default (some b), ?_, rfl⟩
    have hread :
        (settledHost settings directory).tree.read (Bytes.ofAscii "s") =
          .ok (Bytes.ofAscii settings) := rfl
    simp only [configured, loadSettings, readSettings, bind, EStateM.bind, disk,
      Disk.ask, hread, hascii, hdocument]
    rfl
  opens := by
    have hconsistent : (settled b).contradiction? = none := by
      rw [Settings.contradiction?_eq_none_iff, hsuppress]
      intro h
      cases h
    rw [Job.ofSettings_eq_of_usesStore hconsistent hs hroot]
    simp only [settledHost, (keeping_settledTree settings).makeDirectories_eq]
  reads := hreads

theorem misses_settledTree {settings : String} {b : Settings}
    (hs : (settled b).usesStore = true) (source : Bytes) :
    ((settled b).job ⟨Bytes.ofAscii "c", ⟨1, "now"⟩⟩).Misses
      (settledTree settings) source := by
  have hk := keeping_settledTree settings
  exact (Job.misses_iff (Job.activeStore_job hs _) hk.holds hk.vacant
    hk.leads).mpr rfl

/-- The host for the next command: the tree is what the last one has left. -/
def afterwards (i : Invocation) (h : Host) : Host :=
  { h with tree := (execute i h).2.tree }

theorem tree_afterwards (i : Invocation) (h : Host) :
    (afterwards i h).tree = (execute i h).2.tree :=
  rfl

/-- Settings in `s` that name the directory, the source in `a` and the output in
`o`. The environment names another directory, which no command looks at. -/
theorem execute_minify_shares_store_settled :
    ∃ (i : Invocation) (r : MinifyRequest) (s : Settings) (h : Host),
      i.request = .minify r ∧
      h.environment.cacheDirectory = some (Bytes.ofAscii "x") ∧
      (execute i h).1 = 0 ∧
      (execute { request := .cachePath r.location } h).2.output =
        Bytes.ofAscii "c\n" ∧
      Prints { request := .cacheList r.location } (afterwards i h)
        ⟨.derive {} (Bytes.ofAscii "a = 1;"), 6, 4, "now"⟩ ∧
      StoresAnew i r s (Bytes.ofAscii "c") (Bytes.ofAscii "a = 1;")
        (Bytes.ofAscii "a=1;")
        (afterwards { request := .cacheClear r.location true }
          (afterwards i h)) := by
  let b : Settings := { cacheDirectory := some (Bytes.ofAscii "c") }
  let h := settledHost "cache:\n  dir: c\n" "x"
  let i : Invocation :=
    { request := .minify (configured (some "a") (some "o")) }
  have hp := prepared_settledHost "cache:\n  dir: c\n" "x" (some "a") (some "o")
    (b := b) (by decide +kernel)
    (by decide +kernel) rfl rfl rfl ⟨_, rfl⟩
  have hstatus : (execute i h).1 = 0 := by decide +kernel
  obtain ⟨root, hroot, hpath, hrest⟩ :=
    execute_minify_shares_store rfl hp rfl hstatus
  obtain rfl : Bytes.ofAscii "c" = root :=
    congrArg Store.root (Option.some.inj (congrArg Job.store hroot))
  have hsep := separate_settledTree "cache:\n  dir: c\n"
  have hsepConfig : Separate [Bytes.ofAscii "s"] _ _ _ := hsep.of_append
  have hminify : Script.minify {} (Bytes.ofAscii "a = 1;") =
      .ok (Bytes.ofAscii "a=1;") := by decide +kernel
  obtain ⟨output, houtput, hlater⟩ := hrest _ _ _ (by decide)
    (keeping_settledTree _) (by decide)
    (fun v hv => by cases hv) hsepConfig
  obtain rfl := Except.ok.inj (hminify.symm.trans houtput)
  refine ⟨i, _, settled b, h, rfl, rfl, hstatus, ?_, ?_, ?_⟩
  · rw [(hpath _ h rfl rfl fun p _ c hc => hc).2]
    decide +kernel
  · exact (hlater _ (afterwards i h) (tree_afterwards i h) rfl).1 rfl
      (misses_settledTree rfl _)
  · have hcleared :=
      (hlater { request := .cacheClear _ true } (afterwards i h)
        (tree_afterwards i h) rfl).2 rfl
    exact hcleared.2 hsep _ (tree_afterwards _ _) rfl fun hfile => by
      cases hfile

/-- Listing need not show what was stored: the settings may have been
overwritten with the output. -/
theorem not_forall_prints :
    ¬ ∀ (i : Invocation) (r : MinifyRequest) (h : Host) (s : Settings) (j : Job)
      (source root : Bytes) (t : Tree),
      i.request = .minify r → Prepared r h s j source t → s.usesStore = true →
        j.Misses t source →
        (execute i h).1 = 0 → j.store = some ⟨root, h.writer⟩ →
          (∃ base place, Store.Keeping base root place .empty t) →
          ∃ e, e.key = .derive s.options source ∧
            Prints { request := .cacheList r.location } (afterwards i h) e := by
  intro hall
  let h := settledHost "" "c"
  let i : Invocation := { request := .minify (configured none (some "s")) }
  have hp := prepared_settledHost "" "c" none (some "s") (b := {})
    (by decide +kernel) (by decide +kernel) rfl rfl rfl
    ⟨_, rfl⟩
  -- what the command writes is no document with settings
  have hstatus : (execute i h).1 = 0 ∧
      (execute { request := .cacheList (configured none (some "s")).location }
        (afterwards i h)).1 = 1 := by
    decide +kernel
  obtain ⟨e, -, text, hlist, -⟩ :=
    hall i _ h _ _ _ _ _ rfl hp rfl (misses_settledTree rfl _) hstatus.1 rfl
    ⟨_, _, keeping_settledTree ""⟩
  rw [hlist] at hstatus
  cases hstatus.2

end Shell

end Command

end Terse
