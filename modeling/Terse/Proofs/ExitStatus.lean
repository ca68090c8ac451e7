import Terse.Proofs.MinifyCommand

/-!
# What the exit status of the minify command tells

Whatever goes wrong has the same exit status, except for one thing: the source
is malformed. That is found out by the engine, so everything before it must have
gone well and no stored output may have come first. If all goes well, the output
is in one of three places: printed, in the file that was asked for, or in the
store, and then its path is printed. `execute_minify_tells` puts this together.

This is said of trees of files and directories. Where a device stands in place
of a file, the command may succeed and leave no output at all.

Two things one might expect do not hold. A suppressed output does not go into
the file that was asked for, but that is no reason for the file to stay as it
was: it may be one of those that the store writes. And the path of a store that
has to be made may go through directories that are missing and not above it in
the end.
-/

namespace Terse.Command

open Files

namespace Shell

variable {r : MinifyRequest} {quiet : Bool} {h h' : Host} {s : Settings}
  {j : Job} {source : Bytes} {t : Tree}
  {o : Outcome}

/-! ### What is left behind -/

/-- Nothing was printed, no file was changed, and no directory was made but that
of the store and those that are on the way to it. -/
structure LeavesNothing (j : Job) (h h' : Host) : Prop where
  output_eq : h'.output = h.output
  content?_eq : h'.tree.content? = h.tree.content?
  directories : h'.tree = h.tree ∨
    ∃ st, j.activeStore = some st ∧
      Tree.AddsDirectories (Path.ancestors st.root) h.tree h'.tree

/-- Where the output is to be found. Of a suppressed one the path is printed,
and then no file has changed but those of the key, and these only if the output
had to be stored. -/
def Shows (r : MinifyRequest) (s : Settings) (j : Job) (t : Tree)
    (source output : Bytes) (h h' : Host) : Prop :=
  match s.suppressesResult, r.output with
  | false, none => h'.output = h.output ++ output
  | false, some p => h'.output = h.output ∧ h'.tree.read p = .ok output
  | true, _ =>
    ∃ st p, j.activeStore = some st ∧
      st.path? (.derive j.engine.options source) = some p ∧
      h'.output = h.output ++ Bytes.ofString (Text.Utf8.display p ++ "\n") ∧
        h'.tree.read p = .ok output ∧
      ∀ q, h'.tree.content? q = h.tree.content? q ∨ j.Misses t source ∧
        ∃ place, h'.tree.Leads st.root place ∧
        (Store.Key.derive j.engine.options source).Touches st.writer place q

theorem Delivered.shows {h₁ : Host} {output : Bytes}
    (hd : Delivered o r.output h₁ h') (ht : h₁.tree.Proper)
    (hpayload : o.payload = some output) (houtput : h₁.output = h.output)
    (hs : s.suppressesResult = false) :
    Shows r s j t source output h h' := by
  rw [Delivered.eq_def, hpayload] at hd
  rw [Shows.eq_def, hs, ← houtput]
  cases htarget : r.output with
  | none =>
    rw [htarget] at hd
    exact hd.1
  | some p =>
    rw [htarget] at hd
    rcases Tree.read_of_write hd.2 with hread | ⟨-, -, q, hdevice⟩
    · exact ⟨hd.1, hread⟩
    · exact absurd hdevice (ht.ne_device q)

theorem Prepared.exists_shows (hp : Prepared r h s j source t)
    (ht : h.tree.Proper) (hm : minify r quiet h = .ok () h') :
    ∃ output, j.Gives t source output ∧ Shows r s j t source output h h' := by
  obtain ⟨o, t', h₁, hrun, houtput, rfl, hdelivered⟩ := hp.exists_delivered hm
  cases hst : j.activeStore with
  | none =>
    obtain ⟨output, rfl, hgives, htree⟩ := Job.exists_made_of_run_eq_ok hst hrun
    have ht' : h₁.tree.Proper := htree ▸ hp.proper ht
    exact ⟨output, hgives,
      hdelivered.shows ht' rfl houtput (hp.suppressesResult_eq_false hst)⟩
  | some st =>
    obtain ⟨output, hit, p, rfl, hgives, hpath, ht', hread, hcontents⟩ :=
      Job.exists_stored_of_run_eq_ok (hp.proper ht) hst hrun
    refine ⟨output, hgives, ?_⟩
    cases hs : s.suppressesResult with
    | false =>
      have hpayload : (j.outcome st source output hit).payload =
          some output := by
        rw [Job.outcome, hp.serves.suppress_eq, hs]
        rfl
      exact hdelivered.shows ht' hpayload houtput hs
    | true =>
      have hpayload : (j.outcome st source output hit).payload = none := by
        rw [Job.outcome, hp.serves.suppress_eq, hs]
        rfl
      have hprinted :=
        hdelivered.output_eq hpayload (by rw [Job.outcome, hpath])
      have htree := hdelivered.tree_eq hpayload
      rw [houtput] at hprinted
      rw [← htree, hp.content?_eq] at hcontents
      rw [Shows.eq_def, hs]
      exact ⟨st, p, hst, hpath, hprinted, htree ▸ hread, hcontents⟩

theorem execute_eq {i : Invocation} (hr : i.request = .minify r) (h : Host) :
    execute i h =
      match minify r i.quiet h with
      | .ok _ h' => (0, h')
      | .error d h' => (d.exitStatus, { h' with
          messages := h'.messages ++
            Bytes.ofString (Report.Notice.error.render false d.text) }) := by
  obtain ⟨quiet, debug, disableDebug, request⟩ := i
  obtain rfl : request = .minify r := hr
  rfl

theorem minify_eq_ok_of_execute {i : Invocation} (hr : i.request = .minify r)
    (hstatus : (execute i h).1 = 0) :
    minify r i.quiet h = .ok () (execute i h).2 := by
  rw [execute_eq hr] at hstatus ⊢
  split at hstatus
  · next hm => simp only [hm]
  · next d h' hm =>
    dsimp only at hstatus
    rw [Diagnosis.exitStatus] at hstatus
    split at hstatus <;> cases hstatus

theorem Prepared.exists_execute_eq {i : Invocation} (hr : i.request = .minify r)
    (hp : Prepared r h s j source t) (hdry : s.isDryRun = false)
    (hmiss : j.Misses t source) {fault : Script.Fault}
    (hfault : Script.minify s.options source = .error fault) :
    ∃ h', execute i h = (2, h') ∧ h'.tree = t ∧ h'.output = h.output := by
  obtain ⟨h', hm, htree, houtput⟩ :=
    hp.exists_minify_eq_error hdry hmiss hfault i.quiet
  rw [execute_eq hr, hm]
  exact ⟨_, rfl, htree, houtput⟩

theorem exists_prepared_of_execute {i : Invocation} (hr : i.request = .minify r)
    (hstatus : (execute i h).1 = 2) :
    ∃ s j source t, Prepared r h s j source t ∧ s.isDryRun = false ∧
      j.Misses t source ∧
      ∃ fault, Script.minify s.options source = .error fault := by
  rw [execute_eq hr] at hstatus
  cases hm : minify r i.quiet h with
  | ok u h' =>
    rw [hm] at hstatus
    cases hstatus
  | error d h' =>
    rw [hm] at hstatus
    have hd : d.exitStatus = Diagnosis.malformedSource := hstatus
    rcases minify_cases r i.quiet h with
      ⟨s, j, source, t, hp⟩ | ⟨d', h'', hm', hother⟩
    · exact ⟨s, j, source, t, hp, hp.rejected_of_exitStatus hm hd⟩
    · rw [hm] at hm'
      cases hm'
      rw [hother] at hd
      cases hd

/-- The exit status 2 tells that all went well up to the engine, which then
rejected the source; nothing is left behind but directories. The exit status 0
tells that there is an output, and where. What was asked for is what the
switches of the request make of the settings that were loaded. -/
theorem execute_minify_tells {i : Invocation} (hr : i.request = .minify r)
    (ht : h.tree.Proper) :
    ((execute i h).1 = 2 ↔ ∃ s j source t, Prepared r h s j source t ∧
        s.isDryRun = false ∧ j.Misses t source ∧
        ∃ fault, Script.minify s.options source = .error fault) ∧
      ((execute i h).1 = 2 → ∃ s j source t, Prepared r h s j source t ∧
        LeavesNothing j h (execute i h).2) ∧
      ((execute i h).1 = 0 → ∃ s j source t output,
        Prepared r h s j source t ∧ j.Gives t source output ∧
        Shows r s j t source output h (execute i h).2) ∧
      ∀ s j source t, Prepared r h s j source t →
        ∃ base, loadSettings r.config h = .ok base h ∧ Obeys r base s := by
  refine ⟨⟨exists_prepared_of_execute hr, ?_⟩, ?_, ?_,
    fun _ _ _ _ hp => hp.obeys⟩
  · rintro ⟨s, j, source, t, hp, hdry, hmiss, fault, hfault⟩
    obtain ⟨h', hexec, -⟩ := hp.exists_execute_eq hr hdry hmiss hfault
    rw [hexec]
  · intro hstatus
    obtain ⟨s, j, source, t, hp, hdry, hmiss, fault, hfault⟩ :=
      exists_prepared_of_execute hr hstatus
    obtain ⟨h', hexec, rfl, houtput⟩ :=
      hp.exists_execute_eq hr hdry hmiss hfault
    rw [hexec]
    exact ⟨s, j, source, _, hp, houtput, hp.content?_eq, hp.opened_cases⟩
  · intro hstatus
    have hm := minify_eq_ok_of_execute hr hstatus
    rcases minify_cases r i.quiet h with
      ⟨s, j, source, t, hp⟩ | ⟨d, h', hm', -⟩
    · obtain ⟨output, hgives, hshows⟩ := hp.exists_shows ht hm
      exact ⟨s, j, source, t, output, hp, hgives, hshows⟩
    · rw [hm] at hm'
      cases hm'

/-! ### Requests on an empty tree -/

def blankHost (input : Bytes) : Host where
  tree := {}
  environment := {}
  writer := ⟨1, "now"⟩
  input := input

def blankJob (root : Bytes) (suppress : Bool) : Job where
  engine := .minifier {}
  store := some ⟨root, ⟨1, "now"⟩⟩
  suppress := suppress

def storing (root : Bytes) (target : Option Bytes) (suppress : Bool) :
    MinifyRequest where
  output := target
  cacheDirectory := some root
  suppressResult := suppress

theorem prepared_blankHost {root : Bytes} (target : Option Bytes)
    (suppress : Bool) (input : Bytes)
    (hmake : Disk.makeDirectories root {} = .ok () t) :
    Prepared (storing root target suppress) (blankHost input)
      ((requestedSettings (storing root target suppress)).laidOver .default)
        (blankJob root suppress) input t where
  loads := ⟨_, rfl, rfl⟩
  opens := by
    have hopen : Job.ofSettings ⟨1, "now"⟩ {}
      ((requestedSettings (storing root target suppress)).laidOver .default) =
        (do return { blankJob root suppress with
          store := some (← Store.create ⟨1, "now"⟩ root) }) := by
      cases suppress <;> rfl
    simp only [blankHost, hopen, bind, EStateM.bind, Store.create_eq, hmake]
    rfl
  reads := ⟨_, rfl⟩

theorem rooted_and_misses {root : Bytes} (place : Place) (suppress : Bool)
    (input : Bytes) (hmake : Disk.makeDirectories root {} = .ok () t)
    (hleads : t.Leads root place) (hd : t.node? place = some .directory) :
    t.Rooted root place ∧ (blankJob root suppress).Misses t input := by
  have hadds := Tree.addsDirectories_of_makeDirectories hmake
  have hrooted : t.Rooted root place :=
    ⟨hadds.proper (Tree.proper_empty []), hleads, hd⟩
  refine ⟨hrooted, fun st hst => ?_⟩
  cases hst
  rw [hrooted.get_eq (Store.Key.isDigest_derive _ _), hadds.content?_eq,
    Tree.content?_empty]

theorem firstObstacle?_set (w : Writer) (root : Bytes) (k : Store.Key) :
    Store.firstObstacle? w (({} : Tree).set [root] .directory)
      [root] k = none := by
  have hbelow : ∀ {q : Place}, q ≠ [] → q ≠ [root] →
      (({} : Tree).set [root] .directory).node? q = none := by
    intro q hnil hq
    rw [Tree.node?_set_of_ne _ _ hq, Tree.node?_of_ne_nil _ hnil]
    rfl
  simp [Store.firstObstacle?, Tree.content?, Store.Key.temporaryAt,
    Store.Key.fileAt, hbelow]

/-- The invocation with a store at `c` that suppresses its result. -/
def suppressing (target : Option Bytes) : Invocation where
  request := .minify (storing (Bytes.ofAscii "c") target true)

theorem prepared_suppressing (target : Option Bytes) :
    Prepared (storing (Bytes.ofAscii "c") target true)
      (blankHost (Bytes.ofAscii "a = 1;"))
        ((requestedSettings (storing (Bytes.ofAscii "c") target true)).laidOver
          .default)
        (blankJob (Bytes.ofAscii "c") true) (Bytes.ofAscii "a = 1;")
          (({} : Tree).set [Bytes.ofAscii "c"] .directory) ∧
      (({} : Tree).set [Bytes.ofAscii "c"] .directory).Rooted
        (Bytes.ofAscii "c") [Bytes.ofAscii "c"] ∧
      (blankJob (Bytes.ofAscii "c") true).Misses
        (({} : Tree).set [Bytes.ofAscii "c"] .directory)
        (Bytes.ofAscii "a = 1;") := by
  have hmake : Disk.makeDirectories (Bytes.ofAscii "c") {} =
      .ok () (({} : Tree).set [Bytes.ofAscii "c"] .directory) := rfl
  exact ⟨prepared_blankHost target true _ hmake,
    rooted_and_misses [Bytes.ofAscii "c"] true _ hmake ⟨by decide, rfl⟩ rfl⟩

/-- A suppressed output is put into the store, and the command succeeds. -/
theorem exists_put_of_suppressing (target : Option Bytes) :
    ∃ (t : Tree) (p : Bytes) (h' : Host), t.Proper ∧
      Store.put ⟨Bytes.ofAscii "c", ⟨1, "now"⟩⟩
        (.derive {} (Bytes.ofAscii "a = 1;")) 6 (Bytes.ofAscii "a=1;") t =
          .ok p h'.tree ∧
      execute (suppressing target) (blankHost (Bytes.ofAscii "a = 1;")) =
        (0, h') := by
  obtain ⟨hp, hrooted, hmiss⟩ := prepared_suppressing target
  have hk := Store.Key.isDigest_derive {} (Bytes.ofAscii "a = 1;")
  have hput :=
    Store.put_of_firstObstacle? hrooted hk ⟨1, "now"⟩ 6 (Bytes.ofAscii "a=1;")
  rw [firstObstacle?_set] at hput
  obtain ⟨p, t', hput⟩ := hput
  obtain ⟨h₁, hminify, htree, -⟩ :=
    hp.exists_minify_eq (suppressing target).quiet
  have hrun := Job.run_of_put_eq_ok (j := blankJob (Bytes.ofAscii "c") true)
    rfl (hmiss _ rfl)
    (Store.apply_assignment ⟨1, "now"⟩) hput
  rw [← htree] at hrun
  rcases conclude_of_run_eq_ok hrun with ⟨-, -, -, -, text, p, c, hpayload, -⟩
    | ⟨h', hok, hdelivered⟩
  · cases hpayload
  · obtain rfl := hdelivered.tree_eq rfl
    refine ⟨_, p, h', hrooted.proper, hput, ?_⟩
    rw [execute_eq rfl, hminify, hok]

/-- The invocation with a store at `a/../b`. -/
def detouring : Invocation where
  request := .minify (storing (Bytes.ofAscii "a/../b") none false)

/-- A source that is rejected leaves two directories behind, since the path of
the store goes through one of them. -/
theorem exists_execute_detouring :
    ∃ h', execute detouring (blankHost (Bytes.ofAscii "'")) = (2, h') ∧
      h'.tree = (({} : Tree).set [Bytes.ofAscii "a"] .directory).set
        [Bytes.ofAscii "b"] .directory := by
  have hmake : Disk.makeDirectories (Bytes.ofAscii "a/../b") {} = .ok ()
        ((({} : Tree).set [Bytes.ofAscii "a"] .directory).set
          [Bytes.ofAscii "b"] .directory) := rfl
  have hp := prepared_blankHost none false (Bytes.ofAscii "'") hmake
  obtain ⟨-, hmiss⟩ :=
    rooted_and_misses [Bytes.ofAscii "b"] false (Bytes.ofAscii "'") hmake
      ⟨by decide, rfl⟩ rfl
  have hfault : Script.minify {} (Bytes.ofAscii "'") =
      .error (.openLiteral 0 0x27) := by decide +kernel
  obtain ⟨h', hexec, htree, -⟩ :=
    hp.exists_execute_eq (i := detouring) rfl rfl hmiss hfault
  exact ⟨h', hexec, htree⟩

/-- The path of a suppressed output is printed, although a file was asked for,
and the output is there. A rejected source changes nothing that can be seen in a
file. -/
theorem execute_minify_tells_suppressed :
    (∃ h' p, execute (suppressing (some (Bytes.ofAscii "o")))
      (blankHost (Bytes.ofAscii "a = 1;")) = (0, h') ∧
        h'.output = Bytes.ofString (Text.Utf8.display p ++ "\n") ∧
          h'.tree.read p = .ok (Bytes.ofAscii "a=1;")) ∧
      ∃ h', execute detouring (blankHost (Bytes.ofAscii "'")) = (2, h') ∧
        h'.output = [] ∧
        ∀ q, h'.tree.content? q = none := by
  constructor
  · obtain ⟨hp, -, hmiss⟩ := prepared_suppressing (some (Bytes.ofAscii "o"))
    obtain ⟨-, -, h', -, -, hexec⟩ :=
      exists_put_of_suppressing (some (Bytes.ofAscii "o"))
    have htells :=
      execute_minify_tells (i := suppressing (some (Bytes.ofAscii "o")))
      (h := blankHost (Bytes.ofAscii "a = 1;")) rfl (Tree.proper_empty [])
    rw [hexec] at htells
    obtain ⟨s, j, source, t, output, hp', hgives, hshows⟩ := htells.2.2.1 rfl
    obtain ⟨rfl, rfl, rfl, rfl⟩ := hp.unique hp'
    obtain ⟨st, p, -, -, hprinted, hread, -⟩ := hshows
    have happly : (blankJob (Bytes.ofAscii "c") true).engine.apply
        (Bytes.ofAscii "a = 1;") = _ :=
      Store.apply_assignment ⟨1, "now"⟩
    rw [hgives.apply_eq_of_misses hmiss] at happly
    rw [Except.ok.inj happly] at hread
    exact ⟨h', p, hexec, hprinted, hread⟩
  · obtain ⟨h', hexec, -⟩ := exists_execute_detouring
    have htells := execute_minify_tells (i := detouring)
      (h := blankHost (Bytes.ofAscii "'")) rfl
      (Tree.proper_empty [])
    rw [hexec] at htells
    obtain ⟨s, j, source, t, -, hleaves⟩ := htells.2.1 rfl
    refine ⟨h', hexec, hleaves.output_eq, fun q => ?_⟩
    rw [hleaves.content?_eq]
    exact Tree.content?_empty [] q

/-! ### What does not hold -/

/-- A request for an output in `n` that is not stored, on a host where `n` is a
device. -/
def discarding : Invocation where
  request := .minify { output := some (Bytes.ofAscii "n"), noCache := true }

def deviceHost : Host where
  tree := ({} : Tree).set [Bytes.ofAscii "n"] .device
  environment := {}
  writer := ⟨1, "now"⟩
  input := Bytes.ofAscii "a = 1;"

theorem not_shows_discarding (s : Settings) (j : Job) (source output : Bytes)
    (t : Tree)
    (hp : Prepared { output := some (Bytes.ofAscii "n"), noCache := true }
      deviceHost s j source t) (hgives : j.Gives t source output) :
    ¬ Shows { output := some (Bytes.ofAscii "n"), noCache := true } s j t source
      output deviceHost (execute discarding deviceHost).2 := by
  intro hshows
  have hp' : Prepared { output := some (Bytes.ofAscii "n"), noCache := true }
      deviceHost _ { engine := .minifier {} } (Bytes.ofAscii "a = 1;") _ :=
    ⟨⟨_, rfl, rfl⟩, rfl, _, rfl⟩
  obtain ⟨rfl, rfl, rfl, rfl⟩ := hp'.unique hp
  have hread : (execute discarding deviceHost).2.tree.read
      (Bytes.ofAscii "n") = .ok [] := by decide +kernel
  obtain rfl : [] = output := Except.ok.inj (hread.symm.trans hshows.2)
  have happly := hgives.apply_eq_of_misses
    (Job.misses_of_activeStore_eq_none rfl)
  have hminify := Store.apply_assignment ⟨1, "now"⟩
  rw [Store.jobAt, happly] at hminify
  cases hminify

/-- A suppressed output is not written where it was asked for, but the file that
is there may be one of the store's and change. A rejected source does not change
files, but more than the directory of the store may have been made. An output
that is written to a device is not to be found there. -/
theorem not_target_unchanged_and_not_root_alone_made :
    (¬ ∀ (i : Invocation) (r : MinifyRequest) (h : Host) (target : Bytes)
        (q : Place), h.tree.Proper → i.request = .minify r →
        r.suppressResult = true → r.output = some target →
        (execute i h).1 = 0 → (execute i h).2.tree.Leads target q →
          (execute i h).2.tree.content? q = h.tree.content? q) ∧
      (¬ ∀ (i : Invocation) (r : MinifyRequest) (h : Host) (root : Bytes)
        (q : Place), h.tree.Proper → i.request = .minify r →
        r.cacheDirectory = some root → (execute i h).1 = 2 →
          (execute i h).2.tree.node? q = h.tree.node? q ∨
            (execute i h).2.tree.Leads root q) ∧
      ¬ ∀ (i : Invocation) (r : MinifyRequest) (h : Host),
        i.request = .minify r → (execute i h).1 = 0 →
          ∃ s j source t output, Prepared r h s j source t ∧
            j.Gives t source output ∧
            Shows r s j t source output h (execute i h).2 := by
  refine ⟨fun hall => ?_, fun hall => ?_, fun hall => ?_⟩
  · obtain ⟨k, hkey⟩ : ∃ k : Store.Key, k = .derive {}
        (Bytes.ofAscii "a = 1;") := ⟨_, rfl⟩
    have hk : k.IsDigest := hkey ▸ Store.Key.isDigest_derive _ _
    -- the entry of the output that the command is about to store
    let target := Path.join (Path.join (Bytes.ofAscii "c") k.shard)
      (k.fileName Store.entryExtension)
    obtain ⟨t, p, h', ht, hput, hexec⟩ :=
      exists_put_of_suppressing (some target)
    rw [← hkey] at hput
    obtain ⟨-, place, hrooted, hcontents⟩ :=
      Store.exists_rooted_of_put_eq_ok ht hk hput
    have hentry := congrFun hcontents (k.fileAt place Store.entryExtension)
    rw [Store.contentsAfterPut_entry, Store.Key.fileAt_eq] at hentry
    have hshard :=
      hrooted.proper.directory_above (Tree.content?_eq_some_iff.mp hentry)
    have hleads :=
      (hrooted.leads.join hrooted.directory (Store.isName_shard hk)).join hshard
      (Store.isName_fileName hk (.inr rfl))
    have hsame :=
      hall (suppressing (some target))
        _ (blankHost (Bytes.ofAscii "a = 1;")) target
      (place ++ [k.shard] ++ [k.fileName Store.entryExtension])
        (Tree.proper_empty []) rfl rfl rfl
    rw [hexec] at hsame
    have hnone := (hsame rfl hleads).trans (Tree.content?_empty [] _)
    rw [hentry] at hnone
    cases hnone
  · obtain ⟨h', hexec, htree⟩ := exists_execute_detouring
    have honly := hall detouring _ (blankHost (Bytes.ofAscii "'"))
      (Bytes.ofAscii "a/../b") [Bytes.ofAscii "a"]
      (Tree.proper_empty []) rfl rfl
    rw [hexec, htree] at honly
    rcases honly rfl with hsame | hleads
    · revert hsame
      decide
    · have hfollow := hleads.follow_eq
      revert hfollow
      decide
  · obtain ⟨s, j, source, t, output, hp, hgives, hshows⟩ :=
      hall discarding _ deviceHost rfl (by decide +kernel)
    exact not_shows_discarding s j source output t hp hgives hshows

end Shell

end Terse.Command
