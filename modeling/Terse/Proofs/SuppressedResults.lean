import Terse.Proofs.RunEndings

/-!
# Suppressed results are kept

An outcome without an output would be a loss if the output were nowhere else.
`Outcome.Backed` says what an outcome promises about the tree after the run: an
output that is not given is in a file, the store finds it under the key of the
outcome, and it has the length that is told; one that is given has that length,
and is what the file holds if one is named. In a tree of files and directories
every run that succeeds ends in such an outcome, whatever the engine, whatever
was in the store before, and whether or not the settings that the job was made
from make sense (`Job.backed_of_run_eq_ok`).

Settings that suppress the result ask for a store, so a job that was made from
them never gives an output.

It takes no more than a device to break the promise. If one has the name that
the output gets until it is complete, the output is written to the device and
the device is put in its place, and nothing fails.
-/

namespace Terse

open Files

theorem Files.Tree.Proper.isFile_of_read {t : Tree} {p content : Bytes}
    (ht : t.Proper) (h : t.read p = .ok content) : t.isFile p = true := by
  rw [read] at h
  rw [isFile]
  cases hfind : t.find p with
  | error c =>
    rw [hfind] at h
    cases h
  | ok found =>
    obtain ⟨place, n⟩ := found
    rw [hfind] at h
    cases n with
    | file content => rfl
    | directory => cases h
    | device => exact absurd (leads_of_find hfind).2 (ht.ne_device _)

/-- What an outcome of the job promises about the tree after the run. -/
structure Outcome.Backed (o : Outcome) (j : Job) (t : Tree) : Prop where
  kept : o.payload = none → ∃ st p output, j.store = some st ∧
    o.storedAt = some p ∧ t.isFile p = true ∧ t.read p = .ok output ∧
    st.get t o.key = .ok (some output) ∧ output.length = o.outputLength
  length_eq : ∀ {text}, o.payload = some text → text.length = o.outputLength
  read_eq : ∀ {text p}, o.payload = some text → o.storedAt = some p →
    t.read p = .ok text

namespace Job

variable {j : Job} {source : Bytes} {t t' : Tree} {o : Outcome}

theorem store_of_activeStore {st : Store} (h : j.activeStore = some st) :
    j.store = some st := by
  rw [activeStore] at h
  split at h
  · exact h
  · cases h

theorem backed_outcome {st : Store} {output p : Bytes} (ht : t.Proper)
    (hst : j.activeStore = some st)
    (hpath : st.path? (.derive j.engine.options source) = some p)
    (hread : t.read p = .ok output) (hit : Bool) :
    (j.outcome st source output hit).Backed j t where
  kept _ := by
    have hfile := ht.isFile_of_read hread
    have hget : st.get t (.derive j.engine.options source) =
        .ok (some output) := by
      rw [Store.get, hpath]
      simp only [hfile, hread, if_true]
    simp only [outcome]
    exact ⟨st, p, output, store_of_activeStore hst, hpath, hfile, hread, hget,
      rfl⟩
  length_eq {text} h := by
    simp only [outcome] at h ⊢
    split at h
    · cases h
    · rw [Option.some.inj h]
  read_eq {text q} h hq := by
    simp only [outcome] at h hq
    rw [hpath] at hq
    split at h
    · cases h
    · rw [← Option.some.inj hq, ← Option.some.inj h, hread]

theorem backed_plainOutcome (j : Job) (source output : Bytes) (t : Tree) :
    (j.plainOutcome source output).Backed j t where
  kept h := by cases h
  length_eq h := by cases h; rfl
  read_eq _ h := by cases h

theorem backed_of_run_eq_ok (ht : t.Proper)
    (hrun : j.run source t = .ok o t') : o.Backed j t' := by
  cases hst : j.activeStore with
  | none =>
    obtain ⟨output, rfl, -, -⟩ := exists_made_of_run_eq_ok hst hrun
    exact backed_plainOutcome j source output t'
  | some st =>
    obtain ⟨output, hit, p, rfl, -, hpath, ht', hread, -⟩ :=
      exists_stored_of_run_eq_ok ht hst hrun
    exact backed_outcome ht' hst hpath hread hit

theorem payload_eq_none_of_run {st : Store} (hsuppress : j.suppress = true)
    (hst : j.activeStore = some st) (hrun : j.run source t = .ok o t') :
    o.payload = none := by
  have hends := j.ends_run source t
  rw [hrun] at hends
  cases hends with
  | found _ _ => exact if_pos hsuppress
  | stored _ _ _ _ => exact if_pos hsuppress
  | made hnone _ =>
    rw [hst] at hnone
    cases hnone

/-- Settings that suppress the result are rejected, or make a job that never
gives an output. -/
theorem ofSettings_of_suppressesResult {s : Settings}
    (hs : s.suppressesResult = true) (w : Writer) (env : Environment)
    (t : Tree) :
    (∃ f t', ofSettings w env s t = .error f t' ∧
      ((∃ reason, f = .settings reason) ∨ ∃ reason, f = .store reason)) ∨
      ∃ j t', ofSettings w env s t = .ok j t' ∧
        ∀ source u u' o, j.run source u = .ok o u' → o.payload = none := by
  cases hopen : ofSettings w env s t with
  | error f t' => exact .inl ⟨f, t', rfl, ofSettings_eq_error hopen⟩
  | ok j t' =>
    obtain ⟨hj, -⟩ := ofSettings_eq_ok hopen fun _ _ hroot => hroot
    have hstore : s.usesStore = true := by
      cases huse : s.usesStore with
      | true => rfl
      | false =>
        rw [Settings.suppressesResult_eq_false hj.consistent huse] at hs
        cases hs
    obtain ⟨root, w', -, hst⟩ := hj.exists_activeStore hstore
    have hsuppress : j.suppress = true := hj.suppress_eq.trans hs
    exact .inr ⟨j, t', rfl,
      fun _ _ _ _ hrun => payload_eq_none_of_run hsuppress hst hrun⟩

/-- In a tree of files and directories no output is lost by suppressing it:
every run that succeeds has an outcome that the tree bears out. In any tree, a
job made from settings that suppress the result gives no output. -/
theorem suppressed_results_kept :
    (∀ (j : Job) (source : Bytes) (t t' : Tree) (o : Outcome), t.Proper →
      j.run source t = .ok o t' → o.Backed j t') ∧
      ∀ (w : Writer) (env : Environment) (s : Settings) (t : Tree),
        s.suppressesResult = true →
        (∃ f t', ofSettings w env s t = .error f t' ∧
          ((∃ reason, f = .settings reason) ∨ ∃ reason, f = .store reason)) ∨
        ∃ j t', ofSettings w env s t = .ok j t' ∧
          ∀ source u u' o, j.run source u = .ok o u' → o.payload = none :=
  ⟨fun _ _ _ _ _ ht hrun => backed_of_run_eq_ok ht hrun,
    fun w env _ t hs => ofSettings_of_suppressesResult hs w env t⟩

/-- With settings that suppress the result, the output of four bytes goes to the
store at `c` and is found there. -/
theorem suppressed_results_kept_assignment :
    ∃ (j : Job) (st : Store) (t t' : Tree) (o : Outcome) (p output : Bytes),
      ofSettings ⟨1, "now"⟩ {}
          { suppressResult := some true
            cacheDirectory := some (Bytes.ofAscii "c") } {} = .ok j t ∧
      j.run (Bytes.ofAscii "a = 1;") t = .ok o t' ∧ o.payload = none ∧
      j.store = some st ∧ o.storedAt = some p ∧ t'.read p = .ok output ∧
      st.get t' o.key = .ok (some output) ∧ output.length = 4 := by
  let s : Settings :=
    { suppressResult := some true, cacheDirectory := some (Bytes.ofAscii "c") }
  let t : Tree := ({} : Tree).set [Bytes.ofAscii "c"] .directory
  have hput : ({} : Tree).PutAt [Bytes.ofAscii "c"] .directory t :=
    Tree.putAt_set _ (by simp) _
  have ht : t.Proper := (Tree.proper_empty []).set_directory (p := []) rfl
    ⟨by decide, by decide, by decide, by decide, by decide⟩
  have hv : Store.Vacant t [Bytes.ofAscii "c"] :=
    ⟨rfl, fun c r => by rw [hput.node?_of_ne (by simp)]; rfl⟩
  rcases suppressed_results_kept.2 ⟨1, "now"⟩ {} s {} rfl with
    ⟨f, t₁, herror, -⟩ | ⟨j, t₁, hopen, hnone⟩
  · cases herror
  · have hroots : s.usesStore = true → ∀ root,
        s.cacheDirectory? {} = some root → root = Bytes.ofAscii "c" :=
      fun _ root hroot => (Option.some.inj hroot).symm
    obtain ⟨hj, -⟩ := ofSettings_eq_ok hopen hroots
    obtain rfl : t = t₁ := by cases hopen; rfl
    have hminify : s.transform (Bytes.ofAscii "a = 1;") =
        .ok (Bytes.ofAscii "a=1;") := Store.apply_assignment ⟨1, "now"⟩
    obtain ⟨st, v, t', hrun, -, -⟩ := exists_run_of_fresh hv.holds hv
      (fun root hroot => by rw [hroot]; exact ⟨by decide, rfl⟩) hj rfl rfl
      hminify
    have hpayload := hnone _ _ _ _ hrun
    obtain ⟨st', p, output, hst, hp, -, hread, hget, hlength⟩ :=
      (suppressed_results_kept.1 _ _ _ _ _ ht hrun).kept hpayload
    exact ⟨j, st', t, t', _, p, output, hopen, hrun, hpayload, hst, hp, hread,
      hget, hlength⟩

end Job

/-! ### A device in place of a temporary file -/

namespace Store

variable {t : Tree} {root : Bytes} {place : Place} {w : Writer} {k : Key}

/-- The shard of `k` holds a device, under the name that the output gets until
it is complete, and nothing else. -/
structure Planted (w : Writer) (k : Key) (place : Place) (t : Tree) : Prop where
  shard : t.node? (place ++ [k.shard]) = some .directory
  node?_eq : ∀ f r, t.node? (place ++ [k.shard] ++ f :: r) =
    if f = temporaryName w (k.fileName outputExtension) ∧ r = [] then
      some .device
    else none

theorem Planted.keeps (h : Planted w k place t) :
    t.Keeps ((t.erase (place ++ [k.shard] ++
      [temporaryName w (k.fileName outputExtension)])).set
        (place ++ [k.shard] ++ [k.fileName outputExtension]) .device) where
  cwd_eq := rfl
  directory {q} hq := by
    have hne : ∀ f r, q ≠ place ++ [k.shard] ++ f :: r := by
      rintro f r rfl
      rw [h.node?_eq] at hq
      split at hq <;> cases hq
    rw [Tree.node?_set_of_ne _ _ (hne _ []), Tree.node?_erase_of_not_below, hq]
    rw [Bool.eq_false_iff, Ne, List.isPrefixOf_iff_prefix]
    rintro ⟨r, hr⟩
    exact hne _ r (by rw [← hr, List.append_assoc, List.singleton_append])

/-- Once the device has the name of the output, it is all that the shard
holds. -/
theorem Planted.node?_renamed (h : Planted w k place t) (f : Bytes)
    (r : Place) :
    ((t.erase (place ++ [k.shard] ++
      [temporaryName w (k.fileName outputExtension)])).set
        (place ++ [k.shard] ++ [k.fileName outputExtension]) .device).node?
        (place ++ [k.shard] ++ f :: r) =
      if f = k.fileName outputExtension ∧ r = [] then some .device
      else none := by
  split
  · next hf =>
    rw [hf.1, hf.2, Tree.node?_set_self _ _ (by simp)]
  · next hf =>
    rw [Tree.node?_set_of_ne _ _ (by simpa using hf)]
    by_cases hdevice : f = temporaryName w (k.fileName outputExtension)
    · rw [Tree.node?_erase_of_below _ (by simp)]
      exact List.isPrefixOf_iff_prefix.mpr ⟨r, by simp [hdevice]⟩
    · rw [Tree.node?_erase_of_not_below _
        (Tree.isPrefixOf_append_of_ne hdevice ..), h.node?_eq,
        if_neg fun hboth => hdevice hboth.1]

theorem Planted.get_eq (h : Planted w k place t) (hroot : t.Leads root place)
    (hd : t.node? place = some .directory) (hk : k.IsDigest) :
    Store.get ⟨root, w⟩ t k = .ok none := by
  have houtput := isName_fileName hk (.inl rfl)
  have hpath := (hroot.join hd (isName_shard hk)).join h.shard houtput
  have hnone : t.node?
      (place ++ [k.shard] ++ [k.fileName outputExtension]) = none := by
    rw [h.node?_eq, if_neg]
    exact fun hboth =>
      temporaryName_ne_fileName w _ hk (.inl rfl) hboth.1.symm
  rw [Store.get, path?_eq hk]
  simp only [Tree.isFile,
    hpath.find_eq_missing (Path.join_ne_nil _ houtput) hnone]
  rfl

/-- Putting an output into such a shard succeeds, and what is then in its place
is the device. -/
theorem exists_put_of_planted (hroot : t.Leads root place)
    (hd : t.node? place = some .directory) (h : Planted w k place t)
    (hk : k.IsDigest) (sourceLength : Nat) (output : Bytes) :
    ∃ p t', Store.put ⟨root, w⟩ k sourceLength output t = .ok p t' ∧
      Store.path? ⟨root, w⟩ k = some p ∧ t'.isFile p = false := by
  have houtput := isName_fileName hk (.inl rfl)
  have hentry := isName_fileName hk (.inr rfl)
  have htemporary : ∀ {e}, IsExtension e →
      temporaryName w (k.fileName e) ≠ k.fileName outputExtension :=
    fun _ => temporaryName_ne_fileName w _ hk (.inl rfl)
  have hleads := hroot.join hd (isName_shard hk)
  have hmake : Disk.makeDirectories (Path.join root k.shard) t = .ok () t :=
    hleads.makeDirectories_eq h.shard
  -- the output goes to the device, which then gets the name of the output
  have hfirst := writeWhole_join_of_device w hleads h.shard houtput
    (isName_temporaryName w hk (.inl rfl)) (by rw [h.node?_eq]; simp)
    (by rw [h.node?_eq]; simp [(htemporary (.inl rfl)).symm]) output
  have hkeeps := h.keeps
  have hrenamed := h.node?_renamed
  generalize ((t.erase _).set _ Node.device) = t₁ at hfirst hkeeps hrenamed
  have hfree : ∀ f r, f ≠ k.fileName outputExtension →
      t₁.node? (place ++ [k.shard] ++ f :: r) = none :=
    fun f r hf => by rw [hrenamed, if_neg fun hboth => hf hboth.1]
  have hentryFree := hfree _ [] (fileName_output_ne_entry hk hk).symm
  -- the entry is written beside it
  obtain ⟨t₂, hsecond, hput⟩ := exists_writeWhole_join w
    (hkeeps.leads hleads) (hkeeps.directory h.shard) hentry
    (isName_temporaryName w hk (.inr rfl)) (by rw [hentryFree]; simp)
    (fun r => hfree _ r (htemporary (.inr rfl)))
    (Deposit.entry ⟨output, sourceLength, w.now⟩ k).render
  have hkeeps₂ : t.Keeps t₂ := hkeeps.trans (hput.keeps fun hdir => by
    rw [hentryFree] at hdir
    cases hdir)
  refine ⟨_, t₂, ?_, path?_eq hk w, ?_⟩
  · rw [put_eq hk]
    simp only [hmake, hfirst, hsecond]
  · have hnode : t₂.node? (place ++ [k.shard] ++ [k.fileName outputExtension]) =
        some .device := by
      rw [hput.node?_of_ne (by simpa using fileName_output_ne_entry hk hk),
        hrenamed, if_pos ⟨rfl, rfl⟩]
    have hpath :=
      (hkeeps₂.leads hleads).join (hkeeps₂.directory h.shard) houtput
    rw [Tree.isFile, hpath.find_eq (Path.join_ne_nil _ houtput) hnode]

def planted (w : Writer) (k : Key) : Tree :=
  ((({} : Tree).set [Bytes.ofAscii "c"] .directory).set
    [Bytes.ofAscii "c", k.shard] .directory).set
    (k.temporaryAt w [Bytes.ofAscii "c"] outputExtension) .device

theorem node?_planted (w : Writer) (k : Key) (q : Place) :
    (planted w k).node? q =
      if q = k.temporaryAt w [Bytes.ofAscii "c"] outputExtension then
        some .device
      else if q = [Bytes.ofAscii "c", k.shard] then some .directory
      else if q = [Bytes.ofAscii "c"] then some .directory
      else ({} : Tree).node? q := by
  rw [planted, (Tree.putAt_set _ (by simp [Key.temporaryAt]) _).node?_eq,
    (Tree.putAt_set _ (by simp) _).node?_eq,
    (Tree.putAt_set _ (by simp) _).node?_eq]

theorem planted_planted (w : Writer) (k : Key) :
    Planted w k [Bytes.ofAscii "c"] (planted w k) where
  shard := by
    rw [node?_planted]
    simp [Key.temporaryAt]
  node?_eq f r := by
    rw [node?_planted]
    simp [Key.temporaryAt, Tree.node?]

end Store

/-- With a device in place of its temporary file, a suppressed result is
lost. -/
theorem Job.not_forall_backed :
    ¬ ∀ (j : Job) (source : Bytes) (t t' : Tree) (o : Outcome),
      j.run source t = .ok o t' → o.Backed j t' := by
  intro hall
  obtain ⟨k, hkey⟩ : ∃ k : Store.Key,
      k = .derive {} (Bytes.ofAscii "a = 1;") := ⟨_, rfl⟩
  have hk : k.IsDigest := hkey ▸ Store.Key.isDigest_derive _ _
  let w : Writer := ⟨1, "now"⟩
  let st : Store := ⟨Bytes.ofAscii "c", w⟩
  let j : Job := { Store.jobAt w with suppress := true }
  have hroot : (Store.planted w k).Leads st.root [Bytes.ofAscii "c"] :=
    ⟨by decide, rfl⟩
  have hd : (Store.planted w k).node? [Bytes.ofAscii "c"] =
      some .directory := by
    rw [Store.node?_planted]
    simp [Store.Key.temporaryAt]
  have hplanted := Store.planted_planted w k
  obtain ⟨p, t', hput, hpath, hfile⟩ := Store.exists_put_of_planted hroot hd
    hplanted hk 6 (Bytes.ofAscii "a=1;")
  have hget := hplanted.get_eq hroot hd hk
  generalize Store.planted w k = t at hput hget
  rw [hkey] at hput hpath hget
  have hst : j.activeStore = some st := rfl
  have hrun : j.run (Bytes.ofAscii "a = 1;") t = .ok _ t' :=
    run_of_put_eq_ok hst hget (Store.apply_assignment w) hput
  have hbacked := hall _ _ _ _ _ hrun
  -- the outcome names the path, and there is no file
  obtain ⟨-, q, -, -, hq, hisFile, -⟩ := hbacked.kept rfl
  simp only [Job.outcome] at hq
  have hsame : some q = some p := hq.symm.trans hpath
  rw [Option.some.inj hsame, hfile] at hisFile
  cases hisFile

end Terse
