import Terse.Command.Shell
import Terse.Proofs.RunEndings

/-!
# What the minify command does

The command loads settings, opens a job, reads a source, runs the job and
delivers the outcome. `Prepared` says that it has got as far as the run. Until
then a diagnosis never blames the source (`minify_cases`), and after the run
only the delivery can fail (`conclude_of_run_eq_ok`). So it is the engine that
decides whether a source is blamed, and it is blamed before any file is written
(`Prepared.exists_minify_eq_error`, `Prepared.rejected_of_exitStatus`).
-/

namespace Terse.Command

open Files

namespace Shell

variable {r : MinifyRequest} {quiet : Bool} {h h' : Host} {s : Settings}
  {j : Job} {source : Bytes} {t t' : Tree}
  {o : Outcome} {f : Failure}

/-! ### The steps of a command -/

theorem get_apply (h : Host) : (get : Shell Host) h = .ok h h := rfl

theorem loadSettings_cases (p : Option Bytes) (h : Host) :
    (∃ s, loadSettings p h = .ok s h) ∨ ∃ d, loadSettings p h = .error d h ∧
      d.exitStatus = Diagnosis.otherFailure := by
  cases p with
  | none => exact .inl ⟨_, rfl⟩
  | some p =>
    simp only [loadSettings, readSettings, bind, EStateM.bind, disk, Disk.ask]
    cases h.tree.read p with
    | error c => exact .inr ⟨_, rfl, rfl⟩
    | ok content =>
      dsimp only
      cases Text.Utf8.toString? content with
      | none => exact .inr ⟨_, rfl, rfl⟩
      | some text =>
        dsimp only
        cases Settings.ofDocument? text with
        | none => exact .inr ⟨_, rfl, rfl⟩
        | some s => exact .inl ⟨_, rfl⟩

theorem readSource_cases (p : Option Bytes) (h : Host) :
    (∃ source h', readSource p h = .ok source h' ∧ h'.tree = h.tree ∧
      h'.output = h.output) ∨
      ∃ d h', readSource p h = .error d h' ∧
        d.exitStatus = Diagnosis.otherFailure := by
  cases p with
  | none => exact .inl ⟨_, _, rfl, rfl, rfl⟩
  | some p =>
    simp only [readSource, disk, Disk.ask]
    cases h.tree.read p with
    | error c => exact .inr ⟨_, _, rfl, rfl⟩
    | ok content => exact .inl ⟨_, _, rfl, rfl, rfl⟩

theorem exists_notify (quiet : Bool) (n : Report.Notice) (text : String)
    (h : Host) :
    ∃ m, notify quiet n text h = .ok () { h with messages := m } := by
  cases quiet with
  | true => exact ⟨h.messages, rfl⟩
  | false => exact ⟨_, rfl⟩

theorem exists_notify_if (c quiet : Bool) (n : Report.Notice) (text : String)
    (h : Host) :
    ∃ m, (if c then notify quiet n text else pure ()) h = .ok ()
      { h with messages := m } := by
  cases c with
  | false => exact ⟨h.messages, rfl⟩
  | true => exact exists_notify quiet n text h

/-- What is to be seen of an outcome. -/
def Delivered (o : Outcome) (target : Option Bytes) (h h' : Host) : Prop :=
  match o.payload, target with
  | some text, some p =>
    h'.output = h.output ∧ h.tree.write p text = .ok h'.tree
  | some text, none => h'.output = h.output ++ text ∧ h'.tree = h.tree
  | none, _ =>
    h'.output = h.output ++ (o.storedAt.map fun p =>
      Bytes.ofString (Text.Utf8.display p ++ "\n")).getD [] ∧
    h'.tree = h.tree

/-- The payload cannot be written to the file that was asked for. -/
def Undeliverable (o : Outcome) (target : Option Bytes) (t : Tree) : Prop :=
  ∃ text p c, o.payload = some text ∧ target = some p ∧
    t.write p text = .error c

theorem deliver_cases (o : Outcome) (target : Option Bytes) (quiet : Bool)
    (h : Host) :
    (∃ d h', deliver o target quiet h = .error d h' ∧
      d.exitStatus = Diagnosis.otherFailure ∧
        Undeliverable o target h.tree) ∨
      ∃ h', deliver o target quiet h = .ok () h' ∧ Delivered o target h h' := by
  obtain ⟨key, payload, hit, storedAt, sourceLength, outputLength⟩ := o
  cases payload with
  | some text =>
    cases target with
    | none => exact .inr ⟨_, rfl, rfl, rfl⟩
    | some p =>
      simp only [deliver, bind, EStateM.bind, disk, Disk.change]
      cases hwrite : h.tree.write p text with
      | error c => exact .inl ⟨_, _, rfl, rfl, text, p, c, rfl, rfl, hwrite⟩
      | ok t =>
        obtain ⟨m, hm⟩ :=
          exists_notify quiet .success ("Minified output written to " ++
            Text.Utf8.display p)
          { h with tree := t }
        exact .inr ⟨_, hm, rfl, hwrite⟩
  | none =>
    have hnote :=
      exists_notify_if target.isSome quiet .info
        "Result suppressed; the output file was not written."
    cases storedAt with
    | none =>
      obtain ⟨m, hm⟩ := hnote h
      exact .inr ⟨_, hm, (List.append_nil _).symm, rfl⟩
    | some p =>
      obtain ⟨m, hm⟩ :=
        hnote { h with
          output := h.output ++ Bytes.ofString (Text.Utf8.display p ++ "\n") }
      exact .inr ⟨_, hm, rfl, rfl⟩

theorem Delivered.tree_eq {target : Option Bytes} (hd : Delivered o target h h')
    (hpayload : o.payload = none) :
    h'.tree = h.tree := by
  rw [Delivered.eq_def, hpayload] at hd
  exact hd.2

theorem Delivered.output_eq {target : Option Bytes} {p : Bytes}
    (hd : Delivered o target h h') (hpayload : o.payload = none)
    (hstored : o.storedAt = some p) :
    h'.output = h.output ++ Bytes.ofString (Text.Utf8.display p ++ "\n") := by
  rw [Delivered.eq_def, hpayload, hstored] at hd
  exact hd.1

/-- Opening a job fails for other reasons than that a source is malformed. -/
theorem ofSettings_ne_rejected (w : Writer) (env : Environment) (s : Settings)
    (t t' : Tree) (fault : Script.Fault) :
    Job.ofSettings w env s t ≠ .error (.rejected fault) t' := by
  intro h
  rcases Job.ofSettings_eq_error h with ⟨reason, hf⟩ | ⟨reason, hf⟩
  · cases hf
  · cases hf

theorem exitStatus_ofFailure_eq_iff :
    (ofFailure f).exitStatus = Diagnosis.malformedSource ↔
      ∃ fault, f = .rejected fault := by
  rw [Diagnosis.exitStatus_eq_malformedSource_iff]
  simp [ofFailure]

/-! ### Up to the run -/

/-- The settings `s` are the settings `base` as the switches of the request
change them: a switch that is given has its way, and else `base` does. -/
structure Obeys (r : MinifyRequest) (base s : Settings) : Prop where
  isDryRun_eq : s.isDryRun = (r.dryRun || base.isDryRun)
  suppressesResult_eq :
    s.suppressesResult = (r.suppressResult || base.suppressesResult)
  usesCache_eq : s.usesCache = (!r.noCache && base.usesCache)
  cacheDirectory_eq :
    s.cacheDirectory = (r.cacheDirectory <|> base.cacheDirectory)
  regexAfterKeywords_eq : s.options.regexAfterKeywords =
    (r.regexAfterKeywords || base.options.regexAfterKeywords)

theorem obeys_requestedSettings (r : MinifyRequest) (base : Settings) :
    Obeys r base ((requestedSettings r).laidOver base) where
  isDryRun_eq := by
    rw [requestedSettings, Settings.laidOver]
    cases r.dryRun <;> rfl
  suppressesResult_eq := by
    rw [requestedSettings, Settings.laidOver]
    cases r.suppressResult <;> rfl
  usesCache_eq := by
    rw [requestedSettings, Settings.laidOver]
    cases r.noCache <;> rfl
  cacheDirectory_eq := rfl
  regexAfterKeywords_eq := by
    rw [requestedSettings, Settings.laidOver]
    cases r.regexAfterKeywords <;> rfl

/-- On the host `h` the request comes to the settings `s`, the job `j` and the
source `source`, and opening the job makes `t` of the tree. -/
structure Prepared (r : MinifyRequest) (h : Host) (s : Settings) (j : Job)
    (source : Bytes) (t : Tree) : Prop where
  loads : ∃ base, loadSettings r.config h = .ok base h ∧
    s = (requestedSettings r).laidOver base
  opens : Job.ofSettings h.writer h.environment s h.tree = .ok j t
  reads : ∃ h', readSource r.inputFile { h with tree := t } = .ok source h'

def conclude (r : MinifyRequest) (quiet : Bool) (j : Job) (source : Bytes) :
    Shell Unit := do
  let o ← runJob j source r.output r.stats quiet
  if o.hit then notify quiet .info "Served from cache."

namespace Prepared

variable (hp : Prepared r h s j source t)

include hp

theorem obeys :
    ∃ base, loadSettings r.config h = .ok base h ∧ Obeys r base s := by
  obtain ⟨base, hload, rfl⟩ := hp.loads
  exact ⟨base, hload, obeys_requestedSettings r base⟩

theorem serves :
    j.Serves s fun root => s.cacheDirectory? h.environment = some root :=
  (Job.ofSettings_eq_ok hp.opens fun _ _ hroot => hroot).1

/-- Opening the job makes nothing but the directory of its store, and those that
are missing on the way to it. -/
theorem opened_cases :
    t = h.tree ∨ ∃ st, j.activeStore = some st ∧
      Tree.AddsDirectories (Path.ancestors st.root) h.tree t := by
  obtain ⟨hserves, ⟨-, rfl⟩ | ⟨hs, root, hroot, hmake⟩⟩ :=
    Job.ofSettings_eq_ok hp.opens fun _ _ hroot => hroot
  · exact .inl rfl
  · obtain ⟨root', w, hroot', hst⟩ := hserves.exists_activeStore hs
    obtain rfl := Option.some.inj (hroot.symm.trans hroot')
    exact .inr ⟨_, hst, Tree.addsDirectories_of_makeDirectories hmake⟩

theorem proper (ht : h.tree.Proper) : t.Proper := by
  rcases hp.opened_cases with rfl | ⟨st, -, hadds⟩
  · exact ht
  · exact hadds.proper ht

theorem content?_eq : t.content? = h.tree.content? := by
  rcases hp.opened_cases with rfl | ⟨st, -, hadds⟩
  · rfl
  · exact hadds.content?_eq

theorem suppressesResult_eq_false (hst : j.activeStore = none) :
    s.suppressesResult = false := by
  refine Settings.suppressesResult_eq_false hp.serves.consistent ?_
  cases hs : s.usesStore with
  | false => rfl
  | true =>
    obtain ⟨root, w, -, hsome⟩ := hp.serves.exists_activeStore hs
    rw [hst] at hsome
    cases hsome

/-- The engine rejects a source exactly if the run is not dry and the source is
malformed. -/
theorem apply_eq_error_iff {fault : Script.Fault} :
    j.engine.apply source = .error (.rejected fault) ↔
      s.isDryRun = false ∧ Script.minify s.options source = .error fault := by
  rw [hp.serves.engine_eq, Engine.ofSettings]
  cases s.isDryRun with
  | true => simp [Engine.passthrough]
  | false =>
    simp only [Engine.apply_minifier, Bool.false_eq_true, if_false, true_and]
    cases Script.minify s.options source <;> simp

theorem unique {s' : Settings} {j' : Job} {source' : Bytes}
    (hp' : Prepared r h s' j' source' t') :
    s' = s ∧ j' = j ∧ source' = source ∧ t' = t := by
  obtain ⟨base, hload, rfl⟩ := hp.loads
  obtain ⟨base', hload', rfl⟩ := hp'.loads
  rw [hload] at hload'
  cases hload'
  have hopens := hp'.opens
  rw [hp.opens] at hopens
  cases hopens
  obtain ⟨h₁, hread⟩ := hp.reads
  obtain ⟨h₁', hread'⟩ := hp'.reads
  rw [hread] at hread'
  cases hread'
  exact ⟨rfl, rfl, rfl, rfl⟩

theorem exists_minify_eq (quiet : Bool) :
    ∃ h', minify r quiet h = conclude r quiet j source h' ∧ h'.tree = t ∧
      h'.output = h.output := by
  obtain ⟨base, hload, rfl⟩ := hp.loads
  obtain ⟨h', hread⟩ := hp.reads
  rcases readSource_cases r.inputFile { h with tree := t } with
    ⟨_, _, hread', htree, houtput⟩ | ⟨d, _, herror, -⟩
  · rw [hread] at hread'
    cases hread'
    refine ⟨h', ?_, htree, houtput⟩
    simp only [minify, conclude, bind, EStateM.bind, hload, get_apply, disk,
      hp.opens, hread]
  · rw [hread] at herror
    cases herror

end Prepared

theorem minify_cases (r : MinifyRequest) (quiet : Bool) (h : Host) :
    (∃ s j source t, Prepared r h s j source t) ∨
      ∃ d h', minify r quiet h = .error d h' ∧
        d.exitStatus = Diagnosis.otherFailure := by
  rcases loadSettings_cases r.config h with ⟨base, hload⟩ | ⟨d, herror, hstatus⟩
  · cases hopen :
      Job.ofSettings h.writer h.environment
        ((requestedSettings r).laidOver base) h.tree with
    | error f t =>
      refine .inr ⟨ofFailure f, { h with tree := t }, ?_, ?_⟩
      · simp only [minify, bind, EStateM.bind, hload, get_apply, disk, hopen]
      · cases f with
        | rejected fault =>
          exact absurd hopen (ofSettings_ne_rejected _ _ _ _ _ _)
        | _ => rfl
    | ok j t =>
      rcases readSource_cases r.inputFile { h with tree := t } with
        ⟨source, h', hread, -⟩ | ⟨d, h', herror, hstatus⟩
      · exact .inl ⟨_, j, source, t, ⟨base, hload, rfl⟩, hopen, h', hread⟩
      · refine .inr ⟨d, h', ?_, hstatus⟩
        simp only [minify, bind, EStateM.bind, hload, get_apply, disk,
          hopen, herror]
  · refine .inr ⟨d, h, ?_, hstatus⟩
    simp only [minify, bind, EStateM.bind, herror]

/-! ### The run and after -/

theorem conclude_of_run_eq_error (hrun : j.run source h.tree = .error f t') :
    conclude r quiet j source h = .error (ofFailure f)
      { h with tree := t' } := by
  simp only [conclude, runJob, bind, EStateM.bind, disk, hrun]

/-- After a run only the delivery of a payload can fail, and what follows that
prints nothing but messages. -/
theorem conclude_of_run_eq_ok (hrun : j.run source h.tree = .ok o t') :
    (∃ d h', conclude r quiet j source h = .error d h' ∧
      d.exitStatus = Diagnosis.otherFailure ∧
        Undeliverable o r.output t') ∨
      ∃ h', conclude r quiet j source h = .ok () h' ∧
        Delivered o r.output { h with tree := t' } h' := by
  rcases deliver_cases o r.output quiet { h with tree := t' } with
    ⟨d, h', herror, hother⟩ | ⟨h', hok, hdelivered⟩
  · refine .inl ⟨d, h', ?_, hother⟩
    simp only [conclude, runJob, bind, EStateM.bind, disk, hrun, herror]
  · obtain ⟨h'', hstats, htree, houtput⟩ : ∃ h'' : Host,
        (if r.stats = true then
          EStateM.bind (warn (summary j o).table.render) fun _ => pure o
          else pure o) h' =
          .ok o h'' ∧ h''.tree = h'.tree ∧ h''.output = h'.output := by
      cases r.stats with
      | false => exact ⟨h', rfl, rfl, rfl⟩
      | true => exact ⟨_, rfl, rfl, rfl⟩
    obtain ⟨m, hm⟩ :=
      exists_notify_if o.hit quiet .info "Served from cache." h''
    refine .inr ⟨{ h'' with messages := m }, ?_, ?_⟩
    · simp only [conclude, runJob, bind, EStateM.bind, disk, hrun,
        hok] at hstats ⊢
      rw [hstats]
      exact hm
    · rw [Delivered.eq_def] at hdelivered ⊢
      simp only [htree, houtput]
      exact hdelivered

namespace Prepared

variable (hp : Prepared r h s j source t)

include hp

/-- The command blames a malformed source that the engine gets to see, and stops
there. -/
theorem exists_minify_eq_error (hdry : s.isDryRun = false)
    (hmiss : j.Misses t source) {fault : Script.Fault}
    (hfault : Script.minify s.options source = .error fault) (quiet : Bool) :
    ∃ h', minify r quiet h = .error (ofFailure (.rejected fault)) h' ∧
      h'.tree = t ∧ h'.output = h.output := by
  obtain ⟨h₁, hminify, htree, houtput⟩ := hp.exists_minify_eq quiet
  have hrun : j.run source h₁.tree = .error (.rejected fault) t :=
    Job.run_eq_rejected_iff.mpr ⟨htree.symm, htree ▸ hmiss,
      hp.apply_eq_error_iff.mpr ⟨hdry, hfault⟩⟩
  exact ⟨_, hminify.trans (conclude_of_run_eq_error hrun), rfl, houtput⟩

theorem rejected_of_exitStatus {d : Diagnosis}
    (hm : minify r quiet h = .error d h')
    (hd : d.exitStatus = Diagnosis.malformedSource) :
    s.isDryRun = false ∧ j.Misses t source ∧
      ∃ fault, Script.minify s.options source = .error fault := by
  obtain ⟨h₁, hminify, rfl, -⟩ := hp.exists_minify_eq quiet
  rw [hm] at hminify
  cases hrun : j.run source h₁.tree with
  | error f t' =>
    rw [conclude_of_run_eq_error hrun] at hminify
    cases hminify
    obtain ⟨fault, rfl⟩ := exitStatus_ofFailure_eq_iff.mp hd
    obtain ⟨-, hmiss, happly⟩ := Job.run_eq_rejected_iff.mp hrun
    obtain ⟨hdry, hfault⟩ := hp.apply_eq_error_iff.mp happly
    exact ⟨hdry, hmiss, fault, hfault⟩
  | ok o t' =>
    rcases conclude_of_run_eq_ok hrun with
      ⟨d', h'', herror, hother, -⟩ | ⟨h'', hok, -⟩
    · rw [herror] at hminify
      cases hminify
      rw [hother] at hd
      cases hd
    · rw [hok] at hminify
      cases hminify

theorem exists_delivered (hm : minify r quiet h = .ok () h') :
    ∃ o t' h₁, j.run source t = .ok o t' ∧ h₁.output = h.output ∧ h₁.tree = t' ∧
      Delivered o r.output h₁ h' := by
  obtain ⟨h₁, hminify, rfl, houtput⟩ := hp.exists_minify_eq quiet
  rw [hm] at hminify
  cases hrun : j.run source h₁.tree with
  | error f t' =>
    rw [conclude_of_run_eq_error hrun] at hminify
    cases hminify
  | ok o t' =>
    rcases conclude_of_run_eq_ok hrun with
      ⟨d', h'', herror, -⟩ | ⟨h'', hok, hdelivered⟩
    · rw [herror] at hminify
      cases hminify
    · rw [hok] at hminify
      cases hminify
      exact ⟨o, t', { h₁ with tree := t' }, rfl, houtput, rfl, hdelivered⟩

end Prepared

end Shell

end Terse.Command
