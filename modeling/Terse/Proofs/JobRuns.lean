import Terse.Job
import Terse.Proofs.StoreContents

/-!
# What a run does

A job is opened from settings and then run. `Job.ofSettings_eq_ok` tells which
job the settings give and what opening it does to the tree. A run without a
store is the engine; one with a store that holds a map has three ways to end:
the key is in the map, the source is rejected, or the output is added to the
map. There is no fourth.
-/

namespace Terse

open Files

/-- Whether runs look into the store and add to it. -/
def Settings.usesStore (s : Settings) : Bool := !s.isDryRun && s.usesCache

theorem Settings.suppressesResult_eq_false {s : Settings}
    (h : s.contradiction? = none) (hs : s.usesStore = false) :
    s.suppressesResult = false := by
  cases hsup : s.suppressesResult with
  | false => rfl
  | true =>
    obtain ⟨hcache, hdry⟩ := s.contradiction?_eq_none_iff.mp h hsup
    rw [usesStore, hcache, hdry] at hs
    cases hs

theorem Engine.ofSettings_of_usesStore {s : Settings} (h : s.usesStore = true) :
    Engine.ofSettings s = .minifier s.options := by
  have hdry : s.isDryRun = false := by simpa using (Bool.and_eq_true_iff.mp h).1
  rw [ofSettings, hdry]
  rfl

theorem Settings.transform_eq_ok_iff {s : Settings} {source output : Bytes}
    (hs : s.usesStore = true) :
    s.transform source = .ok output ↔ Script.minify s.options source =
      .ok output := by
  rw [transform, Engine.ofSettings_of_usesStore hs, Engine.apply_minifier]
  cases Script.minify s.options source <;> simp

/-- The outcome tells about the output as the settings ask. -/
structure Outcome.Tells (outcome : Outcome) (s : Settings) (output : Bytes)
    (hit : Bool) : Prop where
  payload_eq : outcome.payload = if s.suppressesResult then
    none else some output
  outputLength_eq : outcome.outputLength = output.length
  hit_eq : outcome.hit = hit

theorem Store.create_eq (w : Writer) (root : Bytes) (t : Tree) :
    Store.create w root t =
      match Disk.makeDirectories root t with
      | .ok _ t' => .ok ⟨root, w⟩ t'
      | .error c t' => .error (.store
          ("cannot create cache directory " ++ Text.Utf8.display root ++ ": " ++
            c.message)) t' := by
  simp only [Store.create, bind, EStateM.bind, EStateM.adaptExcept]
  cases Disk.makeDirectories root t <;> rfl

namespace Job

/-- The job `j` is what the settings `s` ask for, with a store at one of the
paths `roots` if it has one. -/
structure Serves (j : Job) (s : Settings) (roots : Bytes → Prop) : Prop where
  engine_eq : j.engine = .ofSettings s
  suppress_eq : j.suppress = s.suppressesResult
  consistent : s.contradiction? = none
  store_eq_none : s.usesStore = false → j.store = none
  exists_store : s.usesStore = true → ∃ root w, roots root ∧
    j.store = some ⟨root, w⟩

/-- Opening a job leaves the tree alone, or makes the directory of its store. -/
theorem ofSettings_eq_ok {w : Writer} {env : Environment} {s : Settings}
    {t t' : Tree} {j : Job} {roots : Bytes → Prop}
    (h : ofSettings w env s t = .ok j t')
    (hroots : s.usesStore = true → ∀ root, s.cacheDirectory? env = some root →
      roots root) :
    j.Serves s roots ∧
      ((s.usesStore = false ∧ t' = t) ∨
        (s.usesStore = true ∧ ∃ root, roots root ∧ Disk.makeDirectories root t =
          .ok () t')) := by
  have hcond : (s.isDryRun || !s.usesCache) = !s.usesStore := by
    rw [Settings.usesStore]
    cases s.isDryRun <;> rfl
  rw [ofSettings] at h
  cases hc : s.contradiction? with
  | some c =>
    rw [hc] at h
    cases h
  | none =>
    simp only [hc, hcond] at h
    cases hs : s.usesStore with
    | false =>
      rw [hs] at h
      cases h
      refine ⟨⟨rfl, rfl, hc, fun _ => rfl, fun h => ?_⟩, .inl ⟨rfl, rfl⟩⟩
      rw [hs] at h
      cases h
    | true =>
      simp only [hs, Bool.not_true, Bool.false_eq_true, if_false] at h
      cases hd : s.cacheDirectory? env with
      | none =>
        rw [hd] at h
        cases h
      | some root =>
        have hroot := hroots hs root hd
        cases hmake : Disk.makeDirectories root t with
        | error c t₁ =>
          simp only [hd, bind, EStateM.bind, Store.create_eq, hmake] at h
          cases h
        | ok u t₁ =>
          simp only [hd, bind, EStateM.bind, Store.create_eq, hmake] at h
          cases h
          refine ⟨⟨rfl, rfl, hc, fun h => ?_, fun _ => ⟨root, w, hroot, rfl⟩⟩,
            .inr ⟨rfl, root, hroot, hmake⟩⟩
          rw [hs] at h
          cases h

theorem ofSettings_eq_error {w : Writer} {env : Environment} {s : Settings}
    {t t' : Tree} {f : Failure} (h : ofSettings w env s t = .error f t') :
    (∃ reason, f = .settings reason) ∨ ∃ reason, f = .store reason := by
  rw [ofSettings] at h
  cases hc : s.contradiction? with
  | some c =>
    rw [hc] at h
    cases h
    exact .inl ⟨_, rfl⟩
  | none =>
    simp only [hc] at h
    split at h
    · cases h
    · cases hd : s.cacheDirectory? env with
      | none =>
        rw [hd] at h
        cases h
        exact .inr ⟨_, rfl⟩
      | some root =>
        simp only [hd, bind, EStateM.bind, Store.create_eq] at h
        cases hmake : Disk.makeDirectories root t with
        | error c t₁ =>
          rw [hmake] at h
          cases h
          exact .inr ⟨_, rfl⟩
        | ok u t₁ =>
          rw [hmake] at h
          cases h

variable {j : Job} {s : Settings} {roots : Bytes → Prop} {source output : Bytes}
  {base t : Tree}
  {place : Place} {m : Store.Contents}

/-! ### Without a store -/

theorem Serves.activeStore_eq_none (hj : j.Serves s roots)
    (hs : s.usesStore = false) :
    j.activeStore = none := by
  rw [activeStore, hj.store_eq_none hs, ite_self]

theorem Serves.run_of_error (hj : j.Serves s roots) (hs : s.usesStore = false)
    {f : Failure} (h : s.transform source = .error f) (t : Tree) :
    j.run source t = .error f t := by
  have happly : j.engine.apply source = .error f := hj.engine_eq ▸ h
  simp only [run, hj.activeStore_eq_none hs, happly]
  rfl

theorem Serves.run_of_ok (hj : j.Serves s roots) (hs : s.usesStore = false)
    (h : s.transform source = .ok output) (t : Tree) :
    ∃ outcome, j.run source t = .ok outcome t ∧ outcome.payload = some output ∧
      outcome.outputLength = output.length ∧ outcome.hit = false := by
  have happly : j.engine.apply source = .ok output := hj.engine_eq ▸ h
  simp only [run, hj.activeStore_eq_none hs, happly]
  exact ⟨_, rfl, rfl, rfl, rfl⟩

/-! ### With a store -/

def outcome (j : Job) (st : Store) (source output : Bytes) (hit : Bool) :
    Outcome where
  key := .derive j.engine.options source
  payload := if j.suppress then none else some output
  hit := hit
  storedAt := st.path? (.derive j.engine.options source)
  sourceLength := source.length
  outputLength := output.length

theorem Serves.tells_outcome (hj : j.Serves s roots) (st : Store)
    (source output : Bytes) (hit : Bool) :
    (j.outcome st source output hit).Tells s output hit where
  payload_eq := by rw [outcome, hj.suppress_eq]
  outputLength_eq := rfl
  hit_eq := rfl

theorem get_bind_apply {α : Type} (f : Tree → Disk Failure α) (t : Tree) :
    (get >>= f) t = f t t :=
  rfl

theorem run_of_found {st : Store} (hstore : j.activeStore = some st)
    (hget : st.get t (.derive j.engine.options source) = .ok (some output)) :
    j.run source t = .ok (j.outcome st source output true) t := by
  simp only [run, hstore, get_bind_apply, hget]
  rfl

theorem run_of_missing {st : Store} (hstore : j.activeStore = some st)
    (hget : st.get t (.derive j.engine.options source) = .ok none) :
    j.run source t =
      match j.produce st (.derive j.engine.options source) source t with
      | .ok output t' => .ok (j.outcome st source output false) t'
      | .error f t' => .error f t' := by
  simp only [run, hstore, get_bind_apply, hget]
  simp only [bind, EStateM.bind]
  cases j.produce st (.derive j.engine.options source) source t <;> rfl

theorem Serves.exists_activeStore (hj : j.Serves s roots)
    (hs : s.usesStore = true) :
    ∃ root w, roots root ∧ j.activeStore = some ⟨root, w⟩ := by
  obtain ⟨root, w, hroot, hstore⟩ := hj.exists_store hs
  refine ⟨root, w, hroot, ?_⟩
  rw [activeStore, hj.engine_eq, Engine.ofSettings_of_usesStore hs, hstore]
  rfl

theorem Serves.options_eq (hj : j.Serves s roots) (hs : s.usesStore = true) :
    j.engine.options = s.options := by
  rw [hj.engine_eq, Engine.ofSettings_of_usesStore hs]
  rfl

section

variable (h : Store.Holds base place m t) (hv : Store.Vacant base place)
  (hroots : ∀ root, roots root → base.Leads root place) (hj : j.Serves s roots)
  (hs : s.usesStore = true)

include h hv hroots hj hs

theorem exists_run_of_stored {v : Store.Deposit}
    (hm : m (.derive s.options source) = some v) :
    ∃ st, j.run source t = .ok (j.outcome st source v.output true) t := by
  obtain ⟨root, w, hroot, hstore⟩ := hj.exists_activeStore hs
  have hget := h.get_eq hv (hroots root hroot)
    (Store.Key.isDigest_derive s.options source) w
  rw [hm, ← hj.options_eq hs] at hget
  exact ⟨⟨root, w⟩, run_of_found hstore hget⟩

theorem run_of_rejected (hm : m (.derive s.options source) = none) {f : Failure}
    (hf : s.transform source = .error f) : j.run source t = .error f t := by
  obtain ⟨root, w, hroot, hstore⟩ := hj.exists_activeStore hs
  have hget := h.get_eq hv (hroots root hroot)
    (Store.Key.isDigest_derive s.options source) w
  rw [hm, ← hj.options_eq hs] at hget
  have happly : j.engine.apply source = .error f := hj.engine_eq ▸ hf
  rw [run_of_missing hstore hget]
  simp only [produce, happly]
  rfl

theorem exists_run_of_fresh (hm : m (.derive s.options source) = none)
    (ho : s.transform source = .ok output) :
    ∃ st v t', j.run source t = .ok (j.outcome st source output false) t' ∧
      v.output = output ∧
      Store.Holds base place (m.insert (.derive s.options source) v) t' := by
  obtain ⟨root, w, hroot, hstore⟩ := hj.exists_activeStore hs
  have hdigest := Store.Key.isDigest_derive s.options source
  have hget := h.get_eq hv (hroots root hroot) hdigest w
  obtain ⟨p, t', hput, hholds⟩ :=
    h.exists_put hv (hroots root hroot) hdigest w source.length output
  rw [hm, ← hj.options_eq hs] at hget
  rw [← hj.options_eq hs] at hput
  have happly : j.engine.apply source = .ok output := hj.engine_eq ▸ ho
  refine ⟨⟨root, w⟩, _, t', ?_, ?_, hholds⟩
  · rw [run_of_missing hstore hget]
    simp only [produce, happly, bind, EStateM.bind, hput]
    rfl
  · rfl

end

end Job

end Terse
