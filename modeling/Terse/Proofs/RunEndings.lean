import Terse.Proofs.FailedPut
import Terse.Proofs.Sites

/-!
# How a run ends

A run of a job looks for the output, makes it if it is not there, and stores
what it made. Each of these can go wrong, and `Job.ends_run` lists all the ways
in which a run can end, on any tree and with a store at any path. Only one of
them is the rejection of a source (`Job.run_eq_rejected_iff`).

A put that succeeds tells more about the tree than its own success: the path of
the store has led to a directory by then, even if it did not before. In it four
places have changed and no others, and the output is in one of them
(`Store.exists_rooted_of_put_eq_ok`, `Store.read_of_put_eq_ok`).
-/

namespace Terse

open Files Files.Path

namespace Store

variable {t t' : Tree} {root p output : Bytes} {place q : Place} {w : Writer}
  {k : Key} {v : Deposit}
  {sourceLength : Nat}

/-! ### Puts that succeed -/

/-- The places that a put under `k` writes to. -/
def Key.Touches (w : Writer) (place : Place) (k : Key) (q : Place) : Prop :=
  ∃ e, IsExtension e ∧ (q = k.fileAt place e ∨ q = k.temporaryAt w place e)

/-- The contents of files after a put of `v`, if they were `contents` before. -/
def contentsAfterPut (w : Writer) (place : Place) (k : Key) (v : Deposit)
    (contents : Place → Option Bytes) :
    Place → Option Bytes :=
  Function.update
    (Function.update
      (Function.update
        (Function.update contents (k.temporaryAt w place outputExtension) none)
        (k.fileAt place outputExtension) (some v.output))
      (k.temporaryAt w place entryExtension) none)
    (k.fileAt place entryExtension) (some (v.entry k).render)

theorem contentsAfterPut_entry (contents : Place → Option Bytes) :
    contentsAfterPut w place k v contents (k.fileAt place entryExtension) =
      some (v.entry k).render :=
  Function.update_self ..

theorem contentsAfterPut_output (hk : k.IsDigest)
    (contents : Place → Option Bytes) :
    contentsAfterPut w place k v contents (k.fileAt place outputExtension) =
      some v.output := by
  have hentry : k.fileAt place outputExtension ≠
      k.fileAt place entryExtension := by
    simpa [Key.fileAt] using fileName_output_ne_entry hk hk
  have htemporary : k.fileAt place outputExtension ≠
      k.temporaryAt w place entryExtension := by
    simpa [Key.fileAt, Key.temporaryAt]
      using (temporaryName_ne_fileName w _ hk (.inl rfl)).symm
  rw [contentsAfterPut, Function.update_of_ne hentry,
    Function.update_of_ne htemporary, Function.update_self]

theorem contentsAfterPut_of_not_touches (hq : ¬ k.Touches w place q)
    (contents : Place → Option Bytes) :
    contentsAfterPut w place k v contents q = contents q := by
  have hfile : ∀ {e}, IsExtension e → q ≠ k.fileAt place e :=
    fun he heq => hq ⟨_, he, .inl heq⟩
  have htemporary : ∀ {e}, IsExtension e → q ≠ k.temporaryAt w place e :=
    fun he heq => hq ⟨_, he, .inr heq⟩
  rw [contentsAfterPut, Function.update_of_ne (hfile (.inr rfl)),
    Function.update_of_ne (htemporary (.inr rfl)),
    Function.update_of_ne (hfile (.inl rfl)),
      Function.update_of_ne (htemporary (.inl rfl))]

theorem refiles_of_writeWhole_eq_ok (h : t.Rooted root place) (hk : k.IsDigest)
    (hdir : t.node? (place ++ [k.shard]) = some .directory)
    {extension content : Bytes} (hext : IsExtension extension)
    (hwrite :
      writeWhole w (Path.join (Path.join root k.shard) (k.fileName extension))
        content t = .ok () t') :
    t.Refiles t' ∧ t'.content? =
      Function.update
        (Function.update t.content? (k.temporaryAt w place extension) none)
        (k.fileAt place extension)
        (some content) := by
  rcases writeWhole_fileName h hk hdir hext w content with
    ⟨-, herror⟩ | ⟨-, -, t₁, herror, -⟩ | ⟨-, -, t₁, hok, hrefiles, hcontents⟩
  · rw [hwrite] at herror
    cases herror
  · rw [hwrite] at herror
    cases herror
  · rw [hwrite] at hok
    cases hok
    exact ⟨hrefiles, hcontents⟩

/-- After a put the path of the store leads to a directory, and four places in
it have changed. -/
theorem exists_rooted_of_put_eq_ok (ht : t.Proper) (hk : k.IsDigest)
    (hput : Store.put ⟨root, w⟩ k sourceLength output t = .ok p t') :
    p = Path.join (Path.join root k.shard) (k.fileName outputExtension) ∧
      ∃ place, t'.Rooted root place ∧
        t'.content? = contentsAfterPut w place k ⟨output, sourceLength, w.now⟩
          t.content? := by
  have hshard := isName_shard hk
  rw [put_eq hk] at hput
  cases hmake : Disk.makeDirectories (Path.join root k.shard) t with
  | error c t₁ =>
    rw [hmake] at hput
    cases hput
  | ok u t₁ =>
    -- making the directory shows where the path of the store leads
    have hadds := Tree.addsDirectories_of_makeDirectories hmake
    have hthere :=
      Tree.isDirectory_of_makeDirectories (join_ne_nil root hshard) hmake
    rw [hmake] at hput
    obtain ⟨place, h₁, hdir₁⟩ :=
      (hadds.proper ht).exists_rooted_of_isDirectory_join hshard hthere
    dsimp only at hput
    split at hput
    · cases hput
    · next hwriteOutput =>
      obtain ⟨hrefiles₂, hcontents₂⟩ :=
        refiles_of_writeWhole_eq_ok h₁ hk hdir₁ (.inl rfl) hwriteOutput
      have h₂ := h₁.of_refiles hrefiles₂
      split at hput
      · cases hput
      · next hwriteEntry =>
        obtain ⟨hrefiles₃, hcontents₃⟩ :=
          refiles_of_writeWhole_eq_ok h₂ hk (hrefiles₂.keeps.directory hdir₁)
            (.inr rfl) hwriteEntry
        cases hput
        refine ⟨rfl, place, h₂.of_refiles hrefiles₃, ?_⟩
        rw [hcontents₃, hcontents₂, hadds.content?_eq]
        rfl

theorem read_of_put_eq_ok (ht : t.Proper) (hk : k.IsDigest)
    (hput : Store.put ⟨root, w⟩ k sourceLength output t = .ok p t') :
    t'.read p = .ok output := by
  obtain ⟨rfl, place, h, hcontents⟩ := exists_rooted_of_put_eq_ok ht hk hput
  have hread := h.toOption_read_join_join (isName_shard hk)
    (isName_fileName hk (.inl rfl))
  rw [← Key.fileAt, hcontents, contentsAfterPut_output hk] at hread
  cases hp :
    t'.read (Path.join (Path.join root k.shard)
      (k.fileName outputExtension)) with
  | error c =>
    rw [hp] at hread
    cases hread
  | ok content =>
    rw [hp] at hread
    rw [Option.some.inj hread]

/-! ### Failures -/

/-- Looking up and storing fail for other reasons than that a source is
malformed. -/
theorem get_ne_rejected (s : Store) (t : Tree) (k : Key)
    (fault : Script.Fault) :
    s.get t k ≠ .error (.rejected fault) := by
  rw [get]
  split
  · simp
  · split
    · split <;> simp
    · simp

theorem put_ne_rejected (hk : k.IsDigest) (root : Bytes) (w : Writer)
    (t t' : Tree) (fault : Script.Fault) :
    Store.put ⟨root, w⟩ k sourceLength output t ≠
      .error (.rejected fault) t' := by
  rw [put_eq hk]
  split
  · simp
  · split
    · simp
    · split <;> simp

theorem exists_path_of_get {s : Store} (h : s.get t k = .ok (some output)) :
    ∃ p, s.path? k = some p ∧ t.read p = .ok output := by
  rw [get] at h
  split at h
  · cases h
  · next p hp =>
    split at h
    · split at h
      · next content hread =>
        cases h
        exact ⟨p, hp, hread⟩
      · cases h
    · cases h

end Store

namespace Job

variable {j : Job} {source : Bytes} {t : Tree}

/-- If the job has a store, it can be looked into, and nothing is stored for the
source. -/
def Misses (j : Job) (t : Tree) (source : Bytes) : Prop :=
  ∀ st, j.activeStore = some st →
    st.get t (.derive j.engine.options source) = .ok none

/-- The output that is due for a source: the stored one, or if there is none,
the one that the engine makes. -/
inductive Gives (j : Job) (t : Tree) (source : Bytes) : Bytes → Prop where
  | stored {st : Store} {output : Bytes} (hst : j.activeStore = some st)
      (hget : st.get t (.derive j.engine.options source) = .ok (some output)) :
        Gives j t source output
  | made {output : Bytes} (hmiss : j.Misses t source)
    (happly : j.engine.apply source = .ok output) :
      Gives j t source output

/-- What a run without a store tells about an output. -/
def plainOutcome (j : Job) (source output : Bytes) : Outcome where
  key := .derive j.engine.options source
  payload := some output
  hit := false
  storedAt := none
  sourceLength := source.length
  outputLength := output.length

/-- The ways in which a run can end. -/
inductive Ends (j : Job) (source : Bytes) (t : Tree) :
    EStateM.Result Failure Tree Outcome → Prop where
  /-- The output is found. -/
  | found {st : Store} {output : Bytes} (hst : j.activeStore = some st)
      (hget : st.get t (.derive j.engine.options source) = .ok (some output)) :
      Ends j source t (.ok (j.outcome st source output true) t)
  /-- Looking for the output fails. -/
  | unreadable {st : Store} {f : Failure} (hst : j.activeStore = some st)
      (hget : st.get t (.derive j.engine.options source) = .error f) :
        Ends j source t (.error f t)
  /-- The engine rejects the source. -/
  | rejected {f : Failure} (hmiss : j.Misses t source)
    (happly : j.engine.apply source = .error f) :
      Ends j source t (.error f t)
  /-- The output is made, and there is no store to put it into. -/
  | made {output : Bytes} (hst : j.activeStore = none)
    (happly : j.engine.apply source = .ok output) :
      Ends j source t (.ok (j.plainOutcome source output) t)
  /-- The output is made and stored. -/
  | stored {st : Store} {output p : Bytes} {t' : Tree}
    (hst : j.activeStore = some st)
      (hget : st.get t (.derive j.engine.options source) = .ok none)
      (happly : j.engine.apply source = .ok output)
      (hput : st.put (.derive j.engine.options source) source.length output t =
        .ok p t') :
      Ends j source t (.ok (j.outcome st source output false) t')
  /-- The output is made and cannot be stored. -/
  | unstored {st : Store} {output : Bytes} {f : Failure} {t' : Tree}
    (hst : j.activeStore = some st)
      (hget : st.get t (.derive j.engine.options source) = .ok none)
      (happly : j.engine.apply source = .ok output)
      (hput : st.put (.derive j.engine.options source) source.length output t =
        .error f t') :
      Ends j source t (.error f t')

theorem misses_of_activeStore_eq_none (hst : j.activeStore = none) :
    j.Misses t source := by
  intro st h
  rw [hst] at h
  cases h

theorem misses_of_get {st : Store} (hst : j.activeStore = some st)
    (hget : st.get t (.derive j.engine.options source) = .ok none) :
    j.Misses t source := by
  intro st' h
  rw [hst] at h
  cases h
  exact hget

theorem Gives.apply_eq_of_misses {output : Bytes} (h : j.Gives t source output)
    (hmiss : j.Misses t source) :
    j.engine.apply source = .ok output := by
  cases h with
  | stored hst hget =>
    rw [hmiss _ hst] at hget
    cases hget
  | made _ happly => exact happly

theorem run_of_apply_eq_error {f : Failure} (hmiss : j.Misses t source)
    (happly : j.engine.apply source = .error f) :
    j.run source t = .error f t := by
  cases hst : j.activeStore with
  | none =>
    simp only [run, hst, happly]
    rfl
  | some st =>
    rw [run_of_missing hst (hmiss st hst)]
    simp only [produce, happly]
    rfl

theorem run_of_put_eq_ok {st : Store} {output p : Bytes} {t' : Tree}
    (hst : j.activeStore = some st)
    (hget : st.get t (.derive j.engine.options source) = .ok none)
    (happly : j.engine.apply source = .ok output)
    (hput : st.put (.derive j.engine.options source) source.length output t =
      .ok p t') :
    j.run source t = .ok (j.outcome st source output false) t' := by
  rw [run_of_missing hst hget]
  simp only [produce, happly, bind, EStateM.bind, hput]
  rfl

theorem ends_run (j : Job) (source : Bytes) (t : Tree) :
    j.Ends source t (j.run source t) := by
  cases hst : j.activeStore with
  | none =>
    have hmiss : j.Misses t source := misses_of_activeStore_eq_none hst
    cases happly : j.engine.apply source with
    | error f =>
      rw [run_of_apply_eq_error hmiss happly]
      exact .rejected hmiss happly
    | ok output =>
      simp only [run, hst, happly]
      exact .made hst happly
  | some st =>
    cases hget : st.get t (.derive j.engine.options source) with
    | error f =>
      simp only [run, hst, get_bind_apply, hget]
      exact .unreadable hst hget
    | ok found =>
      cases found with
      | some output =>
        rw [run_of_found hst hget]
        exact .found hst hget
      | none =>
        have hmiss := misses_of_get hst hget
        cases happly : j.engine.apply source with
        | error f =>
          rw [run_of_apply_eq_error hmiss happly]
          exact .rejected hmiss happly
        | ok output =>
          cases hput :
            st.put (.derive j.engine.options source) source.length output t with
          | error f t' =>
            rw [Store.run_eq_error_of_put hst hget happly hput]
            exact .unstored hst hget happly hput
          | ok p t' =>
            rw [run_of_put_eq_ok hst hget happly hput]
            exact .stored hst hget happly hput

/-- A run with a store that succeeds has left the output where the store keeps
it. For that it has written to no other place than those of the key, and to
these only if the output was not there. -/
theorem exists_stored_of_run_eq_ok {st : Store} {o : Outcome} {t' : Tree}
    (ht : t.Proper) (hst : j.activeStore = some st)
    (hrun : j.run source t = .ok o t') :
    ∃ output hit p, o = j.outcome st source output hit ∧
      j.Gives t source output ∧
      st.path? (.derive j.engine.options source) = some p ∧ t'.Proper ∧
        t'.read p = .ok output ∧
      ∀ q, t'.content? q = t.content? q ∨ j.Misses t source ∧
        ∃ place, t'.Leads st.root place ∧
          (Store.Key.derive j.engine.options source).Touches st.writer
          place q := by
  have hends := j.ends_run source t
  rw [hrun] at hends
  cases hends with
  | made hnone happly =>
    rw [hst] at hnone
    cases hnone
  | found hst' hget =>
    rw [hst] at hst'
    cases hst'
    obtain ⟨p, hpath, hread⟩ := Store.exists_path_of_get hget
    exact ⟨_, true, p, rfl, .stored hst hget, hpath, ht, hread,
      fun q => .inl rfl⟩
  | stored hst' hget happly hput =>
    rw [hst] at hst'
    cases hst'
    have hk := Store.Key.isDigest_derive j.engine.options source
    have hmiss := misses_of_get hst hget
    obtain ⟨hp, place, h, hcontents⟩ :=
      Store.exists_rooted_of_put_eq_ok ht hk hput
    refine ⟨_, false, _, rfl, .made hmiss happly, ?_, h.proper,
      Store.read_of_put_eq_ok ht hk hput, fun q => ?_⟩
    · rw [hp]
      exact Store.path?_eq hk st.writer
    · by_cases hq : (Store.Key.derive j.engine.options source).Touches
        st.writer place q
      · exact .inr ⟨hmiss, place, h.leads, hq⟩
      · exact .inl (by rw [hcontents, Store.contentsAfterPut_of_not_touches hq])

theorem exists_made_of_run_eq_ok {o : Outcome} {t' : Tree}
    (hst : j.activeStore = none) (hrun : j.run source t = .ok o t') :
    ∃ output, o = j.plainOutcome source output ∧ j.Gives t source output ∧
      t' = t := by
  have hends := j.ends_run source t
  rw [hrun] at hends
  cases hends with
  | made _ happly =>
    exact ⟨_, rfl, .made (misses_of_activeStore_eq_none hst) happly, rfl⟩
  | found hst' =>
    rw [hst] at hst'
    cases hst'
  | stored hst' =>
    rw [hst] at hst'
    cases hst'

/-- A source is rejected exactly if the engine gets to see it and rejects it.
The tree is left as it was. -/
theorem run_eq_rejected_iff {fault : Script.Fault} {t' : Tree} :
    j.run source t = .error (.rejected fault) t' ↔
      t' = t ∧ j.Misses t source ∧ j.engine.apply source =
        .error (.rejected fault) := by
  constructor
  · intro hrun
    have hends := j.ends_run source t
    rw [hrun] at hends
    cases hends with
    | unreadable hst hget => exact absurd hget (Store.get_ne_rejected _ _ _ _)
    | rejected hmiss happly => exact ⟨rfl, hmiss, happly⟩
    | unstored hst hget happly hput =>
      exact absurd hput
        (Store.put_ne_rejected (Store.Key.isDigest_derive _ _) _ _ _ _ _)
  · rintro ⟨rfl, hmiss, happly⟩
    exact run_of_apply_eq_error hmiss happly

end Job

end Terse
