import Terse.Proofs.JobRuns
import Terse.Proofs.Segmentation

/-!
# Runs with a store give what the engine gives

A history is what happens around one directory for outputs that starts out
empty: jobs are opened on it, run, and the store is cleared, in any order and by
any writers. The directory may be there from the start or be made by the first
job that needs it, and jobs may name it by different paths.

`History.state` is the invariant: every deposit is the output for some source
and options with that key that have been stored since the last clearing, and
every key that has been stored since is in the map. It holds whether digests
collide or not. Where they do not, a run cannot be told from the engine, except
that it says whether the output was stored before (`History.run_transparent`).
-/

namespace Terse

open Files

/-- A directory for outputs with nothing in it yet. It is there in the tree
`made`, and may still be missing in `before`, the tree that everything starts
from. -/
structure FreshRoot where
  before : Tree
  made : Tree
  place : Place
  vacant : Store.Vacant made place

namespace FreshRoot

/-- The path names the directory: making it, unless it is there, and nothing
else leads from `before` to `made`. -/
structure Names (r : FreshRoot) (path : Bytes) : Prop where
  makes : Disk.makeDirectories path r.before = .ok () r.made
  leads : r.made.Leads path r.place

theorem names_of_leads {r : FreshRoot} {path : Bytes}
    (hthere : r.before = r.made) (h : r.made.Leads path r.place) :
    r.Names path where
  makes := hthere ▸ h.makeDirectories_eq r.vacant.directory
  leads := h

end FreshRoot

/-! ### Histories -/

namespace Job

inductive Event where
  /-- A job was opened for the settings. -/
  | opened (s : Settings) (j : Job)
  /-- A job for the settings was run on the source. -/
  | ran (s : Settings) (source : Bytes) (succeeded : Bool)
  /-- The store was cleared. -/
  | cleared

def Event.preimage? : Event → Option Bytes
  | .ran s source _ =>
    some (Store.Key.preimage (Engine.ofSettings s).options source)
  | _ => none

/-- All trees that can be reached, each with the events that led to it, newest
first. -/
inductive History (r : FreshRoot) : List Event → Tree → Prop where
  | start : History r [] r.before
  | opened {past : List Event} {t t' : Tree} {w : Writer} {env : Environment}
    {s : Settings} {j : Job}
      (h : History r past t)
      (hroot : s.usesStore = true → ∀ path, s.cacheDirectory? env = some path →
        r.Names path)
      (hopen : Job.ofSettings w env s t = .ok j t') :
        History r (.opened s j :: past) t'
  | ran {past : List Event} {t t' : Tree} {s : Settings} {j : Job}
    {source : Bytes} {outcome : Outcome}
      (h : History r past t) (hopened : .opened s j ∈ past)
      (hrun : j.run source t = .ok outcome t') :
        History r (.ran s source true :: past) t'
  | failed {past : List Event} {t t' : Tree} {s : Settings} {j : Job}
    {source : Bytes} {f : Failure}
      (h : History r past t) (hopened : .opened s j ∈ past)
      (hrun : j.run source t = .error f t') :
        History r (.ran s source false :: past) t'
  | cleared {past : List Event} {t t' : Tree} {path : Bytes} {w : Writer}
      {l : Listing} {n : Nat} (h : History r past t) (hroot : r.Names path)
      (hclear : Store.clearBy ⟨path, w⟩ l t = .ok n t') :
      History r (.cleared :: past) t'

/-- Since the last clearing, a run that uses the store has succeeded on this
source with these options. -/
def Stored (o : Script.Options) (source : Bytes) : List Event → Prop
  | [] => False
  | .opened _ _ :: past => Stored o source past
  | .ran s source' succeeded :: past =>
    (succeeded = true ∧ s.usesStore = true ∧ s.options = o ∧ source' = source) ∨
      Stored o source past
  | .cleared :: _ => False

/-- No two of the texts have the same digest. -/
def CollisionFree (texts : List Bytes) : Prop :=
  ∀ p ∈ texts, ∀ q ∈ texts, Digest.Sha256.digest p =
    Digest.Sha256.digest q → p = q

theorem collisionFree_of_forall_eq {text : Bytes} {texts : List Bytes}
    (h : ∀ p ∈ texts, p = text) :
    CollisionFree texts := by
  intro p hp q hq _
  rw [h p hp, h q hq]

variable {r : FreshRoot} {past : List Event} {t t' : Tree} {s : Settings}
  {j : Job} {source : Bytes}
  {o : Script.Options}

theorem Stored.mem_preimages (h : Stored o source past) :
    Store.Key.preimage o source ∈ past.filterMap Event.preimage? := by
  induction past with
  | nil => cases h
  | cons e past ih =>
    cases e with
    | opened s j => exact ih h
    | cleared => cases h
    | ran s source' succeeded =>
      rcases h with ⟨-, hs, rfl, rfl⟩ | h
      · rw [List.filterMap_cons, Event.preimage?,
          Engine.ofSettings_of_usesStore hs]
        exact List.mem_cons_self
      · exact List.mem_cons_of_mem _ (ih h)

theorem History.serves (h : History r past t) (hopened : .opened s j ∈ past) :
    j.Serves s r.Names := by
  induction h with
  | start => cases hopened
  | opened h hroot hopen ih =>
    rcases List.mem_cons.mp hopened with heq | hopened
    · cases heq
      exact (Job.ofSettings_eq_ok hopen hroot).1
    · exact ih hopened
  | ran h _ _ ih => exact ih (by simpa using hopened)
  | failed h _ _ ih => exact ih (by simpa using hopened)
  | cleared h _ _ ih => exact ih (by simpa using hopened)

/-! ### The invariant -/

/-- The map holds what has been stored since the last clearing. -/
structure Records (m : Store.Contents) (past : List Event) : Prop where
  sound : ∀ {k v}, m k = some v → ∃ o source, k = .derive o source ∧
    Stored o source past ∧
    Script.minify o source = .ok v.output
  complete : ∀ {o source}, Stored o source past →
    ∃ v, m (.derive o source) = some v

/-- Either no store has been opened, or the tree holds a map of what has been
stored. -/
inductive State (r : FreshRoot) (past : List Event) : Tree → Prop where
  | untouched (hopened : ∀ s j, .opened s j ∈ past → s.usesStore = false)
      (hstored : ∀ o source, ¬ Stored o source past) : State r past r.before
  | holding {t : Tree} {m : Store.Contents} (h : Store.Holds r.made r.place m t)
    (hm : Records m past) :
      State r past t

/-- Events that neither store nor clear nor open a store change nothing. -/
theorem State.of_stored_iff {past' : List Event} (h : State r past t)
    (hopened : ∀ s j, .opened s j ∈ past' → .opened s j ∈ past ∨
      s.usesStore = false)
    (hstored : ∀ o source, Stored o source past' ↔ Stored o source past) :
    State r past' t := by
  cases h with
  | untouched hno hnone =>
    refine .untouched ?_ ?_
    · intro s j hmem
      rcases hopened s j hmem with hmem | hs
      · exact hno s j hmem
      · exact hs
    · intro o source hmem
      exact hnone o source ((hstored o source).mp hmem)
  | holding h hm =>
    refine .holding h ⟨?_, ?_⟩
    · intro k v hk
      obtain ⟨o, source, hkey, hmem, hout⟩ := hm.sound hk
      exact ⟨o, source, hkey, (hstored o source).mpr hmem, hout⟩
    · intro o source hmem
      exact hm.complete ((hstored o source).mp hmem)

theorem State.opened (h : State r past t) {w : Writer} {env : Environment}
    (hroot : s.usesStore = true → ∀ path, s.cacheDirectory? env = some path →
      r.Names path)
    (hopen : Job.ofSettings w env s t = .ok j t') :
    State r (.opened s j :: past) t' := by
  obtain ⟨-, ⟨hs, rfl⟩ | ⟨hs, path, hpath, hmake⟩⟩ :=
    Job.ofSettings_eq_ok hopen hroot
  · refine h.of_stored_iff ?_ fun o source => Iff.rfl
    intro s' j' hmem
    rcases List.mem_cons.mp hmem with heq | hmem
    · cases heq
      exact .inr hs
    · exact .inl hmem
  · cases h with
    | untouched hno hnone =>
      rw [hpath.makes] at hmake
      cases hmake
      refine .holding r.vacant.holds ⟨?_, ?_⟩
      · intro k v hk
        cases hk
      · intro o source hmem
        exact absurd hmem (hnone o source)
    | holding h hm =>
      rw [(h.leads r.vacant hpath.leads).makeDirectories_eq
        (h.directory r.vacant)] at hmake
      cases hmake
      exact .holding h ⟨hm.sound, hm.complete⟩

theorem State.cleared (h : State r past t) {path : Bytes} {w : Writer}
    {l : Listing} {n : Nat} (hroot : r.Names path)
    (hclear : Store.clearBy ⟨path, w⟩ l t = .ok n t') :
    State r (.cleared :: past) t' := by
  have hheld : ∃ m, Store.Holds r.made r.place m t := by
    cases h with
    | holding h _ => exact ⟨_, h⟩
    | untouched _ _ =>
      -- only a directory that is there can be cleared, so there was nothing to
      -- be made
      obtain ⟨-, place, hleads, hdir⟩ := Store.exists_leads_of_clearBy hclear
      have hmake := hroot.makes
      rw [hleads.makeDirectories_eq hdir] at hmake
      injection hmake with _ hthere
      rw [hthere]
      exact ⟨_, r.vacant.holds⟩
  obtain ⟨m, h⟩ := hheld
  refine .holding (h.of_clearBy r.vacant hroot.leads hclear) ⟨?_, ?_⟩
  · intro k v hk
    cases hk
  · intro o source hmem
    cases hmem

/-! ### Runs -/

/-- How a run can end after the events `past` in the tree `t`. -/
inductive Ended (r : FreshRoot) (past : List Event) (t : Tree) (s : Settings)
    (source : Bytes) :
    EStateM.Result Failure Tree Outcome → Prop where
  /-- The engine rejects the source. -/
  | rejected {f : Failure} (hf : s.transform source = .error f) :
    Ended r past t s source (.error f t)
  /-- The engine makes an output that was not stored. -/
  | made {output : Bytes} {outcome : Outcome} {t' : Tree}
    (ho : s.transform source = .ok output)
      (htells : outcome.Tells s output false)
        (hnew : s.usesStore = true → ¬ Stored s.options source past)
      (hstate : State r (.ran s source true :: past) t') :
        Ended r past t s source (.ok outcome t')
  /-- An output is found that was stored under the same key. -/
  | found {o : Script.Options} {source' output : Bytes} {outcome : Outcome}
    (hs : s.usesStore = true)
      (hkey : Store.Key.derive s.options source = .derive o source')
        (hstored : Stored o source' past)
      (ho : Script.minify o source' = .ok output)
        (htells : outcome.Tells s output true)
      (hstate : State r (.ran s source true :: past) t) :
        Ended r past t s source (.ok outcome t)

theorem State.of_ran {succeeded : Bool} (h : State r past t)
    (hs : s.usesStore = false ∨ succeeded = false) :
    State r (.ran s source succeeded :: past) t := by
  refine h.of_stored_iff ?_ ?_
  · intro s' j' hmem
    exact .inl (by simpa using hmem)
  · intro o source'
    constructor
    · rintro (⟨hok, huses, -⟩ | hmem)
      · rcases hs with hs | hs
        · rw [hs] at huses
          cases huses
        · rw [hs] at hok
          cases hok
      · exact hmem
    · exact .inr

theorem Records.ran {m : Store.Contents} (hm : Records m past)
    {v : Store.Deposit} (hv : m (.derive s.options source) = some v) :
    Records m (.ran s source true :: past) where
  sound hk := by
    obtain ⟨o, source', hkey, hmem, hout⟩ := hm.sound hk
    exact ⟨o, source', hkey, .inr hmem, hout⟩
  complete hmem := by
    rcases hmem with ⟨-, -, rfl, rfl⟩ | hmem
    · exact ⟨v, hv⟩
    · exact hm.complete hmem

theorem Records.insert {m : Store.Contents} (hm : Records m past)
    (hs : s.usesStore = true) {v : Store.Deposit}
    (hv : Script.minify s.options source = .ok v.output) :
    Records (m.insert (.derive s.options source) v)
      (.ran s source true :: past) where
  sound {k v'} hk := by
    by_cases hkey : k = .derive s.options source
    · rw [hkey, Store.Contents.insert_self] at hk
      cases hk
      exact ⟨s.options, source, hkey, .inl ⟨rfl, hs, rfl, rfl⟩, hv⟩
    · rw [Store.Contents.insert_of_ne m v hkey] at hk
      obtain ⟨o, source', hkey', hmem, hout⟩ := hm.sound hk
      exact ⟨o, source', hkey', .inr hmem, hout⟩
  complete {o source'} hmem := by
    by_cases hkey : Store.Key.derive o source' = .derive s.options source
    · exact ⟨v, by rw [hkey, Store.Contents.insert_self]⟩
    · rcases hmem with ⟨-, -, rfl, rfl⟩ | hmem
      · exact absurd rfl hkey
      · obtain ⟨v', hv'⟩ := hm.complete hmem
        exact ⟨v', by rw [Store.Contents.insert_of_ne m v hkey, hv']⟩

theorem State.run_of_no_store {roots : Bytes → Prop} (h : State r past t)
    (hj : j.Serves s roots) (hs : s.usesStore = false) :
    Ended r past t s source (j.run source t) := by
  cases hr : s.transform source with
  | error f =>
    rw [hj.run_of_error hs hr t]
    exact .rejected hr
  | ok output =>
    obtain ⟨outcome, hrun, hpayload, hlength, hhit⟩ := hj.run_of_ok hs hr t
    rw [hrun]
    have hshown := Settings.suppressesResult_eq_false hj.consistent hs
    refine .made hr ⟨?_, hlength, hhit⟩ ?_ (h.of_ran (.inl hs))
    · rw [hpayload, hshown]
      rfl
    · intro huses
      rw [hs] at huses
      cases huses

theorem State.run_of_holds {m : Store.Contents}
    (h : Store.Holds r.made r.place m t) (hm : Records m past)
    (hj : j.Serves s r.Names) (hs : s.usesStore = true) :
    Ended r past t s source (j.run source t) := by
  have hleads : ∀ root, r.Names root → r.made.Leads root r.place :=
    fun _ hroot => hroot.leads
  cases hkey : m (.derive s.options source) with
  | some v =>
    obtain ⟨st, hrun⟩ := Job.exists_run_of_stored h r.vacant hleads hj hs hkey
    obtain ⟨o, source', hderive, hstored, hout⟩ := hm.sound hkey
    rw [hrun]
    exact .found hs hderive hstored hout (hj.tells_outcome ..)
      (.holding h (hm.ran hkey))
  | none =>
    cases hr : s.transform source with
    | error f =>
      rw [Job.run_of_rejected h r.vacant hleads hj hs hkey hr]
      exact .rejected hr
    | ok output =>
      obtain ⟨st, v, t', hrun, rfl, hholds⟩ :=
        Job.exists_run_of_fresh h r.vacant hleads hj hs hkey hr
      rw [hrun]
      refine .made hr (hj.tells_outcome ..) ?_
        (.holding hholds (hm.insert hs ?_))
      · intro _ hstored
        obtain ⟨v', hv'⟩ := hm.complete hstored
        rw [hkey] at hv'
        cases hv'
      · exact (Settings.transform_eq_ok_iff hs).mp hr

theorem State.run (h : State r past t) (hopened : .opened s j ∈ past)
    (hj : j.Serves s r.Names) :
    Ended r past t s source (j.run source t) := by
  cases hs : s.usesStore with
  | false => exact h.run_of_no_store hj hs
  | true =>
    cases h with
    | untouched hno _ =>
      rw [hno s j hopened] at hs
      cases hs
    | holding h hm => exact State.run_of_holds h hm hj hs

theorem History.state (h : History r past t) : State r past t := by
  induction h with
  | start =>
    exact .untouched (fun s j hmem => by cases hmem) fun o source hmem => by
      cases hmem
  | opened _ hroot hopen ih => exact ih.opened hroot hopen
  | cleared _ hroot hclear ih => exact ih.cleared hroot hclear
  | @ran past t t' s j source outcome h hopened hrun ih =>
    have hended : Ended r past t s source (j.run source t) :=
      ih.run hopened (h.serves hopened)
    rw [hrun] at hended
    cases hended with
    | made _ _ _ hstate => exact hstate
    | found _ _ _ _ _ hstate => exact hstate
  | @failed past t t' s j source f h hopened hrun ih =>
    have hended : Ended r past t s source (j.run source t) :=
      ih.run hopened (h.serves hopened)
    rw [hrun] at hended
    cases hended with
    | rejected _ => exact ih.of_ran (.inr rfl)

/-! ### Transparency -/

/-- Where digests do not collide, what is found under the key of a source was
made from that source. -/
theorem Stored.of_collisionFree {o o' : Script.Options} {source' : Bytes}
    (hfree : CollisionFree (Store.Key.preimage o source ::
      past.filterMap Event.preimage?))
    (hkey : Store.Key.derive o source = .derive o' source')
    (hstored : Stored o' source' past) :
    o = o' ∧ source = source' := by
  refine Store.Key.preimage_inj
    (hfree _ List.mem_cons_self _ (List.mem_cons_of_mem _ ?_) ?_)
  · exact hstored.mem_preimages
  · exact Store.Key.digest_eq_of_derive_eq hkey

/-- After any history, a run of any job opened in it fails exactly where the
engine does, and then leaves the tree as it is; otherwise it tells the length of
what the engine makes and gives it unless suppressed, and it tells that it was
stored before exactly if it uses the store and an earlier run has stored it
since the last clearing. -/
theorem History.run_transparent (h : History r past t)
    (hopened : .opened s j ∈ past)
    (hfree :
      CollisionFree (Store.Key.preimage (Engine.ofSettings s).options source ::
        past.filterMap Event.preimage?)) :
    match j.run source t with
    | .error f t' =>
      (∃ fault, f = .rejected fault) ∧ s.transform source = .error f ∧ t' = t
    | .ok outcome _ => ∃ output, s.transform source = .ok output ∧
        outcome.outputLength = output.length ∧
        outcome.payload = (if s.suppressesResult then none else some output) ∧
        (outcome.hit = true ↔ s.usesStore = true ∧
          Stored s.options source past) := by
  have hended : Ended r past t s source (j.run source t) :=
    h.state.run hopened (h.serves hopened)
  generalize j.run source t = result at hended ⊢
  cases hended with
  | rejected hf => exact ⟨Engine.exists_rejected_of_apply hf, hf, rfl⟩
  | made ho htells hnew _ =>
    refine ⟨_, ho, htells.outputLength_eq, htells.payload_eq, ?_⟩
    rw [htells.hit_eq]
    constructor
    · intro hhit
      cases hhit
    · rintro ⟨hs, hstored⟩
      exact absurd hstored (hnew hs)
  | found hs hkey hstored ho htells _ =>
    rw [Engine.ofSettings_of_usesStore hs] at hfree
    obtain ⟨rfl, rfl⟩ := Stored.of_collisionFree hfree hkey hstored
    refine ⟨_, (Settings.transform_eq_ok_iff hs).mpr ho, htells.outputLength_eq,
      htells.payload_eq, ?_⟩
    rw [htells.hit_eq]
    exact ⟨fun _ => ⟨hs, hstored⟩, fun _ => rfl⟩

theorem exists_history_opened (s : Settings)
    (hs : s = { cacheDirectory := some (Bytes.ofAscii "c") }) :
    ∃ (r : FreshRoot) (j : Job), r.Names (Bytes.ofAscii "c") ∧
      History r [.opened s j] r.made := by
  let t : Tree := { nodes := [([Bytes.ofAscii "c"], .directory)] }
  let r : FreshRoot := ⟨t, t, [Bytes.ofAscii "c"], ⟨rfl, fun _ _ => rfl⟩⟩
  let w : Writer := ⟨1, "now"⟩
  have hnames : r.Names (Bytes.ofAscii "c") :=
    FreshRoot.names_of_leads rfl ⟨by decide, rfl⟩
  have hopen : Job.ofSettings w {} s r.before =
      .ok { engine := .minifier {}, store := some ⟨Bytes.ofAscii "c", w⟩ }
        r.made := by
    rw [hs]
    rfl
  refine ⟨r, _, hnames, .opened .start ?_ hopen⟩
  intro _ path hpath
  rw [hs] at hpath
  cases hpath
  exact hnames

theorem minify_trailing_space :
    Script.minify {} (Bytes.ofAscii "a ") = .ok (Bytes.ofAscii "a") := by
  have hsegments : Script.segments {} [] (Bytes.ofAscii "a ") =
      [.single 0x61, .run [.blank 0x20]] := by
    decide +kernel
  rw [Script.minify_eq_ok_iff, hsegments]
  decide

/-- Of two runs on one source the second is a hit, and gives the output of the
first. -/
theorem History.run_transparent_twice :
    ∃ (r : FreshRoot) (s : Settings) (j : Job) (t t' : Tree)
      (outcome : Outcome),
      r.Names (Bytes.ofAscii "c") ∧
      History r [.ran s (Bytes.ofAscii "a ") true, .opened s j] t ∧
      j.run (Bytes.ofAscii "a ") t = .ok outcome t' ∧ outcome.hit = true ∧
      outcome.payload = some (Bytes.ofAscii "a") := by
  obtain ⟨s, hs⟩ : ∃ s : Settings, s =
      { cacheDirectory := some (Bytes.ofAscii "c") } := ⟨_, rfl⟩
  obtain ⟨r, j, hnames, hopened⟩ := exists_history_opened s hs
  have huses : s.usesStore = true := by rw [hs]; rfl
  have hshown : s.suppressesResult = false := by rw [hs]; rfl
  have htransform : s.transform (Bytes.ofAscii "a ") =
      .ok (Bytes.ofAscii "a") := by
    rw [Settings.transform_eq_ok_iff huses, hs]
    exact minify_trailing_space
  generalize Bytes.ofAscii "a " = source at *
  -- there is only one text to be digested
  have hfree : ∀ past : List Event, (∀ q ∈ past.filterMap Event.preimage?,
      q = Store.Key.preimage (Engine.ofSettings s).options source) →
      CollisionFree (Store.Key.preimage (Engine.ofSettings s).options source ::
        past.filterMap Event.preimage?) := by
    intro past hpast
    exact collisionFree_of_forall_eq (List.forall_mem_cons.mpr ⟨rfl, hpast⟩)
  have hfirst :=
    hopened.run_transparent List.mem_cons_self
      (hfree _ (by simp [Event.preimage?]))
  cases hrun : j.run source r.made with
  | error f t =>
    rw [hrun] at hfirst
    rw [hfirst.2.1] at htransform
    cases htransform
  | ok outcome t =>
    have hran := hopened.ran List.mem_cons_self hrun
    have hsecond :=
      hran.run_transparent (List.mem_cons_of_mem _ List.mem_cons_self)
      (hfree _ (by simp [Event.preimage?]))
    cases hagain : j.run source t with
    | error f t' =>
      rw [hagain] at hsecond
      rw [hsecond.2.1] at htransform
      cases htransform
    | ok outcome' t' =>
      rw [hagain] at hsecond
      obtain ⟨output, hout, -, hpayload, hhit⟩ := hsecond
      refine ⟨r, s, j, t, t', outcome', hnames, hran, hagain, ?_, ?_⟩
      · exact hhit.mpr ⟨huses, .inl ⟨rfl, huses, rfl, rfl⟩⟩
      · rw [htransform] at hout
        cases hout
        rw [hpayload, hshown]
        rfl

end Job

end Terse
