import Terse.Proofs.StoreListing

/-!
# A store is a finite map

Whatever has been done with a store whose directory was empty at first, it
stands for the map of what was put into it since it was last cleared, the last
one for each key (`deposits`). All that can be asked of it is answered from that
map, in whichever order directories are listed, and the directory holds two
files for each key and nothing else (`Represents`). That this is so after every
history is `History.represents_deposits`: each request keeps a tree that holds
the map (`History.holds`), and such a tree answers from it (`Holds.represents`).

No request fails in such a history. The one exception is a store whose path is
empty: it can be used, but it cannot be listed or cleared.
-/

namespace Terse.Store

open Files Files.Path

/-- The key belongs to a source. -/
def Key.IsDerived (k : Key) : Prop := ∃ o source, k = .derive o source

theorem Key.IsDerived.isDigest {k : Key} (h : k.IsDerived) : k.IsDigest := by
  obtain ⟨o, source, rfl⟩ := h
  exact isDigest_derive o source

/-! ### Histories -/

inductive Event where
  /-- The deposit was put under the key. -/
  | put (k : Key) (v : Deposit)
  /-- The key was looked up. -/
  | got (k : Key)
  /-- It was asked whether there is something for the key. -/
  | asked (k : Key)
  /-- The entries were listed. -/
  | listed
  /-- The store was cleared. -/
  | cleared

/-- All trees that can be reached from `base` with the store at `root`, each
with the events that led to it, newest first. Each request comes from a writer
of its own and may meet the names in another order. -/
inductive History (base : Tree) (root : Bytes) : List Event → Tree → Prop where
  | start : History base root [] base
  | put {past : List Event} {t t' : Tree} {w : Writer} {k : Key}
    {sourceLength : Nat} {output p : Bytes}
      (h : History base root past t) (hk : k.IsDerived)
        (hsource : sourceLength < Entry.lengthBound)
      (houtput : output.length < Entry.lengthBound)
      (hput : Store.put ⟨root, w⟩ k sourceLength output t = .ok p t') :
      History base root (.put k ⟨output, sourceLength, w.now⟩ :: past) t'
  | got {past : List Event} {t : Tree} {w : Writer} {k : Key}
    {found : Option Bytes}
      (h : History base root past t) (hk : k.IsDerived)
        (hget : Store.get ⟨root, w⟩ t k = .ok found) :
      History base root (.got k :: past) t
  | asked {past : List Event} {t : Tree} {w : Writer} {k : Key} {present : Bool}
      (h : History base root past t) (hk : k.IsDerived)
      (hcontains : Store.contains? ⟨root, w⟩ t k = some present) :
        History base root (.asked k :: past) t
  | listed {past : List Event} {t : Tree} {w : Writer} {l : Listing}
    {es : List Entry}
      (h : History base root past t)
        (hentries : Store.entriesBy ⟨root, w⟩ l t = .ok es) :
      History base root (.listed :: past) t
  | cleared {past : List Event} {t t' : Tree} {w : Writer}
    {l : Listing} {n : Nat}
      (h : History base root past t)
        (hclear : Store.clearBy ⟨root, w⟩ l t = .ok n t') :
      History base root (.cleared :: past) t'

/-- What was put last under each key since the store was last cleared. -/
def deposits : List Event → Contents
  | [] => .empty
  | .put k v :: past => (deposits past).insert k v
  | .got _ :: past => deposits past
  | .asked _ :: past => deposits past
  | .listed :: past => deposits past
  | .cleared :: _ => .empty

/-- The deposit is that of the last put of the key: after it there was neither
another one nor a clearing. -/
def LastPut (k : Key) (v : Deposit) (past : List Event) : Prop :=
  ∃ later earlier, past = later ++ .put k v :: earlier ∧
    ∀ e ∈ later, e ≠ .cleared ∧ ∀ v', e ≠ .put k v'

theorem lastPut_cons_iff {k : Key} {v : Deposit} {e : Event}
    {past : List Event} :
    LastPut k v (e :: past) ↔
      e = .put k v ∨ (e ≠ .cleared ∧ ∀ v', e ≠ .put k v') ∧
        LastPut k v past := by
  constructor
  · rintro ⟨later, earlier, hpast, hlater⟩
    cases later with
    | nil => exact .inl (List.cons.inj hpast).1
    | cons e' later =>
      obtain ⟨rfl, rfl⟩ := List.cons.inj hpast
      obtain ⟨he, hlater⟩ := List.forall_mem_cons.mp hlater
      exact .inr ⟨he, later, earlier, rfl, hlater⟩
  · rintro (rfl | ⟨he, later, earlier, rfl, hlater⟩)
    · exact ⟨[], past, rfl, by simp⟩
    · exact ⟨e :: later, earlier, rfl, List.forall_mem_cons.mpr ⟨he, hlater⟩⟩

theorem deposits_eq_some_iff {past : List Event} {k : Key} {v : Deposit} :
    deposits past k = some v ↔ LastPut k v past := by
  induction past with
  | nil =>
    constructor
    · intro h
      cases h
    · rintro ⟨later, earlier, hpast, -⟩
      exact absurd hpast (by simp)
  | cons e past ih =>
    rw [lastPut_cons_iff, ← ih]
    cases e with
    | put k' v' =>
      by_cases hkk : k = k'
      · simp [deposits, hkk]
      · simp [deposits, Contents.insert_of_ne _ _ hkk, Ne.symm hkk]
    | got k' => simp [deposits]
    | asked k' => simp [deposits]
    | listed => simp [deposits]
    | cleared => simp [deposits, Contents.empty]

/-! ### What a store answers -/

/-- The store at `root`, with its directory at `place`, is as `m` says: it
answers so, whoever asks, and there is nothing in the directory but the files of
`m`. -/
structure Represents (root : Bytes) (place : Place) (m : Contents) (t : Tree) :
    Prop where
  get_eq : ∀ {k : Key} (w : Writer), k.IsDerived →
    Store.get ⟨root, w⟩ t k = .ok ((m k).map Deposit.output)
  contains_eq : ∀ {k : Key} (w : Writer), k.IsDerived →
    Store.contains? ⟨root, w⟩ t k = some (m k).isSome
  /-- Putting never fails and is seen under no other key. -/
  exists_put : ∀ {k : Key} (w : Writer) (sourceLength : Nat)
    (output : Bytes), k.IsDerived →
    ∃ p t', Store.put ⟨root, w⟩ k sourceLength output t = .ok p t' ∧
      ∀ {k' : Key} (w' : Writer), k'.IsDerived → k' ≠ k →
        Store.get ⟨root, w'⟩ t' k' = Store.get ⟨root, w'⟩ t k' ∧
        Store.contains? ⟨root, w'⟩ t' k' = Store.contains? ⟨root, w'⟩ t k'
  /-- There is one entry for each key, in strictly increasing order. -/
  exists_entries : ∀ (w : Writer) (l : Listing), root ≠ [] →
    ∃ es, Store.entriesBy ⟨root, w⟩ l t = .ok es ∧ (∀ e, e ∈ es ↔ m.Lists e) ∧
      es.Pairwise fun a b => a.key.bytes < b.key.bytes
  /-- Clearing counts the keys and leaves an empty directory. -/
  exists_clear : ∀ (w : Writer) (l : Listing), root ≠ [] →
    ∃ (ks : List Key) (t' : Tree), Store.clearBy ⟨root, w⟩ l t =
      .ok ks.length t' ∧ ks.Nodup ∧
      (∀ k, k ∈ ks ↔ m k ≠ none) ∧ Vacant t' place ∧
      ∀ {k : Key} (w' : Writer), k.IsDerived →
        Store.get ⟨root, w'⟩ t' k = .ok none
  shards_iff : ∀ {d n}, t.node? (place ++ [d]) = some n ↔
    n = .directory ∧ m.Shards d
  files_iff : ∀ {d f n}, t.node? (place ++ [d, f]) = some n ↔ m.Files d f n
  shallow : ∀ d f g r, t.node? (place ++ d :: f :: g :: r) = none
  temporary_free : ∀ (w : Writer) (d name : Bytes),
    t.node? (place ++ [d, temporaryName w name]) = none

variable {base t t' : Tree} {root : Bytes} {place : Place} {m : Contents}

theorem Holds.vacant (h : Holds base place .empty t) (hv : Vacant base place) :
    Vacant t place where
  directory := h.directory hv
  empty c r := by
    match r with
    | [] =>
      refine Option.eq_none_iff_forall_ne_some.mpr fun n hn => ?_
      obtain ⟨-, k, v, hk, -⟩ := h.shards_iff.mp hn
      cases hk
    | [f] =>
      refine h.node?_eq_none ?_
      rintro n (hk | hk) <;> cases hk
    | f :: g :: r => exact h.shallow c f g r

theorem Holds.represents (h : Holds base place m t) (hm : m.Bounded)
    (hv : Vacant base place) (hroot : base.Leads root place) :
    Represents root place m t where
  get_eq w hk := h.get_eq hv hroot hk.isDigest w
  contains_eq w hk := h.contains?_eq hv hroot hk.isDigest w
  exists_put {k} w sourceLength output hk := by
    obtain ⟨p, t', hput, hholds⟩ :=
      h.exists_put hv hroot hk.isDigest w sourceLength output
    refine ⟨p, t', hput, ?_⟩
    intro k' w' hk' hne
    rw [hholds.get_eq hv hroot hk'.isDigest,
      hholds.contains?_eq hv hroot hk'.isDigest,
      h.get_eq hv hroot hk'.isDigest, h.contains?_eq hv hroot hk'.isDigest,
        Contents.insert_of_ne m _ hne]
    exact ⟨rfl, rfl⟩
  exists_entries w l hne := h.exists_entriesBy hv hroot hm hne w l
  exists_clear w l hne := by
    obtain ⟨ks, t', hclear, hnodup, hmem, hholds⟩ :=
      h.exists_clearBy hv hroot hne w l
    exact ⟨ks, t', hclear, hnodup, hmem, hholds.vacant hv,
      fun w' hk => hholds.get_eq hv hroot hk.isDigest w'⟩
  shards_iff := h.shards_iff
  files_iff := h.files_iff
  shallow := h.shallow
  temporary_free w d name := h.temporary_free w name d []

/-! ### Every history -/

theorem Contents.Bounded.insert (hm : m.Bounded) {k : Key} {v : Deposit}
    (hv : v.sourceLength < Entry.lengthBound ∧
      v.output.length < Entry.lengthBound) :
    (m.insert k v).Bounded := by
  intro k' v' hk'
  by_cases hkk : k' = k
  · rw [hkk, Contents.insert_self] at hk'
    exact Option.some.inj hk' ▸ hv
  · rw [Contents.insert_of_ne m v hkk] at hk'
    exact hm k' v' hk'

theorem Contents.bounded_empty : Contents.empty.Bounded := by
  intro k v hk
  cases hk

theorem Holds.of_put (h : Holds base place m t) (hv : Vacant base place)
    (hroot : base.Leads root place) {k : Key} (hk : k.IsDigest) {w : Writer}
    {sourceLength : Nat} {output p : Bytes}
    (hput : Store.put ⟨root, w⟩ k sourceLength output t = .ok p t') :
    Holds base place (m.insert k ⟨output, sourceLength, w.now⟩) t' := by
  obtain ⟨p', t'', hput', hholds⟩ :=
    h.exists_put hv hroot hk w sourceLength output
  rw [hput] at hput'
  cases hput'
  exact hholds

theorem History.holds (hv : Vacant base place) (hroot : base.Leads root place)
    {past : List Event} (h : History base root past t) :
    Holds base place (deposits past) t ∧ (deposits past).Bounded := by
  induction h with
  | start => exact ⟨hv.holds, Contents.bounded_empty⟩
  | put _ hk hsource houtput hput ih =>
    exact ⟨ih.1.of_put hv hroot hk.isDigest hput,
      ih.2.insert ⟨hsource, houtput⟩⟩
  | got _ _ _ ih => exact ih
  | asked _ _ _ ih => exact ih
  | listed _ _ ih => exact ih
  | cleared _ hclear ih =>
    exact ⟨ih.1.of_clearBy hv hroot hclear, Contents.bounded_empty⟩

/-- After every history the store is the map of what was put and not cleared,
that is, of the last put of each key. -/
theorem History.represents_deposits (hv : Vacant base place)
    (hroot : base.Leads root place) {past : List Event}
    (h : History base root past t) :
    (∀ k v, deposits past k = some v ↔ LastPut k v past) ∧
      Represents root place (deposits past) t := by
  obtain ⟨hholds, hm⟩ := h.holds hv hroot
  exact ⟨fun k v => deposits_eq_some_iff, hholds.represents hm hv hroot⟩

/-- Of two puts under one key the second counts, and one output is cleared. -/
theorem History.represents_deposits_twice :
    ∃ (base t t' : Tree) (root : Bytes) (k : Key) (first second : Deposit)
      (w : Writer),
      History base root [.put k second, .put k first] t ∧
        first.output ≠ second.output ∧
      Store.get ⟨root, w⟩ t k = .ok (some second.output) ∧
        Store.clear ⟨root, w⟩ t = .ok 1 t' := by
  let base : Tree := { nodes := [([Bytes.ofAscii "c"], .directory)] }
  let root : Bytes := Bytes.ofAscii "c"
  let w : Writer := ⟨1, "now"⟩
  have hv : Vacant base [Bytes.ofAscii "c"] := ⟨rfl, fun _ _ => rfl⟩
  have hroot : base.Leads root [Bytes.ofAscii "c"] := ⟨by decide, rfl⟩
  obtain ⟨k, hk⟩ : ∃ k : Key, k.IsDerived := ⟨_, {}, [], rfl⟩
  have hbound : 1 < Entry.lengthBound := by decide
  obtain ⟨p, t₁, hput₁, -⟩ :=
    (History.start.represents_deposits hv hroot).2.exists_put w 1 [0x61] hk
  have hfirst : History base root _ t₁ :=
    .put .start hk hbound (by decide) hput₁
  obtain ⟨p, t₂, hput₂, -⟩ :=
    (hfirst.represents_deposits hv hroot).2.exists_put w 1 [0x62] hk
  have hsecond : History base root _ t₂ :=
    .put hfirst hk hbound (by decide) hput₂
  have hstore := (hsecond.represents_deposits hv hroot).2
  obtain ⟨ks, t', hclear, hnodup, hmem, -⟩ :=
    hstore.exists_clear w .byName (by decide)
  have hks : ks.Perm [k] := by
    refine (List.perm_ext_iff_of_nodup hnodup (List.nodup_singleton k)).mpr
      fun k' => ?_
    rw [hmem, List.mem_singleton]
    by_cases hkk : k' = k
    · simp [deposits, hkk]
    · simp [deposits, Contents.insert_of_ne _ _ hkk, Contents.empty, hkk]
  refine ⟨base, t₂, t', root, k, ⟨[0x61], 1, "now"⟩, ⟨[0x62], 1, "now"⟩, w,
    hsecond, by decide, ?_, ?_⟩
  · rw [hstore.get_eq w hk, deposits, Contents.insert_self]
    rfl
  · rw [hks.length_eq] at hclear
    exact hclear

end Terse.Store
