import Terse.Proofs.Clearing

/-!
# What is in a store

A store stands for a map from keys to deposits: the output, the length of the
source it was made from and when that was. `Holds` says which tree stands for
which map. It fixes what is at every place in the directory of the store, down
to the absence of anything at the temporary names, and that the rest of the tree
is as it was when the directory was empty. Looking up, storing and clearing are
then what they should be on the map: `Holds.get_eq`, `Holds.exists_put` and
`Holds.of_clearBy`. The first two cannot fail, however the path of the store is
written.
-/

namespace Terse

open Files Files.Path

namespace Store

/-! ### Contents -/

/-- What is stored for a key. -/
structure Deposit where
  output : Bytes
  sourceLength : Nat
  createdAt : String
  deriving DecidableEq, Repr

/-- The entry that is written beside the output. -/
def Deposit.entry (v : Deposit) (k : Key) : Entry where
  key := k
  sourceLength := v.sourceLength
  outputLength := v.output.length
  createdAt := v.createdAt

abbrev Contents := Key → Option Deposit

namespace Contents

def empty : Contents := fun _ => none

def insert (m : Contents) (k : Key) (v : Deposit) : Contents :=
  fun k' => if k' = k then some v else m k'

@[simp] theorem insert_self (m : Contents) (k : Key) (v : Deposit) :
    m.insert k v k = some v := by
  rw [insert, if_pos rfl]

theorem insert_of_ne (m : Contents) {k k' : Key} (v : Deposit) (h : k' ≠ k) :
    m.insert k v k' = m k' := by
  rw [insert, if_neg h]

/-- A directory of this name is in use. -/
def Shards (m : Contents) (d : Bytes) : Prop :=
  ∃ k v, m k = some v ∧ d = k.shard

/-- The files that are to be in the directory `d`. -/
inductive Files (m : Contents) (d : Bytes) : Bytes → Node → Prop where
  | output {k : Key} {v : Deposit} (hk : m k = some v) (hd : d = k.shard) :
      Files m d (k.fileName outputExtension) (.file v.output)
  | entry {k : Key} {v : Deposit} (hk : m k = some v) (hd : d = k.shard) :
      Files m d (k.fileName entryExtension) (.file (v.entry k).render)

end Contents

/-- At `place` is an empty directory. -/
structure Vacant (base : Tree) (place : Place) : Prop where
  directory : base.node? place = some .directory
  empty : ∀ c r, base.node? (place ++ c :: r) = none

/-- The directory at `place` holds what `m` says, and all else is as in
`base`. -/
structure Holds (base : Tree) (place : Place) (m : Contents) (t : Tree) :
    Prop where
  isDigest : ∀ {k v}, m k = some v → k.IsDigest
  cwd_eq : t.cwd = base.cwd
  outside : ∀ {q}, (∀ c r, q ≠ place ++ c :: r) → t.node? q = base.node? q
  shards_iff : ∀ {d n}, t.node? (place ++ [d]) = some n ↔
    n = .directory ∧ m.Shards d
  files_iff : ∀ {d f n}, t.node? (place ++ [d, f]) = some n ↔ m.Files d f n
  shallow : ∀ d f g r, t.node? (place ++ d :: f :: g :: r) = none

variable {base t t' : Tree} {root : Bytes} {place : Place}
  {m : Contents} {k : Key}

theorem Vacant.holds (hv : Vacant base place) :
    Holds base place .empty base where
  isDigest h := by cases h
  cwd_eq := rfl
  outside _ := rfl
  shards_iff {d n} := by
    rw [hv.empty d []]
    constructor
    · intro h
      cases h
    · rintro ⟨-, k, v, hk, -⟩
      cases hk
  files_iff {d f n} := by
    rw [hv.empty d [f]]
    constructor
    · intro h
      cases h
    · rintro (h | h) <;> cases h
  shallow d f g r := hv.empty d (f :: g :: r)

theorem path?_eq (hk : k.IsDigest) (w : Writer) :
    path? ⟨root, w⟩ k = some (Path.join (Path.join root k.shard)
      (k.fileName outputExtension)) := by
  rw [path?, hk.shard?_eq]
  rfl

theorem put_eq (hk : k.IsDigest) (root : Bytes) (w : Writer)
    (sourceLength : Nat) (output : Bytes) (t : Tree) :
    Store.put ⟨root, w⟩ k sourceLength output t =
      match Disk.makeDirectories (Path.join root k.shard) t with
      | .error c t₁ => .error (.file c) t₁
      | .ok _ t₁ =>
        match writeWhole w (Path.join (Path.join root k.shard)
          (k.fileName outputExtension)) output t₁ with
        | .error c t₂ => .error (.file c) t₂
        | .ok _ t₂ =>
          match writeWhole w (Path.join (Path.join root k.shard)
            (k.fileName entryExtension))
            (Deposit.entry ⟨output, sourceLength, w.now⟩ k).render t₂ with
          | .error c t₃ => .error (.file c) t₃
          | .ok _ t₃ =>
            .ok (Path.join (Path.join root k.shard)
              (k.fileName outputExtension)) t₃ := by
  have hshardPath : shardPath ⟨root, w⟩ k.shard = Path.join root k.shard := rfl
  have hfilePath : ∀ e, filePath ⟨root, w⟩ k.shard k e =
      Path.join (Path.join root k.shard) (k.fileName e) := fun e => rfl
  rw [Store.put, hk.shard?_eq]
  simp only [hshardPath, hfilePath, bind, EStateM.bind, EStateM.adaptExcept,
    Deposit.entry]
  cases Disk.makeDirectories (Path.join root k.shard) t with
  | error c t₁ => rfl
  | ok u t₁ =>
    dsimp only
    cases writeWhole w (Path.join (Path.join root k.shard)
      (k.fileName outputExtension)) output t₁ with
    | error c t₂ => rfl
    | ok u t₂ =>
      dsimp only
      cases writeWhole w (Path.join (Path.join root k.shard)
        (k.fileName entryExtension)) _ t₂ <;> rfl

namespace Holds

theorem keeps (h : Holds base place m t) (hv : Vacant base place) :
    base.Keeps t where
  cwd_eq := h.cwd_eq
  directory {q} hq := by
    rw [h.outside ?_, hq]
    rintro c r rfl
    rw [hv.empty] at hq
    cases hq

theorem leads (h : Holds base place m t) (hv : Vacant base place)
    (hroot : base.Leads root place) :
    t.Leads root place :=
  (h.keeps hv).leads hroot

theorem directory (h : Holds base place m t) (hv : Vacant base place) :
    t.node? place = some .directory :=
  (h.keeps hv).directory hv.directory

theorem shard_directory (h : Holds base place m t) {v : Deposit}
    (hk : m k = some v) :
    t.node? (place ++ [k.shard]) = some .directory :=
  h.shards_iff.mpr ⟨rfl, k, v, hk, rfl⟩

theorem eq_directory (h : Holds base place m t) (d : Bytes) (n : Node)
    (hn : t.node? (place ++ [d]) = some n) :
    n = .directory :=
  (h.shards_iff.mp hn).1

theorem node?_eq_none (h : Holds base place m t) {d f : Bytes}
    (hf : ∀ n, ¬ m.Files d f n) :
    t.node? (place ++ [d, f]) = none := by
  cases hn : t.node? (place ++ [d, f]) with
  | none => rfl
  | some n => exact absurd (h.files_iff.mp hn) (hf n)

/-! ### Looking up -/

theorem node?_output (h : Holds base place m t) (hk : k.IsDigest) :
    t.node? (place ++ [k.shard, k.fileName outputExtension]) =
      (m k).map fun v => .file v.output := by
  cases hm : m k with
  | some v => exact h.files_iff.mpr (.output hm rfl)
  | none =>
    refine h.node?_eq_none ?_
    intro n hn
    generalize hf : k.fileName outputExtension = f at hn
    cases hn with
    | output hk' hd =>
      rw [Key.fileName_injective hf, hk'] at hm
      cases hm
    | entry hk' hd => exact fileName_output_ne_entry hk (h.isDigest hk') hf

section

variable (h : Holds base place m t) (hv : Vacant base place)
  (hroot : base.Leads root place)

include h hv hroot

theorem find_output (hk : k.IsDigest) :
    t.find (Path.join (Path.join root k.shard) (k.fileName outputExtension)) =
      match m k with
      | some v =>
        .ok (place ++ [k.shard, k.fileName outputExtension], .file v.output)
      | none => .error .missing := by
  have hname := isName_fileName hk (.inl rfl)
  have hshard := (h.leads hv hroot).join (h.directory hv) (isName_shard hk)
  have hne := join_ne_nil (Path.join root k.shard) hname
  have hnode := h.node?_output hk
  cases hm : m k with
  | some v =>
    have hfile := hshard.join (h.shard_directory hm) hname
    rw [List.append_assoc, List.singleton_append] at hfile
    rw [hm] at hnode
    exact hfile.find_eq hne hnode
  | none =>
    cases hs : t.node? (place ++ [k.shard]) with
    | none => exact hshard.find_join_of_missing hs hname
    | some n =>
      obtain rfl := h.eq_directory k.shard n hs
      have hfile := hshard.join hs hname
      rw [List.append_assoc, List.singleton_append] at hfile
      rw [hm] at hnode
      exact hfile.find_eq_missing hne hnode

theorem get_eq (hk : k.IsDigest) (w : Writer) :
    Store.get ⟨root, w⟩ t k = .ok ((m k).map Deposit.output) := by
  have hfind := h.find_output hv hroot hk
  rw [Store.get, path?_eq hk]
  cases hm : m k with
  | some v =>
    rw [hm] at hfind
    simp only [Tree.isFile, Tree.read, hfind, bind, Except.bind, if_true]
    rfl
  | none =>
    rw [hm] at hfind
    simp [Tree.isFile, hfind]

theorem contains?_eq (hk : k.IsDigest) (w : Writer) :
    Store.contains? ⟨root, w⟩ t k = some (m k).isSome := by
  rw [Store.contains?, path?_eq hk, Option.map_some, Tree.isFile,
    h.find_output hv hroot hk]
  cases m k <;> rfl

end

/-! ### Storing -/

theorem temporary_free (h : Holds base place m t) (w : Writer) (name d : Bytes)
    (r : Place) :
    t.node? (place ++ d :: temporaryName w name :: r) = none := by
  cases r with
  | cons g r => exact h.shallow d _ g r
  | nil =>
    refine h.node?_eq_none ?_
    intro n hn
    generalize hf : temporaryName w name = f at hn
    cases hn with
    | output hk hd =>
      exact temporaryName_ne_fileName w name (h.isDigest hk) (.inl rfl) hf
    | entry hk hd =>
      exact temporaryName_ne_fileName w name (h.isDigest hk) (.inr rfl) hf

theorem file_ne_directory (h : Holds base place m t) (d f : Bytes) :
    t.node? (place ++ [d, f]) ≠ some .directory := by
  intro hn
  cases h.files_iff.mp hn

theorem files_insert_iff (h : Holds base place m t) (hk : k.IsDigest)
    (v : Deposit) {d f : Bytes} {n : Node} :
    (m.insert k v).Files d f n ↔
      if d = k.shard ∧ f = k.fileName entryExtension then
        n = .file (v.entry k).render
      else if d = k.shard ∧ f = k.fileName outputExtension then
        n = .file v.output
      else m.Files d f n := by
  constructor
  · intro hn
    cases hn with
    | @output k' v' hk' hd =>
      by_cases hkk : k' = k
      · subst hkk
        rw [Contents.insert_self] at hk'
        rw [if_neg fun c => fileName_output_ne_entry hk hk c.2,
          if_pos ⟨hd, rfl⟩, Option.some.inj hk']
      · rw [Contents.insert_of_ne m v hkk] at hk'
        rw [if_neg fun c => fileName_output_ne_entry (h.isDigest hk') hk c.2,
          if_neg fun c => hkk (Key.fileName_injective c.2)]
        exact .output hk' hd
    | @entry k' v' hk' hd =>
      by_cases hkk : k' = k
      · subst hkk
        rw [Contents.insert_self] at hk'
        rw [if_pos ⟨hd, rfl⟩, Option.some.inj hk']
      · rw [Contents.insert_of_ne m v hkk] at hk'
        rw [if_neg fun c => hkk (Key.fileName_injective c.2),
          if_neg fun c => fileName_output_ne_entry hk (h.isDigest hk') c.2.symm]
        exact .entry hk' hd
  · intro hn
    split at hn
    · next hc =>
      obtain ⟨hd, rfl⟩ := hc
      subst hn
      exact .entry (m.insert_self k v) hd
    · next hentry =>
      split at hn
      · next hc =>
        obtain ⟨hd, rfl⟩ := hc
        subst hn
        exact .output (m.insert_self k v) hd
      · next houtput =>
        cases hn with
        | @output k' v' hk' hd =>
          have hkk : k' ≠ k := fun e => houtput ⟨e ▸ hd, e ▸ rfl⟩
          exact .output ((Contents.insert_of_ne m v hkk).trans hk') hd
        | @entry k' v' hk' hd =>
          have hkk : k' ≠ k := fun e => hentry ⟨e ▸ hd, e ▸ rfl⟩
          exact .entry ((Contents.insert_of_ne m v hkk).trans hk') hd

theorem shards_insert_iff (m : Contents) (k : Key) (v : Deposit) {d : Bytes} :
    (m.insert k v).Shards d ↔ d = k.shard ∨ m.Shards d := by
  constructor
  · rintro ⟨k', v', hk', hd⟩
    by_cases hkk : k' = k
    · exact .inl (hkk ▸ hd)
    · exact .inr ⟨k', v', by rwa [Contents.insert_of_ne m v hkk] at hk', hd⟩
  · rintro (hd | ⟨k', v', hk', hd⟩)
    · exact ⟨k, v, m.insert_self k v, hd⟩
    · by_cases hkk : k' = k
      · exact ⟨k, v, m.insert_self k v, hkk ▸ hd⟩
      · exact ⟨k', v', (Contents.insert_of_ne m v hkk).trans hk', hd⟩

/-- A tree that differs by the directory of a key and its two files holds that
key in addition. -/
theorem insert_of_node? (h : Holds base place m t) (hk : k.IsDigest)
    (v : Deposit) (hcwd : t'.cwd = t.cwd)
    (hnode : ∀ q, t'.node? q = if q = place ++
      [k.shard, k.fileName entryExtension] then some (.file (v.entry k).render)
      else if q = place ++ [k.shard, k.fileName outputExtension] then
      some (.file v.output) else if q = place ++ [k.shard] then some .directory
      else t.node? q) :
    Holds base place (m.insert k v) t' where
  isDigest {k' v'} hk' := by
    by_cases hkk : k' = k
    · rw [hkk]
      exact hk
    · rw [Contents.insert_of_ne m v hkk] at hk'
      exact h.isDigest hk'
  cwd_eq := hcwd.trans h.cwd_eq
  outside {q} hq := by
    rw [hnode, if_neg (hq _ _), if_neg (hq _ _), if_neg (hq _ _), h.outside hq]
  shards_iff {d n} := by
    rw [shards_insert_iff, hnode, if_neg (by simp), if_neg (by simp)]
    by_cases hd : d = k.shard
    · rw [if_pos (by rw [hd]), Option.some.injEq, eq_comm]
      exact ⟨fun hn => ⟨hn, .inl hd⟩, fun hn => hn.1⟩
    · rw [if_neg (by simpa using hd), h.shards_iff]
      exact ⟨fun hn => ⟨hn.1, .inr hn.2⟩,
        fun hn => ⟨hn.1, hn.2.resolve_left hd⟩⟩
  files_iff {d f n} := by
    rw [h.files_insert_iff hk v, hnode]
    simp only [List.append_cancel_left_eq, List.cons.injEq, and_true]
    split
    · rw [Option.some.injEq, eq_comm]
    · split
      · rw [Option.some.injEq, eq_comm]
      · rw [if_neg (by simp)]
        exact h.files_iff
  shallow d f g r := by
    rw [hnode, if_neg (by simp), if_neg (by simp), if_neg (by simp)]
    exact h.shallow d f g r

theorem exists_put (h : Holds base place m t) (hv : Vacant base place)
    (hroot : base.Leads root place) (hk : k.IsDigest) (w : Writer)
    (sourceLength : Nat) (output : Bytes) :
    ∃ p t', Store.put ⟨root, w⟩ k sourceLength output t = .ok p t' ∧
      Holds base place (m.insert k ⟨output, sourceLength, w.now⟩) t' := by
  have hshard := isName_shard hk
  obtain ⟨t₁, hmake, hput₁⟩ :=
    (h.leads hv hroot).exists_makeDirectories_join (h.directory hv) hshard
    (h.eq_directory k.shard)
  have hkeeps₁ : t.Keeps t₁ := hput₁.keeps fun _ => rfl
  have hleads₁ : t₁.Leads (Path.join root k.shard) (place ++ [k.shard]) :=
    (hkeeps₁.leads (h.leads hv hroot)).join
      (hkeeps₁.directory (h.directory hv)) hshard
  have hold₁ : ∀ f r, t₁.node? (place ++ [k.shard] ++ f :: r) =
      t.node? (place ++ k.shard :: f :: r) := by
    intro f r
    rw [hput₁.node?_of_ne (by simp), List.append_assoc, List.singleton_append]
  obtain ⟨t₂, hwrite₂, hput₂⟩ :=
    exists_writeWhole_join w hleads₁ hput₁.node?_self
    (isName_fileName hk (.inl rfl)) (isName_temporaryName w hk (.inl rfl))
    (by rw [hold₁]; exact h.file_ne_directory _ _)
    (fun r => by rw [hold₁]; exact h.temporary_free w _ _ r) output
  have hkeeps₂ : t₁.Keeps t₂ := hput₂.keeps fun hd => by
    rw [hold₁] at hd
    exact absurd hd (h.file_ne_directory _ _)
  have hold₂ : ∀ f r, f ≠ k.fileName outputExtension →
      t₂.node? (place ++ [k.shard] ++ f :: r) =
        t.node? (place ++ k.shard :: f :: r) := by
    intro f r hf
    rw [hput₂.node?_of_ne (by simp [hf]), hold₁]
  obtain ⟨t₃, hwrite₃, hput₃⟩ :=
    exists_writeWhole_join w (hkeeps₂.leads hleads₁)
    (hkeeps₂.directory hput₁.node?_self)
    (isName_fileName hk (.inr rfl)) (isName_temporaryName w hk (.inr rfl))
    (by
      rw [hold₂ _ _ (fileName_output_ne_entry hk hk).symm]
      exact h.file_ne_directory _ _)
    (fun r => by
      rw [hold₂ _ _ (temporaryName_ne_fileName w _ hk (.inl rfl))]
      exact h.temporary_free w _ _ r)
    (Deposit.entry ⟨output, sourceLength, w.now⟩ k).render
  refine ⟨filePath ⟨root, w⟩ k.shard k outputExtension, t₃, ?_, ?_⟩
  · simp only [put_eq hk, hmake, hwrite₂, hwrite₃]
    rfl
  · refine h.insert_of_node? hk _ ?_ ?_
    · rw [hput₃.cwd_eq, hput₂.cwd_eq, hput₁.cwd_eq]
    · intro q
      rw [hput₃.node?_eq, hput₂.node?_eq, hput₁.node?_eq, List.append_assoc,
        List.append_assoc,
        List.singleton_append, List.singleton_append]

/-! ### Clearing -/

theorem eraseNames (h : Holds base place m t) {ds : List Bytes}
    (hds : ∀ {k v}, m k = some v → k.shard ∈ ds) :
    Holds base place .empty (t.eraseNames place ds) where
  isDigest hk := by cases hk
  cwd_eq := by rw [Tree.cwd_eraseNames, h.cwd_eq]
  outside {q}
    hq := by
    rw [Tree.node?_eraseNames_of_forall_ne fun d r _ => hq d r, h.outside hq]
  shards_iff {d n} := by
    rw [Tree.node?_eraseNames]
    constructor
    · intro hn
      split at hn
      · cases hn
      · next hany =>
        obtain ⟨-, k, v, hk, hd⟩ := h.shards_iff.mp hn
        refine absurd (List.any_eq_true.mpr ⟨d, hd ▸ hds hk, ?_⟩) hany
        exact List.isPrefixOf_iff_prefix.mpr (List.prefix_refl _)
    · rintro ⟨-, k, v, hk, -⟩
      cases hk
  files_iff {d f n} := by
    rw [Tree.node?_eraseNames]
    constructor
    · intro hn
      split at hn
      · cases hn
      · next hany =>
        refine absurd (List.any_eq_true.mpr ⟨d, ?_, ?_⟩) hany
        · cases h.files_iff.mp hn with
          | output hk hd => exact hd ▸ hds hk
          | entry hk hd => exact hd ▸ hds hk
        · exact List.isPrefixOf_iff_prefix.mpr ⟨[f], by simp⟩
    · rintro (hk | hk) <;> cases hk
  shallow d f g r := by
    rw [Tree.node?_eraseNames, h.shallow, ite_self]

theorem isShardAt_iff (h : Holds base place m t) {d : Bytes} :
    isShardAt t place d = true ↔ m.Shards d := by
  rw [Store.isShardAt_iff, h.shards_iff]
  constructor
  · rintro ⟨-, -, hd⟩
    exact hd
  · rintro ⟨k, v, hk, rfl⟩
    exact ⟨(h.isDigest hk).isShardName_shard, rfl, k, v, hk, rfl⟩

/-- Clearing leaves an empty map, in whichever order the directories are listed.
The path of the store leads to its directory also when that is empty, so it is
not lost. -/
theorem clearBy_eq (h : Holds base place m t) (hv : Vacant base place)
    (hroot : base.Leads root place) (hne : root ≠ []) (w : Writer)
    (l : Listing) :
    Store.clearBy ⟨root, w⟩ l t =
        .ok ((shardsIn l t place).flatMap fun d =>
            outputsIn l t (place ++ [d])).length
          (t.eraseNames place (shardsIn l t place)) ∧
      Holds base place .empty (t.eraseNames place (shardsIn l t place)) := by
  have hempty :
      Holds base place .empty (t.eraseNames place (shardsIn l t place)) :=
    h.eraseNames fun {k v} hk =>
      mem_shardsIn_iff.mpr (h.isShardAt_iff.mpr ⟨k, v, hk, rfl⟩)
  exact ⟨clearBy_eq_of_leads hne (h.directory hv)
    (hempty.leads hv hroot) w, hempty⟩

theorem of_clearBy (h : Holds base place m t) (hv : Vacant base place)
    (hroot : base.Leads root place) {w : Writer} {l : Listing} {n : Nat}
    (hclear : Store.clearBy ⟨root, w⟩ l t = .ok n t') :
    Holds base place .empty t' := by
  obtain ⟨heq, hempty⟩ :=
    h.clearBy_eq hv hroot (exists_leads_of_clearBy hclear).1 w l
  rw [heq] at hclear
  cases hclear
  exact hempty

end Holds

end Store

end Terse
