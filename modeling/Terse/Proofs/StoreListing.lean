import Mathlib.Data.List.Nodup
import Mathlib.Data.Set.List
import Terse.Proofs.EntryText
import Terse.Proofs.StoreContents

/-!
# Going through a store

Listing the entries and clearing both go through all directories of a store, and
each asks other questions about what it meets. Where a tree holds a map, both
meet the same things, in whatever order the directories are listed: the
directories in use (`Holds.mem_namesBy_iff`), and in each of them two files for
every key. So the entries are those of the map, each once and in the order of
the keys (`Holds.exists_entriesBy`), and the outputs that are cleared are as
many as there are keys (`Holds.exists_clearBy`). Neither can fail, unless the
path of the store is empty.
-/

namespace Terse

open Files Files.Path

/-! ### Order and repetition -/

theorem Bytes.le_iff {s t : Bytes} : le s t = true ↔ s ≤ t := by
  induction s generalizing t with
  | nil => simp
  | cons a s ih =>
    cases t with
    | nil => simp
    | cons b t => simp [le_cons_cons, List.cons_le_cons_iff, ih]

namespace Files.Tree

/-- What is collected from the names in a directory comes once, if each thing is
met under one name only. -/
theorem nodup_flatMap_namesBy {α : Type} (t : Tree) (l : Listing) (p : Place)
    {g : Bytes → List α} (hg : ∀ name, (g name).Nodup)
    (hname : ∀ {name name' a}, a ∈ g name → a ∈ g name' → name = name') :
    ((t.namesBy l p).flatMap g).Nodup := by
  refine List.nodup_flatMap.mpr ⟨fun name _ => hg name,
    (t.nodup_namesBy l p).imp ?_⟩
  intro name name' hne a ha ha'
  exact hne (hname ha ha')

end Files.Tree

namespace Store

variable {base t : Tree} {root : Bytes} {place : Place} {m : Contents} {k : Key}

/-- All lengths are machine words. -/
def Contents.Bounded (m : Contents) : Prop :=
  ∀ k v, m k = some v → v.sourceLength < Entry.lengthBound ∧
    v.output.length < Entry.lengthBound

/-- The entry `e` is that of a key in the map. -/
def Contents.Lists (m : Contents) (e : Entry) : Prop :=
  ∃ v, m e.key = some v ∧ e = v.entry e.key

/-- The entries that are met in the directory `d`. -/
def found (l : Listing) (t : Tree) (root : Bytes) (place : Place) (d : Bytes) :
    List Entry :=
  (t.namesBy l (place ++ [d])).filterMap (entryAt? t (Path.join root d))

theorem mapM_entriesIn {l : Listing} {ds : List Bytes}
    (hds : ∀ d ∈ ds, entriesIn l t (Path.join root d) =
      .ok (found l t root place d)) :
    ds.mapM (fun d => entriesIn l t (Path.join root d)) =
      .ok (ds.map (found l t root place)) := by
  induction ds with
  | nil => rfl
  | cons d ds ih =>
    obtain ⟨hd, hds⟩ := List.forall_mem_cons.mp hds
    rw [List.mapM_cons, hd, ih hds]
    rfl

theorem Contents.Lists.eq_of_key_eq {a b : Entry} (ha : m.Lists a)
    (hb : m.Lists b) (hkey : a.key = b.key) :
    a = b := by
  obtain ⟨v, hv, hav⟩ := ha
  obtain ⟨v', hv', hbv⟩ := hb
  rw [hkey, hv'] at hv
  rw [hav, hbv, hkey, Option.some.inj hv]

/-- Sorting entries by their keys puts them in strictly increasing order, if no
two have the same key. -/
theorem pairwise_lt_mergeSort {es : List Entry} (hnodup : es.Nodup)
    (hkey : ∀ a b, a ∈ es → b ∈ es → a.key = b.key → a = b) :
    (es.mergeSort fun a b => a.key.le b.key).Pairwise fun a b => a.key.bytes <
      b.key.bytes := by
  have hsorted : (es.mergeSort fun a b => a.key.le b.key).Pairwise fun a b =>
      a.key.le b.key = true := by
    refine List.pairwise_mergeSort ?_ ?_ es
    · intro a b c hab hbc
      exact Bytes.le_iff.mpr (List.le_trans (Bytes.le_iff.mp hab)
        (Bytes.le_iff.mp hbc))
    · intro a b
      rw [Bool.or_eq_true, Key.le, Key.le, Bytes.le_iff, Bytes.le_iff]
      exact List.le_total _ _
  have hnodup' :=
    (List.mergeSort_perm es fun a b => a.key.le b.key).nodup_iff.mpr hnodup
  refine (hsorted.and hnodup').imp_of_mem ?_
  rintro a b ha hb ⟨hle, hne⟩
  refine Std.lt_of_le_of_ne (Bytes.le_iff.mp hle) fun hbytes => hne ?_
  exact hkey a b (List.mem_mergeSort.mp ha) (List.mem_mergeSort.mp hb)
    (Key.bytes_injective hbytes)

namespace Holds

/-! ### What is listed -/

theorem mem_namesBy_iff (h : Holds base place m t) {l : Listing} {d : Bytes} :
    d ∈ t.namesBy l place ↔ m.Shards d := by
  rw [Tree.mem_namesBy_iff, Option.ne_none_iff_exists']
  constructor
  · rintro ⟨n, hn⟩
    exact (h.shards_iff.mp hn).2
  · intro hd
    exact ⟨.directory, h.shards_iff.mpr ⟨rfl, hd⟩⟩

theorem mem_namesBy_shard_iff (h : Holds base place m t) {l : Listing}
    {d f : Bytes} :
    f ∈ t.namesBy l (place ++ [d]) ↔ ∃ n, m.Files d f n := by
  rw [Tree.mem_namesBy_iff, Option.ne_none_iff_exists', List.append_assoc,
    List.singleton_append]
  exact exists_congr fun n => h.files_iff

theorem mem_outputsIn_iff (h : Holds base place m t) {l : Listing}
    {d f : Bytes} :
    f ∈ outputsIn l t (place ++ [d]) ↔ ∃ k v, m k = some v ∧ d = k.shard ∧
      f = k.fileName outputExtension := by
  rw [outputsIn, List.mem_filter, h.mem_namesBy_shard_iff, beq_iff_eq]
  constructor
  · rintro ⟨⟨n, hn⟩, hext⟩
    cases hn with
    | @output k v hk hd => exact ⟨k, v, hk, hd, rfl⟩
    | entry hk hd =>
      rw [extension?_fileName (h.isDigest hk) (.inr rfl)] at hext
      exact absurd hext (by decide)
  · rintro ⟨k, v, hk, hd, rfl⟩
    exact ⟨⟨_, .output hk hd⟩, extension?_fileName (h.isDigest hk) (.inl rfl)⟩

theorem mem_outputs_iff (h : Holds base place m t) {l : Listing} {f : Bytes} :
    f ∈ ((t.namesBy l place).flatMap fun d => outputsIn l t (place ++ [d])) ↔
      ∃ k v, m k = some v ∧ f = k.fileName outputExtension := by
  simp only [List.mem_flatMap, h.mem_outputsIn_iff, h.mem_namesBy_iff]
  constructor
  · rintro ⟨d, -, k, v, hk, -, hf⟩
    exact ⟨k, v, hk, hf⟩
  · rintro ⟨k, v, hk, hf⟩
    exact ⟨k.shard, ⟨k, v, hk, rfl⟩, k, v, hk, rfl, hf⟩

theorem nodup_outputs (h : Holds base place m t) (l : Listing) :
    ((t.namesBy l place).flatMap fun d => outputsIn l t
      (place ++ [d])).Nodup := by
  refine t.nodup_flatMap_namesBy l place
    (fun d => (t.nodup_namesBy l _).filter _) ?_
  intro d d' f hf hf'
  obtain ⟨k, v, -, hd, hk⟩ := h.mem_outputsIn_iff.mp hf
  obtain ⟨k', v', -, hd', hk'⟩ := h.mem_outputsIn_iff.mp hf'
  rw [hd, hd', Key.fileName_injective (hk.symm.trans hk')]

theorem exists_keys (h : Holds base place m t) (l : Listing) :
    ∃ ks : List Key, ks.Nodup ∧ (∀ k, k ∈ ks ↔ m k ≠ none) ∧
      ((t.namesBy l place).flatMap fun d => outputsIn l t (place ++ [d])) =
        ks.map fun k => k.fileName outputExtension := by
  obtain ⟨ks, hks⟩ :
    ((t.namesBy l place).flatMap fun d => outputsIn l t (place ++ [d])) ∈
      Set.range (List.map fun k : Key => k.fileName outputExtension) := by
    rw [Set.range_list_map]
    intro f hf
    obtain ⟨k, v, -, hk⟩ := h.mem_outputs_iff.mp hf
    exact ⟨k, hk.symm⟩
  refine ⟨ks, (hks ▸ h.nodup_outputs l).of_map _, fun k => ?_, hks.symm⟩
  rw [← List.mem_map_of_injective fun _ _ => Key.fileName_injective, hks,
    h.mem_outputs_iff,
    Option.ne_none_iff_exists']
  constructor
  · rintro ⟨k', v, hk', hf⟩
    exact ⟨v, Key.fileName_injective hf ▸ hk'⟩
  · rintro ⟨v, hk⟩
    exact ⟨k, v, hk, rfl⟩

/-! ### Entries -/

theorem entryAt?_output (hk : k.IsDigest) (t : Tree) (directory : Bytes) :
    entryAt? t directory (k.fileName outputExtension) = none := by
  rw [entryAt?, extension?_fileName hk (.inl rfl)]
  rfl

section

variable (h : Holds base place m t) (hv : Vacant base place)
  (hroot : base.Leads root place)

include h hv hroot

theorem leads_shard {d : Bytes} (hd : m.Shards d) :
    t.Leads (Path.join root d) (place ++ [d]) ∧ Path.join root d ≠ [] ∧
      t.node? (place ++ [d]) = some .directory := by
  obtain ⟨k, v, hk, rfl⟩ := hd
  have hname := isName_shard (h.isDigest hk)
  exact ⟨(h.leads hv hroot).join (h.directory hv) hname, join_ne_nil root hname,
    h.shard_directory hk⟩

theorem entryAt?_entry (hm : m.Bounded) {v : Deposit} (hk : m k = some v) :
    entryAt? t (Path.join root k.shard) (k.fileName entryExtension) =
      some (v.entry k) := by
  have hname := isName_fileName (h.isDigest hk) (.inr rfl)
  obtain ⟨hshard, -, hdir⟩ := h.leads_shard hv hroot ⟨k, v, hk, rfl⟩
  have hfile := hshard.join hdir hname
  rw [List.append_assoc, List.singleton_append] at hfile
  have hfind := hfile.find_eq (join_ne_nil _ hname)
    (h.files_iff.mpr (.entry hk rfl))
  rw [entryAt?, extension?_fileName (h.isDigest hk) (.inr rfl),
    if_pos (beq_self_eq_true _), Tree.read, hfind]
  exact Entry.parse?_render (hm k v hk).1 (hm k v hk).2

/-- An entry that is met is that of a key, and is met under the name of that
key. -/
theorem lists_of_entryAt? (hm : m.Bounded) {l : Listing} {d f : Bytes}
    {e : Entry} (hf : f ∈ t.namesBy l (place ++ [d]))
    (he : entryAt? t (Path.join root d) f = some e) :
    m.Lists e ∧ d = e.key.shard ∧ f = e.key.fileName entryExtension := by
  obtain ⟨n, hn⟩ := h.mem_namesBy_shard_iff.mp hf
  cases hn with
  | output hk hd =>
    rw [entryAt?_output (h.isDigest hk)] at he
    cases he
  | entry hk hd =>
    rw [hd, h.entryAt?_entry hv hroot hm hk] at he
    cases he
    exact ⟨⟨_, hk, rfl⟩, hd, rfl⟩

theorem mem_found_iff (hm : m.Bounded) {l : Listing} {d : Bytes} {e : Entry} :
    e ∈ found l t root place d ↔ m.Lists e ∧ d = e.key.shard := by
  rw [found, List.mem_filterMap]
  constructor
  · rintro ⟨f, hf, he⟩
    obtain ⟨hlists, hd, -⟩ := h.lists_of_entryAt? hv hroot hm hf he
    exact ⟨hlists, hd⟩
  · rintro ⟨⟨v, hk, he⟩, hd⟩
    refine ⟨e.key.fileName entryExtension,
      h.mem_namesBy_shard_iff.mpr ⟨_, .entry hk hd⟩, ?_⟩
    rw [hd, h.entryAt?_entry hv hroot hm hk, ← he]

theorem nodup_found (hm : m.Bounded) (l : Listing) (d : Bytes) :
    (found l t root place d).Nodup := by
  rw [found, List.Nodup, List.pairwise_filterMap]
  refine (t.nodup_namesBy l (place ++ [d])).imp_of_mem ?_
  intro f f' hf hf' hne e he e' he' hee
  obtain ⟨-, -, hfile⟩ := h.lists_of_entryAt? hv hroot hm hf he
  obtain ⟨-, -, hfile'⟩ := h.lists_of_entryAt? hv hroot hm hf' he'
  exact hne (by rw [hfile, hfile', hee])

theorem entriesIn_eq (l : Listing) {d : Bytes} (hd : m.Shards d) :
    entriesIn l t (Path.join root d) = .ok (found l t root place d) := by
  obtain ⟨hshard, hne, hdir⟩ := h.leads_shard hv hroot hd
  rw [entriesIn, hshard.list_eq hne hdir]
  rfl

theorem entriesBy_eq (hne : root ≠ []) (w : Writer) (l : Listing) :
    Store.entriesBy ⟨root, w⟩ l t =
      .ok (((t.namesBy l place).flatMap (found l t root place)).mergeSort
        fun a b => a.key.le b.key) := by
  have hdirectories :
    (t.namesBy l place).filter (fun d => t.isDirectory (Path.join root d)) =
      t.namesBy l place := by
    refine List.filter_eq_self.mpr fun d hd => ?_
    obtain ⟨hshard, hjoin, hdir⟩ :=
      h.leads_shard hv hroot (h.mem_namesBy_iff.mp hd)
    exact hshard.isDirectory_eq_true hjoin hdir
  have hfound := mapM_entriesIn fun d (hd : d ∈ t.namesBy l place) =>
    h.entriesIn_eq hv hroot l (h.mem_namesBy_iff.mp hd)
  simp only [Store.entriesBy, (h.leads hv hroot).list_eq hne (h.directory hv),
    bind, Except.bind, hdirectories,
    hfound, List.flatMap_def]

theorem mem_flatMap_found_iff (hm : m.Bounded) {l : Listing} {e : Entry} :
    e ∈ (t.namesBy l place).flatMap (found l t root place) ↔ m.Lists e := by
  simp only [List.mem_flatMap, h.mem_found_iff hv hroot hm, h.mem_namesBy_iff]
  constructor
  · rintro ⟨d, -, hlists, -⟩
    exact hlists
  · rintro ⟨v, hk, he⟩
    exact ⟨e.key.shard, ⟨e.key, v, hk, rfl⟩, ⟨v, hk, he⟩, rfl⟩

theorem nodup_flatMap_found (hm : m.Bounded) (l : Listing) :
    ((t.namesBy l place).flatMap (found l t root place)).Nodup := by
  refine t.nodup_flatMap_namesBy l place (h.nodup_found hv hroot hm l) ?_
  intro d d' e he he'
  rw [((h.mem_found_iff hv hroot hm).mp he).2,
    ((h.mem_found_iff hv hroot hm).mp he').2]

theorem exists_entriesBy (hm : m.Bounded) (hne : root ≠ []) (w : Writer)
    (l : Listing) :
    ∃ es, Store.entriesBy ⟨root, w⟩ l t = .ok es ∧ (∀ e, e ∈ es ↔ m.Lists e) ∧
      es.Pairwise fun a b => a.key.bytes < b.key.bytes := by
  have hmem :
    ∀ e, e ∈ ((t.namesBy l place).flatMap (found l t root place)).mergeSort
      (fun a b => a.key.le b.key) ↔ m.Lists e := by
    intro e
    rw [List.mem_mergeSort, h.mem_flatMap_found_iff hv hroot hm]
  refine ⟨_, h.entriesBy_eq hv hroot hne w l, hmem,
    pairwise_lt_mergeSort (h.nodup_flatMap_found hv hroot hm l) ?_⟩
  intro a b ha hb hkey
  exact Contents.Lists.eq_of_key_eq
    ((h.mem_flatMap_found_iff hv hroot hm).mp ha)
    ((h.mem_flatMap_found_iff hv hroot hm).mp hb) hkey

/-! ### Clearing -/

theorem exists_clearBy (hne : root ≠ []) (w : Writer) (l : Listing) :
    ∃ (ks : List Key) (t' : Tree), Store.clearBy ⟨root, w⟩ l t =
      .ok ks.length t' ∧ ks.Nodup ∧
      (∀ k, k ∈ ks ↔ m k ≠ none) ∧ Holds base place .empty t' := by
  obtain ⟨ks, hnodup, hmem, houtputs⟩ := h.exists_keys l
  have hshards : shardsIn l t place = t.namesBy l place :=
    List.filter_eq_self.mpr fun d hd => h.isShardAt_iff.mpr
      (h.mem_namesBy_iff.mp hd)
  obtain ⟨heq, hempty⟩ := h.clearBy_eq hv hroot hne w l
  refine ⟨ks, _, ?_, hnodup, hmem, hempty⟩
  rw [heq, hshards, houtputs, List.length_map]

end

end Holds

end Store

end Terse
