import Mathlib.Data.Multiset.Defs
import Terse.Proofs.ProperTree
import Terse.Proofs.StoreListing

/-!
# What a store shows of a tree

A store whose directory is in a proper tree may stand among anything: files of
others, directories where files are expected, names that belong to no key. All
that can be seen through it are the contents of files two names below its
directory. Looking up a derived key tells the content of one of them
(`Rooted.get_eq`), and listing tells the records that are in those with the
extension of an entry, in whichever order the directories are listed
(`Rooted.map_ofList_entriesBy_eq`). So trees with the same contents there cannot
be told apart.
-/

namespace Terse

open Files Files.Path

/-- Two lists without repetition give the same things if each thing is found at
the same members. -/
theorem perm_filterMap_of_nodup {α β : Type} {xs ys : List α}
    {f g : α → Option β} (hxs : xs.Nodup) (hys : ys.Nodup)
    (h : ∀ a b, (a ∈ xs ∧ f a = some b) ↔ (a ∈ ys ∧ g a = some b)) :
    (xs.filterMap f).Perm (ys.filterMap g) := by
  have hself : ∀ (zs : List α) (f : α → Option β), zs.filterMap f =
      (zs.filter fun a => (f a).isSome).filterMap f := by
    intro zs f
    rw [List.filterMap_filter]
    refine List.filterMap_congr fun a _ => ?_
    cases f a <;> rfl
  have hmem : ∀ a, a ∈ (xs.filter fun a => (f a).isSome) ↔
      a ∈ ys.filter fun a => (g a).isSome := by
    intro a
    simp only [List.mem_filter, Option.isSome_iff_exists, ← exists_and_left, h]
  have hperm :=
    (List.perm_ext_iff_of_nodup (hxs.filter _) (hys.filter _)).mpr hmem
  have hsame : (ys.filter fun a => (g a).isSome).filterMap f =
      (ys.filter fun a => (g a).isSome).filterMap g := by
    refine List.filterMap_congr fun a ha => ?_
    obtain ⟨hy, hsome⟩ := List.mem_filter.mp ha
    obtain ⟨b, hb⟩ := Option.isSome_iff_exists.mp hsome
    rw [hb, ((h a b).mpr ⟨hy, hb⟩).2]
  rw [hself xs f, hself ys g, ← hsame]
  exact hperm.filterMap f

namespace Store

/-- Where the file of a key is, in the store at `place`. -/
def Key.fileAt (place : Place) (k : Key) (extension : Bytes) : Place :=
  place ++ [k.shard, k.fileName extension]

/-- The record in the file `f` of the directory `d`, for a pair of names `(d,
f)`. -/
def recordAt? (t : Tree) (place : Place) (e : Bytes × Bytes) : Option Entry :=
  if extension? e.2 == some entryExtension then
    (t.content? (place ++ [e.1, e.2])).bind Entry.parse? else none

/-- The pairs of names in the directories of a store, as they are listed. -/
def listed (l : Listing) (t : Tree) (place : Place) : List (Bytes × Bytes) :=
  ((t.namesBy l place).filter fun d => t.node? (place ++ [d]) ==
    some .directory).flatMap fun d =>
    (t.namesBy l (place ++ [d])).map (Prod.mk d)

/-- Names paired with the one they are found under come once, if they do under
each. -/
theorem nodup_flatMap_pairs {ds : List Bytes} (hds : ds.Nodup)
    {g : Bytes → List Bytes} (hg : ∀ d, (g d).Nodup) :
    (ds.flatMap fun d => (g d).map (Prod.mk d)).Nodup := by
  refine List.nodup_flatMap.mpr ⟨fun d _ => ?_, hds.imp ?_⟩
  · exact (hg d).map fun _ _ h => (Prod.mk.inj h).2
  · intro d d' hne e he he'
    obtain ⟨f, -, rfl⟩ := List.mem_map.mp he
    obtain ⟨f', -, heq⟩ := List.mem_map.mp he'
    exact hne (Prod.mk.inj heq).1.symm

theorem nodup_listed (l : Listing) (t : Tree) (place : Place) :
    (listed l t place).Nodup :=
  nodup_flatMap_pairs ((t.nodup_namesBy l place).filter _) fun _ =>
    t.nodup_namesBy l _

theorem mem_listed_iff {l : Listing} {t : Tree} {place : Place} (ht : t.Proper)
    {d f : Bytes} :
    (d, f) ∈ listed l t place ↔ t.node? (place ++ [d, f]) ≠ none := by
  have hsplit : place ++ [d, f] = (place ++ [d]) ++ [f] := by simp
  rw [listed, List.mem_flatMap, hsplit]
  constructor
  · rintro ⟨d', -, hd'⟩
    obtain ⟨f', hf', heq⟩ := List.mem_map.mp hd'
    obtain ⟨rfl, rfl⟩ := Prod.mk.inj heq
    exact Tree.mem_namesBy_iff.mp hf'
  · intro hne
    obtain ⟨n, hn⟩ := Option.ne_none_iff_exists'.mp hne
    have hdir := ht.directory_above hn
    refine ⟨d,
      List.mem_filter.mpr ⟨Tree.mem_namesBy_iff.mpr (by rw [hdir]; simp), ?_⟩,
      List.mem_map_of_mem (Tree.mem_namesBy_iff.mpr hne)⟩
    rw [hdir]
    rfl

end Store

namespace Files.Tree.Rooted

open Store

variable {t t' : Tree} {root d f : Bytes} {place : Place} {k : Key}

/-! ### Looking up -/

theorem find_join_join (h : t.Rooted root place) (hd : IsName d)
    (hf : IsName f) :
    (∃ n, t.node? (place ++ [d, f]) = some n ∧
        t.find (Path.join (Path.join root d) f) = .ok (place ++ [d, f], n)) ∨
      t.node? (place ++ [d, f]) = none ∧
        ∃ c, t.find (Path.join (Path.join root d) f) = .error c := by
  have hsplit : place ++ [d, f] = (place ++ [d]) ++ [f] := by simp
  have hshard := h.leads.join h.directory hd
  rw [hsplit]
  by_cases hdir : t.node? (place ++ [d]) = some .directory
  · have hfile := hshard.join hdir hf
    have hne := join_ne_nil (Path.join root d) hf
    cases hn : t.node? ((place ++ [d]) ++ [f]) with
    | some n => exact .inl ⟨n, rfl, hfile.find_eq hne hn⟩
    | none => exact .inr ⟨rfl, _, hfile.find_eq_missing hne hn⟩
  · exact .inr ⟨h.proper.node?_below hdir (by simp),
      hshard.exists_find_join_eq_error hdir hf⟩

theorem isFile_join_join (h : t.Rooted root place) (hd : IsName d)
    (hf : IsName f) :
    t.isFile (Path.join (Path.join root d) f) =
      (t.content? (place ++ [d, f])).isSome := by
  rw [isFile, content?]
  rcases h.find_join_join hd hf with ⟨n, hn, hfind⟩ | ⟨hn, c, hfind⟩
  · rw [hn, hfind]
    cases n <;> rfl
  · rw [hn, hfind]
    rfl

theorem toOption_read_join_join (h : t.Rooted root place) (hd : IsName d)
    (hf : IsName f) :
    (t.read (Path.join (Path.join root d) f)).toOption =
      t.content? (place ++ [d, f]) := by
  rw [read, content?]
  rcases h.find_join_join hd hf with ⟨n, hn, hfind⟩ | ⟨hn, c, hfind⟩
  · rw [hn, hfind]
    cases n with
    | file content => rfl
    | directory => rfl
    | device => exact absurd hn (h.proper.ne_device _)
  · rw [hn, hfind]
    rfl

/-- Looking up tells the content of the output. It does not fail, whatever
stands in its place. -/
theorem get_eq (h : t.Rooted root place) (hk : k.IsDigest) (w : Writer) :
    Store.get ⟨root, w⟩ t k =
      .ok (t.content? (k.fileAt place outputExtension)) := by
  have hshard := isName_shard hk
  have hname := isName_fileName hk (.inl rfl)
  have hread := h.toOption_read_join_join hshard hname
  rw [Store.get, path?_eq hk, Key.fileAt]
  simp only [h.isFile_join_join hshard hname]
  rw [← hread]
  cases t.read (Path.join (Path.join root k.shard)
    (k.fileName outputExtension)) <;> rfl

theorem contains?_eq (h : t.Rooted root place) (hk : k.IsDigest) (w : Writer) :
    Store.contains? ⟨root, w⟩ t k =
      some (t.content? (k.fileAt place outputExtension)).isSome := by
  rw [Store.contains?, path?_eq hk, Option.map_some,
    h.isFile_join_join (isName_shard hk) (isName_fileName hk (.inl rfl)),
    Key.fileAt]

/-! ### Listing -/

theorem isDirectory_join (h : t.Rooted root place) (hd : IsName d) :
    t.isDirectory (Path.join root d) =
      (t.node? (place ++ [d]) == some .directory) := by
  have hleads := h.leads.join h.directory hd
  have hne := join_ne_nil root hd
  rw [isDirectory]
  cases hn : t.node? (place ++ [d]) with
  | none =>
    rw [hleads.find_eq_missing hne hn]
    rfl
  | some n =>
    rw [hleads.find_eq hne hn]
    cases n <;> rfl

theorem entryAt?_eq (h : t.Rooted root place) (hd : IsName d) (hf : IsName f) :
    entryAt? t (Path.join root d) f = recordAt? t place (d, f) := by
  rw [entryAt?, recordAt?, ← h.toOption_read_join_join hd hf]
  cases t.read (Path.join (Path.join root d) f) <;> rfl

theorem found_eq (h : t.Rooted root place) (hd : IsName d) (l : Listing) :
    found l t root place d =
      ((t.namesBy l (place ++ [d])).map (Prod.mk d)).filterMap
      (recordAt? t place) := by
  rw [found, List.filterMap_map]
  refine List.filterMap_congr fun f hf => ?_
  obtain ⟨n, hn⟩ := Option.ne_none_iff_exists'.mp (mem_namesBy_iff.mp hf)
  exact h.entryAt?_eq hd (h.proper.isName hn)

theorem entriesIn_eq (h : t.Rooted root place) (hd : IsName d)
    (hdir : t.node? (place ++ [d]) = some .directory) (l : Listing) :
    entriesIn l t (Path.join root d) = .ok (found l t root place d) := by
  rw [entriesIn,
    (h.leads.join h.directory hd).list_eq (join_ne_nil root hd) hdir]
  rfl

theorem entriesBy_eq (h : t.Rooted root place) (hne : root ≠ []) (w : Writer)
    (l : Listing) :
    Store.entriesBy ⟨root, w⟩ l t =
      .ok (((listed l t place).filterMap (recordAt? t place)).mergeSort
        fun a b => a.key.le b.key) := by
  have hname : ∀ d ∈ t.namesBy l place, IsName d := by
    intro d hd
    obtain ⟨n, hn⟩ := Option.ne_none_iff_exists'.mp (mem_namesBy_iff.mp hd)
    exact h.proper.isName hn
  have hdirectories :
    (t.namesBy l place).filter (fun d => t.isDirectory (Path.join root d)) =
      (t.namesBy l place).filter fun d => t.node? (place ++ [d]) ==
        some .directory :=
    List.filter_congr fun d hd => h.isDirectory_join (hname d hd)
  have hin : ∀ d ∈ (t.namesBy l place).filter fun d => t.node? (place ++ [d]) ==
    some .directory,
      entriesIn l t (Path.join root d) = .ok (found l t root place d) := by
    intro d hd
    obtain ⟨hmem, hdir⟩ := List.mem_filter.mp hd
    exact h.entriesIn_eq (hname d hmem) (beq_iff_eq.mp hdir) l
  have hflatten :
    (((t.namesBy l place).filter fun d => t.node? (place ++ [d]) ==
      some .directory).map
      (found l t root place)).flatten =
        (listed l t place).filterMap (recordAt? t place) := by
    rw [listed, List.filterMap_flatMap, ← List.flatMap_def]
    exact List.flatMap_congr fun d hd => h.found_eq
      (hname d (List.mem_of_mem_filter hd)) l
  simp only [Store.entriesBy, h.leads.list_eq hne h.directory, bind,
    Except.bind, hdirectories, mapM_entriesIn hin,
    hflatten]

theorem map_ofList_entriesBy_eq (h : t.Rooted root place)
    (h' : t'.Rooted root place)
    (hcontent : ∀ d f, extension? f = some entryExtension →
      t'.content? (place ++ [d, f]) = t.content? (place ++ [d, f]))
    (w : Writer) (l l' : Listing) :
    (Store.entriesBy ⟨root, w⟩ l' t').map Multiset.ofList =
      (Store.entriesBy ⟨root, w⟩ l t).map Multiset.ofList := by
  by_cases hne : root = []
  · subst hne
    rfl
  · have hrecord : recordAt? t' place = recordAt? t place := by
      funext e
      rw [recordAt?, recordAt?]
      split
      · next hext => rw [hcontent _ _ (beq_iff_eq.mp hext)]
      · rfl
    -- a record is in a file, and every file is met
    have hmem : ∀ {t : Tree}, t.Proper → ∀ (l : Listing) e r,
        recordAt? t place e = some r → e ∈ listed l t place := by
      intro t ht l e r hr
      refine (mem_listed_iff ht).mpr fun hnone => ?_
      rw [recordAt?, content?, hnone] at hr
      split at hr <;> cases hr
    have hperm : ((listed l' t' place).filterMap (recordAt? t' place)).Perm
        ((listed l t place).filterMap (recordAt? t place)) := by
      refine perm_filterMap_of_nodup (nodup_listed l' t' place)
        (nodup_listed l t place) fun e r => ?_
      constructor
      · rintro ⟨-, hr⟩
        rw [hrecord] at hr
        exact ⟨hmem h.proper l e r hr, hr⟩
      · rintro ⟨-, hr⟩
        rw [← hrecord] at hr
        exact ⟨hmem h'.proper l' e r hr, hr⟩
    rw [h'.entriesBy_eq hne, h.entriesBy_eq hne]
    refine congrArg Except.ok (Multiset.coe_eq_coe.mpr ?_)
    exact (List.mergeSort_perm _ _).trans
      (hperm.trans (List.mergeSort_perm _ _).symm)

end Files.Tree.Rooted

end Terse
