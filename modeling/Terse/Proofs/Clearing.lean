import Mathlib.Data.List.Basic
import Terse.Proofs.Sites
import Terse.Proofs.StoredNames

/-!
# Taking shards away

Clearing goes through the names that the directory of a store lists, and finds
each shard by its path just before it is taken away. So what is taken away are
the first so many shards that are listed: all of them, or those up to the one
that the path of the store itself led through (`exists_clearBy_eq`). Where the
path leads to the directory also when there is no shard in it, nothing gets lost
on the way, and all shards are taken away (`clearBy_eq_of_leads`).
-/

namespace Terse

open Files Files.Path

namespace Files.Tree

variable {t t' : Tree} {p place q : Place} {root name : Bytes}

/-! ### Names that are listed -/

theorem nameBelow?_eq_some_iff {p q : Place} {name : Bytes} :
    nameBelow? p q = some name ↔ q = p ++ [name] := by
  rw [nameBelow?]
  constructor
  · intro h
    split at h
    · next hpre =>
      obtain ⟨r, rfl⟩ := List.isPrefixOf_iff_prefix.mp hpre
      rw [List.drop_left] at h
      split at h
      · rw [Option.some.inj h]
      · cases h
    · cases h
  · rintro rfl
    rw [if_pos (List.isPrefixOf_iff_prefix.mpr (List.prefix_append p [name])),
      List.drop_left]

theorem mem_names_iff {t : Tree} {p : Place} {name : Bytes} :
    name ∈ t.names p ↔ t.node? (p ++ [name]) ≠ none := by
  rw [names, List.mem_mergeSort, List.mem_eraseDups, List.mem_filterMap,
    node?_of_ne_nil t (by simp),
    Option.ne_none_iff_isSome, List.lookup_isSome_iff]
  simp only [nameBelow?_eq_some_iff, beq_iff_eq]
  simp only [eq_comm]

theorem mem_namesBy_iff {t : Tree} {l : Listing} {p : Place} {name : Bytes} :
    name ∈ t.namesBy l p ↔ t.node? (p ++ [name]) ≠ none := by
  rw [namesBy, (l.perm p (t.names p)).mem_iff, mem_names_iff]

theorem names_of_pairwise {t : Tree} {p : Place}
    (h : (t.nodes.filterMap fun e => nameBelow? p e.1).eraseDups.Pairwise
      fun a b => Bytes.le a b = true) :
    t.names p = (t.nodes.filterMap fun e => nameBelow? p e.1).eraseDups :=
  List.mergeSort_of_pairwise h

theorem nodup_eraseDups (names : List Bytes) : names.eraseDups.Nodup := by
  match names with
  | [] => exact List.nodup_nil
  | name :: names =>
    rw [List.eraseDups_cons, List.nodup_cons, List.mem_eraseDups]
    exact ⟨by simp, nodup_eraseDups _⟩
termination_by names.length
decreasing_by exact Nat.lt_succ_of_le (List.length_filter_le ..)

theorem nodup_namesBy (t : Tree) (l : Listing) (p : Place) :
    (t.namesBy l p).Nodup := by
  rw [namesBy, (l.perm p (t.names p)).nodup_iff, names,
    (List.mergeSort_perm _ _).nodup_iff]
  exact nodup_eraseDups _

theorem Leads.list_eq {t : Tree} {p : Bytes} {place : Place}
    (h : t.Leads p place) (hp : p ≠ []) (hd : t.node? place = some .directory)
    (l : Listing) : t.list l p = .ok (t.namesBy l place) := by
  rw [list, h.find_eq hp hd]
  rfl

/-! ### Taking away names in a directory -/

theorem isPrefixOf_append_of_ne {d d' : Bytes} (h : d' ≠ d) (p r : Place) :
    (p ++ [d]).isPrefixOf (p ++ d' :: r) = false := by
  rw [Bool.eq_false_iff, Ne, List.isPrefixOf_iff_prefix,
    List.prefix_append_right_inj, List.cons_prefix_cons]
  exact fun hd => h hd.1.symm

theorem isPrefixOf_concat_self (p : Place) (d : Bytes) :
    (p ++ [d]).isPrefixOf p = false := by
  rw [Bool.eq_false_iff, Ne, List.isPrefixOf_iff_prefix]
  intro h
  have hlen := h.length_le
  rw [List.length_append] at hlen
  exact absurd hlen (Nat.not_succ_le_self _)

theorem namesBy_erase (t : Tree) (l : Listing) {p q : Place}
    (h : ∀ name, p.isPrefixOf (q ++ [name]) = false) :
    (t.erase p).namesBy l q = t.namesBy l q := by
  have hnames : (t.erase p).names q = t.names q := by
    rw [names, names, erase, List.filterMap_filter]
    refine congrArg (fun found => found.eraseDups.mergeSort Bytes.le)
      (List.filterMap_congr fun e _ => ?_)
    cases hname : nameBelow? q e.1 with
    | none => exact ite_self none
    | some name =>
      rw [if_pos (by rw [nameBelow?_eq_some_iff.mp hname, h name]; rfl)]
  rw [namesBy, namesBy, hnames]

/-- Takes away the names `ds` in the directory at `p`, with all that is below
them. -/
def eraseNames (t : Tree) (p : Place) (ds : List Bytes) : Tree :=
  ds.foldl (fun t d => t.erase (p ++ [d])) t

theorem eraseNames_cons (t : Tree) (p : Place) (d : Bytes) (ds : List Bytes) :
    t.eraseNames p (d :: ds) = (t.erase (p ++ [d])).eraseNames p ds := rfl

theorem node?_eraseNames (t : Tree) (p : Place) (ds : List Bytes) (q : Place) :
    (t.eraseNames p ds).node? q =
      if ds.any (fun d => (p ++ [d]).isPrefixOf q) then
      none else t.node? q := by
  induction ds generalizing t with
  | nil => rfl
  | cons d ds ih =>
    rw [eraseNames_cons, ih, List.any_cons]
    cases hd : (p ++ [d]).isPrefixOf q with
    | false =>
      rw [node?_erase_of_not_below t hd]
      rfl
    | true =>
      have hq : q ≠ [] := by
        rintro rfl
        cases p <;> cases hd
      rw [node?_erase_of_below t hq hd, ite_self]
      rfl

theorem cwd_eraseNames (t : Tree) (p : Place) (ds : List Bytes) :
    (t.eraseNames p ds).cwd = t.cwd := by
  induction ds generalizing t with
  | nil => rfl
  | cons d ds ih => exact ih (t.erase (p ++ [d]))

theorem node?_eraseNames_of_mem {d : Bytes} {ds : List Bytes} (hd : d ∈ ds)
    (t : Tree) (p r : Place) :
    (t.eraseNames p ds).node? (p ++ d :: r) = none := by
  rw [node?_eraseNames, if_pos]
  exact List.any_eq_true.mpr ⟨d, hd,
    List.isPrefixOf_iff_prefix.mpr ⟨r, by simp⟩⟩

theorem node?_eraseNames_of_forall_ne {ds : List Bytes}
    (h : ∀ d r, d ∈ ds → q ≠ p ++ d :: r) (t : Tree) :
    (t.eraseNames p ds).node? q = t.node? q := by
  rw [node?_eraseNames, if_neg]
  rw [List.any_eq_true]
  rintro ⟨d, hd, hpre⟩
  obtain ⟨r, hr⟩ := List.isPrefixOf_iff_prefix.mp hpre
  exact h d r hd (by rw [← hr, List.append_assoc, List.singleton_append])

theorem keeps_eraseNames {ds ds' : List Bytes} (h : ds ⊆ ds') (t : Tree)
    (p : Place) :
    (t.eraseNames p ds').Keeps (t.eraseNames p ds) where
  cwd_eq := by rw [cwd_eraseNames, cwd_eraseNames]
  directory {q} hq := by
    rw [node?_eraseNames] at hq ⊢
    split at hq
    · cases hq
    · next hany =>
      rw [if_neg, hq]
      rw [List.any_eq_true] at hany ⊢
      rintro ⟨d, hd, hpre⟩
      exact hany ⟨d, h hd, hpre⟩

theorem Leads.unique {q' : Place} (h : t.Leads root q) (h' : t.Leads root q') :
    q = q' :=
  Except.ok.inj (h.follow_eq.symm.trans h'.follow_eq)

end Files.Tree

namespace Store

variable {t t' : Tree} {root : Bytes} {place : Place}

/-! ### One shard after the other -/

/-- Whether there is a shard of this name in the directory at `place`. -/
def isShardAt (t : Tree) (place : Place) (d : Bytes) : Bool :=
  isShardName d && t.node? (place ++ [d]) == some .directory

theorem isShardAt_iff {d : Bytes} :
    isShardAt t place d = true ↔ isShardName d = true ∧ t.node? (place ++ [d]) =
      some .directory := by
  rw [isShardAt, Bool.and_eq_true, beq_iff_eq]

/-- The shards in the directory at `place`, as they are listed. -/
def shardsIn (l : Listing) (t : Tree) (place : Place) : List Bytes :=
  (t.namesBy l place).filter (isShardAt t place)

theorem mem_shardsIn_iff {l : Listing} {d : Bytes} :
    d ∈ shardsIn l t place ↔ isShardAt t place d = true := by
  rw [shardsIn, List.mem_filter, Tree.mem_namesBy_iff]
  refine and_iff_right_of_imp fun h => ?_
  rw [(isShardAt_iff.mp h).2]
  exact Option.some_ne_none _

theorem clearShard_eq (hroot : t.Leads root place)
    (hd : t.node? place = some .directory) (w : Writer) (l : Listing)
    (d : Bytes) :
    clearShard ⟨root, w⟩ l t d =
      if isShardAt t place d then
        ((outputsIn l t (place ++ [d])).length, t.erase (place ++ [d]))
      else (0, t) := by
  rw [clearShard, isShardAt]
  cases hshard : isShardName d with
  | false => rfl
  | true =>
    have hname := isName_of_isShardName hshard
    have hleads : t.Leads (shardPath ⟨root, w⟩ d) (place ++ [d]) :=
      hroot.join hd hname
    have hne : shardPath ⟨root, w⟩ d ≠ [] := join_ne_nil root hname
    rw [if_pos rfl, Bool.true_and]
    cases hn : t.node? (place ++ [d]) with
    | none => rw [hleads.find_eq_missing hne hn]; rfl
    | some n =>
      rw [hleads.find_eq hne hn]
      cases n <;> rfl

theorem clearShards_eq_of_lost (hroot : ∀ q, ¬ t.Leads root q) (w : Writer)
    (l : Listing) (names : List Bytes) :
    clearShards ⟨root, w⟩ l names t = (0, t) := by
  induction names with
  | nil => rfl
  | cons d names ih =>
    have hstep : clearShard ⟨root, w⟩ l t d = (0, t) := by
      rw [clearShard]
      split
      · next hshard =>
        split
        · next q hfind =>
          obtain ⟨place, hplace, -, -⟩ :=
            Tree.exists_leads_of_leads_join (Tree.leads_of_find hfind).1
              (isName_of_isShardName hshard)
          exact absurd hplace (hroot place)
        · rfl
      · rfl
    rw [clearShards, hstep]
    simp only [ih]

/-- The other shards are there, with the same in them, when one is taken
away. -/
theorem isShardAt_erase {d d' : Bytes} (h : d' ≠ d) :
    isShardAt (t.erase (place ++ [d])) place d' = isShardAt t place d' := by
  rw [isShardAt, isShardAt,
    Tree.node?_erase_of_not_below t (Tree.isPrefixOf_append_of_ne h place [])]

theorem outputsIn_erase {d d' : Bytes} (h : d' ≠ d) (l : Listing) :
    outputsIn l (t.erase (place ++ [d])) (place ++ [d']) =
      outputsIn l t (place ++ [d']) := by
  have hnames : (t.erase (place ++ [d])).namesBy l (place ++ [d']) =
      t.namesBy l (place ++ [d']) :=
    t.namesBy_erase l fun name => by
      rw [List.append_assoc]
      exact Tree.isPrefixOf_append_of_ne h place [name]
  rw [outputsIn, outputsIn, hnames]

/-- What is taken away are the first so many of the shards, all of them unless
the path of the store is lost. -/
theorem exists_clearShards_eq (hroot : t.Leads root place)
    (hd : t.node? place = some .directory) (w : Writer) (l : Listing)
    {names : List Bytes} (hnodup : names.Nodup) :
    ∃ ds, ds <+: names.filter (isShardAt t place) ∧
      clearShards ⟨root, w⟩ l names t =
        ((ds.flatMap fun d => outputsIn l t (place ++ [d])).length,
          t.eraseNames place ds) ∧
      (ds = names.filter (isShardAt t place) ∨ ∀ q,
        ¬ (t.eraseNames place ds).Leads root q) := by
  induction names generalizing t with
  | nil => exact ⟨[], List.prefix_refl _, rfl, .inl rfl⟩
  | cons d names ih =>
    obtain ⟨hmem, hnodup⟩ := List.nodup_cons.mp hnodup
    rw [clearShards, clearShard_eq hroot hd, List.filter_cons]
    cases hshard : isShardAt t place d with
    | false =>
      obtain ⟨ds, hpre, heq, hlost⟩ := ih hroot hd hnodup
      exact ⟨ds, hpre, by simp [heq], hlost⟩
    | true =>
      simp only [if_true]
      generalize ht₁ : t.erase (place ++ [d]) = t₁
      have hkeeps : t₁.Keeps t :=
        ht₁ ▸ Tree.keeps_eraseNames (List.nil_subset [d]) t place
      by_cases hleads : t₁.Leads root place
      · -- the rest is done in the tree without the shard, which says the same
        -- of the other names
        have hd₁ : t₁.node? place = some .directory := by
          rw [← ht₁,
            Tree.node?_erase_of_not_below t
            (Tree.isPrefixOf_concat_self place d), hd]
        obtain ⟨ds, hpre, heq, hlost⟩ := ih hleads hd₁ hnodup
        have hne : ∀ d' ∈ names, d' ≠ d := fun d' hd' h => hmem (h ▸ hd')
        have hfilter : names.filter (isShardAt t₁ place) =
            names.filter (isShardAt t place) :=
          List.filter_congr fun d' hd' => ht₁ ▸ isShardAt_erase (hne d' hd')
        have houtputs : (ds.flatMap fun d' => outputsIn l t₁ (place ++ [d'])) =
            ds.flatMap fun d' => outputsIn l t (place ++ [d']) :=
          List.flatMap_congr fun d' hd' =>
            ht₁ ▸ outputsIn_erase
              (hne d' (List.mem_of_mem_filter (hpre.subset hd'))) l
        have herase : t.eraseNames place (d :: ds) =
            t₁.eraseNames place ds := by rw [Tree.eraseNames_cons, ht₁]
        refine ⟨d :: ds, List.cons_prefix_cons.mpr ⟨rfl, hfilter ▸ hpre⟩,
          ?_, ?_⟩
        · rw [heq, houtputs, herase, List.flatMap_cons, List.length_append]
        · rw [herase]
          exact hlost.imp (fun h => by rw [h, hfilter]) id
      · have hnone : ∀ q, ¬ t₁.Leads root q :=
          fun q hq => hleads ((hkeeps.leads hq).unique hroot ▸ hq)
        refine ⟨[d], List.cons_prefix_cons.mpr ⟨rfl, List.nil_prefix⟩,
          ?_, .inr ?_⟩
        · rw [clearShards_eq_of_lost hnone]
          simp [Tree.eraseNames, ht₁]
        · rw [Tree.eraseNames_cons, ht₁]
          exact hnone

/-! ### The whole store -/

theorem exists_leads_of_clearBy {w : Writer} {l : Listing} {n : Nat}
    (h : Store.clearBy ⟨root, w⟩ l t = .ok n t') :
    root ≠ [] ∧ ∃ place, t.Leads root place ∧
      t.node? place = some .directory := by
  have hne : root ≠ [] := by
    rintro rfl
    cases h
  rw [Store.clearBy, Tree.list] at h
  cases hfind : t.find root with
  | error c =>
    rw [hfind] at h
    cases h
  | ok found =>
    obtain ⟨place, n⟩ := found
    cases n with
    | directory => exact ⟨hne, place, Tree.leads_of_find hfind⟩
    | _ =>
      rw [hfind] at h
      cases h

/-- Clearing takes away the first so many of the shards, all of them unless the
path of the store is lost, and counts the outputs in those. -/
theorem exists_clearBy_eq (hne : root ≠ []) (hroot : t.Leads root place)
    (hd : t.node? place = some .directory) (w : Writer) (l : Listing) :
    ∃ ds, ds <+: shardsIn l t place ∧
      Store.clearBy ⟨root, w⟩ l t =
        .ok (ds.flatMap fun d => outputsIn l t (place ++ [d])).length
          (t.eraseNames place ds) ∧
      (ds = shardsIn l t place ∨ ∀ q,
        ¬ (t.eraseNames place ds).Leads root q) := by
  obtain ⟨ds, hpre, heq, hlost⟩ :=
    exists_clearShards_eq hroot hd w l (t.nodup_namesBy l place)
  refine ⟨ds, hpre, ?_, hlost⟩
  rw [Store.clearBy, hroot.list_eq hne hd]
  simp only [heq]

/-- A path that does not need the shards is not lost, so all of them are taken
away. -/
theorem clearBy_eq_of_leads (hne : root ≠ [])
    (hd : t.node? place = some .directory) {l : Listing}
    (hroot : (t.eraseNames place (shardsIn l t place)).Leads root place)
    (w : Writer) :
    Store.clearBy ⟨root, w⟩ l t =
      .ok ((shardsIn l t place).flatMap fun d => outputsIn l t
        (place ++ [d])).length
        (t.eraseNames place (shardsIn l t place)) := by
  have hroot' : t.Leads root place :=
    (Tree.keeps_eraseNames (List.nil_subset _) t place).leads hroot
  obtain ⟨ds, hpre, heq, hall | hlost⟩ := exists_clearBy_eq hne hroot' hd w l
  · rw [heq, hall]
  · exact absurd ((Tree.keeps_eraseNames hpre.subset t place).leads hroot)
      (hlost place)

end Store

end Terse
