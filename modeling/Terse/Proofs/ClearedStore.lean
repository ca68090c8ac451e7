import Terse.Proofs.StoreViews

/-!
# A store after it was cleared

What clearing does to a proper tree, in which anything may stand in the
directory of the store and around it. Some of the shards are gone, with all that
was in them, and their outputs were counted; all else is as it was (`Cleared`).
No derived key is found afterwards. All shards are gone if the path of the store
does not go through one of them (`OffShards`), as a path without steps upwards
never does (`offShards_of_above_notMem`). The records in all other directories
are then listed as before, and there is nothing to clear any more.

A path that goes through a shard of its own store, and up again, leads nowhere
once that shard is gone. The shards that come later are then left, although
clearing succeeds, and clearing a second time fails.
-/

namespace Terse

open Files Files.Path

/-! ### The way of a path -/

namespace Files.Tree

variable {t t' : Tree} {p : Bytes} {place q : Place} {cs : List Bytes}

/-- Where a piece of a path leads from a directory. -/
def turn (place : Place) (c : Bytes) : Place :=
  if c.isEmpty || c == here then place
  else if c == above then place.dropLast
  else place ++ [c]

theorem follow_cons (t : Tree) (place : Place) (c : Bytes) (cs : List Bytes) :
    t.follow place (c :: cs) =
      match t.node? place with
      | none => .error .missing
      | some .directory => t.follow (turn place c) cs
      | some _ => .error .notDirectory := by
  rw [follow, turn]
  rcases t.node? place with _ | n
  · rfl
  · cases n with
    | directory =>
      dsimp only
      split
      · rfl
      · split <;> rfl
    | _ => rfl

/-- The places a path goes through, from the one it starts at to the one it
leads to. -/
def course (t : Tree) (p : Bytes) : List Place :=
  (split p).scanl turn (t.start p)

theorem follow_congr (h : ∀ v ∈ cs.scanl turn place, t'.node? v = t.node? v) :
    t'.follow place cs = t.follow place cs := by
  induction cs generalizing place with
  | nil => rfl
  | cons c cs ih =>
    rw [List.scanl_cons, List.forall_mem_cons] at h
    rw [follow_cons, follow_cons, h.1, ih h.2]

theorem Leads.of_course (h : t.Leads p place) (hcwd : t'.cwd = t.cwd)
    (hcourse : ∀ v ∈ t.course p, t'.node? v = t.node? v) :
    t'.Leads p place where
  zero_notMem := h.zero_notMem
  follow_eq := by
    have hstart : t'.start p = t.start p := by rw [start, start, hcwd]
    rw [hstart, follow_congr hcourse, h.follow_eq]

theorem prefix_of_follow (habove : above ∉ cs)
    (h : t.follow place cs = .ok q) :
    place <+: q ∧ ∀ v ∈ cs.scanl turn place, v <+: q := by
  induction cs generalizing place with
  | nil =>
    obtain rfl := Except.ok.inj h
    exact ⟨List.prefix_refl _, by simp⟩
  | cons c cs ih =>
    obtain ⟨hc, hcs⟩ := not_or.mp (mt List.mem_cons.mpr habove)
    have hdown : place <+: turn place c := by
      have hnot : ¬ (c == above) = true := by simpa using Ne.symm hc
      rw [turn, if_neg hnot]
      split
      · exact List.prefix_refl _
      · exact List.prefix_append _ _
    have hd := node?_of_follow_cons h
    rw [follow_cons, hd] at h
    obtain ⟨hend, hway⟩ := ih hcs h
    rw [List.scanl_cons, List.forall_mem_cons]
    exact ⟨hdown.trans hend, hdown.trans hend, hway⟩

end Files.Tree

namespace Store

variable {t t' : Tree} {root : Bytes} {place : Place} {ds : List Bytes}

/-- The path of the store does not go through one of its shards. -/
def OffShards (t : Tree) (root : Bytes) (place : Place) : Prop :=
  ∀ v ∈ t.course root, ∀ d r, isShardAt t place d = true → v ≠ place ++ d :: r

theorem offShards_of_above_notMem (hroot : t.Leads root place)
    (habove : above ∉ split root) : OffShards t root place := by
  rintro v hv d r - rfl
  have hprefix := (Tree.prefix_of_follow habove hroot.follow_eq).2 _ hv
  have hlen := hprefix.length_le
  rw [List.length_append, List.length_cons] at hlen
  omega

/-! ### What is left -/

/-- The tree `t'` is `t` without the shards `ds` in the directory at `place`. -/
structure Cleared (place : Place) (ds : List Bytes) (t t' : Tree) : Prop where
  isShardAt_eq : ∀ d ∈ ds, isShardAt t place d = true
  cwd_eq : t'.cwd = t.cwd
  gone : ∀ {d : Bytes} (r : Place), d ∈ ds → t'.node? (place ++ d :: r) = none
  stays : ∀ {q : Place}, (∀ d r, d ∈ ds → q ≠ place ++ d :: r) →
    t'.node? q = t.node? q

theorem cleared_eraseNames (hds : ∀ d ∈ ds, isShardAt t place d = true) :
    Cleared place ds t (t.eraseNames place ds) where
  isShardAt_eq := hds
  cwd_eq := t.cwd_eraseNames place _
  gone r hd := Tree.node?_eraseNames_of_mem hd t place r
  stays hq := Tree.node?_eraseNames_of_forall_ne hq t

namespace Cleared

variable (h : Cleared place ds t t')

include h

theorem node?_append (d : Bytes) (r : Place) :
    t'.node? (place ++ d :: r) =
      if d ∈ ds then none else t.node? (place ++ d :: r) := by
  split
  · next hd => exact h.gone r hd
  · next hd =>
    refine h.stays ?_
    rintro d' r' hd' heq
    obtain ⟨rfl, -⟩ := List.cons.inj (List.append_cancel_left heq)
    exact hd hd'

theorem node?_of_eq_some {q : Place} {n : Node} (hn : t'.node? q = some n) :
    (∀ d r, d ∈ ds → q ≠ place ++ d :: r) ∧ t.node? q = some n := by
  have hout : ∀ d r, d ∈ ds → q ≠ place ++ d :: r := by
    rintro d r hd rfl
    rw [h.gone r hd] at hn
    cases hn
  exact ⟨hout, h.stays hout ▸ hn⟩

theorem proper (ht : t.Proper) : t'.Proper where
  directory_above {q name n} hn := by
    -- what is left was not in a shard, so the directory above it is left too
    obtain ⟨hout, hold⟩ := h.node?_of_eq_some hn
    rw [h.stays, ht.directory_above hold]
    rintro d r hd rfl
    exact hout d (r ++ [name]) hd (by simp)
  isName hn := ht.isName (h.node?_of_eq_some hn).2
  ne_device q hq := ht.ne_device q (h.node?_of_eq_some hq).2

theorem rooted (hroot : t.Rooted root place) (hoff : OffShards t root place) :
    t'.Rooted root place where
  proper := h.proper hroot.proper
  leads := hroot.leads.of_course h.cwd_eq fun v hv =>
    h.stays fun d r hd => hoff v hv d r (h.isShardAt_eq d hd)
  directory := by
    rw [h.stays, hroot.directory]
    rintro d r - heq
    simp at heq

section

variable (hall : ∀ d, isShardAt t place d = true → d ∈ ds)

include hall

theorem shardsIn_eq_nil (l : Listing) : shardsIn l t' place = [] := by
  refine List.eq_nil_iff_forall_not_mem.mpr fun d hd => ?_
  obtain ⟨hshard, hdir⟩ := isShardAt_iff.mp (mem_shardsIn_iff.mp hd)
  rw [h.node?_append] at hdir
  split at hdir
  · cases hdir
  · next hd' => exact hd' (hall d (isShardAt_iff.mpr ⟨hshard, hdir⟩))

theorem clearBy_eq (hroot : t'.Rooted root place) (hne : root ≠ [])
    (w : Writer) (l : Listing) :
    Store.clearBy ⟨root, w⟩ l t' = .ok 0 t' := by
  have hnil := h.shardsIn_eq_nil hall l
  have hleads : (t'.eraseNames place (shardsIn l t' place)).Leads root place :=
    hnil ▸ hroot.leads
  rw [clearBy_eq_of_leads hne hroot.directory hleads, hnil]
  rfl

theorem perm_records (ht : t.Proper) (l l' : Listing) :
    ((listed l' t' place).filterMap (recordAt? t' place)).Perm
      (((listed l t place).filter fun e => !isShardName e.1).filterMap
        (recordAt? t place)) := by
  refine perm_filterMap_of_nodup (nodup_listed l' t' place)
    ((nodup_listed l t place).filter _) ?_
  rintro ⟨d, f⟩ e
  have hnode := h.node?_append d [f]
  rw [mem_listed_iff (h.proper ht), List.mem_filter, mem_listed_iff ht,
    Bool.not_eq_true']
  by_cases hd : d ∈ ds
  · rw [if_pos hd] at hnode
    simp [hnode, (isShardAt_iff.mp (h.isShardAt_eq d hd)).1]
  · rw [if_neg hd] at hnode
    have hrecord : recordAt? t' place (d, f) = recordAt? t place (d, f) := by
      rw [recordAt?, recordAt?, Tree.content?_of_node? hnode]
    rw [hnode, hrecord]
    refine and_congr_left fun _ => (and_iff_left_of_imp fun hne => ?_).symm
    -- a name with something below it is that of a directory, so it would be
    -- one of the shards if it looked like one
    obtain ⟨n, hn⟩ := Option.ne_none_iff_exists'.mp hne
    have hbelow : t.node? (place ++ [d] ++ [f]) = some n := by simpa using hn
    have hdir := ht.directory_above hbelow
    cases hshard : isShardName d with
    | false => rfl
    | true => exact absurd (hall d (isShardAt_iff.mpr ⟨hshard, hdir⟩)) hd

end

end Cleared

/-! ### What clearing does -/

/-- The outputs that are counted are the files with their extension in the
shards `ds`, each once. -/
theorem exists_outputs (l : Listing) (t : Tree) (place : Place)
    (hds : ds.Nodup) :
    ∃ outputs : List (Bytes × Bytes), outputs.Nodup ∧
      (∀ d f, (d, f) ∈ outputs ↔
        d ∈ ds ∧ t.node? (place ++ [d, f]) ≠ none ∧
          extension? f = some outputExtension) ∧
      (ds.flatMap fun d => outputsIn l t (place ++ [d])).length =
        outputs.length := by
  refine ⟨ds.flatMap fun d => (outputsIn l t (place ++ [d])).map (Prod.mk d),
    ?_, ?_, ?_⟩
  · exact nodup_flatMap_pairs hds fun d => (t.nodup_namesBy l _).filter _
  · intro d f
    simp only [List.mem_flatMap, List.mem_map, Prod.mk.injEq, outputsIn,
      List.mem_filter, Tree.mem_namesBy_iff, beq_iff_eq, List.append_assoc,
      List.singleton_append]
    constructor
    · rintro ⟨d', hd', f', hf', rfl, rfl⟩
      exact ⟨hd', hf'⟩
    · rintro ⟨hd, hf⟩
      exact ⟨d, hd, f, hf, rfl, rfl⟩
  · simp only [List.length_flatMap, List.length_map]

/-- A derived key is not found unless the path of the store leads to a directory
with its shard. -/
theorem contains?_eq_false {k : Key} (hk : k.IsDigest)
    (h : ∀ q, t.Leads root q → t.node? (q ++ [k.shard]) ≠ some .directory)
    (w : Writer) : Store.contains? ⟨root, w⟩ t k = some false := by
  rw [Store.contains?, path?_eq hk, Option.map_some, Tree.isFile]
  split
  · next hfind =>
    obtain ⟨q, hq, hd, -⟩ := Tree.exists_leads_of_leads_join
      (Tree.leads_of_find hfind).1 (isName_fileName hk (.inl rfl))
    obtain ⟨place, hplace, -, rfl⟩ :=
      Tree.exists_leads_of_leads_join hq (isName_shard hk)
    exact absurd hd (h place hplace)
  · rfl

/-- Clearing a proper tree takes some of the shards away, each with all that is
in it, counts the outputs in these, and changes nothing else. Either these are
all shards, or the path of the store leads nowhere any more; in both cases no
derived key is found. If the path does not go through the shards, it is the
former: the records in other directories are then listed as before, and clearing
again changes nothing. -/
theorem clearBy_takes_shards {w : Writer} {l : Listing} {n : Nat}
    (ht : t.Proper) (hclear : Store.clearBy ⟨root, w⟩ l t = .ok n t') :
    ∃ place ds, t.Rooted root place ∧ Cleared place ds t t' ∧
      (∃ outputs : List (Bytes × Bytes), outputs.Nodup ∧
        (∀ d f, (d, f) ∈ outputs ↔
          d ∈ ds ∧ t.node? (place ++ [d, f]) ≠ none ∧
            extension? f = some outputExtension) ∧
        n = outputs.length) ∧
      ((∀ d, isShardAt t place d = true → d ∈ ds) ∨
        ∀ q, ¬ t'.Leads root q) ∧
      (∀ w' o source,
        Store.contains? ⟨root, w'⟩ t' (Key.derive o source) = some false) ∧
      (above ∉ split root → OffShards t root place) ∧
      (OffShards t root place →
        (∀ d, isShardAt t place d = true → d ∈ ds) ∧
        (∀ w' l₁ l₂, ∃ before after,
          Store.entriesBy ⟨root, w'⟩ l₁ t = .ok before ∧
          Store.entriesBy ⟨root, w'⟩ l₂ t' = .ok after ∧
          before.Perm ((listed l₁ t place).filterMap (recordAt? t place)) ∧
          after.Perm
            (((listed l₁ t place).filter fun e => !isShardName e.1).filterMap
              (recordAt? t place))) ∧
        ∀ w' l', Store.clearBy ⟨root, w'⟩ l' t' = .ok 0 t') := by
  obtain ⟨hne, place, hleads, hd⟩ := exists_leads_of_clearBy hclear
  have hrooted : t.Rooted root place := ⟨ht, hleads, hd⟩
  obtain ⟨ds, hpre, heq, hend⟩ := exists_clearBy_eq hne hleads hd w l
  obtain ⟨rfl, rfl⟩ := EStateM.Result.ok.inj (heq.symm.trans hclear)
  have hcleared : Cleared place ds t (t.eraseNames place ds) :=
    cleared_eraseNames fun d h => mem_shardsIn_iff.mp (hpre.subset h)
  have hall : (∀ d, isShardAt t place d = true → d ∈ ds) ∨
      ∀ q, ¬ (t.eraseNames place ds).Leads root q := by
    refine hend.imp_left fun hds d hshard => ?_
    rw [hds]
    exact mem_shardsIn_iff.mpr hshard
  have hnodup : ds.Nodup :=
    hpre.sublist.nodup ((t.nodup_namesBy l place).filter _)
  refine ⟨place, ds, hrooted, hcleared, exists_outputs l t place hnodup, hall,
    fun w' o source => ?_, offShards_of_above_notMem hleads, fun hoff => ?_⟩
  · have hk := Key.isDigest_derive o source
    refine contains?_eq_false hk (fun q hq => ?_) w'
    -- a path that leads somewhere leads where it did, and no shard is left
    -- there
    have hq' := (Tree.keeps_eraseNames (List.nil_subset _) t place).leads hq
    obtain rfl := hq'.unique hleads
    rw [hcleared.node?_append]
    split
    · simp
    · next hnot =>
      intro hdir
      have hshard := isShardAt_iff.mpr ⟨hk.isShardName_shard, hdir⟩
      exact hnot (hall.resolve_right (fun hlost => hlost q hq) _ hshard)
  · have hrooted' := hcleared.rooted hrooted hoff
    have hall := hall.resolve_right fun hlost => hlost place hrooted'.leads
    refine ⟨hall, fun w' l₁ l₂ => ?_, fun w' l' => ?_⟩
    · refine ⟨_, _, hrooted.entriesBy_eq hne w' l₁,
        hrooted'.entriesBy_eq hne w' l₂, List.mergeSort_perm _ _, ?_⟩
      exact (List.mergeSort_perm _ _).trans
        (hcleared.perm_records hall ht l₁ l₂)
    · exact hcleared.clearBy_eq hall hrooted' hne w' l'

/-! ### A store with two shards -/

/-- A store at `c` with two shards, `ab` and `cd`. The second holds an
output. -/
def twoShards : Tree :=
  (((({} : Tree).set [Bytes.ofAscii "c"] .directory).set
    [Bytes.ofAscii "c", Bytes.ofAscii "cd"] .directory).set
    [Bytes.ofAscii "c", Bytes.ofAscii "cd", Bytes.ofAscii "x.js"]
    (.file [])).set
    [Bytes.ofAscii "c", Bytes.ofAscii "ab"] .directory

theorem proper_twoShards : twoShards.Proper := by
  have hab : isShardName (Bytes.ofAscii "ab") = true := by decide
  have hcd : isShardName (Bytes.ofAscii "cd") = true := by decide
  have hlength : 2 < (Bytes.ofAscii "x.js").length := by decide
  have hstore : (({} : Tree).set [Bytes.ofAscii "c"] .directory).Proper :=
    (Tree.proper_empty []).set_directory (p := []) rfl
      ⟨by decide, by decide, by decide, by decide, by decide⟩
  have hsecond := hstore.set_directory (p := [Bytes.ofAscii "c"]) rfl
    (isName_of_isShardName hcd)
  have houtput := hsecond.of_putAt (Tree.putAt_set _ (by simp) (.file []))
    (p := [Bytes.ofAscii "c", Bytes.ofAscii "cd"]) (by decide)
    (isName_of_length hlength (by decide)) (by simp)
    fun h => absurd h (by decide)
  exact houtput.set_directory (p := [Bytes.ofAscii "c"]) (by decide)
    (isName_of_isShardName hab)

theorem namesBy_twoShards :
    twoShards.namesBy .byName [Bytes.ofAscii "c"] =
      [Bytes.ofAscii "ab", Bytes.ofAscii "cd"] :=
  Tree.names_of_pairwise (by decide)

theorem shardsIn_twoShards :
    shardsIn .byName twoShards [Bytes.ofAscii "c"] =
      [Bytes.ofAscii "ab", Bytes.ofAscii "cd"] := by
  rw [shardsIn, namesBy_twoShards]
  decide

theorem outputsIn_twoShards :
    outputsIn .byName twoShards [Bytes.ofAscii "c", Bytes.ofAscii "ab"] = [] ∧
      outputsIn .byName twoShards [Bytes.ofAscii "c", Bytes.ofAscii "cd"] =
        [Bytes.ofAscii "x.js"] := by
  rw [outputsIn, outputsIn, Tree.namesBy, Tree.namesBy,
    Tree.names_of_pairwise (by decide), Tree.names_of_pairwise (by decide)]
  decide

/-- The path `c` leads to the store without going through its shards, so both
are taken away. -/
theorem clearBy_twoShards :
    ∃ ds t',
      Store.clear ⟨Bytes.ofAscii "c", ⟨1, "now"⟩⟩ twoShards = .ok 1 t' ∧
      Cleared [Bytes.ofAscii "c"] ds twoShards t' ∧
      Bytes.ofAscii "ab" ∈ ds ∧ Bytes.ofAscii "cd" ∈ ds ∧
      Store.clear ⟨Bytes.ofAscii "c", ⟨1, "now"⟩⟩ t' = .ok 0 t' := by
  have hleads : (twoShards.eraseNames [Bytes.ofAscii "c"]
      [Bytes.ofAscii "ab", Bytes.ofAscii "cd"]).Leads
      (Bytes.ofAscii "c") [Bytes.ofAscii "c"] := ⟨by decide, by decide⟩
  have hclear := clearBy_eq_of_leads (l := .byName) (by decide) (by decide)
    (shardsIn_twoShards ▸ hleads) ⟨1, "now"⟩
  have hcount : ((shardsIn .byName twoShards [Bytes.ofAscii "c"]).flatMap
      fun d => outputsIn .byName twoShards
        ([Bytes.ofAscii "c"] ++ [d])).length = 1 := by
    simp [shardsIn_twoShards, outputsIn_twoShards]
  rw [hcount] at hclear
  obtain ⟨place, ds, hrooted, hcleared, -, -, -, hoff, hrest⟩ :=
    clearBy_takes_shards proper_twoShards hclear
  obtain rfl : place = [Bytes.ofAscii "c"] :=
    hrooted.leads.unique ⟨by decide, rfl⟩
  obtain ⟨hall, -, hagain⟩ := hrest (hoff (by decide))
  exact ⟨ds, _, hclear, hcleared, hall _ (by decide), hall _ (by decide),
    hagain ⟨1, "now"⟩ .byName⟩

theorem clear_twoShards_through_shard (w : Writer) :
    Store.clear ⟨Bytes.ofAscii "c/ab/..", w⟩ twoShards =
      .ok 0 (twoShards.erase [Bytes.ofAscii "c", Bytes.ofAscii "ab"]) := by
  have hleads : twoShards.Leads (Bytes.ofAscii "c/ab/..")
      [Bytes.ofAscii "c"] := ⟨by decide, rfl⟩
  have hd : twoShards.node? [Bytes.ofAscii "c"] = some .directory := rfl
  have hlost : ∀ q, ¬ (twoShards.erase
      [Bytes.ofAscii "c", Bytes.ofAscii "ab"]).Leads
        (Bytes.ofAscii "c/ab/..") q :=
    fun q hq => by cases hq.follow_eq
  have hfirst : clearShard ⟨Bytes.ofAscii "c/ab/..", w⟩ .byName twoShards
      (Bytes.ofAscii "ab") =
        (0, twoShards.erase [Bytes.ofAscii "c", Bytes.ofAscii "ab"]) := by
    rw [clearShard_eq hleads hd, if_pos (by decide)]
    exact congrArg (List.length ·, _) outputsIn_twoShards.1
  rw [Store.clear, clearBy, hleads.list_eq (by decide) hd, namesBy_twoShards]
  dsimp only
  rw [clearShards, hfirst]
  dsimp only
  rw [clearShards_eq_of_lost hlost]
  rfl

/-- What holds after a store in a proper tree was cleared, however its path is
written. -/
def EnsuredByClearing (P : Store → Place → Nat → Tree → Tree → Prop) : Prop :=
  ∀ (s : Store) (place : Place) (n : Nat) (t t' : Tree),
    t.Rooted s.root place → s.clear t = .ok n t' → P s place n t t'

/-- By a path that goes through the first shard and up again, only that shard is
taken away: the second shard stays and its output is not counted, nothing can be
listed, and clearing again fails. -/
theorem not_ensuredByClearing :
    (¬ EnsuredByClearing fun _ place _ t t' => ∀ d,
        isShardAt t place d = true → t'.node? (place ++ [d]) = none) ∧
      (¬ EnsuredByClearing fun _ place n t _ =>
        ∃ outputs : List (Bytes × Bytes), n = outputs.length ∧
          ∀ d f, isShardAt t place d = true →
            t.node? (place ++ [d, f]) ≠ none →
            extension? f = some outputExtension → (d, f) ∈ outputs) ∧
      (¬ EnsuredByClearing fun s _ _ _ t' => ∃ es, s.entries t' = .ok es) ∧
      ¬ EnsuredByClearing fun s _ _ _ t' => s.clear t' = .ok 0 t' := by
  let s : Store := ⟨Bytes.ofAscii "c/ab/..", ⟨1, "now"⟩⟩
  have hrooted : twoShards.Rooted s.root [Bytes.ofAscii "c"] :=
    ⟨proper_twoShards, ⟨by decide, by rfl⟩, by rfl⟩
  have hclear := clear_twoShards_through_shard ⟨1, "now"⟩
  refine ⟨fun hall => ?_, fun hall => ?_, fun hall => ?_, fun hall => ?_⟩
  · have hgone := hall s _ 0 _ _ hrooted hclear (Bytes.ofAscii "cd") (by decide)
    revert hgone
    decide
  · obtain ⟨outputs, hlength, hmem⟩ := hall s _ 0 _ _ hrooted hclear
    have hx := hmem (Bytes.ofAscii "cd") (Bytes.ofAscii "x.js") (by decide)
      (by decide) (by decide)
    rw [List.length_eq_zero_iff.mp hlength.symm] at hx
    cases hx
  · obtain ⟨es, hes⟩ := hall s _ 0 _ _ hrooted hclear
    cases hes
  · have hagain := hall s _ 0 _ _ hrooted hclear
    cases hagain

end Store

end Terse
