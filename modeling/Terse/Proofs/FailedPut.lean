import Terse.Proofs.JobRuns
import Terse.Proofs.Segmentation
import Terse.Proofs.StoreRefinement
import Terse.Proofs.StoreViews

/-!
# Puts that fail

A put makes a directory and then writes two files, each by way of a temporary
name. Something may stand in the way of each of these steps: a file where the
directory is to be, or a directory that has one of the four names. A put stops
at the first obstacle it meets, and there is nothing else that can stop it
(`put_of_firstObstacle?`). What has been done until then stays, so whether a put
that fails can be noticed depends on the obstacle. One that is met before the
output is complete leaves every answer of the store as it was. One that is met
after that leaves an output without an entry, and the next run takes it for a
stored one. If it is the second name of a file that is taken, the file stays
under the first.
-/

namespace Terse

open Files Files.Path

namespace Store

/-- What stands in the way of a put, in the order it is met. -/
inductive Obstacle where
  /-- There is a file in place of the directory. -/
  | shard
  /-- A directory has the temporary name of the output. -/
  | temporaryOutput
  /-- A directory has the name of the output. -/
  | output
  | temporaryEntry
  | entry
  deriving DecidableEq, Repr

/-- Where a file of a key is until it is complete. -/
def Key.temporaryAt (w : Writer) (place : Place) (k : Key) (extension : Bytes) :
    Place :=
  place ++ [k.shard, temporaryName w (k.fileName extension)]

theorem Key.temporaryAt_eq (w : Writer) (place : Place) (k : Key)
    (extension : Bytes) :
    k.temporaryAt w place extension = place ++ [k.shard] ++
      [temporaryName w (k.fileName extension)] := by
  simp [temporaryAt]

theorem Key.fileAt_eq (place : Place) (k : Key) (extension : Bytes) :
    k.fileAt place extension = place ++ [k.shard] ++
      [k.fileName extension] := by
  simp [fileAt]

/-- The obstacle that a put under `k` meets first. -/
def firstObstacle? (w : Writer) (t : Tree) (place : Place) (k : Key) :
    Option Obstacle :=
  if (t.content? (place ++ [k.shard])).isSome then some .shard
  else if t.node? (k.temporaryAt w place outputExtension) = some .directory then
    some .temporaryOutput
  else if t.node? (k.fileAt place outputExtension) = some .directory then
    some .output
  else if t.node? (k.temporaryAt w place entryExtension) = some .directory then
    some .temporaryEntry
  else if t.node? (k.fileAt place entryExtension) = some .directory then
    some .entry
  else none

namespace Obstacle

def cause : Obstacle → Cause
  | .shard => .occupied
  | _ => .isDirectory

/-- Whether the output is complete when the obstacle is met. -/
def isLate : Obstacle → Bool
  | .temporaryEntry => true
  | .entry => true
  | _ => false

/-- The extension of the file that stays under its temporary name. -/
def leftover? : Obstacle → Option Bytes
  | .output => some outputExtension
  | .entry => some entryExtension
  | _ => none

end Obstacle

variable {t t' : Tree} {root : Bytes} {place : Place} {w : Writer} {k : Key}
  {v : Deposit} {ob : Obstacle}

/-- The contents of files when a put of `v` has stopped, if they were `contents`
before. -/
def Obstacle.contentsAfter (w : Writer) (place : Place) (k : Key) (v : Deposit)
    (contents : Place → Option Bytes) :
    Obstacle → Place → Option Bytes
  | .shard => contents
  | .temporaryOutput => contents
  | .output =>
    Function.update contents (k.temporaryAt w place outputExtension)
      (some v.output)
  | .temporaryEntry =>
    Function.update
      (Function.update contents (k.temporaryAt w place outputExtension) none)
      (k.fileAt place outputExtension) (some v.output)
  | .entry =>
    Function.update
      (Function.update
        (Function.update contents (k.temporaryAt w place outputExtension) none)
        (k.fileAt place outputExtension) (some v.output))
      (k.temporaryAt w place entryExtension) (some (v.entry k).render)

/-! ### The steps of a put -/

theorem writeWhole_fileName (h : t.Rooted root place) (hk : k.IsDigest)
    (hdir : t.node? (place ++ [k.shard]) = some .directory) {extension : Bytes}
    (hext : IsExtension extension) (w : Writer) (content : Bytes) :
    (t.node? (k.temporaryAt w place extension) = some .directory ∧
        writeWhole w (Path.join (Path.join root k.shard) (k.fileName extension))
          content t = .error .isDirectory t) ∨
      (t.node? (k.temporaryAt w place extension) ≠ some .directory ∧
        t.node? (k.fileAt place extension) = some .directory ∧
        ∃ t', writeWhole w (Path.join (Path.join root k.shard)
          (k.fileName extension)) content t =
            .error .isDirectory t' ∧ t.Refiles t' ∧
          t'.content? =
            Function.update t.content? (k.temporaryAt w place extension)
            (some content)) ∨
      (t.node? (k.temporaryAt w place extension) ≠ some .directory ∧
        t.node? (k.fileAt place extension) ≠ some .directory ∧
        ∃ t', writeWhole w (Path.join (Path.join root k.shard)
          (k.fileName extension)) content t = .ok () t' ∧
          t.Refiles t' ∧
          t'.content? =
            Function.update
            (Function.update t.content? (k.temporaryAt w place extension) none)
            (k.fileAt place extension) (some content)) := by
  have hname := isName_fileName hk hext
  have htempName := isName_temporaryName w hk hext
  have hshard := h.join (isName_shard hk) hdir
  rw [Key.temporaryAt_eq, Key.fileAt_eq,
    writeWhole_join w hshard.leads hdir hname htempName (h.proper.ne_device _)]
  by_cases htemp :
    t.node? (place ++ [k.shard] ++ [temporaryName w (k.fileName extension)]) =
      some .directory
  · exact .inl ⟨htemp, if_pos htemp⟩
  · by_cases hfinal : t.node? (place ++ [k.shard] ++ [k.fileName extension]) =
      some .directory
    · refine .inr
        (.inl ⟨htemp, hfinal, _, by rw [if_neg htemp, if_pos hfinal], ?_, ?_⟩)
      · exact h.proper.refiles_set hdir htempName htemp content
      · exact (Tree.putAt_set t (by simp) _).content?_file
    · refine .inr
        (.inr ⟨htemp, hfinal, _, by rw [if_neg htemp, if_neg hfinal], ?_⟩)
      exact refiles_replaced w hshard hname htempName hfinal htemp content

theorem put_of_firstObstacle? (h : t.Rooted root place) (hk : k.IsDigest)
    (w : Writer) (sourceLength : Nat) (output : Bytes) :
    match firstObstacle? w t place k with
    | none => ∃ p t', Store.put ⟨root, w⟩ k sourceLength output t = .ok p t'
    | some ob =>
      ∃ t', Store.put ⟨root, w⟩ k sourceLength output t =
        .error (.file ob.cause) t' ∧
        t'.Rooted root place ∧
          t'.content? = ob.contentsAfter w place k ⟨output, sourceLength, w.now⟩
          t.content? := by
  have hshard := isName_shard hk
  rw [firstObstacle?, put_eq hk]
  cases hfile : t.content? (place ++ [k.shard]) with
  | some content =>
    rw [h.leads.makeDirectories_join h.directory hshard,
      Tree.content?_eq_some_iff.mp hfile]
    exact ⟨t, rfl, h, rfl⟩
  | none =>
    obtain ⟨t₁, hmake, h₁, hput₁, hcontents₁⟩ :=
      h.exists_makeDirectories hshard hfile
    have hdir₁ := hput₁.node?_self
    have htemporary : ∀ e, t.node? (k.temporaryAt w place e) =
        t₁.node? (k.temporaryAt w place e) :=
      fun e => (hput₁.node?_of_ne (by simp [Key.temporaryAt])).symm
    have hfinal : ∀ e, t.node? (k.fileAt place e) =
        t₁.node? (k.fileAt place e) :=
      fun e => (hput₁.node?_of_ne (by simp [Key.fileAt])).symm
    -- the directory is there, so from here on only files change
    simp only [hmake, htemporary, hfinal, ← hcontents₁, Option.isSome_none,
      Bool.false_eq_true, if_false]
    rcases writeWhole_fileName h₁ hk hdir₁ (.inl rfl) w output with
      ⟨htemp, hwrite⟩ | ⟨htemp, hname, t₂, hwrite, hrefiles, hcontents₂⟩
        | ⟨htemp, hname, t₂, hwrite, hrefiles, hcontents₂⟩
    · simp only [hwrite, htemp, if_true]
      exact ⟨t₁, rfl, h₁, rfl⟩
    · simp only [hwrite, htemp, hname, if_true, if_false]
      exact ⟨t₂, rfl, h₁.of_refiles hrefiles, hcontents₂⟩
    · -- the output is complete; what stands in the way of the entry was there
      -- before
      have h₂ := h₁.of_refiles hrefiles
      have hdir₂ := hrefiles.keeps.directory hdir₁
      simp only [hwrite, htemp, hname, if_false, ← hrefiles.directory_iff]
      rcases writeWhole_fileName h₂ hk hdir₂ (.inr rfl) w
        (Deposit.entry ⟨output, sourceLength, w.now⟩ k).render with
        ⟨htemp, hwrite⟩ | ⟨htemp, hname, t₃, hwrite, hrefiles, hcontents₃⟩
          | ⟨htemp, hname, t₃, hwrite, -, -⟩
      · simp only [hwrite, htemp, if_true]
        exact ⟨t₂, rfl, h₂, hcontents₂⟩
      · simp only [hwrite, htemp, hname, if_true, if_false]
        exact ⟨t₃, rfl, h₂.of_refiles hrefiles,
          by rw [hcontents₃, hcontents₂]; rfl⟩
      · simp only [hwrite, htemp, hname, if_false]
        exact ⟨_, t₃, rfl⟩

/-! ### What can be noticed -/

/-- Outside the temporary names only the output of a late obstacle is new. -/
theorem Obstacle.contentsAfter_of_ne (contents : Place → Option Bytes)
    {q : Place} (hq : ∀ e, q ≠ k.temporaryAt w place e) (ob : Obstacle) :
    ob.contentsAfter w place k v contents q =
      if q = k.fileAt place outputExtension ∧ ob.isLate = true then
        some v.output else contents q := by
  cases ob with
  | shard => simp [contentsAfter, isLate]
  | temporaryOutput => simp [contentsAfter, isLate]
  | output => simp [contentsAfter, isLate, hq]
  | temporaryEntry => simp [contentsAfter, isLate, Function.update_apply, hq]
  | entry => simp [contentsAfter, isLate, Function.update_apply, hq]

theorem Obstacle.contentsAfter_ne_none_iff {contents : Place → Option Bytes}
    {q : Place} (hnone : contents q = none)
    (hq : q ≠ k.fileAt place outputExtension) (ob : Obstacle) :
    ob.contentsAfter w place k v contents q ≠ none ↔
      ∃ e, ob.leftover? = some e ∧ q = k.temporaryAt w place e := by
  cases ob with
  | shard => simp [contentsAfter, leftover?, hnone]
  | temporaryOutput => simp [contentsAfter, leftover?, hnone]
  | output => simp [contentsAfter, leftover?, Function.update_apply, hnone]
  | temporaryEntry =>
    simp [contentsAfter, leftover?, Function.update_apply, hnone, hq]
  | entry => simp [contentsAfter, leftover?, Function.update_apply, hnone, hq]

theorem ne_temporaryAt {q : Place} {f : Bytes}
    (hf : extension? f ≠ some temporaryExtension) (w : Writer) (place : Place)
    (k : Key) (extension : Bytes) :
    q ++ [f] ≠ k.temporaryAt w place extension := by
  rw [Key.temporaryAt_eq]
  intro heq
  obtain rfl : f = _ := by simpa using (List.append_inj' heq rfl).2
  exact hf (extension?_temporaryName w _)

/-- What the put of `v` under `k` leaves behind when it stops at `ob`. -/
structure LeftBehind (root : Bytes) (place : Place) (w : Writer) (k : Key)
    (v : Deposit) (ob : Obstacle) (t t' : Tree) : Prop where
  get_eq : ∀ {k' : Key} (w' : Writer), k'.IsDerived →
    Store.get ⟨root, w'⟩ t' k' =
    if k' = k ∧ ob.isLate = true then .ok (some v.output)
    else Store.get ⟨root, w'⟩ t k'
  contains_eq : ∀ {k' : Key} (w' : Writer), k'.IsDerived →
    Store.contains? ⟨root, w'⟩ t' k' =
    if k' = k ∧ ob.isLate = true then
      some true else Store.contains? ⟨root, w'⟩ t k'
  entries_eq : ∀ (w' : Writer) (l l' : Listing),
    (Store.entriesBy ⟨root, w'⟩ l' t').map Multiset.ofList =
    (Store.entriesBy ⟨root, w'⟩ l t).map Multiset.ofList
  /-- A temporary file is added exactly where the obstacle leaves one over. -/
  temporary_iff : ∀ {q : Place} {w' : Writer} {name : Bytes},
    t.content? (q ++ [temporaryName w' name]) = none →
    (t'.content? (q ++ [temporaryName w' name]) ≠ none ↔
      ∃ e, ob.leftover? = some e ∧ q ++ [temporaryName w' name] =
        k.temporaryAt w place e)
  /-- A run that has to store its output fails with the put. -/
  run_eq : ∀ (j : Job) (source : Bytes), j.activeStore = some ⟨root, w⟩ →
    k = .derive j.engine.options source →
    Store.get ⟨root, w⟩ t k = .ok none → j.engine.apply source = .ok v.output →
      v.sourceLength = source.length →
      j.run source t = .error (.file ob.cause) t'
  /-- The next run on a source of this key is a hit exactly if the obstacle was
  late. -/
  hit_iff : ∀ (j : Job) (source : Bytes) (w' : Writer), j.activeStore =
    some ⟨root, w'⟩ →
    k = .derive j.engine.options source → Store.get ⟨root, w'⟩ t k = .ok none →
      ((∃ outcome t'', j.run source t' = .ok outcome t'' ∧ outcome.hit = true) ↔
        ob.isLate = true)

theorem Key.fileAt_inj {k' : Key} {extension : Bytes} :
    k'.fileAt place extension = k.fileAt place extension ↔ k' = k := by
  constructor
  · intro heq
    rw [fileAt_eq, fileAt_eq] at heq
    exact fileName_injective (by simpa using (List.append_inj' heq rfl).2)
  · rintro rfl
    rfl

theorem content?_fileAt_output
    (hcontents : t'.content? = ob.contentsAfter w place k v t.content?)
    {k' : Key} (hk' : k'.IsDigest) :
    t'.content? (k'.fileAt place outputExtension) =
      if k' = k ∧ ob.isLate = true then some v.output
      else t.content? (k'.fileAt place outputExtension) := by
  have hext : extension? (k'.fileName outputExtension) ≠
      some temporaryExtension := by
    rw [extension?_fileName hk' (.inl rfl)]
    decide
  rw [hcontents, Obstacle.contentsAfter_of_ne]
  · simp only [Key.fileAt_inj]
  · intro e
    rw [Key.fileAt_eq]
    exact ne_temporaryAt hext w place k e

theorem content?_entry
    (hcontents : t'.content? = ob.contentsAfter w place k v t.content?)
    (hk : k.IsDigest) {d f : Bytes} (hf : extension? f = some entryExtension) :
    t'.content? (place ++ [d, f]) = t.content? (place ++ [d, f]) := by
  have hsplit : place ++ [d, f] = place ++ [d] ++ [f] := by simp
  rw [hcontents, Obstacle.contentsAfter_of_ne, if_neg]
  · rintro ⟨heq, -⟩
    rw [hsplit, Key.fileAt_eq] at heq
    obtain rfl : f = _ := by simpa using (List.append_inj' heq rfl).2
    rw [extension?_fileName hk (.inl rfl)] at hf
    revert hf
    decide
  · intro e
    rw [hsplit]
    refine ne_temporaryAt ?_ w place k e
    rw [hf]
    decide

theorem content?_temporary_iff
    (hcontents : t'.content? = ob.contentsAfter w place k v t.content?)
    (hk : k.IsDigest) {q : Place} {w' : Writer} {name : Bytes}
    (hnone : t.content? (q ++ [temporaryName w' name]) = none) :
    t'.content? (q ++ [temporaryName w' name]) ≠ none ↔
      ∃ e, ob.leftover? = some e ∧ q ++ [temporaryName w' name] =
        k.temporaryAt w place e := by
  rw [hcontents]
  refine Obstacle.contentsAfter_ne_none_iff hnone ?_ ob
  rw [Key.fileAt_eq]
  intro heq
  exact temporaryName_ne_fileName w' name hk (.inl rfl)
    (by simpa using (List.append_inj' heq rfl).2)

theorem run_eq_error_of_put {j : Job} {source output : Bytes} {f : Failure}
    (hstore : j.activeStore = some ⟨root, w⟩)
    (hget : Store.get ⟨root, w⟩ t (.derive j.engine.options source) = .ok none)
    (happly : j.engine.apply source = .ok output)
    (hput : Store.put ⟨root, w⟩ (.derive j.engine.options source) source.length
      output t = .error f t') :
    j.run source t = .error f t' := by
  rw [Job.run_of_missing hstore hget]
  simp only [Job.produce, happly, bind, EStateM.bind, hput]

theorem hit_iff_of_get {j : Job} {source : Bytes} {found : Option Bytes}
    (hstore : j.activeStore = some ⟨root, w⟩)
    (hget : Store.get ⟨root, w⟩ t (.derive j.engine.options source) =
      .ok found) :
    (∃ outcome t', j.run source t = .ok outcome t' ∧ outcome.hit = true) ↔
      found.isSome = true := by
  cases found with
  | some output =>
    simp only [Option.isSome_some, iff_true]
    exact ⟨_, _, Job.run_of_found hstore hget, rfl⟩
  | none =>
    simp only [Option.isSome_none, Bool.false_eq_true, iff_false]
    rintro ⟨outcome, t', hrun, hhit⟩
    rw [Job.run_of_missing hstore hget] at hrun
    split at hrun
    · cases hrun
      cases hhit
    · cases hrun

theorem leftBehind (h : t.Rooted root place) (h' : t'.Rooted root place)
    (hk : k.IsDerived)
    (hput : Store.put ⟨root, w⟩ k v.sourceLength v.output t =
      .error (.file ob.cause) t')
    (hcontents : t'.content? = ob.contentsAfter w place k v t.content?) :
    LeftBehind root place w k v ob t t' := by
  have hget : ∀ {k' : Key} (w' : Writer), k'.IsDerived →
    Store.get ⟨root, w'⟩ t' k' =
      if k' = k ∧ ob.isLate = true then .ok (some v.output)
      else Store.get ⟨root, w'⟩ t k' := by
    intro k' w' hk'
    rw [h'.get_eq hk'.isDigest, h.get_eq hk'.isDigest,
      content?_fileAt_output hcontents hk'.isDigest]
    split <;> rfl
  refine ⟨hget, ?_, ?_, ?_, ?_, ?_⟩
  · intro k' w' hk'
    rw [h'.contains?_eq hk'.isDigest, h.contains?_eq hk'.isDigest,
      content?_fileAt_output hcontents hk'.isDigest]
    split <;> rfl
  · exact fun w' l l' => h.map_ofList_entriesBy_eq h'
      (fun d f hf => content?_entry hcontents hk.isDigest hf) w' l l'
  · exact fun hnone => content?_temporary_iff hcontents hk.isDigest hnone
  · rintro j source hstore rfl hnone happly hlength
    rw [hlength] at hput
    exact run_eq_error_of_put hstore hnone happly hput
  · rintro j source w' hstore rfl hnone
    have hfound : Store.get ⟨root, w'⟩ t' (.derive j.engine.options source) =
        .ok (if ob.isLate = true then some v.output else none) := by
      rw [hget w' hk, hnone]
      by_cases hlate : ob.isLate = true
      · rw [if_pos ⟨rfl, hlate⟩, if_pos hlate]
      · rw [if_neg fun hboth => hlate hboth.2, if_neg hlate]
    rw [hit_iff_of_get hstore hfound]
    cases ob.isLate <;> simp

/-- A put that fails was stopped by an obstacle. Unless that was late, every key
is answered as before; if it was, the key has an output now and is taken for
stored. The entries stay the same in any case, and a temporary file is left
exactly if a file could not be given its name. -/
theorem exists_leftBehind_of_put_eq_error {sourceLength : Nat} {output : Bytes}
    {f : Failure} (h : t.Rooted root place) (hk : k.IsDerived)
    (hput : Store.put ⟨root, w⟩ k sourceLength output t = .error f t') :
    ∃ ob, firstObstacle? w t place k = some ob ∧ f = .file ob.cause ∧
      LeftBehind root place w k ⟨output, sourceLength, w.now⟩ ob t t' := by
  have hstopped := put_of_firstObstacle? h hk.isDigest w sourceLength output
  cases hob : firstObstacle? w t place k with
  | none =>
    rw [hob] at hstopped
    obtain ⟨p, t'', hok⟩ := hstopped
    rw [hput] at hok
    cases hok
  | some ob =>
    rw [hob] at hstopped
    obtain ⟨t'', herror, h', hcontents⟩ := hstopped
    rw [hput] at herror
    cases herror
    exact ⟨ob, rfl, rfl, leftBehind h h' hk hput hcontents⟩

/-! ### A directory in place of an entry -/

/-- A store at `c` in which a directory has the name that the entry of `k`
should have. -/
def blocked (k : Key) : Tree :=
  ((({} : Tree).set [Bytes.ofAscii "c"] .directory).set [Bytes.ofAscii "c",
    k.shard] .directory).set
    (k.fileAt [Bytes.ofAscii "c"] entryExtension) .directory

theorem node?_blocked (k : Key) (q : Place) :
    (blocked k).node? q =
      if q = k.fileAt [Bytes.ofAscii "c"] entryExtension then some .directory
      else if q = [Bytes.ofAscii "c", k.shard] then some .directory
      else if q = [Bytes.ofAscii "c"] then some .directory
      else ({} : Tree).node? q := by
  rw [blocked, (Tree.putAt_set _ (by simp [Key.fileAt]) _).node?_eq,
    (Tree.putAt_set _ (by simp) _).node?_eq,
    (Tree.putAt_set _ (by simp) _).node?_eq]

theorem content?_blocked (k : Key) (q : Place) :
    (blocked k).content? q = none := by
  refine Tree.content?_eq_none fun content => ?_
  rw [node?_blocked]
  split
  · simp
  · split
    · simp
    · split
      · simp
      · cases q <;> simp [Tree.node?]

theorem rooted_blocked (hk : k.IsDigest) :
    (blocked k).Rooted (Bytes.ofAscii "c") [Bytes.ofAscii "c"] where
  proper := by
    have hstore : (({} : Tree).set [Bytes.ofAscii "c"] .directory).Proper :=
      (Tree.proper_empty []).set_directory (p := []) rfl
        ⟨by decide, by decide, by decide, by decide, by decide⟩
    have hshard :=
      hstore.set_directory (p := [Bytes.ofAscii "c"]) rfl (isName_shard hk)
    rw [blocked, Key.fileAt_eq]
    exact hshard.set_directory (Tree.node?_set_self _ _ (by simp))
      (isName_fileName hk (.inr rfl))
  leads := ⟨by decide, rfl⟩
  directory := by
    rw [node?_blocked]
    simp [Key.fileAt]

theorem firstObstacle?_blocked (hk : k.IsDigest) (w : Writer) :
    firstObstacle? w (blocked k) [Bytes.ofAscii "c"] k = some .entry := by
  have htemporary :
      ∀ e, (blocked k).node? (k.temporaryAt w [Bytes.ofAscii "c"] e) ≠
        some .directory := by
    intro e
    have hne := temporaryName_ne_fileName w (k.fileName e) hk (.inr rfl)
    rw [node?_blocked]
    simp [Key.temporaryAt, Key.fileAt, hne, Tree.node?]
  have houtput :
      (blocked k).node? (k.fileAt [Bytes.ofAscii "c"] outputExtension) ≠
        some .directory := by
    have hne := fileName_output_ne_entry hk hk
    rw [node?_blocked]
    simp [Key.fileAt, hne, Tree.node?]
  have hentry :
      (blocked k).node? (k.fileAt [Bytes.ofAscii "c"] entryExtension) =
        some .directory := by
    rw [node?_blocked, if_pos rfl]
  rw [firstObstacle?, content?_blocked, if_neg (by simp), if_neg (htemporary _),
    if_neg houtput,
    if_neg (htemporary _), if_pos hentry]

theorem exists_put_blocked (hk : k.IsDerived) (w : Writer) (sourceLength : Nat)
    (output : Bytes) :
    ∃ t', Store.put ⟨Bytes.ofAscii "c", w⟩ k sourceLength output (blocked k) =
      .error (.file .isDirectory) t' ∧
      LeftBehind (Bytes.ofAscii "c")
        [Bytes.ofAscii "c"] w k ⟨output, sourceLength, w.now⟩ .entry
        (blocked k) t' := by
  have h := rooted_blocked hk.isDigest
  have hstopped := put_of_firstObstacle? h hk.isDigest w sourceLength output
  rw [firstObstacle?_blocked hk.isDigest] at hstopped
  obtain ⟨t', hput, h', hcontents⟩ := hstopped
  exact ⟨t', hput, leftBehind h h' hk hput hcontents⟩

def jobAt (w : Writer) : Job where
  engine := .minifier {}
  store := some ⟨Bytes.ofAscii "c", w⟩

theorem apply_assignment (w : Writer) :
    (jobAt w).engine.apply (Bytes.ofAscii "a = 1;") =
      .ok (Bytes.ofAscii "a=1;") := by
  have hcut : Script.segments {} [] (Bytes.ofAscii "a = 1;") =
      [.single 0x61, .run [.blank 0x20], .single 0x3d, .run [.blank 0x20],
        .single 0x31, .single 0x3b] := by
    decide +kernel
  have hminify : Script.minify {} (Bytes.ofAscii "a = 1;") =
      .ok (Bytes.ofAscii "a=1;") := by
    rw [Script.minify_eq_ok_iff, hcut]
    decide
  rw [jobAt, Engine.apply_minifier, hminify]

/-- The put fails when it has written the output, and the next run of the source
takes that for a stored one. -/
theorem exists_leftBehind_blocked :
    ∃ (k : Key) (w : Writer) (t' : Tree),
      Store.put ⟨Bytes.ofAscii "c", w⟩ k 6 (Bytes.ofAscii "a=1;")
        (blocked k) = .error (.file .isDirectory) t' ∧
      (jobAt w).run (Bytes.ofAscii "a = 1;")
        (blocked k) = .error (.file .isDirectory) t' ∧
      Store.contains? ⟨Bytes.ofAscii "c", w⟩ (blocked k) k = some false ∧
      Store.contains? ⟨Bytes.ofAscii "c", w⟩ t' k = some true ∧
      t'.content? (k.temporaryAt w [Bytes.ofAscii "c"] entryExtension) ≠ none ∧
      ∃ outcome t'', (jobAt w).run (Bytes.ofAscii "a = 1;") t' =
        .ok outcome t'' ∧ outcome.hit = true := by
  obtain ⟨k, hkey⟩ : ∃ k : Key, k = .derive {}
      (Bytes.ofAscii "a = 1;") := ⟨_, rfl⟩
  let w : Writer := ⟨1, "now"⟩
  have hk : k.IsDerived := ⟨_, _, hkey⟩
  have h := rooted_blocked hk.isDigest
  obtain ⟨t', hput, -⟩ := exists_put_blocked hk w 6 (Bytes.ofAscii "a=1;")
  obtain ⟨ob, hob, -, hleft⟩ := exists_leftBehind_of_put_eq_error h hk hput
  rw [firstObstacle?_blocked hk.isDigest] at hob
  obtain rfl := Option.some.inj hob
  have hnone : Store.get ⟨Bytes.ofAscii "c", w⟩ (blocked k) k = .ok none := by
    rw [h.get_eq hk.isDigest, content?_blocked]
  refine ⟨k, w, t', hput, ?_, ?_, ?_, ?_, ?_⟩
  · exact hleft.run_eq (jobAt w)
      (Bytes.ofAscii "a = 1;") rfl hkey hnone (apply_assignment w) rfl
  · rw [h.contains?_eq hk.isDigest, content?_blocked]
    rfl
  · rw [hleft.contains_eq w hk, if_pos ⟨rfl, rfl⟩]
  · rw [Key.temporaryAt_eq]
    refine (hleft.temporary_iff (content?_blocked k _)).mpr
      ⟨entryExtension, rfl, ?_⟩
    rw [Key.temporaryAt_eq]
  · exact (hleft.hit_iff (jobAt w)
      (Bytes.ofAscii "a = 1;") w rfl hkey hnone).mpr rfl

/-- What holds after every put that fails. -/
def EnsuredByFailure (P : Store → Key → Tree → Tree → Prop) : Prop :=
  ∀ (s : Store) (place : Place) (k : Key) (sourceLength : Nat) (output : Bytes)
    (f : Failure) (t t' : Tree),
    t.Rooted s.root place → k.IsDerived → s.put k sourceLength output t =
      .error f t' → P s k t t'

/-- So a put that fails does not leave the store as it was: the key may have
become known, a temporary file may have been added, and after a run that failed
the next one may be a hit. -/
theorem not_ensuredByFailure :
    (¬ EnsuredByFailure fun s k t t' => s.contains? t' k = s.contains? t k) ∧
      (¬ EnsuredByFailure fun _ _ t t' => ∀ (q : Place) (w : Writer)
        (name : Bytes),
        t.content? (q ++ [temporaryName w name]) = none →
          t'.content? (q ++ [temporaryName w name]) = none) ∧
      ¬ ∀ (j : Job) (s : Store) (place : Place) (source : Bytes) (f : Failure)
        (t t' : Tree),
        t.Rooted s.root place → j.activeStore = some s →
          j.run source t = .error f t' →
          ¬ ∃ outcome t'', j.run source t' = .ok outcome t'' ∧
            outcome.hit = true := by
  obtain ⟨k, hkey⟩ : ∃ k : Key, k = .derive {}
      (Bytes.ofAscii "a = 1;") := ⟨_, rfl⟩
  let w : Writer := ⟨1, "now"⟩
  have hk : k.IsDerived := ⟨_, _, hkey⟩
  have h := rooted_blocked hk.isDigest
  obtain ⟨t', hput, hleft⟩ := exists_put_blocked hk w 6 (Bytes.ofAscii "a=1;")
  have hnone : Store.get ⟨Bytes.ofAscii "c", w⟩ (blocked k) k = .ok none := by
    rw [h.get_eq hk.isDigest, content?_blocked]
  refine ⟨fun hall => ?_, fun hall => ?_, fun hall => ?_⟩
  · have hsame : Store.contains? ⟨Bytes.ofAscii "c", w⟩ t' k =
        Store.contains? ⟨Bytes.ofAscii "c", w⟩ (blocked k) k :=
      hall _ _ _ _ _ _ _ _ h hk hput
    rw [hleft.contains_eq w hk, if_pos ⟨rfl, rfl⟩, h.contains?_eq hk.isDigest,
      content?_blocked] at hsame
    cases hsame
  · have hsame := hall _ _ _ _ _ _ _ _ h hk hput [Bytes.ofAscii "c", k.shard] w
      (k.fileName entryExtension)
      (content?_blocked k _)
    exact (hleft.temporary_iff (content?_blocked k _)).mpr ⟨entryExtension,
      rfl, rfl⟩ hsame
  · have hrun := hleft.run_eq (jobAt w)
      (Bytes.ofAscii "a = 1;") rfl hkey hnone (apply_assignment w) rfl
    exact hall (jobAt w) ⟨Bytes.ofAscii "c", w⟩ _ _ _ _ t' h rfl hrun
      ((hleft.hit_iff (jobAt w)
        (Bytes.ofAscii "a = 1;") w rfl hkey hnone).mpr rfl)

end Store

end Terse
