import Terse.Proofs.EntryText
import Terse.Proofs.FailedPut
import Terse.Proofs.Processes

/-!
# Nobody finds half a file

However the steps of processes that share a store are interleaved, and wherever
one of them stops, a get never meets an output that is not complete. What makes
this so are the names: a temporary name tells the number of the process and the
file it is for, so no process touches the temporary file of another, and it is
the proper name of no file. An output is therefore changed by nothing but the
renaming of a temporary file that its own process has filled (`effect_act`), and
it never goes away. So a get is answered with the output that was placed last
(`got_of_run`).
-/

namespace Terse.Store

open Files Files.Path

/-! ### Temporary names -/

theorem ofAscii_toString (n : Nat) :
    Bytes.ofAscii (toString n) = Text.Json.decimal n := by
  rw [Text.Json.decimal_eq_flatMap, Bytes.ofAscii, Nat.toString_eq_repr,
    Nat.toList_repr, List.map_eq_flatMap]
  refine List.flatMap_congr fun c hc => ?_
  have hdigit := Nat.isDigit_of_mem_toDigits (by decide) (by decide) hc
  have hrange : 48 ≤ c.val.toNat ∧ c.val.toNat ≤ 57 := by
    simpa [Char.isDigit, UInt32.le_iff_toNat_le] using hdigit
  rw [String.utf8EncodeChar]
  exact (if_pos (by omega)).symm

theorem dot_notMem_decimal (n : Nat) :
    (0x2e : UInt8) ∉ Text.Json.decimal n := by
  intro hdot
  exact absurd (Text.Json.isDigit_of_mem_decimal hdot) (by decide)

theorem id_eq_of_temporaryName_eq {w w' : Writer} {name name' : Bytes}
    (hname : name ≠ []) (hname' : name' ≠ [])
    (h : temporaryName w name = temporaryName w' name') : w.id = w'.id := by
  rw [temporaryName, temporaryName, ofAscii_toString, ofAscii_toString] at h
  have hstem := List.append_cancel_right h
  have hdigits : Text.Json.decimal w.id = Text.Json.decimal w'.id := by
    obtain ⟨b, s, hb, -⟩ := Text.Json.exists_decimal_eq_cons w.id
    obtain ⟨b', s', hb', -⟩ := Text.Json.exists_decimal_eq_cons w'.id
    have hext := extension?_append hname (by rw [hb]; simp)
      (dot_notMem_decimal w.id)
    have hext' := extension?_append hname' (by rw [hb']; simp)
      (dot_notMem_decimal w'.id)
    rw [hstem, hext'] at hext
    exact (Option.some.inj hext).symm
  rw [← Text.Json.foldl_decimal w.id, hdigits, Text.Json.foldl_decimal]

namespace Shared

variable {root : Bytes} {place : Place} {pid : Nat} {f : Filing} {part : Part}
  {k : Key} {t t' : Tree}

theorem Part.isExtension (part : Part) : IsExtension part.extension := by
  cases part with
  | output => exact .inl rfl
  | entry => exact .inr rfl

namespace Filing

def fileAt (place : Place) (f : Filing) (part : Part) : Place :=
  f.key.fileAt place part.extension

/-- Where the process `pid` has it until it is complete. -/
def temporaryAt (place : Place) (pid : Nat) (f : Filing) (part : Part) :
    Place :=
  f.key.temporaryAt (f.writer pid) place part.extension

theorem isName (f : Filing) (part : Part) :
    IsName (f.key.fileName part.extension) :=
  isName_fileName f.isDigest part.isExtension

theorem temporaryAt_ne {pid' : Nat} (hpid : pid' ≠ pid) (f' f : Filing)
    (part' part : Part) :
    f'.temporaryAt place pid' part' ≠ f.temporaryAt place pid part := by
  intro h
  rw [temporaryAt, temporaryAt, Key.temporaryAt_eq, Key.temporaryAt_eq] at h
  have hname : temporaryName (f'.writer pid')
    (f'.key.fileName part'.extension) =
      temporaryName (f.writer pid) (f.key.fileName part.extension) := by
        simpa using (List.append_inj' h rfl).2
  exact hpid
    (id_eq_of_temporaryName_eq (f'.isName part').ne_nil
      (f.isName part).ne_nil hname)

theorem fileAt_ne_temporaryAt {extension : Bytes} (hk : k.IsDigest)
    (hext : IsExtension extension) (pid : Nat) (f : Filing) (part : Part) :
    k.fileAt place extension ≠ f.temporaryAt place pid part := by
  rw [Key.fileAt_eq, temporaryAt]
  refine ne_temporaryAt ?_ (f.writer pid) place f.key part.extension
  rw [extension?_fileName hk hext]
  rcases hext with rfl | rfl <;> decide

/-- A part of a filing is the output of a key only if it is the output and the
filing has the key. -/
theorem fileAt_output_eq_iff (hk : k.IsDigest) :
    k.fileAt place outputExtension = f.fileAt place part ↔ k = f.key ∧
      part = .output := by
  cases part with
  | output => simp [fileAt, Part.extension, Key.fileAt_inj]
  | entry =>
    simp only [reduceCtorEq, and_false, iff_false]
    intro h
    rw [fileAt, Key.fileAt_eq, Key.fileAt_eq] at h
    exact fileName_output_ne_entry hk f.isDigest
      (by simpa [Part.extension] using (List.append_inj' h rfl).2)

end Filing

/-! ### What a step does to the tree -/

section Steps

variable (h : t.Rooted root place)
  (hd : t.node? (place ++ [f.key.shard]) = some .directory)
include h hd

theorem leads_shard :
    t.Leads (Path.join root f.key.shard) (place ++ [f.key.shard]) :=
  (h.join (isName_shard f.isDigest) hd).leads

theorem exists_temporary_eq (pid : Nat) (part : Part) :
    ∃ up, f.temporary root pid part =
        Path.join up (temporaryName (f.writer pid)
          (f.key.fileName part.extension)) ∧
      t.Leads up (place ++ [f.key.shard]) := by
  have hleads := leads_shard h hd
  obtain ⟨up, hup, hupLeads⟩ := hleads.exists_withFileName hd (f.isName part)
    (temporaryName (f.writer pid) (f.key.fileName part.extension))
  refine ⟨up, ?_, hupLeads⟩
  rw [Filing.temporary, temporaryPath, Filing.path,
    hleads.fileName?_join (f.isName part), Option.getD_some, hup]

theorem write_temporary (pid : Nat) (part : Part) (content : Bytes) :
    t.write (f.temporary root pid part) content =
      if t.node? (f.temporaryAt place pid part) = some .directory then
        .error .isDirectory
      else .ok (t.set (f.temporaryAt place pid part) (.file content)) := by
  obtain ⟨up, hup, hleads⟩ := exists_temporary_eq h hd pid part
  rw [hup,
    hleads.write_join hd (isName_temporaryName _ f.isDigest part.isExtension),
    Filing.temporaryAt,
    Key.temporaryAt_eq, Tree.fill_of_ne_device (h.proper.ne_device _)]

theorem find_temporary {n : Node}
    (hn : t.node? (f.temporaryAt place pid part) = some n) :
    t.find (f.temporary root pid part) =
      .ok (f.temporaryAt place pid part, n) := by
  obtain ⟨up, hup, hleads⟩ := exists_temporary_eq h hd pid part
  have hname := isName_temporaryName (f.writer pid) f.isDigest part.isExtension
  rw [Filing.temporaryAt, Key.temporaryAt_eq] at hn ⊢
  rw [hup, (hleads.join hd hname).find_eq (join_ne_nil up hname) hn]

theorem rename_temporary {content : Bytes}
    (hn : t.node? (f.temporaryAt place pid part) = some (.file content)) :
    t.rename (f.temporary root pid part) (f.path root part) =
      if t.node? (f.fileAt place part) = some .directory then
        .error .isDirectory
      else
        .ok ((t.erase (f.temporaryAt place pid part)).set (f.fileAt place part)
          (.file content)) := by
  rw [Filing.path, (leads_shard h hd).rename_join hd (f.isName part)
    (find_temporary h hd hn) (by simp),
    Filing.fileAt, Key.fileAt_eq]

end Steps

/-! ### What a step leaves to the others -/

/-- The output that is placed by an event, if it is one of the key. -/
def Event.output? (k : Key) : Event → Option Bytes
  | .placed _ f => if f.key = k then some f.deposit.output else none
  | .got .. => none

/-- The outputs that have been placed under a key, oldest first. -/
def outputs (k : Key) (es : List Event) : List Bytes :=
  es.filterMap (Event.output? k)

/-- What a step of the process `pid` does to a store at `place`. Directories and
the temporary files of other processes stay, an output changes only if another
one is placed, and a get that is complete tells the output. -/
structure Effect (place : Place) (pid : Nat) (t t' : Tree) (es : List Event) :
    Prop where
  keeps : t.Keeps t'
  proper : t'.Proper
  temporary_eq : ∀ {pid' : Nat} (f : Filing) (part : Part), pid' ≠ pid →
    t'.content? (f.temporaryAt place pid' part) =
      t.content? (f.temporaryAt place pid' part)
  output_eq : ∀ {k : Key}, k.IsDigest →
    t'.content? (k.fileAt place outputExtension) =
    (outputs k es).getLast?.or (t.content? (k.fileAt place outputExtension))
  got_eq : ∀ {k : Key} {answer : Except Failure (Option Bytes)}
    {before after : List Event}, k.IsDigest →
    es = before ++ .got k answer :: after →
      before = [] ∧ answer = .ok (t.content? (k.fileAt place outputExtension))

theorem Effect.of_content?_eq (hk : t.Keeps t') (ht' : t'.Proper)
    (hcontent : t'.content? = t.content?) {es : List Event}
    (houtputs : ∀ k, outputs k es = [])
    (hgot : ∀ {k : Key} {answer : Except Failure (Option Bytes)}
      {before after : List Event}, k.IsDigest → es = before ++ .got k answer ::
      after → before = [] ∧
      answer = .ok (t.content? (k.fileAt place outputExtension))) :
    Effect place pid t t' es where
  keeps := hk
  proper := ht'
  temporary_eq _ _ _ := by rw [hcontent]
  output_eq {k} _ := by
    rw [hcontent, houtputs k]
    rfl
  got_eq := hgot

theorem Effect.refl (ht : t.Proper) : Effect place pid t t [] :=
  .of_content?_eq ⟨rfl, id⟩ ht rfl (fun _ => rfl) (by simp)

theorem Effect.of_got (ht : t.Proper) {answer : Except Failure (Option Bytes)}
    (hanswer : k.IsDigest →
      answer = .ok (t.content? (k.fileAt place outputExtension))) :
    Effect place pid t t [.got k answer] := by
  refine .of_content?_eq ⟨rfl, id⟩ ht rfl (fun _ => rfl) ?_
  intro k' answer' before after hk' hes
  cases before with
  | nil =>
    obtain ⟨rfl, rfl⟩ := Event.got.inj (List.cons.inj hes).1
    exact ⟨rfl, hanswer hk'⟩
  | cons e before => simp at hes

theorem Effect.of_write (h : t.Rooted root place)
    (hd : t.node? (place ++ [f.key.shard]) = some .directory)
    (hnot : t.node? (f.temporaryAt place pid part) ≠ some .directory)
    (content : Bytes) :
    Effect place pid t (t.set (f.temporaryAt place pid part) (.file content))
      [] := by
  have hcontent := (t.putAt_set (show f.temporaryAt place pid part ≠ [] by
    simp [Filing.temporaryAt, Key.temporaryAt]) (.file content)).content?_file
  have hrefiles :
      t.Refiles (t.set (f.temporaryAt place pid part) (.file content)) := by
    rw [Filing.temporaryAt, Key.temporaryAt_eq] at hnot ⊢
    exact h.proper.refiles_set hd
      (isName_temporaryName _ f.isDigest part.isExtension) hnot content
  refine ⟨hrefiles.keeps, hrefiles.proper, ?_, ?_, by simp⟩
  · intro pid' f' part' hpid
    rw [hcontent,
      Function.update_of_ne (Filing.temporaryAt_ne hpid f' f part' part)]
  · intro k hk
    rw [hcontent,
      Function.update_of_ne
      (Filing.fileAt_ne_temporaryAt hk (.inl rfl) pid f part)]
    rfl

theorem Effect.of_rename (h : t.Rooted root place)
    (hd : t.node? (place ++ [f.key.shard]) = some .directory)
    (hn : t.node? (f.temporaryAt place pid part) =
      some (.file (f.content part)))
    (hnot : t.node? (f.fileAt place part) ≠ some .directory) :
    Effect place pid t
      ((t.erase (f.temporaryAt place pid part)).set (f.fileAt place part)
        (.file (f.content part)))
      (complete pid f part).2 := by
  have htemp : t.node? (f.temporaryAt place pid part) ≠ some .directory := by
    rw [hn]
    simp
  have herase := h.proper.refiles_erase htemp
  have hcontent :=
    ((t.erase (f.temporaryAt place pid part)).putAt_set
      (show f.fileAt place part ≠ [] by
    simp [Filing.fileAt, Key.fileAt]) (.file (f.content part))).content?_file
  rw [h.proper.content?_erase htemp] at hcontent
  have hrefiles : t.Refiles
      ((t.erase (f.temporaryAt place pid part)).set (f.fileAt place part)
        (.file (f.content part))) := by
    have hfree :
        (t.erase (f.temporaryAt place pid part)).node? (f.fileAt place part) ≠
          some .directory :=
      fun hdir => hnot ((herase.directory_iff _).mp hdir)
    rw [Filing.fileAt, Key.fileAt_eq] at hfree ⊢
    exact herase.trans (herase.proper.refiles_set (herase.keeps.directory hd)
      (f.isName part) hfree _)
  refine ⟨hrefiles.keeps, hrefiles.proper, ?_, ?_, ?_⟩
  · intro pid' f' part' hpid
    have hne : f'.temporaryAt place pid' part' ≠ f.fileAt place part :=
      (Filing.fileAt_ne_temporaryAt f.isDigest part.isExtension pid'
        f' part').symm
    rw [hcontent, Function.update_of_ne hne,
      Function.update_of_ne (Filing.temporaryAt_ne hpid f' f part' part)]
  · intro k hk
    rw [hcontent]
    by_cases hown : k = f.key ∧ part = .output
    · obtain ⟨rfl, rfl⟩ := hown
      simp [Filing.fileAt, Part.extension, Filing.content, outputs, complete,
        Event.output?]
    · rw [Function.update_of_ne fun heq => hown
        ((Filing.fileAt_output_eq_iff hk).mp heq),
        Function.update_of_ne
          (Filing.fileAt_ne_temporaryAt hk (.inl rfl) pid f part)]
      cases part with
      | output =>
        have hkey : f.key ≠ k := fun heq => hown ⟨heq.symm, rfl⟩
        simp [outputs, complete, Event.output?, hkey]
      | entry => rfl
  · intro k answer before after _ hes
    have hmem : .got k answer ∈ (complete pid f part).2 := by
      rw [hes]
      simp
    cases part with
    | output => simp [complete] at hmem
    | entry => simp [complete] at hmem

/-! ### One step -/

/-- What is true of the tree while a process is about to do something. What it
has written is the first part of what it has to write, and an output that was
there is there. -/
def Phase.Fits (root : Bytes) (place : Place) (pid : Nat) (t : Tree) :
    Phase → Prop
  | .idle => True
  | .opening f _ => t.node? (place ++ [f.key.shard]) = some .directory
  | .filling f part rest => t.node? (place ++ [f.key.shard]) = some .directory ∧
      ∃ written, written ++ rest = f.content part ∧
        t.node? (f.temporaryAt place pid part) = some (.file written)
  | .reading k p =>
    k.IsDigest → p = Path.join (Path.join root k.shard)
      (k.fileName outputExtension) ∧
      t.content? (k.fileAt place outputExtension) ≠ none

theorem Phase.Fits.of_effect {pid' : Nat} {phase : Phase} {es : List Event}
    (h : phase.Fits root place pid' t) (heffect : Effect place pid t t' es)
    (hpid : pid' ≠ pid) : phase.Fits root place pid' t' := by
  cases phase with
  | idle => trivial
  | opening f part => exact heffect.keeps.directory h
  | filling f part rest =>
    obtain ⟨hd, written, hwritten, hn⟩ := h
    refine ⟨heffect.keeps.directory hd, written, hwritten, ?_⟩
    rw [← Tree.content?_eq_some_iff, heffect.temporary_eq f part hpid,
      Tree.content?_eq_some_iff, hn]
  | reading k p =>
    intro hk
    obtain ⟨hp, houtput⟩ := h hk
    refine ⟨hp, ?_⟩
    rw [heffect.output_eq hk]
    intro hnone
    exact houtput (Option.or_eq_none_iff.mp hnone).2

/-- A step has no other effects than it may have, and what the process is about
to do fits the tree again. -/
structure Sound (root : Bytes) (place : Place) (pid : Nat) (t : Tree)
    (r : Tree × Phase × List Event) : Prop where
  effect : Effect place pid t r.1 r.2.2
  fits : r.2.1.Fits root place pid r.1

theorem Sound.of_idle (ht : t.Proper) : Sound root place pid t (t, .idle, []) :=
  ⟨.refl ht, trivial⟩

theorem sound_startPut (h : t.Rooted root place) (f : Filing) :
    Sound root place pid t (startPut (Path.join root f.key.shard) f t) := by
  have hshard := isName_shard f.isDigest
  rw [startPut]
  cases hfile : t.content? (place ++ [f.key.shard]) with
  | some content =>
    rw [h.leads.makeDirectories_join h.directory hshard,
      Tree.content?_eq_some_iff.mp hfile]
    exact .of_idle h.proper
  | none =>
    obtain ⟨t', hmake, h', hput, hcontent⟩ :=
      h.exists_makeDirectories hshard hfile
    rw [hmake]
    exact ⟨.of_content?_eq (hput.keeps fun _ => rfl) h'.proper hcontent
      (fun _ => rfl) (by simp), hput.node?_self⟩

theorem sound_openTemporary (h : t.Rooted root place)
    (hd : t.node? (place ++ [f.key.shard]) = some .directory) :
    Sound root place pid t
      (openTemporary (f.temporary root pid part) f part t) := by
  rw [openTemporary, write_temporary h hd]
  by_cases hdir : t.node? (f.temporaryAt place pid part) = some .directory
  · rw [if_pos hdir]
    exact .of_idle h.proper
  · rw [if_neg hdir]
    have heffect := Effect.of_write h hd hdir []
    refine ⟨heffect, heffect.keeps.directory hd, [], rfl, ?_⟩
    exact Tree.node?_set_self t
      _ (by simp [Filing.temporaryAt, Key.temporaryAt])

theorem sound_append {rest : Bytes} (h : t.Rooted root place)
    (hfits : (Phase.filling f part rest).Fits root place pid t) (n : Nat) :
    Sound root place pid t
      (append (f.temporary root pid part) f part rest n t) := by
  obtain ⟨hd, written, hwritten, hn⟩ := hfits
  have hread : t.read (f.temporary root pid part) = .ok written := by
    rw [Tree.read, find_temporary h hd hn]
    rfl
  have hdir : t.node? (f.temporaryAt place pid part) ≠ some .directory := by
    rw [hn]
    simp
  have heffect := Effect.of_write h hd hdir (written ++ rest.take n)
  simp only [append, hread, write_temporary h hd, if_neg hdir]
  refine ⟨heffect, heffect.keeps.directory hd, written ++ rest.take n, ?_, ?_⟩
  · rw [List.append_assoc, List.take_append_drop, hwritten]
  · exact Tree.node?_set_self t
      _ (by simp [Filing.temporaryAt, Key.temporaryAt])

theorem sound_rename (h : t.Rooted root place)
    (hfits : (Phase.filling f part []).Fits root place pid t) :
    Sound root place pid t (rename (f.temporary root pid part)
      (f.path root part) pid f part t) := by
  obtain ⟨hd, written, hwritten, hn⟩ := hfits
  rw [List.append_nil] at hwritten
  subst hwritten
  rw [rename, rename_temporary h hd hn]
  by_cases hdir : t.node? (f.fileAt place part) = some .directory
  · rw [if_pos hdir]
    exact .of_idle h.proper
  · rw [if_neg hdir]
    have heffect := Effect.of_rename h hd hn hdir
    refine ⟨heffect, ?_⟩
    cases part with
    | output => exact heffect.keeps.directory hd
    | entry => trivial

theorem sound_startGet (h : t.Rooted root place) (w : Writer) (k : Key) :
    Sound root place pid t (startGet (Store.path? ⟨root, w⟩ k) k t) := by
  have hpath : k.IsDigest → Store.path? ⟨root, w⟩ k =
      some (Path.join (Path.join root k.shard) (k.fileName outputExtension)) :=
        fun hk => path?_eq hk w
  have hfile : k.IsDigest →
    t.isFile (Path.join (Path.join root k.shard) (k.fileName outputExtension)) =
      (t.content? (k.fileAt place outputExtension)).isSome :=
    fun hk => h.isFile_join_join (isName_shard hk)
      (isName_fileName hk (.inl rfl))
  cases hp : Store.path? ⟨root, w⟩ k with
  | none =>
    refine ⟨.of_got h.proper fun hk => ?_, trivial⟩
    rw [hpath hk] at hp
    cases hp
  | some p =>
    rw [startGet]
    split
    · next hthere =>
      refine ⟨.refl h.proper, fun hk => ?_⟩
      obtain rfl := Option.some.inj ((hpath hk).symm.trans hp)
      rw [hfile hk] at hthere
      exact ⟨rfl, Option.isSome_iff_ne_none.mp hthere⟩
    · next hthere =>
      refine ⟨.of_got h.proper fun hk => ?_, trivial⟩
      obtain rfl := Option.some.inj ((hpath hk).symm.trans hp)
      rw [hfile hk, Option.not_isSome_iff_eq_none] at hthere
      rw [hthere]

theorem sound_read {p : Bytes} (h : t.Rooted root place)
    (hfits : (Phase.reading k p).Fits root place pid t) :
    Sound root place pid t (read k p t) := by
  have hread : k.IsDigest →
      (t.read p).toOption = t.content? (k.fileAt place outputExtension) := by
    intro hk
    rw [(hfits hk).1]
    exact h.toOption_read_join_join (isName_shard hk)
      (isName_fileName hk (.inl rfl))
  rw [read]
  cases hcontent : t.read p with
  | ok content =>
    refine ⟨.of_got h.proper fun hk => ?_, trivial⟩
    rw [← hread hk, hcontent]
    rfl
  | error c =>
    refine ⟨.of_got h.proper fun hk => ?_, trivial⟩
    refine absurd ?_ (hfits hk).2
    rw [← hread hk, hcontent]
    rfl

theorem sound_act (h : t.Rooted root place) {phase : Phase}
    (hfits : phase.Fits root place pid t) (a : Action) :
    Sound root place pid t (act root pid phase a t) := by
  fun_cases act root pid phase a t with
  | case1 f => exact sound_startPut h f
  | case2 f part => exact sound_openTemporary h hfits
  | case3 f part rest n => exact sound_append h hfits n
  | case4 f part => exact sound_rename h hfits
  | case5 k => exact sound_startGet h ⟨pid, ""⟩ k
  | case6 k p => exact sound_read h hfits
  | case7 => exact .of_idle h.proper
  | case8 => exact ⟨.refl h.proper, hfits⟩

/-! ### All steps -/

/-- What every process is about to do fits the tree. -/
structure System.Fits (root : Bytes) (place : Place) (s : System) : Prop where
  rooted : s.tree.Rooted root place
  phase : ∀ pid, (s.phase pid).Fits root place pid s.tree

theorem fits_start {base : Tree} (h : base.Rooted root place) :
    (start base).Fits root place :=
  ⟨h, fun _ => trivial⟩

theorem System.Fits.step {s : System} (h : s.Fits root place) (pid : Nat)
    (a : Action) :
    (Shared.step root s pid a).1.Fits root place ∧
      Effect place pid s.tree (Shared.step root s pid a).1.tree
        (Shared.step root s pid a).2 := by
  obtain ⟨heffect, hfits⟩ := sound_act h.rooted (h.phase pid) a
  refine ⟨⟨h.rooted.of_keeps heffect.keeps heffect.proper, fun pid' => ?_⟩,
    heffect⟩
  by_cases hpid : pid' = pid
  · subst hpid
    simpa [Shared.step] using hfits
  · simpa [Shared.step, hpid] using (h.phase pid').of_effect heffect hpid

theorem outputs_append (k : Key) (es es' : List Event) :
    outputs k (es ++ es') = outputs k es ++ outputs k es' :=
  List.filterMap_append

/-- A get tells the output that was placed last, or the one that was there
before. -/
theorem System.Fits.got_eq {s : System} (h : s.Fits root place)
    (schedule : List (Nat × Action)) {before after : List Event}
    {answer : Except Failure (Option Bytes)} (hk : k.IsDigest)
    (hrun : (run root s schedule).2 = before ++ .got k answer :: after) :
    answer =
      .ok ((outputs k before).getLast?.or
        (s.tree.content? (k.fileAt place outputExtension))) := by
  induction schedule generalizing s before with
  | nil => simp [run] at hrun
  | cons turn schedule ih =>
    obtain ⟨pid, a⟩ := turn
    obtain ⟨hfits, heffect⟩ := h.step pid a
    have hsplit : (Shared.step root s pid a).2 ++
      (run root (Shared.step root s pid a).1 schedule).2 =
        before ++ .got k answer :: after := hrun
    have hlater : ∀ before', before = (Shared.step root s pid a).2 ++ before' →
        (run root (Shared.step root s pid a).1 schedule).2 = before' ++
          .got k answer :: after →
          answer =
            .ok ((outputs k before).getLast?.or
              (s.tree.content? (k.fileAt place outputExtension))) := by
      rintro before' rfl hrest
      rw [ih hfits hrest, heffect.output_eq hk, outputs_append,
        List.getLast?_append, Option.or_assoc]
    rcases List.append_eq_append_iff.mp hsplit with
      ⟨before', hbefore, hrest⟩ | ⟨now, hnow, hrest⟩
    · exact hlater before' hbefore hrest
    · cases now with
      | nil => exact hlater [] (by simpa using hnow.symm) hrest.symm
      | cons e now =>
        -- the get is complete in this step, so nothing has been observed before
        obtain ⟨rfl, -⟩ := List.cons.inj hrest
        obtain ⟨rfl, hanswer⟩ := heffect.got_eq hk hnow
        exact hanswer

theorem exists_placed_of_mem_outputs {es : List Event} {output : Bytes}
    (h : output ∈ outputs k es) :
    ∃ pid f, .placed pid f ∈ es ∧ f.key = k ∧ f.deposit.output = output := by
  obtain ⟨e, he, houtput⟩ := List.mem_filterMap.mp h
  cases e with
  | got k' answer => cases houtput
  | placed pid f =>
    rw [Event.output?] at houtput
    split at houtput
    · next hkey => exact ⟨pid, f, he, hkey, Option.some.inj houtput⟩
    · cases houtput

theorem ne_of_outputs_eq_nil {es : List Event} (h : outputs k es = [])
    {pid : Nat} {f : Filing} (hmem : .placed pid f ∈ es) : f.key ≠ k := by
  intro hkey
  have hnone := List.filterMap_eq_nil_iff.mp h _ hmem
  rw [Event.output?, if_pos hkey] at hnone
  cases hnone

/-- Whatever the processes do and wherever they stop, every get that is complete
tells the whole output of a put that has been placed, and if none has been
placed it tells what was there at first. So as soon as a put of the key has been
placed there is always an output. -/
theorem got_of_run {base : Tree} (hbase : base.Rooted root place)
    (schedule : List (Nat × Action)) {before after : List Event} {k : Key}
    {answer : Except Failure (Option Bytes)} (hk : k.IsDigest)
    (hrun : (run root (start base) schedule).2 = before ++
      .got k answer :: after) :
    (∃ pid f, .placed pid f ∈ before ∧ f.key = k ∧
      answer = .ok (some f.deposit.output)) ∨
      (∀ pid f, .placed pid f ∈ before → f.key ≠ k) ∧
        answer = .ok (base.content? (k.fileAt place outputExtension)) := by
  have hanswer := (fits_start hbase).got_eq schedule hk hrun
  rcases List.eq_nil_or_concat (outputs k before) with
    hnil | ⟨earlier, output, hlast⟩
  · rw [hnil] at hanswer
    exact .inr ⟨fun pid f hmem => ne_of_outputs_eq_nil hnil hmem, hanswer⟩
  · rw [hlast, List.concat_eq_append, List.getLast?_concat,
      Option.some_or] at hanswer
    obtain ⟨pid, f, hmem, hkey, rfl⟩ :=
      exists_placed_of_mem_outputs (show output ∈ outputs k before by
      rw [hlast]
      simp)
    exact .inl ⟨pid, f, hmem, hkey, hanswer⟩

/-! ### Two writers and a reader -/

def zeros : Key :=
  ⟨"0000000000000000000000000000000000000000000000000000000000000000"⟩

theorem isDigest_zeros : zeros.IsDigest :=
  ⟨by decide +kernel, by decide +kernel⟩

def ofZeros (output : String) : Filing :=
  ⟨zeros, isDigest_zeros, ⟨Bytes.ofAscii output, 9, "now"⟩⟩

/-- Two processes put different outputs under one key, and a third looks it up.
It finds nothing while both are writing. When it asks again, the second output
has been placed, and by the time it reads, also the first. The second process
stops before it has written its entry. -/
def twoWriters : List (Nat × Action) :=
  [(1, .put (ofZeros "a=1")), (2, .put (ofZeros "a")), (1, .openTemporary),
    (2, .openTemporary), (1, .append 2),
    (3, .get zeros), (2, .append 1), (2, .rename), (3, .get zeros),
      (2, .openTemporary), (1, .append 1),
    (1, .rename), (3, .read), (1, .openTemporary), (1, .giveUp)]

def emptyStore : Tree := ({} : Tree).set [Bytes.ofAscii "c"] .directory

theorem rooted_emptyStore :
    emptyStore.Rooted (Bytes.ofAscii "c") [Bytes.ofAscii "c"] where
  proper := (Tree.proper_empty []).set_directory (p := []) rfl
    ⟨by decide, by decide, by decide, by decide, by decide⟩
  leads := ⟨by decide, rfl⟩
  directory := rfl

theorem run_twoWriters :
    (run (Bytes.ofAscii "c") (start emptyStore) twoWriters).2 =
      [.got zeros (.ok none), .placed 2 (ofZeros "a"),
        .placed 1 (ofZeros "a=1")] ++
        [.got zeros (.ok (some (Bytes.ofAscii "a=1")))] := by
  decide +kernel

/-- The reader finds nothing and then a whole output, which one of the two has
placed. -/
theorem got_of_run_twoWriters :
    (run (Bytes.ofAscii "c") (start emptyStore) twoWriters).2 =
        [.got zeros (.ok none), .placed 2 (ofZeros "a"),
          .placed 1 (ofZeros "a=1")] ++
          [.got zeros (.ok (some (Bytes.ofAscii "a=1")))] ∧
      ∃ (pid : Nat) (f : Filing),
        Event.placed pid f ∈ [.got zeros (.ok none), .placed 2 (ofZeros "a"),
          .placed 1 (ofZeros "a=1")] ∧
          f.key = zeros ∧ f.deposit.output = Bytes.ofAscii "a=1" := by
  refine ⟨run_twoWriters, ?_⟩
  rcases got_of_run rooted_emptyStore twoWriters isDigest_zeros
    run_twoWriters with
    ⟨pid, f, hmem, hkey, hanswer⟩ | ⟨hnone, -⟩
  · exact ⟨pid, f, hmem, hkey, (Option.some.inj (Except.ok.inj hanswer)).symm⟩
  · exact absurd rfl (hnone 2 (ofZeros "a") (by simp))

end Shared

end Terse.Store
