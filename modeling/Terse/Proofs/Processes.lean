import Terse.Proofs.Sites
import Terse.Proofs.StoreContents

/-!
# Processes that share a store

Several processes use one store, each with a number of its own. A put or a get
of one process is not done at once: between two of its steps the others may do
some of theirs, and a process may stop for good after any of them. Here a
`System` is a tree with what each process is about to do, and a schedule tells
whose turn it is and what it does.

A put makes the directory, and then for the output and for the entry it opens
the temporary file, writes it in as many pieces as it likes, and renames it. A
get asks whether there is a file and then reads the one that has the name by
then. If a process goes through a put or a get without interruption, it does
what `Store.put` and `Store.get` do (`run_put`, `run_get`).
-/

namespace Terse.Store.Shared

open Files Files.Path

/-! ### What is put -/

/-- Where a file is written before it gets its name. -/
def temporaryPath (w : Writer) (p : Bytes) : Bytes :=
  withFileName p (temporaryName w ((fileName? p).getD []))

/-- A deposit on its way into the store. -/
structure Filing where
  key : Key
  isDigest : key.IsDigest
  deposit : Deposit
  deriving DecidableEq

/-- The files that a put writes. -/
inductive Part where
  | output
  | entry
  deriving DecidableEq

def Part.extension : Part → Bytes
  | .output => outputExtension
  | .entry => entryExtension

namespace Filing

/-- The process `pid` as it puts the filing. -/
def writer (f : Filing) (pid : Nat) : Writer := ⟨pid, f.deposit.createdAt⟩

def content (f : Filing) : Part → Bytes
  | .output => f.deposit.output
  | .entry => (f.deposit.entry f.key).render

def path (root : Bytes) (f : Filing) (part : Part) : Bytes :=
  Path.join (Path.join root f.key.shard) (f.key.fileName part.extension)

/-- Where the process `pid` writes a part before it is complete. -/
def temporary (root : Bytes) (pid : Nat) (f : Filing) (part : Part) : Bytes :=
  temporaryPath (f.writer pid) (f.path root part)

end Filing

/-! ### Steps -/

/-- What a process is about to do. -/
inductive Phase where
  /-- Anything. -/
  | idle
  /-- Opening the temporary file of a part. -/
  | opening (f : Filing) (part : Part)
  /-- Writing `rest` to it, and then renaming it. -/
  | filling (f : Filing) (part : Part) (rest : Bytes)
  /-- Reading the output of a key, which was there, by its path. -/
  | reading (k : Key) (p : Bytes)

inductive Action where
  /-- Starts a put and makes the directory. -/
  | put (f : Filing)
  | openTemporary
  /-- Writes the next `n` bytes. -/
  | append (n : Nat)
  | rename
  /-- Starts a get and asks whether there is a file. -/
  | get (k : Key)
  | read
  /-- Gives up, for whatever reason. -/
  | giveUp

/-- What can be observed from outside. -/
inductive Event where
  /-- The process `pid` has given the output of its put its name. -/
  | placed (pid : Nat) (f : Filing)
  /-- A get is complete. -/
  | got (k : Key) (answer : Except Failure (Option Bytes))
  deriving DecidableEq

/-- What the process `pid` is about to do when a part is complete, and what is
observed. -/
def complete (pid : Nat) (f : Filing) : Part → Phase × List Event
  | .output => (.opening f .entry, [.placed pid f])
  | .entry => (.idle, [])

def startPut (directory : Bytes) (f : Filing) (t : Tree) :
    Tree × Phase × List Event :=
  match Disk.makeDirectories directory t with
  | .ok _ t' => (t', .opening f .output, [])
  | .error _ t' => (t', .idle, [])

/-- Makes the temporary file, or takes away what is in it. -/
def openTemporary (temporary : Bytes) (f : Filing) (part : Part) (t : Tree) :
    Tree × Phase × List Event :=
  match t.write temporary [] with
  | .ok t' => (t', .filling f part (f.content part), [])
  | .error _ => (t, .idle, [])

/-- Writes `n` more bytes to the temporary file. -/
def append (temporary : Bytes) (f : Filing) (part : Part) (rest : Bytes)
    (n : Nat) (t : Tree) :
    Tree × Phase × List Event :=
  match t.read temporary with
  | .error _ => (t, .idle, [])
  | .ok written =>
    match t.write temporary (written ++ rest.take n) with
    | .error _ => (t, .idle, [])
    | .ok t' => (t', .filling f part (rest.drop n), [])

def rename (temporary path : Bytes) (pid : Nat) (f : Filing) (part : Part)
    (t : Tree) : Tree × Phase × List Event :=
  match t.rename temporary path with
  | .ok t' => (t', complete pid f part)
  | .error _ => (t, .idle, [])

def startGet (path? : Option Bytes) (k : Key) (t : Tree) :
    Tree × Phase × List Event :=
  match path? with
  | none => (t, .idle, [.got k (.error (.shardless k))])
  | some p =>
    if t.isFile p then (t, .reading k p, [])
      else (t, .idle, [.got k (.ok none)])

/-- Reads the file that has the name by now. -/
def read (k : Key) (p : Bytes) (t : Tree) : Tree × Phase × List Event :=
  match t.read p with
  | .ok content => (t, .idle, [.got k (.ok (some content))])
  | .error c => (t, .idle, [.got k (.error (.file c))])

/-- What the process `pid` does to the tree, what it is about to do then, and
what is observed. An action that it is not about to do has no effect. -/
def act (root : Bytes) (pid : Nat) :
    Phase → Action → Tree → Tree × Phase × List Event
  | .idle, .put f, t => startPut (Path.join root f.key.shard) f t
  | .opening f part, .openTemporary, t =>
    openTemporary (f.temporary root pid part) f part t
  | .filling f part rest, .append n, t =>
    append (f.temporary root pid part) f part rest n t
  | .filling f part [], .rename, t =>
    rename (f.temporary root pid part) (f.path root part) pid f part t
  | .idle, .get k, t => startGet (Store.path? ⟨root, ⟨pid, ""⟩⟩ k) k t
  | .reading k p, .read, t => read k p t
  | _, .giveUp, t => (t, .idle, [])
  | phase, _, t => (t, phase, [])

structure System where
  tree : Tree
  phase : Nat → Phase

/-- The processes have not done anything yet. -/
def start (base : Tree) : System := ⟨base, fun _ => .idle⟩

def step (root : Bytes) (s : System) (pid : Nat) (a : Action) :
    System × List Event :=
  let (t, phase, es) := act root pid (s.phase pid) a s.tree
  (⟨t, Function.update s.phase pid phase⟩, es)

/-- What a schedule leads to, and what is observed on the way. -/
def run (root : Bytes) : System → List (Nat × Action) → System × List Event
  | s, [] => (s, [])
  | s, (pid, a) :: schedule =>
    let (s', es) := step root s pid a
    let (s'', es') := run root s' schedule
    (s'', es ++ es')

/-! ### Without interruption -/

/-- What the process `pid` does if it has one turn after the other. -/
def actAll (root : Bytes) (pid : Nat) :
    Phase → List Action → Tree → Tree × Phase × List Event
  | phase, [], t => (t, phase, [])
  | phase, a :: as, t =>
    let (t', phase', es) := act root pid phase a t
    let (t'', phase'', es') := actAll root pid phase' as t'
    (t'', phase'', es ++ es')

variable {root : Bytes} {pid : Nat}

theorem actAll_cons {phase phase' : Phase} {a : Action} {t t' : Tree}
    {es : List Event} (h : act root pid phase a t = (t', phase', es))
    (as : List Action) :
    actAll root pid phase (a :: as) t =
      ((actAll root pid phase' as t').1, (actAll root pid phase' as t').2.1,
        es ++ (actAll root pid phase' as t').2.2) := by
  simp only [actAll, h]

theorem actAll_append (phase : Phase) (as as' : List Action) (t : Tree) :
    actAll root pid phase (as ++ as') t =
      ((actAll root pid (actAll root pid phase as t).2.1 as'
        (actAll root pid phase as t).1).1,
        (actAll root pid (actAll root pid phase as t).2.1 as'
          (actAll root pid phase as t).1).2.1,
        (actAll root pid phase as t).2.2 ++
          (actAll root pid (actAll root pid phase as t).2.1 as'
            (actAll root pid phase as t).1).2.2) := by
  induction as generalizing phase t with
  | nil => rfl
  | cons a as ih =>
    rw [List.cons_append]
    simp only [actAll, ih, List.append_assoc]

theorem run_map (root : Bytes) (pid : Nat) (s : System) (as : List Action) :
    run root s (as.map (Prod.mk pid)) =
      (⟨(actAll root pid (s.phase pid) as s.tree).1,
        Function.update s.phase pid
          (actAll root pid (s.phase pid) as s.tree).2.1⟩,
        (actAll root pid (s.phase pid) as s.tree).2.2) := by
  induction as generalizing s with
  | nil => simp [run, actAll]
  | cons a as ih => simp [run, actAll, step, ih]

theorem actAll_get (w : Writer) (k : Key) (t : Tree) :
    actAll root pid .idle [.get k, .read] t =
      (t, .idle, [.got k (Store.get ⟨root, w⟩ t k)]) := by
  have hact : act root pid .idle (.get k) t =
      startGet (Store.path? ⟨root, w⟩ k) k t := rfl
  rw [Store.get]
  cases hp : Store.path? ⟨root, w⟩ k with
  | none =>
    rw [hp] at hact
    exact actAll_cons hact [.read]
  | some p =>
    rw [hp, startGet] at hact
    dsimp only
    cases hfile : t.isFile p with
    | false =>
      rw [hfile] at hact
      exact actAll_cons hact [.read]
    | true =>
      have hread : act root pid (.reading k p) .read t = read k p t := rfl
      rw [hfile] at hact
      rw [actAll_cons hact]
      rw [read] at hread
      cases hcontent : t.read p with
      | ok content =>
        rw [hcontent] at hread
        rw [actAll_cons hread]
        rfl
      | error c =>
        rw [hcontent] at hread
        rw [actAll_cons hread]
        rfl

theorem run_get {s : System} (h : s.phase pid = .idle) (w : Writer) (k : Key) :
    run root s [(pid, .get k), (pid, .read)] =
      (s, [.got k (Store.get ⟨root, w⟩ s.tree k)]) := by
  have hrun := run_map root pid s [.get k, .read]
  rw [h, actAll_get w] at hrun
  rw [← h, Function.update_eq_self] at hrun
  exact hrun

theorem writeWhole_eq (w : Writer) (p content : Bytes) (t : Tree) :
    writeWhole w p content t =
      match t.write (temporaryPath w p) content with
      | .error c => .error c t
      | .ok t' =>
        match t'.rename (temporaryPath w p) p with
        | .error c => .error c t'
        | .ok t'' => .ok () t'' := by
  unfold writeWhole temporaryPath
  generalize withFileName p (temporaryName w ((fileName? p).getD [])) =
    temporary
  simp only [bind, EStateM.bind, Disk.change]
  cases t.write temporary content with
  | error c => rfl
  | ok t' =>
    dsimp only
    cases t'.rename temporary p with
    | error c => rfl
    | ok t'' => rfl

def writing (f : Filing) (part : Part) : List Action :=
  [.openTemporary, .append (f.content part).length, .rename]

theorem actAll_idle_writing (f : Filing) (part : Part) (t : Tree) :
    actAll root pid .idle (writing f part) t = (t, .idle, []) := rfl

theorem actAll_writing (f : Filing) (part : Part) (t : Tree) :
    actAll root pid (.opening f part) (writing f part) t =
      match writeWhole (f.writer pid) (f.path root part) (f.content part) t with
      | .ok _ t' => (t', complete pid f part)
      | .error _ t' => (t', .idle, []) := by
  rw [writeWhole_eq, writing, ← Filing.temporary]
  have hopen : act root pid (.opening f part) .openTemporary t =
    openTemporary (f.temporary root pid part) f part t := rfl
  rw [openTemporary] at hopen
  rcases t.write_cases (f.temporary root pid part) with
    ⟨c, herror⟩ | ⟨place, name, -, -, -, hok⟩
  · rw [herror] at hopen ⊢
    exact actAll_cons hopen _
  · -- the file that was opened is read as empty and written again, so nothing
    -- is left of the first writing
    have hread :
        (t.fill (place ++ [name]) []).read (f.temporary root pid part) =
          .ok [] := by
      rcases Tree.read_of_write (hok []) with hread | ⟨hsame, hread, -⟩
      · exact hread
      · rw [hsame, hread]
    have hagain := Tree.write_of_write (hok []) (f.content part)
    rw [hok] at hopen hagain ⊢
    have happend : act root pid (.filling f part (f.content part))
      (.append (f.content part).length)
        (t.fill (place ++ [name]) []) =
          (t.fill (place ++ [name]) (f.content part),
            .filling f part [], []) := by
      change append (f.temporary root pid part) f part (f.content part)
        (f.content part).length _ = _
      simp only [append, hread, List.nil_append, List.take_length,
        List.drop_length, hagain]
    rw [actAll_cons hopen, actAll_cons happend]
    generalize t.fill (place ++ [name]) (f.content part) = t₂
    have hrename : act root pid (.filling f part []) .rename t₂ =
      rename (f.temporary root pid part) (f.path root part) pid f part t₂ := rfl
    rw [rename] at hrename
    dsimp only
    cases hlast : t₂.rename (f.temporary root pid part) (f.path root part) with
    | error c =>
      rw [hlast] at hrename
      rw [actAll_cons hrename]
      rfl
    | ok t₃ =>
      rw [hlast] at hrename
      rw [actAll_cons hrename]
      simp only [actAll, List.append_nil, List.nil_append]
      rfl

theorem Filing.put_eq (root : Bytes) (pid : Nat) (f : Filing) (t : Tree) :
    Store.put ⟨root, f.writer pid⟩ f.key f.deposit.sourceLength
      f.deposit.output t =
      match Disk.makeDirectories (Path.join root f.key.shard) t with
      | .error c t₁ => .error (.file c) t₁
      | .ok _ t₁ =>
        match writeWhole (f.writer pid) (f.path root .output)
          (f.content .output) t₁ with
        | .error c t₂ => .error (.file c) t₂
        | .ok _ t₂ =>
          match writeWhole (f.writer pid) (f.path root .entry)
            (f.content .entry) t₂ with
          | .error c t₃ => .error (.file c) t₃
          | .ok _ t₃ => .ok (f.path root .output) t₃ :=
  Store.put_eq f.isDigest root (f.writer pid) f.deposit.sourceLength
    f.deposit.output t

def putting (f : Filing) : List Action :=
  .put f :: (writing f .output ++ writing f .entry)

theorem actAll_putting (root : Bytes) (pid : Nat) (f : Filing) (t : Tree) :
    (actAll root pid .idle (putting f) t).1 =
        Tree.after (Store.put ⟨root, f.writer pid⟩ f.key f.deposit.sourceLength
          f.deposit.output t) ∧
      (actAll root pid .idle (putting f) t).2.1 = .idle := by
  have hact : act root pid .idle (.put f) t =
      startPut (Path.join root f.key.shard) f t := rfl
  rw [startPut] at hact
  rw [f.put_eq, putting]
  cases hmake : Disk.makeDirectories (Path.join root f.key.shard) t with
  | error c t₁ =>
    rw [hmake] at hact
    rw [actAll_cons hact, actAll_append, actAll_idle_writing,
      actAll_idle_writing]
    exact ⟨rfl, rfl⟩
  | ok u t₁ =>
    rw [hmake] at hact
    rw [actAll_cons hact, actAll_append, actAll_writing]
    dsimp only
    cases writeWhole (f.writer pid) (f.path root .output)
      (f.content .output) t₁ with
    | error c t₂ =>
      dsimp only
      rw [actAll_idle_writing]
      exact ⟨rfl, rfl⟩
    | ok u t₂ =>
      dsimp only [complete]
      rw [actAll_writing]
      cases writeWhole (f.writer pid) (f.path root .entry)
        (f.content .entry) t₂ with
      | error c t₃ => exact ⟨rfl, rfl⟩
      | ok u t₃ => exact ⟨rfl, rfl⟩

/-- A put without interruption leaves the tree as the store does, whether it
succeeds or not. -/
theorem run_put {s : System} (h : s.phase pid = .idle) (f : Filing) :
    (run root s ((putting f).map (Prod.mk pid))).1 =
      ⟨Tree.after (Store.put ⟨root, f.writer pid⟩ f.key f.deposit.sourceLength
        f.deposit.output s.tree), s.phase⟩ := by
  obtain ⟨htree, hphase⟩ := actAll_putting root pid f s.tree
  rw [run_map, h]
  dsimp only
  rw [htree, hphase, ← h, Function.update_eq_self]

end Terse.Store.Shared
