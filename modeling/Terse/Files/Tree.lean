import Terse.Bytes

/-!
# File trees

A tree is a finite map from places to nodes, where a place is the list of names
that leads to it from the top. Keeping the map flat, rather than nesting
directories, means that every operation is a statement about `node?`: what it
says at the place that was changed, and that it says what it said before
everywhere else. The top is always a directory and has no node of its own.

What is in a directory is a set of names. It is listed in some order, and who
needs an order of its own has to make it: `Listing` is what a directory is free
to do.

`cwd` is the place that relative paths start from.
-/

namespace Terse.Files

abbrev Place := List Bytes

inductive Node where
  | file (content : Bytes)
  | directory
  /-- Takes all that is written to it and gives nothing back. -/
  | device
  deriving DecidableEq, Repr

/-- The order in which directories list their names. Any order will do, and
another one for every directory. -/
structure Listing where
  arrange : Place → List Bytes → List Bytes
  perm : ∀ p names, (arrange p names).Perm names

def Listing.byName : Listing where
  arrange _ names := names
  perm _ names := .refl names

structure Tree where
  nodes : List (Place × Node) := []
  cwd : Place := []
  deriving DecidableEq, Repr

namespace Tree

def node? (t : Tree) (p : Place) : Option Node :=
  if p.isEmpty then some .directory else t.nodes.lookup p

def set (t : Tree) (p : Place) (n : Node) : Tree :=
  { t with nodes := (p, n) :: t.nodes.filter fun e => e.1 != p }

/-- Writes to `p`: a device stays as it is, and else a file with the content is
there. -/
def fill (t : Tree) (p : Place) (content : Bytes) : Tree :=
  if t.node? p = some .device then t else t.set p (.file content)

def erase (t : Tree) (p : Place) : Tree :=
  { t with nodes := t.nodes.filter fun e => !p.isPrefixOf e.1 }

def nameBelow? (p q : Place) : Option Bytes :=
  if p.isPrefixOf q then
    match q.drop p.length with
    | [name] => some name
    | _ => none
  else none

def names (t : Tree) (p : Place) : List Bytes :=
  (t.nodes.filterMap fun e => nameBelow? p e.1).eraseDups.mergeSort Bytes.le

def namesBy (t : Tree) (l : Listing) (p : Place) : List Bytes :=
  l.arrange p (t.names p)

def below (t : Tree) (p : Place) : List (Place × Node) :=
  t.nodes.filterMap fun e =>
    if p.isPrefixOf e.1 && p.length < e.1.length then
      some (e.1.drop p.length, e.2) else none

/-! ### What the operations do to the map -/

@[simp] theorem node?_nil (t : Tree) : t.node? [] = some .directory := rfl

theorem node?_of_ne_nil (t : Tree) {p : Place} (h : p ≠ []) :
    t.node? p = t.nodes.lookup p := by
  simp [node?, h]

theorem lookup_filter_place (f : Place → Bool) (l : List (Place × Node))
    (q : Place) :
    (l.filter fun e => f e.1).lookup q = if f q then l.lookup q else none := by
  induction l with
  | nil => simp
  | cons e l ih =>
    obtain ⟨r, n⟩ := e
    rw [List.filter_cons]
    by_cases hq : q = r
    · subst hq
      cases hf : f q <;> simp [ih, hf]
    · have hb : (q == r) = false := beq_eq_false_iff_ne.mpr hq
      cases hf : f r <;> simp [List.lookup_cons, hb, ih]

theorem node?_set_self (t : Tree) {p : Place} (n : Node) (h : p ≠ []) :
    (t.set p n).node? p = some n := by
  simp [node?, set, h]

theorem node?_set_of_ne (t : Tree) {p q : Place} (n : Node) (h : q ≠ p) :
    (t.set p n).node? q = t.node? q := by
  have hb : (q == p) = false := beq_eq_false_iff_ne.mpr h
  simp only [node?, set, List.lookup_cons, hb,
    lookup_filter_place fun r => r != p]
  simp [h]

@[simp] theorem cwd_set (t : Tree) (p : Place) (n : Node) :
    (t.set p n).cwd = t.cwd :=
  rfl

@[simp] theorem cwd_erase (t : Tree) (p : Place) : (t.erase p).cwd = t.cwd :=
  rfl

theorem fill_of_ne_device {t : Tree} {p : Place}
    (h : t.node? p ≠ some .device) (content : Bytes) :
    t.fill p content = t.set p (.file content) :=
  if_neg h

theorem fill_of_eq_device {t : Tree} {p : Place}
    (h : t.node? p = some .device) (content : Bytes) : t.fill p content = t :=
  if_pos h

theorem node?_fill_of_ne (t : Tree) {p q : Place} (content : Bytes)
    (h : q ≠ p) : (t.fill p content).node? q = t.node? q := by
  rw [fill]
  split
  · rfl
  · exact node?_set_of_ne t _ h

theorem node?_erase_of_not_below (t : Tree) {p q : Place}
    (h : p.isPrefixOf q = false) :
    (t.erase p).node? q = t.node? q := by
  simp only [node?, erase, lookup_filter_place fun r => !p.isPrefixOf r]
  simp [h]

theorem node?_erase_of_below (t : Tree) {p q : Place} (hq : q ≠ [])
    (h : p.isPrefixOf q = true) :
    (t.erase p).node? q = none := by
  rw [node?_of_ne_nil _ hq]
  simp only [erase, lookup_filter_place fun r => !p.isPrefixOf r]
  simp [h]

end Tree

end Terse.Files
