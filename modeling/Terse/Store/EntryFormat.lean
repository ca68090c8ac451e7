import Terse.Store.Entry
import Terse.Text.Json

/-!
# The written form of entries

An entry is written as a JSON object with one member to a line. Reading is more
liberal: the members may come in any order with others between them, which are
passed over, and an array of the four values in order is understood as well.
Each of the four has to be there once.
-/

namespace Terse.Store.Entry

open Text.Json

/-- The record as it is stored; there is no line feed at its end. -/
def render (e : Entry) : Bytes :=
  Bytes.ofString <|
    "\x7b\n  \"key\": " ++ quote e.key.text ++
    ",\n  \"source_len\": " ++ toString e.sourceLength ++
    ",\n  \"minified_len\": " ++ toString e.outputLength ++
    ",\n  \"created_at\": " ++ quote e.createdAt ++ "\n\x7d"

/-- The members met so far. -/
structure Draft where
  key? : Option Key := none
  sourceLength? : Option Nat := none
  outputLength? : Option Nat := none
  createdAt? : Option String := none

def Draft.finish? (d : Draft) : Option Entry := do
  return { key := ← d.key?
           sourceLength := ← d.sourceLength?
           outputLength := ← d.outputLength?
           createdAt := ← d.createdAt? }

def fill? {α : Type} (old : Option α) (new : Option (α × Bytes)) :
    Option (Option α × Bytes) :=
  match old, new with
  | none, some (a, s) => some (some a, s)
  | _, _ => none

def Draft.read? (d : Draft) (name : String) (s : Bytes) :
    Option (Draft × Bytes) := do
  let s := skipSpace s
  if name = "key" then
    let (v, s) ← fill? d.key? ((string? s).map fun (t, s) => (⟨t⟩, s))
    return ({ d with key? := v }, s)
  else if name = "source_len" then
    let (v, s) ← fill? d.sourceLength? (natural? lengthBound s)
    return ({ d with sourceLength? := v }, s)
  else if name = "minified_len" then
    let (v, s) ← fill? d.outputLength? (natural? lengthBound s)
    return ({ d with outputLength? := v }, s)
  else if name = "created_at" then
    let (v, s) ← fill? d.createdAt? (string? s)
    return ({ d with createdAt? := v }, s)
  else
    return (d, ← skipValue? s)

/-- Reads the members of an object from the first name on, at most `n` of
them. -/
def readMembers? : Nat → Draft → Bytes → Option (Draft × Bytes)
  | 0, _, _ => none
  | n + 1, d, s => do
    let (name, s) ← string? (skipSpace s)
    match skipSpace s with
    | 0x3a :: s =>
      let (d, s) ← d.read? name s
      match skipSpace s with
      | 0x2c :: s => readMembers? n d s
      | 0x7d :: s => some (d, s)
      | _ => none
    | _ => none

/-- Reads the elements of an array from the first value on; they fill the
members named. -/
def readElements? : List String → Draft → Bytes → Option (Draft × Bytes)
  | [], _, _ => none
  | name :: names, d, s => do
    let (d, s) ← d.read? name s
    match skipSpace s, names with
    | 0x5d :: s, [] => some (d, s)
    | 0x2c :: s, _ :: _ => readElements? names d s
    | _, _ => none

def parse? (s : Bytes) : Option Entry := do
  let (d, rest) ← match skipSpace s with
    | 0x7b :: t => readMembers? (t.length + 1) {} t
    | 0x5b :: t =>
      readElements? ["key", "source_len", "minified_len", "created_at"] {} t
    | _ => none
  if (skipSpace rest).isEmpty then d.finish? else none

end Terse.Store.Entry
