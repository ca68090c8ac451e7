import Terse.Settings
import Terse.Yaml.Node

/-!
# Settings in a document

Settings are written as a YAML mapping, with the settings for the cache and for
reading sources in mappings of their own. A mapping may be left empty. Names
that mean nothing here are passed over with all that belongs to them; a name
that means something may be given once.

A setting that is empty or null counts as not given. Truth values are spelled in
one of three cases and without quotes; a path is any scalar, taken as written.
-/

namespace Terse.Settings

open Yaml

/-- A mapping by name. What is left empty is a mapping without members. -/
def members? (d : Document) (n : Node) : Option (List (List Char × Node)) := do
  match ← d.resolve n with
  | .mapping ms => ms.mapM fun (k, v) => do
    match ← d.resolve k with
    | .scalar _ _ name => some (name, v)
    | _ => none
  | .scalar .plain _ [] => some []
  | _ => none

/-- The value of a name, if it is given; giving it twice is an error. -/
def member? (ms : List (List Char × Node)) (name : String) :
    Option (Option Node) :=
  match ms.filter (·.1 == name.toList) with
  | [] => some none
  | [(_, v)] => some (some v)
  | _ => none

def isNull (text : List Char) : Bool :=
  ["null", "Null", "NULL", "~"].any (·.toList == text)

def nullTag : Bytes := Bytes.ofAscii "tag:yaml.org,2002:null"

def boolTag : Bytes := Bytes.ofAscii "tag:yaml.org,2002:bool"

/-- Whether a node gives a value at all. Under the tag for null only null may be
written. -/
def isGiven? : Node → Option Bool
  | .scalar .plain (some tag) text =>
    if tag == nullTag then (if isNull text then some false else none)
    else some !text.isEmpty
  | .scalar .plain none text => some (!text.isEmpty && !isNull text)
  | _ => some true

def optional? {α : Type} (d : Document) (read : Node → Option α) :
    Option Node → Option (Option α)
  | none => some none
  | some n => do
    let n ← d.resolve n
    if ← isGiven? n then some <$> read n else some none

def truth? (text : List Char) : Option Bool :=
  if ["true", "True", "TRUE"].any (·.toList == text) then some true
  else if ["false", "False", "FALSE"].any (·.toList == text) then some false
  else none

/-- A truth value is plain, or a literal block that is tagged as one. -/
def bool? : Node → Option Bool
  | .scalar .plain _ text => truth? text
  | .scalar .literal (some tag) text =>
    if tag == boolTag then truth? text else none
  | _ => none

def path? : Node → Option Bytes
  | .scalar _ _ text => some (Bytes.ofString (String.ofList text))
  | _ => none

def part? (d : Document) (ms : List (List Char × Node)) (name : String) :
    Option (List (List Char × Node)) := do
  match ← member? ms name with
  | none => some []
  | some n => members? d n

def ofDocument? (text : String) : Option Settings := do
  match ← document? text.toList with
  | none => some {}
  | some d =>
    let top ← members? d d.root
    let cache ← part? d top "cache"
    let lexer ← part? d top "lexer"
    return {
      dryRun := ← optional? d bool? (← member? top "dry_run")
      suppressResult := ← optional? d bool? (← member? top "suppress_result")
      cacheEnabled := ← optional? d bool? (← member? cache "enabled")
      cacheDirectory := ← optional? d path? (← member? cache "dir")
      regexAfterKeywords :=
        ← optional? d bool? (← member? lexer "regex_after_keywords") }

end Terse.Settings
