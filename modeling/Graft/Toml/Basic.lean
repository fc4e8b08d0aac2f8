import Graft.Decimal.Binary64
import Graft.Text.Quoted

/-!
# TOML values

The values of a TOML text, and the rules by which headers and dotted keys extend tables: a table is
defined once, and what has been given as a value is closed.
-/

namespace Graft

inductive TableOrigin where
  | header
  | outer
  | dotted
  | inline
  deriving DecidableEq, Repr

inductive Toml where
  | string (s : String)
  | integer (n : Int)
  | float (x : Binary64)
  | boolean (b : Bool)
  | moment
  | array (items : List Toml)
  | tables (items : List Toml)
  | table (origin : TableOrigin) (entries : List (String × Toml))
  deriving Repr, Inhabited

namespace Toml

abbrev Entries := List (String × Toml)

def describe : Toml → String
  | string s => "string " ++ Quoted.shown s
  | integer n => "integer `" ++ toString n ++ "`"
  | float x => "floating point `" ++ x.pointedText ++ "`"
  | boolean b => "boolean `" ++ toString b ++ "`"
  | array _ | tables _ => "sequence"
  | moment | table .. => "map"

def kind : Toml → String
  | string _ => "string"
  | integer _ => "integer"
  | float _ => "float"
  | boolean _ => "boolean"
  | moment => "datetime"
  | array _ => "array"
  | tables _ => "array of tables"
  | table .inline _ => "inline table"
  | table .. => "table"

namespace Entries

def replace (key : String) (value : Toml) (es : Entries) : Entries :=
  es.map fun (k, v) => if k = key then (k, value) else (k, v)

def changeLast (change : TableOrigin → Entries → Option Entries) : List Toml → Option (List Toml)
  | [] => none
  | [.table origin es] => (change origin es).map fun es => [.table origin es]
  | t :: ts => (changeLast change ts).map (t :: ·)

/-- Changes the table that keys lead to. Tables that are missing on the way are made as `made`, and
those that are there have to be such as `enters` allows; of several tables of a name the last is
entered. -/
def within (made : TableOrigin) (enters : TableOrigin → Bool)
    (change : TableOrigin → Entries → Option Entries) :
    List String → TableOrigin → Entries → Option Entries
  | [], origin, es => change origin es
  | key :: keys, _, es =>
    match es.lookup key with
    | none =>
      (within made enters change keys made []).map fun sub => es ++ [(key, .table made sub)]
    | some (.table origin sub) =>
      if enters origin then
        (within made enters change keys origin sub).map fun sub =>
          replace key (.table origin sub) es
      else none
    | some (.tables ts) =>
      (changeLast (within made enters change keys) ts).map fun ts => replace key (.tables ts) es
    | some _ => none

/-- Adds a value under dotted keys. A table that is made by dotted keys can only be extended by
them, and no other table can. -/
def add (keys : List String) (value : Toml) (es : Entries) : Option Entries :=
  match keys.getLast? with
  | none => none
  | some last =>
    let change (origin : TableOrigin) (es : Entries) : Option Entries :=
      if (origin ≠ .dotted && 1 < keys.length) || (es.lookup last).isSome then none
      else some (es ++ [(last, value)])
    within .dotted (fun o => o = .dotted || o = .outer) change keys.dropLast .header es

def underHeader (change : Entries → Option Entries) (keys : List String) (es : Entries) :
    Option Entries :=
  within .outer (· ≠ .inline) (fun _ => change) keys .header es

/-- Defines the table of a header. It may have been made by the headers of tables inside it. -/
def define (keys : List String) (es : Entries) : Option Entries := do
  let last ← keys.getLast?
  let change (es : Entries) : Option Entries :=
    match es.lookup last with
    | none => some (es ++ [(last, .table .header [])])
    | some (.table .outer sub) =>
      some (es.filter (fun (k, _) => k ≠ last) ++ [(last, .table .header sub)])
    | some _ => none
  underHeader change keys.dropLast es

def defineNext (keys : List String) (es : Entries) : Option Entries := do
  let last ← keys.getLast?
  let change (es : Entries) : Option Entries :=
    match es.lookup last with
    | none => some (es ++ [(last, .tables [.table .header []])])
    | some (.tables ts) => some (replace last (.tables (ts ++ [.table .header []])) es)
    | some _ => none
  underHeader change keys.dropLast es

end Entries

end Toml

end Graft
