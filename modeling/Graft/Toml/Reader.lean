import Graft.Toml.Number

/-!
# TOML texts

Reads values and whole texts. There is one cause for a text not to be read: it is no TOML, be it by
its form or because it defines something twice.
-/

namespace Graft.Toml

def skipLines (inComment : Bool) : List Char → Option (List Char)
  | [] => if inComment then none else some []
  | '\r' :: '\n' :: cs => skipLines false cs
  | c :: cs =>
    if c = '\n' then skipLines false cs
    else if inComment then if isTextChar c then skipLines true cs else none
    else if isSpace c then skipLines false cs
    else if c = '#' then skipLines true cs
    else some (c :: cs)

def items (item : Reader Toml) (cs : List Char) : Option (List Toml × List Char) :=
  match skipLines false cs with
  | some (']' :: rest) => some ([], rest)
  | some here =>
    match item here with
    | none => none
    | some (value, rest) =>
      match skipLines false rest with
      | some (']' :: rest) => some ([value], rest)
      | some (',' :: rest) =>
        if rest.length < cs.length then
          (items item rest).map fun (values, rest) => (value :: values, rest)
        else none
      | _ => none
  | none => none
termination_by cs.length

def pair (value : Reader Toml) : Reader (List String × Toml) := fun cs => do
  let (ks, rest) ← keys cs
  let (v, rest) ← value (skipSpaces (← expectChar '=' rest))
  return ((ks, v), rest)

def pairs (value : Reader Toml) (es : Entries) (cs : List Char) : Option (Entries × List Char) :=
  match pair value cs with
  | none => none
  | some ((ks, v), rest) =>
    match es.add ks v, skipSpaces rest with
    | some es, '\x7d' :: rest => some (es, rest)
    | some es, ',' :: rest => if rest.length < cs.length then pairs value es rest else none
    | _, _ => none
termination_by cs.length

def valueWithin (depth : Nat) : Reader Toml := fun cs =>
  match depth, cs with
  | _, [] => none
  -- At the bound neither arrays nor tables are read any more.
  | 0, c :: _ => if c = '[' || c = '\x7b' then none else plain cs
  | depth + 1, c :: rest =>
    if c = '[' then (items (valueWithin depth) rest).map fun (values, rest) => (.array values, rest)
    else if c = '\x7b' then
      match skipSpaces rest with
      | '\x7d' :: rest => some (.table .inline [], rest)
      | here => (pairs (valueWithin depth) [] here).map fun (es, rest) => (.table .inline es, rest)
    else plain cs
where
  plain (cs : List Char) : Option (Toml × List Char) :=
    if cs.head? = some '"' || cs.head? = some '\'' then
      (anyText cs).map fun (s, rest) => (.string (.ofList s), rest)
    else scalar cs

def value : Reader Toml := valueWithin (depthBound - 1)

def lineEnd (cs : List Char) : Option (List Char) :=
  let rest := match skipSpaces cs with
    | '#' :: rest => rest.dropWhile isTextChar
    | rest => rest
  match rest with
  | [] => some []
  | '\n' :: rest => some rest
  | '\r' :: '\n' :: rest => some rest
  | _ => none

/-- What has been read of a text: its table, and the keys of the header that its next pairs belong
under. -/
structure Draft where
  entries : Entries
  current : List String

namespace Draft

def add (d : Draft) (ks : List String) (v : Toml) : Option Draft :=
  (Entries.within .header (fun _ => true) (fun _ es => es.add ks v) d.current .header
    d.entries).map fun es => { d with entries := es }

def line (d : Draft) (cs : List Char) : Option (Draft × List Char) :=
  match skipSpaces cs with
  | '[' :: '[' :: rest => do
    let (ks, rest) ← keys rest
    let rest ← lineEnd (← expectChar ']' (← expectChar ']' rest))
    return (⟨← d.entries.defineNext ks, ks⟩, rest)
  | '[' :: rest => do
    let (ks, rest) ← keys rest
    let rest ← lineEnd (← expectChar ']' rest)
    return (⟨← d.entries.define ks, ks⟩, rest)
  | here =>
    match lineEnd here with
    | some rest => some (d, rest)
    | none => do
      let ((ks, v), rest) ← pair value here
      return (← d.add ks v, ← lineEnd rest)

def lines (d : Draft) (cs : List Char) : Option Draft :=
  if cs.isEmpty then some d
  else
    match d.line cs with
    | none => none
    | some (d, rest) => if rest.length < cs.length then lines d rest else none
termination_by cs.length

end Draft

def read (s : String) : Option Entries :=
  let cs := s.toList
  -- A byte order mark at the start is passed over.
  let cs := if cs.head?.any (·.toNat = 0xFEFF) then cs.drop 1 else cs
  (Draft.lines ⟨[], []⟩ cs).map (·.entries)

end Graft.Toml
