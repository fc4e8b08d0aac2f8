import Graft.Toolchain.Compiler

/-!
# Scripted compilers

A compiler can be a script that lies in the file tree: plain commands that print words, make files
and directories, and end with a status. A run with such a compiler needs nothing but its tree. Words
are quoted as in a shell, and the arguments of the script are put in where they are named.
-/

namespace Graft

/-! ## Reading a script -/

inductive ScriptToken where
  | word (s : String)
  | toFile (behind : Bool)
  | toMessages
  | stop
  deriving DecidableEq, Repr

inductive Quoting where
  | plain
  | single
  | double
  deriving DecidableEq, Repr

namespace ScriptToken

def argument? (args : List String) (c : Char) : Option String :=
  if c = '*' || c = '@' then some (" ".intercalate args)
  else if c = '#' then some (toString args.length)
  else if '1' ≤ c && c ≤ '9' then some (args[c.toNat - '1'.toNat]?.getD "")
  else none

/-- Adds characters to the word that is read, which is kept in reverse order. -/
def grow (word : Option (List Char)) (s : String) : Option (List Char) :=
  some (s.toList.reverse ++ word.getD [])

def close (word : Option (List Char)) (ts : List ScriptToken) : List ScriptToken :=
  match word with
  | none => ts
  | some cs => .word (.ofList cs.reverse) :: ts

/-- Whether a backslash between double quotes takes the meaning of the character behind it. -/
def isEscapable (c : Char) : Bool := c = '"' || c = '\\' || c = '$'

def read (args : List String) (q : Quoting) (word : Option (List Char)) :
    List Char → List ScriptToken
  | [] => close word []
  | '$' :: c :: cs =>
    match argument? args c with
    | some s =>
      if q = .single then read args q (grow word "$") (c :: cs)
      else if q = .plain && s.isEmpty then read args q word cs
      else read args q (grow word s) cs
    | none => read args q (grow word "$") (c :: cs)
  | '\\' :: c :: cs =>
    if q = .plain || (q = .double && isEscapable c) then read args q (grow word c.toString) cs
    else read args q (grow word "\\") (c :: cs)
  | c :: cs =>
    match q with
    | .single =>
      if c = '\'' then read args .plain word cs else read args q (grow word c.toString) cs
    | .double =>
      if c = '"' then read args .plain word cs else read args q (grow word c.toString) cs
    | .plain =>
      if c = '\'' then read args .single (grow word "") cs
      else if c = '"' then read args .double (grow word "") cs
      else if c = ' ' || c = '\t' then close word (read args q none cs)
      else if c = ';' || c = '\n' then close word (.stop :: read args q none cs)
      else if c = '#' && word.isNone then .stop :: (read args q none (cs.dropWhile (· ≠ '\n')))
      else if c = '>' then
        let word := if word = some ['1'] then none else word
        match cs with
        | '>' :: cs => close word (.toFile true :: read args q none cs)
        | '&' :: '2' :: cs => close word (.toMessages :: read args q none cs)
        | cs => close word (.toFile false :: read args q none cs)
      else read args q (grow word c.toString) cs
termination_by cs => cs.length
decreasing_by
  all_goals simp_wf
  all_goals try omega
  all_goals
    have := (List.dropWhile_sublist (p := fun x => decide (x ≠ '\n')) (l := cs)).length_le
    simp_all
    try omega

end ScriptToken

inductive OutputTarget where
  | nowhere
  | messages
  | file (path : FilePath) (behind : Bool)
  deriving DecidableEq, Repr

structure ScriptCommand where
  words : List String
  target : OutputTarget
  deriving DecidableEq, Repr

namespace ScriptCommand

def blank : ScriptCommand := ⟨[], .nowhere⟩

def ofTokens (now : ScriptCommand) : List ScriptToken → List ScriptCommand
  | [] => [now]
  | .stop :: ts => now :: ofTokens blank ts
  | .word w :: ts => ofTokens { now with words := now.words ++ [w] } ts
  | .toMessages :: ts => ofTokens { now with target := .messages } ts
  | .toFile behind :: .word w :: ts => ofTokens { now with target := .file ⟨w⟩ behind } ts
  | .toFile _ :: ts => ofTokens now ts

def ofText (args : List String) (text : String) : List ScriptCommand :=
  ofTokens blank (ScriptToken.read args .plain none text.toList)

/-! ## Running a script -/

def unknownStatus : Nat := 127

def unescape : List Char → List Char
  | '\\' :: 'n' :: cs => '\n' :: unescape cs
  | '\\' :: 't' :: cs => '\t' :: unescape cs
  | '\\' :: '\\' :: cs => '\\' :: unescape cs
  | c :: cs => c :: unescape cs
  | [] => []

def line (words : List String) : String := .ofList (unescape (" ".intercalate words).toList)

def print (target : OutputTarget) (text : String) (r : CompilerRun) : CompilerRun :=
  match target with
  | .nowhere => { r with status := 0 }
  | .messages => { r with status := 0, messages := r.messages ++ text }
  | .file p behind =>
    let before := if behind then (r.tree.readText p).toOption.getD "" else ""
    match r.tree.writeText p (before ++ text) with
    | .ok t => { r with status := 0, tree := t }
    | .error _ => { r with status := 2 }

/-- A run with the tree changed for each path. A path that cannot be dealt with sets the status. -/
def forPaths (change : FileTree → FilePath → Except FileFault FileTree) (paths : List String)
    (r : CompilerRun) : CompilerRun :=
  paths.foldl (fun r p =>
    match change r.tree ⟨p⟩ with
    | .ok t => { r with tree := t }
    | .error _ => { r with status := 1 }) { r with status := 0 }

def touch (t : FileTree) (p : FilePath) : Except FileFault FileTree :=
  if t.contains p then .ok t else t.writeText p ""

def run (c : ScriptCommand) (r : CompilerRun) : CompilerRun :=
  match c.words with
  | [] | "true" :: _ | ":" :: _ => print c.target "" r
  | "false" :: _ => { print c.target "" r with status := 1 }
  | "echo" :: "-n" :: ws => print c.target (line ws) r
  | "echo" :: ws => print c.target (line ws ++ "\n") r
  | ["printf", w] => print c.target (line [w]) r
  | "touch" :: ws => forPaths touch ws r
  | "mkdir" :: "-p" :: ws => forPaths FileTree.makeDirectories ws r
  | "mkdir" :: ws => forPaths FileTree.makeDirectory ws r
  | _ => { r with status := unknownStatus }

def runAll (r : CompilerRun) : List ScriptCommand → CompilerRun
  | [] => r
  | c :: cs =>
    match c.words with
    | [] => runAll (if c.target = .nowhere then r else c.run r) cs
    | ["exit"] => r
    | ["exit", n] => { r with status := n.toNat?.getD 2 % 256 }
    | _ => runAll (c.run r) cs

end ScriptCommand

def scriptExtension : String := "sh"

/-- Runs scripts of the tree. A program is looked for where its path says; a bare name is none. -/
def Compiler.scripted : Compiler := fun program args t =>
  if !program.text.contains '/' then .error .notFound
  else do
    match t.get? (← t.resolve program) with
    | some (.file (.text text)) =>
      if program.extension? = some scriptExtension then
        return ScriptCommand.runAll ⟨0, "", t⟩ (ScriptCommand.ofText args text)
      else throw .denied
    | .none => throw .notFound
    | some _ => throw .denied

end Graft
