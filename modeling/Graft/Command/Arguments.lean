import Graft.Command.Log
import Graft.Files.Path

/-!
# Arguments

The words of a command line as a command with its options. Options of all commands may stand before
the name of the command as well as behind it; behind a word `--` all words are paths. The value of
an option that stands in a word of its own is looked at when the next option or path comes, so of
two things that are wrong the later one is reported if it is a word that nobody knows.
-/

namespace Graft

inductive ArgumentFault where
  | help
  | helpOnMissing
  | missingCommand
  | unknownCommand
  | unknownArgument
  | missingPaths
  | invalidValue
  | unneededValue
  | repeated
  deriving DecidableEq, Repr

namespace ArgumentFault

def message : ArgumentFault → String
  | help => "help is asked for"
  | helpOnMissing | missingCommand => "a command is missing"
  | unknownCommand => "there is no such command"
  | unknownArgument => "there is no such argument"
  | missingPaths => "paths to expand are missing"
  | invalidValue => "the value of an option is missing or not allowed"
  | unneededValue => "an option has a value that takes none"
  | repeated => "an option is given twice"

def usage : String :=
  "usage: splicer [-v] [--log-format FORMAT] [--log-dir DIR] [-c FILE] COMMAND\n" ++
  "  expand PATH... [-o DIR] [--compile] [--manifest FILE] [--print-link]\n" ++
  "  init [DIR] [-f]\n" ++
  "  types"

end ArgumentFault

inductive Setting where
  | help
  | verbose
  | logFormat
  | logDirectory
  | config
  | outDirectory
  | compile
  | manifest
  | printLink
  | force
  | directory
  | path
  deriving DecidableEq, Repr

namespace Setting

def takesValue : Setting → Bool
  | help | verbose | compile | printLink | force => false
  | _ => true

def mayRepeat : Setting → Bool
  | verbose | path => true
  | _ => false

def allows (s : Setting) (value : String) : Bool :=
  match s with
  | logFormat => LogFormat.all.any fun f => f.word = value
  | path => true
  | _ => !value.isEmpty

end Setting

inductive CommandName where
  | top
  | expand
  | init
  | types
  deriving DecidableEq, Repr

namespace CommandName

def ofWord? : String → Option CommandName
  | "expand" => some expand
  | "init" => some init
  | "types" => some types
  | _ => none

def options (c : CommandName) : List (Setting × String × Option Char) :=
  [(.help, "help", some 'h'), (.verbose, "verbose", some 'v'), (.logFormat, "log-format", none),
    (.logDirectory, "log-dir", none), (.config, "config", some 'c')] ++
  match c with
  | expand =>
    [(.outDirectory, "out-dir", some 'o'), (.compile, "compile", none),
     (.manifest, "manifest", none), (.printLink, "print-link", none)]
  | init => [(.force, "force", some 'f')]
  | _ => []

def long? (c : CommandName) (name : String) : Option Setting :=
  (c.options.find? fun (_, long, _) => long = name).map (·.1)

def short? (c : CommandName) (letter : Char) : Option Setting :=
  (c.options.find? fun (_, _, short) => short = some letter).map (·.1)

end CommandName

abbrev Given := Setting × String

structure Reading where
  command : CommandName
  given : List Given
  /-- The last setting that takes a value, with the value if it has come, until it is looked at. -/
  pending : Option (Setting × Option String)
  escaped : Bool

namespace Reading

def start (command : CommandName) : Reading := ⟨command, [], none, false⟩

def accept (r : Reading) (s : Setting) (value : String) : Except ArgumentFault Reading :=
  if s.takesValue && !s.allows value then .error .invalidValue
  else if !s.mayRepeat && r.given.any (·.1 = s) then .error .repeated
  else .ok { r with given := r.given ++ [(s, value)] }

def settle (r : Reading) : Except ArgumentFault Reading :=
  match r.pending with
  | none => .ok r
  | some (_, none) => .error .invalidValue
  | some (s, some value) => { r with pending := none }.accept s value

/-- Whether the next word is a value unless it is an option. -/
def isWaiting (r : Reading) : Bool := r.pending.any (·.2.isNone)

def option (r : Reading) (s : Setting) : Except ArgumentFault Reading := do
  let r ← r.settle
  if s = .help then throw .help
  else if s.takesValue then return { r with pending := some (s, none) }
  else r.accept s ""

def optionWith (r : Reading) (s : Setting) (value : String) : Except ArgumentFault Reading := do
  (← r.settle).accept s value

def longWord (r : Reading) (cs : List Char) : Except ArgumentFault Reading :=
  let name := cs.takeWhile (· ≠ '=')
  match r.command.long? (.ofList name) with
  | none => .error .unknownArgument
  | some s =>
    if cs.length = name.length then r.option s
    else if s.takesValue then r.optionWith s (.ofList (cs.drop (name.length + 1)))
    else .error .unneededValue

/-- Takes a word that starts with one dash, which is dropped: letters of options, and what stands
behind the letter of one that takes a value is that value. -/
def shortWord (r : Reading) : List Char → Except ArgumentFault Reading
  | [] => .ok r
  | c :: cs =>
    match r.command.short? c with
    | none => .error .unknownArgument
    | some s =>
      if s.takesValue then
        match cs with
        | [] => r.option s
        | '=' :: value => r.optionWith s (.ofList value)
        | value => r.optionWith s (.ofList value)
      else do (← r.option s).shortWord cs

def positional? (r : Reading) : Option Setting :=
  match r.command with
  | .expand => some .path
  | .init =>
    if r.given.any (·.1 = .directory) || r.pending.any (·.1 = .directory) then none
    else some .directory
  | _ => none

def plainWord (r : Reading) (word : String) : Except ArgumentFault Reading :=
  match r.positional? with
  | some s => do return { (← r.settle) with pending := some (s, some word) }
  | none =>
    if r.command = .top && !(r.escaped && (word = "help" || (CommandName.ofWord? word).isSome)) then
      .error .unknownCommand
    else .error .unknownArgument

def word (r : Reading) (w : String) : Except ArgumentFault Reading :=
  if r.escaped then r.plainWord w
  else
    match w.toList with
    | ['-', '-'] => .ok { r with escaped := true }
    | '-' :: '-' :: cs => r.longWord cs
    | '-' :: c :: cs => r.shortWord (c :: cs)
    | _ =>
      -- A word that is no option is the value that is waited for.
      match r.pending with
      | some (s, none) => .ok { r with pending := some (s, some w) }
      | _ => r.plainWord w

def words (command : CommandName) (ws : List String) : Except ArgumentFault (List Given) := do
  let r ← (← ws.foldlM word (start command)).settle
  if command = .expand && !r.given.any (·.1 = .path) then throw .missingPaths
  return r.given

def helpOn : List String → ArgumentFault
  | [] => .help
  | [w] => if w = "help" || (CommandName.ofWord? w).isSome then .help else .unknownCommand
  | w :: ws => if w = "help" then helpOn ws else .unknownCommand

def topWords (r : Reading) :
    List String → Except ArgumentFault (CommandName × List Given × List Given)
  | [] => do
    let r ← r.settle
    if r.given.isEmpty then throw .helpOnMissing else throw .missingCommand
  | w :: ws =>
    if r.escaped || r.isWaiting then do (← r.word w).topWords ws
    else if w = "help" then .error (helpOn ws)
    else
      match CommandName.ofWord? w with
      | some command => do
        let own ← words command ws
        return (command, own, (← r.settle).given)
      | none => do (← r.word w).topWords ws

end Reading

inductive Command where
  | expand (paths : List String) (outDirectory : Option FilePath) (compile : Bool)
    (manifest : Option FilePath) (printLink : Bool)
  | init (directory : FilePath) (force : Bool)
  | types
  deriving DecidableEq, Repr

structure Arguments where
  verbosity : Nat
  logFormat : LogFormat
  logDirectory : Option FilePath
  config : Option FilePath
  command : Command
  deriving DecidableEq, Repr

namespace Arguments

def commandOf (own : List Given) : CommandName → Command
  | .expand =>
    .expand ((own.filter (·.1 = .path)).map (·.2)) ((own.lookup .outDirectory).map .mk)
      (own.any (·.1 = .compile)) ((own.lookup .manifest).map .mk) (own.any (·.1 = .printLink))
  | .init => .init ⟨(own.lookup .directory).getD "."⟩ (own.any (·.1 = .force))
  | _ => .types

/-- How often a setting is given: behind the command if it is there, else before it. -/
def countOf (s : Setting) (own before : List Given) : Nat :=
  let n := own.countP (·.1 = s)
  if n = 0 then before.countP (·.1 = s) else n

/-- The value of a setting: that behind the command wins. -/
def valueOf (s : Setting) (own before : List Given) : Option String :=
  own.lookup s <|> before.lookup s

def ofWords (ws : List String) : Except ArgumentFault Arguments := do
  let (name, own, before) ← (Reading.start .top).topWords ws
  let format := (valueOf .logFormat own before).bind fun w => LogFormat.all.find? (·.word = w)
  return {
    verbosity := countOf .verbose own before
    logFormat := format.getD .compact
    logDirectory := (valueOf .logDirectory own before).map .mk
    config := (valueOf .config own before).map .mk
    command := commandOf own name }

end Arguments

end Graft
