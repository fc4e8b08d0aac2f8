import Graft.Unit.Bridge

/-!
# Edits of a host file

The calls that replace quotes and the declarations that go to the end of the file, gathered while a
file is expanded and applied at its end.
-/

namespace Graft

structure Replacement where
  span : ByteSpan
  text : String
  deriving DecidableEq, Repr

structure Edits where
  replacements : List Replacement
  declarations : List String
  deriving DecidableEq, Repr

inductive SpanFault where
  | notBoundary
  | reversed (span : ByteSpan)
  deriving DecidableEq, Repr

def SpanFault.message : SpanFault → String
  | notBoundary => "assertion failed: self.is_char_boundary(n)"
  | reversed span =>
    "slice index starts at " ++ toString span.first ++ " but ends at " ++ toString span.last

def replaceSpan (cs : List Char) (r : Replacement) : Except SpanFault (List Char) :=
  match splitAtByte? r.span.first cs, splitAtByte? r.span.last cs with
  | some (before, _), some (_, after) =>
    if r.span.first ≤ r.span.last then .ok (before ++ r.text.toList ++ after)
    else .error (.reversed r.span)
  | _, _ => .error .notBoundary

namespace Edits

def empty : Edits := ⟨[], []⟩

def substitute (e : Edits) (l : HostLanguage) (span : ByteSpan) (call : HostCall) : Edits :=
  { e with replacements := e.replacements ++ [⟨span, l.renderCall call⟩] }

def remove (e : Edits) (span : ByteSpan) : Edits :=
  { e with replacements := e.replacements ++ [⟨span, ""⟩] }

def declare (e : Edits) (l : HostLanguage) (d : HostDeclaration) : Edits :=
  { e with declarations := e.declarations ++ [l.renderDeclaration d] }

def record (l : HostLanguage) (e : Edits) : BridgeEvent → Edits
  | .lookup _ => e
  | .declare d => e.declare l d
  | .substitute site call => e.substitute l site.span call

/-- Whether a replacement is applied no later than another: the one further back goes first. -/
def noLater (a b : Replacement) : Bool := b.span.first ≤ a.span.first

/-- The source with all replacements applied from the back, so that none moves a span that is still
to be replaced. -/
def replaceAll (e : Edits) (source : List Char) : Except SpanFault (List Char) :=
  (e.replacements.mergeSort noLater).foldlM replaceSpan source

def withDeclarations (e : Edits) (l : HostLanguage) (unit : String) (cs : List Char) : String :=
  if e.declarations.isEmpty then .ofList cs
  else .ofList cs ++ (if cs.getLast? = some '\n' then "" else "\n") ++
    l.declarationsBlock unit e.declarations

def apply (e : Edits) (l : HostLanguage) (unit source : String) : Except SpanFault String :=
  (e.replaceAll source.toList).map (e.withDeclarations l unit)

end Edits

end Graft
