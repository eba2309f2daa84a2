import RobotScript.Macro.Fragment
import RobotScript.Macro.Invocation
import RobotScript.Macro.Param
/-!
Macro templates: named lists of lines with references to parameters. Binding gives each parameter
a value, from an argument or by default; rendering writes the values in place of the references.
-/
namespace RobotScript.Macro

structure Variable where
  name : String
  default : Value
  deriving DecidableEq, Repr

structure Group where
  kind : ParamKind
  members : List Variable
  deriving DecidableEq, Repr

structure Template where
  name : String
  label : String
  groups : List Group
  lines : List String
  deriving DecidableEq, Repr

structure Param where
  kind : ParamKind
  name : String
  default : Value
  deriving DecidableEq, Repr

structure Binding where
  param : Param
  value : Value
  assigned : Bool
  deriving DecidableEq, Repr

def undefinedReference : List Char := "(undef)".toList

namespace Template

def params (t : Template) : List Param :=
  t.groups.flatMap fun g => g.members.map fun v => ⟨g.kind, v.name, v.default⟩

def indexOf? (t : Template) (name : List Char) : Option Nat :=
  t.params.findIdx? fun p => Chars.eqIgnoreCase p.name.toList name

def defaults (t : Template) : List Value :=
  t.params.map (·.default)

def grouped {α : Type} (t : Template) (xs : List α) : List (List α) :=
  go t.groups xs
where
  go : List Group → List α → List (List α)
    | [], _ => []
    | g :: gs, xs => xs.take g.members.length :: go gs (xs.drop g.members.length)

/-- Gives the parameter at a place the value of an argument, if the argument has one for it. The
parameter counts as assigned either way. -/
def assign (bindings : List Binding) (i : Nat) (raw : String) : Except Fault (List Binding) :=
  match bindings[i]? with
  | none => .ok bindings
  | some b => do
    let value ← b.param.kind.read raw.toList
    return bindings.set i ⟨b.param, value.getD b.value, true⟩

/-- Binds the arguments in order. Those given by key go to the parameter of that name; the others
go to the first parameter in `free` that no argument has gone to. The places in `free` ahead of it
are taken, and stay so. -/
def bindAll (t : Template) (bindings : List Binding) (free : List Nat) :
    List Argument → Except Fault (List Binding)
  | [] => .ok bindings
  | arg :: args =>
    match arg.name with
    | some key =>
      match t.indexOf? key.toList with
      | some i => do bindAll t (← assign bindings i arg.value) free args
      | none => bindAll t bindings free args
    | none =>
      match free.dropWhile fun i => (bindings[i]?.map (·.assigned)).getD true with
      | i :: free => do bindAll t (← assign bindings i arg.value) free args
      | [] => bindAll t bindings [] args

def bind (t : Template) (args : List Argument) : Except Fault (List Value) := do
  let start := t.params.map fun p => ⟨p, p.default, false⟩
  let bindings ← bindAll t start (List.range start.length) args
  return bindings.map (·.value)

def renderFragment (t : Template) (values : List Value) : Fragment → List Char
  | .literal text => text
  | .reference name format =>
    let written := do
      let i ← t.indexOf? name
      return (← t.params[i]?).kind.render (format == some Format.hex) (← values[i]?)
    written.getD undefinedReference

def renderLine (t : Template) (values : List Value) (line : String) : String :=
  String.ofList ((Fragment.split line.toList).flatMap (t.renderFragment values))

def render (t : Template) (values : List Value) : List String :=
  t.lines.map (t.renderLine values)

end Template

end RobotScript.Macro
