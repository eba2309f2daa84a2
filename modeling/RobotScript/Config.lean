import RobotScript.Bounds
import RobotScript.Json.Fields
import RobotScript.Validity
/-!
What can be set for an editing session.
-/
namespace RobotScript

structure Config where
  /-- How many bytes a program may take, with its first and last byte. -/
  maxSize : Nat := 65535
  /-- What becomes of a line that does not compile and has no disposition of its own yet. -/
  defaultInvalid : Disposition := .ignore
  /-- How deep macros may nest. -/
  maxMacroRecursion : Nat := 16
  /-- How many macros one edit may expand. -/
  maxMacroRepeat : Nat := 128
  wrapSearch : Bool := true
  caseSensitive : Bool := false
  deriving DecidableEq, Repr

namespace Config

def names : List String :=
  ["max_size", "default_invalid", "max_macro_recursion", "max_macro_repeat", "wrap_search",
    "case_sensitive"]

def toJson (c : Config) : Json :=
  .ofMembers [
    ("max_size", .ofInt c.maxSize),
    ("default_invalid", .ofString c.defaultInvalid.word),
    ("max_macro_recursion", .ofInt c.maxMacroRecursion),
    ("max_macro_repeat", .ofInt c.maxMacroRepeat),
    ("wrap_search", .bool c.wrapSearch),
    ("case_sensitive", .bool c.caseSensitive)]

def disposition? : Json → Option Disposition
  | .string s => s.bind Disposition.ofWord?
  | .object [(some word, .null)] => Disposition.ofWord? word
  | _ => none

def ofJson? (j : Json) : Option Config := do
  let default : Config := {}
  match ← j.fields? names with
  | [size, invalid, recursion, repeated, wrap, sensitive] =>
    return {
      maxSize := ← Json.optional? default.maxSize (Json.nat? Bounds.max64) size
      defaultInvalid := ← Json.optional? default.defaultInvalid disposition? invalid
      maxMacroRecursion :=
        ← Json.optional? default.maxMacroRecursion (Json.nat? Bounds.max64) recursion
      maxMacroRepeat := ← Json.optional? default.maxMacroRepeat (Json.nat? Bounds.max64) repeated
      wrapSearch := ← Json.optional? default.wrapSearch Json.bool? wrap
      caseSensitive := ← Json.optional? default.caseSensitive Json.bool? sensitive }
  | _ => none

end Config

end RobotScript
