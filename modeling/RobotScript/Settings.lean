import RobotScript.Config
import RobotScript.Json.Printer
import RobotScript.Json.Reader
import RobotScript.Macro.Document
import RobotScript.Macro.Library
import RobotScript.Text
/-!
The settings that outlive a session: the settings of the editor, the texts of the quick macros and
the macros. They are saved as a JSON text with a version. Whatever is loaded has exactly five quick
macros, none longer than a slot holds.
-/
namespace RobotScript

inductive SettingsError where
  /-- The bytes are no settings. -/
  | unreadable
  | unsupportedVersion (version : Nat)
  deriving DecidableEq, Repr

structure Settings where
  version : Nat
  config : Config
  quickMacros : List String
  macros : List Macro.Template
  deriving DecidableEq, Repr

namespace Settings

def currentVersion : Nat := 1

def quickSlots : Nat := 5

def maxQuickText : Nat := 63

def noQuickMacros : List String := List.replicate quickSlots ""

def initial : Settings := ⟨currentVersion, {}, noQuickMacros, []⟩

def resize (texts : List String) : List String :=
  texts.take quickSlots ++ List.replicate (quickSlots - texts.length) ""

def isSlot (slot : Nat) : Bool := 1 ≤ slot && slot ≤ quickSlots

def quickMacro? (s : Settings) (slot : Nat) : Option String :=
  if isSlot slot then s.quickMacros[slot - 1]? else none

/-- Sets the text of a quick macro, cut to what a slot holds; tells whether there is such a
slot. -/
def setQuickMacro (s : Settings) (slot : Nat) (text : String) : Bool × Settings :=
  if isSlot slot then
    let texts := if s.quickMacros.length < quickSlots then resize s.quickMacros else s.quickMacros
    (true, { s with quickMacros := texts.set (slot - 1) (Text.cut maxQuickText text) })
  else (false, s)

def normalize (s : Settings) : Settings :=
  { s with quickMacros := (resize s.quickMacros).map (Text.cut maxQuickText) }

def library (s : Settings) : Macro.Library := .ofList s.macros

def names : List String := ["version", "config", "quick_macros", "macros"]

def toJson (s : Settings) : Json :=
  .ofMembers [
    ("version", .ofInt s.version),
    ("config", s.config.toJson),
    ("quick_macros", .array (s.quickMacros.map .ofString)),
    ("macros", .array (s.macros.map (·.toJson)))]

def ofJson? (j : Json) : Option Settings := do
  match ← j.fields? names with
  | [version, config, quickMacros, macros] =>
    return {
      version := ← Json.required? (Json.nat? Bounds.max32) version
      config := ← Json.optional? {} Config.ofJson? config
      quickMacros := ← Json.optional? noQuickMacros (Json.items? Json.text?) quickMacros
      macros := ← Json.optional? [] (Json.items? Macro.Template.ofJson?) macros }
  | _ => none

def save (s : Settings) : String := s.toJson.pretty

/-- Loads settings from a document. That it holds no settings is found before their version is
looked at. -/
def ofDocument (j : Json) : Except SettingsError Settings :=
  match ofJson? j with
  | none => .error .unreadable
  | some s =>
    if s.version = currentVersion then .ok s.normalize
    else .error (.unsupportedVersion s.version)

def load (bs : Bytes) : Except SettingsError Settings :=
  match Json.parse? bs with
  | none => .error .unreadable
  | some j => ofDocument j

def loadSafe (bs : Bytes) : Settings :=
  match load bs with
  | .ok s => s
  | .error _ => initial

end Settings

/-- What the user is told about settings that are not loaded, where it does not depend on the
reader. -/
def SettingsError.message? : SettingsError → Option String
  | .unreadable => none
  | .unsupportedVersion version => some s!"Unsupported settings version: {version}"

end RobotScript
