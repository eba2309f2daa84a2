import RobotScript.Chars.Split
import RobotScript.Token
/-!
The lines of a macro split into literal text and references. A reference is written `!name!`,
`!name:d!` or `!name:x!`, with a name of ASCII letters, digits and underscores. References are
found from left to right; a mark that opens none is literal, and the mark behind it may open one.
-/
namespace RobotScript.Macro

inductive Format where
  | decimal
  | hex
  deriving DecidableEq, Repr

inductive Fragment where
  | literal (text : List Char)
  | reference (name : List Char) (format : Option Format)
  deriving DecidableEq, Repr

namespace Fragment

def isName (cs : List Char) : Bool :=
  !cs.isEmpty && cs.all fun c => c.isAlphanum || c == '_'

def ofInner? (inner : List Char) : Option Fragment :=
  match Chars.splitOnce ':' inner with
  | none => if isName inner then some (reference inner none) else none
  | some (name, ['x']) => if isName name then some (reference name (some .hex)) else none
  | some (name, ['d']) => if isName name then some (reference name (some .decimal)) else none
  | some _ => none

def source : Fragment → List Char
  | literal text => text
  | reference name none => '!' :: name ++ ['!']
  | reference name (some .decimal) => '!' :: name ++ [':', 'd', '!']
  | reference name (some .hex) => '!' :: name ++ [':', 'x', '!']

def split (line : List Char) : List Fragment :=
  let before := line.takeWhile (· != '!')
  match _h : line.dropWhile (· != '!') with
  | [] => [literal line]
  | _ :: after =>
    match _h' : after.dropWhile (· != '!') with
    | [] => [literal line]
    | _ :: rest =>
      match ofInner? (after.takeWhile (· != '!')) with
      | some r => literal before :: r :: split rest
      | none => literal (before ++ ['!']) :: split after
termination_by line.length
decreasing_by
  · have h₁ := Token.length_dropWhile_le (· != '!') line
    have h₂ := Token.length_dropWhile_le (· != '!') after
    simp only [_h, _h', List.length_cons] at h₁ h₂
    omega
  · have h₁ := Token.length_dropWhile_le (· != '!') line
    simp only [_h, List.length_cons] at h₁
    omega

end Fragment

end RobotScript.Macro
