import RobotScript.Chars.Blank
/-!
The arguments of a line as tokens: quoted texts, single quoted characters, and bare words that
end at the next blank.
-/
namespace RobotScript

inductive Token where
  | bare (word : List Char)
  | quoted (text : List Char)
  | char (c : Char)
  deriving DecidableEq, Repr

namespace Token

def source : Token → List Char
  | bare word => word
  | quoted text => '"' :: text ++ ['"']
  | char c => ['\'', c, '\'']

theorem length_dropWhile_le {α : Type} (p : α → Bool) (l : List α) :
    (l.dropWhile p).length ≤ l.length :=
  (List.dropWhile_sublist p).length_le

/-- Splits a text into tokens; `none` when a quote is not closed. A double quote closes at the
next double quote, a single quote right after one character. Inside a bare word quotes are
characters like others. -/
def scan? (cs : List Char) : Option (List Token) :=
  match cs with
  | [] => some []
  | c :: rest =>
    if Chars.isBlank c then scan? rest
    else if c = '"' then
      match _h : rest.dropWhile (· != '"') with
      | [] => none
      | _ :: after => do return .quoted (rest.takeWhile (· != '"')) :: (← scan? after)
    else if c = '\'' then
      match rest with
      | x :: '\'' :: after => do return .char x :: (← scan? after)
      | _ => none
    else do
      let after ← scan? (rest.dropWhile (! Chars.isBlank ·))
      return .bare (c :: rest.takeWhile (! Chars.isBlank ·)) :: after
termination_by cs.length
decreasing_by
  · simp
  · have := length_dropWhile_le (· != '"') rest
    simp only [_h, List.length_cons] at this ⊢
    omega
  · simp only [List.length_cons]
    omega
  · have := length_dropWhile_le (! Chars.isBlank ·) rest
    simp only [List.length_cons]
    omega

end Token

end RobotScript
