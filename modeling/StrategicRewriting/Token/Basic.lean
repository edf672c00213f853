import StrategicRewriting.Double.Decimal
import StrategicRewriting.Text.Quoted

/-!
Tokens of the textual term format and their printed form.
-/
namespace StrategicRewriting

inductive Token where
  | openBracket
  | closeBracket
  | openParen
  | closeParen
  | openBrace
  | closeBrace
  | comma
  | star
  | equals
  | underscore
  | int (value : Int64)
  | real (value : Double)
  | str (text : String)
  /-- A name that starts with a capital letter and stands for itself. -/
  | upperId (name : String)
  /-- A name that stands for a variable. -/
  | lowerId (name : String)
  /-- Input that is no token. -/
  | unknown
deriving DecidableEq

/-- Decimal text of an integer. -/
def renderInt (i : Int) : List Char :=
  if i < 0 then '-' :: Nat.toDigits 10 i.natAbs else Nat.toDigits 10 i.natAbs

/-- Printed form of a token; unknown input has none. -/
def Token.render? : Token → Option (List Char)
  | .openBracket => some ['[']
  | .closeBracket => some [']']
  | .openParen => some ['(']
  | .closeParen => some [')']
  | .openBrace => some ['{']
  | .closeBrace => some ['}']
  | .comma => some [',']
  | .star => some ['*']
  | .equals => some ['=']
  | .underscore => some ['_']
  | .int i => some (renderInt i.toInt)
  | .real r => some r.render
  | .str s => some (Text.quote s)
  | .upperId s | .lowerId s => some s.toList
  | .unknown => none

end StrategicRewriting
