import StrategicRewriting.Token.Lexer

/-!
Text of a sequence of tokens, on one line. Blanks are left out where brackets,
commas and the like keep tokens apart.
-/
namespace StrategicRewriting.Format

def noSpaceAfter : Token → Bool
  | .openBracket | .openParen | .openBrace | .star | .equals => true
  | _ => false

def noSpaceBefore : Token → Bool
  | .closeBracket | .closeParen | .openParen | .openBrace | .closeBrace | .comma | .equals => true
  | _ => false

/-- Text of tokens up to the first unknown one, and whether there is one.
`space` tells whether the token before asks for a blank. -/
def renderTokens (space : Bool) : List Token → List Char × Bool
  | [] => (if space then ['\n'] else [], true)
  | t :: ts =>
    let lead := if space && !noSpaceBefore t then [' '] else []
    match t.render? with
    | none => (lead, false)
    | some text =>
      let (rest, complete) := renderTokens (!noSpaceAfter t) ts
      (lead ++ text ++ rest, complete)

end StrategicRewriting.Format
