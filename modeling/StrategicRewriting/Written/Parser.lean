import StrategicRewriting.Token.Lexer
import StrategicRewriting.Written.Basic

/-!
Reading terms from tokens with one token of lookahead. Annotations belong to
the innermost term before them. Every call passes on fewer tokens or descends
one of four levels, so four times the number of tokens bounds the recursion.
-/
namespace StrategicRewriting

inductive ParseError where
  | expectedTerm
  | expectedCommaOrBracket
  | expectedCommaOrParen
  | expectedCommaOrBrace
  /-- A spread was followed by another element. -/
  | spreadNotLast
  /-- A spread was neither a variable, a wildcard, nor a list. -/
  | spreadNotList
  /-- A list was nothing but a spread variable or wildcard. -/
  | spreadAlone
  | unknownToken
  | trailingInput
deriving DecidableEq

namespace ParseError

def message : ParseError → String
  | expectedTerm => "term expected"
  | expectedCommaOrBracket => "',' or ']' expected"
  | expectedCommaOrParen => "',' or ')' expected"
  | expectedCommaOrBrace => "',' or '\x7d' expected"
  | spreadNotLast => "spread element must be last"
  | spreadNotList => "spread element must be a variable, wildcard, or list"
  | spreadAlone => "spread variable must be preceded by a list element"
  | unknownToken => "unknown token"
  | trailingInput => "trailing input after term"

/-- The word for the error in a failure report. -/
def name : ParseError → String
  | expectedTerm => "ExpectedTerm"
  | expectedCommaOrBracket => "ExpectedCommaOrRBrk"
  | expectedCommaOrParen => "ExpectedCommaOrRPar"
  | expectedCommaOrBrace => "ExpectedCommaOrRBrc"
  | spreadNotLast => "SpreadNotLast"
  | spreadNotList => "SpreadNotList"
  | spreadAlone => "SpreadAlone"
  | unknownToken => "UnknownToken"
  | trailingInput => "TrailingInput"

end ParseError

/-- What ends a sequence of elements. -/
inductive Closer where
  | bracket
  | paren
  | brace

def Closer.token : Closer → Token
  | bracket => .closeBracket
  | paren => .closeParen
  | brace => .closeBrace

/-- The error for a sequence that neither goes on nor ends. -/
def Closer.missing : Closer → ParseError
  | bracket => .expectedCommaOrBracket
  | paren => .expectedCommaOrParen
  | brace => .expectedCommaOrBrace

namespace Written

/-- Elements between two delimiters. -/
structure Elements where
  items : List Written
  spread : Option Written

/-- A list consists of more than a spread variable or wildcard. -/
def ofElements : Elements → Except ParseError Written
  | ⟨[], some (.var ..)⟩ | ⟨[], some .wildcard⟩ => .error .spreadAlone
  | ⟨items, spread⟩ => .ok (.list items spread)

mutual

/-- A term with its annotations, and the tokens after it. -/
def term : Nat → List Token → Except ParseError (Written × List Token)
  | 0, _ => .error .expectedTerm
  | n + 1, ts => do
    let (w, ts) ← atom n ts
    match ts with
    | .openBrace :: ts =>
      let (es, ts) ← elements n .brace ts
      match es.spread with
      | none => .ok (.annotated w es.items, ts)
      | some _ => .error .spreadNotList
    | ts => .ok (w, ts)

/-- A term without annotations. -/
def atom : Nat → List Token → Except ParseError (Written × List Token)
  | 0, _ => .error .expectedTerm
  | n + 1, ts =>
    match ts with
    | .int i :: ts => .ok (.int i, ts)
    | .real r :: ts => .ok (.real r, ts)
    | .str s :: ts => .ok (.str s, ts)
    | .openBracket :: .closeBracket :: ts => .ok (.list [] none, ts)
    | .openBracket :: ts => do
      let (es, ts) ← elements n .bracket ts
      let w ← ofElements es
      .ok (w, ts)
    | .upperId s :: .openParen :: ts => arguments n (.name s) ts
    | .upperId s :: ts => .ok (.appl (.name s) [] none, ts)
    | .lowerId x :: .openParen :: ts => arguments n (.var x) ts
    | .lowerId x :: .equals :: ts => do
      let (p, ts) ← term n ts
      .ok (.var x (some p), ts)
    | .lowerId x :: ts => .ok (.var x none, ts)
    | .underscore :: .openParen :: ts => arguments n .wildcard ts
    | .underscore :: ts => .ok (.wildcard, ts)
    | .unknown :: _ => .error .unknownToken
    | _ => .error .expectedTerm

/-- The arguments of an application, after the opening parenthesis. -/
def arguments : Nat → Functor → List Token → Except ParseError (Written × List Token)
  | 0, _, _ => .error .expectedTerm
  | n + 1, fn, ts =>
    match ts with
    | .closeParen :: ts => .ok (.appl fn [] none, ts)
    | ts => do
      let (es, ts) ← elements n .paren ts
      .ok (.appl fn es.items es.spread, ts)

/-- One or more elements, separated by commas, up to the closer. A spread
stands last. -/
def elements : Nat → Closer → List Token → Except ParseError (Elements × List Token)
  | 0, _, _ => .error .expectedTerm
  | n + 1, closer, ts =>
    match ts with
    | .star :: ts => do
      let (w, ts) ← term n ts
      if w.isSpreadable then
        match ts with
        | .comma :: _ => .error .spreadNotLast
        | t :: ts => if t = closer.token then .ok (⟨[], some w⟩, ts) else .error closer.missing
        | [] => .error closer.missing
      else .error .spreadNotList
    | ts => do
      let (w, ts) ← term n ts
      match ts with
      | .comma :: ts =>
        let (es, ts) ← elements n closer ts
        .ok (⟨w :: es.items, es.spread⟩, ts)
      | t :: ts => if t = closer.token then .ok (⟨[w], none⟩, ts) else .error closer.missing
      | [] => .error closer.missing

end

/-- Recursion depth that suffices for the given tokens. -/
def depthBound (ts : List Token) : Nat :=
  4 * ts.length + 4

/-- The term at the beginning of the tokens, and the tokens after it. -/
def readTerm (ts : List Token) : Except ParseError (Written × List Token) :=
  term (depthBound ts) ts

/-- The only term of the tokens. -/
def ofTokens (ts : List Token) : Except ParseError Written := do
  let (w, rest) ← readTerm ts
  match rest with
  | [] => .ok w
  | _ :: _ => .error .trailingInput

/-- The only term of a text. -/
def parse (src : String) : Except ParseError Written :=
  ofTokens (Token.lex src.toList)

/-- At most `n` terms, up to the first error. -/
def readTerms : Nat → List Token → List (Except ParseError Written)
  | _, [] => []
  | 0, _ :: _ => []
  | n + 1, ts =>
    match readTerm ts with
    | .ok (w, rest) => .ok w :: readTerms n rest
    | .error e => [.error e]

/-- All terms of a text, up to the first error. A term takes at least one token. -/
def parseAll (src : String) : List (Except ParseError Written) :=
  let ts := Token.lex src.toList
  readTerms ts.length ts

end Written

end StrategicRewriting
