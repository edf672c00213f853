import StrategicRewriting.Token.Basic

/-!
Splitting a text into tokens. At every position the longest lexeme is taken;
blanks separate tokens and leave no trace.
-/
namespace StrategicRewriting

/-- Blanks are space, tab, carriage return, line feed and form feed. -/
def isBlank (c : Char) : Bool :=
  c == ' ' || c == '\t' || c == '\r' || c == '\n' || c == '\x0c'

/-- Names continue with letters, digits and underscores, all ASCII. -/
def isNameChar (c : Char) : Bool :=
  c.isUpper || c.isLower || c.isDigit || c == '_'

namespace Token

/-- A token and the number of characters it takes. -/
structure Lexeme where
  token : Token
  length : Nat

/-- The longest initial segment that a string may hold between its quotes, and
whether a closing quote follows it. A backslash takes the next character with
it, which must not be a line feed. -/
def stringBody : List Char → List Char × Bool
  | [] => ([], false)
  | '"' :: _ => ([], true)
  | ['\\'] => ([], false)
  | '\\' :: c :: cs =>
    if c = '\n' then ([], false)
    else
      let (body, closed) := stringBody cs
      ('\\' :: c :: body, closed)
  | c :: cs =>
    let (body, closed) := stringBody cs
    (c :: body, closed)

/-- The token that starts with a quote and goes on with `cs`. A string that is
not closed is unknown as far as it goes. -/
def stringLexeme (cs : List Char) : Lexeme :=
  match stringBody cs with
  | (body, true) => ⟨.str (String.ofList (Text.unescape body)), body.length + 2⟩
  | (body, false) => ⟨.unknown, body.length + 1⟩

/-- An integer token, unknown if it needs more than 64 bits. -/
def ofInt (i : Int) : Token :=
  if Int64.minValue.toInt ≤ i ∧ i ≤ Int64.maxValue.toInt then .int (Int64.ofInt i) else .unknown

def digitsValue (ds : List Char) : Nat :=
  Nat.ofDigitChars 10 ds 0

/-- An exponent part at the beginning of `cs`: its value and its length. It is
absent, of length zero, unless at least one digit follows the mark and sign. -/
def exponentPart (cs : List Char) : Int × Nat :=
  match cs with
  | [] => (0, 0)
  | e :: rest =>
    if e = 'e' ∨ e = 'E' then
      match rest with
      | '-' :: ds =>
        let digits := ds.takeWhile Char.isDigit
        if digits.isEmpty then (0, 0) else (-digitsValue digits, digits.length + 2)
      | '+' :: ds =>
        let digits := ds.takeWhile Char.isDigit
        if digits.isEmpty then (0, 0) else (digitsValue digits, digits.length + 2)
      | ds =>
        let digits := ds.takeWhile Char.isDigit
        if digits.isEmpty then (0, 0) else (digitsValue digits, digits.length + 1)
    else (0, 0)

/-- An unsigned number at the beginning of `cs`; `negative` tells whether a
minus sign went before it. A real has a point and at least one digit beside
it, and may have an exponent. -/
def numberLexeme? (negative : Bool) (cs : List Char) : Option Lexeme :=
  let whole := cs.takeWhile Char.isDigit
  match cs.dropWhile Char.isDigit with
  | '.' :: afterPoint =>
    let fraction := afterPoint.takeWhile Char.isDigit
    if whole.isEmpty && fraction.isEmpty then none
    else
      let (e, n) := exponentPart (afterPoint.dropWhile Char.isDigit)
      let value : Decimal := ⟨negative, digitsValue (whole ++ fraction), e - fraction.length⟩
      some ⟨.real value.toDouble, whole.length + 1 + fraction.length + n⟩
  | _ =>
    if whole.isEmpty then none
    else
      let n : Int := digitsValue whole
      some ⟨ofInt (if negative then -n else n), whole.length⟩

/-- A name: the character `c` and the name characters after it. -/
def nameLexeme (mk : String → Token) (c : Char) (cs : List Char) : Lexeme :=
  let name := c :: cs.takeWhile isNameChar
  ⟨mk (String.ofList name), name.length⟩

/-- The longest lexeme at the beginning of `c :: cs`. A character that starts no
token is unknown by itself. -/
def lexeme (c : Char) (cs : List Char) : Lexeme :=
  match c with
  | '[' => ⟨.openBracket, 1⟩
  | ']' => ⟨.closeBracket, 1⟩
  | '(' => ⟨.openParen, 1⟩
  | ')' => ⟨.closeParen, 1⟩
  | '{' => ⟨.openBrace, 1⟩
  | '}' => ⟨.closeBrace, 1⟩
  | ',' => ⟨.comma, 1⟩
  | '*' => ⟨.star, 1⟩
  | '=' => ⟨.equals, 1⟩
  | '"' => stringLexeme cs
  | '-' =>
    match numberLexeme? true cs with
    | some l => ⟨l.token, l.length + 1⟩
    | none => ⟨.unknown, 1⟩
  | c =>
    if c.isUpper then nameLexeme .upperId c cs
    else if c.isLower then nameLexeme .lowerId c cs
    else if c = '_' then
      if (cs.takeWhile isNameChar).isEmpty then ⟨.underscore, 1⟩ else nameLexeme .lowerId c cs
    else (numberLexeme? false (c :: cs)).getD ⟨.unknown, 1⟩

/-- The tokens of a text whose first `skip` characters are already taken. -/
def scan (skip : Nat) : List Char → List Token
  | [] => []
  | c :: cs =>
    match skip with
    | n + 1 => scan n cs
    | 0 =>
      if isBlank c then scan 0 cs
      else
        let l := lexeme c cs
        l.token :: scan (l.length - 1) cs

/-- Skipping characters is dropping them. -/
theorem scan_eq_scan_drop (n : Nat) (cs : List Char) : scan n cs = scan 0 (cs.drop n) := by
  induction cs generalizing n with
  | nil => cases n <;> simp [scan]
  | cons c cs ih =>
    cases n with
    | zero => rfl
    | succ n => simp only [scan, List.drop_succ_cons, ih n]

/-- The tokens of a text. -/
def lex (cs : List Char) : List Token :=
  scan 0 cs

/-- A lexeme at the beginning of a text is its first token. -/
theorem lex_of_lexeme (c : Char) (cs : List Char) {rest : List Char} {t : Token}
    (hb : isBlank c = false) (h : lexeme c (cs ++ rest) = ⟨t, cs.length + 1⟩) :
    lex (c :: cs ++ rest) = t :: lex rest := by
  have hskip : scan cs.length (cs ++ rest) = scan 0 rest := by
    rw [scan_eq_scan_drop, List.drop_left]
  simp [lex, scan, hb, h, hskip]

end Token

end StrategicRewriting
