/-!
Quoted strings: quotes, backslashes, tabs and line ends are written with a
backslash, everything else as it is.
-/
namespace StrategicRewriting.Text

/-- One character as it stands between the quotes. -/
def escapeChar : Char → List Char
  | '\t' => ['\\', 't']
  | '\r' => ['\\', 'r']
  | '\n' => ['\\', 'n']
  | '"' => ['\\', '"']
  | '\\' => ['\\', '\\']
  | c => [c]

def escape (cs : List Char) : List Char :=
  cs.flatMap escapeChar

/-- The character that a backslash and `c` stand for. -/
def unescapeChar : Char → Char
  | 't' => '\t'
  | 'r' => '\r'
  | 'n' => '\n'
  | c => c

/-- The characters that the text between the quotes stands for. A backslash
at the end stands for nothing. -/
def unescape : List Char → List Char
  | [] => []
  | ['\\'] => []
  | '\\' :: c :: cs => unescapeChar c :: unescape cs
  | c :: cs => c :: unescape cs

def quote (s : String) : List Char :=
  '"' :: escape s.toList ++ ['"']

end StrategicRewriting.Text
