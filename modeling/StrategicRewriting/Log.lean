import StrategicRewriting.Term.Printer

/-!
Events that are reported while terms are processed.
-/
namespace StrategicRewriting

/-- Levels of events, the most important one first. -/
inductive Level where
  | error
  | warn
  | info
  | debug
  | trace
deriving DecidableEq

namespace Level

def rank : Level → Nat
  | error => 0
  | warn => 1
  | info => 2
  | debug => 3
  | trace => 4

def name : Level → String
  | error => "ERROR"
  | warn => "WARN"
  | info => "INFO"
  | debug => "DEBUG"
  | trace => "TRACE"

/-- An event of level `l` is reported up to level `limit`. -/
def within (l limit : Level) : Bool :=
  l.rank ≤ limit.rank

end Level

inductive Event where
  /-- A rule turned its input into another term. -/
  | ruleApplied (input output : Term)
  /-- An iteration did not change its tables any more. -/
  | fixpoint
  /-- A strategy was asked to show its input, inside `depth` frames. -/
  | trace (label : String) (depth : Nat) (input : Term)
  /-- A text was pushed out of the parse cache. -/
  | evict (source : String)
  | processing (file : String)
  | termParsed
  | unknownToken
  /-- A printed term was read back as another one. -/
  | mismatch (printed again : String)
  | cacheSize (n : Nat)
deriving DecidableEq

namespace Event

def level : Event → Level
  | ruleApplied .. | fixpoint => .trace
  | trace .. | evict _ | cacheSize _ => .debug
  | processing _ | termParsed => .info
  | unknownToken | mismatch .. => .warn

def message : Event → String
  | ruleApplied t u => "rewrite: " ++ t.text ++ " ~> " ++ u.text
  | fixpoint => "iterate: fixpoint reached"
  | trace label depth t => label ++ " (depth " ++ toString depth ++ "): " ++ t.text
  | evict src => "evict from parse cache: " ++ src
  | processing file => "processing " ++ file
  | termParsed => "term parsed"
  | unknownToken => "unknown token"
  | mismatch printed again =>
    "term does not survive printing: " ++ printed ++ " became " ++ again
  | cacheSize n => toString n ++ " terms in parse cache"

end Event

end StrategicRewriting
