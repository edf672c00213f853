import StrategicRewriting.Format.Options
import StrategicRewriting.Format.Tokens
import StrategicRewriting.Strategy.Eval
import StrategicRewriting.Strategy.Simplify
import StrategicRewriting.Text.Visible

/-!
The formatter: prints the terms of files, one term a line. It is a function
from the arguments and the contents of the files to what it prints, what it
reports and how it ends.
-/
namespace StrategicRewriting.Format

/-- Reasons to give up. -/
inductive Failure where
  /-- A file is missing or is not text. -/
  | io
  | parse (e : ParseError)
  | fatal (e : Fatal)
  /-- A printed term was read back as another one. -/
  | mismatch (printed again : String)

def Failure.text : Failure → String
  | io => "Io"
  | parse e => "Parse(" ++ e.name ++ ")"
  | fatal e => "Transf(" ++ e.name ++ ")"
  | mismatch printed again =>
    "Mismatch(" ++ Text.reveal printed ++ ", " ++ Text.reveal again ++ ")"

/-- How the program ends. -/
inductive Ending where
  | success
  | failed (reason : Failure)
  | misused
  /-- The program broke down. -/
  | crashed

def Ending.code : Ending → Nat
  | success => 0
  | failed _ => 1
  | misused => 2
  | crashed => 101

/-- What the program has done so far. -/
structure Progress where
  factory : Factory
  output : List Char
  /-- The events so far, the latest one first. -/
  log : List Event
  /-- What can still be read from the standard input. -/
  input : ByteArray

/-- A step of the program, which may end it. -/
abbrev Step := ExceptT Ending (StateM Progress)

namespace Step

def print (text : List Char) : Step Unit :=
  modify fun p => { p with output := p.output ++ text }

def report (e : Event) : Step Unit :=
  modify fun p => { p with log := e :: p.log }

def fail {α : Type} (reason : Failure) : Step α :=
  throw (.failed reason)

/-- A shared term. -/
def share (w : Written) : Step Term :=
  modifyGet fun p =>
    let (t, f) := p.factory.number (Factory.share w)
    (t, { p with factory := f })

/-- A term from its text. -/
def parse (src : String) : Step Term := do
  match (← get).factory.parse src with
  | .ok r =>
    modify fun p => { p with factory := r.factory }
    match r.evicted with
    | some old => report (.evict old)
    | none => pure ()
    pure r.term
  | .error e => fail (.parse e)

/-- The contents of a file. The name `-` stands for the standard input, which is
used up by reading it. -/
def read (files : String → Option ByteArray) (name : String) : Step String := do
  let bytes ←
    if name = "-" then
      let input := (← get).input
      modify fun p => { p with input := .empty }
      pure (some input)
    else pure (files name)
  match bytes.bind String.fromUTF8? with
  | some text => pure text
  | none => fail .io

/-- Print the tokens of a text. An unknown token has no text, so the program
breaks down at it, unless it is to print nothing. -/
def tokens (o : Options) (src : String) : Step Unit := do
  let ts := Token.lex src.toList
  if o.quiet then
    ts.forM fun t => if t = .unknown then report .unknownToken else pure ()
  else
    let (text, complete) := renderTokens false ts
    print text
    if !complete then
      report .unknownToken
      throw .crashed

/-- The strategy that removes all annotations it can reach. -/
def stripper : Strategy :=
  (Strategy.bottomup .strip).simplify

def strip (o : Options) (t : Term) : Step Term :=
  if o.strip then
    match (stripper.run t).1 with
    | .ok t => pure t
    | .fatal e => fail (.fatal e)
    | .failure | .exhausted => pure t
  else pure t

/-- Verify that a printed term is read back as the same term. -/
def verify (printed : String) (t : Term) : Step Unit := do
  let reparsed ← parse printed
  let again := reparsed.text
  if !reparsed.equal t || again != printed then
    report (.mismatch printed again)
    fail (.mismatch printed again)

def term (o : Options) (w : Written) : Step Unit := do
  let t ← share w
  report .termParsed
  let t ← strip o t
  let printed := t.text
  if o.check then verify printed t
  if !o.quiet then print (printed.toList ++ ['\n'])

def terms (o : Options) : List (Except ParseError Written) → Step Unit
  | [] => pure ()
  | .error e :: _ => fail (.parse e)
  | .ok w :: rest => do
    term o w
    terms o rest

def file (o : Options) (files : String → Option ByteArray) (name : String) : Step Unit := do
  report (.processing name)
  let src ← read files name
  if o.lex then tokens o src else terms o (Written.parseAll src)

/-- Process all files, one after the other. -/
def all (o : Options) (files : String → Option ByteArray) : Step Unit := do
  o.files.forM (file o files)
  report (.cacheSize (← get).factory.cache.size)

end Step

/-- What the program printed and reported, and how it ended. -/
structure Report where
  ending : Ending
  output : String
  events : List Event

/-- Caches beyond this size do not fit into any memory. -/
def maxCapacity : Nat := 7 * 0x80000000000000

/-- Help on the command line. -/
def helpText : String :=
  String.join [
    "Prints the terms of files, one term a line.\n\n",
    "Usage: [OPTIONS] <FILE>...\n\n",
    "  <FILE>...    Files to process, \"-\" for the standard input\n",
    "  --lex        Print tokens instead of terms\n",
    "  --strip      Remove all annotations\n",
    "  --check      Verify that printed terms are read back as the same terms\n",
    "  --quiet      Print nothing\n",
    "  --cache <N>  Number of parsed terms to remember, by default 4096\n",
    "  -h, --help   Print this help\n"]

/-- Run the program on files and a standard input. -/
def run (args : List String) (files : String → Option ByteArray) (input : ByteArray) : Report :=
  match Command.parse args with
  | .misuse => ⟨.misused, "", []⟩
  | .help => ⟨.success, helpText, []⟩
  | .format o =>
    if maxCapacity < o.capacity then ⟨.crashed, "", []⟩
    else
      let (result, p) := Step.all o files ⟨.withCapacity o.capacity, [], [], input⟩
      let ending := match result with
        | .ok () => .success
        | .error e => e
      ⟨ending, String.ofList p.output, p.log.reverse⟩

end StrategicRewriting.Format
