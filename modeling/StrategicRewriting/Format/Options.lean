import StrategicRewriting.Factory.Basic

/-!
The command line of the formatter.
-/
namespace StrategicRewriting.Format

structure Options where
  /-- Print tokens instead of terms. -/
  lex : Bool
  /-- Remove all annotations. -/
  strip : Bool
  /-- Verify that printed terms are read back as the same terms. -/
  check : Bool
  /-- Print nothing. -/
  quiet : Bool
  /-- Number of parsed terms to remember. -/
  cache : Option Nat
  files : List String

namespace Options

def initial : Options := ⟨false, false, false, false, none, []⟩

def capacity (o : Options) : Nat :=
  o.cache.getD Factory.defaultCapacity

end Options

/-- What the arguments ask for. -/
inductive Command where
  | format (o : Options)
  | help
  /-- The arguments make no sense. -/
  | misuse

/-- A number of at most 64 bits, with an optional plus sign. -/
def number? (s : String) : Option Nat :=
  let ds := match s.toList with
    | '+' :: ds => ds
    | ds => ds
  if !ds.isEmpty && ds.all Char.isDigit && Nat.ofDigitChars 10 ds 0 < UInt64.size then
    some (Nat.ofDigitChars 10 ds 0)
  else none

namespace Command

/-- There is at least one file, and every file has a name. -/
def finish (o : Options) (files : List String) : Command :=
  if (o.files ++ files).isEmpty || files.any String.isEmpty then misuse
  else format { o with files := o.files ++ files }

/-- The cache size may be given once. -/
def withCache? (o : Options) (value : String) : Option Options :=
  match o.cache, number? value with
  | none, some n => some { o with cache := some n }
  | _, _ => none

/-- A flag or a file. Flags may be given once, and what starts with a dash is
no file, except for a dash alone. -/
def withWord? (o : Options) (word : String) : Option Options :=
  match word with
  | "--lex" => if o.lex then none else some { o with lex := true }
  | "--strip" => if o.strip then none else some { o with strip := true }
  | "--check" => if o.check then none else some { o with check := true }
  | "--quiet" => if o.quiet then none else some { o with quiet := true }
  | "-" => some { o with files := o.files ++ [word] }
  | _ =>
    match word.toList with
    | [] | '-' :: _ => none
    | _ => some { o with files := o.files ++ [word] }

/-- The value in a word of the form `--cache=value`. -/
def cacheValue? (word : String) : Option String :=
  let key := "--cache=".toList
  if key.isPrefixOf word.toList then some (String.ofList (word.toList.drop key.length))
  else none

/-- Read the arguments one by one. After two dashes there are only files. -/
def parseFrom (o : Options) : List String → Command
  | [] => finish o []
  | "--" :: files => finish o files
  | "--help" :: _ | "-h" :: _ => help
  | "--cache" :: value :: rest =>
    match withCache? o value with
    | some o => parseFrom o rest
    | none => misuse
  | word :: rest =>
    match cacheValue? word with
    | some value =>
      match withCache? o value with
      | some o => parseFrom o rest
      | none => misuse
    | none =>
      match withWord? o word with
      | some o => parseFrom o rest
      | none => misuse

def parse (args : List String) : Command :=
  parseFrom .initial args

end Command

end StrategicRewriting.Format
