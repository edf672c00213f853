import StrategicRewriting.Context

/-!
Strategies: transformations of terms that succeed with a term or fail.
-/
namespace StrategicRewriting

/-- Names of recursive strategies. The traversals have labels of their own, so
that they cannot be confused with those of the strategies they are given. -/
inductive Label where
  | named (name : String)
  /-- The recursion of a traversal into subterms. -/
  | walk
  /-- The recursion of a normalisation into its results. -/
  | normalise
  /-- A recursion that does not exist. -/
  | nowhere
deriving DecidableEq

/-- Strategies. -/
inductive Strategy where
  /-- Return the input. -/
  | ident
  | fail
  /-- Apply the first, then the second to its result. -/
  | seq (first second : Strategy)
  /-- Apply the first; if it fails, the second to the same input. -/
  | choice (first second : Strategy)
  /-- Return the input if the strategy fails. -/
  | not (s : Strategy)
  /-- Return the input if the strategy succeeds. -/
  | test (s : Strategy)
  /-- If the condition succeeds, go on from its result, otherwise from the
  input. -/
  | guarded (cond yes no : Strategy)
  /-- Match a pattern, giving values to its variables. -/
  | pattern (pat : Term)
  /-- Build a term from the values of variables. -/
  | build (pat : Term)
  /-- Turn what the left-hand side matches into the right-hand side. The
  left-hand side has variables of its own. -/
  | rule (lhs rhs : Term)
  /-- Run in a scope that declares variables without values. -/
  | scope (names : List String) (body : Strategy)
  /-- Run in a scope that binds variables to results on the input. -/
  | letIn (bindings : List (String × Strategy)) (body : Strategy)
  /-- Take the value of a variable away. -/
  | unset (name : String)
  /-- Run in a scope that declares empty tables. -/
  | tables (names : List String) (body : Strategy)
  /-- Store the pair of a key and a value. -/
  | tableSet (table : String)
  /-- Store the input with the empty list as value. -/
  | tableAdd (table : String)
  /-- Return the value of the input. -/
  | tableGet (table : String)
  | tableErase (table : String)
  | tableClear (table : String)
  /-- Run both from the same contents of tables, then merge their contents. -/
  | join (left right : Strategy) (merge : Merge)
  /-- Run until the merged tables do not change any more. -/
  | iterate (body : Strategy) (merge : Merge)
  /-- Apply to all elements of a list. -/
  | map (s : Strategy)
  /-- Keep the elements of a list for which the strategy succeeds. -/
  | filter (s : Strategy)
  /-- Apply to the first element for which the strategy succeeds. -/
  | fetch (s : Strategy)
  /-- Apply to all immediate subterms. -/
  | all (s : Strategy)
  /-- Apply to the first immediate subterm for which the strategy succeeds. -/
  | one (s : Strategy)
  /-- Apply to those immediate subterms for which the strategy succeeds, at
  least one. -/
  | atLeastOne (s : Strategy)
  /-- Succeed on the empty list. -/
  | nil
  /-- Apply to the head and the tail of a list. -/
  | cons (head tail : Strategy)
  /-- Apply to the functor name and the argument list of an application. -/
  | appl (functor args : Strategy)
  /-- Apply to the arguments of an application of the name, one by one. -/
  | congruent (name : String) (args : List Strategy)
  /-- A strategy that may call itself. -/
  | recursive (label : Label) (body : Strategy)
  /-- Call of the innermost recursive strategy of the label. -/
  | call (label : Label)
  /-- Apply until the strategy fails. -/
  | repeat (s : Strategy)
  | setAnno (anno : Term)
  /-- Return the first annotation of the name. -/
  | getAnno (name : String)
  | removeAnno (name : String)
  | strip
  | length
  | reverse
  /-- Concatenate a list of lists. -/
  | concat
  | add
  | sub
  | mul
  | lt
  | gt
  /-- Succeed on a pair of equivalent terms. -/
  | eq
  /-- Report the input. -/
  | trace (label : String)
  /-- A strategy defined elsewhere; the number tells definitions apart. -/
  | defined (id : Nat) (s : Strategy)

namespace Strategy

/-- Apply a strategy, returning the input if it fails. -/
def attempt (s : Strategy) : Strategy :=
  choice s ident

/-- A call that reaches no recursive strategy. -/
def dangling : Strategy :=
  call .nowhere

/-- A strategy that calls itself on subterms. -/
def walk (body : Strategy → Strategy) : Strategy :=
  recursive .walk (body (call .walk))

/-- Apply to a term, then to the subterms of the result, and so on. -/
def topdown (s : Strategy) : Strategy :=
  walk fun x => seq s (all x)

/-- Top-down, but not into terms on which `stop` succeeds. -/
def topdownStop (s stop : Strategy) : Strategy :=
  walk fun x => seq s (choice stop (all x))

/-- Apply to the subterms of a term, and so on, then to the term itself. -/
def bottomup (s : Strategy) : Strategy :=
  walk fun x => seq (all x) s

/-- Bottom-up, but not into terms on which `stop` succeeds. -/
def bottomupStop (s stop : Strategy) : Strategy :=
  walk fun x => seq (choice stop (all x)) s

/-- Apply `down` on the way down and `up` on the way up. -/
def downup (down up : Strategy) : Strategy :=
  walk fun x => seq down (seq (all x) up)

/-- Apply to all outermost terms on which the strategy succeeds. -/
def alltd (s : Strategy) : Strategy :=
  walk fun x => choice s (all x)

/-- Apply to the first term on which the strategy succeeds, top-down. -/
def oncetd (s : Strategy) : Strategy :=
  walk fun x => choice s (one x)

/-- Apply to the first term on which the strategy succeeds, bottom-up. -/
def oncebu (s : Strategy) : Strategy :=
  walk fun x => choice (one x) s

/-- Normalise a term, the innermost subterms first. -/
def innermost (s : Strategy) : Strategy :=
  recursive .normalise (bottomup (attempt (seq s (call .normalise))))

/-- Sequence of one or more strategies. -/
def seqAll (s : Strategy) : List Strategy → Strategy
  | [] => s
  | s' :: ss => seq s (seqAll s' ss)

/-- Choice of one or more strategies. -/
def choiceAll (s : Strategy) : List Strategy → Strategy
  | [] => s
  | s' :: ss => choice s (choiceAll s' ss)

end Strategy

end StrategicRewriting
