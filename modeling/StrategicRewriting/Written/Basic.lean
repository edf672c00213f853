import StrategicRewriting.Token.Basic

/-!
Terms as they are written, before their nodes are shared. Spreads, missing
constraints and empty argument lists are kept as the text has them.
-/
namespace StrategicRewriting

/-- What stands before the arguments of an application. -/
inductive Functor where
  | name (text : String)
  | var (name : String)
  | wildcard
deriving DecidableEq

def Functor.mapNames (f : String → String) : Functor → Functor
  | .name s => .name (f s)
  | .var x => .var (f x)
  | .wildcard => .wildcard

inductive Written where
  | int (value : Int64)
  | real (value : Double)
  | str (text : String)
  | list (elems : List Written) (spread : Option Written)
  | appl (functor : Functor) (args : List Written) (spread : Option Written)
  | wildcard
  | var (name : String) (constraint : Option Written)
  | annotated (term : Written) (annos : List Written)

namespace Written

mutual

/-- Apply a function to all identifiers. -/
def mapNames (f : String → String) : Written → Written
  | .int i => .int i
  | .real r => .real r
  | .str s => .str s
  | .list es s => .list (mapNamesAll f es) (mapNamesOption f s)
  | .appl fn es s => .appl (fn.mapNames f) (mapNamesAll f es) (mapNamesOption f s)
  | .wildcard => .wildcard
  | .var x p => .var (f x) (mapNamesOption f p)
  | .annotated w as => .annotated (mapNames f w) (mapNamesAll f as)

def mapNamesAll (f : String → String) : List Written → List Written
  | [] => []
  | w :: ws => mapNames f w :: mapNamesAll f ws

def mapNamesOption (f : String → String) : Option Written → Option Written
  | none => none
  | some w => some (mapNames f w)

end

/-- Variables, wildcards and lists may stand for the rest of a list. -/
def isSpreadable : Written → Bool
  | .var .. | .wildcard | .list .. => true
  | _ => false

end Written

end StrategicRewriting
