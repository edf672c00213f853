import StrategicRewriting.Term.Basic
import StrategicRewriting.Token.Basic

/-!
Text of terms. The annotations of inner list nodes, of argument lists and of
literal functor names have no place in the text and are left out.
-/
namespace StrategicRewriting

/-- Where a term stands: on its own, or as what begins or continues the
elements between two delimiters. -/
inductive Position where
  | alone
  | first
  | later

/-- What goes before a term that is not a list: as the end of a sequence of
elements it is a spread. -/
def Position.lead : Position → List Char
  | alone => []
  | first => ['*']
  | later => [',', '*']

namespace Term

def renderAt : Position → Term → List Char
  | p, .int _ i => p.lead ++ renderInt i.toInt
  | p, .real _ r => p.lead ++ r.render
  | p, .str _ s => p.lead ++ Text.quote s
  | .alone, .nil _ => ['[', ']']
  | _, .nil _ => []
  | .alone, .cons _ h t => '[' :: renderAt .alone h ++ renderAt .later t ++ [']']
  | .first, .cons _ h t => renderAt .alone h ++ renderAt .later t
  | .later, .cons _ h t => ',' :: renderAt .alone h ++ renderAt .later t
  | p, .appl _ f as =>
    let functor := match f.shape with
      | .str s => s.toList
      | _ => renderAt .alone f
    let args := match f.shape, as.shape with
      | .str _, .nil => []
      | _, _ => '(' :: renderAt .first as ++ [')']
    p.lead ++ functor ++ args
  | p, .wildcard _ => p.lead ++ ['_']
  | p, .var _ x c =>
    p.lead ++ x.toList ++ if c.isUnconstrained then [] else '=' :: renderAt .alone c
  | .alone, .annotated _ b as => renderAt .alone b ++ '{' :: renderAt .first as ++ ['}']
  | p, .annotated _ b as =>
    if b.isList then renderAt p b else renderAt p b ++ '{' :: renderAt .first as ++ ['}']

/-- Text of a term. -/
def render (t : Term) : List Char :=
  t.renderAt .alone

def text (t : Term) : String :=
  String.ofList t.render

end Term

end StrategicRewriting
