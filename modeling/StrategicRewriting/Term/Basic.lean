import StrategicRewriting.Double.Basic
import StrategicRewriting.Term.Hash

/-!
Terms: integers, reals, strings, lists and applications, with variables and
wildcards in patterns, and annotations on any of them.

A node knows where it comes from. Nodes made by a factory are numbered, so two
of them are told apart even if they look alike. Nodes made later, by building
and rewriting, are derived: they differ from every numbered node, and among
themselves only by what they contain. Two terms are the same node exactly if
they are equal.

This is how statements about the same node have to be read. They are exact if
the nodes that exist before an application are numbered: no node that is made
on the way is equal to one of these, so where one of them is found in a result,
it has been used again. Two derived nodes of equal content count as one node,
and of nodes that are derived already such a statement says that their contents
are equal.
-/
namespace StrategicRewriting

/-- Where a node comes from. -/
inductive Origin where
  | derived
  | serial (n : Nat)
deriving DecidableEq

/-- A term. The functor of an application and the tail of a list are terms
themselves, because patterns may have variables there. An annotated term is one
node: `body` gives its shape and is a node of its own only after stripping. -/
inductive Term where
  | int (origin : Origin) (value : Int64)
  | real (origin : Origin) (value : Double)
  | str (origin : Origin) (text : String)
  | nil (origin : Origin)
  | cons (origin : Origin) (head tail : Term)
  | appl (origin : Origin) (functor args : Term)
  | wildcard (origin : Origin)
  | var (origin : Origin) (name : String) (constraint : Term)
  | annotated (origin : Origin) (body annos : Term)
with
  /-- Hash of the term, ignoring annotations. -/
  @[computed_field] hash : Term → UInt64
    | .int _ i => Fnv.words [0, i.toUInt64]
    | .real _ r => Fnv.words [1, r.bits]
    | .str _ s => Fnv.text (Fnv.words [2]) s
    | .nil _ => Fnv.words [3]
    | .cons _ h t => Fnv.words [4, h.hash, t.hash]
    | .appl _ f as => Fnv.words [5, f.hash, as.hash]
    | .wildcard _ => Fnv.words [6]
    | .var _ x p => Fnv.word (Fnv.text (Fnv.words [7]) x) p.hash
    | .annotated _ b _ => b.hash
  /-- Neither the term nor its annotations contain variables or wildcards. -/
  @[computed_field] isGround : Term → Bool
    | .int .. | .real .. | .str .. | .nil _ => true
    | .cons _ l r | .appl _ l r => l.isGround && r.isGround
    | .wildcard _ | .var .. => false
    | .annotated _ b as => b.isGround && as.isGround
deriving DecidableEq

/-- What a node is, apart from its origin and its annotations. -/
inductive Shape where
  | int (value : Int64)
  | real (value : Double)
  | str (text : String)
  | nil
  | cons (head tail : Term)
  | appl (functor args : Term)
  | wildcard
  | var (name : String) (constraint : Term)

namespace Term

/-- The two terms are the same node. Nodes that are numbered differ from all
other ones; derived nodes are told apart by their contents alone. -/
def same (a b : Term) : Bool :=
  withPtrEq a b (fun _ => a.hash == b.hash && a == b) (by rintro rfl; simp)

theorem same_iff_eq {a b : Term} : a.same b = true ↔ a = b := by
  constructor
  · intro h
    simp only [same, withPtrEq, Bool.and_eq_true, beq_iff_eq] at h
    exact h.2
  · rintro rfl
    simp [same, withPtrEq]

def shape : Term → Shape
  | .int _ i => .int i
  | .real _ r => .real r
  | .str _ s => .str s
  | .nil _ => .nil
  | .cons _ h t => .cons h t
  | .appl _ f as => .appl f as
  | .wildcard _ => .wildcard
  | .var _ x p => .var x p
  | .annotated _ b _ => b.shape

/-- The annotation list, if there is one. -/
def annotations : Term → Option Term
  | .annotated _ _ as => some as
  | _ => none

/-- A node without annotations. -/
def ofShape (o : Origin) : Shape → Term
  | .int i => .int o i
  | .real r => .real o r
  | .str s => .str o s
  | .nil => .nil o
  | .cons h t => .cons o h t
  | .appl f as => .appl o f as
  | .wildcard => .wildcard o
  | .var x p => .var o x p

/-- A derived node. -/
def make (s : Shape) : Option Term → Term
  | none => ofShape .derived s
  | some as => .annotated .derived (ofShape .derived s) as

/-- A derived node of another shape with the same annotations. -/
def withShape (t : Term) (s : Shape) : Term :=
  make s t.annotations

@[simp]
theorem shape_ofShape (o : Origin) (s : Shape) : (ofShape o s).shape = s := by
  cases s <;> rfl

@[simp]
theorem annotations_ofShape (o : Origin) (s : Shape) : (ofShape o s).annotations = none := by
  cases s <;> rfl

@[simp]
theorem shape_make (s : Shape) (annos : Option Term) : (make s annos).shape = s := by
  cases annos <;> exact shape_ofShape .derived s

@[simp]
theorem annotations_make (s : Shape) (annos : Option Term) :
    (make s annos).annotations = annos := by
  cases annos with
  | none => exact annotations_ofShape .derived s
  | some as => rfl

@[simp]
theorem shape_withShape (t : Term) (s : Shape) : (t.withShape s).shape = s := by
  simp [withShape]

@[simp]
theorem annotations_withShape (t : Term) (s : Shape) :
    (t.withShape s).annotations = t.annotations := by
  simp [withShape]

/-- The same node with another origin. -/
def withOrigin (o : Origin) : Term → Term
  | .annotated _ b as => .annotated o b as
  | t => ofShape o t.shape

/-- Derived list of the given elements, followed by `tail`. -/
def listOnto (tail : Term) (elems : List Term) : Term :=
  elems.foldr (.cons .derived) tail

/-- Derived empty list. -/
def empty : Term := .nil .derived

def isList (t : Term) : Bool :=
  match t.shape with
  | .nil | .cons .. => true
  | _ => false

/-- The term may stand at the end of a list. -/
def isTail (t : Term) : Bool :=
  match t.shape with
  | .nil | .cons .. | .var .. | .wildcard => true
  | _ => false

/-- The elements of a list, up to the first tail that is not a list node. -/
def elems : Term → List Term
  | .cons _ h t => h :: t.elems
  | .annotated _ b _ => b.elems
  | _ => []

/-- The elements of a list that ends with the empty list. -/
def toList? : Term → Option (List Term)
  | .nil _ => some []
  | .cons _ h t => t.toList?.map (h :: ·)
  | .annotated _ b _ => b.toList?
  | _ => none

/-- The elements of a list of exactly two elements. -/
def toPair? (t : Term) : Option (Term × Term) :=
  match t.toList? with
  | some [a, b] => some (a, b)
  | _ => none

def toInt? (t : Term) : Option Int64 :=
  match t.shape with
  | .int i => some i
  | _ => none

def toStr? (t : Term) : Option String :=
  match t.shape with
  | .str s => some s
  | _ => none

/-- The name of an application with a literal name. -/
def functorName? (t : Term) : Option String :=
  match t.shape with
  | .appl f _ => f.toStr?
  | _ => none

/-- An unannotated wildcard constrains nothing. -/
def isUnconstrained : Term → Bool
  | .wildcard _ => true
  | _ => false

/-- The names of the variables, each at its first occurrence after `seen`: the
shape from left to right, a variable before its constraint, then the
annotations. -/
def collectVars (t : Term) (seen : List String) : List String :=
  if t.isGround then seen
  else
    match t with
    | .cons _ l r | .appl _ l r | .annotated _ l r => r.collectVars (l.collectVars seen)
    | .var _ x p => p.collectVars (if x ∈ seen then seen else seen ++ [x])
    | _ => seen

def vars (t : Term) : List String :=
  t.collectVars []

/-- Equivalence of terms, ignoring all annotations. The same node is equivalent
to itself, and terms with different hashes are not equivalent. -/
def equivalent (l r : Term) : Bool :=
  l.same r || (l.hash == r.hash &&
    match l with
    | .int _ i => match r.shape with | .int j => i == j | _ => false
    | .real _ x => match r.shape with | .real y => x == y | _ => false
    | .str _ s => match r.shape with | .str s' => s == s' | _ => false
    | .nil _ => match r.shape with | .nil => true | _ => false
    | .cons _ h t =>
      match r.shape with | .cons h' t' => h.equivalent h' && t.equivalent t' | _ => false
    | .appl _ f as =>
      match r.shape with | .appl f' as' => f.equivalent f' && as.equivalent as' | _ => false
    | .wildcard _ => match r.shape with | .wildcard => true | _ => false
    | .var _ x p =>
      match r.shape with | .var x' p' => x == x' && p.equivalent p' | _ => false
    | .annotated _ b _ => b.equivalent r)

/-- Equality of terms: equivalence, also of the annotation lists. -/
def equal (l r : Term) : Bool :=
  l.equivalent r &&
    match l.annotations, r.annotations with
    | none, none => true
    | some a, some b => a.equivalent b
    | _, _ => false

/-- Hash of the term and its annotation list. -/
def fullHash (t : Term) : UInt64 :=
  Fnv.words [t.hash, (t.annotations.getD empty).hash]

end Term

end StrategicRewriting
