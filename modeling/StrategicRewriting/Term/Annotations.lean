import StrategicRewriting.Fatal

/-!
Annotations of a term. An annotation list is never empty: taking the last
annotation away leaves a term without annotations.
-/
namespace StrategicRewriting.Term

/-- Replace the annotations by those of a list. -/
def setAnnotations (t annos : Term) : Except Fatal Term :=
  match annos.shape with
  | .nil => .ok (make t.shape none)
  | .cons .. => .ok (make t.shape (some annos))
  | _ => .error (.notAList annos)

def stripAnnotations (t : Term) : Term :=
  match t.annotations with
  | none => t
  | some _ => make t.shape none

/-- The annotations, one by one. -/
def annotationElems (t : Term) : List Term :=
  (t.annotations.map elems).getD []

/-- The first annotation that is an application of the given name. -/
def anno? (t : Term) (name : String) : Option Term :=
  t.annotationElems.find? (·.functorName? == some name)

/-- The annotations that are not applications of the given name. -/
def annotationsWithout (t : Term) (name : String) : List Term :=
  t.annotationElems.filter (·.functorName? != some name)

/-- Add an annotation at the end, in place of those with the same name. -/
def setAnno (t anno : Term) : Term :=
  let kept := match anno.functorName? with
    | some name => t.annotationsWithout name
    | none => t.annotationElems
  make t.shape (some (listOnto empty (kept ++ [anno])))

/-- Remove all annotations that are applications of the given name. -/
def removeAnno (t : Term) (name : String) : Term :=
  match t.anno? name with
  | none => t
  | some _ =>
    match t.annotationsWithout name with
    | [] => make t.shape none
    | kept => make t.shape (some (listOnto empty kept))

end StrategicRewriting.Term
