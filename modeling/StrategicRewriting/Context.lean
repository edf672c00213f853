import StrategicRewriting.Pattern.Bindings
import StrategicRewriting.Stack
import StrategicRewriting.Table

/-!
Scoped variables and tables: a global frame and local frames on top of it. A
name means the innermost declaration of it, for reading and for writing.
-/
namespace StrategicRewriting

/-- What one scope declares. A variable may be declared without a value. -/
structure Frame where
  vars : NameMap (Option Term)
  tables : NameMap Table

namespace Frame

def empty : Frame := ⟨.empty, .empty⟩

/-- Declare a variable without a value. -/
def declare (f : Frame) (x : String) : Frame :=
  { f with vars := f.vars.insert x none }

/-- Declare a variable with a value. -/
def bind (f : Frame) (x : String) (t : Term) : Frame :=
  { f with vars := f.vars.insert x (some t) }

/-- Declare an empty table. -/
def declareTable (f : Frame) (name : String) : Frame :=
  { f with tables := f.tables.insert name .empty }

def declaring (names : List String) : Frame :=
  names.foldl declare empty

def declaringTables (names : List String) : Frame :=
  names.foldl declareTable empty

/-- Change the value of a variable that the frame declares. -/
def setVar? (x : String) (value : Option Term) (f : Frame) : Option Frame :=
  (f.vars.get? x).map fun _ => { f with vars := f.vars.insert x value }

/-- Change the contents of a table that the frame declares. -/
def setTable? (name : String) (table : Table) (f : Frame) : Option Frame :=
  (f.tables.get? name).map fun _ => { f with tables := f.tables.insert name table }

end Frame

structure Context where
  locals : Stack Frame
  global : Frame

namespace Context

def empty : Context := ⟨.empty, .empty⟩

/-- The frames from the innermost to the global one. -/
def frames (c : Context) : List Frame :=
  c.locals.toList ++ [c.global]

/-- Number of frames. -/
def depth (c : Context) : Nat :=
  c.locals.size + 1

def push (c : Context) (f : Frame) : Context :=
  { c with locals := c.locals.push f }

/-- Drop the innermost local frame. -/
def pop (c : Context) : Context :=
  { c with locals := c.locals.pop.2 }

@[simp]
theorem pop_push (c : Context) (f : Frame) : (c.push f).pop = c := rfl

/-- Change the innermost frame. -/
def modifyTop (c : Context) (f : Frame → Frame) : Context :=
  match c.locals.toList with
  | [] => { c with global := f c.global }
  | top :: rest => { c with locals := ⟨f top :: rest⟩ }

def declare (c : Context) (x : String) : Context :=
  c.modifyTop (·.declare x)

def declareTable (c : Context) (name : String) : Context :=
  c.modifyTop (·.declareTable name)

/-- Change the first of the frames that `f` can change. -/
def updateFirst? (f : Frame → Option Frame) : List Frame → Option (List Frame)
  | [] => none
  | fr :: frs =>
    match f fr with
    | some fr => some (fr :: frs)
    | none => (updateFirst? f frs).map (fr :: ·)

/-- Change the innermost frame that `f` can change. -/
def update? (c : Context) (f : Frame → Option Frame) : Option Context :=
  match updateFirst? f c.locals.toList with
  | some locals => some { c with locals := ⟨locals⟩ }
  | none => (f c.global).map fun global => { c with global }

/-- The value of a variable, if it has one. -/
def get (c : Context) : Lookup := fun x =>
  match c.frames.findSome? (·.vars.get? x) with
  | some value => .ok value
  | none => .error (.undeclaredVar x)

/-- Give a variable another value, or none. -/
def assign (c : Context) (x : String) (value : Option Term) : Except Fatal Context :=
  match c.update? (Frame.setVar? x value) with
  | some c => .ok c
  | none => .error (.undeclaredVar x)

def set (c : Context) (x : String) (t : Term) : Except Fatal Context :=
  c.assign x (some t)

def unset (c : Context) (x : String) : Except Fatal Context :=
  c.assign x none

def table (c : Context) (name : String) : Except Fatal Table :=
  match c.frames.findSome? (·.tables.get? name) with
  | some t => .ok t
  | none => .error (.undeclaredTable name)

def setTable (c : Context) (name : String) (t : Table) : Except Fatal Context :=
  match c.update? (Frame.setTable? name t) with
  | some c => .ok c
  | none => .error (.undeclaredTable name)

/-- Change the contents of a table. -/
def modifyTable (c : Context) (name : String) (f : Table → Table) : Except Fatal Context := do
  let t ← c.table name
  c.setTable name (f t)

end Context

/-- Tables to be merged by union and by intersection. -/
structure Merge where
  union : List String
  inter : List String

namespace Merge

/-- The names of the tables to be merged, each with the way of merging. -/
def plan (m : Merge) : List (String × (Table → Table → Table)) :=
  m.union.map (·, Table.union) ++ m.inter.map (·, Table.inter)

def names (m : Merge) : List String :=
  m.union ++ m.inter

/-- The contents of the tables. -/
def snapshot (m : Merge) (c : Context) : Except Fatal (List Table) :=
  m.names.mapM c.table

/-- Set the tables to the given contents, one after the other. -/
def restoreAll : List (String × Table) → Context → Except Fatal Context
  | [], c => .ok c
  | (name, t) :: rest, c => do restoreAll rest (← c.setTable name t)

def restore (m : Merge) (tables : List Table) (c : Context) : Except Fatal Context :=
  restoreAll (m.names.zip tables) c

/-- Merge the earlier contents of the tables with the present ones, one after
the other; also tells whether a merged table differs from its earlier contents. -/
def applyAll : List ((String × (Table → Table → Table)) × Table) → Context →
    Except Fatal (Bool × Context)
  | [], c => .ok (false, c)
  | ((name, merge), earlier) :: rest, c => do
    let present ← c.table name
    let merged := merge earlier present
    let (changed, c) ← applyAll rest (← c.setTable name merged)
    .ok (changed || !merged.equal earlier, c)

def apply (m : Merge) (earlier : List Table) (c : Context) : Except Fatal (Bool × Context) :=
  applyAll (m.plan.zip earlier) c

end Merge

end StrategicRewriting
