import StrategicRewriting.Strategy.Basic

/-!
Algebraic laws of the combinators. A strategy is assembled in its simplified
form, in which `ident` and `fail` do not stand beside other strategies.
-/
namespace StrategicRewriting.Strategy

/-- The strategy returns its input, whatever it is. -/
def isIdent : Strategy → Bool
  | ident => true
  | recursive _ s | defined _ s => s.isIdent
  | _ => false

/-- The strategy fails on every input. -/
def isFail : Strategy → Bool
  | fail => true
  | recursive _ s | defined _ s => s.isFail
  | _ => false

/-- The number of the definition that the strategy is. -/
def definition? : Strategy → Option Nat
  | defined id _ => some id
  | recursive _ s => s.definition?
  | _ => none

def mkSeq (s₁ s₂ : Strategy) : Strategy :=
  if s₁.isIdent then s₂
  else if s₂.isIdent || s₁.isFail then s₁
  else seq s₁ s₂

def mkChoice (s₁ s₂ : Strategy) : Strategy :=
  if s₁.isIdent || s₂.isFail then s₁
  else if s₁.isFail then s₂
  else choice s₁ s₂

def mkNot (s : Strategy) : Strategy :=
  if s.isIdent then fail
  else if s.isFail then ident
  else not s

def mkTest (s : Strategy) : Strategy :=
  if s.isIdent || s.isFail then s else test s

def mkGuarded (cond yes no : Strategy) : Strategy :=
  if cond.isIdent then yes
  else if cond.isFail then no
  else guarded cond yes no

mutual

/-- The strategy with all its parts simplified. -/
def simplify : Strategy → Strategy
  | seq s₁ s₂ => mkSeq s₁.simplify s₂.simplify
  | choice s₁ s₂ => mkChoice s₁.simplify s₂.simplify
  | not s => mkNot s.simplify
  | test s => mkTest s.simplify
  | guarded c y n => mkGuarded c.simplify y.simplify n.simplify
  | scope names s => scope names s.simplify
  | letIn bs s => letIn (simplifyBindings bs) s.simplify
  | tables names s => tables names s.simplify
  | join l r m => join l.simplify r.simplify m
  | iterate s m => iterate s.simplify m
  | map s => map s.simplify
  | filter s => filter s.simplify
  | fetch s => fetch s.simplify
  | all s => all s.simplify
  | one s => one s.simplify
  | atLeastOne s => atLeastOne s.simplify
  | cons h t => cons h.simplify t.simplify
  | appl f as => appl f.simplify as.simplify
  | congruent name ss => congruent name (simplifyAll ss)
  | recursive l s => recursive l s.simplify
  | .repeat s => .repeat s.simplify
  | defined id s => defined id s.simplify
  | s => s

def simplifyAll : List Strategy → List Strategy
  | [] => []
  | s :: ss => s.simplify :: simplifyAll ss

def simplifyBindings : List (String × Strategy) → List (String × Strategy)
  | [] => []
  | (x, s) :: bs => (x, s.simplify) :: simplifyBindings bs

end

end StrategicRewriting.Strategy
