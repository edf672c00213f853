import StrategicRewriting.Factory.Basic
import StrategicRewriting.Proofs.Term.Erasure

/-!
The term that a written one stands for, apart from the numbers of its nodes.
Sharing numbers the nodes of this term and changes nothing else about it.
-/
namespace StrategicRewriting

/-- Like a factory's constraint, an absent one is the plain wildcard. -/
def Functor.denote : Functor → Term
  | .name s => .str .derived s
  | .var x => .var .derived x (.wildcard .derived)
  | .wildcard => .wildcard .derived

namespace Written

mutual

def denote : Written → Term
  | .int i => .int .derived i
  | .real r => .real .derived r
  | .str s => .str .derived s
  | .list es spread => .listOnto (denoteTail spread) (denoteAll es)
  | .appl fn es spread =>
    .appl .derived fn.denote (.listOnto (denoteTail spread) (denoteAll es))
  | .wildcard => .wildcard .derived
  | .var x none => .var .derived x (.wildcard .derived)
  | .var x (some c) => .var .derived x c.denote
  | .annotated w [] => .ofShape .derived w.denote.shape
  | .annotated w (a :: as) =>
    .make w.denote.shape (some (.listOnto .empty (a.denote :: denoteAll as)))

def denoteAll : List Written → List Term
  | [] => []
  | w :: ws => w.denote :: denoteAll ws

/-- The end of a list: the spread, or the empty list. -/
def denoteTail : Option Written → Term
  | none => .empty
  | some w => w.denote

end

def Elements.denote (es : Elements) : Term :=
  .listOnto (denoteTail es.spread) (denoteAll es.items)

end Written

namespace Factory

open Term Written

theorem unnumbered_listOnto (tail : Term) (ts : List Term) (n : Nat) :
    (listOnto tail ts n).1.unnumbered = .listOnto tail.unnumbered (ts.map unnumbered) := by
  induction ts generalizing n with
  | nil => rfl
  | cons t ts ih =>
      change Term.cons .derived t.unnumbered (listOnto tail ts n).1.unnumbered = _
      rw [ih]
      rfl

mutual

/-- Sharing makes the term that is written. -/
theorem unnumbered_share : ∀ (w : Written) (n : Nat), (share w n).1.unnumbered = w.denote
  | .int _, _ | .real _, _ | .str _, _ | .wildcard, _ | .var _ none, _ => rfl
  | .list es spread, n => by
      have hlist := unnumbered_listOnto (shareTail spread n).1
        (shareAll es (shareTail spread n).2).1
      simp only [unnumbered_shareTail, unnumbered_shareAll] at hlist
      exact hlist _
  | .appl fn es spread, n => by
      have hargs (m : Nat) := unnumbered_listOnto (shareTail spread m).1
        (shareAll es (shareTail spread m).2).1
      simp only [unnumbered_shareTail, unnumbered_shareAll] at hargs
      cases fn <;> exact congrArg (Term.appl .derived _) (hargs _ _)
  | .var x (some c), n => by
      rw [denote, ← unnumbered_share c n]
      rfl
  | .annotated w [], n => by
      rw [denote, ← unnumbered_share w n, shape_unnumbered, ← unnumbered_ofShape]
      rfl
  | .annotated w (a :: as), n => by
      have hbody (m : Nat) : (ofShape .derived (share w m).1.shape).unnumbered =
          ofShape .derived w.denote.shape := by
        rw [unnumbered_ofShape, ← shape_unnumbered, unnumbered_share w m]
      have hlist := unnumbered_listOnto nil (shareAll (a :: as) n).1
      simp only [unnumbered_shareAll] at hlist
      have hnode (o : Origin) (m k : Nat) :
          (Term.annotated o (ofShape .derived (share w m).1.shape)
            (listOnto nil (shareAll (a :: as) n).1 k).1).unnumbered =
          (Written.annotated w (a :: as)).denote := by
        rw [unnumbered, hbody, hlist]
        rfl
      exact hnode _ _ _

theorem unnumbered_shareAll : ∀ (ws : List Written) (n : Nat),
    (shareAll ws n).1.map unnumbered = denoteAll ws
  | [], _ => rfl
  | w :: ws, n => by
      rw [denoteAll, ← unnumbered_share w n, ← unnumbered_shareAll ws (share w n).2]
      rfl

theorem unnumbered_shareTail : ∀ (spread : Option Written) (n : Nat),
    (shareTail spread n).1.unnumbered = denoteTail spread
  | none, _ => rfl
  | some w, n => unnumbered_share w n

end

end Factory

end StrategicRewriting
