import StrategicRewriting.Factory.Basic

/-!
Numbers of the nodes that a factory makes. A new node gets the next number, so what is
shared later is another node than what was shared before, unless it is the empty list or
the wildcard that all terms of a factory have in common.
-/
namespace StrategicRewriting

/-- Where the topmost node of a term comes from. -/
def Term.origin : Term → Origin
  | .int o _ | .real o _ | .str o _ | .nil o | .cons o _ _ | .appl o _ _ | .wildcard o
  | .var o _ _ | .annotated o _ _ => o

theorem Term.origin_ofShape (o : Origin) (s : Shape) : (ofShape o s).origin = o := by
  cases s <;> rfl

/-- The common node that a written term stands for, if it needs no new one. -/
def Written.commonNode? : Written → Option Term
  | .wildcard => some Factory.wildcard
  | .list [] none => some Factory.nil
  | .list [] (some w) => w.commonNode?
  | _ => none

namespace Factory

open Written

/-- The topmost node has a number from `n` on, below `m`. -/
def Numbered (n m : Nat) (t : Term) : Prop :=
  ∃ k, t.origin = .serial k ∧ n ≤ k ∧ k < m

theorem numbered_node (s : Shape) {n m : Nat} (h : n ≤ m) :
    Numbered n (node s m).2 (node s m).1 :=
  ⟨m, Term.origin_ofShape _ s, h, Nat.lt_succ_self m⟩

theorem numbered_annotatedNode (s : Shape) (annos : List Term) (list : Term) {n m : Nat}
    (h : n ≤ m) : Numbered n (annotatedNode s annos list m).2 (annotatedNode s annos list m).1 := by
  cases annos with
  | nil => exact numbered_node s h
  | cons a as => exact ⟨m, rfl, h, Nat.lt_succ_self m⟩

theorem Numbered.le {n m : Nat} {t : Term} (h : Numbered n m t) : n ≤ m := by
  obtain ⟨k, -, hn, hm⟩ := h
  exact Nat.le_of_lt (Nat.lt_of_le_of_lt hn hm)

theorem le_listOnto (tail : Term) (ts : List Term) (n : Nat) : n ≤ (listOnto tail ts n).2 := by
  induction ts with
  | nil => exact Nat.le_refl n
  | cons t ts ih => exact Nat.le_succ_of_le ih

/-- The functor of an application is numbered before its arguments. -/
theorem share_appl (fn : Functor) (es : List Written) (spread : Option Written) (n : Nat) :
    ∃ functor m, n ≤ m ∧ share (.appl fn es spread) n =
      node (.appl functor (share (.list es spread) m).1) (share (.list es spread) m).2 := by
  cases fn with
  | name s => exact ⟨_, n + 1, Nat.le_succ n, rfl⟩
  | var x => exact ⟨_, n + 1, Nat.le_succ n, rfl⟩
  | wildcard => exact ⟨_, n, Nat.le_refl n, rfl⟩

theorem le_share_list {es : List Written} {spread : Option Written}
    (hes : ∀ n, n ≤ (shareAll es n).2) (hspread : ∀ n, n ≤ (shareTail spread n).2) (n : Nat) :
    n ≤ (shareAll es (shareTail spread n).2).2 ∧ n ≤ (share (.list es spread) n).2 := by
  have helems := Nat.le_trans (hspread n) (hes (shareTail spread n).2)
  exact ⟨helems, Nat.le_trans helems (le_listOnto _ _ _)⟩

mutual

theorem le_share : ∀ (w : Written) (n : Nat), n ≤ (share w n).2
  | .int _, n | .real _, n | .str _, n | .var _ none, n => Nat.le_succ n
  | .wildcard, n => Nat.le_refl n
  | .list es spread, n => (le_share_list (le_shareAll es) (le_shareTail spread) n).2
  | .appl fn es spread, n => by
      obtain ⟨functor, m, hnm, heq⟩ := share_appl fn es spread n
      have hargs := (le_share_list (le_shareAll es) (le_shareTail spread) m).2
      rw [heq]
      exact Nat.le_succ_of_le (Nat.le_trans hnm hargs)
  | .var _ (some p), n => Nat.le_succ_of_le (le_share p n)
  | .annotated w as, n => by
      have hlist := Nat.le_trans (le_shareAll as n) (le_listOnto nil (shareAll as n).1 _)
      exact (numbered_annotatedNode _ _ _ (Nat.le_trans hlist (le_share w _))).le

theorem le_shareAll : ∀ (ws : List Written) (n : Nat), n ≤ (shareAll ws n).2
  | [], n => Nat.le_refl n
  | w :: ws, n => Nat.le_trans (le_share w n) (le_shareAll ws _)

theorem le_shareTail : ∀ (spread : Option Written) (n : Nat), n ≤ (shareTail spread n).2
  | none, n => Nat.le_refl n
  | some w, n => le_share w n

end

theorem share_of_commonNode? {w : Written} {t : Term} (h : w.commonNode? = some t) (n : Nat) :
    (share w n).1 = t ∧ (t = nil ∨ t = wildcard) := by
  fun_induction commonNode? w with
  | case1 =>
      cases h
      exact ⟨rfl, .inr rfl⟩
  | case2 =>
      cases h
      exact ⟨rfl, .inl rfl⟩
  | case3 w ih => exact ih h
  | case4 => cases h

theorem numbered_share : ∀ (w : Written) (n : Nat), w.commonNode? = none →
    Numbered n (share w n).2 (share w n).1
  | .int i, _, _ => numbered_node (.int i) (Nat.le_refl _)
  | .real r, _, _ => numbered_node (.real r) (Nat.le_refl _)
  | .str s, _, _ => numbered_node (.str s) (Nat.le_refl _)
  | .var x none, _, _ => numbered_node (.var x wildcard) (Nat.le_refl _)
  | .list [] (some w), n, h => numbered_share w n h
  | .list (v :: vs) spread, n, _ => by
      have hle := (le_share_list (le_shareAll (v :: vs)) (le_shareTail spread) n).1
      exact numbered_node _ (Nat.le_trans hle (le_listOnto _ _ _))
  | .appl fn es spread, n, _ => by
      obtain ⟨functor, m, hnm, heq⟩ := share_appl fn es spread n
      rw [heq]
      exact numbered_node _ (Nat.le_trans hnm (le_share (.list es spread) m))
  | .var x (some p), n, _ => numbered_node (.var x (share p n).1) (le_share p n)
  | .annotated w as, n, _ => by
      have hlist := Nat.le_trans (le_shareAll as n) (le_listOnto nil (shareAll as n).1 _)
      exact numbered_annotatedNode _ _ _ (Nat.le_trans hlist (le_share w _))

end Factory

end StrategicRewriting
