import Mathlib.Data.Set.Finite.Lattice
import StrategicRewriting.Proofs.Strategy.Depth

/-!
Calls that a strategy leaves open. What a strategy does depends only on the recursive strategies
that it calls, so one more of them around it does not matter if its label is not called. There is
always such a label, because a strategy has only finitely many calls.
-/
namespace StrategicRewriting

namespace Strategy

/-- Calls of the label inside the strategy do not get out of it. -/
def encloses (l : Label) : Strategy → Bool
  | recursive l' _ => l' = l
  | defined .. => true
  | _ => false

/-- The strategy calls a recursive strategy of the label that is around it. -/
inductive Calls (l : Label) : Strategy → Prop
  | call : Calls l (call l)
  | part {s a : Strategy} : a ∈ s.parts → s.encloses l = false → Calls l a → Calls l s

variable {l : Label} {s b : Strategy}

theorem not_calls (hs : s ≠ call l) (hparts : ∀ a ∈ s.parts, ¬a.Calls l) : ¬s.Calls l := by
  intro h
  cases h with
  | call => exact hs rfl
  | part ha _ hcalls => exact hparts _ ha hcalls

theorem finite_calls (s : Strategy) : {l | s.Calls l}.Finite := by
  induction hk : sizeOf s using Nat.strongRecOn generalizing s with
  | ind k ih =>
      subst hk
      have hparts : (⋃ a ∈ {a | a ∈ s.parts}, {l | a.Calls l}).Finite :=
        s.parts.finite_toSet.biUnion fun a ha => ih _ (sizeOf_lt_of_mem_parts ha) a rfl
      have hself : {l | s = call l}.Finite :=
        Set.Subsingleton.finite fun l hl l' hl' => Strategy.call.inj (hl.symm.trans hl')
      refine (hself.union hparts).subset fun l hl => ?_
      cases hl with
      | call => exact .inl rfl
      | part ha _ hcalls => exact .inr (Set.mem_biUnion ha hcalls)

/-- Recursive strategies can always be given a label that a strategy does not call. -/
theorem exists_not_calls (s : Strategy) : ∃ l, ¬s.Calls l := by
  have : Infinite Label := Infinite.of_injective (fun cs => Label.named (String.ofList cs))
    fun _ _ h => String.ofList_injective (Label.named.inj h)
  exact (finite_calls s).exists_notMem

end Strategy

namespace Env

open Strategy (Calls)

/-- The recursive strategies of the labels in `p` are the same, and so are all that they call. -/
inductive Agree : (Label → Prop) → Env → Env → Prop
  | refl (p : Label → Prop) (ρ : Env) : Agree p ρ ρ
  | drop {p : Label → Prop} {ρ ρ' : Env} {l : Label} {b : Strategy} :
      ¬p l → Agree p ρ ρ' → Agree p ((l, b) :: ρ) ρ'
  | bind {p q : Label → Prop} {ρ ρ' : Env} {l : Label} {b : Strategy} :
      Agree q ρ ρ' → (∀ l', b.Calls l' → l' = l ∨ q l') → (∀ l', p l' → l' = l ∨ q l') →
      Agree p ((l, b) :: ρ) ((l, b) :: ρ')

variable {p q : Label → Prop} {ρ ρ' : Env} {l : Label}

theorem resolve_self (l : Label) (b : Strategy) (ρ : Env) :
    Env.resolve l ((l, b) :: ρ) = some (b, (l, b) :: ρ) :=
  if_pos rfl

theorem Agree.mono (h : Agree p ρ ρ') (hqp : ∀ l, q l → p l) : Agree q ρ ρ' := by
  induction h generalizing q with
  | refl p ρ => exact .refl q ρ
  | drop hl _ ih => exact .drop (mt (hqp _) hl) (ih hqp)
  | bind hρ hb hp _ => exact .bind hρ hb fun l' hl' => hp l' (hqp l' hl')

/-- A label has no recursive strategy in either environment, or it has the same one in both. -/
theorem Agree.resolve (h : Agree p ρ ρ') (hl : p l) :
    Option.Rel (fun r r' => r.1 = r'.1 ∧ Agree (fun l => r.1.Calls l) r.2 r'.2)
      (ρ.resolve l) (ρ'.resolve l) := by
  induction h with
  | refl p ρ =>
      cases ρ.resolve l with
      | none => exact .none
      | some r => exact .some ⟨rfl, .refl _ _⟩
  | @drop p ρ ρ' l' b hl' _ ih =>
      rw [Env.resolve, if_neg fun heq : l = l' => hl' (heq ▸ hl)]
      exact ih hl
  | @bind p q ρ ρ' l' b hρ hb hp ih =>
      rw [Env.resolve, Env.resolve]
      split
      · exact .some ⟨rfl, .bind hρ hb hb⟩
      · exact ih ((hp l hl).resolve_left ‹_›)

end Env

namespace Strategy

open Env (Agree)

variable {ρ ρ' : Env} {l : Label} {s : Strategy}

/-- One level of the application of a strategy that does not look at the environment itself. -/
theorem step_congr {f g : Env → Strategy → Term → Effect Term} (h : ∀ a ∈ s.parts, f ρ a = g ρ' a)
    (hs : ∀ l b, s ≠ recursive l b ∧ s ≠ call l ∧ ∀ id, s ≠ defined id b) (n : Nat) (t : Term) :
    step f n ρ s t = step g n ρ' s t := by
  cases s with
  | recursive l b => exact absurd rfl (hs l b).1
  | call l => exact absurd rfl (hs l ident).2.1
  | defined id b => exact absurd rfl ((hs .nowhere b).2.2 id)
  | letIn bs a =>
      obtain ⟨ha, hbs⟩ := List.forall_mem_cons.mp h
      have hbindings : bs.map (fun b => (b.1, f ρ b.2 t)) = bs.map fun b => (b.1, g ρ' b.2 t) :=
        List.map_congr_left fun b hb => by rw [hbs b.2 (List.mem_map_of_mem hb)]
      simp only [step, hbindings, ha]
  | congruent name ss =>
      have hargs : ss.map (f ρ) = ss.map (g ρ') := List.map_congr_left h
      simp only [step, hargs]
  | _ =>
      simp only [parts, List.forall_mem_cons] at h
      simp only [step, h]

/-- A strategy does the same in environments that agree on what it calls. -/
theorem apply_congr (n : Nat) (h : Agree (fun l => s.Calls l) ρ ρ') (t : Term) :
    s.apply n ρ t = s.apply n ρ' t := by
  induction n generalizing ρ ρ' s t with
  | zero => rfl
  | succ n ih =>
      cases s with
      | recursive l b =>
          refine ih (.bind h (fun l' hl' => ?_) fun l' hl' => ?_) t
          all_goals
            by_cases heq : l' = l
            · exact .inl heq
            · exact .inr (.part (.head _) (by simpa [encloses] using Ne.symm heq) hl')
      | call l =>
          have hrel := h.resolve .call
          simp only [apply, step]
          generalize ρ.resolve l = r at hrel
          generalize ρ'.resolve l = r' at hrel
          cases hrel with
          | none => rfl
          | some hr =>
              obtain ⟨hs, hagree⟩ := hr
              dsimp only
              rw [← hs]
              exact ih hagree t
      | defined id b => rfl
      | _ =>
          refine step_congr (fun a ha => ?_) (by simp) n t
          exact funext fun t => ih (h.mono fun l hl => .part ha rfl hl) t

/-- A recursive strategy around a strategy that does not call it makes no difference. -/
theorem apply_of_not_calls (h : ¬s.Calls l) (b : Strategy) (n : Nat) (ρ : Env) (t : Term) :
    s.apply n ((l, b) :: ρ) t = s.apply n ρ t :=
  apply_congr n (.drop h (.refl _ ρ)) t

end Strategy

end StrategicRewriting
