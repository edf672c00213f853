import StrategicRewriting.Pattern.Build
import StrategicRewriting.Proofs.Term.Parts

/-!
When building succeeds, and what it takes from the captured terms. Only the values
of variables that occur in the pattern matter.
-/
namespace StrategicRewriting

namespace Building

variable {α β : Type} {x : Building α} {f : α → Building β} {caps rest : List Term}

theorem bind_of_ok {a : α} {mid : List Term} (h : x caps = (.ok a, mid)) :
    (x >>= f) caps = f a mid := by
  change (match x caps with | (r, mid) => ExceptT.bindCont f r mid) = _
  rw [h]
  rfl

theorem bind_of_error {e : Fatal} {mid : List Term} (h : x caps = (.error e, mid)) :
    (x >>= f) caps = (.error e, mid) := by
  change (match x caps with | (r, mid) => ExceptT.bindCont f r mid) = _
  rw [h]
  rfl

theorem bind_eq_ok {b : β} :
    (x >>= f) caps = (.ok b, rest) ↔
      ∃ a mid, x caps = (.ok a, mid) ∧ f a mid = (.ok b, rest) := by
  constructor
  · intro h
    cases hx : x caps with
    | mk r mid =>
        cases r with
        | ok a =>
            rw [bind_of_ok hx] at h
            exact ⟨a, mid, rfl, h⟩
        | error e =>
            rw [bind_of_error hx] at h
            cases h
  · rintro ⟨a, mid, hx, hf⟩
    rw [bind_of_ok hx, hf]

theorem takeCapture_eq_ok {t : Term} :
    takeCapture caps = (.ok t, rest) ↔ caps = t :: rest := by
  constructor
  · intro h
    cases caps with
    | nil => cases h
    | cons c cs =>
        cases h
        rfl
  · rintro rfl
    rfl

theorem valueOf_eq_ok {vars : Lookup} {y : String} {t : Term} :
    valueOf vars y caps = (.ok t, rest) ↔ vars y = .ok (some t) ∧ caps = rest := by
  rw [valueOf, bind_eq_ok]
  constructor
  · rintro ⟨value, mid, hvalue, h⟩
    cases value with
    | none => cases h
    | some u =>
        cases h
        obtain ⟨hu, hrest⟩ := Prod.mk.inj hvalue
        exact ⟨hu, hrest⟩
  · rintro ⟨h, rfl⟩
    exact ⟨some t, caps, Prod.ext h rfl, rfl⟩

/-- A check that keeps what was built. -/
theorem guard_eq_ok {a b : α} {c : Bool} {e : Fatal} :
    (if c then pure a else throw e : Building α) caps = (.ok b, rest) ↔
      c ∧ a = b ∧ caps = rest := by
  cases c with
  | true =>
      constructor
      · intro h
        cases h
        exact ⟨rfl, rfl, rfl⟩
      · rintro ⟨-, rfl, rfl⟩
        rfl
  | false => exact ⟨nofun, nofun⟩

end Building

namespace Term

variable {vars : Lookup} {o : Origin} {p q u : Term} {caps rest : List Term}

theorem build_of_isGround (h : p.isGround) : p.build vars = pure p := by
  unfold build
  rw [if_pos h]

theorem build_var (o : Origin) (x : String) (c : Term) :
    (var o x c).build vars = Building.valueOf vars x := rfl

theorem build_cons_iff (h : ¬ (cons o p q).isGround) :
    (cons o p q).build vars caps = (.ok u, rest) ↔
      ∃ l r mid, p.build vars caps = (.ok l, mid) ∧ q.build vars mid = (.ok r, rest) ∧
        r.isList ∧ make (.cons l r) none = u := by
  rw [build, if_neg h]
  simp only [Building.bind_eq_ok, Building.guard_eq_ok]
  constructor
  · rintro ⟨l, mid, hl, r, mid', hr, hlist, rfl, rfl⟩
    exact ⟨l, r, mid, hl, hr, hlist, rfl⟩
  · rintro ⟨l, r, mid, hl, hr, hlist, rfl⟩
    exact ⟨l, mid, hl, r, rest, hr, hlist, rfl, rfl⟩

theorem build_appl_iff (h : ¬ (appl o p q).isGround) :
    (appl o p q).build vars caps = (.ok u, rest) ↔
      ∃ l r mid, p.build vars caps = (.ok l, mid) ∧ l.toStr?.isNone = false ∧
        q.build vars mid = (.ok r, rest) ∧ r.isList ∧ make (.appl l r) none = u := by
  rw [build, if_neg h]
  simp only [Building.bind_eq_ok]
  constructor
  · rintro ⟨l, mid, hl, h⟩
    cases hstr : l.toStr?.isNone with
    | true =>
        rw [hstr] at h
        cases h
    | false =>
        rw [hstr] at h
        simp only [Bool.false_eq_true, if_false, Building.bind_eq_ok, Building.guard_eq_ok] at h
        obtain ⟨r, mid', hr, hlist, rfl, rfl⟩ := h
        exact ⟨l, r, mid, hl, hstr, hr, hlist, rfl⟩
  · rintro ⟨l, r, mid, hl, hstr, hr, hlist, rfl⟩
    refine ⟨l, mid, hl, ?_⟩
    rw [hstr]
    simp only [Bool.false_eq_true, if_false, Building.bind_eq_ok, Building.guard_eq_ok]
    exact ⟨r, rest, hr, hlist, rfl, rfl⟩

theorem build_annotated_iff (h : ¬ (annotated o p q).isGround) :
    (annotated o p q).build vars caps = (.ok u, rest) ↔
      ∃ t as mid, p.build vars caps = (.ok t, mid) ∧ q.build vars mid = (.ok as, rest) ∧
        t.setAnnotations as = .ok u := by
  rw [build, if_neg h]
  simp only [Building.bind_eq_ok]
  constructor
  · rintro ⟨t, mid, ht, as, mid', has, h⟩
    cases hset : t.setAnnotations as with
    | ok t' =>
        rw [hset] at h
        cases h
        exact ⟨t, as, mid, ht, has, hset⟩
    | error e =>
        rw [hset] at h
        cases h
  · rintro ⟨t, as, mid, ht, has, hset⟩
    refine ⟨t, mid, ht, as, rest, has, ?_⟩
    rw [hset]
    rfl

/-- Only the variables of the pattern are looked up. -/
theorem build_congr {vars vars' : Lookup} (p : Term) (h : ∀ x ∈ p.vars, vars x = vars' x) :
    p.build vars = p.build vars' := by
  induction p with
  | int o i | real o r | str o s | nil o | wildcard o => rfl
  | cons o p q ihp ihq =>
      have hp := ihp fun x hx => h x (mem_vars_cons.mpr (.inl hx))
      have hq := ihq fun x hx => h x (mem_vars_cons.mpr (.inr hx))
      simp only [build, hp, hq]
  | appl o p q ihp ihq =>
      have hp := ihp fun x hx => h x (mem_vars_appl.mpr (.inl hx))
      have hq := ihq fun x hx => h x (mem_vars_appl.mpr (.inr hx))
      simp only [build, hp, hq]
  | annotated o p q ihp ihq =>
      have hp := ihp fun x hx => h x (mem_vars_annotated.mpr (.inl hx))
      have hq := ihq fun x hx => h x (mem_vars_annotated.mpr (.inr hx))
      simp only [build, hp, hq]
  | var o x c _ =>
      have hx := h x (mem_vars_var.mpr (.inl rfl))
      rw [build_var, build_var, Building.valueOf, Building.valueOf, hx]

end Term

end StrategicRewriting
