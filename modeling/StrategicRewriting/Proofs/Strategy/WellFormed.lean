import StrategicRewriting.Proofs.Context.WellFormed
import StrategicRewriting.Proofs.Factory.WellFormed
import StrategicRewriting.Proofs.Strategy.Building
import StrategicRewriting.Proofs.Strategy.Depth

/-!
Strategies keep to well-formed terms, in their results and in their contexts. A run
corresponds to itself, in a way that admits well-formed terms only.
-/
namespace StrategicRewriting

/-- The values are one and the same, and it has the property. -/
def Diagonal {α : Type} (P : α → Prop) (a b : α) : Prop :=
  P a ∧ a = b

section

variable {α : Type} {P : α → Prop}

theorem optionRel_diagonal {a b : Option α} :
    Option.Rel (Diagonal P) a b ↔ Diagonal (fun o => ∀ x, o = some x → P x) a b := by
  constructor
  · rintro (⟨h, rfl⟩ | _)
    · exact ⟨fun x hx => Option.some.inj hx ▸ h, rfl⟩
    · exact ⟨nofun, rfl⟩
  · rintro ⟨h, rfl⟩
    cases a with
    | some x => exact .some ⟨h x rfl, rfl⟩
    | none => exact .none

theorem forall₂_diagonal {as bs : List α} :
    List.Forall₂ (Diagonal P) as bs ↔ Diagonal (fun l => ∀ a ∈ l, P a) as bs := by
  rw [Diagonal, ← List.forall₂_eq_eq_eq]
  exact List.forall₂_and_left as bs

end

namespace Shape

/-- The property holds of the terms right below a node. -/
def All (P : Term → Prop) : Shape → Prop
  | .cons l r | .appl l r => P l ∧ P r
  | .var _ c => P c
  | _ => True

variable {s s' : Shape}

theorem rel_diagonal {P : Term → Prop} : Rel (Diagonal P) s s' ↔ Diagonal (All P) s s' := by
  constructor
  · intro h
    cases h with
    | cons hl hr | appl hl hr =>
        obtain ⟨hl, rfl⟩ := hl
        obtain ⟨hr, rfl⟩ := hr
        exact ⟨⟨hl, hr⟩, rfl⟩
    | var x hc =>
        obtain ⟨hc, rfl⟩ := hc
        exact ⟨hc, rfl⟩
    | _ => exact ⟨trivial, rfl⟩
  · rintro ⟨h, rfl⟩
    cases s with
    | int i => exact .int i
    | real r => exact .real r
    | str s => exact .str s
    | nil => exact .nil
    | cons l r => exact .cons ⟨h.1, rfl⟩ ⟨h.2, rfl⟩
    | appl l r => exact .appl ⟨h.1, rfl⟩ ⟨h.2, rfl⟩
    | wildcard => exact .wildcard
    | var x c => exact .var x ⟨h, rfl⟩

theorem WellFormed.all (h : s.WellFormed) : s.All Term.WellFormed := by
  cases s with
  | cons l r | appl l r => exact ⟨h.1, h.2.1⟩
  | var x c => exact h
  | _ => trivial

/-- What may take the place of a well-formed shape is well-formed if its parts are. -/
theorem Fits.wellFormed (hfits : s.Fits s') (hs : s.WellFormed) (hs' : s'.All Term.WellFormed) :
    s'.WellFormed := by
  cases hfits with
  | cons hlist => exact ⟨hs'.1, hs'.2, Term.isTail_of_isList hlist⟩
  | args hlist => exact ⟨hs'.1, hs'.2, hs.2.2.1, Term.isTail_of_isList hlist⟩
  | appl hstr hlist =>
      exact ⟨hs'.1, hs'.2, Term.isFunctor_of_toStr? hstr, Term.isTail_of_isList hlist⟩

end Shape

namespace Term.WellFormed

variable {t : Term}

theorem renew {s : Shape} (ht : t.WellFormed) (hs : s.WellFormed) : (t.renew s).WellFormed := by
  rw [Term.renew]
  split
  · exact ht
  · exact ht.withShape hs

/-- Where elements are left out, the end of the list takes their place. -/
theorem replaced {new : List (Option Term)} (ht : t.WellFormed)
    (hnew : ∀ n ∈ new, ∀ y, n = some y → y.WellFormed) :
    (Spine.replaced t new).WellFormed ∧ (t.isTail → (Spine.replaced t new).isTail) := by
  induction t using spine_induction generalizing new with
  | cons t h tl hshape ih =>
      have hparts := ht.shape
      rw [hshape] at hparts
      obtain ⟨-, htl, hend⟩ := hparts
      cases new with
      | nil =>
          rw [Spine.replaced_nil]
          exact ⟨ht, id⟩
      | cons n new =>
          obtain ⟨hn, hnew⟩ := List.forall_mem_cons.mp hnew
          obtain ⟨hrest, hrestEnd⟩ := ih htl hnew
          cases n with
          | none =>
              rw [Spine.replaced_none hshape]
              exact ⟨hrest, fun _ => hrestEnd hend⟩
          | some y =>
              refine ⟨?_, fun _ => by rw [isTail, Spine.shape_replaced_some hshape]⟩
              rcases Spine.replaced_some hshape y new with ⟨heq, -⟩ | heq
              · rwa [heq]
              · rw [heq]
                exact ht.withShape ⟨hn y rfl, hrest, hrestEnd hend⟩
  | other t hshape =>
      rw [Spine.replaced_of_not_cons hshape]
      exact ⟨ht, id⟩

theorem rebuild {new : List (Option Term)} (ht : t.WellFormed)
    (hnew : ∀ n ∈ new, ∀ y, n = some y → y.WellFormed) : (Spine.rebuild t new).WellFormed := by
  have hreplaced := (ht.replaced hnew).1
  rcases Spine.rebuild_cases t new with heq | ⟨as, has, heq⟩
  · rwa [heq]
  · rw [heq]
    refine wellFormed_make hreplaced.shape ?_
    rintro _ ⟨⟩
    exact ht.annotations has

end Term.WellFormed

/-- All terms that the strategy was given are well-formed. -/
def Strategy.WellFormed (s : Strategy) : Prop :=
  s.Everywhere fun s => ∀ p ∈ s.embedded, p.WellFormed

namespace Correspondence

/-- A run and itself, with well-formed terms only. -/
def wellFormed : Correspondence where
  state := Diagonal fun σ => σ.context.WellFormed
  term := Diagonal Term.WellFormed
  error := Eq
  frame := Diagonal Frame.WellFormed
  table := Diagonal Table.WellFormed
  bindings := Diagonal Bindings.WellFormed
  strategy := Strategy.WellFormed
  moves _ _ := True
  moves_refl _ := trivial
  moves_trans _ _ := trivial

section

variable {α : Type} {Q : α → α → Prop}

theorem wellFormed_results {x : Except Fatal α} (h : ∀ a, x = .ok a → Q a a) :
    wellFormed.Results Q x x := by
  cases x with
  | ok a => exact .ok (h a rfl)
  | error e => exact .error rfl

theorem wellFormed_read {f : Context → Except Fatal α}
    (h : ∀ c a, c.WellFormed → f c = .ok a → Q a a) :
    wellFormed.Simulates Q (.read f) (.read f) := by
  refine simulates_read_iff.mpr ?_
  rintro σ _ ⟨hσ, rfl⟩
  exact wellFormed_results fun a => h σ.context a hσ

theorem wellFormed_update {f : Context → Except Fatal Context}
    (h : ∀ c c', c.WellFormed → f c = .ok c' → c'.WellFormed) :
    wellFormed.Simulates Eq (.update f) (.update f) := by
  refine simulates_update_iff.mpr ?_
  rintro σ _ ⟨hσ, rfl⟩
  exact wellFormed_results fun c hc => ⟨⟨h σ.context c hσ hc, rfl⟩, trivial⟩

theorem wellFormed_report (e : Event) : wellFormed.Simulates Eq (.report e) (.report e) := by
  rintro σ _ ⟨hσ, rfl⟩
  exact .ok rfl ⟨hσ, rfl⟩ trivial

end

theorem wellFormed_constructive : wellFormed.Constructive Term.WellFormed where
  shape {t _} h := by
    obtain ⟨ht, rfl⟩ := h
    exact Shape.rel_diagonal.mpr ⟨ht.shape.all, rfl⟩
  emptyCaptures := rfl
  unboundVar _ := rfl
  notAList h := congrArg Fatal.notAList h.2
  notAString h := congrArg Fatal.notAString h.2
  consParts h := ⟨h.1, h.2.1⟩
  applParts h := ⟨h.1, h.2.1⟩
  annotatedParts h := ⟨h.1, h.2.2.1⟩
  ground hp _ := ⟨hp, rfl⟩
  cons hh ht hlist := by
    obtain ⟨hh, rfl⟩ := hh
    obtain ⟨ht, rfl⟩ := ht
    exact ⟨⟨hh, ht, Term.isTail_of_isList hlist⟩, rfl⟩
  appl hf hstr has hlist := by
    obtain ⟨hf, rfl⟩ := hf
    obtain ⟨has, rfl⟩ := has
    exact ⟨⟨hf, has, Term.isFunctor_of_toStr? hstr, Term.isTail_of_isList hlist⟩, rfl⟩
  setAnnotations _ ht has := by
    obtain ⟨ht, rfl⟩ := ht
    obtain ⟨has, rfl⟩ := has
    exact wellFormed_results fun u hu => ⟨ht.setAnnotations has hu, rfl⟩

/-- The values that a pattern is built from are those of the bindings and of the context. -/
theorem wellFormed_lookup {b : Bindings} {c : Context} (hb : b.WellFormed) (hc : c.WellFormed)
    (x : String) : wellFormed.Results (Option.Rel wellFormed.term)
      (b.lookup.orElse c.get x) (b.lookup.orElse c.get x) := by
  refine wellFormed_results fun v hv => optionRel_diagonal.mpr ⟨?_, rfl⟩
  rintro t rfl
  simp only [Lookup.orElse, Bindings.lookup] at hv
  cases hx : b.get? x with
  | some u =>
      rw [hx] at hv
      cases hv
      exact hb.values hx
  | none =>
      rw [hx] at hv
      exact hc.get hv

theorem wellFormed_lawful : wellFormed.Lawful where
  part h hpart := h.part hpart
  unsetRec := rfl
  notAList h := congrArg Fatal.notAList h.2
  notAString h := congrArg Fatal.notAString h.2
  notAnInt h := congrArg Fatal.notAnInt h.2
  notAPair h := congrArg Fatal.notAPair h.2
  shape := wellFormed_constructive.shape
  renew ht hfits hs := by
    obtain ⟨ht, rfl⟩ := ht
    obtain ⟨hparts, rfl⟩ := Shape.rel_diagonal.mp hs
    exact ⟨ht.renew (hfits.wellFormed ht.shape hparts), rfl⟩
  rebuild ht hnew := by
    obtain ⟨ht, rfl⟩ := ht
    obtain ⟨hterms, rfl⟩ := forall₂_diagonal.mp (hnew.imp fun _ _ => optionRel_diagonal.mp)
    exact ⟨ht.rebuild hterms, rfl⟩
  int i := ⟨trivial, rfl⟩
  list hts := by
    obtain ⟨hterms, rfl⟩ := forall₂_diagonal.mp hts
    exact ⟨(Term.wellFormed_listOnto Term.wellFormed_empty rfl hterms).1, rfl⟩
  equivalent ht hu := by rw [ht.2, hu.2]
  setAnno hs ht := by
    obtain ⟨ht, rfl⟩ := ht
    exact ⟨ht.setAnno (hs.here _ (.head _)), rfl⟩
  getAnno _ ht := by
    obtain ⟨ht, rfl⟩ := ht
    exact optionRel_diagonal.mpr ⟨fun _ => ht.anno?, rfl⟩
  removeAnno _ ht := by
    obtain ⟨ht, rfl⟩ := ht
    exact ⟨ht.removeAnno _, rfl⟩
  strip _ ht := by
    obtain ⟨ht, rfl⟩ := ht
    exact ⟨ht.stripAnnotations, rfl⟩
  noBindings := ⟨.empty, rfl⟩
  bindVar x hb ht := by
    obtain ⟨hb, rfl⟩ := hb
    obtain ⟨ht, rfl⟩ := ht
    exact ⟨hb.bind x ht, rfl⟩
  getVar x hb := by
    obtain ⟨hb, rfl⟩ := hb
    exact optionRel_diagonal.mpr ⟨fun _ => hb.values, rfl⟩
  matchTerm _ _ ht hb := by
    obtain ⟨ht, rfl⟩ := ht
    obtain ⟨hb, rfl⟩ := hb
    exact ⟨rfl, fun hok => ⟨hb.of_matchTerm ht (Prod.ext hok rfl), rfl⟩⟩
  build {_ p b _} hs hp hb := by
    obtain ⟨hb, rfl⟩ := hb
    refine simulates_read_iff.mpr ?_
    rintro σ _ ⟨hσ, rfl⟩
    have hcaptures : List.Forall₂ wellFormed.term b.captures b.captures :=
      forall₂_diagonal.mpr ⟨hb.captures, rfl⟩
    exact (wellFormed_constructive.build (wellFormed_lookup hb hσ) (hs.here p hp) _ _ hcaptures).1
  declaring names := ⟨.declaring names, rfl⟩
  declaringTables {names _} _ := ⟨.declaringTables names, rfl⟩
  bind x hf ht := by
    obtain ⟨hf, rfl⟩ := hf
    obtain ⟨ht, rfl⟩ := ht
    exact ⟨hf.insertVar x fun u hu => Option.some.inj hu ▸ ht, rfl⟩
  push hσ hf := by
    obtain ⟨hσ, rfl⟩ := hσ
    obtain ⟨hf, rfl⟩ := hf
    exact ⟨hσ.push hf, rfl⟩
  pop hσ := by
    obtain ⟨hσ, rfl⟩ := hσ
    exact ⟨hσ.pop, rfl⟩
  moves_pop _ := trivial
  get x := by
    refine wellFormed_read fun c v hc hv => optionRel_diagonal.mpr ⟨?_, rfl⟩
    rintro t rfl
    exact hc.get hv
  assign x hv := by
    obtain ⟨hterm, rfl⟩ := optionRel_diagonal.mp hv
    exact wellFormed_update fun c c' hc => hc.assign hterm
  table _ _ := wellFormed_read fun c T hc hT => ⟨hc.table hT, rfl⟩
  setTable _ _ hT := by
    obtain ⟨hT, rfl⟩ := hT
    exact wellFormed_update fun c c' hc => hc.setTable hT
  clear _ := ⟨.empty, rfl⟩
  insert hT hk hv := by
    obtain ⟨hT, rfl⟩ := hT
    obtain ⟨hk, rfl⟩ := hk
    obtain ⟨hv, rfl⟩ := hv
    exact ⟨hT.insert hk hv, rfl⟩
  erase hT hk := by
    obtain ⟨hT, rfl⟩ := hT
    obtain ⟨-, rfl⟩ := hk
    exact ⟨hT.filter _, rfl⟩
  entry hT hk := by
    obtain ⟨hT, rfl⟩ := hT
    obtain ⟨-, rfl⟩ := hk
    exact optionRel_diagonal.mpr ⟨fun _ => hT.get?, rfl⟩
  union hT hU := by
    obtain ⟨hT, rfl⟩ := hT
    obtain ⟨hU, rfl⟩ := hU
    exact ⟨hT.union hU, rfl⟩
  inter hT hU := by
    obtain ⟨hT, rfl⟩ := hT
    obtain ⟨-, rfl⟩ := hU
    exact ⟨hT.filter _, rfl⟩
  equalTables hT hU := by rw [hT.2, hU.2]
  ruleApplied ht hu := by
    obtain ⟨-, rfl⟩ := ht
    obtain ⟨-, rfl⟩ := hu
    exact wellFormed_report _
  trace label ht := by
    obtain ⟨-, rfl⟩ := ht
    rintro σ _ ⟨hσ, rfl⟩
    exact .ok rfl ⟨hσ, rfl⟩ trivial
  fixpoint := wellFormed_report _

end Correspondence

namespace Strategy

variable {s : Strategy} {t : Term} {σ τ : State} {o : Outcome Term}

theorem Ends.wellFormed (hs : s.WellFormed) (ht : t.WellFormed) (hσ : σ.context.WellFormed)
    (h : Ends [] s t σ o τ) : (∀ u, o = .ok u → u.WellFormed) ∧ τ.context.WellFormed := by
  obtain ⟨n, hn, ho⟩ := h
  have hrun := simulates_apply Correspondence.wellFormed_lawful (Nat.le_refl n) (ρ := []) nofun hs
    ⟨ht, rfl⟩ σ σ ⟨hσ, rfl⟩
  rw [hn] at hrun
  cases hrun with
  | ok hu hτ _ =>
      refine ⟨?_, hτ.1⟩
      rintro _ ⟨⟩
      exact hu.1
  | failure hτ _ => exact ⟨nofun, hτ.1⟩
  | fatal _ hτ _ => exact ⟨nofun, hτ.1⟩
  | exhausted => exact absurd rfl ho

/-- Only well-formed terms come from factories, and strategies make no others from them:
neither as results nor as values and table entries, whatever they end with. -/
theorem wellFormed_everywhere :
    (∀ f : Factory, f.Reachable → ∀ t, f.Returns t → t.WellFormed) ∧
    ∀ (s : Strategy) (t : Term) (σ : State), s.WellFormed → t.WellFormed →
      σ.context.WellFormed → ∀ o τ, Ends [] s t σ o τ →
        (∀ u, o = .ok u → u.WellFormed) ∧ τ.context.WellFormed :=
  ⟨fun _ hf _ => hf.wellFormed_of_returns,
    fun _ _ _ hs ht hσ _ _ h => h.wellFormed hs ht hσ⟩

theorem wellFormed_everywhere_spread :
    ∃ (p : Factory.Parsed) (s : Strategy) (σ τ : State) (u : Term),
      Factory.new.Reachable ∧ Factory.new.parse "[1,*y]{P}" = .ok p ∧
      s.WellFormed ∧ σ.context.WellFormed ∧ Ends [] s p.term σ (.ok u) τ ∧
      u.isList = false ∧ p.term.WellFormed ∧ u.WellFormed ∧ τ.context.WellFormed := by
  -- dropping the only element of the list leaves the spread, with the annotation
  let w : Written :=
    .annotated (.list [.int 1] (some (.var "y" none))) [.appl (.name "P") [] none]
  let t : Term := (Factory.share w 2).1
  let u : Term := .make (.var "y" Factory.wildcard) t.annotations
  let s : Strategy := seq (pattern (.var .derived "x" (.wildcard .derived))) (filter fail)
  let σ : State := ⟨Context.empty.push (.declaring ["x"]), []⟩
  have hlex : Token.lex "[1,*y]{P}".toList =
      [.openBracket, .int 1, .comma, .star, .lowerId "y", .closeBracket, .openBrace,
        .upperId "P", .closeBrace] := by decide +kernel
  have hw : Written.parse "[1,*y]{P}" = .ok w := by
    rw [Written.parse, hlex]
    rfl
  have hparse : ∃ p, Factory.new.parse "[1,*y]{P}" = .ok p ∧ p.term = t := by
    have hmiss : Factory.new.cache.get? "[1,*y]{P}" = none := rfl
    simp only [Factory.parse, hmiss, hw]
    exact ⟨_, rfl, rfl⟩
  obtain ⟨p, hp, hterm⟩ := hparse
  have hs : s.WellFormed := by
    refine .intro (List.forall_mem_nil _)
      (List.forall_mem_cons.mpr ⟨?_, List.forall_mem_singleton.mpr ?_⟩)
    · exact .intro (List.forall_mem_singleton.mpr trivial) (List.forall_mem_nil _)
    · exact .intro (List.forall_mem_nil _) (List.forall_mem_singleton.mpr
        (.intro (List.forall_mem_nil _) (List.forall_mem_nil _)))
  have hσ : σ.context.WellFormed :=
    List.forall_mem_cons.mpr ⟨.declaring ["x"], List.forall_mem_singleton.mpr .empty⟩
  have hrun : (s.apply 4 [] t σ).1 = .ok u := by decide +kernel
  have hends := Ends.of_fst hrun (by simp)
  have hreach : Factory.new.Reachable := .withCapacity _
  obtain ⟨hfactory, hstrategy⟩ := wellFormed_everywhere
  have ht : t.WellFormed := hterm ▸ hfactory _ hreach _ (.parse hp)
  obtain ⟨hu, hτ⟩ := hstrategy s t σ hs ht hσ _ _ hends
  refine ⟨p, s, σ, _, u, hreach, hp, hs, hσ, ?_, rfl, ?_, hu u rfl, hτ⟩ <;> rw [hterm]
  · exact hends
  · exact ht

end Strategy

end StrategicRewriting
