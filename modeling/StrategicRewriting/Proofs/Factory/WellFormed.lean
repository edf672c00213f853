import StrategicRewriting.Proofs.Term.WellFormed
import StrategicRewriting.Proofs.Written.RoundTrip

/-!
Factories make well-formed terms. What a text can spread are lists, variables and
wildcards, so sharing puts nothing else at the end of a list; the other constructors look
at what they are given. What a factory remembers was made in the same way.
-/
namespace StrategicRewriting

namespace Written

mutual

/-- Every spread may stand for the rest of a list. -/
def WellFormed : Written → Prop
  | .int _ | .real _ | .str _ | .wildcard | .var _ none => True
  | .list es spread | .appl _ es spread => AllWellFormed es ∧ TailWellFormed spread
  | .var _ (some c) => c.WellFormed
  | .annotated w as => w.WellFormed ∧ AllWellFormed as

def AllWellFormed : List Written → Prop
  | [] => True
  | w :: ws => w.WellFormed ∧ AllWellFormed ws

def TailWellFormed : Option Written → Prop
  | none => True
  | some w => w.WellFormed ∧ w.isSpreadable

end

/-! Texts. -/

mutual

theorem ReadsTerm.wellFormed {ts rest : List Token} {w : Written} :
    ReadsTerm ts w rest → w.WellFormed
  | .plain h _ => h.wellFormed
  | .annotated h hs => ⟨h.wellFormed, hs.wellFormed.1⟩

theorem ReadsAtom.wellFormed {ts rest : List Token} {w : Written} :
    ReadsAtom ts w rest → w.WellFormed
  | .int _ | .real _ | .str _ | .var _ _ _ | .wildcard _ => trivial
  | .emptyList | .constant _ _ | .noArgs _ => ⟨trivial, trivial⟩
  | .list h hw => list_of_ofElements hw ▸ h.wellFormed
  | .appl _ h => h.wellFormed
  | .constrained _ h => h.wellFormed

theorem ReadsElements.wellFormed {closer : Closer} {ts rest : List Token} {es : Elements} :
    ReadsElements closer ts es rest → AllWellFormed es.items ∧ TailWellFormed es.spread
  | .spread h hs => ⟨trivial, h.wellFormed, hs⟩
  | .last h => ⟨⟨h.wellFormed, trivial⟩, trivial⟩
  | .more h hs => ⟨⟨h.wellFormed, hs.wellFormed.1⟩, hs.wellFormed.2⟩

end

theorem wellFormed_of_parse {src : String} {w : Written} (h : parse src = .ok w) : w.WellFormed :=
  (ofTokens_eq_ok_iff.mp h).wellFormed

theorem wellFormed_functor (fn : Functor) : fn.denote.WellFormed ∧ fn.denote.isFunctor := by
  cases fn <;> exact ⟨trivial, rfl⟩

mutual

theorem wellFormed_denote : ∀ w : Written, w.WellFormed →
    w.denote.WellFormed ∧ (w.isSpreadable → w.denote.isTail)
  | .int _, _ | .real _, _ | .str _, _ => ⟨trivial, nofun⟩
  | .wildcard, _ | .var _ none, _ => ⟨trivial, fun _ => rfl⟩
  | .var _ (some c), h => ⟨(wellFormed_denote c h).1, fun _ => rfl⟩
  | .list es spread, h => by
      -- without elements the list is its own spread, which has to be the end of a list too
      obtain ⟨htail, hend⟩ := wellFormed_denoteTail spread h.2
      obtain ⟨hlist, hend⟩ := Term.wellFormed_listOnto htail hend (wellFormed_denoteAll es h.1)
      exact ⟨hlist, fun _ => hend⟩
  | .appl fn es spread, h => by
      obtain ⟨htail, hend⟩ := wellFormed_denoteTail spread h.2
      obtain ⟨hlist, hend⟩ := Term.wellFormed_listOnto htail hend (wellFormed_denoteAll es h.1)
      obtain ⟨hfn, hfunctor⟩ := wellFormed_functor fn
      exact ⟨⟨hfn, hlist, hfunctor, hend⟩, nofun⟩
  | .annotated w [], h =>
      ⟨(Term.wellFormed_ofShape .derived).mpr (wellFormed_denote w h.1).1.shape, nofun⟩
  | .annotated w (a :: as), h =>
      ⟨Term.wellFormed_make_listOnto (wellFormed_denote w h.1).1 (List.cons_ne_nil _ _)
        (wellFormed_denoteAll (a :: as) h.2), nofun⟩

theorem wellFormed_denoteAll : ∀ ws : List Written, AllWellFormed ws →
    ∀ t ∈ denoteAll ws, t.WellFormed
  | [], _ => nofun
  | w :: ws, h =>
      List.forall_mem_cons.mpr ⟨(wellFormed_denote w h.1).1, wellFormed_denoteAll ws h.2⟩

theorem wellFormed_denoteTail : ∀ spread : Option Written, TailWellFormed spread →
    (denoteTail spread).WellFormed ∧ (denoteTail spread).isTail
  | none, _ => ⟨trivial, rfl⟩
  | some w, h => (wellFormed_denote w h.1).imp_right fun hend => hend h.2

end

end Written

namespace Cache

variable {c c' : Cache} {src : String} {t : Term}

theorem mem_of_get? (h : c.get? src = some (t, c')) :
    (src, t) ∈ c.entries ∧ ∀ e ∈ c'.entries, e ∈ c.entries := by
  rw [get?] at h
  split at h
  · cases h
  · rename_i entry hentry
    cases h
    have hmem := List.mem_of_find?_eq_some hentry
    obtain rfl : entry.1 = src := by simpa using List.find?_some hentry
    refine ⟨hmem, ?_⟩
    intro e he
    rcases List.mem_cons.mp he with rfl | he
    · exact hmem
    · exact (List.mem_filter.mp he).1

theorem mem_of_mem_push {e : String × Term} (h : e ∈ (c.push src t).1.entries) :
    e = (src, t) ∨ e ∈ c.entries := by
  rw [push] at h
  split at h
  · exact .inr h
  · split at h
    · exact List.mem_cons.mp h
    · exact (List.mem_cons.mp h).imp_right ((List.dropLast_sublist _).mem ·)

end Cache

namespace Factory

open Term

variable {f : Factory}

/-- A text is remembered, or parsed and shared. -/
theorem parse_cases {src : String} {p : Parsed} (h : f.parse src = .ok p) :
    (∃ c, f.cache.get? src = some (p.term, c) ∧ p.factory = { f with cache := c }) ∨
    f.cache.get? src = none ∧ ∃ w, Written.parse src = .ok w ∧ p.term = (share w f.next).1 ∧
      p.factory = ⟨(f.cache.push src p.term).1, (share w f.next).2⟩ := by
  rw [Factory.parse] at h
  split at h
  · rename_i t c hget
    cases h
    exact .inl ⟨c, hget, rfl⟩
  · rename_i hget
    obtain ⟨w, hw, h⟩ := Written.steps_of_ok h
    cases h
    exact .inr ⟨hget, w, hw, rfl, rfl⟩

theorem wellFormed_share {w : Written} (h : w.WellFormed) (n : Nat) :
    (share w n).1.WellFormed := by
  rw [← wellFormed_unnumbered, unnumbered_share]
  exact (Written.wellFormed_denote w h).1

theorem wellFormed_listOnto {tail : Term} {ts : List Term} (htail : tail.WellFormed)
    (hend : tail.isTail) (hts : ∀ t ∈ ts, t.WellFormed) (n : Nat) :
    (listOnto tail ts n).1.WellFormed ∧ (listOnto tail ts n).1.isTail := by
  rw [← wellFormed_unnumbered, ← isTail_unnumbered, unnumbered_listOnto]
  refine Term.wellFormed_listOnto ((wellFormed_unnumbered tail).mpr htail)
    ((isTail_unnumbered tail).trans hend) ?_
  intro t ht
  obtain ⟨u, hu, rfl⟩ := List.mem_map.mp ht
  exact (wellFormed_unnumbered u).mpr (hts u hu)

theorem wellFormed_nil : nil.WellFormed :=
  trivial

/-- All remembered terms are well-formed. -/
def WellFormed (f : Factory) : Prop :=
  ∀ e ∈ f.cache.entries, e.2.WellFormed

theorem WellFormed.parse {src : String} {p : Parsed} (hf : f.WellFormed)
    (h : f.parse src = .ok p) : p.term.WellFormed ∧ p.factory.WellFormed := by
  rcases parse_cases h with ⟨c, hget, hp⟩ | ⟨-, w, hw, hterm, hp⟩
  · obtain ⟨ht, hentries⟩ := Cache.mem_of_get? hget
    rw [hp]
    exact ⟨hf _ ht, fun e he => hf e (hentries e he)⟩
  · have ht : p.term.WellFormed := by
      rw [hterm]
      exact wellFormed_share (Written.wellFormed_of_parse hw) f.next
    refine ⟨ht, fun e he => ?_⟩
    rw [hp] at he
    rcases Cache.mem_of_mem_push he with rfl | he
    · exact ht
    · exact hf e he

/-- What becomes of a new factory that parses and constructs terms, of whatever kind. -/
inductive Reachable : Factory → Prop
  | withCapacity (n : Nat) : Reachable (withCapacity n)
  | parse {f : Factory} {src : String} {p : Parsed} :
      Reachable f → f.parse src = .ok p → Reachable p.factory
  | number {f : Factory} {α : Type} (make : StateM Nat α) :
      Reachable f → Reachable (f.number make).2

theorem Reachable.wellFormed (h : Reachable f) : f.WellFormed := by
  induction h with
  | withCapacity n => exact nofun
  | parse _ hp ih => exact (ih.parse hp).2
  | number make _ ih => exact ih

/-- The term comes from the factory, by parsing or from well-formed arguments. -/
inductive Returns (f : Factory) : Term → Prop
  | parse {src : String} {p : Parsed} : f.parse src = .ok p → Returns f p.term
  | share {w : Written} : w.WellFormed → Returns f (f.number (share w)).1
  | int (i : Int64) : Returns f (f.number (node (.int i))).1
  | real (r : Double) : Returns f (f.number (node (.real r))).1
  | str (s : String) : Returns f (f.number (node (.str s))).1
  | nil : Returns f nil
  | wildcard : Returns f wildcard
  | var (x : String) : Returns f (f.number (varNode x wildcard)).1
  | varWith (x : String) {c : Term} : c.WellFormed → Returns f (f.number (varNode x c)).1
  | cons {h tl : Term} {r : Term × Factory} :
      h.WellFormed → tl.WellFormed → f.cons h tl = .ok r → Returns f r.1
  | list {ts : List Term} : (∀ t ∈ ts, t.WellFormed) → Returns f (f.list ts).1
  | listWithTail {ts : List Term} {tail : Term} {r : Term × Factory} :
      (∀ t ∈ ts, t.WellFormed) → tail.WellFormed → f.listWithTail ts tail = .ok r → Returns f r.1
  | appl (name : String) {args : List Term} :
      (∀ t ∈ args, t.WellFormed) → Returns f (f.appl name args).1
  | applTerm {functor args : Term} {r : Term × Factory} :
      functor.WellFormed → args.WellFormed → f.applTerm functor args = .ok r → Returns f r.1
  | annotate {t annos : Term} {r : Term × Factory} :
      t.WellFormed → annos.WellFormed → f.annotate t annos = .ok r → Returns f r.1

theorem wellFormed_of_cons {h tl : Term} {r : Term × Factory} (hh : h.WellFormed)
    (htl : tl.WellFormed) (heq : f.cons h tl = .ok r) : r.1.WellFormed := by
  rw [cons] at heq
  split at heq
  · rename_i hend
    cases heq
    exact ⟨hh, htl, hend⟩
  · cases heq

theorem wellFormed_of_listWithTail {ts : List Term} {tail : Term} {r : Term × Factory}
    (hts : ∀ t ∈ ts, t.WellFormed) (htail : tail.WellFormed)
    (heq : f.listWithTail ts tail = .ok r) : r.1.WellFormed := by
  rw [listWithTail] at heq
  split at heq
  · rename_i hend
    cases heq
    exact (wellFormed_listOnto htail (Bool.and_eq_true_iff.mp hend).1 hts f.next).1
  · cases heq

theorem wellFormed_appl (name : String) {args : List Term} (hargs : ∀ t ∈ args, t.WellFormed) :
    (f.appl name args).1.WellFormed := by
  obtain ⟨hlist, hend⟩ := wellFormed_listOnto wellFormed_nil rfl hargs (f.next + 1)
  exact ⟨trivial, hlist, rfl, hend⟩

theorem applTerm_eq (f : Factory) (functor args : Term) :
    f.applTerm functor args =
      if functor.isFunctor then
        if args.isTail then .ok (f.number (node (.appl functor args))) else .error (.notAList args)
      else .error (.notAString functor) := by
  rw [applTerm, isFunctor]
  cases functor.shape <;> rfl

theorem wellFormed_of_applTerm {functor args : Term} {r : Term × Factory}
    (hfunctor : functor.WellFormed) (hargs : args.WellFormed)
    (heq : f.applTerm functor args = .ok r) : r.1.WellFormed := by
  rw [applTerm_eq] at heq
  split at heq
  · rename_i hname
    split at heq
    · rename_i hend
      cases heq
      exact ⟨hfunctor, hargs, hname, hend⟩
    · cases heq
  · cases heq

theorem wellFormed_of_annotate {t annos : Term} {r : Term × Factory} (ht : t.WellFormed)
    (hannos : annos.WellFormed) (heq : f.annotate t annos = .ok r) : r.1.WellFormed := by
  rw [annotate] at heq
  cases hset : t.setAnnotations annos with
  | ok u =>
      rw [hset] at heq
      cases heq
      exact (ht.setAnnotations hannos hset).withOrigin _
  | error e =>
      rw [hset] at heq
      cases heq

theorem Reachable.wellFormed_of_returns {t : Term} (hf : f.Reachable) (h : f.Returns t) :
    t.WellFormed := by
  cases h with
  | parse hp => exact (hf.wellFormed.parse hp).1
  | share hw => exact wellFormed_share hw f.next
  | int _ | real _ | str _ | nil | wildcard | var _ => trivial
  | varWith x hc => exact hc
  | cons hh htl heq => exact wellFormed_of_cons hh htl heq
  | list hts => exact (wellFormed_listOnto wellFormed_nil rfl hts f.next).1
  | listWithTail hts htail heq => exact wellFormed_of_listWithTail hts htail heq
  | appl name hargs => exact wellFormed_appl name hargs
  | applTerm hfunctor hargs heq => exact wellFormed_of_applTerm hfunctor hargs heq
  | annotate ht hannos heq => exact wellFormed_of_annotate ht hannos heq

end Factory

end StrategicRewriting
