import StrategicRewriting.Format.Program
import StrategicRewriting.Proofs.Factory.WellFormed
import StrategicRewriting.Proofs.Pattern.AnnotationFree
import StrategicRewriting.Proofs.Strategy.Traversal
import StrategicRewriting.Proofs.Term.Shown

/-!
What is left of a term when the formatter strips it. The traversal goes to all elements and
arguments, and as texts have annotations only there and on whole terms, it takes away all
annotations that are not inside the constraint of a variable. Constraints stay as they are,
with the annotations in them.
-/
namespace StrategicRewriting

open Token (Stops lex)

namespace Term

/-- Apart from constraints and annotations themselves, only elements, arguments and the whole
term may have annotations. -/
def Placed : Term → Prop
  | .int .. | .real .. | .str .. | .nil _ | .wildcard _ | .var .. => True
  | .cons _ h t => h.Placed ∧ t.Placed ∧ t.isPlainTail
  | .appl _ f as => f.isFunctor ∧ f.annotations = none ∧ as.Placed ∧ as.isPlainTail
  | .annotated _ b _ => b.Placed ∧ b.annotations = none

/-- The term without annotations, except for those in the constraints of variables. -/
def cleared : Term → Term
  | .int _ i => .int .derived i
  | .real _ r => .real .derived r
  | .str _ s => .str .derived s
  | .nil _ => .nil .derived
  | .cons _ h t => .cons .derived h.cleared t.cleared
  | .appl _ f as => .appl .derived f.cleared as.cleared
  | .wildcard _ => .wildcard .derived
  | .var _ x c => .var .derived x c.unnumbered
  | .annotated _ b _ => b.cleared

/-- No constraint of a variable contains annotations, those inside annotations apart. -/
def PlainConstraints : Term → Prop
  | .int .. | .real .. | .str .. | .nil _ | .wildcard _ => True
  | .cons _ l r | .appl _ l r => l.PlainConstraints ∧ r.PlainConstraints
  | .var _ _ c => c.AnnotationFree
  | .annotated _ b _ => b.PlainConstraints

end Term

/-- The terms right below a node, without annotations except in constraints. -/
def Shape.cleared : Shape → Shape
  | .cons h t => .cons h.cleared t.cleared
  | .appl f as => .appl f.cleared as.cleared
  | .var x c => .var x c.unnumbered
  | s => s

namespace Term

variable {t u : Term}

theorem cleared_eq_ofShape (t : Term) : t.cleared = ofShape .derived t.shape.cleared := by
  induction t with
  | annotated o b as ih _ => exact ih
  | _ => rfl

theorem bare_cleared (t : Term) : t.cleared.bare = t.bare := by
  induction t with
  | cons o l r ihl ihr | appl o l r ihl ihr => simp only [cleared, bare, ihl, ihr]
  | var o x c => simp only [cleared, bare, bare_unnumbered]
  | annotated o b as ih _ => exact ih
  | _ => rfl

theorem annotationFree_unnumbered (t : Term) : t.unnumbered.AnnotationFree ↔ t.AnnotationFree := by
  induction t with
  | cons o l r ihl ihr | appl o l r ihl ihr => simp only [unnumbered, AnnotationFree, ihl, ihr]
  | var o x c ih => exact ih
  | _ => exact Iff.rfl

theorem annotationFree_cleared (t : Term) : t.cleared.AnnotationFree ↔ t.PlainConstraints := by
  induction t with
  | cons o l r ihl ihr | appl o l r ihl ihr =>
      simp only [cleared, AnnotationFree, PlainConstraints, ihl, ihr]
  | var o x c => exact annotationFree_unnumbered c
  | annotated o b as ih _ => exact ih
  | _ => exact Iff.rfl

/-! One node. -/

theorem unnumbered_of_annotations (h : t.annotations = none) :
    t.unnumbered = ofShape .derived (t.shape.map unnumbered) := by
  cases t with
  | annotated o b as => cases h
  | _ => rfl

theorem unnumbered_stripAnnotations (t : Term) :
    t.stripAnnotations.unnumbered = ofShape .derived (t.shape.map unnumbered) := by
  rw [stripAnnotations]
  split
  · rename_i hnone
    exact unnumbered_of_annotations hnone
  · exact unnumbered_ofShape .derived t.shape

theorem isTail_of_isPlainTail (h : t.isPlainTail) : t.isTail ∧ t.annotations = none := by
  cases t with
  | nil o | cons o h tl | var o x c | wildcard o => exact ⟨rfl, rfl⟩
  | _ => cases h

/-- Variables and wildcards without annotations are left as they are. -/
theorem unnumbered_of_spread (h : t.isPlainTail) (hlist : ¬ t.isList) :
    t.unnumbered = t.cleared := by
  cases t with
  | var o x c | wildcard o => rfl
  | nil o | cons o hd tl => exact absurd rfl hlist
  | _ => cases h

theorem unnumbered_of_isFunctor (h : t.isFunctor) (hnone : t.annotations = none) :
    t.unnumbered = t.cleared := by
  cases t with
  | str o s | var o x c | wildcard o => rfl
  | annotated o b as => cases hnone
  | _ => cases h

theorem Placed.of_cons {h tl : Term} (ht : t.Placed) (hshape : t.shape = .cons h tl) :
    h.Placed ∧ tl.Placed ∧ tl.isPlainTail := by
  induction t with
  | cons o h' tl' =>
      cases hshape
      exact ht
  | annotated o b as ih _ => exact ih ht.1 hshape
  | _ => cases hshape

theorem Placed.of_appl {functor args : Term} (ht : t.Placed)
    (hshape : t.shape = .appl functor args) :
    functor.isFunctor ∧ functor.annotations = none ∧ args.Placed ∧ args.isPlainTail := by
  induction t with
  | appl o f as =>
      cases hshape
      exact ht
  | annotated o b as ih _ => exact ih ht.1 hshape
  | _ => cases hshape

theorem Placed.elems (ht : t.Placed) : ∀ e ∈ t.elems, e.Placed := by
  induction t with
  | cons o h tl _ ih => exact List.forall_mem_cons.mpr ⟨ht.1, ih ht.2.1⟩
  | annotated o b as ih _ => exact ih ht.1
  | _ => exact List.forall_mem_nil _

theorem Placed.children (ht : t.Placed) : ∀ c ∈ t.children, c.Placed := by
  rw [Term.children]
  split
  · exact ht.elems
  · exact ht.elems
  · rename_i functor args hshape
    split
    · exact (ht.of_appl hshape).2.2.1.elems
    · exact List.forall_mem_nil _
  · exact List.forall_mem_nil _

end Term

namespace Spine

open Term

variable {t : Term} {us : List Term}

/-- A list with cleared elements is cleared but for its first node, as the other ones have no
annotations. -/
theorem shape_replaced_cleared (ht : t.Placed) (htail : t.isTail)
    (h : List.Forall₂ (fun e u => u.unnumbered = e.cleared) t.elems us) :
    (replaced t (us.map some)).shape.map unnumbered = t.shape.cleared := by
  induction t using spine_induction generalizing us with
  | cons t hd tl hshape ih =>
      obtain ⟨-, htl, hplain⟩ := ht.of_cons hshape
      obtain ⟨htail, hnone⟩ := isTail_of_isPlainTail hplain
      rw [elems_of_cons hshape] at h
      obtain ⟨u, us, hu, hus, rfl⟩ := List.forall₂_cons_left_iff.mp h
      have hrest := unnumbered_of_annotations ((annotations_replaced tl us).trans hnone)
      rw [ih htl htail hus, ← cleared_eq_ofShape] at hrest
      rw [List.map_cons, shape_replaced_some hshape, hshape, Shape.map, hu, hrest]
      rfl
  | other t hshape =>
      rw [replaced_of_not_cons hshape]
      rw [isTail] at htail
      cases hs : t.shape <;> simp_all [Shape.map, Shape.cleared]

theorem unnumbered_rebuild (ht : t.Placed) (hplain : t.isPlainTail)
    (h : List.Forall₂ (fun e u => u.unnumbered = e.cleared) t.elems us) :
    (rebuild t (us.map some)).unnumbered = t.cleared := by
  obtain ⟨htail, hnone⟩ := isTail_of_isPlainTail hplain
  rw [rebuild_map_some_eq, unnumbered_of_annotations ((annotations_replaced t us).trans hnone),
    shape_replaced_cleared ht htail h, ← cleared_eq_ofShape]

theorem shape_withChildren_cleared (ht : t.Placed)
    (h : List.Forall₂ (fun c u => u.unnumbered = c.cleared) t.children us) :
    (withChildren t us).shape.map unnumbered = t.shape.cleared := by
  simp only [children] at h
  cases hshape : t.shape with
  | nil | cons hd tl =>
      simp only [hshape] at h
      have htail : t.isTail := by rw [isTail, hshape]
      simp only [withChildren, hshape]
      rw [rebuild_map_some_eq, shape_replaced_cleared ht htail h, hshape]
  | appl functor args =>
      obtain ⟨hfunctor, hnone, hargs, hplain⟩ := ht.of_appl hshape
      rw [shape_withChildren_appl hshape, Shape.map, unnumbered_of_isFunctor hfunctor hnone,
        Shape.cleared]
      simp only [hshape] at h
      split at h
      · rename_i hlist
        rw [if_pos hlist, unnumbered_rebuild hargs hplain h]
      · rename_i hlist
        rw [if_neg hlist, unnumbered_of_spread hplain hlist]
  | _ =>
      simp only [withChildren, hshape]
      rfl

end Spine

namespace Strategy

open Term

/-- Stripping bottom-up always succeeds and clears the term. -/
theorem exists_maps_strip {t : Term} (ht : t.Placed) (ρ : Env) :
    ∃ u, Maps ρ (bottomup .strip) t u ∧ u.unnumbered = t.cleared := by
  induction t using children_induction with
  | node t ih =>
      obtain ⟨us, hus⟩ := exists_forall₂ fun c hc => ih c hc (ht.children c hc)
      have hmaps := hus.imp fun _ _ h => h.1
      have hcleared := hus.imp fun _ _ h => h.2
      refine ⟨_, .bottomup hmaps fun ρ => maps_strip ρ _, ?_⟩
      rw [unnumbered_stripAnnotations, Spine.shape_withChildren_cleared ht hcleared,
        ← cleared_eq_ofShape]

end Strategy

/-! Terms that are read from texts. -/

namespace Term

variable {t : Term}

theorem placed_ofShape (h : t.Placed) : (ofShape .derived t.shape).Placed := by
  induction t with
  | annotated o b as ih _ => exact ih h.1
  | _ => exact h

theorem spelled_ofShape (h : t.Spelled) : (ofShape .derived t.shape).Spelled := by
  induction t with
  | annotated o b as ih _ => exact ih h.1
  | _ => exact h

theorem isPlainTail_unnumbered (t : Term) : t.unnumbered.isPlainTail = t.isPlainTail := by
  cases t <;> rfl

theorem placed_unnumbered (t : Term) : t.unnumbered.Placed ↔ t.Placed := by
  induction t with
  | cons o h tl ihh iht => simp only [unnumbered, Placed, ihh, iht, isPlainTail_unnumbered]
  | appl o f as _ ihas =>
      simp only [unnumbered, Placed, ihas, isFunctor_unnumbered, annotations_unnumbered,
        Option.map_eq_none_iff, isPlainTail_unnumbered]
  | annotated o b as ihb _ =>
      simp only [unnumbered, Placed, ihb, annotations_unnumbered, Option.map_eq_none_iff]
  | _ => exact Iff.rfl

end Term

namespace Written

open Term

theorem placed_functor {fn : Functor} (h : fn.token.WellNamed) :
    fn.denote.isFunctor ∧ fn.denote.annotations = none ∧ fn.denote.Spelled ∧
      fn.denote.toStr?.all (Token.isUpperName ·.toList) := by
  cases fn with
  | name s => exact ⟨rfl, rfl, trivial, h⟩
  | var x => exact ⟨rfl, rfl, ⟨h, trivial⟩, rfl⟩
  | wildcard => exact ⟨rfl, rfl, trivial, rfl⟩

mutual

theorem ReadsTerm.placed {ts rest : List Token} {w : Written} :
    ReadsTerm ts w rest → (∀ t ∈ ts, t.WellNamed) →
      w.denote.Placed ∧ w.denote.Spelled ∧ (w.isSpreadable → w.denote.isPlainTail)
  | .plain h _, hts => h.placed hts
  | @ReadsTerm.annotated _ _ _ _ annos h hs, hts => by
      obtain ⟨hw, hspelled, -⟩ := h.placed hts
      obtain ⟨-, hannos, -⟩ := hs.placed fun t ht =>
        hts t (h.shortens.suffix.subset (List.mem_cons_of_mem _ ht))
      cases annos with
      | nil => exact ⟨placed_ofShape hw, spelled_ofShape hspelled, nofun⟩
      | cons a annos =>
          exact ⟨⟨placed_ofShape hw, annotations_ofShape .derived _⟩,
            ⟨spelled_ofShape hspelled, hannos⟩, nofun⟩

theorem ReadsAtom.placed {ts rest : List Token} {w : Written} :
    ReadsAtom ts w rest → (∀ t ∈ ts, t.WellNamed) →
      w.denote.Placed ∧ w.denote.Spelled ∧ (w.isSpreadable → w.denote.isPlainTail)
  | .int _, _ | .real _, _ | .str _, _ => ⟨trivial, trivial, nofun⟩
  | .wildcard _, _ | .emptyList, _ => ⟨trivial, trivial, fun _ => rfl⟩
  | .list h hw, hts => by
      obtain ⟨hes, hspelled, hplain⟩ := h.placed (List.forall_mem_cons.mp hts).2
      obtain rfl := list_of_ofElements hw
      exact ⟨hes, hspelled, fun _ => hplain⟩
  | .constant s _, hts =>
      ⟨⟨rfl, rfl, trivial, rfl⟩, ⟨hts _ List.mem_cons_self, trivial, trivial⟩, nofun⟩
  | .noArgs fn, hts => by
      obtain ⟨hfn, hnone, hspelled, hname⟩ := placed_functor (hts _ List.mem_cons_self)
      exact ⟨⟨hfn, hnone, trivial, rfl⟩, ⟨hname, hspelled, trivial⟩, nofun⟩
  | .appl fn h, hts => by
      obtain ⟨hfn, hnone, hspelled, hname⟩ := placed_functor (hts _ List.mem_cons_self)
      obtain ⟨hes, hspelled', hplain⟩ := h.placed fun t ht =>
        hts t (List.mem_cons_of_mem _ (List.mem_cons_of_mem _ ht))
      exact ⟨⟨hfn, hnone, hes, hplain⟩, ⟨hname, hspelled, hspelled'⟩, nofun⟩
  | .constrained x h, hts => by
      obtain ⟨-, hspelled, -⟩ := h.placed fun t ht =>
        hts t (List.mem_cons_of_mem _ (List.mem_cons_of_mem _ ht))
      exact ⟨trivial, ⟨hts _ List.mem_cons_self, hspelled⟩, fun _ => rfl⟩
  | .var x _ _, hts => ⟨trivial, ⟨hts _ List.mem_cons_self, trivial⟩, fun _ => rfl⟩

theorem ReadsElements.placed {closer : Closer} {ts rest : List Token} {es : Elements} :
    ReadsElements closer ts es rest → (∀ t ∈ ts, t.WellNamed) →
      es.denote.Placed ∧ es.denote.Spelled ∧ es.denote.isPlainTail
  | .spread h hs, hts => by
      obtain ⟨hw, hspelled, hplain⟩ := h.placed (List.forall_mem_cons.mp hts).2
      exact ⟨hw, hspelled, hplain hs⟩
  | .last h, hts => by
      obtain ⟨hw, hspelled, -⟩ := h.placed hts
      exact ⟨⟨hw, trivial, rfl⟩, ⟨hspelled, trivial⟩, rfl⟩
  | .more h hs, hts => by
      obtain ⟨hw, hspelled, -⟩ := h.placed hts
      obtain ⟨hes, hspelled', hplain⟩ := hs.placed fun t ht =>
        hts t (h.shortens.suffix.subset (List.mem_cons_of_mem _ ht))
      exact ⟨⟨hw, hes, hplain⟩, ⟨hspelled, hspelled'⟩, rfl⟩

end

theorem placed_of_parse {src : String} {w : Written} (h : parse src = .ok w) :
    w.denote.Placed ∧ w.denote.Spelled := by
  obtain ⟨hplaced, hspelled, -⟩ :=
    (ofTokens_eq_ok_iff.mp h).placed fun _ => Token.wellNamed_of_mem_lex
  exact ⟨hplaced, hspelled⟩

end Written

/-! Texts without annotations. -/

/-- The text gives tokens of its own before those of what follows it, and no open brace. -/
def Token.Unbraced (cs rest : List Char) : Prop :=
  ∃ ts, lex (cs ++ rest) = ts ++ lex rest ∧ .openBrace ∉ ts

namespace Token.Unbraced

variable {cs ds rest : List Char}

theorem nil (rest : List Char) : Unbraced [] rest :=
  ⟨[], rfl, List.not_mem_nil⟩

theorem of_token {t : Token} (h : lex (cs ++ rest) = t :: lex rest) (ht : .openBrace ≠ t) :
    Unbraced cs rest :=
  ⟨[t], h, List.not_mem_cons_of_ne_of_not_mem ht List.not_mem_nil⟩

theorem append (h : Unbraced cs (ds ++ rest)) (h' : Unbraced ds rest) :
    Unbraced (cs ++ ds) rest := by
  obtain ⟨ts, hts, hnot⟩ := h
  obtain ⟨us, hus, hnot'⟩ := h'
  refine ⟨ts ++ us, ?_, fun hmem => (List.mem_append.mp hmem).elim hnot hnot'⟩
  rw [List.append_assoc, hts, hus, List.append_assoc]

theorem cons {c : Char} (h : Unbraced [c] (ds ++ rest)) (h' : Unbraced ds rest) :
    Unbraced (c :: ds) rest :=
  h.append h'

theorem symbol (t : Token) {c : Char} (h : lex (c :: rest) = t :: lex rest) (ht : .openBrace ≠ t) :
    Unbraced [c] rest :=
  of_token h ht

theorem lead (p : Position) (rest : List Char) : Unbraced p.lead rest := by
  cases p with
  | alone => exact nil rest
  | first => exact symbol .star rfl (by simp)
  | later => exact cons (symbol .comma rfl (by simp)) (symbol .star rfl (by simp))

/-- The infinities and the numbers that are none are read as names. -/
theorem double (r : Double) (hrest : Stops rest) : Unbraced r.render rest := by
  cases hr : r.isFinite with
  | true => exact of_token (lex_render_double r hr hrest) (by simp)
  | false =>
      have hle : Double.infinity ≤ r.magnitude := by simpa [Double.isFinite] using hr
      have hzero : r.magnitude ≠ 0 := Nat.ne_of_gt (Nat.lt_of_lt_of_le (by decide) hle)
      have hinf : Unbraced ['i', 'n', 'f'] rest := of_token (lex_lowerName rfl hrest) (by simp)
      rw [Double.render, if_neg hzero, if_neg (Nat.not_lt.mpr hle)]
      split
      · split
        · exact append (symbol .unknown rfl (by simp)) hinf
        · exact hinf
      · exact of_token (lex_upperName rfl hrest) (by simp)

end Token.Unbraced

namespace Term

open Token

theorem unbraced_renderAt {t : Term} (ht : t.Spelled) (hfree : t.AnnotationFree) (p : Position)
    {rest : List Char} (hrest : Stops rest) : Unbraced (t.renderAt p) rest := by
  induction t generalizing p rest with
  | int o i => exact (Unbraced.lead p _).append (.of_token (lex_renderInt i hrest) (by simp))
  | real o r => exact (Unbraced.lead p _).append (.double r hrest)
  | str o s => exact (Unbraced.lead p _).append (.of_token (lex_quote s rest) (by simp))
  | wildcard o => exact (Unbraced.lead p _).append (.of_token (lex_underscore hrest) (by simp))
  | nil o =>
      cases p with
      | alone =>
          exact .cons (.symbol .openBracket rfl (by simp)) (.symbol .closeBracket rfl (by simp))
      | first | later => exact .nil rest
  | cons o h t ihh iht =>
      have helems {rest : List Char} (hrest : Stops rest) :
          Unbraced (h.renderAt .alone ++ t.renderAt .later) rest :=
        (ihh ht.1 hfree.1 .alone (stops_renderAt_later t hrest)).append
          (iht ht.2 hfree.2 .later hrest)
      cases p with
      | alone =>
          exact .cons (.symbol .openBracket rfl (by simp))
            ((helems (stops_cons (by decide))).append (.symbol .closeBracket rfl (by simp)))
      | first => exact helems hrest
      | later => exact .cons (.symbol .comma rfl (by simp)) (helems hrest)
  | appl o f as ihf ihas =>
      obtain ⟨hname, hf, has⟩ := ht
      have hargs : Unbraced ('(' :: (as.renderAt .first ++ [')'])) rest :=
        .cons (.symbol .openParen rfl (by simp))
          ((ihas has hfree.2 .first (stops_cons (by decide))).append
            (.symbol .closeParen rfl (by simp)))
      have hopen (cs : List Char) : Stops ('(' :: cs) := stops_cons (by decide)
      cases hstr : f.toStr? with
      | none =>
          rw [renderAt_appl p o as hstr]
          exact (Unbraced.lead p _).append ((ihf hf hfree.1 .alone (hopen _)).append hargs)
      | some s =>
          rw [hstr] at hname
          rw [renderAt_appl_name p o as hstr, List.append_assoc]
          refine (Unbraced.lead p _).append ?_
          split
          · exact .append (.of_token (lex_upperName hname hrest) (by simp)) (.nil rest)
          · exact .append (.of_token (lex_upperName hname (hopen _)) (by simp)) hargs
  | var o x c ih =>
      obtain ⟨hx, hc⟩ := ht
      rw [renderAt, List.append_assoc]
      refine (Unbraced.lead p _).append ?_
      split
      · exact .append (.of_token (lex_lowerName hx hrest) (by simp)) (.nil rest)
      · exact .append (.of_token (lex_lowerName hx (stops_cons (by decide))) (by simp))
          (.cons (.symbol .equals rfl (by simp)) (ih hc hfree .alone hrest))
  | annotated o b as => cases hfree

/-- Annotations are all that braces in a text stand for. -/
theorem openBrace_not_mem_lex_text {t : Term} (ht : t.Spelled) (hfree : t.AnnotationFree) :
    .openBrace ∉ lex t.text.toList := by
  have hend : Stops [] := nofun
  obtain ⟨ts, hts, hnot⟩ := unbraced_renderAt ht hfree .alone hend
  rw [List.append_nil] at hts
  rw [text, String.toList_ofList, render, hts]
  simpa [lex, scan] using hnot

theorem toStr?_unnumbered (t : Term) : t.unnumbered.toStr? = t.toStr? := by
  rw [← toStr?_bare, bare_unnumbered, toStr?_bare]

theorem spelled_unnumbered (t : Term) : t.unnumbered.Spelled ↔ t.Spelled := by
  induction t with
  | cons o l r ihl ihr | annotated o l r ihl ihr => simp only [unnumbered, Spelled, ihl, ihr]
  | appl o f as ihf ihas => simp only [unnumbered, Spelled, ihf, ihas, toStr?_unnumbered]
  | var o x c ih => simp only [unnumbered, Spelled, ih]
  | _ => exact Iff.rfl

theorem Spelled.cleared {t : Term} (ht : t.Spelled) : t.cleared.Spelled := by
  induction t with
  | cons o l r ihl ihr => exact ⟨ihl ht.1, ihr ht.2⟩
  | appl o f as ihf ihas =>
      have hname : f.cleared.toStr? = f.toStr? := by
        rw [← toStr?_bare, bare_cleared, toStr?_bare]
      exact ⟨hname ▸ ht.1, ihf ht.2.1, ihas ht.2.2⟩
  | var o x c => exact ⟨ht.1, (spelled_unnumbered c).mpr ht.2⟩
  | annotated o b as ih _ => exact ih ht.1
  | _ => exact ht

end Term

namespace Format

open Strategy (Ends bottomup)

/-- Stripping a term that was read from a text always succeeds and gives an equivalent term
without annotations outside of constraints. It is free of annotations, and its text of braces,
if the constraints are. -/
theorem strip_clears {src : String} {w : Written} (h : Written.parse src = .ok w) (n : Nat) :
    Step.stripper = bottomup .strip ∧
    ∃ u, (∀ σ, Ends [] (bottomup .strip) (Factory.share w n).1 σ (.ok u) σ) ∧
      u.equivalent (Factory.share w n).1 ∧
      u.unnumbered = (Factory.share w n).1.cleared ∧
      (u.AnnotationFree ↔ (Factory.share w n).1.PlainConstraints) ∧
      (u.AnnotationFree → .openBrace ∉ lex u.text.toList) := by
  obtain ⟨hplaced, hspelled⟩ := Written.placed_of_parse h
  rw [← Factory.unnumbered_share w n] at hplaced hspelled
  rw [Term.placed_unnumbered] at hplaced
  rw [Term.spelled_unnumbered] at hspelled
  obtain ⟨u, hmaps, hu⟩ := Strategy.exists_maps_strip hplaced []
  refine ⟨rfl, u, hmaps.ends, Term.equivalent_of_bare ?_, hu, ?_, fun hfree => ?_⟩
  · rw [← Term.bare_unnumbered, hu, Term.bare_cleared]
  · rw [← Term.annotationFree_unnumbered, hu, Term.annotationFree_cleared]
  · refine Term.openBrace_not_mem_lex_text ?_ hfree
    rw [← Term.spelled_unnumbered, hu]
    exact hspelled.cleared

theorem strip_clears_nested :
    ∃ w u, Written.parse "[1{A},f(x=C){B},*y]{C{D}}" = .ok w ∧
      (∀ σ, Ends [] (bottomup .strip) (Factory.share w 2).1 σ (.ok u) σ) ∧
      u.equivalent (Factory.share w 2).1 ∧ u.AnnotationFree ∧
      .openBrace ∉ lex u.text.toList := by
  have hlex : lex "[1{A},f(x=C){B},*y]{C{D}}".toList =
      [.openBracket, .int 1, .openBrace, .upperId "A", .closeBrace, .comma, .lowerId "f",
        .openParen, .lowerId "x", .equals, .upperId "C", .closeParen, .openBrace, .upperId "B",
        .closeBrace, .comma, .star, .lowerId "y", .closeBracket, .openBrace, .upperId "C",
        .openBrace, .upperId "D", .closeBrace, .closeBrace] := by decide +kernel
  have hparse : Written.parse "[1{A},f(x=C){B},*y]{C{D}}" = .ok (.annotated
      (.list [.annotated (.int 1) [.appl (.name "A") [] none],
        .annotated (.appl (.var "f") [.var "x" (some (.appl (.name "C") [] none))] none)
          [.appl (.name "B") [] none]] (some (.var "y" none)))
      [.annotated (.appl (.name "C") [] none) [.appl (.name "D") [] none]]) := by
    rw [Written.parse, hlex]
    rfl
  obtain ⟨-, u, hends, hequivalent, -, hfree, htext⟩ := strip_clears hparse 2
  have hu : u.AnnotationFree :=
    hfree.mpr ⟨trivial, ⟨trivial, ⟨trivial, trivial⟩, trivial⟩, trivial⟩
  exact ⟨_, u, hparse, hends, hequivalent, hu, htext hu⟩

/-- Annotations inside of a constraint are not removed. -/
theorem strip_keeps_constraint :
    ∃ w u, Written.parse "x=C{A}" = .ok w ∧
      (∀ σ, Ends [] (bottomup .strip) (Factory.share w 2).1 σ (.ok u) σ) ∧
      ¬ u.AnnotationFree ∧ u.text = "x=C{A}" := by
  have hlex : lex "x=C{A}".toList =
      [.lowerId "x", .equals, .upperId "C", .openBrace, .upperId "A", .closeBrace] := by
    decide +kernel
  have hparse : Written.parse "x=C{A}" = .ok (.var "x" (some (.annotated
      (.appl (.name "C") [] none) [.appl (.name "A") [] none]))) := by
    rw [Written.parse, hlex]
    rfl
  exact ⟨_, _, hparse, fun σ => ⟨4, rfl, by simp⟩, id, by decide +kernel⟩

end Format

end StrategicRewriting
