import StrategicRewriting.Written.Parser

/-!
The grammar of terms, as a relation between tokens, what they begin with, and the
tokens after it. Names take arguments and terms take annotations wherever they
can, so what follows a term decides where it ends. The parser finds exactly what
the relation allows, and the bound on its recursion is never reached.
-/
namespace StrategicRewriting

/-- The token that an application begins with. -/
def Functor.token : Functor → Token
  | .name s => .upperId s
  | .var x => .lowerId x
  | .wildcard => .underscore

/-- The token may be the first one of a term. -/
def Token.startsTerm : Token → Bool
  | .int _ | .real _ | .str _ | .openBracket | .upperId _ | .lowerId _ | .underscore => true
  | _ => false

namespace Written

mutual

/-- The tokens begin with a term and its annotations. -/
inductive ReadsTerm : List Token → Written → List Token → Prop
  | plain {ts rest : List Token} {w : Written} :
      ReadsAtom ts w rest → rest.head? ≠ some .openBrace → ReadsTerm ts w rest
  | annotated {ts us rest : List Token} {w : Written} {annos : List Written} :
      ReadsAtom ts w (.openBrace :: us) → ReadsElements .brace us ⟨annos, none⟩ rest →
      ReadsTerm ts (.annotated w annos) rest

/-- The tokens begin with a term, annotations apart. -/
inductive ReadsAtom : List Token → Written → List Token → Prop
  | int {rest : List Token} (i : Int64) : ReadsAtom (.int i :: rest) (.int i) rest
  | real {rest : List Token} (r : Double) : ReadsAtom (.real r :: rest) (.real r) rest
  | str {rest : List Token} (s : String) : ReadsAtom (.str s :: rest) (.str s) rest
  | emptyList {rest : List Token} :
      ReadsAtom (.openBracket :: .closeBracket :: rest) (.list [] none) rest
  | list {ts rest : List Token} {es : Elements} {w : Written} :
      ReadsElements .bracket ts es rest → ofElements es = .ok w →
      ReadsAtom (.openBracket :: ts) w rest
  | constant {rest : List Token} (s : String) :
      rest.head? ≠ some .openParen → ReadsAtom (.upperId s :: rest) (.appl (.name s) [] none) rest
  | noArgs {rest : List Token} (fn : Functor) :
      ReadsAtom (fn.token :: .openParen :: .closeParen :: rest) (.appl fn [] none) rest
  | appl {ts rest : List Token} {es : Elements} (fn : Functor) :
      ReadsElements .paren ts es rest →
      ReadsAtom (fn.token :: .openParen :: ts) (.appl fn es.items es.spread) rest
  | constrained {ts rest : List Token} {p : Written} (x : String) :
      ReadsTerm ts p rest → ReadsAtom (.lowerId x :: .equals :: ts) (.var x (some p)) rest
  | var {rest : List Token} (x : String) :
      rest.head? ≠ some .openParen → rest.head? ≠ some .equals →
      ReadsAtom (.lowerId x :: rest) (.var x none) rest
  | wildcard {rest : List Token} :
      rest.head? ≠ some .openParen → ReadsAtom (.underscore :: rest) .wildcard rest

/-- The tokens begin with elements and the closer after them. -/
inductive ReadsElements : Closer → List Token → Elements → List Token → Prop
  | spread {closer : Closer} {ts rest : List Token} {w : Written} :
      ReadsTerm ts w (closer.token :: rest) → w.isSpreadable →
      ReadsElements closer (.star :: ts) ⟨[], some w⟩ rest
  | last {closer : Closer} {ts rest : List Token} {w : Written} :
      ReadsTerm ts w (closer.token :: rest) → ReadsElements closer ts ⟨[w], none⟩ rest
  | more {closer : Closer} {ts us rest : List Token} {w : Written} {es : Elements} :
      ReadsTerm ts w (.comma :: us) → ReadsElements closer us es rest →
      ReadsElements closer ts ⟨w :: es.items, es.spread⟩ rest

end

theorem steps_of_ok {α β : Type} {x : Except ParseError α} {f : α → Except ParseError β} {b : β}
    (h : (x >>= f) = .ok b) : ∃ a, x = .ok a ∧ f a = .ok b := by
  match x, h with
  | .ok a, h => exact ⟨a, rfl, h⟩

theorem head?_ne {ts : List Token} {t : Token} (h : ∀ us, ts = t :: us → False) :
    ts.head? ≠ some t := by
  intro hhead
  obtain ⟨us, hus⟩ := List.head?_eq_some_iff.mp hhead
  exact h us hus

/-- What the parser finds within a given depth is allowed by the grammar. -/
structure SoundTo (n : Nat) : Prop where
  term {ts rest : List Token} {w : Written} :
    Written.term n ts = .ok (w, rest) → ReadsTerm ts w rest
  atom {ts rest : List Token} {w : Written} :
    Written.atom n ts = .ok (w, rest) → ReadsAtom ts w rest
  arguments {fn : Functor} {ts rest : List Token} {w : Written} :
    Written.arguments n fn ts = .ok (w, rest) → ReadsAtom (fn.token :: .openParen :: ts) w rest
  elements {closer : Closer} {ts rest : List Token} {es : Elements} :
    Written.elements n closer ts = .ok (es, rest) → ReadsElements closer ts es rest

namespace SoundTo

variable {n : Nat} {ts rest : List Token} {w : Written}

theorem term_succ (ih : SoundTo n) (h : Written.term (n + 1) ts = .ok (w, rest)) :
    ReadsTerm ts w rest := by
  simp only [Written.term] at h
  obtain ⟨⟨v, us⟩, hatom, h⟩ := steps_of_ok h
  have hv := ih.atom hatom
  dsimp only at h
  split at h
  · obtain ⟨⟨⟨items, spread⟩, vs⟩, helems, h⟩ := steps_of_ok h
    cases spread with
    | none =>
        cases h
        exact .annotated hv (ih.elements helems)
    | some s => cases h
  · rename_i hne
    cases h
    exact .plain hv (head?_ne hne)

theorem atom_succ (ih : SoundTo n) (h : Written.atom (n + 1) ts = .ok (w, rest)) :
    ReadsAtom ts w rest := by
  simp only [Written.atom] at h
  split at h
  · cases h
    exact .int _
  · cases h
    exact .real _
  · cases h
    exact .str _
  · cases h
    exact .emptyList
  · obtain ⟨⟨es, us⟩, helems, h⟩ := steps_of_ok h
    obtain ⟨v, hv, h⟩ := steps_of_ok h
    cases h
    exact .list (ih.elements helems) hv
  · have happl := ih.arguments h
    exact happl
  · rename_i hne
    cases h
    exact .constant _ (head?_ne hne)
  · have happl := ih.arguments h
    exact happl
  · obtain ⟨⟨p, us⟩, hp, h⟩ := steps_of_ok h
    cases h
    exact .constrained _ (ih.term hp)
  · rename_i hparen hequals
    cases h
    exact .var _ (head?_ne hparen) (head?_ne hequals)
  · have happl := ih.arguments h
    exact happl
  · rename_i hne
    cases h
    exact .wildcard (head?_ne hne)
  · cases h
  · cases h

theorem arguments_succ {fn : Functor} (ih : SoundTo n)
    (h : Written.arguments (n + 1) fn ts = .ok (w, rest)) :
    ReadsAtom (fn.token :: .openParen :: ts) w rest := by
  simp only [Written.arguments] at h
  split at h
  · cases h
    exact .noArgs fn
  · obtain ⟨⟨es, us⟩, helems, h⟩ := steps_of_ok h
    cases h
    exact .appl fn (ih.elements helems)

theorem elements_succ {closer : Closer} {es : Elements} (ih : SoundTo n)
    (h : Written.elements (n + 1) closer ts = .ok (es, rest)) :
    ReadsElements closer ts es rest := by
  simp only [Written.elements] at h
  split at h
  · obtain ⟨⟨v, us⟩, hv, h⟩ := steps_of_ok h
    dsimp only at h
    split at h
    · rename_i hspread
      split at h
      · cases h
      · split at h
        · rename_i htoken
          cases h
          cases htoken
          exact .spread (ih.term hv) hspread
        · cases h
      · cases h
    · cases h
  · obtain ⟨⟨v, us⟩, hv, h⟩ := steps_of_ok h
    dsimp only at h
    split at h
    · obtain ⟨⟨es', vs⟩, helems, h⟩ := steps_of_ok h
      cases h
      exact .more (ih.term hv) (ih.elements helems)
    · split at h
      · rename_i htoken
        cases h
        cases htoken
        exact .last (ih.term hv)
      · cases h
    · cases h

theorem of_depth (n : Nat) : SoundTo n := by
  induction n with
  | zero => constructor <;> intros <;> rename_i h <;> cases h
  | succ n ih => exact ⟨ih.term_succ, ih.atom_succ, ih.arguments_succ, ih.elements_succ⟩

end SoundTo

/-- One or more tokens are taken from the front. -/
def Shortens (ts rest : List Token) : Prop :=
  ∃ t us, ts = t :: us ∧ rest <:+ us

namespace Shortens

variable {ts us rest : List Token}

theorem length_lt (h : Shortens ts rest) : rest.length < ts.length := by
  obtain ⟨t, us, rfl, hsuffix⟩ := h
  exact Nat.lt_succ_of_le hsuffix.length_le

theorem suffix (h : Shortens ts rest) : rest <:+ ts := by
  obtain ⟨t, us, rfl, hsuffix⟩ := h
  exact hsuffix.trans (List.suffix_cons t us)

theorem step (t : Token) : Shortens (t :: rest) rest :=
  ⟨t, rest, rfl, List.suffix_refl rest⟩

theorem cons (t : Token) (h : Shortens ts rest) : Shortens (t :: ts) rest :=
  ⟨t, ts, rfl, h.suffix⟩

theorem trans (h : Shortens ts us) (h' : Shortens us rest) : Shortens ts rest := by
  obtain ⟨t, vs, rfl, hsuffix⟩ := h
  exact ⟨t, vs, rfl, h'.suffix.trans hsuffix⟩

end Shortens

mutual

theorem ReadsTerm.shortens {ts rest : List Token} {w : Written} :
    ReadsTerm ts w rest → Shortens ts rest
  | .plain h _ => h.shortens
  | .annotated h hs => h.shortens.trans (.cons _ hs.shortens)

theorem ReadsAtom.shortens {ts rest : List Token} {w : Written} :
    ReadsAtom ts w rest → Shortens ts rest
  | .int _ | .real _ | .str _ | .constant _ _ | .var _ _ _ | .wildcard _ => .step _
  | .emptyList => .cons _ (.step _)
  | .noArgs _ => .cons _ (.cons _ (.step _))
  | .list h _ => .cons _ h.shortens
  | .appl _ h => .cons _ (.cons _ h.shortens)
  | .constrained _ h => .cons _ (.cons _ h.shortens)

theorem ReadsElements.shortens {closer : Closer} {ts rest : List Token} {es : Elements} :
    ReadsElements closer ts es rest → Shortens ts rest
  | .spread h _ => .cons _ (h.shortens.trans (.step _))
  | .last h => h.shortens.trans (.step _)
  | .more h hs => h.shortens.trans (.cons _ hs.shortens)

end

theorem ReadsAtom.starts {ts rest : List Token} {w : Written} (h : ReadsAtom ts w rest) :
    ∃ t us, ts = t :: us ∧ t.startsTerm := by
  cases h with
  | noArgs fn | appl fn _ => exact ⟨_, _, rfl, by cases fn <;> rfl⟩
  | _ => exact ⟨_, _, rfl, rfl⟩

theorem ReadsTerm.starts {ts rest : List Token} {w : Written} (h : ReadsTerm ts w rest) :
    ∃ t us, ts = t :: us ∧ t.startsTerm := by
  cases h with
  | plain h _ | annotated h _ => exact h.starts

theorem ReadsElements.starts {closer : Closer} {ts rest : List Token} {es : Elements}
    (h : ReadsElements closer ts es rest) :
    ∃ t us, ts = t :: us ∧ (t.startsTerm ∨ t = .star) := by
  cases h with
  | spread _ _ => exact ⟨_, _, rfl, .inr rfl⟩
  | last h | more h _ =>
      obtain ⟨t, us, hts, ht⟩ := h.starts
      exact ⟨t, us, hts, .inl ht⟩

theorem atom_constant (n : Nat) (s : String) {rest : List Token}
    (h : rest.head? ≠ some .openParen) :
    Written.atom (n + 1) (.upperId s :: rest) = .ok (.appl (.name s) [] none, rest) := by
  simp only [Written.atom]
  split <;> simp_all

theorem atom_var (n : Nat) (x : String) {rest : List Token}
    (hparen : rest.head? ≠ some .openParen) (hequals : rest.head? ≠ some .equals) :
    Written.atom (n + 1) (.lowerId x :: rest) = .ok (.var x none, rest) := by
  simp only [Written.atom]
  split <;> simp_all

theorem atom_wildcard (n : Nat) {rest : List Token} (h : rest.head? ≠ some .openParen) :
    Written.atom (n + 1) (.underscore :: rest) = .ok (.wildcard, rest) := by
  simp only [Written.atom]
  split <;> simp_all

theorem atom_functor (n : Nat) (fn : Functor) (ts : List Token) :
    Written.atom (n + 1) (fn.token :: .openParen :: ts) = Written.arguments n fn ts := by
  cases fn <;> rfl

theorem atom_list {n : Nat} {ts rest : List Token} {es : Elements} {w : Written}
    (h : Written.elements n .bracket ts = .ok (es, rest)) (hw : ofElements es = .ok w)
    (hts : ∀ us, ts ≠ .closeBracket :: us) :
    Written.atom (n + 1) (.openBracket :: ts) = .ok (w, rest) := by
  simp only [Written.atom, h, bind, Except.bind, hw]

theorem arguments_elements {n : Nat} {ts rest : List Token} {es : Elements} (fn : Functor)
    (h : Written.elements n .paren ts = .ok (es, rest)) (hts : ∀ us, ts ≠ .closeParen :: us) :
    Written.arguments (n + 1) fn ts = .ok (.appl fn es.items es.spread, rest) := by
  simp only [Written.arguments, h, bind, Except.bind]

theorem elements_last {n : Nat} {closer : Closer} {ts rest : List Token} {w : Written}
    (h : Written.term n ts = .ok (w, closer.token :: rest)) (hts : ∀ us, ts ≠ .star :: us) :
    Written.elements (n + 1) closer ts = .ok (⟨[w], none⟩, rest) := by
  simp only [Written.elements, h, bind, Except.bind]
  cases closer <;> rfl

theorem elements_more {n : Nat} {closer : Closer} {ts us rest : List Token} {w : Written}
    {es : Elements} (h : Written.term n ts = .ok (w, .comma :: us))
    (hs : Written.elements n closer us = .ok (es, rest)) (hts : ∀ us, ts ≠ .star :: us) :
    Written.elements (n + 1) closer ts = .ok (⟨w :: es.items, es.spread⟩, rest) := by
  simp only [Written.elements, h, hs, bind, Except.bind]

theorem ReadsTerm.ne_star {ts rest : List Token} {w : Written} (h : ReadsTerm ts w rest)
    (us : List Token) : ts ≠ .star :: us := by
  obtain ⟨t, vs, hts, ht⟩ := h.starts
  rintro rfl
  cases hts
  cases ht

mutual

/-- Four levels of depth a token are enough for the parser to find what the
grammar allows. -/
theorem ReadsTerm.term_eq {ts rest : List Token} {w : Written} :
    ReadsTerm ts w rest → ∀ n, 4 * ts.length + 2 ≤ n → Written.term n ts = .ok (w, rest)
  | .plain h hne, n + 1, hn => by
      have hatom := h.atom_eq n (by omega)
      simp only [Written.term, hatom]
      cases rest with
      | nil => rfl
      | cons t rest =>
          cases t with
          | openBrace => exact absurd rfl hne
          | _ => rfl
  | .annotated h hs, n + 1, hn => by
      have hlt := h.shortens.length_lt
      simp only [List.length_cons] at hlt
      have hatom := h.atom_eq n (by omega)
      have helems := hs.elements_eq n (by omega)
      simp only [Written.term, hatom, bind, Except.bind, helems]

theorem ReadsAtom.atom_eq {ts rest : List Token} {w : Written} :
    ReadsAtom ts w rest → ∀ n, 4 * ts.length + 1 ≤ n → Written.atom n ts = .ok (w, rest)
  | .int _, n + 1, _ | .real _, n + 1, _ | .str _, n + 1, _ | .emptyList, n + 1, _ => rfl
  | .constant s h, n + 1, _ => atom_constant n s h
  | .var x hparen hequals, n + 1, _ => atom_var n x hparen hequals
  | .wildcard h, n + 1, _ => atom_wildcard n h
  | .noArgs fn, n + 2, _ => by
      rw [atom_functor]
      rfl
  | .list h hw, n + 1, hn => by
      simp only [List.length_cons] at hn
      obtain ⟨t, us, hts, ht⟩ := h.starts
      refine atom_list (h.elements_eq n (by omega)) hw ?_
      rintro vs rfl
      cases hts
      rcases ht with ht | ht <;> cases ht
  | .appl fn h, n + 2, hn => by
      simp only [List.length_cons] at hn
      obtain ⟨t, us, hts, ht⟩ := h.starts
      rw [atom_functor]
      refine arguments_elements fn (h.elements_eq n (by omega)) ?_
      rintro vs rfl
      cases hts
      rcases ht with ht | ht <;> cases ht
  | .constrained x h, n + 1, hn => by
      simp only [List.length_cons] at hn
      have hterm := h.term_eq n (by omega)
      simp only [Written.atom, hterm]
      rfl

theorem ReadsElements.elements_eq {closer : Closer} {ts rest : List Token} {es : Elements} :
    ReadsElements closer ts es rest → ∀ n, 4 * ts.length + 3 ≤ n →
      Written.elements n closer ts = .ok (es, rest)
  | .spread h hs, n + 1, hn => by
      simp only [List.length_cons] at hn
      have hterm := h.term_eq n (by omega)
      simp only [Written.elements, hterm, bind, Except.bind, hs, if_true]
      cases closer <;> rfl
  | .last h, n + 1, hn => elements_last (h.term_eq n (by omega)) h.ne_star
  | .more h hs, n + 1, hn => by
      have hlt := h.shortens.length_lt
      simp only [List.length_cons] at hlt
      exact elements_more (h.term_eq n (by omega)) (hs.elements_eq n (by omega)) h.ne_star

end

/-- A text is a term exactly if the grammar derives its tokens, with nothing left
over. -/
theorem ofTokens_eq_ok_iff {ts : List Token} {w : Written} :
    ofTokens ts = .ok w ↔ ReadsTerm ts w [] := by
  constructor
  · intro h
    obtain ⟨⟨v, rest⟩, hread, h⟩ := steps_of_ok h
    cases rest with
    | nil =>
        cases h
        exact (SoundTo.of_depth _).term hread
    | cons t ts => cases h
  · intro h
    have hterm := h.term_eq (depthBound ts) (by simp only [depthBound]; omega)
    simp only [ofTokens, readTerm, hterm]
    rfl

end Written

end StrategicRewriting
