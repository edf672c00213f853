import StrategicRewriting.Proofs.Term.Readable

/-!
Every text that is a term and has finite reals stands for a readable term. Hence
the text that is printed for it is read as the same term again, at every node and
with all annotations, and is printed in the same way from then on.
-/
namespace StrategicRewriting

open Term

/-- Names are spelt as their tokens demand, and reals are finite. -/
def Legible (ts : List Token) : Prop :=
  ∀ t ∈ ts, t.WellNamed ∧ ∀ r, t = .real r → r.isFinite

theorem Legible.of_suffix {ts us : List Token} (hts : Legible ts) (h : us <:+ ts) : Legible us :=
  fun t ht => hts t (h.subset ht)

theorem Legible.tail {t : Token} {ts : List Token} (hts : Legible (t :: ts)) : Legible ts :=
  hts.of_suffix (List.suffix_cons t ts)

theorem legible_lex {src : String} (hreals : ∀ r, .real r ∈ Token.lex src.toList → r.isFinite) :
    Legible (Token.lex src.toList) := by
  intro t ht
  refine ⟨Token.wellNamed_of_mem_lex ht, ?_⟩
  rintro r rfl
  exact hreals r ht

/-- A list node without annotations. -/
def Term.isPlainList : Term → Bool
  | .nil _ | .cons .. => true
  | _ => false

theorem Term.isPlainTail_of_isPlainList {t : Term} (h : t.isPlainList) : t.isPlainTail := by
  cases t with
  | nil o | cons o h t => rfl
  | _ => cases h

theorem Term.annotations_of_isPlainList {t : Term} (h : t.isPlainList) :
    t.annotations = none := by
  cases t with
  | nil o | cons o h t => rfl
  | _ => cases h

theorem Term.takesBraces_of_isPlainList {t : Term} (h : t.isPlainList) : t.takesBraces := by
  cases t with
  | nil o | cons o h t => rfl
  | _ => cases h

theorem Term.readable_ofShape {t : Term} (h : t.annotations = none) :
    ((ofShape .derived t.shape).Readable ↔ t.Readable) ∧
      (ofShape .derived t.shape).takesBraces = t.takesBraces := by
  cases t with
  | annotated o b as => cases h
  | _ => exact ⟨Iff.rfl, rfl⟩

theorem Term.endsInNil_of_isAnnotationList {t : Term} (h : t.isAnnotationList) : t.endsInNil := by
  cases t with
  | cons o h t => exact h
  | _ => cases h

namespace Written

theorem list_of_ofElements {es : Elements} {w : Written} (h : ofElements es = .ok w) :
    w = .list es.items es.spread := by
  unfold ofElements at h
  split at h <;> cases h
  rfl

theorem readable_functor {fn : Functor} {ts : List Token} (hts : Legible (fn.token :: ts)) :
    fn.denote.Readable ∧ fn.denote.isPlainFunctor := by
  obtain ⟨hname, -⟩ := hts _ List.mem_cons_self
  cases fn with
  | name s => exact ⟨trivial, hname⟩
  | var x => exact ⟨⟨hname, trivial⟩, rfl⟩
  | wildcard => exact ⟨trivial, rfl⟩

mutual

theorem ReadsTerm.readable {ts rest : List Token} {w : Written} :
    ReadsTerm ts w rest → Legible ts → w.denote.Readable ∧
      (rest.head? = some .openBrace → w.denote.annotations.isSome) ∧
      (∀ es s, w = .list es s → w.denote.isPlainList)
  | .plain h hne, hts => by
      obtain ⟨hw, -, -, hlist⟩ := h.readable hts
      exact ⟨hw, fun hopen => absurd hopen hne, hlist⟩
  | @ReadsTerm.annotated _ _ _ _ annos h hs, hts => by
      obtain ⟨hw, hbrace, hnone, -⟩ := h.readable hts
      obtain ⟨has, -, hannos, -⟩ := hs.readable (hts.of_suffix h.shortens.suffix).tail
      obtain ⟨hread, htakes⟩ := readable_ofShape hnone
      cases annos with
      | nil => cases hannos rfl
      | cons a annos =>
          exact ⟨⟨hread.mpr hw, htakes.trans (hbrace rfl), has, hannos rfl⟩, fun _ => rfl, nofun⟩

theorem ReadsAtom.readable {ts rest : List Token} {w : Written} :
    ReadsAtom ts w rest → Legible ts → w.denote.Readable ∧
      (rest.head? = some .openBrace → w.denote.takesBraces) ∧ w.denote.annotations = none ∧
      (∀ es s, w = .list es s → w.denote.isPlainList)
  | .int _, _ | .str _, _ | .wildcard _, _ => ⟨trivial, fun _ => rfl, rfl, nofun⟩
  | .real r, hts => ⟨(hts _ List.mem_cons_self).2 r rfl, fun _ => rfl, rfl, nofun⟩
  | .emptyList, _ => ⟨trivial, fun _ => rfl, rfl, fun _ _ _ => rfl⟩
  | .list h hw, hts => by
      obtain ⟨hes, -, -, hlist⟩ := h.readable hts.tail
      have hplain := hlist _ hw
      obtain rfl := list_of_ofElements hw
      have hnone := annotations_of_isPlainList hplain
      exact ⟨hes, fun _ => takesBraces_of_isPlainList hplain, hnone, fun _ _ _ => hplain⟩
  | .constant s _, hts =>
      ⟨⟨trivial, (hts _ List.mem_cons_self).1, trivial, rfl⟩, fun _ => rfl, rfl, nofun⟩
  | .noArgs fn, hts => by
      obtain ⟨hfn, hplain⟩ := readable_functor hts
      exact ⟨⟨hfn, hplain, trivial, rfl⟩, fun _ => rfl, rfl, nofun⟩
  | .appl fn h, hts => by
      obtain ⟨hfn, hplain⟩ := readable_functor hts
      obtain ⟨hes, htail, -, -⟩ := h.readable hts.tail.tail
      exact ⟨⟨hfn, hplain, hes, htail⟩, fun _ => rfl, rfl, nofun⟩
  | .constrained x h, hts => by
      obtain ⟨hc, hannos, -⟩ := h.readable hts.tail.tail
      refine ⟨⟨(hts _ List.mem_cons_self).1, hc⟩, ?_, rfl, nofun⟩
      intro hopen
      rw [denote, takesBraces, hannos hopen, Bool.or_true]
  | .var x _ _, hts =>
      ⟨⟨(hts _ List.mem_cons_self).1, trivial⟩, fun _ => rfl, rfl, nofun⟩

theorem ReadsElements.readable {closer : Closer} {ts rest : List Token} {es : Elements} :
    ReadsElements closer ts es rest → Legible ts → es.denote.Readable ∧ es.denote.isPlainTail ∧
      (es.spread = none → es.denote.isAnnotationList) ∧
      (∀ w, ofElements es = .ok w → es.denote.isPlainList)
  | .spread (w := w) h hs, hts => by
      obtain ⟨hw, -, hlist⟩ := h.readable hts.tail
      cases w with
      | list es s =>
          have hplain := hlist es s rfl
          exact ⟨hw, isPlainTail_of_isPlainList hplain, nofun, fun _ _ => hplain⟩
      | wildcard => exact ⟨hw, rfl, nofun, nofun⟩
      | var x c => cases c <;> exact ⟨hw, rfl, nofun, nofun⟩
      | _ => cases hs
  | .last h, hts => by
      obtain ⟨hw, -, -⟩ := h.readable hts
      exact ⟨⟨hw, trivial, rfl⟩, rfl, fun _ => rfl, fun _ _ => rfl⟩
  | .more h hs, hts => by
      obtain ⟨hw, -, -⟩ := h.readable hts
      obtain ⟨hes, htail, hannos, -⟩ := hs.readable (hts.of_suffix h.shortens.suffix).tail
      refine ⟨⟨hw, hes, htail⟩, rfl, ?_, fun _ _ => rfl⟩
      intro hspread
      exact endsInNil_of_isAnnotationList (hannos hspread)

end

theorem readable_of_parse {src : String} {w : Written} (h : parse src = .ok w)
    (hreals : ∀ r, .real r ∈ Token.lex src.toList → r.isFinite) : w.denote.Readable :=
  ((ofTokens_eq_ok_iff.mp h).readable (legible_lex hreals)).1

/-- Printing and reading again gives back every node of a term that was read from a
text, whatever numbers its nodes have, and hence the same text. -/
theorem parse_text_share {src : String} {w : Written} (h : parse src = .ok w)
    (hreals : ∀ r, .real r ∈ Token.lex src.toList → r.isFinite) (n : Nat) :
    ∃ w', parse (Factory.share w n).1.text = .ok w' ∧ ∀ m,
      (Factory.share w' m).1.unnumbered = (Factory.share w n).1.unnumbered ∧
      (Factory.share w' m).1.text = (Factory.share w n).1.text := by
  have hw := Factory.unnumbered_share w n
  obtain ⟨w', hparse, hw'⟩ := (readable_of_parse h hreals).parse_text
  rw [← hw, text_unnumbered] at hparse
  rw [← hw, unnumbered_unnumbered] at hw'
  refine ⟨w', hparse, fun m => ?_⟩
  have hnodes : (Factory.share w' m).1.unnumbered = (Factory.share w n).1.unnumbered := by
    rw [Factory.unnumbered_share w' m, hw']
  refine ⟨hnodes, ?_⟩
  rw [← text_unnumbered, hnodes, text_unnumbered]

theorem parse_text_share_braces :
    ∃ w, parse "x=y=C(1.5){A}{B}" = .ok w ∧
      (∀ r, .real r ∈ Token.lex "x=y=C(1.5){A}{B}".toList → r.isFinite) ∧
      ∃ w', parse (Factory.share w 2).1.text = .ok w' ∧ ∀ m,
        (Factory.share w' m).1.unnumbered = (Factory.share w 2).1.unnumbered ∧
        (Factory.share w' m).1.text = (Factory.share w 2).1.text := by
  have hlex : Token.lex "x=y=C(1.5){A}{B}".toList =
      [.lowerId "x", .equals, .lowerId "y", .equals, .upperId "C", .openParen,
        .real ⟨0x3ff8000000000000⟩, .closeParen, .openBrace, .upperId "A", .closeBrace,
        .openBrace, .upperId "B", .closeBrace] := by decide +kernel
  have hparse : parse "x=y=C(1.5){A}{B}" = .ok (.var "x" (some (.annotated
      (.var "y" (some (.annotated (.appl (.name "C") [.real ⟨0x3ff8000000000000⟩] none)
        [.appl (.name "A") [] none])))
      [.appl (.name "B") [] none]))) := by
    rw [parse, hlex]
    rfl
  have hreals : ∀ r, .real r ∈ Token.lex "x=y=C(1.5){A}{B}".toList → r.isFinite := by
    intro r hr
    simp only [hlex, List.mem_cons, reduceCtorEq, Token.real.injEq, List.not_mem_nil,
      false_or, or_false] at hr
    rw [hr]
    decide
  exact ⟨_, hparse, hreals, parse_text_share hparse hreals 2⟩

end Written

end StrategicRewriting
