import StrategicRewriting.Proofs.Factory.WellFormed
import StrategicRewriting.Proofs.Term.Equality
import StrategicRewriting.Proofs.Term.Shown

/-!
Printing and parsing again, however a term was constructed. Parsing gives what the text of the
term shows, also if the factory remembers the text from an earlier time. That is all of a
ground term but for annotations below the top. Patterns can have annotations and constraints
at places that the grammar has none for; their texts are refused.
-/
namespace StrategicRewriting.Factory

open Term

variable {f : Factory} {src : String}

/-- The term is put together by the constructors of factories, with annotations set on any
node. -/
inductive Constructed : Term → Prop
  | int (f : Factory) (i : Int64) : Constructed (f.number (node (.int i))).1
  | real (f : Factory) (r : Double) : Constructed (f.number (node (.real r))).1
  | str (f : Factory) (s : String) : Constructed (f.number (node (.str s))).1
  | nil : Constructed nil
  | wildcard : Constructed wildcard
  | var (f : Factory) (x : String) : Constructed (f.number (varNode x wildcard)).1
  | varWith (f : Factory) (x : String) {c : Term} :
      Constructed c → Constructed (f.number (varNode x c)).1
  | cons {f : Factory} {h tl : Term} {r : Term × Factory} :
      Constructed h → Constructed tl → f.cons h tl = .ok r → Constructed r.1
  | list (f : Factory) {ts : List Term} :
      (∀ t ∈ ts, Constructed t) → Constructed (f.list ts).1
  | listWithTail {f : Factory} {ts : List Term} {tail : Term} {r : Term × Factory} :
      (∀ t ∈ ts, Constructed t) → Constructed tail → f.listWithTail ts tail = .ok r →
      Constructed r.1
  | appl (f : Factory) (name : String) {args : List Term} :
      (∀ t ∈ args, Constructed t) → Constructed (f.appl name args).1
  | applTerm {f : Factory} {functor args : Term} {r : Term × Factory} :
      Constructed functor → Constructed args → f.applTerm functor args = .ok r → Constructed r.1
  | setAnnotations {t annos u : Term} :
      Constructed t → Constructed annos → t.setAnnotations annos = .ok u → Constructed u
  | annotate {f : Factory} {t annos : Term} {r : Term × Factory} :
      Constructed t → Constructed annos → f.annotate t annos = .ok r → Constructed r.1

theorem Constructed.wellFormed {t : Term} (h : Constructed t) : t.WellFormed := by
  induction h with
  | int | real | str | nil | wildcard | var => trivial
  | varWith f x _ ih => exact ih
  | cons _ _ heq ihh iht => exact wellFormed_of_cons ihh iht heq
  | list f _ ih => exact (wellFormed_listOnto wellFormed_nil rfl ih f.next).1
  | listWithTail _ _ heq ih iht => exact wellFormed_of_listWithTail ih iht heq
  | appl f name _ ih => exact wellFormed_appl name ih
  | applTerm _ _ heq ihf ihas => exact wellFormed_of_applTerm ihf ihas heq
  | setAnnotations _ _ heq iht ihas => exact iht.setAnnotations ihas heq
  | annotate _ _ heq iht ihas => exact wellFormed_of_annotate iht ihas heq

theorem constructed_constant (f : Factory) (name : String) : Constructed (f.appl name []).1 :=
  .appl f name fun _ h => absurd h List.not_mem_nil

/-- A list of one constant, as annotations are. -/
theorem constructed_constants (f : Factory) (name : String) :
    Constructed (f.list [(f.appl name []).1]).1 :=
  .list f (List.forall_mem_singleton.mpr (constructed_constant f name))

/-! Parsing of a text that was parsed before. -/

/-- The remembered terms are those that are written. -/
def RemembersWritten (f : Factory) : Prop :=
  ∀ e ∈ f.cache.entries, ∃ w, Written.parse e.1 = .ok w ∧ e.2.unnumbered = w.denote

theorem RemembersWritten.parse {p : Parsed} (hf : f.RemembersWritten) (h : f.parse src = .ok p) :
    p.factory.RemembersWritten ∧ ∃ w, Written.parse src = .ok w ∧ p.term.unnumbered = w.denote := by
  rcases parse_cases h with ⟨c, hget, hp⟩ | ⟨-, w, hw, hterm, hp⟩
  · obtain ⟨hmem, hentries⟩ := Cache.mem_of_get? hget
    rw [hp]
    exact ⟨fun e he => hf e (hentries e he), hf (src, p.term) hmem⟩
  · have hdenote : p.term.unnumbered = w.denote := by rw [hterm, unnumbered_share]
    refine ⟨fun e he => ?_, w, hw, hdenote⟩
    rw [hp] at he
    rcases Cache.mem_of_mem_push he with rfl | he
    · exact ⟨w, hw, hdenote⟩
    · exact hf e he

theorem Reachable.remembersWritten (h : f.Reachable) : f.RemembersWritten := by
  induction h with
  | withCapacity n => exact nofun
  | parse _ hp ih => exact (ih.parse hp).1
  | number make _ ih => exact ih

theorem exists_parse {w : Written} (f : Factory) (h : Written.parse src = .ok w) :
    ∃ p, f.parse src = .ok p := by
  rw [Factory.parse]
  split
  · exact ⟨_, rfl⟩
  · rw [h]
    exact ⟨_, rfl⟩

/-- Parsing gives what is written, from the text or from memory. -/
theorem Reachable.parse_written {w : Written} (hf : f.Reachable) (h : Written.parse src = .ok w) :
    ∃ p, f.parse src = .ok p ∧ p.term.unnumbered = w.denote := by
  obtain ⟨p, hp⟩ := exists_parse f h
  obtain ⟨-, w', hw', hdenote⟩ := hf.remembersWritten.parse hp
  cases h.symm.trans hw'
  exact ⟨p, hp, hdenote⟩

theorem Reachable.parse_refused {e : ParseError} (hf : f.Reachable)
    (h : Written.parse src = .error e) : f.parse src = .error e := by
  rw [Factory.parse]
  split
  · rename_i t c hget
    obtain ⟨w, hw, -⟩ := hf.remembersWritten (src, t) (Cache.mem_of_get? hget).1
    cases h.symm.trans hw
  · rw [h]
    rfl

/-! Parsing of a text that was printed. -/

/-- A text is read as the term that it shows. -/
theorem Reachable.parse_shown {t : Term} (hf : f.Reachable) (ht : t.WellFormed)
    (hspelled : t.Spelled) (hreals : ∀ r ∈ t.reals, r.isFinite) (h : t.ExpressibleAt .alone) :
    ∃ p, f.parse t.text = .ok p ∧ p.term.unnumbered = (t.shownAt .alone).unnumbered ∧
      p.term.text = t.text := by
  have htext : (t.shownAt .alone).text = t.text := by
    rw [text, text, render, render, renderAt_shownAt]
  obtain ⟨w, hparse, hdenote⟩ := (readable_shownAt ht hspelled hreals h).parse_text
  rw [htext] at hparse
  obtain ⟨p, hp, hterm⟩ := hf.parse_written hparse
  refine ⟨p, hp, hterm.trans hdenote, ?_⟩
  rw [← text_unnumbered, hterm, hdenote, text_unnumbered, htext]

/-- A ground term that is printed and parsed again is equal to the original and has the same
text, however it was constructed and whatever the factory has done before. -/
theorem parse_text_of_isGround {t : Term} (hf : f.Reachable) (ht : Constructed t)
    (hground : t.isGround) (hspelled : t.Spelled) (hreals : ∀ r ∈ t.reals, r.isFinite) :
    ∃ p, f.parse t.text = .ok p ∧ p.term.equal t ∧ p.term.text = t.text := by
  have hwf := ht.wellFormed
  obtain ⟨p, hp, hterm, htext⟩ :=
    hf.parse_shown hwf hspelled hreals (expressibleAt_of_isGround hwf hground .alone)
  have hshown : (t.shownAt .alone).equal t :=
    equal_iff.mpr ⟨bare_shownAt .alone t, annotations_shownAt_of_isGround hwf hground⟩
  exact ⟨p, hp, equivalence_equal.trans (equal_of_unnumbered hterm) hshown, htext⟩

theorem parse_text_of_isGround_hidden :
    ∃ t, Constructed t ∧ t.isGround ∧ t.Spelled ∧ (∀ r ∈ t.reals, r.isFinite) ∧
      t.text = "C(-9223372036854775808,\"\\n\",1.5){A}" ∧
      ∃ p, new.parse t.text = .ok p ∧ p.term.equal t ∧ p.term.text = t.text := by
  -- a name, an argument list, its inner nodes and its end, all of them annotated
  have hnotes := constructed_constants new "A"
  have hname := Constructed.annotate (f := new) (.str new "C") hnotes rfl
  have hend := Constructed.annotate (f := new) .nil hnotes rfl
  have hreal := Constructed.annotate (f := new)
    (.cons (f := new) (.real new ⟨0x3ff8000000000000⟩) hend rfl) hnotes rfl
  have hstr := Constructed.annotate (f := new)
    (.cons (f := new) (.str new "\n") hreal rfl) hnotes rfl
  have hargs := Constructed.annotate (f := new)
    (.cons (f := new) (.int new Int64.minValue) hstr rfl) hnotes rfl
  have hterm := Constructed.annotate (f := new)
    (.applTerm (f := new) hname hargs rfl) hnotes rfl
  exact ⟨_, hterm, rfl, by decide, by decide, by decide +kernel,
    parse_text_of_isGround (.withCapacity _) hterm rfl (by decide) (by decide)⟩

/-- A pattern that is printed and parsed again is equivalent to the original, unless it has
annotations or constraints that the grammar has no place for. -/
theorem parse_text_of_expressible {t : Term} (hf : f.Reachable) (ht : Constructed t)
    (hspelled : t.Spelled) (hreals : ∀ r ∈ t.reals, r.isFinite) (h : t.ExpressibleAt .alone) :
    ∃ p, f.parse t.text = .ok p ∧ p.term.equivalent t ∧ p.term.text = t.text := by
  obtain ⟨p, hp, hterm, htext⟩ := hf.parse_shown ht.wellFormed hspelled hreals h
  refine ⟨p, hp, equivalent_of_bare ?_, htext⟩
  rw [← bare_unnumbered, hterm, bare_unnumbered, bare_shownAt]

theorem parse_text_of_expressible_constraint :
    ∃ t, Constructed t ∧ t.isGround = false ∧ t.Spelled ∧ (∀ r ∈ t.reals, r.isFinite) ∧
      t.ExpressibleAt .alone ∧ t.text = "f(1,*x=C{A})" ∧
      ∃ p, new.parse t.text = .ok p ∧ p.term.equivalent t ∧ p.term.text = t.text := by
  -- the annotations of the spread are read as those of its constraint
  have hnotes := constructed_constants new "A"
  have hspread := Constructed.annotate (f := new)
    (.varWith new "x" (constructed_constant new "C")) hnotes rfl
  have hargs := Constructed.cons (f := new) (.int new 1) hspread rfl
  have hterm := Constructed.applTerm (f := new) (.var new "f") hargs rfl
  exact ⟨_, hterm, rfl, by decide, by decide, by decide, by decide +kernel,
    parse_text_of_expressible (.withCapacity _) hterm (by decide) (by decide) (by decide)⟩

/-- An annotated variable at the end of a list is printed with its annotations, but the parser
accepts no annotations there. -/
theorem parse_text_annotated_spread :
    ∃ t, Constructed t ∧ t.isGround = false ∧ t.Spelled ∧ t.reals = [] ∧ t.text = "[1,*x{A}]" ∧
      ∀ f : Factory, f.Reachable → f.parse t.text = .error .spreadNotList := by
  have hnotes := constructed_constants new "A"
  have hspread := Constructed.annotate (f := new) (.var new "x") hnotes rfl
  have hterm := Constructed.cons (f := new) (.int new 1) hspread rfl
  have hlex : Token.lex "[1,*x{A}]".toList = [.openBracket, .int 1, .comma, .star, .lowerId "x",
      .openBrace, .upperId "A", .closeBrace, .closeBracket] := by decide +kernel
  have hrefused : Written.parse "[1,*x{A}]" = .error .spreadNotList := by
    rw [Written.parse, hlex]
    rfl
  have hparse : ∀ t : Term, t.text = "[1,*x{A}]" →
      ∀ f : Factory, f.Reachable → f.parse t.text = .error .spreadNotList := by
    intro t ht f hf
    rw [ht]
    exact hf.parse_refused hrefused
  exact ⟨_, hterm, rfl, by decide, rfl, by decide +kernel, hparse _ (by decide +kernel)⟩

end StrategicRewriting.Factory
