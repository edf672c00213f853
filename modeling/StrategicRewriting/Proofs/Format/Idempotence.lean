import StrategicRewriting.Proofs.Format.Steps
import StrategicRewriting.Proofs.Term.Equality
import StrategicRewriting.Proofs.Written.Sequence

/-!
What the formatter prints is formatted already. Every term of a text goes to a line of its
own; the lines are read as the same terms again, and so they are printed in the same way.
For the same reason the formatter never complains when it verifies what it prints, whatever
it remembers from the terms before.
-/
namespace StrategicRewriting

namespace Term

theorem toList_text {t u : Term} (h : t.unnumbered = u) : t.text.toList = u.render := by
  rw [← text_unnumbered, h, text, String.toList_ofList]

end Term

namespace Format

namespace Step

variable {p : Progress}

section

variable (hp : p.factory.Faithful)
include hp

theorem reaches_share (w : Written) :
    (share w).Reaches p fun t p' => t.unnumbered = w.denote ∧ Prints p p' [] :=
  ⟨_, _, rfl, Factory.unnumbered_share w p.factory.next,
    prints_nothing (hp.number_share w) rfl⟩

theorem reaches_parse {src : String} {w : Written} (hw : Written.parse src = .ok w) :
    (parse src).Reaches p fun t p' => t.unnumbered = w.denote ∧ Prints p p' [] := by
  cases hparse : p.factory.parse src with
  | error e => cases hw.symm.trans (hp.parse_error_iff.mp hparse)
  | ok r =>
      obtain ⟨hr, hmade, -, -⟩ := hp.parse hparse
      obtain ⟨w', hw', hterm⟩ := hmade.unnumbered_eq
      cases hw.symm.trans hw'
      refine (reaches_get p).bind ?_
      rintro _ _ ⟨rfl, rfl⟩
      rw [hparse]
      refine (reaches_modify _ _).bind ?_
      rintro _ _ rfl
      cases r.evicted with
      | none => exact .pure ⟨hterm, prints_nothing hr rfl⟩
      | some old =>
          refine (reaches_modify _ _).bind ?_
          rintro _ _ rfl
          exact .pure ⟨hterm, prints_nothing hr rfl⟩

/-- A term that was read back from its own text is the same term. -/
theorem reaches_verify {t : Term} {w : Written} (hw : Written.parse t.text = .ok w)
    (ht : w.denote = t.unnumbered) :
    (verify t.text t).Reaches p fun _ p' => Prints p p' [] := by
  refine (reaches_parse hp hw).bind ?_
  rintro t' p' ⟨ht', hp'⟩
  have hsame : t'.unnumbered = t.unnumbered := ht'.trans ht
  have htext : t'.text = t.text := by rw [← Term.text_unnumbered, hsame, Term.text_unnumbered]
  have hok : (!t'.equal t || t'.text != t.text) = false := by
    rw [Term.equal_of_unnumbered hsame, htext, bne_self_eq_false]
    rfl
  rw [if_neg (by simp [hok])]
  exact .pure hp'

variable {o : Options} (hstrip : o.strip = false)
include hstrip

omit hp in
theorem reaches_strip (t : Term) (p : Progress) :
    (strip o t).Reaches p fun t' p' => t' = t ∧ p' = p := by
  rw [strip, hstrip]
  exact .pure ⟨rfl, rfl⟩

variable (hquiet : o.quiet = false)
include hquiet

theorem reaches_term {w : Written} (hw : w.denote.Readable) :
    (term o w).Reaches p fun _ p' => Prints p p' (w.denote.render ++ ['\n']) := by
  refine (reaches_share hp w).bind ?_
  rintro t p₁ ⟨ht, hp₁⟩
  refine (reaches_report hp₁.faithful _).bind ?_
  intro _ p₂ hp₂
  refine (reaches_strip hstrip t p₂).bind ?_
  rintro t p₂ ⟨rfl, rfl⟩
  -- what is left is the same whether the term was verified or not
  have hprint {p₃ : Progress} (h : Prints p₂ p₃ []) :
      Reaches (if !o.quiet then print (t.text.toList ++ ['\n']) else Pure.pure ()) p₃
        fun _ p' => Prints p p' (w.denote.render ++ ['\n']) := by
    rw [hquiet]
    refine (reaches_print h.faithful _).mono fun _ p₄ hp₄ => ?_
    have hall := ((hp₁.trans hp₂).trans h).trans hp₄
    rwa [Term.toList_text ht] at hall
  cases o.check with
  | false => exact hprint (prints_nothing hp₂.faithful rfl)
  | true =>
      obtain ⟨w', hparse, hdenote⟩ := hw.parse_text
      rw [← ht, Term.text_unnumbered] at hparse
      rw [← ht, Term.unnumbered_unnumbered] at hdenote
      exact (reaches_verify hp₂.faithful hparse hdenote).bind fun _ _ => hprint

theorem reaches_terms {ws : List Written} (hws : ∀ w ∈ ws, w.denote.Readable) :
    (terms o (ws.map .ok)).Reaches p fun _ p' =>
      Prints p p' (Term.lines (ws.map Written.denote)) := by
  induction ws generalizing p with
  | nil => exact .pure (prints_nothing hp rfl)
  | cons w ws ih =>
      rw [List.forall_mem_cons] at hws
      refine (reaches_term hp hstrip hquiet hws.1).bind ?_
      intro _ p₁ hp₁
      obtain ⟨u, p₂, heq, hp₂⟩ := ih hp₁.faithful hws.2
      exact ⟨u, p₂, heq, hp₁.trans hp₂⟩

end

end Step

namespace Call

/-- The text is to be formatted, without other flags than to verify it. -/
def Formats (c : Call) (check : Bool) (capacity : Nat) (src : String) : Prop :=
  ∃ o name, Command.parse c.args = .format o ∧ o.lex = false ∧ o.strip = false ∧
    o.quiet = false ∧ o.check = check ∧ o.capacity = capacity ∧ o.files = [name] ∧
    contents c.files c.input name = some src

section

variable {c : Call} {check : Bool} {capacity : Nat} {src : String}
  (h : c.Formats check capacity src)
include h

theorem Formats.crashes (hlt : maxCapacity < capacity) : c.report.ending = .crashed := by
  obtain ⟨o, name, hargs, -, -, -, -, rfl, -⟩ := h
  simp only [Call.report, run, hargs, if_pos hlt]

theorem Formats.succeeds {ws : List Written} (hitems : Written.parseAll src = ws.map .ok)
    (hws : ∀ w ∈ ws, w.denote.Readable) (hle : capacity ≤ maxCapacity) :
    c.report.ending = .success ∧
      c.report.output = String.ofList (Term.lines (ws.map Written.denote)) := by
  obtain ⟨o, name, hargs, hlex, hstrip, hquiet, -, rfl, hfiles, hsrc⟩ := h
  refine succeeds_of_prints hargs hfiles hsrc (fun p hp => ?_) hle
  rw [hlex, hitems]
  exact Step.reaches_terms hp hstrip hquiet hws

end

/-- A text of terms with finite reals is formatted with one line a term. The result is formatted
in the same way again, and verifying the text gives no reason to complain. -/
theorem format_idempotent {src : String} {ws : List Written}
    (hitems : Written.parseAll src = ws.map .ok)
    (hreals : ∀ w ∈ ws, ∀ r ∈ w.reals, r.isFinite) :
    (∀ (c : Call) (capacity : Nat), c.Formats false capacity src → capacity ≤ maxCapacity →
      c.report.ending = .success ∧
      (∀ n, (∀ w ∈ ws, '\n' ∉ (Factory.share w n).1.text.toList) ∧
        c.report.output.toList =
          ws.flatMap fun w => (Factory.share w n).1.text.toList ++ ['\n']) ∧
      ∀ (d : Call) (capacity' : Nat), d.Formats false capacity' c.report.output →
        capacity' ≤ maxCapacity →
        d.report.ending = .success ∧ d.report.output = c.report.output) ∧
    ∀ (c : Call) (capacity : Nat), c.Formats true capacity src →
      (capacity ≤ maxCapacity → c.report.ending = .success) ∧
      ∀ reason, c.report.ending ≠ .failed reason := by
  have hws := Written.readable_of_parseAll hitems hreals
  constructor
  · intro c capacity hc hle
    obtain ⟨hsuccess, houtput⟩ := hc.succeeds hitems hws hle
    refine ⟨hsuccess, fun n => ?_, fun d capacity' hd hle' => ?_⟩
    · have htext (w : Written) : (Factory.share w n).1.text.toList = w.denote.render :=
        Term.toList_text (Factory.unnumbered_share w n)
      refine ⟨fun w hw => ?_, ?_⟩
      · rw [htext]
        exact Term.not_newline_renderAt (hws w hw) .alone
      · simp only [houtput, String.toList_ofList, Term.lines, List.flatMap_map, htext]
    · obtain ⟨ws', hitems', hsame⟩ := Term.parseAll_lines hws
      have hws' : ∀ w ∈ ws', w.denote.Readable := by
        rw [← List.forall_mem_map, hsame, List.forall_mem_map]
        exact hws
      rw [houtput] at hd
      obtain ⟨hsuccess', houtput'⟩ := hd.succeeds hitems' hws' hle'
      exact ⟨hsuccess', by rw [houtput', hsame, houtput]⟩
  · intro c capacity hc
    have hsuccess := fun hle => (hc.succeeds hitems hws hle).1
    refine ⟨hsuccess, fun reason hfailed => ?_⟩
    rcases Nat.lt_or_ge maxCapacity capacity with hlt | hle
    · cases (hc.crashes hlt).symm.trans hfailed
    · cases (hsuccess hle).symm.trans hfailed

/-- The text stands on the standard input. -/
theorem formats_input (args : List String) {o : Options}
    (hargs : Command.parse args = .format o)
    (hflags : o.lex = false ∧ o.strip = false ∧ o.quiet = false) (hfiles : o.files = ["-"])
    (src : String) : Formats ⟨args, fun _ => none, src.toUTF8⟩ o.check o.capacity src :=
  ⟨o, "-", hargs, hflags.1, hflags.2.1, hflags.2.2, rfl, rfl, hfiles, contents_input _ src⟩

theorem format_idempotent_lines :
    ∃ (ws : List Written) (c d e : Call),
      Written.parseAll "A B(1.5){c}\nx=_" = ws.map .ok ∧
      c.Formats false 4096 "A B(1.5){c}\nx=_" ∧ c.report.ending = .success ∧
      d.Formats false 0 c.report.output ∧ d.report.output = c.report.output ∧
      e.Formats true 1 "A B(1.5){c}\nx=_" ∧ e.report.ending = .success := by
  have hlex : Token.lex "A B(1.5){c}\nx=_".toList =
      [.upperId "A", .upperId "B", .openParen, .real ⟨0x3ff8000000000000⟩, .closeParen, .openBrace,
        .lowerId "c", .closeBrace, .lowerId "x", .equals, .underscore] := by decide +kernel
  have hitems : Written.parseAll "A B(1.5){c}\nx=_" =
      [.appl (.name "A") [] none,
        .annotated (.appl (.name "B") [.real ⟨0x3ff8000000000000⟩] none) [.var "c" none],
        .var "x" (some .wildcard)].map .ok := by
    rw [Written.parseAll, hlex]
    rfl
  obtain ⟨hformat, hcheck⟩ := format_idempotent hitems (by decide)
  have hc := formats_input ["-"] rfl ⟨rfl, rfl, rfl⟩ rfl "A B(1.5){c}\nx=_"
  have hd := formats_input ["--cache", "0", "-"] rfl ⟨rfl, rfl, rfl⟩ rfl
  have he := formats_input ["--check", "--cache=1", "-"] rfl ⟨rfl, rfl, rfl⟩ rfl
    "A B(1.5){c}\nx=_"
  obtain ⟨hsuccess, -, hagain⟩ := hformat _ _ hc (by decide)
  exact ⟨_, _, _, _, hitems, hc, hsuccess, hd _, (hagain _ _ (hd _) (by decide)).2, he,
    (hcheck _ _ he).1 (by decide)⟩

end Call

end Format

end StrategicRewriting
