import StrategicRewriting.Proofs.Format.Steps
import StrategicRewriting.Proofs.Token.Blanks

/-!
Printed tokens are read back, in sequences of any length, whether they form terms or not. A
blank is left out only before a token whose text cannot continue the one before it, or after a
token that nothing can continue.
-/
namespace StrategicRewriting

open Term (stops_cons)
open Token (lex lex_blank lex_render Stops)

theorem Token.Printable.exists_render {t : Token} (ht : t.Printable) :
    ∃ text, t.render? = some text := by
  cases t with
  | unknown => cases ht
  | _ => exact ⟨_, rfl⟩

/-- Tokens of a text can be printed, unless they are unknown or reals that are not finite. -/
theorem Token.printable_of_mem_lex {cs : List Char} (hknown : .unknown ∉ lex cs)
    (hreals : ∀ r, .real r ∈ lex cs → r.isFinite) : ∀ t ∈ lex cs, t.Printable := by
  intro t ht
  have hnamed := wellNamed_of_mem_lex ht
  cases t with
  | real r => exact hreals r ht
  | unknown => exact absurd ht hknown
  | _ => exact hnamed

namespace Format

/-- A token that could go on asks for a blank after it. -/
theorem noSpaceAfter_of_isOpenEnded {t : Token} (h : t.isOpenEnded) : noSpaceAfter t = false := by
  cases t with
  | underscore | int _ | real _ | upperId _ | lowerId _ => rfl
  | _ => cases h

/-- What comes after a token that asks for a blank does not continue it. -/
theorem stops_renderTokens (ts : List Token) : Stops (renderTokens true ts).1 := by
  cases ts with
  | nil => exact stops_cons (by decide)
  | cons t ts => cases t <;> exact stops_cons (by decide)

theorem lex_renderTokens {ts : List Token} (hts : ∀ t ∈ ts, t.Printable) (space : Bool) :
    (renderTokens space ts).2 = true ∧ lex (renderTokens space ts).1 = ts := by
  induction ts generalizing space with
  | nil => cases space <;> exact ⟨rfl, rfl⟩
  | cons t ts ih =>
      rw [List.forall_mem_cons] at hts
      obtain ⟨hcomplete, hlex⟩ := ih hts.2 (!noSpaceAfter t)
      obtain ⟨text, htext⟩ := hts.1.exists_render
      have hstops : t.isOpenEnded → Stops (renderTokens (!noSpaceAfter t) ts).1 := by
        intro hopen
        rw [noSpaceAfter_of_isOpenEnded hopen]
        exact stops_renderTokens ts
      have htoken := lex_render hts.1 htext hstops
      rw [hlex] at htoken
      simp only [renderTokens, htext]
      refine ⟨hcomplete, ?_⟩
      split
      · exact (lex_blank rfl _).trans (by simpa using htoken)
      · simpa using htoken

theorem Step.reaches_tokens {p : Progress} {o : Options} {src : String} {text : List Char}
    (hp : p.factory.Faithful) (hquiet : o.quiet = false)
    (htext : renderTokens false (lex src.toList) = (text, true)) :
    (tokens o src).Reaches p fun _ p' => Prints p p' text := by
  simp only [tokens, hquiet, htext]
  refine (reaches_print hp text).bind fun _ p' hp' => ?_
  exact .pure hp'

namespace Call

/-- The tokens of the text are to be printed. -/
def Tokenizes (c : Call) (capacity : Nat) (src : String) : Prop :=
  ∃ o name, Command.parse c.args = .format o ∧ o.lex = true ∧ o.quiet = false ∧
    o.capacity = capacity ∧ o.files = [name] ∧ contents c.files c.input name = some src

theorem Tokenizes.succeeds {c : Call} {capacity : Nat} {src : String} {text : List Char}
    (h : c.Tokenizes capacity src) (htext : renderTokens false (lex src.toList) = (text, true))
    (hle : capacity ≤ maxCapacity) :
    c.report.ending = .success ∧ c.report.output = String.ofList text := by
  obtain ⟨o, name, hargs, hlex, hquiet, rfl, hfiles, hsrc⟩ := h
  refine succeeds_of_prints hargs hfiles hsrc (fun p hp => ?_) hle
  rw [hlex]
  exact Step.reaches_tokens hp hquiet htext

/-- The tokens of a text, printed, are the tokens of what was printed, if they are known and
their reals are finite. Then what was printed is printed in the same way again. -/
theorem tokens_lossless {src : String} (hknown : .unknown ∉ lex src.toList)
    (hreals : ∀ r, .real r ∈ lex src.toList → r.isFinite) :
    (∃ text, renderTokens false (lex src.toList) = (text, true) ∧ lex text = lex src.toList) ∧
    ∀ (c : Call) (capacity : Nat), c.Tokenizes capacity src → capacity ≤ maxCapacity →
      c.report.ending = .success ∧ lex c.report.output.toList = lex src.toList ∧
      ∀ (d : Call) (capacity' : Nat), d.Tokenizes capacity' c.report.output →
        capacity' ≤ maxCapacity →
        d.report.ending = .success ∧ d.report.output = c.report.output := by
  have hprintable := Token.printable_of_mem_lex hknown hreals
  obtain ⟨text, htext, hlex⟩ : ∃ text, renderTokens false (lex src.toList) = (text, true) ∧
      lex text = lex src.toList :=
    ⟨_, Prod.ext rfl (lex_renderTokens hprintable false).1, (lex_renderTokens hprintable false).2⟩
  refine ⟨⟨text, htext, hlex⟩, fun c capacity hc hle => ?_⟩
  obtain ⟨hsuccess, houtput⟩ := hc.succeeds htext hle
  have hagain : lex c.report.output.toList = lex src.toList := by
    rw [houtput, String.toList_ofList, hlex]
  refine ⟨hsuccess, hagain, fun d capacity' hd hle' => ?_⟩
  rw [houtput]
  exact hd.succeeds (by rw [hagain, htext]) hle'

/-- The text stands on the standard input. -/
theorem tokenizes_input (args : List String) {o : Options}
    (hargs : Command.parse args = .format o) (hlex : o.lex = true) (hquiet : o.quiet = false)
    (hfiles : o.files = ["-"]) (src : String) :
    Tokenizes ⟨args, fun _ => none, src.toUTF8⟩ o.capacity src :=
  ⟨o, "-", hargs, hlex, hquiet, rfl, hfiles, contents_input _ src⟩

theorem tokens_lossless_no_term :
    let src := "x = -1 _[a1\t.5\"q\\n\"\n\x7b "
    ∃ c d : Call, c.Tokenizes 4096 src ∧ c.report.ending = .success ∧
      c.report.output = "x=-1 _ [a1 0.5 \"q\\n\"\x7b" ∧
      d.Tokenizes 0 c.report.output ∧ d.report.output = c.report.output := by
  intro src
  have hlex : lex src.toList = [.lowerId "x", .equals, .int (-1), .underscore, .openBracket,
      .lowerId "a1", .real ⟨0x3fe0000000000000⟩, .str "q\n", .openBrace] := by decide +kernel
  have htext : renderTokens false (lex src.toList) =
      ("x=-1 _ [a1 0.5 \"q\\n\"\x7b".toList, true) := by
    rw [hlex]
    decide +kernel
  have hknown : .unknown ∉ lex src.toList := by
    rw [hlex]
    decide +kernel
  have hreals : ∀ r, .real r ∈ lex src.toList → r.isFinite := by
    rw [hlex]
    intro r hr
    obtain rfl : r = ⟨0x3fe0000000000000⟩ := by simpa using hr
    rfl
  have hc := tokenizes_input ["--lex", "-"] (o := ⟨true, false, false, false, none, ["-"]⟩)
    rfl rfl rfl rfl src
  have hd := tokenizes_input ["--cache", "0", "-", "--lex", "--strip"]
    (o := ⟨true, true, false, false, some 0, ["-"]⟩) rfl rfl rfl rfl
  obtain ⟨hsuccess, -, hagain⟩ := (tokens_lossless hknown hreals).2 _ _ hc (by decide)
  have houtput := (hc.succeeds htext (by decide)).2
  rw [String.ofList_toList] at houtput
  exact ⟨_, _, hc, hsuccess, houtput, hd _, (hagain _ _ (hd _) (by decide)).2⟩

end Call

end Format

end StrategicRewriting
