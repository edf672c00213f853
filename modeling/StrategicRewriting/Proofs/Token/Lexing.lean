import Mathlib.Data.List.TakeWhile
import StrategicRewriting.Proofs.Double.ReadBack
import StrategicRewriting.Proofs.Token.Strings

/-!
Printed tokens are read back one by one. A token that could go on, such as a
name or a number, has to be followed by something that does not continue it.
Conversely, names found in a text are names by the rules of the lexer.
-/
namespace StrategicRewriting

namespace Token

/-- A capital letter and name characters. -/
def isUpperName : List Char → Bool
  | [] => false
  | c :: cs => c.isUpper && cs.all isNameChar

/-- A small letter and name characters, or an underscore and at least one of them. -/
def isLowerName : List Char → Bool
  | [] => false
  | c :: cs => (c.isLower || c == '_' && !cs.isEmpty) && cs.all isNameChar

/-- Names are spelt as their tokens demand. -/
def WellNamed : Token → Prop
  | .upperId s => isUpperName s.toList
  | .lowerId s => isLowerName s.toList
  | _ => True

/-- The token has a text that stands for it. -/
def Printable : Token → Prop
  | .real r => r.isFinite
  | .unknown => False
  | t => t.WellNamed

/-- More characters could belong to the token. -/
def isOpenEnded : Token → Bool
  | .underscore | .int _ | .real _ | .upperId _ | .lowerId _ => true
  | _ => false

/-- The text does not continue a name or a number. -/
def Stops (cs : List Char) : Prop :=
  ∀ c ∈ cs.head?, isNameChar c = false ∧ c ≠ '.'

theorem isNameChar_of_isDigit {c : Char} (h : c.isDigit) : isNameChar c := by
  simp [isNameChar, h]

theorem ne_of_isDigit {c d : Char} (hc : c.isDigit) (hd : d.isDigit = false) : c ≠ d := by
  intro h
  rw [h, hd] at hc
  contradiction

theorem Stops.takeWhile_eq_nil {cs : List Char} (h : Stops cs) {p : Char → Bool}
    (hp : ∀ c, p c → isNameChar c) : cs.takeWhile p = [] := by
  cases cs with
  | nil => rfl
  | cons c cs =>
      have hc : ¬ p c := fun hpc => by simpa [(h c rfl).1] using hp c hpc
      exact List.takeWhile_cons_of_neg hc

theorem Stops.takeWhile_append {cs ds : List Char} (h : Stops cs) {p : Char → Bool}
    (hp : ∀ c, p c → isNameChar c) (hds : ∀ c ∈ ds, p c) : (ds ++ cs).takeWhile p = ds := by
  rw [List.takeWhile_append_of_pos hds, h.takeWhile_eq_nil hp, List.append_nil]

theorem Stops.dropWhile_append {cs ds : List Char} (h : Stops cs) {p : Char → Bool}
    (hp : ∀ c, p c → isNameChar c) (hds : ∀ c ∈ ds, p c) : (ds ++ cs).dropWhile p = cs := by
  rw [List.dropWhile_append_of_pos hds]
  have hnil := h.takeWhile_eq_nil hp
  have happ := List.takeWhile_append_dropWhile (p := p) (l := cs)
  rwa [hnil, List.nil_append] at happ

/-- The characters that are tokens by themselves. -/
def delimiters : List Char :=
  ['[', ']', '(', ')', '{', '}', ',', '*', '=']

/-- Delimiters, and the characters that strings and negative numbers begin with. -/
def marks : List Char :=
  '"' :: '-' :: delimiters

theorem exists_lexeme_of_mem_delimiters {c : Char} (h : c ∈ delimiters) :
    ∃ t : Token, t.WellNamed ∧ ∀ cs, lexeme c cs = ⟨t, 1⟩ := by
  simp only [delimiters, List.mem_cons, List.not_mem_nil, or_false] at h
  obtain rfl | rfl | rfl | rfl | rfl | rfl | rfl | rfl | rfl := h
  all_goals
    refine ⟨_, ?_, fun _ => rfl⟩
    trivial

theorem not_mem_marks_of_isNameChar {c : Char} (h : isNameChar c) : c ∉ marks := by
  have hmarks : marks.all (fun m => !isNameChar m) := by decide
  intro hc
  have hnot := List.all_eq_true.mp hmarks c hc
  simp [h] at hnot

theorem lexeme_of_not_mem_marks {c : Char} (h : c ∉ marks) (cs : List Char) :
    lexeme c cs =
      if c.isUpper then nameLexeme .upperId c cs
      else if c.isLower then nameLexeme .lowerId c cs
      else if c = '_' then
        if (cs.takeWhile isNameChar).isEmpty then ⟨.underscore, 1⟩ else nameLexeme .lowerId c cs
      else (numberLexeme? false (c :: cs)).getD ⟨.unknown, 1⟩ := by
  rw [lexeme]
  all_goals
    intro hc
    exact h (by simp [hc, marks, delimiters])

theorem lexeme_of_isDigit {c : Char} (hc : c.isDigit) (cs : List Char) :
    lexeme c cs = (numberLexeme? false (c :: cs)).getD ⟨.unknown, 1⟩ := by
  have hu : ¬ c.isUpper := by
    delta Char.isUpper Char.isDigit at *
    grind
  have hl : ¬ c.isLower := by
    delta Char.isLower Char.isDigit at *
    grind
  rw [lexeme_of_not_mem_marks (not_mem_marks_of_isNameChar (isNameChar_of_isDigit hc)),
    if_neg hu, if_neg hl, if_neg (ne_of_isDigit hc rfl)]

theorem lexeme_of_isUpper {c : Char} (hc : c.isUpper) (cs : List Char) :
    lexeme c cs = nameLexeme .upperId c cs := by
  have hname : isNameChar c := by simp [isNameChar, hc]
  rw [lexeme_of_not_mem_marks (not_mem_marks_of_isNameChar hname), if_pos hc]

theorem lexeme_of_isLower {c : Char} (hc : c.isLower) (cs : List Char) :
    lexeme c cs = nameLexeme .lowerId c cs := by
  have hname : isNameChar c := by simp [isNameChar, hc]
  have hu : ¬ c.isUpper := by
    delta Char.isUpper Char.isLower at *
    grind
  rw [lexeme_of_not_mem_marks (not_mem_marks_of_isNameChar hname), if_neg hu, if_pos hc]

/-- What a character is the beginning of, and the lexeme that begins with it, whatever follows. -/
inductive Initial (c : Char) : Prop
  | delimiter (t : Token) (ht : t.WellNamed) (hlexeme : ∀ cs, lexeme c cs = ⟨t, 1⟩)
  | string (hlexeme : ∀ cs, lexeme c cs = stringLexeme cs)
  | negative (hlexeme : ∀ cs, lexeme c cs =
      match numberLexeme? true cs with
      | some l => ⟨l.token, l.length + 1⟩
      | none => ⟨.unknown, 1⟩)
  | upperName (hc : c.isUpper) (hlexeme : ∀ cs, lexeme c cs = nameLexeme .upperId c cs)
  | lowerName (hc : c.isLower) (hlexeme : ∀ cs, lexeme c cs = nameLexeme .lowerId c cs)
  | underscore (hc : c = '_') (hlexeme : ∀ cs, lexeme c cs =
      if (cs.takeWhile isNameChar).isEmpty then ⟨.underscore, 1⟩ else nameLexeme .lowerId c cs)
  | number (hlexeme : ∀ cs, lexeme c cs = (numberLexeme? false (c :: cs)).getD ⟨.unknown, 1⟩)

theorem initial (c : Char) : Initial c := by
  by_cases hdelimiter : c ∈ delimiters
  · obtain ⟨t, ht, hlexeme⟩ := exists_lexeme_of_mem_delimiters hdelimiter
    exact .delimiter t ht hlexeme
  by_cases hquote : c = '"'
  · rw [hquote]
    exact .string fun _ => rfl
  by_cases hminus : c = '-'
  · rw [hminus]
    exact .negative fun _ => rfl
  have hmark : c ∉ marks := by simp [marks, hquote, hminus, hdelimiter]
  have hlexeme := lexeme_of_not_mem_marks hmark
  by_cases hupper : c.isUpper
  · exact .upperName hupper (lexeme_of_isUpper hupper)
  by_cases hlower : c.isLower
  · exact .lowerName hlower (lexeme_of_isLower hlower)
  by_cases hunderscore : c = '_'
  · refine .underscore hunderscore fun cs => ?_
    rw [hlexeme, if_neg hupper, if_neg hlower, if_pos hunderscore]
  · refine .number fun cs => ?_
    rw [hlexeme, if_neg hupper, if_neg hlower, if_neg hunderscore]

theorem isBlank_of_isNameChar {c : Char} (h : isNameChar c) : isBlank c = false := by
  cases hb : isBlank c with
  | false => rfl
  | true =>
      simp only [isBlank, Bool.or_eq_true, beq_iff_eq] at hb
      rcases hb with (((rfl | rfl) | rfl) | rfl) | rfl <;> contradiction

theorem nameLexeme_append (mk : String → Token) (c : Char) {cs rest : List Char}
    (hcs : cs.all isNameChar) (hstop : Stops rest) :
    nameLexeme mk c (cs ++ rest) = ⟨mk (String.ofList (c :: cs)), cs.length + 1⟩ := by
  have htake := hstop.takeWhile_append (fun _ h => h) (List.all_eq_true.mp hcs)
  simp [nameLexeme, htake]

theorem lex_upperName {name rest : List Char} (hname : isUpperName name) (hstop : Stops rest) :
    lex (name ++ rest) = .upperId (String.ofList name) :: lex rest := by
  cases name with
  | nil => contradiction
  | cons c cs =>
      obtain ⟨hc, hcs⟩ := Bool.and_eq_true_iff.mp hname
      apply lex_of_lexeme c cs (isBlank_of_isNameChar (by simp [isNameChar, hc]))
      rw [lexeme_of_isUpper hc]
      exact nameLexeme_append _ c hcs hstop

theorem lex_lowerName {name rest : List Char} (hname : isLowerName name) (hstop : Stops rest) :
    lex (name ++ rest) = .lowerId (String.ofList name) :: lex rest := by
  cases name with
  | nil => contradiction
  | cons c cs =>
      obtain ⟨hc, hcs⟩ := Bool.and_eq_true_iff.mp hname
      have hlexeme := nameLexeme_append .lowerId c hcs hstop
      rcases Bool.or_eq_true_iff.mp hc with hl | hu
      · apply lex_of_lexeme c cs (isBlank_of_isNameChar (by simp [isNameChar, hl]))
        rw [lexeme_of_isLower hl]
        exact hlexeme
      · obtain ⟨heq, hne⟩ := Bool.and_eq_true_iff.mp hu
        obtain rfl := eq_of_beq heq
        have htake := hstop.takeWhile_append (fun _ h => h) (List.all_eq_true.mp hcs)
        have hempty : cs.isEmpty = false := by simpa using hne
        apply lex_of_lexeme '_' cs rfl
        rw [← hlexeme]
        simp [lexeme, htake, hempty]

theorem lex_underscore {rest : List Char} (hstop : Stops rest) :
    lex ('_' :: rest) = .underscore :: lex rest := by
  apply lex_of_lexeme '_' [] rfl
  simp [lexeme, hstop.takeWhile_eq_nil (p := isNameChar) (fun _ h => h)]

theorem ofInt_toInt (i : Int64) : ofInt i.toInt = .int i := by
  have hbounds : Int64.minValue.toInt ≤ i.toInt ∧ i.toInt ≤ Int64.maxValue.toInt :=
    ⟨Int64.minValue_le_toInt i, Int64.toInt_le i⟩
  rw [ofInt, if_pos hbounds, Int64.ofInt_toInt]

theorem numberLexeme?_digits (negative : Bool) {ds rest : List Char} (hne : ds ≠ [])
    (hds : ∀ c ∈ ds, c.isDigit) (hstop : Stops rest) :
    numberLexeme? negative (ds ++ rest) =
      some ⟨ofInt (if negative then -(digitsValue ds : Int) else digitsValue ds), ds.length⟩ := by
  have htake := hstop.takeWhile_append (fun _ => isNameChar_of_isDigit) hds
  have hdrop := hstop.dropWhile_append (fun _ => isNameChar_of_isDigit) hds
  simp only [numberLexeme?, htake, hdrop]
  split
  · exact absurd rfl (hstop '.' rfl).2
  · simp [hne]

theorem lex_of_numberLexeme? {cs rest : List Char} {t : Token} {negative : Bool}
    (hhead : ∀ c ∈ cs.head?, c.isDigit) (hne : cs ≠ [])
    (h : numberLexeme? negative (cs ++ rest) = some ⟨t, cs.length⟩) :
    lex ((if negative then ['-'] else []) ++ cs ++ rest) = t :: lex rest := by
  obtain ⟨c, cs, rfl⟩ := List.exists_cons_of_ne_nil hne
  cases negative with
  | true =>
      rw [List.cons_append] at h
      apply lex_of_lexeme '-' (c :: cs) rfl
      simp [lexeme, h]
  | false =>
      have hc := hhead c rfl
      apply lex_of_lexeme c cs (isBlank_of_isNameChar (isNameChar_of_isDigit hc))
      rw [lexeme_of_isDigit hc]
      simpa using congrArg (·.getD ⟨.unknown, 1⟩) h

theorem lex_renderInt (i : Int64) {rest : List Char} (hstop : Stops rest) :
    lex (renderInt i.toInt ++ rest) = .int i :: lex rest := by
  have hds : ∀ c ∈ Nat.toDigits 10 i.toInt.natAbs, c.isDigit :=
    fun c hc => Nat.isDigit_of_mem_toDigits (by decide) (by decide) hc
  have hnum := numberLexeme?_digits (decide (i.toInt < 0)) Nat.toDigits_ne_nil hds hstop
  have hvalue : (if decide (i.toInt < 0) then -(digitsValue (Nat.toDigits 10 i.toInt.natAbs) : Int)
      else digitsValue (Nat.toDigits 10 i.toInt.natAbs)) = i.toInt := by
    rw [digitsValue, Nat.ofDigitChars_ten_toDigits]
    simp only [decide_eq_true_eq]
    split <;> omega
  rw [hvalue, ofInt_toInt] at hnum
  have hlex := lex_of_numberLexeme? (fun c hc => hds c (List.mem_of_mem_head? hc))
    Nat.toDigits_ne_nil hnum
  have hrender : renderInt i.toInt =
      (if decide (i.toInt < 0) then ['-'] else []) ++ Nat.toDigits 10 i.toInt.natAbs := by
    simp only [renderInt, decide_eq_true_eq]
    split <;> rfl
  rw [hrender, hlex]

theorem exponentPart_of_isDigit {d : Char} (hd : d.isDigit) (ds : List Char) :
    exponentPart ('e' :: d :: ds) =
      ((digitsValue ((d :: ds).takeWhile Char.isDigit) : Int),
        ((d :: ds).takeWhile Char.isDigit).length + 1) := by
  have hminus : d ≠ '-' := ne_of_isDigit hd rfl
  have hplus : d ≠ '+' := ne_of_isDigit hd rfl
  simp [exponentPart, hminus, hplus, hd]

theorem exponentPart_append (e : Int) {rest : List Char} (hstop : Stops rest) :
    exponentPart ('e' :: renderInt e ++ rest) = (e, (renderInt e).length + 1) := by
  have hds : ∀ c ∈ Nat.toDigits 10 e.natAbs, c.isDigit :=
    fun c hc => Nat.isDigit_of_mem_toDigits (by decide) (by decide) hc
  have htake := hstop.takeWhile_append (p := Char.isDigit) (fun _ => isNameChar_of_isDigit) hds
  have hvalue : digitsValue (Nat.toDigits 10 e.natAbs) = e.natAbs := Nat.ofDigitChars_ten_toDigits
  by_cases hneg : e < 0
  · have habs : -(e.natAbs : Int) = e := by omega
    have hempty : (Nat.toDigits 10 e.natAbs).isEmpty = false := by
      simp [Nat.toDigits_ne_nil]
    simp only [exponentPart, renderInt, hneg, if_true, true_or, List.cons_append, htake, hempty,
      hvalue, habs, Bool.false_eq_true, if_false, List.length_cons]
  · obtain ⟨d, ds, hcons⟩ := List.exists_cons_of_ne_nil
      (Nat.toDigits_ne_nil (n := e.natAbs) (b := 10))
    have hd : d.isDigit := hds d (by simp [hcons])
    rw [hcons] at htake hvalue
    have habs : (e.natAbs : Int) = e := by omega
    have hrender : renderInt e = d :: ds := by rw [renderInt, if_neg hneg, hcons]
    rw [List.cons_append] at htake
    rw [hrender, List.cons_append, List.cons_append, exponentPart_of_isDigit hd, htake, hvalue,
      habs]

theorem exponentPart_of_stops {rest : List Char} (hstop : Stops rest) :
    exponentPart rest = (0, 0) := by
  cases rest with
  | nil => rfl
  | cons c cs =>
      have hname := (hstop c rfl).1
      have he : ¬ (c = 'e' ∨ c = 'E') := by
        rintro (rfl | rfl) <;> contradiction
      simp [exponentPart, he]

/-- The text of a numeral is one lexeme, with the value of the numeral. -/
theorem numberLexeme?_numeral (negative : Bool) (x : Numeral) {rest : List Char}
    (hstop : Stops rest) :
    numberLexeme? negative (x.text ++ rest) =
      some ⟨.real (x.value negative).toDouble, x.text.length⟩ := by
  have hpoint (cs : List Char) : ('.' :: cs).takeWhile Char.isDigit = [] := rfl
  have hwhole : (x.text ++ rest).takeWhile Char.isDigit = x.whole := by
    simp [Numeral.text, List.takeWhile_append_of_pos x.whole_isDigit, hpoint]
  have hafter : (x.text ++ rest).dropWhile Char.isDigit =
      '.' :: (x.fraction ++ (x.exponentText ++ rest)) := by
    simp [Numeral.text, List.dropWhile_append_of_pos x.whole_isDigit]
  have hnone : (x.exponentText ++ rest).takeWhile Char.isDigit = [] := by
    rw [Numeral.exponentText]
    split
    · exact hstop.takeWhile_eq_nil (fun _ => isNameChar_of_isDigit)
    · rfl
  have hfraction :
      (x.fraction ++ (x.exponentText ++ rest)).takeWhile Char.isDigit = x.fraction := by
    rw [List.takeWhile_append_of_pos x.fraction_isDigit, hnone, List.append_nil]
  have hrest : (x.fraction ++ (x.exponentText ++ rest)).dropWhile Char.isDigit =
      x.exponentText ++ rest := by
    have happ := List.takeWhile_append_dropWhile (p := Char.isDigit) (l := x.exponentText ++ rest)
    rw [hnone, List.nil_append] at happ
    rw [List.dropWhile_append_of_pos x.fraction_isDigit, happ]
  have hexp : exponentPart (x.exponentText ++ rest) =
      (x.exponent.getD 0, x.exponentText.length) := by
    rw [Numeral.exponentText]
    cases x.exponent with
    | none => exact exponentPart_of_stops hstop
    | some e => exact exponentPart_append e hstop
  have hne : x.whole.isEmpty = false := by simp [x.whole_ne_nil]
  have hlength : x.text.length =
      x.whole.length + 1 + x.fraction.length + x.exponentText.length := by
    simp only [Numeral.text, List.length_append, List.length_cons]
    omega
  simp only [numberLexeme?, hwhole, hafter, hfraction, hrest, hexp, hne, Bool.false_and,
    Bool.false_eq_true, if_false, hlength]
  rfl

theorem lex_render_double (r : Double) (hr : r.isFinite) {rest : List Char} (hstop : Stops rest) :
    lex (r.render ++ rest) = .real r :: lex rest := by
  obtain ⟨x, htext, hx⟩ := r.exists_numeral_render hr
  have hnum := numberLexeme?_numeral r.isNegative x hstop
  rw [hx] at hnum
  have hne : x.text ≠ [] := by simp [Numeral.text]
  have hhead : ∀ c ∈ x.text.head?, c.isDigit := by
    intro c hc
    obtain ⟨d, ds, hcons⟩ := List.exists_cons_of_ne_nil x.whole_ne_nil
    rw [Numeral.text, hcons] at hc
    obtain rfl : d = c := by simpa using hc
    exact x.whole_isDigit d (by simp [hcons])
  rw [htext]
  exact lex_of_numberLexeme? hhead hne hnum

/-- Printed tokens are read back. -/
theorem lex_render {t : Token} (ht : t.Printable) {text rest : List Char}
    (htext : t.render? = some text) (hstop : t.isOpenEnded → Stops rest) :
    lex (text ++ rest) = t :: lex rest := by
  cases t with
  | openBracket | closeBracket | openParen | closeParen | openBrace | closeBrace | comma | star
  | equals =>
      cases htext
      rfl
  | underscore =>
      cases htext
      exact lex_underscore (hstop rfl)
  | int i =>
      cases htext
      exact lex_renderInt i (hstop rfl)
  | real r =>
      cases htext
      exact lex_render_double r ht (hstop rfl)
  | str s =>
      cases htext
      exact lex_quote s rest
  | upperId s =>
      cases htext
      simpa using lex_upperName ht (hstop rfl)
  | lowerId s =>
      cases htext
      simpa using lex_lowerName ht (hstop rfl)
  | unknown => cases htext

theorem wellNamed_ofInt (i : Int) : (ofInt i).WellNamed := by
  unfold ofInt
  split <;> trivial

theorem wellNamed_numberLexeme? {negative : Bool} {cs : List Char} {l : Lexeme}
    (h : numberLexeme? negative cs = some l) : l.token.WellNamed := by
  unfold numberLexeme? at h
  dsimp only at h
  split at h
  · split at h
    · cases h
    · cases h
      trivial
  · split at h
    · cases h
    · cases h
      exact wellNamed_ofInt _

theorem wellNamed_stringLexeme (cs : List Char) : (stringLexeme cs).token.WellNamed := by
  unfold stringLexeme
  split <;> trivial

theorem wellNamed_lexeme (c : Char) (cs : List Char) : (lexeme c cs).token.WellNamed := by
  cases initial c with
  | delimiter t ht hlexeme =>
      rw [hlexeme]
      exact ht
  | string hlexeme =>
      rw [hlexeme]
      exact wellNamed_stringLexeme cs
  | negative hlexeme =>
      rw [hlexeme]
      cases hn : numberLexeme? true cs with
      | none => trivial
      | some l =>
          have hl := wellNamed_numberLexeme? hn
          exact hl
  | upperName hc hlexeme =>
      rw [hlexeme]
      simp [WellNamed, nameLexeme, isUpperName, hc]
  | lowerName hc hlexeme =>
      rw [hlexeme]
      simp [WellNamed, nameLexeme, isLowerName, hc]
  | underscore hc hlexeme =>
      rw [hlexeme]
      by_cases hempty : (cs.takeWhile isNameChar).isEmpty
      · rw [if_pos hempty]
        trivial
      · rw [if_neg hempty]
        simpa [WellNamed, nameLexeme, isLowerName, hc] using hempty
  | number hlexeme =>
      rw [hlexeme]
      cases hn : numberLexeme? false (c :: cs) with
      | none => trivial
      | some l => exact wellNamed_numberLexeme? hn

/-- The names in a text are spelt as their tokens demand. -/
theorem wellNamed_of_mem_lex {cs : List Char} {t : Token} (h : t ∈ lex cs) : t.WellNamed := by
  suffices hscan : ∀ n, ∀ t ∈ scan n cs, t.WellNamed from hscan 0 t h
  clear h t
  induction cs with
  | nil =>
      intro n t ht
      simp [scan] at ht
  | cons c cs ih =>
      intro n t ht
      cases n with
      | succ n => exact ih n t ht
      | zero =>
          simp only [scan] at ht
          split at ht
          · exact ih 0 t ht
          · rcases List.mem_cons.mp ht with rfl | ht
            · exact wellNamed_lexeme c cs
            · exact ih _ t ht

end Token

end StrategicRewriting
