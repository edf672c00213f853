import StrategicRewriting.Proofs.Token.Lexing

/-!
Blanks between texts. A blank does not continue the lexeme that a text ends with, unless this
is unknown, such as a string that is not closed. So the tokens of two texts with a blank between
them are the tokens of the first one, if these are known, and then those of the second one.
-/
namespace StrategicRewriting

namespace Token

/-- The text is over, or a blank comes next. -/
def Breaks (cs : List Char) : Prop :=
  ∀ c ∈ cs.head?, isBlank c

variable {cs rest : List Char}

theorem not_isNameChar_of_isBlank {c : Char} (h : isBlank c) : isNameChar c = false := by
  cases hc : isNameChar c with
  | false => rfl
  | true => cases (isBlank_of_isNameChar hc).symm.trans h

theorem Breaks.stops (h : Breaks rest) : Stops rest := by
  intro c hc
  refine ⟨not_isNameChar_of_isBlank (h c hc), ?_⟩
  rintro rfl
  cases h '.' hc

theorem Stops.takeWhile_eq (h : Stops rest) {p : Char → Bool} (hp : ∀ c, p c → isNameChar c)
    (cs : List Char) : (cs ++ rest).takeWhile p = cs.takeWhile p := by
  induction cs with
  | nil => exact h.takeWhile_eq_nil hp
  | cons c cs ih => simp only [List.cons_append, List.takeWhile_cons, ih]

theorem Stops.dropWhile_eq (h : Stops rest) {p : Char → Bool} (hp : ∀ c, p c → isNameChar c)
    (cs : List Char) : (cs ++ rest).dropWhile p = cs.dropWhile p ++ rest := by
  induction cs with
  | nil => exact h.dropWhile_append hp (List.forall_mem_nil _)
  | cons c cs ih =>
      simp only [List.cons_append, List.dropWhile_cons, ih]
      split <;> rfl

namespace Breaks

variable (h : Breaks rest)
include h

theorem takeWhile_isDigit (cs : List Char) :
    (cs ++ rest).takeWhile Char.isDigit = cs.takeWhile Char.isDigit :=
  h.stops.takeWhile_eq (fun _ => isNameChar_of_isDigit) cs

theorem dropWhile_isDigit (cs : List Char) :
    (cs ++ rest).dropWhile Char.isDigit = cs.dropWhile Char.isDigit ++ rest :=
  h.stops.dropWhile_eq (fun _ => isNameChar_of_isDigit) cs

/-- Neither a sign nor a digit is a blank, so an exponent mark before one means nothing. -/
theorem exponentPart_append (cs : List Char) : exponentPart (cs ++ rest) = exponentPart cs := by
  have hdigits := h.takeWhile_isDigit
  cases cs with
  | nil => exact exponentPart_of_stops h.stops
  | cons e cs =>
      have hsigned (c : Char) (hc : c = '-' ∨ c = '+') : rest.head? ≠ some c := by
        intro hhead
        have hblank := h c hhead
        rcases hc with rfl | rfl <;> cases hblank
      simp only [List.cons_append, exponentPart]
      split
      · cases cs with
        | nil =>
            have hnone := hdigits []
            rw [List.nil_append] at hnone ⊢
            split
            · exact absurd rfl (hsigned '-' (.inl rfl))
            · exact absurd rfl (hsigned '+' (.inr rfl))
            · rw [hnone]
        | cons c cs =>
            by_cases hminus : c = '-'
            · subst hminus
              simp only [List.cons_append, hdigits]
            by_cases hplus : c = '+'
            · subst hplus
              simp only [List.cons_append, hdigits]
            have hrest := hdigits (c :: cs)
            rw [List.cons_append] at hrest ⊢
            split <;> split <;> simp_all
      · rfl

theorem numberLexeme?_append (negative : Bool) (cs : List Char) :
    numberLexeme? negative (cs ++ rest) = numberLexeme? negative cs := by
  simp only [numberLexeme?, h.takeWhile_isDigit, h.dropWhile_isDigit]
  cases cs.dropWhile Char.isDigit with
  | nil =>
      rw [List.nil_append]
      split
      · exact absurd rfl (h.stops '.' rfl).2
      · rfl
  | cons c ds =>
      by_cases hpoint : c = '.'
      · subst hpoint
        simp only [List.cons_append, h.takeWhile_isDigit, h.dropWhile_isDigit,
          h.exponentPart_append]
      rw [List.cons_append]
      split <;> split <;> simp_all

end Breaks

theorem length_exponentPart_le (cs : List Char) : (exponentPart cs).2 ≤ cs.length := by
  have htake (ds : List Char) : (ds.takeWhile Char.isDigit).length ≤ ds.length :=
    (List.takeWhile_prefix _).length_le
  unfold exponentPart
  split
  · exact Nat.zero_le _
  · split
    · split
      all_goals
        dsimp only
        split
        · exact Nat.zero_le _
        · exact Nat.add_le_add_right (htake _) _
    · exact Nat.zero_le _

theorem length_numberLexeme?_le {negative : Bool} {l : Lexeme}
    (h : numberLexeme? negative cs = some l) : l.length ≤ cs.length := by
  have hwhole := congrArg List.length
    (List.takeWhile_append_dropWhile (p := Char.isDigit) (l := cs))
  rw [List.length_append] at hwhole
  unfold numberLexeme? at h
  dsimp only at h
  split at h
  · rename_i ds hds
    have hfraction := congrArg List.length
      (List.takeWhile_append_dropWhile (p := Char.isDigit) (l := ds))
    have hexponent := length_exponentPart_le (ds.dropWhile Char.isDigit)
    rw [List.length_append] at hfraction
    rw [hds, List.length_cons] at hwhole
    split at h
    · cases h
    · cases h
      dsimp only
      omega
  · split at h
    · cases h
    · cases h
      dsimp only
      omega

/-- A string that is closed is not changed by what comes after it. -/
theorem stringBody_append {body : List Char} (h : stringBody cs = (body, true))
    (rest : List Char) :
    stringBody (cs ++ rest) = (body, true) ∧ body.length < cs.length := by
  obtain ⟨hbody, rest', rfl⟩ := mem_quotedBody_of_stringBody h
  rw [List.append_assoc, List.cons_append]
  refine ⟨stringBody_of_mem_quotedBody hbody _, ?_⟩
  rw [List.length_append]
  exact Nat.lt_add_of_pos_right (Nat.succ_pos _)

theorem stringLexeme_append (h : (stringLexeme cs).token ≠ .unknown) (rest : List Char) :
    stringLexeme (cs ++ rest) = stringLexeme cs ∧ (stringLexeme cs).length ≤ cs.length + 1 := by
  unfold stringLexeme at h ⊢
  split at h
  · rename_i body hbody
    obtain ⟨happend, hlt⟩ := stringBody_append hbody rest
    rw [happend]
    exact ⟨rfl, Nat.add_le_add_right hlt 1⟩
  · exact absurd rfl h

theorem length_nameLexeme_le (mk : String → Token) (c : Char) (cs : List Char) :
    (nameLexeme mk c cs).length ≤ cs.length + 1 := by
  rw [nameLexeme, List.length_cons]
  exact Nat.add_le_add_right (List.takeWhile_prefix _).length_le 1

theorem Breaks.nameLexeme_append (hrest : Breaks rest) (mk : String → Token) (c : Char) :
    nameLexeme mk c (cs ++ rest) = nameLexeme mk c cs := by
  rw [nameLexeme, hrest.stops.takeWhile_eq (fun _ h => h), nameLexeme]

/-- The first lexeme of a text is found before the blank that ends the text. -/
theorem Breaks.lexeme_append (hrest : Breaks rest) {c : Char}
    (h : (lexeme c cs).token ≠ .unknown) : lexeme c (cs ++ rest) = lexeme c cs := by
  cases initial c with
  | delimiter t ht hlexeme => rw [hlexeme, hlexeme]
  | string hlexeme =>
      rw [hlexeme] at h
      rw [hlexeme, hlexeme, (stringLexeme_append h rest).1]
  | negative hlexeme => rw [hlexeme, hlexeme, hrest.numberLexeme?_append]
  | upperName hc hlexeme | lowerName hc hlexeme =>
      rw [hlexeme, hlexeme, hrest.nameLexeme_append]
  | underscore hc hlexeme =>
      rw [hlexeme, hlexeme, hrest.stops.takeWhile_eq (fun _ h => h), hrest.nameLexeme_append]
  | number hlexeme =>
      rw [hlexeme, hlexeme, ← List.cons_append, hrest.numberLexeme?_append]

theorem length_lexeme_le {c : Char} (h : (lexeme c cs).token ≠ .unknown) :
    (lexeme c cs).length ≤ cs.length + 1 := by
  cases initial c with
  | delimiter t ht hlexeme =>
      rw [hlexeme]
      exact Nat.le_add_left 1 _
  | string hlexeme =>
      rw [hlexeme] at h ⊢
      exact (stringLexeme_append h []).2
  | negative hlexeme =>
      rw [hlexeme]
      cases hn : numberLexeme? true cs with
      | none => exact Nat.le_add_left 1 _
      | some l => exact Nat.add_le_add_right (length_numberLexeme?_le hn) 1
  | upperName hc hlexeme | lowerName hc hlexeme =>
      rw [hlexeme]
      exact length_nameLexeme_le ..
  | underscore hc hlexeme =>
      rw [hlexeme]
      split
      · exact Nat.le_add_left 1 _
      · exact length_nameLexeme_le ..
  | number hlexeme =>
      rw [hlexeme]
      cases hn : numberLexeme? false (c :: cs) with
      | none => exact Nat.le_add_left 1 _
      | some l => exact length_numberLexeme?_le hn

theorem Breaks.scan_append (hrest : Breaks rest) {n : Nat} (hn : n ≤ cs.length)
    (h : .unknown ∉ scan n cs) : scan n (cs ++ rest) = scan n cs ++ scan 0 rest := by
  induction cs generalizing n with
  | nil =>
      cases hn
      rfl
  | cons c cs ih =>
      cases n with
      | succ n => exact ih (Nat.le_of_succ_le_succ hn) h
      | zero =>
          rw [List.cons_append]
          simp only [scan] at h ⊢
          split at h
          · rename_i hb
            rw [if_pos hb, if_pos hb]
            exact ih (Nat.zero_le _) h
          · rename_i hb
            rw [List.mem_cons, not_or] at h
            have hlexeme := Ne.symm h.1
            have hle := length_lexeme_le hlexeme
            rw [if_neg hb, if_neg hb, hrest.lexeme_append hlexeme, ih (by omega) h.2,
              List.cons_append]

/-- Known tokens are the same ones before a blank. -/
theorem lex_append (h : .unknown ∉ lex cs) (hrest : Breaks rest) :
    lex (cs ++ rest) = lex cs ++ lex rest :=
  hrest.scan_append (Nat.zero_le _) h

theorem lex_blank {b : Char} (hb : isBlank b) (cs : List Char) : lex (b :: cs) = lex cs := by
  simp only [lex, scan, hb, if_true]

end Token

end StrategicRewriting
