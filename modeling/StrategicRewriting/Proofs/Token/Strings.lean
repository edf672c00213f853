import Mathlib.Computability.Language
import StrategicRewriting.Token.Lexer

/-!
Quoted strings as a language. Between the quotes stand characters other than quotes and
backslashes, and backslashes with the character after them, which is no line feed. The lexemes
of strings are exactly the words of this language, so there is one quote only at which a string
can end, and where its escapes are undone no backslash is found with nothing after it. Strings
that are written with escapes are read back, whatever comes after them.
-/
namespace StrategicRewriting

open scoped Computability

namespace Text

/-- A character that stands for itself: `[^"\\]`. -/
def plainCharacter : Language Char :=
  {w | ∃ c, w = [c] ∧ c ≠ '"' ∧ c ≠ '\\'}

/-- A backslash and the character it escapes, which is no line feed: `\\.`. -/
def escapedCharacter : Language Char :=
  {w | ∃ c, w = ['\\', c] ∧ c ≠ '\n'}

/-- What stands between the quotes: `([^"\\]|\\.)*`. -/
def quotedBody : Language Char :=
  (plainCharacter + escapedCharacter)∗

/-- Strings with their quotes: `"([^"\\]|\\.)*"`. -/
def quotedText : Language Char :=
  {['"']} * quotedBody * {['"']}

/-- The characters that the text between the quotes stands for, if no backslash in it has
nothing after it. -/
def unescape? : List Char → Option (List Char)
  | [] => some []
  | ['\\'] => none
  | '\\' :: c :: cs => (unescape? cs).map (unescapeChar c :: ·)
  | c :: cs => (unescape? cs).map (c :: ·)

variable {body cs slice : List Char} {c : Char}

theorem nil_mem_quotedBody : [] ∈ quotedBody :=
  Language.nil_mem_kstar _

theorem append_mem_quotedBody {w : List Char} (hw : w ∈ plainCharacter + escapedCharacter)
    (hcs : cs ∈ quotedBody) : w ++ cs ∈ quotedBody := by
  obtain ⟨ws, rfl, hws⟩ := Language.mem_kstar.mp hcs
  exact Language.join_mem_kstar (L := w :: ws) (List.forall_mem_cons.mpr ⟨hw, hws⟩)

theorem plain_mem_quotedBody (hquote : c ≠ '"') (hescape : c ≠ '\\') (hcs : cs ∈ quotedBody) :
    c :: cs ∈ quotedBody :=
  append_mem_quotedBody (.inl ⟨c, rfl, hquote, hescape⟩) hcs

theorem escaped_mem_quotedBody (hc : c ≠ '\n') (hcs : cs ∈ quotedBody) :
    '\\' :: c :: cs ∈ quotedBody :=
  append_mem_quotedBody (.inr ⟨c, rfl, hc⟩) hcs

@[elab_as_elim]
theorem quotedBody_induction {motive : (body : List Char) → body ∈ quotedBody → Prop}
    (nil : motive [] nil_mem_quotedBody)
    (plain : ∀ c cs (hquote : c ≠ '"') (hescape : c ≠ '\\') (hcs : cs ∈ quotedBody),
      motive cs hcs → motive (c :: cs) (plain_mem_quotedBody hquote hescape hcs))
    (escaped : ∀ c cs (hc : c ≠ '\n') (hcs : cs ∈ quotedBody),
      motive cs hcs → motive ('\\' :: c :: cs) (escaped_mem_quotedBody hc hcs))
    (h : body ∈ quotedBody) : motive body h := by
  obtain ⟨ws, rfl, hws⟩ := Language.mem_kstar.mp h
  induction ws with
  | nil => exact nil
  | cons w ws ih =>
      obtain ⟨hw, hrest⟩ := List.forall_mem_cons.mp hws
      have hbody : ws.flatten ∈ quotedBody := Language.join_mem_kstar hrest
      cases hw with
      | inl hw =>
          obtain ⟨c, rfl, hquote, hescape⟩ := hw
          exact plain c _ hquote hescape hbody (ih hrest hbody)
      | inr hw =>
          obtain ⟨c, rfl, hc⟩ := hw
          exact escaped c _ hc hbody (ih hrest hbody)

theorem mem_quotedText_iff :
    slice ∈ quotedText ↔ ∃ body ∈ quotedBody, slice = '"' :: (body ++ ['"']) := by
  constructor
  · intro h
    obtain ⟨_, hinit, _, hclose, rfl⟩ := Language.mem_mul.mp h
    obtain ⟨_, hopen, body, hbody, rfl⟩ := Language.mem_mul.mp hinit
    cases hopen
    cases hclose
    exact ⟨body, hbody, rfl⟩
  · intro h
    obtain ⟨body, hbody, rfl⟩ := h
    have hquote : ['"'] ∈ ({['"']} : Language Char) := rfl
    exact Language.append_mem_mul (Language.append_mem_mul hquote hbody) hquote

/-- The text between the quotes. -/
theorem dropLast_tail_quoted (body : List Char) :
    ('"' :: (body ++ ['"'])).tail.dropLast = body :=
  List.dropLast_concat

/-! Undoing escapes. -/

theorem unescape_cons (hc : c ≠ '\\') (cs : List Char) :
    unescape (c :: cs) = c :: unescape cs := by
  rw [unescape.eq_def]
  split <;> simp_all

theorem unescape?_cons (hc : c ≠ '\\') (cs : List Char) :
    unescape? (c :: cs) = (unescape? cs).map (c :: ·) := by
  rw [unescape?.eq_def]
  split <;> simp_all

theorem unescape?_of_mem_quotedBody (h : body ∈ quotedBody) :
    unescape? body = some (unescape body) := by
  induction h using quotedBody_induction with
  | nil => rfl
  | plain c cs hquote hescape hcs ih =>
      rw [unescape?_cons hescape, unescape_cons hescape, ih, Option.map_some]
  | escaped c cs hc hcs ih => rw [unescape?, unescape, ih, Option.map_some]

theorem unescape?_of_mem_quotedText (h : slice ∈ quotedText) :
    unescape? slice.tail.dropLast = some (unescape slice.tail.dropLast) := by
  obtain ⟨body, hbody, rfl⟩ := mem_quotedText_iff.mp h
  rw [dropLast_tail_quoted]
  exact unescape?_of_mem_quotedBody hbody

/-- A character is written as it is, or with a backslash before one that stands for it. -/
theorem escapeChar_cases (c : Char) :
    (escapeChar c = [c] ∧ c ≠ '"' ∧ c ≠ '\\') ∨
      ∃ d, escapeChar c = ['\\', d] ∧ unescapeChar d = c ∧ d ≠ '\n' := by
  unfold escapeChar
  split <;> simp_all [unescapeChar]

theorem unescape_escapeChar (c : Char) (cs : List Char) :
    unescape (escapeChar c ++ cs) = c :: unescape cs := by
  cases escapeChar_cases c with
  | inl hplain =>
      obtain ⟨hwritten, -, hescape⟩ := hplain
      rw [hwritten]
      exact unescape_cons hescape cs
  | inr hescaped =>
      obtain ⟨d, hwritten, hd, -⟩ := hescaped
      rw [hwritten, ← hd]
      rfl

theorem unescape_escape (cs : List Char) : unescape (escape cs) = cs := by
  induction cs with
  | nil => rfl
  | cons c cs ih =>
      rw [escape, List.flatMap_cons, unescape_escapeChar]
      exact congrArg _ ih

/-! Escapes that are written belong to the language. -/

theorem escapeChar_mem (c : Char) : escapeChar c ∈ plainCharacter + escapedCharacter := by
  cases escapeChar_cases c with
  | inl hplain => exact .inl ⟨c, hplain⟩
  | inr hescaped =>
      obtain ⟨d, hwritten, -, hd⟩ := hescaped
      exact .inr ⟨d, hwritten, hd⟩

theorem escape_mem_quotedBody (cs : List Char) : escape cs ∈ quotedBody := by
  induction cs with
  | nil => exact nil_mem_quotedBody
  | cons c cs ih =>
      rw [escape, List.flatMap_cons]
      exact append_mem_quotedBody (escapeChar_mem c) ih

theorem quote_mem_quotedText (s : String) : quote s ∈ quotedText :=
  mem_quotedText_iff.mpr ⟨_, escape_mem_quotedBody s.toList, rfl⟩

end Text

namespace Token

open Text

variable {cs slice body : List Char}

theorem stringBody_cons {c : Char} (hquote : c ≠ '"') (hescape : c ≠ '\\') :
    stringBody (c :: cs) = (c :: (stringBody cs).1, (stringBody cs).2) := by
  rw [stringBody.eq_def]
  split <;> simp_all

theorem stringBody_of_mem_quotedBody (h : body ∈ quotedBody) (rest : List Char) :
    stringBody (body ++ '"' :: rest) = (body, true) := by
  induction h using quotedBody_induction with
  | nil => simp [stringBody]
  | plain c cs hquote hescape hcs ih =>
      rw [List.cons_append, stringBody_cons hquote hescape, ih]
  | escaped c cs hc hcs ih =>
      simp only [List.cons_append, stringBody, if_neg hc, ih]

theorem mem_quotedBody_of_stringBody (h : stringBody cs = (body, true)) :
    body ∈ quotedBody ∧ ∃ rest, cs = body ++ '"' :: rest := by
  fun_induction stringBody cs generalizing body with
  | case1 | case3 | case4 => cases h
  | case2 cs =>
      cases h
      exact ⟨nil_mem_quotedBody, cs, rfl⟩
  | case5 c cs hc body' closed hbody ih =>
      cases h
      obtain ⟨hmem, rest, rfl⟩ := ih hbody
      exact ⟨escaped_mem_quotedBody hc hmem, rest, rfl⟩
  | case6 c cs hquote hsingle hescape body' closed hbody ih =>
      cases h
      have hc : c ≠ '\\' := by
        intro hc
        cases cs with
        | nil => exact hsingle hc rfl
        | cons d cs => exact hescape d cs hc rfl
      obtain ⟨hmem, rest, rfl⟩ := ih hbody
      exact ⟨plain_mem_quotedBody hquote hc hmem, rest, rfl⟩

/-- A word of the language at the beginning of a text is its first token. -/
theorem lex_of_mem_quotedText (h : slice ∈ quotedText) (rest : List Char) :
    lex (slice ++ rest) = .str (String.ofList (unescape slice.tail.dropLast)) :: lex rest := by
  obtain ⟨body, hbody, rfl⟩ := mem_quotedText_iff.mp h
  rw [dropLast_tail_quoted]
  apply lex_of_lexeme '"' (body ++ ['"']) rfl
  simp [lexeme, stringLexeme, stringBody_of_mem_quotedBody hbody]

/-- Only words of the language are lexemes of strings. -/
theorem exists_quotedText_of_lexeme {text : String} (h : (lexeme '"' cs).token = .str text) :
    ∃ slice ∈ quotedText, ∃ rest, '"' :: cs = slice ++ rest ∧
      (lexeme '"' cs).length = slice.length ∧
      text = String.ofList (unescape slice.tail.dropLast) := by
  change (stringLexeme cs).token = .str text at h
  change ∃ slice ∈ quotedText, ∃ rest, _ ∧ (stringLexeme cs).length = slice.length ∧ _
  unfold stringLexeme at h ⊢
  split at h
  · rename_i body hbody
    cases h
    obtain ⟨hmem, rest, rfl⟩ := mem_quotedBody_of_stringBody hbody
    refine ⟨'"' :: (body ++ ['"']), mem_quotedText_iff.mpr ⟨body, hmem, rfl⟩, rest, ?_, ?_, ?_⟩
    · rw [List.cons_append, List.append_assoc, List.singleton_append]
    · rw [List.length_cons, List.length_append, List.length_singleton]
    · rw [dropLast_tail_quoted]
  · cases h

theorem lex_quote (s : String) (rest : List Char) :
    lex (quote s ++ rest) = .str s :: lex rest := by
  have hbody : (quote s).tail.dropLast = escape s.toList := dropLast_tail_quoted _
  rw [lex_of_mem_quotedText (quote_mem_quotedText s), hbody, unescape_escape, String.ofList_toList]

/-- Lexing undoes escaping: a written string is the first token of its text followed by
whatever else, and the other tokens are those of the rest. The texts from which escapes are
removed are the words of the language of strings, wherever they stand and nothing else, and the
case of a backslash with nothing after it does not come up in any of them. -/
theorem quoted_strings_read_back :
    (∀ (s : String) (rest : List Char), lex (quote s ++ rest) = .str s :: lex rest) ∧
    (∀ slice ∈ quotedText,
      unescape? slice.tail.dropLast = some (unescape slice.tail.dropLast)) ∧
    (∀ slice ∈ quotedText, ∀ rest,
      lex (slice ++ rest) =
        .str (String.ofList (unescape slice.tail.dropLast)) :: lex rest) ∧
    ∀ cs text, (lexeme '"' cs).token = .str text →
      ∃ slice ∈ quotedText, ∃ rest, '"' :: cs = slice ++ rest ∧
        (lexeme '"' cs).length = slice.length ∧
        text = String.ofList (unescape slice.tail.dropLast) :=
  ⟨lex_quote, fun _ => unescape?_of_mem_quotedText, fun _ => lex_of_mem_quotedText,
    fun _ _ => exists_quotedText_of_lexeme⟩

theorem quoted_strings_read_back_backslashes :
    ∃ slice rest : List Char, slice ∈ quotedText ∧
      unescape? slice.tail.dropLast = some ['q', '\\'] ∧
      lex (slice ++ rest) = [.str "q\\", .unknown] ∧
      lex (quote "\\\"\t\n\\" ++ rest) = [.str "\\\"\t\n\\", .unknown] ∧
      ∃ slice' ∈ quotedText, ∃ rest', slice ++ rest = slice' ++ rest' ∧ "q\\" =
        String.ofList (unescape slice'.tail.dropLast) := by
  -- `"\q\\"` with a backslash before its last quote, then a string that is not closed
  let slice : List Char := ['"', '\\', 'q', '\\', '\\', '"']
  let rest : List Char := ['"', 'x', '\\', '"']
  have hbody : ['\\', 'q', '\\', '\\'] ∈ quotedBody :=
    escaped_mem_quotedBody (by decide) (escaped_mem_quotedBody (by decide) nil_mem_quotedBody)
  have hslice : slice ∈ quotedText := mem_quotedText_iff.mpr ⟨_, hbody, rfl⟩
  have hrest : lex rest = [.unknown] := by decide +kernel
  obtain ⟨hquote, hunescape, hlex, hlexeme⟩ := quoted_strings_read_back
  obtain ⟨slice', hslice', rest', happend, -, htext⟩ :=
    hlexeme (slice.tail ++ rest) "q\\" (by decide +kernel)
  refine ⟨slice, rest, hslice, hunescape slice hslice, ?_, ?_, slice', hslice', rest', happend,
    htext⟩
  · rw [hlex slice hslice, hrest]
    rfl
  · rw [hquote, hrest]

end Token

end StrategicRewriting
