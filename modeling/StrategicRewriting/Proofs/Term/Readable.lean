import StrategicRewriting.Proofs.Token.Lexing
import StrategicRewriting.Proofs.Written.Grammar
import StrategicRewriting.Proofs.Written.Meaning

/-!
Terms whose text tells everything about them. Annotations stand only where the
text has a place for them, and where braces follow a constrained variable, the
constraint has annotations of its own, as it would take these otherwise. The text
of such a term is read back as the term itself, whatever follows it.
-/
namespace StrategicRewriting

open Token (Stops lex isUpperName isLowerName)

namespace Term

/-- A list node, variable or wildcard without annotations. -/
def isPlainTail : Term → Bool
  | .nil _ | .cons .. | .var .. | .wildcard _ => true
  | _ => false

/-- A capitalized name, plain variable or wildcard without annotations. -/
def isPlainFunctor : Term → Bool
  | .str _ s => isUpperName s.toList
  | .var _ _ c => c.isUnconstrained
  | .wildcard _ => true
  | _ => false

def endsInNil : Term → Bool
  | .nil _ => true
  | .cons _ _ t => t.endsInNil
  | _ => false

/-- A list of at least one annotation. -/
def isAnnotationList : Term → Bool
  | .cons _ _ t => t.endsInNil
  | _ => false

/-- Braces after the text of the term are annotations of the whole term. -/
def takesBraces : Term → Bool
  | .annotated .. => false
  | .var _ _ c => c.isUnconstrained || c.annotations.isSome
  | _ => true

def Readable : Term → Prop
  | .int .. | .str .. | .nil _ | .wildcard _ => True
  | .real _ r => r.isFinite
  | .cons _ h t => h.Readable ∧ t.Readable ∧ t.isPlainTail
  | .appl _ f as => f.Readable ∧ f.isPlainFunctor ∧ as.Readable ∧ as.isPlainTail
  | .var _ x c => isLowerName x.toList ∧ c.Readable
  | .annotated _ b as => b.Readable ∧ b.takesBraces ∧ as.Readable ∧ as.isAnnotationList

end Term

/-- The tokens before a term that is not a list. -/
def Position.tokens : Position → List Token
  | alone => []
  | first => [.star]
  | later => [.comma, .star]

namespace Term

/-- The tokens of the text of a term. -/
def tokensAt : Position → Term → List Token
  | p, .int _ i => p.tokens ++ [.int i]
  | p, .real _ r => p.tokens ++ [.real r]
  | p, .str _ s => p.tokens ++ [.str s]
  | .alone, .nil _ => [.openBracket, .closeBracket]
  | _, .nil _ => []
  | .alone, .cons _ h t => .openBracket :: h.tokensAt .alone ++ t.tokensAt .later ++ [.closeBracket]
  | .first, .cons _ h t => h.tokensAt .alone ++ t.tokensAt .later
  | .later, .cons _ h t => .comma :: h.tokensAt .alone ++ t.tokensAt .later
  | p, .appl _ f as =>
    let functor := match f.shape with
      | .str s => [.upperId s]
      | _ => f.tokensAt .alone
    let args := match f.shape, as.shape with
      | .str _, .nil => []
      | _, _ => .openParen :: as.tokensAt .first ++ [.closeParen]
    p.tokens ++ functor ++ args
  | p, .wildcard _ => p.tokens ++ [.underscore]
  | p, .var _ x c =>
    p.tokens ++ .lowerId x :: if c.isUnconstrained then [] else .equals :: c.tokensAt .alone
  | .alone, .annotated _ b as =>
    b.tokensAt .alone ++ .openBrace :: as.tokensAt .first ++ [.closeBrace]
  | p, .annotated _ b as =>
    if b.isList then b.tokensAt p
    else b.tokensAt p ++ .openBrace :: as.tokensAt .first ++ [.closeBrace]

theorem renderAt_appl (p : Position) (o : Origin) {f : Term} (as : Term) (hf : f.toStr? = none) :
    (appl o f as).renderAt p =
      p.lead ++ (f.renderAt .alone ++ '(' :: (as.renderAt .first ++ [')'])) := by
  simp only [renderAt, toStr?] at *
  cases hshape : f.shape <;> rw [hshape] at hf <;> simp at hf ⊢

theorem tokensAt_appl (p : Position) (o : Origin) {f : Term} (as : Term) (hf : f.toStr? = none) :
    (appl o f as).tokensAt p =
      p.tokens ++ (f.tokensAt .alone ++ .openParen :: (as.tokensAt .first ++ [.closeParen])) := by
  simp only [tokensAt, toStr?] at *
  cases hshape : f.shape <;> rw [hshape] at hf <;> simp at hf ⊢

theorem lex_delimiters (cs : List Char) :
    lex ('[' :: cs) = .openBracket :: lex cs ∧ lex (']' :: cs) = .closeBracket :: lex cs ∧
    lex ('(' :: cs) = .openParen :: lex cs ∧ lex (')' :: cs) = .closeParen :: lex cs ∧
    lex ('{' :: cs) = .openBrace :: lex cs ∧ lex ('}' :: cs) = .closeBrace :: lex cs ∧
    lex (',' :: cs) = .comma :: lex cs ∧ lex ('*' :: cs) = .star :: lex cs ∧
    lex ('=' :: cs) = .equals :: lex cs :=
  ⟨rfl, rfl, rfl, rfl, rfl, rfl, rfl, rfl, rfl⟩

theorem lex_lead (p : Position) (cs : List Char) : lex (p.lead ++ cs) = p.tokens ++ lex cs := by
  cases p <;> rfl

theorem stops_cons {c : Char} {cs : List Char} (h : isNameChar c = false ∧ c ≠ '.') :
    Stops (c :: cs) := by
  intro d hd
  cases hd
  exact h

/-- What continues a sequence of elements begins with a comma, if there is any. -/
theorem stops_renderAt_later (t : Term) {rest : List Char} (hrest : Stops rest) :
    Stops (t.renderAt .later ++ rest) := by
  induction t generalizing rest with
  | nil o => exact hrest
  | annotated o b as ih _ =>
      simp only [renderAt]
      split
      · exact ih hrest
      · rw [List.append_assoc, List.append_assoc]
        exact ih (stops_cons (by decide))
  | _ => exact stops_cons (by decide)

theorem lex_renderAt {t : Term} (ht : t.Readable) (p : Position) {rest : List Char}
    (hrest : Stops rest) : lex (t.renderAt p ++ rest) = t.tokensAt p ++ lex rest := by
  induction t generalizing p rest with
  | int o i =>
      simp only [renderAt, tokensAt, List.append_assoc, lex_lead, Token.lex_renderInt i hrest,
        List.singleton_append]
  | real o r =>
      simp only [renderAt, tokensAt, List.append_assoc, lex_lead,
        Token.lex_render_double r ht hrest, List.singleton_append]
  | str o s =>
      simp only [renderAt, tokensAt, List.append_assoc, lex_lead, Token.lex_quote,
        List.singleton_append]
  | nil o => cases p <;> rfl
  | cons o h t ihh iht =>
      have hlater (cs : List Char) (hcs : Stops cs) :
          lex (h.renderAt .alone ++ (t.renderAt .later ++ cs)) =
            h.tokensAt .alone ++ (t.tokensAt .later ++ lex cs) := by
        rw [ihh ht.1 .alone (stops_renderAt_later t hcs), iht ht.2.1 .later hcs]
      have hclose : Stops (']' :: rest) := stops_cons (by decide)
      cases p <;>
        simp only [renderAt, tokensAt, List.append_assoc, List.cons_append, List.nil_append,
          lex_delimiters, hlater _ hclose, hlater _ hrest]
  | appl o f as ihf ihas =>
      obtain ⟨hf, hfunctor, has, -⟩ := ht
      have hopen (cs : List Char) : Stops ('(' :: cs) := stops_cons (by decide)
      have hargs : lex ('(' :: (as.renderAt .first ++ ')' :: rest)) =
          .openParen :: (as.tokensAt .first ++ .closeParen :: lex rest) := by
        simp only [lex_delimiters, ihas has .first (stops_cons (by decide) : Stops (')' :: rest))]
      cases f with
      | str o s =>
          cases hshape : as.shape <;>
            simp only [renderAt, tokensAt, shape, hshape, List.append_assoc, List.cons_append,
              List.nil_append, lex_lead, Token.lex_upperName hfunctor hrest,
              Token.lex_upperName hfunctor (hopen _), hargs, String.ofList_toList]
      | var o x c | wildcard o =>
          rw [renderAt_appl p _ as rfl, tokensAt_appl p _ as rfl]
          simp only [List.append_assoc, List.cons_append, List.nil_append, lex_lead,
            ihf hf .alone (hopen _), hargs]
      | _ => cases hfunctor
  | wildcard o =>
      simp only [renderAt, tokensAt, List.append_assoc, lex_lead, Token.lex_underscore hrest,
        List.singleton_append]
  | var o x c ih =>
      obtain ⟨hx, hc⟩ := ht
      have hequals (cs : List Char) : Stops ('=' :: cs) := stops_cons (by decide)
      simp only [renderAt, tokensAt, List.append_assoc, lex_lead]
      split
      · simp only [List.nil_append, List.cons_append, Token.lex_lowerName hx hrest,
          String.ofList_toList]
      · simp only [List.cons_append, Token.lex_lowerName hx (hequals _), String.ofList_toList,
          lex_delimiters, ih hc .alone hrest]
  | annotated o b as ihb ihas =>
      obtain ⟨hb, -, has, -⟩ := ht
      have hbraces (p : Position) :
          lex (b.renderAt p ++ '{' :: (as.renderAt .first ++ '}' :: rest)) =
          b.tokensAt p ++ .openBrace :: (as.tokensAt .first ++ .closeBrace :: lex rest) := by
        rw [ihb hb p (stops_cons (by decide))]
        simp only [lex_delimiters, ihas has .first (stops_cons (by decide) : Stops ('}' :: rest))]
      cases p <;> simp only [renderAt, tokensAt]
      case alone => simpa using hbraces .alone
      all_goals
        split
        · exact ihb hb _ hrest
        · simpa using hbraces _

open Written

/-- The next token neither opens arguments nor begins a constraint. -/
def Follows (rest : List Token) : Prop :=
  rest.head? ≠ some .openParen ∧ rest.head? ≠ some .equals

def ReadsAsAtom (t : Term) : Prop :=
  ∀ rest, Follows rest → (rest.head? = some .openBrace → t.takesBraces) →
    ∃ w, ReadsAtom (t.tokensAt .alone ++ rest) w rest ∧ w.denote = t.unnumbered ∧
      (t.isPlainTail → w.isSpreadable)

def ReadsAsTerm (t : Term) : Prop :=
  ∀ rest, Follows rest → (rest.head? = some .openBrace → t.annotations.isSome) →
    ∃ w, ReadsTerm (t.tokensAt .alone ++ rest) w rest ∧ w.denote = t.unnumbered ∧
      (t.isPlainTail → w.isSpreadable)

/-- The term is read as elements, or is the empty list. -/
def ReadsAsElements (t : Term) : Prop :=
  (∀ o, t ≠ .nil o) → ∀ (closer : Closer) (rest : List Token),
    ∃ es, ReadsElements closer (t.tokensAt .first ++ closer.token :: rest) es rest ∧
      es.denote = t.unnumbered ∧ (t.endsInNil → es.spread = none) ∧ (t.isList → es.items ≠ [])

theorem follows_closer (closer : Closer) (rest : List Token) :
    Follows (closer.token :: rest) ∧ (closer.token :: rest).head? ≠ some .openBrace := by
  cases closer <;> simp [Follows, Closer.token]

theorem follows_comma (rest : List Token) :
    Follows (.comma :: rest) ∧ (Token.comma :: rest).head? ≠ some .openBrace := by
  simp [Follows]

theorem ReadsAsAtom.term {t : Term} (h : ReadsAsAtom t) (ht : t.annotations = none) :
    ReadsAsTerm t := by
  intro rest hfollows hbrace
  have hne : rest.head? ≠ some .openBrace := fun hopen => by simp [ht] at hbrace; exact hbrace hopen
  obtain ⟨w, hw, hdenote, hspread⟩ := h rest hfollows fun hopen => absurd hopen hne
  exact ⟨w, .plain hw hne, hdenote, hspread⟩

theorem ReadsAsTerm.elements {t : Term} (h : ReadsAsTerm t)
    (hfirst : t.tokensAt .first = .star :: t.tokensAt .alone) (htail : t.isPlainTail)
    (hlist : t.isList = false) : ReadsAsElements t := by
  intro _ closer rest
  obtain ⟨hfollows, hne⟩ := follows_closer closer rest
  obtain ⟨w, hw, hdenote, hspread⟩ := h _ hfollows fun hopen => absurd hopen hne
  refine ⟨⟨[], some w⟩, ?_, hdenote, ?_, ?_⟩
  · rw [hfirst]
    exact .spread hw (hspread htail)
  · intro hend
    cases t <;> simp [endsInNil, isList, shape] at hend hlist
  · intro hlist'
    simp [hlist] at hlist'

theorem tokensAt_later {t : Term} (ht : t.isPlainTail) (hne : ∀ o, t ≠ .nil o) :
    t.tokensAt .later = .comma :: t.tokensAt .first := by
  cases t with
  | nil o => exact absurd rfl (hne o)
  | cons o h t | var o x c | wildcard o => rfl
  | _ => cases ht

theorem ReadsAsElements.cons {h t : Term} (o : Origin) (hhead : ReadsAsTerm h)
    (htail : ReadsAsElements t) (ht : t.isPlainTail) : ReadsAsElements (.cons o h t) := by
  intro _ closer rest
  by_cases hnil : ∃ o, t = .nil o
  · obtain ⟨o', rfl⟩ := hnil
    obtain ⟨hfollows, hne⟩ := follows_closer closer rest
    obtain ⟨w, hw, hdenote, -⟩ := hhead _ hfollows fun hopen => absurd hopen hne
    refine ⟨⟨[w], none⟩, ?_, ?_, fun _ => rfl, fun _ => List.cons_ne_nil _ _⟩
    · simpa only [tokensAt, List.append_nil] using ReadsElements.last hw
    · rw [unnumbered, ← hdenote]
      rfl
  · have hne : ∀ o, t ≠ .nil o := fun o ho => hnil ⟨o, ho⟩
    obtain ⟨es, hes, hdenotes, hend, -⟩ := htail hne closer rest
    obtain ⟨hfollows, hopen⟩ := follows_comma (t.tokensAt .first ++ closer.token :: rest)
    obtain ⟨w, hw, hdenote, -⟩ := hhead _ hfollows fun h => absurd h hopen
    refine ⟨⟨w :: es.items, es.spread⟩, ?_, ?_, hend, fun _ => List.cons_ne_nil _ _⟩
    · simpa only [tokensAt, tokensAt_later ht hne, List.append_assoc, List.cons_append] using
        ReadsElements.more hw hes
    · rw [unnumbered, ← hdenote, ← hdenotes]
      rfl

theorem ReadsAsElements.list {o : Origin} {h t : Term} (hs : ReadsAsElements (.cons o h t)) :
    ReadsAsAtom (.cons o h t) := by
  intro rest _ _
  obtain ⟨es, hes, hdenote, -, hne⟩ := hs (fun _ => Term.noConfusion) .bracket rest
  have hlist : ofElements es = .ok (.list es.items es.spread) := by
    obtain ⟨items, spread⟩ := es
    cases items with
    | nil => exact absurd rfl (hne rfl)
    | cons w ws => rfl
  refine ⟨.list es.items es.spread, ?_, hdenote, fun _ => rfl⟩
  simpa only [tokensAt, Closer.token, List.append_assoc, List.cons_append, List.nil_append] using
    ReadsAtom.list hes hlist

theorem unnumbered_of_isUnconstrained {c : Term} (hc : c.isUnconstrained) :
    c.unnumbered = .wildcard .derived := by
  cases c with
  | wildcard o => rfl
  | _ => cases hc

theorem exists_functor {f : Term} (hf : f.isPlainFunctor) :
    ∃ fn : Functor, fn.denote = f.unnumbered ∧
      ∀ o as, f.toStr? = none ∨ as.shape ≠ .nil →
        (appl o f as).tokensAt .alone =
          fn.token :: .openParen :: (as.tokensAt .first ++ [.closeParen]) := by
  cases f with
  | str o s =>
      refine ⟨.name s, rfl, ?_⟩
      rintro o as (h | h)
      · cases h
      · cases hshape : as.shape <;> simp_all [tokensAt, shape, Position.tokens, Functor.token]
  | var o x c =>
      have hc : c.isUnconstrained := hf
      refine ⟨.var x, ?_, fun o as _ => ?_⟩
      · rw [unnumbered, unnumbered_of_isUnconstrained hc]
        rfl
      · rw [tokensAt_appl .alone o as rfl]
        simp [tokensAt, hc, Position.tokens, Functor.token]
  | wildcard o =>
      refine ⟨.wildcard, rfl, fun o as _ => ?_⟩
      rw [tokensAt_appl .alone o as rfl]
      simp [tokensAt, Position.tokens, Functor.token]
  | _ => cases hf

theorem readsAsAtom_appl (o : Origin) {f as : Term} (hf : f.isPlainFunctor)
    (has : ReadsAsElements as) (htail : as.isPlainTail) : ReadsAsAtom (.appl o f as) := by
  intro rest hfollows _
  obtain ⟨fn, hfn, htokens⟩ := exists_functor hf
  cases as with
  | nil o' =>
      cases f with
      | str o'' s =>
          exact ⟨.appl (.name s) [] none, .constant s hfollows.1, rfl, fun h => nomatch h⟩
      | var o'' x c | wildcard o'' =>
          refine ⟨.appl fn [] none, ?_, ?_, fun h => nomatch h⟩
          · rw [htokens _ _ (.inl rfl)]
            exact .noArgs fn
          · rw [denote, hfn]
            rfl
      | _ => cases hf
  | cons o' h t | var o' x c | wildcard o' =>
      obtain ⟨es, hes, hdenote, -, -⟩ := has (fun _ => Term.noConfusion) .paren rest
      refine ⟨.appl fn es.items es.spread, ?_, ?_, fun h => nomatch h⟩
      · rw [htokens _ _ (.inr Shape.noConfusion)]
        simpa only [Closer.token, List.append_assoc, List.cons_append, List.nil_append] using
          ReadsAtom.appl fn hes
      · rw [denote, hfn, unnumbered, ← hdenote]
        rfl
  | _ => cases htail

theorem readsAsAtom_var (o : Origin) (x : String) {c : Term} (hc : ReadsAsTerm c) :
    ReadsAsAtom (.var o x c) := by
  intro rest hfollows hbrace
  cases hplain : c.isUnconstrained with
  | true =>
      refine ⟨.var x none, ?_, ?_, fun _ => rfl⟩
      · simpa [tokensAt, hplain, Position.tokens] using ReadsAtom.var x hfollows.1 hfollows.2
      · rw [unnumbered, unnumbered_of_isUnconstrained hplain]
        rfl
  | false =>
      have hannos (hopen : rest.head? = some .openBrace) : c.annotations.isSome := by
        simpa [takesBraces, hplain] using hbrace hopen
      obtain ⟨w, hw, hdenote, -⟩ := hc rest hfollows hannos
      refine ⟨.var x (some w), ?_, ?_, fun _ => rfl⟩
      · simpa [tokensAt, hplain, Position.tokens] using ReadsAtom.constrained x hw
      · rw [denote, hdenote]
        rfl

theorem readsAsTerm_annotated (o : Origin) {b as : Term} (hb : ReadsAsAtom b)
    (hbrace : b.takesBraces) (has : ReadsAsElements as) (hlist : as.isAnnotationList) :
    ReadsAsTerm (.annotated o b as) := by
  intro rest _ _
  cases as with
  | cons o' h t =>
      obtain ⟨⟨items, spread⟩, hes, hannos, hend, hne⟩ :=
        has (fun _ => Term.noConfusion) .brace rest
      obtain rfl := hend hlist
      obtain ⟨w, hw, hdenote, -⟩ := hb (.openBrace :: _) ⟨by simp, by simp⟩ fun _ => hbrace
      refine ⟨.annotated w items, ?_, ?_, fun h => nomatch h⟩
      · simpa only [tokensAt, Closer.token, List.append_assoc, List.cons_append,
          List.nil_append] using ReadsTerm.annotated hw hes
      · cases items with
        | nil => exact absurd rfl (hne rfl)
        | cons a annos =>
            have hbody : ofShape .derived b.unnumbered.shape = b.unnumbered := by
              cases b with
              | annotated _ _ _ => cases hbrace
              | _ => rfl
            rw [denote, hdenote, unnumbered, ← hannos, make, hbody]
            rfl
  | _ => cases hlist

/-- Readable terms are read back, alone and as elements. -/
theorem Readable.reads {t : Term} (ht : t.Readable) :
    (t.annotations = none → ReadsAsAtom t) ∧ ReadsAsTerm t ∧
      (t.isPlainTail → ReadsAsElements t) := by
  induction t with
  | int o i =>
      have hatom : ReadsAsAtom (.int o i) := fun rest _ _ => ⟨_, .int i, rfl, fun h => nomatch h⟩
      exact ⟨fun _ => hatom, hatom.term rfl, fun h => nomatch h⟩
  | real o r =>
      have hatom : ReadsAsAtom (.real o r) := fun rest _ _ => ⟨_, .real r, rfl, fun h => nomatch h⟩
      exact ⟨fun _ => hatom, hatom.term rfl, fun h => nomatch h⟩
  | str o s =>
      have hatom : ReadsAsAtom (.str o s) := fun rest _ _ => ⟨_, .str s, rfl, fun h => nomatch h⟩
      exact ⟨fun _ => hatom, hatom.term rfl, fun h => nomatch h⟩
  | nil o =>
      have hatom : ReadsAsAtom (.nil o) := fun rest _ _ => ⟨_, .emptyList, rfl, fun _ => rfl⟩
      exact ⟨fun _ => hatom, hatom.term rfl, fun _ hne => absurd rfl (hne o)⟩
  | cons o h t ihh iht =>
      obtain ⟨hh, ht, htail⟩ := ht
      have helems := ReadsAsElements.cons o (ihh hh).2.1 ((iht ht).2.2 htail) htail
      exact ⟨fun _ => helems.list, helems.list.term rfl, fun _ => helems⟩
  | appl o f as _ ihas =>
      obtain ⟨-, hf, has, htail⟩ := ht
      have hatom := readsAsAtom_appl o hf ((ihas has).2.2 htail) htail
      exact ⟨fun _ => hatom, hatom.term rfl, fun h => nomatch h⟩
  | wildcard o =>
      have hatom : ReadsAsAtom (.wildcard o) :=
        fun rest hrest _ => ⟨_, .wildcard hrest.1, rfl, fun _ => rfl⟩
      have hterm := hatom.term rfl
      exact ⟨fun _ => hatom, hterm, fun _ => hterm.elements rfl rfl rfl⟩
  | var o x c ih =>
      have hatom := readsAsAtom_var o x (ih ht.2).2.1
      have hterm := hatom.term rfl
      exact ⟨fun _ => hatom, hterm, fun _ => hterm.elements rfl rfl rfl⟩
  | annotated o b as ihb ihas =>
      obtain ⟨hb, hbrace, has, hlist⟩ := ht
      have hnone : b.annotations = none := by
        cases b with
        | annotated _ _ _ => cases hbrace
        | _ => rfl
      have htail : as.isPlainTail := by
        cases as with
        | cons _ _ _ => rfl
        | _ => cases hlist
      have hterm := readsAsTerm_annotated o ((ihb hb).1 hnone) hbrace ((ihas has).2.2 htail) hlist
      exact ⟨fun h => (nomatch h), hterm, fun h => nomatch h⟩

theorem Readable.parse_text {t : Term} (ht : t.Readable) :
    ∃ w, Written.parse t.text = .ok w ∧ w.denote = t.unnumbered := by
  have hend : Stops [] := by
    intro c hc
    cases hc
  have hlex := lex_renderAt ht .alone hend
  rw [List.append_nil] at hlex
  obtain ⟨w, hw, hdenote, -⟩ := ht.reads.2.1 [] ⟨by simp, by simp⟩ (by simp)
  refine ⟨w, ?_, hdenote⟩
  rw [Written.parse, text, String.toList_ofList, ofTokens_eq_ok_iff, render, hlex]
  exact hw

end Term

end StrategicRewriting
