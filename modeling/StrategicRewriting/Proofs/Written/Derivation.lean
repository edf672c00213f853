import StrategicRewriting.Proofs.Term.Readable

/-!
The grammar of terms without lookahead, as derivations of whole token sequences. It leaves
open where annotations after a constrained variable belong: to the variable, or to a term
that its constraint ends with. The parser accepts exactly what can be derived, and among
the derivations of a text it finds the one that attaches every group of annotations to the
innermost term that can have it.
-/
namespace StrategicRewriting.Written

def isList : Written → Bool
  | .list .. => true
  | _ => false

def isAnnotated : Written → Bool
  | .annotated .. => true
  | _ => false

/-- Between brackets, a spread may stand alone only if it is a list itself. -/
def Elements.formList : Elements → Bool
  | ⟨[], some w⟩ => w.isList
  | _ => true

mutual

/-- `term := atom ['{' terms '}']` -/
inductive DerivesTerm : List Token → Written → Prop
  | plain {ts : List Token} {w : Written} : DerivesAtom ts w → DerivesTerm ts w
  | annotated {ts us : List Token} {w : Written} {annos : List Written} :
      DerivesAtom ts w → DerivesTerms us annos →
      DerivesTerm (ts ++ .openBrace :: (us ++ [.closeBrace])) (.annotated w annos)

/-- `atom := Int | Real | Str | '[' [elems] ']' | UpperId ['(' [elems] ')'] |`
`(LowerId | '_') '(' [elems] ')' | LowerId ['=' term] | '_'` -/
inductive DerivesAtom : List Token → Written → Prop
  | int (i : Int64) : DerivesAtom [.int i] (.int i)
  | real (r : Double) : DerivesAtom [.real r] (.real r)
  | str (s : String) : DerivesAtom [.str s] (.str s)
  | emptyList : DerivesAtom [.openBracket, .closeBracket] (.list [] none)
  | list {ts : List Token} {es : Elements} : DerivesElements ts es → es.formList →
      DerivesAtom (.openBracket :: (ts ++ [.closeBracket])) (.list es.items es.spread)
  | constant (s : String) : DerivesAtom [.upperId s] (.appl (.name s) [] none)
  | noArgs (fn : Functor) : DerivesAtom [fn.token, .openParen, .closeParen] (.appl fn [] none)
  | appl {ts : List Token} {es : Elements} (fn : Functor) : DerivesElements ts es →
      DerivesAtom (fn.token :: .openParen :: (ts ++ [.closeParen])) (.appl fn es.items es.spread)
  | var (x : String) : DerivesAtom [.lowerId x] (.var x none)
  | constrained {ts : List Token} {p : Written} (x : String) : DerivesTerm ts p →
      DerivesAtom (.lowerId x :: .equals :: ts) (.var x (some p))
  | wildcard : DerivesAtom [.underscore] .wildcard

/-- `terms := term (',' term)*` -/
inductive DerivesTerms : List Token → List Written → Prop
  | last {ts : List Token} {w : Written} : DerivesTerm ts w → DerivesTerms ts [w]
  | more {ts us : List Token} {w : Written} {ws : List Written} :
      DerivesTerm ts w → DerivesTerms us ws → DerivesTerms (ts ++ .comma :: us) (w :: ws)

/-- `elems := terms [',' spread] | spread` -/
inductive DerivesElements : List Token → Elements → Prop
  | terms {ts : List Token} {ws : List Written} : DerivesTerms ts ws → DerivesElements ts ⟨ws, none⟩
  | both {ts us : List Token} {ws : List Written} {w : Written} :
      DerivesTerms ts ws → DerivesSpread us w → DerivesElements (ts ++ .comma :: us) ⟨ws, some w⟩
  | spread {ts : List Token} {w : Written} : DerivesSpread ts w → DerivesElements ts ⟨[], some w⟩

/-- `spread := '*' v`, where `v` is a variable, wildcard or list without annotations. -/
inductive DerivesSpread : List Token → Written → Prop
  | intro {ts : List Token} {w : Written} :
      DerivesAtom ts w → w.isSpreadable → DerivesSpread (.star :: ts) w

end

/-- The terms inside a term that end where it ends. -/
def atEnd : Written → List Written
  | .var _ (some p) => p :: p.atEnd
  | _ => []

mutual

/-- Every group of annotations belongs to the innermost term that it can belong to: the terms
that end right before it have annotations already, as a term has at most one group. -/
def Innermost : Written → Prop
  | .int _ | .real _ | .str _ | .wildcard | .var _ none => True
  | .list es spread | .appl _ es spread => AllInnermost es ∧ SpreadInnermost spread
  | .var _ (some p) => p.Innermost
  | .annotated w annos => w.Innermost ∧ (∀ v ∈ w.atEnd, v.isAnnotated) ∧ AllInnermost annos

def AllInnermost : List Written → Prop
  | [] => True
  | w :: ws => w.Innermost ∧ AllInnermost ws

def SpreadInnermost : Option Written → Prop
  | none => True
  | some w => w.Innermost

end

/-- Of the terms that end a constraint, only the first one can have annotations. -/
theorem forall_atEnd_var {x : String} {p : Written} :
    (∀ v ∈ (var x (some p)).atEnd, v.isAnnotated) ↔ p.isAnnotated := by
  rw [atEnd, List.forall_mem_cons]
  constructor
  · exact And.left
  · intro h
    cases p with
    | annotated w annos => exact ⟨h, List.forall_mem_nil _⟩
    | _ => cases h

theorem DerivesTerm.atom {ts : List Token} {w : Written} (h : DerivesTerm ts w)
    (hw : w.isAnnotated = false) : DerivesAtom ts w := by
  cases h with
  | plain h => exact h
  | annotated _ _ => cases hw

theorem DerivesAtom.isAnnotated {ts : List Token} {w : Written} (h : DerivesAtom ts w) :
    w.isAnnotated = false := by
  cases h <;> rfl

theorem isAnnotated_of_isSpreadable {w : Written} (h : w.isSpreadable) : w.isAnnotated = false := by
  cases w with
  | annotated w annos => cases h
  | _ => rfl

theorem DerivesElements.cons {ts us : List Token} {w : Written} {es : Elements}
    (h : DerivesTerm ts w) (hs : DerivesElements us es) :
    DerivesElements (ts ++ .comma :: us) ⟨w :: es.items, es.spread⟩ := by
  cases hs with
  | terms hs => exact .terms (.more h hs)
  | both hs hspread =>
      have hboth := DerivesElements.both (.more h hs) hspread
      rwa [List.append_assoc] at hboth
  | spread hspread => exact .both (.last h) hspread

theorem ofElements_of_formList {es : Elements} (h : es.formList) :
    ofElements es = .ok (.list es.items es.spread) := by
  obtain ⟨items, spread⟩ := es
  cases items with
  | cons v vs => rfl
  | nil =>
      cases spread with
      | none => rfl
      | some v =>
          cases v with
          | list _ _ => rfl
          | _ => cases h

theorem ReadsElements.formList {closer : Closer} {ts rest : List Token} {es : Elements}
    {w : Written} (h : ReadsElements closer ts es rest) (hw : ofElements es = .ok w) :
    es.formList ∧ w = .list es.items es.spread := by
  have hlist : es.formList := by
    cases h with
    | @spread _ _ _ v _ hv =>
        cases v with
        | list _ _ => rfl
        | var _ _ | wildcard => cases hw
        | _ => cases hv
    | last _ | more _ _ => rfl
  rw [ofElements_of_formList hlist] at hw
  cases hw
  exact ⟨hlist, rfl⟩

/-! What the parser reads can be derived, with all annotations at innermost terms. -/

mutual

theorem ReadsTerm.derives {ts rest : List Token} {w : Written} :
    ReadsTerm ts w rest → ∃ us, ts = us ++ rest ∧ DerivesTerm us w
  | .plain h _ => by
      obtain ⟨us, rfl, hus⟩ := h.derives
      exact ⟨us, rfl, .plain hus⟩
  | .annotated h hs => by
      obtain ⟨us, rfl, hus⟩ := h.derives
      obtain ⟨vs, rfl, hvs⟩ := hs.derives
      cases hvs with
      | terms hvs =>
          refine ⟨_, ?_, .annotated hus hvs⟩
          simp [Closer.token]

theorem ReadsAtom.derives {ts rest : List Token} {w : Written} :
    ReadsAtom ts w rest → ∃ us, ts = us ++ rest ∧ DerivesAtom us w
  | .int i => ⟨_, rfl, .int i⟩
  | .real r => ⟨_, rfl, .real r⟩
  | .str s => ⟨_, rfl, .str s⟩
  | .emptyList => ⟨_, rfl, .emptyList⟩
  | .constant s _ => ⟨_, rfl, .constant s⟩
  | .noArgs fn => ⟨_, rfl, .noArgs fn⟩
  | .var x _ _ => ⟨_, rfl, .var x⟩
  | .wildcard _ => ⟨_, rfl, .wildcard⟩
  | .list h hw => by
      obtain ⟨us, rfl, hus⟩ := h.derives
      obtain ⟨hlist, rfl⟩ := h.formList hw
      refine ⟨_, ?_, .list hus hlist⟩
      simp [Closer.token]
  | .appl fn h => by
      obtain ⟨us, rfl, hus⟩ := h.derives
      refine ⟨_, ?_, .appl fn hus⟩
      simp [Closer.token]
  | .constrained x h => by
      obtain ⟨us, rfl, hus⟩ := h.derives
      exact ⟨_, rfl, .constrained x hus⟩

theorem ReadsElements.derives {closer : Closer} {ts rest : List Token} {es : Elements} :
    ReadsElements closer ts es rest →
      ∃ us, ts = us ++ closer.token :: rest ∧ DerivesElements us es
  | .spread h hs => by
      obtain ⟨us, rfl, hus⟩ := h.derives
      have hatom := hus.atom (isAnnotated_of_isSpreadable hs)
      exact ⟨_, rfl, .spread (.intro hatom hs)⟩
  | .last h => by
      obtain ⟨us, rfl, hus⟩ := h.derives
      exact ⟨us, rfl, .terms (.last hus)⟩
  | .more h hs => by
      obtain ⟨us, rfl, hus⟩ := h.derives
      obtain ⟨vs, rfl, hvs⟩ := hs.derives
      refine ⟨_, ?_, hvs.cons hus⟩
      simp

end

mutual

/-- Where a group of annotations follows, the term that was read cannot have it. -/
theorem ReadsTerm.innermost {ts rest : List Token} {w : Written} :
    ReadsTerm ts w rest → w.Innermost ∧ (rest.head? = some .openBrace → w.isAnnotated)
  | .plain h hne => ⟨h.innermost.1, fun hopen => absurd hopen hne⟩
  | .annotated h hs => ⟨⟨h.innermost.1, h.innermost.2 rfl, hs.innermost.1⟩, fun _ => rfl⟩

theorem ReadsAtom.innermost {ts rest : List Token} {w : Written} :
    ReadsAtom ts w rest →
      w.Innermost ∧ (rest.head? = some .openBrace → ∀ v ∈ w.atEnd, v.isAnnotated)
  | .int _ | .real _ | .str _ | .var _ _ _ | .wildcard _ =>
      ⟨trivial, fun _ => List.forall_mem_nil _⟩
  | .emptyList | .constant _ _ | .noArgs _ => ⟨⟨trivial, trivial⟩, fun _ => List.forall_mem_nil _⟩
  | .list h hw => by
      obtain ⟨-, rfl⟩ := h.formList hw
      exact ⟨h.innermost, fun _ => List.forall_mem_nil _⟩
  | .appl _ h => ⟨h.innermost, fun _ => List.forall_mem_nil _⟩
  | .constrained _ h => ⟨h.innermost.1, fun hopen => forall_atEnd_var.mpr (h.innermost.2 hopen)⟩

theorem ReadsElements.innermost {closer : Closer} {ts rest : List Token} {es : Elements} :
    ReadsElements closer ts es rest → AllInnermost es.items ∧ SpreadInnermost es.spread
  | .spread h _ => ⟨trivial, h.innermost.1⟩
  | .last h => ⟨⟨h.innermost.1, trivial⟩, trivial⟩
  | .more h hs => ⟨⟨h.innermost.1, hs.innermost.1⟩, hs.innermost.2⟩

end

/-! Every derivation has a counterpart with all annotations at innermost terms. -/

/-- The term with a group of annotations after it, which goes to the innermost term that
can have it. -/
def attach (annos : List Written) : Written → Written
  | .var x (some (.annotated w as)) => .annotated (.var x (some (.annotated w as))) annos
  | .var x (some p) => .var x (some (p.attach annos))
  | w => .annotated w annos

section

variable {ts us : List Token} {w : Written} {annos : List Written}

theorem DerivesAtom.attach (h : DerivesAtom ts w) (hannos : DerivesTerms us annos) :
    DerivesTerm (ts ++ .openBrace :: (us ++ [.closeBrace])) (w.attach annos) := by
  fun_induction w.attach annos generalizing ts with
  | case1 x w as => exact .annotated h hannos
  | case2 x p hp ih =>
      cases h with
      | constrained _ h =>
          cases h with
          | plain h => exact .plain (.constrained x (ih h))
          | annotated _ _ => exact absurd rfl (hp _ _)
  | case3 w hw => exact .annotated h hannos

theorem Innermost.attach (hw : w.Innermost) (hannos : AllInnermost annos) :
    (w.attach annos).Innermost := by
  fun_induction w.attach annos with
  | case1 x w as => exact ⟨hw, forall_atEnd_var.mpr rfl, hannos⟩
  | case2 x p hp ih => exact ih hw
  | case3 w hq hp =>
      refine ⟨hw, ?_, hannos⟩
      cases w with
      | var x p =>
          cases p with
          | none => exact List.forall_mem_nil _
          | some p => exact absurd rfl (hp x p)
      | _ => exact List.forall_mem_nil _

end

mutual

theorem DerivesTerm.exists_innermost {ts : List Token} {w : Written} :
    DerivesTerm ts w → ∃ w', DerivesTerm ts w' ∧ w'.Innermost
  | .plain h => by
      obtain ⟨w', hw', hinner, -⟩ := h.exists_innermost
      exact ⟨w', .plain hw', hinner⟩
  | .annotated h hs => by
      obtain ⟨w', hw', hinner, -⟩ := h.exists_innermost
      obtain ⟨annos', hannos', hall, -⟩ := hs.exists_innermost
      exact ⟨w'.attach annos', hw'.attach hannos', hinner.attach hall⟩

theorem DerivesAtom.exists_innermost {ts : List Token} {w : Written} :
    DerivesAtom ts w → ∃ w', DerivesAtom ts w' ∧ w'.Innermost ∧
      w'.isSpreadable = w.isSpreadable ∧ w'.isList = w.isList
  | .int i => ⟨_, .int i, trivial, rfl, rfl⟩
  | .real r => ⟨_, .real r, trivial, rfl, rfl⟩
  | .str s => ⟨_, .str s, trivial, rfl, rfl⟩
  | .emptyList => ⟨_, .emptyList, ⟨trivial, trivial⟩, rfl, rfl⟩
  | .constant s => ⟨_, .constant s, ⟨trivial, trivial⟩, rfl, rfl⟩
  | .noArgs fn => ⟨_, .noArgs fn, ⟨trivial, trivial⟩, rfl, rfl⟩
  | .var x => ⟨_, .var x, trivial, rfl, rfl⟩
  | .wildcard => ⟨_, .wildcard, trivial, rfl, rfl⟩
  | .list h hlist => by
      obtain ⟨es', hes', hinner, hform⟩ := h.exists_innermost
      exact ⟨_, .list hes' (hform.trans hlist), hinner, rfl, rfl⟩
  | .appl fn h => by
      obtain ⟨es', hes', hinner, -⟩ := h.exists_innermost
      exact ⟨_, .appl fn hes', hinner, rfl, rfl⟩
  | .constrained x h => by
      obtain ⟨p', hp', hinner⟩ := h.exists_innermost
      exact ⟨_, .constrained x hp', hinner, rfl, rfl⟩

theorem DerivesTerms.exists_innermost {ts : List Token} {ws : List Written} :
    DerivesTerms ts ws → ∃ ws', DerivesTerms ts ws' ∧ AllInnermost ws' ∧
      ∀ s s', Elements.formList ⟨ws', s⟩ = Elements.formList ⟨ws, s'⟩
  | .last h => by
      obtain ⟨w', hw', hinner⟩ := h.exists_innermost
      exact ⟨[w'], .last hw', ⟨hinner, trivial⟩, fun _ _ => rfl⟩
  | .more h hs => by
      obtain ⟨w', hw', hinner⟩ := h.exists_innermost
      obtain ⟨ws', hws', hall, -⟩ := hs.exists_innermost
      exact ⟨w' :: ws', .more hw' hws', ⟨hinner, hall⟩, fun _ _ => rfl⟩

theorem DerivesElements.exists_innermost {ts : List Token} {es : Elements} :
    DerivesElements ts es → ∃ es', DerivesElements ts es' ∧
      (AllInnermost es'.items ∧ SpreadInnermost es'.spread) ∧ es'.formList = es.formList
  | .terms h => by
      obtain ⟨ws', hws', hall, hform⟩ := h.exists_innermost
      exact ⟨_, .terms hws', ⟨hall, trivial⟩, hform _ _⟩
  | .both h hs => by
      obtain ⟨ws', hws', hall, hform⟩ := h.exists_innermost
      obtain ⟨w', hw', hinner, -⟩ := hs.exists_innermost
      exact ⟨_, .both hws' hw', ⟨hall, hinner⟩, hform _ _⟩
  | .spread hs => by
      obtain ⟨w', hw', hinner, hlist⟩ := hs.exists_innermost
      exact ⟨_, .spread hw', ⟨trivial, hinner⟩, hlist⟩

theorem DerivesSpread.exists_innermost {ts : List Token} {w : Written} :
    DerivesSpread ts w → ∃ w', DerivesSpread ts w' ∧ w'.Innermost ∧ w'.isList = w.isList
  | .intro h hw => by
      obtain ⟨w', hw', hinner, hspread, hlist⟩ := h.exists_innermost
      exact ⟨w', .intro hw' (hspread.trans hw), hinner, hlist⟩

end

/-! Derivations with all annotations at innermost terms are what the parser reads. -/

open Term (Follows follows_closer follows_comma)

mutual

theorem DerivesTerm.reads {ts : List Token} {w : Written} :
    DerivesTerm ts w → w.Innermost → ∀ rest, Follows rest →
      (rest.head? = some .openBrace → w.isAnnotated) → ReadsTerm (ts ++ rest) w rest
  | .plain h, hw, rest, hrest, hbrace => by
      have hne : rest.head? ≠ some .openBrace := by
        intro hopen
        rw [h.isAnnotated] at hbrace
        cases hbrace hopen
      exact .plain (h.reads hw rest hrest fun hopen => absurd hopen hne) hne
  | @DerivesTerm.annotated _ us _ _ h hs, hw, rest, _, _ => by
      have hatom := h.reads hw.1 (.openBrace :: (us ++ .closeBrace :: rest)) ⟨nofun, nofun⟩
        fun _ => hw.2.1
      have hannos := hs.reads hw.2.2 .brace rest
      have hterm := ReadsTerm.annotated hatom hannos
      simpa using hterm

theorem DerivesAtom.reads {ts : List Token} {w : Written} :
    DerivesAtom ts w → w.Innermost → ∀ rest, Follows rest →
      (rest.head? = some .openBrace → ∀ v ∈ w.atEnd, v.isAnnotated) →
      ReadsAtom (ts ++ rest) w rest
  | .int i, _, _, _, _ => .int i
  | .real r, _, _, _, _ => .real r
  | .str s, _, _, _, _ => .str s
  | .emptyList, _, _, _, _ => .emptyList
  | .constant s, _, _, hrest, _ => .constant s hrest.1
  | .noArgs fn, _, _, _, _ => .noArgs fn
  | .var x, _, _, hrest, _ => .var x hrest.1 hrest.2
  | .wildcard, _, _, hrest, _ => .wildcard hrest.1
  | .list h hlist, hw, rest, _, _ => by
      have hatom := ReadsAtom.list (h.reads hw .bracket rest) (ofElements_of_formList hlist)
      simpa [Closer.token] using hatom
  | .appl fn h, hw, rest, _, _ => by
      have hatom := ReadsAtom.appl fn (h.reads hw .paren rest)
      simpa [Closer.token] using hatom
  | .constrained x h, hw, rest, hrest, hend =>
      .constrained x (h.reads hw rest hrest fun hopen => forall_atEnd_var.mp (hend hopen))

theorem DerivesTerms.reads {ts : List Token} {ws : List Written} :
    DerivesTerms ts ws → AllInnermost ws → ∀ (closer : Closer) (rest : List Token),
      ReadsElements closer (ts ++ closer.token :: rest) ⟨ws, none⟩ rest
  | .last h, hws, closer, rest => by
      obtain ⟨hfollows, hne⟩ := follows_closer closer rest
      exact .last (h.reads hws.1 _ hfollows fun hopen => absurd hopen hne)
  | @DerivesTerms.more _ us _ _ h hs, hws, closer, rest => by
      obtain ⟨hfollows, hne⟩ := follows_comma (us ++ closer.token :: rest)
      have hterm := h.reads hws.1 _ hfollows fun hopen => absurd hopen hne
      have helems := ReadsElements.more hterm (hs.reads hws.2 closer rest)
      simpa using helems

/-- Terms stand before the other elements that are read. -/
theorem DerivesTerms.reads_before {ts us rest : List Token} {ws : List Written} {closer : Closer}
    {es : Elements} : DerivesTerms ts ws → AllInnermost ws → ReadsElements closer us es rest →
      ReadsElements closer (ts ++ .comma :: us) ⟨ws ++ es.items, es.spread⟩ rest
  | .last h, hws, hes => by
      obtain ⟨hfollows, hne⟩ := follows_comma us
      exact .more (h.reads hws.1 _ hfollows fun hopen => absurd hopen hne) hes
  | @DerivesTerms.more _ vs _ _ h hs, hws, hes => by
      obtain ⟨hfollows, hne⟩ := follows_comma (vs ++ .comma :: us)
      have hterm := h.reads hws.1 _ hfollows fun hopen => absurd hopen hne
      have helems := ReadsElements.more hterm (hs.reads_before hws.2 hes)
      simpa using helems

theorem DerivesElements.reads {ts : List Token} {es : Elements} :
    DerivesElements ts es → AllInnermost es.items ∧ SpreadInnermost es.spread →
      ∀ (closer : Closer) (rest : List Token),
        ReadsElements closer (ts ++ closer.token :: rest) es rest
  | .terms h, hes, closer, rest => h.reads hes.1 closer rest
  | .both h hs, hes, closer, rest => by
      have helems := h.reads_before hes.1 (hs.reads hes.2 closer rest)
      simpa using helems
  | .spread hs, hes, closer, rest => hs.reads hes.2 closer rest

theorem DerivesSpread.reads {ts : List Token} {w : Written} :
    DerivesSpread ts w → w.Innermost → ∀ (closer : Closer) (rest : List Token),
      ReadsElements closer (ts ++ closer.token :: rest) ⟨[], some w⟩ rest
  | .intro h hs, hw, closer, rest => by
      obtain ⟨hfollows, hne⟩ := follows_closer closer rest
      have hatom := h.reads hw _ hfollows fun hopen => absurd hopen hne
      exact .spread (.plain hatom hne) hs

end

theorem readsTerm_iff_derives {ts : List Token} {w : Written} :
    ReadsTerm ts w [] ↔ DerivesTerm ts w ∧ w.Innermost := by
  constructor
  · intro h
    obtain ⟨us, rfl, hus⟩ := h.derives
    rw [List.append_nil]
    exact ⟨hus, h.innermost.1⟩
  · rintro ⟨h, hw⟩
    have hread := h.reads hw [] ⟨nofun, nofun⟩ nofun
    rwa [List.append_nil] at hread

/-- A text is a term exactly if its tokens can be derived, and it is read as the one tree
that can be derived with every group of annotations at the innermost term. -/
theorem parse_iff_derives (src : String) :
    ((∃ w, parse src = .ok w) ↔ ∃ w, DerivesTerm (Token.lex src.toList) w) ∧
    ∀ w, parse src = .ok w ↔ DerivesTerm (Token.lex src.toList) w ∧ w.Innermost := by
  have hparse (w : Written) :
      parse src = .ok w ↔ DerivesTerm (Token.lex src.toList) w ∧ w.Innermost :=
    ofTokens_eq_ok_iff.trans readsTerm_iff_derives
  refine ⟨⟨?_, ?_⟩, hparse⟩
  · rintro ⟨w, hw⟩
    exact ⟨w, ((hparse w).mp hw).1⟩
  · rintro ⟨w, hw⟩
    obtain ⟨w', hw'⟩ := hw.exists_innermost
    exact ⟨w', (hparse w').mpr hw'⟩

end StrategicRewriting.Written
