import StrategicRewriting.Proofs.Written.RoundTrip

/-!
Texts of several terms. They are read one after the other, each as far as it goes. If every
term is printed on a line of its own, then no line takes anything from the next one, because
a term does not begin with a parenthesis, an equals sign or a brace.
-/
namespace StrategicRewriting

open Token (lex)

namespace Written

mutual

/-- The reals of a term, those of its annotations and constraints included. -/
def reals : Written → List Double
  | .int _ | .str _ | .wildcard => []
  | .real r => [r]
  | .list es s | .appl _ es s => realsAll es ++ realsOption s
  | .var _ p => realsOption p
  | .annotated w as => w.reals ++ realsAll as

def realsAll : List Written → List Double
  | [] => []
  | w :: ws => w.reals ++ realsAll ws

def realsOption : Option Written → List Double
  | none => []
  | some w => w.reals

end

/-- A real that is not left over is found in what was read. -/
def Keeps (ts : List Token) (rs : List Double) (rest : List Token) : Prop :=
  ∀ r, .real r ∈ ts → r ∈ rs ∨ .real r ∈ rest

namespace Keeps

variable {ts us rest : List Token} {rs rs' : List Double}

theorem cons {t : Token} (ht : ∀ r, t ≠ .real r) (h : Keeps ts rs rest) :
    Keeps (t :: ts) rs rest := by
  intro r hr
  rcases List.mem_cons.mp hr with heq | hr
  · exact absurd heq.symm (ht r)
  · exact h r hr

theorem refl : Keeps ts [] ts :=
  fun _ => .inr

theorem trans (h : Keeps ts rs us) (h' : Keeps us rs' rest) : Keeps ts (rs ++ rs') rest := by
  intro r hr
  rw [List.mem_append, or_assoc]
  exact (h r hr).imp_right (h' r)

end Keeps

theorem ne_real_token (fn : Functor) (r : Double) : fn.token ≠ .real r := by
  cases fn <;> simp [Functor.token]

theorem ne_real_closer (closer : Closer) (r : Double) : closer.token ≠ .real r := by
  cases closer <;> simp [Closer.token]

mutual

theorem ReadsTerm.keeps {ts rest : List Token} {w : Written} :
    ReadsTerm ts w rest → Keeps ts w.reals rest
  | .plain h _ => h.keeps
  | .annotated h hs => by
      have hannos := hs.keeps.cons (t := .openBrace) (by simp)
      simpa [reals, realsOption] using h.keeps.trans hannos

theorem ReadsAtom.keeps {ts rest : List Token} {w : Written} :
    ReadsAtom ts w rest → Keeps ts w.reals rest
  | .int _ | .str _ | .constant _ _ | .var _ _ _ | .wildcard _ => .cons (by simp) .refl
  | .real r => by
      intro r' hr
      rcases List.mem_cons.mp hr with heq | hr
      · cases heq
        exact .inl List.mem_cons_self
      · exact .inr hr
  | .emptyList => .cons (by simp) (.cons (by simp) .refl)
  | .list h hw => by
      rw [list_of_ofElements hw]
      exact .cons (by simp) h.keeps
  | .noArgs fn => .cons (ne_real_token fn) (.cons (by simp) (.cons (by simp) .refl))
  | .appl fn h => .cons (ne_real_token fn) (.cons (by simp) h.keeps)
  | .constrained x h => .cons (by simp) (.cons (by simp) h.keeps)

theorem ReadsElements.keeps {closer : Closer} {ts rest : List Token} {es : Elements} :
    ReadsElements closer ts es rest → Keeps ts (realsAll es.items ++ realsOption es.spread) rest
  | .spread h _ => by
      have hend := h.keeps.trans (.cons (ne_real_closer closer) .refl)
      simpa [realsAll, realsOption] using hend.cons (t := .star) (by simp)
  | .last h => by
      have hend := h.keeps.trans (.cons (ne_real_closer closer) .refl)
      simpa [realsAll, realsOption] using hend
  | .more h hs => by
      have hrest := h.keeps.trans (.cons (by simp) hs.keeps)
      simpa [realsAll] using hrest

end

/-- Terms one after the other, with nothing left over. -/
inductive ReadsTerms : List Token → List Written → Prop
  | nil : ReadsTerms [] []
  | cons {ts rest : List Token} {w : Written} {ws : List Written} :
      ReadsTerm ts w rest → ReadsTerms rest ws → ReadsTerms ts (w :: ws)

theorem readTerm_eq_ok_iff {ts rest : List Token} {w : Written} :
    readTerm ts = .ok (w, rest) ↔ ReadsTerm ts w rest := by
  constructor
  · exact (SoundTo.of_depth _).term
  · intro h
    exact h.term_eq (depthBound ts) (by rw [depthBound]; omega)

theorem ReadsTerms.readTerms_eq {ts : List Token} {ws : List Written} (h : ReadsTerms ts ws) :
    ∀ n, ts.length ≤ n → readTerms n ts = ws.map .ok := by
  induction h with
  | nil =>
      intro n _
      cases n <;> rfl
  | cons hw _ ih =>
      intro n hn
      have hlt := hw.shortens.length_lt
      obtain ⟨t, ts, rfl, -⟩ := hw.starts
      cases n with
      | zero => cases hn
      | succ n =>
          have hrest := ih n (by omega)
          simp only [readTerms, readTerm_eq_ok_iff.mpr hw, hrest, List.map_cons]

theorem readsTerms_of_readTerms {n : Nat} {ts : List Token} {ws : List Written}
    (hn : ts.length ≤ n) (h : readTerms n ts = ws.map .ok) : ReadsTerms ts ws := by
  fun_induction readTerms n ts generalizing ws with
  | case1 =>
      cases ws with
      | nil => exact .nil
      | cons w ws => cases h
  | case2 => cases hn
  | case3 n ts _ w rest hread ih =>
      cases ws with
      | nil => cases h
      | cons v ws =>
          obtain ⟨hv, hws⟩ := List.cons.inj h
          cases hv
          have hw := readTerm_eq_ok_iff.mp hread
          have hlt := hw.shortens.length_lt
          exact .cons hw (ih (by omega) hws)
  | case4 n ts _ e hread =>
      cases ws with
      | nil => cases h
      | cons v ws => cases (List.cons.inj h).1

theorem parseAll_eq_iff {src : String} {ws : List Written} :
    parseAll src = ws.map .ok ↔ ReadsTerms (lex src.toList) ws :=
  ⟨readsTerms_of_readTerms (Nat.le_refl _), fun h => h.readTerms_eq _ (Nat.le_refl _)⟩

theorem ReadsTerms.mem_reals {ts : List Token} {ws : List Written} (h : ReadsTerms ts ws)
    {r : Double} (hr : .real r ∈ ts) : ∃ w ∈ ws, r ∈ w.reals := by
  induction h with
  | nil => cases hr
  | cons hw _ ih =>
      rcases hw.keeps r hr with hmem | hrest
      · exact ⟨_, List.mem_cons_self, hmem⟩
      · obtain ⟨w, hw, hmem⟩ := ih hrest
        exact ⟨w, List.mem_cons_of_mem _ hw, hmem⟩

theorem ReadsTerms.readable_of_legible {ts : List Token} {ws : List Written}
    (h : ReadsTerms ts ws) (hts : Legible ts) : ∀ w ∈ ws, w.denote.Readable := by
  induction h with
  | nil => exact List.forall_mem_nil _
  | cons hw _ ih =>
      rw [List.forall_mem_cons]
      exact ⟨(hw.readable hts).1, ih (hts.of_suffix hw.shortens.suffix)⟩

theorem readable_of_parseAll {src : String} {ws : List Written}
    (h : parseAll src = ws.map .ok) (hreals : ∀ w ∈ ws, ∀ r ∈ w.reals, r.isFinite) :
    ∀ w ∈ ws, w.denote.Readable := by
  have hreads := parseAll_eq_iff.mp h
  refine hreads.readable_of_legible (legible_lex fun r hr => ?_)
  obtain ⟨w, hw, hmem⟩ := hreads.mem_reals hr
  exact hreals w hw r hmem

theorem ReadsTerms.follows {ts : List Token} {ws : List Written} (h : ReadsTerms ts ws) :
    Term.Follows ts ∧ ts.head? ≠ some .openBrace := by
  cases h with
  | nil => simp [Term.Follows]
  | cons hw _ =>
      obtain ⟨t, ts, rfl, ht⟩ := hw.starts
      refine ⟨⟨?_, ?_⟩, ?_⟩ <;> intro hhead <;> cases hhead <;> cases ht

end Written

namespace Term

/-- Every term on a line of its own. -/
def lines (ts : List Term) : List Char :=
  ts.flatMap fun t => t.render ++ ['\n']

theorem lines_cons (t : Term) (ts : List Term) :
    lines (t :: ts) = t.renderAt .alone ++ '\n' :: lines ts := by
  rw [lines, List.flatMap_cons, List.append_assoc]
  rfl

/-- A line feed is a blank. -/
theorem lex_lines_cons {t : Term} (ht : t.Readable) (ts : List Term) :
    lex (lines (t :: ts)) = t.tokensAt .alone ++ lex (lines ts) := by
  rw [lines_cons, lex_renderAt ht .alone (stops_cons (by decide))]
  rfl

open Written in
theorem readsTerms_lines {ts : List Term} (hts : ∀ t ∈ ts, t.Readable) :
    ∃ ws, ReadsTerms (lex (lines ts)) ws ∧ ws.map denote = ts.map unnumbered := by
  induction ts with
  | nil => exact ⟨[], .nil, rfl⟩
  | cons t ts ih =>
      rw [List.forall_mem_cons] at hts
      obtain ⟨ws, hws, hdenote⟩ := ih hts.2
      obtain ⟨hfollows, hne⟩ := hws.follows
      obtain ⟨w, hw, hdenote', -⟩ := hts.1.reads.2.1 _ hfollows fun hopen => absurd hopen hne
      refine ⟨w :: ws, ?_, congrArg₂ _ hdenote' hdenote⟩
      rw [lex_lines_cons hts.1]
      exact .cons hw hws

/-- The lines of terms are read as these terms. -/
theorem parseAll_lines {ws : List Written} (hws : ∀ w ∈ ws, w.denote.Readable) :
    ∃ ws' : List Written,
      Written.parseAll (String.ofList (lines (ws.map Written.denote))) = ws'.map .ok ∧
      ws'.map Written.denote = ws.map Written.denote := by
  obtain ⟨ws', hreads, hdenote⟩ := readsTerms_lines (List.forall_mem_map.mpr hws)
  refine ⟨ws', ?_, ?_⟩
  · rw [Written.parseAll_eq_iff, String.toList_ofList]
    exact hreads
  · rw [hdenote, List.map_map]
    refine List.map_congr_left fun w _ => ?_
    rw [Function.comp_apply, ← Factory.unnumbered_share w 0, unnumbered_unnumbered]

theorem not_newline_of_isNameChar {cs : List Char} (h : ∀ c ∈ cs, isNameChar c) : '\n' ∉ cs := by
  intro hmem
  exact absurd (h _ hmem) (by decide)

theorem not_newline_of_isUpperName {cs : List Char} (h : Token.isUpperName cs) : '\n' ∉ cs := by
  apply not_newline_of_isNameChar
  cases cs with
  | nil => cases h
  | cons c cs =>
      simp only [Token.isUpperName, Bool.and_eq_true, List.all_eq_true] at h
      rw [List.forall_mem_cons]
      exact ⟨by simp [isNameChar, h.1], h.2⟩

theorem not_newline_of_isLowerName {cs : List Char} (h : Token.isLowerName cs) : '\n' ∉ cs := by
  apply not_newline_of_isNameChar
  cases cs with
  | nil => cases h
  | cons c cs =>
      simp only [Token.isLowerName, Bool.and_eq_true, Bool.or_eq_true, List.all_eq_true] at h
      rw [List.forall_mem_cons]
      refine ⟨?_, h.2⟩
      rcases h.1 with hc | ⟨hc, -⟩ <;> simp [isNameChar, hc]

theorem not_newline_renderInt (i : Int) : '\n' ∉ renderInt i := by
  have hdigits : '\n' ∉ Nat.toDigits 10 i.natAbs := not_newline_of_isNameChar fun c hc =>
    Token.isNameChar_of_isDigit (Nat.isDigit_of_mem_toDigits (by decide) (by decide) hc)
  rw [renderInt]
  split
  · simpa using hdigits
  · exact hdigits

theorem not_newline_render_double {r : Double} (hr : r.isFinite) : '\n' ∉ r.render := by
  obtain ⟨x, htext, -⟩ := Double.exists_numeral_render r hr
  have hwhole : '\n' ∉ x.whole := not_newline_of_isNameChar fun c hc =>
    Token.isNameChar_of_isDigit (x.whole_isDigit c hc)
  have hfraction : '\n' ∉ x.fraction := not_newline_of_isNameChar fun c hc =>
    Token.isNameChar_of_isDigit (x.fraction_isDigit c hc)
  have hexponent : '\n' ∉ x.exponentText := by
    rw [Numeral.exponentText]
    split
    · exact List.not_mem_nil
    · simpa using not_newline_renderInt _
  rw [htext, Numeral.text]
  split <;> simp [hwhole, hfraction, hexponent]

theorem not_newline_quote (s : String) : '\n' ∉ Text.quote s := by
  have hchar (c : Char) : '\n' ∉ Text.escapeChar c := by
    unfold Text.escapeChar
    split <;> simp_all [eq_comm]
  simp [Text.quote, Text.escape, hchar]

theorem not_newline_renderAt {t : Term} (ht : t.Readable) (p : Position) :
    '\n' ∉ t.renderAt p := by
  have hlead (p : Position) : '\n' ∉ p.lead := by cases p <;> simp [Position.lead]
  induction t generalizing p with
  | int o i => simp [renderAt, hlead, not_newline_renderInt]
  | real o r => simp [renderAt, hlead, not_newline_render_double ht]
  | str o s => simp [renderAt, hlead, not_newline_quote]
  | nil o => cases p <;> simp [renderAt]
  | cons o h t ihh iht =>
      have hhead := ihh ht.1 .alone
      have htail := iht ht.2.1 .later
      cases p <;> simp [renderAt, hhead, htail]
  | appl o f as ihf ihas =>
      obtain ⟨hf, hfunctor, has, -⟩ := ht
      have hargs := ihas has .first
      cases f with
      | str o s =>
          have hname := not_newline_of_isUpperName hfunctor
          cases hshape : as.shape <;> simp [renderAt, shape, hshape, hlead, hname, hargs]
      | var o x c | wildcard o =>
          rw [renderAt_appl p _ as rfl]
          simp [hlead, ihf hf .alone, hargs]
      | _ => cases hfunctor
  | wildcard o => simp [renderAt, hlead]
  | var o x c ih =>
      have hname := not_newline_of_isLowerName ht.1
      rw [renderAt]
      split <;> simp [hlead, hname, ih ht.2 .alone]
  | annotated o b as ihb ihas =>
      have hbody := ihb ht.1
      have hannos := ihas ht.2.2.1 .first
      cases p <;> simp only [renderAt]
      case alone => simp [hbody, hannos]
      all_goals split <;> simp [hbody, hannos]

end Term

end StrategicRewriting
