import StrategicRewriting.Proofs.Token.Blanks
import StrategicRewriting.Proofs.Written.Derivation
import StrategicRewriting.Proofs.Written.Sequence

/-!
Terms on demand. A reader gives the terms of a text one after the other, and nothing after an
error. Terms with blanks between them are given exactly as they are by themselves: a term has
no unknown tokens, so a blank separates its tokens from the next ones, and the next term does
not begin with anything that could belong to it.
-/
namespace StrategicRewriting.Written

open Token (lex Breaks lex_append lex_blank)

mutual

theorem DerivesTerm.known {ts : List Token} {w : Written} : DerivesTerm ts w → .unknown ∉ ts
  | .plain h => h.known
  | .annotated h hs => by simp [h.known, hs.known]

theorem DerivesAtom.known {ts : List Token} {w : Written} : DerivesAtom ts w → .unknown ∉ ts
  | .int _ | .real _ | .str _ | .emptyList | .constant _ | .var _ | .wildcard => by simp
  | .noArgs fn => by cases fn <;> simp [Functor.token]
  | .list h _ => by simp [h.known]
  | .appl fn h => by cases fn <;> simp [Functor.token, h.known]
  | .constrained x h => by simp [h.known]

theorem DerivesTerms.known {ts : List Token} {ws : List Written} :
    DerivesTerms ts ws → .unknown ∉ ts
  | .last h => h.known
  | .more h hs => by simp [h.known, hs.known]

theorem DerivesElements.known {ts : List Token} {es : Elements} :
    DerivesElements ts es → .unknown ∉ ts
  | .terms h => h.known
  | .both h hs => by simp [h.known, hs.known]
  | .spread h => h.known

theorem DerivesSpread.known {ts : List Token} {w : Written} : DerivesSpread ts w → .unknown ∉ ts
  | .intro h _ => by simp [h.known]

end

/-- A term is read in the same way if something follows that is no part of it. -/
theorem ReadsTerm.append {ts us : List Token} {w : Written} (h : ReadsTerm ts w [])
    (hfollows : Term.Follows us) (hne : us.head? ≠ some .openBrace) :
    ReadsTerm (ts ++ us) w us := by
  obtain ⟨hderives, hw⟩ := readsTerm_iff_derives.mp h
  exact hderives.reads hw us hfollows fun hopen => absurd hopen hne

/-- The characters are the texts in this order, with one blank or more between any two of
them. Blanks may also stand before the first one and after the last one. -/
inductive Spaced : List String → List Char → Prop
  | nil : Spaced [] []
  | blank {b : Char} {ss : List String} {cs : List Char} :
      isBlank b → Spaced ss cs → Spaced ss (b :: cs)
  | text {s : String} {ss : List String} {cs : List Char} :
      Breaks cs → Spaced ss cs → Spaced (s :: ss) (s.toList ++ cs)

theorem Spaced.readsTerms {ss : List String} {cs : List Char} (h : Spaced ss cs)
    (hparse : ∀ s ∈ ss, ∃ w, parse s = .ok w) :
    ∃ ws, ss.map parse = ws.map .ok ∧ ReadsTerms (lex cs) ws := by
  induction h with
  | nil => exact ⟨[], rfl, .nil⟩
  | blank hb _ ih =>
      rw [lex_blank hb]
      exact ih hparse
  | @text s ss cs hbreaks _ ih =>
      rw [List.forall_mem_cons] at hparse
      obtain ⟨⟨w, hw⟩, hss⟩ := hparse
      obtain ⟨ws, hws, hrest⟩ := ih hss
      have hterm := ofTokens_eq_ok_iff.mp hw
      obtain ⟨hfollows, hne⟩ := hrest.follows
      refine ⟨w :: ws, congrArg₂ _ hw hws, ?_⟩
      rw [lex_append (readsTerm_iff_derives.mp hterm).1.known hbreaks]
      exact .cons (hterm.append hfollows hne) hrest

/-- Terms until the first error. Every one of them takes a token. -/
theorem readTerms_eq_append (n : Nat) (ts : List Token) :
    ∃ (ws : List Written) (e : Option ParseError),
      readTerms n ts = ws.map .ok ++ e.toList.map .error ∧
        ws.length + e.toList.length ≤ ts.length := by
  fun_induction readTerms n ts with
  | case1 | case2 => exact ⟨[], none, rfl, Nat.zero_le _⟩
  | case3 n ts _ w rest hread ih =>
      obtain ⟨ws, e, heq, hle⟩ := ih
      have hlt := (readTerm_eq_ok_iff.mp hread).shortens.length_lt
      refine ⟨w :: ws, e, congrArg _ heq, ?_⟩
      rw [List.length_cons]
      omega
  | case4 n ts hne e hread =>
      exact ⟨[], some e, rfl, List.length_pos_iff.mpr hne⟩

/-- What is left of a text, and whether an error was met. After an error, the tokens do not
matter. -/
structure Reader where
  tokens : List Token
  failed : Bool

namespace Reader

def ofText (src : String) : Reader :=
  ⟨lex src.toList, false⟩

/-- The next term or the first error, and the reader to go on with. -/
def next : Reader → Option (Except ParseError Written) × Reader
  | ⟨ts, true⟩ => (none, ⟨ts, true⟩)
  | ⟨[], false⟩ => (none, ⟨[], false⟩)
  | ⟨t :: ts, false⟩ =>
    match readTerm (t :: ts) with
    | .ok (w, rest) => (some (.ok w), ⟨rest, false⟩)
    | .error e => (some (.error e), ⟨t :: ts, true⟩)

/-- What the reader gives after it was asked for a number of other items. -/
def item : Nat → Reader → Option (Except ParseError Written)
  | 0, r => r.next.1
  | i + 1, r => r.next.2.item i

/-- A reader that has nothing to give stays like that. -/
theorem item_eq_none {r : Reader} (h : r.next = (none, r)) (i : Nat) : r.item i = none := by
  induction i with
  | zero => rw [item, h]
  | succ i ih => rw [item, h, ih]

theorem item_eq_getElem? {n : Nat} {ts : List Token} (hn : ts.length ≤ n) (i : Nat) :
    (Reader.mk ts false).item i = (readTerms n ts)[i]? := by
  fun_induction readTerms n ts generalizing i with
  | case1 => exact item_eq_none rfl i
  | case2 => cases hn
  | case3 n ts hne w rest hread ih =>
      obtain ⟨t, ts, rfl⟩ := List.exists_cons_of_ne_nil hne
      have hlt := (readTerm_eq_ok_iff.mp hread).shortens.length_lt
      cases i with
      | zero => simp [item, next, hread]
      | succ i => simpa [item, next, hread] using ih (by omega) i
  | case4 n ts hne e hread =>
      obtain ⟨t, ts, rfl⟩ := List.exists_cons_of_ne_nil hne
      cases i with
      | zero => simp [item, next, hread]
      | succ i => simpa [item, next, hread] using item_eq_none rfl i

theorem item_ofText (src : String) (i : Nat) : (ofText src).item i = (parseAll src)[i]? :=
  item_eq_getElem? (Nat.le_refl _) i

end Reader

/-- Texts of one term each, with blanks between them, are read as these terms one by one, and
then there is nothing more. Any other text gives terms until the first error, at most one
item a token, and nothing after that. -/
theorem reader_splits_text :
    (∀ (ss : List String) (cs : List Char),
      (∀ s ∈ ss, ∃ w, parse s = .ok w) → Spaced ss cs →
        ∀ i, (Reader.ofText (String.ofList cs)).item i = (ss.map parse)[i]?) ∧
    (∀ src : String, ∃ (ws : List Written) (e : Option ParseError),
      ws.length + e.toList.length ≤ (lex src.toList).length ∧
        ∀ i, (Reader.ofText src).item i = (ws.map .ok ++ e.toList.map .error)[i]?) ∧
    ∀ (src : String) (i : Nat), (Reader.ofText src).item i = (parseAll src)[i]? := by
  refine ⟨fun ss cs hparse hspaced i => ?_, fun src => ?_, Reader.item_ofText⟩
  · obtain ⟨ws, hws, hreads⟩ := hspaced.readsTerms hparse
    rw [← String.toList_ofList (l := cs), ← parseAll_eq_iff] at hreads
    rw [Reader.item_ofText, hreads, hws]
  · obtain ⟨ws, e, heq, hle⟩ := readTerms_eq_append (lex src.toList).length (lex src.toList)
    refine ⟨ws, e, hle, fun i => ?_⟩
    rw [Reader.item_ofText, parseAll, heq]

theorem reader_splits_text_three :
    let r := Reader.ofText "x\n\t[2, *y] \x0cC{A}\r\n"
    r.item 0 = some (.ok (.var "x" none)) ∧
    r.item 1 = some (.ok (.list [.int 2] (some (.var "y" none)))) ∧
    r.item 2 = some (.ok (.annotated (.appl (.name "C") [] none) [.appl (.name "A") [] none])) ∧
    ∀ i, r.item (i + 3) = none := by
  have hvar : lex "x".toList = [.lowerId "x"] := by decide +kernel
  have hlist : lex "[2, *y]".toList =
      [.openBracket, .int 2, .comma, .star, .lowerId "y", .closeBracket] := by decide +kernel
  have hannotated : lex "C{A}".toList =
      [.upperId "C", .openBrace, .upperId "A", .closeBrace] := by decide +kernel
  have hparse : ["x", "[2, *y]", "C{A}"].map parse = [.ok (.var "x" none),
      .ok (.list [.int 2] (some (.var "y" none))),
      .ok (.annotated (.appl (.name "C") [] none) [.appl (.name "A") [] none])] := by
    simp only [List.map_cons, parse, hvar, hlist, hannotated]
    rfl
  have hspaced : Spaced ["x", "[2, *y]", "C{A}"]
      ("x".toList ++ '\n' :: '\t' :: ("[2, *y]".toList ++ ' ' :: '\x0c' ::
        ("C{A}".toList ++ ['\r', '\n']))) :=
    .text (by simp [Breaks, isBlank]) (.blank rfl (.blank rfl
      (.text (by simp [Breaks, isBlank]) (.blank rfl (.blank rfl
        (.text (by simp [Breaks, isBlank]) (.blank rfl (.blank rfl .nil))))))))
  have hitems := reader_splits_text.1 _ _ (fun s hs => ?_) hspaced
  · simp only [hparse] at hitems
    exact ⟨hitems 0, hitems 1, hitems 2, fun i => hitems (i + 3)⟩
  · have hmem := List.mem_map_of_mem (f := parse) hs
    rw [hparse] at hmem
    simp only [List.mem_cons, List.not_mem_nil, or_false] at hmem
    rcases hmem with h | h | h <;> exact ⟨_, h⟩

end StrategicRewriting.Written
