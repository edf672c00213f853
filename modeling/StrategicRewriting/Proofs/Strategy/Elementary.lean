import StrategicRewriting.Proofs.Strategy.Correspondence

/-!
What the operations on terms, contexts and tables respect, the elementary strategies and
the merging of tables respect as well.
-/
namespace StrategicRewriting

theorem Term.toList?_eq (t : Term) :
    t.toList? =
      match t.shape with
      | .nil => some []
      | .cons h tl => tl.toList?.map (h :: ·)
      | _ => none := by
  induction t with
  | annotated o b as ih _ => exact ih
  | _ => rfl

namespace Effect

theorem update_bind {α : Type} (f : Context → Except Fatal α)
    (g : α → Context → Except Fatal Context) :
    (update fun c => f c >>= fun a => g a c) = read f >>= fun a => update (g a) := by
  funext σ
  rw [bind_apply, read_apply, update_apply]
  cases f σ.context <;> rfl

theorem iterateTables_succ (m : Merge) (x : Effect Term) (n : Nat) :
    iterateTables m x (n + 1) = (do
      let before ← read m.snapshot
      let t ← x
      let changed ← change (m.apply before)
      if changed then iterateTables m x n
      else do
        report .fixpoint
        pure t) := by
  simp only [iterateTables, change, bind_assoc, pure_bind]

theorem joinTables_eq (m : Merge) (before : List Table) (left : Effect Term)
    (right : Term → Effect Term) :
    joinTables m before left right = (do
      let t ← left
      let after ← read m.snapshot
      update (m.restore before)
      let t ← right t
      let _ ← change (m.apply after)
      pure t) := by
  simp only [joinTables, change, bind_assoc, pure_bind]

end Effect

namespace Correspondence.Lawful

variable {K : Correspondence} (hK : K.Lawful) {s : Strategy} {t t' : Term}

/-! Merging of tables. -/

section

variable (hs : K.strategy s) {names : List String} (hnames : ∀ name ∈ names, name ∈ s.tableNames)

include hK hs

theorem results_table {name : String} (hname : name ∈ s.tableNames) {σ τ : State}
    (hστ : K.state σ τ) : K.Results K.table (σ.context.table name) (τ.context.table name) :=
  simulates_read_iff.mp (hK.table hs hname) σ τ hστ

theorem results_setTable {name : String} (hname : name ∈ s.tableNames) {T T' : Table}
    (hT : K.table T T') {σ τ : State} (hστ : K.state σ τ) :
    K.Results (fun c c' => K.state (σ.into c) (τ.into c') ∧ K.moves σ.context c)
      (σ.context.setTable name T) (τ.context.setTable name T') :=
  simulates_update_iff.mp (hK.setTable hs hname hT) σ τ hστ

include hnames

theorem mapM_table {σ τ : State} (hστ : K.state σ τ) :
    K.Results (List.Forall₂ K.table) (names.mapM σ.context.table)
      (names.mapM τ.context.table) := by
  induction names with
  | nil => exact .ok .nil
  | cons name names ih =>
      rw [List.mapM_cons, List.mapM_cons]
      refine (hK.results_table hs (hnames name (.head _)) hστ).bind fun T T' hT => ?_
      refine (ih fun n hn => hnames n (.tail _ hn)).bind fun Ts Ts' hTs => ?_
      exact .ok (.cons hT hTs)

theorem restoreAll {Ts Ts' : List Table} (hTs : List.Forall₂ K.table Ts Ts') {σ τ : State}
    (hστ : K.state σ τ) :
    K.Results (fun c c' => K.state (σ.into c) (τ.into c') ∧ K.moves σ.context c)
      (Merge.restoreAll (names.zip Ts) σ.context)
      (Merge.restoreAll (names.zip Ts') τ.context) := by
  induction names generalizing Ts Ts' σ τ with
  | nil => exact .ok ⟨hστ, K.moves_refl _⟩
  | cons name names ih =>
      cases hTs with
      | nil => exact .ok ⟨hστ, K.moves_refl _⟩
      | cons hT hTs =>
          refine (hK.results_setTable hs (hnames name (.head _)) hT hστ).bind fun c c' hc => ?_
          refine (ih (fun n hn => hnames n (.tail _ hn)) hTs hc.1).mono fun d d' hd => ?_
          exact ⟨hd.1, K.moves_trans hc.2 hd.2⟩

omit hnames in
theorem applyAll {plan : List (String × (Table → Table → Table))}
    (hplan : ∀ e ∈ plan, e.1 ∈ s.tableNames ∧
      ∀ T T' U U', K.table T T' → K.table U U' → K.table (e.2 T U) (e.2 T' U'))
    {Ts Ts' : List Table} (hTs : List.Forall₂ K.table Ts Ts') {σ τ : State} (hστ : K.state σ τ) :
    K.Results (fun r r' => r.1 = r'.1 ∧ K.state (σ.into r.2) (τ.into r'.2) ∧
      K.moves σ.context r.2) (Merge.applyAll (plan.zip Ts) σ.context)
      (Merge.applyAll (plan.zip Ts') τ.context) := by
  induction plan generalizing Ts Ts' σ τ with
  | nil => exact .ok ⟨rfl, hστ, K.moves_refl _⟩
  | cons e plan ih =>
      cases hTs with
      | nil => exact .ok ⟨rfl, hστ, K.moves_refl _⟩
      | cons hT hTs =>
          obtain ⟨hname, hmerge⟩ := hplan e (.head _)
          refine (hK.results_table hs hname hστ).bind fun U U' hU => ?_
          have hmerged := hmerge _ _ _ _ hT hU
          refine (hK.results_setTable hs hname hmerged hστ).bind fun c c' hc => ?_
          refine (ih (fun e he => hplan e (.tail _ he)) hTs hc.1).bind fun r r' hr => ?_
          refine .ok ⟨?_, hr.2.1, K.moves_trans hc.2 hr.2.2⟩
          rw [hr.1, hK.equalTables hmerged hT]

end

section

variable {merge : Merge} (hs : K.strategy s)
  (hnames : ∀ name ∈ merge.names, name ∈ s.tableNames)

include hK hs hnames

theorem snapshot :
    K.Simulates (List.Forall₂ K.table) (.read merge.snapshot) (.read merge.snapshot) :=
  simulates_read_iff.mpr fun _ _ hστ => hK.mapM_table hs hnames hστ

theorem restore {Ts Ts' : List Table} (hTs : List.Forall₂ K.table Ts Ts') :
    K.Simulates Eq (.update (merge.restore Ts)) (.update (merge.restore Ts')) :=
  simulates_update_iff.mpr fun _ _ hστ => hK.restoreAll hs hnames hTs hστ

theorem mergeTables {Ts Ts' : List Table} (hTs : List.Forall₂ K.table Ts Ts') :
    K.Simulates Eq (.change (merge.apply Ts)) (.change (merge.apply Ts')) := by
  refine simulates_change_iff.mpr fun _ _ hστ => hK.applyAll hs (fun e he => ?_) hTs hστ
  simp only [Merge.plan, List.mem_append, List.mem_map] at he
  rcases he with ⟨name, hname, rfl⟩ | ⟨name, hname, rfl⟩
  · exact ⟨hnames name (List.mem_append_left _ hname), fun _ _ _ _ => hK.union⟩
  · exact ⟨hnames name (List.mem_append_right _ hname), fun _ _ _ _ => hK.inter⟩

theorem iterateTables {x y : Effect Term} (h : K.Simulates K.term x y) {n m : Nat}
    (hnm : n ≤ m) :
    K.Simulates K.term (Effect.iterateTables merge x n) (Effect.iterateTables merge y m) := by
  induction n generalizing m with
  | zero => exact .exhausted _
  | succ n ih =>
      obtain ⟨m, rfl⟩ := Nat.exists_eq_succ_of_ne_zero (Nat.ne_zero_of_lt hnm)
      rw [Effect.iterateTables_succ, Effect.iterateTables_succ]
      refine (hK.snapshot hs hnames).bind fun Ts Ts' hTs => h.bind fun t t' ht => ?_
      refine (hK.mergeTables hs hnames hTs).bind fun changed _ heq => ?_
      subst heq
      cases changed with
      | true => exact ih (Nat.le_of_succ_le_succ hnm)
      | false => exact hK.fixpoint.bind fun _ _ _ => .pure ht

theorem joinTables {before before' : List Table}
    (hbefore : List.Forall₂ K.table before before') {x y : Effect Term}
    {f g : Term → Effect Term} (h : K.Simulates K.term x y)
    (hfg : ∀ t t', K.term t t' → K.Simulates K.term (f t) (g t')) :
    K.Simulates K.term (Effect.joinTables merge before x f)
      (Effect.joinTables merge before' y g) := by
  rw [Effect.joinTables_eq, Effect.joinTables_eq]
  refine h.bind fun t t' ht => (hK.snapshot hs hnames).bind fun Ts Ts' hTs => ?_
  refine (hK.restore hs hnames hbefore).bind fun _ _ _ => (hfg t t' ht).bind fun u u' hu => ?_
  exact (hK.mergeTables hs hnames hTs).bind fun _ _ _ => .pure hu

end

/-! Matching and building. -/

section

include hK

theorem assignAll {b b' : Bindings} (hb : K.bindings b b') (names : List String) :
    K.Simulates Eq (Effect.assignAll b names) (Effect.assignAll b' names) := by
  induction names with
  | nil => exact .pure rfl
  | cons x names ih =>
      have hx := hK.getVar x hb
      rw [Effect.assignAll, Effect.assignAll]
      generalize b.get? x = v at hx
      generalize b'.get? x = v' at hx
      cases hx with
      | some hv => exact (hK.assign x (.some hv)).bind fun _ _ _ => ih
      | none => exact ih

theorem valuesOf (names : List String) {b b' : Bindings} (hb : K.bindings b b') :
    K.Simulates K.bindings (Effect.valuesOf names b) (Effect.valuesOf names b') := by
  induction names generalizing b b' with
  | nil => exact .pure hb
  | cons x names ih =>
      refine (hK.get x).bind fun v v' hv => ?_
      cases hv with
      | some hv => exact ih (hK.bindVar x hb hv)
      | none => exact ih hb

theorem matchPattern {p : Term} (hs : K.strategy (.pattern p)) (ht : K.term t t') :
    K.Simulates K.term (Effect.matchPattern p t) (Effect.matchPattern p t') := by
  refine (hK.valuesOf p.vars hK.noBindings).bind fun b b' hb => ?_
  obtain ⟨hok, hbindings⟩ := hK.matchTerm hs (.head _) ht hb
  generalize p.matchTerm t b = r at hok hbindings
  generalize p.matchTerm t' b' = r' at hok hbindings
  obtain ⟨ok, b₁⟩ := r
  obtain ⟨ok', b₁'⟩ := r'
  obtain rfl : ok = ok' := hok
  cases ok with
  | true => exact (hK.assignAll (hbindings rfl) p.vars).bind fun _ _ _ => .pure ht
  | false => exact .failure

theorem applyRule {p q : Term} (hs : K.strategy (.rule p q)) (ht : K.term t t') :
    K.Simulates K.term (Effect.applyRule p q t) (Effect.applyRule p q t') := by
  obtain ⟨hok, hbindings⟩ := hK.matchTerm hs (.head _) ht hK.noBindings
  rw [Effect.applyRule, Effect.applyRule]
  generalize p.matchTerm t .empty = r at hok hbindings
  generalize p.matchTerm t' .empty = r' at hok hbindings
  obtain ⟨ok, b⟩ := r
  obtain ⟨ok', b'⟩ := r'
  obtain rfl : ok = ok' := hok
  cases ok with
  | true =>
      refine (hK.build hs (.tail _ (.head _)) (hbindings rfl)).bind fun u u' hu => ?_
      exact (hK.ruleApplied ht hu).bind fun _ _ _ => .pure hu
  | false => exact .failure

/-! Reading of terms. -/

theorem toList? (ht : K.term t t') : Option.Rel (List.Forall₂ K.term) t.toList? t'.toList? := by
  induction t using Term.spine_induction generalizing t' with
  | cons t hd tl hshape ih =>
      have hrel := hK.shape ht
      rw [Term.toList?_eq t, Term.toList?_eq t', hshape]
      rw [hshape] at hrel
      generalize t'.shape = k' at hrel
      cases hrel with
      | cons hhd htl =>
          have hrest := ih htl
          dsimp only
          generalize tl.toList? = ts at hrest
          generalize Term.toList? _ = ts' at hrest
          cases hrest with
          | some hts => exact .some (.cons hhd hts)
          | none => exact .none
  | other t hshape =>
      have hrel := hK.shape ht
      rw [Term.toList?_eq t, Term.toList?_eq t']
      generalize t.shape = k at hrel hshape
      generalize t'.shape = k' at hrel
      cases hrel with
      | nil => exact .some .nil
      | cons _ _ => exact absurd rfl (hshape _ _)
      | _ => exact .none

theorem elemsOf (ht : K.term t t') :
    K.Simulates (List.Forall₂ K.term) (Effect.elemsOf t) (Effect.elemsOf t') := by
  have hlist := hK.toList? ht
  rw [Effect.elemsOf, Effect.elemsOf]
  generalize t.toList? = ts at hlist
  generalize t'.toList? = ts' at hlist
  cases hlist with
  | some hts => exact .pure hts
  | none => exact .fatal (hK.notAList ht)

theorem pairOf (ht : K.term t t') :
    K.Simulates (fun a b => K.term a.1 b.1 ∧ K.term a.2 b.2) (Effect.pairOf t)
      (Effect.pairOf t') := by
  have hlist := hK.toList? ht
  rw [Effect.pairOf, Effect.pairOf, Term.toPair?, Term.toPair?]
  generalize t.toList? = ts at hlist
  generalize t'.toList? = ts' at hlist
  cases hlist with
  | none => exact .fatal (hK.notAPair ht)
  | some hts =>
      cases hts with
      | nil => exact .fatal (hK.notAPair ht)
      | cons ha hts =>
          cases hts with
          | nil => exact .fatal (hK.notAPair ht)
          | cons hb hts =>
              cases hts with
              | nil => exact .pure ⟨ha, hb⟩
              | cons _ _ => exact .fatal (hK.notAPair ht)

theorem intOf (ht : K.term t t') : K.Simulates Eq (Effect.intOf t) (Effect.intOf t') := by
  have hrel := hK.shape ht
  rw [Effect.intOf, Effect.intOf, Term.toInt?, Term.toInt?]
  generalize t.shape = k at hrel
  generalize t'.shape = k' at hrel
  cases hrel with
  | int i => exact .pure rfl
  | _ => exact .fatal (hK.notAnInt ht)

theorem operands (ht : K.term t t') :
    K.Simulates Eq (Effect.operands t) (Effect.operands t') := by
  refine (hK.pairOf ht).bind fun a b hab => (hK.intOf hab.1).bind fun i _ hi => ?_
  refine (hK.intOf hab.2).bind fun j _ hj => ?_
  rw [hi, hj]
  exact .pure rfl

theorem arithmetic (op : Int64 → Int64 → Int64) (ht : K.term t t') :
    K.Simulates K.term (Effect.arithmetic op t) (Effect.arithmetic op t') := by
  refine (hK.operands ht).bind fun a _ hab => ?_
  subst hab
  exact .pure (hK.int _)

theorem comparison (rel : Int64 → Int64 → Bool) (ht : K.term t t') :
    K.Simulates K.term (Effect.comparison rel t) (Effect.comparison rel t') := by
  refine (hK.operands ht).bind fun a _ hab => ?_
  subst hab
  dsimp only
  split
  · exact .pure ht
  · exact .failure

theorem modifyTable (hs : K.strategy s) {name : String} (hname : name ∈ s.tableNames)
    {f g : Table → Table} (hfg : ∀ T T', K.table T T' → K.table (f T) (g T')) :
    K.Simulates Eq (.update (·.modifyTable name f)) (.update (·.modifyTable name g)) := by
  simp only [Context.modifyTable, Effect.update_bind]
  exact (hK.table hs hname).bind fun T T' hT => hK.setTable hs hname (hfg T T' hT)

theorem elementary (helem : s.isElementary) (hs : K.strategy s) (ht : K.term t t') :
    K.Simulates K.term (s.effect t) (s.effect t') := by
  cases s with
  | ident => exact .pure ht
  | fail => exact .failure
  | pattern p => exact hK.matchPattern hs ht
  | build p => exact hK.build hs (.head _) hK.noBindings
  | rule p q => exact hK.applyRule hs ht
  | unset x => exact (hK.assign x .none).bind fun _ _ _ => .pure ht
  | tableSet name =>
      refine (hK.pairOf ht).bind fun a b hab => ?_
      exact (hK.modifyTable hs (.head _) fun T T' hT => hK.insert hT hab.1 hab.2).bind
        fun _ _ _ => .pure ht
  | tableAdd name =>
      have hempty := hK.list .nil
      exact (hK.modifyTable hs (.head _) fun T T' hT => hK.insert hT ht hempty).bind
        fun _ _ _ => .pure ht
  | tableGet name =>
      exact (hK.table hs (.head _)).bind fun T T' hT => .ofOption (hK.entry hT ht)
  | tableErase name =>
      exact (hK.modifyTable hs (.head _) fun T T' hT => hK.erase hT ht).bind
        fun _ _ _ => .pure ht
  | tableClear name =>
      exact (hK.modifyTable hs (.head _) fun _ _ _ => hK.clear hs).bind
        fun _ _ _ => .pure ht
  | nil =>
      have hrel := hK.shape ht
      simp only [Strategy.effect, Strategy.step]
      generalize t.shape = k at hrel
      generalize t'.shape = k' at hrel
      cases hrel with
      | nil => exact .pure ht
      | _ => exact .failure
  | setAnno anno => exact .pure (hK.setAnno hs ht)
  | getAnno name => exact .ofOption (hK.getAnno hs ht)
  | removeAnno name => exact .pure (hK.removeAnno hs ht)
  | strip => exact .pure (hK.strip hs ht)
  | length =>
      refine (hK.elemsOf ht).bind fun ts ts' hts => ?_
      rw [hts.length_eq]
      exact .pure (hK.int _)
  | reverse =>
      exact (hK.elemsOf ht).bind fun ts ts' hts =>
        .pure (hK.list (List.rel_reverse hts))
  | concat =>
      refine (hK.elemsOf ht).bind fun ls ls' hls => ?_
      have helems : List.Forall₂ (K.Simulates (List.Forall₂ K.term)) (ls.map Effect.elemsOf)
          (ls'.map Effect.elemsOf) :=
        List.rel_map (fun _ _ hl => hK.elemsOf hl) hls
      exact (Simulates.inOrder helems).bind fun tss tss' htss =>
        .pure (hK.list (List.rel_flatten htss))
  | add => exact hK.arithmetic (· + ·) ht
  | sub => exact hK.arithmetic (· - ·) ht
  | mul => exact hK.arithmetic (· * ·) ht
  | lt => exact hK.comparison (· < ·) ht
  | gt => exact hK.comparison (· > ·) ht
  | eq =>
      refine (hK.pairOf ht).bind fun a b hab => ?_
      dsimp only
      rw [hK.equivalent hab.1 hab.2]
      split
      · exact .pure ht
      · exact .failure
  | trace label =>
      have htrace := (hK.trace label ht).bind fun _ _ _ => .pure ht
      rwa [bind_assoc, bind_assoc] at htrace
  | _ => cases helem

end

end Correspondence.Lawful

end StrategicRewriting
