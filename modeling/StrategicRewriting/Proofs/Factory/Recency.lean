import Mathlib.Data.List.Dedup
import StrategicRewriting.Proofs.Factory.Numbering
import StrategicRewriting.Proofs.Factory.WellFormed

/-!
The memory of a factory, against the history of its use. A factory remembers the texts that
were used last, as many as its capacity allows, each with the term that it was parsed to the
last time. Remembering changes which node a text gives, but nothing else about the term.
-/
namespace StrategicRewriting

/-! One use of a memory. -/

namespace Cache

variable {c c' : Cache} {src : String} {t : Term}

/-- The memory after the use of a text, whether it was known or not. -/
def remember (c : Cache) (src : String) (t : Term) : Cache :=
  { c with entries := ((src, t) :: c.entries.filter (·.1 != src)).take c.capacity }

theorem size_remember_le (c : Cache) (src : String) (t : Term) :
    (c.remember src t).size ≤ (c.remember src t).capacity :=
  List.length_take_le _ _

theorem mem_of_mem_remember {e : String × Term} (h : e ∈ (c.remember src t).entries) :
    e = (src, t) ∨ e ∈ c.entries := by
  rcases List.mem_cons.mp (List.mem_of_mem_take h) with h | h
  · exact .inl h
  · exact .inr (List.mem_filter.mp h).1

theorem get?_eq_none_iff : c.get? src = none ↔ ∀ e ∈ c.entries, e.1 ≠ src := by
  rw [get?]
  cases hfind : c.entries.find? (·.1 == src) with
  | none => simpa using hfind
  | some entry =>
      have hmem := List.mem_of_find?_eq_some hfind
      have hkey : entry.1 = src := by simpa using List.find?_some hfind
      exact ⟨by simp, fun h => absurd hkey (h entry hmem)⟩

theorem get?_of_mem (hnodup : (c.entries.map (·.1)).Nodup) (h : (src, t) ∈ c.entries) :
    ∃ c', c.get? src = some (t, c') := by
  cases hget : c.get? src with
  | none => exact absurd rfl (get?_eq_none_iff.mp hget _ h)
  | some found =>
      have heq := List.inj_on_of_nodup_map hnodup (mem_of_get? hget).1 h rfl
      cases heq
      exact ⟨found.2, rfl⟩

theorem eq_remember_of_get? (hsize : c.size ≤ c.capacity) (h : c.get? src = some (t, c')) :
    c' = c.remember src t := by
  have hmem := (mem_of_get? h).1
  have hlen : ((src, t) :: c.entries.filter (·.1 != src)).length ≤ c.capacity := by
    have hlt : (c.entries.filter (·.1 != src)).length < c.entries.length :=
      List.length_filter_lt_length_iff_exists.mpr ⟨_, hmem, by simp⟩
    exact Nat.le_trans hlt hsize
  rw [remember, List.take_of_length_le hlen]
  rw [get?] at h
  split at h
  · cases h
  · rename_i entry hentry
    cases h
    obtain rfl : entry.1 = src := by simpa using List.find?_some hentry
    rfl

theorem push_eq_remember (hsize : c.size ≤ c.capacity) (h : c.get? src = none) :
    (c.push src t).1 = c.remember src t := by
  have hnew : c.entries.filter (·.1 != src) = c.entries := by
    rw [List.filter_eq_self]
    intro e he
    simpa using get?_eq_none_iff.mp h e he
  rw [remember, hnew, push]
  by_cases hzero : c.capacity = 0
  · have hempty : c.entries = [] := List.eq_nil_of_length_eq_zero (by
      rw [size] at hsize
      omega)
    obtain ⟨capacity, entries⟩ := c
    cases hzero
    cases hempty
    rfl
  rw [if_neg hzero]
  by_cases hlt : c.size < c.capacity
  · rw [if_pos hlt, List.take_of_length_le (Nat.succ_le_of_lt hlt)]
  · obtain ⟨n, hn⟩ := Nat.exists_eq_succ_of_ne_zero hzero
    have hlen : c.entries.length = n + 1 := by
      rw [size] at hsize hlt
      omega
    rw [if_neg hlt, hn, List.take_succ_cons, List.dropLast_eq_take, hlen]
    rfl

end Cache

namespace Factory

open Written

/-- The factory has made the term from the text at some time. -/
def Made (f : Factory) (src : String) (t : Term) : Prop :=
  ∃ w n, Written.parse src = .ok w ∧ 2 ≤ n ∧ (share w n).2 ≤ f.next ∧ t = (share w n).1

/-- What the factory remembers was made by it. -/
structure Faithful (f : Factory) : Prop where
  next : 2 ≤ f.next
  size : f.cache.size ≤ f.cache.capacity
  made {e : String × Term} : e ∈ f.cache.entries → f.Made e.1 e.2

variable {f f' : Factory} {src : String} {t : Term} {p : Parsed}

theorem faithful_withCapacity (capacity : Nat) : (withCapacity capacity).Faithful :=
  ⟨Nat.le_refl 2, Nat.zero_le capacity, fun h => absurd h List.not_mem_nil⟩

theorem Made.mono (h : f.Made src t) (hnext : f.next ≤ f'.next) : f'.Made src t := by
  obtain ⟨w, n, hw, hn, hle, ht⟩ := h
  exact ⟨w, n, hw, hn, Nat.le_trans hle hnext, ht⟩

theorem Made.unnumbered_eq (h : f.Made src t) :
    ∃ w, Written.parse src = .ok w ∧ t.unnumbered = w.denote := by
  obtain ⟨w, n, hw, -, -, rfl⟩ := h
  exact ⟨w, hw, unnumbered_share w n⟩

/-- A term that is made once more is a new node, unless it is a common one. -/
theorem Made.share_eq_iff (h : f.Made src t) {w : Written} (hw : Written.parse src = .ok w) :
    (share w f.next).1 = t ↔ t = nil ∨ t = wildcard := by
  obtain ⟨w', n, hw', hn, hle, rfl⟩ := h
  cases hw.symm.trans hw'
  cases hcommon : w.commonNode? with
  | some u =>
      obtain ⟨hu, hor⟩ := share_of_commonNode? hcommon n
      rw [(share_of_commonNode? hcommon f.next).1, hu]
      exact ⟨fun _ => hor, fun _ => rfl⟩
  | none =>
      obtain ⟨k, hk, hnk, hkm⟩ := numbered_share w n hcommon
      obtain ⟨k', hk', hfk, -⟩ := numbered_share w f.next hcommon
      constructor
      · intro heq
        rw [heq, hk] at hk'
        cases hk'
        omega
      · rintro (heq | heq) <;> rw [heq] at hk <;> cases hk <;> omega

theorem Faithful.number_share (hf : f.Faithful) (w : Written) :
    (f.number (share w)).2.Faithful where
  next := Nat.le_trans hf.next (le_share w f.next)
  size := hf.size
  made he := (hf.made he).mono (le_share w f.next)

theorem Faithful.parse_error_iff (hf : f.Faithful) {e : ParseError} :
    f.parse src = .error e ↔ Written.parse src = .error e := by
  rw [Factory.parse]
  split
  · rename_i t c hget
    obtain ⟨w, hw, -⟩ := (hf.made (Cache.mem_of_get? hget).1).unnumbered_eq
    rw [hw]
    constructor <;> intro h <;> cases h
  · cases Written.parse src with
    | ok w => constructor <;> intro h <;> cases h
    | error e' => constructor <;> intro h <;> cases h <;> rfl

theorem Faithful.parse (hf : f.Faithful) (h : f.parse src = .ok p) :
    p.factory.Faithful ∧ p.factory.Made src p.term ∧ f.next ≤ p.factory.next ∧
      p.factory.cache = f.cache.remember src p.term := by
  have hstep : p.factory.Made src p.term ∧ f.next ≤ p.factory.next ∧
      p.factory.cache = f.cache.remember src p.term := by
    rcases parse_cases h with ⟨c, hget, hp⟩ | ⟨hget, w, hw, hterm, hp⟩
    · rw [hp]
      have hmade := hf.made (Cache.mem_of_get? hget).1
      exact ⟨hmade, Nat.le_refl _, Cache.eq_remember_of_get? hf.size hget⟩
    · rw [hp]
      exact ⟨⟨w, f.next, hw, hf.next, Nat.le_refl _, hterm⟩, le_share w f.next,
        Cache.push_eq_remember hf.size hget⟩
  obtain ⟨hmade, hnext, hcache⟩ := hstep
  refine ⟨⟨Nat.le_trans hf.next hnext, ?_, fun {e} he => ?_⟩, hmade, hnext, hcache⟩
  · rw [hcache]
    exact Cache.size_remember_le _ _ _
  · rw [hcache] at he
    rcases Cache.mem_of_mem_remember he with rfl | he
    · exact hmade
    · exact (hf.made he).mono hnext

/-- The factory after a call, also if there is no term to be had. -/
def after (f : Factory) (src : String) : Factory :=
  match f.parse src with
  | .ok p => p.factory
  | .error _ => f

/-- A new factory after a sequence of calls, the latest one first. -/
def session (capacity : Nat) : List String → Factory
  | [] => withCapacity capacity
  | src :: earlier => (session capacity earlier).after src

/-- The calls that gave a term, with this term, the latest one first. -/
def history (capacity : Nat) : List String → List (String × Term)
  | [] => []
  | src :: earlier =>
    match (session capacity earlier).parse src with
    | .ok p => (src, p.term) :: history capacity earlier
    | .error _ => history capacity earlier

/-- The last entry of each text in a history. -/
def latest : List (String × Term) → List (String × Term)
  | [] => []
  | e :: h => e :: (latest h).filter (·.1 != e.1)

def isTerm (src : String) : Bool :=
  (Written.parse src).isOk

theorem mem_keys_latest (h : List (String × Term)) {k : String} :
    k ∈ (latest h).map (·.1) ↔ k ∈ h.map (·.1) := by
  induction h with
  | nil => exact Iff.rfl
  | cons e h ih =>
      have hkeys : k ∈ ((latest h).filter (·.1 != e.1)).map (·.1) ↔
          k ∈ (latest h).map (·.1) ∧ k ≠ e.1 := by
        simp only [List.mem_map, List.mem_filter, bne_iff_ne]
        constructor
        · rintro ⟨d, ⟨hd, hne⟩, rfl⟩
          exact ⟨⟨d, hd, rfl⟩, hne⟩
        · rintro ⟨⟨d, hd, rfl⟩, hne⟩
          exact ⟨d, ⟨hd, hne⟩, rfl⟩
      rw [latest, List.map_cons, List.map_cons, List.mem_cons, List.mem_cons, hkeys, ih]
      tauto

theorem nodup_keys_latest (h : List (String × Term)) : ((latest h).map (·.1)).Nodup := by
  induction h with
  | nil => exact List.nodup_nil
  | cons e h ih =>
      rw [latest, List.map_cons, List.nodup_cons]
      refine ⟨by simp, ?_⟩
      exact ih.sublist (List.filter_sublist.map _)

theorem length_latest (h : List (String × Term)) :
    (latest h).length = (h.map (·.1)).dedup.length := by
  rw [← List.length_map (·.1)]
  refine List.Perm.length_eq ?_
  rw [List.perm_ext_iff_of_nodup (nodup_keys_latest h) (List.nodup_dedup _)]
  intro k
  rw [mem_keys_latest, List.mem_dedup]

/-- What was used after a text has its place before it. -/
theorem latest_append_cons (e : String × Term) (h : List (String × Term)) :
    ∀ {since : List (String × Term)}, e.1 ∉ since.map (·.1) →
      ∃ older, latest (since ++ e :: h) = latest since ++ e :: older
  | [], _ => ⟨_, rfl⟩
  | d :: since, hnew => by
      rw [List.map_cons, List.mem_cons, not_or] at hnew
      obtain ⟨older, heq⟩ := latest_append_cons e h hnew.2
      refine ⟨older.filter (·.1 != d.1), ?_⟩
      rw [List.cons_append, latest, heq, List.filter_append,
        List.filter_cons_of_pos (by simpa using hnew.1)]
      rfl

/-- Cutting off entries before one is taken out is the same as cutting them off after it,
because there is only one to take out. -/
theorem take_filter_take {es : List (String × Term)} (hnodup : (es.map (·.1)).Nodup)
    (src : String) (n : Nat) :
    ((es.take (n + 1)).filter (·.1 != src)).take n = (es.filter (·.1 != src)).take n := by
  induction es generalizing n with
  | nil => rfl
  | cons e es ih =>
      rw [List.map_cons, List.nodup_cons] at hnodup
      by_cases heq : e.1 = src
      · have hkeep : ∀ d ∈ es, d.1 != src := by
          intro d hd
          rw [bne_iff_ne, ← heq]
          intro hkey
          exact hnodup.1 (List.mem_map.mpr ⟨d, hd, hkey⟩)
        rw [List.take_succ_cons, List.filter_cons_of_neg (by simpa using heq),
          List.filter_cons_of_neg (by simpa using heq), List.filter_eq_self.mpr hkeep,
          List.filter_eq_self.mpr fun d hd => hkeep d (List.mem_of_mem_take hd), List.take_take,
          Nat.min_self]
      · rw [List.take_succ_cons, List.filter_cons_of_pos (by simpa using heq),
          List.filter_cons_of_pos (by simpa using heq)]
        cases n with
        | zero => rfl
        | succ n => rw [List.take_succ_cons, List.take_succ_cons, ih hnodup.2]

/-- The memory that a history leaves behind. -/
def recent (capacity : Nat) (h : List (String × Term)) : Cache :=
  ⟨capacity, (latest h).take capacity⟩

theorem recent_cons (capacity : Nat) (src : String) (t : Term) (h : List (String × Term)) :
    recent capacity ((src, t) :: h) = (recent capacity h).remember src t := by
  rw [recent, recent, Cache.remember, latest]
  cases capacity with
  | zero => rfl
  | succ n =>
      rw [List.take_succ_cons, List.take_succ_cons, take_filter_take (nodup_keys_latest h)]

section

variable {capacity : Nat} {since h : List (String × Term)} (hnew : src ∉ since.map (·.1))
include hnew

theorem get?_recent_of_lt (hlt : (latest since).length < capacity) :
    ∃ c, (recent capacity (since ++ (src, t) :: h)).get? src = some (t, c) := by
  obtain ⟨older, heq⟩ := latest_append_cons (src, t) h hnew
  apply Cache.get?_of_mem
  · exact (nodup_keys_latest _).sublist ((List.take_sublist _ _).map _)
  · obtain ⟨k, hk⟩ : ∃ k, capacity - (latest since).length = k + 1 :=
      Nat.exists_eq_succ_of_ne_zero (by omega)
    rw [recent, heq, List.take_append, hk, List.take_succ_cons]
    exact List.mem_append_right _ List.mem_cons_self

theorem get?_recent_of_le (hle : capacity ≤ (latest since).length) :
    (recent capacity (since ++ (src, t) :: h)).get? src = none := by
  obtain ⟨older, heq⟩ := latest_append_cons (src, t) h hnew
  rw [Cache.get?_eq_none_iff, recent, heq, List.take_append_of_le_length hle]
  intro e he hkey
  have hmem := List.mem_map_of_mem (f := (·.1)) (List.mem_of_mem_take he)
  rw [mem_keys_latest, hkey] at hmem
  exact hnew hmem

end

theorem session_faithful (capacity : Nat) (srcs : List String) :
    (session capacity srcs).Faithful := by
  induction srcs with
  | nil => exact faithful_withCapacity capacity
  | cons src srcs ih =>
      rw [session, after]
      split
      · rename_i p hp
        exact (ih.parse hp).1
      · exact ih

theorem cache_session (capacity : Nat) (srcs : List String) :
    (session capacity srcs).cache = recent capacity (history capacity srcs) := by
  induction srcs with
  | nil => exact congrArg (Cache.mk capacity) List.take_nil.symm
  | cons src srcs ih =>
      rw [session, after, history]
      cases hp : (session capacity srcs).parse src with
      | error e => exact ih
      | ok p =>
          have hcache := ((session_faithful capacity srcs).parse hp).2.2.2
          rw [ih, ← recent_cons] at hcache
          exact hcache

theorem made_of_mem_history (capacity : Nat) (srcs : List String) {e : String × Term}
    (h : e ∈ history capacity srcs) : (session capacity srcs).Made e.1 e.2 := by
  induction srcs with
  | nil => exact absurd h List.not_mem_nil
  | cons src srcs ih =>
      rw [history] at h
      rw [session, after]
      cases hp : (session capacity srcs).parse src with
      | error e' =>
          rw [hp] at h
          exact ih h
      | ok p =>
          obtain ⟨-, hmade, hnext, -⟩ := (session_faithful capacity srcs).parse hp
          rw [hp] at h
          rcases List.mem_cons.mp h with rfl | h
          · exact hmade
          · exact (ih h).mono hnext

/-- A history extends the history up to any earlier call, by the texts that are terms. -/
theorem history_append (capacity : Nat) (since earlier : List String) :
    ∃ h, history capacity (since ++ earlier) = h ++ history capacity earlier ∧
      h.map (·.1) = since.filter isTerm := by
  induction since with
  | nil => exact ⟨[], rfl, rfl⟩
  | cons src since ih =>
      obtain ⟨h, heq, hkeys⟩ := ih
      have hf := session_faithful capacity (since ++ earlier)
      rw [List.cons_append, history]
      cases hp : (session capacity (since ++ earlier)).parse src with
      | error e =>
          have hno : ¬isTerm src = true := by
            rw [isTerm, hf.parse_error_iff.mp hp]
            exact Bool.false_ne_true
          exact ⟨h, heq, by rw [List.filter_cons_of_neg hno, hkeys]⟩
      | ok p =>
          obtain ⟨w, hw, -⟩ := (hf.parse hp).2.1.unnumbered_eq
          have hyes : isTerm src = true := by
            rw [isTerm, hw]
            rfl
          refine ⟨(src, p.term) :: h, congrArg _ heq, ?_⟩
          rw [List.filter_cons_of_pos hyes, List.map_cons, hkeys]

theorem keys_history (capacity : Nat) (srcs : List String) :
    (history capacity srcs).map (·.1) = srcs.filter isTerm := by
  obtain ⟨h, heq, hkeys⟩ := history_append capacity srcs []
  rw [List.append_nil] at heq
  rw [heq, history, List.append_nil, hkeys]

/-- A text that was a term before is one again, and gives the same node if it was not
pushed out. -/
theorem parse_again {capacity : Nat} {since earlier : List String} {q : Parsed}
    (hnew : src ∉ since) (hq : (session capacity earlier).parse src = .ok q) :
    ∃ p, (session capacity (since ++ src :: earlier)).parse src = .ok p ∧
      (p.term = q.term ↔
        (since.filter isTerm).dedup.length < capacity ∨ q.term = nil ∨ q.term = wildcard) := by
  obtain ⟨h, hhistory, hkeys⟩ := history_append capacity since (src :: earlier)
  have hlast : history capacity (src :: earlier) = (src, q.term) :: history capacity earlier := by
    rw [history, hq]
  rw [hlast] at hhistory
  have hnew' : src ∉ h.map (·.1) := by
    rw [hkeys]
    exact fun hmem => hnew (List.mem_filter.mp hmem).1
  have hmade := made_of_mem_history capacity (since ++ src :: earlier)
    (hhistory ▸ List.mem_append_right h List.mem_cons_self)
  obtain ⟨w, hw, -⟩ := hmade.unnumbered_eq
  have hcache := cache_session capacity (since ++ src :: earlier)
  rw [hhistory] at hcache
  have hf := session_faithful capacity (since ++ src :: earlier)
  generalize session capacity (since ++ src :: earlier) = f at hmade hcache hf ⊢
  cases hp : f.parse src with
  | error e => cases hw.symm.trans (hf.parse_error_iff.mp hp)
  | ok p =>
      refine ⟨p, rfl, ?_⟩
      rw [← hkeys, ← length_latest]
      by_cases hlt : (latest h).length < capacity
      · obtain ⟨c, hget⟩ : ∃ c, f.cache.get? src = some (q.term, c) := by
          rw [hcache]
          exact get?_recent_of_lt hnew' hlt
        rcases parse_cases hp with ⟨c', hget', -⟩ | ⟨hnone, -⟩
        · obtain ⟨heq, -⟩ := Prod.mk.inj (Option.some.inj (hget.symm.trans hget'))
          exact ⟨fun _ => .inl hlt, fun _ => heq.symm⟩
        · cases hget.symm.trans hnone
      · have hnone : f.cache.get? src = none := by
          rw [hcache]
          exact get?_recent_of_le hnew' (Nat.le_of_not_lt hlt)
        rcases parse_cases hp with ⟨c, hget, -⟩ | ⟨-, w', hw', hterm, -⟩
        · cases hget.symm.trans hnone
        · rw [hterm, hmade.share_eq_iff hw']
          exact ⟨.inr, fun hor => hor.resolve_left hlt⟩

/-- The memory never shows in the terms, apart from their numbers, and it holds the texts
that were used last. In a sequence of calls, with the latest one first: a call gives a term
or an error just as parsing does; the memory has as many entries as there were different
texts that are terms, up to its capacity; a text gives the same node as the last time if
fewer other texts than the capacity allows were used since, or if it needs no new node; and
a text that is no term changes nothing. -/
theorem cache_leastRecentlyUsed (capacity : Nat) (srcs : List String) (src : String) :
    ((∀ e, (session capacity srcs).parse src = .error e ↔ Written.parse src = .error e) ∧
      ∀ p, (session capacity srcs).parse src = .ok p →
        ∃ w, Written.parse src = .ok w ∧ ∀ n, p.term.unnumbered = (share w n).1.unnumbered) ∧
    (session capacity srcs).cache.size = min capacity (srcs.filter isTerm).dedup.length ∧
    (∀ since earlier q, srcs = since ++ src :: earlier → src ∉ since →
      (session capacity earlier).parse src = .ok q →
      ∃ p, (session capacity srcs).parse src = .ok p ∧
        (p.term = q.term ↔
          (since.filter isTerm).dedup.length < capacity ∨ q.term = nil ∨ q.term = wildcard)) ∧
    ∀ e, (session capacity srcs).parse src = .error e →
      (session capacity (src :: srcs)).cache = (session capacity srcs).cache := by
  have hf := session_faithful capacity srcs
  refine ⟨⟨fun e => hf.parse_error_iff, fun p hp => ?_⟩, ?_, ?_, fun e he => ?_⟩
  · obtain ⟨w, hw, hterm⟩ := (hf.parse hp).2.1.unnumbered_eq
    exact ⟨w, hw, fun n => by rw [hterm, unnumbered_share]⟩
  · rw [cache_session, recent, Cache.size, List.length_take, length_latest, keys_history]
  · rintro since earlier q rfl hnew hq
    exact parse_again hnew hq
  · rw [session, after, he]

theorem cache_leastRecentlyUsed_two :
    (session 2 ["[1", "A", "C(1)"]).cache.size = 2 ∧
    (session 2 ["[1", "A", "C(1)"]).cache = (session 2 ["A", "C(1)"]).cache ∧
    ∃ q p p', (session 2 []).parse "C(1)" = .ok q ∧
      (session 2 ["[1", "A", "C(1)"]).parse "C(1)" = .ok p ∧ p.term = q.term ∧
      (session 2 ["B", "[1", "A", "C(1)"]).parse "C(1)" = .ok p' ∧ p'.term ≠ q.term := by
  have hnew : ((session 2 []).parse "C(1)").toOption.map
      (fun q => decide (q.term = nil ∨ q.term = wildcard)) = some false := by decide +kernel
  obtain ⟨q, hq, hnew⟩ := Option.map_eq_some_iff.mp hnew
  have hq : (session 2 []).parse "C(1)" = .ok q := by
    cases hparse : (session 2 []).parse "C(1)" with
    | error e =>
        rw [hparse] at hq
        cases hq
    | ok q' =>
        rw [hparse] at hq
        exact congrArg Except.ok (Option.some.inj hq)
  obtain ⟨-, hsize, hkept, -⟩ := cache_leastRecentlyUsed 2 ["[1", "A", "C(1)"] "C(1)"
  obtain ⟨p, hp, hsame⟩ := hkept ["[1", "A"] [] q rfl (by decide) hq
  obtain ⟨-, -, hpushed, -⟩ := cache_leastRecentlyUsed 2 ["B", "[1", "A", "C(1)"] "C(1)"
  obtain ⟨p', hp', hother⟩ := hpushed ["B", "[1", "A"] [] q rfl (by decide) hq
  obtain ⟨⟨herror, -⟩, -, -, hstays⟩ := cache_leastRecentlyUsed 2 ["A", "C(1)"] "[1"
  refine ⟨hsize.trans (by decide +kernel), ?_, q, p, p', hq, hp, ?_, hp', ?_⟩
  · cases hparse : Written.parse "[1" with
    | error e => exact hstays e ((herror e).mpr hparse)
    | ok w =>
        have hno : isTerm "[1" = false := by decide +kernel
        rw [isTerm, hparse] at hno
        cases hno
  · exact hsame.mpr (.inl (by decide +kernel))
  · intro heq
    rcases hother.mp heq with hlt | hcommon
    · exact absurd hlt (by decide +kernel)
    · exact absurd hcommon (of_decide_eq_false hnew)

end Factory

end StrategicRewriting
