import StrategicRewriting.Format.Program
import StrategicRewriting.Proofs.Factory.Recency

/-!
Steps of the formatter that do not end it. What a step prints is appended to the output, and
the factory stays faithful. If the one file of a call is printed in this way, then the call
succeeds with that output.
-/
namespace StrategicRewriting

namespace Format

/-- The text of a file or of the standard input. -/
def contents (files : String → Option ByteArray) (input : ByteArray) (name : String) :
    Option String :=
  (if name = "-" then some input else files name).bind String.fromUTF8?

theorem contents_input (files : String → Option ByteArray) (src : String) :
    contents files src.toUTF8 "-" = some src :=
  dif_pos src.isValidUTF8

namespace Step

variable {α β : Type}

/-- The step gives something, and `P` holds of it and of the progress after it. -/
def Reaches (x : Step α) (p : Progress) (P : α → Progress → Prop) : Prop :=
  ∃ a p', x p = (.ok a, p') ∧ P a p'

theorem Reaches.bind {x : Step α} {f : α → Step β} {p : Progress} {P : α → Progress → Prop}
    {Q : β → Progress → Prop} (h : x.Reaches p P) (hf : ∀ a p', P a p' → (f a).Reaches p' Q) :
    (x >>= f).Reaches p Q := by
  obtain ⟨a, p', hx, ha⟩ := h
  obtain ⟨b, p'', hb, hQ⟩ := hf a p' ha
  refine ⟨b, p'', ?_, hQ⟩
  change ExceptT.bindCont f (x p).1 (x p).2 = _
  rw [hx]
  exact hb

theorem Reaches.mono {x : Step α} {p : Progress} {P Q : α → Progress → Prop} (h : x.Reaches p P)
    (hPQ : ∀ a p', P a p' → Q a p') : x.Reaches p Q := by
  obtain ⟨a, p', hx, ha⟩ := h
  exact ⟨a, p', hx, hPQ a p' ha⟩

theorem Reaches.pure {p : Progress} {P : α → Progress → Prop} {a : α} (h : P a p) :
    (Pure.pure a : Step α).Reaches p P :=
  ⟨a, p, rfl, h⟩

theorem reaches_get (p : Progress) : (get : Step Progress).Reaches p fun q p' => q = p ∧ p' = p :=
  ⟨p, p, rfl, rfl, rfl⟩

theorem reaches_modify (p : Progress) (f : Progress → Progress) :
    (modify f : Step Unit).Reaches p fun _ p' => p' = f p :=
  ⟨(), f p, rfl, rfl⟩

/-- The text was printed from one progress to the other, and the factory is faithful. -/
structure Prints (p p' : Progress) (text : List Char) : Prop where
  faithful : p'.factory.Faithful
  output : p'.output = p.output ++ text

variable {p p' : Progress}

theorem Prints.trans {p'' : Progress} {l r : List Char} (h : Prints p p' l)
    (h' : Prints p' p'' r) : Prints p p'' (l ++ r) :=
  ⟨h'.faithful, by rw [h'.output, h.output, List.append_assoc]⟩

theorem prints_nothing (hp : p'.factory.Faithful) (h : p'.output = p.output) : Prints p p' [] :=
  ⟨hp, by rw [h, List.append_nil]⟩

section

variable (hp : p.factory.Faithful)
include hp

theorem reaches_report (e : Event) : (report e).Reaches p fun _ p' => Prints p p' [] :=
  ⟨(), _, rfl, prints_nothing hp rfl⟩

theorem reaches_print (text : List Char) : (print text).Reaches p fun _ p' => Prints p p' text :=
  ⟨(), _, rfl, hp, rfl⟩

variable {files : String → Option ByteArray} {name src : String}
  (hsrc : contents files p.input name = some src)
include hsrc

theorem reaches_read : (read files name).Reaches p fun text p' => text = src ∧ Prints p p' [] := by
  rw [contents] at hsrc
  rw [read]
  split at hsrc
  · rename_i hname
    rw [if_pos hname]
    refine (reaches_get p).bind ?_
    rintro _ _ ⟨rfl, rfl⟩
    refine (reaches_modify _ _).bind ?_
    rintro _ _ rfl
    simp only [pure_bind, hsrc]
    exact .pure ⟨rfl, prints_nothing hp rfl⟩
  · rename_i hname
    simp only [if_neg hname, pure_bind, hsrc]
    exact .pure ⟨rfl, prints_nothing hp rfl⟩

variable {o : Options} {text : List Char}
  (htext : ∀ p', p'.factory.Faithful →
    Reaches (if o.lex then tokens o src else terms o (Written.parseAll src)) p'
      fun _ p'' => Prints p' p'' text)
include htext

theorem reaches_file : (file o files name).Reaches p fun _ p' => Prints p p' text := by
  refine (reaches_modify p _).bind ?_
  rintro _ p₀ rfl
  refine (reaches_read (p := { p with log := .processing name :: p.log }) hp hsrc).bind ?_
  rintro _ p₁ ⟨rfl, hp₁⟩
  exact (htext p₁ hp₁.faithful).mono fun _ _ h => ⟨h.faithful, (hp₁.trans h).output⟩

theorem reaches_all (hfiles : o.files = [name]) :
    (all o files).Reaches p fun _ p' => Prints p p' text := by
  have hfile := reaches_file hp hsrc htext
  have hall : ([name].forM (file o files)).Reaches p fun _ p' => Prints p p' text :=
    hfile.bind fun _ p₁ hp₁ => ⟨(), p₁, rfl, hp₁⟩
  rw [all, hfiles]
  refine hall.bind fun _ p₁ hp₁ => ?_
  refine (reaches_get p₁).bind ?_
  rintro _ _ ⟨rfl, rfl⟩
  exact (reaches_report hp₁.faithful _).mono fun _ _ h => by simpa using hp₁.trans h

end

end Step

/-- A call of the program, and what it finds. -/
structure Call where
  args : List String
  files : String → Option ByteArray
  input : ByteArray

namespace Call

def report (c : Call) : Report :=
  run c.args c.files c.input

/-- A call succeeds if its file can be printed. -/
theorem succeeds_of_prints {c : Call} {o : Options} {name src : String} {text : List Char}
    (hargs : Command.parse c.args = .format o) (hfiles : o.files = [name])
    (hsrc : contents c.files c.input name = some src)
    (htext : ∀ p, p.factory.Faithful →
      Step.Reaches (if o.lex then Step.tokens o src else Step.terms o (Written.parseAll src)) p
        fun _ p' => Step.Prints p p' text)
    (hle : o.capacity ≤ maxCapacity) :
    c.report.ending = .success ∧ c.report.output = String.ofList text := by
  have hnew := Factory.faithful_withCapacity o.capacity
  obtain ⟨u, p, heq, hp⟩ := Step.reaches_all (p := ⟨.withCapacity o.capacity, [], [], c.input⟩)
    hnew hsrc htext hfiles
  simp only [report, run, hargs, if_neg (Nat.not_lt.mpr hle), heq]
  exact ⟨trivial, congrArg String.ofList hp.output⟩

end Call

end Format

end StrategicRewriting
