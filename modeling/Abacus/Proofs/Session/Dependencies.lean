import Abacus.Proofs.Evaluation.Dependencies
import Abacus.Proofs.Session.Coherence

/-!
# What sessions evaluate terms with

Sessions with the same settings, angle unit and converter evaluate a term alike if their bindings
agree on a set of names that the term relies on. In one session such a set stays as it is while
other terms are evaluated, unless it holds the name of the latest answer or a name that is assigned.
So the term can be evaluated again with the same outcome (`Session.evaluateTerm_eq_of_reliesOn`).

`Session.AgreesOn` is what an evaluation preserves: each one agrees with the session that it started
from on the names that it does not bind.
-/

namespace Abacus

/-- Whether a step evaluates something, be it a text, a term or what was compiled. -/
def Command.isEvaluation : Command → Bool
  | evaluate _ | evaluateTerm _ | evaluateCompiled _ | evaluateToNumber _
  | evaluateCompiledToNumber _ => true
  | _ => false

namespace Session

variable {R : Set String} {s s' s'' : Session}

/-! ### Sessions that agree on names -/

/-- Sessions that differ at most in their compiled terms and in what they bind to names outside of
`R`. -/
structure AgreesOn (R : Set String) (s s' : Session) : Prop where
  lookup : ∀ x ∈ R, s.environment.get? x = s'.environment.get? x
  angleUnit : s.environment.angleUnit = s'.environment.angleUnit
  settings : s.settings = s'.settings
  converter : s.converter = s'.converter

namespace AgreesOn

theorem refl (R : Set String) (s : Session) : s.AgreesOn R s := ⟨fun _ _ => rfl, rfl, rfl, rfl⟩

theorem trans (h : s.AgreesOn R s') (h' : s'.AgreesOn R s'') : s.AgreesOn R s'' :=
  ⟨fun x hx => (h.lookup x hx).trans (h'.lookup x hx), h.angleUnit.trans h'.angleUnit,
    h.settings.trans h'.settings, h.converter.trans h'.converter⟩

theorem of_scope_eq (h : s.scope = s'.scope) : s.AgreesOn R s' :=
  ⟨fun x _ => congrArg (·.globals.get? x) h, congrArg Scope.angleUnit h,
    congrArg Scope.settings h, congrArg Scope.converter h⟩

theorem bind (s : Session) {name : String} (v : Value) (hname : name ∉ R) :
    s.AgreesOn R (s.bind name v) where
  lookup x hx := by
    have hne : x ≠ name := fun h => hname (h ▸ hx)
    show s.environment.globals.get? x = (s.environment.globals.insert name v).get? x
    rw [Bindings.get?_insert, if_neg hne]
  angleUnit := rfl
  settings := rfl
  converter := rfl

/-- A term that relies on `R` alone is evaluated alike. -/
theorem evaluateTerm_fst (h : s.AgreesOn R s') {t : Term}
    (ht : t.ReliesOn s.environment.globals R) : (s.evaluateTerm t).1 = (s'.evaluateTerm t).1 := by
  have hscope : s.scope.AgreesOn R s'.scope :=
    ⟨h.lookup, ht.bound, h.angleUnit, h.settings, h.converter⟩
  have hnames : ∀ x ∈ t.names, x ∈ R := fun x hx => ht.names x (Term.mem_identifiers.2 hx)
  have hvalue : s.valueOf t = s'.valueOf t := by
    unfold valueOf
    split
    · rfl
    · -- the names and functions of an assignment are those of the assigned term
      next name u _ => rw [hscope.eval_eq (t := u) ⟨hnames, ht.functions⟩]
    · rw [hscope.eval_eq ⟨hnames, ht.functions⟩]
  unfold evaluateTerm
  rw [hvalue]
  cases s'.valueOf t <;> rfl

end AgreesOn

/-! ### Evaluations in between -/

/-- The term that a step evaluates. There is none if the step is no evaluation or cannot get hold of
a term. -/
def evaluated? (s : Session) : Command → Option Term
  | .evaluate text | .evaluateToNumber text => (s.parse text).toOption
  | .evaluateTerm t => some t
  | .evaluateCompiled handle | .evaluateCompiledToNumber handle => (s.refresh handle).1.toOption
  | _ => none

/-- The name that a step assigns the value to which it evaluates its term. -/
def assigned? (s : Session) (command : Command) : Option String :=
  match (s.evaluated? command).map s.valueOf with
  | some (.ok (name, _)) => name
  | _ => none

/-- All steps of a run are evaluations, and none of them assigns to a name in `R`. -/
def EvaluatesOutside (R : Set String) (s : Session) : List Command → Prop
  | [] => True
  | command :: commands =>
    command.isEvaluation ∧ (∀ name, s.assigned? command = some name → name ∉ R) ∧
      (s.run command).2.EvaluatesOutside R commands

instance decidableEvaluatesOutside (names : List String) :
    (s : Session) → (commands : List Command) →
      Decidable (s.EvaluatesOutside {x | x ∈ names} commands)
  | _, [] => .isTrue trivial
  | s, command :: commands =>
    have := decidableEvaluatesOutside names (s.run command).2 commands
    decidable_of_iff
      (command.isEvaluation ∧ (∀ name ∈ s.assigned? command, name ∉ names) ∧
        (s.run command).2.EvaluatesOutside {x | x ∈ names} commands)
      Iff.rfl

/-- An evaluation binds the latest answer and the name that it assigns to. -/
theorem agreesOn_evaluateTerm (s : Session) {t : Term} (hanswer : Environment.answerName ∉ R)
    (hassigned : ∀ name v, s.valueOf t = .ok (some name, v) → name ∉ R) :
    s.AgreesOn R (s.evaluateTerm t).2 := by
  unfold evaluateTerm
  cases hvalue : s.valueOf t with
  | error fault => exact .refl R s
  | ok r =>
    obtain ⟨name, v⟩ := r
    cases name with
    | none => exact .bind s v hanswer
    | some name => exact (AgreesOn.bind s v (hassigned name v hvalue)).trans (.bind _ v hanswer)

theorem agreesOn_evaluate (s : Session) {text : String} (hanswer : Environment.answerName ∉ R)
    (hassigned : ∀ t, s.parse text = .ok t →
      ∀ name v, s.valueOf t = .ok (some name, v) → name ∉ R) :
    s.AgreesOn R (s.evaluate text).2 := by
  unfold evaluate
  cases hparse : s.parse text with
  | error fault => exact .refl R s
  | ok t => exact s.agreesOn_evaluateTerm hanswer (hassigned t hparse)

theorem agreesOn_evaluateCompiled (s : Session) {handle : Nat}
    (hanswer : Environment.answerName ∉ R)
    (hassigned : ∀ t, (s.refresh handle).1 = .ok t →
      ∀ name v, s.valueOf t = .ok (some name, v) → name ∉ R) :
    s.AgreesOn R (s.evaluateCompiled handle).2 := by
  have hscope := s.scope_refresh handle
  have hrefresh : s.AgreesOn R (s.refresh handle).2 := .of_scope_eq hscope.symm
  unfold evaluateCompiled
  cases hr : s.refresh handle with
  | mk outcome s' =>
    rw [hr] at hscope hrefresh hassigned
    cases outcome with
    | error fault => exact hrefresh
    | ok t =>
      -- reading the text again changes nothing that the value depends on
      have hname := hassigned t rfl
      rw [← valueOf_congr hscope t] at hname
      exact hrefresh.trans (s'.agreesOn_evaluateTerm hanswer hname)

/-- What an evaluation leaves behind agrees with what it found on the names in `R`, unless it binds
one of them. -/
theorem agreesOn_run (s : Session) {command : Command} (hevaluation : command.isEvaluation)
    (hanswer : Environment.answerName ∉ R)
    (hassigned : ∀ name, s.assigned? command = some name → name ∉ R) :
    s.AgreesOn R (s.run command).2 := by
  have hterm : ∀ t, s.evaluated? command = some t →
      ∀ name v, s.valueOf t = .ok (some name, v) → name ∉ R := by
    intro t ht name v hv
    refine hassigned name ?_
    simp only [assigned?, ht, Option.map_some, hv]
  cases command with
  | evaluate text | evaluateToNumber text =>
    refine s.agreesOn_evaluate hanswer fun t ht => hterm t ?_
    simp only [evaluated?, ht]
    rfl
  | evaluateTerm t => exact s.agreesOn_evaluateTerm hanswer (hterm t rfl)
  | evaluateCompiled handle | evaluateCompiledToNumber handle =>
    refine s.agreesOn_evaluateCompiled hanswer fun t ht => hterm t ?_
    simp only [evaluated?, ht]
    rfl
  | _ => cases hevaluation

theorem agreesOn_runAll (hanswer : Environment.answerName ∉ R) {commands : List Command}
    (h : s.EvaluatesOutside R commands) : s.AgreesOn R (s.runAll commands).2 := by
  induction commands generalizing s with
  | nil => exact .refl R s
  | cons command commands ih =>
    obtain ⟨hevaluation, hassigned, hrest⟩ := h
    exact (s.agreesOn_run hevaluation hanswer hassigned).trans (ih hrest)

/-- **Evaluation depends only on the names in the dependency closure.** Let the set `R` hold all
names that a term relies on. Then sessions with the same settings, angle unit and converter that
agree on what is bound to the names in `R` evaluate the term to the same value or fail with the same
fault. If `R` holds neither the name of the latest answer nor a name that is assigned, evaluations
in between make no difference. -/
theorem evaluateTerm_eq_of_reliesOn {t : Term} (ht : t.ReliesOn s.environment.globals R) :
    (∀ s' : Session, s.settings = s'.settings →
      s.environment.angleUnit = s'.environment.angleUnit → s.converter = s'.converter →
      (∀ x ∈ R, s.environment.get? x = s'.environment.get? x) →
      (s.evaluateTerm t).1 = (s'.evaluateTerm t).1) ∧
    ∀ commands, Environment.answerName ∉ R → s.EvaluatesOutside R commands →
      ((s.runAll commands).2.evaluateTerm t).1 = (s.evaluateTerm t).1 := by
  refine ⟨fun s' hsettings hunit hconverter hlookup => ?_, fun commands hanswer h => ?_⟩
  · have hagree : s.AgreesOn R s' := ⟨hlookup, hunit, hsettings, hconverter⟩
    exact hagree.evaluateTerm_fst ht
  · exact ((agreesOn_runAll hanswer h).evaluateTerm_fst ht).symm

/-- Here `g` calls the function `h` that it is given, with names in both bodies. The other session
binds a further name; in the first one there are evaluations in between, one of which assigns a name
and one of which fails. -/
theorem evaluateTerm_eq_of_reliesOn_passed :
    let g : Definition :=
      ⟨"g", ["f", "x"], .binary (.arith .add) (.call "f" [.var "x"]) (.var "k")⟩
    let h : Definition := ⟨"h", ["y"], .binary (.arith .mul) (.literal (.ofInt 2)) (.var "y")⟩
    let definitions : List Command :=
      [.bind "g" (.function g), .bind "h" (.function h), .bind "k" (.ofInt 3)]
    let s := ((start {}).runAll definitions).2
    let s' := ((start {}).runAll (.bind "z" (.ofInt 7) :: definitions)).2
    let between : List Command :=
      [.evaluate "z := k + 1", .evaluateToNumber "g(h, z)", .evaluate "k := 1 / nothing"]
    let R : Set String := {x | x ∈ ["g", "h", "k", "f", "x", "y"]}
    let t := Term.call "g" [.var "h", .literal (.ofInt 5)]
    t.ReliesOn s.environment.globals R ∧
      (∀ x ∈ R, s.environment.get? x = s'.environment.get? x) ∧
      Environment.answerName ∉ R ∧ s.EvaluatesOutside R between ∧
      (s.evaluateTerm t).1.toOption.map Value.text = some "13" ∧
      (s.evaluateTerm t).1 = (s'.evaluateTerm t).1 ∧
      ((s.runAll between).2.evaluateTerm t).1 = (s.evaluateTerm t).1 := by
  intro g h definitions s s' between R t
  have ht : t.ReliesOn s.environment.globals R := by decide +kernel
  have hlookup : ∀ x ∈ R, s.environment.get? x = s'.environment.get? x := by
    intro x hx
    have hne : x ≠ "z" := by rintro rfl; revert hx; decide +kernel
    simp only [s, s', definitions, runAll, run, bind, Environment.bind, Environment.get?,
      Bindings.get?_insert, if_neg hne]
  have hanswer : Environment.answerName ∉ R := by decide +kernel
  have hbetween : s.EvaluatesOutside R between := by decide +kernel
  obtain ⟨hagree, hagain⟩ := evaluateTerm_eq_of_reliesOn ht
  exact ⟨ht, hlookup, hanswer, hbetween, by decide +kernel,
    hagree s' rfl rfl rfl hlookup, hagain between hanswer hbetween⟩

end Session

end Abacus
