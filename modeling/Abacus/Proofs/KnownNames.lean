import Abacus.Environment

/-!
# Which known names matter

A text is read with a list of known names. The list is consulted in one place only,
`Token.ofLexeme`, and there only for words that spell an operator. So two lists that contain the
same ones among the operator spellings of a text (`AgreeOn`) read the text alike:

* `Token.ofText_congr` — the tokens of a text, where the lists need to agree on its words;
* `Term.parse_congr_words` — the term of a text, where they need to agree on the words of the
  expression in it. The names that a definition adds are added to both lists, which keeps the
  agreement;
* `Term.parse_congr` — the same for lists that agree on all operator spellings, whatever the text.

Names that spell no operator are therefore never missed (`Environment.parse_eq_of_spellings`).
-/

namespace Abacus

/-- Two lists of known names that contain the same ones of some words, as far as these spell
operators. -/
def AgreeOn (ws known known' : List String) : Prop :=
  ∀ w ∈ ws, (Operator.find? w).isSome → (w ∈ known ↔ w ∈ known')

/-- Two lists of known names that contain the same spellings of operators. -/
def SameSpellings (known known' : List String) : Prop :=
  ∀ w, (Operator.find? w).isSome → (w ∈ known ↔ w ∈ known')

variable {ws known known' : List String}

theorem SameSpellings.agreeOn (h : SameSpellings known known') (ws : List String) :
    AgreeOn ws known known' :=
  fun w _ => h w

/-- Adding the same names in front keeps the agreement. -/
theorem AgreeOn.append (h : AgreeOn ws known known') (names : List String) :
    AgreeOn ws (names ++ known) (names ++ known') := by
  intro w hw hspells
  rw [List.mem_append, List.mem_append, h w hw hspells]

/-! ### Words -/

/-- The words among lexemes. -/
def Lexeme.wordsOf (ls : List Lexeme) : List String :=
  ls.filterMap fun
    | word w => some w
    | _ => none

theorem Lexeme.mem_wordsOf {w : String} {ls : List Lexeme} :
    w ∈ wordsOf ls ↔ .word w ∈ ls := by
  rw [wordsOf, List.mem_filterMap]
  constructor
  · rintro ⟨l, hl, hw⟩
    cases l <;> cases hw
    exact hl
  · intro hl
    exact ⟨_, hl, rfl⟩

/-- The words that a text is found to have when it is cut into lexemes. A text that is not cut has
none. -/
def Lexeme.words (text : List Char) : List String :=
  match scan text with
  | .ok ls => wordsOf ls
  | .error _ => []

/-- The words of the expression in a text, which is what follows the first `:=` or all of it. -/
def Term.words (text : String) : List String :=
  match Head.split? text.toList with
  | none => Lexeme.words text.toList
  | some (_, body) => Lexeme.words body

/-! ### Tokens -/

namespace Token

/-- The one place at which known names are consulted: a word that spells no operator is a name
either way. -/
theorem ofLexeme_congr {l : Lexeme} (isUnit : Bool)
    (h : AgreeOn (Lexeme.wordsOf [l]) known known') :
    ofLexeme known isUnit l = ofLexeme known' isUnit l := by
  cases l with
  | word w =>
    cases ho : Operator.find? w with
    | none =>
      -- the list is not consulted
      simp [ofLexeme, ho]
    | some o =>
      have hmem : w ∈ known ↔ w ∈ known' := h w List.mem_cons_self (by rw [ho]; rfl)
      simp only [ofLexeme, List.contains_eq_mem, hmem]
  | _ => rfl

theorem ofLexemesFrom_congr {ls : List Lexeme} (groups : List OpenGroup) (converts : Bool)
    (h : AgreeOn (Lexeme.wordsOf ls) known known') :
    ofLexemesFrom known groups converts ls = ofLexemesFrom known' groups converts ls := by
  induction ls generalizing groups converts with
  | nil => rfl
  | cons l ls ih =>
    have hsub : ∀ {ls'}, ls' ⊆ l :: ls → AgreeOn (Lexeme.wordsOf ls') known known' :=
      fun hls w hw => h w (Lexeme.mem_wordsOf.2 (hls (Lexeme.mem_wordsOf.1 hw)))
    have hl : ofLexeme known (inUnitSlot groups) l = ofLexeme known' (inUnitSlot groups) l :=
      ofLexeme_congr _ (hsub (by simp))
    simp only [ofLexemesFrom, hl]
    rw [ih _ _ (hsub (by simp))]

/-- Lists of known names that agree on the words of a text give the same tokens. -/
theorem ofText_congr {text : List Char} (h : AgreeOn (Lexeme.words text) known known') :
    ofText text known = ofText text known' := by
  unfold ofText
  cases hscan : Lexeme.scan text with
  | error fault => rfl
  | ok ls =>
    rw [Lexeme.words, hscan] at h
    have hls : ofLexemes known ls = ofLexemes known' ls := ofLexemesFrom_congr [] false h
    simp only [bind, Except.bind, hls]

end Token

/-! ### Terms -/

namespace Term

theorem ofExpression_congr {text : List Char} (h : AgreeOn (Lexeme.words text) known known') :
    ofExpression text known = ofExpression text known' := by
  simp only [ofExpression, Token.ofText_congr h]

/-- Lists of known names that agree on the words of the expression in a text read the text into the
same term, or find the same fault in it. -/
theorem parse_congr_words {text : String} (h : AgreeOn (words text) known known') :
    parse text known = parse text known' := by
  unfold words at h
  unfold parse
  cases hsplit : Head.split? text.toList with
  | none =>
    rw [hsplit] at h
    exact ofExpression_congr h
  | some parts =>
    rw [hsplit] at h
    obtain ⟨head, body⟩ := parts
    dsimp only
    split
    · rfl
    · rw [ofExpression_congr h]
    · next name parameters _ => rw [ofExpression_congr (h.append (name :: parameters))]

/-- **Only operator spellings matter.** Lists of known names with the same operator spellings read
every text into the same term, or find the same fault in it. -/
theorem parse_congr (h : SameSpellings known known') (text : String) :
    parse text known = parse text known' :=
  parse_congr_words (h.agreeOn (words text))

end Term

/-! ### Bound names -/

namespace Bindings

theorem mem_map_fst_iff (name : String) (entries : List (String × Value)) :
    name ∈ entries.map Prod.fst ↔ (findEntry name entries).isSome := by
  induction entries with
  | nil => simp [findEntry]
  | cons e entries ih =>
    obtain ⟨x, v⟩ := e
    by_cases h : name = x
    · simp [findEntry, h]
    · simp [findEntry, h, ← ih]

/-- The bound names are those under which a value is found. -/
theorem mem_names_iff (b : Bindings) (name : String) : name ∈ b.names ↔ (b.get? name).isSome :=
  mem_map_fst_iff name b.entries

end Bindings

namespace Environment

variable {env : Environment}

theorem mem_names_bind (env : Environment) (name other : String) (v : Value) :
    other ∈ (env.bind name v).names ↔ other = name ∨ other ∈ env.names := by
  simp only [names, bind, Bindings.mem_names_iff, Bindings.get?_insert]
  split <;> simp_all

theorem mem_names_unbind (env : Environment) (name other : String) :
    other ∈ (env.unbind name).names ↔ other ≠ name ∧ other ∈ env.names := by
  simp only [names, unbind, Bindings.mem_names_iff, Bindings.get?_erase]
  split <;> simp_all

/-- Binding a name makes a spelling of an operator known only if the name spells one and was not
bound. -/
theorem sameSpellings_bind {name : String} (v : Value)
    (h : (env.get? name).isSome ∨ Operator.find? name = none) :
    SameSpellings env.names (env.bind name v).names := by
  intro w hw
  rw [mem_names_bind]
  constructor
  · exact .inr
  · rintro (rfl | hmem)
    · rcases h with hbound | hfind
      · exact (Bindings.mem_names_iff _ _).2 hbound
      · -- the name would spell an operator
        rw [hfind] at hw
        cases hw
    · exact hmem

/-- Unbinding a name makes a spelling of an operator unknown only if the name spells one and was
bound. -/
theorem sameSpellings_unbind {name : String}
    (h : ¬ (env.get? name).isSome ∨ Operator.find? name = none) :
    SameSpellings env.names (env.unbind name).names := by
  intro w hw
  rw [mem_names_unbind]
  constructor
  · intro hmem
    refine ⟨?_, hmem⟩
    rintro rfl
    rcases h with hbound | hfind
    · exact hbound ((Bindings.mem_names_iff _ _).1 hmem)
    · rw [hfind] at hw
      cases hw
  · exact And.right

/-- **Only the words that spell operators matter.** A text is read into the same term, or the same
fault is found in it, whenever the same ones of those words of its expression that spell operators
are known. So no text is read differently once a name that spells no operator, such as that of the
latest answer, becomes bound or unbound. -/
theorem parse_eq_of_spellings :
    (∀ (text : String) (known known' : List String),
      (∀ w ∈ Term.words text, (Operator.find? w).isSome → (w ∈ known ↔ w ∈ known')) →
        Term.parse text known = Term.parse text known') ∧
    (∀ (text name : String) (v : Value) (env : Environment), Operator.find? name = none →
      Term.parse text (env.bind name v).names = Term.parse text env.names ∧
        Term.parse text (env.unbind name).names = Term.parse text env.names) ∧
    Operator.find? answerName = none := by
  refine ⟨fun text known known' h => Term.parse_congr_words h, fun text name v env hname => ?_,
    by decide +kernel⟩
  exact ⟨(Term.parse_congr (sameSpellings_bind v (.inr hname)) text).symm,
    (Term.parse_congr (sameSpellings_unbind (.inr hname)) text).symm⟩

/-- The parameter `sum` is known in the body anyway, `max` does not occur in it, and `ans` spells no
operator. -/
theorem parse_eq_of_spellings_shadowed :
    let text := "total(sum) := sum + min(x)"
    let known := ["ans", "sum"]
    let known' := ["sum", "max"]
    (∀ w ∈ Term.words text, (Operator.find? w).isSome → (w ∈ known ↔ w ∈ known')) ∧
      Term.parse text known = Term.parse text known' ∧ Operator.find? "ans" = none ∧
      ∀ (v : Value) (env : Environment),
        Term.parse text (env.bind "ans" v).names = Term.parse text env.names := by
  intro text known known'
  have hwords : Term.words text = ["sum", "min", "x"] := by
    decide +kernel
  have hagree : ∀ w ∈ Term.words text, (Operator.find? w).isSome → (w ∈ known ↔ w ∈ known') := by
    intro w hw _
    rw [hwords] at hw
    simp only [List.mem_cons, List.not_mem_nil, or_false] at hw
    rcases hw with rfl | rfl | rfl <;> simp [known, known']
  obtain ⟨hparse, hbind, hanswer⟩ := parse_eq_of_spellings
  exact ⟨hagree, hparse text _ _ hagree, hanswer, fun v env => (hbind text _ v env hanswer).1⟩

end Environment

end Abacus
