import Abacus.Proofs.Decimal.Scanning

/-!
# The lexemes of a text

What text is what lexeme is said by itself here, together with what may not follow it
(`Lexeme.Matches`): a numeral and a word are not continued, and a symbol is the longest one. A
lexeme is cut off the front of a text if and only if it stands there (`Lexeme.next?_eq_some_iff`).

White space and the end of the text continue nothing. So a lexeme stays what it is if the text
behind it is interrupted, at once or further on (`Lexeme.Matches.interrupted`).
-/

namespace Abacus

namespace Operator

/-- These are the characters of the symbols. -/
theorem forall_mem_symbol {P : Char → Prop}
    (h : ∀ c ∈ ['*', '=', '!', '<', '>', '&', '|', '+', '-', '/', '^'], P c) :
    ∀ p ∈ symbols, ∀ c ∈ p.1, P c := by
  have hsubset : ∀ p ∈ symbols, p.1 ⊆ ['*', '=', '!', '<', '>', '&', '|', '+', '-', '/', '^'] := by
    decide
  exact fun p hp c hc => h c (hsubset p hp hc)

theorem length_symbols : symbols.Pairwise fun p q => q.1.length ≤ p.1.length := by decide

theorem symbols_injective : ∀ p ∈ symbols, ∀ q ∈ symbols, p.1 = q.1 → p = q := by decide

/-- The symbol at the front of a text is the longest one there. -/
theorem symbol?_eq_some_iff {cs rest : List Char} {o : Operator} :
    symbol? cs = some (o, rest) ↔ ∃ w, cs = w ++ rest ∧ (w, o) ∈ symbols ∧
      ∀ p ∈ symbols, p.1 <+: cs → p.1.length ≤ w.length := by
  -- the first symbol of the list that stands at the front is the longest
  have longest {p : List Char × Operator} (hp : symbols.find? (·.1.isPrefixOf cs) = some p) :
      p.1 <+: cs ∧ p ∈ symbols ∧ ∀ q ∈ symbols, q.1 <+: cs → q.1.length ≤ p.1.length := by
    obtain ⟨hpre, as, bs, hsymbols, has⟩ := List.find?_eq_some_iff_append.1 hp
    refine ⟨List.isPrefixOf_iff_prefix.1 hpre, List.mem_of_find?_eq_some hp, fun q hq hcs => ?_⟩
    have hpairs := length_symbols
    rw [hsymbols, List.pairwise_append] at hpairs
    rw [hsymbols, List.mem_append, List.mem_cons] at hq
    rcases hq with hq | rfl | hq
    · have hno := has q hq
      rw [List.isPrefixOf_iff_prefix.2 hcs] at hno
      cases hno
    · exact Nat.le_refl _
    · exact (List.pairwise_cons.1 hpairs.2.1).1 q hq
  constructor
  · intro h
    obtain ⟨p, hp, heq⟩ := Option.map_eq_some_iff.1 h
    obtain ⟨⟨tail, rfl⟩, hmem, hlongest⟩ := longest hp
    cases heq
    exact ⟨p.1, by rw [List.drop_left], hmem, hlongest⟩
  · rintro ⟨w, rfl, hmem, hlongest⟩
    have hw : w <+: w ++ rest := List.prefix_append w rest
    have hsome : (symbols.find? (·.1.isPrefixOf (w ++ rest))).isSome :=
      List.find?_isSome.2 ⟨(w, o), hmem, List.isPrefixOf_iff_prefix.2 hw⟩
    obtain ⟨p, hp⟩ := Option.isSome_iff_exists.1 hsome
    obtain ⟨hpre, hp', hlongest'⟩ := longest hp
    have hlength : p.1.length = w.length :=
      le_antisymm (hlongest p hp' hpre) (hlongest' (w, o) hmem hw)
    obtain rfl := symbols_injective p hp' (w, o) hmem
      ((List.prefix_of_prefix_length_le hpre hw hlength.le).eq_of_length hlength)
    rw [symbol?, hp]
    simp

end Operator

namespace Lexeme

open Decimal (Numeral isDigit IsPower StartsPower)

variable {cs w rest rest' : List Char} {l : Lexeme}

/-! ### What text is what lexeme -/

/-- The texts of the lexemes that are written in one way only. -/
def marks : List (List Char × Lexeme) :=
  [(['('], opening .round), ([')'], closing .round), (['\x7b'], opening .curly),
    (['\x7d'], closing .curly), ([','], comma), ([':', '='], define)]

/-- The text `w` in front of `rest` is the lexeme `l`. -/
inductive Matches : Lexeme → List Char → List Char → Prop
  | mark {l : Lexeme} {w rest : List Char} (h : (w, l) ∈ marks) : Matches l w rest
  | number {n : Numeral} {w rest : List Char} (h : n.IsText w) (hrest : ¬ n.Continues rest)
      (hpercent : '%' ∉ rest.head?) : Matches (number (n.value false)) w rest
  | percent {n : Numeral} {w rest : List Char} (h : n.IsText w) :
      Matches (number (n.value true)) (w ++ ['%']) rest
  | word {w rest : List Char} (h : isName w) (hrest : ∀ c ∈ rest.head?, isWordChar c = false) :
      Matches (word (String.ofList w)) w rest
  | symbol {o : Operator} {w rest : List Char} (h : (w, o) ∈ Operator.symbols)
      (hrest : ∀ p ∈ Operator.symbols, p.1 <+: w ++ rest → p.1.length ≤ w.length) :
      Matches (symbol o) w rest

theorem exists_of_number? {v : Value} (h : number? cs = some (v, rest)) :
    ∃ w, cs = w ++ rest ∧ Matches (number v) w rest := by
  unfold number? at h
  split at h
  · next hscan =>
    cases h
    obtain ⟨w, rfl, hw, -⟩ := Numeral.exists_of_scan? hscan
    exact ⟨w ++ ['%'], by simp, .percent hw⟩
  · next hpercent hscan =>
    cases h
    obtain ⟨w, rfl, hw, hrest⟩ := Numeral.exists_of_scan? hscan
    refine ⟨w, rfl, .number hw hrest fun hhead => ?_⟩
    obtain ⟨tail, rfl⟩ := List.head?_eq_some_iff.1 hhead
    exact hpercent _ rfl
  · cases h

theorem exists_of_word? {x : String} (h : word? cs = some (x, rest)) :
    ∃ w, cs = w ++ rest ∧ Matches (word x) w rest := by
  cases cs with
  | nil => cases h
  | cons c cs =>
    simp only [word?] at h
    split at h
    · next hstart =>
      cases h
      refine ⟨c :: cs.takeWhile isWordChar, ?_, .word ?_ ?_⟩
      · simp [List.takeWhile_append_dropWhile]
      · rw [isName, hstart, Bool.true_and, List.all_eq_true]
        exact fun d hd => List.mem_takeWhile_imp hd
      · exact head?_dropWhile isWordChar cs
    · cases h

/-- What is cut off the front of a text stands there. -/
theorem exists_of_next? (h : next? cs = some (l, rest)) :
    ∃ w, cs = w ++ rest ∧ Matches l w rest := by
  unfold next? at h
  split at h
  case h_6 =>
    cases h
    exact ⟨[':', '='], rfl, .mark (by simp [marks])⟩
  case h_7 =>
    split at h
    · next hnumber =>
      cases h
      exact exists_of_number? hnumber
    · split at h
      · next hword =>
        cases h
        exact exists_of_word? hword
      · obtain ⟨⟨o, tail⟩, hsymbol, heq⟩ := Option.map_eq_some_iff.1 h
        cases heq
        obtain ⟨w, rfl, hmem, hlongest⟩ := Operator.symbol?_eq_some_iff.1 hsymbol
        exact ⟨w, rfl, .symbol hmem hlongest⟩
  all_goals
    cases h
    exact ⟨_, List.singleton_append.symm, .mark (by simp [marks])⟩

/-! ### What is cut off the front of a text -/

/-- A numeral is tried as one. -/
theorem next?_eq_number? {n : Numeral} (h : n.IsText w) (rest : List Char) {v : Value}
    {tail : List Char} (hnumber : number? (w ++ rest) = some (v, tail)) :
    next? (w ++ rest) = some (number v, tail) := by
  obtain ⟨c, cs, rfl, hc⟩ := h.exists_cons
  have hpunctuation : isPunctuation c = false := by
    rcases hc with hc | rfl
    · exact not_isPunctuation_of_isWordChar (isWordChar_of_isDigit hc)
    · rfl
  rw [List.cons_append] at hnumber ⊢
  rw [next?_of_not_isPunctuation hpunctuation, hnumber]

/-- A percent sign does not continue a numeral. -/
theorem not_continues_percent (n : Numeral) (rest : List Char) : ¬ n.Continues ('%' :: rest) := by
  rintro (⟨c, ⟨⟩, hd⟩ | ⟨-, ⟨e, power, hpower, hpre⟩ | ⟨-, hpoint⟩⟩)
  · cases hd
  · cases hpower with
    | written hmark => rcases hmark with rfl | rfl <;> cases (List.cons_prefix_cons.1 hpre).1
  · cases hpoint

/-- What stands at the front of a text is cut off it. -/
theorem Matches.next?_append (h : Matches l w rest) : next? (w ++ rest) = some (l, rest) := by
  cases h with
  | mark h =>
    simp only [marks, List.mem_cons, Prod.mk.injEq, List.not_mem_nil, or_false] at h
    rcases h with ⟨rfl, rfl⟩ | ⟨rfl, rfl⟩ | ⟨rfl, rfl⟩ | ⟨rfl, rfl⟩ | ⟨rfl, rfl⟩ | ⟨rfl, rfl⟩ <;>
      rfl
  | @number n _ _ h hrest hpercent =>
    refine next?_eq_number? h rest ?_
    rw [number?, Numeral.scan?_append h hrest]
    split
    · next heq =>
      cases heq
      exact absurd rfl hpercent
    · next heq =>
      cases heq
      rfl
    · next heq => cases heq
  | @percent n w _ h =>
    rw [List.append_assoc, List.singleton_append]
    refine next?_eq_number? h _ ?_
    rw [number?, Numeral.scan?_append h (not_continues_percent n _)]
    rfl
  | word h hrest => exact next?_word h hrest
  | @symbol o _ _ h hrest =>
    have hsymbol := Operator.symbol?_eq_some_iff.2 ⟨w, rfl, h, hrest⟩
    obtain ⟨c, cs, rfl⟩ := List.exists_cons_of_ne_nil (Operator.symbols_nonempty _ h)
    have hheads : ∀ p ∈ Operator.symbols, ∀ c ∈ p.1,
        isPunctuation c = false ∧ continuesOperand c = false :=
      Operator.forall_mem_symbol (by simp [isPunctuation, continuesOperand, isWordChar])
    obtain ⟨hpunctuation, hc⟩ := hheads _ h c List.mem_cons_self
    rw [List.cons_append] at hsymbol ⊢
    rw [next?_eq_symbol? hpunctuation hc, hsymbol]
    rfl

/-- **What is cut off the front of a text.** -/
theorem next?_eq_some_iff :
    next? cs = some (l, rest) ↔ ∃ w, cs = w ++ rest ∧ Matches l w rest := by
  constructor
  · exact exists_of_next?
  · rintro ⟨w, rfl, h⟩
    exact h.next?_append

/-- All lexemes are written in ASCII. -/
theorem Matches.isAscii (h : Matches l w rest) : ∀ c ∈ w, c.toNat < 128 := by
  have hword : ∀ c, isWordChar c → c.toNat < 128 := fun c hc => by
    have := range_of_isWordChar hc
    omega
  have hnumeral {n : Numeral} {w : List Char} (hn : n.IsText w) : ∀ c ∈ w, c.toNat < 128 :=
    hn.forall_mem (fun c hc => hword c (isWordChar_of_isDigit hc)) (by simp)
  cases h with
  | mark h =>
    have hmarks : ∀ p ∈ marks, ∀ c ∈ p.1, c.toNat < 128 := by simp [marks]
    exact hmarks _ h
  | number h => exact hnumeral h
  | percent h => exact List.forall_mem_append.2 ⟨hnumeral h, by simp⟩
  | word h => exact fun c hc => hword c (isWordChar_of_isName h hc)
  | symbol h => exact Operator.forall_mem_symbol (by simp) _ h

/-! ### White space behind a lexeme -/

/-- The text `rest'` goes on like `rest` until it ends or has white space. -/
inductive Interrupted : List Char → List Char → Prop
  | here {rest rest' : List Char} (h : ∀ c ∈ rest'.head?, isBlank c) : Interrupted rest rest'
  | cons {rest rest' : List Char} (c : Char) (h : Interrupted rest rest') :
      Interrupted (c :: rest) (c :: rest')

theorem Interrupted.append (h : Interrupted rest rest') (w : List Char) :
    Interrupted (w ++ rest) (w ++ rest') := by
  induction w with
  | nil => exact h
  | cons c w ih => exact ih.cons c

/-- What starts an interrupted text and has no white space starts the text before it was
interrupted. -/
theorem Interrupted.prefix_of (h : Interrupted rest rest') (hw : ∀ c ∈ w, isBlank c = false)
    (hpre : w <+: rest') : w <+: rest := by
  induction h generalizing w with
  | here h =>
    cases w with
    | nil => exact List.nil_prefix
    | cons c w =>
      -- it would start with white space
      obtain ⟨tail, rfl⟩ := hpre
      have hblank := h c rfl
      rw [hw c List.mem_cons_self] at hblank
      cases hblank
  | cons c _ ih =>
    cases w with
    | nil => exact List.nil_prefix
    | cons d w =>
      obtain ⟨rfl, htail⟩ := List.cons_prefix_cons.1 hpre
      exact List.cons_prefix_cons.2 ⟨rfl, ih (fun c hc => hw c (List.mem_cons_of_mem d hc)) htail⟩

theorem Interrupted.mem_head? (h : Interrupted rest rest') {c : Char} (hc : isBlank c = false)
    (hmem : c ∈ rest'.head?) : c ∈ rest.head? := by
  obtain ⟨tail, rfl⟩ := List.head?_eq_some_iff.1 hmem
  have hpre : [c] <+: c :: tail := List.cons_prefix_cons.2 ⟨rfl, List.nil_prefix⟩
  obtain ⟨tail', rfl⟩ := h.prefix_of (by simpa using hc) hpre
  rfl

/-- **A lexeme does not depend on what follows behind white space.** -/
theorem Matches.interrupted (h : Matches l w rest) (hrest : Interrupted rest rest') :
    Matches l w rest' := by
  cases h with
  | mark h => exact .mark h
  | number h hcontinues hpercent =>
    refine .number h ?_ fun hmem => hpercent (hrest.mem_head? rfl hmem)
    have hdigits : ∀ c, isDigit c → isBlank c = false :=
      fun c hc => isBlank_eq_false_of_isWordChar (isWordChar_of_isDigit hc)
    -- what continues the numeral now did so before
    rintro (⟨c, hc, hd⟩ | ⟨hnone, ⟨e, power, hpower, hpre⟩ | ⟨hno, hpoint⟩⟩)
    · exact hcontinues (.inl ⟨c, hrest.mem_head? (hdigits c hd) hc, hd⟩)
    · have hpre' := hrest.prefix_of (hpower.forall_mem hdigits (by simp [isBlank])) hpre
      exact hcontinues (.inr ⟨hnone, .inl ⟨e, power, hpower, hpre'⟩⟩)
    · exact hcontinues (.inr ⟨hnone, .inr ⟨hno, hrest.mem_head? rfl hpoint⟩⟩)
  | percent h => exact .percent h
  | word h hword =>
    refine .word h fun c hc => Bool.eq_false_iff.2 fun hd => ?_
    have hfalse := hword c (hrest.mem_head? (isBlank_eq_false_of_isWordChar hd) hc)
    rw [hd] at hfalse
    cases hfalse
  | symbol h hlongest =>
    have hsymbols : ∀ p ∈ Operator.symbols, ∀ c ∈ p.1, isBlank c = false :=
      Operator.forall_mem_symbol (by simp [isBlank])
    exact .symbol h fun p hp hpre =>
      hlongest p hp ((hrest.append w).prefix_of (hsymbols p hp) hpre)

/-- What is cut off the front of a text is cut off it too where the text behind is interrupted. -/
theorem Interrupted.next?_append (h : Interrupted rest rest')
    (hl : next? (w ++ rest) = some (l, rest)) : next? (w ++ rest') = some (l, rest') := by
  obtain ⟨w', heq, hmatch⟩ := exists_of_next? hl
  obtain rfl := List.append_cancel_right heq
  exact (hmatch.interrupted h).next?_append

end Lexeme

end Abacus
