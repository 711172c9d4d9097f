import Abacus.Proofs.Text.Lexemes
import Mathlib.Data.List.TakeWhile

/-!
# What is scanned as a numeral

The texts of a numeral are described by themselves: digits, maybe a point and more digits, maybe a
power of ten (`Numeral.IsText`). A numeral is scanned from the front of a text if and only if one of
its texts stands there and what stands behind it does not continue it (`Numeral.scan?_eq_some_iff`).
What would continue it are a digit, the first point, and a power of ten (`Numeral.Continues`). A
mark `e` alone does not, nor does one with a sign.
-/

namespace Abacus

/-- What is left where all with a property is dropped from the front starts with what lacks it. -/
theorem head?_dropWhile {α : Type} (p : α → Bool) (as : List α) :
    ∀ a ∈ (as.dropWhile p).head?, p a = false := by
  intro a ha
  have h := List.head?_dropWhile_not p as
  rw [Option.mem_def.1 ha] at h
  exact h

namespace Decimal

open Lexeme (span_append)

/-! ### Powers of ten -/

/-- The signs of a power of ten, with whether they make it negative. -/
def signs : List (List Char × Bool) := [([], false), (['+'], false), (['-'], true)]

/-- The texts of a power of ten: a mark, a sign and digits, or nothing if there is no power. -/
inductive IsPower : Option Int → List Char → Prop
  | absent : IsPower none []
  | written {mark : Char} {sign ds : List Char} {negative : Bool} (hmark : mark = 'e' ∨ mark = 'E')
      (hsign : (sign, negative) ∈ signs) (hne : ds ≠ []) (hds : ∀ d ∈ ds, isDigit d) :
      IsPower (some (if negative then -(ofDigits ds : Int) else ofDigits ds))
        (mark :: (sign ++ ds))

/-- A power of ten has digits, marks and signs in it. -/
theorem IsPower.forall_mem {e : Option Int} {text : List Char} (h : IsPower e text)
    {P : Char → Prop} (hdigit : ∀ c, isDigit c → P c) (hmarks : ∀ c ∈ ['e', 'E', '+', '-'], P c) :
    ∀ c ∈ text, P c := by
  cases h with
  | absent => exact List.forall_mem_nil _
  | @written mark sign ds _ hmark hsign _ hds =>
    have hsigns : ∀ p ∈ signs, p.1 ⊆ ['e', 'E', '+', '-'] := by decide
    refine List.forall_mem_cons.2 ⟨hmarks mark ?_, List.forall_mem_append.2
      ⟨fun c hc => hmarks c (hsigns _ hsign hc), fun d hd => hdigit d (hds d hd)⟩⟩
    rcases hmark with rfl | rfl <;> decide

/-- A text with a power of ten at the front. -/
def StartsPower (cs : List Char) : Prop := ∃ e power, IsPower (some e) power ∧ power <+: cs

/-- A power of ten is scanned as it is written. -/
theorem scanPower_append {e : Int} {text rest : List Char} (h : IsPower (some e) text)
    (hrest : ∀ c ∈ rest.head?, isDigit c = false) : scanPower (text ++ rest) = (some e, rest) := by
  cases h with
  | @written mark sign ds negative hmark hsign hne hds =>
    obtain ⟨htake, hdrop⟩ := span_append hds hrest
    obtain ⟨d, ds, rfl⟩ := List.exists_cons_of_ne_nil hne
    have hd : isDigit d := hds d List.mem_cons_self
    have hminus : d ≠ '-' := by rintro rfl; cases hd
    have hplus : d ≠ '+' := by rintro rfl; cases hd
    rw [List.cons_append] at htake hdrop
    simp only [signs, List.mem_cons, Prod.mk.injEq, List.not_mem_nil, or_false] at hsign
    rcases hsign with ⟨rfl, rfl⟩ | ⟨rfl, rfl⟩ | ⟨rfl, rfl⟩ <;>
      simp [scanPower, hmark, hminus, hplus, htake, hdrop]

theorem scanPower_of_not_startsPower {cs : List Char} (h : ¬ StartsPower cs) :
    scanPower cs = (none, cs) := by
  unfold scanPower
  split
  · next c rest =>
    split
    · next hmark =>
      split
      next negative rest' hsign =>
      obtain ⟨sign, hsigns, rfl⟩ : ∃ sign, (sign, negative) ∈ signs ∧ rest = sign ++ rest' := by
        split at hsign <;> cases hsign
        · exact ⟨['-'], by decide, rfl⟩
        · exact ⟨['+'], by decide, rfl⟩
        · exact ⟨[], by decide, rfl⟩
      split
      · rfl
      · next hne =>
        -- these digits would make it a power
        refine absurd ⟨_, _, .written hmark hsigns hne fun d hd => List.mem_takeWhile_imp hd,
          rest'.dropWhile isDigit, ?_⟩ h
        simp [List.takeWhile_append_dropWhile]
    · rfl
  · rfl

/-- What is scanned as a power of ten is one, and what is left behind does not continue it. -/
theorem exists_of_scanPower {cs rest : List Char} {power : Option Int}
    (h : scanPower cs = (power, rest)) :
    ∃ text, cs = text ++ rest ∧ IsPower power text ∧ (power = none → ¬ StartsPower rest) ∧
      (power ≠ none → ∀ c ∈ rest.head?, isDigit c = false) := by
  by_cases hstarts : StartsPower cs
  · obtain ⟨e, text, hpower, tail, rfl⟩ := hstarts
    cases hpower with
    | @written mark sign ds negative hmark hsign hne hds =>
      -- the power goes on as long as there are digits
      have hall : ∀ d ∈ ds ++ tail.takeWhile isDigit, isDigit d := fun d hd =>
        (List.mem_append.1 hd).elim (hds d) List.mem_takeWhile_imp
      have hpower := IsPower.written hmark hsign (List.append_ne_nil_of_left_ne_nil hne _) hall
      have hends := head?_dropWhile isDigit tail
      have hscan := scanPower_append hpower hends
      have htext : mark :: (sign ++ (ds ++ tail.takeWhile isDigit)) ++ tail.dropWhile isDigit =
          mark :: (sign ++ ds) ++ tail := by
        simp [List.takeWhile_append_dropWhile]
      rw [htext, h] at hscan
      cases hscan
      exact ⟨_, htext.symm, hpower, nofun, fun _ => hends⟩
  · rw [scanPower_of_not_startsPower hstarts] at h
    cases h
    exact ⟨[], rfl, .absent, fun _ => hstarts, fun h => absurd rfl h⟩

/-! ### Numerals -/

namespace Numeral

variable {n : Numeral} {cs text rest : List Char}

/-- The texts of a numeral: digits around an optional point, and a power of ten. -/
structure IsText (n : Numeral) (text : List Char) : Prop where
  whole : ∀ c ∈ n.whole, isDigit c
  decimals : ∀ c ∈ n.decimals, isDigit c
  digits : n.whole ≠ [] ∨ n.decimals ≠ []
  decimals_eq_nil : n.hasPoint = false → n.decimals = []
  eq_append : ∃ power, IsPower n.power power ∧
    text = n.whole ++ ((if n.hasPoint then '.' :: n.decimals else []) ++ power)

/-- A text that continues a numeral in front of it. -/
def Continues (n : Numeral) (rest : List Char) : Prop :=
  (∃ c ∈ rest.head?, isDigit c) ∨
    n.power = none ∧ (StartsPower rest ∨ n.hasPoint = false ∧ '.' ∈ rest.head?)

/-- A numeral has digits, a point and a power in it. -/
theorem IsText.forall_mem (h : n.IsText text) {P : Char → Prop} (hdigit : ∀ c, isDigit c → P c)
    (hmarks : ∀ c ∈ ['.', 'e', 'E', '+', '-'], P c) : ∀ c ∈ text, P c := by
  obtain ⟨power, hpower, rfl⟩ := h.eq_append
  have hpower' := hpower.forall_mem hdigit fun c hc => hmarks c (List.mem_cons_of_mem _ hc)
  refine List.forall_mem_append.2 ⟨fun c hc => hdigit c (h.whole c hc),
    List.forall_mem_append.2 ⟨?_, hpower'⟩⟩
  split
  · exact List.forall_mem_cons.2
      ⟨hmarks _ List.mem_cons_self, fun c hc => hdigit c (h.decimals c hc)⟩
  · exact List.forall_mem_nil _

/-- A numeral starts with a digit or a point. -/
theorem IsText.exists_cons (h : n.IsText text) :
    ∃ c cs, text = c :: cs ∧ (isDigit c ∨ c = '.') := by
  obtain ⟨power, -, rfl⟩ := h.eq_append
  cases hwhole : n.whole with
  | cons d ds =>
    refine ⟨d, _, rfl, .inl (h.whole d ?_)⟩
    rw [hwhole]
    exact List.mem_cons_self
  | nil =>
    cases hpoint : n.hasPoint with
    | true => exact ⟨'.', _, rfl, .inr rfl⟩
    | false =>
      have hdecimals := h.decimals_eq_nil hpoint
      exact absurd hwhole (h.digits.resolve_right fun hne => hne hdecimals)

/-- A numeral is scanned as it is written. -/
theorem scan?_append (h : n.IsText text) (hrest : ¬ n.Continues rest) :
    scan? (text ++ rest) = some (n, rest) := by
  obtain ⟨whole, hasPoint, decimals, power⟩ := n
  obtain ⟨hwhole, hdecimals, hdigits, hnil, p, hp, rfl⟩ := h
  dsimp only at hwhole hdecimals hdigits hnil hp ⊢
  have hdigit : ∀ c ∈ rest.head?, isDigit c = false :=
    fun c hc => Bool.eq_false_iff.2 fun hd => hrest (.inl ⟨c, hc, hd⟩)
  -- the power ends where the numeral does, and it starts neither with a digit nor with a point
  have hpower : scanPower (p ++ rest) = (power, rest) := by
    cases hp with
    | absent => exact scanPower_of_not_startsPower fun h => hrest (.inr ⟨rfl, .inl h⟩)
    | written hmark hsign hne hds =>
      exact scanPower_append (.written hmark hsign hne hds) hdigit
  have hends : ∀ c ∈ (p ++ rest).head?, isDigit c = false := by
    cases hp with
    | absent => exact hdigit
    | written hmark =>
      rintro c ⟨⟩
      rcases hmark with rfl | rfl <;> rfl
  have hpoint : hasPoint = false → ∀ tail, p ++ rest ≠ '.' :: tail := by
    rintro rfl tail heq
    cases hp with
    | absent =>
      rw [List.nil_append] at heq
      exact hrest (.inr ⟨rfl, .inr ⟨rfl, by rw [heq]; rfl⟩⟩)
    | written hmark => rcases hmark with rfl | rfl <;> cases heq
  cases hasPoint with
  | true =>
    have hdot : ∀ c ∈ ('.' :: (decimals ++ (p ++ rest))).head?, isDigit c = false := by
      rintro c ⟨⟩
      rfl
    obtain ⟨htake, hdrop⟩ := span_append hwhole hdot
    obtain ⟨htake', hdrop'⟩ := span_append hdecimals hends
    have htext : whole ++ ('.' :: decimals ++ p) ++ rest =
        whole ++ '.' :: (decimals ++ (p ++ rest)) := by simp
    rw [if_pos rfl, htext, scan?]
    cases whole with
    | nil =>
      have hne : decimals ≠ [] := hdigits.resolve_left fun h => h rfl
      simp only [htake, hdrop, htake', hdrop', hpower, List.isEmpty_iff, hne, if_false]
    | cons d ds => simp only [htake, hdrop, htake', hdrop', hpower]
  | false =>
    obtain rfl : decimals = [] := hnil rfl
    obtain ⟨htake, hdrop⟩ := span_append hwhole hends
    have hne : whole ≠ [] := hdigits.resolve_right fun h => h rfl
    obtain ⟨d, ds, rfl⟩ := List.exists_cons_of_ne_nil hne
    have htext : (d :: ds) ++ ([] ++ p) ++ rest = (d :: ds) ++ (p ++ rest) := by simp
    rw [if_neg Bool.false_ne_true, htext, scan?]
    simp only [htake, hdrop]
    split
    · next hnil _ => exact absurd hnil hne
    · next hnil _ => exact absurd hnil hne
    · next heq _ => exact absurd heq (hpoint rfl _)
    · rw [hpower]

/-- Behind the digits of a numeral stands its power, and what is left does not continue it. -/
theorem exists_of_scanPower_digits {whole decimals : List Char} {hasPoint : Bool}
    {power : Option Int} (h : scanPower cs = (power, rest))
    (hdigit : ∀ c ∈ cs.head?, isDigit c = false) (hpoint : hasPoint = false → '.' ∉ cs.head?) :
    ∃ text, cs = text ++ rest ∧ IsPower power text ∧
      ¬ Continues ⟨whole, hasPoint, decimals, power⟩ rest := by
  obtain ⟨text, rfl, hpower, hstarts, hends⟩ := exists_of_scanPower h
  refine ⟨text, rfl, hpower, ?_⟩
  rintro (⟨c, hc, hd⟩ | ⟨hnone, hrest⟩)
  · -- a digit continues neither the digits in front of it nor a power
    have hfalse : isDigit c = false := by
      cases hpower with
      | absent => exact hdigit c hc
      | written => exact hends (Option.some_ne_none _) c hc
    rw [hfalse] at hd
    cases hd
  · rcases hrest with hrest | ⟨hno, hrest⟩
    · exact hstarts hnone hrest
    · cases hnone
      cases hpower
      exact hpoint hno hrest

/-- The text of a numeral with a point. -/
theorem exists_of_decimals {tail : List Char} {power : Option Int}
    (hdrop : cs.dropWhile isDigit = '.' :: tail)
    (hdigits : cs.takeWhile isDigit ≠ [] ∨ tail.takeWhile isDigit ≠ [])
    (hpower : scanPower (tail.dropWhile isDigit) = (power, rest)) :
    ∃ text, cs = text ++ rest ∧
      IsText ⟨cs.takeWhile isDigit, true, tail.takeWhile isDigit, power⟩ text ∧
      ¬ Continues ⟨cs.takeWhile isDigit, true, tail.takeWhile isDigit, power⟩ rest := by
  obtain ⟨p, hp, hispower, hcontinues⟩ := exists_of_scanPower_digits hpower
    (head?_dropWhile isDigit tail) fun h : true = false => absurd h (by decide)
  refine ⟨_, ?_, ⟨fun c hc => List.mem_takeWhile_imp hc, fun c hc => List.mem_takeWhile_imp hc,
    hdigits, nofun, p, hispower, rfl⟩, hcontinues⟩
  calc cs = cs.takeWhile isDigit ++ '.' :: tail := by
        rw [← hdrop, List.takeWhile_append_dropWhile]
    _ = cs.takeWhile isDigit ++ '.' :: (tail.takeWhile isDigit ++ (p ++ rest)) := by
        rw [← hp, List.takeWhile_append_dropWhile]
    _ = _ := by simp

/-- The text of a numeral without a point. -/
theorem exists_of_whole {power : Option Int} (hpoint : '.' ∉ (cs.dropWhile isDigit).head?)
    (hdigits : cs.takeWhile isDigit ≠ [])
    (hpower : scanPower (cs.dropWhile isDigit) = (power, rest)) :
    ∃ text, cs = text ++ rest ∧ IsText ⟨cs.takeWhile isDigit, false, [], power⟩ text ∧
      ¬ Continues ⟨cs.takeWhile isDigit, false, [], power⟩ rest := by
  obtain ⟨p, hp, hispower, hcontinues⟩ :=
    exists_of_scanPower_digits hpower (head?_dropWhile isDigit cs) fun _ => hpoint
  refine ⟨_, ?_, ⟨fun c hc => List.mem_takeWhile_imp hc, List.forall_mem_nil _, .inl hdigits,
    fun _ => rfl, p, hispower, rfl⟩, hcontinues⟩
  calc cs = cs.takeWhile isDigit ++ (p ++ rest) := by rw [← hp, List.takeWhile_append_dropWhile]
    _ = _ := by simp

/-- What is scanned as a numeral is one of its texts, and what is left behind does not continue it.
-/
theorem exists_of_scan? (h : scan? cs = some (n, rest)) :
    ∃ text, cs = text ++ rest ∧ n.IsText text ∧ ¬ n.Continues rest := by
  unfold scan? at h
  simp only at h
  split at h
  · next tail hnil hdrop =>
    split at h
    · cases h
    · next hne =>
      cases h
      rw [List.isEmpty_iff] at hne
      rw [← hnil]
      exact exists_of_decimals hdrop (.inr hne) rfl
  · cases h
  · next hdrop hne =>
    cases h
    exact exists_of_decimals hdrop (.inl hne) rfl
  · next hne hpoint _ =>
    cases h
    refine exists_of_whole (fun hmem => ?_) hne rfl
    obtain ⟨tail, htail⟩ := List.head?_eq_some_iff.1 hmem
    exact hpoint tail htail

/-- **What is scanned as a numeral.** It stands at the front of the text, and nothing behind it
continues it. -/
theorem scan?_eq_some_iff :
    scan? cs = some (n, rest) ↔ ∃ text, cs = text ++ rest ∧ n.IsText text ∧ ¬ n.Continues rest := by
  constructor
  · exact exists_of_scan?
  · rintro ⟨text, rfl, htext, hrest⟩
    exact scan?_append htext hrest

/-! ### Texts of numerals by themselves -/

/-- Nothing does not continue a numeral. -/
theorem not_continues_nil (n : Numeral) : ¬ n.Continues [] := by
  rintro (⟨c, ⟨⟩, -⟩ | ⟨-, ⟨e, power, hpower, hpre⟩ | ⟨-, ⟨⟩⟩⟩)
  cases hpower with
  | written => cases List.prefix_nil.1 hpre

/-- A numeral without a point and without a power is digits alone. -/
theorem IsText.eq_whole (h : n.IsText text) (hinteger : n.isInteger) : text = n.whole := by
  obtain ⟨hpoint, hnone⟩ : n.hasPoint = false ∧ n.power = none := by
    simpa [isInteger] using hinteger
  obtain ⟨power, hpower, rfl⟩ := h.eq_append
  rw [hnone] at hpower
  cases hpower
  simp [hpoint]

/-- A numeral has a point or a mark in it if and only if it has decimals or a power. -/
theorem IsText.exists_mark_iff (h : n.IsText text) :
    (∃ c ∈ text, c = '.' ∨ c = 'e' ∨ c = 'E') ↔ ¬ n.isInteger := by
  constructor
  · rintro ⟨c, hc, hmark⟩ hinteger
    -- otherwise the numeral is digits alone
    rw [h.eq_whole hinteger] at hc
    have hdigit := h.whole c hc
    rcases hmark with rfl | rfl | rfl <;> cases hdigit
  · intro hinteger
    obtain ⟨power, hpower, rfl⟩ := h.eq_append
    cases hpoint : n.hasPoint with
    | true => exact ⟨'.', by simp, .inl rfl⟩
    | false =>
      have hsome : n.power ≠ none := by
        intro hnone
        exact hinteger (by simp [isInteger, hpoint, hnone])
      generalize n.power = p at hpower hsome
      cases hpower with
      | absent => exact absurd rfl hsome
      | @written mark _ _ _ hmark => exact ⟨mark, by simp, .inr hmark⟩

/-- A numeral by itself names a double. -/
theorem IsText.parseDouble? (h : n.IsText text) :
    Decimal.parseDouble? (String.ofList text) = some (n.toDouble false) := by
  have hscan : scan? text = some (n, []) := by
    have happend := scan?_append h n.not_continues_nil
    rwa [List.append_nil] at happend
  obtain ⟨c, cs, rfl, hc⟩ := h.exists_cons
  have htoList : (String.ofList (c :: cs)).toList = c :: cs := String.toList_ofList
  -- it is none of the words and has no sign, since these start with another character
  have hne : c ≠ 'N' ∧ c ≠ 'i' ∧ c ≠ '-' := by
    refine ⟨?_, ?_, ?_⟩ <;> rintro rfl <;> rcases hc with hc | hc <;> cases hc
  unfold Decimal.parseDouble?
  split
  case h_4 =>
    rw [htoList]
    split
    next hsign =>
    split at hsign
    · next heq => exact absurd (List.cons.inj heq).1 hne.2.2
    · cases hsign
      simp only [hscan]
  all_goals
    next heq =>
      rw [heq] at htoList
      simp only [String.reduceToList, List.cons.injEq] at htoList
      simp [← htoList.1] at hne

end Numeral

end Decimal

end Abacus
