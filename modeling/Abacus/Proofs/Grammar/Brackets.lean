import Abacus.Proofs.Grammar.Basic

/-!
# Brackets and commas

Tokens are cut by functions that only count how deep they are nested: `Token.untilClosing` looks for
the bracket that closes a group, `Token.elementsFrom` for the commas outside of all brackets. This
module says what these functions find in tokens whose brackets match. Each of them is related to
`Token.openAfter` by an induction over the tokens in which the level that is counted is the number
of open brackets.

* `Token.group?_append` and `Token.of_group?` — a group is found if and only if it is there;
* `Token.elements_separated` and `Token.separated_elements` — elements are put together with commas
  and taken apart again;
* `Token.exists_braced?_iff` — a list in braces is found if and only if the tokens are one.
-/

namespace Abacus.Token

/-! ### Open brackets -/

/-- Brackets are matched from the left. -/
theorem openAfter_append (opened : List Bracket) (ts us : List Token) :
    openAfter opened (ts ++ us) = (openAfter opened ts).bind (openAfter · us) := by
  fun_induction openAfter opened ts with
  | case1 => rfl
  | case2 opened b ts ih => exact ih
  | case3 => rfl
  | case4 opened c ts ih => simpa [openAfter] using ih
  | case5 b opened c ts hbc => simp [openAfter, hbc]
  | case6 opened t ts hopening hclosing hclosing' ih =>
    rw [List.cons_append, openAfter.eq_5 _ _ _ hopening hclosing hclosing']
    exact ih

/-- What is open further out makes no difference to tokens that do not close it. -/
theorem openAfter_frame {bs rest : List Bracket} {ts : List Token}
    (h : openAfter bs ts = some rest) (opened : List Bracket) :
    openAfter (bs ++ opened) ts = some (rest ++ opened) := by
  induction ts generalizing bs with
  | nil =>
    obtain rfl : bs = rest := by simpa [openAfter] using h
    rfl
  | cons t ts ih =>
    cases t with
    | opening b => exact @ih (b :: bs) h
    | closing c =>
      -- the bracket that is closed is one of `bs`
      cases bs with
      | nil => simp [openAfter] at h
      | cons b bs =>
        by_cases hbc : b = c
        · simp only [openAfter, hbc, ↓reduceIte, List.cons_append] at h ⊢
          exact ih h
        · simp [openAfter, hbc] at h
    | _ => exact ih h

theorem openAfter_cons_of_eq {opened next : List Bracket} {t : Token}
    (h : openAfter opened [t] = some next) (ts : List Token) :
    openAfter opened (t :: ts) = openAfter next ts := by
  change openAfter opened ([t] ++ ts) = _
  rw [openAfter_append, h]
  rfl

/-- One token changes the number of open brackets by its nesting. -/
theorem openAfter_cons {opened final : List Bracket} {t : Token} {ts : List Token}
    (h : openAfter opened (t :: ts) = some final) :
    ∃ next, openAfter opened [t] = some next ∧ (next.length : Int) = opened.length + t.nesting ∧
      openAfter next ts = some final := by
  rw [show t :: ts = [t] ++ ts from rfl, openAfter_append] at h
  obtain ⟨next, hnext, hts⟩ := Option.bind_eq_some_iff.1 h
  refine ⟨next, hnext, ?_, hts⟩
  -- one bracket more, one less, or the same ones
  cases t with
  | opening b =>
    obtain rfl : b :: opened = next := by simpa [openAfter] using hnext
    simp [nesting, isOpening]
  | closing c =>
    cases opened with
    | nil => simp [openAfter] at hnext
    | cons b opened =>
      by_cases hbc : b = c
      · obtain rfl : opened = next := by simpa [openAfter, hbc] using hnext
        simp only [nesting, isOpening, isClosing, List.length_cons, Bool.false_eq_true, ↓reduceIte]
        omega
      · simp [openAfter, hbc] at hnext
  | _ =>
    obtain rfl : opened = next := by simpa [openAfter] using hnext
    simp [nesting, isOpening, isClosing]

theorem nested_nil : Nested [] := rfl

theorem Nested.append {ts us : List Token} (hts : Nested ts) (hus : Nested us) :
    Nested (ts ++ us) := by
  rw [Nested, openAfter_append, hts]
  exact hus

/-- What is left behind tokens with matching brackets has matching brackets as well. -/
theorem Nested.of_append {ts us : List Token} (h : Nested (ts ++ us)) (hts : Nested ts) :
    Nested us := by
  rw [Nested, openAfter_append, hts] at h
  exact h

theorem Nested.op {ts : List Token} (h : Nested ts) (o : Operator) : Nested (.op o :: ts) := h

theorem Nested.comma {ts : List Token} (h : Nested ts) : Nested (.comma :: ts) := h

theorem Nested.inBrackets {ts : List Token} (h : Nested ts) (b : Bracket) :
    Nested (inBrackets b ts) := by
  have hframe : openAfter [b] ts = some [b] := openAfter_frame h [b]
  change openAfter [b] (ts ++ [closing b]) = some []
  rw [openAfter_append, hframe]
  simp [openAfter]

theorem inBrackets_inj {b : Bracket} {ts us : List Token} :
    inBrackets b ts = inBrackets b us ↔ ts = us := by
  simp [inBrackets]

theorem Nested.separated {items : List (List Token)} (h : ∀ item ∈ items, Nested item) :
    Nested (separated items) := by
  induction items with
  | nil => exact nested_nil
  | cons item items ih =>
    have hitem := h item List.mem_cons_self
    have hitems := ih fun i hi => h i (List.mem_cons_of_mem _ hi)
    cases items with
    | nil => exact hitem
    | cons next items => exact hitem.append hitems.comma

/-! ### Groups -/

/-- The counter of `untilClosing` is the number of open brackets, so it is at zero behind tokens
that close all of these. -/
theorem untilClosing_append {bs : List Bracket} {inner : List Token}
    (h : openAfter bs inner = some []) (b : Bracket) (rest : List Token) :
    untilClosing bs.length (inner ++ closing b :: rest) = some (inner, rest) := by
  induction inner generalizing bs with
  | nil =>
    -- nothing is open any more, so the next closing bracket is the one
    obtain rfl : bs = [] := by simpa [openAfter] using h
    rfl
  | cons t inner ih =>
    cases t with
    | opening c => simpa [untilClosing, isOpening, isClosing] using @ih (c :: bs) h
    | closing c =>
      cases bs with
      | nil => simp [openAfter] at h
      | cons d bs =>
        by_cases hdc : d = c
        · have := @ih bs (by simpa [openAfter, hdc] using h)
          simpa [untilClosing, isOpening, isClosing] using this
        · simp [openAfter, hdc] at h
    | _ => simpa [untilClosing, isOpening, isClosing] using ih h

/-- Conversely, the tokens in front of the bracket that is found close what was open, and nothing
else that is open further out. -/
theorem of_untilClosing {bs opened final : List Bracket} {b : Bracket} {ts inner rest : List Token}
    (hu : untilClosing bs.length ts = some (inner, rest))
    (h : openAfter (bs ++ b :: opened) ts = some final) :
    ts = inner ++ closing b :: rest ∧ openAfter bs inner = some [] := by
  induction ts generalizing bs inner with
  | nil => simp [untilClosing] at hu
  | cons t ts ih =>
    cases t with
    | opening c =>
      simp only [untilClosing, isOpening, isClosing, Bool.false_eq_true, ↓reduceIte,
        Option.map_eq_some_iff, Prod.exists, Prod.mk.injEq] at hu
      obtain ⟨i, r, hu, rfl, rfl⟩ := hu
      obtain ⟨rfl, hi⟩ := @ih (c :: bs) i hu h
      exact ⟨rfl, hi⟩
    | closing c =>
      cases bs with
      | nil =>
        -- this is the bracket that is looked for
        simp only [untilClosing, isClosing, ↓reduceIte, List.length_nil, Option.some.injEq,
          Prod.mk.injEq] at hu
        obtain ⟨rfl, rfl⟩ := hu
        by_cases hbc : b = c
        · exact ⟨by rw [hbc]; rfl, rfl⟩
        · simp [openAfter, hbc] at h
      | cons d bs =>
        simp only [untilClosing, isClosing, ↓reduceIte, List.length_cons, Option.map_eq_some_iff,
          Prod.exists, Prod.mk.injEq] at hu
        obtain ⟨i, r, hu, rfl, rfl⟩ := hu
        by_cases hdc : d = c
        · simp only [List.cons_append, openAfter, hdc, ↓reduceIte] at h ⊢
          obtain ⟨rfl, hi⟩ := ih hu h
          exact ⟨rfl, hi⟩
        · simp [openAfter, hdc] at h
    | _ =>
      simp only [untilClosing, isOpening, isClosing, Bool.false_eq_true, ↓reduceIte,
        Option.map_eq_some_iff, Prod.exists, Prod.mk.injEq] at hu
      obtain ⟨i, r, hu, rfl, rfl⟩ := hu
      obtain ⟨rfl, hi⟩ := ih hu h
      exact ⟨rfl, hi⟩

/-- A bracket that is open is closed somewhere if fewer are open in the end. -/
theorem isSome_untilClosing {bs opened final : List Bracket} {b : Bracket} {ts : List Token}
    (h : openAfter (bs ++ b :: opened) ts = some final) (hlen : final.length ≤ opened.length) :
    (untilClosing bs.length ts).isSome := by
  induction ts generalizing bs with
  | nil =>
    -- the bracket would still be open
    obtain rfl : bs ++ b :: opened = final := by simpa [openAfter] using h
    simp only [List.length_append, List.length_cons] at hlen
    omega
  | cons t ts ih =>
    cases t with
    | opening c => simpa [untilClosing, isOpening, isClosing] using @ih (c :: bs) h
    | closing c =>
      cases bs with
      | nil => rfl
      | cons d bs =>
        by_cases hdc : d = c
        · simp only [List.cons_append, openAfter, hdc, ↓reduceIte] at h
          simpa [untilClosing, isClosing] using ih h
        · simp [openAfter, hdc] at h
    | _ => simpa [untilClosing, isOpening, isClosing] using @ih bs h

/-- A group is found behind its opening bracket. -/
theorem group?_append {inner : List Token} (h : Nested inner) (b : Bracket) :
    group? (inner ++ [closing b]) = some inner := by
  have hu := untilClosing_append h b []
  rw [List.length_nil] at hu
  simp only [group?, hu]

/-- What is found behind an opening bracket is its group. -/
theorem of_group? {b : Bracket} {ts inner : List Token} (hg : group? ts = some inner)
    (h : Nested (opening b :: ts)) : ts = inner ++ [closing b] ∧ Nested inner := by
  unfold group? at hg
  split at hg
  · next inner' hu =>
    obtain rfl : inner' = inner := by simpa using hg
    exact @of_untilClosing [] _ _ _ _ _ _ hu h
  · cases hg

/-! ### Elements -/

/-- A list of tokens is one element if no comma stands outside of all brackets. -/
def IsElement (ts : List Token) : Prop := elementsFrom 0 ts = [ts]

/-- There is always a first element, if only an empty one. -/
theorem exists_elementsFrom (level : Int) (ts : List Token) :
    ∃ element rest, elementsFrom level ts = element :: rest := by
  cases ts with
  | nil => exact ⟨[], [], rfl⟩
  | cons t ts =>
    unfold elementsFrom
    split
    · exact ⟨_, _, rfl⟩
    · split <;> exact ⟨_, _, rfl⟩

theorem elements_eq_elementsFrom {ts : List Token} (h : ts ≠ []) :
    elements ts = elementsFrom 0 ts := by
  cases ts with
  | nil => exact absurd rfl h
  | cons t ts => rfl

/-- A comma outside of all brackets starts the next element. -/
theorem elementsFrom_comma (ts : List Token) :
    elementsFrom 0 (.comma :: ts) = [] :: elementsFrom 0 ts := by
  rw [elementsFrom, if_pos ⟨rfl, rfl⟩]

theorem eq_comma_of_isComma {t : Token} (h : t.isComma) : t = .comma := by
  cases t <;> simp_all [isComma]

/-- A token that is no comma outside of all brackets belongs to the first element. -/
theorem elementsFrom_cons {level : Int} {t : Token} (ht : ¬ (level = 0 ∧ t.isComma))
    {ts element : List Token} {rest : List (List Token)}
    (h : elementsFrom (level + t.nesting) ts = element :: rest) :
    elementsFrom level (t :: ts) = (t :: element) :: rest := by
  rw [elementsFrom, if_neg ht, h]

theorem separated_elementsFrom (level : Int) (ts : List Token) :
    separated (elementsFrom level ts) = ts := by
  induction ts generalizing level with
  | nil => rfl
  | cons t ts ih =>
    by_cases ht : level = 0 ∧ t.isComma
    · obtain rfl := ht.1
      obtain rfl := eq_comma_of_isComma ht.2
      obtain ⟨element, rest, hcons⟩ := exists_elementsFrom 0 ts
      rw [elementsFrom_comma, hcons, separated_cons_cons, ← hcons, ih 0]
      rfl
    · -- the token goes back to the front of the first element
      obtain ⟨element, rest, hcons⟩ := exists_elementsFrom (level + t.nesting) ts
      have hts := ih (level + t.nesting)
      rw [elementsFrom_cons ht hcons]
      rw [hcons] at hts
      cases rest with
      | nil => simpa using hts
      | cons next rest => simpa using hts

/-- Elements are put together again by commas. -/
theorem separated_elements (ts : List Token) : separated (elements ts) = ts := by
  cases ts with
  | nil => rfl
  | cons t ts => exact separated_elementsFrom 0 (t :: ts)

/-- An element ends at the first comma behind it. -/
theorem elementsFrom_append_comma {opened : List Bracket} {ts us : List Token}
    (h : openAfter opened ts = some []) (hone : elementsFrom opened.length ts = [ts]) :
    elementsFrom opened.length (ts ++ comma :: us) = ts :: elementsFrom 0 us := by
  induction ts generalizing opened with
  | nil =>
    obtain rfl : opened = [] := by simpa [openAfter] using h
    exact elementsFrom_comma us
  | cons t ts ih =>
    obtain ⟨next, -, hlen, hts⟩ := openAfter_cons h
    by_cases ht : (opened.length : Int) = 0 ∧ t.isComma
    · -- then the tokens would not be one element
      rw [elementsFrom, if_pos ht] at hone
      simp at hone
    · obtain ⟨element, rest, hcons⟩ := exists_elementsFrom ((opened.length : Int) + t.nesting) ts
      rw [elementsFrom_cons ht hcons] at hone
      simp only [List.cons.injEq, true_and] at hone
      obtain ⟨rfl, rfl⟩ := hone
      rw [← hlen] at hcons
      rw [List.cons_append, elementsFrom_cons ht (hlen ▸ ih hts hcons)]

theorem elementsFrom_separated {items : List (List Token)} (hne : items ≠ [])
    (hnested : ∀ item ∈ items, Nested item) (hone : ∀ item ∈ items, IsElement item) :
    elementsFrom 0 (separated items) = items := by
  induction items with
  | nil => exact absurd rfl hne
  | cons item items ih =>
    have hitem : elementsFrom 0 item = [item] := hone item List.mem_cons_self
    cases items with
    | nil => exact hitem
    | cons next items =>
      have hrest := ih (List.cons_ne_nil _ _) (fun i hi => hnested i (List.mem_cons_of_mem _ hi))
        (fun i hi => hone i (List.mem_cons_of_mem _ hi))
      have hcut : elementsFrom 0 (item ++ comma :: separated (next :: items)) =
          item :: elementsFrom 0 (separated (next :: items)) :=
        @elementsFrom_append_comma [] _ _ (hnested item List.mem_cons_self) hitem
      rw [separated_cons_cons, hcut, hrest]

/-- Elements that were put together by commas are found again. -/
theorem elements_separated {items : List (List Token)} (hne : ∀ item ∈ items, item ≠ [])
    (hnested : ∀ item ∈ items, Nested item) (hone : ∀ item ∈ items, IsElement item) :
    elements (separated items) = items := by
  cases items with
  | nil => rfl
  | cons item items =>
    -- no tokens at all would be no element, so here is where empty elements are ruled out
    have hsep : separated (item :: items) ≠ [] := by
      have := hne item List.mem_cons_self
      cases items <;> simp [this]
    rw [elements_eq_elementsFrom hsep, elementsFrom_separated (List.cons_ne_nil _ _) hnested hone]

theorem nested_elementsFrom {opened : List Bracket} {ts element : List Token}
    {rest : List (List Token)} (h : openAfter opened ts = some [])
    (he : elementsFrom opened.length ts = element :: rest) :
    openAfter opened element = some [] ∧ ∀ item ∈ rest, Nested item := by
  induction ts generalizing opened element rest with
  | nil =>
    simp only [elementsFrom, List.cons.injEq] at he
    obtain ⟨rfl, rfl⟩ := he
    exact ⟨h, List.forall_mem_nil _⟩
  | cons t ts ih =>
    obtain ⟨next, hnext, hlen, hts⟩ := openAfter_cons h
    by_cases ht : (opened.length : Int) = 0 ∧ t.isComma
    · -- the comma ends an empty element, and the induction goes on with the next one
      obtain rfl : opened = [] := by simpa using ht.1
      obtain rfl := eq_comma_of_isComma ht.2
      change elementsFrom 0 (.comma :: ts) = _ at he
      rw [elementsFrom_comma] at he
      simp only [List.cons.injEq] at he
      obtain ⟨rfl, rfl⟩ := he
      obtain ⟨first, others, hcons⟩ := exists_elementsFrom 0 ts
      have hnested := @ih [] _ _ h hcons
      rw [hcons]
      exact ⟨rfl, List.forall_mem_cons.2 hnested⟩
    · obtain ⟨first, others, hcons⟩ := exists_elementsFrom ((opened.length : Int) + t.nesting) ts
      rw [elementsFrom_cons ht hcons] at he
      simp only [List.cons.injEq] at he
      obtain ⟨rfl, rfl⟩ := he
      obtain ⟨hfirst, hothers⟩ := ih hts (hlen ▸ hcons)
      refine ⟨?_, hothers⟩
      rw [openAfter_cons_of_eq hnext]
      exact hfirst

/-- Cutting at commas outside of all brackets leaves brackets matched. -/
theorem nested_of_mem_elements {ts item : List Token} (h : Nested ts) (hi : item ∈ elements ts) :
    Nested item := by
  cases ts with
  | nil => cases hi
  | cons t ts =>
    obtain ⟨element, rest, hcons⟩ := exists_elementsFrom 0 (t :: ts)
    obtain ⟨helement, hrest⟩ := @nested_elementsFrom [] _ _ _ h hcons
    rw [elements_eq_elementsFrom (List.cons_ne_nil _ _), hcons] at hi
    rcases List.mem_cons.1 hi with rfl | hi
    · exact helement
    · exact hrest item hi

/-! ### Lists in braces -/

/-- What is in the first of two related lists is related to something in the second. -/
theorem exists_of_mem_left {α β : Type} {R : α → β → Prop} {as : List α} {bs : List β}
    (h : List.Forall₂ R as bs) {a : α} (ha : a ∈ as) : ∃ b ∈ bs, R a b := by
  induction h with
  | nil => cases ha
  | cons hab _ ih =>
    rcases List.mem_cons.1 ha with rfl | ha
    · exact ⟨_, List.mem_cons_self, hab⟩
    · obtain ⟨b, hb, hR⟩ := ih ha
      exact ⟨b, List.mem_cons_of_mem _ hb, hR⟩

/-- Where everything in a list is related to something, the list is related to a list. -/
theorem exists_forall₂ {α β : Type} {R : α → β → Prop} {as : List α} (h : ∀ a ∈ as, ∃ b, R a b) :
    ∃ bs, List.Forall₂ R as bs := by
  induction as with
  | nil => exact ⟨[], .nil⟩
  | cons a as ih =>
    obtain ⟨⟨b, hb⟩, has⟩ := List.forall_mem_cons.1 h
    obtain ⟨bs, hbs⟩ := ih has
    exact ⟨b :: bs, .cons hb hbs⟩

/-- The elements of a list in braces are found if and only if the tokens are one. -/
theorem braced?_eq_some_iff {ts : List Token} (h : Nested ts) {items : List (List Token)} :
    braced? ts = some items ↔
      ∃ inner, ts = inBrackets .curly inner ∧ Nested inner ∧ items = elements inner := by
  constructor
  · intro hb
    unfold braced? at hb
    split at hb
    · obtain ⟨inner, hg, rfl⟩ := Option.map_eq_some_iff.1 hb
      obtain ⟨rfl, hinner⟩ := of_group? hg h
      exact ⟨inner, rfl, hinner, rfl⟩
    · cases hb
  · rintro ⟨inner, rfl, hinner, rfl⟩
    simp only [braced?, inBrackets, group?_append hinner, Option.map_some]

theorem exists_braced?_iff {ts : List Token} (h : Nested ts) :
    (∃ items, braced? ts = some items) ↔ IsBraceList ts := by
  simp only [braced?_eq_some_iff h]
  constructor
  · rintro ⟨_, inner, hts, hinner, -⟩
    exact ⟨inner, hts, hinner⟩
  · rintro ⟨inner, hts, hinner⟩
    exact ⟨_, inner, hts, hinner, rfl⟩

/-- Rows are found if and only if every item is a list in braces. -/
theorem rows?_eq_some_iff {items : List (List Token)} {rows : List (List (List Token))} :
    rows? items = some rows ↔
      List.Forall₂ (fun item row => braced? item = some row) items rows := by
  induction items generalizing rows with
  | nil => cases rows <;> simp [rows?]
  | cons item items ih =>
    cases hb : braced? item with
    | none =>
      -- neither side holds
      cases rows <;> simp [rows?, hb]
    | some row =>
      cases hr : rows? items with
      | none =>
        -- the induction hypothesis says that the other items have no rows
        cases rows with
        | nil => simp [rows?, hb, hr]
        | cons row' rows => simp [rows?, hb, hr, ← ih]
      | some rows' =>
        cases rows with
        | nil => simp [rows?, hb, hr]
        | cons row' rows => simp [rows?, hb, hr, ← ih]

theorem matrixRows?_eq_some_iff {items : List (List Token)} {rows : List (List (List Token))} :
    matrixRows? items = some rows ↔
      items ≠ [] ∧ List.Forall₂ (fun item row => braced? item = some row) items rows := by
  cases items with
  | nil => simp [matrixRows?]
  | cons item items =>
    rw [← rows?_eq_some_iff]
    simp [matrixRows?]

/-- There are no rows of a matrix if there is no element or one that is no list in braces. -/
theorem matrixRows?_eq_none_iff {items : List (List Token)}
    (h : ∀ item ∈ items, Nested item) :
    matrixRows? items = none ↔ items = [] ∨ ∃ item ∈ items, ¬ IsBraceList item := by
  constructor
  · intro hnone
    by_contra hcon
    push Not at hcon
    -- every item is a list in braces, so there are rows after all
    obtain ⟨hne, hall⟩ := hcon
    obtain ⟨rows, hrows⟩ := exists_forall₂ fun item hi =>
      (exists_braced?_iff (h item hi)).2 (hall item hi)
    rw [matrixRows?_eq_some_iff.2 ⟨hne, hrows⟩] at hnone
    cases hnone
  · intro hcase
    cases hm : matrixRows? items with
    | none => rfl
    | some rows =>
      obtain ⟨hne, hrows⟩ := matrixRows?_eq_some_iff.1 hm
      rcases hcase with rfl | ⟨item, hitem, hbrace⟩
      · exact absurd rfl hne
      · obtain ⟨row, -, hrow⟩ := exists_of_mem_left hrows hitem
        exact absurd ((exists_braced?_iff (h item hitem)).1 ⟨row, hrow⟩) hbrace

/-! ### The check of brackets -/

/-- Brackets pass the check if and only if each of them matches. -/
theorem checkBrackets_eq_ok_iff {i : Nat} {opened : List Bracket} {ts : List Token} :
    checkBrackets i opened ts = .ok () ↔ openAfter opened ts = some [] := by
  -- the check keeps the same list of open brackets
  induction ts generalizing i opened with
  | nil => cases opened <;> simp [checkBrackets, openAfter]
  | cons t ts ih =>
    cases t with
    | closing c =>
      cases opened with
      | nil => simp [checkBrackets, openAfter]
      | cons b opened =>
        by_cases hbc : b = c
        · simp [checkBrackets, openAfter, hbc, ih]
        · simp [checkBrackets, openAfter, hbc]
    | _ => simp [checkBrackets, openAfter, ih]

end Abacus.Token
