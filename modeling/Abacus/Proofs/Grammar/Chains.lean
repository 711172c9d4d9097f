import Abacus.Proofs.Grammar.Brackets
import Abacus.Proofs.Outcome

/-!
# Where chains are cut

`Chain.marks` finds the binary operations outside of all brackets and `Chain.cut` cuts at those of
one priority. `Token.BindsAtLeast p ts` says that the former succeeds and that every operation it
finds binds at least as tightly as `p`, which is what the grammar asks of the phrases of level `p`.

There are two directions. `Chain.ofTokens_append_left` and `Chain.ofTokens_append_right` say what
the chain of `ts op us` is if that of `ts` or of `us` is known; they follow the grammar.
`Chain.cut_spec` says what the pieces of a chain are: each has matching brackets and contains only
operations that bind more tightly; it follows the tokens. Its second half (`Chain.isSegment_cut`)
needs no matching brackets, since tokens are cut where their level of nesting is zero.
-/

namespace Abacus

/-! ### Priorities -/

namespace BinaryOp

theorem one_le_priority (op : BinaryOp) : 1 ≤ op.priority := by
  cases op with
  | arith op => cases op <;> decide
  | _ => exact Nat.le_of_ble_eq_true rfl

theorem priority_le_five (op : BinaryOp) : op.priority ≤ 5 := by
  cases op with
  | arith op => cases op <;> decide
  | _ => exact Nat.le_of_ble_eq_true rfl

/-- Operations group from the right at the tightest priority only. -/
theorem isRightAssoc_iff (op : BinaryOp) : op.isRightAssoc = true ↔ op.priority = 5 := by
  cases op with
  | arith op => cases op <;> decide
  | _ => exact ⟨nofun, nofun⟩

end BinaryOp

theorem Operator.eq_operator_of_binary? {o : Operator} {op : BinaryOp} (h : o.binary? = some op) :
    o = op.operator := by
  cases o <;> cases h <;> rfl

namespace Chain

open Token (openAfter openAfter_cons openAfter_cons_of_eq Nested nesting)

/-! ### Marks -/

/-- The operations among marked tokens. -/
def operations (ms : List (Token × Option BinaryOp)) : List BinaryOp := ms.filterMap Prod.snd

@[simp] theorem operations_nil : operations [] = [] := rfl

@[simp] theorem operations_cons_none (t : Token) (ms : List (Token × Option BinaryOp)) :
    operations ((t, none) :: ms) = operations ms := rfl

@[simp] theorem operations_cons_some (t : Token) (op : BinaryOp)
    (ms : List (Token × Option BinaryOp)) :
    operations ((t, some op) :: ms) = op :: operations ms := rfl

@[simp] theorem operations_append (ms ns : List (Token × Option BinaryOp)) :
    operations (ms ++ ns) = operations ms ++ operations ns :=
  List.filterMap_append

theorem operations_map_none (ts : List Token) : operations (ts.map (·, none)) = [] := by
  induction ts with
  | nil => rfl
  | cons t ts ih => exact ih

/-- Tokens are marked if and only if the first and the others are. -/
theorem marks_cons_eq_ok_iff {level : Int} {previous : Option Token} {t : Token} {ts : List Token}
    {ms : List (Token × Option BinaryOp)} :
    marks level previous (t :: ts) = .ok ms ↔
      ∃ m ms', mark level previous t = .ok m ∧ marks (level + t.nesting) (some t) ts = .ok ms' ∧
        ms = (t, m) :: ms' := by
  simp only [marks, bind_eq_ok_iff, pure_eq_ok_iff]
  constructor
  · rintro ⟨m, hm, ms', hms', rfl⟩
    exact ⟨m, ms', hm, hms', rfl⟩
  · rintro ⟨m, ms', hm, hms', rfl⟩
    exact ⟨m, hm, ms', hms', rfl⟩

/-- Marks do not change tokens. -/
theorem map_fst_of_marks {level : Int} {previous : Option Token} {ts : List Token}
    {ms : List (Token × Option BinaryOp)} (h : marks level previous ts = .ok ms) :
    ms.map Prod.fst = ts := by
  induction ts generalizing level previous ms with
  | nil => cases h; rfl
  | cons t ts ih =>
    obtain ⟨m, ms', -, hms, rfl⟩ := marks_cons_eq_ok_iff.1 h
    simp [ih hms]

/-- All that counts of the token in front is whether an operand ends with it. -/
theorem marks_congr_previous {level : Int} {previous previous' : Option Token}
    (h : previous.any Token.endsOperand = previous'.any Token.endsOperand) (ts : List Token) :
    marks level previous ts = marks level previous' ts := by
  cases ts with
  | nil => rfl
  | cons t ts =>
    have hmark : mark level previous t = mark level previous' t := by
      cases t <;> simp [mark, h]
    simp only [marks, hmark]

/-- Marks are found from the left, where the brackets that are open in between give the level. -/
theorem marks_append {opened opened' : List Bracket} {ts : List Token}
    (h : openAfter opened ts = some opened') (previous : Option Token) (us : List Token) :
    marks opened.length previous (ts ++ us) = do
      let ms ← marks opened.length previous ts
      let ns ← marks opened'.length (ts.getLast?.or previous) us
      return ms ++ ns := by
  induction ts generalizing opened previous with
  | nil =>
    obtain rfl : opened = opened' := by simpa [openAfter] using h
    simp only [List.nil_append, marks, List.getLast?_nil, Option.none_or]
    cases marks opened.length previous us <;> rfl
  | cons t ts ih =>
    obtain ⟨next, -, hlen, hts⟩ := openAfter_cons h
    -- the token in front of what is left is the last of those that were marked
    have hlast : (t :: ts).getLast?.or previous = ts.getLast?.or (some t) := by
      rw [List.getLast?_cons]
      cases ts.getLast? <;> rfl
    simp only [List.cons_append, marks, hlast, ← hlen, ih hts]
    cases mark opened.length previous t with
    | error fault => rfl
    | ok m =>
      cases marks next.length (some t) ts with
      | error fault => rfl
      | ok ms => cases marks opened'.length (ts.getLast?.or (some t)) us <;> rfl

/-- Tokens are marked if and only if their two parts are. -/
theorem marks_append_eq_ok_iff {opened opened' : List Bracket} {ts us : List Token}
    {previous : Option Token} {ms : List (Token × Option BinaryOp)}
    (h : openAfter opened ts = some opened') :
    marks opened.length previous (ts ++ us) = .ok ms ↔
      ∃ ms₁ ms₂, marks opened.length previous ts = .ok ms₁ ∧
        marks opened'.length (ts.getLast?.or previous) us = .ok ms₂ ∧ ms = ms₁ ++ ms₂ := by
  simp only [marks_append h, bind_eq_ok_iff, pure_eq_ok_iff]
  constructor
  · rintro ⟨ms₁, h₁, ms₂, h₂, rfl⟩
    exact ⟨ms₁, ms₂, h₁, h₂, rfl⟩
  · rintro ⟨ms₁, ms₂, h₁, h₂, rfl⟩
    exact ⟨ms₁, h₁, ms₂, h₂, rfl⟩

/-- Inside brackets nothing is marked. -/
theorem marks_inside {bs final : List Bracket} {ts : List Token} (h : openAfter bs ts = some final)
    (hdefine : ∀ t ∈ ts, t.isDefine = false) {level : Int} (hlevel : bs.length < level)
    (previous : Option Token) : marks level previous ts = .ok (ts.map (·, none)) := by
  induction ts generalizing bs level previous with
  | nil => rfl
  | cons t ts ih =>
    -- some bracket further out is open, so the level is not zero and stays above `bs`
    obtain ⟨next, -, hlen, hts⟩ := openAfter_cons h
    have hne : level ≠ 0 := by omega
    have hmark : mark level previous t = .ok none := by
      have := hdefine t List.mem_cons_self
      cases t <;> simp_all [mark, Token.isDefine]
    have hlevel' : next.length < level + t.nesting := by omega
    have hrest := ih hts (fun u hu => hdefine u (List.mem_cons_of_mem _ hu)) hlevel' (some t)
    exact marks_cons_eq_ok_iff.2 ⟨none, _, hmark, hrest, rfl⟩

/-! ### The lowest priority -/

theorem lowest?_eq_none_iff (ms : List (Token × Option BinaryOp)) :
    lowest? ms = none ↔ operations ms = [] := by
  fun_induction lowest? ms with
  | case1 => simp
  | case2 t ms ih => exact ih
  | case3 t op ms p hp ih => simp
  | case4 t op ms hp ih => simp

/-- The lowest priority is the least one among those of the operations. -/
theorem lowest?_eq_some_iff (ms : List (Token × Option BinaryOp)) (p : Nat) :
    lowest? ms = some p ↔
      (∃ op ∈ operations ms, op.priority = p) ∧ ∀ op ∈ operations ms, p ≤ op.priority := by
  induction ms generalizing p with
  | nil => simp [lowest?]
  | cons m ms ih =>
    obtain ⟨t, m⟩ := m
    cases m with
    | none => simpa [lowest?] using ih p
    | some op =>
      cases hl : lowest? ms with
      | none => simp [lowest?, hl, (lowest?_eq_none_iff ms).1 hl]; omega
      | some q =>
        obtain ⟨⟨op', hop', hq⟩, hmin⟩ := (ih q).1 hl
        simp only [lowest?, hl, Option.some.injEq, operations_cons_some, List.mem_cons,
          exists_eq_or_imp, forall_eq_or_imp]
        constructor
        · -- the smaller of the two priorities is that of `op` or of `op'`
          rintro rfl
          refine ⟨?_, Nat.min_le_left _ _, fun o ho => ?_⟩
          · rcases Nat.le_total op.priority q with hle | hle
            · exact .inl (Nat.min_eq_left hle).symm
            · exact .inr ⟨op', hop', by rw [hq, Nat.min_eq_right hle]⟩
          · exact Nat.le_trans (Nat.min_le_right _ _) (hmin o ho)
        · rintro ⟨hex, hp, hall⟩
          have hpq := hall op' hop'
          rcases hex with h | ⟨o, ho, h⟩
          · omega
          · have := hmin o ho
            omega

/-! ### Cuts -/

/-- A cut at a priority that no operation has leaves one operand. -/
theorem cut_of_forall_ne {p : Nat} {ms : List (Token × Option BinaryOp)}
    (h : ∀ op ∈ operations ms, op.priority ≠ p) : cut p ms = ⟨ms.map Prod.fst, []⟩ := by
  induction ms with
  | nil => rfl
  | cons m ms ih =>
    obtain ⟨t, m⟩ := m
    cases m with
    | none => simp [cut, ih h]
    | some op =>
      simp only [operations_cons_some, List.mem_cons, forall_eq_or_imp] at h
      simp [cut, h.1, ih h.2]

/-- A cut at an operation separates what is in front of it from what is behind it. -/
theorem cut_append_cons {p : Nat} {op : BinaryOp} (hp : op.priority = p)
    (ms : List (Token × Option BinaryOp)) (t : Token) (ns : List (Token × Option BinaryOp)) :
    cut p (ms ++ (t, some op) :: ns) =
      ⟨(cut p ms).first, (cut p ms).links ++ (op, (cut p ns).first) :: (cut p ns).links⟩ := by
  induction ms with
  | nil => simp [cut, hp]
  | cons m ms ih =>
    obtain ⟨u, m⟩ := m
    cases m with
    | none => simp [cut, ih]
    | some op' =>
      by_cases h : op'.priority = p <;> simp [cut, ih, h]

/-- The links of a cut are operations of the priority at which it is made. -/
theorem of_mem_links_cut {p : Nat} {ms : List (Token × Option BinaryOp)}
    {link : BinaryOp × List Token} (h : link ∈ (cut p ms).links) :
    link.1.priority = p ∧ link.1 ∈ operations ms := by
  induction ms with
  | nil => cases h
  | cons m ms ih =>
    obtain ⟨t, m⟩ := m
    cases m with
    | none => exact ih h
    | some op =>
      rw [operations_cons_some]
      by_cases hop : op.priority = p
      · -- the operation starts the first link
        simp only [cut, hop, ↓reduceIte, List.mem_cons] at h
        rcases h with rfl | h
        · exact ⟨hop, List.mem_cons_self⟩
        · exact ⟨(ih h).1, List.mem_cons_of_mem _ (ih h).2⟩
      · simp only [cut, hop, ↓reduceIte] at h
        exact ⟨(ih h).1, List.mem_cons_of_mem _ (ih h).2⟩

theorem links_cut_ne_nil {p : Nat} {ms : List (Token × Option BinaryOp)}
    (h : ∃ op ∈ operations ms, op.priority = p) : (cut p ms).links ≠ [] := by
  obtain ⟨op, hop, hp⟩ := h
  obtain ⟨⟨t, m⟩, hm, hsnd⟩ := List.mem_filterMap.1 hop
  obtain rfl : m = some op := hsnd
  obtain ⟨l₁, l₂, rfl⟩ := List.append_of_mem hm
  rw [cut_append_cons hp]
  simp

/-- The tokens of the links of a chain. -/
def linkTokens : List (BinaryOp × List Token) → List Token
  | [] => []
  | (op, us) :: links => .op op.operator :: (us ++ linkTokens links)

theorem length_lt_of_mem_links {links : List (BinaryOp × List Token)}
    {link : BinaryOp × List Token} (h : link ∈ links) :
    link.2.length < (linkTokens links).length := by
  induction links with
  | nil => cases h
  | cons first links ih =>
    obtain ⟨op, us⟩ := first
    simp only [linkTokens, List.length_cons, List.length_append]
    rcases List.mem_cons.1 h with rfl | h
    · change us.length < _
      omega
    · have := ih h
      omega

/-- Tokens in which every operation outside of brackets binds more tightly than a priority, read at
a level of nesting and behind a token. -/
def IsSegment (p : Nat) (level : Int) (previous : Option Token) (ts : List Token) : Prop :=
  ∃ ms, marks level previous ts = .ok ms ∧ ∀ op ∈ operations ms, p < op.priority

theorem isSegment_nil (p : Nat) (level : Int) (previous : Option Token) :
    IsSegment p level previous [] := ⟨[], rfl, nofun⟩

theorem IsSegment.congr_previous {p : Nat} {level : Int} {previous previous' : Option Token}
    {ts : List Token} (h : IsSegment p level previous ts)
    (hprev : previous.any Token.endsOperand = previous'.any Token.endsOperand) :
    IsSegment p level previous' ts := by
  obtain ⟨ms, hms, hops⟩ := h
  exact ⟨ms, (marks_congr_previous hprev ts) ▸ hms, hops⟩

/-- A token that is no operation of the priority joins the segment behind it. -/
theorem IsSegment.cons {p : Nat} {level : Int} {previous : Option Token} {t : Token}
    {m : Option BinaryOp} {ts : List Token} (hmark : mark level previous t = .ok m)
    (hm : ∀ op ∈ m, p < op.priority) (h : IsSegment p (level + t.nesting) (some t) ts) :
    IsSegment p level previous (t :: ts) := by
  obtain ⟨ms, hms, hops⟩ := h
  refine ⟨(t, m) :: ms, marks_cons_eq_ok_iff.2 ⟨m, ms, hmark, hms, rfl⟩, ?_⟩
  cases m with
  | none => exact hops
  | some op => exact List.forall_mem_cons.2 ⟨hm op rfl, hops⟩

/-- Tokens with matching brackets in which every operation outside of brackets binds more tightly
than a priority, read behind some open brackets and a token. -/
def IsPiece (p : Nat) (opened : List Bracket) (previous : Option Token) (ts : List Token) : Prop :=
  openAfter opened ts = some [] ∧
    ∃ ms, marks opened.length previous ts = .ok ms ∧ ∀ op ∈ operations ms, p < op.priority

/-- An operation is marked only outside of all brackets. -/
theorem of_mark_eq_some {level : Int} {previous : Option Token} {t : Token} {op : BinaryOp}
    (h : mark level previous t = .ok (some op)) :
    level = 0 ∧ previous.any Token.endsOperand ∧ ∃ o, t = .op o ∧ o.binary? = some op := by
  cases t with
  | op o =>
    simp only [mark] at h
    by_cases hc : level = 0 ∧ previous.any Token.endsOperand
    · rw [if_pos hc] at h
      cases ho : o.binary? with
      | none => simp [ho] at h
      | some op' =>
        obtain rfl : op' = op := by simpa [ho] using h
        exact ⟨hc.1, hc.2, o, rfl, ho⟩
    · -- a unary operator, or one inside brackets
      rw [if_neg hc] at h
      cases h
  | comma => by_cases hl : level = 0 <;> simp [mark, hl] at h
  | _ => simp [mark] at h

/-- Tokens that are cut at their lowest priority fall into segments whose operations all bind more
tightly. Whether the brackets in them match does not matter. -/
theorem isSegment_cut {p : Nat} {level : Int} {previous : Option Token} {ts : List Token}
    {ms : List (Token × Option BinaryOp)} (hms : marks level previous ts = .ok ms)
    (hp : ∀ op ∈ operations ms, p ≤ op.priority) :
    IsSegment p level previous (cut p ms).first ∧
      ∀ l ∈ (cut p ms).links, IsSegment p 0 none l.2 := by
  induction ts generalizing level previous ms with
  | nil =>
    cases hms
    exact ⟨isSegment_nil p level previous, nofun⟩
  | cons t ts ih =>
    obtain ⟨m, ms, hmark, hrest, rfl⟩ := marks_cons_eq_ok_iff.1 hms
    cases m with
    | none =>
      -- the token joins the first segment
      obtain ⟨hfirst, hlinks⟩ := ih hrest hp
      exact ⟨hfirst.cons hmark nofun, hlinks⟩
    | some op =>
      simp only [operations_cons_some, List.mem_cons, forall_eq_or_imp] at hp
      obtain ⟨hfirst, hlinks⟩ := ih hrest hp.2
      by_cases hop : op.priority = p
      · -- the tokens are cut here, and what follows is marked as it is from the start of an operand
        obtain ⟨rfl, -, o, rfl, -⟩ := of_mark_eq_some hmark
        simp only [cut, hop, ↓reduceIte]
        refine ⟨isSegment_nil p 0 previous, List.forall_mem_cons.2 ⟨?_, hlinks⟩⟩
        exact hfirst.congr_previous rfl
      · -- an operation that binds more tightly joins the first segment too
        have hlt : ∀ op' ∈ some op, p < op'.priority := by
          rintro _ ⟨⟩
          omega
        simp only [cut, hop, ↓reduceIte]
        exact ⟨hfirst.cons hmark hlt, hlinks⟩

/-- Tokens that are cut are put together again from the operands and the operations between them. -/
theorem append_linkTokens_cut {level : Int} {previous : Option Token} {ts : List Token}
    {ms : List (Token × Option BinaryOp)} (hms : marks level previous ts = .ok ms) (p : Nat) :
    (cut p ms).first ++ linkTokens (cut p ms).links = ts := by
  induction ts generalizing level previous ms with
  | nil =>
    cases hms
    rfl
  | cons t ts ih =>
    obtain ⟨m, ms, hmark, hrest, rfl⟩ := marks_cons_eq_ok_iff.1 hms
    have htokens := congrArg (t :: ·) (ih hrest)
    cases m with
    | none => exact htokens
    | some op =>
      by_cases hop : op.priority = p
      · obtain ⟨-, -, o, rfl, ho⟩ := of_mark_eq_some hmark
        obtain rfl := Operator.eq_operator_of_binary? ho
        simp only [cut, hop, ↓reduceIte]
        exact htokens
      · simp only [cut, hop, ↓reduceIte]
        exact htokens

/-- Tokens are cut outside of all brackets, so matching brackets stay together. -/
theorem nested_cut {opened : List Bracket} {previous : Option Token} {ts : List Token}
    {ms : List (Token × Option BinaryOp)} (hopen : openAfter opened ts = some [])
    (hms : marks opened.length previous ts = .ok ms) (p : Nat) :
    openAfter opened (cut p ms).first = some [] ∧ ∀ l ∈ (cut p ms).links, Nested l.2 := by
  induction ts generalizing opened previous ms with
  | nil =>
    cases hms
    exact ⟨hopen, nofun⟩
  | cons t ts ih =>
    obtain ⟨next, hnext, hlen, hts⟩ := openAfter_cons hopen
    obtain ⟨m, ms, hmark, hrest, rfl⟩ := marks_cons_eq_ok_iff.1 hms
    rw [← hlen] at hrest
    obtain ⟨hfirst, hlinks⟩ := ih hts hrest
    have hcons := (openAfter_cons_of_eq hnext (cut p ms).first).trans hfirst
    cases m with
    | none => exact ⟨hcons, hlinks⟩
    | some op =>
      by_cases hop : op.priority = p
      · obtain ⟨hlevel, -, o, rfl, -⟩ := of_mark_eq_some hmark
        obtain rfl : opened = [] := by simpa using hlevel
        obtain rfl : [] = next := by simpa [openAfter] using hnext
        simp only [cut, hop, ↓reduceIte]
        exact ⟨rfl, List.forall_mem_cons.2 ⟨hfirst, hlinks⟩⟩
      · simp only [cut, hop, ↓reduceIte]
        exact ⟨hcons, hlinks⟩

/-- **The pieces of a chain.** Tokens that are cut at their lowest priority fall into pieces whose
operations all bind more tightly, and the pieces put together are the tokens. -/
theorem cut_spec {p : Nat} {opened : List Bracket} {previous : Option Token} {ts : List Token}
    {ms : List (Token × Option BinaryOp)} (hopen : openAfter opened ts = some [])
    (hms : marks opened.length previous ts = .ok ms) (hp : ∀ op ∈ operations ms, p ≤ op.priority) :
    ts = (cut p ms).first ++ linkTokens (cut p ms).links ∧
      IsPiece p opened previous (cut p ms).first ∧
      ∀ l ∈ (cut p ms).links, IsPiece p [] none l.2 := by
  obtain ⟨hfirst, hlinks⟩ := isSegment_cut hms hp
  obtain ⟨hopened, hnested⟩ := nested_cut hopen hms p
  refine ⟨(append_linkTokens_cut hms p).symm, ⟨hopened, hfirst⟩, fun l hl => ?_⟩
  exact ⟨hnested l hl, hlinks l hl⟩

end Chain

/-! ### Phrases and their operations -/

open Chain in
/-- Every operation outside of brackets binds at least as tightly as a priority. -/
def Token.BindsAtLeast (p : Nat) (ts : List Token) : Prop :=
  ∃ ms, marks 0 none ts = .ok ms ∧ ∀ op ∈ operations ms, p ≤ op.priority

namespace Token.BindsAtLeast

variable {p : Nat} {ts us : List Token}

theorem mono {q : Nat} (h : BindsAtLeast q ts) (hpq : p ≤ q) : BindsAtLeast p ts := by
  obtain ⟨ms, hms, hops⟩ := h
  exact ⟨ms, hms, fun op hop => Nat.le_trans hpq (hops op hop)⟩

/-- No operation binds more tightly than a power. -/
theorem operations_eq_nil (h : BindsAtLeast 6 ts) :
    ∃ ms, Chain.marks 0 none ts = .ok ms ∧ Chain.operations ms = [] := by
  obtain ⟨ms, hms, hops⟩ := h
  refine ⟨ms, hms, List.eq_nil_iff_forall_not_mem.2 fun op hop => ?_⟩
  have := hops op hop
  have := op.priority_le_five
  omega

/-- Without operations there is nothing to bind. -/
theorem of_six (h : BindsAtLeast 6 ts) (p : Nat) : BindsAtLeast p ts := by
  obtain ⟨ms, hms, hops⟩ := h.operations_eq_nil
  exact ⟨ms, hms, by simp [hops]⟩

/-- An operator at the start is no operation between operands. -/
theorem cons_op_iff {o : Operator} : BindsAtLeast p (.op o :: ts) ↔ BindsAtLeast p ts := by
  -- neither the operator nor the start of the tokens ends an operand: the rest is marked alike
  have hmarks : ∀ {ms}, Chain.marks 0 none ts = .ok ms ↔
      Chain.marks 0 none (.op o :: ts) = .ok ((.op o, none) :: ms) := by
    intro ms
    have hprev : Chain.marks 0 (some (.op o)) ts = Chain.marks 0 none ts :=
      Chain.marks_congr_previous (by rfl) ts
    rw [← hprev, Chain.marks_cons_eq_ok_iff]
    constructor
    · intro hms
      exact ⟨none, ms, rfl, hms, rfl⟩
    · rintro ⟨_, _, -, hms, ⟨⟩⟩
      exact hms
  constructor
  · rintro ⟨ms, hms, hops⟩
    obtain ⟨m, ms, hm, hms', rfl⟩ := Chain.marks_cons_eq_ok_iff.1 hms
    obtain rfl : none = m := Except.ok.inj hm
    exact ⟨ms, hmarks.2 hms, hops⟩
  · rintro ⟨ms, hms, hops⟩
    exact ⟨_, hmarks.1 hms, hops⟩

/-- What is read with marks is one element of a list. -/
theorem isElement (h : BindsAtLeast p ts) : IsElement ts := by
  obtain ⟨ms, hms, -⟩ := h
  -- the induction goes through tokens at every level
  have general : ∀ (level : Int) (previous : Option Token) (ms : List (Token × Option BinaryOp)),
      Chain.marks level previous ts = .ok ms → elementsFrom level ts = [ts] := by
    clear hms ms
    induction ts with
    | nil => intros; rfl
    | cons t ts ih =>
      intro level previous ms hms
      obtain ⟨m, ms', hmark, hms', -⟩ := Chain.marks_cons_eq_ok_iff.1 hms
      have ht : ¬ (level = 0 ∧ t.isComma) := by
        rintro ⟨rfl, hcomma⟩
        cases t <;> simp_all [isComma, Chain.mark]
      exact elementsFrom_cons ht (ih _ _ _ hms')
  exact general 0 none ms hms

end Token.BindsAtLeast

namespace Chain

open Token (BindsAtLeast Nested)

variable {ts us : List Token} {o : Operator} {op : BinaryOp}

/-- The marks of an operation between two phrases. -/
theorem marks_append_op {ms ns : List (Token × Option BinaryOp)} (hnested : Nested ts)
    (hlast : ts.getLast?.any Token.endsOperand) (ho : o.binary? = some op)
    (hms : marks 0 none ts = .ok ms) (hns : marks 0 none us = .ok ns) :
    marks 0 none (ts ++ .op o :: us) = .ok (ms ++ (.op o, some op) :: ns) := by
  have hmark : mark 0 (ts.getLast?.or none) (.op o) = .ok (some op) := by
    simp [mark, hlast, ho]
  have hus : marks 0 (some (.op o)) us = .ok ns := by
    rw [← hns]
    exact marks_congr_previous (by rfl) us
  refine (@marks_append_eq_ok_iff [] [] _ _ _ _ hnested).2 ⟨ms, _, hms, ?_, rfl⟩
  exact marks_cons_eq_ok_iff.2 ⟨some op, ns, hmark, hus, rfl⟩

/-- An operation that binds tightly enough between phrases whose operations do. -/
theorem bindsAtLeast_append_op {p : Nat} (hnested : Nested ts)
    (hlast : ts.getLast?.any Token.endsOperand) (ho : o.binary? = some op)
    (hp : p ≤ op.priority) (hts : BindsAtLeast p ts) (hus : BindsAtLeast p us) :
    BindsAtLeast p (ts ++ .op o :: us) := by
  obtain ⟨ms, hms, hmsops⟩ := hts
  obtain ⟨ns, hns, hnsops⟩ := hus
  refine ⟨_, marks_append_op hnested hlast ho hms hns, ?_⟩
  simp only [operations_append, operations_cons_some, List.mem_append, List.mem_cons]
  rintro op' (h | rfl | h)
  exacts [hmsops op' h, hp, hnsops op' h]

/-- Without operations, tokens are a chain of one operand. -/
theorem ofTokens_of_bindsAtLeast_six (h : BindsAtLeast 6 ts) : ofTokens ts = .ok ⟨ts, []⟩ := by
  obtain ⟨ms, hms, hops⟩ := h.operations_eq_nil
  have hcut : ∀ p, cut p ms = ⟨ts, []⟩ := by
    intro p
    rw [cut_of_forall_ne (by simp [hops]), map_fst_of_marks hms]
  simp [ofTokens, hms, bind, Except.bind, pure, Except.pure, hcut]

theorem ofTokens_of_marks {p : Nat} {ms : List (Token × Option BinaryOp)}
    (hms : marks 0 none ts = .ok ms) (hlow : lowest? ms = some p) :
    ofTokens ts = .ok (cut p ms) := by
  simp [ofTokens, hms, hlow, bind, Except.bind, pure, Except.pure]

/-- A chain without links contains no operation. -/
theorem bindsAtLeast_six_of_ofTokens {first : List Token} (h : ofTokens ts = .ok ⟨first, []⟩) :
    BindsAtLeast 6 ts := by
  obtain ⟨ms, hms, hcut⟩ := bind_eq_ok_iff.1 h
  have hcut : cut ((lowest? ms).getD 0) ms = ⟨first, []⟩ := pure_eq_ok_iff.1 hcut
  refine ⟨ms, hms, ?_⟩
  cases hl : lowest? ms with
  | none => simp [(lowest?_eq_none_iff ms).1 hl]
  | some q =>
    -- at the lowest priority there would be a link
    rw [hl, Option.getD_some] at hcut
    have hlinks := congrArg Chain.links hcut
    exact absurd hlinks (links_cut_ne_nil ((lowest?_eq_some_iff ms q).1 hl).1)

/-- A chain without links is its first operand. -/
theorem eq_first_of_ofTokens {first : List Token} (h : ofTokens ts = .ok ⟨first, []⟩) :
    ts = first := by
  have hsame := (ofTokens_of_bindsAtLeast_six (bindsAtLeast_six_of_ofTokens h)).symm.trans h
  exact congrArg Chain.first (Except.ok.inj hsame)

/-- A chain with links is cut at the priority of the first of them, which is the lowest of all. -/
theorem exists_marks_of_ofTokens {first : List Token} {link : BinaryOp × List Token}
    {links : List (BinaryOp × List Token)} (h : ofTokens ts = .ok ⟨first, link :: links⟩) :
    ∃ ms, marks 0 none ts = .ok ms ∧ cut link.1.priority ms = ⟨first, link :: links⟩ ∧
      link.1 ∈ operations ms ∧ ∀ op ∈ operations ms, link.1.priority ≤ op.priority := by
  obtain ⟨ms, hms, hcut⟩ := bind_eq_ok_iff.1 h
  have hcut : cut ((lowest? ms).getD 0) ms = ⟨first, link :: links⟩ := pure_eq_ok_iff.1 hcut
  -- there is a link, so there is a lowest priority, and it is that of the link
  have hlink : link ∈ (cut ((lowest? ms).getD 0) ms).links := hcut ▸ List.mem_cons_self
  obtain ⟨hpri, hmem⟩ := of_mem_links_cut hlink
  rw [← hpri] at hcut
  refine ⟨ms, hms, hcut, hmem, ?_⟩
  cases hl : lowest? ms with
  | none => simp [(lowest?_eq_none_iff ms).1 hl]
  | some q =>
    rw [hpri, hl, Option.getD_some]
    exact ((lowest?_eq_some_iff ms q).1 hl).2

/-- The operations in the operands of a chain bind more tightly than its links. -/
theorem bindsAtLeast_of_mem {first us : List Token} {link : BinaryOp × List Token}
    {links : List (BinaryOp × List Token)} (h : ofTokens ts = .ok ⟨first, link :: links⟩)
    (hus : us ∈ first :: (link :: links).map Prod.snd) :
    BindsAtLeast (link.1.priority + 1) us := by
  obtain ⟨ms, hms, hcut, -, hlow⟩ := exists_marks_of_ofTokens h
  obtain ⟨hfirst, hlinks⟩ := isSegment_cut hms hlow
  rw [hcut] at hfirst hlinks
  rcases List.mem_cons.1 hus with rfl | hus
  · exact hfirst
  · obtain ⟨l, hl, rfl⟩ := List.mem_map.1 hus
    exact hlinks l hl

/-- A chain with links is cut at operations of one priority, which is the lowest of all. -/
theorem pieces_of_ofTokens {first : List Token} {link : BinaryOp × List Token}
    {links : List (BinaryOp × List Token)} (hnested : Nested ts)
    (h : ofTokens ts = .ok ⟨first, link :: links⟩) :
    ts = first ++ linkTokens (link :: links) ∧ IsPiece link.1.priority [] none first ∧
      (∀ l ∈ link :: links, l.1.priority = link.1.priority ∧
        IsPiece link.1.priority [] none l.2) ∧
      ∀ p, BindsAtLeast p ts → p ≤ link.1.priority := by
  obtain ⟨ms, hms, hcut, hmem, hlow⟩ := exists_marks_of_ofTokens h
  have hcutpri : ∀ l ∈ (cut link.1.priority ms).links, l.1.priority = link.1.priority :=
    fun _ hl => (of_mem_links_cut hl).1
  obtain ⟨htokens, hfirst, hlinks⟩ := @cut_spec _ [] _ _ _ hnested hms hlow
  rw [hcut] at htokens hfirst hlinks hcutpri
  refine ⟨htokens, hfirst, fun l hl => ⟨hcutpri l hl, hlinks l hl⟩, ?_⟩
  · -- the link is an operation, so it binds as tightly as all do
    rintro p ⟨ms', hms', hops⟩
    obtain rfl : ms' = ms := Except.ok.inj (hms'.symm.trans hms)
    exact hops link.1 hmem

/-- The operands of a chain are shorter than the chain. -/
theorem length_lt_of_mem_operands {first us : List Token} {link : BinaryOp × List Token}
    {links : List (BinaryOp × List Token)} (hnested : Nested ts)
    (h : ofTokens ts = .ok ⟨first, link :: links⟩)
    (hus : us ∈ first :: (link :: links).map Prod.snd) : us.length < ts.length := by
  obtain ⟨rfl, -⟩ := pieces_of_ofTokens hnested h
  rw [List.length_append]
  rcases List.mem_cons.1 hus with rfl | hus
  · have := length_lt_of_mem_links (List.mem_cons_self : link ∈ link :: links)
    omega
  · obtain ⟨l, hl, rfl⟩ := List.mem_map.1 hus
    have := length_lt_of_mem_links hl
    omega

/-- An operation behind phrases that bind at least as tightly, and in front of one that binds more
tightly, is the last link of a chain. -/
theorem ofTokens_append_left (hnested : Nested ts) (hlast : ts.getLast?.any Token.endsOperand)
    (ho : o.binary? = some op) (hts : BindsAtLeast op.priority ts)
    (hus : BindsAtLeast (op.priority + 1) us) :
    (BindsAtLeast (op.priority + 1) ts ∧ ofTokens (ts ++ .op o :: us) = .ok ⟨ts, [(op, us)]⟩) ∨
      ∃ first link links, ofTokens ts = .ok ⟨first, link :: links⟩ ∧
        link.1.priority = op.priority ∧
        ofTokens (ts ++ .op o :: us) = .ok ⟨first, link :: (links ++ [(op, us)])⟩ := by
  obtain ⟨ms, hms, hmsops⟩ := hts
  obtain ⟨ns, hns, hnsops⟩ := hus
  have hmarks := marks_append_op hnested hlast ho hms hns
  -- the operation has the lowest priority, and there is none of it behind
  have hlow : lowest? (ms ++ (.op o, some op) :: ns) = some op.priority := by
    refine (lowest?_eq_some_iff _ _).2 ⟨⟨op, by simp, rfl⟩, ?_⟩
    simp only [operations_append, operations_cons_some, List.mem_append, List.mem_cons]
    rintro op' (h | rfl | h)
    exacts [hmsops op' h, Nat.le_refl _, Nat.le_trans (Nat.le_succ _) (hnsops op' h)]
  have hcutns : cut op.priority ns = ⟨us, []⟩ := by
    rw [cut_of_forall_ne fun op' h => Nat.ne_of_gt (hnsops op' h), map_fst_of_marks hns]
  rw [ofTokens_of_marks hmarks hlow, cut_append_cons rfl, hcutns]
  by_cases hex : ∃ op' ∈ operations ms, op'.priority = op.priority
  · -- the phrase on the left is a chain of the same priority
    have hlowms : lowest? ms = some op.priority := (lowest?_eq_some_iff _ _).2 ⟨hex, hmsops⟩
    obtain ⟨link, links, hl⟩ := List.exists_cons_of_ne_nil (links_cut_ne_nil hex)
    refine .inr ⟨(cut op.priority ms).first, link, links, ?_, ?_, ?_⟩
    · rw [ofTokens_of_marks hms hlowms, ← hl]
    · exact (of_mem_links_cut (hl ▸ List.mem_cons_self)).1
    · rw [hl]
      rfl
  · -- the phrase on the left is not cut, and becomes the first operand
    push Not at hex
    have hcutms : cut op.priority ms = ⟨ts, []⟩ := by
      rw [cut_of_forall_ne hex, map_fst_of_marks hms]
    refine .inl ⟨⟨ms, hms, fun op' h => ?_⟩, by rw [hcutms]; rfl⟩
    exact Nat.lt_of_le_of_ne (hmsops op' h) (hex op' h).symm

/-- An operation behind a phrase without operations, and in front of one whose operations are of its
priority, is the first link of a chain. -/
theorem ofTokens_append_right (hnested : Nested ts) (hlast : ts.getLast?.any Token.endsOperand)
    (ho : o.binary? = some op) (hp : op.priority = 5) (hts : BindsAtLeast 6 ts)
    (hus : BindsAtLeast 5 us) :
    ∃ first links, ofTokens us = .ok ⟨first, links⟩ ∧
      (∀ link ∈ links, link.1.priority = 5) ∧
      ofTokens (ts ++ .op o :: us) = .ok ⟨ts, (op, first) :: links⟩ := by
  obtain ⟨ms, hms, hmsops⟩ := hts.operations_eq_nil
  obtain ⟨ns, hns, hnsops⟩ := hus
  -- all operations are powers, and those behind the first one are those of the right side
  have hfive : ∀ op' ∈ operations ns, op'.priority = 5 :=
    fun op' h => Nat.le_antisymm op'.priority_le_five (hnsops op' h)
  have hmarks := marks_append_op hnested hlast ho hms hns
  have hlow : lowest? (ms ++ (.op o, some op) :: ns) = some 5 := by
    refine (lowest?_eq_some_iff _ _).2 ⟨⟨op, by simp, hp⟩, ?_⟩
    simp only [operations_append, hmsops, operations_cons_some, List.nil_append, List.mem_cons]
    rintro op' (rfl | h)
    exacts [Nat.le_of_eq hp.symm, hnsops op' h]
  have hcutms : cut 5 ms = ⟨ts, []⟩ := by
    rw [cut_of_forall_ne (by simp [hmsops]), map_fst_of_marks hms]
  refine ⟨(cut 5 ns).first, (cut 5 ns).links, ?_, fun _ hl => (of_mem_links_cut hl).1, ?_⟩
  · cases hl : lowest? ns with
    | none =>
      -- the phrase on the right is one operand
      have hops : operations ns = [] := (lowest?_eq_none_iff ns).1 hl
      rw [ofTokens_of_bindsAtLeast_six ⟨ns, hns, by simp [hops]⟩,
        cut_of_forall_ne (by simp [hops]), map_fst_of_marks hns]
    | some q =>
      -- it is a chain itself, and the new link goes in front
      obtain ⟨op', hop', rfl⟩ := ((lowest?_eq_some_iff ns q).1 hl).1
      rw [ofTokens_of_marks hns hl, hfive op' hop']
  · rw [ofTokens_of_marks hmarks hlow, cut_append_cons hp, hcutms]
    rfl

end Chain

end Abacus
