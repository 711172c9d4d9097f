import Abacus.Token.Neighbours

/-!
# Chains of operations

The operations outside of all brackets that bind least tightly cut a list of tokens into the
operands of a chain, `first op₁ operand₁ op₂ operand₂ …`. Without such operations the list is a
chain of one operand. The operations of a chain share one priority and therefore group from the same
side.

The same cutting at commas gives the elements of a list.
-/

namespace Abacus

/-- A first operand and the operations that follow it, each with its right operand. -/
structure Chain where
  first : List Token
  links : List (BinaryOp × List Token)

namespace Token

/-- How a token changes the level of nesting. -/
def nesting (t : Token) : Int := if t.isOpening then 1 else if t.isClosing then -1 else 0

end Token

namespace Chain

/-- The binary operation that a token is at a level of nesting behind a token. A comma outside of
all brackets and the sign `:=` anywhere are faults, and so is an operator without binary meaning
where only a binary operation can stand. -/
def mark (level : Int) (previous : Option Token) : Token → Except Fault (Option BinaryOp)
  | .op o =>
    if level = 0 ∧ previous.any Token.endsOperand then
      match o.binary? with
      | some b => .ok (some b)
      | none => .error (.notBinary o)
    else .ok none
  | .comma => if level = 0 then .error .strayComma else .ok none
  | .define => .error .strayDefine
  | _ => .ok none

/-- Marks the tokens that are binary operations outside of all brackets. -/
def marks (level : Int) (previous : Option Token) :
    List Token → Except Fault (List (Token × Option BinaryOp))
  | [] => .ok []
  | t :: ts => do
    let m ← mark level previous t
    let ms ← marks (level + t.nesting) (some t) ts
    return (t, m) :: ms

/-- The lowest priority among the marked operations. -/
def lowest? : List (Token × Option BinaryOp) → Option Nat
  | [] => none
  | (_, none) :: ms => lowest? ms
  | (_, some op) :: ms =>
    match lowest? ms with
    | some p => some (min op.priority p)
    | none => some op.priority

/-- Cuts marked tokens at the operations of one priority. -/
def cut (priority : Nat) : List (Token × Option BinaryOp) → Chain
  | [] => ⟨[], []⟩
  | (t, m) :: ms =>
    let rest := cut priority ms
    match m with
    | some op =>
      if op.priority = priority then ⟨[], (op, rest.first) :: rest.links⟩
      else ⟨t :: rest.first, rest.links⟩
    | none => ⟨t :: rest.first, rest.links⟩

/-- The chain of the operations that bind least tightly. -/
def ofTokens (ts : List Token) : Except Fault Chain := do
  let ms ← marks 0 none ts
  return cut ((lowest? ms).getD 0) ms

end Chain

namespace Token

/-- The tokens up to the bracket that closes the innermost open group, where `level` further groups
are open inside it, and the tokens behind that bracket. -/
def untilClosing : (level : Nat) → List Token → Option (List Token × List Token)
  | _, [] => none
  | level, t :: ts =>
    if t.isClosing then
      match level with
      | 0 => some ([], ts)
      | level + 1 => (untilClosing level ts).map fun (inner, rest) => (t :: inner, rest)
    else
      (untilClosing (if t.isOpening then level + 1 else level) ts).map
        fun (inner, rest) => (t :: inner, rest)

/-- The tokens of a group, given everything behind its opening bracket, if the group closes at the
end. -/
def group? (ts : List Token) : Option (List Token) :=
  match untilClosing 0 ts with
  | some (inner, []) => some inner
  | _ => none

/-- Cuts tokens at the commas outside of all brackets, where the level of nesting is given. -/
def elementsFrom (level : Int) : List Token → List (List Token)
  | [] => [[]]
  | t :: ts =>
    if level = 0 ∧ t.isComma then [] :: elementsFrom level ts
    else
      match elementsFrom (level + t.nesting) ts with
      | [] => [[t]]
      | element :: rest => (t :: element) :: rest

/-- The elements between the commas of a list. An empty list has none. -/
def elements : List Token → List (List Token)
  | [] => []
  | ts => elementsFrom 0 ts

/-- The elements of a list in braces, if the tokens are one. -/
def braced? : List Token → Option (List (List Token))
  | opening .curly :: ts => (group? ts).map elements
  | _ => none

/-- The rows of a matrix: the elements of each element, if all are lists in braces. -/
def rows? : List (List Token) → Option (List (List (List Token)))
  | [] => some []
  | element :: rest =>
    match braced? element, rows? rest with
    | some row, some rows => some (row :: rows)
    | _, _ => none

/-- The rows of a matrix, if there are elements and all are lists in braces. -/
def matrixRows? : List (List Token) → Option (List (List (List Token)))
  | [] => none
  | items => rows? items

end Token

/-! ### Lengths

What is cut out of a list of tokens is shorter than the list. -/

namespace Chain

theorem length_marks {level : Int} {previous : Option Token} {ts : List Token}
    {ms : List (Token × Option BinaryOp)} (h : marks level previous ts = .ok ms) :
    ms.length = ts.length := by
  induction ts generalizing level previous ms with
  | nil => cases h; rfl
  | cons t ts ih =>
    simp only [marks, bind, Except.bind] at h
    split at h
    · cases h
    · split at h
      · cases h
      · next hm =>
        cases h
        simp [ih hm]

/-- The number of tokens of the links of a chain. -/
def lengthLinks : List (BinaryOp × List Token) → Nat
  | [] => 0
  | l :: links => l.2.length + 1 + lengthLinks links

/-- The number of tokens of a chain. -/
def length (c : Chain) : Nat := c.first.length + lengthLinks c.links

theorem length_cut (priority : Nat) (ms : List (Token × Option BinaryOp)) :
    (cut priority ms).length = ms.length := by
  induction ms with
  | nil => rfl
  | cons m ms ih =>
    obtain ⟨t, m⟩ := m
    simp only [length] at ih
    cases m with
    | none => simp only [cut, length, List.length_cons]; omega
    | some op =>
      simp only [cut]
      split <;> simp only [length, lengthLinks, List.length_nil, List.length_cons] <;> omega

theorem length_ofTokens {ts : List Token} {c : Chain} (h : ofTokens ts = .ok c) :
    c.length = ts.length := by
  simp only [ofTokens, bind, Except.bind] at h
  split at h
  · cases h
  · next hm =>
    cases h
    rw [length_cut, length_marks hm]

end Chain

namespace Token

theorem length_untilClosing {level : Nat} {ts inner rest : List Token}
    (h : untilClosing level ts = some (inner, rest)) :
    inner.length + rest.length + 1 = ts.length := by
  induction ts generalizing level inner rest with
  | nil => cases h
  | cons t ts ih =>
    unfold untilClosing at h
    split at h
    · cases level with
      | zero => cases h; simp
      | succ level =>
        simp only [Option.map_eq_some_iff] at h
        obtain ⟨⟨i, r⟩, hu, he⟩ := h
        cases he
        have := ih hu
        simp only [List.length_cons]
        omega
    · simp only [Option.map_eq_some_iff] at h
      obtain ⟨⟨i, r⟩, hu, he⟩ := h
      cases he
      have := ih hu
      simp only [List.length_cons]
      omega

theorem length_group? {ts inner : List Token} (h : group? ts = some inner) :
    inner.length + 1 = ts.length := by
  unfold group? at h
  split at h
  · next hu =>
    cases h
    simpa using length_untilClosing hu
  · cases h

/-- A measure of lists of tokens that are still to be read: it exceeds that of its members. -/
def weight : List (List Token) → Nat
  | [] => 0
  | ts :: items => 4 * ts.length + 2 + weight items

@[simp] theorem weight_nil : weight [] = 0 := rfl

@[simp] theorem weight_cons (ts : List Token) (items : List (List Token)) :
    weight (ts :: items) = 4 * ts.length + 2 + weight items := rfl

theorem weight_elementsFrom (level : Int) (ts : List Token) :
    weight (elementsFrom level ts) ≤ 4 * ts.length + 2 := by
  induction ts generalizing level with
  | nil => simp [elementsFrom]
  | cons t ts ih =>
    unfold elementsFrom
    split
    · have := ih level
      simp only [weight_cons, List.length_cons, List.length_nil]
      omega
    · have := ih (level + t.nesting)
      split
      · simp only [weight_cons, weight_nil, List.length_cons, List.length_nil]
        omega
      · next he =>
        rw [he] at this
        simp only [weight_cons, List.length_cons] at this ⊢
        omega

theorem weight_elements (ts : List Token) : weight (elements ts) ≤ 4 * ts.length + 2 := by
  cases ts with
  | nil => simp [elements]
  | cons t ts => exact weight_elementsFrom 0 (t :: ts)

theorem weight_braced? {ts : List Token} {items : List (List Token)}
    (h : braced? ts = some items) : weight items + 6 ≤ 4 * ts.length := by
  unfold braced? at h
  split at h
  · simp only [Option.map_eq_some_iff] at h
    obtain ⟨inner, hg, rfl⟩ := h
    have := length_group? hg
    have := weight_elements inner
    simp only [List.length_cons]
    omega
  · cases h

/-- The measure of rows. -/
def weightRows : List (List (List Token)) → Nat
  | [] => 0
  | row :: rows => weight row + 1 + weightRows rows

@[simp] theorem weightRows_nil : weightRows [] = 0 := rfl

@[simp] theorem weightRows_cons (row : List (List Token)) (rows : List (List (List Token))) :
    weightRows (row :: rows) = weight row + 1 + weightRows rows := rfl

/-- A closed group weighs less than the tokens that it was cut from. -/
theorem weight_elements_of_group? {ts inner : List Token} (h : group? ts = some inner) :
    weight (elements inner) + 2 ≤ 4 * ts.length := by
  have := length_group? h
  have := weight_elements inner
  omega

theorem weightRows_rows? {items : List (List Token)} {rows : List (List (List Token))}
    (h : rows? items = some rows) : weightRows rows ≤ weight items := by
  induction items generalizing rows with
  | nil => cases h; simp
  | cons item items ih =>
    unfold rows? at h
    split at h
    · next row rest hrow hrest =>
      cases h
      have := weight_braced? hrow
      have := ih hrest
      simp only [weightRows_cons, weight_cons]
      omega
    · cases h

theorem weightRows_matrixRows? {items : List (List Token)} {rows : List (List (List Token))}
    (h : matrixRows? items = some rows) : weightRows rows ≤ weight items := by
  unfold matrixRows? at h
  split at h
  · cases h
  · exact weightRows_rows? h

end Token

namespace Chain

theorem weight_links (links : List (BinaryOp × List Token)) :
    Token.weight (links.map Prod.snd) + 2 * links.length = 4 * lengthLinks links := by
  induction links with
  | nil => rfl
  | cons l links ih =>
    simp only [List.map_cons, Token.weight_cons, List.length_cons, lengthLinks]
    omega

/-- The operands of a chain weigh less than the tokens that they were cut from. -/
theorem weight_ofTokens {ts first : List Token} {links : List (BinaryOp × List Token)}
    (h : ofTokens ts = .ok ⟨first, links⟩) :
    4 * first.length + Token.weight (links.map Prod.snd) + 2 * links.length = 4 * ts.length := by
  have := weight_links links
  have := length_ofTokens h
  simp only [length] at this
  omega

end Chain

end Abacus
