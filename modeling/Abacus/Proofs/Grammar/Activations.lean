import Abacus.Proofs.Grammar.Reader

/-!
# How far the reader recurses

The depth is compared with the limit, but the reader calls itself at the same depth for the operands
of a chain that groups from the left. `Activation.expression` is one activation of the reader that
gets the reader for the calls in it as an argument, and `Activation.within` allows so many of them
to be nested and then gives up. Where the calls are bounded by `Activation.rank`, it does not give
up (`Activation.within_eq`), and no rank is larger than one that does not depend on the tokens.

The rank counts five activations for each depth up to the limit, because a chain is cut at the
lowest priority that there is: the operands of a chain that groups from the left only contain
operations of higher priorities (`Chain.bindsAtLeast_of_mem`), of which there are five. This needs
no matching brackets. Tokens are cut where their level of nesting is zero, whatever they look like,
and between two cuts the level is counted as it is from the start of an operand.
-/

namespace Abacus

namespace Activation

open Term (ofElements ofRows isRectangular shown)

/-! ### One activation -/

section

variable {m : Type → Type} [Monad m] [MonadExceptOf Fault m] (read : Nat → List Token → m Term)

/-- The term of a chain that groups from the left. -/
def leftChain (depth : Nat) (left : Term) : List (BinaryOp × List Token) → m Term
  | [] => return left
  | (op, operand) :: links => do
    let right ← read depth operand
    leftChain depth (.binary op left right) links

/-- The term of a chain that groups from the right. -/
def rightChain (depth : Nat) (first : List Token) : List (BinaryOp × List Token) → m Term
  | [] => read depth first
  | (op, operand) :: links => do
    let right ← rightChain depth operand links
    let left ← read depth first
    return .binary op left right

/-- The term of an operand. -/
def operand (depth : Nat) (ts : List Token) : m Term :=
  match ts with
  | [] => throw .emptyExpression
  | .op o :: rest =>
    match o.unary? with
    | none => throw (.missingLeftOperand o)
    | some op => .unary op <$> read (depth + 1) rest
  | [.number v] => return .literal v
  | [.name name] => return .var name
  | .name name :: .opening .round :: rest =>
    match Token.group? rest with
    | some inner => .call name <$> (Token.elements inner).mapM (read (depth + 1))
    | none => throw (.unexpectedToken name)
  | .opening .round :: rest =>
    match Token.group? rest with
    | some inner =>
      match Token.elements inner with
      | [] => throw .emptyParentheses
      | [item] => read (depth + 1) item
      | items => ofElements <$> items.mapM (read (depth + 1))
    | none => throw (.unexpectedToken (shown (.opening .round)))
  | .opening .curly :: rest =>
    match Token.group? rest with
    | some inner =>
      match Token.matrixRows? (Token.elements inner) with
      | some rows => do
        let rows ← rows.mapM fun row => row.mapM (read (depth + 2))
        if isRectangular rows then return ofRows rows else throw .raggedMatrix
      | none => ofElements <$> (Token.elements inner).mapM (read (depth + 1))
    | none => throw (.unexpectedToken (shown (.opening .curly)))
  | t :: _ => throw (.unexpectedToken (shown t))

/-- One activation of the reader. All that it knows of other tokens and depths is what `read`
answers. -/
def expression (depth : Nat) (ts : List Token) : m Term :=
  if maxNesting < depth then throw .nesting
  else if ts.isEmpty then throw .emptyExpression
  else
    match Chain.ofTokens ts with
    | .error fault => throw fault
    | .ok ⟨_, []⟩ => operand read depth ts
    | .ok ⟨first, link :: links⟩ =>
      if link.1.isRightAssoc then
        let deeper := depth + (links.length + 1)
        if maxNesting < deeper then throw .nesting
        else rightChain read deeper first (link :: links)
      else do
        let left ← read depth first
        leftChain read depth left (link :: links)

end

/-- The reader with a bound on how many activations are nested. The outer `none` says that it gave
up. -/
def within : (calls : Nat) → Nat → List Token → ExceptT Fault Option Term
  | 0, _, _ => ExceptT.mk none
  | calls + 1, depth, ts => expression (within calls) depth ts

/-! ### The reader is made of activations -/

section

open Term (ofTokensAt ofLeftChain ofRightChain ofItems ofRowItems ofOperand)

variable {depth : Nat}

theorem leftChain_ofTokensAt (left : Term) (links : List (BinaryOp × List Token)) :
    leftChain ofTokensAt depth left links = ofLeftChain depth left links := by
  induction links generalizing left with
  | nil =>
    rw [leftChain, Term.ofLeftChain_nil]
    rfl
  | cons link links ih =>
    obtain ⟨op, us⟩ := link
    simp only [leftChain, Term.ofLeftChain_cons, ih]

theorem rightChain_ofTokensAt (first : List Token) (links : List (BinaryOp × List Token)) :
    rightChain ofTokensAt depth first links = ofRightChain depth first links := by
  induction links generalizing first with
  | nil => rw [rightChain, Term.ofRightChain_nil]
  | cons link links ih =>
    obtain ⟨op, us⟩ := link
    simp only [rightChain, Term.ofRightChain_cons, ih]

theorem mapM_ofTokensAt (items : List (List Token)) :
    items.mapM (ofTokensAt depth) = ofItems depth items := by
  induction items with
  | nil =>
    rw [List.mapM_nil, Term.ofItems_nil]
    rfl
  | cons item items ih => rw [List.mapM_cons, Term.ofItems_cons, ih]

theorem mapM_mapM_ofTokensAt (rows : List (List (List Token))) :
    (rows.mapM fun row => row.mapM (ofTokensAt depth)) = ofRowItems depth rows := by
  induction rows with
  | nil =>
    rw [List.mapM_nil, Term.ofRowItems_nil]
    rfl
  | cons row rows ih => rw [List.mapM_cons, Term.ofRowItems_cons, ih, mapM_ofTokensAt]

theorem operand_ofTokensAt (ts : List Token) :
    operand ofTokensAt depth ts = ofOperand depth ts := by
  unfold operand
  split
  · rw [Term.ofOperand_nil]
    rfl
  · -- an operator in front of an operand
    split
    · next ho =>
      rw [Term.ofOperand_missingLeft ho]
      rfl
    · next ho => rw [Term.ofOperand_unary ho]
  · rw [Term.ofOperand_number]
    rfl
  · rw [Term.ofOperand_name]
    rfl
  · -- a call
    split
    · next hg => rw [Term.ofOperand_call _ hg, mapM_ofTokensAt]
    · next hg =>
      rw [Term.ofOperand_call_of_none _ hg]
      rfl
  · -- parentheses, which hold nothing, one expression, or several
    split
    · next hg =>
      split
      · next he =>
        rw [Term.ofOperand_emptyParentheses hg he]
        rfl
      · next he => rw [Term.ofOperand_group hg he]
      · next hnil hone =>
        have htwo : 2 ≤ (Token.elements _).length := Term.two_le_length hnil hone
        rw [Term.ofOperand_list hg htwo, mapM_ofTokensAt]
    · next hg =>
      rw [Term.ofOperand_opening_of_none _ hg]
      rfl
  · -- braces, which hold rows or expressions
    split
    · next hg =>
      split
      · next hm =>
        rw [Term.ofOperand_matrix hg hm, mapM_mapM_ofTokensAt]
        rfl
      · next hm => rw [Term.ofOperand_vector hg hm, mapM_ofTokensAt]
    · next hg =>
      rw [Term.ofOperand_opening_of_none _ hg]
      rfl
  · -- no other token starts an operand
    rw [ofOperand]
    · rfl
    all_goals assumption

/-- An activation that calls the reader is the reader. -/
theorem expression_ofTokensAt (ts : List Token) :
    expression ofTokensAt depth ts = ofTokensAt depth ts := by
  unfold expression
  split
  · next hd =>
    rw [Term.ofTokensAt_of_lt hd]
    rfl
  · next hd =>
    have hd : depth ≤ maxNesting := Nat.not_lt.1 hd
    split
    · next hts =>
      rw [List.isEmpty_iff.1 hts, Term.ofTokensAt_nil hd]
      rfl
    · next hts =>
      have hne : ts ≠ [] := mt List.isEmpty_iff.2 hts
      split
      · next hc =>
        rw [Term.ofTokensAt_of_error hd hne hc]
        rfl
      · next hc => rw [Term.ofTokensAt_eq_ofOperand hd hne hc, operand_ofTokensAt]
      · next hc =>
        split
        · next hright =>
          simp only [Term.ofTokensAt_eq_ofRightChain hd hne hc hright, rightChain_ofTokensAt]
          rfl
        · next hleft =>
          rw [Term.ofTokensAt_eq_ofLeftChain hd hne hc (Bool.eq_false_iff.2 hleft)]
          simp only [leftChain_ofTokensAt]

/-! ### Activations that get answers -/

/-- What the reader says, as an answer of the reader that may give up. -/
def answer {α : Type} (e : Except Fault α) : ExceptT Fault Option α := ExceptT.mk (some e)

section

variable {α β : Type}

theorem answer_bind (e : Except Fault α) (f : α → Except Fault β) :
    answer (e >>= f) = answer e >>= fun a => answer (f a) := by
  cases e <;> rfl

theorem answer_map (f : α → β) (e : Except Fault α) : answer (f <$> e) = f <$> answer e := by
  cases e <;> rfl

theorem answer_mapM {f : α → ExceptT Fault Option β} {g : α → Except Fault β} {as : List α}
    (h : ∀ a ∈ as, f a = answer (g a)) : as.mapM f = answer (as.mapM g) := by
  induction as with
  | nil => rfl
  | cons a as ih =>
    obtain ⟨ha, has⟩ := List.forall_mem_cons.1 h
    simp only [List.mapM_cons, answer_bind, ha, ih has]
    rfl

end

variable {read : Nat → List Token → ExceptT Fault Option Term}

theorem leftChain_answer {left : Term} {links : List (BinaryOp × List Token)}
    (h : ∀ us ∈ links.map Prod.snd, read depth us = answer (ofTokensAt depth us)) :
    leftChain read depth left links = answer (leftChain ofTokensAt depth left links) := by
  induction links generalizing left with
  | nil => rfl
  | cons link links ih =>
    obtain ⟨op, us⟩ := link
    obtain ⟨hus, hlinks⟩ := List.forall_mem_cons.1 h
    simp only [leftChain, answer_bind, hus, ih hlinks]

theorem rightChain_answer {first : List Token} {links : List (BinaryOp × List Token)}
    (h : ∀ us ∈ first :: links.map Prod.snd, read depth us = answer (ofTokensAt depth us)) :
    rightChain read depth first links = answer (rightChain ofTokensAt depth first links) := by
  induction links generalizing first with
  | nil => exact h first List.mem_cons_self
  | cons link links ih =>
    obtain ⟨op, us⟩ := link
    obtain ⟨hfirst, hlinks⟩ := List.forall_mem_cons.1 h
    simp only [rightChain, answer_bind, hfirst, ih hlinks]
    rfl

/-- What is inside an operand is deeper. -/
theorem operand_answer (h : ∀ d us, depth < d → read d us = answer (ofTokensAt d us))
    (ts : List Token) : operand read depth ts = answer (operand ofTokensAt depth ts) := by
  have hone : ∀ us, read (depth + 1) us = answer (ofTokensAt (depth + 1) us) :=
    fun us => h _ us (by omega)
  have htwo : ∀ us, read (depth + 2) us = answer (ofTokensAt (depth + 2) us) :=
    fun us => h _ us (by omega)
  have hitems : ∀ items : List (List Token), items.mapM (read (depth + 1)) =
      answer (items.mapM (ofTokensAt (depth + 1))) :=
    fun items => answer_mapM fun us _ => hone us
  have hrows : ∀ rows : List (List (List Token)),
      (rows.mapM fun row => row.mapM (read (depth + 2))) =
        answer (rows.mapM fun row => row.mapM (ofTokensAt (depth + 2))) :=
    fun rows => answer_mapM fun row _ => answer_mapM fun us _ => htwo us
  -- only what is put around the answers is left to compare
  unfold operand
  simp only [hone, hitems, hrows]
  split
  · rfl
  · -- an operator in front of an operand
    split
    · rfl
    · exact (answer_map _ _).symm
  · rfl
  · rfl
  · -- a call
    split
    · exact (answer_map _ _).symm
    · rfl
  · -- parentheses
    split
    · split
      · rfl
      · rfl
      · exact (answer_map _ _).symm
    · rfl
  · -- braces
    split
    · split
      · rw [answer_bind]
        congr
        funext rows
        split
        · rfl
        · rfl
      · exact (answer_map _ _).symm
    · rfl
  · rfl

end

/-! ### Ranks -/

section

variable {depth d : Nat} {ts us : List Token}

/-- The priority at which tokens are cut, or that of powers if they are not. -/
def cutPriority (ts : List Token) : Nat :=
  match Chain.ofTokens ts with
  | .ok ⟨_, link :: _⟩ => link.1.priority
  | _ => 5

theorem cutPriority_le_five (ts : List Token) : cutPriority ts ≤ 5 := by
  unfold cutPriority
  split
  · next link _ _ => exact link.1.priority_le_five
  · exact Nat.le_refl 5

theorem one_le_cutPriority (ts : List Token) : 1 ≤ cutPriority ts := by
  unfold cutPriority
  split
  · next link _ _ => exact link.1.one_le_priority
  · decide

theorem cutPriority_eq {first : List Token} {link : BinaryOp × List Token}
    {links : List (BinaryOp × List Token)} (hc : Chain.ofTokens ts = .ok ⟨first, link :: links⟩) :
    cutPriority ts = link.1.priority := by
  rw [cutPriority, hc]

/-- The operands of a chain are cut at higher priorities, unless it is one of powers. -/
theorem cutPriority_lt_of_mem {first : List Token} {link : BinaryOp × List Token}
    {links : List (BinaryOp × List Token)} (hc : Chain.ofTokens ts = .ok ⟨first, link :: links⟩)
    (hleft : ¬ link.1.isRightAssoc) (hus : us ∈ first :: (link :: links).map Prod.snd) :
    cutPriority ts < cutPriority us := by
  have hfour : link.1.priority < 5 :=
    Nat.lt_of_le_of_ne link.1.priority_le_five (mt link.1.isRightAssoc_iff.2 hleft)
  obtain ⟨ms, hms, hops⟩ := Chain.bindsAtLeast_of_mem hc hus
  rw [cutPriority_eq hc, cutPriority]
  split
  · next link' _ hc' =>
    -- the operand is a chain too, and its first link is one of its operations
    obtain ⟨ms', hms', -, hmem, -⟩ := Chain.exists_marks_of_ofTokens hc'
    obtain rfl : ms' = ms := Except.ok.inj (hms'.symm.trans hms)
    exact hops link'.1 hmem
  · exact hfour

/-- A bound on how many activations are nested in one, with itself: five for each depth up to the
limit, less one for each priority below that at which the tokens are cut, and one that only finds
the depth above the limit. -/
def rank (depth : Nat) (ts : List Token) : Nat :=
  if maxNesting < depth then 1 else 5 * (maxNesting - depth) + (7 - cutPriority ts)

theorem one_le_rank (depth : Nat) (ts : List Token) : 1 ≤ rank depth ts := by
  have := cutPriority_le_five ts
  unfold rank
  split
  · exact Nat.le_refl 1
  · omega

theorem rank_le (depth : Nat) (ts : List Token) :
    rank depth ts ≤ 5 * (maxNesting + 1 - depth) + 1 := by
  have := one_le_cutPriority ts
  unfold rank
  split
  · omega
  · omega

theorem rank_of_le (hd : depth ≤ maxNesting) (ts : List Token) :
    rank depth ts = 5 * (maxNesting - depth) + (7 - cutPriority ts) := by
  rw [rank, if_neg (Nat.not_lt.2 hd)]

/-- What is deeper has a lower rank, whatever it is. -/
theorem rank_lt_of_lt (hd : depth ≤ maxNesting) (hlt : depth < d) (ts us : List Token) :
    rank d us < rank depth ts := by
  have hus := rank_le d us
  have hts := cutPriority_le_five ts
  rw [rank_of_le hd]
  omega

/-- At the same depth, what is cut at a higher priority has a lower rank. -/
theorem rank_lt_of_cutPriority_lt (hd : depth ≤ maxNesting) (h : cutPriority ts < cutPriority us) :
    rank depth us < rank depth ts := by
  have hus := cutPriority_le_five us
  rw [rank_of_le hd, rank_of_le hd]
  omega

/-- **Each call lowers the rank.** What an activation answers depends on the reader only at lower
ranks. -/
theorem expression_answer {read : Nat → List Token → ExceptT Fault Option Term}
    (h : ∀ d us, rank d us < rank depth ts → read d us = answer (Term.ofTokensAt d us)) :
    expression read depth ts = answer (Term.ofTokensAt depth ts) := by
  rw [← expression_ofTokensAt]
  unfold expression
  split
  · rfl
  · next hd =>
    have hd : depth ≤ maxNesting := Nat.not_lt.1 hd
    have hdeeper : ∀ d us, depth < d → read d us = answer (Term.ofTokensAt d us) :=
      fun d us hlt => h d us (rank_lt_of_lt hd hlt ts us)
    split
    · rfl
    · split
      · rfl
      · exact operand_answer hdeeper ts
      · next first link links hc =>
        split
        · -- the operands of powers are read deeper
          dsimp only
          split
          · rfl
          · exact rightChain_answer fun us _ => hdeeper _ us (by omega)
        · next hleft =>
          -- those of other operations are cut at a higher priority
          have hsame : ∀ us ∈ first :: (link :: links).map Prod.snd,
              read depth us = answer (Term.ofTokensAt depth us) := by
            intro us hus
            exact h depth us (rank_lt_of_cutPriority_lt hd (cutPriority_lt_of_mem hc hleft hus))
          obtain ⟨hfirst, hlinks⟩ := List.forall_mem_cons.1 hsame
          simp only [answer_bind, hfirst, leftChain_answer hlinks]

/-- A reader that may nest as many activations as the rank does not give up. -/
theorem within_eq {calls : Nat} (h : rank depth ts ≤ calls) :
    within calls depth ts = answer (Term.ofTokensAt depth ts) := by
  induction calls generalizing depth ts with
  | zero =>
    have := one_le_rank depth ts
    omega
  | succ calls ih => exact expression_answer fun d us hlt => ih (by omega)

end

/-- **The recursion of the reader is bounded.** The reader is made of activations that call it, and
at most five of them for each depth up to the limit, and one more, are nested: the reader that gives
up beyond that many never does, whatever the tokens are, and reads the same. -/
theorem within_eq_ofTokens :
    (∀ depth ts, expression Term.ofTokensAt depth ts = Term.ofTokensAt depth ts) ∧
      ∀ ts, within (5 * (maxNesting + 1) + 1) 0 ts = ExceptT.mk (some (Term.ofTokens ts)) := by
  refine ⟨fun depth ts => expression_ofTokensAt ts, fun ts => ?_⟩
  exact within_eq (rank_le 0 ts)

end Activation

end Abacus
