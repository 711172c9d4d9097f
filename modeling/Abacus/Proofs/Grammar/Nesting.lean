import Abacus.Proofs.Grammar.Correctness

/-!
# How deep phrases are nested

`Nests p ts n` says that the tokens `ts`, as a phrase of level `p`, are nested `n` deep. Unary
operators, parentheses, and the elements of lists add one to what they contain, and the entries of
a matrix are two deeper than the matrix. A chain that groups from the left is as deep as its deepest
operand, however long it is; a chain of powers adds one for each of them, for all of its operands.

A chain is one step of this relation, with all of its operands, while in the grammar it is as many
steps as it has operations. The two describe the same phrases (`Nests.exists_derives` and
`Derives.exists_nests`), and a phrase has one depth (`Nests.unique`). That chains have one form is
due to the cut: it finds the operands from which the tokens of a chain were put together
(`Chain.ofTokens_append_linkTokens`).
-/

namespace Abacus

open Chain (linkTokens)
open Token (WellPlaced BindsAtLeast inBrackets separated IsBraceList)

/-! ### Depths -/

/-- The depth of the deepest of some tokens, or zero if there are none. -/
def deepest (depth : List Token → Nat) (items : List (List Token)) : Nat :=
  (items.map depth).foldr max 0

theorem deepest_le_iff {depth : List Token → Nat} {items : List (List Token)} {k : Nat} :
    deepest depth items ≤ k ↔ ∀ item ∈ items, depth item ≤ k := by
  induction items with
  | nil => simp [deepest]
  | cons item items ih =>
    rw [List.forall_mem_cons, ← ih]
    exact Nat.max_le

theorem deepest_congr {depth depth' : List Token → Nat} {items : List (List Token)}
    (h : ∀ item ∈ items, depth item = depth' item) :
    deepest depth items = deepest depth' items := by
  rw [deepest, deepest, List.map_congr_left h]

/-- **The depth of phrases.** `Nests p ts n` holds if the tokens `ts` are a phrase of level `p` that
is nested `n` deep. -/
inductive Nests : (level : Nat) → List Token → (depth : Nat) → Prop
  /-- A phrase of a tighter level is one of each looser level. -/
  | lift {p n : Nat} {ts : List Token} (h : Nests (p + 1) ts n) : Nests p ts n
  /-- The operands of a chain of one priority. Powers, and no other operations, add to the depth. -/
  | chain {p : Nat} {first : List Token} {links : List (BinaryOp × List Token)}
      {depth : List Token → Nat} (hlinks : links ≠ []) (hp : ∀ link ∈ links, link.1.priority = p)
      (h : ∀ us ∈ first :: links.map Prod.snd, Nests (p + 1) us (depth us)) :
      Nests p (first ++ linkTokens links)
        ((if p = 5 then links.length else 0) + deepest depth (first :: links.map Prod.snd))
  /-- A unary operator in front of an operand. -/
  | unary {o : Operator} {op : UnaryOp} {ts : List Token} {n : Nat} (ho : o.unary? = some op)
      (h : Nests 6 ts n) : Nests 6 (.op o :: ts) (1 + n)
  /-- A number. -/
  | number (v : Value) : Nests 7 [.number v] 0
  /-- A name. -/
  | name (x : String) : Nests 7 [.name x] 0
  /-- A call with any number of arguments. -/
  | call (x : String) {items : List (List Token)} {depth : List Token → Nat}
      (h : ∀ item ∈ items, Nests 1 item (depth item)) :
      Nests 7 (.name x :: inBrackets .round (separated items)) (deepest (1 + depth ·) items)
  /-- Expressions in parentheses, of which there is at least one. -/
  | round {items : List (List Token)} {depth : List Token → Nat} (hitems : items ≠ [])
      (h : ∀ item ∈ items, Nests 1 item (depth item)) :
      Nests 7 (inBrackets .round (separated items)) (deepest (1 + depth ·) items)
  /-- Expressions in braces, unless all of them are lists in braces. -/
  | curly {items : List (List Token)} {depth : List Token → Nat}
      (hitems : items = [] ∨ ∃ item ∈ items, ¬ IsBraceList item)
      (h : ∀ item ∈ items, Nests 1 item (depth item)) :
      Nests 7 (inBrackets .curly (separated items)) (deepest (1 + depth ·) items)
  /-- The entries of a matrix, whose rows are lists in braces of equal length. -/
  | matrix {rows : List (List (List Token))} {columns : Nat} {depth : List Token → Nat}
      (hrows : rows ≠ []) (hcolumns : ∀ row ∈ rows, row.length = columns)
      (h : ∀ row ∈ rows, ∀ item ∈ row, Nests 1 item (depth item)) :
      Nests 7
        (inBrackets .curly (separated (rows.map fun row => inBrackets .curly (separated row))))
        (deepest (2 + depth ·) rows.flatten)

/-! ### Chains are found again -/

namespace Chain

variable {p : Nat} {first : List Token} {links : List (BinaryOp × List Token)}

theorem linkTokens_append (links : List (BinaryOp × List Token)) (op : BinaryOp)
    (us : List Token) :
    linkTokens (links ++ [(op, us)]) = linkTokens links ++ .op op.operator :: us := by
  induction links with
  | nil => simp [linkTokens]
  | cons link links ih =>
    obtain ⟨op', us'⟩ := link
    simp [linkTokens, ih]

/-- What is cut at a priority are the operands that were put together with operations of it, if the
operations in them bind more tightly. -/
theorem exists_marks_append_linkTokens (hp : ∀ link ∈ links, link.1.priority = p)
    (h : ∀ us ∈ first :: links.map Prod.snd, WellPlaced us ∧ BindsAtLeast (p + 1) us) :
    ∃ ms, marks 0 none (first ++ linkTokens links) = .ok ms ∧ cut p ms = ⟨first, links⟩ ∧
      (∀ op ∈ operations ms, p ≤ op.priority) ∧ ∀ link ∈ links, link.1 ∈ operations ms := by
  induction links generalizing first with
  | nil =>
    -- all operations bind more tightly, so nothing is cut
    obtain ⟨-, ms, hms, hops⟩ := h first List.mem_cons_self
    refine ⟨ms, ?_, ?_, ?_, nofun⟩
    · simpa [linkTokens] using hms
    · rw [cut_of_forall_ne fun op hop => Nat.ne_of_gt (hops op hop), map_fst_of_marks hms]
    · intro op hop
      exact Nat.le_of_succ_le (hops op hop)
  | cons link links ih =>
    obtain ⟨op, us⟩ := link
    obtain ⟨hfirst, hrest⟩ := List.forall_mem_cons.1 h
    obtain ⟨hop, hlinks⟩ := List.forall_mem_cons.1 hp
    obtain ⟨hw, ms, hms, hmsops⟩ := hfirst
    obtain ⟨ns, hns, hcut, hnsops, hmem⟩ := ih hlinks hrest
    -- the first operand is not cut, and the operation behind it is
    have hcutfirst : cut p ms = ⟨first, []⟩ := by
      rw [cut_of_forall_ne fun op hop => Nat.ne_of_gt (hmsops op hop), map_fst_of_marks hms]
    refine ⟨_, marks_append_op hw.nested hw.last op.binary?_operator hms hns, ?_, ?_, ?_⟩
    · rw [cut_append_cons hop, hcutfirst, hcut]
      rfl
    · simp only [operations_append, operations_cons_some, List.mem_append, List.mem_cons]
      rintro op' (h | rfl | h)
      exacts [Nat.le_of_succ_le (hmsops op' h), Nat.le_of_eq hop.symm, hnsops op' h]
    · simp only [operations_append, operations_cons_some, List.mem_append, List.mem_cons]
      rintro link (rfl | h)
      exacts [.inr (.inl rfl), .inr (.inr (hmem link h))]

/-- **Chains are found again.** -/
theorem ofTokens_append_linkTokens (hlinks : links ≠ [])
    (hp : ∀ link ∈ links, link.1.priority = p)
    (h : ∀ us ∈ first :: links.map Prod.snd, WellPlaced us ∧ BindsAtLeast (p + 1) us) :
    ofTokens (first ++ linkTokens links) = .ok ⟨first, links⟩ := by
  obtain ⟨ms, hms, hcut, hops, hmem⟩ := exists_marks_append_linkTokens hp h
  obtain ⟨link, rest, rfl⟩ := List.exists_cons_of_ne_nil hlinks
  have hlow : lowest? ms = some p := by
    refine (lowest?_eq_some_iff ms p).2 ⟨⟨link.1, ?_, ?_⟩, hops⟩
    · exact hmem link List.mem_cons_self
    · exact hp link List.mem_cons_self
  rw [ofTokens_of_marks hms hlow, hcut]

end Chain

/-! ### Nested phrases are derivable -/

namespace Derives

variable {p : Nat} {ts : List Token} {links : List (BinaryOp × List Token)}

/-- A phrase goes on with the links of a chain that groups from the left. -/
theorem exists_append_left (hp : p ≤ 4) {s : Term} (hs : Derives p ts s)
    (hlinks : ∀ link ∈ links, link.1.priority = p ∧ ∃ t, Derives (p + 1) link.2 t) :
    ∃ t, Derives p (ts ++ linkTokens links) t := by
  induction links generalizing ts s with
  | nil =>
    rw [linkTokens, List.append_nil]
    exact ⟨s, hs⟩
  | cons link links ih =>
    obtain ⟨op, us⟩ := link
    obtain ⟨⟨hop, u, hu⟩, hrest⟩ := List.forall_mem_cons.1 hlinks
    have hstep := Derives.left op.binary?_operator hop hp hs hu
    rw [linkTokens, ← List.cons_append, ← List.append_assoc]
    exact ih hstep hrest

/-- A phrase goes on with the links of a chain of powers. -/
theorem exists_append_right {s : Term} (hs : Derives 6 ts s)
    (hlinks : ∀ link ∈ links, link.1.priority = 5 ∧ ∃ t, Derives 6 link.2 t) :
    ∃ t, Derives 5 (ts ++ linkTokens links) t := by
  induction links generalizing ts s with
  | nil =>
    rw [linkTokens, List.append_nil]
    exact ⟨s, .lift hs⟩
  | cons link links ih =>
    obtain ⟨op, us⟩ := link
    obtain ⟨⟨hop, u, hu⟩, hrest⟩ := List.forall_mem_cons.1 hlinks
    obtain ⟨t, ht⟩ := ih hu hrest
    exact ⟨_, .right op.binary?_operator hop hs ht⟩

/-- Some phrases of expressions in parentheses are an operand. -/
theorem exists_round {items : List (List Token)} {es : List Term} (hitems : items ≠ [])
    (h : List.Forall₂ (Derives 1) items es) :
    ∃ t, Derives 7 (inBrackets .round (separated items)) t := by
  cases h with
  | nil => exact absurd rfl hitems
  | cons ht hts =>
    cases hts with
    | nil => exact ⟨_, .group ht⟩
    | cons hu hus =>
      refine ⟨_, .list ?_ (.cons ht (.cons hu hus))⟩
      simp

/-- The rows of terms are as long as the rows of phrases. -/
theorem forall_length_iff {rows : List (List (List Token))} {es : List (List Term)} {columns : Nat}
    (h : List.Forall₂ (List.Forall₂ (Derives 1)) rows es) :
    (∀ row ∈ es, row.length = columns) ↔ ∀ row ∈ rows, row.length = columns := by
  induction h with
  | nil => simp
  | cons hrow _ ih => rw [List.forall_mem_cons, List.forall_mem_cons, hrow.length_eq, ih]

end Derives

namespace Nests

variable {p q n m : Nat} {ts us : List Token}

/-- Operations bind at most as tightly as powers. -/
theorem level_le_five {links : List (BinaryOp × List Token)} (hlinks : links ≠ [])
    (hp : ∀ link ∈ links, link.1.priority = p) : p ≤ 5 := by
  obtain ⟨link, hlink⟩ := List.exists_mem_of_ne_nil _ hlinks
  rw [← hp link hlink]
  exact link.1.priority_le_five

/-- What has a depth is derivable. -/
theorem exists_derives (h : Nests p ts n) : ∃ t, Derives p ts t := by
  induction h with
  | lift _ ih =>
    obtain ⟨t, ht⟩ := ih
    exact ⟨t, .lift ht⟩
  | @chain p first links depth hne hp _ ih =>
    obtain ⟨⟨s, hs⟩, hoperands⟩ := List.forall_mem_cons.1 ih
    have hlinks : ∀ link ∈ links, link.1.priority = p ∧ ∃ t, Derives (p + 1) link.2 t :=
      fun link hl => ⟨hp link hl, hoperands link.2 (List.mem_map_of_mem hl)⟩
    rcases Nat.lt_or_eq_of_le (level_le_five hne hp) with hfour | rfl
    · exact Derives.exists_append_left (Nat.le_of_lt_succ hfour) (.lift hs) hlinks
    · exact Derives.exists_append_right hs hlinks
  | unary ho _ ih =>
    obtain ⟨t, ht⟩ := ih
    exact ⟨_, .unary ho ht⟩
  | number v => exact ⟨_, .number v⟩
  | name x => exact ⟨_, .name x⟩
  | call x _ ih =>
    obtain ⟨es, hes⟩ := Token.exists_forall₂ ih
    exact ⟨_, .call x hes⟩
  | round hitems _ ih =>
    obtain ⟨es, hes⟩ := Token.exists_forall₂ ih
    exact Derives.exists_round hitems hes
  | curly hitems _ ih =>
    obtain ⟨es, hes⟩ := Token.exists_forall₂ ih
    exact ⟨_, .vector hitems hes⟩
  | matrix hrows hcolumns _ ih =>
    obtain ⟨es, hes⟩ := Token.exists_forall₂ fun row hr => Token.exists_forall₂ (ih row hr)
    exact ⟨_, .matrix hrows ((Derives.forall_length_iff hes).2 hcolumns) hes⟩

theorem wellPlaced (h : Nests p ts n) : WellPlaced ts ∧ BindsAtLeast p ts := by
  obtain ⟨t, ht⟩ := h.exists_derives
  exact ht.wellPlaced

end Nests

/-! ### Derivable phrases have a depth -/

namespace Nests

variable {p : Nat} {ts us : List Token}

/-- Tokens that have some depth have it by one function of tokens. -/
theorem exists_depth {items : List (List Token)} (h : ∀ item ∈ items, ∃ n, Nests p item n) :
    ∃ depth : List Token → Nat, ∀ item ∈ items, Nests p item (depth item) := by
  choose! depth hdepth using h
  exact ⟨depth, hdepth⟩

/-- A phrase is a chain of one operand, or of several. -/
theorem exists_chain {n : Nat} (h : Nests p ts n) (hp : p ≤ 5) :
    ∃ first links, ts = first ++ linkTokens links ∧ (∀ link ∈ links, link.1.priority = p) ∧
      ∀ us ∈ first :: links.map Prod.snd, ∃ k, Nests (p + 1) us k := by
  cases h with
  | lift h =>
    refine ⟨ts, [], by rw [linkTokens, List.append_nil], nofun, ?_⟩
    rw [List.map_nil, List.forall_mem_singleton]
    exact ⟨n, h⟩
  | chain _ hp h => exact ⟨_, _, rfl, hp, fun us hus => ⟨_, h us hus⟩⟩
  | unary | number | name | call | round | curly | matrix => omega

theorem exists_of_chain {first : List Token} {links : List (BinaryOp × List Token)}
    (hlinks : links ≠ []) (hp : ∀ link ∈ links, link.1.priority = p)
    (h : ∀ us ∈ first :: links.map Prod.snd, ∃ n, Nests (p + 1) us n) :
    ∃ n, Nests p (first ++ linkTokens links) n := by
  obtain ⟨depth, hdepth⟩ := exists_depth h
  exact ⟨_, .chain hlinks hp hdepth⟩

end Nests

/-- **What is derivable has a depth.** -/
theorem Derives.exists_nests {p : Nat} {ts : List Token} {t : Term} (h : Derives p ts t) :
    ∃ n, Nests p ts n := by
  have hall : ∀ {items : List (List Token)} {es : List Term},
      List.Forall₂ (fun ts t => ∃ _ : Derives 1 ts t, ∃ n, Nests 1 ts n) items es →
        ∀ item ∈ items, ∃ n, Nests 1 item n := by
    intro items es h item hi
    obtain ⟨-, -, -, hn⟩ := Token.exists_of_mem_left h hi
    exact hn
  induction h using Derives.induction with
  | lift _ ih =>
    obtain ⟨n, hn⟩ := ih
    exact ⟨n, .lift hn⟩
  | @left p ts us o op s t hop hp hleft _ _ ihs iht =>
    -- the operation is the last link of the chain on its left
    obtain ⟨m, hm⟩ := ihs
    obtain ⟨first, links, rfl, hlinks, hoperands⟩ := hm.exists_chain (by omega)
    obtain rfl := Operator.eq_operator_of_binary? hop
    rw [List.append_assoc, ← Chain.linkTokens_append]
    refine Nests.exists_of_chain (by simp) ?_ ?_
    · simpa [or_imp, forall_and, hp] using hlinks
    · rw [List.map_append, ← List.cons_append]
      intro vs hvs
      rcases List.mem_append.1 hvs with hvs | hvs
      · exact hoperands vs hvs
      · rw [List.mem_singleton.1 hvs]
        exact iht
  | @right ts us o op s t hop hp _ _ ihs iht =>
    -- the operation is the first link of the chain on its right
    obtain ⟨m, hm⟩ := iht
    obtain ⟨first, links, rfl, hlinks, hoperands⟩ := hm.exists_chain (by omega)
    obtain rfl := Operator.eq_operator_of_binary? hop
    refine @Nests.exists_of_chain 5 ts ((op, first) :: links) (by simp) ?_ ?_
    · exact List.forall_mem_cons.2 ⟨hp, hlinks⟩
    · exact List.forall_mem_cons.2 ⟨ihs, hoperands⟩
  | unary hop _ ih =>
    obtain ⟨n, hn⟩ := ih
    exact ⟨_, .unary hop hn⟩
  | number v => exact ⟨0, .number v⟩
  | name x => exact ⟨0, .name x⟩
  | call x _ ih =>
    obtain ⟨depth, hdepth⟩ := Nests.exists_depth (hall ih)
    exact ⟨_, .call x hdepth⟩
  | @group ts t _ ih =>
    obtain ⟨n, hn⟩ := ih
    refine ⟨_, @Nests.round [ts] (fun _ => n) (by simp) ?_⟩
    exact List.forall_mem_singleton.2 hn
  | list hlen _ ih =>
    obtain ⟨depth, hdepth⟩ := Nests.exists_depth (hall ih)
    refine ⟨_, .round ?_ hdepth⟩
    rintro rfl
    simp at hlen
  | vector hitems _ ih =>
    obtain ⟨depth, hdepth⟩ := Nests.exists_depth (hall ih)
    exact ⟨_, .curly hitems hdepth⟩
  | @matrix rows es columns hrows hcolumns h ih =>
    have hitems : ∀ item ∈ rows.flatten, ∃ n, Nests 1 item n := by
      intro item hi
      obtain ⟨row, hrow, hi⟩ := List.mem_flatten.1 hi
      obtain ⟨_, -, hitems⟩ := Token.exists_of_mem_left ih hrow
      exact hall hitems item hi
    obtain ⟨depth, hdepth⟩ := Nests.exists_depth hitems
    have hentries : ∀ row ∈ rows, ∀ item ∈ row, Nests 1 item (depth item) :=
      fun row hrow item hi => hdepth item (List.mem_flatten.2 ⟨row, hrow, hi⟩)
    exact ⟨_, .matrix hrows ((Derives.forall_length_iff h).1 hcolumns) hentries⟩

/-! ### Phrases have one depth -/

namespace Nests

variable {p q n m : Nat} {ts us : List Token}

/-- No phrase is of a tighter level than the operands. -/
theorem level_le_seven (h : Nests p ts n) : p ≤ 7 := by
  obtain ⟨t, ht⟩ := h.exists_derives
  exact ht.level_le_seven

/-- The operands of a chain are known from how its tokens are cut. -/
theorem ofTokens_eq {first : List Token} {links : List (BinaryOp × List Token)}
    {depth : List Token → Nat} (hlinks : links ≠ []) (hp : ∀ link ∈ links, link.1.priority = p)
    (h : ∀ us ∈ first :: links.map Prod.snd, Nests (p + 1) us (depth us)) :
    Chain.ofTokens (first ++ linkTokens links) = .ok ⟨first, links⟩ :=
  Chain.ofTokens_append_linkTokens hlinks hp fun us hus => (h us hus).wellPlaced

/-- A phrase is a chain with links, or an operand. -/
theorem chain_or_operand (h : Nests p ts n) :
    (∃ q first links depth, links ≠ [] ∧ (∀ link ∈ links, link.1.priority = q) ∧
      (∀ us ∈ first :: links.map Prod.snd, Nests (q + 1) us (depth us)) ∧
      ts = first ++ linkTokens links ∧
      n = (if q = 5 then links.length else 0) + deepest depth (first :: links.map Prod.snd)) ∨
    Nests 6 ts n := by
  induction h with
  | lift _ ih => exact ih
  | chain hlinks hp h _ => exact .inl ⟨_, _, _, _, hlinks, hp, h, rfl, rfl⟩
  | unary ho h => exact .inr (.unary ho h)
  | number v => exact .inr (.lift (.number v))
  | name x => exact .inr (.lift (.name x))
  | call x h => exact .inr (.lift (.call x h))
  | round hitems h => exact .inr (.lift (.round hitems h))
  | curly hitems h => exact .inr (.lift (.curly hitems h))
  | matrix hrows hcolumns h => exact .inr (.lift (.matrix hrows hcolumns h))

/-- A phrase without operations between operands is an operand. -/
theorem six_of_bindsAtLeast (h : Nests p ts n) (hb : BindsAtLeast 6 ts) : Nests 6 ts n := by
  rcases h.chain_or_operand with ⟨q, first, links, depth, hlinks, hp, hus, rfl, -⟩ | h
  · -- such tokens are a chain of one operand
    have hchain := Chain.ofTokens_of_bindsAtLeast_six hb
    rw [ofTokens_eq hlinks hp hus] at hchain
    exact absurd (congrArg Chain.links (Except.ok.inj hchain)) hlinks
  · exact h

/-- The depth of a chain is that of its operands and its powers. -/
theorem exists_of_ofTokens {first : List Token} {links : List (BinaryOp × List Token)}
    (h : Nests q ts n) (hlinks : links ≠ []) (hp : ∀ link ∈ links, link.1.priority = p)
    (hc : Chain.ofTokens ts = .ok ⟨first, links⟩) :
    ∃ depth : List Token → Nat,
      (∀ us ∈ first :: links.map Prod.snd, Nests (p + 1) us (depth us)) ∧
      n = (if p = 5 then links.length else 0) + deepest depth (first :: links.map Prod.snd) := by
  rcases h.chain_or_operand with ⟨p', first', links', depth, hlinks', hp', hus, rfl, rfl⟩ | h
  · rw [ofTokens_eq hlinks' hp' hus] at hc
    obtain ⟨rfl, rfl⟩ := Chain.mk.inj (Except.ok.inj hc)
    obtain ⟨link, hlink⟩ := List.exists_mem_of_ne_nil _ hlinks
    obtain rfl : p' = p := (hp' link hlink).symm.trans (hp link hlink)
    exact ⟨depth, hus, rfl⟩
  · -- an operand has no links
    rw [Chain.ofTokens_of_bindsAtLeast_six h.wellPlaced.2] at hc
    exact absurd (congrArg Chain.links (Except.ok.inj hc)).symm hlinks

/-- What follows a unary operator is its operand. -/
theorem exists_of_cons_op {o : Operator} (h : Nests 6 (.op o :: us) n) :
    ∃ k, Nests 6 us k ∧ n = 1 + k := by
  generalize hts : Token.op o :: us = ts at h
  cases h with
  | lift h =>
    cases h with
    | lift h => exact absurd h.level_le_seven (by decide)
    | chain hlinks hp h => exact absurd (level_le_five hlinks hp) (by decide)
    | _ => cases hts
  | chain hlinks hp h => exact absurd (level_le_five hlinks hp) (by decide)
  | unary ho h =>
    cases hts
    exact ⟨_, h, rfl⟩

/-- An operand without a unary operator in front is one of the last level. -/
theorem seven_of_six (h : Nests 6 ts n) (hts : ∀ o us, ts ≠ .op o :: us) : Nests 7 ts n := by
  cases h with
  | lift h => exact h
  | chain hlinks hp h => exact absurd (level_le_five hlinks hp) (by decide)
  | unary => exact absurd rfl (hts _ _)

theorem eq_zero_of_singleton {t : Token} (h : Nests 7 [t] n) : n = 0 := by
  generalize hts : [t] = ts at h
  cases h with
  | lift h => exact absurd h.level_le_seven (by decide)
  | chain hlinks hp h => exact absurd (level_le_five hlinks hp) (by decide)
  | number | name => rfl
  | _ => simp [inBrackets] at hts

theorem exists_of_call {x : String} (h : Nests 7 (.name x :: inBrackets .round us) n) :
    ∃ (items : List (List Token)) (depth : List Token → Nat), us = separated items ∧
      (∀ item ∈ items, Nests 1 item (depth item)) ∧ n = deepest (1 + depth ·) items := by
  generalize hts : Token.name x :: inBrackets .round us = ts at h
  cases h with
  | lift h => exact absurd h.level_le_seven (by decide)
  | chain hlinks hp h => exact absurd (level_le_five hlinks hp) (by decide)
  | call y h =>
    obtain ⟨⟨⟩, hus⟩ := List.cons.inj hts
    exact ⟨_, _, Token.inBrackets_inj.1 hus, h, rfl⟩
  | _ => cases hts

theorem exists_of_round (h : Nests 7 (inBrackets .round us) n) :
    ∃ (items : List (List Token)) (depth : List Token → Nat), us = separated items ∧
      (∀ item ∈ items, Nests 1 item (depth item)) ∧ n = deepest (1 + depth ·) items := by
  generalize hts : inBrackets .round us = ts at h
  cases h with
  | lift h => exact absurd h.level_le_seven (by decide)
  | chain hlinks hp h => exact absurd (level_le_five hlinks hp) (by decide)
  | round hitems h => exact ⟨_, _, Token.inBrackets_inj.1 hts, h, rfl⟩
  | _ => cases hts

theorem exists_of_curly (h : Nests 7 (inBrackets .curly us) n) :
    (∃ (items : List (List Token)) (depth : List Token → Nat),
        (items = [] ∨ ∃ item ∈ items, ¬ IsBraceList item) ∧ us = separated items ∧
        (∀ item ∈ items, Nests 1 item (depth item)) ∧ n = deepest (1 + depth ·) items) ∨
      ∃ (rows : List (List (List Token))) (depth : List Token → Nat), rows ≠ [] ∧
        us = separated (rows.map fun row => inBrackets .curly (separated row)) ∧
        (∀ row ∈ rows, ∀ item ∈ row, Nests 1 item (depth item)) ∧
        n = deepest (2 + depth ·) rows.flatten := by
  generalize hts : inBrackets .curly us = ts at h
  cases h with
  | lift h => exact absurd h.level_le_seven (by decide)
  | chain hlinks hp h => exact absurd (level_le_five hlinks hp) (by decide)
  | curly hitems h => exact .inl ⟨_, _, hitems, Token.inBrackets_inj.1 hts, h, rfl⟩
  | matrix hrows hcolumns h => exact .inr ⟨_, _, hrows, Token.inBrackets_inj.1 hts, h, rfl⟩
  | _ => cases hts

/-- A phrase of the last level is one at each level, unless it starts with an operator. -/
theorem seven_of_seven (h : Nests 7 ts n) (h' : Nests q ts m) (hts : ∀ o us, ts ≠ .op o :: us) :
    Nests 7 ts m :=
  seven_of_six (h'.six_of_bindsAtLeast (h.wellPlaced.2.mono (by decide))) hts

theorem exists_items {items : List (List Token)} {depth : List Token → Nat}
    (h : ∀ item ∈ items, Nests 1 item (depth item)) :
    ∃ es, List.Forall₂ (Derives 1) items es :=
  Token.exists_forall₂ fun item hi => (h item hi).exists_derives

theorem exists_rows {rows : List (List (List Token))} {depth : List Token → Nat}
    (h : ∀ row ∈ rows, ∀ item ∈ row, Nests 1 item (depth item)) :
    ∃ es, List.Forall₂ (List.Forall₂ (Derives 1)) rows es :=
  Token.exists_forall₂ fun row hr => exists_items (h row hr)

/-- Lists of phrases with the same tokens are the same. -/
theorem items_inj {items items' : List (List Token)} {depth depth' : List Token → Nat}
    (h : ∀ item ∈ items, Nests 1 item (depth item))
    (h' : ∀ item ∈ items', Nests 1 item (depth' item))
    (heq : separated items = separated items') : items = items' := by
  obtain ⟨es, hes⟩ := exists_items h
  obtain ⟨es', hes'⟩ := exists_items h'
  exact Derives.items_inj hes hes' heq

/-- **A phrase has one depth.** -/
theorem unique (h : Nests p ts n) (h' : Nests q ts m) : n = m := by
  induction h generalizing q m with
  | lift _ ih => exact ih h'
  | @chain p first links depth hlinks hp h ih =>
    -- the chain is found again, and its operands have the same depths
    obtain ⟨depth', hdepth', rfl⟩ := h'.exists_of_ofTokens hlinks hp (ofTokens_eq hlinks hp h)
    rw [deepest_congr fun us hus => ih us hus (hdepth' us hus)]
  | unary ho h ih =>
    have hsix := h'.six_of_bindsAtLeast (Nests.unary ho h).wellPlaced.2
    obtain ⟨k, hk, rfl⟩ := exists_of_cons_op hsix
    rw [ih hk]
  | number v => exact (eq_zero_of_singleton (seven_of_seven (.number v) h' nofun)).symm
  | name x => exact (eq_zero_of_singleton (seven_of_seven (.name x) h' nofun)).symm
  | call x h ih =>
    obtain ⟨items', depth', hus, hdepth', rfl⟩ :=
      exists_of_call (seven_of_seven (.call x h) h' nofun)
    obtain rfl := items_inj h hdepth' hus
    exact deepest_congr fun item hi => congrArg (1 + ·) (ih item hi (hdepth' item hi))
  | round hitems h ih =>
    obtain ⟨items', depth', hus, hdepth', rfl⟩ :=
      exists_of_round (seven_of_seven (.round hitems h) h' nofun)
    obtain rfl := items_inj h hdepth' hus
    exact deepest_congr fun item hi => congrArg (1 + ·) (ih item hi (hdepth' item hi))
  | curly hitems h ih =>
    rcases exists_of_curly (seven_of_seven (.curly hitems h) h' nofun) with
      ⟨items', depth', -, hus, hdepth', rfl⟩ | ⟨rows, depth', hrows, hus, hdepth', -⟩
    · obtain rfl := items_inj h hdepth' hus
      exact deepest_congr fun item hi => congrArg (1 + ·) (ih item hi (hdepth' item hi))
    · -- a vector has other tokens than a matrix
      obtain ⟨es, hes⟩ := exists_items h
      obtain ⟨es', hes'⟩ := exists_rows hdepth'
      exact absurd hus (Derives.vector_ne_matrix hitems hes hrows hes')
  | matrix hrows hcolumns h ih =>
    obtain ⟨es, hes⟩ := exists_rows h
    rcases exists_of_curly (seven_of_seven (.matrix hrows hcolumns h) h' nofun) with
      ⟨items', depth', hitems, hus, hdepth', -⟩ | ⟨rows', depth', -, hus, hdepth', rfl⟩
    · obtain ⟨es', hes'⟩ := exists_items hdepth'
      exact absurd hus.symm (Derives.vector_ne_matrix hitems hes' hrows hes)
    · obtain ⟨es', hes'⟩ := exists_rows hdepth'
      obtain rfl := Derives.rows_inj hes hes' hus
      refine deepest_congr fun item hi => congrArg (2 + ·) ?_
      obtain ⟨row, hrow, hi⟩ := List.mem_flatten.1 hi
      exact ih row hrow item hi (hdepth' row hrow item hi)

end Nests

end Abacus
