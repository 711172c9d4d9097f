import Abacus.Proofs.Grammar.Nesting

/-!
# The limit on nesting

Derivable tokens are read unless they are nested deeper than the limit, and nothing else makes the
reader report it (`Term.ofTokens_nesting`). What a list or a chain needs in order to be read is that
each of its parts can be read at the depth at which it stands, so the conditions of the parts add up
to that of the whole (`Nests.succeeds_iff`); which fault is reported otherwise is known from
completeness already.

The depth is compared with the limit before anything else is done, and for powers once more before
their operands are read. Both comparisons follow from those of the operands, as every chain has one.
-/

namespace Abacus

open Chain (linkTokens)
open Token (inBrackets)

/-! ### Computations that succeed -/

/-- A computation that has a value. -/
def Succeeds {α : Type} (e : Except Fault α) : Prop := ∃ a, e = .ok a

namespace Succeeds

variable {α β : Type} {e : Except Fault α}

theorem bind_iff {f : α → Except Fault β} {P : Prop} (hf : ∀ a, e = .ok a → (Succeeds (f a) ↔ P)) :
    Succeeds (e >>= f) ↔ Succeeds e ∧ P := by
  cases e with
  | error fault => simp [Succeeds]
  | ok a =>
    rw [ok_bind, hf a rfl]
    simp [Succeeds]

theorem map_iff (f : α → β) : Succeeds (f <$> e) ↔ Succeeds e := by
  cases e with
  | error fault => simp [Succeeds]
  | ok a => simp [Succeeds]

theorem of_ok (a : α) : Succeeds (.ok a) := ⟨a, rfl⟩

end Succeeds

namespace Term

variable {depth : Nat} {ts : List Token}

/-! ### Parts that are read -/

theorem succeeds_ofItems_iff {items : List (List Token)} :
    Succeeds (ofItems depth items) ↔ ∀ item ∈ items, Succeeds (ofTokensAt depth item) := by
  induction items with
  | nil =>
    rw [ofItems_nil]
    simp [Succeeds.of_ok]
  | cons item items ih =>
    rw [ofItems_cons, List.forall_mem_cons, ← ih]
    refine Succeeds.bind_iff fun t _ => ?_
    exact Succeeds.map_iff (t :: ·)

theorem succeeds_ofRowItems_iff {rows : List (List (List Token))} :
    Succeeds (ofRowItems depth rows) ↔
      ∀ item ∈ rows.flatten, Succeeds (ofTokensAt depth item) := by
  induction rows with
  | nil =>
    rw [ofRowItems_nil]
    simp [Succeeds.of_ok]
  | cons row rows ih =>
    rw [ofRowItems_cons, List.flatten_cons, List.forall_mem_append, ← ih, ← succeeds_ofItems_iff]
    refine Succeeds.bind_iff fun r _ => ?_
    exact Succeeds.map_iff (r :: ·)

theorem succeeds_ofLeftChain_iff {left : Term} {links : List (BinaryOp × List Token)} :
    Succeeds (ofLeftChain depth left links) ↔
      ∀ us ∈ links.map Prod.snd, Succeeds (ofTokensAt depth us) := by
  induction links generalizing left with
  | nil =>
    rw [ofLeftChain_nil]
    simp [Succeeds.of_ok]
  | cons link links ih =>
    obtain ⟨op, us⟩ := link
    rw [ofLeftChain_cons, List.map_cons, List.forall_mem_cons]
    exact Succeeds.bind_iff fun right _ => ih

theorem succeeds_ofRightChain_iff {first : List Token} {links : List (BinaryOp × List Token)} :
    Succeeds (ofRightChain depth first links) ↔
      ∀ us ∈ first :: links.map Prod.snd, Succeeds (ofTokensAt depth us) := by
  induction links generalizing first with
  | nil =>
    rw [ofRightChain_nil]
    simp
  | cons link links ih =>
    obtain ⟨op, us⟩ := link
    -- the first operand is read last
    rw [ofRightChain_cons, List.forall_mem_cons, and_comm, List.map_cons, ← ih]
    refine Succeeds.bind_iff fun right _ => ?_
    exact Succeeds.map_iff (Term.binary op · right)

/-! ### Chains and operands -/

theorem not_succeeds_of_lt (h : maxNesting < depth) (ts : List Token) :
    ¬ Succeeds (ofTokensAt depth ts) := by
  rintro ⟨t, ht⟩
  rw [ofTokensAt_of_lt h] at ht
  cases ht

/-- A chain is read if and only if its operands are, where powers read them deeper. -/
theorem succeeds_iff_of_chain {p : Nat} {first : List Token} {links : List (BinaryOp × List Token)}
    (hts : ts ≠ []) (hlinks : links ≠ []) (hp : ∀ link ∈ links, link.1.priority = p)
    (hc : Chain.ofTokens ts = .ok ⟨first, links⟩) :
    Succeeds (ofTokensAt depth ts) ↔ ∀ us ∈ first :: links.map Prod.snd,
      Succeeds (ofTokensAt (depth + if p = 5 then links.length else 0) us) := by
  by_cases hd : maxNesting < depth
  · -- the first operand is not read either
    refine iff_of_false (not_succeeds_of_lt hd ts) fun h => ?_
    exact not_succeeds_of_lt (by omega) first (h first List.mem_cons_self)
  obtain ⟨link, rest, rfl⟩ := List.exists_cons_of_ne_nil hlinks
  have hlink := hp link List.mem_cons_self
  by_cases hfive : p = 5
  · rw [ofTokensAt_eq_ofRightChain (Nat.not_lt.1 hd) hts hc
      (link.1.isRightAssoc_iff.2 (hlink.trans hfive)), if_pos hfive, List.length_cons]
    by_cases hdeep : maxNesting < depth + (rest.length + 1)
    · rw [if_pos hdeep]
      refine iff_of_false (by simp [Succeeds]) fun h => ?_
      exact not_succeeds_of_lt hdeep first (h first List.mem_cons_self)
    · rw [if_neg hdeep]
      exact succeeds_ofRightChain_iff
  · have hleft : link.1.isRightAssoc = false := by
      rw [Bool.eq_false_iff, ne_eq, link.1.isRightAssoc_iff, hlink]
      exact hfive
    rw [ofTokensAt_eq_ofLeftChain (Nat.not_lt.1 hd) hts hc hleft, if_neg hfive, Nat.add_zero,
      List.forall_mem_cons]
    exact Succeeds.bind_iff fun left _ => succeeds_ofLeftChain_iff

end Term

/-- What is at a depth is within a limit if all of its parts are. -/
theorem add_deepest_le_iff {depth : List Token → Nat} {items : List (List Token)} {d k : Nat}
    (hd : items = [] → d ≤ k) :
    d + deepest depth items ≤ k ↔ ∀ item ∈ items, d + depth item ≤ k := by
  by_cases hdk : d ≤ k
  · have hle : ∀ n, d + n ≤ k ↔ n ≤ k - d := by
      intro n
      omega
    simp only [hle, deepest_le_iff]
  · -- then there is a part, and that is not within the limit either
    obtain ⟨item, hitem⟩ := List.exists_mem_of_ne_nil items (mt hd hdk)
    refine iff_of_false (by omega) fun h => ?_
    have := h item hitem
    omega

namespace Nests

variable {p n depth : Nat} {ts : List Token} {items : List (List Token)}

/-- An operand is read if and only if its parts are, as long as it stands within the limit. -/
theorem succeeds_iff_of_six (h : Nests 6 ts n)
    (hread : depth ≤ maxNesting →
      (Succeeds (Term.ofOperand depth ts) ↔ depth + n ≤ maxNesting)) :
    Succeeds (Term.ofTokensAt depth ts) ↔ depth + n ≤ maxNesting := by
  by_cases hd : maxNesting < depth
  · exact iff_of_false (Term.not_succeeds_of_lt hd ts) (by omega)
  · obtain ⟨hw, hb⟩ := h.wellPlaced
    have hchain := Chain.ofTokens_of_bindsAtLeast_six hb
    rw [Term.ofTokensAt_eq_ofOperand (Nat.not_lt.1 hd) hw.ne_nil hchain]
    exact hread (Nat.not_lt.1 hd)

/-- **Phrases are read up to the limit.** A phrase at a depth is read if and only if what is nested
in it does not get deeper than the limit. -/
theorem succeeds_iff (h : Nests p ts n) (depth : Nat) :
    Succeeds (Term.ofTokensAt depth ts) ↔ depth + n ≤ maxNesting := by
  -- the elements of a list are some levels deeper than the list
  have hlist : ∀ {items : List (List Token)} {nesting : List Token → Nat} {d : Nat} (k : Nat),
      (∀ item ∈ items, ∀ depth,
        Succeeds (Term.ofTokensAt depth item) ↔ depth + nesting item ≤ maxNesting) →
      (items = [] → d ≤ maxNesting) →
      ((∀ item ∈ items, Succeeds (Term.ofTokensAt (d + k) item)) ↔
        d + deepest (k + nesting ·) items ≤ maxNesting) := by
    intro items nesting d k ih hd
    rw [add_deepest_le_iff hd]
    refine forall₂_congr fun item hi => ?_
    rw [ih item hi, Nat.add_assoc]
  induction h generalizing depth with
  | lift _ ih => exact ih depth
  | @chain p first links nesting hlinks hp h ih =>
    -- powers count for each of their operands
    have hts : first ++ linkTokens links ≠ [] :=
      List.append_ne_nil_of_left_ne_nil (h first List.mem_cons_self).wellPlaced.1.ne_nil _
    rw [Term.succeeds_iff_of_chain hts hlinks hp (ofTokens_eq hlinks hp h), ← Nat.add_assoc,
      add_deepest_le_iff fun hnil => absurd hnil (List.cons_ne_nil first _)]
    exact forall₂_congr fun us hus => ih us hus _
  | unary ho h ih =>
    refine succeeds_iff_of_six (.unary ho h) fun _ => ?_
    rw [Term.ofOperand_unary ho, Succeeds.map_iff, ← Nat.add_assoc]
    exact ih (depth + 1)
  | number v =>
    refine succeeds_iff_of_six (.lift (.number v)) fun hd => ?_
    rw [Term.ofOperand_number]
    exact iff_of_true (.of_ok _) hd
  | name x =>
    refine succeeds_iff_of_six (.lift (.name x)) fun hd => ?_
    rw [Term.ofOperand_name]
    exact iff_of_true (.of_ok _) hd
  | call x h ih =>
    refine succeeds_iff_of_six (.lift (.call x h)) fun hd => ?_
    obtain ⟨es, hes⟩ := exists_items h
    have hg := Token.group?_append (Derives.nested_separated hes) .round
    rw [inBrackets, Term.ofOperand_call x hg, Succeeds.map_iff, Derives.elements_separated hes,
      Term.succeeds_ofItems_iff]
    exact hlist 1 ih fun _ => hd
  | @round items nesting hitems h ih =>
    refine succeeds_iff_of_six (.lift (.round hitems h)) fun hd => ?_
    obtain ⟨es, hes⟩ := exists_items h
    have hg := Token.group?_append (Derives.nested_separated hes) .round
    have he := Derives.elements_separated hes
    rw [← hlist 1 ih fun _ => hd]
    cases items with
    | nil => exact absurd rfl hitems
    | cons item rest =>
      cases rest with
      | nil =>
        -- the only expression in parentheses is read by itself
        rw [inBrackets, Term.ofOperand_group hg he, List.forall_mem_singleton]
      | cons next rest =>
        rw [inBrackets, Term.ofOperand_list hg (by rw [he]; simp), Succeeds.map_iff, he,
          Term.succeeds_ofItems_iff]
  | curly hitems h ih =>
    refine succeeds_iff_of_six (.lift (.curly hitems h)) fun hd => ?_
    obtain ⟨es, hes⟩ := exists_items h
    have hg := Token.group?_append (Derives.nested_separated hes) .curly
    have he := Derives.elements_separated hes
    have hm := Derives.matrixRows?_eq_none hes hitems
    rw [inBrackets, Term.ofOperand_vector hg (he.symm ▸ hm), Succeeds.map_iff, he,
      Term.succeeds_ofItems_iff]
    exact hlist 1 ih fun _ => hd
  | @matrix rows columns nesting hrows hcolumns h ih =>
    refine succeeds_iff_of_six (.lift (.matrix hrows hcolumns h)) fun hd => ?_
    obtain ⟨es, hes⟩ := exists_rows h
    obtain ⟨hnested, he⟩ := Derives.elements_map hes
    have hg := Token.group?_append hnested .curly
    have hm := Derives.matrixRows?_map hrows hes
    -- rows that are read are of equal length, so the entries alone decide
    have hrect : ∀ r, Term.ofRowItems (depth + 2) rows = .ok r → Term.isRectangular r := by
      intro r hr
      have hterms := Term.forall₂_of_ofRowItems (fun _ _ item _ => Term.derives_of_ofTokensAt item)
        (fun row hrow item hi => (h row hrow item hi).wellPlaced.1.nested) hr
      exact (Term.isRectangular_iff r).2 ⟨columns, (Derives.forall_length_iff hterms).2 hcolumns⟩
    rw [inBrackets, Term.ofOperand_matrix hg (he.symm ▸ hm), Succeeds.bind_iff (P := True),
      and_true, Term.succeeds_ofRowItems_iff]
    · refine hlist 2 ?_ fun _ => hd
      intro item hi
      obtain ⟨row, hrow, hi⟩ := List.mem_flatten.1 hi
      exact ih row hrow item hi
    · intro r hr
      rw [if_pos (hrect r hr)]
      exact iff_of_true (.of_ok _) trivial

end Nests

namespace Term

/-- **The limit is one on nesting, and on nothing else.** Derivable tokens have one depth. If it is
above the limit, that is the fault, and otherwise they are read into the derived term. So a chain
that groups from the left is read whenever its operands are, however long it is. -/
theorem ofTokens_nesting :
    (∀ ts t, Derives 1 ts t → ∃ n, (∀ m, Nests 1 ts m ↔ m = n) ∧
      ofTokens ts = if maxNesting < n then .error .nesting else .ok t) ∧
    ∀ (p : Nat) (first : List Token) (links : List (BinaryOp × List Token)), p ≤ 4 →
      (∀ link ∈ links, link.1.priority = p) →
      (∀ us ∈ first :: links.map Prod.snd, (∃ t, Derives (p + 1) us t) ∧ ∃ t, ofTokens us = .ok t) →
      ∃ t, ofTokens (first ++ linkTokens links) = .ok t := by
  constructor
  · intro ts t h
    obtain ⟨n, hn⟩ := h.exists_nests
    refine ⟨n, fun m => ⟨fun hm => hm.unique hn, fun hm => hm ▸ hn⟩, ?_⟩
    have hiff := hn.succeeds_iff 0
    rw [Nat.zero_add] at hiff
    split
    · next hlt =>
      -- the only fault of derivable tokens is that of the limit
      refine (h.upToNesting 0).resolve_left fun hok => ?_
      have := hiff.1 ⟨t, hok⟩
      omega
    · next hle =>
      refine (h.upToNesting 0).resolve_right fun herror => ?_
      obtain ⟨s, hs⟩ := hiff.2 (Nat.not_lt.1 hle)
      rw [herror] at hs
      cases hs
  · intro p first links hp hlinks h
    by_cases hne : links = []
    · subst hne
      rw [linkTokens, List.append_nil]
      exact (h first List.mem_cons_self).2
    · have hwell : ∀ us ∈ first :: links.map Prod.snd,
          Token.WellPlaced us ∧ Token.BindsAtLeast (p + 1) us := by
        intro us hus
        obtain ⟨⟨t, ht⟩, -⟩ := h us hus
        exact ht.wellPlaced
      have hts : first ++ linkTokens links ≠ [] :=
        List.append_ne_nil_of_left_ne_nil (hwell first List.mem_cons_self).1.ne_nil _
      have hchain := Chain.ofTokens_append_linkTokens hne hlinks hwell
      refine (succeeds_iff_of_chain hts hne hlinks hchain).2 fun us hus => ?_
      rw [if_neg (by omega)]
      exact (h us hus).2

/-- Each sign in front of an operand adds one level. -/
theorem nests_signs (k : Nat) :
    Nests 6 (List.replicate k (.op .minus) ++ [.name "x"]) k := by
  induction k with
  | zero => exact .lift (.name "x")
  | succ k ih =>
    rw [List.replicate_succ, Nat.add_comm]
    exact .unary rfl ih

/-- As many signs as the limit are read in front of a name, and one more is not. -/
theorem ofTokens_nesting_signs :
    let signs (k : Nat) : List Token := List.replicate k (.op .minus) ++ [.name "x"]
    (∃ t, ofTokens (signs maxNesting) = .ok t) ∧
      ofTokens (signs (maxNesting + 1)) = .error .nesting := by
  intro signs
  have hnests : ∀ k, Nests 1 (signs k) k := fun k =>
    .lift (.lift (.lift (.lift (.lift (nests_signs k)))))
  constructor
  · obtain ⟨t, ht⟩ := (hnests maxNesting).exists_derives
    obtain ⟨n, hn, hread⟩ := ofTokens_nesting.1 _ t ht
    obtain rfl := (hn _).1 (hnests maxNesting)
    exact ⟨t, by rw [hread, if_neg (Nat.lt_irrefl _)]⟩
  · obtain ⟨t, ht⟩ := (hnests (maxNesting + 1)).exists_derives
    obtain ⟨n, hn, hread⟩ := ofTokens_nesting.1 _ t ht
    obtain rfl := (hn _).1 (hnests (maxNesting + 1))
    rw [hread, if_pos (Nat.lt_succ_self _)]

end Term

end Abacus
