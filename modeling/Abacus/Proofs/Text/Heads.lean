import Abacus.Proofs.Grammar.Brackets
import Abacus.Proofs.Text.Lexemes
import Mathlib.Data.List.TakeWhile

/-!
# Left sides are read as they are written

The left side of an assignment is a name, and that of a definition is a call of a name on names. A
text is cut at its first sign `:=`, so that a left side without colons is found whole
(`Head.split?_append`), and it is read as it is written, with a space behind it
(`Head.ofText?_name`, `Head.ofText?_call`). What is read as a left side has only names in it
(`Head.isName_of_ofText?`).
-/

namespace Abacus

open Lexeme (isWordChar)

/-! ### Lists -/

theorem forall_mem_intercalate {α : Type} {P : α → Prop} {between : List α} {parts : List (List α)}
    (hbetween : ∀ a ∈ between, P a) (hparts : ∀ part ∈ parts, ∀ a ∈ part, P a) :
    ∀ a ∈ between.intercalate parts, P a := by
  induction parts with
  | nil => simp
  | cons part parts ih =>
    obtain ⟨hpart, hparts⟩ := List.forall_mem_cons.1 hparts
    cases parts with
    | nil => simpa using hpart
    | cons next parts =>
      rw [List.intercalate_cons_cons]
      simp only [List.mem_append]
      rintro a ((ha | ha) | ha)
      · exact hpart a ha
      · exact hbetween a ha
      · exact ih hparts a ha

theorem mapM_eq_some_iff_forall₂ {α β : Type} {f : α → Option β} {as : List α} {bs : List β} :
    as.mapM f = some bs ↔ List.Forall₂ (fun a b => f a = some b) as bs := by
  induction as generalizing bs with
  | nil =>
    rw [List.mapM_nil, List.forall₂_nil_left_iff]
    exact Option.some_inj.trans eq_comm
  | cons a as ih =>
    rw [List.mapM_cons]
    constructor
    · intro h
      obtain ⟨b, hb, h⟩ := Option.bind_eq_some_iff.1 h
      obtain ⟨bs, hbs, h⟩ := Option.bind_eq_some_iff.1 h
      cases h
      exact .cons hb (ih.1 hbs)
    · rintro (_ | ⟨hb, hbs⟩)
      rw [hb, ih.2 hbs]
      rfl

/-! ### White space -/

/-- White space and word characters have nothing in common. -/
theorem isWhiteSpace_eq_false {c : Char} (h : isWordChar c) : isWhiteSpace c = false := by
  have hrange := Lexeme.range_of_isWordChar h
  simp only [isWhiteSpace, Bool.or_eq_false_iff, Bool.and_eq_false_iff, decide_eq_false_iff_not,
    beq_eq_false_iff_ne]
  omega

theorem dropWhile_append_of_word {front text back : List Char}
    (hfront : ∀ c ∈ front, isWhiteSpace c) (htext : ∀ c ∈ text, isWordChar c) (hne : text ≠ []) :
    (front ++ (text ++ back)).dropWhile isWhiteSpace = text ++ back := by
  refine (Lexeme.span_append hfront fun c hc => ?_).2
  cases text with
  | nil => exact absurd rfl hne
  | cons d text =>
    cases hc
    exact isWhiteSpace_eq_false (htext c List.mem_cons_self)

/-- White space around a word is trimmed. -/
theorem trimmed_append {front text back : List Char} (hfront : ∀ c ∈ front, isWhiteSpace c)
    (hback : ∀ c ∈ back, isWhiteSpace c) (htext : ∀ c ∈ text, isWordChar c) (hne : text ≠ []) :
    trimmed (front ++ (text ++ back)) = text := by
  have hreverse : (text ++ back).reverse = back.reverse ++ (text.reverse ++ []) := by simp
  rw [trimmed, dropWhile_append_of_word hfront htext hne, hreverse,
    dropWhile_append_of_word (fun c hc => hback c (List.mem_reverse.1 hc))
      (fun c hc => htext c (List.mem_reverse.1 hc)) (by simpa using hne)]
  simp

theorem trimmed_cons_ne_nil {c : Char} (hc : isWhiteSpace c = false) (text : List Char) :
    trimmed (c :: text) ≠ [] := by
  rw [trimmed, List.dropWhile_cons_of_neg (by simp [hc]), ne_eq, List.reverse_eq_nil_iff,
    List.dropWhile_eq_nil_iff]
  intro h
  have hwhite := h c (by simp)
  rw [hc] at hwhite
  cases hwhite

theorem forall_mem_space : ∀ c ∈ [' '], isWhiteSpace c := by simp [isWhiteSpace]

/-! ### Names -/

namespace Head

/-- A name with white space around it is read as it is. -/
theorem name?_append {x : String} (hx : isName x.toList) {front back : List Char}
    (hfront : ∀ c ∈ front, isWhiteSpace c) (hback : ∀ c ∈ back, isWhiteSpace c) :
    name? (front ++ (x.toList ++ back)) = some x := by
  obtain ⟨c, cs, heq, -, hword⟩ := Lexeme.exists_of_isName hx
  have hne : x.toList ≠ [] := by simp [heq]
  simp only [name?, trimmed_append hfront hback hword hne, hx, if_true, String.ofList_toList]

theorem name?_toList {x : String} (hx : isName x.toList) : name? x.toList = some x := by
  simpa using name?_append hx (List.forall_mem_nil _) (List.forall_mem_nil _)

theorem isName_of_name? {cs : List Char} {x : String} (h : name? cs = some x) :
    isName x.toList := by
  simp only [name?] at h
  split at h
  · next hname =>
    cases h
    rwa [String.toList_ofList]
  · cases h

theorem splitCommas_eq_singleton {text : List Char} (h : ∀ c ∈ text, c ≠ ',') :
    splitCommas text = [text] := by
  induction text with
  | nil => rfl
  | cons c text ih =>
    obtain ⟨hc, htext⟩ := List.forall_mem_cons.1 h
    rw [splitCommas, if_neg hc, ih htext]

theorem splitCommas_append {text : List Char} (h : ∀ c ∈ text, c ≠ ',') (rest : List Char) :
    splitCommas (text ++ ',' :: rest) = text :: splitCommas rest := by
  induction text with
  | nil => rfl
  | cons c text ih =>
    obtain ⟨hc, htext⟩ := List.forall_mem_cons.1 h
    rw [List.cons_append, splitCommas, if_neg hc, ih htext]

/-- Each text but the first has the space in front of it that follows the comma. -/
theorem splitCommas_intercalate {text : List Char} {texts : List (List Char)}
    (htext : ∀ c ∈ text, c ≠ ',') (htexts : ∀ text ∈ texts, ∀ c ∈ text, c ≠ ',') :
    splitCommas ([',', ' '].intercalate (text :: texts)) = text :: texts.map (' ' :: ·) := by
  induction texts generalizing text with
  | nil => simpa using splitCommas_eq_singleton htext
  | cons next texts ih =>
    obtain ⟨hnext, htexts⟩ := List.forall_mem_cons.1 htexts
    have hspace : splitCommas (' ' :: [',', ' '].intercalate (next :: texts)) =
        (' ' :: next) :: texts.map (' ' :: ·) := by
      rw [splitCommas, if_neg (by decide), ih hnext htexts]
    rw [List.intercalate_cons_cons, List.append_assoc, List.cons_append, List.singleton_append,
      splitCommas_append htext, hspace, List.map_cons]

theorem ne_of_isName {x : String} (hx : isName x.toList) {d : Char} (hd : isWordChar d = false) :
    ∀ c ∈ x.toList, c ≠ d := by
  rintro c hc rfl
  rw [Lexeme.isWordChar_of_isName hx hc] at hd
  cases hd

theorem ne_of_isName_intercalate {xs : List String} (hxs : ∀ x ∈ xs, isName x.toList) {d : Char}
    (hbetween : ∀ c ∈ [',', ' '], c ≠ d) (hd : isWordChar d = false) :
    ∀ c ∈ [',', ' '].intercalate (xs.map String.toList), c ≠ d := by
  refine forall_mem_intercalate hbetween fun text htext => ?_
  obtain ⟨x, hx, rfl⟩ := List.mem_map.1 htext
  exact ne_of_isName (hxs x hx) hd

/-- Names with commas between them are read as they are. -/
theorem names?_intercalate {xs : List String} (hxs : ∀ x ∈ xs, isName x.toList) :
    names? ([',', ' '].intercalate (xs.map String.toList)) = some xs := by
  cases xs with
  | nil => rfl
  | cons x xs =>
    obtain ⟨hx, hxs⟩ := List.forall_mem_cons.1 hxs
    have hsplit : splitCommas ([',', ' '].intercalate ((x :: xs).map String.toList)) =
        x.toList :: (xs.map String.toList).map (' ' :: ·) := by
      refine splitCommas_intercalate (ne_of_isName hx rfl) fun text htext => ?_
      obtain ⟨y, hy, rfl⟩ := List.mem_map.1 htext
      exact ne_of_isName (hxs y hy) rfl
    have hne : trimmed ([',', ' '].intercalate ((x :: xs).map String.toList)) ≠ [] := by
      -- the first name is not empty
      obtain ⟨c, cs, heq, hc, -⟩ := Lexeme.exists_of_isName hx
      have hwhite := isWhiteSpace_eq_false ((Lexeme.isWordChar_iff c).2 (.inl hc))
      cases xs <;> simpa [heq, List.intercalate_cons_cons] using trimmed_cons_ne_nil hwhite _
    have hread : (x.toList :: (xs.map String.toList).map (' ' :: ·)).mapM name? =
        some (x :: xs) := by
      refine mapM_eq_some_iff_forall₂.2 (.cons (name?_toList hx) ?_)
      rw [List.map_map, List.forall₂_map_left_iff, List.forall₂_same]
      intro y hy
      have hname := name?_append (hxs y hy) forall_mem_space (List.forall_mem_nil _)
      rwa [List.append_nil] at hname
    rw [names?, hsplit, hread, if_neg (by simpa using hne)]

theorem isName_of_names? {cs : List Char} {xs : List String} (h : names? cs = some xs) :
    ∀ x ∈ xs, isName x.toList := by
  rw [names?] at h
  split at h
  · cases h
    exact List.forall_mem_nil _
  · intro x hx
    obtain ⟨part, -, hpart⟩ := Token.exists_of_mem_left (mapM_eq_some_iff_forall₂.1 h).flip hx
    exact isName_of_name? hpart

/-! ### Left sides -/

theorem split?_cons {c : Char} (hc : c ≠ ':') (text : List Char) :
    split? (c :: text) = (split? text).map fun (head, body) => (c :: head, body) := by
  rw [split?.eq_def]
  split
  · next heq => cases heq
  · next heq => exact absurd (List.cons.inj heq).1 hc
  · next heq =>
    obtain ⟨rfl, rfl⟩ := List.cons.inj heq
    rfl

/-- A text without colons has no left side. -/
theorem split?_eq_none {text : List Char} (h : ∀ c ∈ text, c ≠ ':') : split? text = none := by
  induction text with
  | nil => rfl
  | cons c text ih =>
    obtain ⟨hc, htext⟩ := List.forall_mem_cons.1 h
    rw [split?_cons hc, ih htext]
    rfl

/-- Which texts are not cut: those without the sign `:=`. -/
theorem split?_eq_none_iff {text : List Char} :
    split? text = none ↔ ¬ [':', '='] <:+: text := by
  induction text using split?.induct with
  | case1 => simp [split?]
  | case2 rest =>
    simp only [split?, reduceCtorEq, false_iff, not_not]
    exact (List.prefix_append [':', '='] rest).isInfix
  | case3 c rest hne ih =>
    have hfront : ¬ [':', '='] <+: c :: rest := by
      rintro ⟨tail, heq⟩
      obtain ⟨rfl, rfl⟩ := List.cons.inj heq
      exact hne tail rfl rfl
    rw [split?, Option.map_eq_none_iff, ih, List.infix_cons_iff, not_or]
    · exact ⟨fun hrest => ⟨hfront, hrest⟩, And.right⟩
    · exact hne

/-- A text is cut at its first sign `:=`. -/
theorem split?_append {head : List Char} (h : ∀ c ∈ head, c ≠ ':') (body : List Char) :
    split? (head ++ ':' :: '=' :: body) = some (head, body) := by
  induction head with
  | nil => rfl
  | cons c head ih =>
    obtain ⟨hc, hhead⟩ := List.forall_mem_cons.1 h
    rw [List.cons_append, split?_cons hc, ih hhead]
    rfl

/-- A text without a character ends in front of it. -/
theorem span_ne_append {c : Char} {text : List Char} (h : ∀ d ∈ text, d ≠ c) (rest : List Char) :
    (text ++ c :: rest).takeWhile (· != c) = text ∧
      (text ++ c :: rest).dropWhile (· != c) = c :: rest := by
  refine Lexeme.span_append (fun d hd => bne_iff_ne.2 (h d hd)) ?_
  rintro d ⟨⟩
  exact bne_self_eq_false c

/-- The left side of an assignment. -/
theorem ofText?_name {x : String} (hx : isName x.toList) :
    ofText? (x.toList ++ [' ']) = some ⟨x, none⟩ := by
  have hname := name?_append hx (List.forall_mem_nil _) forall_mem_space
  have hdrop : (x.toList ++ [' ']).dropWhile (· != '(') = [] := by
    rw [List.dropWhile_eq_nil_iff]
    refine List.forall_mem_append.2 ⟨fun c hc => ?_, by simp⟩
    simpa using ne_of_isName hx rfl c hc
  rw [List.nil_append] at hname
  simp only [ofText?, hdrop, hname, Option.map_some]

/-- The left side of a definition. -/
theorem ofText?_call {f : String} {xs : List String} (hf : isName f.toList)
    (hxs : ∀ x ∈ xs, isName x.toList) :
    ofText? (f.toList ++ '(' :: ([',', ' '].intercalate (xs.map String.toList) ++ [')', ' '])) =
      some ⟨f, some xs⟩ := by
  have hnames : ∀ c ∈ [',', ' '].intercalate (xs.map String.toList), c ≠ ')' :=
    ne_of_isName_intercalate hxs (by simp) rfl
  -- the first parenthesis ends the name, and the next one ends the parameters
  have hname := span_ne_append (c := '(') (ne_of_isName hf rfl)
    ([',', ' '].intercalate (xs.map String.toList) ++ [')', ' '])
  have hparameters := span_ne_append hnames [' ']
  simp only [ofText?, hname.1, hname.2, hparameters.1, hparameters.2, name?_toList hf,
    names?_intercalate hxs]
  rfl

theorem isName_of_ofText? {cs : List Char} {head : Head} (h : ofText? cs = some head) :
    isName head.name.toList ∧ ∀ xs, head.parameters = some xs → ∀ x ∈ xs, isName x.toList := by
  unfold ofText? at h
  split at h
  · obtain ⟨x, hx, rfl⟩ := Option.map_eq_some_iff.1 h
    refine ⟨isName_of_name? hx, ?_⟩
    rintro xs ⟨⟩
  · split at h
    · cases h
    · split at h
      · obtain ⟨f, hf, h⟩ := Option.bind_eq_some_iff.1 h
        obtain ⟨xs, hxs, h⟩ := Option.bind_eq_some_iff.1 h
        cases h
        refine ⟨isName_of_name? hf, ?_⟩
        rintro _ ⟨⟩
        exact isName_of_names? hxs
      · cases h

end Head

end Abacus
