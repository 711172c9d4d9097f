import Abacus.Proofs.Decimal.Text
import Abacus.Proofs.Grammar.Uniqueness
import Abacus.Proofs.Text.Heads
import Abacus.Proofs.Text.Spelling

/-!
# Texts that write terms

`Writes known unit p text t` says that a text spells tokens which derive the term `t` as a phrase of
level `p`, whatever stands behind the text, as long as that does not continue its last numeral or
word. The flag `unit` says whether the text stands where a conversion takes the name of a unit. A
text that writes a term is read into that term (`Writes.parse_eq`).

There is one lemma for each form of a term. The text of an operation is the texts of its operands
around its separator, and it asks of them the levels that the grammar asks of the two sides. Inside
of brackets no unit can stand but in the parentheses of a conversion, behind the first comma
(`FillsGroup.conversion`).
-/

namespace Abacus

open Decimal (Numeral)
open Lexeme (EndsOperand StartsOperand)
open Token (inBrackets separated IsBraceList)

variable {known : List String}

/-! ### In front of other texts -/

/-- A text spells an operand in front of whatever does not continue its last lexeme. Behind it
follows the same place. -/
def SpellsInFront (known : List String) (unit : Bool) (text : List Char) (ts : List Token) : Prop :=
  ∀ place : Place, place.AtOperand unit → ∀ rest us, EndsOperand rest → Spells known place rest us →
    Spells known place (text ++ rest) (ts ++ us)

/-- A text spells the rest of a group, up to the bracket that closes it. -/
def FillsGroup (known : List String) (g : OpenGroup) (text : List Char) (ts : List Token) : Prop :=
  ∀ outer (b : Bracket) rest us, Spells known ⟨outer, false⟩ rest us →
    Spells known ⟨g :: outer, false⟩ (text ++ b.right :: rest) (ts ++ .closing b :: us)

theorem endsOperand_right (b : Bracket) (rest : List Char) : EndsOperand (b.right :: rest) := by
  cases b with
  | round => exact Lexeme.endsOperand_cons.2 rfl
  | curly => exact Lexeme.endsOperand_cons.2 rfl

namespace FillsGroup

variable {g : OpenGroup} {text : List Char} {ts : List Token}

theorem nil : FillsGroup known g [] [] := fun _ b _ _ h => h.closing b

/-- The last operand of a group. -/
theorem of_spellsInFront (h : SpellsInFront known (Token.inUnitSlot [g]) text ts) :
    FillsGroup known g text ts := by
  intro outer b rest us hrest
  exact h ⟨g :: outer, false⟩ ⟨rfl, rfl⟩ _ _ (endsOperand_right b rest) (hrest.closing b)

/-- An operand of a group in front of the next one. -/
theorem cons {text' : List Char} {ts' : List Token}
    (h : SpellsInFront known (Token.inUnitSlot [g]) text ts)
    (h' : FillsGroup known { g with commas := g.commas + 1 } text' ts') :
    FillsGroup known g (text ++ ([',', ' '] ++ text')) (ts ++ .comma :: ts') := by
  intro outer b rest us hrest
  -- the comma ends the operand, whatever that is
  have hcomma : Spells known ⟨g :: outer, false⟩ (',' :: ' ' :: (text' ++ b.right :: rest))
      (.comma :: (ts' ++ .closing b :: us)) := .comma (h' outer b rest us hrest).space
  have hoperand := h ⟨g :: outer, false⟩ ⟨rfl, rfl⟩ _ _ (Lexeme.endsOperand_cons.2 rfl) hcomma
  simpa using hoperand

/-- Operands that all stand in unit slots, or in a group without any. -/
theorem list {texts : List (List Char)} {items : List (List Token)} {c : Bool} {n : Nat}
    (hn : c → 0 < n) (h : List.Forall₂ (SpellsInFront known c) texts items) :
    FillsGroup known ⟨c, n⟩ ([',', ' '].intercalate texts) (separated items) := by
  induction h generalizing n with
  | nil => exact nil
  | @cons text item texts items hitem htexts ih =>
    have hslot : Token.inUnitSlot [⟨c, n⟩] = c := by
      rw [Token.inUnitSlot, Bool.and_eq_left_iff_imp]
      exact fun h => decide_eq_true (hn h)
    have hhead : SpellsInFront known (Token.inUnitSlot [⟨c, n⟩]) text item := by rwa [hslot]
    cases htexts with
    | nil => simpa using of_spellsInFront hhead
    | cons _ _ => simpa [List.intercalate_cons_cons] using cons hhead (ih fun _ => n.succ_pos)

/-- The operands of a conversion: what is converted, and units. -/
theorem conversion {text : List Char} {item : List Token} {texts : List (List Char)}
    {items : List (List Token)} (h : SpellsInFront known false text item)
    (htexts : List.Forall₂ (SpellsInFront known true) texts items) :
    FillsGroup known ⟨true, 0⟩ ([',', ' '].intercalate (text :: texts))
      (separated (item :: items)) := by
  have hhead : SpellsInFront known (Token.inUnitSlot [⟨true, 0⟩]) text item := h
  have htail := list (n := 1) (fun _ => Nat.one_pos) htexts
  cases htexts with
  | nil => simpa using of_spellsInFront hhead
  | cons _ _ => simpa [List.intercalate_cons_cons] using cons hhead htail

/-- A text in brackets can stand in front of every text, and where a unit can stand as well. -/
theorem inBrackets (b : Bracket) (h : FillsGroup known ⟨false, 0⟩ text ts) (unit : Bool) :
    SpellsInFront known unit (b.left :: (text ++ [b.right])) (inBrackets b ts) := by
  rintro ⟨groups, converts⟩ ⟨rfl, -⟩ rest us - hrest
  have hinner : Spells known ⟨groups, false⟩ (b.left :: (text ++ b.right :: rest))
      (.opening b :: (ts ++ .closing b :: us)) := .opening b (h groups b rest us hrest)
  simpa [Token.inBrackets] using hinner

end FillsGroup

/-! ### Writing a term -/

/-- A character of ASCII that cannot start the sign `:=`. -/
def isPlain (c : Char) : Bool := c.toNat < 128 && c != ':'

theorem isPlain_of_isWordChar {c : Char} (h : Lexeme.isWordChar c) : isPlain c := by
  have hrange := Lexeme.range_of_isWordChar h
  have hcolon : c ≠ ':' := by
    rintro rfl
    cases h
  have hascii : c.toNat < 128 := by omega
  simp [isPlain, hascii, hcolon]

theorem isPlain_of_isDigit {c : Char} (h : Decimal.isDigit c) : isPlain c :=
  isPlain_of_isWordChar (Lexeme.isWordChar_of_isDigit h)

theorem isPlain_of_mem_chars {n : Numeral} (hn : n.IsWritten) {c : Char} (hc : c ∈ n.chars) :
    isPlain c := by
  have hpower : ∀ c ∈ Numeral.powerChars n.power, isPlain c := by
    cases n.power with
    | none => nofun
    | some e =>
      have hdigits : ∀ c ∈ Decimal.digitChars e.natAbs, isPlain c :=
        fun c hc => isPlain_of_isDigit (Lexeme.isDigit_of_mem_digitChars hc)
      have hint : ∀ c ∈ Decimal.intChars e, isPlain c := by
        unfold Decimal.intChars
        split
        · exact List.forall_mem_cons.2 ⟨rfl, hdigits⟩
        · exact hdigits
      exact List.forall_mem_cons.2 ⟨rfl, hint⟩
  have hpoint : ∀ c ∈ (if n.hasPoint then '.' :: n.decimals else []), isPlain c := by
    split
    · exact List.forall_mem_cons.2 ⟨rfl, fun c hc => isPlain_of_isDigit (hn.decimals c hc)⟩
    · nofun
  rw [Numeral.chars, List.mem_append, List.mem_append] at hc
  rcases hc with hc | hc | hc
  · exact isPlain_of_isDigit (hn.whole c hc)
  · exact hpoint c hc
  · exact hpower c hc

theorem forall_mem_inBrackets {text : List Char} (b : Bracket) (h : ∀ c ∈ text, isPlain c) :
    ∀ c ∈ b.left :: (text ++ [b.right]), isPlain c := by
  simp only [List.mem_cons, List.mem_append, List.not_mem_nil, or_false]
  rintro c (rfl | hc | rfl)
  · cases b <;> rfl
  · exact h c hc
  · cases b <;> rfl

/-- A text writes a term as a phrase of a level, where a unit can stand or not. -/
structure Writes (known : List String) (unit : Bool) (p : Nat) (text : List Char) (t : Term) :
    Prop where
  plain : ∀ c ∈ text, isPlain c
  starts : StartsOperand text
  spells : ∃ ts, Derives p ts t ∧ SpellsInFront known unit text ts

namespace Writes

variable {unit : Bool} {p : Nat} {text : List Char} {t : Term}

/-- What is written at a level is written at each level below. -/
theorem mono {q : Nat} (h : Writes known unit q text t) (hpq : p ≤ q) :
    Writes known unit p text t := by
  obtain ⟨ts, hd, hspells⟩ := h.spells
  exact ⟨h.plain, h.starts, ts, hd.mono hpq, hspells⟩

/-! ### Operands -/

/-- What starts with a numeral and is read as a number. -/
theorem number {n : Numeral} (hn : n.IsWritten) {suffix : List Char} {v : Value}
    (hsuffix : ∀ c ∈ suffix, isPlain c)
    (hnext : ∀ rest, EndsOperand rest →
      Lexeme.next? (n.chars ++ suffix ++ rest) = some (.number v, rest)) :
    Writes known unit 7 (n.chars ++ suffix) (.literal v) := by
  refine ⟨?_, ?_, _, .number v, fun place hplace rest us hends hrest => ?_⟩
  · exact fun c hc => (List.mem_append.1 hc).elim (isPlain_of_mem_chars hn) (hsuffix c)
  · obtain ⟨d, ds, hds⟩ := List.exists_cons_of_ne_nil hn.whole_ne_nil
    have hd := Lexeme.isWordChar_of_isDigit (hn.whole d (hds ▸ List.mem_cons_self))
    exact ⟨d, by simp [Numeral.chars, hds], by simp [Lexeme.startsOperand, hd]⟩
  · exact hrest.number hplace (hnext rest hends)

/-- A numeral. -/
theorem numeral {n : Numeral} (hn : n.IsWritten) :
    Writes known unit 7 n.chars (.literal (n.value false)) := by
  have hnext : ∀ rest, EndsOperand rest →
      Lexeme.next? (n.chars ++ [] ++ rest) = some (.number (n.value false), rest) := by
    intro rest hends
    rw [List.append_nil]
    exact Lexeme.next?_numeral hn hends
  simpa using number hn (List.forall_mem_nil _) hnext

/-- A numeral in front of a percent sign. -/
theorem percent {n : Numeral} (hn : n.IsWritten) :
    Writes known unit 7 (n.chars ++ ['%']) (.literal (n.value true)) := by
  refine number hn (by simp [isPlain]) fun rest _ => ?_
  rw [List.append_assoc]
  exact Lexeme.next?_percent hn rest

/-- An integer that fits into 64 bits. -/
theorem integer {n : Nat} (hn : (n : Int) ≤ Binary64.maxInt) :
    Writes known unit 7 (Decimal.digitChars n) (.literal (.ofInt n)) := by
  let digits : Numeral := ⟨Decimal.digitChars n, false, [], none⟩
  have hdigits : digits.IsWritten :=
    ⟨Decimal.digitChars_ne_nil n, fun _ => Lexeme.isDigit_of_mem_digitChars, nofun, fun _ => rfl⟩
  have hfits : Fraction.ofInt? n = some (.ofInt n) := by
    have hmin : Binary64.minInt ≤ (n : Int) := by
      simp only [Binary64.minInt]
      omega
    simp [Fraction.ofInt?, hmin, hn]
  have hvalue : digits.value false = .ofInt n := by
    simp [Numeral.value, Numeral.isInteger, digits, Decimal.ofDigits_digitChars, hfits, Value.ofInt]
  have hchars : Decimal.digitChars n = digits.chars := by
    simp [digits, Numeral.chars, Numeral.powerChars]
  rw [hchars, ← hvalue]
  exact numeral hdigits

/-- A finite double that is not negative. -/
theorem double {x : Float} {parts : Binary64.Parts} (hx : Binary64.parts? x = some parts)
    (hsign : Binary64.isNegative x = false) :
    Writes known unit 7 (Decimal.chars .literal x) (.literal (.double x)) := by
  obtain ⟨n, hn, hchars, hdouble, hinteger⟩ := Decimal.exists_numeral hx hsign .literal
  have hvalue : n.value false = .double x := by
    simp [Numeral.value, hinteger rfl, hdouble]
  rw [hchars, ← hvalue]
  exact numeral hn

/-- A finite percentage that is not negative. -/
theorem percentage {x : Float} {parts : Binary64.Parts} (hx : Binary64.parts? x = some parts)
    (hsign : Binary64.isNegative x = false) :
    Writes known unit 7 (Decimal.chars .plain x ++ ['%']) (.literal (.percent x)) := by
  obtain ⟨n, hn, hchars, hdouble, -⟩ := Decimal.exists_numeral hx hsign .plain
  have hvalue : n.value true = .percent x := by
    simp [Numeral.value, hdouble]
  rw [hchars, ← hvalue]
  exact percent hn

/-- A name. -/
theorem name {x : String} (hx : isName x.toList) (hname : nameIsLegible known unit x) :
    Writes known unit 7 x.toList (.var x) := by
  obtain ⟨c, cs, heq, -, hlegible⟩ := Lexeme.exists_of_isName hx
  have hc : Lexeme.isWordChar c := hlegible c (heq ▸ List.mem_cons_self)
  have hstarts : StartsOperand x.toList :=
    ⟨c, by simp [heq], by simp [Lexeme.startsOperand, hc]⟩
  refine ⟨fun d hd => isPlain_of_isWordChar (hlegible d hd), hstarts, _, .name x, ?_⟩
  exact fun place hplace rest us hends hrest => hrest.name hplace hx hname hends

/-- An operand in brackets. -/
theorem inBrackets {ts : List Token} (b : Bracket) (hplain : ∀ c ∈ text, isPlain c)
    (hfills : FillsGroup known ⟨false, 0⟩ text ts) (hd : Derives 7 (inBrackets b ts) t) :
    Writes known unit 7 (b.left :: (text ++ [b.right])) t := by
  have hstarts : Lexeme.startsOperand b.left := by cases b <;> rfl
  exact ⟨forall_mem_inBrackets b hplain, ⟨b.left, rfl, hstarts⟩, _, hd, hfills.inBrackets b unit⟩

/-- A term in parentheses. -/
theorem parenthesized (h : Writes known false 1 text t) :
    Writes known unit 7 ('(' :: (text ++ [')'])) t := by
  obtain ⟨ts, hd, hspells⟩ := h.spells
  exact inBrackets .round h.plain (.of_spellsInFront hspells) (.group hd)

/-! ### Lists -/

section Lists

variable {texts : List (List Char)} {es : List Term}

theorem plain_list (h : List.Forall₂ (Writes known unit 1) texts es) :
    ∀ c ∈ [',', ' '].intercalate texts, isPlain c := by
  refine forall_mem_intercalate ?_ fun text ht => ?_
  · simp [isPlain]
  · obtain ⟨_, -, hw⟩ := Token.exists_of_mem_left h ht
    exact hw.plain

/-- The texts of terms spell tokens that derive the terms. -/
theorem exists_items (h : List.Forall₂ (Writes known unit 1) texts es) :
    ∃ items, List.Forall₂ (Derives 1) items es ∧
      List.Forall₂ (SpellsInFront known unit) texts items := by
  induction h with
  | nil => exact ⟨[], .nil, .nil⟩
  | cons h _ ih =>
    obtain ⟨ts, hd, hspells⟩ := h.spells
    obtain ⟨items, hitems, htexts⟩ := ih
    exact ⟨ts :: items, .cons hd hitems, .cons hspells htexts⟩

/-- Texts that write the elements of a list, with commas between them, in a group without unit
slots. -/
theorem list (h : List.Forall₂ (Writes known false 1) texts es) :
    ∃ items, List.Forall₂ (Derives 1) items es ∧
      FillsGroup known ⟨false, 0⟩ ([',', ' '].intercalate texts) (separated items) := by
  obtain ⟨items, hitems, htexts⟩ := exists_items h
  exact ⟨items, hitems, .list nofun htexts⟩

/-- A call with texts that write its arguments. -/
theorem call {x : String} (hx : isName x.toList) (hname : nameIsLegible known unit x)
    (h : List.Forall₂ (Writes known false 1) texts es) :
    Writes known unit 7 (x.toList ++ '(' :: ([',', ' '].intercalate texts ++ [')']))
      (.call x es) := by
  obtain ⟨items, hitems, hfills⟩ := list h
  have hwrites := name hx hname
  refine ⟨?_, hwrites.starts.append _, _, .call x hitems, ?_⟩
  · intro c hc
    rcases List.mem_append.1 hc with hc | hc
    · exact hwrites.plain c hc
    · exact forall_mem_inBrackets .round (plain_list h) c hc
  · -- the parenthesis behind the name ends it
    intro place hplace rest us hends hrest
    have hlist := hfills.inBrackets .round unit place hplace rest us hends hrest
    have htext := hlist.name hplace hx hname (Lexeme.endsOperand_cons.2 rfl)
    simpa [Bracket.left, Bracket.right] using htext

/-- Texts in braces that write the elements of a vector. One element that is no list in braces keeps
the vector from being read as a matrix. -/
theorem vector (hes : es = [] ∨ ∃ e ∈ es, ∀ ts, Derives 1 ts e → ¬ IsBraceList ts)
    (h : List.Forall₂ (Writes known false 1) texts es) :
    Writes known unit 7 ('\x7b' :: ([',', ' '].intercalate texts ++ ['\x7d']))
      (.ofElements es) := by
  obtain ⟨items, hitems, hfills⟩ := list h
  refine inBrackets .curly (plain_list h) hfills (.vector ?_ hitems)
  rcases hes with rfl | ⟨e, he, hbrace⟩
  · cases hitems
    exact .inl rfl
  · obtain ⟨ts, hts, hd⟩ := Token.exists_of_mem_left hitems.flip he
    exact .inr ⟨ts, hts, hbrace ts hd⟩

/-- Texts of rows in braces that write a matrix. -/
theorem matrix {texts : List (List (List Char))} {rows : List (List Term)} {columns : Nat}
    (hrows : rows ≠ []) (hcolumns : ∀ row ∈ rows, row.length = columns)
    (h : List.Forall₂ (List.Forall₂ (Writes known false 1)) texts rows) :
    Writes known unit 7 ('\x7b' :: ([',', ' '].intercalate
      (texts.map fun row => '\x7b' :: ([',', ' '].intercalate row ++ ['\x7d'])) ++ ['\x7d']))
      (.ofRows rows) := by
  -- the rows are lists in braces, and they are the items of the list around them
  have hparts : ∃ items, List.Forall₂ (List.Forall₂ (Derives 1)) items rows ∧
      List.Forall₂ (SpellsInFront known false)
        (texts.map fun row => '\x7b' :: ([',', ' '].intercalate row ++ ['\x7d']))
        (items.map fun row => Token.inBrackets .curly (separated row)) ∧
      ∀ text ∈ texts, ∀ c ∈ [',', ' '].intercalate text, isPlain c := by
    clear hrows hcolumns
    induction h with
    | nil => exact ⟨[], .nil, .nil, nofun⟩
    | cons hrow _ ih =>
      obtain ⟨items, hitems, hfills⟩ := list hrow
      obtain ⟨rest, hrest, htexts, hall⟩ := ih
      exact ⟨items :: rest, .cons hitems hrest, .cons (hfills.inBrackets .curly false) htexts,
        List.forall_mem_cons.2 ⟨plain_list hrow, hall⟩⟩
  obtain ⟨items, hitems, htexts, hplain⟩ := hparts
  have hne : items ≠ [] := by
    rintro rfl
    cases hitems
    exact hrows rfl
  refine inBrackets .curly (forall_mem_intercalate (by simp [isPlain]) ?_)
    (.list nofun htexts) (.matrix hne hcolumns hitems)
  simp only [List.mem_map]
  rintro _ ⟨text, ht, rfl⟩
  exact forall_mem_inBrackets .curly (hplain text ht)

end Lists

/-! ### Operators -/

/-- A conversion is written by its own operator alone. -/
theorem isConversion_operator (op : UnaryOp) :
    (Token.op op.operator).isConversion = true ↔ op = .conversion := by
  constructor
  · intro h
    have hoperator : op.operator = .conversion := by
      generalize op.operator = o at h
      cases o <;> first | rfl | cases h
    have hmeaning := op.unary?_operator
    rw [hoperator] at hmeaning
    exact (Option.some.inj hmeaning).symm
  · rintro rfl
    rfl

theorem binary_operator_ne_conversion (op : BinaryOp) : op.operator ≠ .conversion := by
  intro heq
  have hmeaning := op.binary?_operator
  rw [heq] at hmeaning
  cases hmeaning

theorem plain_canonical (o : Operator) : ∀ c ∈ o.canonical.toList, isPlain c := by
  have hall : o.canonical.toList.all isPlain := by cases o <;> decide +kernel
  exact List.all_eq_true.1 hall

/-- An operator of one operand in front of a group. The group of a conversion has unit slots. -/
theorem unary {op : UnaryOp} {ts : List Token}
    (hlegible : op.operator.isLegible known unit)
    (hplain : ∀ c ∈ text, isPlain c)
    (hfills : FillsGroup known ⟨(Token.op op.operator).isConversion, 0⟩ text ts)
    (hd : Derives 7 (Token.inBrackets .round ts) t) :
    Writes known unit 6 (op.operator.canonical.toList ++ '(' :: (text ++ [')'])) (.unary op t) := by
  refine ⟨?_, ?_, _, .unary op.unary?_operator (.lift hd), ?_⟩
  · intro c hc
    rcases List.mem_append.1 hc with hc | hc
    · exact plain_canonical _ c hc
    · exact forall_mem_inBrackets .round hplain c hc
  · -- unary operators are words, or one of the two signs
    obtain ⟨c, cs, heq, hc⟩ : ∃ c cs, op.operator.canonical.toList = c :: cs ∧
        Lexeme.startsOperand c := by
      cases op with
      | circular f => cases f <;> exact ⟨_, _, rfl, rfl⟩
      | arc f => cases f <;> exact ⟨_, _, rfl, rfl⟩
      | real f => cases f <;> exact ⟨_, _, rfl, rfl⟩
      | rounding mode => cases mode <;> exact ⟨_, _, rfl, rfl⟩
      | _ => exact ⟨_, _, rfl, rfl⟩
    rw [heq]
    exact ⟨c, rfl, hc⟩
  · -- the parenthesis ends a word, and it can follow a sign
    rintro ⟨groups, converts⟩ ⟨rfl, hunit⟩ rest us - hrest
    have hoperand : Spells known ⟨groups, (Token.op op.operator).isConversion⟩
        ('(' :: (text ++ ')' :: rest)) (.opening .round :: (ts ++ .closing .round :: us)) := by
      refine .opening .round ?_
      rw [Place.after, Token.groupsAfter, BEq.rfl, Bool.and_true]
      exact hfills groups .round rest us hrest
    have htext := Spells.operator ⟨rfl, hunit⟩ hlegible (fun _ => Lexeme.endsOperand_cons.2 rfl)
      (fun _ => ⟨'(', rfl, rfl⟩) hoperand
    simpa [Token.inBrackets] using htext

/-- A unary operator in front of an operand in parentheses. -/
theorem unary_group {op : UnaryOp} (hlegible : op.operator.isLegible known unit)
    (h : Writes known false 1 text t) :
    Writes known unit 6 (op.operator.canonical.toList ++ '(' :: (text ++ [')'])) (.unary op t) := by
  obtain ⟨ts, hd, hspells⟩ := h.spells
  refine unary hlegible h.plain (.of_spellsInFront ?_) (.group hd)
  -- the first slot of a group is never that of a unit
  simpa [Token.inUnitSlot] using hspells

/-- A unary operator in front of at least two operands in parentheses. In a conversion all but the
first stand in unit slots. -/
theorem unary_list {op : UnaryOp} {first : List Char} {texts : List (List Char)} {e : Term}
    {es : List Term}
    (hlegible : op.operator.isLegible known unit)
    (hes : es ≠ []) (h : Writes known false 1 first e)
    (htexts : List.Forall₂ (Writes known (op = .conversion) 1) texts es) :
    Writes known unit 6
      (op.operator.canonical.toList ++ '(' :: ([',', ' '].intercalate (first :: texts) ++ [')']))
      (.unary op (.ofElements (e :: es))) := by
  obtain ⟨ts, hd, hspells⟩ := h.spells
  obtain ⟨items, hitems, hitemtexts⟩ := exists_items htexts
  have hlen : 2 ≤ (ts :: items).length := by
    have := List.length_pos_iff.2 hes
    rw [List.length_cons, hitems.length_eq]
    omega
  have hplain : ∀ c ∈ [',', ' '].intercalate (first :: texts), isPlain c := by
    refine forall_mem_intercalate (by simp [isPlain]) (List.forall_mem_cons.2 ⟨h.plain, ?_⟩)
    intro text ht
    obtain ⟨_, -, hw⟩ := Token.exists_of_mem_left htexts ht
    exact hw.plain
  refine unary hlegible hplain ?_ (.list hlen (.cons hd hitems))
  by_cases hop : op = .conversion
  · rw [(isConversion_operator op).2 hop]
    simp only [hop, decide_true] at hitemtexts
    exact .conversion hspells hitemtexts
  · rw [Bool.eq_false_iff.2 fun h => hop ((isConversion_operator op).1 h)]
    simp only [hop, decide_false] at hitemtexts
    exact .list nofun (.cons hspells hitemtexts)

/-- The separator of an operation in front of its right operand. -/
theorem separator {place : Place} {op : BinaryOp} {us : List Token} (hplace : place.AtOperand unit)
    (hlegible : op.operator.isLegible known unit)
    (hstarts : StartsOperand text) (h : Spells known place text us) :
    EndsOperand (op.separator.toList ++ text) ∧
      Spells known place (op.separator.toList ++ text) (.op op.operator :: us) := by
  have hafter : place.after (.op op.operator) = place :=
    hplace.after_eq (.inr ⟨_, binary_operator_ne_conversion op, rfl⟩)
  by_cases hw : op.operator.isWord
  · -- a word stands between two spaces
    have hseparator : op.separator.toList =
        ' ' :: (op.operator.canonical.toList ++ [' ']) := by
      have hw : op.operator.canonical.toList.head?.any Char.isAlpha := hw
      simp [BinaryOp.separator, hw]
    have hspace : Spells known (place.after (.op op.operator)) (' ' :: text) us := by
      rw [hafter]
      exact h.space
    have hoperator := Spells.operator hplace hlegible (fun _ => Lexeme.endsOperand_cons.2 rfl)
      (fun hfalse => by simp [hw] at hfalse) hspace
    rw [hseparator]
    refine ⟨Lexeme.endsOperand_cons.2 rfl, ?_⟩
    simpa using hoperator.space
  · -- a symbol stands alone, and continues neither the text in front of it nor that behind it
    have hseparator : op.separator.toList = op.operator.canonical.toList := by
      have hw : ¬ op.operator.canonical.toList.head?.any Char.isAlpha := hw
      simp only [BinaryOp.separator, if_neg hw]
    have hsymbol := Bool.eq_false_iff.2 hw
    rw [hseparator]
    refine ⟨?_, .operator hplace hlegible (absurd · hw) (fun _ => hstarts) (hafter.symm ▸ h)⟩
    have hmem := Operator.mem_of_isWord_eq_false hsymbol
    simp only [List.mem_cons, List.not_mem_nil, or_false] at hmem
    rcases hmem with h | h | h | h | h | h | h | h | h | h | h <;> rw [h] <;>
      exact Lexeme.endsOperand_cons.2 rfl

theorem plain_separator (op : BinaryOp) : ∀ c ∈ op.separator.toList, isPlain c := by
  have hall : op.separator.toList.all isPlain := by
    cases op with
    | arith op => cases op <;> decide +kernel
    | relation rel => cases rel <;> decide +kernel
    | _ => decide +kernel
  exact List.all_eq_true.1 hall

/-- The separator of an operation between texts that write its operands. -/
theorem binary {op : BinaryOp} (hlegible : op.operator.isLegible known unit)
    {left right : List Char} {s t : Term} (hs : Writes known unit op.leftLevel left s)
    (ht : Writes known unit op.rightLevel right t) :
    Writes known unit op.priority (left ++ op.separator.toList ++ right) (.binary op s t) := by
  obtain ⟨ts, hdleft, hleft⟩ := hs.spells
  obtain ⟨us, hdright, hright⟩ := ht.spells
  refine ⟨?_, ?_, _, .binary op.binary?_operator hdleft hdright, ?_⟩
  · simp only [List.mem_append]
    rintro a ((ha | ha) | ha)
    · exact hs.plain a ha
    · exact plain_separator op a ha
    · exact ht.plain a ha
  · exact (hs.starts.append _).append _
  · -- the right operand is spelled first, then the separator in front of it, then the left operand
    intro place hplace rest vs hends hrest
    obtain ⟨hendsleft, hoperation⟩ :=
      separator hplace hlegible (ht.starts.append rest) (hright place hplace rest vs hends hrest)
    have htext := hleft place hplace _ _ hendsleft hoperation
    simpa using htext

/-! ### Reading what is written -/

/-- A text that spells the tokens of a term is read into the term as an expression. -/
theorem ofExpression_of_spells {ts : List Token} (h : Spells known ⟨[], false⟩ text ts)
    (hd : Derives p ts t) : UpToNesting (Term.ofExpression text known) t := by
  have hchecked : Token.ofText text known = .ok ts := by
    rw [h.ofText_eq, hd.check_eq_ok]
    rfl
  simp only [Term.ofExpression, hchecked, ok_bind]
  exact hd.upToNesting 0

/-- A text that writes a term is read into it as an expression, also behind a space. -/
theorem ofExpression (h : Writes known false p text t) :
    UpToNesting (Term.ofExpression text known) t ∧
      UpToNesting (Term.ofExpression (' ' :: text) known) t := by
  obtain ⟨ts, hd, hspells⟩ := h.spells
  have htext : Spells known ⟨[], false⟩ text ts := by
    have hempty := hspells _ Place.atOperand_start [] [] Lexeme.endsOperand_nil (.nil _)
    rwa [List.append_nil, List.append_nil] at hempty
  exact ⟨ofExpression_of_spells htext hd, ofExpression_of_spells htext.space hd⟩

/-- **What is written is read.** A text that writes a term is read into that term, unless it is
nested too deep. -/
theorem parse_eq {text : String} (h : Writes known false p text.toList t) :
    Term.parse text known = .ok t ∨ Term.parse text known = .error .nesting := by
  -- without a colon the text is an expression as a whole
  have hcolon : ∀ c ∈ text.toList, c ≠ ':' := by
    rintro c hc rfl
    cases h.plain ':' hc
  rw [Term.parse, Head.split?_eq_none hcolon]
  exact h.ofExpression.1

end Writes

end Abacus
