import Abacus.Proofs.Grammar.Correctness
import Abacus.Proofs.Text.Respelling

/-!
# The slots of units

Which words of a text are names, and which are operators (`Token.ofText_words`)? A word that is
known or spells no operator is a name anyway. Any other word is a name only in the slot of a unit,
and that is said of the tokens in front of it alone (`Token.BehindConversion`): the innermost
bracket that is open behind them is the parenthesis of a conversion, and a comma has followed at its
level.

Reading keeps a stack of open groups instead, with a flag and a number for each. What these stand
for is `Token.Opens`, which finds the tokens in front of each group and those inside it; one token
keeps it (`Token.Opens.after`), and so do all (`Token.opens_behind`). For the other direction the
tokens inside of a group are passed over, since brackets that match leave what is open further out
as it is (`Place.behind_of_nested`).
-/

namespace Abacus

open Token (Nested openAfter inUnitSlot)

/-! ### Groups behind tokens -/

namespace Place

/-- The place at which a text starts. -/
def start : Place := ⟨[], false⟩

/-- The place behind tokens. -/
def behind (place : Place) (ts : List Token) : Place := ts.foldl after place

@[simp] theorem behind_nil (place : Place) : place.behind [] = place := rfl

@[simp] theorem behind_cons (place : Place) (t : Token) (ts : List Token) :
    place.behind (t :: ts) = (place.after t).behind ts := rfl

@[simp] theorem behind_append (place : Place) (ts us : List Token) :
    place.behind (ts ++ us) = (place.behind ts).behind us := List.foldl_append

/-- What is open further out stays open, and only the next group out can get commas. -/
theorem behind_of_openAfter {bs final : List Bracket} {ts : List Token}
    (h : openAfter bs ts = some final) (inner : List OpenGroup) (hinner : inner.length = bs.length)
    (g : OpenGroup) (groups : List OpenGroup) (converts : Bool) :
    ∃ inner' g', inner'.length = final.length ∧ g'.isConversion = g.isConversion ∧
      g.commas ≤ g'.commas ∧
        (behind ⟨inner ++ g :: groups, converts⟩ ts).groups = inner' ++ g' :: groups := by
  induction ts generalizing bs inner g converts with
  | nil =>
    obtain rfl : bs = final := by simpa [openAfter] using h
    exact ⟨inner, g, hinner, rfl, Nat.le_refl _, rfl⟩
  | cons t ts ih =>
    obtain ⟨next, hnext, -, hrest⟩ := Token.openAfter_cons h
    cases t with
    | opening b =>
      obtain rfl : b :: bs = next := by simpa [openAfter] using hnext
      exact ih hrest (⟨converts && b == .round, 0⟩ :: inner) (by simpa using hinner) g _
    | closing c =>
      -- the group that is closed is one of `inner`
      cases bs with
      | nil => simp [openAfter] at hnext
      | cons b bs =>
        obtain ⟨-, rfl⟩ : b = c ∧ bs = next := by simpa [openAfter] using hnext
        obtain ⟨i, inner, rfl⟩ := List.exists_cons_of_length_eq_add_one hinner
        exact ih hrest inner (by simpa using hinner) g _
    | comma =>
      obtain rfl : bs = next := by simpa [openAfter] using hnext
      cases inner with
      | nil =>
        obtain ⟨inner', g', hlength, hconversion, hcommas, heq⟩ :=
          ih hrest [] hinner { g with commas := g.commas + 1 } false
        exact ⟨inner', g', hlength, hconversion, Nat.le_of_succ_le hcommas, heq⟩
      | cons i inner =>
        exact ih hrest ({ i with commas := i.commas + 1 } :: inner) hinner g _
    | _ =>
      obtain rfl : bs = next := by simpa [openAfter] using hnext
      exact ih hrest inner hinner g _

/-- Tokens with matching brackets leave the groups as they are, but for the commas of the innermost
one. -/
theorem behind_of_nested {ts : List Token} (h : Nested ts) (g : OpenGroup)
    (groups : List OpenGroup) (converts : Bool) :
    ∃ g', g'.isConversion = g.isConversion ∧ g.commas ≤ g'.commas ∧
      (behind ⟨g :: groups, converts⟩ ts).groups = g' :: groups := by
  obtain ⟨inner, g', hlength, hconversion, hcommas, heq⟩ :=
    behind_of_openAfter h [] rfl g groups converts
  obtain rfl := List.length_eq_zero_iff.1 hlength
  exact ⟨g', hconversion, hcommas, heq⟩

end Place

namespace Token

/-! ### What groups stand for -/

/-- Behind these tokens the name of a unit is expected: the innermost open bracket is the
parenthesis that follows the operator of a conversion, and a comma has followed at its level. -/
def BehindConversion (ts : List Token) : Prop :=
  ∃ outer value rest : List Token,
    ts = outer ++ .op .conversion :: .opening .round :: (value ++ .comma :: rest) ∧
      Nested value ∧ Nested rest

/-- The groups that are open behind tokens. Each has tokens with matching brackets behind its
opening bracket; if it is said to be that of a conversion or to have commas, then it is so. -/
inductive Opens : List Token → List OpenGroup → Prop
  | closed {ts : List Token} (h : Nested ts) : Opens ts []
  | opened {front inner : List Token} {b : Bracket} {g : OpenGroup} {groups : List OpenGroup}
      (h : Opens front groups) (hinner : Nested inner)
      (hconversion : g.isConversion → b = .round ∧ ∃ outer, front = outer ++ [.op .conversion])
      (hcommas : 0 < g.commas → ∃ value rest, inner = value ++ .comma :: rest ∧ Nested value) :
      Opens (front ++ .opening b :: inner) (g :: groups)

namespace Opens

variable {ts us : List Token} {groups : List OpenGroup}

theorem append_nested (h : Opens ts groups) (hus : Nested us) : Opens (ts ++ us) groups := by
  cases h with
  | closed h => exact .closed (h.append hus)
  | opened h hinner hconversion hcommas =>
    rw [List.append_assoc, List.cons_append]
    refine .opened h (hinner.append hus) hconversion fun hpos => ?_
    obtain ⟨value, rest, rfl, hvalue⟩ := hcommas hpos
    exact ⟨value, rest ++ us, by simp, hvalue⟩

/-- The bracket that closes a group is of its kind. -/
theorem eq_of_closing {front inner : List Token} {b c : Bracket} {opened : List Bracket}
    (hinner : Nested inner)
    (h : openAfter [] (front ++ .opening b :: inner ++ [.closing c]) = some opened) : b = c := by
  rw [List.append_assoc, openAfter_append] at h
  obtain ⟨before, -, h⟩ := Option.bind_eq_some_iff.1 h
  have hframe : openAfter (b :: before) inner = some (b :: before) := openAfter_frame hinner _
  change openAfter (b :: before) (inner ++ [.closing c]) = some opened at h
  rw [openAfter_append, hframe] at h
  by_contra hbc
  simp [openAfter, hbc] at h

/-- **One token keeps what the groups stand for.** -/
theorem after (h : Opens ts groups) {t : Token} {converts : Bool}
    (hconverts : converts → ∃ outer, ts = outer ++ [.op .conversion]) {opened : List Bracket}
    (hopened : openAfter [] (ts ++ [t]) = some opened) :
    Opens (ts ++ [t]) (groupsAfter groups converts t) := by
  cases t with
  | opening b =>
    refine .opened h nested_nil (fun hb => ?_) (fun hpos => absurd hpos (Nat.lt_irrefl 0))
    obtain ⟨hc, hb⟩ := Bool.and_eq_true_iff.1 hb
    exact ⟨eq_of_beq hb, hconverts hc⟩
  | closing c =>
    cases h with
    | closed h =>
      -- there is nothing to close
      rw [openAfter_append, h] at hopened
      cases hopened
    | @opened front inner b g groups h hinner =>
      -- the group becomes a part of the tokens inside of the next group out
      obtain rfl := eq_of_closing hinner hopened
      rw [List.append_assoc]
      exact h.append_nested (hinner.inBrackets b)
  | comma =>
    cases h with
    | closed h => exact .closed (h.append rfl)
    | @opened front inner b g groups h hinner hconversion =>
      rw [List.append_assoc, List.cons_append]
      exact .opened h (hinner.append rfl) hconversion fun _ => ⟨inner, [], rfl, hinner⟩
  | _ => exact h.append_nested rfl

/-- The innermost group takes the name of a unit only if it is that of a conversion with a comma. -/
theorem behindConversion (h : Opens ts groups) (hslot : inUnitSlot groups) :
    BehindConversion ts := by
  cases h with
  | closed => cases hslot
  | opened h hinner hconversion hcommas =>
    obtain ⟨hg, hpos⟩ := Bool.and_eq_true_iff.1 hslot
    obtain ⟨rfl, outer, rfl⟩ := hconversion hg
    obtain ⟨value, rest, rfl, hvalue⟩ := hcommas (of_decide_eq_true hpos)
    refine ⟨outer, value, rest, by simp, hvalue, ?_⟩
    rw [Nested, openAfter_append, hvalue] at hinner
    exact hinner

end Opens

/-- A conversion stands in front of a place only if its operator is the last token there. -/
theorem exists_of_converts {ts : List Token} (h : (Place.start.behind ts).converts) :
    ∃ outer, ts = outer ++ [.op .conversion] := by
  rcases List.eq_nil_or_concat' ts with rfl | ⟨outer, t, rfl⟩
  · cases h
  · rw [Place.behind_append] at h
    have ht : t.isConversion = true := h
    unfold isConversion at ht
    split at ht
    · exact ⟨outer, rfl⟩
    · cases ht

/-- **The groups behind tokens stand for brackets in these.** -/
theorem opens_behind {ts : List Token} {opened : List Bracket} (h : openAfter [] ts = some opened) :
    Opens ts (Place.start.behind ts).groups := by
  induction ts using List.reverseRecOn generalizing opened with
  | nil => exact .closed nested_nil
  | append_singleton ts t ih =>
    have hts := h
    rw [openAfter_append] at hts
    obtain ⟨before, hts, -⟩ := Option.bind_eq_some_iff.1 hts
    rw [Place.behind_append]
    exact (ih hts).after exists_of_converts h

/-- Whether a unit is expected is decided by the brackets and commas in front. -/
theorem inUnitSlot_behind_iff {ts : List Token} {opened : List Bracket}
    (h : openAfter [] ts = some opened) :
    inUnitSlot (Place.start.behind ts).groups ↔ BehindConversion ts := by
  refine ⟨(opens_behind h).behindConversion, ?_⟩
  rintro ⟨outer, value, rest, rfl, hvalue, hrest⟩
  -- the group of the conversion is opened, and stays the innermost one up to its comma and beyond
  generalize hplace : Place.start.behind outer = place
  obtain ⟨g, hg, -, hgroups⟩ := Place.behind_of_nested hvalue ⟨true, 0⟩ place.groups false
  obtain ⟨g', hg', hcommas, hgroups'⟩ :=
    Place.behind_of_nested hrest { g with commas := g.commas + 1 } place.groups false
  have hcomma : (Place.behind ⟨⟨true, 0⟩ :: place.groups, false⟩ value).after .comma =
      ⟨{ g with commas := g.commas + 1 } :: place.groups, false⟩ := by
    rw [Place.after, hgroups]
    rfl
  have hbehind : (Place.start.behind
      (outer ++ .op .conversion :: .opening .round :: (value ++ .comma :: rest))).groups =
        g' :: place.groups := by
    rw [← hgroups', ← hcomma, Place.behind_append, hplace, Place.behind_cons, Place.behind_cons,
      Place.behind_append, Place.behind_cons]
    rfl
  rw [hbehind, inUnitSlot, hg', hg, Bool.true_and, decide_eq_true_eq]
  exact Nat.lt_of_lt_of_le (Nat.succ_pos _) hcommas

/-! ### Words -/

/-- A word becomes a name behind these tokens if it is known, spells no operator in any letter case,
or stands for a unit. -/
def ReadsAsName (known : List String) (front : List Token) (w : String) : Prop :=
  w ∈ known ∨ (∀ o : Operator, ¬ o.IsSpelledBy w.toList) ∨ BehindConversion front

/-- The token of a lexeme depends on the tokens in front of it. -/
theorem getElem?_ofLexemesFrom {known : List String} {place : Place} {ls : List Lexeme} (i : Nat) :
    (ofLexemesFrom known place.groups place.converts ls)[i]? =
      ls[i]?.map (ofLexeme known (inUnitSlot (place.behind
        ((ofLexemesFrom known place.groups place.converts ls).take i)).groups)) := by
  induction ls generalizing place i with
  | nil => simp [ofLexemesFrom]
  | cons l ls ih =>
    cases i with
    | zero => rfl
    | succ i =>
      rw [ofLexemesFrom, List.getElem?_cons_succ, List.getElem?_cons_succ, List.take_succ_cons,
        Place.behind_cons]
      exact @ih (place.after _) i

/-- A word is read as a name or as the operator that it spells. -/
theorem ofLexeme_word (known : List String) (isUnit : Bool) (w : String) :
    (isUnit ∨ w ∈ known ∨ ∀ o : Operator, ¬ o.IsSpelledBy w.toList) ∧
        ofLexeme known isUnit (.word w) = .name w ∨
      ¬ (isUnit ∨ w ∈ known ∨ ∀ o : Operator, ¬ o.IsSpelledBy w.toList) ∧
        ∃ o : Operator, o.IsSpelledBy w.toList ∧ ofLexeme known isUnit (.word w) = .op o := by
  by_cases hname : isUnit ∨ w ∈ known
  · refine .inl ⟨hname.imp_right .inl, ?_⟩
    rw [ofLexeme, if_pos (by simpa using hname)]
  · cases hfind : Operator.find? w with
    | none =>
      have hnone : ∀ o : Operator, ¬ o.IsSpelledBy w.toList := fun o ho => by
        rw [Operator.find?_eq_some_iff.2 ho] at hfind
        cases hfind
      refine .inl ⟨.inr (.inr hnone), ?_⟩
      rw [ofLexeme, if_neg (by simpa using hname), hfind]
    | some o =>
      have ho := Operator.find?_eq_some_iff.1 hfind
      refine .inr ⟨fun h => ?_, o, ho, ?_⟩
      · rcases h with hunit | hknown | hnone
        exacts [hname (.inl hunit), hname (.inr hknown), hnone o ho]
      · rw [ofLexeme, if_neg (by simpa using hname), hfind]

/-- **Names and operators are told apart by what stands in front.** When a text is read, a word of
it becomes a name if and only if it is known, or spells no operator in any letter case, or stands
behind a comma in the parenthesis of a conversion as the innermost bracket. Every other word becomes
the operator that it spells. -/
theorem ofText_words {text : List Char} {known : List String} {ts : List Token}
    (h : ofText text known = .ok ts) :
    ∃ ls, Lexeme.scan text = .ok ls ∧ ts.length = ls.length ∧
      ∀ (i : Nat) (w : String), ls[i]? = some (.word w) →
        ((∃ x, ts[i]? = some (.name x)) ↔ ReadsAsName known (ts.take i) w) ∧
        (ReadsAsName known (ts.take i) w → ts[i]? = some (.name w)) ∧
        (¬ ReadsAsName known (ts.take i) w →
          ∃ o : Operator, o.IsSpelledBy w.toList ∧ ts[i]? = some (.op o)) := by
  obtain ⟨ls, hscans, hcheck, hts⟩ := exists_of_ofText h
  have htoken (i : Nat) : ts[i]? =
      ls[i]?.map (ofLexeme known (inUnitSlot (Place.start.behind (ts.take i)).groups)) := by
    rw [hts]
    exact @getElem?_ofLexemesFrom known Place.start ls i
  refine ⟨ls, Lexeme.scan_of_scans hscans, ?_, fun i w hw => ?_⟩
  · refine Nat.le_antisymm ?_ ?_
    · rw [← List.getElem?_eq_none_iff, htoken, List.getElem?_eq_none (Nat.le_refl _)]
      rfl
    · have hnone := htoken ts.length
      rw [List.getElem?_eq_none (Nat.le_refl _)] at hnone
      exact List.getElem?_eq_none_iff.1 (Option.map_eq_none_iff.1 hnone.symm)
  · -- the brackets in front are those of a list in which all brackets match
    have hfront : ∃ opened, openAfter [] (ts.take i) = some opened := by
      have hnested := nested_of_check hcheck
      rw [← List.take_append_drop i ts, Nested, openAfter_append] at hnested
      obtain ⟨opened, hopened, -⟩ := Option.bind_eq_some_iff.1 hnested
      exact ⟨opened, hopened⟩
    obtain ⟨opened, hopened⟩ := hfront
    have hname : ReadsAsName known (ts.take i) w ↔
        (inUnitSlot (Place.start.behind (ts.take i)).groups ∨ w ∈ known ∨
          ∀ o : Operator, ¬ o.IsSpelledBy w.toList) := by
      rw [ReadsAsName, inUnitSlot_behind_iff hopened, or_comm (a := BehindConversion _), or_assoc]
    rw [hname, htoken, hw, Option.map_some]
    rcases ofLexeme_word known _ w with ⟨hread, ht⟩ | ⟨hread, o, ho, ht⟩
    · rw [ht]
      exact ⟨iff_of_true ⟨w, rfl⟩ hread, fun _ => rfl, fun hnot => absurd hread hnot⟩
    · rw [ht]
      refine ⟨iff_of_false ?_ hread, fun hyes => absurd hyes hread, fun _ => ⟨o, ho, rfl⟩⟩
      rintro ⟨x, hx⟩
      cases hx

/-- In `in(min x, MIN, s)` the first `min` is the operator and the second one the name of a unit. -/
theorem ofText_words_minutes :
    let text := "in(min x, MIN, s)".toList
    let ts : List Token := [.op .conversion, .opening .round, .op .min, .name "x", .comma,
      .name "MIN", .comma, .name "s", .closing .round]
    ofText text [] = .ok ts ∧ ¬ ReadsAsName [] (ts.take 2) "min" ∧
      ReadsAsName [] (ts.take 5) "MIN" ∧ ts[5]? = some (.name "MIN") := by
  intro text ts
  have hscan : Lexeme.scan text = .ok [.word "in", .opening .round, .word "min", .word "x", .comma,
      .word "MIN", .comma, .word "s", .closing .round] := by
    refine Lexeme.scan_of_scans ?_
    exact .lexeme rfl (.lexeme rfl (.lexeme rfl (.blank rfl (.lexeme rfl (.lexeme rfl (.blank rfl
      (.lexeme rfl (.lexeme rfl (.blank rfl (.lexeme rfl (.lexeme rfl .nil)))))))))))
  have htext : ofText text [] = .ok ts := by
    have hascii : (text.any fun c => 128 ≤ c.toNat) = false := by decide
    have htokens : ofLexemes [] [.word "in", .opening .round, .word "min", .word "x", .comma,
        .word "MIN", .comma, .word "s", .closing .round] = ts := by with_unfolding_all rfl
    have hcheck : check ts = .ok () := by rfl
    rw [ofText, hascii, hscan]
    simp only [ok_bind, htokens, hcheck]
    rfl
  obtain ⟨ls, hls, -, hwords⟩ := ofText_words htext
  obtain rfl := Except.ok.inj (hscan.symm.trans hls)
  obtain ⟨hmin, -, -⟩ := hwords 2 "min" rfl
  obtain ⟨hunit, hname, -⟩ := hwords 5 "MIN" rfl
  have hMIN : ReadsAsName [] (ts.take 5) "MIN" := hunit.1 ⟨"MIN", rfl⟩
  refine ⟨htext, fun h => ?_, hMIN, hname hMIN⟩
  obtain ⟨x, hx⟩ := hmin.2 h
  cases hx

end Token

end Abacus
