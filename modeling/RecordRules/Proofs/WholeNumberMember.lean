import RecordRules.Proofs.RecordDecoding
import RecordRules.Proofs.WordJudgement

/-! Whole numbers from JSON to the verdict. A record keeps a whole number exactly as far as the 64-bit
integers go, and rounds it from there on, while the digits of a rule are never rounded. So a number of
a record and the same digits of a rule are judged as equal just where nothing was rounded away, and
else by the side to which the number was rounded. -/

namespace RecordRules

open Number RuleText

/-! ### The record -/

theorem Number.Binary64.extended?_eq_some_coe_iff (x : Binary64) (q : Rat) :
    x.extended? = some (q : WithBotTop Rat) ↔ x.IsFinite ∧ x.toRat = q := by
  have hbottom : (⊥ : WithBotTop Rat) ≠ (q : WithBotTop Rat) := ne_of_lt (WithBot.bot_lt_coe _)
  have htop : (⊤ : WithBotTop Rat) ≠ (q : WithBotTop Rat) :=
    (ne_of_lt (WithBot.coe_lt_coe.mpr (WithTop.coe_lt_top q))).symm
  rw [isFinite_iff, extended?]
  cases x.isNaN with
  | true => simp
  | false =>
      cases x.isInfinite with
      | true => cases x.negative <;> simp [hbottom, htop]
      | false => simp [WithBotTop.coe_injective.eq_iff]

/-- A whole number of a JSON text is read as a floating-point number nearest to it. -/
def ReadsNearest (n : Nat) : Prop :=
  ∃ x, (JsonNumber.ofInt n).ReadAs x ∧ x.IsNearest n

theorem JsonNumber.ofInt_natCast (n : Nat) : JsonNumber.ofInt n = .whole false n :=
  rfl

/-- Below `2 ^ 64` a whole number is rounded once, and so is read as the nearest one. -/
theorem readsNearest_of_lt {n : Nat} (h : n < 2 ^ 64) : ReadsNearest n :=
  ⟨_, .whole h (JsonNumber.isNearest_of_lt false h) (Binary64.negative_nearest false n 1),
    JsonNumber.isNearest_of_lt false h⟩

theorem readsNearest_of_eq {n : Nat}
    (h : (JsonNumber.ofInt n).toBinary64? = some (Binary64.ofInt n)) : ReadsNearest n := by
  have hread := JsonNumber.toBinary64?_eq_some_iff.mp h
  exact ⟨_, hread, Binary64.isNearest_ofInt ((Binary64.isFinite_iff _).mp hread.finite).2⟩

/-- What a record holds of a whole number of a JSON text, as it is read. -/
def wholeInRecord (n : Nat) (x : Binary64) : Rat :=
  if (n : Int) ≤ Int64.maxValue.toInt then n else x.toRat

theorem Value.exists_ofJsonNumber?_whole {n : Nat} {x : Binary64}
    (h : (JsonNumber.ofInt n).ReadAs x) :
    ∃ value, ofJsonNumber? (.ofInt n) = some value ∧ value.kind = .number ∧
      value.extended? = some ((wholeInRecord n x : Rat) : WithBotTop Rat) := by
  have hint64 : (JsonNumber.ofInt n).int64? = Number.int64? (n : Int) := by
    rw [JsonNumber.ofInt_natCast, JsonNumber.int64?, Binary64.withSign_false]
    intro hnegative
    cases hnegative
  rw [ofJsonNumber?, hint64, wholeInRecord]
  by_cases hle : (n : Int) ≤ Int64.maxValue.toInt
  · have hread := int64?_of_le hle
    rw [hread, if_pos hle]
    refine ⟨_, rfl, rfl, ?_⟩
    rw [extended?, toInt_of_int64?_eq_some hread, Int.cast_natCast]
  · rw [int64?_of_lt (Int.not_le.mp hle), JsonNumber.toBinary64?_eq_some_iff.mpr h, if_neg hle]
    exact ⟨_, rfl, rfl, (x.extended?_eq_some_coe_iff _).mpr ⟨h.finite, rfl⟩⟩

/-! ### The rule -/

section

variable {name symbol token : String}

/-- No character of an operand with a digit run is a blank or begins a keyword. -/
theorem plain_of_mem_operand (hname : IsRun isNameChar name.toList)
    (hsymbol : IsRun isComparatorChar symbol.toList) (htoken : IsRun Char.isDigit token.toList)
    {c : Char} (hc : c ∈ (name ++ symbol ++ token).toList) :
    Text.isBlank c = false ∧ c.isUpper = false := by
  have hupper : c.isUpper = false ↔ ¬ (65 ≤ c.toNat ∧ c.toNat ≤ 90) := by
    rw [Bool.eq_false_iff, ne_eq, isUpper_iff]
  simp only [String.toList_append, List.mem_append] at hc
  rw [hupper]
  rcases hc with (hc | hc) | hc
  · have hcode := (isNameChar_iff c).mp (hname.2 c hc)
    exact ⟨isBlank_eq_false (by omega) (by omega), by omega⟩
  · have hcode := (isComparatorChar_iff c).mp (hsymbol.2 c hc)
    exact ⟨isBlank_eq_false (by omega) (by omega), by omega⟩
  · have hcode := (isDigit_iff c).mp (htoken.2 c hc)
    exact ⟨isBlank_eq_false (by omega) (by omega), by omega⟩

theorem operandChain_operand (hname : IsRun isNameChar name.toList)
    (hsymbol : IsRun isComparatorChar symbol.toList) (htoken : IsRun Char.isDigit token.toList) :
    operandChain (name ++ symbol ++ token) = some ⟨⟨name, symbol, token⟩, []⟩ := by
  have hblanks : (Text.removeBlanks (name ++ symbol ++ token)).toList =
      (name ++ symbol ++ token).toList := by
    rw [Text.toList_removeBlanks, List.filter_eq_self]
    intro c hc
    rw [(plain_of_mem_operand hname hsymbol htoken hc).1]
    rfl
  have hcut : cut (name ++ symbol ++ token).toList = ⟨(name ++ symbol ++ token).toList, []⟩ := by
    have hfree : KeywordFree (name ++ symbol ++ token).toList :=
      keywordFree_of_plain fun c hc => (plain_of_mem_operand hname hsymbol htoken hc).2
    rw [← List.append_nil (name ++ symbol ++ token).toList,
      cut_append hfree not_startsInsideKeyword_nil]
    rfl
  have hfound : firstOperand? false ([] ++ (name.toList ++ (symbol.toList ++ (token.toList ++ [])))) =
      some ⟨String.ofList name.toList, String.ofList symbol.toList, String.ofList token.toList⟩ :=
    firstOperand?_append (fun c hc => by cases hc) hname hsymbol (Or.inl htoken) rfl
  simp only [String.ofList_toList, List.append_nil, List.nil_append] at hfound
  rw [operandChain, hblanks, hcut, writtenOperands]
  simp only [Chain.map, String.toList_append, List.append_assoc, hfound]
  rfl

/-- An operand that is written with a digit run and without blanks is read as such. -/
theorem Rule.parse_operand (hname : IsRun isNameChar name.toList)
    (hsymbol : IsRun isComparatorChar symbol.toList) (htoken : IsRun Char.isDigit token.toList) :
    Rule.parse (name ++ symbol ++ token) =
      .ok (.leaf ⟨name, .ofSymbol symbol, .ofToken token⟩) := by
  rw [parse_of_operandChain_eq_some (operandChain_operand hname hsymbol htoken)]
  rfl

end

/-! ### The verdict -/

/-- The verdict that a rule text gives on a record. -/
def Record.HasVerdict (settings : Settings) (record : Record) (text : String) (verdict : Bool) :
    Prop :=
  ∃ rule, Rule.parse text = .ok rule ∧ (evaluate settings record.source (some rule) ()).1 = verdict

theorem Comparator.relates_coe (comparator : Comparator) (a b : Rat) :
    comparator.Relates (a : WithBotTop Rat) (b : WithBotTop Rat) ↔ comparator.Relates a b := by
  cases comparator with
  | greater => exact WithBotTop.coe_lt_coe
  | less => exact WithBotTop.coe_lt_coe
  | equal => exact WithBotTop.coe_injective.eq_iff
  | greaterEqual => exact WithBotTop.coe_le_coe
  | lessEqual => exact WithBotTop.coe_le_coe
  | unrecognized text => exact Iff.rfl

section

variable (settings : Settings) {name : String} {value : Value} {q : Rat} {n : Nat}

/-- On a record that holds a number, an operand with a digit run holds just where its comparator relates
the two numbers. -/
theorem evaluate_operand_iff (comparator : Comparator) (hnumber : value.kind = .number)
    (hvalue : value.extended? = some (q : WithBotTop Rat)) :
    (evaluate settings (Record.ofList [(name, value)]).source
        (some (.leaf ⟨name, comparator, .ofToken n.repr⟩)) ()).1 = true ↔
      comparator.Relates q (n : Rat) := by
  have htoken := isRun_repr n
  have hwhole : (Literal.ofToken n.repr).whole? = some (n : Int) := by
    rw [Literal.whole?_ofToken htoken, digitsValue_repr]
  have hkind := hnumber.trans (Literal.kind_of_whole? hwhole).symm
  rw [Record.source, evaluate_ofLookup, Rule.holds, Record.get?_ofList_singleton,
    Operand.holds_of_judge (Operand.judge_of_kind_eq hkind _),
    exactOrder?_eq_cmp (Literal.inGrammar_ofToken_digits htoken) hwhole hnumber,
    Comparator.holds_map_cmp, hvalue, ← comparator.relates_coe, Int.cast_natCast]
  simp only [Option.some.injEq, exists_eq_left']

theorem Record.hasVerdict_iff (hname : IsRun isNameChar name.toList) (symbol : String)
    (hsymbol : IsRun isComparatorChar symbol.toList) (hnumber : value.kind = .number)
    (hvalue : value.extended? = some (q : WithBotTop Rat)) (verdict : Bool) :
    (ofList [(name, value)]).HasVerdict settings (name ++ symbol ++ n.repr) verdict ↔
      (verdict = true ↔ (Comparator.ofSymbol symbol).Relates q (n : Rat)) := by
  have hparse := Rule.parse_operand hname hsymbol (isRun_repr n)
  rw [← evaluate_operand_iff settings _ hnumber hvalue]
  constructor
  · rintro ⟨rule, hrule, hverdict⟩
    obtain rfl := Except.ok.inj (hparse.symm.trans hrule)
    rw [hverdict]
  · intro h
    exact ⟨_, hparse, Bool.eq_iff_iff.mpr h.symm⟩

end

/-! ### Whole numbers that are kept -/

/-- A 64-bit integer, or a number that some floating-point number denotes. -/
def IsKept (n : Nat) : Prop :=
  (n : Int) ≤ Int64.maxValue.toInt ∨
    ∃ x : Binary64, x.extended? = some ((n : Rat) : WithBotTop Rat)

/-- A floating-point number is nearest to itself, so a number that one denotes is not rounded. -/
theorem Number.Binary64.IsNearest.toRat_eq_of_denoted {x y : Binary64} {n : Nat}
    (hx : x.IsNearest n) (hy : y.extended? = some ((n : Rat) : WithBotTop Rat)) : x.toRat = n := by
  obtain ⟨hfinite, hrat⟩ := (y.extended?_eq_some_coe_iff n).mp hy
  have hle := hx.le y hfinite
  rw [hrat, sub_self, abs_zero] at hle
  exact sub_eq_zero.mp (abs_nonpos_iff.mp hle)

theorem wholeInRecord_eq_iff {n : Nat} {x : Binary64} (hnearest : x.IsNearest n) :
    wholeInRecord n x = n ↔ IsKept n := by
  rw [wholeInRecord, IsKept]
  by_cases hle : (n : Int) ≤ Int64.maxValue.toInt
  · simp [hle]
  · rw [if_neg hle, or_iff_right hle]
    constructor
    · intro h
      exact ⟨x, (x.extended?_eq_some_coe_iff n).mpr ⟨hnearest.finite, h⟩⟩
    · rintro ⟨y, hy⟩
      exact hnearest.toRat_eq_of_denoted hy

/-- Let a JSON text be the object with one member, a whole number that is read as a nearest one, as those
below `2 ^ 64` always are. On its record the member equals the same digits just where the number is a 64-bit
integer or some floating-point number denotes it. In every other case just one of the other two comparisons
holds, by the side on which the floating-point number nearest to it is. -/
theorem evaluate_whole_number_member (settings : Settings) {name : String}
    (hname : IsRun isNameChar name.toList) {n : Nat} (hread : 2 ^ 64 ≤ n → ReadsNearest n) :
    let json : Json := .object [(name, .number (.ofInt n))]
    Json.parse? json.write = some json ∧
      ∀ text, Json.parse? text = some json → ∃ record, Record.parse text = .ok record ∧
        (record.HasVerdict settings (name ++ "=" ++ n.repr) true ↔ IsKept n) ∧
        (¬ IsKept n → record.HasVerdict settings (name ++ "=" ++ n.repr) false ∧
          (∃ x : Binary64, x.IsNearest n) ∧ ∀ x : Binary64, x.IsNearest n →
            (x.toRat < n ∧ record.HasVerdict settings (name ++ "<" ++ n.repr) true ∧
                record.HasVerdict settings (name ++ ">" ++ n.repr) false) ∨
              (n < x.toRat ∧ record.HasVerdict settings (name ++ "<" ++ n.repr) false ∧
                record.HasVerdict settings (name ++ ">" ++ n.repr) true)) := by
  intro json
  obtain ⟨x, hx, hnearest⟩ : ReadsNearest n :=
    (Nat.lt_or_ge n (2 ^ 64)).elim readsNearest_of_lt hread
  obtain ⟨value, hvalue, hnumber, hextended⟩ := Value.exists_ofJsonNumber?_whole hx
  have hless := Record.hasVerdict_iff settings hname "<" (by decide) hnumber hextended (n := n)
  have hgreater := Record.hasVerdict_iff settings hname ">" (by decide) hnumber hextended (n := n)
  have hequal := Record.hasVerdict_iff settings hname "=" (by decide) hnumber hextended (n := n)
  have hkeeps := wholeInRecord_eq_iff hnearest
  have hsome : (JsonNumber.ofInt n).toBinary64?.isSome = true := by
    rw [JsonNumber.toBinary64?_eq_some_iff.mpr hx]
    rfl
  refine ⟨Json.parse?_write_member name hsome, fun text htext => ?_⟩
  refine ⟨Record.ofList [(name, value)], ?_, ?_, fun hkept => ⟨?_, ?_⟩⟩
  · rw [Record.parse, htext]
    exact Record.ofJson_member name hvalue
  · rw [hequal, ← hkeeps]
    exact ⟨fun h => h.mp rfl, fun h => iff_of_true rfl h⟩
  · rw [← hkeeps] at hkept
    exact (hequal false).mpr (iff_of_false Bool.false_ne_true hkept)
  · have hrounded : wholeInRecord n x = x.toRat := if_neg fun h => hkept (Or.inl h)
    refine ⟨⟨x, hnearest⟩, fun y hy => ?_⟩
    rw [← hkeeps, hrounded, hnearest.unique hy] at hkept
    rw [hrounded, hnearest.unique hy] at hless hgreater
    rcases lt_or_gt_of_ne hkept with hbelow | habove
    · exact Or.inl ⟨hbelow, (hless true).mpr (iff_of_true rfl hbelow),
        (hgreater false).mpr (iff_of_false Bool.false_ne_true hbelow.not_gt)⟩
    · exact Or.inr ⟨habove, (hless false).mpr (iff_of_false Bool.false_ne_true habove.not_gt),
        (hgreater true).mpr (iff_of_true rfl habove)⟩

/-- The first number that is scaled when it is read is kept, as a power of two, and the one after it is
read as the same and so as a smaller one. -/
theorem evaluate_whole_number_member_of_bound :
    (∃ record, Record.parse "\x7b\"a\":18446744073709551616\x7d" = .ok record ∧
      record.HasVerdict ⟨.reject⟩ "a=18446744073709551616" true) ∧
    ∃ record, Record.parse "\x7b\"a\":18446744073709551617\x7d" = .ok record ∧
      record.HasVerdict ⟨.reject⟩ "a=18446744073709551617" false ∧
      record.HasVerdict ⟨.reject⟩ "a<18446744073709551617" true ∧
      record.HasVerdict ⟨.reject⟩ "a>18446744073709551617" false := by
  have hname : IsRun isNameChar "a".toList := by decide
  constructor
  · have hread : ReadsNearest 18446744073709551616 := readsNearest_of_eq (by decide +kernel)
    have hkept : IsKept 18446744073709551616 := by
      refine Or.inr ⟨.ofInt 18446744073709551616, ?_⟩
      decide +kernel
    have hwrite : (Json.object [("a", .number (.ofInt (18446744073709551616 : Nat)))]).write =
        "\x7b\"a\":18446744073709551616\x7d" := by
      rw [Json.write_eq]
      decide +kernel
    obtain ⟨hdocument, hrecord⟩ := evaluate_whole_number_member ⟨.reject⟩ hname fun _ => hread
    rw [hwrite] at hdocument
    obtain ⟨record, hparse, hequal, _⟩ := hrecord _ hdocument
    exact ⟨record, hparse, hequal.mpr hkept⟩
  · have hread : ReadsNearest 18446744073709551617 := readsNearest_of_eq (by decide +kernel)
    have hwrite : (Json.object [("a", .number (.ofInt (18446744073709551617 : Nat)))]).write =
        "\x7b\"a\":18446744073709551617\x7d" := by
      rw [Json.write_eq]
      decide +kernel
    obtain ⟨hdocument, hrecord⟩ := evaluate_whole_number_member ⟨.reject⟩ hname fun _ => hread
    rw [hwrite] at hdocument
    obtain ⟨record, hparse, _, hother⟩ := hrecord _ hdocument
    have hnearest : (Binary64.ofInt 18446744073709551617).IsNearest (18446744073709551617 : Nat) :=
      Binary64.isNearest_ofInt (by decide +kernel)
    have hbelow : (Binary64.ofInt 18446744073709551617).toRat < (18446744073709551617 : Nat) := by
      decide +kernel
    have hkept : ¬ IsKept 18446744073709551617 := by
      rw [← wholeInRecord_eq_iff hnearest]
      decide +kernel
    obtain ⟨hequal, _, hsides⟩ := hother hkept
    rcases hsides _ hnearest with ⟨_, hless, hgreater⟩ | ⟨habove, _, _⟩
    · exact ⟨record, hparse, hequal, hless, hgreater⟩
    · exact absurd hbelow habove.not_gt

/-- A number that is read as another one than the nearest, which is on its other side. -/
example : (JsonNumber.ofInt 123456789012345680000).toBinary64? = some ⟨0x441ac53a7e04bcd9⟩ ∧
    Binary64.ofInt 123456789012345680000 = ⟨0x441ac53a7e04bcda⟩ := by
  decide +kernel

end RecordRules
