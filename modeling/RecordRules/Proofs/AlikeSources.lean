import RecordRules.Proofs.ExactOrder
import RecordRules.Proofs.PairedEvaluation

/-! Sources that no rule tells apart. A rule sees of a record what it asks for by name, of a number what
it denotes, whether it is kept as a whole one or not, and of a text what is left without its quotes.
So two sources that agree in this give every rule the same verdict with the same mismatch, and are
asked for the same names. -/

namespace RecordRules

open Number

namespace Value

/-- What a number denotes, in units of `2 ^ -1074`. -/
def denoted? : Value → Option Int
  | .integer n => some (n.toInt * Binary64.unitsPerOne)
  | .decimal x => x.denoted?
  | .text _ => none

/-- A value without the quotes that a text may have. -/
def withoutQuotes : Value → Value
  | .text s => .text (Text.unquoted s)
  | value => value

/-- Values that are the same number, or the same text but for quotes. -/
inductive Alike : Value → Value → Prop where
  | number {value other : Value} (hvalue : value.kind = .number) (hother : other.kind = .number)
      (h : value.denoted? = other.denoted?) : Alike value other
  | text {s t : String} (h : Text.unquoted s = Text.unquoted t) : Alike (.text s) (.text t)

end Value

/-! ### Numbers that denote the same -/

namespace Value

/-- What tells no whole number from the floating-point number of the same value tells no numbers
apart that denote the same. -/
theorem eq_of_denoted?_eq {β : Type} (f : Value → β)
    (hdecimal : ∀ x y : Binary64, x.denoted? = y.denoted? → f (.decimal x) = f (.decimal y))
    (hinteger : ∀ (x : Binary64) (n : Int64), x.denoted? = (Value.integer n).denoted? →
      f (.decimal x) = f (.integer n))
    {value other : Value} (hvalue : value.kind = .number) (hother : other.kind = .number)
    (h : value.denoted? = other.denoted?) : f value = f other := by
  cases value with
  | text s => cases hvalue
  | integer n =>
      cases other with
      | text t => cases hother
      | decimal y => exact (hinteger y n h.symm).symm
      | integer m =>
          have hmul := Int.eq_of_mul_eq_mul_right (Int.ne_of_gt Binary64.unitsPerOne_int_pos)
            (Option.some_inj.mp h)
          rw [Int64.toInt_inj.mp hmul]
  | decimal x =>
      cases other with
      | text t => cases hother
      | decimal y => exact hdecimal x y h
      | integer m => exact hinteger x m h

end Value

/-- A number that a 64-bit integer denotes is below all digits beyond these integers. -/
theorem compareToDigits?_of_integer {x : Binary64} {n : Int64}
    (h : x.denoted? = (Value.integer n).denoted?) (digits : String) :
    compareToDigits? x digits = some .lt := by
  obtain ⟨hnumber, hscaled⟩ := (Binary64.denoted?_eq_some_iff x _).mp h
  have hrange : n.toInt < int64Bound := n.toInt_lt
  apply compareToDigits?_of_lt hnumber
  rw [hscaled]
  exact Int.mul_lt_mul_of_pos_right hrange Binary64.unitsPerOne_int_pos

theorem compareToDigits?_congr {x y : Binary64} (h : x.denoted? = y.denoted?) (digits : String) :
    compareToDigits? x digits = compareToDigits? y digits := by
  by_cases hx : x.isNaN = true
  · have hy : y.isNaN = true := by
      rwa [← Binary64.denoted?_eq_none_iff, ← h, Binary64.denoted?_eq_none_iff]
    rw [compareToDigits?, compareToDigits?, hx, hy]
    rfl
  · -- two zeros may differ in their signs, but the sign is not read beyond the order
    have hmagnitude := Binary64.magnitude_eq_of_denoted?_eq h (Bool.eq_false_iff.mpr hx)
    have hnumber : x.isNaN = y.isNaN := by rw [Binary64.isNaN, Binary64.isNaN, hmagnitude]
    have hcompare : x.compareInt? int64Bound = y.compareInt? int64Bound := by
      rw [Binary64.compareInt?_eq, Binary64.compareInt?_eq, h]
    have hinfinite : x.isInfinite = y.isInfinite := by
      rw [Binary64.isInfinite, Binary64.isInfinite, hmagnitude]
    have hwhole : x.wholePart = y.wholePart := by
      rw [Binary64.wholePart, Binary64.wholePart, Binary64.units_congr hmagnitude]
    rw [compareToDigits?, compareToDigits?, hnumber, hcompare, hinfinite, hwhole]

theorem exactOrder?_of_denoted?_eq (literal : Literal) {value other : Value}
    (hvalue : value.kind = .number) (hother : other.kind = .number)
    (h : value.denoted? = other.denoted?) :
    exactOrder? value literal = exactOrder? other literal := by
  apply Value.eq_of_denoted?_eq (exactOrder? · literal) _ _ hvalue hother h
  · intro x y hxy
    cases literal with
    | integer m => simp only [exactOrder?, compareToInteger?_eq, Binary64.compareInt?_eq, hxy]
    | digits s => exact compareToDigits?_congr hxy s
    | text s => rfl
  · intro x n hxn
    cases literal with
    | integer m =>
        simp only [exactOrder?, compareToInteger?_eq, Binary64.compareInt?_eq, hxn, Value.denoted?,
          Option.map_some, compare_mul_right Binary64.unitsPerOne_int_pos]
    | digits s => exact compareToDigits?_of_integer hxn s
    | text s => rfl

/-- The order of coerced values is that of what they denote as floating-point numbers. -/
theorem coercedOrder?_eq (value : Value) (literal : Literal) :
    coercedOrder? value literal =
      (value.coerced?.bind Binary64.denoted?).bind fun a =>
        (literal.coerced?.bind Binary64.denoted?).map (compare a) := by
  unfold coercedOrder?
  cases value.coerced? with
  | none => rfl
  | some x =>
      cases literal.coerced? with
      | none => cases hx : x.denoted? <;> simp [hx]
      | some y => exact Binary64.compare?_eq x y

/-- A whole number that is coerced is rounded only if no floating-point number denotes it. -/
theorem coerced?_of_denoted?_eq {value other : Value} (hvalue : value.kind = .number)
    (hother : other.kind = .number) (h : value.denoted? = other.denoted?) :
    value.coerced?.bind Binary64.denoted? = other.coerced?.bind Binary64.denoted? := by
  apply Value.eq_of_denoted?_eq (·.coerced?.bind Binary64.denoted?) _ _ hvalue hother h
  · intro x y hxy
    exact hxy
  · intro x n hxn
    exact hxn.trans (Binary64.denoted?_ofInt hxn).symm

/-! ### Alike values -/

namespace Value.Alike

variable {value other : Value}

theorem of_withoutQuotes_eq (h : value.withoutQuotes = other.withoutQuotes) : Alike value other := by
  cases value with
  | text s =>
      cases other with
      | text t => exact .text (Value.text.inj h)
      | integer m => cases h
      | decimal y => cases h
  | integer n =>
      cases other with
      | text t => cases h
      | integer m => exact .number rfl rfl (congrArg Value.denoted? h)
      | decimal y => cases h
  | decimal x =>
      cases other with
      | text t => cases h
      | integer m => cases h
      | decimal y => exact .number rfl rfl (congrArg Value.denoted? h)

theorem of_map_withoutQuotes_eq {value? other? : Option Value}
    (h : value?.map withoutQuotes = other?.map withoutQuotes) :
    Option.Rel Alike value? other? := by
  cases value? with
  | none =>
      cases other? with
      | none => exact .none
      | some other => cases h
  | some value =>
      cases other? with
      | none => cases h
      | some other => exact .some (of_withoutQuotes_eq (Option.some_inj.mp h))

theorem kind_eq (h : Alike value other) : value.kind = other.kind := by
  cases h with
  | number hvalue hother => rw [hvalue, hother]
  | text => rfl

theorem exactOrder?_eq (h : Alike value other) (literal : Literal) :
    exactOrder? value literal = exactOrder? other literal := by
  cases h with
  | number hvalue hother h => exact exactOrder?_of_denoted?_eq literal hvalue hother h
  | text h => cases literal <;> simp [exactOrder?, h]

theorem coercedOrder?_eq (h : Alike value other) (literal : Literal) :
    coercedOrder? value literal = coercedOrder? other literal := by
  cases h with
  | number hvalue hother h =>
      rw [RecordRules.coercedOrder?_eq, RecordRules.coercedOrder?_eq,
        coerced?_of_denoted?_eq hvalue hother h]
  | text h => simp only [coercedOrder?, coerced?, h]

/-- An operand judges alike values alike, and reports no more of a value than its kind. -/
theorem judge_eq (h : Alike value other) (policy : Policy) (operand : Operand) :
    operand.judge policy value = operand.judge policy other := by
  unfold Operand.judge Operand.judgeAcross
  rw [h.kind_eq, h.exactOrder?_eq, h.coercedOrder?_eq]

end Value.Alike

theorem Verdict.ofOperand_eq_of_alike {value? other? : Option Value}
    (h : Option.Rel Value.Alike value? other?) (policy : Policy) (operand : Operand) :
    ofOperand policy operand value? = ofOperand policy operand other? := by
  cases h with
  | none => rfl
  | some h => simp only [ofOperand, h.judge_eq policy operand]

/-! ### Alike sources -/

section

variable {σ τ : Type}

/-- Two sources give alike values for some names, or both none, and go on from related states to
related states. -/
def AlikeFor (names : List String) (states : σ → τ → Prop) (source : Source σ)
    (source' : Source τ) : Prop :=
  ∀ name ∈ names, ∀ (state : σ) (state' : τ), states state state' →
    Option.Rel Value.Alike (source name state).1 (source' name state').1 ∧
      states (source name state).2 (source' name state').2

theorem Rule.verdict_of_alike {source : Source σ} {source' : Source τ} {states : σ → τ → Prop}
    {rule : Rule} (h : AlikeFor rule.names states source source') (settings : Settings)
    {state : σ} {state' : τ} (hstate : states state state') :
    (rule.verdict settings source state).1 = (rule.verdict settings source' state').1 ∧
      states (rule.verdict settings source state).2 (rule.verdict settings source' state').2 := by
  have hjoin : KeptByJoin Eq := by
    rintro connective left _ right _ rfl rfl
    rfl
  apply verdict_related hjoin rule _ hstate
  intro operand hoperand state state' hstate
  obtain ⟨hvalue, hnext⟩ := h operand.name (List.mem_map_of_mem hoperand) state state' hstate
  exact ⟨Verdict.ofOperand_eq_of_alike hvalue settings.crossKind operand, hnext⟩

theorem alikeFor_logged {names : List String} {lookup lookup' : String → Option Value}
    (h : ∀ name ∈ names, Option.Rel Value.Alike (lookup name) (lookup' name)) :
    AlikeFor names Eq (Source.logged lookup) (Source.logged lookup') := by
  rintro name hname asked _ rfl
  exact ⟨h name hname, rfl⟩

theorem Record.alikeFor_source {names : List String} {record record' : Record}
    (h : ∀ name ∈ names,
      (record.get? name).map Value.withoutQuotes = (record'.get? name).map Value.withoutQuotes) :
    AlikeFor names Eq record.source record'.source := by
  rintro name hname state _ rfl
  exact ⟨Value.Alike.of_map_withoutQuotes_eq (h name hname), rfl⟩

end

/-- Two sources that hold alike values for the names of a rule, the same number or the same text but
for quotes, or that both hold none, give the rule the same verdict, plain and checked and with the
same mismatch, and are asked for the same names. So neither the attributes that a rule does not name
nor quotes in the texts of a record have an effect. -/
theorem evaluate_of_alike_sources (settings : Settings) (rule : Rule) :
    (∀ {σ τ : Type} (source : Source σ) (source' : Source τ) (states : σ → τ → Prop),
      AlikeFor rule.names states source source' →
      ∀ (state : σ) (state' : τ), states state state' →
        ((evaluate settings source (some rule) state).1 =
            (evaluate settings source' (some rule) state').1 ∧
          states (evaluate settings source (some rule) state).2
            (evaluate settings source' (some rule) state').2) ∧
        (evaluateChecked settings source (some rule) state).1 =
            (evaluateChecked settings source' (some rule) state').1 ∧
          states (evaluateChecked settings source (some rule) state).2
            (evaluateChecked settings source' (some rule) state').2) ∧
      (∀ lookup lookup' : String → Option Value,
        (∀ name ∈ rule.names, Option.Rel Value.Alike (lookup name) (lookup' name)) →
        evaluate settings (.logged lookup) (some rule) #[] =
            evaluate settings (.logged lookup') (some rule) #[] ∧
          evaluateChecked settings (.logged lookup) (some rule) #[] =
            evaluateChecked settings (.logged lookup') (some rule) #[]) ∧
      ∀ record record' : Record,
        (∀ name ∈ rule.names,
          (record.get? name).map Value.withoutQuotes =
            (record'.get? name).map Value.withoutQuotes) →
        evaluate settings record.source (some rule) () =
            evaluate settings record'.source (some rule) () ∧
          evaluateChecked settings record.source (some rule) () =
            evaluateChecked settings record'.source (some rule) () := by
  simp only [evaluate_some, evaluateChecked_some]
  refine ⟨?_, ?_, ?_⟩
  · intro σ τ source source' states halike state state' hstate
    obtain ⟨hverdict, hnext⟩ := Rule.verdict_of_alike halike settings hstate
    rw [hverdict]
    exact ⟨⟨rfl, hnext⟩, rfl, hnext⟩
  · intro lookup lookup' halike
    obtain ⟨hverdict, hnext⟩ := Rule.verdict_of_alike (alikeFor_logged halike) settings (Eq.refl #[])
    rw [hverdict, hnext]
    exact ⟨rfl, rfl⟩
  · intro record record' halike
    obtain ⟨hverdict, hnext⟩ :=
      Rule.verdict_of_alike (Record.alikeFor_source halike) settings (Eq.refl ())
    rw [hverdict]
    exact ⟨rfl, rfl⟩

/-- A whole number and a floating-point number, texts with quotes at different places, and a value for
a name that the rule does not ask for. -/
theorem evaluate_of_alike_sources_of_quotes :
    let rule : Rule := .join .and (.leaf ⟨"a", .greaterEqual, .integer 2⟩)
      (.leaf ⟨"b", .equal, .text "X"⟩)
    let lookup (name : String) : Option Value :=
      if name = "a" then some (.integer 2) else if name = "b" then some (.text "'X") else none
    let lookup' (name : String) : Option Value :=
      if name = "a" then some (.decimal ⟨0x4000000000000000⟩)
      else some (.text (if name = "b" then "X''" else "Y"))
    evaluate ⟨.reject⟩ (.logged lookup) (some rule) #[] = (true, #["a", "b"]) ∧
      evaluate ⟨.reject⟩ (.logged lookup') (some rule) #[] = (true, #["a", "b"]) := by
  intro rule lookup lookup'
  have halike : ∀ name ∈ rule.names, Option.Rel Value.Alike (lookup name) (lookup' name) := by
    intro name hname
    rcases List.mem_cons.mp hname with rfl | hname
    · exact .some (.number rfl rfl (by decide +kernel))
    · obtain rfl := List.mem_singleton.mp hname
      exact .some (.text rfl)
  have hlookup : evaluate ⟨.reject⟩ (.logged lookup) (some rule) #[] = (true, #["a", "b"]) := by
    simp only [rule, evaluate_some, Rule.verdict_join, Rule.verdict_leaf]
    rfl
  have hsame := (evaluate_of_alike_sources ⟨.reject⟩ rule).2.1 lookup lookup' halike
  exact ⟨hlookup, hsame.1 ▸ hlookup⟩

end RecordRules
