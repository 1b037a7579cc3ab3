import RecordRules.Proofs.RoundTrip

/-! Texts with a keyword between them, and texts with blanks in them. As keywords do not overlap, the
pieces of two texts with a keyword between them are those of the first text and then those of the
second. So the operands of the second text go on after the rule of the first, which is joined to the
leftmost one of them: by the keyword, unless the second text has a connective of its own there.
Blanks are not read at all, wherever they stand. -/

namespace RecordRules

open RuleText

/-! ### Chains one after the other -/

namespace Chain

variable {α : Type} {chain left right : Chain (Option α)}

theorem presentSteps_append (steps later : List (Connective × Option α)) :
    presentSteps (steps ++ later) = presentSteps steps ++ presentSteps later :=
  List.filterMap_append

/-- What is present in a chain with gaps, each with the connective before it, where a given one stands
before the chain. -/
def stepsAfter (given : Connective) (chain : Chain (Option α)) : List (Connective × α) :=
  presentSteps ((given, chain.first) :: chain.further)

/-- The connective just before the first thing that is present, where a given one stands before the
chain. -/
def leading (given : Connective) (chain : Chain (Option α)) : Connective :=
  match chain.stepsAfter given with
  | [] => given
  | (connective, _) :: _ => connective

theorem stepsAfter_append (given connective : Connective) (left right : Chain (Option α)) :
    (left.append connective right).stepsAfter given =
      left.stepsAfter given ++ right.stepsAfter connective :=
  presentSteps_append ((given, left.first) :: left.further) _

theorem present_eq (given : Connective) (chain : Chain (Option α)) :
    chain.present =
      match chain.stepsAfter given with
      | [] => none
      | (_, first) :: further => some ⟨first, further⟩ := by
  obtain ⟨first, further⟩ := chain
  rw [present, stepsAfter, presentSteps_cons]
  cases first with
  | some first => rfl
  | none => cases presentSteps further <;> rfl

theorem present_eq_none_iff (given : Connective) :
    chain.present = none ↔ chain.stepsAfter given = [] := by
  rw [present_eq given]
  cases chain.stepsAfter given <;> simp

/-- Only the connective before the first thing depends on what stands before the chain. -/
theorem present_eq_some_iff (given : Connective) {found : Chain α} :
    chain.present = some found ↔
      chain.stepsAfter given = (chain.leading given, found.first) :: found.further := by
  rw [present_eq given, leading]
  obtain ⟨first, further⟩ := found
  cases chain.stepsAfter given with
  | nil => simp
  | cons step steps =>
      obtain ⟨connective, text⟩ := step
      simp

theorem present_append_of_left_eq_none (h : left.present = none) (connective : Connective)
    (right : Chain (Option α)) : (left.append connective right).present = right.present := by
  rw [present_eq connective, present_eq connective, stepsAfter_append,
    (present_eq_none_iff connective).mp h, List.nil_append]

theorem present_append_of_right_eq_none (h : right.present = none) (connective : Connective)
    (left : Chain (Option α)) : (left.append connective right).present = left.present := by
  rw [present_eq connective, present_eq connective, stepsAfter_append,
    (present_eq_none_iff connective).mp h, List.append_nil]

/-- What is present in two chains, with the connective that takes effect between them. -/
theorem present_append {first second : Chain α} (hleft : left.present = some first)
    (hright : right.present = some second) (connective : Connective) :
    (left.append connective right).present =
      some (first.append (right.leading connective) second) := by
  rw [present_eq connective, stepsAfter_append, (present_eq_some_iff connective).mp hleft,
    (present_eq_some_iff connective).mp hright]
  rfl

end Chain

namespace Rule

/-- A rule joined to the leftmost operand of another one, in the place of that operand. -/
def joinToFirst (before : Rule) (connective : Connective) : Rule → Rule
  | .leaf operand => .join connective before (.leaf operand)
  | .join c left right => .join c (before.joinToFirst connective left) right

theorem chain_joinToFirst (before : Rule) (connective : Connective) (rule : Rule) :
    (before.joinToFirst connective rule).chain = before.chain.append connective rule.chain := by
  induction rule with
  | leaf operand => rfl
  | join c left right ihl _ =>
      rw [joinToFirst, chain, chain, ihl]
      simp only [Chain.append, List.append_assoc, List.cons_append]

theorem leftLeaning_joinToFirst {before : Rule} (hbefore : before.LeftLeaning)
    (connective : Connective) {rule : Rule} (h : rule.LeftLeaning) :
    (before.joinToFirst connective rule).LeftLeaning := by
  induction rule with
  | leaf operand => exact ⟨rfl, hbefore, trivial⟩
  | join c left right ihl _ => exact ⟨h.1, ihl h.2.1, h.2.2⟩

end Rule

namespace RuleText

theorem spelled_append (first second : Chain OperandText) (connective : Connective) :
    spelled (first.append connective second) =
      (spelled first).joinToFirst connective (spelled second) := by
  have hleft : ((spelled first).joinToFirst connective (spelled second)).LeftLeaning :=
    Rule.leftLeaning_joinToFirst (Rule.leftLeaning_toRule _) connective (Rule.leftLeaning_toRule _)
  rw [← Rule.toRule_chain_of_leftLeaning hleft, Rule.chain_joinToFirst]
  simp only [spelled, Rule.chain_toRule, Chain.map_append]

/-! ### Tokens before the first operand -/

/-- The first operand that steps have is found right behind its connective. -/
theorem stepTokens_of_presentSteps (steps : List (Connective × List Char)) {connective : Connective}
    {found : OperandText} {more : List (Connective × OperandText)}
    (h : Chain.presentSteps (steps.map fun step => (step.1, firstOperand? false step.2)) =
      (connective, found) :: more) :
    ∃ before rest, stepTokens steps = before ++ .connective connective :: .operand found :: rest ∧
      ∀ token ∈ before, token.isOperand = false := by
  induction steps with
  | nil => cases h
  | cons step steps ih =>
      rw [List.map_cons, Chain.presentSteps_cons] at h
      rw [stepTokens_cons, pieceToken_eq]
      cases hfound : firstOperand? false step.2 with
      | some text =>
          rw [hfound] at h
          cases h
          exact ⟨[], stepTokens steps, rfl, nofun⟩
      | none =>
          rw [hfound] at h
          obtain ⟨before, rest, htokens, hbefore⟩ := ih h
          refine ⟨.connective step.1 :: .gap (String.ofList step.2) :: before, rest, ?_, ?_⟩
          · rw [htokens]
            rfl
          · rw [List.forall_mem_cons, List.forall_mem_cons]
            exact ⟨rfl, rfl, hbefore⟩

/-- The pieces of a text, each as the operand that it gives, if it gives one. -/
def operandPieces (text : String) : Chain (Option OperandText) :=
  (cut (Text.removeBlanks text).toList).map (firstOperand? false)

theorem operandChain_eq (text : String) : operandChain text = (operandPieces text).present :=
  rfl

/-- The connective just before the first operand of a text, where a given one stands before the
text. -/
def leadingConnective (given : Connective) (text : String) : Connective :=
  (operandPieces text).leading given

/-- A text with an operand starts with one, or has a connective just before the first one. -/
theorem tokens_of_operandChain {text : String} {chain : Chain OperandText}
    (h : operandChain text = some chain) (given : Connective) :
    (∃ rest, tokens text = .operand chain.first :: rest ∧ leadingConnective given text = given) ∨
      ∃ before rest, tokens text =
          before ++ .connective (leadingConnective given text) :: .operand chain.first :: rest ∧
        ∀ token ∈ before, token.isOperand = false := by
  rw [operandChain_eq] at h
  rw [tokens_eq_chainTokens, leadingConnective]
  unfold operandPieces at h ⊢
  generalize cut (Text.removeBlanks text).toList = pieces at h ⊢
  obtain ⟨before, rest, htokens, hbefore⟩ := stepTokens_of_presentSteps
    ((given, pieces.first) :: pieces.further) ((Chain.present_eq_some_iff given).mp h)
  rw [stepTokens_cons] at htokens
  cases before with
  | nil =>
      obtain ⟨hconnective, hrest⟩ := List.cons_eq_cons.mp htokens
      exact Or.inl ⟨rest, hrest, (Token.connective.inj hconnective).symm⟩
  | cons token before =>
      obtain ⟨_, hrest⟩ := List.cons_eq_cons.mp htokens
      exact Or.inr ⟨before, rest, hrest, fun other h => hbefore other (List.mem_cons_of_mem _ h)⟩

/-! ### Two texts with a keyword between them -/

/-- The pieces of two texts stay what they are with a keyword between the texts. -/
theorem cut_append_keyword (chars : List Char) (connective : Connective) (rest : List Char) :
    cut (chars ++ (connective.keyword.toList ++ rest)) = (cut chars).append connective (cut rest) := by
  have hsource : source ((cut chars).append connective (cut rest)) =
      chars ++ (connective.keyword.toList ++ rest) := by
    rw [source_append, source_cut, source_cut]
  rw [← hsource]
  -- keyword-free pieces are what cutting their source gives back, so nothing arises at the seams
  apply cut_source
  intro piece hpiece
  rw [Chain.toList_append] at hpiece
  rcases List.mem_append.mp hpiece with h | h
  · exact keywordFree_of_mem_cut h
  · exact keywordFree_of_mem_cut h

theorem operandPieces_join (a : String) (connective : Connective) (b : String) :
    operandPieces (a ++ connective.keyword ++ b) =
      (operandPieces a).append connective (operandPieces b) := by
  rw [operandPieces, Rule.removeBlanks_append, Rule.removeBlanks_append, Rule.removeBlanks_keyword,
    List.append_assoc, cut_append_keyword, Chain.map_append]
  rfl

section

variable {a b : String} (connective : Connective)

theorem operandChain_join_of_left_eq_none (ha : operandChain a = none) :
    operandChain (a ++ connective.keyword ++ b) = operandChain b := by
  rw [operandChain_eq] at ha
  rw [operandChain_eq, operandChain_eq, operandPieces_join,
    Chain.present_append_of_left_eq_none ha]

theorem operandChain_join_of_right_eq_none (hb : operandChain b = none) :
    operandChain (a ++ connective.keyword ++ b) = operandChain a := by
  rw [operandChain_eq] at hb
  rw [operandChain_eq, operandChain_eq, operandPieces_join,
    Chain.present_append_of_right_eq_none hb]

theorem operandChain_join {first second : Chain OperandText} (ha : operandChain a = some first)
    (hb : operandChain b = some second) :
    operandChain (a ++ connective.keyword ++ b) =
      some (first.append (leadingConnective connective b) second) := by
  rw [operandChain_eq] at ha hb
  rw [operandChain_eq, operandPieces_join, Chain.present_append ha hb, leadingConnective]

end

/-- Whether a text is a rule, and which one, as its operands say. -/
theorem toOption_parse (text : String) :
    (Rule.parse text).toOption = (operandChain text).map spelled := by
  cases h : operandChain text with
  | none =>
      rw [parse_of_operandChain_eq_none h]
      rfl
  | some chain =>
      rw [parse_of_operandChain_eq_some h]
      rfl

theorem operandChain_of_parse_eq_error {text : String} {reason : MalformedRule}
    (h : Rule.parse text = .error reason) : operandChain text = none := by
  have hoption := toOption_parse text
  rw [h] at hoption
  exact Option.map_eq_none_iff.mp hoption.symm

end RuleText

/-! ### Blanks -/

namespace Text

/-- The second character sequence is the first one with blanks inserted, at any places. -/
inductive BlanksInserted : List Char → List Char → Prop where
  | nil : BlanksInserted [] []
  | keep (c : Char) {chars spaced : List Char} (h : BlanksInserted chars spaced) :
      BlanksInserted (c :: chars) (c :: spaced)
  | insert {c : Char} (hc : isBlank c = true) {chars spaced : List Char}
      (h : BlanksInserted chars spaced) : BlanksInserted chars (c :: spaced)

theorem BlanksInserted.filter_eq {chars spaced : List Char} (h : BlanksInserted chars spaced) :
    spaced.filter (fun c => !isBlank c) = chars.filter fun c => !isBlank c := by
  induction h with
  | nil => rfl
  | keep c h ih => rw [List.filter_cons, List.filter_cons, ih]
  | insert hc h ih => rw [List.filter_cons_of_neg (by simp [hc]), ih]

theorem BlanksInserted.removeBlanks_eq {text spaced : String}
    (h : BlanksInserted text.toList spaced.toList) : removeBlanks spaced = removeBlanks text := by
  rw [removeBlanks, removeBlanks, h.filter_eq]

end Text

namespace Rule

/-- Two rules written one after the other with a keyword between them: the first rule is joined to the
leftmost operand of the second one, by the keyword if the second text starts with that operand, and
else by the connective just before it. If only one of the two texts is a rule, the whole is that rule,
and if none is, the whole is refused. Blanks may stand anywhere, also inside of keywords, names,
comparators and literals. -/
theorem parse_join_texts (a : String) (connective : Connective) (b : String) :
    (∀ left right, Rule.parse a = .ok left → Rule.parse b = .ok right →
      (∃ found rest, tokens b = .operand found :: rest ∧
        Rule.parse (a ++ connective.keyword ++ b) = .ok (left.joinToFirst connective right)) ∨
      ∃ before own found rest, tokens b = before ++ .connective own :: .operand found :: rest ∧
        (∀ token ∈ before, token.isOperand = false) ∧
        Rule.parse (a ++ connective.keyword ++ b) = .ok (left.joinToFirst own right)) ∧
    (∀ left reason, Rule.parse a = .ok left → Rule.parse b = .error reason →
      Rule.parse (a ++ connective.keyword ++ b) = .ok left) ∧
    (∀ reason right, Rule.parse a = .error reason → Rule.parse b = .ok right →
      Rule.parse (a ++ connective.keyword ++ b) = .ok right) ∧
    (∀ reason other, Rule.parse a = .error reason → Rule.parse b = .error other →
      Rule.parse (a ++ connective.keyword ++ b) =
        .error (.noOperand (a ++ connective.keyword ++ b))) ∧
    ∀ text spaced : String, Text.BlanksInserted text.toList spaced.toList →
      (Rule.parse spaced).toOption = (Rule.parse text).toOption := by
  refine ⟨?_, ?_, ?_, ?_, ?_⟩
  · intro left right ha hb
    obtain ⟨first, hfirst, rfl⟩ := operandChain_of_parse ha
    obtain ⟨second, hsecond, rfl⟩ := operandChain_of_parse hb
    have hparse := parse_of_operandChain_eq_some (operandChain_join connective hfirst hsecond)
    rw [spelled_append] at hparse
    rcases tokens_of_operandChain hsecond connective with
      ⟨rest, htokens, hgiven⟩ | ⟨before, rest, htokens, hbefore⟩
    · rw [hgiven] at hparse
      exact Or.inl ⟨second.first, rest, htokens, hparse⟩
    · exact Or.inr ⟨before, _, second.first, rest, htokens, hbefore, hparse⟩
  · intro left reason ha hb
    obtain ⟨first, hfirst, rfl⟩ := operandChain_of_parse ha
    have hnone := operandChain_of_parse_eq_error hb
    exact parse_of_operandChain_eq_some
      ((operandChain_join_of_right_eq_none connective hnone).trans hfirst)
  · intro reason right ha hb
    obtain ⟨second, hsecond, rfl⟩ := operandChain_of_parse hb
    have hnone := operandChain_of_parse_eq_error ha
    exact parse_of_operandChain_eq_some
      ((operandChain_join_of_left_eq_none connective hnone).trans hsecond)
  · intro reason other ha hb
    have hnone := operandChain_of_parse_eq_error ha
    exact parse_of_operandChain_eq_none
      ((operandChain_join_of_left_eq_none connective hnone).trans (operandChain_of_parse_eq_error hb))
  · intro text spaced h
    rw [toOption_parse, toOption_parse, operandChain_eq, operandChain_eq, operandPieces,
      operandPieces, h.removeBlanks_eq]

/-- The second text has a connective of its own before its first operand, and a blank stands inside of
a keyword. -/
theorem parse_join_texts_of_own_connective :
    let a : Rule := .leaf ⟨"a", .greater, .integer 1⟩
    let b : Rule := .leaf ⟨"b", .equal, .integer 2⟩
    (Rule.parse "a>1AND" = .ok a ∧ Rule.parse "ANDb=2" = .ok b) ∧
      Rule.parse ("a>1AND" ++ "OR" ++ "ANDb=2") = .ok (.join .and a b) ∧
      (Rule.parse "a>1O Rb=2").toOption = (Rule.parse "a>1ORb=2").toOption := by
  intro a b
  obtain ⟨hboth, _, _, _, hblanks⟩ := parse_join_texts "a>1AND" .or "ANDb=2"
  refine ⟨⟨rfl, rfl⟩, ?_, hblanks "a>1ORb=2" "a>1O Rb=2" ?_⟩
  · have htokens : tokens "ANDb=2" =
        [.gap "", .connective .and, .operand ⟨"b", "=", "2"⟩] := rfl
    rw [htokens] at hboth
    rcases hboth a b rfl rfl with
      ⟨found, rest, hfirst, _⟩ | ⟨before, own, found, rest, hfirst, hbefore, hparse⟩
    · cases hfirst
    · -- the only connective right before an operand is the one of the second text
      rcases before with _ | ⟨first, _ | ⟨second, _ | ⟨third, before⟩⟩⟩
      · cases hfirst
      · cases hfirst
        exact hparse
      · cases hfirst
      · simp at hfirst
  · show Text.BlanksInserted ['a', '>', '1', 'O', 'R', 'b', '=', '2']
      ['a', '>', '1', 'O', ' ', 'R', 'b', '=', '2']
    exact .keep _ (.keep _ (.keep _ (.keep _ (.insert rfl
      (.keep _ (.keep _ (.keep _ (.keep _ .nil))))))))

end Rule

end RecordRules
