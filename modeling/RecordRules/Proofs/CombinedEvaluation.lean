import RecordRules.Proofs.Combination
import RecordRules.Proofs.Evaluation

/-! Evaluation of a combination. A chain of alternatives is evaluated as its rules are, one after the
other: it holds where one of them does, and it has the first mismatch of theirs. Where names are only
looked up each rule is evaluated as on its own, so that the order of the rules does not count for
what holds. -/

namespace RecordRules

/-! ### Verdicts on alternatives -/

namespace Verdict

theorem holds_foldl_or (verdicts : List Verdict) (first : Verdict) :
    (verdicts.foldl (join .or) first).holds = (first :: verdicts).any holds := by
  induction verdicts generalizing first with
  | nil => rw [List.foldl_nil, List.any_cons, List.any_nil, Bool.or_false]
  | cons next verdicts ih =>
      rw [List.foldl_cons, ih, List.any_cons, List.any_cons, List.any_cons, ← Bool.or_assoc]
      rfl

theorem checked_join_or (left right : Verdict) :
    (join .or left right).checked =
      left.checked.bind fun a => right.checked.map fun b => a || b := by
  simp only [checked, join]
  cases left.mismatch? with
  | some mismatch => rfl
  | none => cases right.mismatch? <;> rfl

theorem checked_foldl_or (verdicts : List Verdict) (first : Verdict) :
    (verdicts.foldl (join .or) first).checked =
      ((first :: verdicts).mapM checked).map fun all => all.any id := by
  induction verdicts generalizing first with
  | nil =>
      rw [List.foldl_nil]
      cases hfirst : first.checked with
      | error mismatch => rw [mapM_cons_of_error hfirst, Except.map]
      | ok a =>
          rw [mapM_cons_of_ok hfirst, List.mapM_nil]
          exact congrArg Except.ok (Bool.or_false a).symm
  | cons next verdicts ih =>
      -- the first two outcomes, taken as one, fail as the first of them that fails
      rw [List.foldl_cons, ih]
      have hjoin := checked_join_or first next
      cases hfirst : first.checked with
      | error mismatch =>
          rw [hfirst] at hjoin
          rw [mapM_cons_of_error hfirst, mapM_cons_of_error hjoin]
      | ok a =>
          rw [hfirst] at hjoin
          rw [mapM_cons_of_ok hfirst]
          cases hnext : next.checked with
          | error mismatch =>
              rw [hnext] at hjoin
              rw [mapM_cons_of_error hnext, mapM_cons_of_error hjoin]
              rfl
          | ok b =>
              rw [hnext] at hjoin
              rw [mapM_cons_of_ok hnext, mapM_cons_of_ok hjoin]
              cases verdicts.mapM checked with
              | error mismatch => rfl
              | ok all => exact congrArg Except.ok (Bool.or_assoc a b (all.any id))

end Verdict

/-! ### Rules in turn -/

/-- The results of runs on some rules, one after the other, each from the state that the one before
left. -/
def inTurn {α σ : Type} (run : Rule → σ → α × σ) : List Rule → σ → List α × σ
  | [], state => ([], state)
  | rule :: rules, state =>
      ((run rule state).1 :: (inTurn run rules (run rule state).2).1,
        (inTurn run rules (run rule state).2).2)

theorem inTurn_map {α β σ : Type} (f : α → β) (run : Rule → σ → α × σ) (rules : List Rule)
    (state : σ) :
    inTurn (fun rule state => (f (run rule state).1, (run rule state).2)) rules state =
      ((inTurn run rules state).1.map f, (inTurn run rules state).2) := by
  induction rules generalizing state with
  | nil => rfl
  | cons rule rules ih => rw [inTurn, inTurn, ih, List.map_cons]

theorem inTurn_unit {α : Type} (run : Rule → Unit → α × Unit) (rules : List Rule) :
    (inTurn run rules ()).1 = rules.map fun rule => (run rule ()).1 := by
  induction rules with
  | nil => rfl
  | cons rule rules ih => rw [inTurn, ih, List.map_cons]

section

variable {σ : Type} (settings : Settings) (source : Source σ)

theorem verdict_foldl_or (rules : List Rule) (rule : Rule) (state : σ) :
    (rules.foldl (.join .or) rule).verdict settings source state =
      ((inTurn (Rule.verdict settings source) rules
            (rule.verdict settings source state).2).1.foldl (.join .or)
          (rule.verdict settings source state).1,
        (inTurn (Rule.verdict settings source) rules (rule.verdict settings source state).2).2) := by
  induction rules generalizing rule with
  | nil => rfl
  | cons next rules ih =>
      rw [List.foldl_cons, ih, Rule.verdict_join]
      rfl

theorem evaluate_alternatives (rules : List Rule) (state : σ) :
    evaluate settings source (alternatives rules) state =
      ((inTurn (fun rule => evaluate settings source (some rule)) rules state).1.any id,
        (inTurn (fun rule => evaluate settings source (some rule)) rules state).2) := by
  -- a plain evaluation reads off whether the verdict holds, a checked one what it reports
  have hturn := inTurn_map Verdict.holds (Rule.verdict settings source) rules state
  change inTurn (fun rule => evaluate settings source (some rule)) rules state = _ at hturn
  rw [hturn, List.any_map, Function.id_comp]
  cases rules with
  | nil => rfl
  | cons rule rules =>
      rw [alternatives, evaluate, verdict_foldl_or]
      exact Prod.ext (Verdict.holds_foldl_or _ _) rfl

theorem evaluateChecked_alternatives (rules : List Rule) (state : σ) :
    evaluateChecked settings source (alternatives rules) state =
      (((inTurn (fun rule => evaluateChecked settings source (some rule)) rules state).1.mapM id).map
          fun all => all.any id,
        (inTurn (fun rule => evaluateChecked settings source (some rule)) rules state).2) := by
  have hturn := inTurn_map Verdict.checked (Rule.verdict settings source) rules state
  change inTurn (fun rule => evaluateChecked settings source (some rule)) rules state = _ at hturn
  rw [hturn, List.mapM_map, Function.id_comp]
  cases rules with
  | nil => rfl
  | cons rule rules =>
      rw [alternatives, evaluateChecked, verdict_foldl_or]
      exact Prod.ext (Verdict.checked_foldl_or _ _) rfl

/-- A checked evaluation that finds no mismatch gives what the plain one gives. -/
theorem evaluate_of_evaluateChecked {rule? : Option Rule} {state : σ} {holds : Bool}
    (h : (evaluateChecked settings source rule? state).1 = .ok holds) :
    (evaluate settings source rule? state).1 = holds := by
  cases rule? with
  | none => exact Except.ok.inj h
  | some rule => exact ((Verdict.checked_eq_ok_iff _ holds).mp h).2

end

/-! ### Rules whose names are only looked up -/

section

variable (settings : Settings) (lookup : String → Option Value)

theorem evaluate_alternatives_lookup (rules : List Rule) :
    (evaluate settings (.ofLookup lookup) (alternatives rules) ()).1 =
      rules.any fun rule => (evaluate settings (.ofLookup lookup) (some rule) ()).1 := by
  rw [evaluate_alternatives, inTurn_unit, List.any_map]
  rfl

theorem evaluateChecked_alternatives_lookup (rules : List Rule) :
    (evaluateChecked settings (.ofLookup lookup) (alternatives rules) ()).1 =
      (rules.mapM fun rule => (evaluateChecked settings (.ofLookup lookup) (some rule) ()).1).map
        fun all => all.any id := by
  rw [evaluateChecked_alternatives, inTurn_unit, List.mapM_map]
  rfl

theorem evaluateChecked_alternatives_eq_error_iff (rules : List Rule) (mismatch : TypeMismatch) :
    (evaluateChecked settings (.ofLookup lookup) (alternatives rules) ()).1 = .error mismatch ↔
      FailsFirst (fun rule => (evaluateChecked settings (.ofLookup lookup) (some rule) ()).1) rules
        mismatch := by
  rw [evaluateChecked_alternatives_lookup, map_eq_error_iff, mapM_eq_error_iff]

/-- Where each rule adds its names, rules in turn add what they add one by one. -/
theorem inTurn_logged {α : Type} {run : Rule → Array String → α × Array String}
    (h : ∀ rule asked, (run rule asked).2.toList = asked.toList ++ rule.names)
    (rules : List Rule) :
    (inTurn run rules #[]).2.toList = rules.flatMap fun rule => (run rule #[]).2.toList := by
  have hnames : ∀ asked, (inTurn run rules asked).2.toList =
      asked.toList ++ rules.flatMap Rule.names := by
    induction rules with
    | nil =>
        intro asked
        rw [inTurn, List.flatMap_nil, List.append_nil]
    | cons rule rules ih =>
        intro asked
        rw [inTurn, ih, h, List.flatMap_cons, List.append_assoc]
  rw [hnames, List.nil_append]
  congr 1
  funext rule
  exact (h rule #[]).symm

end

/-- The combination of rules that were read from texts is evaluated as the rules are in turn,
whatever the source carries along. Where names are only looked up, it holds if and only if one of
the rules does, in whatever order they are combined; a checked evaluation fails if and only if that
of some rule does, with the mismatch of the first such rule, and else gives the same disjunction; and
the names it asks for are those that the rules ask for, one rule after the other. -/
theorem combine_evaluates_as_any {rules : List Rule} (hne : rules ≠ [])
    (hparsed : ∀ rule ∈ rules, ∃ text, Rule.parse text = .ok rule) :
    ∃ combined, combine rules = .ok (some combined) ∧ ∀ settings : Settings,
      (∀ {σ : Type} (source : Source σ) (state : σ),
        evaluate settings source (some combined) state =
            ((inTurn (fun rule => evaluate settings source (some rule)) rules state).1.any id,
              (inTurn (fun rule => evaluate settings source (some rule)) rules state).2) ∧
          evaluateChecked settings source (some combined) state =
            (((inTurn (fun rule => evaluateChecked settings source (some rule)) rules
                  state).1.mapM id).map fun all => all.any id,
              (inTurn (fun rule => evaluateChecked settings source (some rule)) rules state).2)) ∧
      ∀ lookup : String → Option Value,
        let holds (rule : Rule) := (evaluate settings (.ofLookup lookup) (some rule) ()).1
        let checked (rule : Rule) := (evaluateChecked settings (.ofLookup lookup) (some rule) ()).1
        let asked (rule : Rule) := (evaluate settings (.logged lookup) (some rule) #[]).2.toList
        let askedChecked (rule : Rule) :=
          (evaluateChecked settings (.logged lookup) (some rule) #[]).2.toList
        (holds combined = true ↔ ∃ rule ∈ rules, holds rule = true) ∧
          (∀ others, others.Perm rules →
            ∃ other, combine others = .ok (some other) ∧ holds other = holds combined) ∧
          ((∃ mismatch, checked combined = .error mismatch) ↔
            ∃ rule ∈ rules, ∃ mismatch, checked rule = .error mismatch) ∧
          (∀ mismatch, checked combined = .error mismatch ↔ FailsFirst checked rules mismatch) ∧
          ((¬ ∃ mismatch, checked combined = .error mismatch) →
            checked combined = .ok (holds combined)) ∧
          asked combined = rules.flatMap asked ∧
          askedChecked combined = rules.flatMap askedChecked := by
  obtain ⟨combined, hcombine, halternatives⟩ := exists_combine hne hparsed
  refine ⟨combined, hcombine, fun settings => ⟨?_, ?_⟩⟩
  · intro σ source state
    rw [← halternatives]
    exact ⟨evaluate_alternatives settings source rules state,
      evaluateChecked_alternatives settings source rules state⟩
  · intro lookup holds checked asked askedChecked
    have hany : holds combined = rules.any holds := by
      have h := evaluate_alternatives_lookup settings lookup rules
      rwa [halternatives] at h
    have hfirst : ∀ mismatch, checked combined = .error mismatch ↔
        FailsFirst checked rules mismatch := by
      intro mismatch
      have h := evaluateChecked_alternatives_eq_error_iff settings lookup rules mismatch
      rwa [halternatives] at h
    refine ⟨?_, ?_, ?_, hfirst, ?_, ?_, ?_⟩
    · rw [hany, List.any_eq_true]
    · intro others hperm
      have hothers : others ≠ [] := fun hnil => hne (List.Perm.eq_nil (hnil ▸ hperm.symm))
      obtain ⟨other, hother, hsome⟩ := exists_combine hothers
        fun rule hrule => hparsed rule (hperm.mem_iff.mp hrule)
      have h := evaluate_alternatives_lookup settings lookup others
      rw [hsome, hperm.any_eq] at h
      exact ⟨other, hother, h.trans hany.symm⟩
    · simp only [hfirst]
      exact exists_failsFirst_iff rules
    · intro hnone
      cases hchecked : checked combined with
      | error mismatch => exact absurd ⟨mismatch, hchecked⟩ hnone
      | ok verdict =>
          rw [← evaluate_of_evaluateChecked settings (.ofLookup lookup) hchecked]
    · have h := congrArg Prod.snd (evaluate_alternatives settings (.logged lookup) rules #[])
      rw [halternatives] at h
      exact (congrArg Array.toList h).trans (inTurn_logged (evaluate_logged settings lookup) rules)
    · have h := congrArg Prod.snd (evaluateChecked_alternatives settings (.logged lookup) rules #[])
      rw [halternatives] at h
      exact (congrArg Array.toList h).trans
        (inTurn_logged (evaluateChecked_logged settings lookup) rules)

/-- The first of two rules has a mismatch, and the second one holds. -/
theorem combine_evaluates_as_any_of_two :
    let first : Rule := .leaf ⟨"a", .greater, .integer 1⟩
    let second : Rule :=
      .join .and (.leaf ⟨"b", .less, .integer 3⟩) (.leaf ⟨"c", .equal, .text "X"⟩)
    let settings : Settings := ⟨.reject⟩
    let lookup (name : String) : Option Value := some (if name = "b" then .integer 2 else .text "X")
    ∃ combined, combine [first, second] = .ok (some combined) ∧
      (evaluate settings (.ofLookup lookup) (some combined) ()).1 = true ∧
        (evaluateChecked settings (.ofLookup lookup) (some combined) ()).1 =
            .error ⟨"a", .number, .text⟩ ∧
          (evaluate settings (.logged lookup) (some combined) #[]).2.toList = ["a", "b", "c"] := by
  intro first second settings lookup
  have hne : [first, second] ≠ [] := List.cons_ne_nil first [second]
  have hparsed : ∀ rule ∈ [first, second], ∃ text, Rule.parse text = .ok rule := by
    intro rule hrule
    rcases List.mem_cons.mp hrule with rfl | hrule
    · exact ⟨"a > 1", rfl⟩
    · obtain rfl := List.mem_singleton.mp hrule
      exact ⟨"b < 3 AND c = 'X'", rfl⟩
  obtain ⟨combined, hcombine, hevaluate⟩ := combine_evaluates_as_any hne hparsed
  obtain ⟨hany, _, _, hfirst, _, hasked, _⟩ := (hevaluate settings).2 lookup
  refine ⟨combined, hcombine, hany.mpr ⟨second, List.mem_cons_of_mem _ List.mem_cons_self, ?_⟩,
    (hfirst _).mpr ⟨[], first, [second], rfl, nofun, ?_⟩, hasked.trans ?_⟩
  · simp only [second, evaluate, Rule.verdict_join, Rule.verdict_leaf]
    decide
  · simp only [first, evaluateChecked, Rule.verdict_leaf]
    rfl
  · simp only [first, second, List.flatMap_cons, List.flatMap_nil, evaluate_logged]
    rfl

end RecordRules
