/-! Runs over a list that end with the first failure. Such a run fails as the first item does that
fails, and gives the results of all items if none does. -/

namespace RecordRules

variable {ε α β : Type} {run : α → Except ε β}

/-- Some item fails for this reason, and no item before it fails. -/
def FailsFirst (run : α → Except ε β) (items : List α) (reason : ε) : Prop :=
  ∃ before item after, items = before ++ item :: after ∧
    (∀ earlier ∈ before, ∃ result, run earlier = .ok result) ∧ run item = .error reason

theorem not_failsFirst_nil (reason : ε) : ¬ FailsFirst run [] reason := by
  rintro ⟨before, item, after, h, _⟩
  exact List.append_ne_nil_of_right_ne_nil before (List.cons_ne_nil item after) h.symm

theorem failsFirst_cons_of_error {item : α} {first : ε} (h : run item = .error first)
    (items : List α) (reason : ε) : FailsFirst run (item :: items) reason ↔ first = reason := by
  constructor
  · rintro ⟨before, failing, after, hitems, hbefore, hfailing⟩
    cases before with
    | nil =>
        cases hitems
        rw [h] at hfailing
        exact Except.error.inj hfailing
    | cons earlier before =>
        cases hitems
        obtain ⟨result, hresult⟩ := hbefore item List.mem_cons_self
        rw [h] at hresult
        cases hresult
  · rintro rfl
    exact ⟨[], item, items, rfl, nofun, h⟩

theorem failsFirst_cons_of_ok {item : α} {result : β} (h : run item = .ok result)
    (items : List α) (reason : ε) :
    FailsFirst run (item :: items) reason ↔ FailsFirst run items reason := by
  constructor
  · rintro ⟨before, failing, after, hitems, hbefore, hfailing⟩
    cases before with
    | nil =>
        cases hitems
        rw [h] at hfailing
        cases hfailing
    | cons earlier before =>
        cases hitems
        exact ⟨before, failing, after, rfl,
          fun other hother => hbefore other (List.mem_cons_of_mem _ hother), hfailing⟩
  · rintro ⟨before, failing, after, rfl, hbefore, hfailing⟩
    refine ⟨item :: before, failing, after, rfl, ?_, hfailing⟩
    intro earlier hearlier
    rcases List.mem_cons.mp hearlier with rfl | hearlier
    · exact ⟨result, h⟩
    · exact hbefore earlier hearlier

theorem exists_failsFirst_iff (items : List α) :
    (∃ reason, FailsFirst run items reason) ↔ ∃ item ∈ items, ∃ reason, run item = .error reason := by
  induction items with
  | nil =>
      constructor
      · rintro ⟨reason, h⟩
        exact absurd h (not_failsFirst_nil reason)
      · rintro ⟨item, hitem, _⟩
        cases hitem
  | cons item items ih =>
      cases hrun : run item with
      | error first =>
          constructor
          · intro _
            exact ⟨item, List.mem_cons_self, first, hrun⟩
          · intro _
            exact ⟨first, (failsFirst_cons_of_error hrun items first).mpr rfl⟩
      | ok result =>
          rw [exists_congr (failsFirst_cons_of_ok hrun items), ih]
          constructor
          · rintro ⟨other, hother, hfails⟩
            exact ⟨other, List.mem_cons_of_mem item hother, hfails⟩
          · rintro ⟨other, hother, reason, hreason⟩
            rcases List.mem_cons.mp hother with rfl | hother
            · rw [hrun] at hreason
              cases hreason
            · exact ⟨other, hother, reason, hreason⟩

theorem mapM_cons_of_ok {item : α} {result : β} (h : run item = .ok result) (items : List α) :
    (item :: items).mapM run = (items.mapM run).map (result :: ·) := by
  rw [List.mapM_cons, h]
  cases items.mapM run <;> rfl

theorem mapM_cons_of_error {item : α} {first : ε} (h : run item = .error first) (items : List α) :
    (item :: items).mapM run = .error first := by
  rw [List.mapM_cons, h]
  rfl

theorem map_eq_error_iff {γ : Type} (f : α → γ) (result : Except ε α) (reason : ε) :
    result.map f = .error reason ↔ result = .error reason := by
  cases result with
  | error other => rw [Except.map, Except.error.injEq, Except.error.injEq]
  | ok a => exact ⟨nofun, nofun⟩

theorem map_eq_ok_iff {γ : Type} (f : α → γ) (result : Except ε α) (c : γ) :
    result.map f = .ok c ↔ ∃ a, result = .ok a ∧ f a = c := by
  cases result with
  | error other => exact ⟨nofun, fun ⟨_, h, _⟩ => nomatch h⟩
  | ok a =>
      rw [Except.map, Except.ok.injEq]
      constructor
      · intro h
        exact ⟨a, rfl, h⟩
      · rintro ⟨_, h, hc⟩
        cases h
        exact hc

theorem bind_eq_ok_iff {γ : Type} {result : Except ε α} {next : α → Except ε γ} {c : γ} :
    result >>= next = .ok c ↔ ∃ a, result = .ok a ∧ next a = .ok c := by
  cases result with
  | error other => exact ⟨nofun, fun ⟨_, h, _⟩ => nomatch h⟩
  | ok a =>
      constructor
      · intro h
        exact ⟨a, rfl, h⟩
      · rintro ⟨_, h, hc⟩
        cases h
        exact hc

theorem bind_eq_error_iff {γ : Type} {result : Except ε α} {next : α → Except ε γ} {reason : ε} :
    result >>= next = .error reason ↔
      result = .error reason ∨ ∃ a, result = .ok a ∧ next a = .error reason := by
  cases result with
  | error other =>
      constructor
      · intro h
        cases h
        exact Or.inl rfl
      · rintro (h | ⟨_, h, _⟩) <;> cases h
        rfl
  | ok a =>
      constructor
      · intro h
        exact Or.inr ⟨a, rfl, h⟩
      · rintro (h | ⟨_, h, hreason⟩) <;> cases h
        exact hreason

theorem mapM_eq_error_iff (items : List α) (reason : ε) :
    items.mapM run = .error reason ↔ FailsFirst run items reason := by
  induction items with
  | nil => exact ⟨nofun, fun h => absurd h (not_failsFirst_nil reason)⟩
  | cons item items ih =>
      cases hrun : run item with
      | error first =>
          rw [mapM_cons_of_error hrun, failsFirst_cons_of_error hrun, Except.error.injEq]
      | ok result => rw [mapM_cons_of_ok hrun, failsFirst_cons_of_ok hrun, map_eq_error_iff, ih]

theorem mapM_eq_ok_iff (items : List α) (results : List β) :
    items.mapM run = .ok results ↔ items.map run = results.map .ok := by
  induction items generalizing results with
  | nil =>
      cases results with
      | nil => exact ⟨fun _ => rfl, fun _ => rfl⟩
      | cons result results => exact ⟨nofun, nofun⟩
  | cons item items ih =>
      rw [List.map_cons]
      cases hrun : run item with
      | error first =>
          rw [mapM_cons_of_error hrun]
          cases results with
          | nil => exact ⟨nofun, nofun⟩
          | cons result results => exact ⟨nofun, nofun⟩
      | ok result =>
          rw [mapM_cons_of_ok hrun, map_eq_ok_iff]
          constructor
          · rintro ⟨rest, hrest, rfl⟩
            rw [List.map_cons, (ih rest).mp hrest]
          · intro h
            cases results with
            | nil => cases h
            | cons first rest =>
                rw [List.map_cons, List.cons_eq_cons, Except.ok.injEq] at h
                exact ⟨rest, (ih rest).mpr h.2, by rw [h.1]⟩

end RecordRules
