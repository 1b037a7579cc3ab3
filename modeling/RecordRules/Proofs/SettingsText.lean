import RecordRules.Proofs.FirstFailure
import RecordRules.Proofs.LexemeGrammar
import RecordRules.Settings.Decoding

/-! Settings and their texts. There are four forms of settings, up to blanks, escapes and the two forms of
a policy, and a text is read as settings only if it is one of them. The text is decided from left to right:
a key or a policy that is not known, or the key a second time, is reported as soon as everything in front
of it is right, even if the text behind it is not JSON. The message says the name as it was meant, its
escapes read. -/

namespace RecordRules

open Json (Lexeme LexemesText isBlank)

/-! ### The lexemes of settings -/

/-- A policy is its name, or an object with its name as the only key and null as the value. -/
inductive PolicyLexemes : List Lexeme → Policy → Prop where
  | name (policy : Policy) : PolicyLexemes [.string policy.name] policy
  | object (policy : Policy) :
      PolicyLexemes [.openBrace, .string policy.name, .colon, .null, .closeBrace] policy

theorem PolicyLexemes.append_ne {lexemes : List Lexeme} {policy : Policy}
    (h : PolicyLexemes lexemes policy) (rest : List Lexeme) : lexemes ++ rest ≠ [.closeBracket] := by
  cases h <;> simp

/-- What is no policy because of its name, up to this name. -/
inductive UnknownPolicyLexemes : List Lexeme → String → Prop where
  | name {name : String} (h : ∀ policy : Policy, name ≠ policy.name) :
      UnknownPolicyLexemes [.string name] name
  | object {name : String} (h : ∀ policy : Policy, name ≠ policy.name) :
      UnknownPolicyLexemes [.openBrace, .string name] name

theorem UnknownPolicyLexemes.append_ne {lexemes : List Lexeme} {name : String}
    (h : UnknownPolicyLexemes lexemes name) (rest : List Lexeme) : lexemes ++ rest ≠ [.closeBracket] := by
  cases h <;> simp

/-- What stands in front of a policy. -/
inductive OpeningLexemes : List Lexeme → Prop where
  | object : OpeningLexemes [.openBrace, .string Settings.crossKindKey, .colon]
  | array : OpeningLexemes [.openBracket]

/-- The forms of settings: the first two leave the policy out. -/
inductive SettingsLexemes : List Lexeme → Settings → Prop where
  | emptyObject : SettingsLexemes [.openBrace, .closeBrace] ⟨.alwaysFalse⟩
  | emptyArray : SettingsLexemes [.openBracket, .closeBracket] ⟨.alwaysFalse⟩
  | object {lexemes : List Lexeme} {policy : Policy} (h : PolicyLexemes lexemes policy) :
      SettingsLexemes (.openBrace :: .string Settings.crossKindKey :: .colon :: (lexemes ++ [.closeBrace]))
        ⟨policy⟩
  | array {lexemes : List Lexeme} {policy : Policy} (h : PolicyLexemes lexemes policy) :
      SettingsLexemes (.openBracket :: (lexemes ++ [.closeBracket])) ⟨policy⟩

/-- What can still be settings but for a name at its end, with the fault of this name. -/
inductive FaultLexemes : List Lexeme → InvalidSettings → Prop where
  | firstField {name : String} (h : name ≠ Settings.crossKindKey) :
      FaultLexemes [.openBrace, .string name] (.unknownField name)
  | furtherField {lexemes : List Lexeme} {policy : Policy} {name : String}
      (hpolicy : PolicyLexemes lexemes policy) (h : name ≠ Settings.crossKindKey) :
      FaultLexemes
        (.openBrace :: .string Settings.crossKindKey :: .colon :: (lexemes ++ [.comma, .string name]))
        (.unknownField name)
  | duplicateField {lexemes : List Lexeme} {policy : Policy} (hpolicy : PolicyLexemes lexemes policy) :
      FaultLexemes
        (.openBrace :: .string Settings.crossKindKey :: .colon ::
          (lexemes ++ [.comma, .string Settings.crossKindKey]))
        .duplicateField
  | unknownPolicy {opening lexemes : List Lexeme} {name : String} (hopening : OpeningLexemes opening)
      (h : UnknownPolicyLexemes lexemes name) :
      FaultLexemes (opening ++ lexemes) (.unknownPolicy name)

/-- What is said of a name at fault. -/
inductive NameReport (name : String) : String → Prop where
  | unknownField (h : name ≠ Settings.crossKindKey) :
      NameReport name ("Invalid config: unknown field `" ++ name ++ "`, expected `cross_type`")
  | unknownPolicy (h : ∀ policy : Policy, name ≠ policy.name) :
      NameReport name ("Invalid config: unknown variant `" ++ name ++
        "`, expected one of `always_false`, `coerce`, `reject`")
  | duplicateField (h : name = Settings.crossKindKey) :
      NameReport name ("Invalid config: duplicate field `" ++ name ++ "`")

/-- The message of a fault is about the name at the end. -/
theorem FaultLexemes.nameReport {lexemes : List Lexeme} {fault : InvalidSettings}
    (h : FaultLexemes lexemes fault) :
    ∃ before name, lexemes = before ++ [.string name] ∧ NameReport name fault.message := by
  cases h with
  | firstField hname => exact ⟨[.openBrace], _, rfl, .unknownField hname⟩
  | @furtherField lexemes _ name _ hname =>
      exact ⟨.openBrace :: .string Settings.crossKindKey :: .colon :: (lexemes ++ [.comma]), name,
        by simp, .unknownField hname⟩
  | @duplicateField lexemes =>
      exact ⟨.openBrace :: .string Settings.crossKindKey :: .colon :: (lexemes ++ [.comma]),
        Settings.crossKindKey, by simp, .duplicateField rfl⟩
  | @unknownPolicy opening _ name _ hpolicy =>
      cases hpolicy with
      | name hname => exact ⟨opening, name, rfl, .unknownPolicy hname⟩
      | object hname => exact ⟨opening ++ [.openBrace], name, by simp, .unknownPolicy hname⟩

/-! ### Policies -/

namespace Policy

theorem ofName?_eq_some_iff {name : String} {policy : Policy} :
    ofName? name = some policy ↔ name = policy.name := by
  constructor
  · intro h
    rw [ofName?] at h
    have hname := List.find?_some h
    exact (eq_of_beq hname).symm
  · rintro rfl
    exact ofName?_name policy

theorem named_eq_ok_iff {name : String} {policy : Policy} :
    named name = .ok policy ↔ name = policy.name := by
  rw [← ofName?_eq_some_iff, named]
  cases ofName? name <;> simp

theorem named_eq_error_iff {name : String} {fault : InvalidSettings} :
    named name = .error fault ↔ fault = .unknownPolicy name ∧ ∀ policy : Policy, name ≠ policy.name := by
  simp only [ne_eq, ← ofName?_eq_some_iff, ← Option.eq_none_iff_forall_ne_some, named]
  cases ofName? name <;> simp [eq_comm]

end Policy

theorem PolicyLexemes.ofLexemes_append {lexemes : List Lexeme} {policy : Policy}
    (h : PolicyLexemes lexemes policy) (rest : List Lexeme) :
    Policy.ofLexemes (lexemes ++ rest) = .ok (policy, rest) := by
  cases h <;> exact bind_eq_ok_iff.mpr ⟨policy, Policy.named_eq_ok_iff.mpr rfl, rfl⟩

theorem UnknownPolicyLexemes.ofLexemes_append {lexemes : List Lexeme} {name : String}
    (h : UnknownPolicyLexemes lexemes name) (rest : List Lexeme) :
    Policy.ofLexemes (lexemes ++ rest) = .error (.unknownPolicy name) := by
  cases h with
  | name h | object h =>
      exact bind_eq_error_iff.mpr (Or.inl (Policy.named_eq_error_iff.mpr ⟨rfl, h⟩))

namespace Policy

theorem exists_policyLexemes {lexemes rest : List Lexeme} {policy : Policy}
    (h : ofLexemes lexemes = .ok (policy, rest)) :
    ∃ spelled, lexemes = spelled ++ rest ∧ PolicyLexemes spelled policy := by
  unfold ofLexemes at h
  split at h
  · obtain ⟨known, hnamed, hrest⟩ := bind_eq_ok_iff.mp h
    obtain rfl := named_eq_ok_iff.mp hnamed
    cases hrest
    exact ⟨_, rfl, .name _⟩
  · obtain ⟨known, hnamed, hrest⟩ := bind_eq_ok_iff.mp h
    obtain rfl := named_eq_ok_iff.mp hnamed
    split at hrest
    · cases hrest
      exact ⟨_, rfl, .object _⟩
    · cases hrest
  · cases h

theorem exists_unknownPolicyLexemes {lexemes : List Lexeme} {fault : InvalidSettings}
    (hfault : fault ≠ .malformed) (h : ofLexemes lexemes = .error fault) :
    ∃ name spelled rest, fault = .unknownPolicy name ∧ lexemes = spelled ++ rest ∧
      UnknownPolicyLexemes spelled name := by
  unfold ofLexemes at h
  split at h
  · obtain hnamed | ⟨known, _, hrest⟩ := bind_eq_error_iff.mp h
    · obtain ⟨rfl, hname⟩ := named_eq_error_iff.mp hnamed
      exact ⟨_, _, _, rfl, rfl, .name hname⟩
    · cases hrest
  · obtain hnamed | ⟨known, _, hrest⟩ := bind_eq_error_iff.mp h
    · obtain ⟨rfl, hname⟩ := named_eq_error_iff.mp hnamed
      exact ⟨_, _, _, rfl, rfl, .object hname⟩
    · split at hrest <;> cases hrest
      exact absurd rfl hfault
  · cases h
    exact absurd rfl hfault

end Policy

namespace Settings

/-! ### Settings -/

theorem endObject_eq_ok_iff {lexemes : List Lexeme} :
    endObject lexemes = .ok () ↔ lexemes = [.closeBrace] := by
  constructor
  · intro h
    unfold endObject at h
    split at h
    · rfl
    · cases h
    · cases h
  · rintro rfl
    rfl

theorem endArray_eq_ok_iff {lexemes : List Lexeme} :
    endArray lexemes = .ok () ↔ lexemes = [.closeBracket] := by
  constructor
  · intro h
    unfold endArray at h
    split at h
    · rfl
    · cases h
  · rintro rfl
    rfl

theorem ofLexemes_member (rest : List Lexeme) :
    ofLexemes (.openBrace :: .string crossKindKey :: .colon :: rest) = (do
      let (policy, rest) ← Policy.ofLexemes rest
      endObject rest
      return ⟨policy⟩) := by
  rw [ofLexemes, if_pos rfl]

theorem ofLexemes_element {rest : List Lexeme} (h : rest ≠ [.closeBracket]) :
    ofLexemes (.openBracket :: rest) = (do
      let (policy, rest) ← Policy.ofLexemes rest
      endArray rest
      return ⟨policy⟩) := by
  rw [ofLexemes]
  intro heq
  exact h heq

theorem ofLexemes_eq_ok_iff {lexemes : List Lexeme} {settings : Settings} :
    ofLexemes lexemes = .ok settings ↔ SettingsLexemes lexemes settings := by
  constructor
  · intro h
    unfold ofLexemes at h
    split at h
    · cases h
      exact .emptyObject
    · cases h
      exact .emptyArray
    · split_ifs at h with hkey
      split at h
      · obtain ⟨⟨policy, rest⟩, hpolicy, hend⟩ := bind_eq_ok_iff.mp h
        obtain ⟨_, hclose, hsettings⟩ := bind_eq_ok_iff.mp hend
        obtain ⟨spelled, rfl, hspelled⟩ := Policy.exists_policyLexemes hpolicy
        rw [endObject_eq_ok_iff.mp hclose, hkey]
        cases hsettings
        exact .object hspelled
      · cases h
    · obtain ⟨⟨policy, rest⟩, hpolicy, hend⟩ := bind_eq_ok_iff.mp h
      obtain ⟨_, hclose, hsettings⟩ := bind_eq_ok_iff.mp hend
      obtain ⟨spelled, rfl, hspelled⟩ := Policy.exists_policyLexemes hpolicy
      rw [endArray_eq_ok_iff.mp hclose]
      cases hsettings
      exact .array hspelled
    · cases h
  · rintro (_ | _ | hpolicy | hpolicy)
    · rfl
    · rfl
    · rw [ofLexemes_member, hpolicy.ofLexemes_append]
      rfl
    · rw [ofLexemes_element (hpolicy.append_ne _), hpolicy.ofLexemes_append]
      rfl

end Settings

theorem FaultLexemes.ofLexemes_append {lexemes : List Lexeme} {fault : InvalidSettings}
    (h : FaultLexemes lexemes fault) (rest : List Lexeme) :
    Settings.ofLexemes (lexemes ++ rest) = .error fault := by
  cases h with
  | firstField hname => exact if_neg hname
  | @furtherField _ _ name hpolicy hname =>
      have hend : Settings.endObject (.comma :: .string name :: rest) = .error (.unknownField name) := by
        rw [Settings.endObject, if_neg hname]
      simp only [List.cons_append, List.append_assoc]
      rw [Settings.ofLexemes_member, hpolicy.ofLexemes_append]
      exact bind_eq_error_iff.mpr (Or.inr ⟨_, rfl, bind_eq_error_iff.mpr (Or.inl hend)⟩)
  | duplicateField hpolicy =>
      simp only [List.cons_append, List.append_assoc]
      rw [Settings.ofLexemes_member, hpolicy.ofLexemes_append]
      rfl
  | unknownPolicy hopening hpolicy =>
      cases hopening with
      | object =>
          simp only [List.cons_append, List.nil_append]
          rw [Settings.ofLexemes_member, hpolicy.ofLexemes_append]
          rfl
      | array =>
          simp only [List.cons_append, List.nil_append]
          rw [Settings.ofLexemes_element (hpolicy.append_ne _), hpolicy.ofLexemes_append]
          rfl

theorem FaultLexemes.ne_malformed {lexemes : List Lexeme} {fault : InvalidSettings}
    (h : FaultLexemes lexemes fault) : fault ≠ .malformed := by
  cases h <;> simp

namespace Settings

theorem exists_faultLexemes_of_endObject {opening lexemes : List Lexeme} {policy : Policy}
    {fault : InvalidSettings} (hfault : fault ≠ .malformed) (hpolicy : PolicyLexemes opening policy)
    (h : endObject lexemes = .error fault) :
    ∃ spelled rest,
      .openBrace :: .string crossKindKey :: .colon :: (opening ++ lexemes) = spelled ++ rest ∧
        FaultLexemes spelled fault := by
  unfold endObject at h
  split at h
  · cases h
  · rename_i name rest
    split_ifs at h with hname
    · cases h
      rw [hname]
      exact ⟨_, rest, by simp, .duplicateField hpolicy⟩
    · cases h
      exact ⟨_, rest, by simp, .furtherField hpolicy hname⟩
  · cases h
    exact absurd rfl hfault

theorem endArray_eq_error {lexemes : List Lexeme} {fault : InvalidSettings}
    (h : endArray lexemes = .error fault) : fault = .malformed := by
  unfold endArray at h
  split at h <;> cases h
  rfl

theorem exists_faultLexemes {lexemes : List Lexeme} {fault : InvalidSettings}
    (hfault : fault ≠ .malformed) (h : ofLexemes lexemes = .error fault) :
    ∃ spelled rest, lexemes = spelled ++ rest ∧ FaultLexemes spelled fault := by
  unfold ofLexemes at h
  split at h
  · cases h
  · cases h
  · split_ifs at h with hkey
    · split at h
      · rw [hkey]
        obtain hpolicy | ⟨⟨policy, rest⟩, hpolicy, hend⟩ := bind_eq_error_iff.mp h
        · obtain ⟨name, spelled, rest, rfl, rfl, hspelled⟩ :=
            Policy.exists_unknownPolicyLexemes hfault hpolicy
          exact ⟨_, rest, rfl, .unknownPolicy .object hspelled⟩
        · obtain ⟨spelled, rfl, hspelled⟩ := Policy.exists_policyLexemes hpolicy
          obtain hclose | ⟨_, _, hsettings⟩ := bind_eq_error_iff.mp hend
          · exact exists_faultLexemes_of_endObject hfault hspelled hclose
          · cases hsettings
      · cases h
        exact absurd rfl hfault
    · cases h
      exact ⟨_, _, rfl, .firstField hkey⟩
  · obtain hpolicy | ⟨⟨policy, rest⟩, hpolicy, hend⟩ := bind_eq_error_iff.mp h
    · obtain ⟨name, spelled, rest, rfl, rfl, hspelled⟩ :=
        Policy.exists_unknownPolicyLexemes hfault hpolicy
      exact ⟨_, rest, rfl, .unknownPolicy .array hspelled⟩
    · -- behind the policy of an array there is no name that could be at fault
      obtain hclose | ⟨_, _, hsettings⟩ := bind_eq_error_iff.mp hend
      · exact absurd (endArray_eq_error hclose) hfault
      · cases hsettings
  · cases h
    exact absurd rfl hfault

theorem ofLexemes_eq_error_iff {lexemes : List Lexeme} {fault : InvalidSettings} :
    ofLexemes lexemes = .error fault ∧ fault ≠ .malformed ↔
      ∃ spelled further, lexemes = spelled ++ further ∧ FaultLexemes spelled fault := by
  constructor
  · rintro ⟨h, hfault⟩
    exact exists_faultLexemes hfault h
  · rintro ⟨spelled, further, rfl, h⟩
    exact ⟨h.ofLexemes_append further, h.ne_malformed⟩

end Settings

/-! ### Texts -/

theorem PolicyLexemes.isClosed {lexemes : List Lexeme} {policy : Policy}
    (h : PolicyLexemes lexemes policy) : ∀ lexeme ∈ lexemes, lexeme.isClosed = true := by
  cases h <;> simp [Lexeme.isClosed]

theorem SettingsLexemes.isClosed {lexemes : List Lexeme} {settings : Settings}
    (h : SettingsLexemes lexemes settings) : ∀ lexeme ∈ lexemes, lexeme.isClosed = true := by
  cases h with
  | emptyObject | emptyArray => simp [Lexeme.isClosed]
  | object hpolicy | array hpolicy =>
      simpa [Lexeme.isClosed, or_imp, forall_and] using hpolicy.isClosed

theorem FaultLexemes.isClosed {lexemes : List Lexeme} {fault : InvalidSettings}
    (h : FaultLexemes lexemes fault) : ∀ lexeme ∈ lexemes, lexeme.isClosed = true := by
  cases h with
  | firstField => simp [Lexeme.isClosed]
  | furtherField hpolicy | duplicateField hpolicy =>
      simpa [Lexeme.isClosed, or_imp, forall_and] using hpolicy.isClosed
  | unknownPolicy hopening hpolicy => cases hopening <;> cases hpolicy <;> simp [Lexeme.isClosed]

/-- The text is one way to write these settings. -/
def Settings.WrittenAs (settings : Settings) (text : String) : Prop :=
  ∃ lexemes spelled blanks, SettingsLexemes lexemes settings ∧ text.toList = spelled ++ blanks ∧
    LexemesText spelled lexemes ∧ ∀ c ∈ blanks, isBlank c = true

/-- The text can still be settings up to the name that is at fault; what follows can be anything. -/
def InvalidSettings.ReachedIn (fault : InvalidSettings) (text : String) : Prop :=
  ∃ lexemes spelled rest, FaultLexemes lexemes fault ∧ text.toList = spelled ++ rest ∧
    LexemesText spelled lexemes

/-- The message of a fault that a text reaches says the name that the text is right up to, as it is
without its escapes. -/
theorem InvalidSettings.ReachedIn.nameReport {fault : InvalidSettings} {text : String}
    (h : fault.ReachedIn text) :
    ∃ before name spelled rest, text.toList = spelled ++ rest ∧
      LexemesText spelled (before ++ [.string name]) ∧ NameReport name fault.message := by
  obtain ⟨lexemes, spelled, rest, hfault, htext, hspelled⟩ := h
  obtain ⟨before, name, rfl, hreport⟩ := hfault.nameReport
  exact ⟨before, name, spelled, rest, htext, hspelled, hreport⟩

namespace Settings

/-- A text is read as settings exactly if it is one of the ways to write them, and is refused otherwise.
A name at fault is what is reported exactly if the text is right up to this name. -/
theorem parse_text (text : String) :
    (∀ settings : Settings, parse text = .ok settings ↔ settings.WrittenAs text) ∧
      ((∃ fault, parse text = .error fault) ↔ ¬ ∃ settings : Settings, settings.WrittenAs text) ∧
      ∀ fault : InvalidSettings,
        parse text = .error fault ∧ fault ≠ .malformed ↔ fault.ReachedIn text := by
  have hok : ∀ settings : Settings, parse text = .ok settings ↔ settings.WrittenAs text := by
    intro settings
    rw [parse, ofLexemes_eq_ok_iff]
    constructor
    · intro h
      obtain ⟨spelled, blanks, htext, hspelled, hblanks⟩ := (Json.lexemes_eq_iff h.isClosed).mp rfl
      exact ⟨_, spelled, blanks, h, htext, hspelled, hblanks⟩
    · rintro ⟨lexemes, spelled, blanks, h, htext, hspelled, hblanks⟩
      rwa [(Json.lexemes_eq_iff h.isClosed).mpr ⟨spelled, blanks, htext, hspelled, hblanks⟩]
  refine ⟨hok, ?_, fun fault => ?_⟩
  · simp only [← hok]
    cases parse text <;> simp
  · rw [parse, ofLexemes_eq_error_iff]
    constructor
    · rintro ⟨lexemes, further, hcut, h⟩
      obtain ⟨spelled, rest, htext, hspelled⟩ :=
        (Json.exists_lexemes_eq_append_iff h.isClosed).mp ⟨further, hcut⟩
      exact ⟨lexemes, spelled, rest, h, htext, hspelled⟩
    · rintro ⟨lexemes, spelled, rest, h, htext, hspelled⟩
      obtain ⟨further, hcut⟩ :=
        (Json.exists_lexemes_eq_append_iff h.isClosed).mpr ⟨spelled, rest, htext, hspelled⟩
      exact ⟨lexemes, further, hcut, h⟩

example : parse " [\"\\u0072eject\"]\n" = .ok ⟨.reject⟩ := by decide +kernel

example : parse "\x7b\"cross_type\":\x7b\"coerce\":null\x7d, \"cross\\u005Ftype\" :]" =
    .error .duplicateField := by
  decide +kernel

end Settings

end RecordRules
