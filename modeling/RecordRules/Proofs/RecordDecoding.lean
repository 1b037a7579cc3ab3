import Mathlib.Data.List.Dedup
import RecordRules.Proofs.ByteOrder
import RecordRules.Proofs.DecimalText
import RecordRules.Proofs.DocumentReading
import RecordRules.Proofs.FirstFailure
import RecordRules.Proofs.NumberReading
import RecordRules.Record.Decoding

/-! Records from JSON documents. Of an object counts the last member of each key, so a member that is
replaced by a later one can be anything. A member that counts is kept if it is a string or a number; of
those that cannot be kept the one whose key has the smallest bytes is reported, wherever it stands in the
text. No member is a number out of range, as such a number is not read in the first place. -/

namespace RecordRules

open Number

/-! ### The last entry of a key -/

section

variable {β : Type}

/-- The value of the last entry with this key. -/
def LastEntry (entries : List (String × β)) (key : String) (value : β) : Prop :=
  ∃ before after, entries = before ++ (key, value) :: after ∧ ∀ entry ∈ after, entry.1 ≠ key

theorem not_lastEntry_nil (key : String) (value : β) : ¬ LastEntry [] key value := by
  rintro ⟨before, after, h, _⟩
  exact List.append_ne_nil_of_right_ne_nil before (List.cons_ne_nil _ after) h.symm

theorem lastEntry_append_self (entries : List (String × β)) (key : String) (last value : β) :
    LastEntry (entries ++ [(key, last)]) key value ↔ last = value := by
  constructor
  · rintro ⟨before, after, h, hafter⟩
    rcases List.eq_nil_or_concat after with rfl | ⟨after, entry, rfl⟩
    · exact congrArg Prod.snd (List.append_inj_right' h rfl |> List.cons.inj |>.1)
    · rw [List.concat_eq_append, ← List.cons_append, ← List.append_assoc] at h
      have hentry := (List.cons.inj (List.append_inj_right' h rfl)).1
      exact absurd (congrArg Prod.fst hentry).symm (hafter entry (by simp))
  · rintro rfl
    exact ⟨entries, [], rfl, fun entry h => absurd h List.not_mem_nil⟩

theorem lastEntry_append_of_ne {entries : List (String × β)} {name key : String} (h : name ≠ key)
    (last value : β) :
    LastEntry (entries ++ [(name, last)]) key value ↔ LastEntry entries key value := by
  constructor
  · rintro ⟨before, after, hentries, hafter⟩
    rcases List.eq_nil_or_concat after with rfl | ⟨after, entry, rfl⟩
    · have hentry := (List.cons.inj (List.append_inj_right' hentries rfl)).1
      exact absurd (congrArg Prod.fst hentry) h
    · rw [List.concat_eq_append] at hentries hafter
      rw [← List.cons_append, ← List.append_assoc] at hentries
      exact ⟨before, after, List.append_inj_left' hentries rfl,
        fun entry hentry => hafter entry (List.mem_append_left _ hentry)⟩
  · rintro ⟨before, after, rfl, hafter⟩
    refine ⟨before, after ++ [(name, last)], by simp, fun entry hentry => ?_⟩
    rcases List.mem_append.mp hentry with hentry | hentry
    · exact hafter entry hentry
    · rwa [List.mem_singleton.mp hentry]

theorem lastEntry_iff_lookup (entries : List (String × β)) (key : String) (value : β) :
    LastEntry entries key value ↔ entries.reverse.lookup key = some value := by
  induction entries using List.reverseRecOn with
  | nil => simp [not_lastEntry_nil]
  | append_singleton entries last ih =>
      obtain ⟨name, entry⟩ := last
      rw [List.reverse_append, List.reverse_singleton, List.singleton_append, List.lookup_cons]
      by_cases h : name = key
      · subst h
        simp [lastEntry_append_self]
      · simp [lastEntry_append_of_ne h, ih, beq_false_of_ne (Ne.symm h)]

/-- A map that the entries are put into one after the other holds the last one of each key. -/
theorem getElem?_foldl_insert (entries : List (String × β)) (key : String) (value : β) :
    (entries.foldl (fun map entry => map.insert entry.1 entry.2)
        (∅ : Std.TreeMap String β))[key]? = some value ↔ LastEntry entries key value := by
  induction entries using List.reverseRecOn with
  | nil =>
      rw [List.foldl_nil, Std.TreeMap.getElem?_emptyc]
      exact iff_of_false (Option.some_ne_none value).symm (not_lastEntry_nil key value)
  | append_singleton entries last ih =>
      obtain ⟨name, entry⟩ := last
      rw [List.foldl_append, List.foldl_cons, List.foldl_nil, Std.TreeMap.getElem?_insert]
      by_cases h : name = key
      · subst h
        rw [if_pos (Std.compare_eq_iff_eq.mpr rfl), lastEntry_append_self, Option.some_inj]
      · rw [if_neg (fun hcompare => h (Std.compare_eq_iff_eq.mp hcompare)), ih,
          lastEntry_append_of_ne h]

theorem LastEntry.unique {entries : List (String × β)} {key : String} {value value' : β}
    (h : LastEntry entries key value) (h' : LastEntry entries key value') : value = value' := by
  rw [lastEntry_iff_lookup] at h h'
  exact Option.some.inj (h.symm.trans h')

theorem LastEntry.mem {entries : List (String × β)} {key : String} {value : β}
    (h : LastEntry entries key value) : (key, value) ∈ entries := by
  obtain ⟨before, after, rfl, _⟩ := h
  exact List.mem_append_right before List.mem_cons_self

theorem exists_lastEntry_iff (entries : List (String × β)) (key : String) :
    (∃ value, LastEntry entries key value) ↔ key ∈ entries.map Prod.fst := by
  induction entries using List.reverseRecOn with
  | nil => simp [not_lastEntry_nil]
  | append_singleton entries last ih =>
      obtain ⟨name, entry⟩ := last
      rw [List.map_append, List.mem_append]
      by_cases h : name = key
      · subst h
        simp [lastEntry_append_self]
      · simp [lastEntry_append_of_ne h, ih, Ne.symm h]

/-- Where every key stands once, every entry is the last one of its key. -/
theorem lastEntry_iff_mem {entries : List (String × β)} (h : (entries.map Prod.fst).Nodup)
    (key : String) (value : β) : LastEntry entries key value ↔ (key, value) ∈ entries := by
  refine ⟨LastEntry.mem, fun hmem => ?_⟩
  obtain ⟨before, after, rfl⟩ := List.append_of_mem hmem
  refine ⟨before, after, rfl, fun entry hentry heq => ?_⟩
  rw [List.map_append, List.map_cons, List.nodup_middle, List.nodup_cons] at h
  exact h.1 (List.mem_append_right _ (List.mem_map.mpr ⟨entry, hentry, heq⟩))

end

/-! ### Numbers -/

/-- Written as an integer of the 64-bit range; minus zero is none, as an integer has no sign of zero. -/
def JsonNumber.IsInteger (number : JsonNumber) (i : Int64) : Prop :=
  ∃ negative magnitude, number = .whole negative magnitude ∧
    i.toInt = withSign negative magnitude ∧ ¬ (negative = true ∧ magnitude = 0)

theorem JsonNumber.int64?_eq_some_iff {number : JsonNumber} {i : Int64} :
    number.int64? = some i ↔ number.IsInteger i := by
  fun_cases int64? number with
  | case1 =>
      refine iff_of_false (fun h => by cases h) ?_
      rintro ⟨negative, magnitude, hnumber, _, hzero⟩
      cases hnumber
      exact hzero ⟨rfl, rfl⟩
  | case2 negative magnitude hzero =>
      constructor
      · intro h
        refine ⟨negative, magnitude, rfl, toInt_of_int64?_eq_some h, ?_⟩
        rintro ⟨rfl, rfl⟩
        exact hzero rfl rfl
      · rintro ⟨negative', magnitude', hnumber, hi, _⟩
        cases hnumber
        rw [← hi, int64?_toInt]
  | case3 =>
      refine iff_of_false (fun h => by cases h) ?_
      rintro ⟨negative, magnitude, hnumber, _⟩
      cases hnumber

/-! ### Members -/

/-- What a member becomes in a record: a string a text, a number written as an integer of the 64-bit
range this integer, and every other number the floating-point number that it is read as. -/
inductive KeptAs : Json → Value → Prop where
  | text (text : String) : KeptAs (.string text) (.text text)
  | integer {number : JsonNumber} {i : Int64} (h : number.IsInteger i) :
      KeptAs (.number number) (.integer i)
  | decimal {number : JsonNumber} {x : Binary64} (hother : ∀ i, ¬ number.IsInteger i)
      (hread : number.ReadAs x) : KeptAs (.number number) (.decimal x)

/-- Neither a string nor a number. -/
def Json.IsUnfit (json : Json) : Prop :=
  json.kind ≠ .string ∧ json.kind ≠ .number

/-- Of the members that count, this one is the unfit one whose key has the smallest bytes. -/
structure FirstUnfit (members : List (String × Json)) (key : String) (json : Json) : Prop where
  last : LastEntry members key json
  unfit : json.IsUnfit
  bytes_le : ∀ other json', LastEntry members other json' → json'.IsUnfit →
    Text.bytes key ≤ Text.bytes other

theorem Json.kind_eq_object_iff {json : Json} :
    json.kind = .object ↔ ∃ members, json = .object members := by
  cases json <;> simp [kind]

theorem Json.not_isUnfit_iff {json : Json} :
    ¬ json.IsUnfit ↔ json.kind = .string ∨ json.kind = .number := by
  rw [IsUnfit, not_and_or, not_not, not_not]

/-- What a record of the members of an object holds. -/
structure Record.Keeps (record : Record) (members : List (String × Json)) : Prop where
  get?_eq_some_iff : ∀ key value,
    record.get? key = some value ↔ ∃ json, LastEntry members key json ∧ KeptAs json value
  get?_eq_none_iff : ∀ key, record.get? key = none ↔ key ∉ members.map Prod.fst
  size_eq : record.size = (members.map Prod.fst).dedup.length
  nearest_of_short : ∀ key number x, LastEntry members key (.number number) →
    record.get? key = some (.decimal x) → number.IsShort → x.IsNearest number.toRat

theorem Value.ofJsonNumber?_eq_some_iff {number : JsonNumber} {value : Value} :
    ofJsonNumber? number = some value ↔ KeptAs (.number number) value := by
  rw [ofJsonNumber?]
  split
  case h_1 i hi =>
    rw [Option.some.injEq]
    rw [JsonNumber.int64?_eq_some_iff] at hi
    constructor
    · rintro rfl
      exact .integer hi
    · rintro (_ | hj | ⟨hother, _⟩)
      · rw [Option.some.inj ((JsonNumber.int64?_eq_some_iff.mpr hi).symm.trans
          (JsonNumber.int64?_eq_some_iff.mpr hj))]
      · exact absurd hi (hother i)
  case h_2 hnone =>
    have hother : ∀ i, ¬ number.IsInteger i := by
      intro i hi
      rw [JsonNumber.int64?_eq_some_iff.mpr hi] at hnone
      cases hnone
    simp only [Option.map_eq_some_iff, JsonNumber.toBinary64?_eq_some_iff]
    constructor
    · rintro ⟨x, hread, rfl⟩
      exact .decimal hother hread
    · rintro (_ | hi | ⟨_, hread⟩)
      · exact absurd hi (hother _)
      · exact ⟨_, hread, rfl⟩

/-- A number that can be read at all has a value. -/
theorem Value.exists_ofJsonNumber? {number : JsonNumber} (h : number.toBinary64?.isSome = true) :
    ∃ value, ofJsonNumber? number = some value := by
  obtain ⟨x, hx⟩ := Option.isSome_iff_exists.mp h
  rw [ofJsonNumber?, hx]
  split
  · exact ⟨_, rfl⟩
  · exact ⟨_, rfl⟩

namespace Record

theorem attribute?_number (name : String) {number : JsonNumber} {value : Value}
    (h : Value.ofJsonNumber? number = some value) :
    attribute? (name, .number number) = .ok (name, value) := by
  simp only [attribute?, h]

/-- The record of an object with one member, a number. -/
theorem ofJson_member (name : String) {number : JsonNumber} {value : Value}
    (h : Value.ofJsonNumber? number = some value) :
    ofJson (.object [(name, .number number)]) = .ok (ofList [(name, value)]) := by
  have hmembers : (membersByKey [(name, Json.number number)]).toList = [(name, .number number)] := rfl
  rw [ofJson, hmembers, mapM_cons_of_ok (attribute?_number name h)]
  rfl

theorem get?_ofList_singleton (name : String) (value : Value) :
    (ofList [(name, value)]).get? name = some value := by
  simp [ofList, get?_insert]

theorem attribute?_eq_ok_iff {json : Json} (hfinite : json.NumbersFinite) (key : String)
    (entry : String × Value) :
    attribute? (key, json) = .ok entry ↔ key = entry.1 ∧ KeptAs json entry.2 := by
  obtain ⟨name, value⟩ := entry
  cases json with
  | string text =>
      rw [attribute?, Except.ok.injEq, Prod.mk.injEq, and_congr_right_iff]
      rintro rfl
      constructor
      · rintro rfl
        exact .text text
      · rintro ⟨⟩
        rfl
  | number number =>
      obtain ⟨read, hread⟩ :=
        Value.exists_ofJsonNumber? (Json.isSome_toBinary64?_of_numbersFinite hfinite)
      rw [attribute?_number key hread, Except.ok.injEq, Prod.mk.injEq,
        ← Value.ofJsonNumber?_eq_some_iff, hread, Option.some.injEq]
  | _ =>
      refine iff_of_false (fun h => by cases h) ?_
      rintro ⟨_, hkept⟩
      cases hkept

theorem attribute?_eq_error_iff {json : Json} (hfinite : json.NumbersFinite) (key : String)
    (fault : DecodeError) :
    attribute? (key, json) = .error fault ↔ json.IsUnfit ∧ fault = .badAttribute key json.kind := by
  cases json with
  | string text =>
      refine iff_of_false (fun h => by cases h) ?_
      rintro ⟨hunfit, _⟩
      exact hunfit.1 rfl
  | number number =>
      obtain ⟨read, hread⟩ :=
        Value.exists_ofJsonNumber? (Json.isSome_toBinary64?_of_numbersFinite hfinite)
      rw [attribute?_number key hread]
      refine iff_of_false (fun h => by cases h) ?_
      rintro ⟨hunfit, _⟩
      exact hunfit.2 rfl
  | _ =>
      rw [attribute?, Except.error.injEq, eq_comm]
      exact (and_iff_right (by simp [Json.IsUnfit, Json.kind])).symm

/-! ### Records -/

theorem values_ofList (entries : List (String × Value)) :
    (ofList entries).values = entries.foldl (fun map entry => map.insert entry.1 entry.2) ∅ :=
  (List.foldl_hom Record.values fun _ _ => rfl).symm

theorem get?_ofList (entries : List (String × Value)) (key : String) (value : Value) :
    (ofList entries).get? key = some value ↔ LastEntry entries key value := by
  rw [get?, values_ofList, getElem?_foldl_insert]

theorem fst_eq_of_attribute? {member : String × Json} {entry : String × Value}
    (h : attribute? member = .ok entry) : entry.1 = member.1 := by
  unfold attribute? at h
  split at h
  · cases h
    rfl
  · split at h
    · cases h
      rfl
    · cases h
  · cases h

theorem map_fst_of_map_attribute? {items : List (String × Json)} {entries : List (String × Value)}
    (h : items.map attribute? = entries.map .ok) : entries.map Prod.fst = items.map Prod.fst := by
  induction items generalizing entries with
  | nil => rw [List.map_eq_nil_iff.mp h.symm, List.map_nil, List.map_nil]
  | cons item items ih =>
      cases entries with
      | nil => cases h
      | cons entry entries =>
          rw [List.map_cons, List.map_cons, List.cons_eq_cons] at h
          rw [List.map_cons, List.map_cons, fst_eq_of_attribute? h.1, ih h.2]

/-- The members that count, each with its key. -/
theorem mem_toList_membersByKey (members : List (String × Json)) (key : String) (json : Json) :
    (key, json) ∈ (membersByKey members).toList ↔ LastEntry members key json := by
  rw [Std.TreeMap.mem_toList_iff_getElem?_eq_some, membersByKey, getElem?_foldl_insert]

theorem ofJson_object (members : List (String × Json)) :
    ofJson (.object members) = ((membersByKey members).toList.mapM attribute?).map ofList := by
  rw [ofJson]
  cases (membersByKey members).toList.mapM attribute? <;> rfl

theorem exists_entries_of_ofJson {members : List (String × Json)} {record : Record}
    (h : ofJson (.object members) = .ok record) :
    ∃ entries, (membersByKey members).toList.map attribute? = entries.map .ok ∧
      record = ofList entries := by
  rw [ofJson_object, map_eq_ok_iff] at h
  obtain ⟨entries, hentries, rfl⟩ := h
  exact ⟨entries, (mapM_eq_ok_iff _ _).mp hentries, rfl⟩

/-- A record has no value exactly of what is no member. -/
theorem get?_eq_none_of_ofJson {members : List (String × Json)} {record : Record}
    (h : ofJson (.object members) = .ok record) (key : String) :
    record.get? key = none ↔ key ∉ members.map Prod.fst := by
  have hkeys : key ∈ (membersByKey members).toList.map Prod.fst ↔
      ∃ json, LastEntry members key json := by
    simp only [← mem_toList_membersByKey, List.mem_map, Prod.exists, exists_and_right,
      exists_eq_right]
  obtain ⟨entries, hentries, rfl⟩ := exists_entries_of_ofJson h
  simp only [Option.eq_none_iff_forall_ne_some, ne_eq, get?_ofList]
  rw [← not_exists, exists_lastEntry_iff, map_fst_of_map_attribute? hentries, hkeys,
    exists_lastEntry_iff]

theorem size_of_ofJson {members : List (String × Json)} {record : Record}
    (h : ofJson (.object members) = .ok record) :
    record.size = (members.map Prod.fst).dedup.length := by
  rw [size, ← Std.TreeMap.length_keys]
  refine List.Perm.length_eq ?_
  rw [List.perm_ext_iff_of_nodup Std.TreeMap.nodup_keys (List.nodup_dedup _)]
  intro key
  rw [Std.TreeMap.mem_keys, List.mem_dedup, Std.TreeMap.mem_iff_isSome_getElem?,
    ← Option.ne_none_iff_isSome, ne_eq, ← get?, get?_eq_none_of_ofJson h, not_not]

section

variable {members : List (String × Json)} (hfinite : (Json.object members).NumbersFinite)

include hfinite

theorem numbersFinite_of_lastEntry {key : String} {json : Json} (h : LastEntry members key json) :
    json.NumbersFinite :=
  Json.numbersFinite_of_mem hfinite h.mem

/-- A record has the last value of each key, as what it is kept. -/
theorem get?_of_ofJson {record : Record} (h : ofJson (.object members) = .ok record) (key : String)
    (value : Value) :
    record.get? key = some value ↔ ∃ json, LastEntry members key json ∧ KeptAs json value := by
  obtain ⟨entries, hentries, rfl⟩ := exists_entries_of_ofJson h
  have hnodup : (entries.map Prod.fst).Nodup := by
    rw [map_fst_of_map_attribute? hentries, Std.TreeMap.map_fst_toList_eq_keys]
    exact Std.TreeMap.nodup_keys
  have hmem : (key, value) ∈ entries ↔
      ∃ member ∈ (membersByKey members).toList, attribute? member = .ok (key, value) := by
    rw [← List.mem_map, hentries, List.mem_map_of_injective fun _ _ => Except.ok.inj]
  rw [get?_ofList, lastEntry_iff_mem hnodup, hmem]
  constructor
  · rintro ⟨⟨name, json⟩, hmember, hattribute⟩
    have hlast := (mem_toList_membersByKey members name json).mp hmember
    obtain ⟨rfl, hkept⟩ :=
      (attribute?_eq_ok_iff (numbersFinite_of_lastEntry hfinite hlast) name _).mp hattribute
    exact ⟨json, hlast, hkept⟩
  · rintro ⟨json, hlast, hkept⟩
    exact ⟨(key, json), (mem_toList_membersByKey members key json).mpr hlast,
      (attribute?_eq_ok_iff (numbersFinite_of_lastEntry hfinite hlast) key _).mpr ⟨rfl, hkept⟩⟩

theorem exists_attribute?_error_iff {key : String} {json : Json} (h : LastEntry members key json) :
    (∃ fault, attribute? (key, json) = .error fault) ↔ json.IsUnfit := by
  simp only [attribute?_eq_error_iff (numbersFinite_of_lastEntry hfinite h), exists_and_left,
    exists_eq, and_true]

theorem exists_ofJson_eq_error_iff :
    (∃ fault, ofJson (.object members) = .error fault) ↔
      ∃ key json, LastEntry members key json ∧ json.IsUnfit := by
  simp only [ofJson_object, map_eq_error_iff, mapM_eq_error_iff, exists_failsFirst_iff]
  constructor
  · rintro ⟨⟨key, json⟩, hmember, hfault⟩
    have hlast := (mem_toList_membersByKey members key json).mp hmember
    exact ⟨key, json, hlast, (exists_attribute?_error_iff hfinite hlast).mp hfault⟩
  · rintro ⟨key, json, hlast, hunfit⟩
    exact ⟨(key, json), (mem_toList_membersByKey members key json).mpr hlast,
      (exists_attribute?_error_iff hfinite hlast).mpr hunfit⟩

/-- The fault is that of the unfit member whose key has the smallest bytes. -/
theorem ofJson_object_eq_error_iff (fault : DecodeError) :
    ofJson (.object members) = .error fault ↔
      ∃ key json, FirstUnfit members key json ∧ fault = .badAttribute key json.kind := by
  have hordered : (membersByKey members).toList.Pairwise fun a b => compare a.1 b.1 = .lt :=
    Std.TreeMap.ordered_keys_toList
  have hcount := mem_toList_membersByKey members
  rw [ofJson_object, map_eq_error_iff, mapM_eq_error_iff]
  constructor
  · rintro ⟨before, ⟨key, json⟩, after, htoList, hbefore, hfault⟩
    rw [htoList] at hordered hcount
    have hlast := (hcount key json).mp (List.mem_append_right before List.mem_cons_self)
    obtain ⟨hunfit, rfl⟩ :=
      (attribute?_eq_error_iff (numbersFinite_of_lastEntry hfinite hlast) key fault).mp hfault
    refine ⟨key, json, ⟨hlast, hunfit, fun other json' hother hunfit' => ?_⟩, rfl⟩
    obtain ⟨fault', hfault'⟩ := (exists_attribute?_error_iff hfinite hother).mpr hunfit'
    rcases List.mem_append.mp ((hcount other json').mpr hother) with hmem | hmem
    · obtain ⟨entry, hentry⟩ := hbefore _ hmem
      rw [hfault'] at hentry
      cases hentry
    · rcases List.mem_cons.mp hmem with heq | hafter
      · obtain rfl : other = key := congrArg Prod.fst heq
        exact List.le_refl _
      · have hlt := (List.pairwise_cons.mp (List.pairwise_append.mp hordered).2.1).1 _ hafter
        exact List.le_of_lt (Text.bytes_lt_of_lt (compare_lt_iff_lt.mp hlt))
  · rintro ⟨key, json, hfirst, rfl⟩
    obtain ⟨before, after, htoList⟩ := List.append_of_mem ((hcount key json).mpr hfirst.last)
    rw [htoList] at hordered hcount
    refine ⟨before, (key, json), after, htoList, ?_, ?_⟩
    · rintro ⟨other, json'⟩ hmem
      have hother := (hcount other json').mp (List.mem_append_left _ hmem)
      -- an earlier key has smaller bytes, so an unfit member cannot have it
      have hlt := (List.pairwise_append.mp hordered).2.2 _ hmem _ List.mem_cons_self
      have hbytes := Text.bytes_lt_of_lt (compare_lt_iff_lt.mp hlt)
      have hfit : ¬ json'.IsUnfit := fun hunfit =>
        absurd hbytes (hfirst.bytes_le other json' hother hunfit)
      cases hrun : attribute? (other, json') with
      | ok entry => exact ⟨entry, rfl⟩
      | error fault =>
          exact absurd ((exists_attribute?_error_iff hfinite hother).mp ⟨fault, hrun⟩) hfit
    · rw [attribute?_eq_error_iff (numbersFinite_of_lastEntry hfinite hfirst.last)]
      exact ⟨hfirst.unfit, rfl⟩

end

variable {document : Json}

theorem ofJson_of_kind_ne (h : document.kind ≠ .object) :
    ofJson document = .error (.notObject document.kind) := by
  cases document with
  | object members => exact absurd rfl h
  | _ => rfl

theorem exists_ofJson_eq_ok_iff (hfinite : document.NumbersFinite) :
    (∃ record, ofJson document = .ok record) ↔ ∃ members, document = .object members ∧
      ∀ key json, LastEntry members key json → json.kind = .string ∨ json.kind = .number := by
  by_cases h : document.kind = .object
  · obtain ⟨members, rfl⟩ := Json.kind_eq_object_iff.mp h
    have hfault := exists_ofJson_eq_error_iff hfinite
    simp only [Json.object.injEq, exists_eq_left', ← Json.not_isUnfit_iff]
    cases hrun : ofJson (.object members) with
    | ok record =>
        refine iff_of_true ⟨record, rfl⟩ fun key json hlast hunfit => ?_
        obtain ⟨fault, hfault⟩ := hfault.mpr ⟨key, json, hlast, hunfit⟩
        rw [hrun] at hfault
        cases hfault
    | error fault =>
        obtain ⟨key, json, hlast, hunfit⟩ := hfault.mp ⟨fault, hrun⟩
        exact iff_of_false (fun ⟨_, h⟩ => by cases h) fun hfit => hfit key json hlast hunfit
  · rw [ofJson_of_kind_ne h]
    refine iff_of_false (fun ⟨_, h⟩ => by cases h) ?_
    rintro ⟨members, rfl, _⟩
    exact h rfl

theorem keeps_of_ofJson (hfinite : document.NumbersFinite) {record : Record}
    (h : ofJson document = .ok record) :
    ∃ members, document = .object members ∧ record.Keeps members := by
  obtain ⟨members, rfl, _⟩ := (exists_ofJson_eq_ok_iff hfinite).mp ⟨record, h⟩
  have hget := get?_of_ofJson hfinite h
  refine ⟨members, rfl, hget, get?_eq_none_of_ofJson h, size_of_ofJson h, ?_⟩
  intro key number x hlast hvalue hshort
  obtain ⟨json, hlast', hkept⟩ := (hget key _).mp hvalue
  obtain rfl := hlast'.unique hlast
  obtain _ | _ | ⟨_, hread⟩ := hkept
  exact hread.isNearest hshort

theorem ofJson_eq_error_iff (hfinite : document.NumbersFinite) (fault : DecodeError) :
    ofJson document = .error fault ↔
      (document.kind ≠ .object ∧ fault = .notObject document.kind) ∨
        ∃ members key json, document = .object members ∧ FirstUnfit members key json ∧
          fault = .badAttribute key json.kind := by
  by_cases h : document.kind = .object
  · obtain ⟨members, rfl⟩ := Json.kind_eq_object_iff.mp h
    simp [ofJson_object_eq_error_iff hfinite, Json.kind]
  · rw [ofJson_of_kind_ne h, Except.error.injEq, eq_comm]
    constructor
    · exact fun hfault => Or.inl ⟨h, hfault⟩
    · rintro (⟨_, hfault⟩ | ⟨members, _, _, rfl, _⟩)
      · exact hfault
      · exact absurd rfl h

/-- A JSON document is a record if it is an object with only strings and numbers as the last members of
their keys. The record keeps them, a number that is no 64-bit integer as what it is read as, which for a
short one is the nearest. Otherwise its kind is the fault, or the member with the smallest key among those
of another kind; members that a later one of their key replaces are not looked at. -/
theorem parse_document {text : String} (h : Json.parse? text = some document) :
    ((∃ record, parse text = .ok record) ↔ ∃ members, document = .object members ∧
        ∀ key json, LastEntry members key json → json.kind = .string ∨ json.kind = .number) ∧
      (∀ record, parse text = .ok record →
        ∃ members, document = .object members ∧ record.Keeps members) ∧
      (∀ fault, parse text = .error fault ↔
        (document.kind ≠ .object ∧ fault = .notObject document.kind ∧
          fault.message = "Record decode error: expected a JSON object, found " ++ document.kind.name) ∨
        ∃ members key json, document = .object members ∧ FirstUnfit members key json ∧
          fault = .badAttribute key json.kind ∧
          fault.message = "Record decode error: attribute '" ++ key ++
            "' must be a string or number, found " ++ json.kind.name) ∧
      ∀ key, parse text ≠ .error (.outOfRange key) := by
  have hfinite := Json.numbersFinite_of_parse? h
  have hparse : parse text = ofJson document := by rw [parse, h]
  simp only [hparse]
  refine ⟨exists_ofJson_eq_ok_iff hfinite, fun record => keeps_of_ofJson hfinite, fun fault => ?_,
    fun key hfault => ?_⟩
  · rw [ofJson_eq_error_iff hfinite]
    constructor
    · rintro (⟨hkind, rfl⟩ | ⟨members, key, json, hdocument, hfirst, rfl⟩)
      · exact Or.inl ⟨hkind, rfl, rfl⟩
      · exact Or.inr ⟨members, key, json, hdocument, hfirst, rfl, rfl⟩
    · rintro (⟨hkind, rfl, _⟩ | ⟨members, key, json, hdocument, hfirst, rfl, _⟩)
      · exact Or.inl ⟨hkind, rfl⟩
      · exact Or.inr ⟨members, key, json, hdocument, hfirst, rfl⟩
  · rcases (ofJson_eq_error_iff hfinite _).mp hfault with ⟨_, heq⟩ | ⟨_, _, _, _, _, heq⟩ <;> cases heq

/-- The null is replaced, so the fault is the array, whose key is smaller than that of the boolean. In
the second document nothing is at fault, and minus zero keeps its sign. -/
theorem parse_document_of_replaced :
    parse "\x7b\"a\":null,\"c\":true,\"a\":\"x\",\"b\":[]\x7d" = .error (.badAttribute "b" .array) ∧
      ∃ record, parse "\x7b\"a\":null,\"b\":1,\"a\":-0\x7d" = .ok record ∧
        record.get? "a" = some (.decimal ⟨0x8000000000000000⟩) ∧
        record.get? "b" = some (.integer 1) ∧ record.get? "c" = none ∧ record.size = 2 := by
  constructor
  · have hfinite : (Json.object [("a", .null), ("c", .boolean true), ("a", .string "x"),
        ("b", .array [])]).NumbersFinite := by
      simp [Json.NumbersFinite, Json.spelling, Json.membersSpelling, Json.Lexeme.Readable]
    have hread := Json.parse?_write hfinite (by decide +kernel)
    rw [Json.write_eq] at hread
    obtain ⟨_, _, hfault, _⟩ := parse_document hread
    refine Eq.trans (congrArg parse (by decide +kernel))
      ((hfault _).mpr (Or.inr ⟨_, "b", .array [], rfl, ⟨?_, ?_, ?_⟩, rfl, rfl⟩))
    · exact (lastEntry_iff_lookup _ _ _).mpr rfl
    · simp [Json.IsUnfit, Json.kind]
    · intro other json hlast hunfit
      have hmem := hlast.mem
      rw [lastEntry_iff_lookup] at hlast
      simp only [List.mem_cons, Prod.mk.injEq, List.not_mem_nil, or_false] at hmem
      obtain ⟨rfl, rfl⟩ | ⟨rfl, rfl⟩ | ⟨rfl, rfl⟩ | ⟨rfl, rfl⟩ := hmem
      · cases hlast
      · decide +kernel
      · exact absurd rfl hunfit.1
      · exact List.le_refl _
  · have hone : (JsonNumber.whole false 1).toBinary64?.isSome = true := by decide +kernel
    have hzero : (JsonNumber.whole true 0).toBinary64?.isSome = true := by decide +kernel
    have hfinite : (Json.object [("a", .null), ("b", .number (.whole false 1)),
        ("a", .number (.whole true 0))]).NumbersFinite := by
      simp [Json.NumbersFinite, Json.spelling, Json.membersSpelling, Json.Lexeme.Readable, hone, hzero]
    have hread := Json.parse?_write hfinite (by decide +kernel)
    rw [Json.write_eq] at hread
    obtain ⟨hrecord, hkeeps, _⟩ := parse_document hread
    obtain ⟨record, hparse⟩ := hrecord.mpr ⟨_, rfl, fun key json hlast => by
      have hmem := hlast.mem
      rw [lastEntry_iff_lookup] at hlast
      simp only [List.mem_cons, Prod.mk.injEq, List.not_mem_nil, or_false] at hmem
      obtain ⟨rfl, rfl⟩ | ⟨rfl, rfl⟩ | ⟨rfl, rfl⟩ := hmem
      · cases hlast
      · exact Or.inr rfl
      · exact Or.inr rfl⟩
    obtain ⟨_, hdocument, hget, hnone, hsize, _⟩ := hkeeps record hparse
    cases hdocument
    refine ⟨record, Eq.trans (congrArg parse (by decide +kernel)) hparse,
      (hget _ _).mpr ⟨.number (.whole true 0), (lastEntry_iff_lookup _ _ _).mpr rfl, ?_⟩,
      (hget _ _).mpr ⟨.number (.whole false 1), (lastEntry_iff_lookup _ _ _).mpr rfl, ?_⟩,
      (hnone _).mpr (by decide), hsize.trans (by decide)⟩
    · exact Value.ofJsonNumber?_eq_some_iff.mp (by decide +kernel)
    · exact .integer ⟨false, 1, rfl, rfl, by simp⟩

/-- The power of ten is below `10 ^ 23` after it is rounded, and so is the product below the number that
is nearest to the one in the text. -/
theorem parse_document_of_misread :
    ∃ record, parse "\x7b\"a\":3e23\x7d" = .ok record ∧
      record.get? "a" = some (.decimal ⟨0x44cfc3842bd1f071⟩) ∧
      (⟨0x44cfc3842bd1f072⟩ : Binary64).IsNearest (3 * 10 ^ 23) ∧
      ¬ (⟨0x44cfc3842bd1f071⟩ : Binary64).IsNearest (3 * 10 ^ 23) := by
  have hread : (JsonNumber.decimal false 3 [] 23).toBinary64?.isSome = true := by decide +kernel
  have hvalue : Value.ofJsonNumber? (.decimal false 3 [] 23) =
      some (.decimal ⟨0x44cfc3842bd1f071⟩) := by
    decide +kernel
  have hrounded : Binary64.nearest false 300000000000000000000000 1 = ⟨0x44cfc3842bd1f072⟩ := by
    decide +kernel
  have hnearest := Binary64.isNearest_nearest Nat.one_pos
    (show (Binary64.nearest false 300000000000000000000000 1).isInfinite = false by
      rw [hrounded]
      decide)
  have hnumber : ((withSign false 300000000000000000000000 : Int) : Rat) / ((1 : Nat) : Rat) =
      3 * 10 ^ 23 := by
    norm_num [withSign]
  rw [hrounded, hnumber] at hnearest
  have hbelow : (⟨0x44cfc3842bd1f071⟩ : Binary64).toRat < (⟨0x44cfc3842bd1f072⟩ : Binary64).toRat := by
    rw [Binary64.toRat_lt_toRat_iff]
    decide +kernel
  have hwrite : (Json.object [("a", .number (.decimal false 3 [] 23))]).write =
      "\x7b\"a\":3e23\x7d" := by
    rw [Json.write_eq]
    decide +kernel
  have hdocument := Json.parse?_write_member "a" hread
  rw [hwrite] at hdocument
  refine ⟨_, ?_, get?_ofList_singleton "a" _, hnearest, fun h => hbelow.ne (h.unique hnearest)⟩
  rw [parse, hdocument]
  exact ofJson_member "a" hvalue

end Record

end RecordRules
