import RecordRules.Json.Number
import RecordRules.Proofs.LiteralText
import RecordRules.Proofs.Scaling

/-! Reading JSON numbers. What a number is read as is given apart from the reader: the digits that make
its significand, the number that the significand is rounded to, and the roundings on the way to its power
of ten. The reader gives a number exactly if it is that one, and gives none if a rounding on the way
overflows. Whole numbers of 64 bits, and decimals with few digits and a small exponent, are read as the
number nearest to them. -/

namespace RecordRules

open Number

/-! ### Digits -/

/-- The number that digits make behind another number. -/
def digitsOnto (start : Nat) (digits : List (Fin 10)) : Nat :=
  digits.foldl (fun (value : Nat) (digit : Fin 10) => value * 10 + digit) start

theorem digitsOnto_cons (start : Nat) (digit : Fin 10) (digits : List (Fin 10)) :
    digitsOnto start (digit :: digits) = digitsOnto (start * 10 + digit) digits :=
  rfl

theorem le_digitsOnto (start : Nat) (digits : List (Fin 10)) : start ≤ digitsOnto start digits := by
  induction digits generalizing start with
  | nil => exact Nat.le_refl _
  | cons digit digits ih =>
      have hrest := ih (start * 10 + digit)
      rw [digitsOnto_cons]
      omega

theorem digitsOnto_map_digitOf {chars : List Char} (h : ∀ c ∈ chars, c.isDigit = true)
    (start : Nat) : digitsOnto start (chars.map digitOf) = Nat.ofDigitChars 10 chars start := by
  induction chars generalizing start with
  | nil => rfl
  | cons c chars ih =>
      obtain ⟨hc, hchars⟩ := List.forall_mem_cons.mp h
      have hcode := (RuleText.isDigit_iff c).mp hc
      have hdigit : (digitOf c : Nat) = c.toNat - '0'.toNat := by
        have hzero : '0'.toNat = 48 := rfl
        rw [digitOf, Fin.val_ofNat, hzero]
        omega
      rw [List.map_cons, digitsOnto_cons, ih hchars, Nat.ofDigitChars_cons, hdigit, Nat.mul_comm]

theorem digitsOnto_digits (n : Nat) : digitsOnto 0 (digits n) = n := by
  rw [digits, digitsOnto_map_digitOf (isRun_decimalDigits n).2]
  exact digitsValue_decimalDigits n

/-- The digits that are put behind a number: as many from the front as leave it below `2 ^ 64`. -/
structure TakesDigits (start : Nat) (digits : List (Fin 10)) (value : Nat)
    (left : List (Fin 10)) : Prop where
  taken : ∃ front, digits = front ++ left ∧ value = digitsOnto start front
  lt : value < 2 ^ 64
  full : ∀ digit ∈ left.head?, 2 ^ 64 ≤ value * 10 + digit

/-- All digits are taken if they make a number below `2 ^ 64`. -/
theorem TakesDigits.all {start value : Nat} {digits left : List (Fin 10)}
    (h : TakesDigits start digits value left) (hlt : digitsOnto start digits < 2 ^ 64) :
    value = digitsOnto start digits ∧ left = [] := by
  obtain ⟨⟨front, rfl, rfl⟩, _, hfull⟩ := h
  cases left with
  | nil => exact ⟨by rw [List.append_nil], rfl⟩
  | cons digit rest =>
      have happend : digitsOnto start (front ++ digit :: rest) =
          digitsOnto (digitsOnto start front * 10 + digit) rest := by
        rw [digitsOnto, List.foldl_append]
        rfl
      have hle := le_digitsOnto (digitsOnto start front * 10 + digit) rest
      have hover := hfull digit rfl
      omega

section

variable {start value : Nat} {digit : Fin 10} {digits left : List (Fin 10)}

theorem takesDigits_nil_iff (hstart : start < 2 ^ 64) :
    TakesDigits start [] value left ↔ start = value ∧ [] = left := by
  constructor
  · rintro ⟨⟨front, hfront, rfl⟩, _, _⟩
    obtain ⟨rfl, rfl⟩ := List.append_eq_nil_iff.mp hfront.symm
    exact ⟨rfl, rfl⟩
  · rintro ⟨rfl, rfl⟩
    exact ⟨⟨[], rfl, rfl⟩, hstart, fun digit h => by cases h⟩

/-- A digit that fits is taken, and the others are put behind what it makes. -/
theorem takesDigits_cons_of_lt (h : start * 10 + digit < 2 ^ 64) :
    TakesDigits start (digit :: digits) value left ↔
      TakesDigits (start * 10 + digit) digits value left := by
  constructor
  · rintro ⟨⟨front, hfront, rfl⟩, hlt, hfull⟩
    cases front with
    | nil =>
        obtain rfl : digit :: digits = left := hfront
        exact absurd h (Nat.not_lt_of_le (hfull digit rfl))
    | cons first front =>
        obtain ⟨rfl, rfl⟩ := List.cons.inj hfront
        exact ⟨⟨front, rfl, rfl⟩, hlt, hfull⟩
  · rintro ⟨⟨front, rfl, hvalue⟩, hlt, hfull⟩
    exact ⟨⟨digit :: front, rfl, hvalue⟩, hlt, hfull⟩

/-- From a digit that does not fit on, all are left. -/
theorem takesDigits_cons_of_le (hstart : start < 2 ^ 64) (h : 2 ^ 64 ≤ start * 10 + digit) :
    TakesDigits start (digit :: digits) value left ↔ start = value ∧ digit :: digits = left := by
  constructor
  · rintro ⟨⟨front, hfront, rfl⟩, hlt, _⟩
    cases front with
    | nil => exact ⟨rfl, hfront⟩
    | cons first front =>
        obtain ⟨rfl, rfl⟩ := List.cons.inj hfront
        exact absurd h (Nat.not_le_of_lt (Nat.lt_of_le_of_lt (le_digitsOnto _ front) hlt))
  · rintro ⟨rfl, rfl⟩
    refine ⟨⟨[], rfl, rfl⟩, hstart, fun next hnext => ?_⟩
    obtain rfl : digit = next := Option.some.inj hnext
    exact h

end

namespace JsonNumber

theorem le_maxSignificand_iff {n : Nat} : n ≤ maxSignificand ↔ n < 2 ^ 64 :=
  Nat.le_sub_one_iff_lt (by decide)

theorem takeDigits_eq_iff {start : Nat} {digits left : List (Fin 10)} {value : Nat}
    (hstart : start < 2 ^ 64) :
    takeDigits start digits = (value, left) ↔ TakesDigits start digits value left := by
  induction digits generalizing start with
  | nil => rw [takeDigits, Prod.mk.injEq, takesDigits_nil_iff hstart]
  | cons digit digits ih =>
      rw [takeDigits]
      split
      case isTrue hle =>
        rw [le_maxSignificand_iff] at hle
        rw [ih hle, takesDigits_cons_of_lt hle]
      case isFalse hle =>
        rw [le_maxSignificand_iff, Nat.not_lt] at hle
        rw [Prod.mk.injEq, takesDigits_cons_of_le hstart hle]

theorem takesDigits_takeDigits {start : Nat} (hstart : start < 2 ^ 64) (digits : List (Fin 10)) :
    TakesDigits start digits (takeDigits start digits).1 (takeDigits start digits).2 :=
  (takeDigits_eq_iff hstart).mp rfl

/-! ### What a number is read as -/

/-- Digits before and after a point, with an exponent, lead to a number. As many of them as fit into 64
bits make a significand. A digit before the point that is left over still counts for the power of ten,
one after the point does not. The significand is rounded, and scaled by the power of ten. -/
def LeadsTo (negative : Bool) (integral : Nat) (fraction : List (Fin 10)) (exponent : Int)
    (r : Rat) : Prop :=
  ∃ leading left significand ignored start,
    TakesDigits 0 (digits integral) leading left ∧
      TakesDigits leading fraction significand ignored ∧
      RoundsTo (withSign negative significand : Int) start ∧
      ScalesTo start (exponent + left.length - (fraction.length - ignored.length)) r

/-- The finite number that a JSON number is read as, which has its sign. A whole number of 64 bits is
read as the nearest one, every other number as the one that its digits lead to. -/
inductive ReadAs : JsonNumber → Binary64 → Prop where
  | whole {negative : Bool} {magnitude : Nat} {x : Binary64} (hrange : magnitude < 2 ^ 64)
      (hnearest : x.IsNearest (withSign negative magnitude : Int)) (hsign : x.negative = negative) :
      ReadAs (.whole negative magnitude) x
  | long {negative : Bool} {magnitude : Nat} {x : Binary64} (hrange : 2 ^ 64 ≤ magnitude)
      (hfinite : x.IsFinite) (hleads : LeadsTo negative magnitude [] 0 x.toRat)
      (hsign : x.negative = negative) : ReadAs (.whole negative magnitude) x
  | decimal {negative : Bool} {integral : Nat} {fraction : List (Fin 10)} {exponent : Int}
      {x : Binary64} (hfinite : x.IsFinite)
      (hleads : LeadsTo negative integral fraction exponent x.toRat) (hsign : x.negative = negative) :
      ReadAs (.decimal negative integral fraction exponent) x

theorem ReadAs.finite {number : JsonNumber} {x : Binary64} (h : number.ReadAs x) : x.IsFinite := by
  cases h with
  | whole _ hnearest _ => exact hnearest.finite
  | long _ hfinite _ _ => exact hfinite
  | decimal hfinite _ _ => exact hfinite

section

variable {x : Binary64}

theorem isInfinite_nearest_of_lt (negative : Bool) {n : Nat} (h : n < 2 ^ 64) :
    (Binary64.nearest negative n 1).isInfinite = false := by
  have hbound : 2 ^ 64 ≤ Binary64.overflowBound := by decide +kernel
  rw [Binary64.isInfinite_nearest_eq_false_iff negative Nat.one_pos, Nat.mul_one]
  exact Nat.lt_of_lt_of_le h hbound

theorem isNearest_of_lt (negative : Bool) {n : Nat} (h : n < 2 ^ 64) :
    (Binary64.nearest negative n 1).IsNearest (withSign negative n : Int) := by
  have hnearest := Binary64.isNearest_nearest Nat.one_pos (isInfinite_nearest_of_lt negative h)
  rwa [Nat.cast_one, div_one] at hnearest

theorem roundsTo_of_lt_iff (negative : Bool) {n : Nat} (h : n < 2 ^ 64) (r : Rat) :
    RoundsTo (withSign negative n : Int) r ↔ (Binary64.nearest negative n 1).toRat = r := by
  have hquotient : ((withSign negative n : Int) : Rat) =
      (withSign negative n : Int) / ((1 : Nat) : Rat) := by
    rw [Nat.cast_one, div_one]
  rw [hquotient, roundsTo_iff negative Nat.one_pos]
  exact and_iff_right (isInfinite_nearest_of_lt negative h)

theorem toBinary64?_ofInt {n : Int} (h : n.natAbs < 2 ^ 64) :
    (ofInt n).toBinary64? = some (.ofInt n) :=
  if_pos (le_maxSignificand_iff.mpr h)

theorem isSome_toBinary64?_ofInt (n : Int64) : (ofInt n.toInt).toBinary64?.isSome = true := by
  have hlow := n.le_toInt
  have hhigh := n.toInt_lt
  rw [toBinary64?_ofInt (by omega)]
  rfl

theorem ofDigits?_eq_some_iff (negative : Bool) (integral : Nat) (fraction : List (Fin 10))
    (exponent : Int) : ofDigits? negative integral fraction exponent = some x ↔
      x.IsFinite ∧ x.negative = negative ∧ LeadsTo negative integral fraction exponent x.toRat := by
  have hstart : ∀ {n : Nat}, n < 2 ^ 64 → (Binary64.nearest negative n 1).IsFinite :=
    fun h => (isNearest_of_lt negative h).finite
  have hsign : ∀ n, (Binary64.nearest negative n 1).negative = negative :=
    fun n => Binary64.negative_nearest negative n 1
  constructor
  · intro h
    have hleading := takesDigits_takeDigits (Nat.two_pow_pos 64) (digits integral)
    have hsignificand := takesDigits_takeDigits hleading.lt fraction
    obtain ⟨hfinite, hnegative, hscales⟩ := Binary64.scalesTo_of_scale? (hstart hsignificand.lt) h
    exact ⟨hfinite, hnegative.trans (hsign _), _, _, _, _, _, hleading, hsignificand,
      (roundsTo_of_lt_iff negative hsignificand.lt _).mpr rfl, hscales⟩
  · rintro ⟨hfinite, hnegative, leading, left, significand, ignored, start, hleading, hsignificand,
      hrounds, hscales⟩
    rw [roundsTo_of_lt_iff negative hsignificand.lt] at hrounds
    obtain ⟨y, hy, hrat⟩ := Binary64.exists_scale?_of_scalesTo hscales hrounds
    obtain ⟨hfinite', hnegative', _⟩ := Binary64.scalesTo_of_scale? (hstart hsignificand.lt) hy
    obtain rfl : y = x := Binary64.eq_of_toRat_eq hfinite' hfinite hrat
      ((hnegative'.trans (hsign _)).trans hnegative.symm)
    simp only [ofDigits?, (takeDigits_eq_iff (Nat.two_pow_pos 64)).mpr hleading,
      (takeDigits_eq_iff hleading.lt).mpr hsignificand, hy]

/-- A number is read exactly as what its digits lead to. -/
theorem toBinary64?_eq_some_iff {number : JsonNumber} :
    number.toBinary64? = some x ↔ number.ReadAs x := by
  cases number with
  | whole negative magnitude =>
      rw [toBinary64?]
      split
      case isTrue hle =>
        rw [le_maxSignificand_iff] at hle
        have hnearest := isNearest_of_lt negative hle
        have hsign := Binary64.negative_nearest negative magnitude 1
        rw [Option.some.injEq]
        constructor
        · rintro rfl
          exact .whole hle hnearest hsign
        · rintro (⟨_, hnearest', hsign'⟩ | ⟨hrange, _, _, _⟩)
          · exact Binary64.eq_of_toRat_eq hnearest.finite hnearest'.finite (hnearest.unique hnearest')
              (hsign.trans hsign'.symm)
          · exact absurd hle (Nat.not_lt_of_le hrange)
      case isFalse hle =>
        rw [le_maxSignificand_iff] at hle
        rw [ofDigits?_eq_some_iff]
        constructor
        · rintro ⟨hfinite, hsign, hleads⟩
          exact .long (Nat.not_lt.mp hle) hfinite hleads hsign
        · rintro (⟨hrange, _, _⟩ | ⟨_, hfinite, hleads, hsign⟩)
          · exact absurd hrange hle
          · exact ⟨hfinite, hsign, hleads⟩
  | decimal negative integral fraction exponent =>
      rw [toBinary64?, ofDigits?_eq_some_iff]
      constructor
      · rintro ⟨hfinite, hsign, hleads⟩
        exact .decimal hfinite hleads hsign
      · rintro (_ | _ | ⟨hfinite, hleads, hsign⟩)
        exact ⟨hfinite, hsign, hleads⟩

end

/-! ### Numbers that are read as the nearest one -/

/-- What a number denotes as it is written. -/
def toRat : JsonNumber → Rat
  | .whole negative magnitude => (withSign negative magnitude : Int)
  | .decimal negative integral fraction exponent =>
      (withSign negative (digitsOnto integral fraction) : Int) * 10 ^ (exponent - fraction.length)

/-- Whole numbers of 64 bits, and decimals of 53 bits and up to 22 places on either side. -/
def IsShort : JsonNumber → Prop
  | .whole _ magnitude => magnitude < 2 ^ 64
  | .decimal _ integral fraction exponent =>
      digitsOnto integral fraction < 2 ^ 53 ∧ (exponent - fraction.length).natAbs ≤ 22

section

variable {negative : Bool} {integral : Nat} {fraction : List (Fin 10)} {exponent : Int} {r : Rat}

/-- Where no digit is left over and neither the digits nor the power of ten are rounded, the only rounding
is that of the number itself. -/
theorem LeadsTo.roundsTo_of_short (h : LeadsTo negative integral fraction exponent r)
    (hdigits : digitsOnto integral fraction < 2 ^ 53)
    (hplaces : (exponent - fraction.length).natAbs ≤ 22) :
    RoundsTo ((withSign negative (digitsOnto integral fraction) : Int) *
      10 ^ (exponent - fraction.length)) r := by
  obtain ⟨leading, left, significand, ignored, start, hleading, hsignificand, hrounds, hscales⟩ := h
  have hintegral := le_digitsOnto integral fraction
  obtain ⟨rfl, rfl⟩ := hleading.all (by rw [digitsOnto_digits]; omega)
  rw [digitsOnto_digits] at hsignificand
  obtain ⟨rfl, rfl⟩ := hsignificand.all (by omega)
  rw [roundsTo_of_lt_iff negative (by omega), Binary64.toRat_nearest_of_lt negative hdigits] at hrounds
  rw [hrounds]
  simp only [List.length_nil, Nat.cast_zero, add_zero, sub_zero] at hscales
  exact hscales.roundsTo_of_short hplaces

end

/-- A short number is read as the number nearest to it. -/
theorem ReadAs.isNearest {number : JsonNumber} {x : Binary64} (h : number.ReadAs x)
    (hshort : number.IsShort) : x.IsNearest number.toRat := by
  cases h with
  | whole _ hnearest _ => exact hnearest
  | long hrange _ _ _ => exact absurd hshort (Nat.not_lt_of_le hrange)
  | decimal hfinite hleads _ =>
      obtain ⟨y, hy, hrat⟩ := (hleads.roundsTo_of_short hshort.1 hshort.2).nearest
      exact hy.of_toRat_eq hfinite hrat.symm

end JsonNumber

end RecordRules
