import Lour.Lib.Python
/-!
# Reading numbers

The number literals of JSON, and the numbers of `Lour.Lib.Python` read back from
them.  A decimal is taken as it stands, which is what the shortest decimals that
`repr` prints denote.
-/

namespace Lour.Lib.Python

/-! ## Decimals -/

/-- The decimal without its trailing zeros. -/
def Decimal.normalise (neg : Bool) (digits : ℕ) (exponent : ℤ) : Decimal :=
  if hzero : digits = 0 then ⟨neg, 0, 0, .inr ⟨rfl, rfl⟩⟩
  else if hlast : digits % 10 ≠ 0 then ⟨neg, digits, exponent, .inl hlast⟩
  else normalise neg (digits / 10) (exponent + 1)
termination_by digits
decreasing_by omega

theorem Decimal.normalise_zero (neg : Bool) (exponent : ℤ) :
    normalise neg 0 exponent = ⟨neg, 0, 0, .inr ⟨rfl, rfl⟩⟩ := by
  rw [normalise, dif_pos rfl]

theorem Decimal.normalise_shift (neg : Bool) {digits : ℕ} (h : digits % 10 ≠ 0) (k : ℕ)
    (exponent : ℤ) :
    normalise neg (digits * 10 ^ k) exponent = ⟨neg, digits, exponent + k, .inl h⟩ := by
  induction k generalizing exponent with
  | zero =>
      have hpos : digits ≠ 0 := by
        rintro rfl
        exact h rfl
      rw [Nat.pow_zero, Nat.mul_one, normalise, dif_neg hpos, dif_pos h]
      simp
  | succ k ih =>
      have hpos : digits * 10 ^ (k + 1) ≠ 0 := by
        apply Nat.mul_ne_zero
        · rintro rfl
          exact h rfl
        · exact (Nat.pow_pos (by decide)).ne'
      have hshift : digits * 10 ^ (k + 1) = digits * 10 ^ k * 10 := by
        rw [Nat.pow_succ, Nat.mul_assoc]
      have hlast : ¬ digits * 10 ^ (k + 1) % 10 ≠ 0 := by
        rw [hshift]
        omega
      have hrest : digits * 10 ^ (k + 1) / 10 = digits * 10 ^ k := by
        rw [hshift]
        omega
      rw [normalise, dif_neg hpos, dif_neg hlast, hrest, ih]
      congr 1
      push_cast
      omega

/-- A decimal is read back from its digits with `k` zeros after them. -/
theorem Decimal.normalise_self (d : Decimal) (k : ℕ) (exponent : ℤ)
    (hexponent : d.digits ≠ 0 → exponent + k = d.exponent) :
    normalise d.neg (d.digits * 10 ^ k) exponent = d := by
  obtain ⟨neg, digits, e, hnormal⟩ := d
  rcases hnormal with hlast | ⟨rfl, rfl⟩
  · have hpos : digits ≠ 0 := by
      rintro rfl
      exact hlast rfl
    have he : exponent + k = e := hexponent hpos
    rw [normalise_shift neg hlast, Decimal.mk.injEq]
    exact ⟨rfl, rfl, he⟩
  · rw [Nat.zero_mul, normalise_zero]

/-! ## Number literals -/

/-- The parts of a number literal. -/
structure Numeral where
  neg : Bool := false
  whole : List Char
  fraction : Option (List Char) := none
  exponent : Option (Bool × List Char) := none

/-- At least one digit, and nothing else. -/
def Digits (cs : List Char) : Prop := cs ≠ [] ∧ ∀ c ∈ cs, c.isDigit = true

structure Numeral.Valid (n : Numeral) : Prop where
  whole : Digits n.whole
  leading : n.whole.head? = some '0' → n.whole.length = 1
  fraction : ∀ ds ∈ n.fraction, Digits ds
  exponent : ∀ e ∈ n.exponent, Digits e.2

def fractionText : Option (List Char) → List Char
  | some ds => '.' :: ds
  | none => []

def exponentText : Option (Bool × List Char) → List Char
  | some (neg, ds) => 'e' :: (if neg then '-' else '+') :: ds
  | none => []

namespace Numeral

variable (self : Numeral)

def unsigned : List Char := self.whole ++ (fractionText self.fraction ++ exponentText self.exponent)

def text : List Char := if self.neg then '-' :: self.unsigned else self.unsigned

/-- An integer, unless there is a fraction or an exponent. -/
def value : Json :=
  let digits := Nat.ofDigitChars 10 (self.whole ++ self.fraction.getD []) 0
  match self.fraction, self.exponent with
  | none, none => .int (if self.neg then -(digits : ℤ) else digits)
  | _, _ =>
      let shift : ℤ :=
        match self.exponent with
        | some (neg, ds) =>
            if neg then -(Nat.ofDigitChars 10 ds 0 : ℤ) else Nat.ofDigitChars 10 ds 0
        | none => 0
      .float (.finite (.normalise self.neg digits (shift - (self.fraction.getD []).length)))

end Numeral

/-- The fraction, where a point starts one, and the text after it. -/
def readFraction : List Char → Option (Option (List Char) × List Char)
  | '.' :: cs =>
      let ds := cs.takeWhile Char.isDigit
      if ds.isEmpty then none else some (some ds, cs.dropWhile Char.isDigit)
  | cs => some (none, cs)

/-- The exponent that ends a literal. -/
def readExponent : List Char → Option (Option (Bool × List Char))
  | [] => some none
  | c :: cs =>
      if c = 'e' ∨ c = 'E' then
        let (neg, ds) :=
          match cs with
          | '-' :: ds => (true, ds)
          | '+' :: ds => (false, ds)
          | ds => (false, ds)
        if !ds.isEmpty && ds.all Char.isDigit then some (some (neg, ds)) else none
      else none

def readUnsigned (neg : Bool) (cs : List Char) : Option Numeral :=
  let whole := cs.takeWhile Char.isDigit
  if whole.isEmpty || (whole.head? == some '0' && whole.length != 1) then none
  else
    (readFraction (cs.dropWhile Char.isDigit)).bind fun (fraction, rest) =>
      (readExponent rest).map fun exponent => { neg, whole, fraction, exponent }

def readNumeral : List Char → Option Numeral
  | '-' :: cs => readUnsigned true cs
  | cs => readUnsigned false cs

/-- No digit comes next. -/
def Ends (rest : List Char) : Prop := ∀ c ∈ rest.head?, c.isDigit = false

theorem takeWhile_digits {ds rest : List Char} (h : Digits ds) (hrest : Ends rest) :
    (ds ++ rest).takeWhile Char.isDigit = ds ∧ (ds ++ rest).dropWhile Char.isDigit = rest := by
  constructor
  · rw [List.takeWhile_append_of_pos h.2]
    cases rest with
    | nil => simp
    | cons c rest =>
        rw [List.takeWhile_cons_of_neg, List.append_nil]
        exact Bool.eq_false_iff.mp (hrest c rfl)
  · rw [List.dropWhile_append_of_pos h.2]
    cases rest with
    | nil => rfl
    | cons c rest => exact List.dropWhile_cons_of_neg (Bool.eq_false_iff.mp (hrest c rfl))

theorem Digits.cons (h : Digits ds) : ∃ c cs, ds = c :: cs ∧ c.isDigit = true := by
  obtain ⟨hne, hall⟩ := h
  obtain ⟨c, cs, rfl⟩ := List.exists_cons_of_ne_nil hne
  exact ⟨c, cs, rfl, hall c List.mem_cons_self⟩

theorem readExponent_text {exponent : Option (Bool × List Char)}
    (h : ∀ e ∈ exponent, Digits e.2) :
    readExponent (exponentText exponent) = some exponent ∧ Ends (exponentText exponent) := by
  cases exponent with
  | none => exact ⟨rfl, fun c hc => by cases hc⟩
  | some e =>
      obtain ⟨neg, ds⟩ := e
      have hall : (!ds.isEmpty && ds.all Char.isDigit) = true := by
        rw [Bool.and_eq_true, Bool.not_eq_true', List.isEmpty_eq_false_iff, List.all_eq_true]
        exact h _ rfl
      refine ⟨?_, fun c hc => ?_⟩
      · cases neg <;> simp [exponentText, readExponent, hall]
      · cases hc
        rfl

theorem readFraction_text {fraction : Option (List Char)} (h : ∀ ds ∈ fraction, Digits ds)
    (exponent : Option (Bool × List Char)) (hends : Ends (exponentText exponent)) :
    readFraction (fractionText fraction ++ exponentText exponent) =
        some (fraction, exponentText exponent) ∧
      Ends (fractionText fraction ++ exponentText exponent) := by
  cases fraction with
  | none =>
      refine ⟨?_, hends⟩
      cases exponent with
      | none => rfl
      | some e => rfl
  | some ds =>
      have hds := h ds rfl
      obtain ⟨htake, hdrop⟩ := takeWhile_digits hds hends
      have hne : ds.isEmpty = false := List.isEmpty_eq_false_iff.mpr hds.1
      refine ⟨?_, fun c hc => ?_⟩
      · simp [fractionText, readFraction, htake, hdrop, hne]
      · cases hc
        rfl

/-- A literal is read back from its text. -/
theorem readNumeral_text {n : Numeral} (h : n.Valid) : readNumeral n.text = some n := by
  obtain ⟨neg, whole, fraction, exponent⟩ := n
  obtain ⟨hwhole, hleading, hfraction, hexponent⟩ := h
  dsimp only at hwhole hleading hfraction hexponent
  obtain ⟨hreadExponent, hendsExponent⟩ := readExponent_text hexponent
  obtain ⟨hreadFraction, hends⟩ := readFraction_text hfraction exponent hendsExponent
  obtain ⟨htake, hdrop⟩ := takeWhile_digits hwhole hends
  have hwholeOk : (whole.isEmpty || (whole.head? == some '0' && whole.length != 1)) = false := by
    rw [Bool.or_eq_false_iff, List.isEmpty_eq_false_iff, Bool.and_eq_false_iff]
    refine ⟨hwhole.1, ?_⟩
    by_cases hzero : whole.head? = some '0'
    · right
      simpa using hleading hzero
    · left
      simpa using hzero
  have hunsigned : ∀ neg, readUnsigned neg
      (whole ++ (fractionText fraction ++ exponentText exponent)) =
        some ⟨neg, whole, fraction, exponent⟩ := by
    intro neg
    rw [readUnsigned, htake, hdrop, hwholeOk, if_neg Bool.false_ne_true, hreadFraction,
      Option.bind_some]
    dsimp only
    rw [hreadExponent]
    rfl
  cases neg with
  | true => exact hunsigned true
  | false =>
      obtain ⟨c, cs, rfl, hdigit⟩ := hwhole.cons
      have hsign : c ≠ '-' := by
        rintro rfl
        cases hdigit
      rw [Numeral.text, if_neg Bool.false_ne_true, Numeral.unsigned, readNumeral]
      · exact hunsigned false
      · intro rest heq
        exact hsign (List.cons.inj heq).1

/-! ## The numbers that are printed -/

theorem toDigits_digits (n : ℕ) : Digits (Nat.toDigits 10 n) :=
  ⟨Nat.toDigits_ne_nil, fun _ hc => Nat.isDigit_of_mem_toDigits (by decide) (by decide) hc⟩

/-- Only zero starts with the digit zero. -/
theorem toDigits_head (n : ℕ) (h : (Nat.toDigits 10 n).head? = some '0') : n = 0 := by
  induction n using Nat.strongRecOn with
  | ind n ih =>
      by_cases hlt : n < 10
      · rw [Nat.toDigits_of_lt_base hlt] at h
        have hall : ∀ n < 10, ([Nat.digitChar n].head? = some '0') → n = 0 := by decide
        exact hall n hlt h
      · rw [Nat.toDigits_of_base_le (by decide) (by omega),
          List.head?_append_of_ne_nil _ Nat.toDigits_ne_nil] at h
        have hrest := ih (n / 10) (by omega) h
        omega

theorem toDigits_leading (n : ℕ) (h : (Nat.toDigits 10 n).head? = some '0') :
    (Nat.toDigits 10 n).length = 1 := by
  rw [toDigits_head n h, Nat.toDigits_zero]
  rfl

/-- The literal of an integer. -/
def Numeral.ofInt (i : ℤ) : Numeral where
  neg := decide (i < 0)
  whole := Nat.toDigits 10 i.natAbs

theorem ofInt_valid (i : ℤ) : (Numeral.ofInt i).Valid where
  whole := toDigits_digits _
  leading := toDigits_leading _
  fraction ds hds := by cases hds
  exponent e he := by cases he

theorem ofInt_text (i : ℤ) : (Numeral.ofInt i).text = (toString i).toList := by
  have hunsigned : (Numeral.ofInt i).unsigned = Nat.toDigits 10 i.natAbs := by
    simp [Numeral.unsigned, Numeral.ofInt, fractionText, exponentText]
  rw [Int.toString_eq_repr, Int.repr_eq_if, Numeral.text, hunsigned]
  by_cases hneg : i < 0
  · have habs : i.natAbs = (-i).toNat := by omega
    have hsign : (Numeral.ofInt i).neg = true := decide_eq_true hneg
    have hle : ¬ 0 ≤ i := by omega
    rw [hsign, if_pos rfl, if_neg hle, String.toList_append, Nat.toList_repr, habs]
    rfl
  · have habs : i.natAbs = i.toNat := by omega
    have hsign : (Numeral.ofInt i).neg = false := decide_eq_false hneg
    have hle : 0 ≤ i := by omega
    rw [hsign, if_neg Bool.false_ne_true, if_pos hle, Nat.toList_repr, habs]

theorem ofInt_value (i : ℤ) : (Numeral.ofInt i).value = .int i := by
  simp only [Numeral.value, Numeral.ofInt, Option.getD_none, List.append_nil,
    Nat.ofDigitChars_ten_toDigits, Json.int.injEq, decide_eq_true_eq]
  split
  · omega
  · omega

/-- The literal that `repr` prints for a decimal. -/
def Numeral.ofDecimal (d : Decimal) : Numeral :=
  let ds := Nat.toDigits 10 d.digits
  let point := (ds.length : ℤ) + d.exponent
  if -4 < point ∧ point ≤ 16 then
    if point ≤ 0 then
      { neg := d.neg
        whole := ['0']
        fraction := some (List.replicate (-point).toNat '0' ++ ds) }
    else if (ds.length : ℤ) ≤ point then
      { neg := d.neg
        whole := ds ++ List.replicate (point - ds.length).toNat '0'
        fraction := some ['0'] }
    else
      { neg := d.neg
        whole := ds.take point.toNat
        fraction := some (ds.drop point.toNat) }
  else
    let expDigits := Nat.toDigits 10 (point - 1).natAbs
    { neg := d.neg
      whole := ds.take 1
      fraction := if ds.length ≤ 1 then none else some (ds.drop 1)
      exponent := some (decide (point - 1 < 0),
        List.replicate (2 - expDigits.length) '0' ++ expDigits) }

theorem ofDecimal_text (d : Decimal) : (Numeral.ofDecimal d).text = d.repr.toList := by
  have hsign : ∀ n : Numeral, ∀ body : List Char, n.neg = d.neg → n.unsigned = body →
      n.text = (String.ofList (if d.neg then '-' :: body else body)).toList := by
    intro n body hneg hbody
    rw [Numeral.text, hneg, hbody, String.toList_ofList]
  unfold Numeral.ofDecimal Decimal.repr
  dsimp only
  split
  · split
    · apply hsign _ _ rfl
      simp [Numeral.unsigned, fractionText, exponentText]
    · split
      · apply hsign _ _ rfl
        simp [Numeral.unsigned, fractionText, exponentText]
      · apply hsign _ _ rfl
        simp [Numeral.unsigned, fractionText, exponentText]
  · apply hsign _ _ rfl
    split
    · simp [Numeral.unsigned, fractionText, exponentText]
    · simp [Numeral.unsigned, fractionText, exponentText]

theorem Digits.replicate (k : ℕ) (h : Digits ds) : Digits (List.replicate k '0' ++ ds) := by
  refine ⟨List.append_ne_nil_of_right_ne_nil _ h.1, fun c hc => ?_⟩
  rcases List.mem_append.mp hc with hc | hc
  · rw [(List.mem_replicate.mp hc).2]
    rfl
  · exact h.2 c hc

theorem Digits.take {k : ℕ} (h : Digits ds) (hk : 0 < k) : Digits (ds.take k) := by
  refine ⟨fun hnil => ?_, fun c hc => h.2 c (List.mem_of_mem_take hc)⟩
  rcases List.take_eq_nil_iff.mp hnil with hzero | hempty
  · omega
  · exact h.1 hempty

theorem Digits.drop {k : ℕ} (h : Digits ds) (hk : k < ds.length) : Digits (ds.drop k) := by
  refine ⟨fun hnil => ?_, fun c hc => h.2 c (List.mem_of_mem_drop hc)⟩
  have hle := List.drop_eq_nil_iff.mp hnil
  omega

/-- A decimal without digits is printed as zero. -/
theorem Decimal.zero_shape {d : Decimal} (h : d.digits = 0) :
    (Nat.toDigits 10 d.digits).length = 1 ∧ d.exponent = 0 := by
  rw [h, Nat.toDigits_zero]
  refine ⟨rfl, ?_⟩
  rcases d.normal with hlast | ⟨-, hexponent⟩
  · rw [h] at hlast
    exact absurd rfl hlast
  · exact hexponent

theorem ofDecimal_valid (d : Decimal) : (Numeral.ofDecimal d).Valid := by
  have hds := toDigits_digits d.digits
  have hhead := toDigits_head d.digits
  have hlength : 0 < (Nat.toDigits 10 d.digits).length := Nat.length_toDigits_pos
  have hzero := Decimal.zero_shape (d := d)
  unfold Numeral.ofDecimal
  dsimp only
  split
  · split
    · refine ⟨⟨by simp, by simp⟩, fun _ => rfl, fun ds hfraction => ?_, fun e he => by cases he⟩
      cases hfraction
      exact hds.replicate _
    · split
      next hpoint hle =>
          refine ⟨⟨?_, fun c hc => ?_⟩, fun hlead => ?_, fun ds hfraction => ?_,
            fun e he => by cases he⟩
          · exact List.append_ne_nil_of_left_ne_nil hds.1 _
          · rcases List.mem_append.mp hc with hc | hc
            · exact hds.2 c hc
            · rw [(List.mem_replicate.mp hc).2]
              rfl
          · -- a zero has no zeros after it
            rw [List.head?_append_of_ne_nil _ hds.1] at hlead
            obtain ⟨hone, hexponent⟩ := hzero (hhead hlead)
            rw [List.length_append, List.length_replicate]
            omega
          · cases hfraction
            exact ⟨by simp, by simp⟩
      next hpoint hlt =>
          have hpos : 0 < ((Nat.toDigits 10 d.digits).length + d.exponent).toNat := by omega
          refine ⟨hds.take hpos, fun hlead => ?_, fun ds hfraction => ?_, fun e he => by cases he⟩
          · rw [List.head?_take, if_neg (by omega)] at hlead
            obtain ⟨hone, hexponent⟩ := hzero (hhead hlead)
            omega
          · cases hfraction
            apply hds.drop
            omega
  · refine ⟨hds.take (by decide), fun _ => ?_, fun ds hfraction => ?_, fun e he => ?_⟩
    · rw [List.length_take]
      omega
    · split at hfraction
      · cases hfraction
      · cases hfraction
        apply hds.drop
        omega
    · cases he
      exact (toDigits_digits _).replicate _

theorem ofDigitChars_zeros (k : ℕ) (ds : List Char) :
    Nat.ofDigitChars 10 (List.replicate k '0' ++ ds) 0 = Nat.ofDigitChars 10 ds 0 := by
  rw [Nat.ofDigitChars_append, Nat.ofDigitChars_replicate_zero, Nat.mul_zero]

theorem ofDigitChars_shift (k : ℕ) (ds : List Char) :
    Nat.ofDigitChars 10 (ds ++ List.replicate k '0') 0 = Nat.ofDigitChars 10 ds 0 * 10 ^ k := by
  rw [Nat.ofDigitChars_append, Nat.ofDigitChars_replicate_zero, Nat.mul_comm]

/-- The exponent that is printed with at least two digits. -/
theorem shift_value (e : ℤ) (k : ℕ) :
    (if decide (e < 0) = true
      then -(Nat.ofDigitChars 10 (List.replicate k '0' ++ Nat.toDigits 10 e.natAbs) 0 : ℤ)
      else Nat.ofDigitChars 10 (List.replicate k '0' ++ Nat.toDigits 10 e.natAbs) 0) = e := by
  rw [ofDigitChars_zeros, Nat.ofDigitChars_ten_toDigits]
  split
  next hneg =>
      have hlt : e < 0 := of_decide_eq_true hneg
      omega
  next hneg =>
      have hle : ¬ e < 0 := fun hlt => hneg (decide_eq_true hlt)
      omega

theorem ofDecimal_value (d : Decimal) : (Numeral.ofDecimal d).value = .float (.finite d) := by
  have hdigits : Nat.ofDigitChars 10 (Nat.toDigits 10 d.digits) 0 = d.digits :=
    Nat.ofDigitChars_ten_toDigits
  have hlength : 0 < (Nat.toDigits 10 d.digits).length := Nat.length_toDigits_pos
  have hplain : Nat.ofDigitChars 10 (Nat.toDigits 10 d.digits) 0 = d.digits * 10 ^ 0 := by
    rw [hdigits, Nat.pow_zero, Nat.mul_one]
  unfold Numeral.ofDecimal
  dsimp only
  split
  · split
    · simp only [Numeral.value, Option.getD_some, Json.float.injEq, PyFloat.finite.injEq]
      have hvalue : Nat.ofDigitChars 10 (['0'] ++ (List.replicate
          (-((Nat.toDigits 10 d.digits).length + d.exponent)).toNat '0' ++
            Nat.toDigits 10 d.digits)) 0 = d.digits * 10 ^ 0 :=
        (ofDigitChars_zeros _ _).trans hplain
      rw [hvalue]
      apply Decimal.normalise_self
      intro _
      rw [List.length_append, List.length_replicate]
      omega
    · split
      next hpoint hle =>
          simp only [Numeral.value, Option.getD_some, Json.float.injEq, PyFloat.finite.injEq]
          rw [List.append_assoc, ← List.replicate_succ', ofDigitChars_shift, hdigits]
          apply Decimal.normalise_self
          intro _
          rw [List.length_singleton]
          omega
      next hpoint hlt =>
          simp only [Numeral.value, Option.getD_some, Json.float.injEq, PyFloat.finite.injEq]
          rw [List.take_append_drop, hplain]
          apply Decimal.normalise_self
          intro _
          rw [List.length_drop]
          omega
  · split
    next hone =>
        simp only [Numeral.value, Option.getD_none, Json.float.injEq, PyFloat.finite.injEq]
        rw [shift_value, List.append_nil, List.take_of_length_le hone, hplain]
        apply Decimal.normalise_self
        intro _
        rw [List.length_nil]
        omega
    next hmany =>
        simp only [Numeral.value, Option.getD_some, Json.float.injEq, PyFloat.finite.injEq]
        rw [shift_value, List.take_append_drop, hplain]
        apply Decimal.normalise_self
        intro _
        rw [List.length_drop]
        omega

end Lour.Lib.Python
