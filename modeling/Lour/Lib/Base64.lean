import Mathlib.Data.List.Basic
/-!
# Base64

Three bytes are written as four digits of six bits; where the last group has fewer bytes it
is filled up with `=`.
-/

namespace Lour.Lib.Base64

/-- The digits by their value. -/
def alphabet : List Char :=
  "ABCDEFGHIJKLMNOPQRSTUVWXYZabcdefghijklmnopqrstuvwxyz0123456789+/".toList

def digit (n : ℕ) : Char := alphabet.getD n '='

def value (c : Char) : Option ℕ := alphabet.findIdx? (· == c)

def encode : List UInt8 → List Char
  | [] => []
  | [a] => [digit (a.toNat / 4), digit (a.toNat % 4 * 16), '=', '=']
  | [a, b] =>
      [digit (a.toNat / 4), digit (a.toNat % 4 * 16 + b.toNat / 16), digit (b.toNat % 16 * 4), '=']
  | a :: b :: c :: rest =>
      digit (a.toNat / 4) :: digit (a.toNat % 4 * 16 + b.toNat / 16) ::
        digit (b.toNat % 16 * 4 + c.toNat / 64) :: digit (c.toNat % 64) :: encode rest

/-- The bytes of one group of digits. -/
def first (w x : ℕ) : UInt8 := UInt8.ofNat (w * 4 + x / 16)

def second (x y : ℕ) : UInt8 := UInt8.ofNat (x % 16 * 16 + y / 4)

def third (y z : ℕ) : UInt8 := UInt8.ofNat (y % 4 * 64 + z)

/-- Read whole groups, the last one filled up. -/
def decode : List Char → Option (List UInt8)
  | [] => some []
  | [w, x, '=', '='] => do
      let w ← value w
      let x ← value x
      some [first w x]
  | [w, x, y, '='] => do
      let w ← value w
      let x ← value x
      let y ← value y
      some [first w x, second x y]
  | w :: x :: y :: z :: rest => do
      let w ← value w
      let x ← value x
      let y ← value y
      let z ← value z
      let rest ← decode rest
      some (first w x :: second x y :: third y z :: rest)
  | _ => none

theorem value_digit : ∀ n < 64, value (digit n) = some n := by decide +kernel

theorem digit_mem : ∀ n < 64, digit n ∈ alphabet := by decide +kernel

theorem digit_ne_fill : ∀ n < 64, digit n ≠ '=' := by decide +kernel

section Groups

variable (a b c : UInt8)

theorem digits_lt :
    a.toNat / 4 < 64 ∧ a.toNat % 4 * 16 + b.toNat / 16 < 64 ∧
      b.toNat % 16 * 4 + c.toNat / 64 < 64 ∧ c.toNat % 64 < 64 := by
  have ha := a.toNat_lt
  have hb := b.toNat_lt
  have hc := c.toNat_lt
  omega

theorem first_digits : first (a.toNat / 4) (a.toNat % 4 * 16 + b.toNat / 16) = a := by
  have hb := b.toNat_lt
  have hsum : a.toNat / 4 * 4 + (a.toNat % 4 * 16 + b.toNat / 16) / 16 = a.toNat := by omega
  rw [first, hsum, UInt8.ofNat_toNat]

theorem second_digits :
    second (a.toNat % 4 * 16 + b.toNat / 16) (b.toNat % 16 * 4 + c.toNat / 64) = b := by
  have hb := b.toNat_lt
  have hc := c.toNat_lt
  have hsum : (a.toNat % 4 * 16 + b.toNat / 16) % 16 * 16 +
      (b.toNat % 16 * 4 + c.toNat / 64) / 4 = b.toNat := by omega
  rw [second, hsum, UInt8.ofNat_toNat]

theorem third_digits : third (b.toNat % 16 * 4 + c.toNat / 64) (c.toNat % 64) = c := by
  have hc := c.toNat_lt
  have hsum : (b.toNat % 16 * 4 + c.toNat / 64) % 4 * 64 + c.toNat % 64 = c.toNat := by omega
  rw [third, hsum, UInt8.ofNat_toNat]

end Groups

/-- What was encoded is read back. -/
theorem decode_encode (bs : List UInt8) : decode (encode bs) = some bs := by
  fun_induction encode bs with
  | case1 => rfl
  | case2 a =>
      obtain ⟨hw, hx, -, -⟩ := digits_lt a 0 0
      have hfirst := first_digits a 0
      simp only [UInt8.toNat_zero, Nat.zero_div, Nat.add_zero] at hx hfirst
      rw [decode, value_digit _ hw, value_digit _ hx]
      simp [hfirst]
  | case3 a b =>
      obtain ⟨hw, hx, hy, -⟩ := digits_lt a b 0
      have hfirst := first_digits a b
      have hsecond := second_digits a b 0
      simp only [UInt8.toNat_zero, Nat.zero_div, Nat.add_zero] at hy hsecond
      rw [decode, value_digit _ hw, value_digit _ hx, value_digit _ hy]
      · simp [hfirst, hsecond]
      · exact fun h => absurd h (digit_ne_fill _ hy)
  | case4 a b c rest ih =>
      obtain ⟨hw, hx, hy, hz⟩ := digits_lt a b c
      rw [decode, value_digit _ hw, value_digit _ hx, value_digit _ hy, value_digit _ hz, ih]
      · simp [first_digits, second_digits, third_digits]
      · intro _ h
        exact absurd h (digit_ne_fill _ hz)
      · intro h
        exact absurd h (digit_ne_fill _ hz)

/-- Only digits and fillers are written. -/
theorem mem_encode {bs : List UInt8} {ch : Char} (h : ch ∈ encode bs) : ch ∈ '=' :: alphabet := by
  have hdigit : ∀ n < 64, digit n ∈ '=' :: alphabet := fun n hn =>
    List.mem_cons_of_mem _ (digit_mem n hn)
  have hfill : '=' ∈ '=' :: alphabet := List.mem_cons_self ..
  fun_induction encode bs with
  | case1 => cases h
  | case2 a =>
      obtain ⟨hw, hx, -, -⟩ := digits_lt a 0 0
      simp only [List.mem_cons, List.not_mem_nil, or_false] at h
      rcases h with rfl | rfl | rfl | rfl
      · exact hdigit _ hw
      · exact hdigit _ hx
      · exact hfill
      · exact hfill
  | case3 a b =>
      obtain ⟨hw, hx, hy, -⟩ := digits_lt a b 0
      simp only [List.mem_cons, List.not_mem_nil, or_false] at h
      rcases h with rfl | rfl | rfl | rfl
      · exact hdigit _ hw
      · exact hdigit _ hx
      · exact hdigit _ hy
      · exact hfill
  | case4 a b c rest ih =>
      obtain ⟨hw, hx, hy, hz⟩ := digits_lt a b c
      simp only [List.mem_cons] at h
      rcases h with rfl | rfl | rfl | rfl | h
      · exact hdigit _ hw
      · exact hdigit _ hx
      · exact hdigit _ hy
      · exact hdigit _ hz
      · exact ih h

end Lour.Lib.Base64
