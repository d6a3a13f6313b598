import Lour.Lib.Python
/-!
# Reading JSON string literals

A reader of the text between the quotes, one character at a time, that takes
back every escape the writers of `Lour.Lib.Python` use.
-/

namespace Lour.Lib.Python.Json

def unhexDigit (c : Char) : Option ℕ :=
  let n := c.toNat
  if 48 ≤ n ∧ n ≤ 57 then some (n - 48)
  else if 97 ≤ n ∧ n ≤ 102 then some (n - 87)
  else if 65 ≤ n ∧ n ≤ 70 then some (n - 55)
  else none

def unescape (c : Char) : Option Char :=
  if c = '"' ∨ c = '\\' ∨ c = '/' then some c
  else if c = 'b' then some (Char.ofNat 0x08)
  else if c = 'f' then some (Char.ofNat 0x0c)
  else if c = 'n' then some '\n'
  else if c = 'r' then some '\r'
  else if c = 't' then some '\t'
  else none

/-- Inside a literal: between characters, after a backslash, or with hex digits
left to read. -/
inductive Reading where
  | plain
  | escaped
  | hex (left n : ℕ)

/-- The characters up to the closing quote, and the text after it. -/
def readLiteral : Reading → List Char → Option (List Char × List Char)
  | _, [] => none
  | .plain, c :: cs =>
      if c = '"' then some ([], cs)
      else if c = '\\' then readLiteral .escaped cs
      else (readLiteral .plain cs).map fun (s, rest) => (c :: s, rest)
  | .escaped, c :: cs =>
      if c = 'u' then readLiteral (.hex 4 0) cs
      else (unescape c).bind fun e =>
        (readLiteral .plain cs).map fun (s, rest) => (e :: s, rest)
  | .hex left n, c :: cs =>
      (unhexDigit c).bind fun d =>
        if left ≤ 1 then
          (readLiteral .plain cs).map fun (s, rest) => (Char.ofNat (16 * n + d) :: s, rest)
        else readLiteral (.hex (left - 1) (16 * n + d)) cs

theorem unhexDigit_hexDigit (d : ℕ) (h : d < 16) : unhexDigit (hexDigit d) = some d := by
  have hall : ∀ d < 16, unhexDigit (hexDigit d) = some d := by decide
  exact hall d h

theorem readLiteral_hexDigit (left n d : ℕ) (hd : d < 16) (cs : List Char) :
    readLiteral (.hex (left + 2) n) (hexDigit d :: cs) =
      readLiteral (.hex (left + 1) (16 * n + d)) cs := by
  rw [readLiteral, unhexDigit_hexDigit d hd]
  simp

/-- Four hex digits are the character they number. -/
theorem readLiteral_hex (n : ℕ) (hn : n < 65536) (cs : List Char) :
    readLiteral (.hex 4 0) (hex 4 n ++ cs) =
      (readLiteral .plain cs).map fun (s, rest) => (Char.ofNat n :: s, rest) := by
  have hdigits : hex 4 n ++ cs = hexDigit (n / 4096 % 16) :: hexDigit (n / 256 % 16) ::
      hexDigit (n / 16 % 16) :: hexDigit (n % 16) :: cs := by
    simp [hex, List.range_succ]
  rw [hdigits, readLiteral_hexDigit _ _ _ (by omega), readLiteral_hexDigit _ _ _ (by omega),
    readLiteral_hexDigit _ _ _ (by omega), readLiteral, unhexDigit_hexDigit _ (by omega)]
  have hvalue : 16 * (16 * (16 * (16 * 0 + n / 4096 % 16) + n / 256 % 16) + n / 16 % 16) +
      n % 16 = n := by
    omega
  simp only [Option.bind_some, Nat.zero_add, Nat.le_refl, ↓reduceIte, hvalue]

/-- The three ways a character is written. -/
inductive WrittenAs (c : Char) : List Char → Prop
  | plain (hquote : c ≠ '"') (hbackslash : c ≠ '\\') (hprintable : 0x20 ≤ c.toNat) :
      WrittenAs c [c]
  | escaped (e : Char) (hu : e ≠ 'u') (hc : unescape e = some c) : WrittenAs c ['\\', e]
  | numbered (hcontrol : c.toNat < 0x20) : WrittenAs c ('\\' :: 'u' :: hex 4 c.toNat)

theorem escapeChar_written (c : Char) : WrittenAs c (escapeChar c) := by
  by_cases hquote : c = '"'
  · subst hquote
    exact .escaped '"' (by decide) rfl
  by_cases hbackslash : c = '\\'
  · subst hbackslash
    exact .escaped '\\' (by decide) rfl
  by_cases hn : c = '\n'
  · subst hn
    exact .escaped 'n' (by decide) rfl
  by_cases hr : c = '\r'
  · subst hr
    exact .escaped 'r' (by decide) rfl
  by_cases ht : c = '\t'
  · subst ht
    exact .escaped 't' (by decide) rfl
  by_cases hb : c.toNat = 0x08
  · have hc : c = Char.ofNat 0x08 := by rw [← hb, Char.ofNat_toNat]
    subst hc
    exact .escaped 'b' (by decide) rfl
  by_cases hf : c.toNat = 0x0c
  · have hc : c = Char.ofNat 0x0c := by rw [← hf, Char.ofNat_toNat]
    subst hc
    exact .escaped 'f' (by decide) rfl
  by_cases hcontrol : c.toNat < 0x20
  · have hescape : escapeChar c = '\\' :: 'u' :: hex 4 c.toNat := by
      simp [escapeChar, *]
    rw [hescape]
    exact .numbered hcontrol
  · have hescape : escapeChar c = [c] := by
      simp [escapeChar, *]
    rw [hescape]
    exact .plain hquote hbackslash (Nat.not_lt.mp hcontrol)

/-- An escaped character is read back. -/
theorem readLiteral_escapeChar (c : Char) (cs : List Char) :
    readLiteral .plain (escapeChar c ++ cs) =
      (readLiteral .plain cs).map fun (s, rest) => (c :: s, rest) := by
  have hwritten := escapeChar_written c
  generalize escapeChar c = written at hwritten ⊢
  cases hwritten with
  | plain hquote hbackslash _ =>
      rw [List.singleton_append, readLiteral, if_neg hquote, if_neg hbackslash]
  | escaped e hu hc =>
      rw [List.cons_append, List.singleton_append, readLiteral, if_neg (by decide), if_pos rfl,
        readLiteral, if_neg hu, hc, Option.bind_some]
  | numbered hcontrol =>
      rw [List.cons_append, List.cons_append, readLiteral, if_neg (by decide), if_pos rfl,
        readLiteral, if_pos rfl, readLiteral_hex _ (by omega), Char.ofNat_toNat]

/-- A written literal is read back, whatever follows it. -/
theorem readLiteral_escaped (s rest : List Char) :
    readLiteral .plain (s.flatMap escapeChar ++ '"' :: rest) = some (s, rest) := by
  induction s with
  | nil => rfl
  | cons c s ih =>
      rw [List.flatMap_cons, List.append_assoc, readLiteral_escapeChar, ih]
      rfl

end Lour.Lib.Python.Json
