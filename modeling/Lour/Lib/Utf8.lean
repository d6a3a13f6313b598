import Mathlib.Data.List.Basic
/-!
# UTF-8, with replacement characters

Decoding reads characters as long as there are any; bytes that are no character are
replaced, and as many of them at once as could still begin one.
-/

namespace Lour.Lib.Utf8

/-- The bytes of a text. -/
def encode (cs : List Char) : List UInt8 := cs.flatMap String.utf8EncodeChar

def isContinuation (b : UInt8) : Bool := 0x80 ≤ b && b ≤ 0xBF

/-- How many bytes a character has that begins with `b`, if any does. -/
def expected (b : UInt8) : ℕ :=
  if 0xC2 ≤ b && b ≤ 0xDF then 2
  else if 0xE0 ≤ b && b ≤ 0xEF then 3
  else if 0xF0 ≤ b && b ≤ 0xF4 then 4
  else 1

/-- Whether a character may have `c` after `b`: there are no overlong forms, no surrogates,
and nothing above U+10FFFF. -/
def isSecond (b c : UInt8) : Bool :=
  if b = 0xE0 then 0xA0 ≤ c && c ≤ 0xBF
  else if b = 0xED then 0x80 ≤ c && c ≤ 0x9F
  else if b = 0xF0 then 0x90 ≤ c && c ≤ 0xBF
  else if b = 0xF4 then 0x80 ≤ c && c ≤ 0x8F
  else isContinuation c

/-- How many bytes are replaced at once where no character can be read. -/
def brokenLength : List UInt8 → ℕ
  | b :: c :: rest =>
      if 2 ≤ expected b && isSecond b c then
        2 + ((rest.take (expected b - 2)).takeWhile isContinuation).length
      else 1
  | _ => 1

theorem brokenLength_pos (bs : List UInt8) : 0 < brokenLength bs := by
  unfold brokenLength
  split
  · split
    · omega
    · exact Nat.one_pos
  · exact Nat.one_pos

def decode (bs : List UInt8) : List Char :=
  match bs with
  | [] => []
  | b :: rest =>
      match (b :: rest).toByteArray.utf8DecodeChar? 0 with
      | some c => c :: decode ((b :: rest).drop c.utf8Size)
      | none => '\uFFFD' :: decode ((b :: rest).drop (brokenLength (b :: rest)))
termination_by bs.length
decreasing_by
  · have hpos := c.utf8Size_pos
    rw [List.length_drop, List.length_cons]
    omega
  · have hpos := brokenLength_pos (b :: rest)
    rw [List.length_drop, List.length_cons]
    omega

theorem encode_append (cs ds : List Char) : encode (cs ++ ds) = encode cs ++ encode ds :=
  List.flatMap_append

theorem decode_nil : decode [] = [] := by
  rw [decode]

theorem decode_cons (c : Char) (bs : List UInt8) :
    decode (String.utf8EncodeChar c ++ bs) = c :: decode bs := by
  have hlength := String.length_utf8EncodeChar c
  have hne : String.utf8EncodeChar c ++ bs ≠ [] := by
    intro hnil
    have hempty : (String.utf8EncodeChar c).length = 0 := by
      rw [(List.append_eq_nil_iff.mp hnil).1, List.length_nil]
    have hpos := c.utf8Size_pos
    omega
  have hread : (String.utf8EncodeChar c ++ bs).toByteArray.utf8DecodeChar? 0 = some c := by
    rw [List.toByteArray_append]
    exact ByteArray.utf8DecodeChar?_utf8EncodeChar_append
  have hdrop : (String.utf8EncodeChar c ++ bs).drop c.utf8Size = bs := by
    rw [← hlength]
    exact List.drop_left
  generalize String.utf8EncodeChar c ++ bs = all at *
  cases all with
  | nil => exact absurd rfl hne
  | cons b rest =>
      rw [decode, hread]
      exact congrArg (c :: decode ·) hdrop

/-- A text at the front is read as it is. -/
theorem decode_encode_append (cs : List Char) (bs : List UInt8) :
    decode (encode cs ++ bs) = cs ++ decode bs := by
  induction cs with
  | nil => rfl
  | cons c cs ih =>
      calc decode (encode (c :: cs) ++ bs)
          = decode (String.utf8EncodeChar c ++ (encode cs ++ bs)) := by
            rw [encode, List.flatMap_cons, List.append_assoc, encode]
        _ = c :: decode (encode cs ++ bs) := decode_cons c _
        _ = c :: cs ++ decode bs := by rw [ih, List.cons_append]

theorem decode_encode (cs : List Char) : decode (encode cs) = cs := by
  have h := decode_encode_append cs []
  rwa [List.append_nil, decode_nil, List.append_nil] at h

/-- The slice between two positions that have whole texts before, between and behind them. -/
theorem slice_encode (front middle back : List Char) :
    ((encode (front ++ middle ++ back)).drop (encode front).length).take
        ((encode (front ++ middle)).length - (encode front).length) = encode middle := by
  rw [List.append_assoc, encode_append, encode_append, encode_append, List.drop_left,
    List.length_append, Nat.add_sub_cancel_left, List.take_left]

end Lour.Lib.Utf8
