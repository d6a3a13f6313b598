import Lour.Lib.Doubles
/-!
# Conversions between built-in types

`str`, `int`, `float` and `bool` of what `json.loads` returns.
-/

namespace Lour.Lib.Python

namespace Json

mutual

/-- `repr(x)`. -/
def repr : Json → String
  | .null => "None"
  | .bool true => "True"
  | .bool false => "False"
  | .int i => toString i
  | .float x => x.str
  | .str s => pyRepr s
  | .arr xs => "[" ++ ", ".intercalate (reprItems xs) ++ "]"
  | .obj entries => "\x7b" ++ ", ".intercalate (reprEntries entries) ++ "\x7d"

def reprItems : List Json → List String
  | [] => []
  | x :: xs => repr x :: reprItems xs

def reprEntries : List (String × Json) → List String
  | [] => []
  | (key, x) :: rest => (pyRepr key ++ ": " ++ repr x) :: reprEntries rest

end

/-- `str(x)`. -/
def toStr : Json → String
  | .str s => s
  | x => x.repr

end Json

/-- What a conversion raises. -/
inductive PyError where
  | valueError
  | typeError
  | overflowError
  deriving DecidableEq

/-! ## Numbers in strings -/

/-- The zeros of the decimal digits of Unicode, each followed by its other nine. -/
def decimalZeros : List ℕ :=
  [0x30, 0x660, 0x6f0, 0x7c0, 0x966, 0x9e6, 0xa66, 0xae6, 0xb66, 0xbe6, 0xc66, 0xce6, 0xd66,
   0xde6, 0xe50, 0xed0, 0xf20, 0x1040, 0x1090, 0x17e0, 0x1810, 0x1946, 0x19d0, 0x1a80, 0x1a90,
   0x1b50, 0x1bb0, 0x1c40, 0x1c50, 0xa620, 0xa8d0, 0xa900, 0xa9d0, 0xa9f0, 0xaa50, 0xabf0,
   0xff10, 0x104a0, 0x10d30, 0x11066, 0x110f0, 0x11136, 0x111d0, 0x112f0, 0x11450, 0x114d0,
   0x11650, 0x116c0, 0x11730, 0x118e0, 0x11950, 0x11c50, 0x11d50, 0x11da0, 0x11f50, 0x16a60,
   0x16ac0, 0x16b50, 0x1d7ce, 0x1d7d8, 0x1d7e2, 0x1d7ec, 0x1d7f6, 0x1e140, 0x1e2f0, 0x1e4f0,
   0x1e950, 0x1fbf0]

/-- The value of a decimal digit of any script. -/
def decimalValue (c : Char) : Option ℕ :=
  (decimalZeros.find? fun first => first ≤ c.toNat && c.toNat < first + 10).map (c.toNat - ·)

/-- What `int` and `float` read of a string: in a string that is not ASCII, other
digits and other whitespace become those of ASCII. -/
def toAscii (cs : List Char) : List Char :=
  if cs.all fun c => c.toNat < 128 then cs
  else cs.map fun c =>
    if c.toNat < 127 then c
    else if isSpace c then ' '
    else match decimalValue c with
      | some n => Char.ofNat (48 + n)
      | none => '?'

def isAsciiSpace (c : Char) : Bool := (0x09 ≤ c.toNat && c.toNat ≤ 0x0d) || c == ' '

def stripAscii (cs : List Char) : List Char :=
  (cs.dropWhile isAsciiSpace).rdropWhile isAsciiSpace

/-- The text without its underscores, which stand between digits only. -/
def dropUnderscores (prev : Char) : List Char → Option (List Char)
  | [] => if prev = '_' then none else some []
  | c :: cs =>
      if c = '_' then
        if prev.isDigit then dropUnderscores '_' cs else none
      else if prev = '_' ∧ ¬ c.isDigit then none
      else (dropUnderscores c cs).map (c :: ·)

def readSign : List Char → Bool × List Char
  | '-' :: cs => (true, cs)
  | '+' :: cs => (false, cs)
  | cs => (false, cs)

/-- The most digits an integer may have in a string. -/
def maxStrDigits : ℕ := 4300

/-- `int(s)`. -/
def intOfStr (s : String) : Except PyError ℤ :=
  let (neg, cs) := readSign (stripAscii (toAscii s.toList))
  match dropUnderscores '+' cs with
  | none => .error .valueError
  | some ds =>
      if ds ≠ [] ∧ ds.all Char.isDigit ∧ ds.length ≤ maxStrDigits then
        let n := Nat.ofDigitChars 10 ds 0
        .ok (if neg then -(n : ℤ) else n)
      else .error .valueError

/-- The digits before and after the point, at least one of them, and the exponent. -/
def readFloat (cs : List Char) : Option (ℕ × ℤ) :=
  let whole := cs.takeWhile Char.isDigit
  let (fraction, rest) :=
    match cs.dropWhile Char.isDigit with
    | '.' :: ds => (ds.takeWhile Char.isDigit, ds.dropWhile Char.isDigit)
    | ds => ([], ds)
  if whole = [] ∧ fraction = [] then none
  else
    (readExponent rest).map fun exponent =>
      let shift : ℤ :=
        match exponent with
        | some (neg, ds) =>
            if neg then -(Nat.ofDigitChars 10 ds 0 : ℤ) else Nat.ofDigitChars 10 ds 0
        | none => 0
      (Nat.ofDigitChars 10 (whole ++ fraction) 0, shift - fraction.length)

/-- `float(s)`. -/
def floatOfStr (s : String) : Except PyError PyFloat :=
  match dropUnderscores '+' (stripAscii (toAscii s.toList)) with
  | none => .error .valueError
  | some text =>
      let (neg, cs) := readSign text
      let word := String.ofList (cs.map Char.toLower)
      if word = "inf" ∨ word = "infinity" then .ok (.inf neg)
      else if word = "nan" then .ok .nan
      else
        match readFloat cs with
        | some (digits, exponent) => .ok (.ofRat neg (digits * (10 : ℚ) ^ exponent))
        | none => .error .valueError

/-! ## The built-in types -/

/-- `int(x)`. -/
def intOfFloat : PyFloat → Except PyError ℤ
  | .finite d => .ok d.truncate
  | .inf _ => .error .overflowError
  | .nan => .error .valueError

/-- `float(i)`. -/
def floatOfInt (i : ℤ) : Except PyError PyFloat :=
  match PyFloat.ofRat (i < 0) i.natAbs with
  | .inf _ => .error .overflowError
  | x => .ok x

namespace Json

mutual

/-- No integer in it is too long for a string. -/
def printable : Json → Bool
  | .int i => i.natAbs < 10 ^ maxStrDigits
  | .arr xs => printableItems xs
  | .obj entries => printableEntries entries
  | _ => true

def printableItems : List Json → Bool
  | [] => true
  | x :: xs => printable x && printableItems xs

def printableEntries : List (String × Json) → Bool
  | [] => true
  | (_, x) :: rest => printable x && printableEntries rest

end

/-- `str(x)`, which raises where an integer has too many digits. -/
def str? (x : Json) : Except PyError String :=
  if x.printable then .ok x.toStr else .error .valueError

/-- `int(x)`. -/
def toInt : Json → Except PyError ℤ
  | .bool b => .ok (if b then 1 else 0)
  | .int i => .ok i
  | .float x => intOfFloat x
  | .str s => intOfStr s
  | _ => .error .typeError

/-- `float(x)`. -/
def toFloat : Json → Except PyError PyFloat
  | .bool b => floatOfInt (if b then 1 else 0)
  | .int i => floatOfInt i
  | .float x => .ok x
  | .str s => floatOfStr s
  | _ => .error .typeError

end Json

/-! ## Values of other types -/

/-- An object of a type that JSON has not, such as a date, by what the built-in types
make of it. -/
structure Foreign where
  str : Except PyError String
  repr : String
  int : Except PyError ℤ
  float : Except PyError PyFloat
  truthy : Bool

inductive Value where
  | json (x : Json)
  | foreign (x : Foreign)

namespace Value

/-- `x is None`. -/
def isNone : Value → Bool
  | .json .null => true
  | _ => false

/-- `str(x)`. -/
def str : Value → Except PyError String
  | .json x => x.str?
  | .foreign x => x.str

/-- `repr(x)` where `str(x)` does not raise. -/
def repr : Value → String
  | .json x => x.repr
  | .foreign x => x.repr

/-- `int(x)`. -/
def int : Value → Except PyError ℤ
  | .json x => x.toInt
  | .foreign x => x.int

/-- `float(x)`. -/
def float : Value → Except PyError PyFloat
  | .json x => x.toFloat
  | .foreign x => x.float

/-- `bool(x)`. -/
def truthy : Value → Bool
  | .json x => x.truthy
  | .foreign x => x.truthy

end Value

end Lour.Lib.Python
