import Mathlib.Data.Rat.Defs
import Mathlib.Data.List.DropRight
import Mathlib.Data.List.Sort
import Mathlib.Data.String.Basic
/-!
# The Python values a service passes around

Strings with `str.strip` and `repr`, floats as the decimals `repr` prints, and
JSON values with truthiness, `dict.get` and `json.dumps`.
-/

namespace Lour.Lib.Python

/-! ## Text -/

/-- `str.isspace` on one character. -/
def isSpace (c : Char) : Bool :=
  let n := c.toNat
  (0x09 ≤ n && n ≤ 0x0d) || (0x1c ≤ n && n ≤ 0x20) || n == 0x85 || n == 0xa0 || n == 0x1680 ||
    (0x2000 ≤ n && n ≤ 0x200a) || n == 0x2028 || n == 0x2029 || n == 0x202f || n == 0x205f ||
    n == 0x3000

def stripChars (cs : List Char) : List Char :=
  (cs.dropWhile isSpace).rdropWhile isSpace

/-- `str.strip` without arguments. -/
def strip (s : String) : String := String.ofList (stripChars s.toList)

/-- `not s.strip()`: the text has no character but whitespace. -/
def isBlank (s : String) : Bool := s.toList.all isSpace

/-- `s.encode()`. -/
def encode (s : String) : ByteArray := s.toUTF8

/-- `raw.decode()`; `none` where the bytes are not UTF-8. -/
def decode (raw : ByteArray) : Option String := String.fromUTF8? raw

@[simp] theorem decode_encode (s : String) : decode (encode s) = some s := by
  rw [decode, encode, String.fromUTF8?, String.toUTF8, dif_pos s.isValidUTF8]
  rfl

def lowerAscii (s : String) : String := String.ofList (s.toList.map Char.toLower)

/-- `str.lower` on one character.  What is outside ASCII stays there, but for the
Kelvin sign and the dotted capital I. -/
def lowerChar (c : Char) : List Char :=
  if c.toNat = 0x212a then ['k']
  else if c.toNat = 0x130 then ['i', Char.ofNat 0x307]
  else [c.toLower]

/-- `s[:n]` for a non-negative `n`. -/
def slice (n : Nat) (s : String) : String := String.ofList (s.toList.take n)

def hexDigit (n : Nat) : Char :=
  if n < 10 then Char.ofNat (48 + n) else Char.ofNat (87 + n)

def hex (width n : Nat) : List Char :=
  (List.range width).reverse.map fun i => hexDigit (n / 16 ^ i % 16)

/-- The control, format, private and blank characters beyond ASCII, from the first to the
last of each run. -/
def unprintable : List (Nat × Nat) :=
  [(0x80, 0xa0), (0xad, 0xad), (0x600, 0x605), (0x61c, 0x61c), (0x6dd, 0x6dd), (0x70f, 0x70f),
    (0x890, 0x891), (0x8e2, 0x8e2), (0x1680, 0x1680), (0x180e, 0x180e), (0x2000, 0x200f),
    (0x2028, 0x202f), (0x205f, 0x2064), (0x2066, 0x206f), (0x3000, 0x3000), (0xe000, 0xf8ff),
    (0xfeff, 0xfeff), (0xfff9, 0xfffb), (0x110bd, 0x110bd), (0x110cd, 0x110cd),
    (0x13430, 0x1343f), (0x1bca0, 0x1bca3), (0x1d173, 0x1d17a), (0xe0001, 0xe0001),
    (0xe0020, 0xe007f), (0xf0000, 0xffffd), (0x100000, 0x10fffd)]

/-- `c.isprintable()`.  Code points that no character has yet, which differ from one version
to the next, are taken for printable. -/
def isPrintable (c : Char) : Bool :=
  if c.toNat < 0x80 then 0x20 ≤ c.toNat && c.toNat != 0x7f
  else !unprintable.any fun run => run.1 ≤ c.toNat && c.toNat ≤ run.2

/-- One character of `repr(s)` between the quotes `q`. -/
def reprChar (q c : Char) : List Char :=
  if c == q || c == '\\' then ['\\', c]
  else if c == '\n' then ['\\', 'n']
  else if c == '\r' then ['\\', 'r']
  else if c == '\t' then ['\\', 't']
  else if isPrintable c then [c]
  else if c.toNat < 0x100 then '\\' :: 'x' :: hex 2 c.toNat
  else if c.toNat < 0x10000 then '\\' :: 'u' :: hex 4 c.toNat
  else '\\' :: 'U' :: hex 8 c.toNat

/-- `repr(s)`: single quotes, unless the text has one and no double quote. -/
def pyRepr (s : String) : String :=
  let q := if s.toList.contains '\'' && !s.toList.contains '"' then '"' else '\''
  String.ofList (q :: s.toList.flatMap (reprChar q) ++ [q])

/-- `repr` of a list of strings. -/
def pyReprList (xs : List String) : String :=
  "[" ++ ", ".intercalate (xs.map pyRepr) ++ "]"

theorem stripChars_eq_nil_iff {cs : List Char} :
    stripChars cs = [] ↔ ∀ c ∈ cs, isSpace c = true := by
  rw [stripChars, List.rdropWhile_eq_nil_iff]
  constructor
  · intro h
    by_contra hne
    push Not at hne
    obtain ⟨c, hc, hsp⟩ := hne
    have hdrop : cs.dropWhile isSpace ≠ [] := by
      rw [Ne, List.dropWhile_eq_nil_iff]
      intro hall
      apply hsp
      exact hall c hc
    have hhead := List.head_dropWhile_not isSpace hdrop
    exact absurd (h _ (List.head_mem hdrop)) (by simp [hhead])
  · intro h c hc
    exact h c (List.dropWhile_subset _ hc)

/-- Where something is left, stripping leaves a visible last character. -/
theorem stripChars_last {cs : List Char} (h : stripChars cs ≠ []) :
    isSpace ((stripChars cs).getLast h) = false :=
  Bool.eq_false_of_not_eq_true (List.rdropWhile_last_not isSpace _ h)

theorem stripChars_isInfix (cs : List Char) : stripChars cs <:+: cs :=
  (List.rdropWhile_prefix isSpace _).isInfix.trans (List.dropWhile_suffix isSpace).isInfix

/-- Whitespace before the text makes no difference. -/
theorem stripChars_append_left {blank : List Char} (h : ∀ c ∈ blank, isSpace c = true)
    (cs : List Char) : stripChars (blank ++ cs) = stripChars cs := by
  rw [stripChars, List.dropWhile_append_of_pos h, stripChars]

theorem rdropWhile_append_of_not {α : Type} {p : α → Bool} {x : α} (hx : p x = false)
    (before after : List α) :
    (before ++ x :: after).rdropWhile p = before ++ x :: after.rdropWhile p := by
  induction after using List.reverseRecOn with
  | nil =>
      rw [List.rdropWhile_nil, List.rdropWhile_concat_neg p before x (by simp [hx])]
  | append_singleton after y ih =>
      have hassoc : before ++ x :: (after ++ [y]) = (before ++ x :: after) ++ [y] := by simp
      by_cases hy : p y = true
      · rw [hassoc, List.rdropWhile_concat_pos p _ y hy, ih, List.rdropWhile_concat_pos p _ y hy]
      · rw [hassoc, List.rdropWhile_concat_neg p _ y hy, List.rdropWhile_concat_neg p _ y hy]
        simp

/-- Whitespace behind the text makes no difference either. -/
theorem stripChars_rdropWhile (cs : List Char) :
    stripChars (cs.rdropWhile isSpace) = stripChars cs := by
  have hsplit : cs.takeWhile isSpace ++ cs.dropWhile isSpace = cs :=
    List.takeWhile_append_dropWhile
  have hblank : ∀ c ∈ cs.takeWhile isSpace, isSpace c = true :=
    fun c hc => List.mem_takeWhile_imp hc
  cases hrest : cs.dropWhile isSpace with
  | nil =>
      rw [hrest, List.append_nil] at hsplit
      rw [hsplit] at hblank
      rw [stripChars_eq_nil_iff.mpr hblank, List.rdropWhile_eq_nil_iff.mpr hblank]
      rfl
  | cons d rest =>
      have hd : isSpace d = false := by
        have hhead := List.head?_dropWhile_not isSpace cs
        rw [hrest] at hhead
        exact hhead
      rw [hrest] at hsplit
      have hfront : ∀ l, (d :: l).dropWhile isSpace = d :: l :=
        fun l => List.dropWhile_cons_of_neg (by rw [hd]; exact Bool.false_ne_true)
      have hkeeps : (d :: rest).rdropWhile isSpace = d :: rest.rdropWhile isSpace :=
        rdropWhile_append_of_not hd [] rest
      rw [← hsplit, rdropWhile_append_of_not hd, stripChars_append_left hblank,
        stripChars_append_left hblank, stripChars, stripChars, hfront, hfront, ← hkeeps]
      exact List.rdropWhile_idempotent isSpace _

theorem stripChars_stripChars (cs : List Char) : stripChars (stripChars cs) = stripChars cs := by
  have hfront : (stripChars cs).dropWhile isSpace = stripChars cs := by
    rw [List.dropWhile_eq_self_iff]
    intro hlength
    have hstart : stripChars cs <+: cs.dropWhile isSpace := List.rdropWhile_prefix isSpace _
    have hne : cs.dropWhile isSpace ≠ [] := by
      intro hnil
      rw [hnil, List.prefix_nil] at hstart
      rw [hstart] at hlength
      exact absurd hlength (Nat.lt_irrefl 0)
    have hhead := List.head_dropWhile_not isSpace hne
    have hsame : (stripChars cs)[0] = (cs.dropWhile isSpace).head hne := by
      rw [hstart.getElem hlength, List.head_eq_getElem]
    rw [hsame, hhead]
    exact Bool.false_ne_true
  rw [stripChars, hfront]
  exact List.rdropWhile_idempotent isSpace _

/-- Stripping takes nothing off a text that ends the whole and has no whitespace at its
ends. -/
theorem suffix_stripChars {first last : Char} (hfirst : isSpace first = false)
    (hlast : isSpace last = false) (front middle : List Char) :
    first :: middle ++ [last] <:+ stripChars (front ++ (first :: middle ++ [last])) := by
  have hdrop : first :: middle ++ [last] <:+
      (front ++ (first :: middle ++ [last])).dropWhile isSpace := by
    induction front with
    | nil =>
        have hstop : (first :: (middle ++ [last])).dropWhile isSpace =
            first :: (middle ++ [last]) := List.dropWhile_cons_of_neg (by simp [hfirst])
        exact hstop.symm ▸ List.suffix_refl (first :: (middle ++ [last]))
    | cons c front ih =>
        have hcons : c :: front ++ (first :: middle ++ [last]) =
            c :: (front ++ (first :: middle ++ [last])) := rfl
        rw [hcons, List.dropWhile_cons]
        split
        · exact ih
        · exact List.suffix_append (c :: front) _
  obtain ⟨before, hbefore⟩ := hdrop
  have hend : (front ++ (first :: middle ++ [last])).dropWhile isSpace =
      before ++ first :: middle ++ [last] := by
    rw [← hbefore, List.append_assoc]
  rw [stripChars, hend, List.rdropWhile_concat_neg _ _ _ (by simp [hlast]), List.append_assoc]
  exact List.suffix_append before _

@[simp] theorem strip_strip (s : String) : strip (strip s) = strip s := by
  rw [strip, strip, String.toList_ofList, stripChars_stripChars]

theorem strip_eq_empty_iff (s : String) : strip s = "" ↔ isBlank s = true := by
  rw [isBlank, List.all_eq_true, ← stripChars_eq_nil_iff, strip]
  constructor
  · intro h
    simpa using congrArg String.toList h
  · intro h
    rw [h]

/-! ## Floats -/

/-- A finite float, as the shortest decimal that denotes it: `digits` has no
trailing zero. -/
structure Decimal where
  neg : Bool
  digits : Nat
  exponent : Int
  normal : digits % 10 ≠ 0 ∨ digits = 0 ∧ exponent = 0
  deriving DecidableEq

namespace Decimal

def abs (d : Decimal) : Rat := d.digits * (10 : Rat) ^ d.exponent

def toRat (d : Decimal) : Rat := if d.neg then -d.abs else d.abs

/-- `repr` of a finite float: positional between `1e-4` and `1e16`, otherwise
with an exponent of at least two digits. -/
def repr (d : Decimal) : String :=
  let ds := Nat.toDigits 10 d.digits
  let point := (ds.length : Int) + d.exponent
  let body : List Char :=
    if -4 < point ∧ point ≤ 16 then
      if point ≤ 0 then '0' :: '.' :: List.replicate (-point).toNat '0' ++ ds
      else if (ds.length : Int) ≤ point then
        ds ++ List.replicate (point - ds.length).toNat '0' ++ ['.', '0']
      else ds.take point.toNat ++ '.' :: ds.drop point.toNat
    else
      let exp := point - 1
      let expDigits := Nat.toDigits 10 exp.natAbs
      let frac := if ds.length ≤ 1 then [] else '.' :: ds.drop 1
      ds.take 1 ++ frac ++ 'e' :: (if exp < 0 then '-' else '+') ::
        List.replicate (2 - expDigits.length) '0' ++ expDigits
  String.ofList (if d.neg then '-' :: body else body)

end Decimal

inductive PyFloat where
  | finite (d : Decimal)
  | inf (neg : Bool)
  | nan
  deriving DecidableEq

namespace PyFloat

/-- `a <= b`; every comparison with a NaN is false. -/
def le : PyFloat → PyFloat → Bool
  | .nan, _ => false
  | _, .nan => false
  | .inf true, _ => true
  | _, .inf false => true
  | .finite a, .finite b => decide (a.toRat ≤ b.toRat)
  | .finite _, .inf true => false
  | .inf false, .finite _ => false
  | .inf false, .inf true => false

/-- `q >= x` for a finite `q`. -/
def leRat (x : PyFloat) (q : Rat) : Bool :=
  match x with
  | .nan => false
  | .inf neg => neg
  | .finite d => decide (d.toRat ≤ q)

/-- `q < x` for a finite `q`. -/
def gtRat (x : PyFloat) (q : Rat) : Bool :=
  match x with
  | .nan => false
  | .inf neg => !neg
  | .finite d => decide (q < d.toRat)

/-- `a < b`; every comparison with a NaN is false. -/
def lt : PyFloat → PyFloat → Bool
  | .nan, _ => false
  | _, .nan => false
  | .inf true, .inf true => false
  | .inf true, _ => true
  | .inf false, _ => false
  | .finite _, .inf neg => !neg
  | .finite a, .finite b => decide (a.toRat < b.toRat)

/-- `min(a, b)`: the first argument unless the second is smaller. -/
def min (a b : PyFloat) : PyFloat := if b.lt a then b else a

def zero : PyFloat := .finite ⟨false, 0, 0, .inr ⟨rfl, rfl⟩⟩

/-- `bool(x)`: everything but a zero. -/
def truthy : PyFloat → Bool
  | .finite d => d.digits != 0
  | _ => true

/-- `str(x)`. -/
def str : PyFloat → String
  | .finite d => d.repr
  | .inf true => "-inf"
  | .inf false => "inf"
  | .nan => "nan"

/-- How `json.dumps` writes a float. -/
def toJson : PyFloat → String
  | .finite d => d.repr
  | .inf true => "-Infinity"
  | .inf false => "Infinity"
  | .nan => "NaN"

theorem leRat_mono {x : PyFloat} {q r : Rat} (h : x.leRat q = true) (hqr : q ≤ r) :
    x.leRat r = true := by
  cases x with
  | nan => cases h
  | inf neg => exact h
  | finite d =>
      have hle : d.toRat ≤ q := of_decide_eq_true h
      exact decide_eq_true (Rat.le_trans hle hqr)

/-- A float that some number reaches is not a NaN, so it is above the numbers that
do not reach it. -/
theorem gtRat_of_not_leRat {x : PyFloat} {q r : Rat} (h : x.leRat q = true)
    (hr : x.leRat r = false) : x.gtRat r = true := by
  cases x with
  | nan => cases h
  | inf neg =>
      have hneg : neg = false := hr
      subst hneg
      rfl
  | finite d =>
      have hle : ¬ d.toRat ≤ r := of_decide_eq_false hr
      exact decide_eq_true (Rat.not_le.mp hle)

end PyFloat

/-! ## JSON values -/

/-- What `json.loads` returns; an object keeps its insertion order. -/
inductive Json where
  | null
  | bool (b : Bool)
  | int (i : Int)
  | float (x : PyFloat)
  | str (s : String)
  | arr (xs : List Json)
  | obj (entries : List (String × Json))

theorem find?_of_nodup {α : Type} {f : α → String} {xs : List α} (h : (xs.map f).Nodup) {a : α}
    (ha : a ∈ xs) : xs.find? (fun x => f x == f a) = some a := by
  cases hfound : xs.find? fun x => f x == f a with
  | none => exact absurd (List.find?_eq_none.mp hfound a ha) (by simp)
  | some b =>
      have hname := List.find?_some hfound
      have hmem := List.mem_of_find?_eq_some hfound
      rw [List.inj_on_of_nodup_map h hmem ha (beq_iff_eq.mp hname)]

/-- A `dict` with string keys. -/
abbrev Dict := List (String × Json)

namespace Dict

/-- `d.get(key)`. -/
def get? (d : Dict) (key : String) : Option Json := (d.find? fun e => e.1 == key).map (·.2)

theorem mem_of_get? {l : Dict} {key : String} {x : Json} (h : get? l key = some x) :
    (key, x) ∈ l := by
  obtain ⟨e, he, rfl⟩ := Option.map_eq_some_iff.mp h
  have hkey := List.find?_some he
  rw [← beq_iff_eq.mp hkey]
  exact List.mem_of_find?_eq_some he

theorem get?_of_mem {d : Dict} (hkeys : (d.map Prod.fst).Nodup) {e : String × Json} (he : e ∈ d) :
    d.get? e.1 = some e.2 := by
  rw [get?, find?_of_nodup hkeys he]
  rfl

end Dict

namespace Json

/-- `bool(x)`. -/
def truthy : Json → Bool
  | .null => false
  | .bool b => b
  | .int i => i != 0
  | .float x => x.truthy
  | .str s => s != ""
  | .arr xs => !xs.isEmpty
  | .obj entries => !entries.isEmpty

/-- `x if isinstance(x, dict) else {}`. -/
def asDict : Json → Dict
  | .obj entries => entries
  | _ => []

def isDict : Json → Bool
  | .obj _ => true
  | _ => false

/-- One character of a JSON string literal with `ensure_ascii=False`. -/
def escapeChar (c : Char) : List Char :=
  if c == '"' || c == '\\' then ['\\', c]
  else if c == '\n' then ['\\', 'n']
  else if c == '\r' then ['\\', 'r']
  else if c == '\t' then ['\\', 't']
  else if c.toNat == 0x08 then ['\\', 'b']
  else if c.toNat == 0x0c then ['\\', 'f']
  else if c.toNat < 0x20 then '\\' :: 'u' :: hex 4 c.toNat
  else [c]

/-- One character of a JSON string literal with `ensure_ascii=True`: a surrogate
pair beyond the basic plane. -/
def escapeAscii (c : Char) : List Char :=
  let n := c.toNat
  if n < 0x7f then escapeChar c
  else if n < 0x10000 then '\\' :: 'u' :: hex 4 n
  else
    '\\' :: 'u' :: hex 4 (0xd800 + (n - 0x10000) / 0x400) ++
      '\\' :: 'u' :: hex 4 (0xdc00 + (n - 0x10000) % 0x400)

def dumpsStr (escape : Char → List Char) (s : String) : String :=
  String.ofList ('"' :: s.toList.flatMap escape ++ ['"'])

mutual

/-- `json.dumps(x)` with the default separators; `escape` is what
`ensure_ascii` selects. -/
def dumpsWith (escape : Char → List Char) : Json → String
  | .null => "null"
  | .bool true => "true"
  | .bool false => "false"
  | .int i => toString i
  | .float x => x.toJson
  | .str s => dumpsStr escape s
  | .arr xs => "[" ++ ", ".intercalate (dumpsItems escape xs) ++ "]"
  | .obj entries => "\x7b" ++ ", ".intercalate (dumpsEntries escape entries) ++ "\x7d"

def dumpsItems (escape : Char → List Char) : List Json → List String
  | [] => []
  | x :: xs => dumpsWith escape x :: dumpsItems escape xs

def dumpsEntries (escape : Char → List Char) : List (String × Json) → List String
  | [] => []
  | (key, x) :: rest =>
      (dumpsStr escape key ++ ": " ++ dumpsWith escape x) :: dumpsEntries escape rest

end

/-- `json.dumps(x, ensure_ascii=False)`. -/
def dumps (x : Json) : String := dumpsWith escapeChar x

mutual

/-- The value `json.dumps` writes under `sort_keys=True`: every object with its
keys in code point order. -/
def sortKeys : Json → Json
  | .arr xs => .arr (sortItems xs)
  | .obj entries => .obj ((sortEntries entries).insertionSort fun a b => a.1 ≤ b.1)
  | x => x

def sortItems : List Json → List Json
  | [] => []
  | x :: xs => sortKeys x :: sortItems xs

def sortEntries : List (String × Json) → List (String × Json)
  | [] => []
  | (key, x) :: rest => (key, sortKeys x) :: sortEntries rest

end

/-- `json.dumps(x, sort_keys=True)`. -/
def dumpsSorted (x : Json) : String := dumpsWith escapeAscii x.sortKeys

end Json

example : (Json.obj [("stdout", .str "4\n2"), ("n", .arr [.int (-3)])]).dumps =
    "\x7b\"stdout\": \"4\\n2\", \"n\": [-3]\x7d" := by rfl

example : (Json.obj [("b", .null), ("a", .bool true)]).dumpsSorted =
    "\x7b\"a\": true, \"b\": null\x7d" := by rfl

end Lour.Lib.Python
