import Lour.Lib.JsonText
import Lour.Lib.Numerals
/-!
# `json.loads`

A reader that takes in one character at a time; its stack holds the arrays and
objects that are still open.  What `json.dumps` writes is read back, and a text that
ends inside a string literal, or has a line break there, is refused.
-/

namespace Lour.Lib.Python

/-- `d[key] = x`. -/
def Dict.set (d : Dict) (key : String) (x : Json) : Dict :=
  if d.any fun e => e.1 == key then d.map fun e => if e.1 == key then (key, x) else e
  else d ++ [(key, x)]

theorem Dict.set_of_notMem {d : Dict} {key : String} (h : key ∉ d.map (·.1)) (x : Json) :
    d.set key x = d ++ [(key, x)] := by
  have hany : (d.any fun e => e.1 == key) = false := by
    rw [List.any_eq_false]
    intro e he heq
    exact h (List.mem_map.mpr ⟨e, he, beq_iff_eq.mp heq⟩)
  rw [Dict.set, hany, if_neg Bool.false_ne_true]

/-- `{**d, **d'}`. -/
def Dict.merge (d d' : Dict) : Dict := d'.foldl (fun d e => d.set e.1 e.2) d

theorem Dict.set_keys (d : Dict) (key : String) (x : Json) :
    (d.set key x).map (·.1) =
      if key ∈ d.map (·.1) then d.map (·.1) else d.map (·.1) ++ [key] := by
  by_cases h : key ∈ d.map (·.1)
  · obtain ⟨e, he, rfl⟩ := List.mem_map.mp h
    have hany : (d.any fun e' => e'.1 == e.1) = true :=
      List.any_eq_true.mpr ⟨e, he, beq_self_eq_true _⟩
    rw [if_pos h, Dict.set, if_pos hany, List.map_map]
    apply List.map_congr_left
    intro e' _
    by_cases heq : e'.1 = e.1
    · simp [heq]
    · simp [heq]
  · rw [if_neg h, Dict.set_of_notMem h, List.map_append]
    rfl

theorem Dict.mem_set {d : Dict} {key : String} {x : Json} {e : String × Json} :
    e ∈ d.set key x ↔ e = (key, x) ∨ e ∈ d ∧ e.1 ≠ key := by
  by_cases h : key ∈ d.map (·.1)
  · obtain ⟨e', he', rfl⟩ := List.mem_map.mp h
    have hany : (d.any fun e => e.1 == e'.1) = true :=
      List.any_eq_true.mpr ⟨e', he', beq_self_eq_true _⟩
    rw [Dict.set, if_pos hany, List.mem_map]
    constructor
    · rintro ⟨f, hf, rfl⟩
      by_cases heq : f.1 = e'.1
      · simp [heq]
      · simp [heq, hf]
    · rintro (rfl | ⟨hmem, hne⟩)
      · exact ⟨e', he', by simp⟩
      · exact ⟨e, hmem, by simp [hne]⟩
  · rw [Dict.set_of_notMem h, List.mem_append, List.mem_singleton, or_comm]
    apply or_congr_right
    constructor
    · intro hmem
      refine ⟨hmem, ?_⟩
      rintro rfl
      exact h (List.mem_map_of_mem hmem)
    · exact And.left

theorem Dict.merge_cons (d d' : Dict) (e : String × Json) :
    d.merge (e :: d') = (d.set e.1 e.2).merge d' := rfl

/-- What a merge holds: the second dict, and of the first what it does not name. -/
theorem Dict.mem_merge {d d' : Dict} (hkeys : (d'.map (·.1)).Nodup) {e : String × Json} :
    e ∈ d.merge d' ↔ e ∈ d' ∨ e ∈ d ∧ e.1 ∉ d'.map (·.1) := by
  induction d' generalizing d with
  | nil => simp [Dict.merge]
  | cons f d' ih =>
      rw [List.map_cons, List.nodup_cons] at hkeys
      obtain ⟨hfresh, hrest⟩ := hkeys
      have hf : e = f → e.1 ∉ d'.map (·.1) := by
        rintro rfl
        exact hfresh
      rw [Dict.merge_cons, ih hrest, Dict.mem_set, List.mem_cons, List.map_cons, List.mem_cons]
      grind

theorem Dict.merge_keys_nodup {d d' : Dict} (h : (d.map (·.1)).Nodup) :
    ((d.merge d').map (·.1)).Nodup := by
  induction d' generalizing d with
  | nil => exact h
  | cons e d' ih =>
      apply ih
      rw [Dict.set_keys]
      split
      · exact h
      next hfresh =>
          rw [List.nodup_append]
          refine ⟨h, List.nodup_singleton _, fun key hkey key' hkey' heq => hfresh ?_⟩
          rwa [← List.mem_singleton.mp hkey', ← heq]

theorem Dict.mem_merge_keys {d d' : Dict} {key : String} (h : key ∈ d.map (·.1)) :
    key ∈ (d.merge d').map (·.1) := by
  induction d' generalizing d with
  | nil => exact h
  | cons e d' ih =>
      apply ih
      rw [Dict.set_keys]
      split
      · exact h
      · exact List.mem_append_left _ h

namespace Json

mutual

/-- The keys of an object are distinct, as a `dict` has them. -/
def WellFormed : Json → Prop
  | .arr xs => WellFormedItems xs
  | .obj entries => (entries.map (·.1)).Nodup ∧ WellFormedEntries entries
  | _ => True

def WellFormedItems : List Json → Prop
  | [] => True
  | x :: xs => WellFormed x ∧ WellFormedItems xs

def WellFormedEntries : List (String × Json) → Prop
  | [] => True
  | (_, x) :: rest => WellFormed x ∧ WellFormedEntries rest

end

mutual

/-- The characters of the keys and strings. -/
def chars : Json → List Char
  | .str s => s.toList
  | .arr xs => charsItems xs
  | .obj entries => charsEntries entries
  | _ => []

def charsItems : List Json → List Char
  | [] => []
  | x :: xs => chars x ++ charsItems xs

def charsEntries : List (String × Json) → List Char
  | [] => []
  | (key, x) :: rest => key.toList ++ chars x ++ charsEntries rest

end

theorem wellFormedEntries_iff {entries : List (String × Json)} :
    WellFormedEntries entries ↔ ∀ e ∈ entries, e.2.WellFormed := by
  induction entries with
  | nil => simp [WellFormedEntries]
  | cons e rest ih => rw [WellFormedEntries, List.forall_mem_cons, ih]

theorem mem_charsEntries {entries : List (String × Json)} {c : Char} :
    c ∈ charsEntries entries ↔ ∃ e ∈ entries, c ∈ e.1.toList ∨ c ∈ e.2.chars := by
  induction entries with
  | nil => simp [charsEntries]
  | cons e rest ih =>
      rw [charsEntries, List.mem_append, List.mem_append, ih, List.exists_mem_cons_iff]

/-- The whitespace between tokens. -/
def isGap (c : Char) : Bool := c == ' ' || c == '\t' || c == '\n' || c == '\r'

/-- A character of a number or a keyword. -/
def isTokenChar (c : Char) : Bool := c.isAlphanum || c == '+' || c == '-' || c == '.'

def keyword (cs : List Char) : Option Json :=
  match String.ofList cs with
  | "null" => some .null
  | "true" => some (.bool true)
  | "false" => some (.bool false)
  | "NaN" => some (.float .nan)
  | "Infinity" => some (.float (.inf false))
  | "-Infinity" => some (.float (.inf true))
  | _ => none

def classify (cs : List Char) : Option Json := ((readNumeral cs).map Numeral.value).or (keyword cs)

/-- Inside a literal: between characters, after a backslash, with hex digits left to
read, or after the first half of a surrogate pair. -/
inductive Escape where
  | plain
  | escaped (high : Option ℕ)
  | hex (high : Option ℕ) (left n : ℕ)
  | paired (high : ℕ)

/-- An array or an object that is open, with what comes before the value at hand. -/
inductive Frame where
  | items (xs : List Json)
  | entry (d : Dict) (key : String)

/-- What a string literal is for. -/
inductive Target where
  | key (d : Dict)
  | value

/-- What comes next, or has just ended. -/
inductive Reader where
  | value (stack : List Frame)
  | member (d : Dict) (stack : List Frame)
  | colon (d : Dict) (key : String) (stack : List Frame)
  | text (target : Target) (cs : List Char) (escape : Escape) (stack : List Frame)
  | token (cs : List Char) (stack : List Frame)
  | after (x : Json) (stack : List Frame)

namespace Reader

def stepAfter (x : Json) (stack : List Frame) (c : Char) : Option Reader :=
  if isGap c then some (.after x stack)
  else
    match c, stack with
    | ',', .items xs :: stack => some (.value (.items (xs ++ [x]) :: stack))
    | ']', .items xs :: stack => some (.after (.arr (xs ++ [x])) stack)
    | ',', .entry d key :: stack => some (.member (d.set key x) stack)
    | '}', .entry d key :: stack => some (.after (.obj (d.set key x)) stack)
    | _, _ => none

def stepValue (stack : List Frame) (c : Char) : Option Reader :=
  if isGap c then some (.value stack)
  else if c = '{' then some (.member [] stack)
  else if c = '[' then some (.value (.items [] :: stack))
  else if c = '"' then some (.text .value [] .plain stack)
  else if c = ']' then
    match stack with
    | .items [] :: stack => some (.after (.arr []) stack)
    | _ => none
  else if isTokenChar c then some (.token [c] stack)
  else none

def closeText (target : Target) (cs : List Char) (stack : List Frame) : Reader :=
  match target with
  | .key d => .colon d (String.ofList cs) stack
  | .value => .after (.str (String.ofList cs)) stack

/-- A `\u` escape is complete.  A lone surrogate is refused: no text holds one. -/
def closeHex (target : Target) (cs : List Char) (stack : List Frame) (high : Option ℕ)
    (code : ℕ) : Option Reader :=
  match high with
  | none =>
      if 0xd800 ≤ code ∧ code < 0xdc00 then some (.text target cs (.paired code) stack)
      else if 0xdc00 ≤ code ∧ code < 0xe000 then none
      else some (.text target (cs ++ [Char.ofNat code]) .plain stack)
  | some high =>
      if 0xdc00 ≤ code ∧ code < 0xe000 then
        let c := Char.ofNat (0x10000 + (high - 0xd800) * 0x400 + (code - 0xdc00))
        some (.text target (cs ++ [c]) .plain stack)
      else none

/-- Control characters are refused. -/
def stepText (target : Target) (cs : List Char) (stack : List Frame) (c : Char) :
    Escape → Option Reader
  | .plain =>
      if c = '"' then some (closeText target cs stack)
      else if c = '\\' then some (.text target cs (.escaped none) stack)
      else if c.toNat < 0x20 then none
      else some (.text target (cs ++ [c]) .plain stack)
  | .escaped high =>
      if c = 'u' then some (.text target cs (.hex high 4 0) stack)
      else if high.isSome then none
      else (unescape c).map fun e => .text target (cs ++ [e]) .plain stack
  | .hex high left n =>
      (unhexDigit c).bind fun d =>
        if left ≤ 1 then closeHex target cs stack high (16 * n + d)
        else some (.text target cs (.hex high (left - 1) (16 * n + d)) stack)
  | .paired high =>
      if c = '\\' then some (.text target cs (.escaped (some high)) stack) else none

def step : Reader → Char → Option Reader
  | .value stack, c => stepValue stack c
  | .member d stack, c =>
      if isGap c then some (.member d stack)
      else if c = '"' then some (.text (.key d) [] .plain stack)
      else if c = '}' && d.isEmpty then some (.after (.obj []) stack)
      else none
  | .colon d key stack, c =>
      if isGap c then some (.colon d key stack)
      else if c = ':' then some (.value (.entry d key :: stack))
      else none
  | .text target cs escape stack, c => stepText target cs stack c escape
  | .token cs stack, c =>
      if isTokenChar c then some (.token (cs ++ [c]) stack)
      else (classify cs).bind fun x => stepAfter x stack c
  | .after x stack, c => stepAfter x stack c

def finish : Reader → Option Json
  | .after x [] => some x
  | .token cs [] => classify cs
  | _ => none

/-- The reader takes in the text. -/
def Reads (r : Reader) (cs : List Char) (r' : Reader) : Prop := cs.foldlM step r = some r'

end Reader

/-- `json.loads(s)`; `none` where it raises. -/
def loads (s : String) : Option Json := (s.toList.foldlM Reader.step (.value [])).bind Reader.finish

namespace Reader

variable {r r' r'' : Reader} {cs ds : List Char} {c : Char} {x : Json} {stack : List Frame}
  {target : Target}

theorem Reads.refl (r : Reader) : Reads r [] r := rfl

theorem Reads.append (h : Reads r cs r') (h' : Reads r' ds r'') : Reads r (cs ++ ds) r'' := by
  rw [Reads, List.foldlM_append, h]
  exact h'

theorem Reads.cons (h : step r c = some r') (h' : Reads r' cs r'') : Reads r (c :: cs) r'' := by
  rw [Reads, List.foldlM_cons, h]
  exact h'

theorem Reads.split (h : Reads r (cs ++ ds) r'') : ∃ r', Reads r cs r' ∧ Reads r' ds r'' := by
  rw [Reads, List.foldlM_append] at h
  exact Option.bind_eq_some_iff.mp h

/-- A value has been read, as far as can be known before the next character. -/
def Ended (x : Json) (stack : List Frame) (r : Reader) : Prop :=
  r = .after x stack ∨ ∃ cs, r = .token cs stack ∧ classify cs = some x

theorem Ended.step (h : Ended x stack r) (hc : isTokenChar c = false) :
    r.step c = stepAfter x stack c := by
  rcases h with rfl | ⟨cs, rfl, hx⟩
  · rfl
  · rw [Reader.step, hc, if_neg Bool.false_ne_true, hx, Option.bind_some]

theorem Ended.finish (h : Ended x [] r) : r.finish = some x := by
  rcases h with rfl | ⟨cs, rfl, hx⟩
  · rfl
  · exact hx

/-! ## String literals -/

theorem step_hexDigit {high : Option ℕ} {left n d : ℕ} (hd : d < 16) :
    step (.text target cs (.hex high (left + 2) n) stack) (hexDigit d) =
      some (.text target cs (.hex high (left + 1) (16 * n + d)) stack) := by
  rw [step, stepText, unhexDigit_hexDigit d hd]
  simp

/-- Four hex digits close the escape with the number they are of. -/
theorem reads_hex {high : Option ℕ} {n : ℕ} (hn : n < 0x10000)
    (hclose : closeHex target cs stack high n = some r) :
    Reads (.text target cs (.hex high 4 0) stack) (hex 4 n) r := by
  have hdigits : hex 4 n = [hexDigit (n / 4096 % 16), hexDigit (n / 256 % 16),
      hexDigit (n / 16 % 16), hexDigit (n % 16)] := by
    simp [hex, List.range_succ]
  rw [hdigits]
  apply Reads.cons (step_hexDigit (by omega))
  apply Reads.cons (step_hexDigit (by omega))
  apply Reads.cons (step_hexDigit (by omega))
  have hvalue : 16 * (16 * (16 * (16 * 0 + n / 4096 % 16) + n / 256 % 16) + n / 16 % 16) +
      n % 16 = n := by
    omega
  refine Reads.cons ?_ (Reads.refl _)
  rw [step, stepText, unhexDigit_hexDigit _ (by omega), Option.bind_some, if_pos (by decide),
    hvalue, hclose]

theorem closeHex_plain {n : ℕ} (h : n < 0xd800 ∨ 0xe000 ≤ n) :
    closeHex target cs stack none n =
      some (.text target (cs ++ [Char.ofNat n]) .plain stack) := by
  rw [closeHex, if_neg (by omega), if_neg (by omega)]

/-- The escape of a number, after the first half of a pair or not. -/
theorem reads_unicode {high : Option ℕ} {n : ℕ} (hn : n < 0x10000)
    (hclose : closeHex target cs stack high n = some r) :
    Reads (.text target cs (.escaped high) stack) ('u' :: hex 4 n) r :=
  Reads.cons rfl (reads_hex hn hclose)

/-- A character is read back from its escape. -/
def Restores (escape : Char → List Char) : Prop :=
  ∀ (target : Target) (cs : List Char) (stack : List Frame) (c : Char),
    Reads (.text target cs .plain stack) (escape c) (.text target (cs ++ [c]) .plain stack)

theorem restores_escapeChar : Restores escapeChar := by
  intro target cs stack c
  have hbackslash : step (.text target cs .plain stack) '\\' =
      some (.text target cs (.escaped none) stack) := rfl
  have hwritten := escapeChar_written c
  generalize escapeChar c = written at hwritten ⊢
  cases hwritten with
  | plain hquote hbackslash hprintable =>
      refine Reads.cons ?_ (Reads.refl _)
      rw [step, stepText, if_neg hquote, if_neg hbackslash, if_neg (Nat.not_lt.mpr hprintable)]
  | escaped e hu hc =>
      refine Reads.cons hbackslash (Reads.cons ?_ (Reads.refl _))
      rw [step, stepText, if_neg hu, if_neg (by decide), hc, Option.map_some]
  | numbered hcontrol =>
      have hclose : closeHex target cs stack none c.toNat = _ := closeHex_plain (by omega)
      rw [Char.ofNat_toNat] at hclose
      exact Reads.cons hbackslash (reads_unicode (by omega) hclose)

theorem closeHex_pair {n : ℕ} (hn : 0x10000 ≤ n) :
    closeHex target cs stack (some (0xd800 + (n - 0x10000) / 0x400))
        (0xdc00 + (n - 0x10000) % 0x400) =
      some (.text target (cs ++ [Char.ofNat n]) .plain stack) := by
  have hlow : 0xdc00 ≤ 0xdc00 + (n - 0x10000) % 0x400 ∧
      0xdc00 + (n - 0x10000) % 0x400 < 0xe000 := by
    omega
  have hcode : 0x10000 + (0xd800 + (n - 0x10000) / 0x400 - 0xd800) * 0x400 +
      (0xdc00 + (n - 0x10000) % 0x400 - 0xdc00) = n := by
    omega
  simp only [closeHex, if_pos hlow, hcode]

/-- Also from the two halves of a pair. -/
theorem restores_escapeAscii : Restores escapeAscii := by
  intro target cs stack c
  have hbackslash : step (.text target cs .plain stack) '\\' =
      some (.text target cs (.escaped none) stack) := rfl
  have hvalid : c.toNat < 0xd800 ∨ 0xdfff < c.toNat ∧ c.toNat < 0x110000 := c.valid
  simp only [escapeAscii]
  split
  next => exact restores_escapeChar target cs stack c
  next =>
      split
      next hbasic =>
          have hclose : closeHex target cs stack none c.toNat = _ := closeHex_plain (by omega)
          rw [Char.ofNat_toNat] at hclose
          exact Reads.cons hbackslash (reads_unicode hbasic hclose)
      next hbeyond =>
          have hfirst : closeHex target cs stack none (0xd800 + (c.toNat - 0x10000) / 0x400) =
              some (.text target cs (.paired (0xd800 + (c.toNat - 0x10000) / 0x400)) stack) := by
            rw [closeHex, if_pos (by omega)]
          have hsecond : closeHex target cs stack _ _ = _ := closeHex_pair (Nat.not_lt.mp hbeyond)
          rw [Char.ofNat_toNat] at hsecond
          have hhigh := Reads.cons hbackslash (reads_unicode (by omega) hfirst)
          have hlow := reads_unicode (by omega) hsecond
          exact hhigh.append (Reads.cons rfl hlow)

section Literals

variable {escape : Char → List Char} (hescape : Restores escape)
include hescape

theorem reads_escaped (s : List Char) :
    Reads (.text target cs .plain stack) (s.flatMap escape)
      (.text target (cs ++ s) .plain stack) := by
  induction s generalizing cs with
  | nil =>
      rw [List.append_nil]
      exact Reads.refl _
  | cons c s ih =>
      rw [List.flatMap_cons]
      have hrest : Reads (.text target (cs ++ [c]) .plain stack) (s.flatMap escape)
          (.text target (cs ++ [c] ++ s) .plain stack) := ih
      rw [List.append_assoc, List.singleton_append] at hrest
      exact (hescape target cs stack c).append hrest

/-- A literal as it was written. -/
theorem reads_dumpsStr (s : String) (h : step r '"' = some (.text target [] .plain stack)) :
    Reads r (dumpsStr escape s).toList (closeText target s.toList stack) := by
  rw [dumpsStr, String.toList_ofList, List.cons_append]
  apply Reads.cons h
  apply (reads_escaped hescape s.toList).append
  exact Reads.cons rfl (Reads.refl _)

end Literals

/-! ## Numbers and keywords -/

theorem isTokenChar_digit (h : c.isDigit = true) : isTokenChar c = true := by
  simp [isTokenChar, Char.isAlphanum, h]

theorem isTokenChar_numeral {n : Numeral} (h : n.Valid) : ∀ c ∈ n.text, isTokenChar c = true := by
  have hfraction : ∀ c ∈ fractionText n.fraction, isTokenChar c = true := by
    intro c hc
    cases hparts : n.fraction with
    | none =>
        rw [hparts] at hc
        cases hc
    | some ds =>
        rw [hparts, fractionText, List.mem_cons] at hc
        rcases hc with rfl | hc
        · rfl
        · exact isTokenChar_digit ((h.fraction ds hparts).2 c hc)
  have hexponent : ∀ c ∈ exponentText n.exponent, isTokenChar c = true := by
    intro c hc
    cases hparts : n.exponent with
    | none =>
        rw [hparts] at hc
        cases hc
    | some e =>
        rw [hparts, exponentText, List.mem_cons, List.mem_cons] at hc
        rcases hc with rfl | rfl | hc
        · rfl
        · cases e.1 <;> rfl
        · exact isTokenChar_digit ((h.exponent e hparts).2 c hc)
  have hunsigned : ∀ c ∈ n.unsigned, isTokenChar c = true := by
    intro c hc
    rw [Numeral.unsigned, List.mem_append, List.mem_append] at hc
    rcases hc with hc | hc | hc
    · exact isTokenChar_digit (h.whole.2 c hc)
    · exact hfraction c hc
    · exact hexponent c hc
  intro c hc
  rw [Numeral.text] at hc
  split at hc
  · rcases List.mem_cons.mp hc with rfl | hc
    · rfl
    · exact hunsigned c hc
  · exact hunsigned c hc

theorem stepValue_token (h : isTokenChar c = true) :
    stepValue stack c = some (.token [c] stack) := by
  have hne : ∀ d, isTokenChar d = false → c ≠ d := by
    rintro d hd rfl
    rw [h] at hd
    cases hd
  have hgap : isGap c = false := by
    simp [isGap, hne ' ' rfl, hne '\t' rfl, hne '\n' rfl, hne '\r' rfl]
  unfold stepValue
  rw [hgap, if_neg Bool.false_ne_true, if_neg (hne _ rfl), if_neg (hne _ rfl),
    if_neg (hne _ rfl), if_neg (hne _ rfl), if_pos h]

theorem reads_token (ds : List Char) (h : ∀ c ∈ ds, isTokenChar c = true) :
    Reads (.token cs stack) ds (.token (cs ++ ds) stack) := by
  induction ds generalizing cs with
  | nil =>
      rw [List.append_nil]
      exact Reads.refl _
  | cons c ds ih =>
      obtain ⟨hc, hds⟩ := List.forall_mem_cons.mp h
      have hrest : Reads (.token (cs ++ [c]) stack) ds (.token (cs ++ [c] ++ ds) stack) := ih hds
      rw [List.append_assoc, List.singleton_append] at hrest
      refine Reads.cons ?_ hrest
      rw [step, if_pos hc]

/-- A number or a keyword ends with the text or where another character comes. -/
theorem reads_classified (hne : cs ≠ []) (hcs : ∀ c ∈ cs, isTokenChar c = true)
    (hx : classify cs = some x) : ∃ r, Reads (.value stack) cs r ∧ Ended x stack r := by
  obtain ⟨c, ds, rfl⟩ := List.exists_cons_of_ne_nil hne
  obtain ⟨hc, hds⟩ := List.forall_mem_cons.mp hcs
  refine ⟨.token (c :: ds) stack, ?_, .inr ⟨_, rfl, hx⟩⟩
  exact Reads.cons (stepValue_token hc) (reads_token ds hds)

theorem reads_numeral {n : Numeral} (h : n.Valid) (hx : n.value = x) :
    ∃ r, Reads (.value stack) n.text r ∧ Ended x stack r := by
  have hread : readNumeral n.text = some n := readNumeral_text h
  apply reads_classified
  · intro hnil
    rw [hnil] at hread
    cases hread
  · exact isTokenChar_numeral h
  · rw [classify, hread, Option.map_some, Option.or, hx]

theorem reads_keyword (s : String) (hs : s.toList.all isTokenChar = true) (hne : s ≠ "")
    (hx : classify s.toList = some x) :
    ∃ r, Reads (.value stack) s.toList r ∧ Ended x stack r := by
  apply reads_classified
  · simpa using hne
  · exact List.all_eq_true.mp hs
  · exact hx

theorem reads_float (x : PyFloat) :
    ∃ r, Reads (.value stack) x.toJson.toList r ∧ Ended (.float x) stack r := by
  cases x with
  | finite d =>
      have htext : (PyFloat.finite d).toJson.toList = (Numeral.ofDecimal d).text :=
        (ofDecimal_text d).symm
      rw [htext]
      exact reads_numeral (ofDecimal_valid d) (ofDecimal_value d)
  | inf neg =>
      cases neg with
      | true => exact reads_keyword "-Infinity" rfl (by decide) rfl
      | false => exact reads_keyword "Infinity" rfl (by decide) rfl
  | nan => exact reads_keyword "NaN" rfl (by decide) rfl

/-! ## What was written is read back -/

mutual

theorem reads_dumps {escape : Char → List Char} (hescape : Restores escape) (x : Json)
    (h : x.WellFormed) (stack : List Frame) :
    ∃ r, Reads (.value stack) (dumpsWith escape x).toList r ∧ Ended x stack r := by
  match x, h with
  | .null, _ => exact reads_keyword "null" rfl (by decide) rfl
  | .bool true, _ => exact reads_keyword "true" rfl (by decide) rfl
  | .bool false, _ => exact reads_keyword "false" rfl (by decide) rfl
  | .int i, _ =>
      have htext : (dumpsWith escape (.int i)).toList = (Numeral.ofInt i).text :=
        (ofInt_text i).symm
      rw [htext]
      exact reads_numeral (ofInt_valid i) (ofInt_value i)
  | .float x, _ => exact reads_float x
  | .str s, _ =>
      refine ⟨_, reads_dumpsStr hescape s rfl, .inl ?_⟩
      rw [closeText, String.ofList_toList]
  | .arr [], _ =>
      have htext : (dumpsWith escape (.arr [])).toList = ['[', ']'] := by
        simp [dumpsWith, dumpsItems]
      rw [htext]
      exact ⟨_, Reads.cons rfl (Reads.cons rfl (Reads.refl _)), .inl rfl⟩
  | .arr (x :: xs), h =>
      refine ⟨_, ?_, .inl rfl⟩
      rw [dumpsWith, String.toList_append, String.toList_append, List.append_assoc]
      exact Reads.cons rfl (reads_items hescape x xs h [] stack)
  | .obj [], _ =>
      have htext : (dumpsWith escape (.obj [])).toList = ['{', '}'] := by
        simp [dumpsWith, dumpsEntries]
      rw [htext]
      exact ⟨_, Reads.cons rfl (Reads.cons rfl (Reads.refl _)), .inl rfl⟩
  | .obj ((key, x) :: rest), h =>
      refine ⟨_, ?_, .inl rfl⟩
      rw [dumpsWith, String.toList_append, String.toList_append, List.append_assoc]
      exact Reads.cons rfl (reads_entries hescape key x rest h.2 [] h.1 stack)
termination_by sizeOf x

/-- From an item on, to the bracket that closes the array. -/
theorem reads_items {escape : Char → List Char} (hescape : Restores escape) (x : Json)
    (xs : List Json) (h : WellFormedItems (x :: xs)) (ys : List Json) (stack : List Frame) :
    Reads (.value (.items ys :: stack))
      ((", ".intercalate (dumpsItems escape (x :: xs))).toList ++ "]".toList)
      (.after (.arr (ys ++ x :: xs)) stack) := by
  obtain ⟨r, hread, hended⟩ := reads_dumps hescape x h.1 (.items ys :: stack)
  match xs, h with
  | [], _ =>
      have hclose : r.step ']' = some (.after (.arr (ys ++ [x])) stack) := hended.step rfl
      exact hread.append (Reads.cons hclose (Reads.refl _))
  | x' :: xs, h =>
      have hcomma : r.step ',' = some (.value (.items (ys ++ [x]) :: stack)) := hended.step rfl
      have hrest := reads_items hescape x' xs h.2 (ys ++ [x]) stack
      rw [List.append_assoc, List.singleton_append] at hrest
      have htext : (", ".intercalate (dumpsItems escape (x :: x' :: xs))).toList =
          (dumpsWith escape x).toList ++ (',' :: ' ' ::
            (", ".intercalate (dumpsItems escape (x' :: xs))).toList) := by
        simp [dumpsItems, String.toList_intercalate]
      rw [htext, List.append_assoc]
      exact hread.append (Reads.cons hcomma (Reads.cons rfl hrest))
termination_by sizeOf (x :: xs)

/-- From a key on, to the brace that closes the object. -/
theorem reads_entries {escape : Char → List Char} (hescape : Restores escape) (key : String)
    (x : Json) (rest : List (String × Json)) (h : WellFormedEntries ((key, x) :: rest)) (d : Dict)
    (hkeys : ((d ++ (key, x) :: rest).map (·.1)).Nodup) (stack : List Frame) :
    Reads (.member d stack)
      ((", ".intercalate (dumpsEntries escape ((key, x) :: rest))).toList ++ "\x7d".toList)
      (.after (.obj (d ++ (key, x) :: rest)) stack) := by
  obtain ⟨r, hread, hended⟩ := reads_dumps hescape x h.1 (.entry d key :: stack)
  have hkey : Reads (.member d stack) (dumpsStr escape key).toList (.colon d key stack) := by
    have hliteral := reads_dumpsStr hescape (r := .member d stack) key rfl
    rwa [closeText, String.ofList_toList] at hliteral
  have hset : d.set key x = d ++ [(key, x)] := by
    apply Dict.set_of_notMem
    rw [List.map_append, List.map_cons, List.nodup_append] at hkeys
    exact fun hmem => hkeys.2.2 _ hmem _ List.mem_cons_self rfl
  have hentry : Reads (.member d stack)
      ((dumpsStr escape key).toList ++ (':' :: ' ' :: (dumpsWith escape x).toList)) r :=
    hkey.append (Reads.cons rfl (Reads.cons rfl hread))
  match rest, h with
  | [], _ =>
      have hclose : r.step '}' = some (.after (.obj (d.set key x)) stack) := hended.step rfl
      rw [hset] at hclose
      have htext : (", ".intercalate (dumpsEntries escape [(key, x)])).toList =
          (dumpsStr escape key).toList ++ (':' :: ' ' :: (dumpsWith escape x).toList) := by
        simp [dumpsEntries]
      rw [htext]
      exact hentry.append (Reads.cons hclose (Reads.refl _))
  | (key', x') :: rest, h =>
      have hcomma : r.step ',' = some (.member (d.set key x) stack) := hended.step rfl
      rw [hset] at hcomma
      have hrest := reads_entries hescape key' x' rest h.2 (d ++ [(key, x)])
        (by rwa [List.append_assoc, List.singleton_append]) stack
      rw [List.append_assoc, List.singleton_append] at hrest
      have htext : (", ".intercalate
          (dumpsEntries escape ((key, x) :: (key', x') :: rest))).toList =
          (dumpsStr escape key).toList ++ (':' :: ' ' :: (dumpsWith escape x).toList) ++
            (',' :: ' ' :: (", ".intercalate (dumpsEntries escape ((key', x') :: rest))).toList) := by
        simp [dumpsEntries, String.toList_intercalate]
      rw [htext, List.append_assoc]
      exact hentry.append (Reads.cons hcomma (Reads.cons rfl hrest))
termination_by sizeOf ((key, x) :: rest)

end

/-! ## A text that is cut inside a literal -/

/-- Numbers and keywords are printable ASCII. -/
theorem isTokenChar_ascii (h : isTokenChar c = true) : 0x20 ≤ c.toNat ∧ c.toNat < 0x80 := by
  have hle : ∀ d e : Char, d.val ≤ e.val → d.toNat ≤ e.toNat :=
    fun _ _ h => UInt32.le_iff_toNat_le.mp h
  have hspan : ∀ d e : Char, 0x20 ≤ d.toNat → e.toNat < 0x80 → d.val ≤ c.val ∧ c.val ≤ e.val →
      0x20 ≤ c.toNat ∧ c.toNat < 0x80 :=
    fun d e hd he hc => ⟨hd.trans (hle d c hc.1), (hle c e hc.2).trans_lt he⟩
  have hclasses : c.isAlphanum = (decide ('A'.val ≤ c.val ∧ c.val ≤ 'Z'.val) ||
      (decide ('a'.val ≤ c.val) && decide (c.val ≤ 'z'.val)) ||
      (decide ('0'.val ≤ c.val) && decide (c.val ≤ '9'.val))) := rfl
  simp only [isTokenChar, hclasses, Bool.or_eq_true, Bool.and_eq_true, decide_eq_true_eq,
    beq_iff_eq] at h
  rcases h with ((((h | h) | h) | rfl) | rfl) | rfl
  · exact hspan 'A' 'Z' (by decide) (by decide) h
  · exact hspan 'a' 'z' (by decide) (by decide) h
  · exact hspan '0' '9' (by decide) (by decide) h
  · decide
  · decide
  · decide

section Beyond

variable (hc : 0x80 ≤ c.toNat)
include hc

theorem ne_of_beyond (d : Char) (hd : d.toNat < 0x80) : c ≠ d := by
  rintro rfl
  omega

theorem isGap_beyond : isGap c = false := by
  have hne := ne_of_beyond hc
  simp [isGap, hne ' ' (by decide), hne '\t' (by decide), hne '\n' (by decide),
    hne '\r' (by decide)]

theorem isTokenChar_beyond : isTokenChar c = false := by
  rw [Bool.eq_false_iff]
  intro htoken
  have hlt := (isTokenChar_ascii htoken).2
  omega

theorem stepAfter_beyond : stepAfter x stack c = none := by
  have hne := ne_of_beyond hc
  unfold stepAfter
  rw [isGap_beyond hc, if_neg Bool.false_ne_true]
  split
  · exact absurd rfl (hne ',' (by decide))
  · exact absurd rfl (hne ']' (by decide))
  · exact absurd rfl (hne ',' (by decide))
  · exact absurd rfl (hne '}' (by decide))
  · rfl

theorem stepValue_beyond : stepValue stack c = none := by
  have hne := ne_of_beyond hc
  unfold stepValue
  rw [isGap_beyond hc, isTokenChar_beyond hc, if_neg Bool.false_ne_true,
    if_neg (hne _ (by decide)), if_neg (hne _ (by decide)), if_neg (hne _ (by decide)),
    if_neg (hne _ (by decide)), if_neg Bool.false_ne_true]

theorem unhexDigit_beyond : unhexDigit c = none := by
  unfold unhexDigit
  dsimp only
  rw [if_neg (by omega), if_neg (by omega), if_neg (by omega)]

theorem unescape_beyond : unescape c = none := by
  have hne := ne_of_beyond hc
  simp [unescape, hne '"' (by decide), hne '\\' (by decide), hne '/' (by decide),
    hne 'b' (by decide), hne 'f' (by decide), hne 'n' (by decide), hne 'r' (by decide),
    hne 't' (by decide)]

/-- Only a literal goes on beyond ASCII. -/
theorem text_of_step (h : step r c = some r') :
    ∃ target cs stack, r = .text target cs .plain stack := by
  have hne := ne_of_beyond hc
  cases r with
  | value stack =>
      rw [step, stepValue_beyond hc] at h
      cases h
  | member d stack =>
      rw [step, isGap_beyond hc, if_neg Bool.false_ne_true, if_neg (hne _ (by decide)),
        decide_eq_false (hne '}' (by decide)), Bool.false_and, if_neg Bool.false_ne_true] at h
      cases h
  | colon d key stack =>
      rw [step, isGap_beyond hc, if_neg Bool.false_ne_true, if_neg (hne _ (by decide))] at h
      cases h
  | text target cs escape stack =>
      cases escape with
      | plain => exact ⟨target, cs, stack, rfl⟩
      | escaped high =>
          rw [step, stepText, if_neg (hne _ (by decide)), unescape_beyond hc] at h
          split at h
          · cases h
          · cases h
      | hex high left n =>
          rw [step, stepText, unhexDigit_beyond hc] at h
          cases h
      | paired high =>
          rw [step, stepText, if_neg (hne _ (by decide))] at h
          cases h
  | token cs stack =>
      rw [step, isTokenChar_beyond hc, if_neg Bool.false_ne_true] at h
      obtain ⟨x, -, hstep⟩ := Option.bind_eq_some_iff.mp h
      rw [stepAfter_beyond hc] at hstep
      cases hstep
  | after x stack =>
      rw [step, stepAfter_beyond hc] at h
      cases h

end Beyond

end Reader

theorem loads_dumpsWith {escape : Char → List Char} (hescape : Reader.Restores escape) {x : Json}
    (h : x.WellFormed) : loads (dumpsWith escape x) = some x := by
  obtain ⟨r, hread, hended⟩ := Reader.reads_dumps hescape x h []
  rw [loads, hread, Option.bind_some, hended.finish]

theorem loads_dumps {x : Json} (h : x.WellFormed) : loads x.dumps = some x :=
  loads_dumpsWith Reader.restores_escapeChar h

/-- A text that is cut before a character beyond ASCII is refused, and so it is with a
line break there. -/
theorem loads_cut {p q : List Char} {c : Char} {x : Json}
    (h : loads (String.ofList (p ++ c :: q)) = some x) (hc : 0x80 ≤ c.toNat) :
    loads (String.ofList p) = none ∧
      ∀ rest, loads (String.ofList (p ++ '\n' :: rest)) = none := by
  rw [loads, String.toList_ofList] at h
  obtain ⟨r, hread, -⟩ := Option.bind_eq_some_iff.mp h
  obtain ⟨r', hp, hrest⟩ := Reader.Reads.split hread
  have hstep : ∃ r'', r'.step c = some r'' := by
    rw [Reader.Reads, List.foldlM_cons] at hrest
    obtain ⟨r'', hstep, -⟩ := Option.bind_eq_some_iff.mp hrest
    exact ⟨r'', hstep⟩
  obtain ⟨r'', hstep⟩ := hstep
  obtain ⟨target, cs, stack, rfl⟩ := Reader.text_of_step hc hstep
  constructor
  · rw [loads, String.toList_ofList, hp]
    rfl
  · intro rest
    rw [loads, String.toList_ofList, List.foldlM_append, hp]
    rfl

/-! ## The characters that are written -/

def isPrintable (c : Char) : Bool := decide (0x20 ≤ c.toNat) && decide (c.toNat < 0x80)

theorem isPrintable_iff {c : Char} : isPrintable c = true ↔ 0x20 ≤ c.toNat ∧ c.toNat < 0x80 := by
  simp [isPrintable]

/-- No control character is in the text, and beyond ASCII it has what `marks` has. -/
structure Shows (text marks : List Char) : Prop where
  printable : ∀ c ∈ text, 0x20 ≤ c.toNat
  beyond : ∀ c, 0x80 ≤ c.toNat → (c ∈ text ↔ c ∈ marks)

namespace Shows

variable {text text' marks marks' : List Char} {c : Char}

theorem append (h : Shows text marks) (h' : Shows text' marks') :
    Shows (text ++ text') (marks ++ marks') where
  printable c hc := by
    rcases List.mem_append.mp hc with hc | hc
    · exact h.printable c hc
    · exact h'.printable c hc
  beyond c hc := by
    rw [List.mem_append, List.mem_append, h.beyond c hc, h'.beyond c hc]

theorem ascii (h : ∀ c ∈ text, 0x20 ≤ c.toNat ∧ c.toNat < 0x80) : Shows text [] where
  printable c hc := (h c hc).1
  beyond c hc := by
    constructor
    · intro hmem
      have hlt := (h c hmem).2
      omega
    · intro hmem
      cases hmem

theorem literal (s : String) (h : s.toList.all isPrintable = true) : Shows s.toList [] :=
  ascii fun c hc => isPrintable_iff.mp (List.all_eq_true.mp h c hc)

theorem self (h : 0x20 ≤ c.toNat) : Shows [c] [c] where
  printable d hd := by
    rwa [List.mem_singleton.mp hd]
  beyond _ _ := Iff.rfl

/-- An escape of an ASCII character. -/
theorem escape (hc : c.toNat < 0x80) (h : ∀ d ∈ text, 0x20 ≤ d.toNat ∧ d.toNat < 0x80) :
    Shows text [c] where
  printable d hd := (h d hd).1
  beyond d hd := by
    constructor
    · intro hmem
      have hlt := (h d hmem).2
      omega
    · intro hmem
      rw [List.mem_singleton.mp hmem] at hd
      omega

theorem escapeChar (c : Char) : Shows (escapeChar c) [c] := by
  by_cases hc : c.toNat < 0x80
  · have hall : ((List.range 0x80).all fun n => (Json.escapeChar (Char.ofNat n)).all isPrintable) =
        true := by decide +kernel
    apply escape hc
    have hescape := List.all_eq_true.mp hall c.toNat (List.mem_range.mpr hc)
    rw [Char.ofNat_toNat] at hescape
    exact fun d hd => isPrintable_iff.mp (List.all_eq_true.mp hescape d hd)
  · have hne := Reader.ne_of_beyond (Nat.not_lt.mp hc)
    have hself : Json.escapeChar c = [c] := by
      have hcontrol : ¬ c.toNat < 0x20 := by omega
      have hb : c.toNat ≠ 0x08 := by omega
      have hf : c.toNat ≠ 0x0c := by omega
      simp [Json.escapeChar, hne '"' (by decide), hne '\\' (by decide), hne '\n' (by decide),
        hne '\r' (by decide), hne '\t' (by decide), hcontrol, hb, hf]
    rw [hself]
    exact self (by omega)

theorem flatMap_escapeChar (s : List Char) : Shows (s.flatMap Json.escapeChar) s := by
  induction s with
  | nil => exact ascii fun c hc => by cases hc
  | cons c s ih => exact (escapeChar c).append ih

theorem dumpsStr (s : String) : Shows (dumpsStr Json.escapeChar s).toList s.toList := by
  rw [Json.dumpsStr, String.toList_ofList, ← List.singleton_append, List.append_assoc]
  have hopen : Shows ['"'] [] := literal "\"" rfl
  have hclose := (flatMap_escapeChar s.toList).append hopen
  rw [List.append_nil] at hclose
  exact hopen.append hclose

/-- A character of a number or a keyword is a printable one. -/
theorem token (h : ∀ c ∈ text, isTokenChar c = true) : Shows text [] := by
  apply ascii
  intro c hc
  exact Reader.isTokenChar_ascii (h c hc)

theorem float (x : PyFloat) : Shows x.toJson.toList [] := by
  cases x with
  | finite d =>
      have htext : (PyFloat.finite d).toJson.toList = (Numeral.ofDecimal d).text :=
        (ofDecimal_text d).symm
      rw [htext]
      exact token (Reader.isTokenChar_numeral (ofDecimal_valid d))
  | inf neg =>
      cases neg with
      | true => exact literal "-Infinity" rfl
      | false => exact literal "Infinity" rfl
  | nan => exact literal "NaN" rfl

mutual

theorem dumps (x : Json) : Shows x.dumps.toList x.chars := by
  match x with
  | .null => exact literal "null" rfl
  | .bool true => exact literal "true" rfl
  | .bool false => exact literal "false" rfl
  | .int i =>
      have htext : (Json.dumps (.int i)).toList = (Numeral.ofInt i).text := (ofInt_text i).symm
      rw [htext]
      exact token (Reader.isTokenChar_numeral (ofInt_valid i))
  | .float x => exact float x
  | .str s => exact dumpsStr s
  | .arr xs =>
      rw [Json.dumps, dumpsWith, String.toList_append, String.toList_append, List.append_assoc]
      have hclose := (items xs).append (literal "]" rfl)
      rw [List.append_nil] at hclose
      exact (literal "[" rfl).append hclose
  | .obj entries =>
      rw [Json.dumps, dumpsWith, String.toList_append, String.toList_append, List.append_assoc]
      have hclose := (members entries).append (literal "\x7d" rfl)
      rw [List.append_nil] at hclose
      exact (literal "\x7b" rfl).append hclose

theorem items (xs : List Json) :
    Shows (", ".intercalate (dumpsItems Json.escapeChar xs)).toList (charsItems xs) := by
  match xs with
  | [] => exact literal "" rfl
  | [x] =>
      have h := (dumps x).append (literal "" rfl)
      simpa [dumpsItems, charsItems, Json.dumps] using h
  | x :: x' :: xs =>
      have h := (dumps x).append ((literal ", " rfl).append (items (x' :: xs)))
      simpa [dumpsItems, charsItems, Json.dumps, String.toList_intercalate] using h

theorem members (entries : List (String × Json)) :
    Shows (", ".intercalate (dumpsEntries Json.escapeChar entries)).toList
      (charsEntries entries) := by
  match entries with
  | [] => exact literal "" rfl
  | [(key, x)] =>
      have h := (dumpsStr key).append ((literal ": " rfl).append (dumps x))
      simpa [dumpsEntries, charsEntries, Json.dumps] using h
  | (key, x) :: (key', x') :: rest =>
      have h := ((dumpsStr key).append ((literal ": " rfl).append (dumps x))).append
        ((literal ", " rfl).append (members ((key', x') :: rest)))
      simpa [dumpsEntries, charsEntries, Json.dumps, String.toList_intercalate] using h

end

end Shows

end Json

end Lour.Lib.Python
