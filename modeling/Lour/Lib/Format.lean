import Lour.Lib.Conversions
import Lour.Lib.Fallible
/-!
# `str.format`

A template as literal text and replacement fields, scanned from the left; what a field
stands for among the keyword arguments; and the text that is written, or the first
exception.  What objects there are and what they answer is a parameter.
-/

namespace Lour.Lib.Python

/-- What formatting raises; a `KeyError` with its text. -/
inductive FormatFailure where
  | key (text : String)
  | index (message : String)
  | value (message : String)
  | raised (exc : String)

/-- Between brackets. -/
inductive Index where
  | number (n : ℕ)
  | key (s : String)

inductive Conversion where
  | str
  | repr
  | ascii

/-- The objects that formatting meets. -/
structure Objects (O : Type) where
  ofJson : Json → O
  getattr : O → String → Except FormatFailure O
  getitem : O → Index → Except FormatFailure O
  convert : Conversion → O → Except FormatFailure O
  format : O → String → Except FormatFailure String

/-! ## Templates -/

/-- A stretch of a template; nothing is read of an ill-formed one from where it is. -/
inductive Item where
  | literal (text : List Char)
  | field (name : List Char) (conversion : Option Char) (spec : List Char)
  | bad (message : String)

/-- Where the scan of a template stands: in literal text, in the name of a field or a
bracket in it, before and after the letter of a conversion, and in a format
specification with its open braces counted. -/
inductive Scan where
  | literal (text : List Char)
  | name (name : List Char)
  | bracket (name : List Char)
  | conversion (name : List Char)
  | converted (name : List Char) (conversion : Char)
  | spec (name : List Char) (conversion : Option Char) (text : List Char) (depth : ℕ)

def scan : Scan → List Char → List Item
  | .literal text, [] => [.literal text]
  | .literal text, '\x7b' :: '\x7b' :: cs => scan (.literal (text ++ ['\x7b'])) cs
  | .literal _, ['\x7b'] => [.bad "Single '\x7b' encountered in format string"]
  | .literal text, '\x7b' :: cs => .literal text :: scan (.name []) cs
  | .literal text, '\x7d' :: '\x7d' :: cs => scan (.literal (text ++ ['\x7d'])) cs
  | .literal _, '\x7d' :: _ => [.bad "Single '\x7d' encountered in format string"]
  | .literal text, c :: cs => scan (.literal (text ++ [c])) cs
  | .name _, [] => [.bad "expected '\x7d' before end of string"]
  | .name name, c :: cs =>
      if c = '\x7b' then [.bad "unexpected '\x7b' in field name"]
      else if c = '\x7d' then .field name none [] :: scan (.literal []) cs
      else if c = ':' then scan (.spec name none [] 1) cs
      else if c = '!' then scan (.conversion name) cs
      else if c = '[' then scan (.bracket (name ++ [c])) cs
      else scan (.name (name ++ [c])) cs
  | .bracket _, [] => [.bad "expected '\x7d' before end of string"]
  | .bracket name, c :: cs =>
      if c = ']' then scan (.name (name ++ [c])) cs else scan (.bracket (name ++ [c])) cs
  | .conversion _, [] => [.bad "end of string while looking for conversion specifier"]
  | .conversion name, c :: cs => scan (.converted name c) cs
  | .converted _ _, [] => [.bad "unmatched '\x7b' in format spec"]
  | .converted name conversion, c :: cs =>
      if c = '\x7d' then .field name (some conversion) [] :: scan (.literal []) cs
      else if c = ':' then scan (.spec name (some conversion) [] 1) cs
      else [.bad "expected ':' after conversion specifier"]
  | .spec _ _ _ _, [] => [.bad "unmatched '\x7b' in format spec"]
  | .spec name conversion text depth, c :: cs =>
      if c = '\x7d' then
        if depth = 1 then .field name conversion text :: scan (.literal []) cs
        else scan (.spec name conversion (text ++ [c]) (depth - 1)) cs
      else if c = '\x7b' then scan (.spec name conversion (text ++ [c]) (depth + 1)) cs
      else scan (.spec name conversion (text ++ [c]) depth) cs

def items (template : List Char) : List Item := scan (.literal []) template

/-! ## Fields -/

/-- A step from an object to another, as the name of a field goes on. -/
inductive Step where
  | attr (name : List Char)
  | item (name : List Char)
  | bad (message : String)

inductive StepScan where
  | start
  | attr (name : List Char)
  | item (name : List Char)

def emptyAttribute : Step := .bad "Empty attribute in format string"

def steps : StepScan → List Char → List Step
  | .start, [] => []
  | .start, c :: cs =>
      if c = '.' then steps (.attr []) cs
      else if c = '[' then steps (.item []) cs
      else [.bad "Only '.' or '[' may follow ']' in format field specifier"]
  | .attr name, [] => if name = [] then [emptyAttribute] else [.attr name]
  | .attr name, c :: cs =>
      if c = '.' then
        if name = [] then [emptyAttribute] else .attr name :: steps (.attr []) cs
      else if c = '[' then
        if name = [] then [emptyAttribute] else .attr name :: steps (.item []) cs
      else steps (.attr (name ++ [c])) cs
  | .item _, [] => [.bad "Missing ']' in format string"]
  | .item name, c :: cs =>
      if c = ']' then
        if name = [] then [emptyAttribute] else .item name :: steps .start cs
      else steps (.item (name ++ [c])) cs

/-- The largest index. -/
def maxIndex : ℕ := 2 ^ 63 - 1

/-- The number that the digits go on to, unless there is another character among
them. -/
def readIndex (n : ℕ) : List Char → Except FormatFailure (Option ℕ)
  | [] => .ok (some n)
  | c :: cs =>
      match decimalValue c with
      | none => .ok none
      | some d =>
          if (maxIndex - d) / 10 < n then .error (.value "Too many decimal digits in format string")
          else readIndex (10 * n + d) cs

def isStepStart (c : Char) : Bool := c == '.' || c == '['

/-- The argument that a field names. -/
def argumentName (name : List Char) : List Char := name.takeWhile (!isStepStart ·)

def outOfRange (n : ℕ) : FormatFailure :=
  .index ("Replacement index " ++ toString n ++ " out of range for positional args tuple")

section

variable {O : Type} (objects : Objects O) (kwargs : Dict)

/-- There are no positional arguments. -/
def argument (name : List Char) : Except FormatFailure O :=
  if name = [] then .error (outOfRange 0)
  else do
    match ← readIndex 0 name with
    | some n => .error (outOfRange n)
    | none =>
        match kwargs.get? (String.ofList name) with
        | some x => .ok (objects.ofJson x)
        | none => .error (.key (pyRepr (String.ofList name)))

def advance (obj : O) : Step → Except FormatFailure O
  | .attr name => objects.getattr obj (String.ofList name)
  | .item name => do
      match ← readIndex 0 name with
      | some n => objects.getitem obj (.number n)
      | none => objects.getitem obj (.key (String.ofList name))
  | .bad message => .error (.value message)

/-- The object that a field stands for. -/
def fieldObject (name : List Char) : Except FormatFailure O := do
  let obj ← argument objects kwargs (argumentName name)
  (steps .start (name.dropWhile (!isStepStart ·))).foldlM (advance objects) obj

def converted (conversion : Option Char) (obj : O) : Except FormatFailure O :=
  match conversion with
  | none => .ok obj
  | some 's' => objects.convert .str obj
  | some 'r' => objects.convert .repr obj
  | some 'a' => objects.convert .ascii obj
  | some c => .error (.value ("Unknown conversion specifier " ++ String.ofList [c]))

/-- A specification is a template itself where a brace opens in it. -/
def expanded (expand : List Char → Except FormatFailure (List Char)) (spec : List Char) :
    Except FormatFailure (List Char) :=
  if '\x7b' ∈ spec then expand spec else .ok spec

def writeItem (expand : List Char → Except FormatFailure (List Char)) :
    Item → Except FormatFailure (List Char)
  | .literal text => .ok text
  | .bad message => .error (.value message)
  | .field name conversion spec => do
      let obj ← fieldObject objects kwargs name
      let obj ← converted objects conversion obj
      let spec ← expanded expand spec
      (objects.format obj (String.ofList spec)).map String.toList

/-- The text of a template whose specifications go `depth` levels deep. -/
def render : ℕ → List Char → Except FormatFailure (List Char)
  | 0, _ => .error (.value "Max string recursion exceeded")
  | depth + 1, template => do
      let parts ← (items template).mapM (writeItem objects kwargs (render depth))
      .ok parts.flatten

/-- `template.format(**kwargs)`. -/
def strFormat (template : String) : Except FormatFailure String :=
  (render objects kwargs 2 template.toList).map String.ofList

end

/-! ## Templates that can be written -/

/-- The arguments that an item names, those in its specification included. -/
def itemNames (inner : List Char → List String) : Item → List String
  | .field name _ spec =>
      String.ofList (argumentName name) :: if '\x7b' ∈ spec then inner spec else []
  | _ => []

def placeholders : ℕ → List Char → List String
  | 0, _ => []
  | depth + 1, template => (items template).flatMap (itemNames (placeholders depth))

/-- A field names an argument by a word. -/
def NamesArgument (name : List Char) : Prop :=
  argumentName name ≠ [] ∧ readIndex 0 (argumentName name) = .ok none

section Usable

variable {O : Type} (objects : Objects O) (kwargs : Dict)

/-- What a field asks of its argument, if there is one, the argument has. -/
def Answers (expand : List Char → Except FormatFailure (List Char)) (name : List Char)
    (conversion : Option Char) (spec : List Char) : Prop :=
  ∀ x, kwargs.get? (String.ofList (argumentName name)) = some x →
    ∃ obj shown, fieldObject objects kwargs name = .ok obj ∧
      converted objects conversion obj = .ok shown ∧
      ∀ text, expanded expand spec = .ok text →
        ∃ written, objects.format shown (String.ofList text) = .ok written

/-- Literal text, or a field whose argument can be written as it asks. -/
def ItemUsable (inner : List Char → Prop) (expand : List Char → Except FormatFailure (List Char)) :
    Item → Prop
  | .literal _ => True
  | .bad _ => False
  | .field name conversion spec =>
      NamesArgument name ∧ ('\x7b' ∈ spec → inner spec) ∧
        Answers objects kwargs expand name conversion spec

/-- The template is well formed, its fields have names, and the arguments that are
there can be written as the fields ask. -/
def Usable : ℕ → List Char → Prop
  | 0, _ => False
  | depth + 1, template => ∀ item ∈ items template,
      ItemUsable objects kwargs (Usable depth) (render objects kwargs depth) item

/-- One of the arguments is not there, and the exception names it. -/
def MissesOne (names : List String) (e : FormatFailure) : Prop :=
  ∃ name ∈ names, kwargs.get? name = none ∧ e = .key (pyRepr name)

def AllThere (names : List String) : Prop := ∀ name ∈ names, ∃ x, kwargs.get? name = some x

/-- The text is written where all arguments are there; otherwise a `KeyError` names one
that is not. -/
def WrittenOrMissing (names : List String) (written : Except FormatFailure (List Char)) : Prop :=
  (∃ text, written = .ok text ∧ AllThere kwargs names) ∨
    ∃ e, written = .error e ∧ MissesOne kwargs names e

variable {objects kwargs}

theorem argument_eq {name : List Char} (hname : name ≠ []) (hword : readIndex 0 name = .ok none) :
    argument objects kwargs name =
      match kwargs.get? (String.ofList name) with
      | some x => .ok (objects.ofJson x)
      | none => .error (.key (pyRepr (String.ofList name))) := by
  rw [argument, if_neg hname, hword]
  rfl

theorem fieldObject_absent {name : List Char} (hname : NamesArgument name)
    (habsent : kwargs.get? (String.ofList (argumentName name)) = none) :
    fieldObject objects kwargs name =
      .error (.key (pyRepr (String.ofList (argumentName name)))) := by
  rw [fieldObject, argument_eq hname.1 hname.2, habsent]
  rfl

theorem expanded_usable {inner : List Char → Prop} {names : List Char → List String}
    {expand : List Char → Except FormatFailure (List Char)}
    (hexpand : ∀ spec, inner spec → WrittenOrMissing kwargs (names spec) (expand spec))
    {spec : List Char} (h : '\x7b' ∈ spec → inner spec) :
    WrittenOrMissing kwargs (if '\x7b' ∈ spec then names spec else []) (expanded expand spec) := by
  rw [expanded]
  by_cases hbrace : '\x7b' ∈ spec
  · rw [if_pos hbrace, if_pos hbrace]
    exact hexpand spec (h hbrace)
  · rw [if_neg hbrace, if_neg hbrace]
    exact .inl ⟨spec, rfl, List.forall_mem_nil _⟩

theorem writeItem_usable {inner : List Char → Prop} {names : List Char → List String}
    {expand : List Char → Except FormatFailure (List Char)}
    (hexpand : ∀ spec, inner spec → WrittenOrMissing kwargs (names spec) (expand spec))
    {item : Item} (h : ItemUsable objects kwargs inner expand item) :
    WrittenOrMissing kwargs (itemNames names item) (writeItem objects kwargs expand item) := by
  cases item with
  | literal text => exact .inl ⟨text, rfl, List.forall_mem_nil _⟩
  | bad message => exact h.elim
  | field name conversion spec =>
      obtain ⟨hname, hspec, hanswers⟩ := h
      rw [itemNames, writeItem]
      cases hargument : kwargs.get? (String.ofList (argumentName name)) with
      | none =>
          right
          rw [fieldObject_absent hname hargument]
          exact ⟨_, rfl, _, List.mem_cons_self, hargument, rfl⟩
      | some x =>
          obtain ⟨obj, shown, hobj, hshown, hformat⟩ := hanswers x hargument
          rcases expanded_usable hexpand hspec with ⟨text, htext, hall⟩ | ⟨e, he, hmissing⟩
          · left
            obtain ⟨written, hwritten⟩ := hformat text htext
            refine ⟨written.toList, ?_, List.forall_mem_cons.mpr ⟨⟨x, hargument⟩, hall⟩⟩
            rw [hobj]
            show (converted objects conversion obj >>= _) = _
            rw [hshown]
            show (expanded expand spec >>= _) = _
            rw [htext]
            show (objects.format shown (String.ofList text)).map String.toList = _
            rw [hwritten]
            rfl
          · right
            obtain ⟨missing, hmem, habsent, rfl⟩ := hmissing
            refine ⟨_, ?_, missing, List.mem_cons_of_mem _ hmem, habsent, rfl⟩
            rw [hobj]
            show (converted objects conversion obj >>= _) = _
            rw [hshown]
            show (expanded expand spec >>= _) = _
            rw [he]
            rfl

theorem render_usable (depth : ℕ) : ∀ template : List Char, Usable objects kwargs depth template →
    WrittenOrMissing kwargs (placeholders depth template)
      (render objects kwargs depth template) := by
  induction depth with
  | zero => exact fun _ h => h.elim
  | succ depth ih =>
      intro template husable
      rw [render, placeholders]
      rcases mapM_ok_or_error fun item hitem => writeItem_usable ih (husable item hitem) with
        ⟨parts, hparts, hall⟩ | ⟨e, he, item, hitem, name, hname, hmissing⟩
      · left
        refine ⟨parts.flatten, ?_, ?_⟩
        · rw [hparts]
          rfl
        · intro name hname
          obtain ⟨item, hitem, hmem⟩ := List.mem_flatMap.mp hname
          exact hall item hitem name hmem
      · right
        refine ⟨e, ?_, name, List.mem_flatMap.mpr ⟨item, hitem, hname⟩, hmissing⟩
        rw [he]
        rfl

theorem strFormat_usable {template : String} (h : Usable objects kwargs 2 template.toList) :
    (AllThere kwargs (placeholders 2 template.toList) →
        ∃ text, strFormat objects kwargs template = .ok text) ∧
      (¬ AllThere kwargs (placeholders 2 template.toList) →
        ∃ e, strFormat objects kwargs template = .error e ∧
          MissesOne kwargs (placeholders 2 template.toList) e) := by
  rw [strFormat]
  rcases render_usable 2 template.toList h with ⟨text, htext, hall⟩ | ⟨e, he, hmissing⟩
  · rw [htext]
    exact ⟨fun _ => ⟨String.ofList text, rfl⟩, fun hnot => absurd hall hnot⟩
  · rw [he]
    refine ⟨fun hall => ?_, fun _ => ⟨e, rfl, hmissing⟩⟩
    obtain ⟨name, hmem, hnone, -⟩ := hmissing
    obtain ⟨x, hx⟩ := hall name hmem
    rw [hnone] at hx
    cases hx

end Usable

end Lour.Lib.Python
