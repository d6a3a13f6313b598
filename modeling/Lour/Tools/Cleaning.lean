import Lour.Tools.Schema
/-!
# What cleaning keeps of a schema

A JSON Schema holds schemas, maps from names to schemas, and plain data.  Inlining
its references and dropping its titles has to keep apart which of these it is in;
`_resolve` does not.  The two agree exactly where this makes no difference.
-/

namespace Lour.Tools

open Lour.Lib Lour.Lib.Python Relation

/-! ## Places in a schema -/

inductive Place where
  | schema
  | map
  | data

/-- What stands under a keyword of JSON Schema. -/
def placeOf (keyword : String) : Place :=
  if keyword ∈ ["properties", "patternProperties", "$defs", "definitions", "dependentSchemas",
      "dependencies"] then .map
  else if keyword ∈ ["items", "additionalItems", "prefixItems", "contains", "additionalProperties",
      "unevaluatedItems", "unevaluatedProperties", "propertyNames", "not", "if", "then", "else",
      "allOf", "anyOf", "oneOf", "contentSchema"] then .schema
  else .data

namespace Place

def under : Place → String → Place
  | .schema, keyword => placeOf keyword
  | .map, _ => .schema
  | .data, _ => .data

def item : Place → Place
  | .schema => .schema
  | .map | .data => .data

end Place

/-- The title annotation of a schema; `title` may also be a property, or data. -/
def isTitle (e : String × Json) : Bool :=
  match e.2 with
  | .str _ => e.1 == "title"
  | _ => false

/-- A local reference, whole. -/
def refString (entries : Dict) : Option String :=
  match Dict.get? entries "$ref" with
  | some (.str ref) => if "#/$defs/".toList.isPrefixOf ref.toList then some ref else none
  | _ => none

/-- Only a schema has references. -/
def refAt : Place → Dict → Option String
  | .schema, entries => refString entries
  | _, _ => none

/-- The entries that stay: all but the titles of a schema and its reference. -/
def members (place : Place) (entries : Dict) : Dict :=
  match place with
  | .schema => entries.filter fun e =>
      !isTitle e && (e.1 != "$ref" || (refString entries).isNone)
  | _ => entries

/-! ## Pointers -/

def hexValue (c : Char) : Option ℕ :=
  if '0' ≤ c ∧ c ≤ '9' then some (c.toNat - 48)
  else if 'a' ≤ c ∧ c ≤ 'f' then some (c.toNat - 87)
  else if 'A' ≤ c ∧ c ≤ 'F' then some (c.toNat - 55)
  else none

/-- The bytes that a fragment of a URI stands for. -/
def unquote : List Char → List UInt8
  | [] => []
  | '%' :: a :: b :: cs =>
      match hexValue a, hexValue b with
      | some x, some y => UInt8.ofNat (16 * x + y) :: unquote cs
      | _, _ => String.utf8EncodeChar '%' ++ unquote (a :: b :: cs)
  | c :: cs => String.utf8EncodeChar c ++ unquote cs

/-- A token of a JSON Pointer. -/
def unescape : List Char → List Char
  | [] => []
  | '~' :: '1' :: cs => '/' :: unescape cs
  | '~' :: '0' :: cs => '~' :: unescape cs
  | c :: cs => c :: unescape cs

def follow : Json → List String → Option Json
  | x, [] => some x
  | .obj entries, token :: tokens => (Dict.get? entries token).bind fun x => follow x tokens
  | .arr items, token :: tokens =>
      (items.zipIdx.find? fun p => toString p.2 == token).bind fun p => follow p.1 tokens
  | _, _ :: _ => none

/-- What a reference `#/$defs/…` points at. -/
def pointed (defs : Json) (ref : String) : Option Json :=
  (decode (unquote (ref.toList.drop "#/$defs/".length)).toByteArray).bind fun pointer =>
    follow defs ((pointer.toList.splitOn '/').map fun token => String.ofList (unescape token))

/-! ## The schema with its references inlined -/

open Classical in
/-- A schema and what stands beside a reference to it, in one. -/
noncomputable def beside (target : Json) (siblings : Dict) : Json :=
  if target.isDict then .obj (target.asDict ++ siblings.filter fun e => e ∉ target.asDict)
  else if siblings.isEmpty then target
  else .obj (("allOf", .arr [target]) :: siblings)

/-- The schema with its local references inlined and its titles dropped, on a stack
of `depth` frames. -/
noncomputable def inlined (defs : Json) : ℕ → Place → Json → Option Json
  | 0, _, _ => none
  | depth + 1, place, .obj entries =>
      ((members place entries).mapM fun e =>
          (inlined defs depth (place.under e.1) e.2).map fun x => (e.1, x)).bind fun inside =>
        match refAt place entries with
        | none => some (.obj inside)
        | some ref => (pointed defs ref).bind fun target =>
            (inlined defs depth .schema target).map fun x => beside x inside
  | depth + 1, place, .arr items => (items.mapM (inlined defs depth place.item)).map .arr
  | _ + 1, _, x => some x

def Inlines (defs : Json) (place : Place) (node x : Json) : Prop :=
  ∃ depth, inlined defs depth place node = some x

/-- `x` occurs in the value. -/
inductive Occurs (x : Json) : Json → Prop
  | here : Occurs x x
  | value {entries : Dict} {e : String × Json} (he : e ∈ entries) (h : Occurs x e.2) :
      Occurs x (.obj entries)
  | item {items : List Json} {y : Json} (hy : y ∈ items) (h : Occurs x y) : Occurs x (.arr items)

/-- The cleaned schema has no local reference, and is the schema with its references
inlined and nothing but its titles dropped. -/
def Keeps (schema : Dict) : Prop :=
  ∃ depth cleaned, cleanJsonSchema depth schema = some cleaned ∧
    (∀ entries, Occurs (.obj entries) (.obj cleaned) → localRef entries = none) ∧
    Inlines (defsOf schema) .schema (.obj (popDefs schema)) (.obj cleaned)

/-! ## The walks -/

def placedParts : Place × Json → List (Place × Json)
  | (place, .obj entries) => (members place entries).map fun e => (place.under e.1, e.2)
  | (place, .arr items) => items.map fun x => (place.item, x)
  | _ => []

def placedRefs : Place × Json → List String
  | (place, .obj entries) => ((refAt place entries).map lastSegment).toList
  | _ => []

theorem placedParts_lt (a b : Place × Json) (hb : b ∈ placedParts a) :
    sizeOf b.2 < sizeOf a.2 := by
  obtain ⟨place, node⟩ := a
  cases node with
  | obj entries =>
      obtain ⟨e, he, rfl⟩ := List.mem_map.mp hb
      have hmem : e ∈ entries := by
        cases place with
        | schema => exact List.mem_of_mem_filter he
        | map => exact he
        | data => exact he
      have hentry : sizeOf e < sizeOf entries := List.sizeOf_lt_of_mem hmem
      have hvalue : sizeOf e = 1 + sizeOf e.1 + sizeOf e.2 := rfl
      rw [Json.obj.sizeOf_spec]
      show sizeOf e.2 < _
      omega
  | arr items =>
      obtain ⟨x, hx, rfl⟩ := List.mem_map.mp hb
      have hitem : sizeOf x < sizeOf items := List.sizeOf_lt_of_mem hx
      rw [Json.arr.sizeOf_spec]
      show sizeOf x < _
      omega
  | _ => exact absurd hb List.not_mem_nil

/-- A schema with its places. -/
def placedDocument (defs : Json) : Document (Place × Json) String where
  parts := placedParts
  wf := Subrelation.wf (placedParts_lt _ _) (measure fun a : Place × Json => sizeOf a.2).wf
  refs := placedRefs
  target name := (.schema, (definition defs name).getD (.obj []))

/-- One step down into the schema, or to the definition that a reference names. -/
def Steps (defs : Json) (a b : Place × Json) : Prop :=
  b ∈ placedParts a ∨ ∃ name ∈ placedRefs a, b = (placedDocument defs).target name

/-- The step of `_resolve`, which looks at nothing beside a reference. -/
def Looks (defs : Json) (a b : Place × Json) : Prop :=
  placedRefs a = [] ∧ b ∈ placedParts a ∨
    ∃ name ∈ placedRefs a, b = (placedDocument defs).target name

/-- The reference points at the definition of its name. -/
def Directed (defs : Json) (ref : String) : Prop :=
  ∃ target, definition defs (lastSegment ref) = some target ∧ pointed defs ref = some target

def DirectedFrom (defs : Json) (a : Place × Json) : Prop :=
  ∀ place entries ref, ReflTransGen (Steps defs) a (place, .obj entries) →
    refAt place entries = some ref → Directed defs ref

/-- A schema is an object or a truth value. -/
def isSchema : Json → Bool
  | .obj _ | .bool _ => true
  | _ => false

/-- The definitions are schemas, every reference met points at the definition of its
name, and none leads back to itself. -/
structure WellReferenced (schema : Dict) : Prop where
  schemas : ∀ e ∈ (defsOf schema).asDict, isSchema e.2 = true
  directed : DirectedFrom (defsOf schema) (.schema, .obj (popDefs schema))
  acyclic : (placedDocument (defsOf schema)).AcyclicFrom (.schema, .obj (popDefs schema))

/-- What stands beside the reference stands in the definition as well. -/
def Repeated (defs : Json) (entries : Dict) (name : String) : Prop :=
  ∀ e ∈ members .schema entries, ∃ x target, Inlines defs (placeOf e.1) e.2 x ∧
    Inlines defs .schema ((placedDocument defs).target name).2 target ∧ (e.1, x) ∈ target.asDict

/-- A node that comes out right: the title of a schema is a string, what stands beside
a reference is repeated, and nothing else looks like either of these. -/
def Plain (defs : Json) : Place → Json → Prop
  | .schema, .obj entries =>
      match refString entries with
      | some ref => Repeated defs entries (lastSegment ref)
      | none => ∀ e ∈ entries, e.1 = "title" → isTitle e = true
  | _, .obj entries => refString entries = none ∧ ∀ e ∈ entries, e.1 ≠ "title"
  | _, _ => True

def PlainFrom (defs : Json) (a : Place × Json) : Prop :=
  ∀ place node, ReflTransGen (Looks defs) a (place, node) → Plain defs place node

section

variable {defs : Json} {place : Place} {entries : Dict} {ref : String}

/-! The steps at a node. -/

theorem steps_member {e : String × Json} (he : e ∈ members place entries) :
    Steps defs (place, .obj entries) (place.under e.1, e.2) :=
  .inl (List.mem_map_of_mem he)

theorem steps_target (href : refAt place entries = some ref) :
    Steps defs (place, .obj entries) ((placedDocument defs).target (lastSegment ref)) := by
  refine .inr ⟨lastSegment ref, ?_, rfl⟩
  show lastSegment ref ∈ ((refAt place entries).map lastSegment).toList
  rw [href]
  exact List.mem_singleton_self _

theorem steps_item {items : List Json} {x : Json} (hx : x ∈ items) :
    Steps defs (place, .arr items) (place.item, x) :=
  .inl (List.mem_map_of_mem hx)

theorem looks_member (href : refAt place entries = none) {b : Place × Json} :
    Looks defs (place, .obj entries) b ↔
      ∃ e ∈ members place entries, b = (place.under e.1, e.2) := by
  have hrefs : placedRefs (place, .obj entries) = [] := by
    show ((refAt place entries).map lastSegment).toList = []
    rw [href]
    rfl
  rw [Looks, hrefs]
  constructor
  · rintro (⟨-, hb⟩ | ⟨name, hname, -⟩)
    · obtain ⟨e, he, rfl⟩ := List.mem_map.mp hb
      exact ⟨e, he, rfl⟩
    · exact absurd hname List.not_mem_nil
  · rintro ⟨e, he, rfl⟩
    exact .inl ⟨rfl, List.mem_map_of_mem he⟩

theorem looks_target (href : refAt place entries = some ref) {b : Place × Json} :
    Looks defs (place, .obj entries) b ↔ b = (placedDocument defs).target (lastSegment ref) := by
  have hrefs : placedRefs (place, .obj entries) = [lastSegment ref] := by
    show ((refAt place entries).map lastSegment).toList = _
    rw [href]
    rfl
  rw [Looks, hrefs]
  simp

theorem looks_item {items : List Json} {b : Place × Json} :
    Looks defs (place, .arr items) b ↔ ∃ x ∈ items, b = (place.item, x) := by
  constructor
  · rintro (⟨-, hb⟩ | ⟨name, hname, -⟩)
    · obtain ⟨x, hx, rfl⟩ := List.mem_map.mp hb
      exact ⟨x, hx, rfl⟩
    · exact absurd hname List.not_mem_nil
  · rintro ⟨x, hx, rfl⟩
    exact .inl ⟨rfl, List.mem_map_of_mem hx⟩

theorem not_looks_leaf {a b : Place × Json} (hparts : placedParts a = [])
    (hrefs : placedRefs a = []) : ¬ Looks defs a b := by
  rw [Looks, hparts, hrefs]
  simp

theorem DirectedFrom.step {a b : Place × Json} (h : DirectedFrom defs a) (hab : Steps defs a b) :
    DirectedFrom defs b :=
  fun place entries ref hb href => h place entries ref (hb.head hab) href

theorem DirectedFrom.here (h : DirectedFrom defs (place, .obj entries))
    (href : refAt place entries = some ref) : Directed defs ref :=
  h place entries ref .refl href

theorem directedFrom_iff {a : Place × Json} :
    DirectedFrom defs a ↔
      (∀ place entries ref, a = (place, .obj entries) → refAt place entries = some ref →
        Directed defs ref) ∧
      ∀ b, Steps defs a b → DirectedFrom defs b := by
  constructor
  · refine fun h => ⟨fun place entries ref ha href => ?_, fun b hab => h.step hab⟩
    subst ha
    exact h.here href
  · rintro ⟨hhere, hrest⟩ place entries ref hnode href
    rcases ReflTransGen.cases_head hnode with ha | ⟨b, hab, hb⟩
    · exact hhere place entries ref ha href
    · exact hrest b hab place entries ref hb href

theorem plainFrom_iff {a : Place × Json} :
    PlainFrom defs a ↔ Plain defs a.1 a.2 ∧ ∀ b, Looks defs a b → PlainFrom defs b := by
  constructor
  · exact fun h => ⟨h a.1 a.2 .refl, fun b hab place node hb => h place node (hb.head hab)⟩
  · rintro ⟨hplain, hrest⟩ place node hnode
    rcases ReflTransGen.cases_head hnode with rfl | ⟨b, hab, hb⟩
    · exact hplain
    · exact hrest b hab place node hb

/-! References, and the entries that stay. -/

theorem refString_eq_some :
    refString entries = some ref ↔
      Dict.get? entries "$ref" = some (.str ref) ∧
        "#/$defs/".toList.isPrefixOf ref.toList = true := by
  rw [refString]
  cases hget : Dict.get? entries "$ref" with
  | none => simp
  | some x =>
      cases x with
      | str s =>
          simp only [Option.ite_none_right_eq_some, Option.some.injEq, Json.str.injEq]
          constructor
          · rintro ⟨hlocal, rfl⟩
            exact ⟨rfl, hlocal⟩
          · rintro ⟨rfl, hlocal⟩
            exact ⟨hlocal, rfl⟩
      | _ => simp

theorem localRef_eq (entries : Dict) : localRef entries = (refString entries).map lastSegment := by
  rw [localRef, refString]
  cases Dict.get? entries "$ref" with
  | none => rfl
  | some x =>
      cases x with
      | str s => exact (apply_ite (Option.map lastSegment) _ (some s) none).symm
      | _ => rfl

theorem localRef_eq_none_iff : localRef entries = none ↔ refString entries = none := by
  rw [localRef_eq, Option.map_eq_none_iff]

theorem localRef_of_refString (href : refString entries = some ref) :
    localRef entries = some (lastSegment ref) := by
  rw [localRef_eq, href]
  rfl

theorem members_of_refAt_none (href : refAt place entries = none) :
    members place entries =
      entries.filter fun e => match place with | .schema => !isTitle e | _ => true := by
  cases place with
  | schema =>
      have hnone : refString entries = none := href
      simp [members, hnone]
  | map => exact (List.filter_eq_self.mpr fun _ _ => rfl).symm
  | data => exact (List.filter_eq_self.mpr fun _ _ => rfl).symm

/-- What `_resolve` keeps stays. -/
theorem title_sublist (href : refAt place entries = none) :
    (entries.filter fun e => e.1 != "title").Sublist (members place entries) := by
  rw [members_of_refAt_none href]
  refine List.monotone_filter_right entries fun e he => ?_
  cases place with
  | schema =>
      show (!isTitle e) = true
      rw [isTitle]
      cases e.2 with
      | str s => exact he
      | _ => rfl
  | map => rfl
  | data => rfl

theorem inlined_object (href : refAt place entries = none) (depth : ℕ) :
    inlined defs (depth + 1) place (.obj entries) =
      ((members place entries).mapM fun e =>
        (inlined defs depth (place.under e.1) e.2).map fun x => (e.1, x)).map .obj := by
  rw [inlined, href]
  rw [Option.map_eq_bind]
  rfl

theorem inlined_ref_eq_some (href : refAt place entries = some ref) {depth : ℕ} {y : Json} :
    inlined defs (depth + 1) place (.obj entries) = some y ↔
      ∃ inside target x, ((members place entries).mapM fun e =>
          (inlined defs depth (place.under e.1) e.2).map fun x => (e.1, x)) = some inside ∧
        pointed defs ref = some target ∧ inlined defs depth .schema target = some x ∧
        y = beside x inside := by
  rw [inlined, href, Option.bind_eq_some_iff]
  simp only [Option.bind_eq_some_iff, Option.map_eq_some_iff]
  constructor
  · rintro ⟨inside, hinside, target, htarget, x, hx, rfl⟩
    exact ⟨inside, target, x, hinside, htarget, hx, rfl⟩
  · rintro ⟨inside, target, x, hinside, htarget, hx, rfl⟩
    exact ⟨inside, hinside, target, htarget, x, hx, rfl⟩

theorem inlined_mono {d e : ℕ} {node y : Json} (h : inlined defs d place node = some y)
    (hle : d ≤ e) : inlined defs e place node = some y := by
  induction d generalizing e place node y with
  | zero => cases h
  | succ d ih =>
      obtain ⟨e, rfl⟩ := Nat.exists_eq_add_of_lt (Nat.lt_of_succ_le hle)
      have hdeeper : ∀ {place node y}, inlined defs d place node = some y →
          inlined defs (d + e) place node = some y := fun hy => ih hy (Nat.le_add_right d e)
      have hentry : ∀ {place : Place} (e' : String × Json) (b : String × Json),
          ((inlined defs d (place.under e'.1) e'.2).map fun x => (e'.1, x)) = some b →
          ((inlined defs (d + e) (place.under e'.1) e'.2).map fun x => (e'.1, x)) = some b := by
        intro place e' b hb
        obtain ⟨x, hx, rfl⟩ := Option.map_eq_some_iff.mp hb
        rw [hdeeper hx]
        rfl
      cases node with
      | obj entries =>
          cases href : refAt place entries with
          | some ref =>
              obtain ⟨inside, target, x, hinside, htarget, hx, rfl⟩ :=
                (inlined_ref_eq_some href).mp h
              refine (inlined_ref_eq_some href).mpr
                ⟨inside, target, x, ?_, htarget, hdeeper hx, rfl⟩
              exact mapM_mono (fun e' _ b hb => hentry e' b hb) hinside
          | none =>
              rw [inlined_object href] at h ⊢
              obtain ⟨inside, hinside, rfl⟩ := Option.map_eq_some_iff.mp h
              refine Option.map_eq_some_iff.mpr ⟨inside, ?_, rfl⟩
              exact mapM_mono (fun e' _ b hb => hentry e' b hb) hinside
      | arr items =>
          obtain ⟨ys, hys, rfl⟩ := Option.map_eq_some_iff.mp h
          refine Option.map_eq_some_iff.mpr ⟨ys, ?_, rfl⟩
          exact mapM_mono (fun item _ b hb => hdeeper hb) hys
      | _ => exact h

theorem Inlines.unique {node x y : Json} (hx : Inlines defs place node x)
    (hy : Inlines defs place node y) : x = y := by
  obtain ⟨d, hd⟩ := hx
  obtain ⟨e, he⟩ := hy
  have hdeepX := inlined_mono hd (le_max_left d e)
  have hdeepY := inlined_mono he (le_max_right d e)
  exact Option.some.inj (hdeepX.symm.trans hdeepY)

theorem inlined_str {depth : ℕ} {s : String} {y : Json}
    (h : inlined defs depth place (.str s) = some y) : y = .str s := by
  cases depth with
  | zero => cases h
  | succ depth => exact (Option.some.inj h).symm

/-! A schema beside its reference. -/

theorem asDict_of_not_isDict {x : Json} (h : x.isDict = false) : x.asDict = [] := by
  cases x with
  | obj entries => cases h
  | _ => rfl

theorem obj_asDict {x : Json} (h : x.isDict = true) : .obj x.asDict = x := by
  cases x with
  | obj entries => rfl
  | _ => cases h

open Classical in
theorem beside_of_isDict {target : Json} (h : target.isDict = true) (siblings : Dict) :
    ∃ others, beside target siblings = .obj (target.asDict ++ others) ∧
      ∀ e, e ∈ others ↔ e ∈ siblings ∧ e ∉ target.asDict := by
  rw [beside, if_pos h]
  refine ⟨_, rfl, fun e => ?_⟩
  rw [List.mem_filter, decide_eq_true_iff]

theorem le_beside (target : Json) (siblings : Dict) :
    target.asDict.length ≤ (beside target siblings).asDict.length := by
  cases hdict : target.isDict with
  | true =>
      obtain ⟨others, hbeside, -⟩ := beside_of_isDict hdict siblings
      rw [hbeside]
      show target.asDict.length ≤ (target.asDict ++ others).length
      rw [List.length_append]
      exact Nat.le_add_right _ _
  | false =>
      rw [asDict_of_not_isDict hdict]
      exact Nat.zero_le _

theorem beside_eq {target : Json} {siblings : Dict} (h : ∀ e ∈ siblings, e ∈ target.asDict) :
    beside target siblings = target := by
  cases hdict : target.isDict with
  | true =>
      obtain ⟨others, hbeside, hothers⟩ := beside_of_isDict hdict siblings
      have hnil : others = [] :=
        List.eq_nil_iff_forall_not_mem.mpr fun e he =>
          ((hothers e).mp he).2 (h e ((hothers e).mp he).1)
      rw [hbeside, hnil, List.append_nil, obj_asDict hdict]
  | false =>
      rw [asDict_of_not_isDict hdict] at h
      have hnil : siblings = [] :=
        List.eq_nil_iff_forall_not_mem.mpr fun e he => List.not_mem_nil (h e he)
      rw [beside, hdict, hnil]
      rfl

/-- Nothing is added exactly when it was all there. -/
theorem mem_of_beside_le {target : Json} {siblings : Dict}
    (h : (beside target siblings).asDict.length ≤ target.asDict.length) :
    ∀ e ∈ siblings, e ∈ target.asDict := by
  intro e he
  cases hdict : target.isDict with
  | true =>
      obtain ⟨others, hbeside, hothers⟩ := beside_of_isDict hdict siblings
      rw [hbeside] at h
      change (target.asDict ++ others).length ≤ target.asDict.length at h
      rw [List.length_append] at h
      have hnil : others = [] := List.eq_nil_of_length_eq_zero (by omega)
      by_contra hnot
      have hmem := (hothers e).mpr ⟨he, hnot⟩
      rw [hnil] at hmem
      exact List.not_mem_nil hmem
  | false =>
      rw [asDict_of_not_isDict hdict, beside, hdict, if_neg Bool.false_ne_true] at h
      cases siblings with
      | nil => exact absurd he List.not_mem_nil
      | cons s rest =>
          change (("allOf", Json.arr [target]) :: s :: rest).length ≤ 0 at h
          rw [List.length_cons] at h
          omega

/-! What `_resolve` comes to. -/

theorem get?_mapM {f : String → Json → Option Json} {l zs : Dict}
    (h : (l.mapM fun e => (f e.1 e.2).map fun x => (e.1, x)) = some zs) (key : String) :
    Dict.get? zs key = (Dict.get? l key).bind (f key) := by
  induction l generalizing zs with
  | nil =>
      cases h
      rfl
  | cons e l ih =>
      obtain ⟨z, rest, hz, hrest, rfl⟩ := mapM_cons_eq_some.mp h
      obtain ⟨x, hx, rfl⟩ := Option.map_eq_some_iff.mp hz
      by_cases hkey : e.1 = key
      · subst hkey
        simp [Dict.get?, hx]
      · have htail := ih hrest
        simpa [Dict.get?, hkey] using htail

theorem get?_filter_of_ne {key dropped : String} (h : key ≠ dropped) (l : Dict) :
    Dict.get? (l.filter fun e => e.1 != dropped) key = Dict.get? l key := by
  rw [Dict.get?, Dict.get?, List.find?_filter]
  congr 2
  ext e
  by_cases hkey : e.1 = key
  · simp [hkey, h]
  · simp [hkey]

theorem definition_isSchema (hschemas : ∀ e ∈ defs.asDict, isSchema e.2 = true) {name : String}
    {target : Json} (h : definition defs name = some target) : isSchema target = true := by
  cases defs with
  | obj ds =>
      have hget : (Dict.get? ds name).getD (.obj []) = target := Option.some.inj h
      rw [Dict.get?] at hget
      cases hfound : ds.find? fun e => e.1 == name with
      | none =>
          rw [hfound] at hget
          rw [← hget]
          rfl
      | some e =>
          rw [hfound] at hget
          rw [← hget]
          exact hschemas e (List.mem_of_find?_eq_some hfound)
  | _ => cases h

theorem resolve_isSchema (hschemas : ∀ e ∈ defs.asDict, isSchema e.2 = true) {d : ℕ}
    {node y : Json} (hnode : isSchema node = true) (h : resolve defs d node = some y) :
    isSchema y = true := by
  refine resolve_induction (motive := fun node y => isSchema node = true → isSchema y = true)
    ?ref ?object ?array ?leaf h hnode
  case ref =>
      intro entries name target y href hdefs htarget _
      exact htarget (definition_isSchema hschemas hdefs)
  case object =>
      intro depth entries ys href hys ih _
      rfl
  case array =>
      intro depth items ys hys ih hnode
      cases hnode
  case leaf => exact fun x _ _ hnode => hnode

/-- A text comes out of nothing but itself. -/
theorem resolve_str (hschemas : ∀ e ∈ defs.asDict, isSchema e.2 = true) {d : ℕ} {node : Json}
    {s : String} (h : resolve defs d node = some (.str s)) : node = .str s := by
  cases d with
  | zero => cases h
  | succ d =>
      cases node with
      | str t => exact Option.some.inj h
      | obj entries =>
          have hschema := resolve_isSchema hschemas rfl h
          cases hschema
      | arr items =>
          obtain ⟨_, -, heq⟩ := Option.map_eq_some_iff.mp h
          cases heq
      | _ => cases h

/-- No object that comes out is a local reference. -/
theorem localRef_of_resolve (hschemas : ∀ e ∈ defs.asDict, isSchema e.2 = true) {d : ℕ}
    {node : Json} {ys : Dict} (h : resolve defs d node = some (.obj ys)) : localRef ys = none := by
  refine resolve_induction
    (motive := fun _ y => ∀ ys, y = .obj ys → localRef ys = none) ?ref ?object ?array ?leaf h ys rfl
  case ref =>
      intro entries name target y href hdefs htarget
      exact htarget
  case object =>
      intro depth entries zs href hzs ih ys heq
      cases heq
      rw [localRef_eq_none_iff]
      by_contra hsome
      obtain ⟨ref, hsome⟩ := Option.ne_none_iff_exists'.mp hsome
      obtain ⟨hget, hlocal⟩ := refString_eq_some.mp hsome
      have hvalue := get?_mapM (f := fun _ x => resolve defs depth x) hzs "$ref"
      rw [hget] at hvalue
      obtain ⟨x, hx, hresolved⟩ := Option.bind_eq_some_iff.mp hvalue.symm
      rw [get?_filter_of_ne (by decide : "$ref" ≠ "title"), resolve_str hschemas hresolved] at hx
      have hnone := localRef_eq_none_iff.mp href
      rw [refString_eq_some.mpr ⟨hx, hlocal⟩] at hnone
      cases hnone
  case array =>
      intro depth items zs hzs ih ys heq
      cases heq
  case leaf =>
      intro x hdict harray ys heq
      rw [heq] at hdict
      cases hdict

theorem localRef_of_occurs (hschemas : ∀ e ∈ defs.asDict, isSchema e.2 = true) {d : ℕ}
    {node y : Json} (h : resolve defs d node = some y) {inner : Dict}
    (hinner : Occurs (.obj inner) y) : localRef inner = none := by
  refine resolve_induction
    (motive := fun _ y => Occurs (.obj inner) y → localRef inner = none)
    ?ref ?object ?array ?leaf h hinner
  case ref =>
      intro entries name target y href hdefs htarget
      exact htarget
  case object =>
      intro depth entries ys href hys ih hinner
      cases hinner with
      | here =>
          have hwhole : resolve defs (depth + 1) (.obj entries) = some (.obj inner) := by
            rw [resolve_object href, hys]
            rfl
          exact localRef_of_resolve hschemas hwhole
      | value he hvalue =>
          obtain ⟨a, -, ha⟩ := mapM_mem hys he
          obtain ⟨x, hx, rfl⟩ := Option.map_eq_some_iff.mp ha
          exact ih a.2 x hx hvalue
  case array =>
      intro depth items ys hys ih hinner
      cases hinner with
      | item hx hvalue =>
          obtain ⟨a, -, ha⟩ := mapM_mem hys hx
          exact ih a _ ha hvalue
  case leaf =>
      intro x hdict harray hinner
      cases hinner with
      | here => cases hdict
      | value _ _ => cases hdict
      | item _ _ => exact absurd rfl (harray _)

/-! The two walks side by side. -/

theorem DirectedFrom.target (h : DirectedFrom defs (.schema, .obj entries))
    (href : refString entries = some ref) :
    ∃ target, definition defs (lastSegment ref) = some target ∧ pointed defs ref = some target ∧
      (placedDocument defs).target (lastSegment ref) = (.schema, target) ∧
      DirectedFrom defs (.schema, target) := by
  obtain ⟨target, hdefs, hpointed⟩ := h.here (show refAt .schema entries = some ref from href)
  have htarget : (placedDocument defs).target (lastSegment ref) = (.schema, target) := by
    show (Place.schema, (definition defs (lastSegment ref)).getD (.obj [])) = _
    rw [hdefs]
    rfl
  refine ⟨target, hdefs, hpointed, htarget, ?_⟩
  rw [← htarget]
  exact h.step (steps_target href)

/-- At a reference whose definition is known, that definition is inlined. -/
theorem exists_beside {place : Place} {target y : Json} {d : ℕ}
    (href : refAt place entries = some ref) (hpointed : pointed defs ref = some target)
    (h : inlined defs (d + 1) place (.obj entries) = some y) :
    ∃ inside x, ((members place entries).mapM fun e =>
        (inlined defs d (place.under e.1) e.2).map fun x => (e.1, x)) = some inside ∧
      inlined defs d .schema target = some x ∧ y = beside x inside := by
  obtain ⟨inside, target', x, hinside, hpointed', hx, hy⟩ := (inlined_ref_eq_some href).mp h
  rw [hpointed] at hpointed'
  cases hpointed'
  exact ⟨inside, x, hinside, hx, hy⟩

/-- What stands beside a reference is repeated where all of it, inlined, is in the definition. -/
theorem repeated_iff {target x : Json} {inside : Dict} {name : String} {d : ℕ}
    (hinside : ((members .schema entries).mapM fun e =>
      (inlined defs d (Place.schema.under e.1) e.2).map fun x => (e.1, x)) = some inside)
    (htarget : (placedDocument defs).target name = (.schema, target))
    (hx : inlined defs d .schema target = some x) :
    Repeated defs entries name ↔ ∀ e ∈ inside, e ∈ x.asDict := by
  constructor
  · intro hrepeated e he
    obtain ⟨a, ha, hvalue⟩ := mapM_mem hinside he
    obtain ⟨v, hv, rfl⟩ := Option.map_eq_some_iff.mp hvalue
    obtain ⟨v', x', hv', hx', hstands⟩ := hrepeated a ha
    rw [htarget] at hx'
    rw [Inlines.unique ⟨d, hv⟩ hv', Inlines.unique ⟨d, hx⟩ hx']
    exact hstands
  · intro hmem a ha
    obtain ⟨b, hb, hvalue⟩ := mem_mapM hinside ha
    obtain ⟨v, hv, rfl⟩ := Option.map_eq_some_iff.mp hvalue
    refine ⟨v, x, ⟨d, hv⟩, ⟨d, ?_⟩, hmem _ hb⟩
    rw [htarget]
    exact hx

/-- `_resolve` adds no entries to a schema. -/
theorem resolve_le {d e : ℕ} {node y z : Json} (hdirected : DirectedFrom defs (.schema, node))
    (hy : resolve defs d node = some y) (hz : inlined defs e .schema node = some z) :
    y.asDict.length ≤ z.asDict.length := by
  induction d generalizing e node y z with
  | zero => cases hy
  | succ d ih =>
      cases e with
      | zero => cases hz
      | succ e =>
      cases node with
      | obj entries =>
          cases href : refString entries with
          | some ref =>
              obtain ⟨target, hdefs, hpointed, -, htarget⟩ := hdirected.target href
              have hat : refAt .schema entries = some ref := href
              rw [resolve_ref (localRef_of_refString href), hdefs] at hy
              obtain ⟨inside, x, -, hx, rfl⟩ := exists_beside hat hpointed hz
              exact (ih htarget hy hx).trans (le_beside x inside)
          | none =>
              have hat : refAt .schema entries = none := href
              rw [resolve_object (localRef_eq_none_iff.mpr href)] at hy
              rw [inlined_object hat] at hz
              obtain ⟨ys, hys, rfl⟩ := Option.map_eq_some_iff.mp hy
              obtain ⟨zs, hzs, rfl⟩ := Option.map_eq_some_iff.mp hz
              show ys.length ≤ zs.length
              rw [mapM_length hys, mapM_length hzs]
              exact (title_sublist hat).length_le
      | arr items =>
          obtain ⟨ys, -, rfl⟩ := Option.map_eq_some_iff.mp hy
          exact Nat.zero_le _
      | _ =>
          cases hy
          exact Nat.zero_le _

/-- At a plain object the same entries stay. -/
theorem Plain.members (h : Plain defs place (.obj entries)) (href : refAt place entries = none) :
    refString entries = none ∧
      Tools.members place entries = entries.filter fun e => e.1 != "title" := by
  rw [members_of_refAt_none href]
  cases place with
  | schema =>
      have hnone : refString entries = none := href
      rw [Plain, hnone] at h
      refine ⟨hnone, List.filter_congr fun e he => ?_⟩
      by_cases htitle : e.1 = "title"
      · simp [h e he htitle, htitle]
      · have hnot : isTitle e = false := by
          rw [isTitle]
          cases e.2 with
          | str s => exact beq_false_of_ne htitle
          | _ => rfl
        simp [hnot, htitle]
  | map => exact ⟨h.1, List.filter_congr fun e he => (bne_iff_ne.mpr (h.2 e he)).symm⟩
  | data => exact ⟨h.1, List.filter_congr fun e he => (bne_iff_ne.mpr (h.2 e he)).symm⟩

theorem plain_of_members (href : refAt place entries = none) (hnone : refString entries = none)
    (h : (entries.filter fun e => e.1 != "title") = Tools.members place entries) :
    Plain defs place (.obj entries) := by
  have hkept : ∀ e ∈ Tools.members place entries, e.1 ≠ "title" := by
    intro e he
    rw [← h] at he
    exact bne_iff_ne.mp (List.mem_filter.mp he).2
  cases place with
  | schema =>
      rw [Plain, hnone]
      intro e he htitle
      by_contra hnot
      refine hkept e ?_ htitle
      have hfalse : isTitle e = false := Bool.eq_false_of_not_eq_true hnot
      rw [members_of_refAt_none href, List.mem_filter]
      simp [he, hfalse]
  | map => exact ⟨hnone, hkept⟩
  | data => exact ⟨hnone, hkept⟩

/-- Where every node that `_resolve` looks at is plain, it inlines the references. -/
theorem resolve_of_inlined {d : ℕ} {node y : Json} (hdirected : DirectedFrom defs (place, node))
    (hplain : PlainFrom defs (place, node)) (h : inlined defs d place node = some y) :
    resolve defs d node = some y := by
  induction d generalizing place node y with
  | zero => cases h
  | succ d ih =>
      obtain ⟨hhere, hrest⟩ := plainFrom_iff.mp hplain
      cases node with
      | obj entries =>
          cases href : refAt place entries with
          | some ref =>
              cases place with
              | schema =>
                  obtain ⟨target, hdefs, hpointed, htarget, hfrom⟩ := hdirected.target href
                  obtain ⟨inside, x, hinside, hx, rfl⟩ := exists_beside href hpointed h
                  have hrefString : refString entries = some ref := href
                  have hrepeated : Repeated defs entries (lastSegment ref) := by
                    rw [Plain, hrefString] at hhere
                    exact hhere
                  have hmem := (repeated_iff hinside htarget hx).mp hrepeated
                  rw [resolve_ref (localRef_of_refString hrefString), hdefs, beside_eq hmem]
                  refine ih hfrom ?_ hx
                  rw [← htarget]
                  exact hrest _ ((looks_target href).mpr rfl)
              | map => cases href
              | data => cases href
          | none =>
              obtain ⟨hnone, hmembers⟩ := Plain.members hhere href
              rw [resolve_object (localRef_eq_none_iff.mpr hnone), ← hmembers]
              rw [inlined_object href] at h
              obtain ⟨ys, hys, rfl⟩ := Option.map_eq_some_iff.mp h
              refine Option.map_eq_some_iff.mpr ⟨ys, ?_, rfl⟩
              refine mapM_mono (fun e he b hb => ?_) hys
              obtain ⟨x, hx, rfl⟩ := Option.map_eq_some_iff.mp hb
              have hvalue := ih (hdirected.step (steps_member he))
                (hrest _ ((looks_member href).mpr ⟨e, he, rfl⟩)) hx
              rw [hvalue]
              rfl
      | arr items =>
          obtain ⟨ys, hys, rfl⟩ := Option.map_eq_some_iff.mp h
          refine Option.map_eq_some_iff.mpr ⟨ys, ?_, rfl⟩
          exact mapM_mono (fun x hx b hb => ih (hdirected.step (steps_item hx))
            (hrest _ (looks_item.mpr ⟨x, hx, rfl⟩)) hb) hys
      | _ => exact h

/-- A map or data that comes out as it should is no reference to `_resolve` either. -/
theorem refString_of_resolve (hschemas : ∀ e ∈ defs.asDict, isSchema e.2 = true) {d e : ℕ}
    {y : Json} (href : refAt place entries = none)
    (hy : resolve defs d (.obj entries) = some y)
    (hz : inlined defs e place (.obj entries) = some y) : refString entries = none := by
  cases e with
  | zero => cases hz
  | succ e =>
  by_contra hsome
  obtain ⟨ref, hsome⟩ := Option.ne_none_iff_exists'.mp hsome
  obtain ⟨hget, hlocal⟩ := refString_eq_some.mp hsome
  rw [inlined_object href] at hz
  obtain ⟨zs, hzs, rfl⟩ := Option.map_eq_some_iff.mp hz
  have hall : members place entries = entries := by
    cases place with
    | schema => exact absurd (href.symm.trans hsome) nofun
    | map => rfl
    | data => rfl
  rw [hall] at hzs
  have hvalue := get?_mapM (f := fun key x => inlined defs e (place.under key) x) hzs "$ref"
  rw [hget] at hvalue
  obtain ⟨x, -, hx⟩ := mem_mapM hzs (Dict.mem_of_get? hget)
  obtain ⟨v, hv, -⟩ := Option.map_eq_some_iff.mp hx
  have hstr := inlined_str hv
  subst hstr
  have hkept : Dict.get? zs "$ref" = some (.str ref) := by
    rw [hvalue]
    exact hv
  have hnone := localRef_eq_none_iff.mp (localRef_of_resolve hschemas hy)
  rw [refString_eq_some.mpr ⟨hkept, hlocal⟩] at hnone
  cases hnone

/-- What `_resolve` inlines is plain at every node that it looks at. -/
theorem plain_of_resolve (hschemas : ∀ e ∈ defs.asDict, isSchema e.2 = true) {d e : ℕ}
    {node y : Json} (hdirected : DirectedFrom defs (place, node))
    (hy : resolve defs d node = some y) (hz : inlined defs e place node = some y) :
    PlainFrom defs (place, node) := by
  induction d generalizing e place node y with
  | zero => cases hy
  | succ d ih =>
      cases e with
      | zero => cases hz
      | succ e =>
      rw [plainFrom_iff]
      cases node with
      | obj entries =>
          cases hat : refAt place entries with
          | some ref =>
              cases place with
              | schema =>
                  have href : refString entries = some ref := hat
                  obtain ⟨target, hdefs, hpointed, htarget, hfrom⟩ := hdirected.target href
                  obtain ⟨inside, x, hinside, hx, rfl⟩ := exists_beside hat hpointed hz
                  rw [resolve_ref (localRef_of_refString href), hdefs] at hy
                  have hmem := mem_of_beside_le (resolve_le hfrom hy hx)
                  rw [beside_eq hmem] at hy
                  constructor
                  · show Plain defs .schema (.obj entries)
                    rw [Plain, href]
                    exact (repeated_iff hinside htarget hx).mpr hmem
                  · intro b hb
                    rw [(looks_target hat).mp hb, htarget]
                    exact ih hfrom hy hx
              | map => cases hat
              | data => cases hat
          | none =>
              have hnone := refString_of_resolve hschemas hat hy hz
              rw [resolve_object (localRef_eq_none_iff.mpr hnone)] at hy
              rw [inlined_object hat] at hz
              obtain ⟨ys, hys, rfl⟩ := Option.map_eq_some_iff.mp hy
              obtain ⟨zs, hzs, heq⟩ := Option.map_eq_some_iff.mp hz
              cases heq
              have hlength := (mapM_length hys).symm.trans (mapM_length hzs)
              have hsame := (title_sublist hat).eq_of_length hlength
              rw [hsame] at hys
              constructor
              · exact plain_of_members hat hnone hsame
              · intro b hb
                obtain ⟨a, ha, rfl⟩ := (looks_member hat).mp hb
                obtain ⟨c, hc, hc'⟩ := mapM_agree hys hzs ha
                obtain ⟨v, hv, rfl⟩ := Option.map_eq_some_iff.mp hc
                obtain ⟨w, hw, hvw⟩ := Option.map_eq_some_iff.mp hc'
                cases hvw
                exact ih (hdirected.step (steps_member ha)) hv hw
      | arr items =>
          obtain ⟨ys, hys, rfl⟩ := Option.map_eq_some_iff.mp hy
          obtain ⟨zs, hzs, heq⟩ := Option.map_eq_some_iff.mp hz
          cases heq
          refine ⟨?_, fun b hb => ?_⟩
          · cases place <;> exact trivial
          · obtain ⟨a, ha, rfl⟩ := looks_item.mp hb
            obtain ⟨c, hc, hc'⟩ := mapM_agree hys hzs ha
            exact ih (hdirected.step (steps_item ha)) hc hc'
      | _ =>
          refine ⟨?_, fun b hb => absurd hb (not_looks_leaf rfl rfl)⟩
          cases place <;> exact trivial

/-! ## The inlined schema exists -/

/-- Directed references that a walk comes to the end of can be inlined. -/
theorem inlined_isSome {d : ℕ} {node : Json} (hdirected : DirectedFrom defs (place, node))
    (h : (placedDocument defs).Within d (place, node)) :
    (inlined defs d place node).isSome = true := by
  induction d generalizing place node with
  | zero => exact absurd h id
  | succ d ih =>
      obtain ⟨hrefs, hparts⟩ := h
      cases node with
      | obj entries =>
          have hinside : ((members place entries).mapM fun e =>
              (inlined defs d (place.under e.1) e.2).map fun x => (e.1, x)).isSome = true := by
            apply mapM_isSome.mpr
            intro e he
            rw [Option.isSome_map]
            exact ih (hdirected.step (steps_member he)) (hparts _ (List.mem_map_of_mem he))
          obtain ⟨inside, hinside⟩ := Option.isSome_iff_exists.mp hinside
          cases hat : refAt place entries with
          | some ref =>
              cases place with
              | schema =>
                  obtain ⟨target, -, hpointed, htarget, hfrom⟩ := hdirected.target hat
                  have hname :
                      lastSegment ref ∈ (placedDocument defs).refs (.schema, .obj entries) := by
                    show _ ∈ ((refAt .schema entries).map lastSegment).toList
                    rw [hat]
                    exact List.mem_singleton_self _
                  have hwithin := hrefs _ hname
                  rw [htarget] at hwithin
                  obtain ⟨x, hx⟩ := Option.isSome_iff_exists.mp (ih hfrom hwithin)
                  apply Option.isSome_of_eq_some
                  exact (inlined_ref_eq_some hat).mpr
                    ⟨inside, target, x, hinside, hpointed, hx, rfl⟩
              | map => cases hat
              | data => cases hat
          | none =>
              rw [inlined_object hat, hinside]
              rfl
      | arr items =>
          rw [inlined, Option.isSome_map]
          apply mapM_isSome.mpr
          intro x hx
          exact ih (hdirected.step (steps_item hx)) (hparts _ (List.mem_map_of_mem hx))
      | _ => rfl

theorem placed_leads_finite (defs : Json) : {n | ∃ m, (placedDocument defs).Leads n m}.Finite := by
  refine (names_finite defs).subset ?_
  rintro n ⟨m, hm⟩ hempty
  have htarget : (placedDocument defs).target n = (.schema, .obj []) := congrArg _ hempty
  rw [Document.Leads, htarget, Document.mentions_iff] at hm
  rcases hm with hm | ⟨b, hb, -⟩
  · exact List.not_mem_nil hm
  · exact List.not_mem_nil hb

end

/-! ## References in order, node by node -/

/-- The references below the node are directed, and a walk comes to their end. -/
def InOrder (defs : Json) (a : Place × Json) : Prop :=
  DirectedFrom defs a ∧ ∃ d, (placedDocument defs).Within d a

theorem inOrder_of_parts {defs : Json} {a : Place × Json} (hrefs : placedRefs a = [])
    (hparts : ∀ b ∈ placedParts a, InOrder defs b) : InOrder defs a := by
  refine ⟨directedFrom_iff.mpr ⟨fun place entries ref ha href => ?_, ?_⟩, ?_⟩
  · subst ha
    change ((refAt place entries).map lastSegment).toList = [] at hrefs
    rw [href] at hrefs
    cases hrefs
  · rintro b (hb | ⟨name, hname, -⟩)
    · exact (hparts b hb).1
    · rw [hrefs] at hname
      exact absurd hname List.not_mem_nil
  · have heach : ∀ b ∈ placedParts a, ∃ d, (placedDocument defs).Within d (id b) :=
      fun b hb => (hparts b hb).2
    obtain ⟨d, hd⟩ := Document.within_common heach
    refine ⟨d + 1, fun name hname => ?_, hd⟩
    change name ∈ placedRefs a at hname
    rw [hrefs] at hname
    exact absurd hname List.not_mem_nil

theorem inOrder_of_ref {defs : Json} {ref : String} {entries : Dict}
    (href : refString entries = some ref) (hparts : placedParts (.schema, .obj entries) = [])
    (hdirected : Directed defs ref)
    (htarget : InOrder defs ((placedDocument defs).target (lastSegment ref))) :
    InOrder defs (.schema, .obj entries) := by
  have hrefs : placedRefs (.schema, .obj entries) = [lastSegment ref] := by
    show ((refString entries).map lastSegment).toList = _
    rw [href]
    rfl
  obtain ⟨hfrom, d, hd⟩ := htarget
  refine ⟨directedFrom_iff.mpr ⟨fun place entries' ref' ha href' => ?_, ?_⟩, d + 1, ?_, ?_⟩
  · cases ha
    cases href.symm.trans href'
    exact hdirected
  · rintro b (hb | ⟨name, hname, rfl⟩)
    · rw [hparts] at hb
      exact absurd hb List.not_mem_nil
    · rw [hrefs] at hname
      rw [List.mem_singleton.mp hname]
      exact hfrom
  · intro name hname
    change name ∈ placedRefs (.schema, .obj entries) at hname
    rw [hrefs] at hname
    rw [List.mem_singleton.mp hname]
    exact hd
  · intro b hb
    change b ∈ placedParts (.schema, .obj entries) at hb
    rw [hparts] at hb
    exact absurd hb List.not_mem_nil

theorem wellReferenced_of_inOrder {schema : Dict}
    (hschemas : ∀ e ∈ (defsOf schema).asDict, isSchema e.2 = true)
    (h : InOrder (defsOf schema) (.schema, .obj (popDefs schema))) : WellReferenced schema :=
  ⟨hschemas, h.1, (Document.within_iff _ (placed_leads_finite _) _).mp h.2⟩

theorem WellReferenced.inlines {schema : Dict} (h : WellReferenced schema) :
    ∃ x, Inlines (defsOf schema) .schema (.obj (popDefs schema)) x := by
  obtain ⟨d, hd⟩ := (Document.within_iff _ (placed_leads_finite _) _).mpr h.acyclic
  obtain ⟨x, hx⟩ := Option.isSome_iff_exists.mp (inlined_isSome h.directed hd)
  exact ⟨x, d, hx⟩

/-! ## What cleaning keeps -/

/-- For a schema whose references are in order, cleaning keeps everything but the
titles exactly when the inlined schema is an object and every node that is looked at
is plain. -/
theorem schema_kept_iff (schema : Dict) (h : WellReferenced schema) :
    Keeps schema ↔
      (∀ x, Inlines (defsOf schema) .schema (.obj (popDefs schema)) x → x.isDict = true) ∧
        PlainFrom (defsOf schema) (.schema, .obj (popDefs schema)) := by
  constructor
  · rintro ⟨depth, cleaned, hcleaned, hlocal, d, hd⟩
    refine ⟨fun x hx => ?_, ?_⟩
    · rw [hx.unique ⟨d, hd⟩]
      rfl
    obtain ⟨y, hy, hyc⟩ := Option.map_eq_some_iff.mp hcleaned
    have hdict : y.isDict = true := by
      by_contra hnot
      rw [if_neg hnot] at hyc
      -- the schema came back as it was, so it is no reference, and comes out a dict
      rw [← hyc] at hlocal
      cases depth with
      | zero => cases hy
      | succ depth =>
          rw [resolve_object (hlocal _ .here)] at hy
          obtain ⟨ys, -, rfl⟩ := Option.map_eq_some_iff.mp hy
          exact hnot rfl
    rw [if_pos hdict] at hyc
    rw [← hyc, obj_asDict hdict] at hd
    exact plain_of_resolve h.schemas h.directed hy hd
  · rintro ⟨hdict, hplain⟩
    obtain ⟨x, d, hd⟩ := h.inlines
    have hentries := obj_asDict (hdict x ⟨d, hd⟩)
    have hresolved := resolve_of_inlined h.directed hplain hd
    refine ⟨d, x.asDict, ?_, ?_, d, ?_⟩
    · rw [cleanJsonSchema, hresolved, Option.map_some, if_pos (hdict x ⟨d, hd⟩)]
    · rw [hentries]
      exact fun inner hinner => localRef_of_occurs h.schemas hresolved hinner
    · rw [hentries]
      exact hd

/-- A note needs a title, of a type that is defined apart. -/
def noteSchema : Dict :=
  [("type", .str "object"), ("title", .str "Note"),
    ("properties", .obj [("title", .obj [("$ref", .str "#/$defs/Title")])]),
    ("required", .arr [.str "title"]), ("$defs", .obj [("Title", .obj [("type", .str "string")])])]

theorem noteSchema_wellReferenced : WellReferenced noteSchema := by
  have hleaf : ∀ place text, InOrder (defsOf noteSchema) (place, .str text) :=
    fun place text => inOrder_of_parts rfl fun b hb => absurd hb List.not_mem_nil
  have hstring : InOrder (defsOf noteSchema) (.schema, .obj [("type", .str "string")]) := by
    refine inOrder_of_parts rfl fun b hb => ?_
    rw [List.mem_singleton.mp hb]
    exact hleaf _ _
  have htitle : InOrder (defsOf noteSchema) (.schema, .obj [("$ref", .str "#/$defs/Title")]) :=
    inOrder_of_ref rfl rfl ⟨_, rfl, rfl⟩ hstring
  have hproperties : InOrder (defsOf noteSchema)
      (.map, .obj [("title", .obj [("$ref", .str "#/$defs/Title")])]) := by
    refine inOrder_of_parts rfl fun b hb => ?_
    rw [List.mem_singleton.mp hb]
    exact htitle
  have hrequired : InOrder (defsOf noteSchema) (.data, .arr [.str "title"]) := by
    refine inOrder_of_parts rfl fun b hb => ?_
    rw [List.mem_singleton.mp hb]
    exact hleaf _ _
  apply wellReferenced_of_inOrder
  · simp [noteSchema, defsOf, Dict.get?, Json.asDict, isSchema]
  · refine inOrder_of_parts rfl fun b hb => ?_
    have hparts : b ∈ [(Place.data, Json.str "object"),
      (.map, .obj [("title", .obj [("$ref", .str "#/$defs/Title")])]),
      (.data, .arr [.str "title"])] := hb
    rw [List.mem_cons, List.mem_pair] at hparts
    rcases hparts with rfl | rfl | rfl
    · exact hleaf _ _
    · exact hproperties
    · exact hrequired

theorem schema_kept_iff_note :
    Keeps noteSchema ↔
      (∀ x, Inlines (defsOf noteSchema) .schema (.obj (popDefs noteSchema)) x → x.isDict = true) ∧
        PlainFrom (defsOf noteSchema) (.schema, .obj (popDefs noteSchema)) :=
  schema_kept_iff noteSchema noteSchema_wellReferenced

/-- The note is shown without its title, and still requires it. -/
theorem title_property_dropped : ¬ ∀ schema, WellReferenced schema → Keeps schema := by
  intro h
  obtain ⟨depth, cleaned, hcleaned, -, hinlines⟩ := h noteSchema noteSchema_wellReferenced
  have hinlined : Inlines (defsOf noteSchema) .schema (.obj (popDefs noteSchema))
      (.obj [("type", .str "object"),
        ("properties", .obj [("title", .obj [("type", .str "string")])]),
        ("required", .arr [.str "title"])]) := ⟨5, rfl⟩
  have hshown : cleanJsonSchema 5 noteSchema =
      some [("type", .str "object"), ("properties", .obj []), ("required", .arr [.str "title"])] :=
    rfl
  have hdeep := cleanJsonSchema_mono hcleaned (le_max_left depth 5)
  rw [cleanJsonSchema_mono hshown (le_max_right depth 5)] at hdeep
  have heq := hinlines.unique hinlined
  rw [← Option.some.inj hdeep] at heq
  simp at heq

end Lour.Tools
