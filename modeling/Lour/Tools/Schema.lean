import Lour.Lib.Fallible
import Lour.Lib.References
import Lour.Tools.Registry
/-!
# The schemas the model sees

A tool presents a JSON Schema for its arguments.  Before the model sees it, the
references into its `$defs` are inlined and the `title` keys dropped.
-/

namespace Lour.Tools

open Lour.Lib Lour.Lib.Python

/-- `ref.split("/")[-1]`. -/
def lastSegment (ref : String) : String :=
  String.ofList (ref.toList.reverse.takeWhile (· != '/')).reverse

/-- The name that an object with a local `$ref` is looked up under. -/
def localRef (entries : Dict) : Option String :=
  match Dict.get? entries "$ref" with
  | some (.str ref) =>
      if "#/$defs/".toList.isPrefixOf ref.toList then some (lastSegment ref) else none
  | _ => none

/-- `defs.get(name, {})`, which raises where `defs` is no dict. -/
def definition (defs : Json) (name : String) : Option Json :=
  match defs with
  | .obj ds => some ((Dict.get? ds name).getD (.obj []))
  | _ => none

/-- `_resolve` with a stack of `depth` frames; `none` where it raises, be it for
want of a frame. -/
def resolve (defs : Json) : ℕ → Json → Option Json
  | 0, _ => none
  | depth + 1, .obj entries =>
      match localRef entries with
      | some name => (definition defs name).bind (resolve defs depth)
      | none =>
          ((entries.filter fun e => e.1 != "title").mapM fun e =>
            (resolve defs depth e.2).map fun x => (e.1, x)).map .obj
  | depth + 1, .arr items => (items.mapM (resolve defs depth)).map .arr
  | _ + 1, x => some x

/-- `schema.pop("$defs", {})`. -/
def defsOf (schema : Dict) : Json := (Dict.get? schema "$defs").getD (.obj [])

/-- What the pop leaves in the dict. -/
def popDefs (schema : Dict) : Dict := schema.filter fun e => e.1 != "$defs"

/-- `_clean_json_schema`. -/
def cleanJsonSchema (depth : ℕ) (schema : Dict) : Option Dict :=
  (resolve (defsOf schema) depth (.obj (popDefs schema))).map fun cleaned =>
    if cleaned.isDict then cleaned.asDict else popDefs schema

/-! ## Tools with their schemas -/

/-- Where `ollama_parameters` has the schema from: an args model writes a new one
for each call, an MCP adapter hands out the one it keeps. -/
inductive Parameters where
  | fresh (schema : Dict)
  | stored (inputSchema : Dict)

namespace Parameters

/-- `ollama_parameters`: an adapter without an input schema takes any object. -/
def current : Parameters → Dict
  | .fresh schema => schema
  | .stored inputSchema =>
      if inputSchema.isEmpty then [("type", .str "object"), ("properties", .obj [])]
      else inputSchema

/-- What the tool has after its schema was cleaned. -/
def popped : Parameters → Parameters
  | .fresh schema => .fresh schema
  | .stored inputSchema => .stored (popDefs inputSchema)

end Parameters

structure PublishedTool extends BaseTool where
  parameters : Parameters

namespace PublishedTool

/-- `to_ollama_schema`. -/
def toOllamaSchema (depth : ℕ) (self : PublishedTool) : Option Json :=
  (cleanJsonSchema depth self.parameters.current).map fun parameters =>
    .obj [("type", .str "function"), ("function", .obj [("name", .str self.name),
      ("description", .str self.description), ("parameters", .obj parameters)])]

def popped (self : PublishedTool) : PublishedTool :=
  { self with parameters := self.parameters.popped }

@[simp] theorem popped_name (self : PublishedTool) : self.popped.name = self.name := rfl

end PublishedTool

/-- A registry of tools with their schemas. -/
structure ToolCatalog where
  tools : List PublishedTool
  distinct : (tools.map fun t => t.name).Nodup

def ToolCatalog.registry (self : ToolCatalog) : ToolRegistry where
  tools := self.tools.map PublishedTool.toBaseTool
  distinct := by
    rw [List.map_map]
    exact self.distinct

/-! ## When inlining ends -/

/-- What `_resolve` goes into: nothing where it follows a reference. -/
def schemaParts : Json → List Json
  | .obj entries =>
      match localRef entries with
      | some _ => []
      | none => (entries.filter fun e => e.1 != "title").map (·.2)
  | .arr items => items
  | _ => []

def schemaRefs : Json → List String
  | .obj entries => (localRef entries).toList
  | _ => []

theorem schemaParts_lt (a b : Json) (hb : b ∈ schemaParts a) : sizeOf b < sizeOf a := by
  cases a with
  | obj entries =>
      cases href : localRef entries with
      | some name =>
          simp only [schemaParts, href] at hb
          exact absurd hb List.not_mem_nil
      | none =>
          simp only [schemaParts, href] at hb
          obtain ⟨e, he, rfl⟩ := List.mem_map.mp hb
          have hmem : e ∈ entries := List.mem_of_mem_filter he
          have hentry : sizeOf e < sizeOf entries := List.sizeOf_lt_of_mem hmem
          have hvalue : sizeOf e = 1 + sizeOf e.1 + sizeOf e.2 := rfl
          rw [Json.obj.sizeOf_spec]
          omega
  | arr items =>
      have hitem : sizeOf b < sizeOf items := List.sizeOf_lt_of_mem hb
      rw [Json.arr.sizeOf_spec]
      omega
  | _ => exact absurd hb List.not_mem_nil

/-- The schema as `_resolve` walks it. -/
def schemaDocument (defs : Json) : Document Json String where
  parts := schemaParts
  wf := Subrelation.wf (schemaParts_lt _ _) (measure sizeOf).wf
  refs := schemaRefs
  target name := (definition defs name).getD (.obj [])

section

variable {defs : Json}

theorem resolve_ref {entries : Dict} {name : String} (h : localRef entries = some name)
    (depth : ℕ) :
    resolve defs (depth + 1) (.obj entries) = (definition defs name).bind (resolve defs depth) := by
  rw [resolve, h]

theorem resolve_object {entries : Dict} (h : localRef entries = none) (depth : ℕ) :
    resolve defs (depth + 1) (.obj entries) =
      ((entries.filter fun e => e.1 != "title").mapM fun e =>
        (resolve defs depth e.2).map fun x => (e.1, x)).map .obj := by
  rw [resolve, h]

theorem definition_eq_some {name : String} {target : Json}
    (h : definition defs name = some target) :
    (schemaDocument defs).target name = target := by
  show (definition defs name).getD (.obj []) = target
  rw [h]
  rfl

theorem isDict_of_definition {name : String} {target : Json}
    (h : definition defs name = some target) : defs.isDict = true := by
  cases defs with
  | obj ds => rfl
  | _ => cases h

theorem definition_isSome (h : defs.isDict = true) (name : String) :
    (definition defs name).isSome = true := by
  cases defs with
  | obj ds => rfl
  | _ => cases h

/-! The nodes of a schema, and what they mention. -/

theorem within_ref {entries : Dict} {name : String} (h : localRef entries = some name) {d : ℕ} :
    (schemaDocument defs).Within (d + 1) (.obj entries) ↔
      (schemaDocument defs).Within d ((schemaDocument defs).target name) := by
  show ((∀ n ∈ (localRef entries).toList, _) ∧ ∀ b ∈ schemaParts (.obj entries), _) ↔ _
  simp [schemaParts, h]

theorem within_object {entries : Dict} (h : localRef entries = none) {d : ℕ} :
    (schemaDocument defs).Within (d + 1) (.obj entries) ↔
      ∀ e ∈ entries.filter fun e => e.1 != "title", (schemaDocument defs).Within d e.2 := by
  show ((∀ n ∈ (localRef entries).toList, _) ∧ ∀ b ∈ schemaParts (.obj entries), _) ↔ _
  simp only [schemaParts, h]
  rw [List.forall_mem_map]
  exact and_iff_right fun n hn => absurd hn List.not_mem_nil

theorem mentions_ref {entries : Dict} {name : String} (h : localRef entries = some name)
    {m : String} : (schemaDocument defs).Mentions (.obj entries) m ↔ m = name := by
  rw [Document.mentions_iff]
  show (m ∈ (localRef entries).toList ∨ ∃ b ∈ schemaParts (.obj entries), _) ↔ _
  simp [schemaParts, h, eq_comm]

theorem mentions_object {entries : Dict} (h : localRef entries = none) {m : String} :
    (schemaDocument defs).Mentions (.obj entries) m ↔
      ∃ e ∈ entries.filter fun e => e.1 != "title", (schemaDocument defs).Mentions e.2 m := by
  rw [Document.mentions_iff]
  show (m ∈ (localRef entries).toList ∨ ∃ b ∈ schemaParts (.obj entries), _) ↔ _
  simp only [schemaParts, h]
  constructor
  · rintro (hm | ⟨b, hb, hm⟩)
    · exact absurd hm List.not_mem_nil
    · obtain ⟨e, he, rfl⟩ := List.mem_map.mp hb
      exact ⟨e, he, hm⟩
  · rintro ⟨e, he, hm⟩
    exact .inr ⟨e.2, List.mem_map_of_mem he, hm⟩

theorem mentions_array {items : List Json} {m : String} :
    (schemaDocument defs).Mentions (.arr items) m ↔
      ∃ item ∈ items, (schemaDocument defs).Mentions item m := by
  rw [Document.mentions_iff]
  exact or_iff_right List.not_mem_nil

/-- A node that is neither an object nor an array mentions nothing. -/
theorem not_mentions_leaf {node : Json} (hrefs : schemaRefs node = [])
    (hparts : schemaParts node = [])
    {m : String} : ¬ (schemaDocument defs).Mentions node m := by
  rw [Document.mentions_iff]
  show ¬ (m ∈ schemaRefs node ∨ ∃ b ∈ schemaParts node, _)
  simp [hrefs, hparts]

/-- Induction over what a call of `_resolve` that returns has called. -/
theorem resolve_induction {motive : Json → Json → Prop}
    (ref : ∀ entries name target y, localRef entries = some name →
      definition defs name = some target → motive target y → motive (.obj entries) y)
    (object : ∀ depth entries ys, localRef entries = none →
      ((entries.filter fun e => e.1 != "title").mapM fun e =>
        (resolve defs depth e.2).map fun x => (e.1, x)) = some ys →
      (∀ node y, resolve defs depth node = some y → motive node y) →
      motive (.obj entries) (.obj ys))
    (array : ∀ depth items ys, items.mapM (resolve defs depth) = some ys →
      (∀ node y, resolve defs depth node = some y → motive node y) →
      motive (.arr items) (.arr ys))
    (leaf : ∀ x, x.isDict = false → (∀ items, x ≠ .arr items) → motive x x)
    {d : ℕ} {node y : Json} (h : resolve defs d node = some y) : motive node y := by
  induction d generalizing node y with
  | zero => cases h
  | succ d ih =>
      cases node with
      | obj entries =>
          cases href : localRef entries with
          | some name =>
              rw [resolve_ref href] at h
              obtain ⟨target, hdefs, htarget⟩ := Option.bind_eq_some_iff.mp h
              exact ref entries name target y href hdefs (ih htarget)
          | none =>
              rw [resolve_object href] at h
              obtain ⟨ys, hys, rfl⟩ := Option.map_eq_some_iff.mp h
              exact object d entries ys href hys fun node y hy => ih hy
      | arr items =>
          obtain ⟨ys, hys, rfl⟩ := Option.map_eq_some_iff.mp h
          exact array d items ys hys fun node y hy => ih hy
      | _ =>
          cases h
          exact leaf _ rfl fun items heq => by cases heq

/-- A deeper stack changes nothing where a smaller one is enough. -/
theorem resolve_mono {d e : ℕ} {node x : Json} (h : resolve defs d node = some x) (hle : d ≤ e) :
    resolve defs e node = some x := by
  induction d generalizing e node x with
  | zero => cases h
  | succ d ih =>
      obtain ⟨e, rfl⟩ := Nat.exists_eq_add_of_lt (Nat.lt_of_succ_le hle)
      have hdeeper : ∀ {node x}, resolve defs d node = some x →
          resolve defs (d + e) node = some x := fun hx => ih hx (Nat.le_add_right d e)
      cases node with
      | obj entries =>
          cases href : localRef entries with
          | some name =>
              rw [resolve_ref href] at h ⊢
              obtain ⟨target, htarget, hx⟩ := Option.bind_eq_some_iff.mp h
              rw [htarget]
              exact hdeeper hx
          | none =>
              rw [resolve_object href] at h ⊢
              obtain ⟨cleaned, hcleaned, rfl⟩ := Option.map_eq_some_iff.mp h
              refine Option.map_eq_some_iff.mpr ⟨cleaned, ?_, rfl⟩
              refine mapM_mono (fun entry _ y hy => ?_) hcleaned
              obtain ⟨z, hz, rfl⟩ := Option.map_eq_some_iff.mp hy
              rw [hdeeper hz]
              rfl
      | arr items =>
          obtain ⟨cleaned, hcleaned, rfl⟩ := Option.map_eq_some_iff.mp h
          refine Option.map_eq_some_iff.mpr ⟨cleaned, ?_, rfl⟩
          exact mapM_mono (fun item _ y hy => hdeeper hy) hcleaned
      | _ => exact h

/-- Every name the node mentions can be looked up. -/
def Lookups (defs node : Json) : Prop :=
  defs.isDict = true ∨ ∀ name, ¬ (schemaDocument defs).Mentions node name

/-- `_resolve` returns where the walk ends within the stack and every name it
comes to can be looked up. -/
theorem resolve_isSome {d : ℕ} {node : Json} :
    (resolve defs d node).isSome = true ↔
      (schemaDocument defs).Within d node ∧ Lookups defs node := by
  have hleaf : ∀ {node : Json} {d : ℕ}, schemaRefs node = [] → schemaParts node = [] →
      (schemaDocument defs).Within (d + 1) node ∧ Lookups defs node := by
    intro node d hrefs hparts
    refine ⟨?_, .inr fun name => not_mentions_leaf hrefs hparts⟩
    show (∀ n ∈ schemaRefs node, _) ∧ ∀ b ∈ schemaParts node, _
    rw [hrefs, hparts]
    exact ⟨fun n hn => absurd hn List.not_mem_nil, fun b hb => absurd hb List.not_mem_nil⟩
  -- a node with parts can be looked up where all of its parts can
  have hparts : ∀ {α : Type} {xs : List α} {f : α → Json} {node : Json},
      (∀ m, (schemaDocument defs).Mentions node m ↔
        ∃ x ∈ xs, (schemaDocument defs).Mentions (f x) m) →
      ((∀ x ∈ xs, Lookups defs (f x)) ↔ Lookups defs node) := by
    intro α xs f node hmentions
    unfold Lookups
    by_cases hdict : defs.isDict = true
    · simp [hdict]
    · simp only [hdict, Bool.false_eq_true, false_or]
      constructor
      · intro h m hm
        obtain ⟨x, hx, hm⟩ := (hmentions m).mp hm
        exact h x hx m hm
      · exact fun h x hx m hm => h m ((hmentions m).mpr ⟨x, hx, hm⟩)
  induction d generalizing node with
  | zero => exact iff_of_false Bool.false_ne_true fun h => h.1
  | succ d ih =>
      cases node with
      | obj entries =>
          cases href : localRef entries with
          | some name =>
              rw [resolve_ref href, within_ref href]
              cases hdefs : definition defs name with
              | none =>
                  refine iff_of_false Bool.false_ne_true fun h => ?_
                  rcases h.2 with hdict | hnone
                  · have hsome := definition_isSome hdict name
                    rw [hdefs] at hsome
                    cases hsome
                  · exact hnone name ((mentions_ref href).mpr rfl)
              | some target =>
                  have hdict := isDict_of_definition hdefs
                  have htarget := @ih target
                  rw [definition_eq_some hdefs, Option.bind_some]
                  exact htarget.trans
                    (and_congr_right fun _ => iff_of_true (.inl hdict) (.inl hdict))
          | none =>
              rw [resolve_object href, Option.isSome_map, mapM_isSome, within_object href,
                ← hparts fun m => mentions_object href, ← forall₂_and]
              refine forall₂_congr fun e _ => ?_
              rw [Option.isSome_map]
              exact ih
      | arr items =>
          rw [resolve, Option.isSome_map, mapM_isSome, ← hparts fun m => mentions_array]
          show _ ↔ ((∀ n ∈ [], _) ∧ ∀ b ∈ items, _) ∧ _
          rw [and_iff_right (fun n hn => absurd hn List.not_mem_nil), ← forall₂_and]
          exact forall₂_congr fun item _ => ih
      | _ => exact iff_of_true rfl (hleaf rfl rfl)

/-- Only the names of `$defs` stand for anything but the empty object. -/
theorem names_finite (defs : Json) :
    {n | (definition defs n).getD (.obj []) ≠ .obj []}.Finite := by
  cases defs with
  | obj ds =>
      refine (List.finite_toSet (ds.map (·.1))).subset fun n hn => ?_
      by_contra hkey
      have hnone : Dict.get? ds n = none := by
        rw [Dict.get?, Option.map_eq_none_iff, List.find?_eq_none]
        intro e he heq
        exact hkey (List.mem_map.mpr ⟨e, he, beq_iff_eq.mp heq⟩)
      apply hn
      rw [definition, hnone]
      rfl
  | _ => exact Set.finite_empty.subset fun n hn => absurd rfl hn

theorem leads_finite (defs : Json) : {n | ∃ m, (schemaDocument defs).Leads n m}.Finite := by
  refine (names_finite defs).subset ?_
  rintro n ⟨m, hm⟩ hempty
  have htarget : (schemaDocument defs).target n = .obj [] := hempty
  rw [Document.Leads, htarget] at hm
  exact not_mentions_leaf rfl rfl hm

/-- No definition that the references of the schema lead to leads back to itself,
and a schema with references has a dict of definitions. -/
def Inlinable (schema : Dict) : Prop :=
  (schemaDocument (defsOf schema)).AcyclicFrom (.obj (popDefs schema)) ∧
    Lookups (defsOf schema) (.obj (popDefs schema))

theorem resolve_returns {node : Json} :
    (∃ depth, (resolve defs depth node).isSome = true) ↔
      (schemaDocument defs).AcyclicFrom node ∧ Lookups defs node := by
  simp only [resolve_isSome]
  rw [exists_and_right, Document.within_iff _ (leads_finite defs)]

theorem cleanJsonSchema_returns (schema : Dict) :
    (∃ depth, (cleanJsonSchema depth schema).isSome = true) ↔ Inlinable schema := by
  simp only [cleanJsonSchema, Option.isSome_map]
  exact resolve_returns

theorem cleanJsonSchema_mono {d e : ℕ} {schema cleaned : Dict}
    (h : cleanJsonSchema d schema = some cleaned) (hle : d ≤ e) :
    cleanJsonSchema e schema = some cleaned := by
  obtain ⟨x, hx, rfl⟩ := Option.map_eq_some_iff.mp h
  exact Option.map_eq_some_iff.mpr ⟨x, resolve_mono hx hle, rfl⟩

theorem toOllamaSchema_mono {d e : ℕ} {tool : PublishedTool} {schema : Json}
    (h : tool.toOllamaSchema d = some schema) (hle : d ≤ e) :
    tool.toOllamaSchema e = some schema := by
  obtain ⟨x, hx, rfl⟩ := Option.map_eq_some_iff.mp h
  exact Option.map_eq_some_iff.mpr ⟨x, cleanJsonSchema_mono hx hle, rfl⟩

end

end Lour.Tools
