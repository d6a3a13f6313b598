import Lour.Lib.Python
import Mathlib.Data.Finset.Basic
import Mathlib.Data.List.Sort
/-!
# Tools and the `ToolRegistry`

The registry maps a name to the tool registered under it.  Names are unique by
construction: registering a name again either raises or replaces the tool.
-/

namespace Lour.Tools

open Lour.Lib.Python

/-- The uniform result envelope every tool returns. -/
structure ToolResult where
  ok : Bool
  data : Json := .null
  error : Option String := none
  metadata : Dict := []

namespace ToolResult

def success (data : Json := .null) (metadata : Dict := []) : ToolResult where
  ok := true
  data := data
  metadata := metadata

def failure (error : String) (metadata : Dict := []) : ToolResult where
  ok := false
  error := some error
  metadata := metadata

end ToolResult

structure BaseTool where
  name : String
  description : String
  sideEffects : Bool := false

structure ToolRegistry where
  tools : List BaseTool
  distinct : (tools.map BaseTool.name).Nodup

namespace ToolRegistry

def empty : ToolRegistry := ⟨[], List.nodup_nil⟩

/-- `name in registry`. -/
def contains (self : ToolRegistry) (name : String) : Bool :=
  self.tools.any fun t => t.name == name

/-- `registry.get(name)`, which raises `NotFoundError` where this is `none`. -/
def get? (self : ToolRegistry) (name : String) : Option BaseTool :=
  self.tools.find? fun t => t.name == name

/-- `sorted(registry.names())`. -/
def sortedNames (self : ToolRegistry) : List String :=
  (self.tools.map BaseTool.name).insertionSort fun a b => a ≤ b

/-- The tools whose schemas `to_ollama_schemas` offers to the model. -/
def offered (self : ToolRegistry) (allowed : Option (Finset String)) : List BaseTool :=
  self.tools.filter fun t =>
    match allowed with
    | none => true
    | some names => decide (t.name ∈ names)

/-- `registry.register(tool)`: a taken name raises. -/
def register (self : ToolRegistry) (tool : BaseTool) : Except String ToolRegistry :=
  if h : self.contains tool.name = false then
    .ok ⟨self.tools ++ [tool], by
      rw [List.map_append, List.nodup_append]
      refine ⟨self.distinct, List.nodup_singleton _, fun a ha b hb => ?_⟩
      obtain ⟨t, ht, rfl⟩ := List.mem_map.mp ha
      have hb : b = tool.name := by simpa using hb
      rw [hb]
      simp only [contains, List.any_eq_false, beq_iff_eq] at h
      exact h t ht⟩
  else .error s!"Tool {pyRepr tool.name} is already registered"

theorem contains_iff_get? (self : ToolRegistry) (name : String) :
    self.contains name = true ↔ (self.get? name).isSome = true := by
  simp [contains, get?]

theorem name_of_get? {self : ToolRegistry} {name : String} {tool : BaseTool}
    (h : self.get? name = some tool) : tool.name = name := by
  simpa using List.find?_some h

end ToolRegistry

end Lour.Tools
