import Lour.Lib.System
import Lour.Tools.Schema
/-!
# Schemas that are looked at again

Cleaning a schema pops `$defs` out of the dict it is given, and an MCP adapter
gives the dict it keeps.  From the second rendering on its references find nothing
and become empty objects, which changes the schema unless that is what they were
before.
-/

namespace Lour.Tools

open Lour.Lib Lour.Lib.Python

/-- One schema asked of a tool; `none` where it raised. -/
structure Rendering where
  tool : String
  schema : Option Json

/-- What asks for schemas. -/
inductive SchemaCall where
  | toOllamaSchemas (allowed : Option (Finset String))
  | toOllamaSchema (name : String)
  | listTools
  | getTool (name : String)

/-- The tools whose schema is asked for, in order. -/
def SchemaCall.asks (tools : List PublishedTool) : SchemaCall → List String
  | .toOllamaSchemas allowed =>
      (tools.map fun t => t.name).filter fun name =>
        match allowed with
        | none => true
        | some names => decide (name ∈ names)
  | .toOllamaSchema name | .getTool name => if tools.any fun t => t.name == name then [name] else []
  | .listTools => (tools.map fun t => t.name).insertionSort fun a b => a ≤ b

def popTool (name : String) (tools : List PublishedTool) : List PublishedTool :=
  tools.map fun t => if t.name = name then t.popped else t

/-- Render the tools in order; one that raises ends the call. -/
def renderAll (depth : ℕ) :
    List PublishedTool → List String → List PublishedTool × List Rendering
  | tools, [] => (tools, [])
  | tools, name :: names =>
      match tools.find? fun t => t.name == name with
      | none => renderAll depth tools names
      | some tool =>
          match tool.toOllamaSchema depth with
          | none => (popTool name tools, [⟨name, none⟩])
          | some schema =>
              let (after, rest) := renderAll depth (popTool name tools) names
              (after, ⟨name, some schema⟩ :: rest)

/-- The registry with its callers, on a stack of `depth` frames. -/
def schemaSystem (depth : ℕ) : System (List PublishedTool) SchemaCall Rendering :=
  ⟨fun tools call => some (renderAll depth tools (call.asks tools))⟩

/-- `to_ollama_schemas`; `none` where one of the tools raises. -/
def toOllamaSchemas (depth : ℕ) (tools : List PublishedTool) (allowed : Option (Finset String)) :
    Option (List Json) :=
  (renderAll depth tools ((SchemaCall.toOllamaSchemas allowed).asks tools)).2.mapM Rendering.schema

/-- Every tool has the same schema each time. -/
def Steady (renderings : List Rendering) : Prop :=
  ∀ r ∈ renderings, ∀ r' ∈ renderings, r.tool = r'.tool → r.schema = r'.schema

/-! ## References that come out empty -/

/-- What is left of the node is the empty object. -/
inductive Hollow (defs : Json) : Json → Prop
  | bare {entries : Dict} (h : localRef entries = none)
      (htitles : ∀ e ∈ entries, e.1 = "title") : Hollow defs (.obj entries)
  | ref {entries : Dict} {name : String} {target : Json} (h : localRef entries = some name)
      (hdefs : definition defs name = some target) (htarget : Hollow defs target) :
      Hollow defs (.obj entries)

/-- The name can be looked up, and leads to the empty object. -/
def HollowName (defs : Json) (name : String) : Prop :=
  ∃ target, definition defs name = some target ∧ Hollow defs target

/-- Looking at the schema does not change it: it has no `$defs`, or something
besides, where every local reference comes out empty anyway. -/
def Settled (schema : Dict) : Prop :=
  Dict.get? schema "$defs" = none ∨
    popDefs schema ≠ [] ∧
      ∀ name, (schemaDocument (defsOf schema)).Mentions (.obj (popDefs schema)) name →
        HollowName (defsOf schema) name

section

variable {defs : Json}

theorem resolve_hollow {node : Json} (h : Hollow defs node) :
    ∃ depth, resolve defs depth node = some (.obj []) := by
  induction h with
  | bare href htitles =>
      refine ⟨1, ?_⟩
      have hnone : ∀ {entries : Dict}, (∀ e ∈ entries, e.1 = "title") →
          (entries.filter fun e => e.1 != "title") = [] := by
        intro entries htitles
        rw [List.filter_eq_nil_iff]
        intro e he
        simp [htitles e he]
      rw [resolve_object href, hnone htitles]
      rfl
  | ref href hdefs _ ih =>
      obtain ⟨depth, hdepth⟩ := ih
      refine ⟨depth + 1, ?_⟩
      rw [resolve_ref href, hdefs]
      exact hdepth

theorem resolve_eq_empty {depth : ℕ} {node : Json}
    (h : resolve defs depth node = some (.obj [])) : Hollow defs node := by
  refine resolve_induction
    (motive := fun node y => y = .obj [] → Hollow defs node) ?ref ?object ?array ?leaf h rfl
  case ref =>
      intro entries name target y href hdefs htarget heq
      exact .ref href hdefs (htarget heq)
  case object =>
      intro depth entries ys href hys ih heq
      have hlength := mapM_length hys
      rw [Json.obj.inj heq, List.length_nil] at hlength
      have hnil := List.eq_nil_of_length_eq_zero hlength.symm
      refine .bare href fun e he => ?_
      have hdropped := List.filter_eq_nil_iff.mp hnil e he
      simpa using hdropped
  case array =>
      intro depth items ys hys ih heq
      cases heq
  case leaf =>
      intro x hdict harray heq
      rw [heq] at hdict
      cases hdict

theorem hollow_iff {depth : ℕ} {node x : Json} (h : resolve defs depth node = some x) :
    x = .obj [] ↔ Hollow defs node := by
  constructor
  · rintro rfl
    exact resolve_eq_empty h
  · intro hhollow
    obtain ⟨e, he⟩ := resolve_hollow hhollow
    have hx := resolve_mono h (le_max_left depth e)
    have hempty := resolve_mono he (le_max_right depth e)
    exact Option.some.inj (hx.symm.trans hempty)

/-- With the definitions gone, every reference comes out empty. -/
theorem resolve_bare_ref {entries : Dict} {name : String} (href : localRef entries = some name)
    {depth : ℕ} {y : Json} (h : resolve (.obj []) depth (.obj entries) = some y) :
    y = .obj [] := by
  have hhollow : Hollow (.obj []) (.obj entries) :=
    .ref href rfl (.bare rfl fun e he => absurd he List.not_mem_nil)
  exact (hollow_iff h).mpr hhollow

theorem resolve_bare_returns (node : Json) : ∃ depth y, resolve (.obj []) depth node = some y := by
  have hleads : ∀ n m, ¬ (schemaDocument (.obj [])).Leads n m :=
    fun n m => not_mentions_leaf rfl rfl
  have hacyclic : (schemaDocument (.obj [])).AcyclicFrom node := by
    rintro n - hcycle
    obtain ⟨m, hm, -⟩ := Relation.TransGen.head'_iff.mp hcycle
    exact hleads n m hm
  obtain ⟨depth, hdepth⟩ := resolve_returns.mpr ⟨hacyclic, .inl rfl⟩
  obtain ⟨y, hy⟩ := Option.isSome_iff_exists.mp hdepth
  exact ⟨depth, y, hy⟩

/-- Two walks into the parts of a node agree exactly when what the node mentions is
hollow, where this is so of each part. -/
theorem parts_eq_iff {α β : Type} {xs : List α} {f g : α → Option β} {bs cs : List β}
    {node : Json} {part : α → Json} (hf : xs.mapM f = some bs) (hg : xs.mapM g = some cs)
    (hmentions : ∀ m, (schemaDocument defs).Mentions node m ↔
      ∃ a ∈ xs, (schemaDocument defs).Mentions (part a) m)
    (hpart : ∀ a b c, f a = some b → g a = some c →
      (b = c ↔ ∀ m, (schemaDocument defs).Mentions (part a) m → HollowName defs m)) :
    bs = cs ↔ ∀ m, (schemaDocument defs).Mentions node m → HollowName defs m := by
  have heach : ∀ a ∈ xs, f a = g a ↔
      ∀ m, (schemaDocument defs).Mentions (part a) m → HollowName defs m := by
    intro a ha
    obtain ⟨b, -, hb⟩ := mem_mapM hf ha
    obtain ⟨c, -, hc⟩ := mem_mapM hg ha
    rw [hb, hc, Option.some.injEq]
    exact hpart a b c hb hc
  rw [mapM_eq_iff hf hg]
  constructor
  · intro hall m hm
    obtain ⟨a, ha, hm⟩ := (hmentions m).mp hm
    exact (heach a ha).mp (hall a ha) m hm
  · intro hall a ha
    apply (heach a ha).mpr
    intro m hm
    exact hall m ((hmentions m).mpr ⟨a, ha, hm⟩)

/-- With and without its definitions a node comes out the same exactly when all
its references are hollow. -/
theorem resolve_eq_iff {d e : ℕ} {node x y : Json} (hx : resolve defs d node = some x)
    (hy : resolve (.obj []) e node = some y) :
    x = y ↔ ∀ name, (schemaDocument defs).Mentions node name → HollowName defs name := by
  induction d generalizing e node x y with
  | zero => cases hx
  | succ d ih =>
      cases e with
      | zero => cases hy
      | succ e =>
      cases node with
      | obj entries =>
          cases href : localRef entries with
          | some name =>
              rw [resolve_bare_ref href hy]
              rw [resolve_ref href] at hx
              obtain ⟨target, hdefs, htarget⟩ := Option.bind_eq_some_iff.mp hx
              rw [hollow_iff htarget]
              constructor
              · intro hhollow m hm
                rw [(mentions_ref href).mp hm]
                exact ⟨target, hdefs, hhollow⟩
              · intro hall
                obtain ⟨other, hother, hhollow⟩ := hall name ((mentions_ref href).mpr rfl)
                rw [hdefs] at hother
                rw [Option.some.inj hother]
                exact hhollow
          | none =>
              rw [resolve_object href] at hx hy
              obtain ⟨xs, hxs, rfl⟩ := Option.map_eq_some_iff.mp hx
              obtain ⟨ys, hys, rfl⟩ := Option.map_eq_some_iff.mp hy
              rw [Json.obj.injEq]
              apply parts_eq_iff hxs hys fun m => mentions_object href
              intro entry b c hb hc
              obtain ⟨x, hx, rfl⟩ := Option.map_eq_some_iff.mp hb
              obtain ⟨y, hy, rfl⟩ := Option.map_eq_some_iff.mp hc
              rw [Prod.mk.injEq, and_iff_right rfl]
              exact ih hx hy
      | arr items =>
          obtain ⟨xs, hxs, rfl⟩ := Option.map_eq_some_iff.mp hx
          obtain ⟨ys, hys, rfl⟩ := Option.map_eq_some_iff.mp hy
          rw [Json.arr.injEq]
          exact parts_eq_iff hxs hys (fun m => mentions_array) fun item x y hx hy => ih hx hy
      | _ =>
          cases hx
          cases hy
          exact iff_of_true rfl fun name hname => absurd hname (not_mentions_leaf rfl rfl)

end

/-! ## One schema, before and after -/

theorem popDefs_popDefs (schema : Dict) : popDefs (popDefs schema) = popDefs schema := by
  rw [popDefs, popDefs, List.filter_filter]
  simp

theorem defsOf_popDefs (schema : Dict) : defsOf (popDefs schema) = .obj [] := by
  have hnone : Dict.get? (popDefs schema) "$defs" = none := by
    rw [Dict.get?, Option.map_eq_none_iff, List.find?_eq_none]
    intro e he
    have hkept := (List.mem_filter.mp he).2
    simpa using hkept
  rw [defsOf, hnone]
  rfl

theorem popDefs_of_none {schema : Dict} (h : Dict.get? schema "$defs" = none) :
    popDefs schema = schema := by
  rw [Dict.get?, Option.map_eq_none_iff, List.find?_eq_none] at h
  refine List.filter_eq_self.mpr fun e he => ?_
  have hkey := h e he
  simpa using hkey

/-- Hollow references do not keep a schema from being inlined. -/
theorem resolve_returns_of_hollow {defs node : Json}
    (h : ∀ name, (schemaDocument defs).Mentions node name → HollowName defs name) :
    ∃ depth x, resolve defs depth node = some x := by
  have htargets : ∀ name, (schemaDocument defs).Mentions node name →
      ∃ d, (schemaDocument defs).Within d ((schemaDocument defs).target name) := by
    intro name hname
    obtain ⟨target, hdefs, hhollow⟩ := h name hname
    obtain ⟨d, hd⟩ := resolve_hollow hhollow
    rw [definition_eq_some hdefs]
    exact ⟨d, (resolve_isSome.mp (Option.isSome_of_eq_some hd)).1⟩
  have hlookups : Lookups defs node := by
    by_cases hany : ∃ name, (schemaDocument defs).Mentions node name
    · obtain ⟨name, hname⟩ := hany
      obtain ⟨target, hdefs, -⟩ := h name hname
      exact .inl (isDict_of_definition hdefs)
    · exact .inr fun name hname => hany ⟨name, hname⟩
  obtain ⟨d, hd⟩ := Document.within_of_mentioned htargets
  obtain ⟨x, hx⟩ := Option.isSome_iff_exists.mp (resolve_isSome.mpr ⟨hd, hlookups⟩)
  exact ⟨d, x, hx⟩

/-- Where definitions were popped and something is left, the two renderings agree
exactly when all references are hollow. -/
theorem clean_popped_iff {schema : Dict} (hrest : popDefs schema ≠ []) :
    (∃ least, ∀ depth ≥ least,
      cleanJsonSchema depth schema = cleanJsonSchema depth (popDefs schema)) ↔
      ∀ name, (schemaDocument (defsOf schema)).Mentions (.obj (popDefs schema)) name →
        HollowName (defsOf schema) name := by
  obtain ⟨e, y, hy⟩ := resolve_bare_returns (.obj (popDefs schema))
  have hlater : ∀ depth, cleanJsonSchema depth (popDefs schema) =
      (resolve (.obj []) depth (.obj (popDefs schema))).map fun cleaned =>
        if cleaned.isDict then cleaned.asDict else popDefs schema := by
    intro depth
    rw [cleanJsonSchema, defsOf_popDefs, popDefs_popDefs]
  constructor
  · rintro ⟨least, h⟩
    have hdeep := resolve_mono hy (le_max_right least e)
    have heq := h _ (le_max_left least e)
    rw [hlater, hdeep] at heq
    obtain ⟨x, hx, hxy⟩ := Option.map_eq_some_iff.mp heq
    apply (resolve_eq_iff hx hdeep).mp
    obtain ⟨k, hk⟩ : ∃ k, max least e = k + 1 := by
      cases hk : max least e with
      | zero =>
          rw [hk] at hdeep
          cases hdeep
      | succ k => exact ⟨k, rfl⟩
    rw [hk] at hx hdeep
    cases href : localRef (popDefs schema) with
    | some name =>
        have hempty : y = .obj [] := resolve_bare_ref href hdeep
        rw [hempty] at hxy ⊢
        cases x with
        | obj cleaned => exact congrArg Json.obj hxy
        | _ => exact absurd hxy hrest
    | none =>
        rw [resolve_object href] at hx hdeep
        obtain ⟨xs, -, rfl⟩ := Option.map_eq_some_iff.mp hx
        obtain ⟨ys, -, rfl⟩ := Option.map_eq_some_iff.mp hdeep
        exact congrArg Json.obj hxy
  · intro h
    obtain ⟨d, x, hx⟩ := resolve_returns_of_hollow h
    have hxy : x = y := (resolve_eq_iff hx hy).mpr h
    refine ⟨max d e, fun depth hdepth => ?_⟩
    have hfirst := resolve_mono hx (le_trans (le_max_left d e) hdepth)
    have hsecond := resolve_mono hy (le_trans (le_max_right d e) hdepth)
    rw [hlater, cleanJsonSchema, hfirst, hsecond, hxy]

/-- An adapter shows the same schema before and after the pop exactly when its
schema is settled. -/
theorem settled_iff (inputSchema : Dict) :
    (∃ least, ∀ depth ≥ least, cleanJsonSchema depth (Parameters.stored inputSchema).current =
      cleanJsonSchema depth (Parameters.stored inputSchema).popped.current) ↔
      Settled inputSchema := by
  cases hdefs : Dict.get? inputSchema "$defs" with
  | none =>
      rw [Parameters.popped, popDefs_of_none hdefs]
      exact iff_of_true ⟨0, fun _ _ => rfl⟩ (.inl hdefs)
  | some defs =>
      have hne : inputSchema.isEmpty = false := by
        cases inputSchema with
        | nil => cases hdefs
        | cons e rest => rfl
      have hsettled : Settled inputSchema ↔ popDefs inputSchema ≠ [] ∧
          ∀ name, (schemaDocument (defsOf inputSchema)).Mentions (.obj (popDefs inputSchema)) name →
            HollowName (defsOf inputSchema) name := by
        rw [Settled, hdefs]
        simp
      simp only [Parameters.current, Parameters.popped, hne, hsettled]
      by_cases hrest : popDefs inputSchema = []
      · -- nothing is left, and from then on the adapter takes any object
        rw [hrest]
        refine iff_of_false ?_ fun h => h.1 rfl
        rintro ⟨least, h⟩
        have heq := h (least + 4) (Nat.le_add_right least 4)
        rw [if_neg Bool.false_ne_true, cleanJsonSchema, hrest] at heq
        cases heq
      · have hne' : (popDefs inputSchema).isEmpty = false := by
          rw [List.isEmpty_eq_false_iff]
          exact hrest
        simp only [hne', Bool.false_eq_true, if_false]
        rw [clean_popped_iff hrest]
        exact ⟨fun h => ⟨hrest, h⟩, fun h => h.2⟩

/-! ## All renderings of a registry -/

section Registry

variable {depth : ℕ} {tools s : List PublishedTool} {name : String}

theorem popped_popped (tool : PublishedTool) : tool.popped.popped = tool.popped := by
  unfold PublishedTool.popped
  cases tool.parameters with
  | fresh schema => rfl
  | stored inputSchema => simp only [Parameters.popped, popDefs_popDefs]

theorem find_popTool (n : String) :
    ((popTool name tools).find? fun t => t.name == n) =
      (tools.find? fun t => t.name == n).map fun t => if t.name = name then t.popped else t := by
  rw [popTool, List.find?_map]
  congr 2
  funext t
  show ((if t.name = name then t.popped else t).name == n) = (t.name == n)
  split <;> rfl

/-- Under each name stands the tool that stood there at first, as it was or popped. -/
def Derived (tools s : List PublishedTool) : Prop :=
  ∀ name, (s.find? fun t => t.name == name) = (tools.find? fun t => t.name == name) ∨
    (s.find? fun t => t.name == name) =
      (tools.find? fun t => t.name == name).map PublishedTool.popped

theorem Derived.popTool (h : Derived tools s) (name : String) : Derived tools (popTool name s) := by
  intro n
  rw [find_popTool]
  cases htool : tools.find? fun t => t.name == n with
  | none =>
      have hnone : (s.find? fun t => t.name == n) = none := by
        rcases h n with heq | heq <;> rw [heq, htool]
        rfl
      rw [hnone]
      exact .inl rfl
  | some t =>
      rcases h n with heq | heq
      · rw [heq, htool, Option.map_some]
        split
        · exact .inr rfl
        · exact .inl rfl
      · rw [heq, htool, Option.map_some, Option.map_some]
        right
        split
        · rw [popped_popped]
        · rfl

/-- The schema shown is the tool's, before or after the pop. -/
def Shows (depth : ℕ) (tools : List PublishedTool) (r : Rendering) : Prop :=
  ∃ t, (tools.find? fun t => t.name == r.tool) = some t ∧
    (r.schema = t.toOllamaSchema depth ∨ r.schema = t.popped.toOllamaSchema depth)

theorem Derived.shows (h : Derived tools s) {t : PublishedTool}
    (ht : (s.find? fun t => t.name == name) = some t) :
    Shows depth tools ⟨name, t.toOllamaSchema depth⟩ := by
  rcases h name with heq | heq
  · exact ⟨t, heq.symm.trans ht, .inl rfl⟩
  · obtain ⟨u, hu, rfl⟩ := Option.map_eq_some_iff.mp (heq.symm.trans ht)
    exact ⟨u, hu, .inr rfl⟩

theorem renderAll_shows (names : List String) (h : Derived tools s) :
    Derived tools (renderAll depth s names).1 ∧
      ∀ r ∈ (renderAll depth s names).2, Shows depth tools r := by
  induction names generalizing s with
  | nil => exact ⟨h, fun r hr => absurd hr List.not_mem_nil⟩
  | cons name names ih =>
      rw [renderAll]
      split
      next => exact ih h
      next tool htool =>
          have hshows : Shows depth tools ⟨name, tool.toOllamaSchema depth⟩ := h.shows htool
          split
          next hraised =>
              refine ⟨h.popTool name, fun r hr => ?_⟩
              rw [List.mem_singleton.mp hr, ← hraised]
              exact hshows
          next schema hschema =>
              obtain ⟨hderived, hrest⟩ := ih (h.popTool name)
              refine ⟨hderived, fun r hr => ?_⟩
              rcases List.mem_cons.mp hr with rfl | hr
              · rw [← hschema]
                exact hshows
              · exact hrest r hr

theorem run_shows {calls : List SchemaCall} {after : List PublishedTool}
    {renderings : List Rendering}
    (hrun : (schemaSystem depth).run tools calls = some (after, renderings)) :
    ∀ r ∈ renderings, Shows depth tools r := by
  have hinv : Derived tools after ∧ ∀ r ∈ [] ++ renderings, Shows depth tools r := by
    refine System.run_induction
      (P := fun s outs => Derived tools s ∧ ∀ r ∈ outs, Shows depth tools r) ?_
      ⟨fun n => .inl rfl, fun r hr => absurd hr List.not_mem_nil⟩ hrun
    rintro s outs call t out - ⟨hderived, houts⟩ hstep
    obtain ⟨hafter, hshows⟩ := renderAll_shows (call.asks s) hderived
    rw [Option.some.inj hstep] at hafter hshows
    refine ⟨hafter, fun r hr => ?_⟩
    rcases List.mem_append.mp hr with hr | hr
    · exact houts r hr
    · exact hshows r hr
  exact hinv.2

/-- The tool shows the same schema before and after the pop. -/
def Shown (depth : ℕ) (tool : PublishedTool) : Prop :=
  tool.toOllamaSchema depth = tool.popped.toOllamaSchema depth

theorem toOllamaSchema_inj {tool : PublishedTool} :
    Shown depth tool ↔ cleanJsonSchema depth tool.parameters.current =
      cleanJsonSchema depth tool.parameters.popped.current := by
  unfold Shown PublishedTool.toOllamaSchema
  constructor
  · intro h
    refine Option.map_injective (fun a b hab => ?_) h
    simpa using hab
  · intro h
    rw [h]
    rfl

theorem shown_fresh {tool : PublishedTool} {schema : Dict} (h : tool.parameters = .fresh schema) :
    Shown depth tool := by
  rw [toOllamaSchema_inj, h]
  rfl

theorem renderAll_single {tool : PublishedTool}
    (h : (tools.find? fun t => t.name == name) = some tool) :
    renderAll depth tools [name] = (popTool name tools, [⟨name, tool.toOllamaSchema depth⟩]) := by
  simp only [renderAll, h]
  cases tool.toOllamaSchema depth <;> rfl

theorem asks_single {tool : PublishedTool}
    (h : (tools.find? fun t => t.name == name) = some tool) :
    (SchemaCall.toOllamaSchema name).asks tools = [name] := by
  have hany : (tools.any fun t => t.name == name) = true := by
    have hfound := List.find?_some h
    exact List.any_eq_true.mpr ⟨tool, List.mem_of_find?_eq_some h, hfound⟩
  rw [SchemaCall.asks, if_pos hany]

/-- Asked for twice, a tool shows its schema before and after the pop. -/
theorem run_twice {tool : PublishedTool}
    (h : (tools.find? fun t => t.name == name) = some tool) :
    (schemaSystem depth).run tools [.toOllamaSchema name, .toOllamaSchema name] =
      some (popTool name (popTool name tools),
        [⟨name, tool.toOllamaSchema depth⟩, ⟨name, tool.popped.toOllamaSchema depth⟩]) := by
  have hname : tool.name = name := by
    have hfound := List.find?_some h
    simpa using hfound
  have hpopped : ((popTool name tools).find? fun t => t.name == name) = some tool.popped := by
    rw [find_popTool, h, Option.map_some, if_pos hname]
  have hfirst : (schemaSystem depth).step tools (.toOllamaSchema name) =
      some (popTool name tools, [⟨name, tool.toOllamaSchema depth⟩]) := by
    show some (renderAll depth tools ((SchemaCall.toOllamaSchema name).asks tools)) = _
    rw [asks_single h, renderAll_single h]
  have hsecond : (schemaSystem depth).step (popTool name tools) (.toOllamaSchema name) =
      some (popTool name (popTool name tools), [⟨name, tool.popped.toOllamaSchema depth⟩]) := by
    show some (renderAll depth _ ((SchemaCall.toOllamaSchema name).asks _)) = _
    rw [asks_single hpopped, renderAll_single hpopped]
  exact (System.run_cons _).mpr ⟨_, _, _, hfirst, (System.run_singleton _).mpr hsecond, rfl⟩

theorem ToolCatalog.find_of_mem (catalog : ToolCatalog) {tool : PublishedTool}
    (h : tool ∈ catalog.tools) :
    (catalog.tools.find? fun t => t.name == tool.name) = some tool := by
  have hsome : (catalog.tools.find? fun t => t.name == tool.name).isSome = true := by
    rw [List.find?_isSome]
    exact ⟨tool, h, beq_self_eq_true _⟩
  obtain ⟨found, hfound⟩ := Option.isSome_iff_exists.mp hsome
  have hname : found.name = tool.name := by
    have hsame := List.find?_some hfound
    simpa using hsame
  have heq := List.inj_on_of_nodup_map catalog.distinct
    (List.mem_of_find?_eq_some hfound) h hname
  rw [hfound, heq]

theorem renderAll_returns {names : List String} (hnodup : names.Nodup) :
    (∀ r ∈ (renderAll depth s names).2, r.schema.isSome = true) ↔
      ∀ name ∈ names, ∀ tool, (s.find? fun t => t.name == name) = some tool →
        (tool.toOllamaSchema depth).isSome = true := by
  induction names generalizing s with
  | nil => simp [renderAll]
  | cons name names ih =>
      obtain ⟨hnew, hnodup⟩ := List.nodup_cons.mp hnodup
      rw [List.forall_mem_cons, renderAll]
      split
      next hnone =>
          rw [ih hnodup, hnone]
          simp
      next tool htool =>
          -- the other tools are as they were
          have hothers : (∀ n ∈ names, ∀ t, ((popTool name s).find? fun t => t.name == n) = some t →
                (t.toOllamaSchema depth).isSome = true) ↔
              ∀ n ∈ names, ∀ t, (s.find? fun t => t.name == n) = some t →
                (t.toOllamaSchema depth).isSome = true := by
            refine forall₂_congr fun n hn => ?_
            have hsame : ((popTool name s).find? fun t => t.name == n) =
                s.find? fun t => t.name == n := by
              rw [find_popTool]
              cases hfound : s.find? fun t => t.name == n with
              | none => rfl
              | some t =>
                  have hname := List.find?_some hfound
                  have hne : t.name ≠ name := by
                    rintro rfl
                    exact hnew (beq_iff_eq.mp hname ▸ hn)
                  rw [Option.map_some, if_neg hne]
            rw [hsame]
          split
          next hraised =>
              refine iff_of_false ?_ fun h => ?_
              · simp
              · have hsome := h.1 tool htool
                rw [hraised] at hsome
                cases hsome
          next schema hschema =>
              dsimp only
              rw [List.forall_mem_cons, ih hnodup, hothers]
              refine and_congr (iff_of_true rfl fun t ht => ?_) Iff.rfl
              rw [htool] at ht
              rw [← Option.some.inj ht, hschema]
              rfl

end Registry

/-- On a stack that is deep enough, the schemas of a registry never change, whoever
asks for them and how often, exactly when all schemas kept by adapters are settled. -/
theorem schemas_steady_iff (catalog : ToolCatalog) :
    (∃ least, ∀ depth ≥ least, ∀ calls after renderings,
      (schemaSystem depth).run catalog.tools calls = some (after, renderings) →
        Steady renderings) ↔
      ∀ tool ∈ catalog.tools, ∀ inputSchema, tool.parameters = .stored inputSchema →
        Settled inputSchema := by
  constructor
  · rintro ⟨least, h⟩ tool htool inputSchema hstored
    apply (settled_iff inputSchema).mp
    refine ⟨least, fun depth hdepth => ?_⟩
    have hsteady := h depth hdepth _ _ _ (run_twice (catalog.find_of_mem htool))
    have hshown : Shown depth tool :=
      hsteady _ List.mem_cons_self _ (List.mem_cons_of_mem _ List.mem_cons_self) rfl
    rw [← hstored]
    exact toOllamaSchema_inj.mp hshown
  · intro h
    have heach : ∀ tool ∈ catalog.tools, ∃ least, ∀ depth ≥ least, Shown depth tool := by
      intro tool htool
      cases hparameters : tool.parameters with
      | fresh schema => exact ⟨0, fun depth _ => shown_fresh hparameters⟩
      | stored inputSchema =>
          obtain ⟨least, hleast⟩ :=
            (settled_iff inputSchema).mpr (h tool htool inputSchema hparameters)
          refine ⟨least, fun depth hdepth => toOllamaSchema_inj.mpr ?_⟩
          rw [hparameters]
          exact hleast depth hdepth
    obtain ⟨least, hleast⟩ := exists_common_depth heach
    refine ⟨least, fun depth hdepth calls after renderings hrun r hr r' hr' hsame => ?_⟩
    have hone : ∀ r ∈ renderings, ∃ t, (catalog.tools.find? fun t => t.name == r.tool) = some t ∧
        r.schema = t.toOllamaSchema depth := by
      intro r hr
      obtain ⟨t, ht, hschema⟩ := run_shows hrun r hr
      have hshown : Shown depth t := hleast t (List.mem_of_find?_eq_some ht) depth hdepth
      exact ⟨t, ht, hschema.elim id fun heq => heq.trans hshown.symm⟩
    obtain ⟨t, ht, hschema⟩ := hone r hr
    obtain ⟨t', ht', hschema'⟩ := hone r' hr'
    rw [hsame, ht'] at ht
    rw [hschema, hschema', Option.some.inj ht]

/-- A remote tool with one definition, `mode`, and one argument that refers to it. -/
def modeSchema : Dict :=
  [("type", .str "object"),
    ("properties", .obj [("mode", .obj [("$ref", .str "#/$defs/Mode")])]),
    ("$defs", .obj [("Mode", .obj [("type", .str "string")])])]

def modeTool : PublishedTool where
  name := "mcp_files_open"
  description := "Open a file."
  parameters := .stored modeSchema

def modeCatalog : ToolCatalog := ⟨[modeTool], List.nodup_singleton _⟩

/-- The argument's type is gone in the second listing. -/
theorem schemas_not_steady :
    ¬ ∀ calls after renderings,
      (schemaSystem 1000).run modeCatalog.tools calls = some (after, renderings) →
        Steady renderings := by
  intro h
  have hsteady := h _ _ _ (run_twice (modeCatalog.find_of_mem (List.mem_singleton_self modeTool)))
  have hshown : Shown 1000 modeTool :=
    hsteady _ List.mem_cons_self _ (List.mem_cons_of_mem _ List.mem_cons_self) rfl
  have hfirst : cleanJsonSchema 1000 modeTool.parameters.current =
      some [("type", .str "object"),
        ("properties", .obj [("mode", .obj [("type", .str "string")])])] := rfl
  have hsecond : cleanJsonSchema 1000 modeTool.parameters.popped.current =
      some [("type", .str "object"), ("properties", .obj [("mode", .obj [])])] := rfl
  rw [toOllamaSchema_inj, hfirst, hsecond] at hshown
  simp at hshown

end Lour.Tools
