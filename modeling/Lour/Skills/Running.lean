import Lour.Lib.Format
import Lour.Skills.Inputs
import Lour.Skills.Registry
/-!
# What a skill is run with

The query, as the prompt of the declaration with the validated inputs in it, and the
policy, as the composition of the skill's own with the defaults and the caller's.
-/

namespace Lour.Skills

open Lour.Lib Lour.Lib.Python Lour.Core

inductive QueryFailure where
  | input (e : InputFailure)
  | format (e : FormatFailure)

/-- For a placeholder without a matching input. -/
def missingInput (skill exc : String) : ValidationError where
  message := "Skill " ++ pyRepr skill ++ " prompt references missing input " ++ exc
  detail := [("missing", .str exc)]

section

variable {O : Type} (objects : Objects O) (spec : SkillSpec)

def buildQuery (inputs : Dict) : Except QueryFailure String :=
  match validateInputs spec inputs with
  | .error e => .error (.input e)
  | .ok resolved =>
      match strFormat objects resolved spec.prompt with
      | .ok query => .ok query
      | .error (.key exc) => .error (.input (.validation (missingInput spec.name exc)))
      | .error e => .error (.format e)

/-- The policy of a run, as `invoke` resolves it. -/
def runPolicy (defaults : Policy) (request : Option Policy) : Except String Policy := do
  let own ← spec.effectivePolicy
  PolicyResolver.resolve (some defaults) (some own) none request

theorem runPolicy_isOk {spec : SkillSpec} (h : spec.budget.violation = none) (defaults : Policy)
    (request : Option Policy) : ∃ policy, runPolicy spec defaults request = .ok policy := by
  obtain ⟨own, hown⟩ := spec.effectivePolicy_isOk_iff.mpr h
  rw [runPolicy, hown]
  exact ⟨_, bind_eq_ok.mpr ⟨own, rfl, PolicyResolver.resolve_eq⟩⟩

variable {objects spec} {inputs resolved : Dict}

theorem buildQuery_of_usable (hvalid : validateInputs spec inputs = .ok resolved)
    (husable : Usable objects resolved 2 spec.prompt.toList) :
    (AllThere resolved (placeholders 2 spec.prompt.toList) →
        ∃ query, buildQuery objects spec inputs = .ok query) ∧
      (¬ AllThere resolved (placeholders 2 spec.prompt.toList) →
        ∃ name ∈ placeholders 2 spec.prompt.toList, resolved.get? name = none ∧
          buildQuery objects spec inputs =
            .error (.input (.validation (missingInput spec.name (pyRepr name))))) := by
  obtain ⟨hwritten, hmissing⟩ := strFormat_usable husable
  constructor
  · intro hall
    obtain ⟨query, hquery⟩ := hwritten hall
    refine ⟨query, ?_⟩
    rw [buildQuery, hvalid]
    dsimp only
    rw [hquery]
  · intro hnot
    obtain ⟨e, he, name, hname, hnone, rfl⟩ := hmissing hnot
    refine ⟨name, hname, hnone, ?_⟩
    rw [buildQuery, hvalid]
    dsimp only
    rw [he]

end

/-- A skill whose prompt can be written has a query wherever no input is missing that the
prompt names, and its inputs are rejected otherwise; with positive limits it has a
policy. -/
theorem skill_runs {O : Type} (objects : Objects O) (spec : SkillSpec) {inputs resolved : Dict}
    (hvalid : validateInputs spec inputs = .ok resolved) (defaults : Policy)
    (request : Option Policy) :
    (Usable objects resolved 2 spec.prompt.toList →
      (AllThere resolved (placeholders 2 spec.prompt.toList) →
        ∃ query, buildQuery objects spec inputs = .ok query) ∧
      (¬ AllThere resolved (placeholders 2 spec.prompt.toList) →
        ∃ name ∈ placeholders 2 spec.prompt.toList, resolved.get? name = none ∧
          buildQuery objects spec inputs =
            .error (.input (.validation (missingInput spec.name (pyRepr name)))))) ∧
    (spec.budget.violation = none → ∃ policy, runPolicy spec defaults request = .ok policy) :=
  ⟨buildQuery_of_usable hvalid, fun h => runPolicy_isOk h defaults request⟩

/-- A skill with an optional input in its prompt. -/
def draftSpec : SkillSpec where
  name := "draft_text"
  description := "Write."
  agent := .researcher
  inputSchema := [("topic", { required := false })]
  prompt := "About \x7btopic\x7d."

/-- Strings without attributes, as far as a field without a specification can tell. -/
def plainObjects : Objects Json where
  ofJson x := x
  getattr _ _ := .error (.raised "AttributeError")
  getitem _ _ := .error (.raised "TypeError")
  convert _ x := .ok (.str x.toStr)
  format x spec := if spec = "" then .ok x.toStr else .error (.value "Invalid format specifier")

theorem draft_items : items draftSpec.prompt.toList =
    [.literal "About ".toList, .field "topic".toList none [], .literal ['.']] := by
  rfl

theorem draft_usable (resolved : Dict) :
    Usable plainObjects resolved 2 draftSpec.prompt.toList := by
  rw [Usable, draft_items]
  intro item hitem
  simp only [List.mem_cons, List.not_mem_nil, or_false] at hitem
  rcases hitem with rfl | rfl | rfl
  · trivial
  · refine ⟨⟨List.cons_ne_nil _ _, rfl⟩, fun hbrace => absurd hbrace List.not_mem_nil, ?_⟩
    intro x hx
    have hx' : resolved.get? "topic" = some x := hx
    refine ⟨x, x, ?_, rfl, ?_⟩
    · have hargument : argument plainObjects resolved "topic".toList = .ok x := by
        have hne : "topic".toList ≠ [] := List.cons_ne_nil _ _
        rw [argument_eq hne rfl, String.ofList_toList, hx']
        rfl
      rw [fieldObject]
      show (argument plainObjects resolved "topic".toList >>= _) = _
      rw [hargument]
      rfl
    · intro text htext
      cases htext
      exact ⟨x.toStr, rfl⟩
  · trivial

theorem draft_placeholders : placeholders 2 draftSpec.prompt.toList = ["topic"] := by
  rfl

theorem skill_runs_draft :
    ((∃ query, buildQuery plainObjects draftSpec [("topic", .str "rust")] = .ok query) ∧
        ∃ policy, runPolicy draftSpec {} none = .ok policy) ∧
      ∃ name ∈ ["topic"], Dict.get? [] name = none ∧ buildQuery plainObjects draftSpec [] =
        .error (.input (.validation (missingInput "draft_text" (pyRepr name)))) := by
  have hgiven : validateInputs draftSpec [("topic", .str "rust")] = .ok [("topic", .str "rust")] :=
    rfl
  have habsent : validateInputs draftSpec [] = .ok [] := rfl
  obtain ⟨hquery, hpolicy⟩ := skill_runs plainObjects draftSpec hgiven {} none
  obtain ⟨hmissing, -⟩ := skill_runs plainObjects draftSpec habsent {} none
  refine ⟨⟨(hquery (draft_usable _)).1 ?_, hpolicy rfl⟩, (hmissing (draft_usable _)).2 ?_⟩
  · intro name hname
    rw [draft_placeholders, List.mem_singleton] at hname
    rw [hname]
    exact ⟨.str "rust", rfl⟩
  · intro hall
    obtain ⟨x, hx⟩ := hall "topic" (by rw [draft_placeholders]; exact List.mem_singleton_self _)
    cases hx

/-- The declaration of `draftSpec`, and what YAML makes of it. -/
def draftText : String :=
  "name: draft_text\ndescription: Write.\nagent: researcher\n" ++
    "input_schema:\n  topic:\n    required: false\nprompt: About \x7btopic\x7d.\n"

def draftRaw : Json :=
  .obj [("name", .str "draft_text"), ("description", .str "Write."), ("agent", .str "researcher"),
    ("input_schema", .obj [("topic", .obj [("required", .bool false)])]),
    ("prompt", .str "About \x7btopic\x7d.")]

/-- A directory with the one declaration. -/
def draftFile : File := ⟨"definitions/draft_text.yaml", "draft_text.yaml", .ok draftText⟩

/-- The YAML of that text, and the validation of what declares a researcher with one input. -/
def draftLoader : Loader Json where
  safeLoad text := if text = draftText then .ok draftRaw else .error (.yaml "unknown text")
  truthy := Json.truthy
  emptyDict := .obj []
  modelValidate
    | .obj [("name", .str name), ("description", .str description), ("agent", .str "researcher"),
        ("input_schema", .obj [(input, .obj [("required", .bool required)])]),
        ("prompt", .str prompt)] =>
        if h : isSkillName name = true then
          .ok
            { name
              description
              agent := .researcher
              inputSchema := [(input, { required })]
              prompt
              nameMatches := h
              distinct := List.nodup_singleton _ }
        else .error "String should match pattern"
    | _ => .error "Field required"
  importModule _ := .notFound

theorem loaded_skill_not_run :
    ¬ ∀ (Y O : Type) (self : Loader Y) (objects : Objects O) (directory : List File)
      (before : OrderedDict String Skill) (skill : Skill),
      (load self directory before).1 = .ok () →
      keyed skill ∈ (load self directory before).2.entries →
      ∀ (inputs resolved : Dict), validateInputs skill.spec inputs = .ok resolved →
      ∀ (defaults : Policy) (request : Option Policy),
        (∃ query, buildQuery objects skill.spec inputs = .ok query) ∧
          ∃ policy, runPolicy skill.spec defaults request = .ok policy := by
  intro hall
  obtain ⟨⟨query, hquery⟩, -⟩ := hall Json Json draftLoader plainObjects [draftFile]
    OrderedDict.empty ⟨none, draftSpec⟩ rfl (List.mem_singleton_self _) [] [] rfl {} none
  have hraises : buildQuery plainObjects draftSpec [] =
    .error (.input (.validation (missingInput "draft_text" (pyRepr "topic")))) := rfl
  rw [hraises] at hquery
  cases hquery

end Lour.Skills
