import Mathlib.Data.List.ReduceOption
import Lour.Lib.Fallible
import Lour.Skills.Spec
/-!
# `Skill.validate_inputs`

Each field of the schema takes its value from the caller or from its default, checks it
against the choices as it was given, and converts it.  A conversion may raise, and a
converted value may be written differently.
-/

namespace Lour.Skills

open Lour.Lib Lour.Lib.Python

/-- The application's `ValidationError`. -/
structure ValidationError where
  message : String
  detail : Dict

inductive InputFailure where
  | validation (e : ValidationError)
  /-- Any other exception. -/
  | raised (e : PyError)

abbrev Field := String × InputField

/-- The value of a field, from the caller or from its default. -/
def pick (inputs : Dict) (f : Field) : Option Value :=
  let fallback := if f.2.default.isNone then none else some f.2.default
  match inputs.get? f.1 with
  | none | some .null => fallback
  | some x => some (.json x)

def missing (skill name : String) : ValidationError where
  message := "Skill " ++ pyRepr skill ++ " requires input " ++ pyRepr name
  detail := [("field", .str name)]

def unlisted (name : String) (choices : List String) (value : Value) : ValidationError where
  message := "Input " ++ pyRepr name ++ " must be one of " ++ pyReprList choices ++ ", got " ++
    value.repr
  detail := [("field", .str name), ("allowed", .arr (choices.map .str))]

def checkChoices (f : Field) (value : Value) : Except InputFailure Unit :=
  match f.2.choices with
  | none => .ok ()
  | some choices =>
      match value.str with
      | .error e => .error (.raised e)
      | .ok s =>
          if s ∈ choices then .ok () else .error (.validation (unlisted f.1 choices value))

/-- `_PY_TYPES[field.type](value)`. -/
def convert : InputType → Value → Except PyError Json
  | .str, value => value.str.map .str
  | .int, value => value.int.map .int
  | .float, value => value.float.map .float
  | .bool, value => .ok (.bool value.truthy)

/-- One round of the loop: the entry of the field, unless it is left out. -/
def validateField (skill : String) (inputs : Dict) (f : Field) :
    Except InputFailure (Option (String × Json)) :=
  match pick inputs f with
  | none => if f.2.required then .error (.validation (missing skill f.1)) else .ok none
  | some value => do
      checkChoices f value
      match convert f.2.type value with
      | .ok w => .ok (some (f.1, w))
      | .error e => .error (.raised e)

def validateInputs (spec : SkillSpec) (inputs : Dict) : Except InputFailure Dict := do
  let entries ← spec.inputSchema.mapM (validateField spec.name inputs)
  .ok entries.reduceOption

/-! ## What a field comes to -/

/-- The value has its declared type. -/
def HasType : InputType → Json → Prop
  | .str, .str _ => True
  | .int, .int _ => True
  | .float, .float _ => True
  | .bool, .bool _ => True
  | _, _ => False

/-- The value, written as a string, is one of the choices, if there are any. -/
def Listed (f : Field) (value : Value) : Prop :=
  ∀ choices ∈ f.2.choices, ∃ s ∈ choices, value.str = .ok s

/-- The field is left out, or its value is listed and can be converted. -/
def Passes (inputs : Dict) (f : Field) : Prop :=
  match pick inputs f with
  | none => f.2.required = false
  | some value => Listed f value ∧ ∃ w, convert f.2.type value = .ok w

/-- The field is required and has no value, or its value is not listed. -/
def Rejected (inputs : Dict) (f : Field) : Prop :=
  match pick inputs f with
  | none => f.2.required = true
  | some value => ∃ choices ∈ f.2.choices, ∃ s, value.str = .ok s ∧ s ∉ choices

/-- The value is still listed when it has been converted. -/
def StaysListed (inputs : Dict) (f : Field) : Prop :=
  ∀ value ∈ pick inputs f, ∀ w, convert f.2.type value = .ok w → Listed f (.json w)

section Field

variable {skill : String} {inputs : Dict} {f : Field}

theorem checkChoices_eq_ok {value : Value} : checkChoices f value = .ok () ↔ Listed f value := by
  rw [checkChoices, Listed]
  cases f.2.choices with
  | none => simp
  | some choices =>
      simp only [Option.mem_some_iff, forall_eq']
      cases value.str with
      | error e => simp
      | ok s =>
          dsimp only
          by_cases hs : s ∈ choices
          · rw [if_pos hs]
            exact iff_of_true rfl ⟨s, hs, rfl⟩
          · rw [if_neg hs]
            refine iff_of_false (by simp) ?_
            rintro ⟨s', hs', heq⟩
            cases heq
            exact hs hs'

theorem checkChoices_rejects {value : Value} :
    (∃ e, checkChoices f value = .error (.validation e)) ↔
      ∃ choices ∈ f.2.choices, ∃ s, value.str = .ok s ∧ s ∉ choices := by
  rw [checkChoices]
  cases f.2.choices with
  | none => simp
  | some choices =>
      simp only [Option.mem_some_iff, exists_eq_left']
      cases value.str with
      | error e => simp
      | ok s =>
          simp only [Except.ok.injEq, exists_eq_left']
          by_cases hs : s ∈ choices
          · rw [if_pos hs]
            exact iff_of_false (by simp) (not_not_intro hs)
          · rw [if_neg hs]
            exact iff_of_true ⟨_, rfl⟩ hs

theorem validateField_of_none (h : pick inputs f = none) :
    validateField skill inputs f =
      if f.2.required then .error (.validation (missing skill f.1)) else .ok none := by
  rw [validateField, h]

theorem validateField_of_some {value : Value} (h : pick inputs f = some value) :
    validateField skill inputs f = (do
      checkChoices f value
      match convert f.2.type value with
      | .ok w => .ok (some (f.1, w))
      | .error e => .error (.raised e)) := by
  rw [validateField, h]

theorem validateField_eq_none :
    validateField skill inputs f = .ok none ↔ pick inputs f = none ∧ f.2.required = false := by
  cases hpick : pick inputs f with
  | none =>
      rw [validateField_of_none hpick]
      cases f.2.required <;> simp
  | some value =>
      rw [validateField_of_some hpick, bind_eq_ok]
      refine iff_of_false ?_ (by simp)
      rintro ⟨_, -, h⟩
      split at h <;> cases h

theorem validateField_eq_some {e : String × Json} :
    validateField skill inputs f = .ok (some e) ↔ ∃ value, pick inputs f = some value ∧
      Listed f value ∧ convert f.2.type value = .ok e.2 ∧ e.1 = f.1 := by
  cases hpick : pick inputs f with
  | none =>
      rw [validateField_of_none hpick]
      refine iff_of_false ?_ (by simp)
      split <;> simp
  | some value =>
      rw [validateField_of_some hpick, bind_eq_ok]
      simp only [Option.some.injEq, exists_eq_left', ← checkChoices_eq_ok]
      constructor
      · rintro ⟨_, hlisted, h⟩
        cases hconvert : convert f.2.type value with
        | error e' =>
            rw [hconvert] at h
            cases h
        | ok w =>
            rw [hconvert] at h
            cases h
            exact ⟨hlisted, rfl, rfl⟩
      · rintro ⟨hlisted, hconvert, hname⟩
        refine ⟨(), hlisted, ?_⟩
        rw [hconvert, ← hname]

theorem passes_iff : Passes inputs f ↔ ∃ o, validateField skill inputs f = .ok o := by
  rw [Passes]
  constructor
  · intro h
    cases hpick : pick inputs f with
    | none =>
        rw [hpick] at h
        exact ⟨none, validateField_eq_none.mpr ⟨hpick, h⟩⟩
    | some value =>
        rw [hpick] at h
        obtain ⟨hlisted, w, hw⟩ := h
        exact ⟨some (f.1, w), validateField_eq_some.mpr ⟨value, hpick, hlisted, hw, rfl⟩⟩
  · rintro ⟨o, h⟩
    cases o with
    | none =>
        obtain ⟨hpick, hrequired⟩ := validateField_eq_none.mp h
        rw [hpick]
        exact hrequired
    | some e =>
        obtain ⟨value, hpick, hlisted, hw, -⟩ := validateField_eq_some.mp h
        rw [hpick]
        exact ⟨hlisted, e.2, hw⟩

theorem rejected_iff :
    Rejected inputs f ↔ ∃ e, validateField skill inputs f = .error (.validation e) := by
  rw [Rejected]
  cases hpick : pick inputs f with
  | none =>
      rw [validateField_of_none hpick]
      cases f.2.required <;> simp
  | some value =>
      rw [validateField_of_some hpick]
      dsimp only
      rw [← checkChoices_rejects]
      cases checkChoices f value with
      | error e =>
          apply exists_congr
          intro e'
          show Except.error e = Except.error (InputFailure.validation e') ↔
            (Except.error e : Except InputFailure (Option (String × Json))) = _
          rw [Except.error.injEq, Except.error.injEq]
      | ok _ =>
          refine iff_of_false (by simp) ?_
          rintro ⟨e, h⟩
          change (match convert f.2.type value with
            | .ok w => Except.ok (some (f.1, w))
            | .error e => Except.error (InputFailure.raised e)) = _ at h
          split at h <;> cases h

theorem pick_given {x : Json} (h : inputs.get? f.1 = some x)
    (hnone : (Value.json x).isNone = false) : pick inputs f = some (.json x) := by
  rw [pick, h]
  cases x with
  | null => cases hnone
  | _ => rfl

/-- Where the caller gives nothing, there is no difference between two callers. -/
theorem pick_of_absent (h : inputs.get? f.1 = none) :
    pick inputs f = if f.2.default.isNone then none else some f.2.default := by
  rw [pick, h]

theorem pick_eq_none (h : pick inputs f = none) : f.2.default.isNone = true := by
  rw [pick] at h
  split at h
  · by_contra hdefault
    rw [if_neg hdefault] at h
    cases h
  · by_contra hdefault
    rw [if_neg hdefault] at h
    cases h
  · cases h

end Field

/-! ## Converted values -/

theorem convert_hasType {type : InputType} {value : Value} {w : Json}
    (h : convert type value = .ok w) : HasType type w := by
  cases type with
  | str =>
      obtain ⟨s, -, rfl⟩ := map_eq_ok.mp h
      trivial
  | int =>
      obtain ⟨i, -, rfl⟩ := map_eq_ok.mp h
      trivial
  | float =>
      obtain ⟨x, -, rfl⟩ := map_eq_ok.mp h
      trivial
  | bool =>
      cases h
      trivial

/-- A value of the declared type is not changed. -/
theorem convert_of_hasType {type : InputType} {w : Json} (h : HasType type w) :
    convert type (.json w) = .ok w := by
  cases type with
  | str =>
      cases w with
      | str s => rfl
      | _ => cases h
  | int =>
      cases w with
      | int i => rfl
      | _ => cases h
  | float =>
      cases w with
      | float x => rfl
      | _ => cases h
  | bool =>
      cases w with
      | bool b => rfl
      | _ => cases h

theorem isNone_of_hasType {type : InputType} {w : Json} (h : HasType type w) :
    (Value.json w).isNone = false := by
  cases w with
  | null => cases type <;> cases h
  | _ => rfl

/-! ## What the loop comes to -/

section Validate

variable {spec : SkillSpec} {inputs resolved : Dict}

theorem validateInputs_eq_ok :
    validateInputs spec inputs = .ok resolved ↔
      ∃ entries, spec.inputSchema.mapM (validateField spec.name inputs) = .ok entries ∧
        entries.reduceOption = resolved := by
  rw [validateInputs, bind_eq_ok]
  apply exists_congr
  intro entries
  rw [Except.ok.injEq]

theorem mem_resolved (h : validateInputs spec inputs = .ok resolved) {e : String × Json} :
    e ∈ resolved ↔ ∃ f ∈ spec.inputSchema, validateField spec.name inputs f = .ok (some e) := by
  obtain ⟨entries, hentries, rfl⟩ := validateInputs_eq_ok.mp h
  rw [List.reduceOption_mem_iff, mem_mapM_ok hentries]

theorem field_unique {f g : Field} (hf : f ∈ spec.inputSchema) (hg : g ∈ spec.inputSchema)
    (h : f.1 = g.1) : f = g :=
  List.inj_on_of_nodup_map spec.distinct hf hg h

theorem keys_resolved (h : validateInputs spec inputs = .ok resolved) :
    (resolved.map Prod.fst).Nodup := by
  obtain ⟨entries, hentries, rfl⟩ := validateInputs_eq_ok.mp h
  have hsublist : ∀ (fields : List Field) entries,
      fields.mapM (validateField spec.name inputs) = .ok entries →
      (entries.reduceOption.map Prod.fst).Sublist (fields.map Prod.fst) := by
    intro fields
    induction fields with
    | nil =>
        intro entries hentries
        cases hentries
        exact List.Sublist.slnil
    | cons f fields ih =>
        intro entries hentries
        obtain ⟨o, rest, ho, hrest, rfl⟩ := mapM_cons_eq_ok.mp hentries
        cases o with
        | none => exact (ih rest hrest).cons f.1
        | some e =>
            obtain ⟨_, -, -, -, hname⟩ := validateField_eq_some.mp ho
            rw [List.reduceOption_cons_of_some, List.map_cons, List.map_cons, hname]
            exact (ih rest hrest).cons_cons f.1
  exact (hsublist _ _ hentries).nodup spec.distinct

/-- The entry of a field in the result is what its round came to. -/
theorem get?_resolved (h : validateInputs spec inputs = .ok resolved) {f : Field}
    (hf : f ∈ spec.inputSchema) {o : Option (String × Json)}
    (ho : validateField spec.name inputs f = .ok o) : resolved.get? f.1 = o.map Prod.snd := by
  cases o with
  | some e =>
      obtain ⟨_, -, -, -, hname⟩ := validateField_eq_some.mp ho
      rw [← hname]
      exact Dict.get?_of_mem (keys_resolved h) ((mem_resolved h).mpr ⟨f, hf, ho⟩)
  | none =>
      by_contra hsome
      obtain ⟨w, hget⟩ := Option.ne_none_iff_exists'.mp hsome
      obtain ⟨g, hg, hentry⟩ := (mem_resolved h).mp (Dict.mem_of_get? hget)
      obtain ⟨_, -, -, -, hname⟩ := validateField_eq_some.mp hentry
      rw [field_unique hf hg hname, hentry] at ho
      cases ho

/-! ## What validation promises -/

/-- What may be relied on in a result. -/
structure Valid (spec : SkillSpec) (resolved : Dict) : Prop where
  distinct : (resolved.map Prod.fst).Nodup
  declared : ∀ e ∈ resolved, ∃ f ∈ spec.inputSchema, f.1 = e.1
  present : ∀ f ∈ spec.inputSchema, f.2.required = true → ∃ w, resolved.get? f.1 = some w
  typed : ∀ f ∈ spec.inputSchema, ∀ w ∈ resolved.get? f.1, HasType f.2.type w
  listed : ∀ f ∈ spec.inputSchema, ∀ w ∈ resolved.get? f.1, Listed f (.json w)

/-- Validation rejects the inputs, or returns a result that is valid and that it
returns again. -/
def Total (spec : SkillSpec) (inputs : Dict) : Prop :=
  (∃ e, validateInputs spec inputs = .error (.validation e)) ∨
    ∃ resolved, validateInputs spec inputs = .ok resolved ∧ Valid spec resolved ∧
      validateInputs spec resolved = .ok resolved

/-- The first field that does not pass is rejected. -/
def RejectedFirst (spec : SkillSpec) (inputs : Dict) : Prop :=
  ∃ before f after, spec.inputSchema = before ++ f :: after ∧
    (∀ g ∈ before, Passes inputs g) ∧ Rejected inputs f

theorem rejects_iff :
    (∃ e, validateInputs spec inputs = .error (.validation e)) ↔ RejectedFirst spec inputs := by
  have hloop : ∀ e, validateInputs spec inputs = .error e ↔
      spec.inputSchema.mapM (validateField spec.name inputs) = .error e := by
    intro e
    rw [validateInputs]
    cases spec.inputSchema.mapM (validateField spec.name inputs) with
    | error e' =>
        show (Except.error e' : Except InputFailure Dict) = .error e ↔ _
        rw [Except.error.injEq, Except.error.injEq]
    | ok entries => exact iff_of_false (fun h => by cases h) (fun h => by cases h)
  constructor
  · rintro ⟨e, h⟩
    obtain ⟨before, f, after, hschema, hbefore, hf⟩ := mapM_eq_error.mp ((hloop _).mp h)
    exact ⟨before, f, after, hschema, fun g hg => passes_iff.mpr (hbefore g hg),
      rejected_iff.mpr ⟨e, hf⟩⟩
  · rintro ⟨before, f, after, hschema, hbefore, hf⟩
    obtain ⟨e, he⟩ := (@rejected_iff spec.name inputs f).mp hf
    refine ⟨e, (hloop _).mpr (mapM_eq_error.mpr ⟨before, f, after, hschema, ?_, he⟩)⟩
    exact fun g hg => passes_iff.mp (hbefore g hg)

theorem validateInputs_isOk_iff :
    (∃ resolved, validateInputs spec inputs = .ok resolved) ↔
      ∀ f ∈ spec.inputSchema, Passes inputs f := by
  have hpasses : (∀ f ∈ spec.inputSchema, Passes inputs f) ↔
      ∀ f ∈ spec.inputSchema, ∃ o, validateField spec.name inputs f = .ok o :=
    forall₂_congr fun f _ => passes_iff
  rw [hpasses, ← exists_mapM_ok]
  constructor
  · rintro ⟨resolved, h⟩
    obtain ⟨entries, hentries, -⟩ := validateInputs_eq_ok.mp h
    exact ⟨entries, hentries⟩
  · rintro ⟨entries, hentries⟩
    exact ⟨entries.reduceOption, validateInputs_eq_ok.mpr ⟨entries, hentries, rfl⟩⟩

/-- Where a field of the result comes from. -/
theorem get?_resolved_eq_some (h : validateInputs spec inputs = .ok resolved) {f : Field}
    (hf : f ∈ spec.inputSchema) {w : Json} :
    resolved.get? f.1 = some w ↔ ∃ value ∈ pick inputs f, convert f.2.type value = .ok w := by
  obtain ⟨o, ho⟩ := passes_iff.mp (validateInputs_isOk_iff.mp ⟨resolved, h⟩ f hf)
  rw [get?_resolved h hf ho]
  cases o with
  | none =>
      rw [(validateField_eq_none.mp ho).1]
      simp
  | some e =>
      obtain ⟨value, hpick, -, hw, -⟩ := validateField_eq_some.mp ho
      rw [hpick, Option.map_some, Option.some.injEq]
      simp only [Option.mem_some_iff, exists_eq_left', hw, Except.ok.injEq]

theorem valid_iff (h : validateInputs spec inputs = .ok resolved) :
    Valid spec resolved ↔ ∀ f ∈ spec.inputSchema, StaysListed inputs f := by
  have hget := fun {f} (hf : f ∈ spec.inputSchema) {w} => get?_resolved_eq_some (w := w) h hf
  constructor
  · intro hvalid f hf value hvalue w hw
    exact hvalid.listed f hf w ((hget hf).mpr ⟨value, hvalue, hw⟩)
  · intro hlisted
    refine ⟨keys_resolved h, ?_, ?_, ?_, ?_⟩
    · intro e he
      obtain ⟨f, hf, hentry⟩ := (mem_resolved h).mp he
      obtain ⟨_, -, -, -, hname⟩ := validateField_eq_some.mp hentry
      exact ⟨f, hf, hname.symm⟩
    · intro f hf hrequired
      obtain ⟨o, ho⟩ := passes_iff.mp (validateInputs_isOk_iff.mp ⟨resolved, h⟩ f hf)
      rw [get?_resolved h hf ho]
      cases o with
      | none =>
          rw [(validateField_eq_none.mp ho).2] at hrequired
          cases hrequired
      | some e => exact ⟨e.2, rfl⟩
    · intro f hf w hw
      obtain ⟨value, -, hconvert⟩ := (hget hf).mp hw
      exact convert_hasType hconvert
    · intro f hf w hw
      obtain ⟨value, hvalue, hconvert⟩ := (hget hf).mp hw
      exact hlisted f hf value hvalue w hconvert

/-- The result passes again, unchanged. -/
theorem validateInputs_again (h : validateInputs spec inputs = .ok resolved)
    (hlisted : ∀ f ∈ spec.inputSchema, StaysListed inputs f) :
    validateInputs spec resolved = .ok resolved := by
  obtain ⟨entries, hentries, heq⟩ := validateInputs_eq_ok.mp h
  refine validateInputs_eq_ok.mpr ⟨entries, mapM_ok_mono ?_ hentries, heq⟩
  intro f hf o ho
  have hget := get?_resolved h hf ho
  cases o with
  | none =>
      obtain ⟨hpick, hrequired⟩ := validateField_eq_none.mp ho
      refine validateField_eq_none.mpr ⟨?_, hrequired⟩
      rw [pick_of_absent hget, if_pos (pick_eq_none hpick)]
  | some e =>
      obtain ⟨value, hpick, -, hw, hname⟩ := validateField_eq_some.mp ho
      have htype := convert_hasType hw
      exact validateField_eq_some.mpr ⟨.json e.2, pick_given hget (isNone_of_hasType htype),
        hlisted f hf value hpick e.2 hw, convert_of_hasType htype, hname⟩

end Validate

/-- Validation is total exactly where the first field that does not pass is rejected, or
all pass and no converted value leaves the choices. -/
theorem validateInputs_total_iff (spec : SkillSpec) (inputs : Dict) :
    Total spec inputs ↔ RejectedFirst spec inputs ∨
      ∀ f ∈ spec.inputSchema, Passes inputs f ∧ StaysListed inputs f := by
  rw [Total, rejects_iff]
  apply or_congr_right
  constructor
  · rintro ⟨resolved, h, hvalid, -⟩ f hf
    exact ⟨validateInputs_isOk_iff.mp ⟨resolved, h⟩ f hf, (valid_iff h).mp hvalid f hf⟩
  · intro hall
    obtain ⟨resolved, h⟩ := validateInputs_isOk_iff.mpr fun f hf => (hall f hf).1
    have hlisted : ∀ f ∈ spec.inputSchema, StaysListed inputs f := fun f hf => (hall f hf).2
    exact ⟨resolved, h, (valid_iff h).mpr hlisted, validateInputs_again h hlisted⟩

/-- A skill that takes a number. -/
def countSkill : SkillSpec where
  name := "count_items"
  description := "Count."
  agent := .researcher
  inputSchema := [("n", { type := .int })]
  prompt := "Count to \x7bn\x7d."

theorem validateInputs_not_total :
    ¬ ∀ (spec : SkillSpec) (inputs : Dict), Total spec inputs := by
  intro hall
  have hraises : validateInputs countSkill [("n", .str "many")] =
    .error (.raised .valueError) := rfl
  rcases hall countSkill [("n", .str "many")] with ⟨e, h⟩ | ⟨resolved, h, -⟩
  · rw [hraises] at h
    cases h
  · rw [hraises] at h
    cases h

end Lour.Skills
