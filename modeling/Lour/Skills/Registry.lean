import Lour.Lib.Fallible
import Lour.Lib.OrderedDict
import Lour.Skills.Spec
/-!
# `SkillRegistry.load`

Every YAML file of the directory becomes a skill, in the order of the file names.  The
live dictionary is emptied first and filled while the files are read.
-/

namespace Lour.Skills

open Lour.Lib Lour.Lib.Python

/-- A class among the members of an implementation module. -/
structure SkillClass where
  name : String
  /-- A proper subclass of `Skill` that the module itself defines. -/
  isOverride : Bool
  /-- What its constructor raises for a declaration, if anything. -/
  raises : SkillSpec → Option String := fun _ => none

/-- What `importlib.import_module` comes to. -/
inductive Import where
  | notFound
  | raised (exc : String)
  | found (classes : List SkillClass)

/-- The name of the class is `none` for the `Skill` base. -/
structure Skill where
  className : Option String
  spec : SkillSpec

def Skill.name (self : Skill) : String := self.spec.name

inductive LoadFailure where
  | configuration (message : String)
  | raised (exc : String)

inductive YamlFailure where
  | yaml (exc : String)
  | raised (exc : String)

structure File where
  path : String
  /-- The last part of the path. -/
  name : String
  text : Except String String

/-- The packages behind the registry: PyYAML, Pydantic's validation of a loaded value
against `SkillSpec`, and Python's import. -/
structure Loader (Y : Type) where
  safeLoad : String → Except YamlFailure Y
  truthy : Y → Bool
  emptyDict : Y
  modelValidate : Y → Except String SkillSpec
  importModule : String → Import

section

variable {Y : Type} (self : Loader Y)

def loadSpec (file : File) : Except LoadFailure SkillSpec :=
  match file.text with
  | .error exc => .error (.raised exc)
  | .ok text =>
      match self.safeLoad text with
      | .error (.yaml exc) => .error (.configuration s!"Invalid YAML in skill {file.name}: {exc}")
      | .error (.raised exc) => .error (.raised exc)
      | .ok raw =>
          match self.modelValidate (if self.truthy raw then raw else self.emptyDict) with
          | .error exc =>
              .error (.configuration s!"Invalid skill definition {file.name}: {exc}")
          | .ok spec => .ok spec

/-- `_find_override`; `inspect.getmembers` sorts the members by name. -/
def findOverride (name : String) : Except LoadFailure (Option SkillClass) :=
  match self.importModule name with
  | .notFound => .ok none
  | .raised exc => .error (.raised exc)
  | .found classes =>
      .ok ((classes.insertionSort fun a b => a.name ≤ b.name).find? SkillClass.isOverride)

def instantiate (spec : SkillSpec) : Except LoadFailure Skill := do
  match ← findOverride self spec.name with
  | none => .ok ⟨none, spec⟩
  | some override =>
      match override.raises spec with
      | some exc => .error (.raised exc)
      | none => .ok ⟨some override.name, spec⟩

/-- One round of the loop, up to the check for duplicates. -/
def loadFile (file : File) : Except LoadFailure Skill := do
  let spec ← loadSpec self file
  instantiate self spec

def duplicate (file : File) (skill : Skill) : LoadFailure :=
  .configuration s!"Duplicate skill name {pyRepr skill.name} in {file.path}"

/-- The loop, with the dictionary it leaves behind. -/
def loadFiles :
    List File → OrderedDict String Skill → Except LoadFailure Unit × OrderedDict String Skill
  | [], skills => (.ok (), skills)
  | file :: rest, skills =>
      match loadFile self file with
      | .error e => (.error e, skills)
      | .ok skill =>
          if (skills.get? skill.name).isSome then (.error (duplicate file skill), skills)
          else loadFiles rest (skills.set skill.name skill)

/-- `sorted(self._dir.glob("*.yaml"))`. -/
def sortedFiles (directory : List File) : List File :=
  directory.insertionSort fun a b => a.name ≤ b.name

/-- `load`: how it ends, and the dictionary afterwards. -/
def load (directory : List File) (_skills : OrderedDict String Skill) :
    Except LoadFailure Unit × OrderedDict String Skill :=
  -- `self._skills.clear()`: nothing of the dictionary before the call is kept.
  let cleared := OrderedDict.empty
  loadFiles self (sortedFiles directory) cleared

/-! ## What is left behind -/

variable {self}

/-- The skills of the files before the first one that cannot be loaded or repeats a
name. -/
def leading (self : Loader Y) (seen : List String) : List File → List Skill
  | [] => []
  | file :: rest =>
      match loadFile self file with
      | .error _ => []
      | .ok skill =>
          if skill.name ∈ seen then [] else skill :: leading self (seen ++ [skill.name]) rest

def keyed (skill : Skill) : String × Skill := (skill.name, skill)

variable {skills : OrderedDict String Skill}

theorem get?_isSome_iff {name : String} :
    (skills.get? name).isSome = true ↔ name ∈ skills.entries.map Prod.fst := by
  rw [Option.isSome_iff_exists, List.mem_map]
  constructor
  · rintro ⟨skill, hget⟩
    exact ⟨(name, skill), OrderedDict.get?_eq_some.mp hget, rfl⟩
  · rintro ⟨⟨_, skill⟩, hmem, rfl⟩
    exact ⟨skill, OrderedDict.get?_eq_some.mpr hmem⟩

section Round

variable {file : File} {rest : List File} {skill : Skill}

theorem loadFiles_error {e : LoadFailure} (hfile : loadFile self file = .error e) :
    loadFiles self (file :: rest) skills = (.error e, skills) := by
  rw [loadFiles, hfile]

theorem loadFiles_seen (hfile : loadFile self file = .ok skill)
    (hseen : skill.name ∈ skills.entries.map Prod.fst) :
    loadFiles self (file :: rest) skills = (.error (duplicate file skill), skills) := by
  rw [loadFiles, hfile]
  exact if_pos (get?_isSome_iff.mpr hseen)

theorem loadFiles_fresh (hfile : loadFile self file = .ok skill)
    (hseen : skill.name ∉ skills.entries.map Prod.fst) :
    loadFiles self (file :: rest) skills = loadFiles self rest (skills.set skill.name skill) := by
  rw [loadFiles, hfile]
  exact if_neg fun h => hseen (get?_isSome_iff.mp h)

theorem entries_set_fresh (hseen : skill.name ∉ skills.entries.map Prod.fst) :
    (skills.set skill.name skill).entries = skills.entries ++ [keyed skill] :=
  OrderedDict.entries_set hseen skill

end Round

/-- The loop enters the leading skills, whatever ends it. -/
theorem entries_loadFiles (files : List File) (skills : OrderedDict String Skill) :
    (loadFiles self files skills).2.entries =
      skills.entries ++ (leading self (skills.entries.map Prod.fst) files).map keyed := by
  induction files generalizing skills with
  | nil => exact (List.append_nil _).symm
  | cons file rest ih =>
      rw [leading]
      cases hfile : loadFile self file with
      | error e =>
          rw [loadFiles_error hfile]
          exact (List.append_nil _).symm
      | ok skill =>
          by_cases hseen : skill.name ∈ skills.entries.map Prod.fst
          · rw [loadFiles_seen hfile hseen]
            simp only [if_pos hseen]
            exact (List.append_nil _).symm
          · rw [loadFiles_fresh hfile hseen, ih, entries_set_fresh hseen]
            simp only [if_neg hseen]
            rw [List.map_append, List.append_assoc]
            rfl

/-- The loop gets through exactly where every file is loaded and no name comes twice;
then the leading skills are those of all files. -/
theorem loadFiles_isOk_iff (files : List File) (skills : OrderedDict String Skill) :
    (loadFiles self files skills).1 = .ok () ↔
      ∃ loaded, files.mapM (loadFile self) = .ok loaded ∧
        (skills.entries.map Prod.fst ++ loaded.map Skill.name).Nodup := by
  induction files generalizing skills with
  | nil =>
      refine iff_of_true rfl ⟨[], rfl, ?_⟩
      rw [List.map_nil, List.append_nil]
      exact skills.distinct
  | cons file rest ih =>
      cases hfile : loadFile self file with
      | error e =>
          rw [loadFiles_error hfile]
          refine iff_of_false (by simp) ?_
          rintro ⟨loaded, hloaded, -⟩
          obtain ⟨skill, _, hskill, -⟩ := mapM_cons_eq_ok.mp hloaded
          rw [hfile] at hskill
          cases hskill
      | ok skill =>
          have hfirst : ∀ loaded, (file :: rest).mapM (loadFile self) = .ok loaded →
              ∃ others, rest.mapM (loadFile self) = .ok others ∧ loaded = skill :: others := by
            intro loaded hloaded
            obtain ⟨skill', others, hskill, hothers, rfl⟩ := mapM_cons_eq_ok.mp hloaded
            rw [hfile, Except.ok.injEq] at hskill
            exact ⟨others, hothers, by rw [hskill]⟩
          by_cases hseen : skill.name ∈ skills.entries.map Prod.fst
          · rw [loadFiles_seen hfile hseen]
            refine iff_of_false (by simp) ?_
            rintro ⟨loaded, hloaded, hnodup⟩
            obtain ⟨others, -, rfl⟩ := hfirst loaded hloaded
            rw [List.map_cons] at hnodup
            exact (List.disjoint_of_nodup_append hnodup) hseen (List.mem_cons_self ..)
          · rw [loadFiles_fresh hfile hseen, ih, entries_set_fresh hseen, List.map_append,
              List.map_singleton]
            constructor
            · rintro ⟨others, hothers, hnodup⟩
              refine ⟨skill :: others, mapM_cons_eq_ok.mpr ⟨_, _, hfile, hothers, rfl⟩, ?_⟩
              rwa [List.append_assoc] at hnodup
            · rintro ⟨loaded, hloaded, hnodup⟩
              obtain ⟨others, hothers, rfl⟩ := hfirst loaded hloaded
              refine ⟨others, hothers, ?_⟩
              rwa [List.append_assoc]

/-- What is left behind by a loop that gets through. -/
theorem leading_of_loaded {files : List File} {loaded : List Skill} {seen : List String}
    (hloaded : files.mapM (loadFile self) = .ok loaded)
    (hnodup : (seen ++ loaded.map Skill.name).Nodup) : leading self seen files = loaded := by
  induction files generalizing loaded seen with
  | nil =>
      cases hloaded
      rfl
  | cons file rest ih =>
      obtain ⟨skill, others, hskill, hothers, rfl⟩ := mapM_cons_eq_ok.mp hloaded
      rw [List.map_cons] at hnodup
      have hseen : skill.name ∉ seen := fun hmem =>
        (List.disjoint_of_nodup_append hnodup) hmem (List.mem_cons_self ..)
      rw [List.append_cons] at hnodup
      rw [leading, hskill]
      simp only [if_neg hseen]
      rw [ih hothers hnodup]

/-- `load` returns with one skill for each file under the name it declares, or raises
and leaves the registry as it was. -/
def AllOrNothing (self : Loader Y) (directory : List File) (before : OrderedDict String Skill) :
    Prop :=
  ((load self directory before).1 = .ok () ∧
    ∃ loaded, (sortedFiles directory).mapM (loadFile self) = .ok loaded ∧
      (load self directory before).2.entries = loaded.map keyed) ∨
  (∃ e, (load self directory before).1 = .error e) ∧ (load self directory before).2 = before

/-- Every file is loaded, each under a name of its own. -/
def AllLoad (self : Loader Y) (directory : List File) : Prop :=
  ∃ loaded, (sortedFiles directory).mapM (loadFile self) = .ok loaded ∧
    (loaded.map Skill.name).Nodup

/-- A reload is all or nothing exactly where all files are good, or the registry
already held just the skills of those before the first bad one. -/
theorem load_allOrNothing_iff (self : Loader Y) (directory : List File)
    (before : OrderedDict String Skill) :
    AllOrNothing self directory before ↔
      AllLoad self directory ∨
        before.entries = (leading self [] (sortedFiles directory)).map keyed := by
  have hentries : (load self directory before).2.entries =
      (leading self [] (sortedFiles directory)).map keyed :=
    entries_loadFiles (sortedFiles directory) OrderedDict.empty
  have hok : (load self directory before).1 = .ok () ↔ AllLoad self directory :=
    loadFiles_isOk_iff (sortedFiles directory) OrderedDict.empty
  have hreturns : (load self directory before).1 = .ok () →
      ∃ loaded, (sortedFiles directory).mapM (loadFile self) = .ok loaded ∧
        (load self directory before).2.entries = loaded.map keyed := by
    intro h
    obtain ⟨loaded, hloaded, hnodup⟩ := hok.mp h
    refine ⟨loaded, hloaded, ?_⟩
    rw [hentries, leading_of_loaded hloaded hnodup]
  constructor
  · rintro (⟨h, -⟩ | ⟨-, hsame⟩)
    · exact .inl (hok.mp h)
    · right
      rw [← hentries, hsame]
  · rintro (hall | hbefore)
    · exact .inl ⟨hok.mpr hall, hreturns (hok.mpr hall)⟩
    · cases hresult : (load self directory before).1 with
      | ok _ => exact .inl ⟨hresult, hreturns hresult⟩
      | error e =>
          right
          exact ⟨⟨e, hresult⟩, OrderedDict.ext_entries (hentries.trans hbefore.symm)⟩

end

/-- A running instance with one skill, and a directory whose only file is no YAML. -/
def demoSkill : Skill where
  className := none
  spec :=
    { name := "demo_skill"
      description := "A demo."
      agent := .researcher
      prompt := "Research it." }

def running : OrderedDict String Skill := OrderedDict.empty.set "demo_skill" demoSkill

def badFile : File := ⟨"definitions/demo.yaml", "demo.yaml", .ok "\x7b"⟩

def strictYaml : Loader Json where
  safeLoad text := .error (.yaml text)
  truthy := Json.truthy
  emptyDict := .obj []
  modelValidate _ := .error "Field required"
  importModule _ := .notFound

theorem load_not_allOrNothing :
    ¬ ∀ (self : Loader Json) (directory : List File) (before : OrderedDict String Skill),
      AllOrNothing self directory before := by
  intro hall
  rcases hall strictYaml [badFile] running with ⟨hok, -⟩ | ⟨-, hsame⟩
  · cases hok
  · have hlength := congrArg (fun skills => skills.entries.length) hsame
    exact absurd hlength (by decide)

end Lour.Skills
