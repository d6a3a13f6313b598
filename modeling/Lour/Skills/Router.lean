import Mathlib.Data.Finset.Card
import Lour.Agents.State
import Lour.Lib.Ranking
import Lour.Skills.Registry
/-!
# `SkillRouter`

One classification of a text.  A name that is not registered is replaced by the skill
that has most of the text's words in its name and description.
-/

namespace Lour.Skills

open Lour.Lib Lour.Lib.Python Lour.Agents

/-- A loaded registry: every skill stands under the name it declares. -/
structure SkillRegistry where
  skills : OrderedDict String Skill
  keyed : ∀ entry ∈ skills.entries, entry = Skills.keyed entry.2

namespace SkillRegistry

variable (self : SkillRegistry)

/-- The skills, in the order of their registration. -/
def all : List Skill := self.skills.values

def names : List String := self.skills.entries.map Prod.fst

/-- What `load` leaves behind. -/
def loaded {Y : Type} (loader : Loader Y) (directory : List File)
    (before : OrderedDict String Skill) : SkillRegistry where
  skills := (load loader directory before).2
  keyed := by
    intro entry hentry
    have hentries : (load loader directory before).2.entries = _ :=
      entries_loadFiles (sortedFiles directory) OrderedDict.empty
    rw [hentries] at hentry
    rcases List.mem_append.mp hentry with hempty | hkeyed
    · exact absurd hempty List.not_mem_nil
    · obtain ⟨skill, -, heq⟩ := List.mem_map.mp hkeyed
      rw [← heq]
      rfl

/-- The order of registration is the order of the files. -/
theorem all_loaded {Y : Type} (loader : Loader Y) (directory : List File)
    (before : OrderedDict String Skill) :
    (loaded loader directory before).all = leading loader [] (sortedFiles directory) := by
  have hentries : (load loader directory before).2.entries =
      (leading loader [] (sortedFiles directory)).map Skills.keyed :=
    entries_loadFiles (sortedFiles directory) OrderedDict.empty
  show (load loader directory before).2.entries.map Prod.snd = _
  rw [hentries, List.map_map]
  exact List.map_id _

instance : Membership String SkillRegistry where
  mem self name := name ∈ self.names

instance (name : String) : Decidable (name ∈ self) :=
  inferInstanceAs (Decidable (name ∈ self.names))

end SkillRegistry

structure SkillDecision where
  skill : String
  reasoning : String := ""

inductive RoutingFailure where
  | configuration (message : String)
  | raised (exc : String)

def routerSystem : String :=
  "You are a router. Classify the user's request into exactly one of the " ++
    "available skills by returning that skill's exact name. Choose the single " ++
    "best fit based on each skill's stated purpose."

/-- `w.strip(".,!?")`. -/
def isMark (c : Char) : Bool := c == '.' || c == ',' || c == '!' || c == '?'

def stripMarks (w : String) : String :=
  String.ofList ((w.toList.dropWhile isMark).rdropWhile isMark)

/-- `text.split()`. -/
def splitWords (text : String) : List String :=
  ((text.toList.splitOnP isSpace).filter (· ≠ [])).map String.ofList

structure SkillRouter where
  registry : SkillRegistry
  /-- `structured.complete`, for the schema `SkillDecision`. -/
  complete : List LLMMessage → Except String SkillDecision
  /-- `str.lower`; nothing here depends on which characters it changes. -/
  lower : String → String

namespace SkillRouter

variable (self : SkillRouter)

def catalog : String :=
  "\n".intercalate (self.registry.all.map fun s => s!"- {s.name}: {s.spec.description}")

def messages (text : String) : List LLMMessage :=
  let prompt := s!"Available skills (name: purpose):\n{self.catalog}\n\nUser request:\n{text}\n\n" ++
    "Return the exact name of the single best skill."
  [.system routerSystem, .user prompt]

/-- The set of words; a list without repetitions. -/
def words (text : String) : List String :=
  (((splitWords text).filter fun w => 3 < w.length).map fun w => self.lower (stripMarks w)).dedup

def haystack (skill : Skill) : String := self.lower s!"{skill.name} {skill.spec.description}"

/-- `sum(1 for w in words if w in haystack)`. -/
def score (words : List String) (skill : Skill) : ℤ :=
  (words.filter fun w => w.toList <:+: (self.haystack skill).toList).length

/-- `none` where no skill is registered. -/
def keywordFallback (text : String) : Option String :=
  self.registry.names.head?.map fun first =>
    (self.registry.all.foldl (pickBetter Skill.name (self.score (self.words text))) (first, -1)).1

def fallbackReasoning (decision : SkillDecision) : String :=
  s!"fallback: model returned unregistered {pyRepr decision.skill}"

def classify (text : String) : Except RoutingFailure SkillDecision :=
  if self.registry.names.length = 0 then
    .error (.configuration "No skills registered — cannot route.")
  else
    match self.complete (self.messages text) with
    | .error exc => .error (.raised exc)
    | .ok decision =>
        if decision.skill ∈ self.registry then .ok decision
        else
          match self.keywordFallback text with
          | none => .error (.raised "list index out of range")
          | some fallback => .ok ⟨fallback, fallbackReasoning decision⟩

/-! ## Where the fallback ends -/

variable {self}

theorem mem_registry_iff {name : String} :
    name ∈ self.registry ↔ ∃ skill ∈ self.registry.all, skill.name = name := by
  show name ∈ self.registry.names ↔ _
  rw [SkillRegistry.names, SkillRegistry.all, OrderedDict.values]
  constructor
  · intro hname
    obtain ⟨entry, hentry, heq⟩ := List.mem_map.mp hname
    refine ⟨entry.2, List.mem_map_of_mem hentry, ?_⟩
    rw [← heq, self.registry.keyed entry hentry]
    rfl
  · rintro ⟨skill, hskill, hname⟩
    obtain ⟨entry, hentry, heq⟩ := List.mem_map.mp hskill
    apply List.mem_map.mpr
    refine ⟨entry, hentry, ?_⟩
    rw [self.registry.keyed entry hentry, heq, ← hname]
    rfl

/-- The words of a text, as a set. -/
def queryWords (self : SkillRouter) (text : String) : Finset String :=
  (((splitWords text).filter fun w => 3 < w.length).map
    fun w => self.lower (stripMarks w)).toFinset

/-- How many of them a skill's name and description contain. -/
def shared (self : SkillRouter) (text : String) (skill : Skill) : ℕ :=
  ((self.queryWords text).filter fun w => w.toList <:+: (self.haystack skill).toList).card

theorem score_eq (text : String) (skill : Skill) :
    self.score (self.words text) skill = (self.shared text skill : ℤ) := by
  have hnodup : (self.words text).Nodup := List.nodup_dedup _
  rw [score, shared, Nat.cast_inj, ← List.toFinset_card_of_nodup (hnodup.filter _),
    List.toFinset_filter]
  congr 1
  ext w
  simp [words, queryWords]

theorem keywordFallback_firstBest (hne : self.registry.all ≠ []) (text : String) :
    ∃ skill, FirstBest (self.shared text) self.registry.all skill ∧
      self.keywordFallback text = some skill.name := by
  have hscore : self.score (self.words text) = fun skill => (self.shared text skill : ℤ) :=
    funext (score_eq text)
  have hnames : self.registry.names ≠ [] := by
    intro hnil
    apply hne
    rw [SkillRegistry.all, OrderedDict.values, List.map_eq_nil_iff]
    exact List.map_eq_nil_iff.mp hnil
  obtain ⟨first, rest, hfirst⟩ := List.exists_cons_of_ne_nil hnames
  have hstart : ∀ skill ∈ self.registry.all, ((first, -1) : String × ℤ).2 <
      (self.shared text skill : ℤ) := by
    intro skill _
    show (-1 : ℤ) < _
    omega
  obtain ⟨skill, hbest, hfold⟩ := foldl_pickBetter_of_lt Skill.name hne hstart
  refine ⟨skill, hbest.of_strictMono Nat.strictMono_cast, ?_⟩
  rw [keywordFallback, hfirst, List.head?_cons, Option.map_some, hscore, hfold]

/-- Routing ends at a registered skill: the model's choice, or else the first of those
that share most words with the text. -/
theorem classify_registered (self : SkillRouter) (hne : self.registry.all ≠ []) (text : String)
    (decision : SkillDecision) (hreturned : self.complete (self.messages text) = .ok decision) :
    ∃ routed, self.classify text = .ok routed ∧ routed.skill ∈ self.registry ∧
      (decision.skill ∈ self.registry → routed = decision) ∧
      (decision.skill ∉ self.registry → ∃ skill,
        FirstBest (self.shared text) self.registry.all skill ∧ routed.skill = skill.name) := by
  have hsome : ¬ self.registry.names.length = 0 := by
    rw [SkillRegistry.names, List.length_map]
    rwa [SkillRegistry.all, OrderedDict.values, ne_eq, ← List.length_eq_zero_iff,
      List.length_map] at hne
  rw [classify, if_neg hsome, hreturned]
  by_cases hregistered : decision.skill ∈ self.registry
  · refine ⟨decision, if_pos hregistered, hregistered, fun _ => rfl, ?_⟩
    exact fun hnot => absurd hregistered hnot
  · obtain ⟨skill, hbest, hfallback⟩ := keywordFallback_firstBest hne text
    have hmem : skill.name ∈ self.registry := mem_registry_iff.mpr ⟨skill, hbest.mem, rfl⟩
    refine ⟨⟨skill.name, fallbackReasoning decision⟩, ?_, hmem, fun h => absurd h hregistered, ?_⟩
    · simp only [if_neg hregistered, hfallback]
    · exact fun _ => ⟨skill, hbest, rfl⟩

/-- Another skill that has as many words of the request below as the demo has, and one with
none. -/
def named (name description : String) (hname : isSkillName name = true) : Skill where
  className := none
  spec := { demoSkill.spec with name, description, nameMatches := hname }

def showSkill : Skill := named "show_slides" "Slides." (by decide)

def tidySkill : Skill := named "tidy_notes" "Tidy up." (by decide)

/-- A router over three skills, whose model names another. -/
def demoRouter : SkillRouter where
  registry :=
    { skills := ((OrderedDict.empty.set "tidy_notes" tidySkill).set "demo_skill" demoSkill).set
        "show_slides" showSkill
      keyed := by
        intro entry hentry
        rcases List.mem_cons.mp hentry with rfl | hentry
        · rfl
        · rcases List.mem_cons.mp hentry with rfl | hentry
          · rfl
          · rw [List.mem_singleton.mp hentry]
            rfl }
  complete _ := .ok ⟨"summarise", ""⟩
  lower := lowerAscii

/-- Of the two skills with a word of the request the one registered first is taken. -/
theorem classify_registered_demo :
    demoRouter.registry.all.map (demoRouter.shared "Show me a demo!") = [0, 1, 1] ∧
      ∃ routed, demoRouter.classify "Show me a demo!" = .ok routed ∧
        routed.skill ∈ demoRouter.registry ∧ routed.skill = "demo_skill" := by
  have hshared : demoRouter.registry.all.map (demoRouter.shared "Show me a demo!") =
      [0, 1, 1] := by decide +kernel
  obtain ⟨routed, hrouted, hmem, -, hfallback⟩ :=
    classify_registered demoRouter (List.cons_ne_nil _ _) "Show me a demo!" ⟨"summarise", ""⟩ rfl
  refine ⟨hshared, routed, hrouted, hmem, ?_⟩
  obtain ⟨skill, ⟨front, back, hall, hfront, hback⟩, hname⟩ := hfallback (by decide)
  have hthree : demoRouter.registry.all = [tidySkill, demoSkill, showSkill] := rfl
  rw [hthree] at hall hshared
  simp only [List.map_cons, List.map_nil, List.cons.injEq, and_true] at hshared
  obtain ⟨htidy, hdemo, hshow⟩ := hshared
  match front with
  | [] =>
      cases hall
      have hle := hback demoSkill (List.mem_cons_self ..)
      omega
  | [_] =>
      cases hall
      exact hname
  | [_, _] =>
      cases hall
      have hlt := hfront demoSkill (by simp)
      omega
  | _ :: _ :: _ :: rest =>
      have hlength := congrArg List.length hall
      simp at hlength

end SkillRouter

end Lour.Skills
