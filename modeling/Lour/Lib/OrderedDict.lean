import Mathlib.Data.List.Nodup
/-!
# Dictionaries that keep their insertion order

A key is entered at the end the first time it is assigned and keeps its place
afterwards.
-/

namespace Lour.Lib

structure OrderedDict (κ α : Type*) where
  entries : List (κ × α)
  distinct : (entries.map Prod.fst).Nodup

namespace OrderedDict

variable {κ α : Type*} [DecidableEq κ]

/-- The entries after `d[key] = value`. -/
def assign (key : κ) (value : α) : List (κ × α) → List (κ × α)
  | [] => [(key, value)]
  | entry :: rest =>
      if entry.1 = key then (key, value) :: rest else entry :: assign key value rest

theorem keys_assign (key : κ) (value : α) (entries : List (κ × α)) :
    (assign key value entries).map Prod.fst =
      if key ∈ entries.map Prod.fst then entries.map Prod.fst
      else entries.map Prod.fst ++ [key] := by
  induction entries with
  | nil => simp [assign]
  | cons entry rest ih =>
      by_cases h : entry.1 = key
      · simp [assign, h]
      · have hne : ¬ key = entry.1 := fun heq => h heq.symm
        rw [assign, if_neg h, List.map_cons, ih, List.map_cons]
        by_cases hmem : key ∈ rest.map Prod.fst
        · rw [if_pos hmem, if_pos (List.mem_cons_of_mem _ hmem)]
        · have hnot : key ∉ entry.1 :: rest.map Prod.fst := by
            rw [List.mem_cons, not_or]
            exact ⟨hne, hmem⟩
          rw [if_neg hmem, if_neg hnot, List.cons_append]

theorem nodup_keys_assign {entries : List (κ × α)} (h : (entries.map Prod.fst).Nodup) (key : κ)
    (value : α) : ((assign key value entries).map Prod.fst).Nodup := by
  rw [keys_assign]
  by_cases hmem : key ∈ entries.map Prod.fst
  · rwa [if_pos hmem]
  · rw [if_neg hmem]
    rw [← List.concat_eq_append]
    exact List.Nodup.concat hmem h

def empty : OrderedDict κ α := ⟨[], List.nodup_nil⟩

variable (self : OrderedDict κ α)

/-- `d.get(key)`. -/
def get? (key : κ) : Option α := (self.entries.find? fun e => decide (e.1 = key)).map Prod.snd

/-- `d[key] = value`. -/
def set (key : κ) (value : α) : OrderedDict κ α :=
  ⟨assign key value self.entries, nodup_keys_assign self.distinct key value⟩

/-- `d.values()`. -/
def values : List α := self.entries.map Prod.snd

variable {self}

theorem get?_eq_some {key : κ} {value : α} :
    self.get? key = some value ↔ (key, value) ∈ self.entries := by
  rw [get?, Option.map_eq_some_iff]
  constructor
  · rintro ⟨⟨key', value'⟩, hfind, rfl⟩
    have hkey : key' = key := by simpa using List.find?_some hfind
    rw [← hkey]
    exact List.mem_of_find?_eq_some hfind
  · intro hmem
    have hsome : (self.entries.find? fun e => decide (e.1 = key)).isSome := by
      rw [List.find?_isSome]
      exact ⟨_, hmem, decide_eq_true rfl⟩
    obtain ⟨entry, hfind⟩ := Option.isSome_iff_exists.mp hsome
    have hkey : entry.1 = key := by simpa using List.find?_some hfind
    have heq : entry = (key, value) :=
      List.inj_on_of_nodup_map self.distinct (List.mem_of_find?_eq_some hfind) hmem hkey
    exact ⟨entry, hfind, congrArg Prod.snd heq⟩

theorem mem_values {value : α} : value ∈ self.values ↔ ∃ key, self.get? key = some value := by
  rw [values, List.mem_map]
  constructor
  · rintro ⟨⟨key, value'⟩, hmem, rfl⟩
    exact ⟨key, get?_eq_some.mpr hmem⟩
  · rintro ⟨key, hget⟩
    exact ⟨(key, value), get?_eq_some.mp hget, rfl⟩

variable (self)

theorem find?_assign (key : κ) (value : α) (entries : List (κ × α)) (other : κ) :
    ((assign key value entries).find? fun e => decide (e.1 = other)).map Prod.snd =
      if other = key then some value
      else (entries.find? fun e => decide (e.1 = other)).map Prod.snd := by
  induction entries with
  | nil =>
      by_cases hother : other = key
      · simp [assign, hother]
      · have hne : ¬ key = other := fun heq => hother heq.symm
        simp [assign, hother, hne]
  | cons entry rest ih =>
      by_cases h : entry.1 = key
      · rw [assign, if_pos h]
        by_cases hother : other = key
        · simp [hother]
        · have hne : ¬ key = other := fun heq => hother heq.symm
          simp [h, hother, hne]
      · rw [assign, if_neg h]
        by_cases hentry : entry.1 = other
        · have hother : ¬ other = key := by rwa [← hentry]
          simp [hentry, hother]
        · rw [List.find?_cons_of_neg (by simpa using hentry), ih,
            List.find?_cons_of_neg (by simpa using hentry)]

theorem get?_set (key : κ) (value : α) (other : κ) :
    (self.set key value).get? other = if other = key then some value else self.get? other :=
  find?_assign key value self.entries other

theorem assign_of_notMem {key : κ} {entries : List (κ × α)} (h : key ∉ entries.map Prod.fst)
    (value : α) : assign key value entries = entries ++ [(key, value)] := by
  induction entries with
  | nil => rfl
  | cons entry rest ih =>
      rw [List.map_cons, List.mem_cons, not_or] at h
      rw [assign, if_neg (fun heq => h.1 heq.symm), ih h.2, List.cons_append]

/-- A new key goes to the end. -/
theorem entries_set {self : OrderedDict κ α} {key : κ} (h : key ∉ self.entries.map Prod.fst)
    (value : α) : (self.set key value).entries = self.entries ++ [(key, value)] :=
  assign_of_notMem h value

/-! ## A key that is there already -/

/-- `d.setdefault(key, value)`. -/
def setdefault (self : OrderedDict κ α) (key : κ) (value : α) : OrderedDict κ α :=
  match self.get? key with
  | some _ => self
  | none => self.set key value

theorem assign_assign (key : κ) (value value' : α) (entries : List (κ × α)) :
    assign key value' (assign key value entries) = assign key value' entries := by
  induction entries with
  | nil => simp [assign]
  | cons entry rest ih =>
      by_cases h : entry.1 = key
      · simp [assign, h]
      · rw [assign, if_neg h, assign, if_neg h, ih, assign, if_neg h]

theorem assign_of_find? {key : κ} {value : α} {entries : List (κ × α)}
    (h : (entries.find? fun e => decide (e.1 = key)).map Prod.snd = some value) :
    assign key value entries = entries := by
  induction entries with
  | nil => cases h
  | cons entry rest ih =>
      by_cases hkey : entry.1 = key
      · rw [List.find?_cons_of_pos (by simpa using hkey)] at h
        cases h
        rw [assign, if_pos hkey, ← hkey]
      · rw [List.find?_cons_of_neg (by simpa using hkey)] at h
        rw [assign, if_neg hkey, ih h]

omit [DecidableEq κ] in
theorem ext_entries {d e : OrderedDict κ α} (h : d.entries = e.entries) : d = e := by
  cases d
  cases e
  cases h
  rfl

theorem set_set (self : OrderedDict κ α) (key : κ) (value value' : α) :
    (self.set key value).set key value' = self.set key value' :=
  ext_entries (assign_assign key value value' self.entries)

theorem setdefault_eq (self : OrderedDict κ α) (key : κ) (value : α) :
    self.setdefault key value = self.set key ((self.get? key).getD value) := by
  unfold setdefault
  cases h : self.get? key with
  | none => rfl
  | some old => exact (ext_entries (assign_of_find? h)).symm

end OrderedDict

end Lour.Lib
