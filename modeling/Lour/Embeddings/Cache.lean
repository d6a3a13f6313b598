import Lour.Lib.Interleaving
import Lour.Lib.JsonReader
import Lour.Lib.Redis
import Mathlib.Data.List.ReduceOption
/-!
# `CachedEmbeddingService`

Calls of `embed` on one cache, step by step: a `GET` for every text, one call of the
inner provider for the texts that were not found, and a `SET` for each of those.
Between the steps other calls take theirs and keys expire.
-/

namespace Lour.Embeddings

open Lour.Lib Lour.Lib.Python

/-- A vector as `json` writes and reads it. -/
def vector (xs : List PyFloat) : Json := .arr (xs.map Json.float)

structure CachedEmbeddingService where
  /-- `embed` of the inner provider. -/
  inner : List String → List (List PyFloat)
  /-- `hashlib.sha256(data).hexdigest()`. -/
  sha256 : ByteArray → String

/-- Where a call is in `embed`. -/
inductive Phase where
  /-- About to look up the text with this index. -/
  | get (i : ℕ)
  | embed
  /-- The misses that are still to be stored, with their vectors. -/
  | set (indices : List ℕ) (vectors : List Json)
  | returned (vectors : List Json)
  | raised

structure Call where
  texts : List String
  results : List (Option Json)
  missIndices : List ℕ := []
  missTexts : List String := []
  phase : Phase := .get 0

def Call.start (texts : List String) : Call where
  texts := texts
  results := List.replicate texts.length none

/-- A value in a list where `None` stands for no value yet. -/
def asResult : Json → Option Json
  | .null => none
  | x => some x

/-- `[v for v in results if v is not None]`. -/
def Call.vectors (self : Call) : List Json := self.results.reduceOption

namespace CachedEmbeddingService

variable (self : CachedEmbeddingService)

/-- `_cache_key`. -/
def cacheKey (text : String) : String := "emb:" ++ self.sha256 (encode text)

/-- What is stored for a vector. -/
def entry (x : Json) : ByteArray := encode (x.dumpsWith Json.escapeAscii)

/-- One step of a call. -/
def advance (redis : Redis) (call : Call) : Redis × Call :=
  match call.phase with
  | .get i =>
      match call.texts[i]? with
      | some text =>
          match redis.get (self.cacheKey text) with
          | some raw =>
              match (decode raw).bind Json.loads with
              | some x =>
                  (redis,
                    { call with results := call.results.set i (asResult x), phase := .get (i + 1) })
              | none => (redis, { call with phase := .raised })
          | none =>
              (redis,
                { call with
                  missIndices := call.missIndices ++ [i]
                  missTexts := call.missTexts ++ [text]
                  phase := .get (i + 1) })
      | none =>
          if call.missTexts.isEmpty then (redis, { call with phase := .returned call.vectors })
          else (redis, { call with phase := .embed })
  | .embed =>
      (redis,
        { call with phase := .set call.missIndices ((self.inner call.missTexts).map vector) })
  | .set (i :: indices) (x :: vectors) =>
      match call.texts[i]? with
      | some text =>
          (redis.set (self.cacheKey text) (entry x),
            { call with results := call.results.set i (some x), phase := .set indices vectors })
      | none => (redis, { call with phase := .raised })
  | .set [] [] => (redis, { call with phase := .returned call.vectors })
  | .set _ _ => (redis, { call with phase := .raised })
  | .returned _ => (redis, call)
  | .raised => (redis, call)

end CachedEmbeddingService

inductive Event where
  | advance
  | expire (key : String)

/-- Calls on one cache, in any order of their steps. -/
def calls (self : CachedEmbeddingService) : System (Shared Redis Call) (ℕ × Event) Empty :=
  interleaving fun redis call event =>
    match event with
    | .advance => some (self.advance redis call)
    | .expire key => some (redis.expire key, call)

/-! ## What is stored is read back -/

theorem dumpsItems_floats (escape : Char → List Char) (xs : List PyFloat) :
    Json.dumpsItems escape (xs.map Json.float) = xs.map PyFloat.toJson := by
  induction xs with
  | nil => rfl
  | cons x xs ih =>
      rw [List.map_cons, List.map_cons, Json.dumpsItems, ih, Json.dumpsWith]

/-- A vector has no character that is escaped. -/
theorem dumps_vector (xs : List PyFloat) :
    (vector xs).dumpsWith Json.escapeAscii = (vector xs).dumps := by
  rw [Json.dumps, vector, Json.dumpsWith, Json.dumpsWith, dumpsItems_floats, dumpsItems_floats]

theorem wellFormed_vector (xs : List PyFloat) : (vector xs).WellFormed := by
  rw [vector, Json.WellFormed]
  induction xs with
  | nil => trivial
  | cons x xs ih => exact ⟨trivial, ih⟩

theorem loads_entry (xs : List PyFloat) :
    (decode (CachedEmbeddingService.entry (vector xs))).bind Json.loads = some (vector xs) := by
  rw [CachedEmbeddingService.entry, decode_encode, Option.bind_some, dumps_vector]
  exact Json.loads_dumps (wellFormed_vector xs)

theorem asResult_vector (xs : List PyFloat) : asResult (vector xs) = some (vector xs) := rfl

/-! ## The state of the cache and of a call -/

section

variable {self : CachedEmbeddingService} {embedOne : String → List PyFloat} {redis : Redis}
  {call : Call}

/-- Every entry is what the service stores for some text. -/
def OwnWrites (self : CachedEmbeddingService) (embedOne : String → List PyFloat)
    (redis : Redis) : Prop :=
  ∀ key raw, redis.get key = some raw → ∃ text, key = self.cacheKey text ∧
    raw = CachedEmbeddingService.entry (vector (embedOne text))

/-- The results are there except at the indices in `todo`. -/
structure Call.Filled (call : Call) (embedOne : String → List PyFloat) (todo : ℕ → Prop) :
    Prop where
  length : call.results.length = call.texts.length
  result : ∀ j text, call.texts[j]? = some text → ¬ todo j →
    call.results[j]? = some (some (vector (embedOne text)))

/-- The misses are recorded with their indices. -/
def Call.MissesAligned (call : Call) : Prop :=
  List.Forall₂ (fun i text => call.texts[i]? = some text) call.missIndices call.missTexts

/-- What holds of a call at every step. -/
def Call.Inv (call : Call) (embedOne : String → List PyFloat) : Prop :=
  match call.phase with
  | .get i => call.Filled embedOne (fun j => j ∈ call.missIndices ∨ i ≤ j) ∧ call.MissesAligned
  | .embed => call.Filled embedOne (· ∈ call.missIndices) ∧ call.MissesAligned
  | .set indices vectors =>
      call.Filled embedOne (· ∈ indices) ∧
        List.Forall₂ (fun i x => ∃ text, call.texts[i]? = some text ∧
          x = vector (embedOne text)) indices vectors
  | .returned vectors => vectors = call.texts.map fun text => vector (embedOne text)
  | .raised => False

theorem ownWrites_empty : OwnWrites self embedOne {} := by
  intro key raw hget
  cases hget

theorem OwnWrites.expire (h : OwnWrites self embedOne redis) (key : String) :
    OwnWrites self embedOne (redis.expire key) := by
  intro other raw hget
  exact h other raw (redis.get_expire_eq_some key hget)

theorem OwnWrites.set (h : OwnWrites self embedOne redis) (text : String) :
    OwnWrites self embedOne (redis.set (self.cacheKey text)
      (CachedEmbeddingService.entry (vector (embedOne text)))) := by
  intro key raw hget
  rcases redis.get_set_eq_some _ hget with ⟨hkey, hraw⟩ | hbefore
  · exact ⟨text, hkey, hraw⟩
  · exact h key raw hbefore

theorem cacheKey_injective (hsha : Function.Injective self.sha256) :
    Function.Injective self.cacheKey := by
  intro a b heq
  have hdigest : self.sha256 (encode a) = self.sha256 (encode b) :=
    (String.append_right_inj _).mp heq
  have hbytes : encode a = encode b := hsha hdigest
  have hdecoded := congrArg decode hbytes
  rw [decode_encode, decode_encode, Option.some.injEq] at hdecoded
  exact hdecoded

/-- A hit is the text's own vector. -/
theorem OwnWrites.hit (hsha : Function.Injective self.sha256)
    (h : OwnWrites self embedOne redis) {text : String} {raw : ByteArray}
    (hget : redis.get (self.cacheKey text) = some raw) :
    (decode raw).bind Json.loads = some (vector (embedOne text)) := by
  obtain ⟨text', hkey, hraw⟩ := h _ raw hget
  rw [hraw, cacheKey_injective hsha hkey]
  exact loads_entry (embedOne text')

/-- Writing the right result at an index takes it off the list. -/
theorem Call.Filled.set {todo : ℕ → Prop} (h : call.Filled embedOne todo) {i : ℕ} {text : String}
    (hi : call.texts[i]? = some text) {todo' : ℕ → Prop} (htodo : ∀ j, todo j → j = i ∨ todo' j) :
    Call.Filled { call with results := call.results.set i (some (vector (embedOne text))) }
      embedOne todo' where
  length := by
    rw [List.length_set]
    exact h.length
  result := by
    intro j other hj hnot
    show (call.results.set i _)[j]? = _
    rw [List.getElem?_set]
    by_cases hij : i = j
    · have htext : text = other := by
        rw [← hij, hi] at hj
        exact Option.some.inj hj
      have hlt : i < call.results.length := by
        rw [h.length]
        exact (List.getElem?_eq_some_iff.mp hi).1
      rw [if_pos hij, if_pos hlt, htext]
    · rw [if_neg hij]
      apply h.result j other hj
      intro htodoj
      rcases htodo j htodoj with heq | hrest
      · exact hij heq.symm
      · exact hnot hrest

/-- With nothing left to fill in, the results are the vectors of the texts. -/
theorem Call.Filled.vectors {todo : ℕ → Prop} (h : call.Filled embedOne todo)
    (htodo : ∀ j < call.texts.length, ¬ todo j) :
    call.vectors = call.texts.map fun text => vector (embedOne text) := by
  have hresults : call.results = call.texts.map fun text => some (vector (embedOne text)) := by
    apply List.ext_getElem?
    intro j
    rw [List.getElem?_map]
    cases hj : call.texts[j]? with
    | none =>
        rw [Option.map_none, List.getElem?_eq_none_iff, h.length]
        exact List.getElem?_eq_none_iff.mp hj
    | some text =>
        rw [Option.map_some]
        exact h.result j text hj (htodo j (List.getElem?_eq_some_iff.mp hj).1)
  rw [Call.vectors, hresults, List.reduceOption, List.filterMap_map]
  exact congrFun (List.filterMap_eq_map (f := fun text => vector (embedOne text))) call.texts

/-! ## One step -/

theorem Call.inv_start (texts : List String) : (Call.start texts).Inv embedOne := by
  refine ⟨⟨List.length_replicate .., ?_⟩, List.Forall₂.nil⟩
  intro j text _ hnot
  exact absurd (.inr (Nat.zero_le j)) hnot

/-- A text that is found. -/
theorem Call.Inv.found {i : ℕ} {text : String} (hphase : call.phase = .get i)
    (hi : call.texts[i]? = some text) (h : call.Inv embedOne) :
    Call.Inv { call with
      results := call.results.set i (some (vector (embedOne text)))
      phase := .get (i + 1) } embedOne := by
  rw [Call.Inv, hphase] at h
  obtain ⟨hfilled, hmisses⟩ := h
  have hset : Call.Filled
      { call with results := call.results.set i (some (vector (embedOne text))) } embedOne
      (fun j => j ∈ call.missIndices ∨ i + 1 ≤ j) := by
    apply hfilled.set hi
    rintro j (hmiss | hle)
    · exact .inr (.inl hmiss)
    · rcases Nat.eq_or_lt_of_le hle with heq | hlt
      · exact .inl heq.symm
      · exact .inr (.inr hlt)
  exact ⟨⟨hset.length, hset.result⟩, hmisses⟩

theorem Call.Inv.missed {i : ℕ} {text : String} (hphase : call.phase = .get i)
    (hi : call.texts[i]? = some text) (h : call.Inv embedOne) :
    Call.Inv { call with
      missIndices := call.missIndices ++ [i]
      missTexts := call.missTexts ++ [text]
      phase := .get (i + 1) } embedOne := by
  rw [Call.Inv, hphase] at h
  obtain ⟨hfilled, hmisses⟩ := h
  refine ⟨⟨hfilled.length, ?_⟩, List.rel_append hmisses (List.Forall₂.cons hi List.Forall₂.nil)⟩
  intro j other hj hnot
  apply hfilled.result j other hj
  rintro (hmiss | hle)
  · exact hnot (.inl (List.mem_append_left _ hmiss))
  · rcases Nat.eq_or_lt_of_le hle with heq | hlt
    · rw [← heq] at hnot
      exact hnot (.inl (List.mem_append_right _ (List.mem_singleton_self i)))
    · exact hnot (.inr hlt)

/-- Every text was looked up. -/
theorem Call.Inv.looked {i : ℕ} (hphase : call.phase = .get i) (hi : call.texts[i]? = none)
    (h : call.Inv embedOne) :
    call.Filled embedOne (· ∈ call.missIndices) ∧ call.MissesAligned := by
  rw [Call.Inv, hphase] at h
  obtain ⟨hfilled, hmisses⟩ := h
  refine ⟨⟨hfilled.length, ?_⟩, hmisses⟩
  intro j text hj hnot
  apply hfilled.result j text hj
  rintro (hmiss | hle)
  · exact hnot hmiss
  · have hlt := (List.getElem?_eq_some_iff.mp hj).1
    have hlength := List.getElem?_eq_none_iff.mp hi
    omega

/-- The vectors of the misses stand beside their indices. -/
theorem Call.MissesAligned.vectors (h : call.MissesAligned) :
    List.Forall₂ (fun i x => ∃ text, call.texts[i]? = some text ∧ x = vector (embedOne text))
      call.missIndices ((call.missTexts.map embedOne).map vector) := by
  rw [List.map_map, List.forall₂_map_right_iff]
  apply List.Forall₂.imp _ h
  intro i text htext
  exact ⟨text, htext, rfl⟩

/-- The steps of a call: a hit is the text's own vector, and nothing raises. -/
inductive Advances (self : CachedEmbeddingService) (embedOne : String → List PyFloat)
    (redis : Redis) (call : Call) : Redis × Call → Prop
  | found {i : ℕ} {text : String} : call.phase = .get i → call.texts[i]? = some text →
      Advances self embedOne redis call
        (redis,
          { call with
            results := call.results.set i (some (vector (embedOne text)))
            phase := .get (i + 1) })
  | missed {i : ℕ} {text : String} : call.phase = .get i → call.texts[i]? = some text →
      Advances self embedOne redis call
        (redis,
          { call with
            missIndices := call.missIndices ++ [i]
            missTexts := call.missTexts ++ [text]
            phase := .get (i + 1) })
  | allFound {i : ℕ} : call.phase = .get i → call.texts[i]? = none → call.missTexts = [] →
      Advances self embedOne redis call (redis, { call with phase := .returned call.vectors })
  | looked {i : ℕ} : call.phase = .get i → call.texts[i]? = none →
      Advances self embedOne redis call (redis, { call with phase := .embed })
  | embedded : call.phase = .embed →
      Advances self embedOne redis call
        (redis,
          { call with
            phase := .set call.missIndices ((call.missTexts.map embedOne).map vector) })
  | stored {i : ℕ} {text : String} {indices : List ℕ} {vectors : List Json} :
      call.phase = .set (i :: indices) (vector (embedOne text) :: vectors) →
      call.texts[i]? = some text →
      Advances self embedOne redis call
        (redis.set (self.cacheKey text) (CachedEmbeddingService.entry (vector (embedOne text))),
          { call with
            results := call.results.set i (some (vector (embedOne text)))
            phase := .set indices vectors })
  | allStored : call.phase = .set [] [] →
      Advances self embedOne redis call (redis, { call with phase := .returned call.vectors })
  | stays {vectors : List Json} : call.phase = .returned vectors →
      Advances self embedOne redis call (redis, call)

theorem advances (hsha : Function.Injective self.sha256)
    (hinner : ∀ texts, self.inner texts = texts.map embedOne)
    (hredis : OwnWrites self embedOne redis) (h : call.Inv embedOne) :
    Advances self embedOne redis call (self.advance redis call) := by
  rw [CachedEmbeddingService.advance]
  rw [Call.Inv] at h
  cases hphase : call.phase with
  | get i =>
      cases hi : call.texts[i]? with
      | none =>
          by_cases hempty : call.missTexts.isEmpty = true
          · simp only [hi, if_pos hempty]
            exact .allFound hphase hi (List.isEmpty_iff.mp hempty)
          · simp only [hi, if_neg hempty]
            exact .looked hphase hi
      | some text =>
          cases hget : redis.get (self.cacheKey text) with
          | none =>
              simp only [hi, hget]
              exact .missed hphase hi
          | some raw =>
              simp only [hi, hget, hredis.hit hsha hget, asResult_vector]
              exact .found hphase hi
  | embed =>
      show Advances self embedOne redis call
        (redis,
          { call with phase := .set call.missIndices ((self.inner call.missTexts).map vector) })
      rw [hinner]
      exact .embedded hphase
  | set indices vectors =>
      rw [hphase] at h
      obtain ⟨-, haligned⟩ := h
      cases haligned with
      | nil => exact .allStored hphase
      | cons hhead htail =>
          obtain ⟨text, hi, rfl⟩ := hhead
          simp only [hi]
          exact .stored hphase hi
  | returned vectors => exact .stays hphase
  | raised =>
      rw [hphase] at h
      exact h.elim

/-- A step keeps what holds of the cache and of the call. -/
theorem Advances.inv {next : Redis × Call} (hnext : Advances self embedOne redis call next)
    (hredis : OwnWrites self embedOne redis) (h : call.Inv embedOne) :
    OwnWrites self embedOne next.1 ∧ next.2.Inv embedOne ∧ next.2.texts = call.texts := by
  cases hnext with
  | found hphase hi => exact ⟨hredis, h.found hphase hi, rfl⟩
  | missed hphase hi => exact ⟨hredis, h.missed hphase hi, rfl⟩
  | allFound hphase hi hempty =>
      obtain ⟨hfilled, hmisses⟩ := h.looked hphase hi
      refine ⟨hredis, hfilled.vectors ?_, rfl⟩
      intro j _ hj
      have hlength := hmisses.length_eq
      rw [hempty, List.length_nil, List.length_eq_zero_iff] at hlength
      rw [hlength] at hj
      cases hj
  | looked hphase hi =>
      obtain ⟨hfilled, hmisses⟩ := h.looked hphase hi
      exact ⟨hredis, ⟨⟨hfilled.length, hfilled.result⟩, hmisses⟩, rfl⟩
  | embedded hphase =>
      rw [Call.Inv, hphase] at h
      exact ⟨hredis, ⟨⟨h.1.length, h.1.result⟩, h.2.vectors⟩, rfl⟩
  | @stored i text indices vectors hphase hi =>
      rw [Call.Inv, hphase] at h
      obtain ⟨hfilled, haligned⟩ := h
      have hset : Call.Filled
          { call with results := call.results.set i (some (vector (embedOne text))) } embedOne
          (· ∈ indices) := by
        apply hfilled.set hi
        exact fun j hj => List.mem_cons.mp hj
      exact ⟨hredis.set text,
        ⟨⟨hset.length, hset.result⟩, (List.forall₂_cons.mp haligned).2⟩, rfl⟩
  | allStored hphase =>
      rw [Call.Inv, hphase] at h
      refine ⟨hredis, h.1.vectors ?_, rfl⟩
      intro j _ hj
      cases hj
  | stays hphase => exact ⟨hredis, h, rfl⟩

/-! ## Whole runs -/

/-- How many steps of its own the call still takes at most. -/
def Call.steps (call : Call) : ℕ :=
  match call.phase with
  | .get i => 2 * (call.texts.length - i) + call.missIndices.length + 3
  | .embed => call.missIndices.length + 2
  | .set indices _ => indices.length + 1
  | .returned _ => 0
  | .raised => 0

def Phase.isReturned : Phase → Bool
  | .returned _ => true
  | _ => false

theorem Advances.steps {next : Redis × Call} (hnext : Advances self embedOne redis call next)
    (hgoes : call.phase.isReturned = false) : next.2.steps < call.steps := by
  cases hnext with
  | found hphase hi =>
      have hlt := (List.getElem?_eq_some_iff.mp hi).1
      simp only [Call.steps, hphase]
      omega
  | missed hphase hi =>
      have hlt := (List.getElem?_eq_some_iff.mp hi).1
      simp only [Call.steps, hphase, List.length_append, List.length_singleton]
      omega
  | allFound hphase _ _ =>
      simp only [Call.steps, hphase]
      omega
  | looked hphase _ =>
      simp only [Call.steps, hphase]
      omega
  | embedded hphase =>
      simp only [Call.steps, hphase]
      omega
  | stored hphase _ =>
      simp only [Call.steps, hphase, List.length_cons]
      omega
  | allStored hphase =>
      simp only [Call.steps, hphase]
      omega
  | stays hphase =>
      rw [hphase] at hgoes
      cases hgoes

/-- What holds of the cache and the calls on it at every step. -/
structure CallsInv (service : CachedEmbeddingService) (embedOne : String → List PyFloat)
    (texts : List (List String)) (shared : Shared Redis Call) : Prop where
  cache : OwnWrites service embedOne shared.state
  texts : shared.parties.map Call.texts = texts
  call : ∀ call ∈ shared.parties, call.Inv embedOne

variable {texts : List (List String)} {shared after : Shared Redis Call} {out : List Empty}

theorem callsInv_start (hredis : OwnWrites self embedOne redis) (texts : List (List String)) :
    CallsInv self embedOne texts ⟨redis, texts.map Call.start⟩ where
  cache := hredis
  texts := by
    rw [List.map_map]
    exact List.map_id texts
  call := by
    intro call hcall
    obtain ⟨list, -, rfl⟩ := List.mem_map.mp hcall
    exact Call.inv_start list

theorem calls_step (hsha : Function.Injective self.sha256)
    (hinner : ∀ texts, self.inner texts = texts.map embedOne)
    (h : CallsInv self embedOne texts shared) {label : ℕ × Event}
    (hstep : (calls self).step shared label = some (after, out)) :
    CallsInv self embedOne texts after := by
  obtain ⟨i, event⟩ := label
  obtain ⟨left, call, right, redis, call', hparties, -, hmove, rfl⟩ := interleaving_step hstep
  have hcall := h.call call (hparties ▸ mem_moved_self left right call)
  have hmoved : OwnWrites self embedOne redis ∧ call'.Inv embedOne ∧
      call'.texts = call.texts := by
    cases event with
    | advance =>
        have hpair : self.advance shared.state call = (redis, call') := Option.some.inj hmove
        have hinv := (advances hsha hinner h.cache hcall).inv h.cache hcall
        rwa [hpair] at hinv
    | expire key =>
        cases hmove
        exact ⟨h.cache.expire key, hcall, rfl⟩
  obtain ⟨hcache, hinv, htexts⟩ := hmoved
  constructor
  · exact hcache
  · have hbefore := h.texts
    rw [hparties, List.map_append, List.map_cons] at hbefore
    rw [List.map_append, List.map_cons, htexts]
    exact hbefore
  · intro other hother
    rcases mem_moved hother with rfl | hmem
    · exact hinv
    · exact h.call other (hparties ▸ hmem)

theorem calls_run (hsha : Function.Injective self.sha256)
    (hinner : ∀ texts, self.inner texts = texts.map embedOne)
    (h : CallsInv self embedOne texts shared) {labels : List (ℕ × Event)}
    (hrun : (calls self).run shared labels = some (after, out)) :
    CallsInv self embedOne texts after :=
  System.invariant_run (fun _ _ _ _ h hstep => calls_step hsha hinner h hstep) h hrun

/-- A call that has not returned takes its next step. -/
theorem calls_advance {i : ℕ} (hcall : shared.parties[i]? = some call) :
    (calls self).step shared (i, .advance) = some
      (⟨(self.advance shared.state call).1,
        shared.parties.set i (self.advance shared.state call).2⟩, []) := by
  show (shared.parties[i]?.bind fun call => _) = _
  rw [hcall]
  rfl

/-- Left alone, a call returns. -/
theorem calls_return (hsha : Function.Injective self.sha256)
    (hinner : ∀ texts, self.inner texts = texts.map embedOne)
    (h : CallsInv self embedOne texts shared) {i : ℕ} (hi : i < shared.parties.length) :
    ∃ k after out call, (calls self).run shared (List.replicate k (i, .advance)) =
      some (after, out) ∧ after.parties[i]? = some call ∧ call.phase.isReturned = true := by
  have hreturns := System.exists_run_of_decreasing (S := calls self)
    (fun shared => ∃ call, shared.parties[i]? = some call ∧ call.phase.isReturned = true)
    (fun shared _ => CallsInv self embedOne texts shared ∧ i < shared.parties.length)
    (fun shared => (shared.parties[i]?.map Call.steps).getD 0) (fun _ => (i, Event.advance))
    (s := shared) ?_ ?_
  · obtain ⟨k, after, out, hrun, ⟨call, hcall, hreturned⟩, -⟩ := hreturns
    rw [List.map_const', List.length_range] at hrun
    exact ⟨k, after, out, call, hrun, hcall, hreturned⟩
  · intro k t outs hrun
    have hinv := calls_run hsha hinner h hrun
    refine ⟨hinv, ?_⟩
    have hlength := congrArg List.length (hinv.texts.trans h.texts.symm)
    rw [List.length_map, List.length_map] at hlength
    omega
  · rintro k t outs ⟨hinv, hlt⟩ hnot
    have hcall : t.parties[i]? = some t.parties[i] := List.getElem?_eq_getElem hlt
    refine ⟨_, _, calls_advance hcall, ?_⟩
    rintro -
    have hgoes : t.parties[i].phase.isReturned = false := by
      apply Bool.eq_false_of_not_eq_true
      intro hreturned
      exact hnot ⟨_, hcall, hreturned⟩
    have hmove := advances hsha hinner hinv.cache (hinv.call _ (List.getElem_mem hlt))
    have hdec := hmove.steps hgoes
    simpa [hcall, hlt] using hdec

/-- Whatever calls share the cache, in whatever order their steps are taken and keys
expire, no call raises, a call can always go on to return, and it returns what the
inner provider returns for its texts; the cache holds what the service stored. -/
theorem embed_eq_inner (self : CachedEmbeddingService) (embedOne : String → List PyFloat)
    (hsha : Function.Injective self.sha256)
    (hinner : ∀ texts, self.inner texts = texts.map embedOne)
    (redis : Redis) (hredis : OwnWrites self embedOne redis) (texts : List (List String))
    (labels : List (ℕ × Event)) (shared : Shared Redis Call) (out : List Empty)
    (hrun : (calls self).run ⟨redis, texts.map Call.start⟩ labels = some (shared, out)) :
    OwnWrites self embedOne shared.state ∧
      ∀ i list, texts[i]? = some list →
        ∃ call, shared.parties[i]? = some call ∧ call.phase ≠ .raised ∧
          (∀ vectors, call.phase = .returned vectors →
            vectors = list.map fun text => vector (embedOne text)) ∧
          ∃ k after out call', (calls self).run shared (List.replicate k (i, .advance)) =
              some (after, out) ∧ after.parties[i]? = some call' ∧
            call'.phase = .returned (list.map fun text => vector (embedOne text)) := by
  have hinv := calls_run hsha hinner (callsInv_start hredis texts) hrun
  refine ⟨hinv.cache, ?_⟩
  intro i list hlist
  have hreads : ∀ shared : Shared Redis Call, CallsInv self embedOne texts shared →
      ∃ call, shared.parties[i]? = some call ∧ call.texts = list ∧ call.Inv embedOne := by
    intro shared hinv
    have hmapped : (shared.parties.map Call.texts)[i]? = some list := by rw [hinv.texts, hlist]
    rw [List.getElem?_map, Option.map_eq_some_iff] at hmapped
    obtain ⟨call, hcall, htexts⟩ := hmapped
    exact ⟨call, hcall, htexts, hinv.call call (List.mem_of_getElem? hcall)⟩
  obtain ⟨call, hcall, htexts, hcallInv⟩ := hreads shared hinv
  refine ⟨call, hcall, ?_, ?_, ?_⟩
  · intro hraised
    rw [Call.Inv, hraised] at hcallInv
    exact hcallInv
  · intro vectors hreturned
    rw [Call.Inv, hreturned, htexts] at hcallInv
    exact hcallInv
  · obtain ⟨k, after, out, call', hrest, hcall', hreturned⟩ :=
      calls_return hsha hinner hinv (List.getElem?_eq_some_iff.mp hcall).1
    obtain ⟨final, hfinal, hsame, hfinalInv⟩ := hreads after (calls_run hsha hinner hinv hrest)
    rw [hcall', Option.some.injEq] at hfinal
    subst hfinal
    refine ⟨k, after, out, call', hrest, hcall', ?_⟩
    cases hphase : call'.phase with
    | returned vectors =>
        rw [Call.Inv, hphase, hsame] at hfinalInv
        rw [hfinalInv]
    | _ =>
        rw [hphase] at hreturned
        cases hreturned

/-- A digest of `b"a"` as it is, and a digest of its own for everything else. -/
def someDigest (data : ByteArray) : String :=
  if data.data.toList = [0x61] then "ca978112ca1bbdcafac231b39a23dc4da786eff8147c4e72b9807785afee48bb"
  else String.ofList (data.data.toList.map fun b => Char.ofNat (256 + b.toNat))

theorem someDigest_injective : Function.Injective someDigest := by
  have hchar : ∀ b : UInt8, (Char.ofNat (256 + b.toNat)).toNat = 256 + b.toNat := by
    intro b
    have hlt := b.toNat_lt
    have hvalid : (256 + b.toNat).isValidChar := .inl (by omega)
    rw [Char.ofNat, dif_pos hvalid]
    rfl
  have hother : ∀ data : ByteArray,
      "ca978112ca1bbdcafac231b39a23dc4da786eff8147c4e72b9807785afee48bb" ≠
        String.ofList (data.data.toList.map fun b => Char.ofNat (256 + b.toNat)) := by
    intro data heq
    have hmem : 'c' ∈ data.data.toList.map fun b => Char.ofNat (256 + b.toNat) := by
      rw [← (congrArg String.toList heq).trans String.toList_ofList]
      decide
    obtain ⟨b, -, hb⟩ := List.mem_map.mp hmem
    have hnat := hchar b
    rw [hb] at hnat
    have hc : 'c'.toNat = 99 := rfl
    omega
  intro a b heq
  rw [someDigest, someDigest] at heq
  by_cases ha : a.data.toList = [0x61]
  · by_cases hb : b.data.toList = [0x61]
    · exact ByteArray.ext (Array.toList_inj.mp (ha.trans hb.symm))
    · rw [if_pos ha, if_neg hb] at heq
      exact absurd heq (hother b)
  · by_cases hb : b.data.toList = [0x61]
    · rw [if_neg ha, if_pos hb] at heq
      exact absurd heq.symm (hother a)
    · rw [if_neg ha, if_neg hb] at heq
      have hlists := congrArg String.toList heq
      rw [String.toList_ofList, String.toList_ofList] at hlists
      have hbyte : Function.Injective fun b : UInt8 => Char.ofNat (256 + b.toNat) := by
        intro x y hxy
        have hnat := congrArg Char.toNat hxy
        simp only [hchar] at hnat
        exact UInt8.toNat_inj.mp (by omega)
      exact ByteArray.ext (Array.toList_inj.mp (List.map_injective_iff.mpr hbyte hlists))

/-- Texts have the float zero as their vector. -/
def zeroEmbeddings : CachedEmbeddingService where
  inner texts := texts.map fun _ => [PyFloat.zero]
  sha256 := someDigest

theorem embed_eq_inner_zero :
    ∃ k after out call, (calls zeroEmbeddings).run
        ⟨{}, [{ Call.start ["a", "a"] with
          missIndices := [0], missTexts := ["a"], phase := .get 1 }]⟩
        (List.replicate k (0, .advance)) = some (after, out) ∧ after.parties[0]? = some call ∧
      call.phase = .returned [vector [PyFloat.zero], vector [PyFloat.zero]] := by
  have hcalls := embed_eq_inner zeroEmbeddings (fun _ => [PyFloat.zero]) someDigest_injective
    (fun _ => rfl) {} ownWrites_empty [["a", "a"]] [(0, .advance)] _ _ rfl
  obtain ⟨call, -, -, -, hreturns⟩ := hcalls.2 0 ["a", "a"] rfl
  exact hreturns

end

end Lour.Embeddings
