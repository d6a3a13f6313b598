import Lour.Lib.Mutex
import Lour.Lib.Numerals
/-!
# `Bm42SparseEmbeddingService`

Calls of `embed_documents` and `embed_query` on one service, step by step.  The first of
them loads the model under a lock; between the steps of a call others take theirs, and a
call can be cancelled wherever it awaits something.
-/

namespace Lour.Embeddings

open Lour.Lib Lour.Lib.Python

structure SparseVector where
  indices : List ℤ
  values : List PyFloat
deriving DecidableEq

/-- FastEmbed's `SparseEmbedding`. -/
structure SparseEmbedding where
  indices : List ℤ
  values : List PyFloat

/-- `_to_sparse_vector`. -/
def toSparseVector (raw : SparseEmbedding) : SparseVector where
  indices := raw.indices
  values := raw.values

/-- The two encoders of a FastEmbed model; `none` where they raise. -/
structure SparseTextEmbedding (M : Type*) where
  embed : M → List String → Option (List SparseEmbedding)
  queryEmbed : M → List String → Option (List SparseEmbedding)

/-- What a call asks for. -/
inductive Request where
  | documents (texts : List String)
  | query (text : String)
deriving DecidableEq

inductive Answer where
  | documents (vectors : List SparseVector)
  | query (vector : SparseVector)
deriving DecidableEq

/-- `_run`. -/
def SparseTextEmbedding.run {M : Type*} (fastembed : SparseTextEmbedding M) (model : M) :
    Request → Option Answer
  | .documents texts =>
      (fastembed.embed model texts).map fun embeddings => .documents (embeddings.map toSparseVector)
  | .query text =>
      (fastembed.queryEmbed model [text]).bind fun embeddings =>
        embeddings.head?.map fun raw => .query (toSparseVector raw)

/-- The service; `locked` is the state of its `asyncio.Lock`. -/
structure Bm42SparseEmbeddingService (M : Type*) where
  model : Option M := none
  locked : Bool := false

/-- Where a call is. -/
inductive Stage (M : Type*) where
  | entered
  /-- At the first `if self._model is None`. -/
  | check
  /-- At `async with self._lock`. -/
  | waiting
  /-- At the second check. -/
  | recheck
  /-- At `await asyncio.to_thread(self._load_model)`. -/
  | loading
  /-- At the end of `async with self._lock`. -/
  | leaving
  /-- At `return self._model`. -/
  | read
  /-- At `await asyncio.to_thread(_run)`. -/
  | running (model : M)
  | returned (answer : Answer)
  | raised
  /-- Cancelled while it awaited a load.  The thread goes on, and nobody gets its model. -/
  | abandoned

structure SparseCall (M : Type*) where
  request : Request
  stage : Stage M := .entered

/-- What happens to a call: it goes on, the thread it awaits ends with a model or with an
exception, or it is cancelled.  The lock is granted to its waiters in any order. -/
inductive SparseEvent (M : Type*) where
  | advance
  | loaded (model : M)
  | failed
  | cancel

def SparseEvent.isCancel {M : Type*} : SparseEvent M → Bool
  | .cancel => true
  | .advance => false
  | .loaded _ => false
  | .failed => false

/-- The model that a load ends with. -/
def SparseEvent.model? {M : Type*} : SparseEvent M → Option M
  | .loaded model => some model
  | .advance => none
  | .failed => none
  | .cancel => none

section

variable {M : Type*} (fastembed : SparseTextEmbedding M)

/-- The first steps of `embed_documents` and `embed_query`. -/
def SparseCall.enter (call : SparseCall M) : SparseCall M :=
  match call.request with
  | .documents [] => { call with stage := .returned (.documents []) }
  | .documents (_ :: _) => { call with stage := .check }
  | .query _ => { call with stage := .check }

/-- One step of a call. -/
def SparseCall.move (service : Bm42SparseEmbeddingService M) (call : SparseCall M)
    (event : SparseEvent M) : Option (Bm42SparseEmbeddingService M × SparseCall M) :=
  match call.stage, event with
  | .entered, .advance => some (service, call.enter)
  | .check, .advance =>
      match service.model with
      | none => some (service, { call with stage := .waiting })
      | some _ => some (service, { call with stage := .read })
  | .waiting, .advance =>
      if service.locked then none
      else some ({ service with locked := true }, { call with stage := .recheck })
  | .waiting, .cancel => some (service, { call with stage := .raised })
  | .recheck, .advance =>
      match service.model with
      | none => some (service, { call with stage := .loading })
      | some _ => some (service, { call with stage := .leaving })
  | .loading, .loaded model =>
      some ({ service with model := some model }, { call with stage := .leaving })
  -- `async with` gives the lock back
  | .loading, .failed => some ({ service with locked := false }, { call with stage := .raised })
  | .loading, .cancel => some ({ service with locked := false }, { call with stage := .abandoned })
  | .leaving, .advance => some ({ service with locked := false }, { call with stage := .read })
  | .read, .advance =>
      match service.model with
      | none => some (service, { call with stage := .raised })
      | some model => some (service, { call with stage := .running model })
  | .running model, .advance =>
      match fastembed.run model call.request with
      | none => some (service, { call with stage := .raised })
      | some answer => some (service, { call with stage := .returned answer })
  | .running _, .cancel => some (service, { call with stage := .raised })
  | _, _ => none

/-- Calls on one service, in any order of their steps. -/
def sparseCalls : System (Shared (Bm42SparseEmbeddingService M) (SparseCall M))
    (ℕ × SparseEvent M) Empty :=
  interleaving (SparseCall.move fastembed)

/-- A new service and calls of it that have not begun. -/
def sparseStart (requests : List Request) :
    Shared (Bm42SparseEmbeddingService M) (SparseCall M) :=
  ⟨{}, requests.map fun request => { request := request }⟩

end

section

variable {M : Type*} {fastembed : SparseTextEmbedding M}
  {service service' : Bm42SparseEmbeddingService M} {call call' : SparseCall M}
  {event : SparseEvent M}

/-! ## What a step does -/

/-- The steps of a call. -/
inductive SparseCall.Moves (fastembed : SparseTextEmbedding M)
    (service : Bm42SparseEmbeddingService M) (call : SparseCall M) :
    SparseEvent M → Bm42SparseEmbeddingService M → SparseCall M → Prop
  | enters : call.stage = .entered → Moves fastembed service call .advance service call.enter
  | misses : call.stage = .check → service.model = none →
      Moves fastembed service call .advance service { call with stage := .waiting }
  | finds {model : M} : call.stage = .check → service.model = some model →
      Moves fastembed service call .advance service { call with stage := .read }
  | takes : call.stage = .waiting → service.locked = false →
      Moves fastembed service call .advance { service with locked := true }
        { call with stage := .recheck }
  | loads : call.stage = .recheck → service.model = none →
      Moves fastembed service call .advance service { call with stage := .loading }
  | spares {model : M} : call.stage = .recheck → service.model = some model →
      Moves fastembed service call .advance service { call with stage := .leaving }
  | keeps {model : M} : call.stage = .loading →
      Moves fastembed service call (.loaded model) { service with model := some model }
        { call with stage := .leaving }
  | gives : call.stage = .loading →
      Moves fastembed service call .failed { service with locked := false }
        { call with stage := .raised }
  | abandons : call.stage = .loading →
      Moves fastembed service call .cancel { service with locked := false }
        { call with stage := .abandoned }
  | leaves : call.stage = .leaving →
      Moves fastembed service call .advance { service with locked := false }
        { call with stage := .read }
  | reads {model : M} : call.stage = .read → service.model = some model →
      Moves fastembed service call .advance service { call with stage := .running model }
  | answers {model : M} {answer : Answer} : call.stage = .running model →
      fastembed.run model call.request = some answer →
      Moves fastembed service call .advance service { call with stage := .returned answer }
  /-- A call that does not hold the lock raises. -/
  | raises {event : SparseEvent M} :
      call.stage = .waiting ∨ call.stage = .read ∨ (∃ model, call.stage = .running model) →
      event.model? = none →
      Moves fastembed service call event service { call with stage := .raised }

theorem SparseCall.moves (hmove : call.move fastembed service event = some (service', call')) :
    call.Moves fastembed service event service' call' := by
  unfold SparseCall.move at hmove
  cases hstage : call.stage with
  | entered =>
      cases event with
      | advance =>
          simp only [hstage] at hmove
          cases hmove
          exact .enters hstage
      | loaded | failed | cancel => simp only [hstage, reduceCtorEq] at hmove
  | check =>
      cases event with
      | advance =>
          cases hmodel : service.model with
          | none =>
              simp only [hstage, hmodel] at hmove
              cases hmove
              exact .misses hstage hmodel
          | some model =>
              simp only [hstage, hmodel] at hmove
              cases hmove
              exact .finds hstage hmodel
      | loaded | failed | cancel => simp only [hstage, reduceCtorEq] at hmove
  | waiting =>
      cases event with
      | advance =>
          cases hlocked : service.locked with
          | true => simp only [hstage, hlocked, if_true, reduceCtorEq] at hmove
          | false =>
              simp only [hstage, hlocked, Bool.false_eq_true, if_false] at hmove
              cases hmove
              exact .takes hstage hlocked
      | cancel =>
          simp only [hstage] at hmove
          cases hmove
          exact .raises (.inl hstage) rfl
      | loaded | failed => simp only [hstage, reduceCtorEq] at hmove
  | recheck =>
      cases event with
      | advance =>
          cases hmodel : service.model with
          | none =>
              simp only [hstage, hmodel] at hmove
              cases hmove
              exact .loads hstage hmodel
          | some model =>
              simp only [hstage, hmodel] at hmove
              cases hmove
              exact .spares hstage hmodel
      | loaded | failed | cancel => simp only [hstage, reduceCtorEq] at hmove
  | loading =>
      cases event with
      | advance => simp only [hstage, reduceCtorEq] at hmove
      | loaded model =>
          simp only [hstage] at hmove
          cases hmove
          exact .keeps hstage
      | failed =>
          simp only [hstage] at hmove
          cases hmove
          exact .gives hstage
      | cancel =>
          simp only [hstage] at hmove
          cases hmove
          exact .abandons hstage
  | leaving =>
      cases event with
      | advance =>
          simp only [hstage] at hmove
          cases hmove
          exact .leaves hstage
      | loaded | failed | cancel => simp only [hstage, reduceCtorEq] at hmove
  | read =>
      cases event with
      | advance =>
          cases hmodel : service.model with
          | none =>
              simp only [hstage, hmodel] at hmove
              cases hmove
              exact .raises (.inr (.inl hstage)) rfl
          | some model =>
              simp only [hstage, hmodel] at hmove
              cases hmove
              exact .reads hstage hmodel
      | loaded | failed | cancel => simp only [hstage, reduceCtorEq] at hmove
  | running model =>
      cases event with
      | advance =>
          cases hrun : fastembed.run model call.request with
          | none =>
              simp only [hstage, hrun] at hmove
              cases hmove
              exact .raises (.inr (.inr ⟨model, hstage⟩)) rfl
          | some answer =>
              simp only [hstage, hrun] at hmove
              cases hmove
              exact .answers hstage hrun
      | cancel =>
          simp only [hstage] at hmove
          cases hmove
          exact .raises (.inr (.inr ⟨model, hstage⟩)) rfl
      | loaded | failed => simp only [hstage, reduceCtorEq] at hmove
  | returned | raised | abandoned => simp only [hstage, reduceCtorEq] at hmove

/-! ## The lock and the model -/

/-- The lock is held from the second check to the end of `async with`. -/
def serviceLock (M : Type*) : Lock (Bm42SparseEmbeddingService M) (SparseCall M) where
  locked service := service.locked
  holds call :=
    match call.stage with
    | .recheck => true
    | .loading => true
    | .leaving => true
    | _ => false

/-- What the holder of the lock knows of the model. -/
def SparseCall.Guards (service : Bm42SparseEmbeddingService M) (call : SparseCall M) : Prop :=
  match call.stage with
  | .loading => service.model = none
  | .leaving => ∃ model, service.model = some model
  | _ => True

/-- What a call knows of the model without the lock. -/
def SparseCall.Knows (fastembed : SparseTextEmbedding M)
    (service : Bm42SparseEmbeddingService M) (call : SparseCall M) : Prop :=
  match call.stage with
  | .read => ∃ model, service.model = some model
  | .running model => service.model = some model
  | .returned answer =>
      call.request = .documents [] ∧ answer = .documents [] ∨
        ∃ model, service.model = some model ∧ fastembed.run model call.request = some answer
  | _ => True

theorem SparseCall.enter_stage (call : SparseCall M) :
    call.enter = { call with stage := .check } ∨
      call.request = .documents [] ∧
        call.enter = { call with stage := .returned (.documents []) } := by
  unfold SparseCall.enter
  split
  · exact .inr ⟨‹_›, rfl⟩
  · exact .inl rfl
  · exact .inl rfl

theorem SparseCall.holds_enter (call : SparseCall M) : (serviceLock M).holds call.enter = false := by
  rcases call.enter_stage with heq | ⟨-, heq⟩ <;> rw [heq] <;> rfl

/-- A known model stays. -/
theorem SparseCall.Knows.mono
    (hmodel : ∀ model, service.model = some model → service'.model = some model)
    (h : call.Knows fastembed service) : call.Knows fastembed service' := by
  unfold SparseCall.Knows at h ⊢
  split at h
  · obtain ⟨model, hsome⟩ := h
    exact ⟨model, hmodel model hsome⟩
  · exact hmodel _ h
  · rcases h with hempty | ⟨model, hsome, hrun⟩
    · exact .inl hempty
    · exact .inr ⟨model, hmodel model hsome, hrun⟩
  · trivial

namespace SparseCall.Moves

theorem keeps_lock (h : call.Moves fastembed service event service' call') :
    (serviceLock M).Keeps (fun _ => True) SparseCall.Guards (fun _ => True) SparseCall.Guards
      service call service' call' := by
  cases h with
  | enters hstage =>
      have hholds : (serviceLock M).holds call = false := by
        simp [serviceLock, hstage]
      exact .bystander hholds call.holds_enter rfl id fun q _ hq => hq
  | misses hstage | finds hstage | reads hstage | answers hstage =>
      have hholds : (serviceLock M).holds call = false := by
        simp [serviceLock, hstage]
      exact .bystander hholds rfl rfl id fun q _ hq => hq
  | raises hstage =>
      have hholds : (serviceLock M).holds call = false := by
        rcases hstage with hstage | hstage | ⟨model, hstage⟩ <;> simp [serviceLock, hstage]
      exact .bystander hholds rfl rfl id fun q _ hq => hq
  | takes hstage hlocked =>
      have hholds : (serviceLock M).holds call = false := by
        simp [serviceLock, hstage]
      exact .acquires hholds rfl hlocked rfl fun _ => trivial
  | loads hstage hmodel =>
      have hholds : (serviceLock M).holds call = true := by
        simp [serviceLock, hstage]
      exact .works hholds rfl rfl fun _ => hmodel
  | spares hstage hmodel =>
      have hholds : (serviceLock M).holds call = true := by
        simp [serviceLock, hstage]
      exact .works hholds rfl rfl fun _ => ⟨_, hmodel⟩
  | keeps hstage =>
      have hholds : (serviceLock M).holds call = true := by
        simp [serviceLock, hstage]
      exact .works hholds rfl rfl fun _ => ⟨_, rfl⟩
  | gives hstage | abandons hstage | leaves hstage =>
      have hholds : (serviceLock M).holds call = true := by
        simp [serviceLock, hstage]
      exact .releases hholds rfl rfl fun _ => trivial

/-- A load ends well only where there is no model yet. -/
theorem model_toList (h : call.Moves fastembed service event service' call')
    (hguards : (serviceLock M).holds call → call.Guards service) :
    service'.model.toList = service.model.toList ++ event.model?.toList := by
  cases h with
  | keeps hstage =>
      have hholds : (serviceLock M).holds call = true := by simp [serviceLock, hstage]
      have hnone := hguards hholds
      simp only [SparseCall.Guards, hstage] at hnone
      rw [hnone]
      rfl
  | raises _ hevent =>
      rw [hevent]
      exact (List.append_nil _).symm
  | _ => exact (List.append_nil _).symm

theorem model_kept (h : call.Moves fastembed service event service' call')
    (hguards : (serviceLock M).holds call → call.Guards service) {model : M}
    (hmodel : service.model = some model) : service'.model = some model := by
  have hlist := h.model_toList hguards
  rw [hmodel] at hlist
  cases hmodel' : service'.model with
  | none =>
      rw [hmodel'] at hlist
      exact absurd hlist (by simp)
  | some other =>
      rw [hmodel'] at hlist
      exact congrArg some (List.cons.inj hlist).1

theorem knows (h : call.Moves fastembed service event service' call')
    (hguards : (serviceLock M).holds call → call.Guards service)
    (hknows : call.Knows fastembed service) : call'.Knows fastembed service' := by
  cases h with
  | enters hstage =>
      rcases call.enter_stage with heq | ⟨hrequest, heq⟩
      · rw [heq]
        trivial
      · rw [heq]
        exact .inl ⟨hrequest, rfl⟩
  | finds hstage hmodel => exact ⟨_, hmodel⟩
  | leaves hstage =>
      have hholds : (serviceLock M).holds call = true := by simp [serviceLock, hstage]
      have hsome := hguards hholds
      simp only [SparseCall.Guards, hstage] at hsome
      exact hsome
  | reads hstage hmodel => exact hmodel
  | answers hstage hrun =>
      simp only [SparseCall.Knows, hstage] at hknows
      exact .inr ⟨_, hknows, hrun⟩
  | misses | takes | loads | spares | keeps | gives | abandons | raises => trivial

theorem request (h : call.Moves fastembed service event service' call') :
    call'.request = call.request := by
  cases h with
  | enters => rcases call.enter_stage with heq | ⟨-, heq⟩ <;> rw [heq]
  | _ => rfl

end SparseCall.Moves

/-! ## Runs -/

/-- The models that loads ended with. -/
def loads (events : List (ℕ × SparseEvent M)) : List M :=
  events.flatMap fun (_, event) => event.model?.toList

def SparseCall.isLoading (call : SparseCall M) : Bool :=
  match call.stage with
  | .loading => true
  | _ => false

/-- What holds of the service and its calls at every moment. -/
structure ServiceInv (fastembed : SparseTextEmbedding M)
    (shared : Shared (Bm42SparseEmbeddingService M) (SparseCall M)) : Prop where
  owned : (serviceLock M).Owned (fun _ => True) SparseCall.Guards shared
  knows : ∀ call ∈ shared.parties, call.Knows fastembed shared.state

variable {shared after : Shared (Bm42SparseEmbeddingService M) (SparseCall M)}
  {out : List Empty} {requests : List Request} {events : List (ℕ × SparseEvent M)}

theorem serviceInv_init : ServiceInv fastembed (sparseStart requests) := by
  constructor
  · apply Lock.Owned.initial rfl _ trivial
    intro call hcall
    obtain ⟨request, -, rfl⟩ := List.mem_map.mp hcall
    rfl
  · intro call hcall
    obtain ⟨request, -, rfl⟩ := List.mem_map.mp hcall
    trivial

/-- One step, of one call. -/
theorem sparseCalls_step {i : ℕ}
    (hstep : (sparseCalls fastembed).step shared (i, event) = some (after, out)) :
    ∃ left call right service call', shared.parties = left ++ call :: right ∧
      call.Moves fastembed shared.state event service call' ∧
      after = ⟨service, left ++ call' :: right⟩ := by
  obtain ⟨left, call, right, service, call', hparties, -, hmoved, hafter⟩ :=
    interleaving_step hstep
  exact ⟨left, call, right, service, call', hparties, SparseCall.moves hmoved, hafter⟩

theorem ServiceInv.guards (h : ServiceInv fastembed shared) {call : SparseCall M}
    (hcall : call ∈ shared.parties) :
    (serviceLock M).holds call → call.Guards shared.state :=
  h.owned.held call hcall

theorem ServiceInv.step {i : ℕ} (h : ServiceInv fastembed shared)
    (hstep : (sparseCalls fastembed).step shared (i, event) = some (after, out)) :
    ServiceInv fastembed after ∧
      after.state.model.toList = shared.state.model.toList ++ event.model?.toList := by
  obtain ⟨left, call, right, service, call', hparties, hmoves, rfl⟩ := sparseCalls_step hstep
  have hmem : call ∈ shared.parties := hparties ▸ mem_moved_self left right call
  have hguards := h.guards hmem
  have howned : (serviceLock M).Owned (fun _ => True) SparseCall.Guards
      ⟨shared.state, left ++ call :: right⟩ := hparties ▸ h.owned
  refine ⟨⟨howned.step hmoves.keeps_lock, ?_⟩, hmoves.model_toList hguards⟩
  intro other hother
  have hcases : other = call' ∨ other ∈ left ++ call :: right := mem_moved hother
  rcases hcases with heq | hold
  · rw [heq]
    exact hmoves.knows hguards (h.knows call hmem)
  · have hknows : other.Knows fastembed shared.state := h.knows other (hparties ▸ hold)
    exact hknows.mono fun model => hmoves.model_kept hguards

/-- At the end of a run the service has the model that a load ended with. -/
theorem serviceInv_run
    (hrun : (sparseCalls fastembed).run (sparseStart requests) events = some (after, out)) :
    ServiceInv fastembed after ∧ after.state.model.toList = loads events := by
  constructor
  · apply System.invariant_run _ serviceInv_init hrun
    intro s ⟨i, event⟩ t out hs hstep
    exact (hs.step hstep).1
  · apply System.accumulated_run (I := ServiceInv fastembed)
      (fun shared => shared.state.model.toList) (fun e => e.2.model?.toList) _
      serviceInv_init hrun
    intro s ⟨i, event⟩ t out hs hstep
    exact hs.step hstep

theorem requests_run
    (hrun : (sparseCalls fastembed).run (sparseStart requests) events = some (after, out)) :
    after.parties.map SparseCall.request = requests := by
  refine System.invariant_run (I := fun shared => shared.parties.map SparseCall.request = requests)
    ?_ ?_ hrun
  · intro s ⟨i, event⟩ t out hs hstep
    obtain ⟨left, call, right, service, call', hparties, hmoves, rfl⟩ := sparseCalls_step hstep
    rw [hparties, List.map_append, List.map_cons] at hs
    rw [List.map_append, List.map_cons, hmoves.request]
    exact hs
  · show (requests.map fun request => _).map _ = requests
    rw [List.map_map]
    exact List.map_id requests

/-- While a load is on its way there is no model and no other load. -/
theorem ServiceInv.one_load (h : ServiceInv fastembed shared) :
    (shared.parties.filter SparseCall.isLoading).length + shared.state.model.toList.length ≤ 1 := by
  have hloading : ∀ call : SparseCall M, call.isLoading = true →
      call.stage = .loading ∧ (serviceLock M).holds call = true := by
    intro call hcall
    unfold SparseCall.isLoading at hcall
    split at hcall
    · exact ⟨‹_›, by simp [serviceLock, *]⟩
    · exact Bool.noConfusion hcall
  have hfew : (shared.parties.filter SparseCall.isLoading).length ≤
      (shared.parties.filter (serviceLock M).holds).length := by
    apply List.Sublist.length_le
    apply List.monotone_filter_right
    intro call hcall
    exact (hloading call hcall).2
  have hone := h.owned.one
  cases hmodel : shared.state.model with
  | none =>
      show _ + 0 ≤ 1
      split at hone <;> omega
  | some model =>
      have hnone : shared.parties.filter SparseCall.isLoading = [] := by
        rw [List.filter_eq_nil_iff]
        intro call hcall hisLoading
        obtain ⟨hstage, hholds⟩ := hloading call hisLoading
        have hguards := h.guards hcall hholds
        rw [SparseCall.Guards, hstage] at hguards
        rw [hmodel] at hguards
        cases hguards
      rw [hnone]
      exact Nat.le_refl 1

/-- The call has a thread that loads, or may still do so: it awaits it, or has abandoned it. -/
def SparseCall.hasLoad (call : SparseCall M) : Bool :=
  match call.stage with
  | .loading => true
  | .abandoned => true
  | _ => false

def SparseCall.isAbandoned (call : SparseCall M) : Bool :=
  match call.stage with
  | .abandoned => true
  | _ => false

/-- Only a cancellation abandons a load. -/
theorem SparseCall.Moves.abandoned (h : call.Moves fastembed service event service' call') :
    (if call'.isAbandoned then 1 else 0) ≤
      (if call.isAbandoned then 1 else 0) + if event.isCancel then 1 else 0 := by
  cases h with
  | enters => rcases call.enter_stage with heq | ⟨-, heq⟩ <;> rw [heq] <;> exact Nat.zero_le _
  | abandons =>
      show 1 ≤ _ + 1
      exact Nat.le_add_left 1 _
  | _ => exact Nat.zero_le _

theorem abandoned_le
    (hrun : (sparseCalls fastembed).run (sparseStart requests) events = some (after, out)) :
    (after.parties.filter SparseCall.isAbandoned).length ≤
      (events.filter fun e => e.2.isCancel).length := by
  have hcount := System.count_run_le
    (fun shared : Shared (Bm42SparseEmbeddingService M) (SparseCall M) =>
      (shared.parties.filter SparseCall.isAbandoned).length)
    (fun e : ℕ × SparseEvent M => e.2.isCancel) ?_ hrun
  · have hnone : ((sparseStart (M := M) requests).parties.filter SparseCall.isAbandoned) = [] := by
      rw [List.filter_eq_nil_iff]
      intro call hcall
      obtain ⟨request, -, rfl⟩ := List.mem_map.mp hcall
      exact Bool.false_ne_true
    simpa [hnone] using hcount
  · intro s ⟨i, event⟩ t out hstep
    obtain ⟨left, call, right, service, call', hparties, hmoves, rfl⟩ := sparseCalls_step hstep
    have hle := hmoves.abandoned
    dsimp only
    rw [hparties, length_filter_moved, length_filter_moved]
    omega

theorem hasLoad_le (calls : List (SparseCall M)) :
    (calls.filter SparseCall.hasLoad).length =
      (calls.filter SparseCall.isLoading).length +
        (calls.filter SparseCall.isAbandoned).length := by
  induction calls with
  | nil => rfl
  | cons call calls ih =>
      rw [List.filter_cons, List.filter_cons, List.filter_cons]
      cases hstage : call.stage with
      | loading | abandoned =>
          simp only [SparseCall.hasLoad, SparseCall.isLoading, SparseCall.isAbandoned, hstage,
            if_true, Bool.false_eq_true, if_false, List.length_cons]
          omega
      | _ =>
          simp only [SparseCall.hasLoad, SparseCall.isLoading, SparseCall.isAbandoned, hstage,
            Bool.false_eq_true, if_false]
          exact ih

/-- However the calls interleave, fail and are cancelled, at most one load is awaited at a time
and none after one has ended well; besides it only loads go on whose call was cancelled.  The
model of the load that has ended well is the service's from then on, and every answer is its
own. -/
theorem calls_share_one_model
    (hrun : (sparseCalls fastembed).run (sparseStart requests) events = some (after, out)) :
    after.state.model.toList = loads events ∧
      (after.parties.filter SparseCall.isLoading).length + (loads events).length ≤ 1 ∧
      (after.parties.filter SparseCall.hasLoad).length ≤
        1 + (events.filter fun e => e.2.isCancel).length ∧
      after.parties.map SparseCall.request = requests ∧
      ∀ call ∈ after.parties, ∀ answer, call.stage = .returned answer →
        call.request = .documents [] ∧ answer = .documents [] ∨
          ∃ model, loads events = [model] ∧ fastembed.run model call.request = some answer := by
  obtain ⟨hinv, hmodel⟩ := serviceInv_run hrun
  have hone := hinv.one_load
  rw [hmodel] at hone
  have habandoned := abandoned_le hrun
  refine ⟨hmodel, hone, ?_, requests_run hrun, ?_⟩
  · rw [hasLoad_le]
    omega
  · intro call hcall answer hstage
    have hknows := hinv.knows call hcall
    rw [SparseCall.Knows, hstage] at hknows
    rcases hknows with hempty | ⟨model, hsome, hanswer⟩
    · exact .inl hempty
    · rw [hsome] at hmodel
      exact .inr ⟨model, hmodel.symm, hanswer⟩

/-- A model that gives every text the same vector. -/
def plainEmbedding : SparseTextEmbedding ℕ where
  embed _ texts := some (texts.map fun _ => ⟨[1], [.finite (.normalise false 1 0)]⟩)
  queryEmbed _ texts := some (texts.map fun _ => ⟨[1], [.finite (.normalise false 1 0)]⟩)

/-- Two queries that both find no model: one loads it while the other waits. -/
def twoQueries : List (ℕ × SparseEvent ℕ) :=
  [(0, .advance), (1, .advance), (0, .advance), (1, .advance), (0, .advance), (0, .advance),
    (0, .loaded 7), (0, .advance), (1, .advance), (1, .advance), (1, .advance), (1, .advance),
    (0, .advance), (0, .advance), (1, .advance)]

/-- The first query is cancelled while it loads the model, and the second one loads it again. -/
def cancelledQuery : List (ℕ × SparseEvent ℕ) :=
  [(0, .advance), (1, .advance), (0, .advance), (1, .advance), (0, .advance), (0, .advance),
    (0, .cancel), (1, .advance), (1, .advance), (1, .loaded 7), (1, .advance), (1, .advance),
    (1, .advance)]

theorem calls_share_one_model_queries :
    ∃ after, (sparseCalls plainEmbedding).run
        (sparseStart [.query "where is the lease", .query "what is due"]) cancelledQuery =
          some (after, []) ∧
      after.state.model.toList = [7] ∧ (after.parties.filter SparseCall.hasLoad).length ≤ 2 := by
  obtain ⟨after, hrun⟩ : ∃ after, (sparseCalls plainEmbedding).run
      (sparseStart [.query "where is the lease", .query "what is due"]) cancelledQuery =
        some (after, []) := ⟨_, rfl⟩
  obtain ⟨hmodel, -, hloads, -⟩ := calls_share_one_model hrun
  exact ⟨after, hrun, hmodel, hloads⟩

/-! ## Every call ends -/

/-- How many more steps a call can take. -/
def SparseCall.rank (call : SparseCall M) : ℕ :=
  match call.stage with
  | .entered => 8
  | .check => 7
  | .waiting => 6
  | .recheck => 5
  | .loading => 4
  | .leaving => 3
  | .read => 2
  | .running _ => 1
  | .returned _ => 0
  | .raised => 0
  | .abandoned => 0

theorem SparseCall.rank_le (call : SparseCall M) : call.rank ≤ 8 := by
  unfold SparseCall.rank
  split <;> omega

theorem SparseCall.Moves.rank_lt (h : call.Moves fastembed service event service' call') :
    call'.rank < call.rank := by
  cases h with
  | enters hstage =>
      rcases call.enter_stage with heq | ⟨-, heq⟩ <;> rw [heq] <;> simp [SparseCall.rank, hstage]
  | raises hstage =>
      rcases hstage with hstage | hstage | ⟨model, hstage⟩ <;> simp [SparseCall.rank, hstage]
  | misses hstage | finds hstage | takes hstage | loads hstage | spares hstage | keeps hstage
  | gives hstage | abandons hstage | leaves hstage | reads hstage | answers hstage =>
      simp [SparseCall.rank, hstage]

theorem length_events_le
    (hrun : (sparseCalls fastembed).run (sparseStart requests) events = some (after, out)) :
    events.length ≤ 8 * requests.length := by
  have hlength := interleaving_length_le
    (fun s p e s' p' hmove => (SparseCall.moves hmove).rank_lt) hrun
  have hle := remaining_le (sparseStart (M := M) requests).parties fun call _ => call.rank_le
  have hinit : (sparseStart (M := M) requests).parties.length = requests.length :=
    List.length_map ..
  rw [hinit] at hle
  omega

/-- A call that has not ended goes on, unless it waits for the lock; a load it awaits may
fail. -/
theorem SparseCall.exists_move (fastembed : SparseTextEmbedding M)
    (service : Bm42SparseEmbeddingService M) (hrank : 0 < call.rank)
    (hlocked : call.stage = .waiting → service.locked = false) :
    ∃ event next, (event = .advance ∨ event = .failed) ∧
      call.move fastembed service event = some next := by
  unfold SparseCall.rank at hrank
  unfold SparseCall.move
  cases hstage : call.stage with
  | entered | leaving => exact ⟨.advance, _, .inl rfl, rfl⟩
  | check | recheck | read =>
      cases hmodel : service.model with
      | none => exact ⟨.advance, _, .inl rfl, rfl⟩
      | some model => exact ⟨.advance, _, .inl rfl, rfl⟩
  | waiting => exact ⟨.advance, _, .inl rfl, if_neg (by simp [hlocked hstage])⟩
  | loading => exact ⟨.failed, _, .inr rfl, rfl⟩
  | running model =>
      cases hrun : fastembed.run model call.request with
      | none =>
          refine ⟨.advance, (service, { call with stage := .raised }), .inl rfl, ?_⟩
          simp only [hrun]
      | some answer =>
          refine ⟨.advance, (service, { call with stage := .returned answer }), .inl rfl, ?_⟩
          simp only [hrun]
  | returned | raised | abandoned => simp [hstage] at hrank

/-- However the calls interleave, fail and are cancelled, they take at most eight steps
each, and as long as one of them has not ended some call goes on without being
cancelled; when all have ended the lock is free. -/
theorem calls_end (hrun : (sparseCalls fastembed).run (sparseStart requests) events =
      some (after, out)) :
    events.length ≤ 8 * requests.length ∧
      ((∀ call ∈ after.parties, call.rank = 0) ∧ after.state.locked = false ∨
        ∃ i event, (event = .advance ∨ event = .failed) ∧
          ∃ next, (sparseCalls fastembed).step after (i, event) = some next) := by
  obtain ⟨hinv, -⟩ := serviceInv_run hrun
  refine ⟨length_events_le hrun, ?_⟩
  cases hlocked : after.state.locked with
  | true =>
      -- whoever holds the lock goes on
      obtain ⟨call, hcall, hholds⟩ := hinv.owned.exists_holder hlocked
      obtain ⟨left, right, hparties⟩ := List.append_of_mem hcall
      have hstage : 0 < call.rank ∧ call.stage ≠ .waiting := by
        unfold SparseCall.rank
        simp only [serviceLock] at hholds
        split at hholds <;> simp_all
      obtain ⟨event, next, hevent, hmove⟩ :=
        SparseCall.exists_move fastembed after.state hstage.1 fun h => absurd h hstage.2
      exact .inr ⟨left.length, event, hevent, interleaving_enabled hparties hmove⟩
  | false =>
      by_cases hended : ∀ call ∈ after.parties, call.rank = 0
      · exact .inl ⟨hended, rfl⟩
      · push Not at hended
        obtain ⟨call, hcall, hrank⟩ := hended
        obtain ⟨left, right, hparties⟩ := List.append_of_mem hcall
        obtain ⟨event, next, hevent, hmove⟩ :=
          SparseCall.exists_move fastembed after.state (Nat.pos_of_ne_zero hrank) fun _ => hlocked
        exact .inr ⟨left.length, event, hevent, interleaving_enabled hparties hmove⟩

theorem calls_end_queries :
    twoQueries.length ≤ 8 * 2 ∧
      ∃ after, (sparseCalls plainEmbedding).run
          (sparseStart [.query "where is the lease", .query "what is due"]) twoQueries =
        some (after, []) := by
  obtain ⟨after, hrun⟩ : ∃ after, (sparseCalls plainEmbedding).run
      (sparseStart [.query "where is the lease", .query "what is due"]) twoQueries =
        some (after, []) := ⟨_, rfl⟩
  exact ⟨(calls_end hrun).1, after, hrun⟩

end

end Lour.Embeddings
