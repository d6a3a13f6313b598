import Lour.Lib.Fallible
import Lour.Lib.Python
import Lour.Lib.System
/-!
# `LocalMPSReranker`

The reranker remembers whether its service answered.  A call asks `/health` only as
long as nothing is remembered.
-/

namespace Lour.Reranker

open Lour.Lib Lour.Lib.Python

/-! ## Numbers in JSON -/

/-- A JSON number up to `==`, a NaN being itself. -/
inductive Number where
  | finite (q : Rat)
  | inf (neg : Bool)
  | nan
  deriving DecidableEq

def number? : Json → Option Number
  | .int i => some (.finite i)
  | .float (.finite d) => some (.finite d.toRat)
  | .float (.inf neg) => some (.inf neg)
  | .float .nan => some .nan
  | _ => none

/-- A list of numbers. -/
def numbers? : Json → Option (List Number)
  | .arr xs => xs.mapM number?
  | _ => none

/-! ## `RerankerClient` -/

inductive Failure where
  /-- `RerankerError`: the service is unreachable or answers with an error status. -/
  | reranker
  | jsonDecodeError
  | keyError
  | typeError
  deriving DecidableEq

/-- The answer to `POST /rerank`. -/
inductive Answer where
  | unreachable
  /-- A status that is no success. -/
  | httpError (status : ℕ)
  | json (body : Json)
  /-- A success whose body is not JSON. -/
  | text (body : String)

/-- What the service does during one call. -/
structure Service where
  /-- The status of `GET /health`; `none` where the request fails. -/
  health : Option ℕ
  answer : Answer

namespace Service

variable (self : Service)

def ping : Bool := self.health == some 200

/-- `data["scores"]`. -/
def scoresOf : Json → Except Failure Json
  | .obj data =>
      match Dict.get? data "scores" with
      | some scores => .ok scores
      | none => .error .keyError
  | _ => .error .typeError

/-- `RerankerClient.rerank`. -/
def clientRerank (documents : List String) : Except Failure Json :=
  if documents.isEmpty then .ok (.arr [])
  else
    match self.answer with
    | .unreachable => .error .reranker
    | .httpError _ => .error .reranker
    | .json body => scoresOf body
    | .text _ => .error .jsonDecodeError

end Service

/-! ## `LocalMPSReranker` -/

structure RerankCall where
  service : Service
  documents : List String

namespace RerankCall

variable (self : RerankCall)

/-- `[0.0] * len(documents)`. -/
def zeros : Json := .arr (List.replicate self.documents.length (.float .zero))

/-- `rerank` with `_ready` before and after it. -/
def rerank (ready : Option Bool) : Except Failure Json × Option Bool :=
  if ready.getD self.service.ping then
    match self.service.clientRerank self.documents with
    | .ok scores => (.ok scores, some true)
    | .error .reranker => (.ok self.zeros, some false)
    | .error e => (.error e, some true)
  else (.ok self.zeros, some false)

end RerankCall

/-- The calls of one reranker, each with its result. -/
def reranker : System (Option Bool) RerankCall (Except Failure Json) :=
  ⟨fun ready call => some ((call.rerank ready).2, [(call.rerank ready).1])⟩

/-! ## What a call owes, and when it gives it -/

namespace RerankCall

variable (self : RerankCall)

/-- The scores of a service that is healthy and answers correctly: one number for each
document. -/
def correctScores : Option (List Number) :=
  if self.service.ping then
    match self.service.answer with
    | .json (.obj data) =>
        ((Dict.get? data "scores").bind numbers?).filter fun scores =>
          scores.length == self.documents.length
    | _ => none
  else none

/-- The call returns one score for each document, the service's where it is healthy and
answers correctly. -/
def Kept (ready : Option Bool) (self : RerankCall) : Prop :=
  ∃ value scores, (self.rerank ready).1 = .ok value ∧ numbers? value = some scores ∧
    scores.length = self.documents.length ∧
    ∀ given, self.correctScores = some given → scores = given

/-- The service answers with what it should, or with an error that the client knows. -/
def AnswersWell : Prop :=
  self.documents ≠ [] →
    match self.service.answer with
    | .unreachable => True
    | .httpError _ => True
    | .json (.obj data) =>
        ∃ scores, (Dict.get? data "scores").bind numbers? = some scores ∧
          scores.length = self.documents.length
    | .json _ => False
    | .text _ => False

/-- A service that was given up has no scores but zeros to give, and one that is asked
answers well. -/
def Met (ready : Option Bool) (self : RerankCall) : Prop :=
  if ready = some false then
    ∀ given, self.correctScores = some given → ∀ s ∈ given, s = .finite 0
  else ready.getD self.service.ping = true → self.AnswersWell

variable {self} {ready : Option Bool}

theorem numbers_zeros :
    numbers? self.zeros = some (List.replicate self.documents.length (.finite 0)) := by
  have hzero : number? (.float .zero) = some (.finite 0) := by
    simp [number?, PyFloat.zero, Decimal.toRat, Decimal.abs]
  rw [zeros, numbers?]
  induction self.documents.length with
  | zero => rfl
  | succ n ih =>
      rw [List.replicate_succ, List.replicate_succ, List.mapM_cons, hzero, ih]
      rfl

theorem correctScores_eq_some {given : List Number} (h : self.correctScores = some given) :
    self.service.ping = true ∧ ∃ data, self.service.answer = .json (.obj data) ∧
      (Dict.get? data "scores").bind numbers? = some given ∧
      given.length = self.documents.length := by
  rw [correctScores] at h
  by_cases hping : self.service.ping = true
  · rw [if_pos hping] at h
    cases hanswer : self.service.answer with
    | json body =>
        rw [hanswer] at h
        cases body with
        | obj data =>
            obtain ⟨hscores, hlength⟩ := Option.filter_eq_some_iff.mp h
            exact ⟨hping, data, rfl, hscores, beq_iff_eq.mp hlength⟩
        | _ => cases h
    | _ =>
        rw [hanswer] at h
        cases h
  · rw [if_neg hping] at h
    cases h

/-- The zeros are all a call owes exactly where the service has nothing else to give. -/
theorem kept_zeros_iff (h : (self.rerank ready).1 = .ok self.zeros) :
    Kept ready self ↔ ∀ given, self.correctScores = some given → ∀ s ∈ given, s = .finite 0 := by
  constructor
  · rintro ⟨value, scores, hvalue, hscores, -, hgiven⟩ given hcorrect s hs
    rw [h] at hvalue
    cases hvalue
    rw [numbers_zeros, Option.some.injEq] at hscores
    rw [← hgiven given hcorrect, ← hscores] at hs
    exact List.eq_of_mem_replicate hs
  · intro hzero
    refine ⟨_, _, h, numbers_zeros, List.length_replicate .., ?_⟩
    intro given hcorrect
    obtain ⟨-, -, -, -, hlength⟩ := correctScores_eq_some hcorrect
    rw [← hlength]
    exact (List.eq_replicate_of_mem (hzero given hcorrect)).symm

theorem kept_zeros (h : (self.rerank ready).1 = .ok self.zeros)
    (hanswer : ∀ body, self.service.answer ≠ .json body) : Kept ready self := by
  rw [kept_zeros_iff h]
  intro given hgiven
  obtain ⟨-, data, hjson, -⟩ := correctScores_eq_some hgiven
  exact absurd hjson (hanswer _)

theorem not_kept_error {e : Failure} (h : (self.rerank ready).1 = .error e) :
    ¬ Kept ready self := by
  rintro ⟨value, scores, hvalue, -⟩
  rw [h] at hvalue
  cases hvalue

/-- What the service gave is one score for each document. -/
theorem kept_answered_iff {data : Dict} {value : Json} (h : (self.rerank ready).1 = .ok value)
    (hanswer : self.service.answer = .json (.obj data))
    (hscores : Dict.get? data "scores" = some value) :
    Kept ready self ↔ ∃ scores, (Dict.get? data "scores").bind numbers? = some scores ∧
      scores.length = self.documents.length := by
  rw [hscores, Option.bind_some]
  constructor
  · rintro ⟨_, scores, hvalue, hnumbers, hlength, -⟩
    rw [h] at hvalue
    cases hvalue
    exact ⟨scores, hnumbers, hlength⟩
  · rintro ⟨scores, hnumbers, hlength⟩
    refine ⟨value, scores, h, hnumbers, hlength, ?_⟩
    intro given hgiven
    obtain ⟨-, data', hjson, hgivenScores, -⟩ := correctScores_eq_some hgiven
    have hdata : data' = data := by
      rw [hanswer, Answer.json.injEq, Json.obj.injEq] at hjson
      exact hjson.symm
    rw [hdata, hscores, Option.bind_some, hnumbers] at hgivenScores
    exact Option.some.inj hgivenScores

theorem rerank_asked (hasked : ready.getD self.service.ping = true) :
    (self.rerank ready).1 =
      match self.service.clientRerank self.documents with
      | .ok scores => .ok scores
      | .error .reranker => .ok self.zeros
      | .error e => .error e := by
  rw [rerank, if_pos hasked]
  cases self.service.clientRerank self.documents with
  | ok scores => rfl
  | error e => cases e <;> rfl

theorem kept_asked_iff (hasked : ready.getD self.service.ping = true) :
    Kept ready self ↔ self.AnswersWell := by
  have hrerank := rerank_asked hasked
  rw [Service.clientRerank] at hrerank
  rw [AnswersWell]
  by_cases hdocuments : self.documents = []
  · have hlength : self.documents.length = 0 := by rw [hdocuments, List.length_nil]
    rw [hdocuments, List.isEmpty_nil, if_pos rfl] at hrerank
    constructor
    · intro _ hne
      exact absurd hdocuments hne
    · intro _
      refine ⟨.arr [], [], hrerank, rfl, hlength.symm, ?_⟩
      intro given hgiven
      obtain ⟨-, -, -, -, hgivenLength⟩ := correctScores_eq_some hgiven
      exact (List.length_eq_zero_iff.mp (hgivenLength.trans hlength)).symm
  · have hne : ¬ self.documents.isEmpty = true := by rwa [List.isEmpty_iff]
    rw [if_neg hne] at hrerank
    rw [forall_prop_of_true hdocuments]
    cases hanswer : self.service.answer with
    | unreachable =>
        rw [hanswer] at hrerank
        exact iff_true_intro (kept_zeros hrerank (by simp [hanswer]))
    | httpError status =>
        rw [hanswer] at hrerank
        exact iff_true_intro (kept_zeros hrerank (by simp [hanswer]))
    | text body =>
        rw [hanswer] at hrerank
        exact iff_false_intro (not_kept_error hrerank)
    | json body =>
        rw [hanswer] at hrerank
        cases body with
        | obj data =>
            show Kept ready self ↔ ∃ scores : List Number,
              (Dict.get? data "scores").bind numbers? = some scores ∧
                scores.length = self.documents.length
            cases hscores : Dict.get? data "scores" with
            | none =>
                simp only [Service.scoresOf, hscores] at hrerank
                refine iff_of_false (not_kept_error hrerank) ?_
                rintro ⟨scores, hsome, -⟩
                cases hsome
            | some value =>
                simp only [Service.scoresOf, hscores] at hrerank
                have hkept := kept_answered_iff hrerank hanswer hscores
                rwa [hscores] at hkept
        | _ => exact iff_false_intro (not_kept_error hrerank)

/-- One call gives what it owes exactly where the condition is met. -/
theorem kept_iff_met : Kept ready self ↔ Met ready self := by
  rw [Met]
  by_cases hdown : ready = some false
  · rw [if_pos hdown]
    apply kept_zeros_iff
    rw [hdown]
    rfl
  · rw [if_neg hdown]
    by_cases hasked : ready.getD self.service.ping = true
    · rw [kept_asked_iff hasked, forall_prop_of_true hasked]
    · have hresult : (self.rerank ready).1 = .ok self.zeros := by rw [rerank, if_neg hasked]
      rw [kept_zeros_iff hresult]
      refine iff_of_true ?_ fun h => absurd h hasked
      intro given hgiven
      obtain ⟨hping, -⟩ := correctScores_eq_some hgiven
      -- Nothing is remembered here, so `/health` decided.
      cases ready with
      | none => exact absurd hping hasked
      | some b =>
          cases b with
          | false => exact absurd rfl hdown
          | true => exact absurd rfl hasked

end RerankCall

/-- Every call of a sequence gives what it owes exactly where every call meets the
condition. -/
theorem rerank_kept_iff (calls : List RerankCall) :
    reranker.AllSteps RerankCall.Kept none calls ↔ reranker.AllSteps RerankCall.Met none calls := by
  apply System.allSteps_congr (I := fun _ => True)
  · intro _ _ _ _ _ _
    trivial
  · intro ready call _ _ _ _
    exact RerankCall.kept_iff_met
  · trivial

/-- After one outage, a service that is back with a score of one. -/
def outage : List RerankCall :=
  [⟨⟨some 200, .unreachable⟩, ["a"]⟩, ⟨⟨some 200, .json (.obj [("scores", .arr [.int 1])])⟩, ["a"]⟩]

theorem rerank_not_recovered :
    ¬ ∀ calls, reranker.AllSteps RerankCall.Kept none calls := by
  intro hall
  obtain ⟨-, hrest⟩ := hall outage _ _ rfl
  obtain ⟨⟨value, scores, hvalue, hscores, -, hgiven⟩, -⟩ := hrest _ _ rfl
  cases hvalue
  rw [RerankCall.numbers_zeros, Option.some.injEq] at hscores
  rw [hgiven [.finite 1] rfl] at hscores
  exact absurd hscores (by decide)

end Lour.Reranker
