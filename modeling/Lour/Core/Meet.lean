import Lour.Core.Policy
import Mathlib.Algebra.Order.Field.Power
import Mathlib.Algebra.Order.Field.Rat
import Mathlib.Data.Multiset.Lattice
import Mathlib.Data.Finset.Lattice.Basic
import Mathlib.Data.Int.ConditionallyCompleteOrder
import Mathlib.Tactic.Linarith
/-!
# Most-restrictive-wins is a meet

What a policy permits is a point of a meet-semilattice: a limit that is not set is
the top of its order, and so is a missing allowlist.  Merging is the meet there as
long as no limit is a NaN, which the validator lets pass and which `min` takes or
leaves by its position.
-/

namespace Lour.Core

open Lour.Lib.Python

/-! ## Floats as limits -/

/-- A float that can be ordered and that the validator accepts. -/
def Limit (x : PyFloat) : Prop := x ≠ .nan ∧ x.le .zero = false

def limitValue : PyFloat → WithTop ℚ
  | .finite d => (d.toRat : WithTop ℚ)
  | _ => ⊤

theorem zero_toRat : (⟨false, 0, 0, .inr ⟨rfl, rfl⟩⟩ : Decimal).toRat = 0 := by
  simp [Decimal.toRat, Decimal.abs]

theorem Limit.finite_pos {d : Decimal} (h : Limit (.finite d)) : 0 < d.toRat := by
  have hpos := h.2
  simpa [PyFloat.le, PyFloat.zero, zero_toRat] using hpos

theorem decimal_abs_nonneg (d : Decimal) : 0 ≤ d.abs := by
  rw [Decimal.abs]
  positivity

theorem neg_of_pos {d : Decimal} (h : 0 < d.toRat) : d.neg = false := by
  by_contra hneg
  have habs := decimal_abs_nonneg d
  rw [Decimal.toRat, if_pos (by simpa using hneg)] at h
  linarith

/-- A decimal without trailing zeros is determined by its value. -/
theorem digits_unique {m n : ℕ} {e f : ℤ} (hm : m % 10 ≠ 0)
    (h : (m : ℚ) * 10 ^ e = n * 10 ^ f) (hle : e ≤ f) : m = n ∧ e = f := by
  obtain ⟨k, rfl⟩ := Int.le.dest hle
  have hten : (10 : ℚ) ^ e ≠ 0 := by positivity
  have hcast : (m : ℚ) = ((n * 10 ^ k : ℕ) : ℚ) := by
    rw [zpow_add₀ (by norm_num), zpow_natCast, ← mul_assoc, mul_right_comm] at h
    have hcancel := mul_right_cancel₀ hten h
    rw [hcancel]
    push_cast
    rfl
  have heq : m = n * 10 ^ k := by exact_mod_cast hcast
  cases k with
  | zero => simpa using heq
  | succ k =>
      refine absurd ?_ hm
      rw [heq, pow_succ, ← mul_assoc]
      exact Nat.mul_mod_left ..

theorem toRat_inj {c d : Decimal} (hc : 0 < c.toRat) (hd : 0 < d.toRat)
    (h : c.toRat = d.toRat) : c = d := by
  have hcneg := neg_of_pos hc
  have hdneg := neg_of_pos hd
  obtain ⟨cneg, m, e, hm⟩ := c
  obtain ⟨dneg, n, f, hn⟩ := d
  subst hcneg hdneg
  simp only [Decimal.toRat, Decimal.abs, Bool.false_eq_true, if_false] at hc hd h
  have hm' : m % 10 ≠ 0 := hm.resolve_right (by rintro ⟨rfl, -⟩; simp at hc)
  have hn' : n % 10 ≠ 0 := hn.resolve_right (by rintro ⟨rfl, -⟩; simp at hd)
  have hboth : m = n ∧ e = f := by
    rcases le_total e f with hle | hle
    · exact digits_unique hm' h hle
    · obtain ⟨h₁, h₂⟩ := digits_unique hn' h.symm hle
      exact ⟨h₁.symm, h₂.symm⟩
  obtain ⟨rfl, rfl⟩ := hboth
  rfl

variable {x y : PyFloat}

theorem Limit.cases (h : Limit x) : x = .inf false ∨ ∃ d, x = .finite d := by
  obtain ⟨hnan, hpos⟩ := h
  cases x with
  | finite d => exact .inr ⟨d, rfl⟩
  | inf neg =>
      cases neg with
      | false => exact .inl rfl
      | true => exact absurd hpos (by decide)
  | nan => exact absurd rfl hnan

theorem limitValue_inj (hx : Limit x) (hy : Limit y) (h : limitValue x = limitValue y) :
    x = y := by
  rcases hx.cases with rfl | ⟨c, rfl⟩ <;> rcases hy.cases with rfl | ⟨d, rfl⟩
  · rfl
  · exact absurd h.symm (WithTop.coe_ne_top)
  · exact absurd h (WithTop.coe_ne_top)
  · rw [toRat_inj hx.finite_pos hy.finite_pos (WithTop.coe_injective h)]

theorem le_iff_limitValue (hx : Limit x) (hy : Limit y) :
    x.le y = true ↔ limitValue x ≤ limitValue y := by
  rcases hx.cases with rfl | ⟨c, rfl⟩ <;> rcases hy.cases with rfl | ⟨d, rfl⟩
  · simp [PyFloat.le]
  · simp [PyFloat.le, limitValue]
  · simp [PyFloat.le, limitValue]
  · simp [PyFloat.le, limitValue]

theorem limitValue_min (hx : Limit x) (hy : Limit y) :
    limitValue (PyFloat.min x y) = limitValue x ⊓ limitValue y := by
  have hlt : y.lt x = true ↔ limitValue y < limitValue x := by
    rcases hx.cases with rfl | ⟨c, rfl⟩ <;> rcases hy.cases with rfl | ⟨d, rfl⟩
    · simp [PyFloat.lt, limitValue]
    · simp [PyFloat.lt, limitValue]
    · simp [PyFloat.lt, limitValue]
    · simp [PyFloat.lt, limitValue]
  rw [PyFloat.min]
  split
  next hless => exact (inf_eq_right.mpr (hlt.mp hless).le).symm
  next hless => exact (inf_eq_left.mpr (not_lt.mp fun h => hless (hlt.mpr h))).symm

/-! ## The meet-semilattice of policies -/

/-- A limit that is not set is above all others. -/
def asBound {α : Type} : Option α → WithTop α
  | none => ⊤
  | some a => a

theorem asBound_inj {α : Type} {a b : Option α} (h : asBound a = asBound b) : a = b := by
  cases a with
  | none =>
      cases b with
      | none => rfl
      | some b => exact absurd h.symm WithTop.coe_ne_top
  | some a =>
      cases b with
      | none => exact absurd h WithTop.coe_ne_top
      | some b => exact congrArg some (WithTop.coe_injective h)

/-- What a policy permits: its four limits, its allowlist, the tools that need
approval, and the two flags. -/
abbrev Bound :=
  WithTop ℤ × WithTop ℤ × WithTop ℤ × WithTop (WithTop ℚ) × WithTop (Finset String) ×
    (Finset String)ᵒᵈ × Boolᵒᵈ × Boolᵒᵈ

def Policy.bound (self : Policy) : Bound :=
  (asBound self.budget.maxCostTokens, asBound self.budget.maxIterations,
    asBound self.budget.maxToolCalls, asBound (self.budget.maxDurationS.map limitValue),
    asBound self.allowedTools, .toDual self.approvalRules.toolsRequiringApproval,
    .toDual self.approvalRules.requireApprovalOnSideEffects, .toDual self.requiresConfirmation)

/-- The policy sets no NaN. -/
def Policy.Ordered (self : Policy) : Prop := self.budget.maxDurationS ≠ some .nan

instance : DecidablePred Policy.Ordered :=
  fun p => inferInstanceAs (Decidable (p.budget.maxDurationS ≠ some .nan))

theorem Policy.Ordered.limit {p : Policy} (h : p.Ordered) {x : PyFloat}
    (hx : p.budget.maxDurationS = some x) : Limit x := by
  have hvalid := (BudgetPolicy.violation_eq_none.mp p.validated).2.2.2
  refine ⟨?_, hvalid x hx⟩
  rintro rfl
  exact h hx

theorem minSet_eq_inf {α : Type} [LinearOrder α] (a b : Option α) :
    asBound (minSet min a b) = asBound a ⊓ asBound b := by
  cases a with
  | none => exact (top_inf_eq _).symm
  | some a =>
      cases b with
      | none => exact (inf_top_eq _).symm
      | some b => exact WithTop.coe_min a b

theorem mergeAllowed_eq_inf (a b : Option (Finset String)) :
    asBound (Policy.mergeAllowed a b) = asBound a ⊓ asBound b := by
  cases a with
  | none =>
      cases b with
      | none => exact (top_inf_eq _).symm
      | some b => exact (top_inf_eq _).symm
  | some a =>
      cases b with
      | none => exact (inf_top_eq _).symm
      | some b => exact WithTop.coe_inf a b

theorem duration_eq_inf {a b : Option PyFloat} (ha : ∀ x, a = some x → Limit x)
    (hb : ∀ x, b = some x → Limit x) :
    asBound ((minSet PyFloat.min a b).map limitValue) =
      asBound (a.map limitValue) ⊓ asBound (b.map limitValue) := by
  cases a with
  | none => exact (top_inf_eq _).symm
  | some a =>
      cases b with
      | none => exact (inf_top_eq _).symm
      | some b => exact congrArg WithTop.some (limitValue_min (ha a rfl) (hb b rfl))

/-- Merging is the meet. -/
theorem bound_merged {p q : Policy} (hp : p.Ordered) (hq : q.Ordered) :
    (p.merged q).bound = p.bound ⊓ q.bound := by
  have hduration := duration_eq_inf (fun x => hp.limit) (fun x => hq.limit)
  exact Prod.ext (minSet_eq_inf ..) <| Prod.ext (minSet_eq_inf ..) <|
    Prod.ext (minSet_eq_inf ..) <| Prod.ext hduration <|
    Prod.ext (mergeAllowed_eq_inf ..) <| Prod.ext rfl <| Prod.ext rfl rfl

theorem Policy.Ordered.merged {p q : Policy} (hp : p.Ordered) (hq : q.Ordered) :
    (p.merged q).Ordered := by
  intro hnan
  have hmin : ∀ x y, Limit x → Limit y → Limit (PyFloat.min x y) := by
    intro x y hx hy
    rw [PyFloat.min]
    split
    · exact hy
    · exact hx
  have hlimit := BudgetPolicy.minSet_forall hmin (fun x => hp.limit) (fun x => hq.limit) .nan hnan
  exact hlimit.1 rfl

theorem duration_inj {a b : Option PyFloat} (ha : ∀ x, a = some x → Limit x)
    (hb : ∀ x, b = some x → Limit x) (h : a.map limitValue = b.map limitValue) : a = b := by
  cases a with
  | none =>
      cases b with
      | none => rfl
      | some b => cases h
  | some a =>
      cases b with
      | none => cases h
      | some b =>
          have hvalue : limitValue a = limitValue b := Option.some.inj h
          rw [limitValue_inj (ha a rfl) (hb b rfl) hvalue]

/-- A policy is determined by what it permits. -/
theorem bound_inj {p q : Policy} (hp : p.Ordered) (hq : q.Ordered) (h : p.bound = q.bound) :
    p = q := by
  have hduration : p.budget.maxDurationS = q.budget.maxDurationS := by
    apply duration_inj (fun x => hp.limit) (fun x => hq.limit)
    exact asBound_inj (congrArg (fun b : Bound => b.2.2.2.1) h)
  have htokens := asBound_inj (congrArg (fun b : Bound => b.1) h)
  have hiterations := asBound_inj (congrArg (fun b : Bound => b.2.1) h)
  have hcalls := asBound_inj (congrArg (fun b : Bound => b.2.2.1) h)
  have hallowed := asBound_inj (congrArg (fun b : Bound => b.2.2.2.2.1) h)
  have happroval := congrArg (fun b : Bound => b.2.2.2.2.2.1) h
  have heffects := congrArg (fun b : Bound => b.2.2.2.2.2.2.1) h
  have hconfirm := congrArg (fun b : Bound => b.2.2.2.2.2.2.2) h
  obtain ⟨⟨tokens, iterations, calls, duration⟩, allowed, ⟨tools, effects⟩, confirm, hvalid⟩ := p
  obtain ⟨⟨tokens', iterations', calls', duration'⟩, allowed', ⟨tools', effects'⟩, confirm',
    hvalid'⟩ := q
  cases htokens
  cases hiterations
  cases hcalls
  cases hduration
  cases hallowed
  cases happroval
  cases heffects
  cases hconfirm
  rfl

/-! ## Composing layers -/

section

variable {ls : List Policy}

open PolicyResolver

theorem foldl_ordered {first : Policy} (hfirst : first.Ordered)
    (hls : ∀ layer ∈ ls, layer.Ordered) : (ls.foldl Policy.merged first).Ordered := by
  induction ls generalizing first with
  | nil => exact hfirst
  | cons layer rest ih =>
      rw [List.forall_mem_cons] at hls
      exact ih (hfirst.merged hls.1) hls.2

theorem composed_ordered (hls : ∀ layer ∈ ls, layer.Ordered) : (composed ls).Ordered := by
  cases ls with
  | nil =>
      intro hnan
      cases hnan
  | cons first rest =>
      rw [List.forall_mem_cons] at hls
      exact foldl_ordered hls.1 hls.2

/-- What merging takes to the meet, composing takes to the greatest lower bound. -/
theorem composed_inf {β : Type} [SemilatticeInf β] [OrderTop β] {f : Policy → β}
    (hdefault : f {} = ⊤)
    (hmerged : ∀ p q, p.Ordered → q.Ordered → f (p.merged q) = f p ⊓ f q)
    (hls : ∀ layer ∈ ls, layer.Ordered) (b : β) :
    b ≤ f (composed ls) ↔ ∀ layer ∈ ls, b ≤ f layer := by
  have hfold : ∀ (rest : List Policy) (first : Policy), first.Ordered →
      (∀ layer ∈ rest, layer.Ordered) →
      (b ≤ f (rest.foldl Policy.merged first) ↔ b ≤ f first ∧ ∀ layer ∈ rest, b ≤ f layer) := by
    intro rest
    induction rest with
    | nil => simp
    | cons layer rest ih =>
        intro first hfirst hrest
        rw [List.forall_mem_cons] at hrest
        rw [List.foldl_cons, ih _ (hfirst.merged hrest.1) hrest.2, hmerged _ _ hfirst hrest.1,
          le_inf_iff, List.forall_mem_cons, and_assoc]
  cases ls with
  | nil => simp [composed, hdefault]
  | cons first rest =>
      rw [List.forall_mem_cons] at hls
      rw [composed, hfold rest first hls.1 hls.2, List.forall_mem_cons]

theorem composed_bound (hls : ∀ layer ∈ ls, layer.Ordered) (b : Bound) :
    b ≤ (composed ls).bound ↔ ∀ layer ∈ ls, b ≤ layer.bound :=
  composed_inf rfl (fun _ _ => bound_merged) hls b

/-- Neither the order of the layers nor their repetition matters. -/
theorem composed_congr {ls' : List Policy} (hls : ∀ layer ∈ ls, layer.Ordered)
    (hsame : ∀ layer, layer ∈ ls' ↔ layer ∈ ls) : composed ls' = composed ls := by
  have hls' : ∀ layer ∈ ls', layer.Ordered := fun layer h => hls layer ((hsame layer).mp h)
  apply bound_inj (composed_ordered hls') (composed_ordered hls)
  apply eq_of_forall_le_iff
  intro b
  rw [composed_bound hls', composed_bound hls]
  exact forall_congr' fun layer => imp_congr_left (hsame layer)

/-- What merging takes from one of two policies, composing takes from one layer. -/
theorem composed_attained {β : Type} {f : Policy → β}
    (hmerged : ∀ p q, f (p.merged q) = f p ∨ f (p.merged q) = f q) (hls : ls ≠ []) :
    ∃ layer ∈ ls, f (composed ls) = f layer := by
  have hfold : ∀ (rest : List Policy) (first : Policy),
      ∃ layer ∈ first :: rest, f (rest.foldl Policy.merged first) = f layer := by
    intro rest
    induction rest with
    | nil => exact fun first => ⟨first, List.mem_cons_self .., rfl⟩
    | cons layer rest ih =>
        intro first
        obtain ⟨found, hfound, heq⟩ := ih (first.merged layer)
        rcases List.mem_cons.mp hfound with rfl | hrest
        · rcases hmerged first layer with hfirst | hlayer
          · exact ⟨first, by simp, heq.trans hfirst⟩
          · exact ⟨layer, by simp, heq.trans hlayer⟩
        · exact ⟨found, by simp [hrest], heq⟩
  cases ls with
  | nil => exact absurd rfl hls
  | cons first rest => exact hfold rest first

theorem minSet_choice {α : Type} {min : α → α → α} (hmin : ∀ a b, min a b = a ∨ min a b = b)
    (a b : Option α) : minSet min a b = a ∨ minSet min a b = b := by
  cases a with
  | none => exact .inr rfl
  | some a =>
      cases b with
      | none => exact .inl rfl
      | some b => exact (hmin a b).imp (congrArg some) (congrArg some)

/-- The smallest of the values, and none where there are none. -/
structure IsMinimum {α : Type} (le : α → α → Prop) (values : List α) (minimum : Option α) :
    Prop where
  unset : minimum = none ↔ values = []
  attained : ∀ v, minimum = some v → v ∈ values
  lower : ∀ v, minimum = some v → ∀ w ∈ values, le v w

theorem asBound_le_some {α : Type} [Preorder α] {a : Option α} {w : α}
    (h : asBound a ≤ asBound (some w)) : ∃ v, a = some v ∧ v ≤ w := by
  cases a with
  | none => exact absurd h (WithTop.not_top_le_coe w)
  | some v => exact ⟨v, rfl, WithTop.coe_le_coe.mp h⟩

theorem isMinimum_composed {α : Type} {le : α → α → Prop} {f : Policy → Option α}
    (hdefault : f {} = none) (hchoice : ∀ p q, f (p.merged q) = f p ∨ f (p.merged q) = f q)
    (hlower : ∀ layer ∈ ls, ∀ w, f layer = some w → ∃ v, f (composed ls) = some v ∧ le v w) :
    IsMinimum le (ls.filterMap f) (f (composed ls)) := by
  have hfrom : ∀ v, f (composed ls) = some v → ∃ layer ∈ ls, f layer = some v := by
    intro v hv
    by_cases hls : ls = []
    · rw [hls, composed, hdefault] at hv
      cases hv
    · obtain ⟨layer, hlayer, heq⟩ := composed_attained hchoice hls
      exact ⟨layer, hlayer, heq.symm.trans hv⟩
  constructor
  · rw [List.filterMap_eq_nil_iff]
    constructor
    · intro hnone layer hlayer
      by_contra hset
      obtain ⟨w, hw⟩ := Option.ne_none_iff_exists'.mp hset
      obtain ⟨v, hv, -⟩ := hlower layer hlayer w hw
      rw [hnone] at hv
      cases hv
    · intro hunset
      by_contra hset
      obtain ⟨v, hv⟩ := Option.ne_none_iff_exists'.mp hset
      obtain ⟨layer, hlayer, heq⟩ := hfrom v hv
      rw [hunset layer hlayer] at heq
      cases heq
  · intro v hv
    obtain ⟨layer, hlayer, heq⟩ := hfrom v hv
    exact List.mem_filterMap.mpr ⟨layer, hlayer, heq⟩
  · intro v hv w hw
    obtain ⟨layer, hlayer, heq⟩ := List.mem_filterMap.mp hw
    obtain ⟨v', hv', hle⟩ := hlower layer hlayer w heq
    rw [hv] at hv'
    cases hv'
    exact hle

/-! ## The resolver -/

/-- Each limit is the smallest one that the layers set, a tool is allowed where every
layer allows it, and what one layer wants confirmed has to be confirmed. -/
structure IsMeet (ls : List Policy) (p : Policy) : Prop where
  maxCostTokens : IsMinimum (· ≤ ·) (ls.filterMap fun l => l.budget.maxCostTokens)
    p.budget.maxCostTokens
  maxIterations : IsMinimum (· ≤ ·) (ls.filterMap fun l => l.budget.maxIterations)
    p.budget.maxIterations
  maxToolCalls : IsMinimum (· ≤ ·) (ls.filterMap fun l => l.budget.maxToolCalls)
    p.budget.maxToolCalls
  maxDurationS : IsMinimum (fun a b => a.le b = true)
    (ls.filterMap fun l => l.budget.maxDurationS) p.budget.maxDurationS
  allowed : ∀ tool, p.isToolAllowed tool = true ↔ ∀ l ∈ ls, l.isToolAllowed tool = true
  approval : ∀ tool, tool ∈ p.approvalRules.toolsRequiringApproval ↔
    ∃ l ∈ ls, tool ∈ l.approvalRules.toolsRequiringApproval
  sideEffects : p.approvalRules.requireApprovalOnSideEffects = true ↔
    ∃ l ∈ ls, l.approvalRules.requireApprovalOnSideEffects = true
  confirmation : p.requiresConfirmation = true ↔ ∃ l ∈ ls, l.requiresConfirmation = true

/-- `p` permits no tool, sets no limit higher and drops no approval that `q` has. -/
structure AtLeastAsStrict (p q : Policy) : Prop where
  maxCostTokens : ∀ w, q.budget.maxCostTokens = some w →
    ∃ v, p.budget.maxCostTokens = some v ∧ v ≤ w
  maxIterations : ∀ w, q.budget.maxIterations = some w →
    ∃ v, p.budget.maxIterations = some v ∧ v ≤ w
  maxToolCalls : ∀ w, q.budget.maxToolCalls = some w →
    ∃ v, p.budget.maxToolCalls = some v ∧ v ≤ w
  maxDurationS : ∀ w, q.budget.maxDurationS = some w →
    ∃ v, p.budget.maxDurationS = some v ∧ v.le w = true
  allowed : ∀ tool, p.isToolAllowed tool = true → q.isToolAllowed tool = true
  approval : q.approvalRules.toolsRequiringApproval ⊆ p.approvalRules.toolsRequiringApproval
  sideEffects : q.approvalRules.requireApprovalOnSideEffects = true →
    p.approvalRules.requireApprovalOnSideEffects = true
  confirmation : q.requiresConfirmation = true → p.requiresConfirmation = true

open PolicyResolver in
/-- Most-restrictive-wins for four layers and whatever is composed of them. -/
structure MostRestrictive (defaults skill agent request : Option Policy) : Prop where
  resolves : ∃ p, resolve defaults skill agent request = .ok p ∧
    IsMeet (layers defaults skill agent request) p
  commutative : ∀ a ∈ layers defaults skill agent request,
    ∀ b ∈ layers defaults skill agent request, a.mergeRestrictive b = b.mergeRestrictive a
  associative : ∀ a ∈ layers defaults skill agent request,
    ∀ b ∈ layers defaults skill agent request, ∀ c ∈ layers defaults skill agent request,
    (do (← a.mergeRestrictive b).mergeRestrictive c) =
      (do a.mergeRestrictive (← b.mergeRestrictive c))
  idempotent : ∀ a ∈ layers defaults skill agent request, a.mergeRestrictive a = .ok a
  unordered : ∀ defaults' skill' agent' request',
    (∀ l, l ∈ layers defaults' skill' agent' request' ↔ l ∈ layers defaults skill agent request) →
    resolve defaults' skill' agent' request' = resolve defaults skill agent request
  monotone : ∀ defaults' skill' agent' request' p q,
    layers defaults' skill' agent' request' ⊆ layers defaults skill agent request →
    resolve defaults skill agent request = .ok p →
    resolve defaults' skill' agent' request' = .ok q → AtLeastAsStrict p q

theorem pyFloat_min_choice (x y : PyFloat) : PyFloat.min x y = x ∨ PyFloat.min x y = y := by
  rw [PyFloat.min]
  split
  · exact .inr rfl
  · exact .inl rfl

theorem isToolAllowed_mono {p q : Policy}
    (h : asBound p.allowedTools ≤ asBound q.allowedTools) {tool : String}
    (htool : p.isToolAllowed tool = true) : q.isToolAllowed tool = true := by
  rw [Policy.isToolAllowed] at htool ⊢
  cases hq : q.allowedTools with
  | none => rfl
  | some allowed =>
      rw [hq] at h
      obtain ⟨allowed', hp, hsubset⟩ := asBound_le_some h
      rw [hp, decide_eq_true_eq] at htool
      exact decide_eq_true (hsubset htool)

theorem duration_mono {p q : Policy} (hp : p.Ordered) (hq : q.Ordered)
    (h : asBound (p.budget.maxDurationS.map limitValue) ≤
      asBound (q.budget.maxDurationS.map limitValue)) {w : PyFloat}
    (hw : q.budget.maxDurationS = some w) :
    ∃ v, p.budget.maxDurationS = some v ∧ v.le w = true := by
  rw [hw, Option.map_some] at h
  obtain ⟨value, hvalue, hle⟩ := asBound_le_some h
  obtain ⟨v, hv, rfl⟩ := Option.map_eq_some_iff.mp hvalue
  exact ⟨v, hv, (le_iff_limitValue (hp.limit hv) (hq.limit hw)).mpr hle⟩

theorem atLeastAsStrict_of_bound {p q : Policy} (hp : p.Ordered) (hq : q.Ordered)
    (h : p.bound ≤ q.bound) : AtLeastAsStrict p q := by
  obtain ⟨htokens, hiterations, hcalls, hduration, hallowed, happroval, heffects, hconfirm⟩ := h
  constructor
  · intro w hw
    exact asBound_le_some (hw ▸ htokens)
  · intro w hw
    exact asBound_le_some (hw ▸ hiterations)
  · intro w hw
    exact asBound_le_some (hw ▸ hcalls)
  · intro w hw
    exact duration_mono hp hq hduration hw
  · intro tool htool
    exact isToolAllowed_mono hallowed htool
  · exact happroval
  · exact heffects
  · exact hconfirm

section

variable {ls : List Policy}

theorem composed_requiresConfirmation (ls : List Policy) :
    (PolicyResolver.composed ls).requiresConfirmation = true ↔
      ∃ layer ∈ ls, layer.requiresConfirmation = true := by
  have h := PolicyResolver.composed_forall (f := fun p => ¬ p.requiresConfirmation = true)
    (by simp) (fun a b => by simp [Policy.merged]) ls
  simpa using not_congr h

/-- The composition is at least as strict as every layer. -/
theorem composed_strict (hls : ∀ layer ∈ ls, layer.Ordered) {layer : Policy}
    (hlayer : layer ∈ ls) : AtLeastAsStrict (PolicyResolver.composed ls) layer := by
  apply atLeastAsStrict_of_bound (composed_ordered hls) (hls layer hlayer)
  exact (composed_bound hls _).mp le_rfl layer hlayer

theorem composed_isMeet (hls : ∀ layer ∈ ls, layer.Ordered) :
    IsMeet ls (PolicyResolver.composed ls) := by
  constructor
  · apply isMinimum_composed rfl
    · exact fun p q => minSet_choice min_choice _ _
    · exact fun layer hlayer w => (composed_strict hls hlayer).maxCostTokens w
  · apply isMinimum_composed rfl
    · exact fun p q => minSet_choice min_choice _ _
    · exact fun layer hlayer w => (composed_strict hls hlayer).maxIterations w
  · apply isMinimum_composed rfl
    · exact fun p q => minSet_choice min_choice _ _
    · exact fun layer hlayer w => (composed_strict hls hlayer).maxToolCalls w
  · apply isMinimum_composed rfl
    · exact fun p q => minSet_choice pyFloat_min_choice _ _
    · exact fun layer hlayer w => (composed_strict hls hlayer).maxDurationS w
  · exact PolicyResolver.composed_isToolAllowed ls
  · exact PolicyResolver.mem_composed_toolsRequiringApproval ls
  · exact PolicyResolver.composed_requireApprovalOnSideEffects ls
  · exact composed_requiresConfirmation ls

end

theorem merged_comm {p q : Policy} (hp : p.Ordered) (hq : q.Ordered) :
    p.merged q = q.merged p := by
  apply bound_inj (hp.merged hq) (hq.merged hp)
  rw [bound_merged hp hq, bound_merged hq hp, inf_comm]

theorem merged_assoc {p q r : Policy} (hp : p.Ordered) (hq : q.Ordered) (hr : r.Ordered) :
    (p.merged q).merged r = p.merged (q.merged r) := by
  apply bound_inj ((hp.merged hq).merged hr) (hp.merged (hq.merged hr))
  rw [bound_merged (hp.merged hq) hr, bound_merged hp hq, bound_merged hp (hq.merged hr),
    bound_merged hq hr, inf_assoc]

theorem merged_self {p : Policy} (hp : p.Ordered) : p.merged p = p := by
  apply bound_inj (hp.merged hp) hp
  rw [bound_merged hp hp, inf_idem]

theorem IsMeet.ordered {ls : List Policy} {p : Policy} (h : IsMeet ls p) {layer : Policy}
    (hlayer : layer ∈ ls) : layer.budget.maxDurationS ≠ some .nan := by
  intro hnan
  have hmember : PyFloat.nan ∈ ls.filterMap fun l => l.budget.maxDurationS :=
    List.mem_filterMap.mpr ⟨layer, hlayer, hnan⟩
  cases hp : p.budget.maxDurationS with
  | none =>
      rw [h.maxDurationS.unset.mp hp] at hmember
      cases hmember
  | some v =>
      have hle := h.maxDurationS.lower v hp .nan hmember
      cases v <;> cases hle

open PolicyResolver in
/-- Most-restrictive-wins is a meet exactly where no layer sets a NaN. -/
theorem most_restrictive_wins_iff (defaults skill agent request : Option Policy) :
    MostRestrictive defaults skill agent request ↔
      ∀ layer ∈ layers defaults skill agent request, layer.budget.maxDurationS ≠ some .nan := by
  constructor
  · intro h layer hlayer
    obtain ⟨p, -, hmeet⟩ := h.resolves
    exact hmeet.ordered hlayer
  · intro hls
    constructor
    · exact ⟨_, resolve_eq, composed_isMeet hls⟩
    · intro a ha b hb
      rw [Policy.mergeRestrictive_eq, Policy.mergeRestrictive_eq, merged_comm (hls a ha) (hls b hb)]
    · intro a ha b hb c hc
      simp only [Policy.mergeRestrictive_eq]
      exact congrArg Except.ok (merged_assoc (hls a ha) (hls b hb) (hls c hc))
    · intro a ha
      rw [Policy.mergeRestrictive_eq, merged_self (hls a ha)]
    · intro defaults' skill' agent' request' hsame
      rw [resolve_eq, resolve_eq, composed_congr hls hsame]
    · intro defaults' skill' agent' request' p q hsubset hp hq
      rw [resolve_eq] at hp hq
      cases hp
      cases hq
      have hls' : ∀ layer ∈ layers defaults' skill' agent' request', layer.Ordered :=
        fun layer hlayer => hls layer (hsubset hlayer)
      apply atLeastAsStrict_of_bound (composed_ordered hls) (composed_ordered hls')
      rw [composed_bound hls']
      intro layer hlayer
      exact (composed_bound hls _).mp le_rfl layer (hsubset hlayer)

def lasting (limit : PyFloat) (h : limit.le .zero = false) : Policy where
  budget := { maxDurationS := some limit }
  validated := by simp [BudgetPolicy.violation, BudgetPolicy.rejectInt, BudgetPolicy.rejectFloat, h]

def second : PyFloat := .finite ⟨false, 1, 0, .inl (by decide)⟩

def oneSecond : Policy :=
  lasting second (by simp [second, PyFloat.le, PyFloat.zero, Decimal.toRat, Decimal.abs])

def endless : Policy := lasting .nan rfl

/-- The validator lets a NaN pass, and then the layer that comes first wins. -/
theorem most_restrictive_not_a_meet :
    ¬ MostRestrictive (some endless) none none (some oneSecond) ∧
      (PolicyResolver.resolve (some endless) none none (some oneSecond)).map
        (fun p => p.budget.maxDurationS) = .ok (some .nan) ∧
      (PolicyResolver.resolve (some oneSecond) none none (some endless)).map
        (fun p => p.budget.maxDurationS) = .ok (some second) := by
  refine ⟨?_, ?_, ?_⟩
  · intro h
    obtain ⟨p, -, hmeet⟩ := h.resolves
    exact hmeet.ordered (List.mem_cons_self ..) rfl
  · rw [PolicyResolver.resolve_eq]
    rfl
  · rw [PolicyResolver.resolve_eq]
    rfl

end

end Lour.Core
