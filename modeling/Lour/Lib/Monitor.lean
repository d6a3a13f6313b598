import Lour.Lib.Mutex
/-!
# Calls that run under one lock

A monitor guards its data by a lock; the body of a call is a list of statements on the
data and on the locals of the call, and other workers take their steps between any two of
them.  A run answers every call as if the calls had been made one after the other, in the
order in which they gave the lock back.
-/

namespace Lour.Lib

variable {δ κ ο ω : Type*}

structure Monitor (δ κ ο ω : Type*) where
  /-- The locals at the start of a call. -/
  enter : ο → κ
  body : ο → List (δ → κ → δ × κ)
  answer : ο → κ → ω

/-- The data behind the lock. -/
structure Guarded (δ : Type*) where
  data : δ
  locked : Bool := false

/-- The calls a worker has not ended; of the first, when it holds the lock, what is left
of the body and the locals. -/
structure Worker (δ κ ο : Type*) where
  todo : List ο
  inside : Option (List (δ → κ → δ × κ) × κ) := none

namespace Monitor

def runAll : List (δ → κ → δ × κ) → δ → κ → δ × κ
  | [], d, l => (d, l)
  | statement :: rest, d, l => runAll rest (statement d l).1 (statement d l).2

variable (m : Monitor δ κ ο ω)

/-- One step of a worker: to take the lock, to carry out a statement, or to give the lock
back. -/
def move (guarded : Guarded δ) (worker : Worker δ κ ο) :
    Option (Guarded δ × Worker δ κ ο × List (ο × ω)) :=
  match worker.todo, worker.inside with
  | [], _ => none
  | o :: _, none =>
      if guarded.locked then none
      else some ({ guarded with locked := true },
        { worker with inside := some (m.body o, m.enter o) }, [])
  | _ :: _, some (statement :: rest, l) =>
      let (d, l) := statement guarded.data l
      some ({ guarded with data := d }, { worker with inside := some (rest, l) }, [])
  | o :: todo, some ([], l) =>
      some ({ guarded with locked := false }, { todo := todo }, [(o, m.answer o l)])

/-- Workers on one monitor, in any order of their steps. -/
def workers : System (Shared (Guarded δ) (Worker δ κ ο)) ℕ (ℕ × ο × ω) := emitting m.move

def start (d : δ) (todos : List (List ο)) : Shared (Guarded δ) (Worker δ κ ο) :=
  ⟨{ data := d }, todos.map fun todo => { todo := todo }⟩

/-! ## One call after the other -/

/-- A call that nothing comes between. -/
def call (d : δ) (o : ο) : δ × ω :=
  let (d', l) := runAll (m.body o) d (m.enter o)
  (d', m.answer o l)

def after (d : δ) (os : List ο) : δ := os.foldl (fun d o => (m.call d o).1) d

def answers (d : δ) : List ο → List ω
  | [] => []
  | o :: os => (m.call d o).2 :: answers (m.call d o).1 os

variable {m} {d : δ}

theorem after_concat (os : List ο) (o : ο) :
    m.after d (os ++ [o]) = (m.call (m.after d os) o).1 := by
  rw [after, List.foldl_append]
  rfl

theorem answers_concat (os : List ο) (o : ο) :
    m.answers d (os ++ [o]) = m.answers d os ++ [(m.call (m.after d os) o).2] := by
  induction os generalizing d with
  | nil => rfl
  | cons first os ih =>
      rw [List.cons_append, answers, ih, answers, List.cons_append]
      rfl

/-- Each answer is the one at the data after the calls before. -/
theorem getElem?_answers (os : List ο) (k : ℕ) :
    (m.answers d os)[k]? = os[k]?.map fun o => (m.call (m.after d (os.take k)) o).2 := by
  induction os generalizing d k with
  | nil => rfl
  | cons o os ih =>
      cases k with
      | zero => rfl
      | succ k => exact ih k

/-! ## The steps -/

section

variable {guarded guarded' : Guarded δ} {worker worker' : Worker δ κ ο} {out : List (ο × ω)}

/-- The steps of a worker. -/
inductive Moves (m : Monitor δ κ ο ω) (guarded : Guarded δ) (worker : Worker δ κ ο) :
    Guarded δ → Worker δ κ ο → List (ο × ω) → Prop
  | takes {o : ο} {todo : List ο} : worker.todo = o :: todo → worker.inside = none →
      guarded.locked = false →
      Moves m guarded worker { guarded with locked := true }
        ⟨o :: todo, some (m.body o, m.enter o)⟩ []
  | works {o : ο} {todo : List ο} {statement : δ → κ → δ × κ} {rest : List (δ → κ → δ × κ)}
      {l : κ} : worker.todo = o :: todo → worker.inside = some (statement :: rest, l) →
      Moves m guarded worker { guarded with data := (statement guarded.data l).1 }
        ⟨o :: todo, some (rest, (statement guarded.data l).2)⟩ []
  | gives {o : ο} {todo : List ο} {l : κ} : worker.todo = o :: todo →
      worker.inside = some ([], l) →
      Moves m guarded worker { guarded with locked := false } { todo := todo }
        [(o, m.answer o l)]

theorem moves (hmove : m.move guarded worker = some (guarded', worker', out)) :
    Moves m guarded worker guarded' worker' out := by
  unfold move at hmove
  cases htodo : worker.todo with
  | nil => simp only [htodo, reduceCtorEq] at hmove
  | cons o todo =>
      cases hinside : worker.inside with
      | none =>
          cases hlocked : guarded.locked with
          | true => simp only [htodo, hinside, hlocked, if_true, reduceCtorEq] at hmove
          | false =>
              simp only [htodo, hinside, hlocked, Bool.false_eq_true, if_false] at hmove
              cases hmove
              exact .takes htodo hinside hlocked
      | some frame =>
          obtain ⟨statements, l⟩ := frame
          cases statements with
          | nil =>
              simp only [htodo, hinside] at hmove
              cases hmove
              exact .gives htodo hinside
          | cons statement rest =>
              simp only [htodo, hinside] at hmove
              cases hmove
              exact .works htodo hinside

/-- A worker with calls to make can take a step, unless it waits for the lock. -/
theorem exists_move (m : Monitor δ κ ο ω) (guarded : Guarded δ) (htodo : worker.todo ≠ [])
    (hlocked : worker.inside = none → guarded.locked = false) :
    ∃ next, m.move guarded worker = some next := by
  unfold move
  cases hworker : worker.todo with
  | nil => exact absurd hworker htodo
  | cons o todo =>
      cases hinside : worker.inside with
      | none => exact ⟨_, if_neg (by simp [hlocked hinside])⟩
      | some frame =>
          obtain ⟨statements, l⟩ := frame
          cases statements with
          | nil => exact ⟨_, rfl⟩
          | cons statement rest => exact ⟨_, rfl⟩

end

/-! ## The invariant -/

def lock (δ κ ο : Type*) : Lock (Guarded δ) (Worker δ κ ο) where
  locked guarded := guarded.locked
  holds worker := worker.inside.isSome

/-- The data after these calls. -/
def Settled (m : Monitor δ κ ο ω) (d : δ) (os : List ο) (guarded : Guarded δ) : Prop :=
  guarded.data = m.after d os

/-- In the middle of a call, what is left of its body brings it where the whole body would
have brought it from the data after the calls before. -/
def Amid (m : Monitor δ κ ο ω) (d : δ) (os : List ο) (guarded : Guarded δ)
    (worker : Worker δ κ ο) : Prop :=
  ∃ o todo statements l, worker.todo = o :: todo ∧ worker.inside = some (statements, l) ∧
    runAll statements guarded.data l = runAll (m.body o) (m.after d os) (m.enter o)

/-- The calls that have ended, in the order in which they did. -/
def made (outs : List (ℕ × ο × ω)) : List ο := outs.map fun out => out.2.1

/-- What holds at every moment of the calls that have ended and of the one that has not. -/
structure Linear (m : Monitor δ κ ο ω) (d : δ)
    (shared : Shared (Guarded δ) (Worker δ κ ο)) (outs : List (ℕ × ο × ω)) : Prop where
  owned : (lock δ κ ο).Owned (m.Settled d (made outs)) (m.Amid d (made outs)) shared
  answers : m.answers d (made outs) = outs.map fun out => out.2.2

variable {shared ended : Shared (Guarded δ) (Worker δ κ ο)} {outs : List (ℕ × ο × ω)}

theorem linear_start (m : Monitor δ κ ο ω) (d : δ) (todos : List (List ο)) :
    m.Linear d (start d todos) [] := by
  constructor
  · apply Lock.Owned.initial rfl
    · intro worker hworker
      obtain ⟨todo, -, rfl⟩ := List.mem_map.mp hworker
      rfl
    · rfl
  · rfl

/-- What the holder of the lock answers is the answer of the whole call. -/
theorem Amid.ends {guarded : Guarded δ} {worker : Worker δ κ ο} {os : List ο} {o : ο}
    {todo : List ο} {l : κ} (h : m.Amid d os guarded worker) (htodo : worker.todo = o :: todo)
    (hinside : worker.inside = some ([], l)) :
    m.call (m.after d os) o = (guarded.data, m.answer o l) := by
  obtain ⟨o', todo', statements, l', htodo', hinside', hrun⟩ := h
  rw [htodo] at htodo'
  rw [hinside] at hinside'
  cases htodo'
  cases hinside'
  rw [call, ← hrun]
  rfl

theorem Linear.step {i : ℕ} {out : List (ℕ × ο × ω)} (h : m.Linear d shared outs)
    (hstep : m.workers.step shared i = some (ended, out)) : m.Linear d ended (outs ++ out) := by
  obtain ⟨left, worker, right, guarded, worker', emitted, hparties, -, hmove, rfl, rfl⟩ :=
    emitting_step hstep
  have howned : (lock δ κ ο).Owned (m.Settled d (made outs)) (m.Amid d (made outs))
      ⟨shared.state, left ++ worker :: right⟩ := hparties ▸ h.owned
  cases moves hmove with
  | takes htodo hinside hlocked =>
      rw [List.map_nil, List.append_nil]
      have hholds : (lock δ κ ο).holds worker = false := by simp [lock, hinside]
      refine ⟨howned.step (.acquires hholds rfl hlocked rfl ?_), h.answers⟩
      intro hfree
      refine ⟨_, _, _, _, rfl, rfl, ?_⟩
      show runAll _ shared.state.data _ = _
      rw [hfree]
  | works htodo hinside =>
      rw [List.map_nil, List.append_nil]
      have hholds : (lock δ κ ο).holds worker = true := by simp [lock, hinside]
      refine ⟨howned.step (.works hholds rfl rfl ?_), h.answers⟩
      rintro ⟨o', todo', statements, l', htodo', hinside', hrun⟩
      rw [htodo] at htodo'
      rw [hinside] at hinside'
      cases htodo'
      cases hinside'
      exact ⟨_, _, _, _, rfl, rfl, hrun⟩
  | gives htodo hinside =>
      have hholds : (lock δ κ ο).holds worker = true := by simp [lock, hinside]
      have hcall := (howned.held_of_holds hholds).ends htodo hinside
      rw [List.map_singleton]
      have hmade : ∀ (o : ο) (a : ω), made (outs ++ [(i, o, a)]) = made outs ++ [o] := by
        intro o a
        rw [made, List.map_append]
        rfl
      constructor
      · rw [hmade]
        apply howned.step (.releases hholds rfl rfl _)
        intro _
        rw [Settled, after_concat, hcall]
      · rw [hmade, answers_concat, hcall, h.answers, List.map_append]
        rfl

theorem linear_run {todos : List (List ο)} {labels : List ℕ}
    (hrun : m.workers.run (start d todos) labels = some (ended, outs)) :
    m.Linear d ended outs := by
  have h := System.run_induction (P := m.Linear d)
    (fun s outs i t out _ hs hstep => hs.step hstep) (linear_start m d todos) hrun
  rwa [List.nil_append] at h

/-- What a call answers is what it would have answered after the calls that ended before
it. -/
theorem Linear.answer (h : m.Linear d shared outs) {before rest : List (ℕ × ο × ω)} {i : ℕ}
    {o : ο} {a : ω} (houts : outs = before ++ (i, o, a) :: rest) :
    a = (m.call (m.after d (made before)) o).2 := by
  have hget := congrArg (fun answers => answers[before.length]?) h.answers
  simp only [getElem?_answers] at hget
  rw [houts, made, List.map_append, List.map_append, List.map_cons, List.map_cons] at hget
  have hlength : (before.map fun out => out.2.1).length = before.length := List.length_map ..
  have hlength' : (before.map fun out => out.2.2).length = before.length := List.length_map ..
  have hle := Nat.le_of_eq hlength
  rw [List.getElem?_append_right hle, hlength, Nat.sub_self,
    List.getElem?_append_right (Nat.le_of_eq hlength'), hlength', Nat.sub_self,
    List.take_append_of_le_length (Nat.le_of_eq hlength.symm), List.take_of_length_le hle] at hget
  exact (Option.some.inj hget).symm

/-! ## The order of a worker's own calls -/

/-- The calls of worker `i` that have ended. -/
def madeBy (i : ℕ) (outs : List (ℕ × ο × ω)) : List ο :=
  made (outs.filter fun out => out.1 = i)

theorem madeBy_append (i j : ℕ) (outs : List (ℕ × ο × ω)) (emitted : List (ο × ω)) :
    madeBy j (outs ++ emitted.map fun o => (i, o)) =
      madeBy j outs ++ if i = j then emitted.map Prod.fst else [] := by
  rw [madeBy, List.filter_append, made, List.map_append, List.filter_map, List.map_map]
  congr 1
  by_cases hij : i = j
  · have hall : emitted.filter ((fun out : ℕ × ο × ω => decide (out.1 = j)) ∘ fun o => (i, o)) =
        emitted := List.filter_eq_self.mpr fun o _ => decide_eq_true hij
    rw [if_pos hij, hall]
    rfl
  · have hnone : emitted.filter ((fun out : ℕ × ο × ω => decide (out.1 = j)) ∘ fun o => (i, o)) =
        [] := List.filter_eq_nil_iff.mpr fun o _ => by simpa using hij
    rw [if_neg hij, hnone]
    rfl

/-- The calls of each worker that have ended and those that have not are its calls, in its
own order. -/
def InOrder (todos : List (List ο)) (shared : Shared (Guarded δ) (Worker δ κ ο))
    (outs : List (ℕ × ο × ω)) : Prop :=
  ∀ i todo, todos[i]? = some todo → ∃ worker, shared.parties[i]? = some worker ∧
    todo = madeBy i outs ++ worker.todo

theorem Moves.todo {guarded guarded' : Guarded δ} {worker worker' : Worker δ κ ο}
    {out : List (ο × ω)} (h : Moves m guarded worker guarded' worker' out) :
    worker.todo = out.map Prod.fst ++ worker'.todo := by
  cases h with
  | takes htodo => exact htodo
  | works htodo => exact htodo
  | gives htodo => exact htodo

theorem InOrder.step {todos : List (List ο)} {i : ℕ} {out : List (ℕ × ο × ω)}
    (h : InOrder todos shared outs) (hstep : m.workers.step shared i = some (ended, out)) :
    InOrder todos ended (outs ++ out) := by
  intro j todo hj
  obtain ⟨worker, hworker, htodo⟩ := h j todo hj
  obtain ⟨party, guarded, party', emitted, hparty, hmove, rfl, rfl⟩ := emitting_step_iff.mp hstep
  show ∃ worker, (shared.parties.set i party')[j]? = some worker ∧ _
  rw [madeBy_append]
  by_cases hij : i = j
  · rw [if_pos hij]
    subst hij
    have heq : party = worker := Option.some.inj (hparty.symm.trans hworker)
    refine ⟨party', getElem?_moved hparty, ?_⟩
    rw [htodo, ← heq, (moves hmove).todo, List.append_assoc]
  · rw [if_neg hij, List.append_nil, List.getElem?_set_ne hij]
    exact ⟨worker, hworker, htodo⟩

/-- A worker's calls end in its own order. -/
theorem inOrder_run {todos : List (List ο)} {labels : List ℕ}
    (hrun : m.workers.run (start d todos) labels = some (ended, outs)) :
    InOrder todos ended outs := by
  have hstart : InOrder todos (start d todos : Shared (Guarded δ) (Worker δ κ ο)) ([] : List (ℕ × ο × ω)) := by
    intro i todo hi
    refine ⟨{ todo := todo }, ?_, rfl⟩
    show (todos.map fun todo => _)[i]? = _
    rw [List.getElem?_map, hi]
    rfl
  have h := System.run_induction (P := InOrder todos)
    (fun s outs i t out _ hs hstep => hs.step hstep) hstart hrun
  rwa [List.nil_append] at h

/-! ## Every call ends -/

/-- How many more steps a worker takes. -/
def steps (m : Monitor δ κ ο ω) (worker : Worker δ κ ο) : ℕ :=
  match worker.inside with
  | none => remaining (fun o => (m.body o).length + 2) worker.todo
  | some (statements, _) =>
      statements.length + 1 + remaining (fun o => (m.body o).length + 2) worker.todo.tail

theorem Moves.steps_lt {guarded guarded' : Guarded δ} {worker worker' : Worker δ κ ο}
    {out : List (ο × ω)} (h : Moves m guarded worker guarded' worker' out) :
    m.steps worker' < m.steps worker := by
  cases h with
  | takes htodo hinside =>
      simp only [steps, hinside, htodo, List.tail_cons, remaining]
      omega
  | works htodo hinside =>
      simp only [steps, hinside, htodo, List.length_cons]
      omega
  | gives htodo hinside =>
      simp only [steps, hinside, htodo, List.tail_cons, List.length_nil]
      omega

theorem steps_start (m : Monitor δ κ ο ω) (d : δ) (todos : List (List ο)) :
    remaining m.steps (start d todos).parties =
      remaining (remaining fun o => (m.body o).length + 2) todos := by
  show remaining m.steps (todos.map fun todo => _) = _
  induction todos with
  | nil => rfl
  | cons todo todos ih =>
      rw [List.map_cons, remaining, remaining, ih]
      rfl

/-- The workers' calls end: no run is longer than the bodies allow, and as long as a
worker has calls to make some worker can take a step. -/
theorem run_ends {todos : List (List ο)} {labels : List ℕ}
    (hrun : m.workers.run (start d todos) labels = some (ended, outs)) :
    labels.length ≤ remaining (remaining fun o => (m.body o).length + 2) todos ∧
      ((∀ worker ∈ ended.parties, worker.todo = []) ∧ ended.state.locked = false ∨
        ∃ i next, m.workers.step ended i = some next) := by
  constructor
  · have hlength := emitting_length_le
      (fun s p s' p' out hmove => (moves (m := m) hmove).steps_lt) hrun
    rw [steps_start] at hlength
    omega
  · have hlinear := linear_run hrun
    cases hlocked : ended.state.locked with
    | true =>
        obtain ⟨worker, hworker, hholds⟩ := hlinear.owned.exists_holder hlocked
        obtain ⟨left, right, hparties⟩ := List.append_of_mem hworker
        obtain ⟨o, todo, statements, l, htodo, hinside, -⟩ :=
          hlinear.owned.held worker hworker hholds
        have htodo' : worker.todo ≠ [] := by simp [htodo]
        obtain ⟨⟨guarded, worker', out⟩, hmove⟩ := m.exists_move ended.state htodo'
          (by simp [hinside])
        exact .inr ⟨left.length, emitting_enabled hparties hmove⟩
    | false =>
        by_cases hended : ∀ worker ∈ ended.parties, worker.todo = []
        · exact .inl ⟨hended, rfl⟩
        · push Not at hended
          obtain ⟨worker, hworker, htodo⟩ := hended
          obtain ⟨left, right, hparties⟩ := List.append_of_mem hworker
          obtain ⟨⟨guarded, worker', out⟩, hmove⟩ :=
            m.exists_move ended.state htodo fun _ => hlocked
          exact .inr ⟨left.length, emitting_enabled hparties hmove⟩

end Monitor

end Lour.Lib
