import Mathlib.Data.List.Basic
/-!
# Computations that may raise

How a computation over `Except` came to its value, which exceptions it can end in,
and what a list of computations over `Option` comes to.
-/

namespace Lour.Lib

variable {ε α β : Type}

theorem bind_eq_ok {x : Except ε α} {f : α → Except ε β} {b : β} :
    (x >>= f) = .ok b ↔ ∃ a, x = .ok a ∧ f a = .ok b := by
  cases x with
  | error e =>
      constructor
      · intro h
        cases h
      · rintro ⟨a, h, -⟩
        cases h
  | ok a =>
      constructor
      · exact fun h => ⟨a, rfl, h⟩
      · rintro ⟨a', h, hf⟩
        cases h
        exact hf

theorem map_eq_ok {x : Except ε α} {f : α → β} {b : β} :
    x.map f = .ok b ↔ ∃ a, x = .ok a ∧ f a = b := by
  cases x with
  | error e => exact iff_of_false (fun h => by cases h) (by simp)
  | ok a => simp [Except.map]

theorem foldlM_ok_from {f : β → α → Except ε β} {P : List α → β → Prop}
    (hstep : ∀ before b a b', P before b → f b a = .ok b' → P (before ++ [a]) b')
    {l before : List α} {acc r : β} (hacc : P before acc) (h : l.foldlM f acc = .ok r) :
    P (before ++ l) r := by
  induction l generalizing before acc with
  | nil =>
      cases h
      rwa [List.append_nil]
  | cons a l ih =>
      rw [List.foldlM_cons, bind_eq_ok] at h
      obtain ⟨b, hb, hrest⟩ := h
      rw [List.append_cons before a l]
      exact ih (hstep before acc a b hacc hb) hrest

/-- A relation between the elements folded so far and the accumulator, kept by
every round that does not raise. -/
theorem foldlM_ok {f : β → α → Except ε β} {P : List α → β → Prop}
    (hstep : ∀ before b a b', P before b → f b a = .ok b' → P (before ++ [a]) b')
    {l : List α} {acc r : β} (hacc : P [] acc) (h : l.foldlM f acc = .ok r) : P l r :=
  foldlM_ok_from hstep hacc h

/-- Every exception the computation can end in has the property. -/
def Raises (P : ε → Prop) (x : Except ε α) : Prop := ∀ e, x = .error e → P e

namespace Raises

variable {P : ε → Prop}

theorem ok (a : α) : Raises P (.ok a : Except ε α) := by
  intro e h
  cases h

theorem error {e : ε} (h : P e) : Raises P (.error e : Except ε α) := by
  intro e' he
  cases he
  exact h

theorem bind {x : Except ε α} {f : α → Except ε β} (hx : Raises P x)
    (hf : ∀ a, Raises P (f a)) : Raises P (x >>= f) := by
  intro e h
  cases x with
  | error e' =>
      cases h
      exact hx e rfl
  | ok a => exact hf a e h

theorem foldlM {f : β → α → Except ε β} (hf : ∀ b a, Raises P (f b a)) (l : List α) (acc : β) :
    Raises P (l.foldlM f acc) := by
  induction l generalizing acc with
  | nil => exact ok acc
  | cons a l ih =>
      rw [List.foldlM_cons]
      exact (hf acc a).bind fun b => ih b

end Raises

/-! ## A computation for each element of a list -/

section Each

variable {f g : α → Option β} {l : List α}

theorem mapM_cons_eq_some {a : α} {bs : List β} :
    (a :: l).mapM f = some bs ↔ ∃ b rest, f a = some b ∧ l.mapM f = some rest ∧ bs = b :: rest := by
  rw [List.mapM_cons]
  cases f a with
  | none => simp
  | some b =>
      cases l.mapM f with
      | none => simp
      | some rest => simp [eq_comm]

theorem mapM_isSome : (l.mapM f).isSome = true ↔ ∀ a ∈ l, (f a).isSome = true := by
  induction l with
  | nil => simp
  | cons a l ih =>
      rw [List.forall_mem_cons, ← ih, List.mapM_cons]
      cases f a with
      | none => simp
      | some b => cases l.mapM f <;> simp

theorem mapM_length {bs : List β} (h : l.mapM f = some bs) : bs.length = l.length := by
  induction l generalizing bs with
  | nil =>
      cases h
      rfl
  | cons a l ih =>
      obtain ⟨b, rest, -, hrest, rfl⟩ := mapM_cons_eq_some.mp h
      rw [List.length_cons, List.length_cons, ih hrest]

/-- Where both succeed, they agree on the list exactly when they do on each element. -/
theorem mapM_eq_iff {bs cs : List β} (hf : l.mapM f = some bs) (hg : l.mapM g = some cs) :
    bs = cs ↔ ∀ a ∈ l, f a = g a := by
  induction l generalizing bs cs with
  | nil =>
      cases hf
      cases hg
      simp
  | cons a l ih =>
      obtain ⟨b, bs, hb, hbs, rfl⟩ := mapM_cons_eq_some.mp hf
      obtain ⟨c, cs, hc, hcs, rfl⟩ := mapM_cons_eq_some.mp hg
      rw [List.cons.injEq, List.forall_mem_cons, ih hbs hcs, hb, hc, Option.some.injEq]

theorem mapM_mono (h : ∀ a ∈ l, ∀ b, f a = some b → g a = some b) {bs : List β}
    (hf : l.mapM f = some bs) : l.mapM g = some bs := by
  induction l generalizing bs with
  | nil =>
      cases hf
      rfl
  | cons a l ih =>
      obtain ⟨hfirst, hothers⟩ := List.forall_mem_cons.mp h
      obtain ⟨b, rest, hb, hrest, rfl⟩ := mapM_cons_eq_some.mp hf
      exact mapM_cons_eq_some.mpr ⟨b, rest, hfirst b hb, ih hothers hrest, rfl⟩

theorem mapM_mem {bs : List β} (h : l.mapM f = some bs) {b : β} (hb : b ∈ bs) :
    ∃ a ∈ l, f a = some b := by
  induction l generalizing bs with
  | nil =>
      cases h
      exact absurd hb List.not_mem_nil
  | cons a l ih =>
      obtain ⟨c, rest, hc, hrest, rfl⟩ := mapM_cons_eq_some.mp h
      rcases List.mem_cons.mp hb with rfl | hb
      · exact ⟨a, List.mem_cons_self, hc⟩
      · obtain ⟨a', ha', hfa⟩ := ih hrest hb
        exact ⟨a', List.mem_cons_of_mem a ha', hfa⟩

theorem mem_mapM {bs : List β} (h : l.mapM f = some bs) {a : α} (ha : a ∈ l) :
    ∃ b ∈ bs, f a = some b := by
  induction l generalizing bs with
  | nil => exact absurd ha List.not_mem_nil
  | cons c l ih =>
      obtain ⟨b, rest, hb, hrest, rfl⟩ := mapM_cons_eq_some.mp h
      rcases List.mem_cons.mp ha with rfl | ha
      · exact ⟨b, List.mem_cons_self, hb⟩
      · obtain ⟨b', hb', hfa⟩ := ih hrest ha
        exact ⟨b', List.mem_cons_of_mem b hb', hfa⟩

/-- Where both give the same list, they give the same for each element. -/
theorem mapM_agree {bs : List β} (hf : l.mapM f = some bs) (hg : l.mapM g = some bs) {a : α}
    (ha : a ∈ l) : ∃ b, f a = some b ∧ g a = some b := by
  obtain ⟨b, -, hb⟩ := mem_mapM hf ha
  have hagree := (mapM_eq_iff hf hg).mp rfl a ha
  exact ⟨b, hb, hagree.symm.trans hb⟩

end Each

section EachOk

variable {γ : Type} {f : α → Except ε β} {l : List α}

theorem mapM_cons_eq_ok {a : α} {bs : List β} :
    (a :: l).mapM f = .ok bs ↔ ∃ b rest, f a = .ok b ∧ l.mapM f = .ok rest ∧ bs = b :: rest := by
  rw [List.mapM_cons, bind_eq_ok]
  apply exists_congr
  intro b
  rw [bind_eq_ok]
  constructor
  · rintro ⟨hb, rest, hrest, heq⟩
    cases heq
    exact ⟨rest, hb, hrest, rfl⟩
  · rintro ⟨rest, hb, hrest, rfl⟩
    exact ⟨hb, rest, hrest, rfl⟩

theorem mapM_ok_length {bs : List β} (h : l.mapM f = .ok bs) : bs.length = l.length := by
  induction l generalizing bs with
  | nil =>
      cases h
      rfl
  | cons a l ih =>
      obtain ⟨b, rest, -, hrest, rfl⟩ := mapM_cons_eq_ok.mp h
      rw [List.length_cons, List.length_cons, ih hrest]

/-- A fold whose rounds compute first and then accumulate. -/
theorem foldlM_of_mapM {g : γ → β → γ} {bs : List β} (h : l.mapM f = .ok bs) (acc : γ) :
    (l.foldlM (fun acc a => do
      let b ← f a
      .ok (g acc b)) acc) = .ok (bs.foldl g acc) := by
  induction l generalizing bs acc with
  | nil =>
      cases h
      rfl
  | cons a l ih =>
      obtain ⟨b, rest, hb, hrest, rfl⟩ := mapM_cons_eq_ok.mp h
      rw [List.foldlM_cons, hb]
      exact ih hrest (g acc b)

theorem mem_mapM_ok {bs : List β} (h : l.mapM f = .ok bs) (b : β) :
    b ∈ bs ↔ ∃ a ∈ l, f a = .ok b := by
  induction l generalizing bs with
  | nil =>
      cases h
      simp
  | cons a l ih =>
      obtain ⟨c, rest, hc, hrest, rfl⟩ := mapM_cons_eq_ok.mp h
      rw [List.mem_cons, ih hrest, List.exists_mem_cons_iff, hc, Except.ok.injEq, eq_comm]

theorem exists_mapM_ok : (∃ bs, l.mapM f = .ok bs) ↔ ∀ a ∈ l, ∃ b, f a = .ok b := by
  induction l with
  | nil => exact iff_of_true ⟨[], rfl⟩ (List.forall_mem_nil _)
  | cons a l ih =>
      rw [List.forall_mem_cons, ← ih]
      constructor
      · rintro ⟨bs, h⟩
        obtain ⟨b, rest, hb, hrest, -⟩ := mapM_cons_eq_ok.mp h
        exact ⟨⟨b, hb⟩, rest, hrest⟩
      · rintro ⟨⟨b, hb⟩, rest, hrest⟩
        exact ⟨b :: rest, mapM_cons_eq_ok.mpr ⟨b, rest, hb, hrest, rfl⟩⟩

theorem mapM_cons_eq_error {a : α} {e : ε} :
    (a :: l).mapM f = .error e ↔
      f a = .error e ∨ (∃ b, f a = .ok b) ∧ l.mapM f = .error e := by
  rw [List.mapM_cons]
  cases f a with
  | error e' =>
      show (Except.error e' : Except ε (List β)) = .error e ↔ _
      simp
  | ok b =>
      show (l.mapM f >>= fun bs => pure (b :: bs)) = .error e ↔ _
      cases l.mapM f with
      | error e' => simp
      | ok bs => exact iff_of_false (fun h => by cases h) (by simp)

/-- The first computation that raises decides which exception it is. -/
theorem mapM_eq_error {e : ε} :
    l.mapM f = .error e ↔ ∃ before a after, l = before ++ a :: after ∧
      (∀ b ∈ before, ∃ c, f b = .ok c) ∧ f a = .error e := by
  induction l with
  | nil =>
      refine iff_of_false (fun h => by cases h) ?_
      rintro ⟨before, a, after, hnil, -⟩
      exact absurd hnil.symm (List.append_ne_nil_of_right_ne_nil _ (List.cons_ne_nil _ _))
  | cons a l ih =>
      rw [mapM_cons_eq_error, ih]
      constructor
      · rintro (ha | ⟨hok, before, b, after, rfl, hbefore, hb⟩)
        · exact ⟨[], a, l, rfl, List.forall_mem_nil _, ha⟩
        · exact ⟨a :: before, b, after, rfl, List.forall_mem_cons.mpr ⟨hok, hbefore⟩, hb⟩
      · rintro ⟨before, b, after, heq, hbefore, hb⟩
        cases before with
        | nil =>
            cases heq
            exact .inl hb
        | cons first before =>
            cases heq
            obtain ⟨hfirst, hothers⟩ := List.forall_mem_cons.mp hbefore
            exact .inr ⟨hfirst, before, b, after, rfl, hothers, hb⟩

theorem mapM_ok_mono {g : α → Except ε β} (h : ∀ a ∈ l, ∀ b, f a = .ok b → g a = .ok b)
    {bs : List β} (hf : l.mapM f = .ok bs) : l.mapM g = .ok bs := by
  induction l generalizing bs with
  | nil =>
      cases hf
      rfl
  | cons a l ih =>
      obtain ⟨hfirst, hothers⟩ := List.forall_mem_cons.mp h
      obtain ⟨b, rest, hb, hrest, rfl⟩ := mapM_cons_eq_ok.mp hf
      exact mapM_cons_eq_ok.mpr ⟨b, rest, hfirst b hb, ih hothers hrest, rfl⟩

/-- Where each computation is good or raises for a known reason, so do all of them
together. -/
theorem mapM_ok_or_error {P : α → Prop} {Q : α → ε → Prop}
    (h : ∀ a ∈ l, (∃ b, f a = .ok b ∧ P a) ∨ ∃ e, f a = .error e ∧ Q a e) :
    (∃ bs, l.mapM f = .ok bs ∧ ∀ a ∈ l, P a) ∨ ∃ e, l.mapM f = .error e ∧ ∃ a ∈ l, Q a e := by
  induction l with
  | nil => exact .inl ⟨[], rfl, List.forall_mem_nil _⟩
  | cons a l ih =>
      obtain ⟨hfirst, hothers⟩ := List.forall_mem_cons.mp h
      rcases hfirst with ⟨b, hb, hgood⟩ | ⟨e, he, hbad⟩
      · rcases ih hothers with ⟨bs, hbs, hall⟩ | ⟨e, he, c, hc, hbad⟩
        · exact .inl ⟨b :: bs, mapM_cons_eq_ok.mpr ⟨b, bs, hb, hbs, rfl⟩,
            List.forall_mem_cons.mpr ⟨hgood, hall⟩⟩
        · right
          refine ⟨e, ?_, c, List.mem_cons_of_mem _ hc, hbad⟩
          rw [List.mapM_cons, hb]
          show (l.mapM f >>= fun bs => pure (b :: bs)) = _
          rw [he]
          rfl
      · right
        refine ⟨e, ?_, a, List.mem_cons_self, hbad⟩
        rw [List.mapM_cons, he]
        rfl

end EachOk

end Lour.Lib
