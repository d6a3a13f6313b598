import Lour.Lib.JsonReader
/-!
# Inside and outside of literals

Outside of a string literal a JSON text has no backslash and no two colons in a row.  A text
that is read from inside a literal and one that is read from outside change places at every
quote, so no text begins again behind two colons in another.
-/

namespace Lour.Lib.Python.Json

namespace Reader

variable {r r' s s' : Reader} {c : Char} {cs : List Char} {x : Json} {stack : List Frame}

/-- In no string literal. -/
def Outside : Reader → Prop
  | .text _ _ _ _ => False
  | _ => True

/-- In a string literal, between two characters. -/
def Inside : Reader → Prop
  | .text _ _ .plain _ => True
  | _ => False

theorem not_inside_of_outside (h : Outside r) : ¬ Inside r := by
  cases r with
  | text target cs escape stack => exact h.elim
  | _ => exact id

theorem ne_of_isGap (h : isGap c = true) : c ≠ '"' ∧ c ≠ '\\' ∧ c ≠ ':' := by
  refine ⟨?_, ?_, ?_⟩ <;> rintro rfl <;> cases h

theorem ne_of_isTokenChar (h : isTokenChar c = true) : c ≠ '"' ∧ c ≠ '\\' ∧ c ≠ ':' := by
  refine ⟨?_, ?_, ?_⟩ <;> rintro rfl <;> cases h

theorem outside_stepAfter (h : stepAfter x stack c = some s) :
    c ≠ '"' ∧ c ≠ '\\' ∧ c ≠ ':' ∧ Outside s := by
  unfold stepAfter at h
  split at h
  next hgap =>
      cases h
      obtain ⟨hquote, hbackslash, hcolon⟩ := ne_of_isGap hgap
      exact ⟨hquote, hbackslash, hcolon, trivial⟩
  next =>
      split at h
      · cases h
        exact ⟨by decide, by decide, by decide, trivial⟩
      · cases h
        exact ⟨by decide, by decide, by decide, trivial⟩
      · cases h
        exact ⟨by decide, by decide, by decide, trivial⟩
      · cases h
        exact ⟨by decide, by decide, by decide, trivial⟩
      · cases h

theorem outside_stepValue (h : stepValue stack c = some s) :
    c ≠ '\\' ∧ c ≠ ':' ∧ (c = '"' ∧ Inside s ∨ c ≠ '"' ∧ Outside s) := by
  unfold stepValue at h
  split at h
  next hgap =>
      cases h
      obtain ⟨hquote, hbackslash, hcolon⟩ := ne_of_isGap hgap
      exact ⟨hbackslash, hcolon, .inr ⟨hquote, trivial⟩⟩
  next =>
  split at h
  next hbrace =>
      cases h
      subst hbrace
      exact ⟨by decide, by decide, .inr ⟨by decide, trivial⟩⟩
  next =>
  split at h
  next hbracket =>
      cases h
      subst hbracket
      exact ⟨by decide, by decide, .inr ⟨by decide, trivial⟩⟩
  next =>
  split at h
  next hquote =>
      cases h
      subst hquote
      exact ⟨by decide, by decide, .inl ⟨rfl, trivial⟩⟩
  next =>
  split at h
  next hclose =>
      subst hclose
      split at h
      · cases h
        exact ⟨by decide, by decide, .inr ⟨by decide, trivial⟩⟩
      · cases h
  next =>
  split at h
  next htoken =>
      cases h
      obtain ⟨hquote, hbackslash, hcolon⟩ := ne_of_isTokenChar htoken
      exact ⟨hbackslash, hcolon, .inr ⟨hquote, trivial⟩⟩
  next => cases h

theorem outside_member {d : Dict} (hs : (Reader.member d stack).step c = some s) :
    c ≠ '\\' ∧ (c = '"' ∧ Inside s ∨ c ≠ '"' ∧ Outside s) := by
  rw [Reader.step] at hs
  split at hs
  next hgap =>
      cases hs
      obtain ⟨hquote, hbackslash, -⟩ := ne_of_isGap hgap
      exact ⟨hbackslash, .inr ⟨hquote, trivial⟩⟩
  next =>
  split at hs
  next hquote =>
      cases hs
      subst hquote
      exact ⟨by decide, .inl ⟨rfl, trivial⟩⟩
  next hquote =>
  split at hs
  next hbrace =>
      cases hs
      rw [Bool.and_eq_true, decide_eq_true_iff] at hbrace
      exact ⟨by rw [hbrace.1]; decide, .inr ⟨hquote, trivial⟩⟩
  next => cases hs

theorem outside_colon {d : Dict} {key : String}
    (hs : (Reader.colon d key stack).step c = some s) :
    c ≠ '"' ∧ c ≠ '\\' ∧ Outside s := by
  rw [Reader.step] at hs
  split at hs
  next hgap =>
      cases hs
      obtain ⟨hquote, hbackslash, -⟩ := ne_of_isGap hgap
      exact ⟨hquote, hbackslash, trivial⟩
  next =>
  split at hs
  next hcolon =>
      cases hs
      subst hcolon
      exact ⟨by decide, by decide, trivial⟩
  next => cases hs

theorem outside_token (hs : (Reader.token cs stack).step c = some s) :
    c ≠ '"' ∧ c ≠ '\\' ∧ Outside s := by
  rw [Reader.step] at hs
  split at hs
  next htoken =>
      cases hs
      obtain ⟨hquote, hbackslash, -⟩ := ne_of_isTokenChar htoken
      exact ⟨hquote, hbackslash, trivial⟩
  next =>
      obtain ⟨x, -, hafter⟩ := Option.bind_eq_some_iff.mp hs
      obtain ⟨hquote, hbackslash, -, hnext⟩ := outside_stepAfter hafter
      exact ⟨hquote, hbackslash, hnext⟩

/-- Outside of a literal there is no backslash, and a quote opens a literal. -/
theorem Outside.step (h : Outside r) (hs : r.step c = some s) :
    c ≠ '\\' ∧ (c = '"' ∧ Inside s ∨ c ≠ '"' ∧ Outside s) := by
  cases r with
  | value stack =>
      obtain ⟨hbackslash, -, hnext⟩ := outside_stepValue hs
      exact ⟨hbackslash, hnext⟩
  | member d stack => exact outside_member hs
  | colon d key stack =>
      obtain ⟨hquote, hbackslash, hnext⟩ := outside_colon hs
      exact ⟨hbackslash, .inr ⟨hquote, hnext⟩⟩
  | text target cs escape stack => exact h.elim
  | token cs stack =>
      obtain ⟨hquote, hbackslash, hnext⟩ := outside_token hs
      exact ⟨hbackslash, .inr ⟨hquote, hnext⟩⟩
  | after x stack =>
      obtain ⟨hquote, hbackslash, -, hnext⟩ := outside_stepAfter hs
      exact ⟨hbackslash, .inr ⟨hquote, hnext⟩⟩

/-- Without a backslash a literal goes on up to the next quote. -/
theorem Inside.step (h : Inside r) (hc : c ≠ '\\') (hs : r.step c = some s) :
    c = '"' ∧ Outside s ∨ c ≠ '"' ∧ Inside s := by
  cases r with
  | text target cs escape stack =>
      cases escape with
      | plain =>
          rw [Reader.step, stepText] at hs
          split at hs
          next hquote =>
              cases hs
              left
              cases target <;> exact ⟨hquote, trivial⟩
          next hquote =>
              split at hs
              · cases hs
              · cases hs
                exact .inr ⟨hquote, trivial⟩
      | _ => exact h.elim
  | _ => exact h.elim

/-! ## Two readers of one text -/

/-- One reader is in a literal where the other is not. -/
def Opposite (r r' : Reader) : Prop := Outside r ∧ Inside r' ∨ Inside r ∧ Outside r'

theorem Opposite.symm (h : Opposite r r') : Opposite r' r := by
  rcases h with ⟨hout, hin⟩ | ⟨hin, hout⟩
  · exact .inr ⟨hin, hout⟩
  · exact .inl ⟨hout, hin⟩

/-- At a quote the two change places. -/
theorem Opposite.step (h : Opposite r r') (hs : r.step c = some s) (hs' : r'.step c = some s') :
    Opposite s s' := by
  have hswap : ∀ {r r' s s' : Reader}, Outside r → Inside r' → r.step c = some s →
      r'.step c = some s' → Opposite s s' := by
    intro r r' s s' hout hin hs hs'
    obtain ⟨hbackslash, hnext⟩ := hout.step hs
    rcases hnext with ⟨hquote, hs⟩ | ⟨hquote, hs⟩
    · rcases hin.step hbackslash hs' with ⟨-, hs'⟩ | ⟨hne, -⟩
      · exact .inr ⟨hs, hs'⟩
      · exact absurd hquote hne
    · rcases hin.step hbackslash hs' with ⟨heq, -⟩ | ⟨-, hs'⟩
      · exact absurd heq hquote
      · exact .inl ⟨hs, hs'⟩
  rcases h with ⟨hout, hin⟩ | ⟨hin, hout⟩
  · exact hswap hout hin hs hs'
  · exact (hswap hout hin hs' hs).symm

theorem Opposite.reads (h : Opposite r r') (hs : Reads r cs s) (hs' : Reads r' cs s') :
    Opposite s s' := by
  induction cs generalizing r r' with
  | nil =>
      cases hs
      cases hs'
      exact h
  | cons c cs ih =>
      rw [Reads, List.foldlM_cons] at hs hs'
      obtain ⟨q, hq, hrest⟩ := Option.bind_eq_some_iff.mp hs
      obtain ⟨q', hq', hrest'⟩ := Option.bind_eq_some_iff.mp hs'
      exact ih (h.step hq hq') hrest hrest'

theorem Ended.outside (h : Ended x stack r) : Outside r := by
  rcases h with rfl | ⟨cs, rfl, -⟩
  · trivial
  · trivial

/-! ## Two colons in a row -/

theorem inside_of_colon {target : Target} {escape : Escape}
    (hs : (Reader.text target cs escape stack).step ':' = some s) : Inside s := by
  cases escape with
  | plain =>
      cases hs
      trivial
  | escaped high => cases high <;> cases hs
  | hex high left n => cases hs
  | paired high => cases hs

/-- Only a literal goes on with a second colon. -/
theorem inside_of_colons (hs : r.step ':' = some r') (hs' : r'.step ':' = some s) : Inside s := by
  cases r with
  | value stack => exact absurd rfl (outside_stepValue hs).2.1
  | member d stack => cases hs
  | colon d key stack =>
      cases hs
      exact absurd rfl (outside_stepValue hs').2.1
  | text target cs escape stack =>
      have hin : Inside r' := inside_of_colon hs
      rcases hin.step (by decide) hs' with ⟨hquote, -⟩ | ⟨-, hnext⟩
      · exact absurd hquote (by decide)
      · exact hnext
  | token cs stack =>
      obtain ⟨x, -, hafter⟩ := Option.bind_eq_some_iff.mp hs
      exact absurd rfl (outside_stepAfter hafter).2.2.1
  | after x stack => exact absurd rfl (outside_stepAfter hs).2.2.1

end Reader

variable {escape : Char → List Char} {x y : Json}

/-- No text begins again behind two colons in another. -/
theorem dumpsWith_ne_behind_colons (hescape : Reader.Restores escape) (hx : x.WellFormed)
    (hy : y.WellFormed) (before : List Char) :
    (dumpsWith escape y).toList ≠ before ++ ':' :: ':' :: (dumpsWith escape x).toList := by
  intro htext
  obtain ⟨r, hread, hended⟩ := Reader.reads_dumps hescape x hx []
  obtain ⟨r', hread', hended'⟩ := Reader.reads_dumps hescape y hy []
  rw [htext] at hread'
  obtain ⟨p, -, hcolons⟩ := Reader.Reads.split hread'
  rw [Reader.Reads, List.foldlM_cons] at hcolons
  obtain ⟨q, hp, hcolon⟩ := Option.bind_eq_some_iff.mp hcolons
  rw [List.foldlM_cons] at hcolon
  obtain ⟨s, hq, hrest⟩ := Option.bind_eq_some_iff.mp hcolon
  -- the text is read from outside of literals and from inside of one, to the same end
  have hopposite : Reader.Opposite (.value []) s := .inl ⟨trivial, Reader.inside_of_colons hp hq⟩
  rcases hopposite.reads hread hrest with ⟨-, hin⟩ | ⟨hin, -⟩
  · exact Reader.not_inside_of_outside hended'.outside hin
  · exact Reader.not_inside_of_outside hended.outside hin

theorem dumpsWith_ne_colon_cons (hescape : Reader.Restores escape) (hx : x.WellFormed)
    (rest : List Char) : (dumpsWith escape x).toList ≠ ':' :: rest := by
  intro htext
  obtain ⟨r, hread, -⟩ := Reader.reads_dumps hescape x hx []
  rw [htext, Reader.Reads, List.foldlM_cons] at hread
  obtain ⟨s, hstep, -⟩ := Option.bind_eq_some_iff.mp hread
  exact absurd rfl (Reader.outside_stepValue hstep).2.1

/-- Where two colons and a value's text stand behind two texts alike, the one is not longer. -/
theorem eq_nil_of_colons (hescape : Reader.Restores escape) (hx : x.WellFormed)
    (hy : y.WellFormed) {a : List Char}
    (h : ':' :: ':' :: (dumpsWith escape x).toList =
      a ++ ':' :: ':' :: (dumpsWith escape y).toList) : a = [] := by
  match a, h with
  | [], _ => rfl
  | [d], h =>
      have htext : (dumpsWith escape x).toList = ':' :: (dumpsWith escape y).toList :=
        (List.cons.inj (List.cons.inj h).2).2
      exact absurd htext (dumpsWith_ne_colon_cons hescape hx _)
  | d :: e :: a, h =>
      have htext : (dumpsWith escape x).toList =
          a ++ ':' :: ':' :: (dumpsWith escape y).toList :=
        (List.cons.inj (List.cons.inj h).2).2
      exact absurd htext (dumpsWith_ne_behind_colons hescape hy hx a)

/-- Whatever stands before the two colons, the whole has one reading. -/
theorem append_colons_inj (hescape : Reader.Restores escape) (hx : x.WellFormed)
    (hy : y.WellFormed) {p q : List Char}
    (h : p ++ ':' :: ':' :: (dumpsWith escape x).toList =
      q ++ ':' :: ':' :: (dumpsWith escape y).toList) :
    p = q ∧ dumpsWith escape x = dumpsWith escape y := by
  have hpq : p = q := by
    rcases List.append_eq_append_iff.mp h with ⟨a, hq, ha⟩ | ⟨a, hp, ha⟩
    · rw [hq, eq_nil_of_colons hescape hx hy ha, List.append_nil]
    · rw [hp, eq_nil_of_colons hescape hy hx ha, List.append_nil]
  subst hpq
  refine ⟨rfl, ?_⟩
  apply String.toList_injective
  exact (List.cons.inj (List.cons.inj ((List.append_right_inj p).mp h)).2).2

end Lour.Lib.Python.Json
