import Lour.Lib.Interleaving
import Lour.Memory.Lineage
/-!
# Appends to one session at the same time

Redis takes the commands of several appends in any order.  Between `LLEN` and `LPOP`
another append may pop, and between `GET` and `SET` another one may store its summary.
-/

namespace Lour.Memory

open Lour.Lib Lour.Lib.Python

/-- The appends of several callers to one session, step by step. -/
def concurrentSystem (self : ShortTermMemory) (sessionId : String) :
    System (Shared Session Pending) (ℕ × Collaborators) Empty :=
  interleaving fun session append env =>
    let (append, session) := self.advance sessionId env append session
    some (session, append)

/-- The callers are about to append their turns to a session. -/
def Session.appending (redis : Redis) (initial turns : List ConversationTurn) :
    Shared Session Pending :=
  ⟨Session.start redis initial, turns.map fun turn => ⟨.rpush turn, [], []⟩⟩

def Finished (shared : Shared Session Pending) : Prop :=
  ∀ append ∈ shared.parties, append.phase.isReturned = true

instance : DecidablePred Finished := fun shared =>
  inferInstanceAs (Decidable (∀ append ∈ shared.parties, append.phase.isReturned = true))

/-- The step finds what the append relies on: the turns that `LLEN` counted are
still there, the summary that `GET` read is still the stored one, and the summariser
answers something. -/
def Undisturbed (self : ShortTermMemory) (sessionId : String) (shared : Shared Session Pending)
    (label : ℕ × Collaborators) : Prop :=
  ∀ append, shared.parties[label.1]? = some append →
    match append.phase with
    | .lpop overflow => self.window + overflow ≤ shared.state.redis.llen (msgsKey sessionId)
    | .chat evicted prior => isBlank (label.2.chat (summaryPrompt evicted prior)) = false
    | .set _ => shared.state.ledger.lineage <+: append.lineage
    | _ => True

/-- The window holds the turns pushed last, and the stored summary comes from calls
that were given all the others. -/
structure ContextKept (memory : ShortTermMemory) (sessionId : String) (summary : Option String)
    (turns : List ConversationTurn) (session : Session) : Prop where
  pushed : (session.ledger.pushed.map Entry.turn).Perm turns
  window : memory.getWindow sessionId session.redis =
    some ((session.ledger.pushed.map Entry.turn).rtake memory.window)
  incorporated : ∀ entry ∈ session.ledger.pushed.take (turns.length - memory.window),
    entry ∈ session.ledger.lineage.entries
  stored : ShortTermMemory.getSummary sessionId session.redis =
    latest summary session.ledger.lineage.calls
  informed : Informed summary session.ledger.lineage.calls

section

variable {self : ShortTermMemory} {sessionId : String} {initial : Option String}
  {env : Collaborators} {size : ℕ} {append append' : Pending} {ledger ledger' : Ledger}

/-- The turn that the append has still to push. -/
def Pending.unpushed (self : Pending) : Option ConversationTurn :=
  match self.phase with
  | .rpush turn => some turn
  | _ => none

/-- The append will still bring a window of this length down to the size. -/
def Pending.Trims (self : Pending) (size length : ℕ) : Prop :=
  match self.phase with
  | .rpush _ | .expire | .llen => True
  | .lpop overflow => length ≤ size + overflow
  | _ => False

/-- The append has popped turns and not yet stored a summary. -/
def Pending.Carries (self : Pending) : Prop :=
  match self.phase with
  | .get _ | .chat _ _ | .set _ => True
  | _ => False

/-- The entry is among what some append has popped and not yet stored a summary of. -/
def Carried (appends : List Pending) (entry : Entry) : Prop :=
  ∃ append ∈ appends, append.Carries ∧ entry ∈ append.batch

/-- What holds as long as no step was disturbed and no call has raised. -/
structure Kept (size : ℕ) (turns : List ConversationTurn) (ledger : Ledger)
    (appends : List Pending) : Prop where
  pushed : (ledger.pushed.map Entry.turn ++ appends.filterMap Pending.unpushed).Perm turns
  enough : ledger.window = ledger.pushed ∨ size ≤ ledger.window.length
  fits : ledger.window.length ≤ size ∨
    ∃ append ∈ appends, append.Trims size ledger.window.length
  carried : ∀ entry ∈ ledger.pushed, entry ∈ ledger.window ∨
    entry ∈ ledger.lineage.entries ∨ Carried appends entry



/-- What an undisturbed step of one append finds in the record. -/
def Pending.Undisturbed (self : Pending) (size : ℕ) (env : Collaborators) (ledger : Ledger) :
    Prop :=
  match self.phase with
  | .lpop overflow => size + overflow ≤ ledger.window.length
  | .chat evicted prior => isBlank (env.chat (summaryPrompt evicted prior)) = false
  | .set _ => ledger.lineage <+: self.lineage
  | _ => True

variable {left right : List Pending} {turns : List ConversationTurn}

/-! ## One step, field by field -/

theorem Pending.Trims.mono {append : Pending} {length length' : ℕ} (hle : length' ≤ length)
    (h : append.Trims size length) : append.Trims size length' := by
  obtain ⟨phase, batch, lineage⟩ := append
  cases phase with
  | lpop overflow => exact le_trans hle h
  | _ => exact h

theorem Move.pushed (hmove : Move size initial env append ledger append' ledger')
    (hgoes : append'.phase ≠ .raised)
    (h : (ledger.pushed.map Entry.turn ++
      (left ++ append :: right).filterMap Pending.unpushed).Perm turns) :
    (ledger'.pushed.map Entry.turn ++
      (left ++ append' :: right).filterMap Pending.unpushed).Perm turns := by
  cases hmove with
  | raises hraises => exact absurd rfl hgoes
  | @rpush turn batch lineage hreturns =>
      refine List.Perm.trans ?_ h
      rw [List.filterMap_append, List.filterMap_append]
      change ((ledger.pushed ++ [(⟨ledger.pushed.length, turn⟩ : Entry)]).map Entry.turn ++
        (left.filterMap Pending.unpushed ++ right.filterMap Pending.unpushed)).Perm
          (ledger.pushed.map Entry.turn ++
            (left.filterMap Pending.unpushed ++ turn :: right.filterMap Pending.unpushed))
      rw [List.map_append, List.append_assoc, List.map_singleton, List.singleton_append]
      apply List.Perm.append_left
      exact List.perm_middle.symm
  | idle hidle => exact h
  | _ =>
      rw [List.filterMap_append] at h ⊢
      exact h

theorem Move.enough (hmove : Move size initial env append ledger append' ledger')
    (hundisturbed : append.Undisturbed size env ledger)
    (h : ledger.window = ledger.pushed ∨ size ≤ ledger.window.length) :
    ledger'.window = ledger'.pushed ∨ size ≤ ledger'.window.length := by
  cases hmove with
  | @rpush turn batch lineage hreturns =>
      rcases h with hall | hsize
      · left
        rw [Ledger.push, hall]
      · right
        rw [Ledger.push, List.length_append]
        omega
  | @lpop overflow batch lineage hreturns hpopped =>
      right
      have hlength : size + overflow ≤ ledger.window.length := hundisturbed
      rw [Ledger.pop, List.length_drop]
      omega
  | @nothing overflow batch lineage hreturns hempty =>
      right
      have hlength : size + overflow ≤ ledger.window.length := hundisturbed
      rw [Ledger.pop, List.length_drop]
      omega
  | _ => exact h

/-- What another append pops makes the window only shorter. -/
theorem fits_pop {overflow : ℕ} {batch : List Entry} {lineage : Lineage}
    (h : ledger.window.length ≤ size ∨
      ∃ other ∈ left ++ ⟨.lpop overflow, batch, lineage⟩ :: right,
        other.Trims size ledger.window.length) :
    (ledger.pop overflow).window.length ≤ size ∨
      ∃ other ∈ left ++ append' :: right, other.Trims size (ledger.pop overflow).window.length := by
  have hlength : (ledger.pop overflow).window.length = ledger.window.length - overflow := by
    rw [Ledger.pop, List.length_drop]
  rw [hlength]
  rcases h with hfits | ⟨other, hother, htrims⟩
  · left
    omega
  · rcases mem_moved hother with rfl | hother
    · left
      have hle : ledger.window.length ≤ size + overflow := htrims
      omega
    · right
      exact ⟨other, hother, htrims.mono (Nat.sub_le ..)⟩

theorem Move.trimmed (hmove : Move size initial env append ledger append' ledger')
    (hgoes : append'.phase ≠ .raised)
    (h : ledger.window.length ≤ size ∨
      ∃ other ∈ left ++ append :: right, other.Trims size ledger.window.length) :
    ledger'.window.length ≤ size ∨
      ∃ other ∈ left ++ append' :: right, other.Trims size ledger'.window.length := by
  have hself := mem_moved_self left right append'
  cases hmove with
  | raises hraises => exact absurd rfl hgoes
  | rpush hreturns => exact .inr ⟨_, hself, trivial⟩
  | expire hreturns => exact .inr ⟨_, hself, trivial⟩
  | fits hreturns hfits => exact .inl hfits
  | overflows hreturns hover =>
      right
      refine ⟨_, hself, ?_⟩
      change ledger.window.length ≤ size + (ledger.window.length - size)
      omega
  | idle hidle => exact h
  | @lpop overflow batch lineage hreturns hpopped => exact fits_pop h
  | @nothing overflow batch lineage hreturns hempty => exact fits_pop h
  | _ =>
      -- the step is none that trims, and the window stays as it is
      apply h.imp_right
      rintro ⟨other, hother, htrims⟩
      refine ⟨other, (mem_moved hother).resolve_left ?_, htrims⟩
      rintro rfl
      exact htrims

theorem Carried.moved {entry : Entry} (h : Carried (left ++ append :: right) entry)
    (hkeeps : append.Carries → append'.Carries ∧ append'.batch = append.batch) :
    Carried (left ++ append' :: right) entry := by
  obtain ⟨other, hother, hcarries, hbatch⟩ := h
  rcases mem_moved hother with rfl | hother
  · obtain ⟨hcarries', hsame⟩ := hkeeps hcarries
    exact ⟨append', mem_moved_self left right append', hcarries', hsame ▸ hbatch⟩
  · exact ⟨other, hother, hcarries, hbatch⟩

theorem Move.carried (hmove : Move size initial env append ledger append' ledger')
    (hcoherent : Coherent initial append) (hgoes : append'.phase ≠ .raised)
    (hundisturbed : append.Undisturbed size env ledger)
    (h : ∀ entry ∈ ledger.pushed, entry ∈ ledger.window ∨ entry ∈ ledger.lineage.entries ∨
      Carried (left ++ append :: right) entry) :
    ∀ entry ∈ ledger'.pushed, entry ∈ ledger'.window ∨ entry ∈ ledger'.lineage.entries ∨
      Carried (left ++ append' :: right) entry := by
  cases hmove with
  | raises hraises => exact absurd rfl hgoes
  | @rpush turn batch lineage hreturns =>
      intro entry hentry
      rw [Ledger.push, List.mem_append] at hentry
      rcases hentry with hbefore | hnew
      · rcases h entry hbefore with hwindow | hlineage | hcarried
        · exact .inl (List.mem_append_left _ hwindow)
        · exact .inr (.inl hlineage)
        · exact .inr (.inr (hcarried.moved False.elim))
      · exact .inl (List.mem_append_right _ hnew)
  | @lpop overflow batch lineage hreturns hpopped =>
      intro entry hentry
      rcases h entry hentry with hwindow | hlineage | hcarried
      · rw [← List.take_append_drop overflow ledger.window, List.mem_append] at hwindow
        rcases hwindow with htaken | hleft
        · exact .inr (.inr ⟨_, mem_moved_self .., trivial, htaken⟩)
        · exact .inl hleft
      · exact .inr (.inl hlineage)
      · exact .inr (.inr (hcarried.moved False.elim))
  | @nothing overflow batch lineage _ hreturns hempty =>
      intro entry hentry
      rcases h entry hentry with hwindow | hlineage | hcarried
      · rw [← List.take_append_drop overflow ledger.window, hempty, List.nil_append] at hwindow
        exact .inl hwindow
      · exact .inr (.inl hlineage)
      · exact .inr (.inr (hcarried.moved False.elim))
  | @set summary batch lineage hreturns =>
      obtain ⟨-, -, hfolded⟩ := hcoherent
      obtain ⟨added, hadded⟩ : ledger.lineage <+: lineage := hundisturbed
      intro entry hentry
      rcases h entry hentry with hwindow | hlineage | ⟨other, hother, hcarries, hbatch⟩
      · exact .inl hwindow
      · refine .inr (.inl ?_)
        rw [← hadded, entries_append]
        exact List.mem_append_left _ hlineage
      · right
        rcases mem_moved hother with rfl | hother
        · exact .inl (hfolded entry hbatch)
        · exact .inr ⟨other, hother, hcarries, hbatch⟩
  | @blank evicted prior batch lineage _ hreturns hblank =>
      have hanswers : isBlank (env.chat (summaryPrompt evicted prior)) = false := hundisturbed
      rw [(strip_eq_empty_iff _).mp hblank] at hanswers
      cases hanswers
  | idle hidle => exact h
  | get | chat =>
      intro entry hentry
      apply (h entry hentry).imp_right
      apply Or.imp_right
      intro hcarried
      exact hcarried.moved fun _ => ⟨trivial, rfl⟩
  | expire | fits | overflows =>
      intro entry hentry
      apply (h entry hentry).imp_right
      apply Or.imp_right
      intro hcarried
      exact hcarried.moved False.elim

theorem Move.kept (hmove : Move size initial env append ledger append' ledger')
    (hcoherent : Coherent initial append) (hgoes : append'.phase ≠ .raised)
    (hundisturbed : append.Undisturbed size env ledger)
    (h : Kept size turns ledger (left ++ append :: right)) :
    Kept size turns ledger' (left ++ append' :: right) where
  pushed := hmove.pushed hgoes h.pushed
  enough := hmove.enough hundisturbed h.enough
  fits := hmove.trimmed hgoes h.fits
  carried := hmove.carried hcoherent hgoes hundisturbed h.carried

/-! ## Whole interleavings -/

/-- The record is right about the session and every append; and either a call has
raised or nothing is lost. -/
structure Sound (memory : ShortTermMemory) (sessionId : String) (summary : Option String)
    (turns : List ConversationTurn) (shared : Shared Session Pending) : Prop where
  tracked : Tracked memory sessionId summary shared.state
  coherent : ∀ append ∈ shared.parties, Coherent summary append
  kept : (∃ append ∈ shared.parties, append.phase = .raised) ∨
    Kept memory.window turns shared.state.ledger shared.parties

theorem Move.raised (hmove : Move size initial env append ledger append' ledger')
    (hraised : append.phase = .raised) : append'.phase = .raised := by
  cases hmove with
  | raises => rfl
  | idle => exact hraised
  | _ => cases hraised

theorem Sound.step {summary : Option String} {shared after : Shared Session Pending}
    {label : ℕ × Collaborators} {out : List Empty}
    (h : Sound self sessionId summary turns shared)
    (hundisturbed : Undisturbed self sessionId shared label)
    (hstep : (concurrentSystem self sessionId).step shared label = some (after, out)) :
    Sound self sessionId summary turns after := by
  obtain ⟨left, append, right, session, append', hsplit, hlength, hmoved, rfl⟩ :=
    interleaving_step hstep
  have hadvance : self.advance sessionId label.2 append shared.state = (append', session) := by
    have heq := Option.some.inj hmoved
    exact Prod.ext (Prod.mk.inj heq).2 (Prod.mk.inj heq).1
  have hmember : append ∈ shared.parties := by
    rw [hsplit]
    exact mem_moved_self left right append
  have hcoherent := h.coherent append hmember
  have hmove := advance_moves label.2 append h.tracked
  have htracked := advance_tracked label.2 h.tracked hcoherent
  rw [hadvance] at hmove htracked
  dsimp only at hmove htracked
  refine ⟨htracked, ?_, ?_⟩
  · intro other hother
    rcases mem_moved hother with rfl | hbefore
    · exact hmove.coherent h.tracked.informed hcoherent
    · exact h.coherent other (hsplit ▸ hbefore)
  · by_cases hgoes : append'.phase = .raised
    · exact .inl ⟨append', mem_moved_self left right append', hgoes⟩
    · rcases h.kept with ⟨other, hother, hraised⟩ | hkept
      · left
        rw [hsplit] at hother
        rcases mem_moved hother with rfl | hother
        · exact absurd (hmove.raised hraised) hgoes
        · exact ⟨other, hother, hraised⟩
      · right
        rw [hsplit] at hkept
        apply hmove.kept hcoherent hgoes _ hkept
        have hfinds := hundisturbed append (by rw [hsplit, ← hlength]; simp)
        obtain ⟨phase, batch, lineage⟩ := append
        cases phase with
        | lpop overflow =>
            rw [h.tracked.llen] at hfinds
            exact hfinds
        | _ => exact hfinds

/-- In a finished state nothing of the context is lost. -/
theorem Sound.contextKept {summary : Option String} {shared : Shared Session Pending}
    (h : Sound self sessionId summary turns shared) (hfinished : Finished shared) :
    ContextKept self sessionId summary turns shared.state := by
  have hreturned : ∀ append ∈ shared.parties, append.phase = .returned :=
    fun append happend => isReturned_iff.mp (hfinished append happend)
  have hkept : Kept self.window turns shared.state.ledger shared.parties := by
    apply h.kept.resolve_left
    rintro ⟨append, happend, hraised⟩
    rw [hreturned append happend] at hraised
    cases hraised
  have hfits : shared.state.ledger.window.length ≤ self.window := by
    apply hkept.fits.resolve_right
    rintro ⟨append, happend, htrims⟩
    rw [Pending.Trims, hreturned append happend] at htrims
    exact htrims
  have hnone : shared.parties.filterMap Pending.unpushed = [] := by
    rw [List.filterMap_eq_nil_iff]
    intro append happend
    rw [Pending.unpushed, hreturned append happend]
  have hpushed : (shared.state.ledger.pushed.map Entry.turn).Perm turns := by
    have hall := hkept.pushed
    rwa [hnone, List.append_nil] at hall
  have hwindow : shared.state.ledger.window = shared.state.ledger.pushed.rtake self.window :=
    Window.rtake_of_suffix h.tracked.suffix hfits hkept.enough
  constructor
  · exact hpushed
  · rw [h.tracked.holds.getWindow, hwindow, List.rtake, List.rtake, List.map_drop, List.length_map]
  · intro entry hentry
    have hlength : turns.length = shared.state.ledger.pushed.length := by
      rw [← hpushed.length_eq, List.length_map]
    rw [hlength] at hentry
    have hpast : entry ∈ shared.state.ledger.pushed := List.mem_of_mem_take hentry
    have hgone : entry ∉ shared.state.ledger.window := by
      have hnodup := h.tracked.nodup
      rw [← List.take_append_drop (shared.state.ledger.pushed.length - self.window)
        shared.state.ledger.pushed] at hnodup
      intro hleft
      rw [hwindow] at hleft
      exact (List.nodup_append.mp hnodup).2.2 entry hentry entry hleft rfl
    apply ((hkept.carried entry hpast).resolve_left hgone).resolve_right
    rintro ⟨append, happend, hcarries, -⟩
    rw [Pending.Carries, hreturned append happend] at hcarries
    exact hcarries
  · exact h.tracked.holds.getSummary
  · exact h.tracked.informed

end

/-- Along every interleaving of appends whose steps are undisturbed, the context is
kept whenever all appends have returned. -/
theorem concurrent_appends_keep_context (self : ShortTermMemory) (sessionId : String)
    (initial turns : List ConversationTurn) (summary : Option String) (redis : Redis)
    (labels : List (ℕ × Collaborators)) (hholds : Holds self sessionId redis initial summary)
    (hturns : turns ≠ [])
    (hundisturbed : (concurrentSystem self sessionId).AllSteps (Undisturbed self sessionId)
      (Session.appending redis initial turns) labels) :
    (concurrentSystem self sessionId).AllStates
      (fun shared => Finished shared →
        ContextKept self sessionId summary (initial ++ turns) shared.state)
      (Session.appending redis initial turns) labels := by
  apply System.AllStates.mono (P := Sound self sessionId summary (initial ++ turns))
  · exact fun shared hsound => hsound.contextKept
  · apply System.allStates_of_allSteps _ _ hundisturbed
    · exact fun shared label after out hsound hfinds hstep => hsound.step hfinds hstep
    · refine ⟨tracked_start hholds, ?_, .inr ⟨?_, .inl rfl, .inr ?_, ?_⟩⟩
      · intro append happend
        obtain ⟨turn, -, rfl⟩ := List.mem_map.mp happend
        trivial
      · have hinitial : (initial.mapIdx Entry.mk).map Entry.turn = initial := by
          apply List.ext_getElem <;> simp
        have hunpushed : (turns.map fun turn => (⟨.rpush turn, [], []⟩ : Pending)).filterMap
            Pending.unpushed = turns := by
          rw [List.filterMap_map]
          exact List.filterMap_some
        rw [Session.appending, Session.start, hinitial, hunpushed]
      · obtain ⟨turn, hturn⟩ := List.exists_mem_of_ne_nil turns hturns
        exact ⟨_, List.mem_map_of_mem hturn, trivial⟩
      · exact fun entry hentry => .inl hentry

def answering (content : String) : Collaborators := { chat := fun _ => content }

/-- Two appends that overlap, of which only the first one pops. -/
theorem concurrent_appends_keep_context_overlapping :
    ∃ after,
      (concurrentSystem oneTurn "s").run
          (Session.appending {} [] [userTurn "a", userTurn "b"])
          ([0, 1, 0, 0, 0, 1, 1, 0, 0, 0].map fun index => (index, answering "They spoke.")) =
        some (after, []) ∧
      Finished after ∧
      ContextKept oneTurn "s" none [userTurn "a", userTurn "b"] after.state := by
  have hkept := concurrent_appends_keep_context oneTurn "s" []
    [userTurn "a", userTurn "b"] none {}
    ([0, 1, 0, 0, 0, 1, 1, 0, 0, 0].map fun index => (index, answering "They spoke."))
    ⟨rfl, rfl⟩ (by simp) (by
      iterate 10
        intro after out hstep
        cases hstep
        refine ⟨fun append happend => ?_, ?_⟩
        · cases happend
          first
            | trivial
            | exact Nat.le_refl 2
            | exact List.nil_prefix
      trivial)
  refine ⟨_, rfl, by decide +kernel, ?_⟩
  exact (hkept.last rfl) (by decide +kernel)

/-- Both appends count the turns before either pops, and both read the summary before
either stores its own. -/
theorem concurrent_appends_lose_context :
    ∃ after,
      (concurrentSystem oneTurn "s").run
          (Session.appending (holding oneTurn "s" [userTurn "a"]) [userTurn "a"]
            [userTurn "b", userTurn "c"])
          ([0, 1, 0, 1, 0, 1, 0, 1, 0, 1, 0, 1, 0, 1].map fun index => (index, answering "They spoke.")) =
        some (after, []) ∧
      Finished after ∧
      oneTurn.getWindow "s" after.state.redis = some [] ∧
      after.state.ledger.lineage.entries = [⟨2, userTurn "c"⟩] ∧
      ¬ ContextKept oneTurn "s" none [userTurn "a", userTurn "b", userTurn "c"] after.state := by
  refine ⟨_, rfl, ?_, ?_, ?_, ?_⟩
  · decide +kernel
  · decide +kernel
  · decide +kernel
  · intro hkept
    have hgone := hkept.incorporated ⟨0, userTurn "a"⟩ (by decide +kernel)
    revert hgone
    decide +kernel

end Lour.Memory
