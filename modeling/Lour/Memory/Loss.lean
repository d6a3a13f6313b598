import Lour.Memory.Lineage
/-!
# Which turns a failing write loses

`MemoryManager.write` appends a turn and then records it as an episode.  Popping
the oldest turns comes before the summary is stored, so what was popped is gone
where the write stops in between.
-/

namespace Lour.Memory

open Lour.Lib Lour.Lib.Python

/-- One `write`: what its append meets, and whether `EpisodicMemory.record` raises. -/
structure WriteCall where
  turn : ConversationTurn
  env : Collaborators
  recordRaises : Bool := false

/-- A session, and the numbers of the turns whose write returned. -/
structure History where
  session : Session
  accepted : List ℕ := []

namespace ShortTermMemory

variable (self : ShortTermMemory) (sessionId : String)

def advances (env : Collaborators) : ℕ → Pending → Session → Pending × Session
  | 0, append, session => (append, session)
  | n + 1, append, session =>
      let (append, session) := self.advance sessionId env append session
      advances env n append session

/-- `MemoryManager.write`. -/
def write (call : WriteCall) (history : History) : History :=
  let appended := self.advances sessionId call.env 7 ⟨.rpush call.turn, [], []⟩ history.session
  if appended.1.phase.isReturned && !call.recordRaises then
    ⟨appended.2, history.accepted ++ [history.session.ledger.pushed.length]⟩
  else ⟨appended.2, history.accepted⟩

end ShortTermMemory

def writeSystem (self : ShortTermMemory) (sessionId : String) :
    System History WriteCall Empty :=
  ⟨fun history call => some (self.write sessionId call history, [])⟩

/-- Each accepted turn is in the window, or was folded into the stored summary. -/
def Ledger.Accounts (self : Ledger) (accepted : List ℕ) : Prop :=
  ∀ entry ∈ self.pushed, entry.number ∈ accepted →
    entry ∈ self.window ∨ entry ∈ self.lineage.entries

def Accounted (history : History) : Prop := history.session.ledger.Accounts history.accepted

def Collaborators.Returns (self : Collaborators) (sites : List Site) : Prop :=
  ∀ site ∈ sites, self.raises site = false

/-- The turns that a write to a full window pops. -/
def Ledger.batch (self : Ledger) (size : ℕ) (turn : ConversationTurn) : List Entry :=
  (self.push turn).window.take (self.window.length + 1 - size)

/-- The write comes to pop turns. -/
def Evicts (size : ℕ) (ledger : Ledger) (call : WriteCall) : Prop :=
  call.env.Returns [.rpush, .expire, .llen, .lpop] ∧ size ≤ ledger.window.length

/-- The answer to the prompt for what is popped. -/
def answer (size : ℕ) (initial : Option String) (ledger : Ledger) (call : WriteCall) : String :=
  call.env.chat (summaryPrompt ((ledger.batch size call.turn).map Entry.turn)
    (latest initial ledger.lineage.calls))

/-- The write stores a summary of what it popped. -/
def Stores (size : ℕ) (initial : Option String) (ledger : Ledger) (call : WriteCall) : Prop :=
  call.env.Returns [.get, .chat, .set] ∧ isBlank (answer size initial ledger call) = false

/-- The write returns although the summariser answers nothing. -/
def ReturnsBlank (size : ℕ) (initial : Option String) (ledger : Ledger) (call : WriteCall) : Prop :=
  call.env.Returns [.get, .chat] ∧ isBlank (answer size initial ledger call) = true ∧
    call.recordRaises = false

/-- What the write pops it stores a summary of, or no accepted turn is among it. -/
def Keeps (size : ℕ) (initial : Option String) (history : History) (call : WriteCall) : Prop :=
  Evicts size history.session.ledger call →
    Stores size initial history.session.ledger call ∨
      (∀ entry ∈ history.session.ledger.window.take
          (history.session.ledger.window.length + 1 - size), entry.number ∉ history.accepted) ∧
        (size = 0 → ¬ ReturnsBlank size initial history.session.ledger call)

section

variable {self : ShortTermMemory} {sessionId : String} {env : Collaborators}
  {initial : Option String} {size : ℕ} {ledger ledger' : Ledger} {append append' : Pending}

/-! ## One write -/

/-- Some moves of one append. -/
inductive Moves (size : ℕ) (initial : Option String) (env : Collaborators) :
    ℕ → Pending → Ledger → Pending → Ledger → Prop
  | zero {append : Pending} {ledger : Ledger} : Moves size initial env 0 append ledger append ledger
  | succ {n : ℕ} {append append₁ append₂ : Pending} {ledger ledger₁ ledger₂ : Ledger}
      (first : Move size initial env append ledger append₁ ledger₁)
      (rest : Moves size initial env n append₁ ledger₁ append₂ ledger₂) :
      Moves size initial env (n + 1) append ledger append₂ ledger₂

/-- The record follows an append to its end. -/
theorem advances_spec (env : Collaborators) (n : ℕ) {append : Pending} {session : Session}
    (h : Tracked self sessionId initial session) (hcoherent : Coherent initial append) :
    (self.advances sessionId env n append session).1.phase =
        (self.steps sessionId env n append.phase session.redis).1 ∧
      (self.advances sessionId env n append session).2.redis =
        (self.steps sessionId env n append.phase session.redis).2.1 ∧
      Moves self.window initial env n append session.ledger
        (self.advances sessionId env n append session).1
        (self.advances sessionId env n append session).2.ledger ∧
      Tracked self sessionId initial (self.advances sessionId env n append session).2 := by
  induction n generalizing append session with
  | zero => exact ⟨rfl, rfl, .zero, h⟩
  | succ n ih =>
      have hmove := advance_moves env append h
      obtain ⟨hphase, hredis, hmoves, htracked⟩ :=
        ih (advance_tracked env h hcoherent) (hmove.coherent h.informed hcoherent)
      exact ⟨hphase, hredis, .succ hmove hmoves, htracked⟩

theorem Moves.idle {n : ℕ} (h : Moves size initial env n append ledger append' ledger')
    (hidle : append.phase.site = none) : append' = append ∧ ledger' = ledger := by
  induction h with
  | zero => exact ⟨rfl, rfl⟩
  | succ first rest ih =>
      cases first with
      | idle => exact ih hidle
      | raises hraises =>
          rw [hidle] at hraises
          exact absurd hraises (by simp)
      | _ => cases hidle

/-- How a write ends. -/
inductive Outcome (size : ℕ) (initial : Option String) (call : WriteCall) (ledger : Ledger) :
    Phase → Ledger → Prop
  | unpushed (hkeeps : ¬ Evicts size ledger call) : Outcome size initial call ledger .raised ledger
  | pushed {phase : Phase} (hkeeps : ¬ Evicts size ledger call) :
      Outcome size initial call ledger phase (ledger.push call.turn)
  | folded (hevicts : Evicts size ledger call) (hstores : Stores size initial ledger call)
      (fold : Fold) (hbatch : fold.batch = ledger.batch size call.turn) :
      Outcome size initial call ledger .returned
        { (ledger.push call.turn).pop (ledger.window.length + 1 - size) with
          lineage := ledger.lineage ++ [fold] }
  | lost {phase : Phase} (hevicts : Evicts size ledger call)
      (hloses : ¬ Stores size initial ledger call)
      (hreturns : phase = .returned ↔ call.env.Returns [.get, .chat] ∧
        isBlank (answer size initial ledger call) = true) :
      Outcome size initial call ledger phase
        ((ledger.push call.turn).pop (ledger.window.length + 1 - size))

theorem returns_cons {env : Collaborators} {site : Site} {sites : List Site} :
    env.Returns (site :: sites) ↔ env.raises site = false ∧ env.Returns sites :=
  List.forall_mem_cons

theorem returns_nil {env : Collaborators} : env.Returns [] := by
  intro site h
  cases h

theorem not_returns {env : Collaborators} {site : Site} {sites : List Site}
    (hraises : env.raises site = true) (hsite : site ∈ sites) : ¬ env.Returns sites := by
  intro hreturns
  rw [hreturns site hsite] at hraises
  cases hraises

theorem isBlank_eq_true {s : String} (h : strip s = "") : isBlank s = true :=
  (strip_eq_empty_iff s).mp h

theorem isBlank_eq_false {s : String} (h : strip s ≠ "") : isBlank s = false :=
  Bool.eq_false_iff.mpr fun hblank => h ((strip_eq_empty_iff s).mpr hblank)

theorem length_push (ledger : Ledger) (turn : ConversationTurn) :
    (ledger.push turn).window.length = ledger.window.length + 1 := by
  rw [Ledger.push, List.length_append, List.length_singleton]

theorem Outcome.raised {call : WriteCall} (hevicts : Evicts size ledger call)
    (hloses : ¬ Stores size initial ledger call)
    (hanswers : ¬ (call.env.Returns [.get, .chat] ∧
      isBlank (answer size initial ledger call) = true)) :
    Outcome size initial call ledger .raised
      ((ledger.push call.turn).pop (ledger.window.length + 1 - size)) :=
  .lost hevicts hloses (iff_of_false (fun h => by cases h) hanswers)

/-- Once the turns are popped. -/
theorem outcome_of_get {n : ℕ} {call : WriteCall} (hevicts : Evicts size ledger call)
    (hmoves : Moves size initial call.env (n + 3)
      ⟨.get ((ledger.batch size call.turn).map Entry.turn), ledger.batch size call.turn, []⟩
      ((ledger.push call.turn).pop (ledger.window.length + 1 - size)) append' ledger') :
    Outcome size initial call ledger append'.phase ledger' := by
  obtain _ | ⟨first, rest⟩ := hmoves
  cases first with
  | idle hidle => cases hidle
  | raises hraises =>
      obtain ⟨rfl, rfl⟩ := rest.idle rfl
      have hget : call.env.raises .get = true := hraises
      apply Outcome.raised hevicts
      · rintro ⟨hreturns, -⟩
        exact not_returns hget (by decide) hreturns
      · rintro ⟨hreturns, -⟩
        exact not_returns hget (by decide) hreturns
  | get hget =>
      obtain _ | ⟨first, rest⟩ := rest
      cases first with
      | idle hidle => cases hidle
      | raises hraises =>
          obtain ⟨rfl, rfl⟩ := rest.idle rfl
          have hchat : call.env.raises .chat = true := hraises
          apply Outcome.raised hevicts
          · rintro ⟨hreturns, -⟩
            exact not_returns hchat (by decide) hreturns
          · rintro ⟨hreturns, -⟩
            exact not_returns hchat (by decide) hreturns
      | blank hchat hblank =>
          obtain ⟨rfl, rfl⟩ := rest.idle rfl
          have hanswer : isBlank (answer size initial ledger call) = true := isBlank_eq_true hblank
          apply Outcome.lost hevicts
          · rintro ⟨-, hstored⟩
            exact Bool.false_ne_true (hstored.symm.trans hanswer)
          · exact iff_of_true rfl ⟨by simp [returns_cons, returns_nil, hget, hchat], hanswer⟩
      | chat hchat hanswer =>
          have hanswer' : isBlank (answer size initial ledger call) = false :=
            isBlank_eq_false hanswer
          obtain _ | ⟨first, rest⟩ := rest
          cases first with
          | idle hidle => cases hidle
          | raises hraises =>
              obtain ⟨rfl, rfl⟩ := rest.idle rfl
              have hset : call.env.raises .set = true := hraises
              apply Outcome.raised hevicts
              · rintro ⟨hreturns, -⟩
                exact not_returns hset (by decide) hreturns
              · rintro ⟨-, hblank⟩
                exact Bool.false_ne_true (hanswer'.symm.trans hblank)
          | set hset =>
              obtain ⟨rfl, rfl⟩ := rest.idle rfl
              apply Outcome.folded hevicts
              · exact ⟨by simp [returns_cons, returns_nil, hget, hchat, hset], hanswer'⟩
              · rfl

theorem batch_ne_nil (turn : ConversationTurn) (hfull : size ≤ ledger.window.length) :
    ledger.batch size turn ≠ [] := by
  have hlength : (ledger.batch size turn).length = ledger.window.length + 1 - size := by
    rw [Ledger.batch, List.length_take, length_push]
    omega
  intro hnil
  rw [hnil, List.length_nil] at hlength
  omega

/-- Once the window is found to be full. -/
theorem outcome_of_lpop {n : ℕ} {call : WriteCall}
    (hbefore : call.env.Returns [.rpush, .expire, .llen]) (hfull : size ≤ ledger.window.length)
    (hmoves : Moves size initial call.env (n + 4)
      ⟨.lpop (ledger.window.length + 1 - size), [], []⟩ (ledger.push call.turn) append' ledger') :
    Outcome size initial call ledger append'.phase ledger' := by
  obtain _ | ⟨first, rest⟩ := hmoves
  cases first with
  | idle hidle => cases hidle
  | raises hraises =>
      obtain ⟨rfl, rfl⟩ := rest.idle rfl
      have hlpop : call.env.raises .lpop = true := hraises
      apply Outcome.pushed
      rintro ⟨hreturns, -⟩
      exact not_returns hlpop (by decide) hreturns
  | nothing hreturns hempty => exact absurd hempty (batch_ne_nil call.turn hfull)
  | lpop hlpop hpopped =>
      have hevicts : Evicts size ledger call := by
        refine ⟨?_, hfull⟩
        simp only [returns_cons] at hbefore ⊢
        exact ⟨hbefore.1, hbefore.2.1, hbefore.2.2.1, hlpop, returns_nil⟩
      exact outcome_of_get hevicts rest

theorem outcome_of_write {call : WriteCall}
    (hmoves : Moves size initial call.env 7 ⟨.rpush call.turn, [], []⟩ ledger append' ledger') :
    Outcome size initial call ledger append'.phase ledger' := by
  obtain _ | ⟨first, rest⟩ := hmoves
  cases first with
  | idle hidle => cases hidle
  | raises hraises =>
      obtain ⟨rfl, rfl⟩ := rest.idle rfl
      have hrpush : call.env.raises .rpush = true := hraises
      apply Outcome.unpushed
      rintro ⟨hreturns, -⟩
      exact not_returns hrpush (by decide) hreturns
  | rpush hrpush =>
      obtain _ | ⟨first, rest⟩ := rest
      cases first with
      | idle hidle => cases hidle
      | raises hraises =>
          obtain ⟨rfl, rfl⟩ := rest.idle rfl
          have hexpire : call.env.raises .expire = true := hraises
          apply Outcome.pushed
          rintro ⟨hreturns, -⟩
          exact not_returns hexpire (by decide) hreturns
      | expire hexpire =>
          obtain _ | ⟨first, rest⟩ := rest
          cases first with
          | idle hidle => cases hidle
          | raises hraises =>
              obtain ⟨rfl, rfl⟩ := rest.idle rfl
              have hllen : call.env.raises .llen = true := hraises
              apply Outcome.pushed
              rintro ⟨hreturns, -⟩
              exact not_returns hllen (by decide) hreturns
          | fits hllen hfits =>
              obtain ⟨rfl, rfl⟩ := rest.idle rfl
              apply Outcome.pushed
              rintro ⟨-, hfull⟩
              rw [length_push] at hfits
              omega
          | overflows hllen hover =>
              rw [length_push] at hover rest
              apply outcome_of_lpop _ (Nat.lt_succ_iff.mp hover) rest
              simp [returns_cons, returns_nil, hrpush, hexpire, hllen]

/-! ## What is lost -/

def Ledger.entry (self : Ledger) (turn : ConversationTurn) : Entry := ⟨self.pushed.length, turn⟩

/-- What is no longer in the window was popped earlier, and what was folded is
part of that. -/
def Ledger.Ordered (self : Ledger) : Prop :=
  ∃ evicted, self.pushed = evicted ++ self.window ∧ ∀ entry ∈ self.lineage.entries, entry ∈ evicted

theorem mem_batch {turn : ConversationTurn} {entry : Entry} :
    entry ∈ ledger.batch size turn ↔
      entry ∈ ledger.window.take (ledger.window.length + 1 - size) ∨
        size = 0 ∧ entry = ledger.entry turn := by
  rw [Ledger.batch, Ledger.push, List.take_append, List.mem_append]
  apply or_congr_right
  by_cases hzero : size = 0
  · rw [show ledger.window.length + 1 - size - ledger.window.length = 1 by omega]
    simp [hzero, Ledger.entry]
  · rw [show ledger.window.length + 1 - size - ledger.window.length = 0 by omega]
    simp [hzero]

theorem Ledger.Ordered.push (h : ledger.Ordered) (turn : ConversationTurn) :
    (ledger.push turn).Ordered := by
  obtain ⟨evicted, hpushed, hfolded⟩ := h
  refine ⟨evicted, ?_, hfolded⟩
  rw [Ledger.push, ← List.append_assoc, ← hpushed]

theorem Outcome.ordered {call : WriteCall} {phase : Phase}
    (houtcome : Outcome size initial call ledger phase ledger') (h : ledger.Ordered) :
    ledger'.Ordered := by
  have hpush := h.push call.turn
  obtain ⟨evicted, hpushed, hfolded⟩ := hpush
  have hpop : (ledger.push call.turn).pushed =
      (evicted ++ ledger.batch size call.turn) ++
        (ledger.push call.turn).window.drop (ledger.window.length + 1 - size) := by
    rw [List.append_assoc, Ledger.batch, List.take_append_drop, hpushed]
  cases houtcome with
  | unpushed => exact h
  | pushed => exact h.push call.turn
  | lost hevicts hloses hreturns =>
      exact ⟨_, hpop, fun entry hentry => List.mem_append_left _ (hfolded entry hentry)⟩
  | folded hevicts hstores fold hbatch =>
      refine ⟨_, hpop, fun entry hentry => ?_⟩
      rw [entries_append, List.mem_append] at hentry
      rcases hentry with hentry | hentry
      · exact List.mem_append_left _ (hfolded entry hentry)
      · apply List.mem_append_right
        rw [← hbatch]
        simpa [Lineage.entries] using hentry

/-- The record of a history is right. -/
structure Settled (memory : ShortTermMemory) (sessionId : String) (initial : Option String)
    (history : History) : Prop where
  tracked : Tracked memory sessionId initial history.session
  ordered : history.session.ledger.Ordered
  accepted : ∀ number ∈ history.accepted, number < history.session.ledger.pushed.length

theorem write_session (call : WriteCall) (history : History) :
    (self.write sessionId call history).session =
      (self.advances sessionId call.env 7 ⟨.rpush call.turn, [], []⟩ history.session).2 := by
  rw [ShortTermMemory.write]
  exact (apply_ite History.session _ _ _).trans (ite_self _)

/-- The write was accepted or not, and its append came to one of the ends. -/
theorem write_outcome {history : History} (call : WriteCall)
    (h : Tracked self sessionId initial history.session) :
    ∃ phase, Outcome self.window initial call history.session.ledger phase
        (self.write sessionId call history).session.ledger ∧
      Tracked self sessionId initial (self.write sessionId call history).session ∧
      (self.write sessionId call history).accepted =
        if phase.isReturned && !call.recordRaises then
          history.accepted ++ [history.session.ledger.pushed.length]
        else history.accepted := by
  obtain ⟨-, -, hmoves, htracked⟩ :=
    advances_spec call.env 7 h (show Coherent initial ⟨.rpush call.turn, [], []⟩ from trivial)
  rw [write_session]
  refine ⟨_, outcome_of_write hmoves, htracked, ?_⟩
  rw [ShortTermMemory.write]
  exact apply_ite History.accepted _ _ _

theorem Outcome.length_pushed {call : WriteCall} {phase : Phase}
    (houtcome : Outcome size initial call ledger phase ledger') :
    ledger.pushed.length ≤ ledger'.pushed.length ∧
      (phase.isReturned = true → ledger.pushed.length < ledger'.pushed.length) := by
  have hpush : (ledger.push call.turn).pushed.length = ledger.pushed.length + 1 := by
    rw [Ledger.push, List.length_append, List.length_singleton]
  cases houtcome with
  | unpushed => exact ⟨le_rfl, fun h => by cases h⟩
  | _ =>
      constructor
      · exact Nat.le_of_lt (hpush ▸ Nat.lt_succ_self _)
      · intro _
        exact hpush ▸ Nat.lt_succ_self _

theorem Settled.write {history : History} (call : WriteCall)
    (h : Settled self sessionId initial history) :
    Settled self sessionId initial (self.write sessionId call history) := by
  obtain ⟨phase, houtcome, htracked, haccepted⟩ := write_outcome call h.tracked
  obtain ⟨hle, hlt⟩ := houtcome.length_pushed
  refine ⟨htracked, houtcome.ordered h.ordered, fun number hnumber => ?_⟩
  rw [haccepted] at hnumber
  split at hnumber
  next hok =>
    rw [Bool.and_eq_true] at hok
    rcases List.mem_append.mp hnumber with hbefore | hnew
    · exact lt_of_lt_of_le (h.accepted number hbefore) hle
    · rw [List.mem_singleton.mp hnew]
      exact hlt hok.1
  next => exact lt_of_lt_of_le (h.accepted number hnumber) hle

/-- What a write pops is neither in the window afterwards nor was it folded before. -/
theorem batch_gone {turn : ConversationTurn} {entry : Entry} (hordered : ledger.Ordered)
    (hnodup : (ledger.push turn).pushed.Nodup) (hentry : entry ∈ ledger.batch size turn) :
    entry ∉ (ledger.push turn).window.drop (ledger.window.length + 1 - size) ∧
      entry ∉ ledger.lineage.entries := by
  obtain ⟨evicted, hpushed, hfolded⟩ := hordered.push turn
  rw [hpushed, ← List.take_append_drop (ledger.window.length + 1 - size)
    (ledger.push turn).window] at hnodup
  have hwindow := (List.nodup_append.mp hnodup).2.1
  constructor
  · intro hdrop
    exact (List.nodup_append.mp hwindow).2.2 entry hentry entry hdrop rfl
  · intro hlineage
    exact (List.nodup_append.mp hnodup).2.2 entry (hfolded entry hlineage) entry
      (List.mem_append_left _ hentry) rfl

theorem mem_push {turn : ConversationTurn} {entry : Entry} :
    entry ∈ (ledger.push turn).pushed ↔ entry ∈ ledger.pushed ∨ entry = ledger.entry turn := by
  rw [Ledger.push, List.mem_append, List.mem_singleton]
  rfl

theorem mem_push_window {turn : ConversationTurn} {entry : Entry} :
    entry ∈ (ledger.push turn).window ↔ entry ∈ ledger.window ∨ entry = ledger.entry turn := by
  rw [Ledger.push, List.mem_append, List.mem_singleton]
  rfl

theorem window_split {turn : ConversationTurn} {entry : Entry}
    (hentry : entry ∈ (ledger.push turn).window) :
    entry ∈ ledger.batch size turn ∨
      entry ∈ (ledger.push turn).window.drop (ledger.window.length + 1 - size) := by
  rwa [Ledger.batch, ← List.mem_append, List.take_append_drop]

theorem Tracked.number_lt {session : Session} (h : Tracked self sessionId initial session)
    {entry : Entry} (hentry : entry ∈ session.ledger.pushed) :
    entry.number < session.ledger.pushed.length := by
  rw [← List.mem_range, ← h.numbered]
  exact List.mem_map_of_mem hentry

section

variable {call : WriteCall} {phase : Phase} {accepted accepted' : List ℕ}

/-- The write adds its own turn to the accepted ones where it returns. -/
def Grows (ledger : Ledger) (call : WriteCall) (phase : Phase) (accepted accepted' : List ℕ) :
    Prop :=
  ∀ number, number ∈ accepted' ↔ number ∈ accepted ∨
    (phase = .returned ∧ call.recordRaises = false) ∧ number = ledger.pushed.length

theorem Grows.old (hgrows : Grows ledger call phase accepted accepted') {entry : Entry}
    (hnumber : entry.number < ledger.pushed.length) :
    entry.number ∈ accepted' ↔ entry.number ∈ accepted := by
  rw [hgrows]
  apply or_iff_left
  rintro ⟨-, heq⟩
  omega

theorem Grows.accounts_push (hgrows : Grows ledger call phase accepted accepted')
    (hnumbers : ∀ entry ∈ ledger.pushed, entry.number < ledger.pushed.length)
    (haccounts : ledger.Accounts accepted) : (ledger.push call.turn).Accounts accepted' := by
  intro entry hentry hnumber
  rw [mem_push_window]
  rcases mem_push.mp hentry with hbefore | hown
  · have hkept := haccounts entry hbefore ((hgrows.old (hnumbers entry hbefore)).mp hnumber)
    exact hkept.imp_left .inl
  · exact .inl (.inr hown)

/-- Where popped turns are not folded, none of them may be an accepted one. -/
theorem accounts_pop_iff (hgrows : Grows ledger call phase accepted accepted')
    (hnumbers : ∀ entry ∈ ledger.pushed, entry.number < ledger.pushed.length)
    (haccounts : ledger.Accounts accepted) (hordered : ledger.Ordered)
    (hnodup : (ledger.push call.turn).pushed.Nodup) :
    ((ledger.push call.turn).pop (ledger.window.length + 1 - size)).Accounts accepted' ↔
      ∀ entry ∈ ledger.batch size call.turn, entry.number ∉ accepted' := by
  constructor
  · intro hkept entry hbatch hnumber
    obtain ⟨hwindow, hlineage⟩ := batch_gone hordered hnodup hbatch
    obtain ⟨evicted, hpushed, -⟩ := hordered.push call.turn
    have hentry : entry ∈ (ledger.push call.turn).pushed := by
      rw [hpushed]
      exact List.mem_append_right _ (List.mem_of_mem_take hbatch)
    exact (hkept entry hentry hnumber).elim hwindow hlineage
  · intro hbatch entry hentry hnumber
    apply (hgrows.accounts_push hnumbers haccounts entry hentry hnumber).imp_left
    intro hwindow
    apply (window_split hwindow).resolve_left
    intro hpopped
    exact hbatch entry hpopped hnumber

theorem Outcome.accounts_iff (houtcome : Outcome size initial call ledger phase ledger')
    (hgrows : Grows ledger call phase accepted accepted')
    (hnumbers : ∀ entry ∈ ledger.pushed, entry.number < ledger.pushed.length)
    (haccepted : ∀ number ∈ accepted, number < ledger.pushed.length)
    (haccounts : ledger.Accounts accepted) (hordered : ledger.Ordered)
    (hnodup : (ledger.push call.turn).pushed.Nodup) :
    ledger'.Accounts accepted' ↔
      (Evicts size ledger call → Stores size initial ledger call ∨
        (∀ entry ∈ ledger.window.take (ledger.window.length + 1 - size),
          entry.number ∉ accepted) ∧
        (size = 0 → ¬ ReturnsBlank size initial ledger call)) := by
  cases houtcome with
  | unpushed hkeeps =>
      refine iff_of_true ?_ (fun hevicts => absurd hevicts hkeeps)
      intro entry hentry hnumber
      exact haccounts entry hentry ((hgrows.old (hnumbers entry hentry)).mp hnumber)
  | pushed hkeeps =>
      refine iff_of_true ?_ (fun hevicts => absurd hevicts hkeeps)
      exact hgrows.accounts_push hnumbers haccounts
  | folded hevicts hstores fold hbatch =>
      refine iff_of_true ?_ (fun _ => .inl hstores)
      intro entry hentry hnumber
      have hfold : entry ∈ (ledger.lineage ++ [fold]).entries ↔
          entry ∈ ledger.lineage.entries ∨ entry ∈ ledger.batch size call.turn := by
        rw [entries_append, List.mem_append, ← hbatch]
        simp [Lineage.entries]
      rw [hfold]
      rcases hgrows.accounts_push hnumbers haccounts entry hentry hnumber with hwindow | hlineage
      · exact (window_split hwindow).symm.imp_right .inr
      · exact .inr (.inl hlineage)
  | lost hevicts hloses hreturns =>
      have htake : ∀ entry ∈ ledger.window.take (ledger.window.length + 1 - size),
          (entry.number ∈ accepted' ↔ entry.number ∈ accepted) := by
        intro entry hentry
        obtain ⟨evicted, hpushed, -⟩ := hordered
        apply hgrows.old
        apply hnumbers
        rw [hpushed]
        exact List.mem_append_right _ (List.mem_of_mem_take hentry)
      have hown : (ledger.entry call.turn).number ∈ accepted' ↔
          ReturnsBlank size initial ledger call := by
        have hfresh : (ledger.entry call.turn).number ∉ accepted :=
          fun h => lt_irrefl _ (haccepted _ h)
        rw [hgrows, hreturns, or_iff_right hfresh, and_assoc]
        exact ⟨fun h => ⟨h.1.1, h.1.2, h.2.1⟩, fun h => ⟨⟨h.1, h.2.1⟩, h.2.2, rfl⟩⟩
      rw [accounts_pop_iff hgrows hnumbers haccounts hordered hnodup, imp_iff_right hevicts,
        or_iff_right hloses]
      constructor
      · intro hbatch
        constructor
        · intro entry hentry hnumber
          exact hbatch entry (mem_batch.mpr (.inl hentry)) ((htake entry hentry).mpr hnumber)
        · intro hzero hblank
          exact hbatch _ (mem_batch.mpr (.inr ⟨hzero, rfl⟩)) (hown.mpr hblank)
      · rintro ⟨hwindow, hzero⟩ entry hbatch hnumber
        rcases mem_batch.mp hbatch with hentry | ⟨hsize, rfl⟩
        · exact hwindow entry hentry ((htake entry hentry).mp hnumber)
        · exact hzero hsize (hown.mp hnumber)

end

/-- The turns whose write returned are accounted for after one more write exactly
where it keeps what it pops. -/
theorem accounted_write_iff {history : History} (call : WriteCall)
    (h : Settled self sessionId initial history) (haccounted : Accounted history) :
    Accounted (self.write sessionId call history) ↔ Keeps self.window initial history call := by
  obtain ⟨phase, houtcome, htracked, haccepted⟩ := write_outcome call h.tracked
  apply houtcome.accounts_iff
  · intro number
    rw [haccepted, ← isReturned_iff]
    cases phase.isReturned <;> cases call.recordRaises <;> simp
  · exact fun entry hentry => h.tracked.number_lt hentry
  · exact h.accepted
  · exact haccounted
  · exact h.ordered
  · apply List.Nodup.of_map Entry.number
    rw [Ledger.numbered_push h.tracked.numbered]
    exact List.nodup_range

/-! ## Runs of writes -/

/-- In every state of a run of writes the record is right, and the accepted turns
are accounted for throughout exactly where every write keeps what it pops. -/
theorem turns_accounted_iff (self : ShortTermMemory) (sessionId : String)
    (turns : List ConversationTurn) (summary : Option String) (redis : Redis)
    (accepted : List ℕ) (hholds : Holds self sessionId redis turns summary)
    (haccepted : ∀ number ∈ accepted, number < turns.length) (writes : List WriteCall) :
    (writeSystem self sessionId).AllStates
        (fun history => Tracked self sessionId summary history.session)
        ⟨Session.start redis turns, accepted⟩ writes ∧
      ((writeSystem self sessionId).AllStates Accounted
          ⟨Session.start redis turns, accepted⟩ writes ↔
        (writeSystem self sessionId).AllSteps (Keeps self.window summary)
          ⟨Session.start redis turns, accepted⟩ writes) := by
  have hstart : Settled self sessionId summary ⟨Session.start redis turns, accepted⟩ := by
    refine ⟨tracked_start hholds, ⟨[], rfl, fun entry hentry => hentry⟩, ?_⟩
    simpa [Session.start] using haccepted
  have hstep : ∀ history call after out, Settled self sessionId summary history →
      (writeSystem self sessionId).step history call = some (after, out) →
      Settled self sessionId summary after := by
    intro history call after out hsettled hwrite
    cases hwrite
    exact hsettled.write call
  constructor
  · apply System.AllStates.mono (P := Settled self sessionId summary)
    · exact fun history hsettled => hsettled.tracked
    · exact System.allStates_of_invariant hstep hstart
  · apply System.allStates_iff_allSteps
    · exact fun history call after out hsettled _ => hstep history call after out hsettled
    · intro history call after out hsettled haccounted hwrite
      cases hwrite
      exact accounted_write_iff call hsettled haccounted
    · exact hstart
    · intro entry hentry _
      exact .inl hentry

/-- A summariser that answers. -/
theorem turns_accounted_iff_folded :
    (writeSystem oneTurn "s").AllStates Accounted
      ⟨Session.start (holding oneTurn "s" [userTurn "a"]) [userTurn "a"], [0]⟩
      [⟨userTurn "b", { chat := fun _ => "They said a." }, false⟩] := by
  have hiff := (turns_accounted_iff oneTurn "s" [userTurn "a"] none _ [0] (holds_holding ..)
    (by decide) [⟨userTurn "b", { chat := fun _ => "They said a." }, false⟩]).2
  apply hiff.mpr
  intro history out _
  refine ⟨fun _ => .inl ⟨fun site _ => rfl, ?_⟩, trivial⟩
  change isBlank "They said a." = false
  decide

/-- A second turn whose summariser raises: the first turn is gone. -/
theorem turn_lost_when_summarising_fails :
    ∃ history,
      (writeSystem oneTurn "s").run ⟨Session.start {} [], []⟩
        [⟨userTurn "a", { chat := fun _ => "" }, false⟩,
          ⟨userTurn "b", { chat := fun _ => "", raises := (· == .chat) }, false⟩] =
          some (history, []) ∧
      history.accepted = [0] ∧
      oneTurn.getWindow "s" history.session.redis = some [userTurn "b"] ∧
      ShortTermMemory.getSummary "s" history.session.redis = none ∧
      ¬ Accounted history := by
  refine ⟨_, rfl, ?_, ?_, ?_, ?_⟩
  · decide +kernel
  · decide +kernel
  · decide +kernel
  · intro haccounted
    have hgone := haccounted ⟨0, userTurn "a"⟩ (by decide +kernel) (by decide +kernel)
    revert hgone
    decide +kernel

end

end Lour.Memory
