import Lour.Lib.Base64
import Lour.Lib.Custody
import Lour.Lib.Doubles
import Lour.Lib.Utf8
import Lour.Tools.CodeExec
/-!
# `DockerSandbox`

Each `run` works in a thread of its own and takes one call of the Docker client after the
other: it starts a container that carries the code, waits for it, collects its logs and
removes it.
-/

namespace Lour.Sandbox

open Lour.Lib Lour.Lib.Python Lour.Tools

inductive SandboxLanguage where
  | python
  | javascript
  deriving DecidableEq

structure SandboxSettings where
  memoryMb : Int := 512
  cpuQuota : ℚ := 1
  timeoutS : Int := 30
  pidsLimit : Int := 128
  pythonImage : String := "python:3.12-slim"
  nodeImage : String := "node:20-slim"

/-- `base64.b64encode(code.encode()).decode()`. -/
def b64 (code : String) : String :=
  String.ofList (Base64.encode (Utf8.encode code.toList))

def pythonCmd (b64 : String) : List String :=
  ["python", "-c",
    "import base64;exec(compile(base64.b64decode('" ++ b64 ++ "'),'<sandbox>','exec'))"]

def nodeCmd (b64 : String) : List String :=
  ["node", "-e", "eval(Buffer.from('" ++ b64 ++ "','base64').toString('utf8'))"]

/-- What `client.containers.run` is given. -/
structure ContainerSpec where
  image : String
  command : List String
  networkDisabled : Bool
  readOnly : Bool
  memLimit : String
  memswapLimit : String
  nanoCpus : Int
  pidsLimit : Int
  capDrop : List String
  securityOpt : List String
  user : String
  workingDir : String
  tmpfs : List (String × String)

/-- `int(x)` of a float, towards zero. -/
def intOf (x : ℚ) : Int := x.num.tdiv x.den

def containerSpec (settings : SandboxSettings) (language : SandboxLanguage) (code : String) :
    ContainerSpec where
  image := match language with
    | .python => settings.pythonImage
    | .javascript => settings.nodeImage
  command := match language with
    | .python => pythonCmd (b64 code)
    | .javascript => nodeCmd (b64 code)
  networkDisabled := true
  readOnly := true
  memLimit := toString settings.memoryMb ++ "m"
  memswapLimit := toString settings.memoryMb ++ "m"
  nanoCpus := intOf (toDouble (settings.cpuQuota * 1000000000))
  pidsLimit := settings.pidsLimit
  capDrop := ["ALL"]
  securityOpt := ["no-new-privileges"]
  user := "nobody"
  workingDir := "/tmp"
  tmpfs := [("/tmp", "rw,size=32m,mode=1777")]

structure Container where
  id : ℕ
  spec : ContainerSpec

/-- The threads share the client, once one of them has made it, and the daemon, which
numbers the containers it creates. -/
structure Host where
  client : Bool := false
  containers : List Container := []
  created : ℕ := 0

def Host.create (self : Host) (spec : ContainerSpec) : Host :=
  { self with
    containers := self.containers ++ [⟨self.created, spec⟩]
    created := self.created + 1 }

def Host.remove (self : Host) (id : ℕ) : Host :=
  { self with containers := self.containers.filter fun other => decide (other.id ≠ id) }

inductive SandboxFailure where
  | sandboxError (message : String)
  | docker (message : String)

def unreachable (exc : String) : SandboxFailure :=
  .sandboxError ("Docker daemon is not reachable: " ++ exc)

structure Call where
  code : String
  language : SandboxLanguage := .python
  timeoutS : Option Int := none

/-- `timeout_s or self._settings.timeout_s`. -/
def Call.timeout (self : Call) (settings : SandboxSettings) : Int :=
  match self.timeoutS with
  | some timeout => if timeout = 0 then settings.timeoutS else timeout
  | none => settings.timeoutS

/-- The call of the client that a run makes next; at the end, what is left of it on the
daemon. -/
inductive Stage where
  | docker
  | fromEnv
  | ping
  | run
  | wait (id : ℕ)
  | kill (id : ℕ)
  | stdout (id : ℕ) (timedOut : Bool) (exitCode : Option Int)
  | stderr (id : ℕ) (timedOut : Bool) (exitCode : Option Int) (stdout : String)
  | remove (id : ℕ) (timedOut : Bool) (exitCode : Option Int) (stdout stderr : String)
  | returned (result : SandboxResult) (left : Option ℕ)
  | raised (failure : SandboxFailure) (left : Option ℕ)

structure Run where
  call : Call
  stage : Stage

def Run.to (self : Run) (stage : Stage) : Run := { self with stage := stage }

def Call.begin (self : Call) : Run := ⟨self, .docker⟩

/-- How the daemon takes `containers.run`; a container may be created and not start. -/
inductive Start where
  | started
  | refused
  | halfway

/-- What a call of the client meets: `exit` and `logs` are `none` where the call raises. -/
structure Answer where
  connects : Bool := true
  pings : Bool := true
  start : Start := .started
  exit : Option Int := none
  logs : Option String := none
  removes : Bool := true
  exc : String := ""
  durationMs : PyFloat := .zero

def killedMarker (timeout : Int) : String :=
  "[sandbox] killed after " ++ toString timeout ++ "s timeout"

def sandboxResult (timeout : Int) (timedOut : Bool) (exitCode : Option Int)
    (stdout stderr : String) (durationMs : PyFloat) : SandboxResult where
  ok := !timedOut && exitCode == some 0
  stdout := stdout
  stderr := if timedOut then strip (stderr ++ "\n" ++ killedMarker timeout) else stderr
  exitCode := exitCode
  timedOut := timedOut
  durationMs := durationMs

def runMove (settings : SandboxSettings) (host : Host) (run : Run) (answer : Answer) :
    Option (Host × Run) :=
  match run.stage with
  | .docker => some (host, run.to (if host.client then .run else .fromEnv))
  | .fromEnv =>
      -- the client is kept before it is pinged
      if answer.connects then some ({ host with client := true }, run.to .ping)
      else some (host, run.to (.raised (unreachable answer.exc) none))
  | .ping =>
      some (host, run.to (if answer.pings then .run else .raised (unreachable answer.exc) none))
  | .run =>
      let spec := containerSpec settings run.call.language run.call.code
      match answer.start with
      | .started => some (host.create spec, run.to (.wait host.created))
      | .refused => some (host, run.to (.raised (.docker answer.exc) none))
      | .halfway =>
          some (host.create spec, run.to (.raised (.docker answer.exc) (some host.created)))
  | .wait id =>
      match answer.exit with
      | some code => some (host, run.to (.stdout id false (some code)))
      | none => some (host, run.to (.kill id))
  | .kill id => some (host, run.to (.stdout id true none))
  | .stdout id timedOut exitCode =>
      some (host, run.to (.stderr id timedOut exitCode (answer.logs.getD "")))
  | .stderr id timedOut exitCode stdout =>
      some (host, run.to (.remove id timedOut exitCode stdout (answer.logs.getD "")))
  | .remove id timedOut exitCode stdout stderr =>
      let result := sandboxResult (run.call.timeout settings) timedOut exitCode stdout stderr
        answer.durationMs
      if answer.removes then some (host.remove id, run.to (.returned result none))
      else some (host, run.to (.returned result (some id)))
  | .returned _ _ | .raised _ _ => none

/-- The runs of all threads, interleaved. -/
def sandboxSystem (settings : SandboxSettings) : System (Shared Host Run) (ℕ × Answer) Empty :=
  interleaving (runMove settings)

/-! ## What the container is handed -/

/-- Read a quoted literal, up to the closing quote; a backslash would not stand for
itself. -/
def readLiteral : List Char → Option (List Char × List Char)
  | [] => none
  | c :: cs =>
      if c = '\'' then some ([], cs)
      else if c = '\\' || c = '\n' || c = '\r' then none
      else (readLiteral cs).map fun (text, rest) => (c :: text, rest)

/-- The bytes in the literal of a program, which stands between `front` and `back`. -/
def literalBytes (front back program : String) : Option (List UInt8) :=
  if program.toList.take front.length = front.toList then
    match readLiteral (program.toList.drop front.length) with
    | some (text, rest) => if rest = back.toList then Base64.decode text else none
    | none => none
  else none

/-- The bytes that the interpreter in the container is given to run. -/
def delivered (language : SandboxLanguage) : List String → Option (List UInt8)
  | [interpreter, flag, program] =>
      match language with
      | .python =>
          if interpreter = "python" ∧ flag = "-c" then
            literalBytes "import base64;exec(compile(base64.b64decode('"
              "),'<sandbox>','exec'))" program
          else none
      | .javascript =>
          if interpreter = "node" ∧ flag = "-e" then
            literalBytes "eval(Buffer.from('" ",'base64').toString('utf8'))" program
          else none
  | _ => none

theorem readLiteral_plain {text rest : List Char} (h : ∀ c ∈ text, c ∈ '=' :: Base64.alphabet) :
    readLiteral (text ++ '\'' :: rest) = some (text, rest) := by
  have hall : ('=' :: Base64.alphabet).all (fun c => !decide (c = '\'') &&
      !(decide (c = '\\') || decide (c = '\n') || decide (c = '\r'))) = true := by decide +kernel
  have hplain : ∀ c ∈ '=' :: Base64.alphabet, c ≠ '\'' ∧
      (decide (c = '\\') || decide (c = '\n') || decide (c = '\r')) = false := by
    intro c hc
    simpa using List.all_eq_true.mp hall c hc
  induction text with
  | nil => rfl
  | cons c text ih =>
      obtain ⟨hquote, hescape⟩ := hplain c (h c (List.mem_cons_self ..))
      have hrest := ih fun other hother => h other (List.mem_cons_of_mem _ hother)
      rw [List.cons_append, readLiteral, if_neg hquote, hescape, if_neg Bool.false_ne_true, hrest]
      rfl

theorem literalBytes_b64 {front back quoted : String}
    (hquoted : quoted.toList = '\'' :: back.toList) (code : String) :
    literalBytes front back (front ++ b64 code ++ quoted) = some (Utf8.encode code.toList) := by
  have hplain : ∀ c ∈ Base64.encode (Utf8.encode code.toList), c ∈ '=' :: Base64.alphabet :=
    fun _ hc => Base64.mem_encode hc
  have hprogram : (front ++ b64 code ++ quoted).toList = front.toList ++
      (Base64.encode (Utf8.encode code.toList) ++ '\'' :: back.toList) := by
    rw [String.toList_append, String.toList_append, hquoted, List.append_assoc, b64,
      String.toList_ofList]
  have hlength : front.length = front.toList.length := String.length_toList.symm
  unfold literalBytes
  rw [hprogram, hlength, List.take_left, List.drop_left, if_pos rfl, readLiteral_plain hplain]
  simp only [if_true]
  exact Base64.decode_encode _

/-- Whatever the code is, the container is handed its bytes, and nothing but its bytes. -/
theorem delivered_containerSpec (settings : SandboxSettings) (language : SandboxLanguage)
    (code : String) :
    delivered language (containerSpec settings language code).command =
      some (Utf8.encode code.toList) := by
  cases language with
  | python =>
      unfold containerSpec pythonCmd delivered
      dsimp only
      rw [if_pos ⟨rfl, rfl⟩]
      apply literalBytes_b64
      simp
  | javascript =>
      unfold containerSpec nodeCmd delivered
      dsimp only
      rw [if_pos ⟨rfl, rfl⟩]
      apply literalBytes_b64
      simp

/-! ## What the runs hold -/

/-- The container of a run that it has not removed, or could not. -/
def Stage.container : Stage → Option ℕ
  | .docker | .fromEnv | .ping | .run => none
  | .wait id | .kill id => some id
  | .stdout id _ _ | .stderr id _ _ _ | .remove id _ _ _ _ => some id
  | .returned _ left => left
  | .raised _ left => left

def Run.held (settings : SandboxSettings) (self : Run) : List Container :=
  self.stage.container.toList.map fun id =>
    ⟨id, containerSpec settings self.call.language self.call.code⟩

/-- The daemon has not given out a number twice. -/
def Host.Fresh (self : Host) : Prop := ∀ container ∈ self.containers, container.id < self.created

section Moves

variable {settings : SandboxSettings} {host host' : Host} {run run' : Run} {answer : Answer}

theorem Host.Fresh.create (h : host.Fresh) (spec : ContainerSpec) : (host.create spec).Fresh := by
  intro container hcontainer
  show container.id < host.created + 1
  rcases List.mem_append.mp hcontainer with hold | hnew
  · exact Nat.lt_succ_of_lt (h container hold)
  · rw [List.mem_singleton.mp hnew]
    exact Nat.lt_succ_self _

theorem Host.Fresh.remove (h : host.Fresh) (id : ℕ) : (host.remove id).Fresh := by
  intro container hcontainer
  exact h container (List.mem_filter.mp hcontainer).1

/-- The run has a container of its own from here on. -/
theorem handles_create (h : host.Fresh) (hnone : run.stage.container = none) {stage : Stage}
    (hstage : stage.container = some host.created) :
    Handles Container.id host.containers (run.held settings)
      (host.create (containerSpec settings run.call.language run.call.code)).containers
      ((run.to stage).held settings) := by
  have hheld : run.held settings = [] := by rw [Run.held, hnone]; rfl
  have hheld' : (run.to stage).held settings = run.held settings ++
      [⟨host.created, containerSpec settings run.call.language run.call.code⟩] := by
    rw [hheld, Run.held]
    show stage.container.toList.map _ = _
    rw [hstage]
    rfl
  rw [hheld']
  exact .take _ fun other hother => (h other hother).ne

theorem handles_keep {stage : Stage} (hstage : stage.container = run.stage.container) :
    Handles Container.id host.containers (run.held settings) host.containers
      ((run.to stage).held settings) := by
  have hheld : (run.to stage).held settings = run.held settings := by
    rw [Run.held, Run.held]
    show stage.container.toList.map _ = _
    rw [hstage]
    rfl
  rw [hheld]
  exact .keep

theorem runMove_handles (hfresh : host.Fresh)
    (h : runMove settings host run answer = some (host', run')) :
    host'.Fresh ∧ Handles Container.id host.containers (run.held settings) host'.containers
      (run'.held settings) := by
  obtain ⟨call, stage⟩ := run
  cases stage with
  | docker =>
      cases h
      refine ⟨hfresh, handles_keep ?_⟩
      split <;> rfl
  | fromEnv =>
      unfold runMove at h
      dsimp only at h
      split at h
      · cases h
        exact ⟨hfresh, handles_keep rfl⟩
      · cases h
        exact ⟨hfresh, handles_keep rfl⟩
  | ping =>
      cases h
      refine ⟨hfresh, handles_keep ?_⟩
      split <;> rfl
  | run =>
      unfold runMove at h
      dsimp only at h
      split at h
      · cases h
        exact ⟨hfresh.create _, handles_create hfresh rfl rfl⟩
      · cases h
        exact ⟨hfresh, handles_keep rfl⟩
      · cases h
        exact ⟨hfresh.create _, handles_create hfresh rfl rfl⟩
  | wait id =>
      unfold runMove at h
      dsimp only at h
      split at h
      · cases h
        exact ⟨hfresh, handles_keep rfl⟩
      · cases h
        exact ⟨hfresh, handles_keep rfl⟩
  | kill id =>
      cases h
      exact ⟨hfresh, handles_keep rfl⟩
  | stdout id timedOut exitCode =>
      cases h
      exact ⟨hfresh, handles_keep rfl⟩
  | stderr id timedOut exitCode stdout =>
      cases h
      exact ⟨hfresh, handles_keep rfl⟩
  | remove id timedOut exitCode stdout stderr =>
      unfold runMove at h
      dsimp only at h
      split at h
      · cases h
        refine ⟨hfresh.remove id, ?_⟩
        let own : Container := ⟨id, containerSpec settings call.language call.code⟩
        exact .give own [] (List.Perm.refl [own])
      · cases h
        exact ⟨hfresh, handles_keep rfl⟩
  | returned result left => cases h
  | raised failure left => cases h

/-! ## What the runs report -/

/-- The exit code is known exactly where the run did not time out. -/
structure SandboxResultFits (timeout : Int) (result : SandboxResult) : Prop where
  timedOut : result.timedOut = true ↔ result.exitCode = none
  ok : result.ok = true ↔ result.exitCode = some 0
  marked : result.timedOut = true → (killedMarker timeout).toList <:+ result.stderr.toList

def Run.Fits (settings : SandboxSettings) (self : Run) : Prop :=
  match self.stage with
  | .stdout _ timedOut exitCode | .stderr _ timedOut exitCode _
  | .remove _ timedOut exitCode _ _ => timedOut = true ↔ exitCode = none
  | .returned result _ => SandboxResultFits (self.call.timeout settings) result
  | _ => True

theorem killedMarker_toList (timeout : Int) :
    (killedMarker timeout).toList =
      '[' :: ("sandbox] killed after ".toList ++ (toString timeout).toList ++
        "s timeou".toList) ++ ['t'] := by
  have hfront : "[sandbox] killed after ".toList = '[' :: "sandbox] killed after ".toList := by
    decide
  have hback : "s timeout".toList = "s timeou".toList ++ ['t'] := by decide
  unfold killedMarker
  rw [String.toList_append, String.toList_append, hfront, hback]
  -- the literals are not to be evaluated
  generalize "sandbox] killed after ".toList = front
  generalize "s timeou".toList = back
  simp

theorem killedMarker_suffix (timeout : Int) (stderr : String) :
    (killedMarker timeout).toList <:+
      (strip (stderr ++ "\n" ++ killedMarker timeout)).toList := by
  rw [strip, String.toList_ofList, String.toList_append, killedMarker_toList]
  exact suffix_stripChars rfl rfl _ _

theorem sandboxResult_fits (timeout : Int) {timedOut : Bool} {exitCode : Option Int}
    (h : timedOut = true ↔ exitCode = none) (stdout stderr : String) (durationMs : PyFloat) :
    SandboxResultFits timeout
      (sandboxResult timeout timedOut exitCode stdout stderr durationMs) := by
  constructor
  · exact h
  · show (!timedOut && exitCode == some 0) = true ↔ exitCode = some 0
    cases timedOut with
    | false => simp
    | true => simp [h.mp rfl]
  · intro htimedOut
    have hstderr : (sandboxResult timeout timedOut exitCode stdout stderr durationMs).stderr =
        strip (stderr ++ "\n" ++ killedMarker timeout) := if_pos htimedOut
    rw [hstderr]
    exact killedMarker_suffix timeout stderr

theorem runMove_fits (hfits : run.Fits settings)
    (h : runMove settings host run answer = some (host', run')) : run'.Fits settings := by
  obtain ⟨call, stage⟩ := run
  cases stage with
  | docker =>
      cases h
      show Run.Fits settings ⟨call, if host.client then .run else .fromEnv⟩
      split <;> trivial
  | fromEnv =>
      unfold runMove at h
      dsimp only at h
      split at h <;> (cases h; trivial)
  | ping =>
      cases h
      show Run.Fits settings ⟨call, if answer.pings then .run else .raised _ none⟩
      split <;> trivial
  | run =>
      unfold runMove at h
      dsimp only at h
      split at h <;> (cases h; trivial)
  | wait id =>
      unfold runMove at h
      dsimp only at h
      split at h
      · cases h
        show false = true ↔ some _ = none
        simp
      · cases h
        trivial
  | kill id =>
      cases h
      exact ⟨fun _ => rfl, fun _ => rfl⟩
  | stdout id timedOut exitCode =>
      cases h
      exact hfits
  | stderr id timedOut exitCode stdout =>
      cases h
      exact hfits
  | remove id timedOut exitCode stdout stderr =>
      unfold runMove at h
      dsimp only at h
      split at h
      · cases h
        exact sandboxResult_fits _ hfits stdout stderr answer.durationMs
      · cases h
        exact sandboxResult_fits _ hfits stdout stderr answer.durationMs
  | returned result left => cases h
  | raised failure left => cases h

/-- How many calls of the client are still to come. -/
def Stage.rank : Stage → ℕ
  | .docker => 9
  | .fromEnv => 8
  | .ping => 7
  | .run => 6
  | .wait _ => 5
  | .kill _ => 4
  | .stdout _ _ _ => 3
  | .stderr _ _ _ _ => 2
  | .remove _ _ _ _ _ => 1
  | .returned _ _ => 0
  | .raised _ _ => 0

theorem runMove_rank (h : runMove settings host run answer = some (host', run')) :
    run'.stage.rank < run.stage.rank := by
  obtain ⟨call, stage⟩ := run
  cases stage with
  | docker =>
      cases h
      show Stage.rank (if host.client then .run else .fromEnv) < 9
      split <;> decide
  | ping =>
      cases h
      show Stage.rank (if answer.pings then .run else .raised _ none) < 7
      split
      · exact Nat.lt_succ_self 6
      · exact Nat.succ_pos 6
  | fromEnv | run | wait id | remove id timedOut exitCode stdout stderr =>
      unfold runMove at h
      dsimp only at h
      split at h <;> (cases h; simp [Run.to, Stage.rank])
  | kill id => cases h; exact Nat.lt_succ_self 3
  | stdout id timedOut exitCode => cases h; exact Nat.lt_succ_self 2
  | stderr id timedOut exitCode stdout => cases h; exact Nat.lt_succ_self 1
  | returned result left => cases h
  | raised failure left => cases h

theorem runMove_call (h : runMove settings host run answer = some (host', run')) :
    run'.call = run.call := by
  obtain ⟨call, stage⟩ := run
  cases stage with
  | fromEnv | run | wait id | remove id timedOut exitCode stdout stderr =>
      unfold runMove at h
      dsimp only at h
      split at h <;> (cases h; rfl)
  | docker | ping | kill id | stdout id timedOut exitCode | stderr id timedOut exitCode stdout =>
      cases h
      rfl
  | returned result left => cases h
  | raised failure left => cases h

/-- The run has answered its caller. -/
def Stage.Ended : Stage → Prop
  | .returned _ _ => True
  | .raised _ _ => True
  | _ => False

theorem runMove_enabled (host : Host) (answer : Answer) (h : ¬ run.stage.Ended) :
    (runMove settings host run answer).isSome := by
  obtain ⟨call, stage⟩ := run
  cases stage with
  | fromEnv | run | wait id | remove id timedOut exitCode stdout stderr =>
      unfold runMove
      dsimp only
      split <;> rfl
  | docker | ping | kill id | stdout id timedOut exitCode | stderr id timedOut exitCode stdout =>
      rfl
  | returned result left => exact absurd trivial h
  | raised failure left => exact absurd trivial h

end Moves

/-! ## Whole runs -/

theorem rank_begin (calls : List Call) (i : ℕ) :
    (calls.map Call.begin)[i]?.elim 0 (fun run => run.stage.rank) ≤ 9 := by
  rw [List.getElem?_map]
  cases calls[i]? with
  | none => exact Nat.zero_le 9
  | some call => exact Nat.le_refl 9

/-- Any number of runs, interleaved call by call, whatever the daemon answers: the daemon
keeps every container it had, and of the runs exactly those that are still in use, failed
half-way to start, or could not be removed.  Each of them is locked down and was handed the
bytes of the code of its own run.  No run makes more than nine calls, one that has not ended
goes on, and what they return fits the exit code. -/
theorem runs_account_for_containers (settings : SandboxSettings) (before : Host)
    (calls : List Call) (hfresh : before.Fresh)
    (hdistinct : (before.containers.map Container.id).Nodup) (labels : List (ℕ × Answer))
    (after : Shared Host Run) (out : List Empty)
    (hrun : (sandboxSystem settings).run ⟨before, calls.map Call.begin⟩ labels =
      some (after, out)) :
    after.state.containers.Perm
        (before.containers ++ after.parties.flatMap (Run.held settings)) ∧
      after.parties.map Run.call = calls ∧
      (∀ i, (labels.filter fun label => label.1 == i).length ≤ 9) ∧
      ∀ run ∈ after.parties, run.Fits settings ∧
        (∀ container ∈ run.held settings,
          container.spec = containerSpec settings run.call.language run.call.code ∧
          delivered run.call.language container.spec.command =
            some (Utf8.encode run.call.code.toList)) ∧
        (run.stage.Ended ∨
          ∀ answer, (runMove settings after.state run answer).isSome) := by
  have hnone : ∀ run ∈ calls.map Call.begin, run.held settings = [] := by
    intro run hrun
    obtain ⟨call, -, rfl⟩ := List.mem_map.mp hrun
    rfl
  have haccounted : Accounted Container.id (Run.held settings) before.containers
      after.state.containers after.parties :=
    accounted_run (fun _ _ _ _ _ hs h => runMove_handles hs h) hfresh
      (accounted_start hdistinct hnone) hrun
  have hcalls : after.parties.map Run.call = calls := by
    have hsame := interleaving_map (fun _ _ _ _ _ h => runMove_call h) hrun
    rw [hsame, List.map_map]
    exact List.map_id _
  have hlength : ∀ i, (labels.filter fun label => label.1 == i).length ≤ 9 := by
    intro i
    have hown := @interleaving_own_le _ _ _ _ (fun run : Run => run.stage.rank)
      (fun _ _ _ _ _ h => runMove_rank h) _ _ _ _ hrun i
    have hbegin := rank_begin calls i
    dsimp only at hown
    omega
  have hstart : ∀ run ∈ calls.map Call.begin, run.Fits settings := by
    intro run hrun
    obtain ⟨call, -, rfl⟩ := List.mem_map.mp hrun
    trivial
  have hfits := interleaving_each (fun _ _ _ _ _ hs h => runMove_fits hs h) hstart hrun
  refine ⟨haccounted.perm, hcalls, hlength, ?_⟩
  intro run hparty
  refine ⟨hfits run hparty, ?_, ?_⟩
  · intro container hcontainer
    obtain ⟨id, -, rfl⟩ := List.mem_map.mp hcontainer
    exact ⟨rfl, delivered_containerSpec settings run.call.language run.call.code⟩
  · by_cases hended : run.stage.Ended
    · exact .inl hended
    · exact .inr fun answer => runMove_enabled after.state answer hended

/-- Next to a container of somebody else's, one run times out and another one, whose client
is already there, cannot remove its container. -/
theorem runs_account_for_containers_two :
    let settings : SandboxSettings := {}
    let other : Container := ⟨0, containerSpec settings .python "pass"⟩
    let calls : List Call :=
      [{ code := "while True: pass" }, { code := "1", language := .javascript }]
    let labels : List (ℕ × Answer) :=
      [(0, {}), (0, {}), (1, {}), (0, {}), (1, {}), (0, {}), (0, {}), (1, { exit := some 0 }),
        (0, {}), (1, {}), (0, {}), (1, {}), (0, {}), (1, { removes := false }), (0, {})]
    let start : Shared Host Run := ⟨⟨false, [other], 1⟩, calls.map Call.begin⟩
    ∃ after out, (sandboxSystem settings).run start labels = some (after, out) ∧
      after.state.containers.map Container.id = [0, 1] ∧
      after.state.containers.Perm ([other] ++ after.parties.flatMap (Run.held settings)) := by
  intro settings other calls labels start
  have hids : ((sandboxSystem settings).run start labels).map
      (fun result => result.1.state.containers.map Container.id) = some [0, 1] := by
    decide +kernel
  obtain ⟨⟨after, out⟩, hrun, hleft⟩ := Option.map_eq_some_iff.mp hids
  have h := runs_account_for_containers settings ⟨false, [other], 1⟩ calls
    (by simp [Host.Fresh, other]) (by simp) labels after out hrun
  exact ⟨after, out, hrun, hleft, h.1⟩

end Lour.Sandbox
