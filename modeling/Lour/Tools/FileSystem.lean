import Lour.Lib.Files
import Lour.Lib.Interleaving
import Lour.Lib.Utf8
import Lour.Tools.Audit
/-!
# `fs_ops`

The tool resolves the path it is given below the workspace root and refuses what
resolves to anywhere else; what passes is read, listed or written by another thread,
at a later time.  Files are read and written piece by piece, without a lock, so that
others may come in between; making the parents and listing a directory are one step
each.  Any number of calls may be under way.
-/

namespace Lour.Tools

open Lour.Lib Lour.Lib.Files Lour.Lib.Python
open Lour.Lib.Files.Tree (Resolved Grown SameLinks Agree SameWay)

inductive FileOp where
  | read
  | write
  | list
  deriving DecidableEq

structure FileSystemArgs where
  op : FileOp
  path : String
  content : Option String := none

structure FileSystemTool where
  root : Path

def maxReadBytes : ℕ := 200000

/-- What is read of a file: at most so many of its bytes, with replacement characters. -/
def decodeRead (bytes : List UInt8) : String :=
  String.ofList (Utf8.decode (bytes.take maxReadBytes))

def pathText (path : Path) : String := "/" ++ "/".intercalate path

/-- The proper ancestors of a path, from `/` on. -/
def parents (path : Path) : List Path := (List.range path.length).map path.take

/-- Where a call stands: not begun, resolved and handed to the thread, its target found to
be a file, with the file open and what has been read of it, with the parent directory
made, with the file open and how much of it has been written, or over. -/
inductive FileCall where
  | asked (args : FileSystemArgs)
  | resolved (args : FileSystemArgs) (target : Path)
  | checked (args : FileSystemArgs) (target : Path)
  | reading (args : FileSystemArgs) (path : Path) (data : List UInt8)
  | parented (args : FileSystemArgs) (content : String) (target : Path)
  | writing (args : FileSystemArgs) (content : String) (path : Path) (offset : ℕ)
  | returned (result : Except Raised ToolResult)

/-- What a step does to files and directories: a file is opened to be read, and read
piece by piece until nothing is left, or opened to be written, which empties it, and
written piece by piece until it is closed. -/
inductive FileAccess where
  | opened (path : Path)
  | read (path : Path) (offset : ℕ) (bytes : List UInt8)
  | finished (path : Path) (data : List UInt8)
  | listed (path : Path)
  | emptied (path : Path)
  | wrote (path : Path) (offset : ℕ) (bytes : List UInt8)
  | closed (path : Path) (content : String)
  deriving DecidableEq

namespace FileAccess

def path : FileAccess → Path
  | opened path => path
  | read path _ _ => path
  | finished path _ => path
  | listed path => path
  | emptied path => path
  | wrote path _ _ => path
  | closed path _ => path

/-- The access changes what is in the file. -/
def Changes (path : Path) : FileAccess → Prop
  | emptied other => other = path
  | wrote other _ _ => other = path
  | _ => False

end FileAccess

namespace FileSystemTool

/-- `__init__`, from the expanded directory on, in the working directory `cwd`. -/
def init (cwd : Path) (workspaceDir : String) (t : Tree) : Except Errno (FileSystemTool × Tree) :=
  match t.resolve (if isAbsolute workspaceDir then [] else cwd) (pathParts workspaceDir) with
  | .error e => .error e
  | .ok root =>
      match t.mkdirs root root.length with
      | (_, some e) => .error e
      | (after, none) => .ok (⟨root⟩, after)

section

variable (osError : Errno → String → Raised) (self : FileSystemTool)

/-- `self._root / rel`. -/
def joined (rel : String) : List String :=
  (if isAbsolute rel then [] else self.root) ++ pathParts rel

/-- `_resolve(rel)`: `none` where the path escapes. -/
def resolve (rel : String) (t : Tree) : Except Raised (Option Path) :=
  match t.resolve [] (self.joined rel) with
  | .error e => .error (osError e rel)
  | .ok candidate =>
      if candidate ≠ self.root ∧ (parents candidate).contains self.root = false then .ok none
      else .ok (some candidate)

/-- On its way the path meets a link that leads back to itself. -/
def loops (rel : String) (t : Tree) : Bool := t.loops [] (self.joined rel)

/-! ### The parts of `_dispatch` -/

def notFile (path : String) : ToolResult := .failure s!"Not a file: {pyRepr path}"

def readResult (path : String) (data : List UInt8) : ToolResult :=
  .success (.obj [("path", .str path), ("content", .str (decodeRead data))])

def writeResult (path content : String) : ToolResult :=
  .success (.obj [("path", .str path), ("bytes_written", .int content.length)])

/-- `op == "read"`. -/
def readFile (args : FileSystemArgs) (target : Path) (t : Tree) : ToolResult :=
  match t.lookup target with
  | some (_, .file bytes) => readResult args.path bytes
  | _ => notFile args.path

/-- The sorted entries of `base`, which are looked up at `found`. -/
def entries (base found : Path) (t : Tree) : List String :=
  ((t.names found).map fun name =>
    name ++ (if t.isDir (base ++ [name]) then "/" else "")).insertionSort fun a b => a ≤ b

/-- `op == "list"`. -/
def listFiles (args : FileSystemArgs) (target : Path) (t : Tree) :
    Except Raised ToolResult × List FileAccess :=
  let base := if t.isDir target then target else self.root
  match t.lookup base with
  | some (found, .dir) =>
      (.ok (.success (.obj [("path", .str args.path),
        ("entries", .arr ((entries base found t).map .str))])), [.listed found])
  | some _ => (.error (osError .notADirectory (pathText base)), [])
  | none => (.error (osError .notFound (pathText base)), [])

/-- `target.parent.mkdir(parents=True, exist_ok=True)`. -/
def makeParent (target : Path) (t : Tree) : Tree × Option Raised :=
  let (after, error) := t.mkdirs target.dropLast target.dropLast.length
  (after, error.map fun e => osError e (pathText target.dropLast))

/-- `target.write_text(content)` and the result. -/
def writeText (path : String) (target : Path) (content : String) (t : Tree) :
    Except Raised ToolResult × Tree :=
  match t.openNew target with
  | .error e => (.error (osError e (pathText target)), t)
  | .ok (found, after) =>
      (.ok (writeResult path content), after.writeAt found 0 (Utf8.encode content.toList))

/-- `_dispatch(args, target)`. -/
def dispatch (args : FileSystemArgs) (target : Path) (t : Tree) :
    Except Raised ToolResult × Tree :=
  match args.op with
  | .read => (.ok (readFile args target t), t)
  | .list => ((self.listFiles osError args target t).1, t)
  | .write =>
      match args.content with
      | none => (.ok (.failure "content is required for op='write'"), t)
      | some content =>
          match makeParent osError target t with
          | (after, some exc) => (.error exc, after)
          | (after, none) => writeText osError args.path target content after

def escapes (path : String) : ToolResult :=
  .failure s!"Path escapes the workspace: {pyRepr path}"

/-- `execute(args)`, undisturbed. -/
def execute (args : FileSystemArgs) (t : Tree) : Except Raised ToolResult × Tree :=
  match self.resolve osError args.path t with
  | .error exc => (.error exc, t)
  | .ok none => (.ok (escapes args.path), t)
  | .ok (some target) => self.dispatch osError args target t

/-! ### Calls under way -/

/-- The next step of a call, in which the operating system gives or takes at most `n + 1`
bytes. -/
def move (t : Tree) (call : FileCall) (n : ℕ) : Option (Tree × FileCall × List FileAccess) :=
  match call with
  | .asked args =>
      match self.resolve osError args.path t with
      | .error exc => some (t, .returned (.error exc), [])
      | .ok none => some (t, .returned (.ok (escapes args.path)), [])
      | .ok (some target) => some (t, .resolved args target, [])
  | .resolved args target =>
      match args.op with
      | .read =>
          match t.lookup target with
          | some (_, .file _) => some (t, .checked args target, [])
          | _ => some (t, .returned (.ok (notFile args.path)), [])
      | .list =>
          let (result, out) := self.listFiles osError args target t
          some (t, .returned result, out)
      | .write =>
          match args.content with
          | none => some (t, .returned (.ok (.failure "content is required for op='write'")), [])
          | some content =>
              match makeParent osError target t with
              | (after, some exc) => some (after, .returned (.error exc), [])
              | (after, none) => some (after, .parented args content target, [])
  | .checked args target =>
      match t.lookup target with
      | some (found, .file _) => some (t, .reading args found [], [.opened found])
      | some _ => some (t, .returned (.error (osError .isADirectory (pathText target))), [])
      | none => some (t, .returned (.error (osError .notFound (pathText target))), [])
  | .reading args path data =>
      match (((t.contents path).getD []).drop data.length).take (n + 1) with
      | [] => some (t, .returned (.ok (readResult args.path data)), [.finished path data])
      | bytes =>
          some (t, .reading args path (data ++ bytes), [.read path data.length bytes])
  | .parented args content target =>
      match t.openNew target with
      | .error e => some (t, .returned (.error (osError e (pathText target))), [])
      | .ok (found, after) => some (after, .writing args content found 0, [.emptied found])
  | .writing args content path offset =>
      match ((Utf8.encode content.toList).drop offset).take (n + 1) with
      | [] => some (t, .returned (.ok (writeResult args.path content)), [.closed path content])
      | bytes =>
          some (t.writeAt path offset bytes,
            .writing args content path (offset + bytes.length), [.wrote path offset bytes])
  | .returned _ => none

def system : System (Shared Tree FileCall) (ℕ × ℕ) (ℕ × FileAccess) :=
  choosing (self.move osError)

end

/-! ## What a step does -/

section Steps

/-- The workspace is there: all of the way to it is directories. -/
structure Rooted (root : Path) (t : Tree) : Prop where
  dirs : ∀ p, p <+: root → t.lstat p = some .dir
  names : ∀ name ∈ root, isName name = true

/-- The call meets no loop, has been handed a path in the workspace that holds no link, or
has a file of the workspace open. -/
def Within (root : Path) (t : Tree) : FileCall → Prop
  | .asked args => loops ⟨root⟩ args.path t = false
  | .resolved _ target => root <+: target ∧ Resolved t target
  | .checked _ target => root <+: target ∧ Resolved t target
  | .reading _ path _ => root <+: path
  | .parented _ _ target => root <+: target ∧ Resolved t target
  | .writing _ _ path _ => root <+: path ∧ ∃ bytes, t.contents path = some bytes
  | .returned _ => True

/-- A step looks at what is in the workspace, makes directories on the way to a path
of it, or changes a file of it. -/
inductive Effect (root : Path) (t : Tree) : Tree → List FileAccess → Prop
  | looked (out : List FileAccess) (hout : ∀ a ∈ out, root <+: a.path) : Effect root t t out
  | grown (target : Path) (after : Tree) (hin : root <+: target)
      (hgrown : Grown target.dropLast t after) : Effect root t after []
  | changed (path : Path) (bytes : List UInt8) (access : FileAccess) (hin : root <+: path)
      (haccess : access.path = path) (hne : path ≠ []) (hnotDir : t.lstat path ≠ some .dir)
      (hlink : t.isLink path = false) : Effect root t (t.put path (.file bytes)) [access]

variable {osError : Errno → String → Raised} {self : FileSystemTool} {t u : Tree}

theorem mem_parents {p path : Path} : p ∈ parents path ↔ p <+: path ∧ p ≠ path := by
  rw [parents, List.mem_map]
  constructor
  · rintro ⟨n, hn, rfl⟩
    refine ⟨List.take_prefix _ _, ?_⟩
    intro heq
    have hlength : (path.take n).length = path.length := congrArg List.length heq
    rw [List.length_take] at hlength
    have hlt : n < path.length := List.mem_range.mp hn
    omega
  · rintro ⟨hpre, hne⟩
    refine ⟨p.length, ?_, (List.prefix_iff_eq_take.mp hpre).symm⟩
    rw [List.mem_range]
    have hle : p.length ≤ path.length := hpre.length_le
    have hneq : p.length ≠ path.length := fun h => hne (hpre.eq_of_length h)
    omega

/-- What `_resolve` lets through, if it meets no loop, is in the workspace. -/
theorem resolve_within {rel : String} {target : Path} (hloops : self.loops rel t = false)
    (h : self.resolve osError rel t = .ok (some target)) :
    self.root <+: target ∧ Resolved t target := by
  unfold resolve at h
  split at h
  next => cases h
  next candidate hcandidate =>
    split at h
    next => cases h
    next hinside =>
      cases h
      refine ⟨?_, Tree.resolved_resolve Resolved.nil hloops hcandidate⟩
      rw [not_and_or, not_not, Bool.not_eq_false, List.contains_iff_mem] at hinside
      rcases hinside with heq | hparent
      · rw [heq]
      · exact (mem_parents.mp hparent).1

theorem Rooted.resolved {root : Path} (h : Rooted root t) : Resolved t root where
  names := h.names
  plain p hp := by
    rw [Tree.isLink, h.dirs p hp]

/-- The directory that is listed is in the workspace. -/
theorem listed_within (hrooted : Rooted self.root t) {target : Path}
    (hin : self.root <+: target) (hresolved : Resolved t target) :
    self.root <+: (if t.isDir target then target else self.root) ∧
      Resolved t (if t.isDir target then target else self.root) := by
  split
  · exact ⟨hin, hresolved⟩
  · exact ⟨List.prefix_rfl, hrooted.resolved⟩

theorem listFiles_looked {args : FileSystemArgs} {target : Path} (hrooted : Rooted self.root t)
    (hin : self.root <+: target) (hresolved : Resolved t target) :
    ∀ a ∈ (self.listFiles osError args target t).2, self.root <+: a.path := by
  obtain ⟨hbase, hplain⟩ := listed_within hrooted hin hresolved
  unfold listFiles
  dsimp only
  split
  next found hlookup =>
    obtain ⟨hfound, -, -⟩ := Tree.lookup_eq_some hplain hlookup
    intro a ha
    rw [List.mem_singleton.mp ha, hfound]
    exact hbase
  next => exact fun a ha => absurd ha List.not_mem_nil
  next => exact fun a ha => absurd ha List.not_mem_nil

theorem makeParent_grown (osError : Errno → String → Raised) {target : Path}
    (hresolved : Resolved t target) :
    Grown target.dropLast t (makeParent osError target t).1 := by
  have hspec := Tree.mkdirs_spec (hresolved.of_isPrefix (List.dropLast_prefix target))
    target.dropLast.length
  rw [List.take_length] at hspec
  exact hspec.1

/-- One step of a call has an effect in the workspace only, and leaves the call with a
path in the workspace. -/
theorem move_effect (hrooted : Rooted self.root t) {call call' : FileCall} {n : ℕ}
    {out : List FileAccess} (hwithin : Within self.root t call)
    (h : self.move osError t call n = some (u, call', out)) :
    Effect self.root t u out ∧ Within self.root u call' := by
  have hstill : ∀ {call'}, Within self.root t call' →
      Effect self.root t t [] ∧ Within self.root t call' := by
    intro call' hcall'
    exact ⟨.looked [] fun a ha => absurd ha List.not_mem_nil, hcall'⟩
  have hlooked : ∀ {a : FileAccess}, self.root <+: a.path → Effect self.root t t [a] := by
    intro a ha
    exact .looked [a] fun b hb => (List.mem_singleton.mp hb).symm ▸ ha
  cases call with
  | asked args =>
      simp only [move] at h
      split at h
      next => cases h; exact hstill trivial
      next => cases h; exact hstill trivial
      next target htarget =>
        cases h
        exact hstill (resolve_within hwithin htarget)
  | resolved args target =>
      obtain ⟨hin, hresolved⟩ := hwithin
      simp only [move] at h
      split at h
      next =>
        split at h
        next => cases h; exact hstill ⟨hin, hresolved⟩
        next => cases h; exact hstill trivial
      next =>
        cases h
        exact ⟨.looked _ (listFiles_looked hrooted hin hresolved), trivial⟩
      next =>
        split at h
        next => cases h; exact hstill trivial
        next content _ =>
          have hgrown : Grown target.dropLast t (makeParent osError target t).1 :=
            makeParent_grown osError hresolved
          split at h
          next after exc hmake =>
            cases h
            rw [hmake] at hgrown
            exact ⟨.grown target _ hin hgrown, trivial⟩
          next after hmake =>
            cases h
            rw [hmake] at hgrown
            exact ⟨.grown target _ hin hgrown, hin, hresolved.congr hgrown.sameLinks⟩
  | checked args target =>
      obtain ⟨hin, hresolved⟩ := hwithin
      simp only [move] at h
      split at h
      next found bytes hlookup =>
        obtain ⟨rfl, -, -⟩ := Tree.lookup_eq_some hresolved hlookup
        cases h
        exact ⟨hlooked hin, hin⟩
      next => cases h; exact hstill trivial
      next => cases h; exact hstill trivial
  | reading args path data =>
      simp only [move] at h
      split at h
      next => cases h; exact ⟨hlooked hwithin, trivial⟩
      next => cases h; exact ⟨hlooked hwithin, hwithin⟩
  | parented args content target =>
      obtain ⟨hin, hresolved⟩ := hwithin
      simp only [move] at h
      split at h
      next => cases h; exact hstill trivial
      next found after hopen =>
        obtain rfl := Tree.openNew_at hresolved hopen
        obtain ⟨rfl, -, hne, hnotDir⟩ := Tree.openNew_ok hopen
        cases h
        have hlink := hresolved.plain _ List.prefix_rfl
        exact ⟨.changed _ [] _ hin rfl hne hnotDir hlink, hin, [], Tree.contents_put hne []⟩
  | writing args content path offset =>
      obtain ⟨hin, bytes, hbytes⟩ := hwithin
      obtain ⟨hne, hnotDir, hlink⟩ := Tree.file_of_contents hbytes
      simp only [move] at h
      split at h
      next => cases h; exact ⟨hlooked hin, trivial⟩
      next =>
        cases h
        exact ⟨.changed path _ _ hin rfl hne hnotDir hlink, hin, _, Tree.contents_put hne _⟩
  | returned result => cases h

namespace Effect

variable {root : Path} {out : List FileAccess}

theorem inside (h : Effect root t u out) : ∀ a ∈ out, root <+: a.path := by
  cases h with
  | looked out hout => exact hout
  | grown target after hin hgrown => exact fun a ha => absurd ha List.not_mem_nil
  | changed path bytes access hin haccess hne hnotDir hlink =>
      intro a ha
      rw [List.mem_singleton.mp ha, haccess]
      exact hin

/-- Outside the workspace everything stays as it is. -/
theorem outside (hrooted : Rooted root t) (h : Effect root t u out) {p : Path}
    (hp : ¬ root <+: p) : u.lstat p = t.lstat p := by
  cases h with
  | looked out hout => rfl
  | grown target after hin hgrown =>
      rcases hgrown p with hsame | ⟨hpre, hnone, -⟩
      · exact hsame
      · rcases List.prefix_or_prefix_of_prefix hin
          (hpre.trans (List.dropLast_prefix target)) with hroot | hroot
        · exact absurd hroot hp
        · rw [hrooted.dirs p hroot] at hnone
          cases hnone
  | changed path bytes access hin haccess hne hnotDir hlink =>
      apply Tree.lstat_put_ne
      intro heq
      exact hp (heq ▸ hin)

theorem sameLinks (h : Effect root t u out) : SameLinks t u := by
  cases h with
  | looked out hout => exact SameLinks.refl t
  | grown target after hin hgrown => exact hgrown.sameLinks
  | changed path bytes access hin haccess hne hnotDir hlink =>
      apply Tree.sameLinks_put hne _ hlink
      intro link heq
      cases heq

/-- A directory stays one. -/
theorem dir (h : Effect root t u out) {p : Path} (hp : t.lstat p = some .dir) :
    u.lstat p = some .dir := by
  cases h with
  | looked out hout => exact hp
  | grown target after hin hgrown =>
      rcases hgrown p with hsame | ⟨-, -, hdir⟩
      · exact hsame.trans hp
      · exact hdir
  | changed path bytes access hin haccess hne hnotDir hlink =>
      rw [Tree.lstat_put_ne]
      · exact hp
      · intro heq
        rw [heq] at hp
        exact hnotDir hp

/-- A file stays one. -/
theorem file (h : Effect root t u out) {p : Path} {old : List UInt8}
    (hp : t.contents p = some old) : ∃ bytes, u.contents p = some bytes := by
  cases h with
  | looked out hout => exact ⟨old, hp⟩
  | grown target after hin hgrown =>
      rcases hgrown p with hsame | ⟨-, hnone, -⟩
      · exact ⟨old, (Tree.contents_congr hsame).trans hp⟩
      · rw [Tree.contents_eq_some, hnone] at hp
        cases hp
  | changed path bytes access hin haccess hne hnotDir hlink =>
      by_cases heq : p = path
      · rw [heq]
        exact ⟨bytes, Tree.contents_put hne bytes⟩
      · exact ⟨old, (Tree.contents_put_ne _ heq).trans hp⟩

theorem rooted (hrooted : Rooted root t) (h : Effect root t u out) : Rooted root u where
  dirs p hp := h.dir (hrooted.dirs p hp)
  names := hrooted.names

theorem within (h : Effect root t u out) {call : FileCall} (hcall : Within root t call) :
    Within root u call := by
  cases call with
  | asked args =>
      have hcall : t.loops [] (joined ⟨root⟩ args.path) = false := hcall
      rw [Tree.loops_sameLinks h.sameLinks] at hcall
      exact hcall
  | resolved args target => exact ⟨hcall.1, hcall.2.congr h.sameLinks⟩
  | checked args target => exact ⟨hcall.1, hcall.2.congr h.sameLinks⟩
  | reading args path data => exact hcall
  | parented args content target => exact ⟨hcall.1, hcall.2.congr h.sameLinks⟩
  | writing args content path offset =>
      obtain ⟨old, hold⟩ := hcall.2
      exact ⟨hcall.1, h.file hold⟩
  | returned result => trivial

end Effect

/-! ## Runs -/

/-- The workspace is there, and every call is within it. -/
structure Ready (root : Path) (shared : Shared Tree FileCall) : Prop where
  rooted : Rooted root shared.state
  within : ∀ call ∈ shared.parties, Within root shared.state call

/-- What every step of the calls comes to. -/
theorem step_effect {shared after : Shared Tree FileCall} {label : ℕ × ℕ}
    {out : List (ℕ × FileAccess)} (hready : Ready self.root shared)
    (h : (self.system osError).step shared label = some (after, out)) :
    Ready self.root after ∧
      Effect self.root shared.state after.state (out.map Prod.snd) := by
  obtain ⟨call, state, call', emitted, hcall, hmove, rfl, rfl⟩ := choosing_step_iff.mp h
  have hwithin : Within self.root shared.state call :=
    hready.within call (List.mem_of_getElem? hcall)
  obtain ⟨heffect, hcall'⟩ := move_effect hready.rooted hwithin hmove
  have hemitted : (emitted.map fun o => (label.1, o)).map Prod.snd = emitted := by
    rw [List.map_map]
    exact List.map_id emitted
  rw [hemitted]
  refine ⟨⟨heffect.rooted hready.rooted, ?_⟩, heffect⟩
  intro other hother
  rcases List.mem_or_eq_of_mem_set hother with hmem | heq
  · exact heffect.within (hready.within other hmem)
  · rw [heq]
    exact hcall'

theorem init_rooted {cwd : Path} {workspaceDir : String} (hcwd : Resolved t cwd)
    (hloops : t.loops (if isAbsolute workspaceDir then [] else cwd)
      (pathParts workspaceDir) = false)
    (h : init cwd workspaceDir t = .ok (self, u)) : Rooted self.root u := by
  unfold init at h
  split at h
  next => cases h
  next root hroot =>
    have hresolved : Resolved t root := by
      apply Tree.resolved_resolve _ hloops hroot
      split
      · exact Resolved.nil
      · exact hcwd
    split at h
    next => cases h
    next after hmade =>
      cases h
      have hdirs := (Tree.mkdirs_spec hresolved root.length).2
      rw [hmade, List.take_length] at hdirs
      exact ⟨hdirs rfl, hresolved.names⟩

/-- The calls before any of them has begun. -/
def started (t : Tree) (calls : List FileSystemArgs) : Shared Tree FileCall :=
  ⟨t, calls.map .asked⟩

theorem ready_started {calls : List FileSystemArgs} (hrooted : Rooted self.root t)
    (hcalls : ∀ args ∈ calls, self.loops args.path t = false) :
    Ready self.root (started t calls) where
  rooted := hrooted
  within call hcall := by
    obtain ⟨args, hargs, rfl⟩ := List.mem_map.mp hcall
    exact hcalls args hargs

/-- What has been done from the tree `t` on has been done in the workspace. -/
structure Confined (root : Path) (t : Tree) (shared : Shared Tree FileCall)
    (outs : List (ℕ × FileAccess)) : Prop where
  ready : Ready root shared
  inside : ∀ a ∈ outs, root <+: a.2.path
  outside : ∀ p, ¬ root <+: p → shared.state.lstat p = t.lstat p
  links : SameLinks t shared.state

theorem confined_started {calls : List FileSystemArgs} (hrooted : Rooted self.root t)
    (hcalls : ∀ args ∈ calls, self.loops args.path t = false) :
    Confined self.root t (started t calls) [] where
  ready := ready_started hrooted hcalls
  inside _ ha := absurd ha List.not_mem_nil
  outside _ _ := rfl
  links := SameLinks.refl t

theorem confined_step {shared next : Shared Tree FileCall} {label : ℕ × ℕ}
    {outs out : List (ℕ × FileAccess)} (h : Confined self.root t shared outs)
    (hstep : (self.system osError).step shared label = some (next, out)) :
    Confined self.root t next (outs ++ out) := by
  obtain ⟨hnext, heffect⟩ := step_effect h.ready hstep
  refine ⟨hnext, ?_, ?_, h.links.trans heffect.sameLinks⟩
  · intro a ha
    rcases List.mem_append.mp ha with hold | hnew
    · exact h.inside a hold
    · exact heffect.inside a.2 (List.mem_map_of_mem hnew)
  · intro p hp
    rw [heffect.outside h.ready.rooted hp]
    exact h.outside p hp

/-- Whatever the tree, the workspace, the calls and the order of their steps: where neither
the workspace directory nor a call's path meets a link that leads back to itself, nothing
outside the workspace is read, listed, written or made, and no link is made, removed or
put elsewhere. -/
theorem calls_confined (osError : Errno → String → Raised) (cwd : Path) (workspaceDir : String)
    (before t : Tree) (self : FileSystemTool) (calls : List FileSystemArgs)
    (steps : List (ℕ × ℕ)) (after : Shared Tree FileCall) (outs : List (ℕ × FileAccess))
    (hcwd : Resolved before cwd)
    (hdir : before.loops (if isAbsolute workspaceDir then [] else cwd)
      (pathParts workspaceDir) = false)
    (hinit : init cwd workspaceDir before = .ok (self, t))
    (hcalls : ∀ args ∈ calls, self.loops args.path t = false)
    (hrun : (self.system osError).run (started t calls) steps = some (after, outs)) :
    (∀ a ∈ outs, self.root <+: a.2.path) ∧
      (∀ p, ¬ self.root <+: p → after.state.lstat p = t.lstat p) ∧
      SameLinks t after.state := by
  have hstart := confined_started (init_rooted hcwd hdir hinit) hcalls
  have hconfined : Confined self.root t after outs :=
    System.run_induction (P := Confined self.root t)
      (fun _ _ _ _ _ _ h hstep => confined_step h hstep) hstart hrun
  exact ⟨hconfined.inside, hconfined.outside, hconfined.links⟩

/-- A working directory, and a file outside it. -/
def sampleTree : Tree :=
  ⟨((OrderedDict.empty.set ["srv"] .dir).set ["etc"] .dir).set ["etc", "passwd"] (.file [0x78])⟩

/-- The workspace made there. -/
def sampleWorkspace : Tree := sampleTree.put ["srv", "workspace"] .dir

def sampleError (e : Errno) (path : String) : Raised :=
  ⟨.exception, "OSError", (if e = .notFound then "[Errno 2] " else "[Errno 20] ") ++ path⟩

theorem resolved_sample : Resolved sampleTree ["srv"] where
  names := by decide
  plain p hp := by
    rcases List.prefix_cons_iff.mp hp with hnil | ⟨rest, hrest, hempty⟩
    · rw [hnil]
      rfl
    · rw [hrest, List.prefix_nil.mp hempty]
      rfl

theorem loops_sample : sampleTree.loops ["srv"] (pathParts "./workspace") = false := by
  decide +kernel

theorem init_sample :
    init ["srv"] "./workspace" sampleTree = .ok (⟨["srv", "workspace"]⟩, sampleWorkspace) := by
  have habsolute : isAbsolute "./workspace" = false := rfl
  have hparts : pathParts "./workspace" = ["workspace"] := by decide +kernel
  rw [init, habsolute, hparts, if_neg Bool.false_ne_true]
  rfl

/-- One call tries to get out, another makes a directory and a file. -/
theorem calls_confined_sample :
    ∃ after outs, (system sampleError ⟨["srv", "workspace"]⟩).run (started sampleWorkspace
        [⟨.read, "../../etc/passwd", none⟩, ⟨.write, "notes/a.txt", some "hi"⟩])
        [(1, 0), (0, 0), (1, 0), (1, 0), (1, 0), (1, 9), (1, 0)] = some (after, outs) ∧
      ∀ a ∈ outs, ["srv", "workspace"] <+: a.2.path := by
  have hsome : ((system sampleError ⟨["srv", "workspace"]⟩).run (started sampleWorkspace
      [⟨.read, "../../etc/passwd", none⟩, ⟨.write, "notes/a.txt", some "hi"⟩])
      [(1, 0), (0, 0), (1, 0), (1, 0), (1, 0), (1, 9), (1, 0)]).isSome = true := by
    decide +kernel
  obtain ⟨⟨after, outs⟩, hrun⟩ := Option.isSome_iff_exists.mp hsome
  have hcalls : ∀ args ∈ ([⟨.read, "../../etc/passwd", none⟩,
      ⟨.write, "notes/a.txt", some "hi"⟩] : List FileSystemArgs),
      loops ⟨["srv", "workspace"]⟩ args.path sampleWorkspace = false := by decide +kernel
  exact ⟨after, outs, hrun, (calls_confined sampleError ["srv"] "./workspace" sampleTree
    sampleWorkspace ⟨["srv", "workspace"]⟩ _ _ after outs resolved_sample loops_sample init_sample
    hcalls hrun).1⟩

/-- What follows a link that leads back to itself is not resolved, and through a second
link leads outside. -/
example : ((system sampleError ⟨["srv", "workspace"]⟩).run (started
      ((sampleWorkspace.put ["srv", "workspace", "loop"] (.link "loop")).put
        ["srv", "workspace", "out"] (.link "/etc")) [⟨.read, "loop/../out/passwd", none⟩])
      [(0, 0), (0, 0), (0, 0), (0, 9), (0, 0)]).map Prod.snd =
    some [(0, .opened ["etc", "passwd"]), (0, .read ["etc", "passwd"] 0 [0x78]),
      (0, .finished ["etc", "passwd"] [0x78])] := by decide +kernel

/-! ## A call alone -/

/-- By its own steps alone the call comes to this result and this tree. -/
def Finishes (osError : Errno → String → Raised) (self : FileSystemTool) (t : Tree)
    (call : FileCall) (last : Except Raised ToolResult × Tree) : Prop :=
  ∃ steps outs, (self.system osError).run ⟨t, [call]⟩ steps =
    some (⟨last.2, [.returned last.1]⟩, outs)

theorem Finishes.of_move {call call' : FileCall} (n : ℕ) {out : List FileAccess}
    {last : Except Raised ToolResult × Tree}
    (hmove : self.move osError t call n = some (u, call', out))
    (h : Finishes osError self u call' last) : Finishes osError self t call last := by
  obtain ⟨steps, outs, hrun⟩ := h
  have hstep : (self.system osError).step ⟨t, [call]⟩ (0, n) =
      some (⟨u, [call']⟩, out.map fun o => (0, o)) :=
    choosing_step_iff.mpr ⟨_, _, _, _, rfl, hmove, rfl, rfl⟩
  exact ⟨(0, n) :: steps, _, System.run_cons _ |>.mpr ⟨_, _, outs, hstep, hrun, rfl⟩⟩

theorem finishes_of_returned {call : FileCall} {result : Except Raised ToolResult} (n : ℕ)
    (hmove : ∃ out, self.move osError t call n = some (u, .returned result, out)) :
    Finishes osError self t call (result, u) := by
  obtain ⟨out, hmove⟩ := hmove
  apply Finishes.of_move n hmove
  exact ⟨[], [], rfl⟩

/-- What is left of a file is read in one piece, and then nothing. -/
theorem reading_finishes (args : FileSystemArgs) {path : Path} {bytes : List UInt8}
    (hbytes : t.contents path = some bytes) :
    Finishes osError self t (.reading args path []) (.ok (readResult args.path bytes), t) := by
  have hend : Finishes osError self t (.reading args path bytes)
      (.ok (readResult args.path bytes), t) := by
    apply finishes_of_returned 0
    simp [move, hbytes]
  cases bytes with
  | nil => exact hend
  | cons b rest =>
      have hmove : self.move osError t (.reading args path []) rest.length =
          some (t, .reading args path (b :: rest), [.read path 0 (b :: rest)]) := by
        simp [move, hbytes]
      exact hend.of_move _ hmove

/-- All of the text is written in one piece. -/
theorem writing_finishes (args : FileSystemArgs) (content : String) {path : Path}
    (hempty : t.lstat path = some (.file [])) (hput : t.put path (.file []) = t) :
    Finishes osError self t (.writing args content path 0)
      (.ok (writeResult args.path content),
        t.writeAt path 0 (Utf8.encode content.toList)) := by
  have hcontents : t.contents path = some [] := Tree.contents_eq_some.mpr hempty
  have hend : ∀ v : Tree, Finishes osError self v
      (.writing args content path (Utf8.encode content.toList).length)
      (.ok (writeResult args.path content), v) := by
    intro v
    apply finishes_of_returned 0
    simp [move]
  cases hbytes : Utf8.encode content.toList with
  | nil =>
      have hwritten : t.writeAt path 0 [] = t := by
        simpa [Tree.writeAt, hcontents, splice] using hput
      rw [hwritten]
      have hnow := hend t
      rw [hbytes] at hnow
      exact hnow
  | cons b rest =>
      have hmove : self.move osError t (.writing args content path 0) rest.length =
          some (t.writeAt path 0 (b :: rest),
            .writing args content path (Utf8.encode content.toList).length,
            [.wrote path 0 (b :: rest)]) := by
        simp [move, hbytes]
      exact (hend _).of_move _ hmove

theorem writeText_finishes (args : FileSystemArgs) (content : String) (target : Path) :
    Finishes osError self t (.parented args content target)
      (writeText osError args.path target content t) := by
  unfold writeText
  cases hopen : t.openNew target with
  | error e =>
      apply finishes_of_returned 0
      simp [move, hopen]
  | ok opened =>
      obtain ⟨found, after⟩ := opened
      obtain ⟨rfl, -, hne, -⟩ := Tree.openNew_ok hopen
      have hmove : self.move osError t (.parented args content target) 0 =
          some (t.put found (.file []), .writing args content found 0, [.emptied found]) := by
        simp [move, hopen]
      apply Finishes.of_move 0 hmove
      apply writing_finishes
      · rw [Tree.lstat_put hne, if_pos rfl]
      · exact Tree.put_put _ _ _

theorem readFile_finishes {args : FileSystemArgs} (hop : args.op = .read) (target : Path) :
    Finishes osError self t (.resolved args target) (.ok (readFile args target t), t) := by
  unfold readFile
  split
  next found bytes hlookup =>
    have hcontents : t.contents found = some bytes := by
      rw [Tree.contents_eq_some]
      exact Tree.lstat_of_lookup hlookup
    have hchecked : self.move osError t (.resolved args target) 0 =
        some (t, .checked args target, []) := by simp [move, hop, hlookup]
    have hopened : self.move osError t (.checked args target) 0 =
        some (t, .reading args found [], [.opened found]) := by simp [move, hlookup]
    exact ((reading_finishes args hcontents).of_move 0 hopened).of_move 0 hchecked
  next hnot =>
    apply finishes_of_returned 0
    simp only [move, hop]
    exact ⟨_, rfl⟩

theorem dispatch_finishes (args : FileSystemArgs) (target : Path) :
    Finishes osError self t (.resolved args target) (self.dispatch osError args target t) := by
  unfold dispatch
  cases hop : args.op with
  | read => exact readFile_finishes hop target
  | list =>
      apply finishes_of_returned 0
      simp [move, hop]
  | write =>
      cases hcontent : args.content with
      | none =>
          apply finishes_of_returned 0
          simp [move, hop, hcontent]
      | some content =>
          cases hmake : makeParent osError target t with
          | mk after error =>
              cases error with
              | some exc =>
                  apply finishes_of_returned 0
                  simp [move, hop, hcontent, hmake]
              | none =>
                  have hmade : self.move osError t (.resolved args target) 0 =
                      some (after, .parented args content target, []) := by
                    simp [move, hop, hcontent, hmake]
                  exact (writeText_finishes args content target).of_move 0 hmade

/-- A call that nobody disturbs takes its steps to the result of `execute`. -/
theorem execute_finishes (args : FileSystemArgs) :
    Finishes osError self t (.asked args) (self.execute osError args t) := by
  unfold execute
  cases hresolve : self.resolve osError args.path t with
  | error exc =>
      apply finishes_of_returned 0
      simp [move, hresolve]
  | ok candidate =>
      cases candidate with
      | none =>
          apply finishes_of_returned 0
          simp [move, hresolve]
      | some target =>
          have hmove : self.move osError t (.asked args) 0 =
              some (t, .resolved args target, []) := by simp [move, hresolve]
          exact (dispatch_finishes args target).of_move 0 hmove

/-! ## Reading what was written -/

/-- What an access says of the step that makes it. -/
def Reports (t : Tree) (call : FileCall) (u : Tree) (call' : FileCall) : FileAccess → Prop
  | .opened path => ∃ args, call' = .reading args path []
  | .finished path data => ∃ args, call = .reading args path data ∧ u = t ∧
      ((t.contents path).getD []).length ≤ data.length ∧
      call' = .returned (.ok (readResult args.path data))
  | .emptied path => u.contents path = some [] ∧
      ∃ args content, call' = .writing args content path 0
  | .closed path content => ∃ args offset, call = .writing args content path offset ∧ u = t ∧
      (Utf8.encode content.toList).length ≤ offset ∧ ∃ result, call' = .returned result
  | _ => True

theorem length_le_of_take_drop_eq_nil {bytes : List UInt8} {offset n : ℕ}
    (h : (bytes.drop offset).take (n + 1) = []) : bytes.length ≤ offset := by
  rcases List.take_eq_nil_iff.mp h with hn | hdrop
  · cases hn
  · exact List.drop_eq_nil_iff.mp hdrop

/-- A step makes one access or none. -/
theorem reports_of_move {call call' : FileCall} {n : ℕ} {out : List FileAccess}
    (h : self.move osError t call n = some (u, call', out)) :
    out = [] ∨ ∃ a, out = [a] ∧ Reports t call u call' a := by
  cases call with
  | asked args =>
      simp only [move] at h
      split at h <;> cases h <;> exact .inl rfl
  | resolved args target =>
      simp only [move] at h
      split at h
      next => split at h <;> cases h <;> exact .inl rfl
      next =>
        cases h
        unfold listFiles
        dsimp only
        split
        · exact .inr ⟨_, rfl, trivial⟩
        · exact .inl rfl
        · exact .inl rfl
      next =>
        split at h
        next => cases h; exact .inl rfl
        next => split at h <;> cases h <;> exact .inl rfl
  | checked args target =>
      simp only [move] at h
      split at h
      next => cases h; exact .inr ⟨_, rfl, args, rfl⟩
      next => cases h; exact .inl rfl
      next => cases h; exact .inl rfl
  | reading args path data =>
      simp only [move] at h
      split at h
      next hrest =>
        cases h
        exact .inr ⟨_, rfl, args, rfl, rfl, length_le_of_take_drop_eq_nil hrest, rfl⟩
      next => cases h; exact .inr ⟨_, rfl, trivial⟩
  | parented args content target =>
      simp only [move] at h
      split at h
      next => cases h; exact .inl rfl
      next found after hopen =>
        obtain ⟨rfl, -, hne, -⟩ := Tree.openNew_ok hopen
        cases h
        exact .inr ⟨_, rfl, Tree.contents_put hne [], args, content, rfl⟩
  | writing args content path offset =>
      simp only [move] at h
      split at h
      next hrest =>
        cases h
        exact .inr ⟨_, rfl, args, offset, rfl, rfl, length_le_of_take_drop_eq_nil hrest, _, rfl⟩
      next => cases h; exact .inr ⟨_, rfl, trivial⟩
  | returned result => cases h

/-- A file that is neither emptied nor written stays as it is. -/
theorem contents_move {call call' : FileCall} {n : ℕ} {out : List FileAccess} {path : Path}
    (h : self.move osError t call n = some (u, call', out))
    (hquiet : ∀ a ∈ out, ¬ a.Changes path) : u.contents path = t.contents path := by
  cases call with
  | asked args =>
      simp only [move] at h
      split at h <;> cases h <;> rfl
  | resolved args target =>
      simp only [move] at h
      split at h
      next => split at h <;> cases h <;> rfl
      next => cases h; rfl
      next =>
        split at h
        next => cases h; rfl
        next =>
          have hmade : (makeParent osError target t).1.contents = t.contents :=
            Tree.contents_mkdirs _ _
          split at h
          next hmake =>
            cases h
            rw [hmake] at hmade
            rw [hmade]
          next hmake =>
            cases h
            rw [hmake] at hmade
            rw [hmade]
  | checked args target =>
      simp only [move] at h
      split at h <;> cases h <;> rfl
  | reading args other data =>
      simp only [move] at h
      split at h <;> cases h <;> rfl
  | parented args content target =>
      simp only [move] at h
      split at h
      next => cases h; rfl
      next found after hopen =>
        obtain ⟨rfl, -⟩ := Tree.openNew_ok hopen
        cases h
        apply Tree.contents_put_ne
        intro heq
        exact hquiet _ (List.mem_singleton_self _) heq.symm
  | writing args content other offset =>
      simp only [move] at h
      split at h
      next => cases h; rfl
      next =>
        cases h
        apply Tree.contents_put_ne
        intro heq
        exact hquiet _ (List.mem_singleton_self _) heq.symm
  | returned result => cases h

/-- Where a step of the calls leaves a file and a call. -/
theorem step_call {shared next : Shared Tree FileCall} {label : ℕ × ℕ}
    {out : List (ℕ × FileAccess)}
    (h : (self.system osError).step shared label = some (next, out)) {i : ℕ} {path : Path}
    (hquiet : ∀ a ∈ out, a.2.Changes path → a.1 = i) :
    (next.parties[i]? = shared.parties[i]? ∧
      next.state.contents path = shared.state.contents path) ∨
    ∃ call call' emitted, shared.parties[i]? = some call ∧ next.parties[i]? = some call' ∧
      self.move osError shared.state call label.2 = some (next.state, call', emitted) := by
  obtain ⟨call, state, call', emitted, hcall, hmove, rfl, rfl⟩ := choosing_step_iff.mp h
  by_cases hi : label.1 = i
  · subst hi
    exact .inr ⟨call, call', emitted, hcall, getElem?_moved hcall, hmove⟩
  · refine .inl ⟨List.getElem?_set_ne hi, ?_⟩
    apply contents_move hmove
    intro a ha hchanges
    exact hi (hquiet _ (List.mem_map_of_mem ha) hchanges)

/-- The call has returned. -/
def Over (i : ℕ) (shared : Shared Tree FileCall) (result : Except Raised ToolResult) : Prop :=
  shared.parties[i]? = some (.returned result)

/-- The call has the file open, which holds what the call has written of its text. -/
def Writing (i : ℕ) (path : Path) (shared : Shared Tree FileCall) : Prop :=
  ∃ args content offset, shared.parties[i]? = some (.writing args content path offset) ∧
    shared.state.contents path = some ((Utf8.encode content.toList).take offset) ∧
    offset ≤ (Utf8.encode content.toList).length

/-- The call has the file open, which holds `bytes`, and has read the first of them. -/
def Reading (j : ℕ) (path : Path) (bytes : List UInt8) (shared : Shared Tree FileCall) : Prop :=
  ∃ args data, shared.parties[j]? = some (.reading args path data) ∧ data <+: bytes

section OneStep

variable {shared next : Shared Tree FileCall} {label : ℕ × ℕ} {out : List (ℕ × FileAccess)}
  {i j : ℕ} {path : Path}

theorem Over.step {result : Except Raised ToolResult} (h : Over i shared result)
    (hstep : (self.system osError).step shared label = some (next, out)) :
    Over i next result := by
  obtain ⟨call, state, call', emitted, hcall, hmove, rfl, rfl⟩ := choosing_step_iff.mp hstep
  have hne : label.1 ≠ i := by
    intro heq
    have heq : call = .returned result := Option.some.inj (hcall.symm.trans (heq ▸ h))
    rw [heq] at hmove
    cases hmove
  exact (List.getElem?_set_ne hne).trans h

/-- The file of a call that has returned stays as it is where only the call changes it. -/
theorem Over.kept {result : Except Raised ToolResult} (h : Over i shared result)
    (hquiet : ∀ a ∈ out, a.2.Changes path → a.1 = i)
    (hstep : (self.system osError).step shared label = some (next, out)) :
    next.state.contents path = shared.state.contents path := by
  rcases step_call hstep hquiet with ⟨-, hsame⟩ | ⟨call, call', emitted, hcall, -, hmove⟩
  · exact hsame
  · have heq : call = .returned result := Option.some.inj (hcall.symm.trans h)
    rw [heq] at hmove
    cases hmove

theorem Writing.step (h : Writing i path shared)
    (hquiet : ∀ a ∈ out, a.2.Changes path → a.1 = i)
    (hstep : (self.system osError).step shared label = some (next, out)) :
    Writing i path next ∨ ∃ result, Over i next result := by
  obtain ⟨args, content, offset, hparty, hcontents, hoffset⟩ := h
  rcases step_call hstep hquiet with ⟨hsame, hkept⟩ | ⟨call, call', emitted, hcall, hcall', hmove⟩
  · exact .inl ⟨args, content, offset, hsame.trans hparty, hkept.trans hcontents, hoffset⟩
  · obtain rfl := Option.some.inj (hcall.symm.trans hparty)
    simp only [move] at hmove
    split at hmove
    next =>
      simp only [Option.some.injEq, Prod.mk.injEq] at hmove
      obtain ⟨-, rfl, -⟩ := hmove
      exact .inr ⟨_, hcall'⟩
    next =>
      have hne := (Tree.file_of_contents hcontents).1
      have hsplice := Tree.splice_end ((Utf8.encode content.toList).take offset)
        (((Utf8.encode content.toList).drop offset).take (label.2 + 1))
      rw [List.length_take, Nat.min_eq_left hoffset, ← List.take_add] at hsplice
      simp only [Option.some.injEq, Prod.mk.injEq] at hmove
      obtain ⟨hstate, rfl, -⟩ := hmove
      refine .inl ⟨args, content, _, hcall', ?_, ?_⟩
      · rw [← hstate, Tree.writeAt, Tree.contents_put hne, hcontents, Option.getD_some, hsplice,
          List.length_take, List.length_drop, Option.some.injEq]
        apply List.take_eq_take_iff.mpr
        omega
      · rw [List.length_take, List.length_drop]
        omega

theorem Reading.step {bytes : List UInt8} (h : Reading j path bytes shared)
    (hbytes : shared.state.contents path = some bytes)
    (hstep : (self.system osError).step shared label = some (next, out)) :
    Reading j path bytes next ∨ ∃ result, Over j next result := by
  obtain ⟨args, data, hparty, hdata⟩ := h
  obtain ⟨call, state, call', emitted, hcall, hmove, rfl, rfl⟩ := choosing_step_iff.mp hstep
  by_cases hj : label.1 = j
  · subst hj
    obtain rfl := Option.some.inj (hcall.symm.trans hparty)
    simp only [move, hbytes, Option.getD_some] at hmove
    split at hmove
    next =>
      cases hmove
      exact .inr ⟨_, getElem?_moved hcall⟩
    next =>
      simp only [Option.some.injEq, Prod.mk.injEq] at hmove
      obtain ⟨-, rfl, -⟩ := hmove
      refine .inl ⟨args, _, getElem?_moved hcall, ?_⟩
      have hsplit : data ++ bytes.drop data.length = bytes :=
        (List.prefix_iff_eq_append.mp hdata)
      calc
        data ++ (bytes.drop data.length).take (label.2 + 1)
          <+: data ++ bytes.drop data.length :=
            (List.prefix_append_right_inj data).mpr (List.take_prefix _ _)
        _ = bytes := hsplit
  · exact .inl ⟨args, data, (List.getElem?_set_ne hj).trans hparty, hdata⟩

end OneStep

theorem length_step_le {shared next : Shared Tree FileCall} {label : ℕ × ℕ}
    {out : List (ℕ × FileAccess)}
    (h : (self.system osError).step shared label = some (next, out)) : out.length ≤ 1 := by
  obtain ⟨call, state, call', emitted, -, hmove, rfl, rfl⟩ := choosing_step_iff.mp h
  rw [List.length_map]
  rcases reports_of_move hmove with rfl | ⟨a, rfl, -⟩
  · exact Nat.zero_le 1
  · exact Nat.le_refl 1

/-- What an access says of the call that is marked on it. -/
theorem step_reports {shared next : Shared Tree FileCall} {label : ℕ × ℕ} {i : ℕ}
    {a : FileAccess} (h : (self.system osError).step shared label = some (next, [(i, a)])) :
    ∃ call call', shared.parties[i]? = some call ∧ next.parties[i]? = some call' ∧
      Reports shared.state call next.state call' a := by
  obtain ⟨call, state, call', emitted, hcall, hmove, rfl, hout⟩ := choosing_step_iff.mp h
  rcases reports_of_move hmove with rfl | ⟨b, rfl, hreports⟩
  · cases hout
  · cases hout
    exact ⟨call, call', hcall, getElem?_moved hcall, hreports⟩

section Windows

variable {shared after : Shared Tree FileCall} {labels : List (ℕ × ℕ)}
  {outs : List (ℕ × FileAccess)} {i j : ℕ} {path : Path} {content : String}
  {bytes : List UInt8}

/-- A call that writes a file which nobody else changes leaves its text in it. -/
theorem closed_holds {next : Shared Tree FileCall} {label : ℕ × ℕ} (h : Writing i path shared)
    (hquiet : ∀ a ∈ outs, a.2.Changes path → a.1 = i)
    (hrun : (self.system osError).run shared labels = some (after, outs))
    (hclosed : (self.system osError).step after label = some (next, [(i, .closed path content)])) :
    next.state.contents path = some (Utf8.encode content.toList) ∧
      ∃ result, Over i next result := by
  have hwriting : Writing i path after ∨ ∃ result, Over i after result := by
    refine System.invariant_run_of_outs
      (I := fun s => Writing i path s ∨ ∃ result, Over i s result) ?_ (.inl h) hquiet hrun
    intro s a t out hs hout hstep
    rcases hs with hwriting | ⟨result, hover⟩
    · exact hwriting.step hout hstep
    · exact .inr ⟨result, hover.step hstep⟩
  obtain ⟨call, call', hcall, hcall', args, offset, rfl, hstate, hoffset, result, rfl⟩ :=
    step_reports hclosed
  refine ⟨?_, result, hcall'⟩
  rcases hwriting with ⟨args', content', offset', hparty, hcontents, -⟩ | ⟨result', hover⟩
  · obtain ⟨rfl, rfl, -, rfl⟩ := FileCall.writing.inj (Option.some.inj (hcall.symm.trans hparty))
    rw [hstate, hcontents, List.take_of_length_le hoffset]
  · cases hcall.symm.trans hover

/-- What nobody changes is still there. -/
theorem quiet_kept {result : Except Raised ToolResult} (h : Over i shared result)
    (hbytes : shared.state.contents path = some bytes)
    (hquiet : ∀ a ∈ outs, a.2.Changes path → a.1 = i)
    (hrun : (self.system osError).run shared labels = some (after, outs)) :
    Over i after result ∧ after.state.contents path = some bytes := by
  refine System.invariant_run_of_outs
    (I := fun s => Over i s result ∧ s.state.contents path = some bytes) ?_ ⟨h, hbytes⟩ hquiet hrun
  intro s a t out hs hout hstep
  exact ⟨hs.1.step hstep, (hs.1.kept hout hstep).trans hs.2⟩

/-- A call that reads a file which nobody changes gets what is in it. -/
theorem finished_reads {data : List UInt8} {next : Shared Tree FileCall} {label : ℕ × ℕ}
    {result : Except Raised ToolResult} (h : Reading j path bytes shared)
    (hover : Over i shared result) (hbytes : shared.state.contents path = some bytes)
    (hquiet : ∀ a ∈ outs, a.2.Changes path → a.1 = i)
    (hrun : (self.system osError).run shared labels = some (after, outs))
    (hfinished : (self.system osError).step after label = some (next, [(j, .finished path data)])) :
    data = bytes ∧ ∃ asked, Over j next (.ok (readResult asked data)) := by
  have hend : (Over i after result ∧ after.state.contents path = some bytes) ∧
      (Reading j path bytes after ∨ ∃ result, Over j after result) := by
    refine System.invariant_run_of_outs
      (I := fun s => (Over i s result ∧ s.state.contents path = some bytes) ∧
        (Reading j path bytes s ∨ ∃ result, Over j s result)) ?_ ⟨⟨hover, hbytes⟩, .inl h⟩
      hquiet hrun
    intro s a t out hs hout hstep
    refine ⟨⟨hs.1.1.step hstep, (hs.1.1.kept hout hstep).trans hs.1.2⟩, ?_⟩
    rcases hs.2 with hreading | ⟨result', hover'⟩
    · exact hreading.step hs.1.2 hstep
    · exact .inr ⟨result', hover'.step hstep⟩
  obtain ⟨⟨-, hafter⟩, hreading⟩ := hend
  obtain ⟨call, call', hcall, hcall', args, rfl, -, hlength, rfl⟩ := step_reports hfinished
  rw [hafter, Option.getD_some] at hlength
  refine ⟨?_, args.path, hcall'⟩
  rcases hreading with ⟨args', data', hparty, hdata⟩ | ⟨result', hover'⟩
  · obtain ⟨rfl, -, rfl⟩ := FileCall.reading.inj (Option.some.inj (hcall.symm.trans hparty))
    exact hdata.eq_of_length_le hlength
  · cases hcall.symm.trans hover'

end Windows

theorem decodeRead_encode {content : String}
    (h : (Utf8.encode content.toList).length ≤ maxReadBytes) :
    decodeRead (Utf8.encode content.toList) = content := by
  rw [decodeRead, List.take_of_length_le h, Utf8.decode_encode, String.ofList_toList]

/-- Whatever the tree and the calls, whatever their paths name the file by, however their
steps are interleaved and in whatever pieces files are read and written: where from the
opening of a file by a call that writes it until the end of a later reading of it no other
call empties it or writes to it, what is read are the bytes of what was written, and the
reading call returns them, and the text that was written if it is short enough. -/
theorem calls_read_back (osError : Errno → String → Raised) (self : FileSystemTool) (t : Tree)
    (calls : List FileSystemArgs) (steps : List (ℕ × ℕ)) (after : Shared Tree FileCall)
    (first during between reading last : List (ℕ × FileAccess)) (i j : ℕ) (path : Path)
    (content : String) (bytes : List UInt8)
    (hrun : (self.system osError).run (started t calls) steps = some (after,
      first ++ (i, .emptied path) :: (during ++ (i, .closed path content) ::
        (between ++ (j, .opened path) :: (reading ++ (j, .finished path bytes) :: last)))))
    (hquiet : ∀ a ∈ during ++ (between ++ reading), a.2.Changes path → a.1 = i) :
    bytes = Utf8.encode content.toList ∧
      ∃ asked, after.parties[j]? = some (.returned (.ok (readResult asked bytes))) ∧
        (bytes.length ≤ maxReadBytes → decodeRead bytes = content) := by
  have hone : ∀ s a u out, (self.system osError).step s a = some (u, out) → out.length ≤ 1 :=
    fun _ _ _ _ => length_step_le
  obtain ⟨_, _, _, _, s, -, hemptied, hrun⟩ := System.run_split hone hrun
  obtain ⟨_, _, _, s', u, hduring, hclosed, hrun⟩ := System.run_split hone hrun
  obtain ⟨_, _, _, u', v, hbetween, hopened, hrun⟩ := System.run_split hone hrun
  obtain ⟨_, _, _, v', w, hreading, hfinished, hrun⟩ := System.run_split hone hrun
  have hwriting : Writing i path s := by
    obtain ⟨_, call', -, hcall', hcontents, args, text, rfl⟩ := step_reports hemptied
    exact ⟨args, text, 0, hcall', hcontents, Nat.zero_le _⟩
  obtain ⟨hholds, result, hover⟩ :=
    closed_holds hwriting (fun a ha => hquiet a (List.mem_append_left _ ha)) hduring hclosed
  obtain ⟨hover, hholds⟩ := quiet_kept hover hholds
    (fun a ha => hquiet a (List.mem_append_right _ (List.mem_append_left _ ha))) hbetween
  have hsilent : ∀ a ∈ [(j, FileAccess.opened path)], a.2.Changes path → a.1 = i := by
    intro a ha hchanges
    rw [List.mem_singleton.mp ha] at hchanges
    exact absurd hchanges not_false
  have hstill := (hover.kept hsilent hopened).trans hholds
  have hread : Reading j path (Utf8.encode content.toList) v := by
    obtain ⟨_, call', -, hcall', args, rfl⟩ := step_reports hopened
    exact ⟨args, [], hcall', List.nil_prefix⟩
  obtain ⟨hbytes, asked, hasked⟩ := finished_reads hread (hover.step hopened) hstill
    (fun a ha => hquiet a (List.mem_append_right _ (List.mem_append_right _ ha))) hreading hfinished
  refine ⟨hbytes, asked, ?_, ?_⟩
  · have hlast : Over j after (.ok (readResult asked bytes)) :=
      System.invariant_run (I := fun s => Over j s (.ok (readResult asked bytes)))
        (fun _ _ _ _ h hstep => h.step hstep) hasked hrun
    exact hlast
  · intro hshort
    rw [hbytes] at hshort ⊢
    exact decodeRead_encode hshort

/-- One call writes a file, in two pieces, and another reads it. -/
theorem calls_read_back_sample :
    ∃ after asked, (system sampleError ⟨["srv", "workspace"]⟩).run (started sampleWorkspace
        [⟨.write, "a.txt", some "hi"⟩, ⟨.read, "b/../a.txt", none⟩])
        [(0, 0), (1, 0), (0, 0), (0, 0), (0, 0), (1, 0), (0, 0), (0, 0), (1, 0), (1, 9), (1, 0)] =
        some (after, [(0, .emptied ["srv", "workspace", "a.txt"]),
          (0, .wrote ["srv", "workspace", "a.txt"] 0 [0x68]),
          (0, .wrote ["srv", "workspace", "a.txt"] 1 [0x69]),
          (0, .closed ["srv", "workspace", "a.txt"] "hi"),
          (1, .opened ["srv", "workspace", "a.txt"]),
          (1, .read ["srv", "workspace", "a.txt"] 0 [0x68, 0x69]),
          (1, .finished ["srv", "workspace", "a.txt"] [0x68, 0x69])]) ∧
      after.parties[1]? = some (.returned (.ok (readResult asked [0x68, 0x69]))) := by
  have hmap : ((system sampleError ⟨["srv", "workspace"]⟩).run (started sampleWorkspace
      [⟨.write, "a.txt", some "hi"⟩, ⟨.read, "b/../a.txt", none⟩])
      [(0, 0), (1, 0), (0, 0), (0, 0), (0, 0), (1, 0), (0, 0), (0, 0), (1, 0), (1, 9),
        (1, 0)]).map Prod.snd = some [(0, .emptied ["srv", "workspace", "a.txt"]),
          (0, .wrote ["srv", "workspace", "a.txt"] 0 [0x68]),
          (0, .wrote ["srv", "workspace", "a.txt"] 1 [0x69]),
          (0, .closed ["srv", "workspace", "a.txt"] "hi"),
          (1, .opened ["srv", "workspace", "a.txt"]),
          (1, .read ["srv", "workspace", "a.txt"] 0 [0x68, 0x69]),
          (1, .finished ["srv", "workspace", "a.txt"] [0x68, 0x69])] := by decide +kernel
  obtain ⟨⟨after, outs⟩, hrun, rfl⟩ := Option.map_eq_some_iff.mp hmap
  obtain ⟨-, asked, hasked, -⟩ := calls_read_back sampleError ⟨["srv", "workspace"]⟩
    sampleWorkspace _ _ after [] [(0, .wrote ["srv", "workspace", "a.txt"] 0 [0x68]),
      (0, .wrote ["srv", "workspace", "a.txt"] 1 [0x69])] []
    [(1, .read ["srv", "workspace", "a.txt"] 0 [0x68, 0x69])] [] 0 1 _ "hi" _ hrun
    (by simp [FileAccess.Changes])
  exact ⟨after, asked, hrun, hasked⟩

/-- Where two calls write a file at the same time, it may be left with some of either. -/
example : ((system sampleError ⟨["srv", "workspace"]⟩).run (started sampleWorkspace
      [⟨.write, "a.txt", some "abc"⟩, ⟨.write, "a.txt", some "x"⟩])
      [(0, 0), (1, 0), (0, 0), (1, 0), (0, 0), (1, 0), (0, 9), (1, 9), (0, 0), (1, 0)]).map
      (fun last => last.1.state.contents ["srv", "workspace", "a.txt"]) =
    some (some [0x78, 0x62, 0x63]) := by decide +kernel

/-! ## What the calls cannot tell -/

section Unaware

variable {t' : Tree}

theorem Rooted.of_agree {root : Path} (h : Rooted root t) (hagree : Agree root t t') :
    Rooted root t' :=
  ⟨fun p hp => (hagree.dirs p).mp (h.dirs p hp), h.names⟩

/-- Trees that agree on the workspace are the same on the way to anything in it. -/
theorem sameWay_of_agree {root target : Path} (hrooted : Rooted root t)
    (hagree : Agree root t t') (hin : root <+: target) : SameWay target t t' := by
  intro p hp
  rcases List.prefix_or_prefix_of_prefix hin hp with hbelow | habove
  · exact hagree.below p hbelow
  · rw [hrooted.dirs p habove, (hrooted.of_agree hagree).dirs p habove]

theorem insertionSort_eq_of_perm {xs ys : List String} (h : xs.Perm ys) :
    (xs.insertionSort fun a b => a ≤ b) = ys.insertionSort fun a b => a ≤ b := by
  have htotal : Std.Total fun a b : String => a ≤ b := ⟨fun a b => le_total a b⟩
  have htrans : IsTrans String fun a b => a ≤ b := ⟨fun _ _ _ => le_trans⟩
  have hsorted := List.perm_insertionSort (fun a b : String => a ≤ b) xs
  have hsorted' := List.perm_insertionSort (fun a b : String => a ≤ b) ys
  apply List.Perm.eq_of_pairwise _ (List.pairwise_insertionSort _ xs)
    (List.pairwise_insertionSort _ ys)
  · exact hsorted.trans (h.trans hsorted'.symm)
  · exact fun a b _ _ hab hba => le_antisymm hab hba

/-- The order in which the entries were made does not show. -/
theorem entries_agree {root base found : Path} (hagree : Agree root t t')
    (hfound : root <+: found) : entries base found t = entries base found t' := by
  have hnames : (t.names found).Perm (t'.names found) := by
    rw [List.perm_ext_iff_of_nodup (Tree.nodup_names found) (Tree.nodup_names found)]
    intro name
    rw [Tree.mem_names, Tree.mem_names,
      hagree.below _ (hfound.trans (List.prefix_append _ _))]
  unfold entries
  simp only [Tree.isDir_agree hagree]
  exact insertionSort_eq_of_perm (hnames.map _)

theorem listFiles_agree {args : FileSystemArgs} {target : Path} (hrooted : Rooted self.root t)
    (hagree : Agree self.root t t') (hin : self.root <+: target) (hresolved : Resolved t target) :
    self.listFiles osError args target t = self.listFiles osError args target t' := by
  obtain ⟨hbase, hplain⟩ := listed_within hrooted hin hresolved
  have hway : SameWay (if t.isDir target then target else self.root) t t' :=
    sameWay_of_agree hrooted hagree hbase
  have hlookup := Tree.lookup_sameWay hway hplain (hplain.congr hagree.links)
  unfold listFiles
  dsimp only
  rw [← Tree.isDir_agree hagree, ← hlookup]
  split
  next found hfound =>
    obtain ⟨heq, -, -⟩ := Tree.lookup_eq_some hplain hfound
    rw [heq, entries_agree hagree hbase]
  next => rfl
  next => rfl

theorem makeParent_agree (osError : Errno → String → Raised) {target : Path}
    (hrooted : Rooted self.root t)
    (hagree : Agree self.root t t') (hin : self.root <+: target) (hresolved : Resolved t target) :
    (makeParent osError target t).2 = (makeParent osError target t').2 ∧
      Agree self.root (makeParent osError target t).1 (makeParent osError target t').1 := by
  have hparent : target.dropLast <+: target := List.dropLast_prefix target
  have hway : SameWay target.dropLast t t' :=
    (sameWay_of_agree hrooted hagree hin).of_isPrefix hparent
  have hresolved' : Resolved t' target := hresolved.congr hagree.links
  obtain ⟨herror, hmade⟩ := Tree.mkdirs_sameWay hway (hresolved.of_isPrefix hparent)
    (hresolved'.of_isPrefix hparent) target.dropLast.length
  rw [List.take_length] at hmade
  constructor
  · unfold makeParent
    dsimp only
    rw [herror]
  · exact hagree.grown (makeParent_grown osError hresolved)
      (makeParent_grown osError hresolved') hmade

theorem contents_agree {path : Path} (hagree : Agree self.root t t') (hin : self.root <+: path) :
    t'.contents path = t.contents path :=
  (Tree.contents_congr (hagree.below path hin)).symm

/-- A step does the same in trees that agree on the workspace. -/
theorem move_agree {call call' : FileCall} {n : ℕ} {out : List FileAccess}
    (hrooted : Rooted self.root t) (hagree : Agree self.root t t')
    (hwithin : Within self.root t call)
    (h : self.move osError t call n = some (u, call', out)) :
    ∃ u', self.move osError t' call n = some (u', call', out) ∧ Agree self.root u u' := by
  cases call with
  | asked args =>
      have hresolve : self.resolve osError args.path t' = self.resolve osError args.path t := by
        rw [resolve, resolve, Tree.resolve_sameLinks hagree.links hwithin]
      simp only [move] at h ⊢
      rw [hresolve]
      split at h <;> cases h <;> exact ⟨t', rfl, hagree⟩
  | resolved args target =>
      obtain ⟨hin, hresolved⟩ := hwithin
      have hway : SameWay target t t' := sameWay_of_agree hrooted hagree hin
      have hlookup := Tree.lookup_sameWay hway hresolved (hresolved.congr hagree.links)
      simp only [move] at h ⊢
      split at h
      next =>
        rw [← hlookup]
        split at h <;> cases h <;> exact ⟨t', rfl, hagree⟩
      next =>
        cases h
        rw [← listFiles_agree hrooted hagree hin hresolved]
        exact ⟨t', rfl, hagree⟩
      next =>
        split at h
        next => cases h; exact ⟨t', rfl, hagree⟩
        next content _ =>
          obtain ⟨herror, hmade⟩ := makeParent_agree osError hrooted hagree hin hresolved
          cases hmake : makeParent osError target t with
          | mk after error =>
              cases hmake' : makeParent osError target t' with
              | mk after' error' =>
                  rw [hmake, hmake'] at herror hmade
                  have herror : error = error' := herror
                  rw [hmake] at h
                  subst herror
                  cases error with
                  | some exc => cases h; exact ⟨after', rfl, hmade⟩
                  | none => cases h; exact ⟨after', rfl, hmade⟩
  | checked args target =>
      obtain ⟨hin, hresolved⟩ := hwithin
      have hway : SameWay target t t' := sameWay_of_agree hrooted hagree hin
      simp only [move] at h ⊢
      rw [← Tree.lookup_sameWay hway hresolved (hresolved.congr hagree.links)]
      split at h <;> cases h <;> exact ⟨t', rfl, hagree⟩
  | reading args path data =>
      simp only [move] at h ⊢
      rw [contents_agree hagree hwithin]
      split at h <;> cases h <;> exact ⟨t', rfl, hagree⟩
  | parented args content target =>
      obtain ⟨hin, hresolved⟩ := hwithin
      have hway : SameWay target t t' := sameWay_of_agree hrooted hagree hin
      simp only [move] at h ⊢
      rcases Tree.openNew_sameWay hway hresolved (hresolved.congr hagree.links) with
        ⟨e, he, he'⟩ | ⟨hok, hok'⟩
      · rw [he] at h
        rw [he']
        cases h
        exact ⟨t', rfl, hagree⟩
      · have hne : target ≠ [] := (Tree.openNew_ok hok).2.2.1
        rw [hok] at h
        rw [hok']
        cases h
        exact ⟨_, rfl, hagree.put hne _⟩
  | writing args content path offset =>
      obtain ⟨hin, bytes, hbytes⟩ := hwithin
      have hne : path ≠ [] := (Tree.file_of_contents hbytes).1
      simp only [move] at h ⊢
      split at h
      next => cases h; exact ⟨t', rfl, hagree⟩
      next =>
        cases h
        refine ⟨_, rfl, ?_⟩
        rw [Tree.writeAt, Tree.writeAt, contents_agree hagree hin]
        exact hagree.put hne _
  | returned result => cases h

/-- The same calls stand at the same places in trees that agree on the workspace. -/
structure Alike (root : Path) (shared shared' : Shared Tree FileCall) : Prop where
  ready : Ready root shared
  parties : shared'.parties = shared.parties
  agree : Agree root shared.state shared'.state

theorem alike_step (shared shared' : Shared Tree FileCall) (label : ℕ × ℕ)
    (next : Shared Tree FileCall) (out : List (ℕ × FileAccess))
    (h : Alike self.root shared shared')
    (hstep : (self.system osError).step shared label = some (next, out)) :
    ∃ next', (self.system osError).step shared' label = some (next', out) ∧
      Alike self.root next next' := by
  have hnext := (step_effect h.ready hstep).1
  obtain ⟨call, state, call', emitted, hcall, hmove, rfl, rfl⟩ := choosing_step_iff.mp hstep
  obtain ⟨state', hmove', hagree⟩ := move_agree h.ready.rooted h.agree
    (h.ready.within call (List.mem_of_getElem? hcall)) hmove
  refine ⟨⟨state', shared'.parties.set label.1 call'⟩, ?_, hnext, ?_, hagree⟩
  · apply choosing_step_iff.mpr
    exact ⟨call, state', call', emitted, h.parties ▸ hcall, hmove', rfl, rfl⟩
  · show shared'.parties.set label.1 call' = shared.parties.set label.1 call'
    rw [h.parties]

/-- Whatever the files outside the workspace hold, and whether they are there at all: in
trees that agree on the workspace, on the directories and on the links, calls whose paths
meet no link that leads back to itself return the same, access the same and leave trees
that still agree. -/
theorem calls_unaware (osError : Errno → String → Raised) (cwd : Path) (workspaceDir : String)
    (before t t' : Tree) (self : FileSystemTool) (calls : List FileSystemArgs)
    (steps : List (ℕ × ℕ)) (after : Shared Tree FileCall) (outs : List (ℕ × FileAccess))
    (hcwd : Resolved before cwd)
    (hdir : before.loops (if isAbsolute workspaceDir then [] else cwd)
      (pathParts workspaceDir) = false)
    (hinit : init cwd workspaceDir before = .ok (self, t)) (hagree : Agree self.root t t')
    (hcalls : ∀ args ∈ calls, self.loops args.path t = false)
    (hrun : (self.system osError).run (started t calls) steps = some (after, outs)) :
    ∃ after', (self.system osError).run (started t' calls) steps = some (after', outs) ∧
      after'.parties = after.parties ∧ Agree self.root after.state after'.state := by
  have hstart : Alike self.root (started t calls) (started t' calls) :=
    ⟨ready_started (init_rooted hcwd hdir hinit) hcalls, rfl, hagree⟩
  obtain ⟨after', hrun', hend⟩ := System.related_run alike_step hstart hrun
  exact ⟨after', hrun', hend.parties, hend.agree⟩

/-- The file outside holds something else. -/
theorem calls_unaware_sample :
    ∃ after', (system sampleError ⟨["srv", "workspace"]⟩).run
        (started (sampleWorkspace.put ["etc", "passwd"] (.file [0x79, 0x7A]))
          [⟨.list, ".", none⟩, ⟨.read, "../../etc/passwd", none⟩]) [(0, 0), (1, 0), (0, 0)] =
      some (after', [(0, .listed ["srv", "workspace"])]) := by
  have hmap : ((system sampleError ⟨["srv", "workspace"]⟩).run (started sampleWorkspace
      [⟨.list, ".", none⟩, ⟨.read, "../../etc/passwd", none⟩]) [(0, 0), (1, 0), (0, 0)]).map
        Prod.snd = some [(0, .listed ["srv", "workspace"])] := by decide +kernel
  obtain ⟨⟨after, outs⟩, hrun, rfl⟩ := Option.map_eq_some_iff.mp hmap
  have hagree : Agree ["srv", "workspace"] sampleWorkspace
      (sampleWorkspace.put ["etc", "passwd"] (.file [0x79, 0x7A])) :=
    Agree.put_outside (by decide) (by decide) (by decide) (by decide) _
  have hcalls : ∀ args ∈ ([⟨.list, ".", none⟩, ⟨.read, "../../etc/passwd", none⟩] :
      List FileSystemArgs), loops ⟨["srv", "workspace"]⟩ args.path sampleWorkspace = false := by
    decide +kernel
  obtain ⟨after', hrun', -, -⟩ := calls_unaware sampleError ["srv"] "./workspace" sampleTree
    sampleWorkspace _ ⟨["srv", "workspace"]⟩ _ _ after _ resolved_sample loops_sample init_sample
    hagree hcalls hrun
  exact ⟨after', hrun'⟩

end Unaware

end Steps

end FileSystemTool

end Lour.Tools
