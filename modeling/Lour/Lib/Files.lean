import Lour.Lib.OrderedDict
import Mathlib.Data.List.Infix
import Mathlib.Data.List.Perm.Subperm
/-!
# File trees with symbolic links

A tree maps absolute paths to directories, files and symbolic links.  Looking up a
path walks along its names from `/`: `..` goes to the parent of what was reached so
far, and a link is replaced by the path it holds.  The operating system looks every
name up in a directory and fails at a link that leads back to itself; `realpath` only
takes the path apart and leaves what follows such a link as it is written.  The path
a walk ends at holds no link any more, and on such a path every operation acts on
that path alone.
-/

namespace Lour.Lib.Files

/-- The names below `/`. -/
abbrev Path := List String

inductive Node where
  | dir
  | file (bytes : List UInt8)
  | link (target : String)
  deriving DecidableEq

inductive Errno where
  | notFound
  | notADirectory
  | isADirectory
  | fileExists
  | loop
  | nullByte
  deriving DecidableEq

/-- The names of a path as it is written. -/
def parts (path : String) : List String := (path.toList.splitOn '/').map String.ofList

/-- The names that are left of it in a `Path`. -/
def pathParts (path : String) : List String :=
  (parts path).filter fun name => name ≠ "" && name ≠ "."

def isAbsolute (path : String) : Bool := path.toList.head? == some '/'

/-- A name that stands for an entry of a directory. -/
def isName (name : String) : Bool :=
  name ≠ "" && name ≠ "." && name ≠ ".." && !name.toList.contains '\x00'

/-- How paths are walked along: what keeps names from being looked up in a path, how a
walk ends at a name with a null byte or at a link whose target is being walked along, and
what such an end is to a walk that has names left. -/
structure Manner (ε : Type) where
  barred : Path → Option ε
  nullByte : ε
  loop : Path → ε
  leave : ε → List String → ε

/-- Walk along the names, one `step` for each. -/
def walk {ε : Type} (leave : ε → List String → ε) (step : Path → String → Except ε Path) :
    Path → List String → Except ε Path
  | base, [] => .ok base
  | base, name :: rest =>
      match step base name with
      | .ok path => walk leave step path rest
      | .error e => .error (leave e rest)

/-- Why a path is not taken apart to its end: the names of `looped`, which begin with a
link that leads back to itself, have not been looked at. -/
inductive Stop where
  | nullByte
  | looped (names : List String)

/-- `os.path.join(path, rest)`: what begins with a slash stands for itself. -/
def join (names : List String) : List String → List String
  | "" :: name :: rest => name :: rest
  | rest => names ++ rest

def Stop.leave : Stop → List String → Stop
  | .nullByte, _ => .nullByte
  | .looped names, rest => .looped (join names rest)

/-- `os.path.realpath()`'s manner. -/
def lenient : Manner Stop where
  barred _ := none
  nullByte := .nullByte
  loop link := .looped link
  leave := Stop.leave

/-- `os.path.normpath` of the names below `/`; two slashes at the front are one here. -/
def normpath (names : List String) : Path :=
  names.foldl (fun path name =>
    if name = "" ∨ name = "." then path
    else if name = ".." then path.dropLast
    else path ++ [name]) []

/-- Bytes written at an offset over others; what is missing before it is zeros. -/
def splice (old : List UInt8) (offset : ℕ) (bytes : List UInt8) : List UInt8 :=
  (old ++ List.replicate (offset - old.length) 0).take offset ++ bytes ++
    old.drop (offset + bytes.length)

structure Tree where
  nodes : OrderedDict Path Node

namespace Tree

variable (t : Tree)

/-- What is at the path itself, a link included; `/` is a directory. -/
def lstat (path : Path) : Option Node :=
  if path = [] then some .dir else t.nodes.get? path

def put (path : Path) (node : Node) : Tree := ⟨t.nodes.set path node⟩

/-- What keeps names from being looked up in `path`. -/
def barred (path : Path) : Option Errno :=
  match t.lstat path with
  | some .dir => none
  | some _ => some .notADirectory
  | none => some .notFound

def isLink (path : Path) : Bool :=
  match t.lstat path with
  | some (.link _) => true
  | _ => false

def links : List Path := (t.nodes.entries.map Prod.fst).filter t.isLink

/-- The operating system's manner. -/
def strict : Manner Errno where
  barred := t.barred
  nullByte := .nullByte
  loop _ := .loop
  leave e _ := e

/-- Look up one name.  `busy` are the links whose targets are being walked along, and
`follow` walks along the target of one more. -/
def enter {ε : Type} (m : Manner ε) (busy : List Path)
    (follow : Path → Path → String → Except ε Path) (base : Path) (name : String) :
    Except ε Path :=
  match m.barred base with
  | some e => .error e
  | none =>
      if name = "" ∨ name = "." then .ok base
      else if name = ".." then .ok base.dropLast
      else if isName name = false then .error m.nullByte
      else
        match t.lstat (base ++ [name]) with
        | some (.link target) =>
            if base ++ [name] ∈ busy then .error (m.loop (base ++ [name]))
            else follow (base ++ [name]) base target
        | _ => .ok (base ++ [name])

/-- Look up one name, with links at most `fuel` deep. -/
def component {ε : Type} (m : Manner ε) : ℕ → List Path → Path → String → Except ε Path
  | 0, busy => t.enter m busy fun link _ _ => .error (m.loop link)
  | fuel + 1, busy => t.enter m busy fun link base target =>
      walk m.leave (component m fuel (link :: busy)) (if isAbsolute target then [] else base)
        (parts target)

/-- The path the operating system takes a path for. -/
def locate (path : Path) : Except Errno Path :=
  walk t.strict.leave (t.component t.strict t.links.length []) [] path

/-- `os.path.realpath()` of the names below `base`. -/
def realpath (base : Path) (names : List String) : Except Stop Path :=
  walk lenient.leave (t.component lenient t.links.length []) base names

/-- The path itself, where `path.stat()` raises neither on a null byte nor on a loop. -/
def statted (path : Path) : Except Errno Path :=
  if path.any fun name => name.toList.contains '\x00' then .error .nullByte
  else
    match t.locate path with
    | .error .loop => .error .loop
    | _ => .ok path

/-- `Path.resolve()` of the names below `base`, which takes what `realpath` has not looked
at for resolved. -/
def resolve (base : Path) (names : List String) : Except Errno Path :=
  match t.realpath base names with
  | .ok path => .ok path
  | .error .nullByte => .error .nullByte
  | .error (.looped names) => t.statted (normpath names)

/-- The names below `base` lead to a link that leads back to itself. -/
def loops (base : Path) (names : List String) : Bool :=
  match t.realpath base names with
  | .error (.looped _) => true
  | _ => false

/-- What a path leads to, and where that is. -/
def lookup (path : Path) : Option (Path × Node) :=
  match t.locate path with
  | .ok found => (t.lstat found).map fun node => (found, node)
  | .error _ => none

/-- `path.is_dir()`. -/
def isDir (path : Path) : Bool :=
  match t.lookup path with
  | some (_, .dir) => true
  | _ => false

/-- The names of the entries of a directory, in the order they were made. -/
def names (path : Path) : List String :=
  (t.nodes.entries.map Prod.fst).filterMap fun key =>
    key.getLast?.filter fun name => decide (key = path ++ [name])

/-- `os.mkdir(path)`. -/
def mkdir (path : Path) : Except Errno Tree :=
  match path.getLast? with
  | none => .error .fileExists
  | some name =>
      match t.locate path.dropLast with
      | .error e => .error e
      | .ok up =>
          match t.barred up with
          | some e => .error e
          | none =>
              match t.lstat (up ++ [name]) with
              | some _ => .error .fileExists
              | none => .ok (t.put (up ++ [name]) .dir)

/-- `path.mkdir(exist_ok=True)`; `missing` is what is done where a parent is missing. -/
def mkdirAt (path : Path) (missing : Tree × Option Errno) : Tree × Option Errno :=
  match t.mkdir path with
  | .ok after => (after, none)
  | .error e =>
      if e = .notFound then missing else (t, if t.isDir path then none else some e)

/-- `path.mkdir(parents=True, exist_ok=True)` of the first `n` names of a path. -/
def mkdirs (path : Path) : ℕ → Tree × Option Errno
  | 0 => (t, none)
  | n + 1 =>
      t.mkdirAt (path.take (n + 1))
        (match mkdirs path n with
          | (after, some e) => (after, some e)
          | (after, none) => after.mkdirAt (path.take (n + 1)) (after, some .notFound))

/-- The bytes of the file at the path itself. -/
def contents (path : Path) : Option (List UInt8) :=
  match t.lstat path with
  | some (.file bytes) => some bytes
  | _ => none

/-- `open(path, "w")`: the file is emptied, or made; the path it is at is returned too. -/
def openNew (path : Path) : Except Errno (Path × Tree) :=
  match t.locate path with
  | .error e => .error e
  | .ok found =>
      match t.lstat found with
      | some .dir => .error .isADirectory
      | _ => .ok (found, t.put found (.file []))

/-- Write into the file at the path itself. -/
def writeAt (path : Path) (offset : ℕ) (bytes : List UInt8) : Tree :=
  t.put path (.file (splice ((t.contents path).getD []) offset bytes))

end Tree

/-! ## Walks -/

section Walks

variable {ε : Type} {leave : ε → List String → ε} {step step' : Path → String → Except ε Path}

theorem walk_invariant {P : Path → Prop}
    (hstep : ∀ base name path, P base → step base name = .ok path → P path)
    {base path : Path} {names : List String} (hbase : P base)
    (hwalk : walk leave step base names = .ok path) : P path := by
  induction names generalizing base with
  | nil =>
      cases hwalk
      exact hbase
  | cons name rest ih =>
      rw [walk] at hwalk
      cases hfirst : step base name with
      | error e =>
          rw [hfirst] at hwalk
          cases hwalk
      | ok next =>
          rw [hfirst] at hwalk
          exact ih (hstep base name next hbase hfirst) hwalk

/-- Steps that get to the same places walk to the same places. -/
theorem walk_ok_iff
    (hstep : ∀ base name path, step base name = .ok path ↔ step' base name = .ok path)
    {base path : Path} {names : List String} :
    walk leave step base names = .ok path ↔ walk leave step' base names = .ok path := by
  have hone : ∀ {f g : Path → String → Except ε Path},
      (∀ base name path, f base name = .ok path → g base name = .ok path) →
      ∀ base, walk leave f base names = .ok path → walk leave g base names = .ok path := by
    intro f g hfg
    induction names with
    | nil => exact fun base h => h
    | cons name rest ih =>
        intro base h
        rw [walk] at h ⊢
        cases hfirst : f base name with
        | error e =>
            rw [hfirst] at h
            cases h
        | ok next =>
            rw [hfirst] at h
            rw [hfg base name next hfirst]
            exact ih next h
  exact ⟨hone (fun b n p => (hstep b n p).mp) base, hone (fun b n p => (hstep b n p).mpr) base⟩

end Walks

namespace Tree

section

variable {t t' : Tree}

@[simp] theorem lstat_nil : t.lstat [] = some .dir := rfl

theorem lstat_put {path : Path} (hpath : path ≠ []) (node : Node) (other : Path) :
    (t.put path node).lstat other = if other = path then some node else t.lstat other := by
  unfold lstat put
  by_cases hother : other = []
  · subst hother
    rw [if_pos rfl, if_neg hpath.symm, if_pos rfl]
  · rw [if_neg hother, OrderedDict.get?_set, if_neg hother]

/-! ## Files -/

theorem lstat_put_ne {path other : Path} (node : Node) (hother : other ≠ path) :
    (t.put path node).lstat other = t.lstat other := by
  unfold lstat put
  split
  · rfl
  · rw [OrderedDict.get?_set, if_neg hother]

theorem put_put (path : Path) (node node' : Node) :
    (t.put path node).put path node' = t.put path node' := by
  rw [put, put, put, OrderedDict.set_set]

theorem contents_eq_some {path : Path} {bytes : List UInt8} :
    t.contents path = some bytes ↔ t.lstat path = some (.file bytes) := by
  unfold contents
  split
  next bytes' hnode => rw [hnode, Option.some.injEq, Option.some.injEq, Node.file.injEq]
  next hnot =>
    constructor
    · intro h
      cases h
    · intro h
      exact absurd h (hnot bytes)

theorem contents_congr {path : Path} (h : t.lstat path = t'.lstat path) :
    t.contents path = t'.contents path := by
  rw [contents, contents, h]

theorem contents_put {path : Path} (hpath : path ≠ []) (bytes : List UInt8) :
    (t.put path (.file bytes)).contents path = some bytes := by
  rw [contents_eq_some, lstat_put hpath, if_pos rfl]

theorem contents_put_ne {path other : Path} (node : Node) (hother : other ≠ path) :
    (t.put path node).contents other = t.contents other :=
  contents_congr (lstat_put_ne node hother)

/-- Where something is a file it is neither `/`, a directory nor a link. -/
theorem file_of_contents {path : Path} {bytes : List UInt8} (h : t.contents path = some bytes) :
    path ≠ [] ∧ t.lstat path ≠ some .dir ∧ t.isLink path = false := by
  have hnode := contents_eq_some.mp h
  refine ⟨?_, ?_, ?_⟩
  · intro hnil
    rw [hnil, lstat_nil] at hnode
    cases hnode
  · rw [hnode]
    intro hdir
    cases hdir
  · rw [isLink, hnode]

/-- Writing on where a file ends. -/
theorem splice_end (old bytes : List UInt8) : splice old old.length bytes = old ++ bytes := by
  simp [splice]

/-! ## Links -/

theorem isLink_iff {path : Path} :
    t.isLink path = true ↔ ∃ target, t.lstat path = some (.link target) := by
  unfold isLink
  cases t.lstat path with
  | none => simp
  | some node => cases node <;> simp

theorem mem_links {path : Path} : path ∈ t.links ↔ t.isLink path = true := by
  rw [links, List.mem_filter]
  constructor
  · exact fun h => h.2
  · intro h
    refine ⟨?_, h⟩
    obtain ⟨target, htarget⟩ := isLink_iff.mp h
    have hne : path ≠ [] := by
      intro hnil
      rw [hnil, lstat_nil] at htarget
      cases htarget
    rw [lstat, if_neg hne] at htarget
    exact List.mem_map_of_mem (OrderedDict.get?_eq_some.mp htarget)

theorem nodup_links : t.links.Nodup := t.nodes.distinct.filter _

/-- The two trees have the same links. -/
def SameLinks (t t' : Tree) : Prop :=
  ∀ path target, t.lstat path = some (.link target) ↔ t'.lstat path = some (.link target)

namespace SameLinks

theorem refl (t : Tree) : SameLinks t t := fun _ _ => Iff.rfl

theorem symm (h : SameLinks t t') : SameLinks t' t := fun path target => (h path target).symm

theorem trans {t'' : Tree} (h : SameLinks t t') (h' : SameLinks t' t'') : SameLinks t t'' :=
  fun path target => (h path target).trans (h' path target)

theorem isLink (h : SameLinks t t') (path : Path) : t.isLink path = t'.isLink path := by
  rw [Bool.eq_iff_iff, isLink_iff, isLink_iff]
  exact exists_congr (h path)

theorem length_links (h : SameLinks t t') : t.links.length = t'.links.length := by
  apply List.Perm.length_eq
  rw [List.perm_ext_iff_of_nodup nodup_links nodup_links]
  intro path
  rw [mem_links, mem_links, h.isLink path]

end SameLinks

/-- Nodes that are no links, put over what is no link, leave the links as they are. -/
theorem sameLinks_put {path : Path} {node : Node} (hpath : path ≠ [])
    (hnode : ∀ target, node ≠ .link target) (hold : t.isLink path = false) :
    SameLinks t (t.put path node) := by
  intro other target
  rw [lstat_put hpath]
  by_cases hother : other = path
  · subst hother
    rw [if_pos rfl]
    constructor
    · intro h
      rw [isLink_iff.mpr ⟨target, h⟩] at hold
      cases hold
    · intro h
      exact absurd (Option.some.inj h) (hnode target)
  · rw [if_neg hother]

section

variable {ε : Type} {m : Manner ε}

theorem enter_congr {busy : List Path}
    {follow follow' : Path → Path → String → Except ε Path} {base : Path} {name : String}
    (hfollow : ∀ target, t.lstat (base ++ [name]) = some (.link target) → base ++ [name] ∉ busy →
      follow (base ++ [name]) base target = follow' (base ++ [name]) base target) :
    t.enter m busy follow base name = t.enter m busy follow' base name := by
  unfold enter
  split
  · rfl
  · split
    · rfl
    · split
      · rfl
      · split
        · rfl
        · split
          next target htarget =>
            split
            · rfl
            next hbusy => exact hfollow target htarget hbusy
          next => rfl

/-- Deeper than the links are many no walk goes: all of them would be busy. -/
theorem component_fuel {fuel : ℕ} {busy : List Path} (hnodup : busy.Nodup)
    (hlinks : ∀ path ∈ busy, path ∈ t.links) (hfuel : t.links.length ≤ fuel + busy.length) :
    t.component m (fuel + 1) busy = t.component m fuel busy := by
  induction fuel generalizing busy with
  | zero =>
      funext base name
      apply enter_congr
      intro target htarget hbusy
      have hsub : busy.Subperm t.links := hnodup.subperm hlinks
      have hperm : busy.Perm t.links := hsub.perm_of_length_le (by omega)
      exact absurd (hperm.mem_iff.mpr (mem_links.mpr (isLink_iff.mpr ⟨target, htarget⟩))) hbusy
  | succ fuel ih =>
      funext base name
      apply enter_congr
      intro target htarget hbusy
      have hnew : base ++ [name] ∈ t.links := mem_links.mpr (isLink_iff.mpr ⟨target, htarget⟩)
      rw [ih (List.nodup_cons.mpr ⟨hbusy, hnodup⟩) (List.forall_mem_cons.mpr ⟨hnew, hlinks⟩)
        (by rw [List.length_cons]; omega)]

/-- So `realpath` and `locate` walk with all the fuel there is need for. -/
theorem component_links {fuel : ℕ} (hfuel : t.links.length ≤ fuel) :
    t.component m fuel [] = t.component m t.links.length [] := by
  induction fuel with
  | zero => rw [Nat.le_zero.mp hfuel]
  | succ fuel ih =>
      by_cases heq : t.links.length = fuel + 1
      · rw [heq]
      · have hle : t.links.length ≤ fuel := by omega
        rw [component_fuel List.nodup_nil (fun _ h => absurd h List.not_mem_nil)
          (by simpa using hle)]
        exact ih hle

end

/-- Taking a path apart depends on the links alone. -/
theorem component_sameLinks (h : SameLinks t t') (fuel : ℕ) (busy : List Path) :
    t.component lenient fuel busy = t'.component lenient fuel busy := by
  have henter : ∀ busy (follow : Path → Path → String → Except Stop Path) base name,
      t.enter lenient busy follow base name = t'.enter lenient busy follow base name := by
    intro busy follow base name
    simp only [enter, lenient]
    cases hlstat : t.isLink (base ++ [name]) with
    | true =>
        obtain ⟨target, htarget⟩ := isLink_iff.mp hlstat
        rw [htarget, (h _ target).mp htarget]
    | false =>
        have hnot : ∀ {u : Tree} {y : Except Stop Path} {f : String → Except Stop Path},
            u.isLink (base ++ [name]) = false →
            (match u.lstat (base ++ [name]) with
              | some (.link target) => f target
              | _ => y) = y := by
          intro u y f hu
          split
          next target htarget =>
            rw [isLink_iff.mpr ⟨target, htarget⟩] at hu
            cases hu
          next => rfl
        rw [hnot hlstat, hnot (h.isLink _ ▸ hlstat)]
  induction fuel generalizing busy with
  | zero =>
      funext base name
      exact henter busy _ base name
  | succ fuel ih =>
      funext base name
      rw [component, component, henter]
      simp only [ih]

theorem realpath_sameLinks (h : SameLinks t t') : t.realpath = t'.realpath := by
  funext base names
  rw [realpath, realpath, h.length_links, component_sameLinks h]

theorem loops_sameLinks (h : SameLinks t t') : t.loops = t'.loops := by
  funext base names
  rw [loops, loops, realpath_sameLinks h]

/-- Where no loop is met, resolving depends on the links alone too. -/
theorem resolve_sameLinks (h : SameLinks t t') {base : Path} {names : List String}
    (hloops : t.loops base names = false) : t.resolve base names = t'.resolve base names := by
  rw [loops] at hloops
  rw [resolve, resolve, ← realpath_sameLinks h]
  split at hloops
  · cases hloops
  next hstraight =>
    split
    · rfl
    · rfl
    next names' hlooped => exact absurd hlooped (hstraight names')

/-! ## Paths without links -/

/-- The path is made of names, and there is no link on the way to it. -/
structure Resolved (t : Tree) (path : Path) : Prop where
  names : ∀ name ∈ path, isName name = true
  plain : ∀ p, p <+: path → t.isLink p = false

namespace Resolved

theorem nil : Resolved t [] where
  names _ h := absurd h List.not_mem_nil
  plain p hp := by
    rw [List.prefix_nil.mp hp, isLink, lstat_nil]

theorem of_isPrefix {path p : Path} (h : Resolved t path) (hp : p <+: path) : Resolved t p :=
  ⟨fun name hname => h.names name (hp.subset hname), fun q hq => h.plain q (hq.trans hp)⟩

theorem congr {path : Path} (h : Resolved t path) (hlinks : SameLinks t t') : Resolved t' path :=
  ⟨h.names, fun p hp => hlinks.isLink p ▸ h.plain p hp⟩

theorem concat {base : Path} {name : String} (h : Resolved t base) (hname : isName name = true)
    (hlink : t.isLink (base ++ [name]) = false) : Resolved t (base ++ [name]) where
  names other hother := by
    rcases List.mem_append.mp hother with hbase | hlast
    · exact h.names other hbase
    · rw [List.mem_singleton.mp hlast]
      exact hname
  plain p hp := by
    rcases List.prefix_concat_iff.mp hp with rfl | hbase
    · exact hlink
    · exact h.plain p hbase

end Resolved

section

variable {ε : Type} {m : Manner ε}

/-- Where looking up a name ends. -/
theorem enter_ok {busy : List Path}
    {follow : Path → Path → String → Except ε Path} {base path : Path} {name : String}
    (h : t.enter m busy follow base name = .ok path) :
    path <+: base ∨
      (isName name = true ∧ t.isLink (base ++ [name]) = false ∧ path = base ++ [name]) ∨
      ∃ target, follow (base ++ [name]) base target = .ok path := by
  unfold enter at h
  split at h
  next => cases h
  next =>
    split at h
    · cases h
      exact .inl List.prefix_rfl
    · split at h
      · cases h
        exact .inl (List.dropLast_prefix base)
      · split at h
        · cases h
        next hname =>
          split at h
          next target htarget =>
            split at h
            · cases h
            · exact .inr (.inr ⟨target, h⟩)
          next hnode =>
            cases h
            refine .inr (.inl ⟨by simpa using hname, ?_, rfl⟩)
            rw [← Bool.not_eq_true, isLink_iff]
            rintro ⟨target, htarget⟩
            exact hnode target htarget

theorem component_resolved {fuel : ℕ} {busy : List Path} {base path : Path}
    {name : String} (hbase : Resolved t base)
    (h : t.component m fuel busy base name = .ok path) : Resolved t path := by
  induction fuel generalizing busy base name path with
  | zero =>
      rcases enter_ok h with hpre | ⟨hname, hlink, rfl⟩ | ⟨target, hfollow⟩
      · exact hbase.of_isPrefix hpre
      · exact hbase.concat hname hlink
      · cases hfollow
  | succ fuel ih =>
      rcases enter_ok h with hpre | ⟨hname, hlink, rfl⟩ | ⟨target, hfollow⟩
      · exact hbase.of_isPrefix hpre
      · exact hbase.concat hname hlink
      · apply walk_invariant (P := Resolved t) (fun base name path hb hp => ih hb hp) _ hfollow
        split
        · exact Resolved.nil
        · exact hbase

/-- What a walk ends at holds no link any more. -/
theorem walk_resolved {fuel : ℕ} {busy : List Path} {base path : Path} {names : List String}
    (hbase : Resolved t base) (h : walk m.leave (t.component m fuel busy) base names = .ok path) :
    Resolved t path :=
  walk_invariant (P := Resolved t) (fun _ _ _ hb hp => component_resolved hb hp) hbase h

theorem enter_concat {busy : List Path}
    {follow : Path → Path → String → Except ε Path} {base : Path} {name : String}
    (h : Resolved t (base ++ [name])) :
    t.enter m busy follow base name =
      match m.barred base with
      | some e => .error e
      | none => .ok (base ++ [name]) := by
  have hname : isName name = true := h.names name (by simp)
  have hlink : t.isLink (base ++ [name]) = false := h.plain _ List.prefix_rfl
  have hparts : name ≠ "" ∧ name ≠ "." ∧ name ≠ ".." := by
    simp only [isName, Bool.and_eq_true, decide_eq_true_eq] at hname
    exact ⟨hname.1.1.1, hname.1.1.2, hname.1.2⟩
  unfold enter
  split
  next => rfl
  next =>
    rw [if_neg (by rw [not_or]; exact ⟨hparts.1, hparts.2.1⟩), if_neg hparts.2.2,
      if_neg (by rw [hname]; exact Bool.noConfusion)]
    split
    next target htarget =>
      rw [isLink_iff.mpr ⟨target, htarget⟩] at hlink
      cases hlink
    next => rfl

theorem component_concat {fuel : ℕ} {busy : List Path} {base : Path}
    {name : String} (h : Resolved t (base ++ [name])) :
    t.component m fuel busy base name =
      match m.barred base with
      | some e => .error e
      | none => .ok (base ++ [name]) := by
  cases fuel with
  | zero => exact enter_concat h
  | succ fuel => exact enter_concat h

end

/-- A path that meets no loop is resolved to one that holds no link any more. -/
theorem resolved_resolve {base path : Path} {names : List String} (hbase : Resolved t base)
    (hloops : t.loops base names = false) (h : t.resolve base names = .ok path) :
    Resolved t path := by
  rw [loops] at hloops
  rw [resolve] at h
  split at h
  next found hfound =>
    cases h
    exact walk_resolved hbase hfound
  next => cases h
  next names' hlooped =>
    rw [hlooped] at hloops
    cases hloops

theorem resolved_locate {path found : Path} (h : t.locate path = .ok found) : Resolved t found :=
  walk_resolved Resolved.nil h

/-- Go down along the names through directories. -/
def descend (t : Tree) : Path → List String → Except Errno Path
  | base, [] => .ok base
  | base, name :: rest =>
      match t.barred base with
      | some e => .error e
      | none => descend t (base ++ [name]) rest

theorem walk_component_strict {fuel : ℕ} (base : Path) {names : List String}
    (h : Resolved t (base ++ names)) :
    walk t.strict.leave (t.component t.strict fuel []) base names = t.descend base names := by
  induction names generalizing base with
  | nil => rfl
  | cons name rest ih =>
      have hassoc : base ++ name :: rest = base ++ [name] ++ rest := by simp
      rw [hassoc] at h
      rw [walk, descend, component_concat (h.of_isPrefix (List.prefix_append _ _))]
      have hbarred : t.strict.barred base = t.barred base := rfl
      rw [hbarred]
      cases t.barred base with
      | some e => rfl
      | none => exact ih _ h

theorem locate_of_resolved {path : Path} (h : Resolved t path) :
    t.locate path = t.descend [] path :=
  walk_component_strict [] h

theorem descend_concat {base : Path} {names : List String} {name : String} :
    t.descend base (names ++ [name]) =
      match t.descend base names with
      | .error e => .error e
      | .ok up =>
          match t.barred up with
          | some e => .error e
          | none => .ok (up ++ [name]) := by
  induction names generalizing base with
  | nil =>
      simp only [List.nil_append, descend]
  | cons first rest ih =>
      rw [List.cons_append, descend, descend]
      cases t.barred base with
      | some e => rfl
      | none => exact ih

theorem descend_ok {base path : Path} {names : List String} (h : t.descend base names = .ok path) :
    path = base ++ names ∧
      ∀ p, base <+: p → p <+: path → p ≠ path → t.lstat p = some .dir := by
  induction names using List.reverseRecOn generalizing path with
  | nil =>
      cases h
      refine ⟨(List.append_nil base).symm, ?_⟩
      intro p hbase hp hne
      exact absurd (hp.eq_of_length_le hbase.length_le) hne
  | append_singleton names name ih =>
      rw [descend_concat] at h
      cases hup : t.descend base names with
      | error e =>
          rw [hup] at h
          cases h
      | ok up =>
          obtain ⟨hpath, habove⟩ := ih hup
          rw [hup] at h
          dsimp only at h
          split at h
          next => cases h
          next hbarred =>
            cases h
            refine ⟨by rw [hpath, List.append_assoc], ?_⟩
            intro p hbase hp hne
            rcases List.prefix_concat_iff.mp hp with heq | hpre
            · exact absurd heq hne
            · by_cases hpup : p = up
              · rw [hpup]
                unfold barred at hbarred
                split at hbarred
                next hdir => exact hdir
                next => cases hbarred
                next => cases hbarred
              · exact habove p hbase hpre hpup

theorem descend_congr (base : Path) {names : List String}
    (h : ∀ p, p <+: base ++ names → t.lstat p = t'.lstat p) :
    t.descend base names = t'.descend base names := by
  induction names generalizing base with
  | nil => rfl
  | cons name rest ih =>
      have hassoc : base ++ name :: rest = base ++ [name] ++ rest := by simp
      have hbase : t.barred base = t'.barred base := by
        rw [barred, barred, h base (List.prefix_append _ _)]
      rw [descend, descend, hbase]
      cases t'.barred base with
      | some e => rfl
      | none => exact ih _ (hassoc ▸ h)

/-! ## Operations on paths without links -/

theorem lookup_of_resolved {path : Path} (h : Resolved t path) :
    t.lookup path =
      match t.descend [] path with
      | .ok found => (t.lstat found).map fun node => (found, node)
      | .error _ => none := by
  rw [lookup, locate_of_resolved h]

/-- What a path without links leads to is there itself. -/
theorem lookup_eq_some {path found : Path} {node : Node} (h : Resolved t path)
    (hlookup : t.lookup path = some (found, node)) :
    found = path ∧ t.lstat path = some node ∧
      ∀ p, p <+: path → p ≠ path → t.lstat p = some .dir := by
  rw [lookup_of_resolved h] at hlookup
  cases hdescend : t.descend [] path with
  | error e =>
      rw [hdescend] at hlookup
      cases hlookup
  | ok there =>
      obtain ⟨hthere, habove⟩ := descend_ok hdescend
      rw [List.nil_append] at hthere
      rw [hdescend, hthere] at hlookup
      rw [hthere] at habove
      obtain ⟨node', hnode, heq⟩ := Option.map_eq_some_iff.mp hlookup
      cases heq
      exact ⟨rfl, hnode, fun p hp hne => habove p List.nil_prefix hp hne⟩

theorem lstat_of_lookup {path found : Path} {node : Node}
    (h : t.lookup path = some (found, node)) : t.lstat found = some node := by
  unfold lookup at h
  split at h
  next there _ =>
    obtain ⟨node', hnode, heq⟩ := Option.map_eq_some_iff.mp h
    cases heq
    exact hnode
  next => cases h

theorem isDir_iff {path : Path} : t.isDir path = true ↔ ∃ p, t.lookup path = some (p, .dir) := by
  unfold isDir
  cases t.lookup path with
  | none => simp
  | some found =>
      obtain ⟨p, node⟩ := found
      cases node <;> simp

theorem mkdir_of_resolved {path : Path} (h : Resolved t path) :
    t.mkdir path =
      match t.descend [] path with
      | .error e => .error e
      | .ok found =>
          match t.lstat found with
          | some _ => .error .fileExists
          | none => .ok (t.put found .dir) := by
  induction path using List.reverseRecOn with
  | nil => rfl
  | append_singleton up name =>
      rw [mkdir, List.getLast?_concat, List.dropLast_concat, descend_concat,
        locate_of_resolved (h.of_isPrefix (List.prefix_append _ _))]
      cases t.descend [] up with
      | error e => rfl
      | ok found => cases hbarred : t.barred found <;> simp [hbarred]

theorem openNew_of_resolved {path : Path} (h : Resolved t path) :
    t.openNew path =
      match t.descend [] path with
      | .error e => .error e
      | .ok found =>
          match t.lstat found with
          | some .dir => .error .isADirectory
          | _ => .ok (found, t.put found (.file [])) := by
  rw [openNew, locate_of_resolved h]

theorem contents_mkdir {path : Path} {after : Tree} (h : t.mkdir path = .ok after) :
    after.contents = t.contents := by
  unfold mkdir at h
  split at h
  next => cases h
  next name _ =>
    split at h
    next => cases h
    next up _ =>
      split at h
      next => cases h
      next =>
        split at h
        next => cases h
        next hnone =>
          cases h
          funext p
          by_cases hp : p = up ++ [name]
          · rw [hp, contents, contents, hnone, lstat_put (by simp), if_pos rfl]
          · exact contents_put_ne _ hp

theorem contents_mkdirAt {path : Path} {missing : Tree × Option Errno}
    (hmissing : missing.1.contents = t.contents) :
    (t.mkdirAt path missing).1.contents = t.contents := by
  unfold mkdirAt
  split
  next hmkdir => exact contents_mkdir hmkdir
  next =>
    split
    · exact hmissing
    · rfl

/-- Making directories leaves every file as it is. -/
theorem contents_mkdirs (path : Path) (n : ℕ) : (t.mkdirs path n).1.contents = t.contents := by
  induction n with
  | zero => rfl
  | succ n ih =>
      rw [mkdirs]
      apply contents_mkdirAt
      split
      next after e hup =>
        rw [hup] at ih
        exact ih
      next after hup =>
        rw [hup] at ih
        have hagain : (after.mkdirAt (path.take (n + 1)) (after, some .notFound)).1.contents =
            after.contents := contents_mkdirAt rfl
        exact hagain.trans ih

/-- `t'` is `t` with directories made on the way to `path`. -/
def Grown (path : Path) (t t' : Tree) : Prop :=
  ∀ p, t'.lstat p = t.lstat p ∨ p <+: path ∧ t.lstat p = none ∧ t'.lstat p = some .dir

namespace Grown

variable {path : Path}

theorem refl : Grown path t t := fun _ => .inl rfl

theorem trans {t'' : Tree} (h : Grown path t t') (h' : Grown path t' t'') : Grown path t t'' := by
  intro p
  rcases h p with hsame | ⟨hp, hnone, hdir⟩
  · rcases h' p with hsame' | ⟨hp, hnone, hdir⟩
    · exact .inl (hsame'.trans hsame)
    · exact .inr ⟨hp, hsame ▸ hnone, hdir⟩
  · rcases h' p with hsame' | ⟨-, hnone', -⟩
    · exact .inr ⟨hp, hnone, hsame'.trans hdir⟩
    · rw [hdir] at hnone'
      cases hnone'

theorem mono {longer : Path} (h : Grown path t t') (hpath : path <+: longer) :
    Grown longer t t' := by
  intro p
  rcases h p with hsame | ⟨hp, hrest⟩
  · exact .inl hsame
  · exact .inr ⟨hp.trans hpath, hrest⟩

theorem sameLinks (h : Grown path t t') : SameLinks t t' := by
  intro p target
  rcases h p with hsame | ⟨-, hnone, hdir⟩
  · rw [hsame]
  · rw [hnone, hdir]
    simp

end Grown

theorem mkdir_ok {path : Path} (h : Resolved t path) {after : Tree}
    (hmkdir : t.mkdir path = .ok after) :
    Grown path t after ∧ ∀ p, p <+: path → after.lstat p = some .dir := by
  rw [mkdir_of_resolved h] at hmkdir
  cases hdescend : t.descend [] path with
  | error e =>
      rw [hdescend] at hmkdir
      cases hmkdir
  | ok found =>
      obtain ⟨hfound, habove⟩ := descend_ok hdescend
      rw [List.nil_append] at hfound
      rw [hdescend, hfound] at hmkdir
      rw [hfound] at habove
      dsimp only at hmkdir
      split at hmkdir
      next => cases hmkdir
      next hnone =>
        cases hmkdir
        have hne : path ≠ [] := by
          intro hnil
          rw [hnil, lstat_nil] at hnone
          cases hnone
        constructor
        · intro p
          rw [lstat_put hne]
          by_cases hp : p = path
          · rw [if_pos hp, hp]
            exact .inr ⟨List.prefix_rfl, hnone, rfl⟩
          · exact .inl (if_neg hp)
        · intro p hp
          rw [lstat_put hne]
          by_cases heq : p = path
          · rw [if_pos heq]
          · rw [if_neg heq]
            exact habove p (List.nil_prefix) hp heq

theorem dirs_of_isDir {path : Path} (h : Resolved t path) (hdir : t.isDir path = true) :
    ∀ p, p <+: path → t.lstat p = some .dir := by
  obtain ⟨found, hlookup⟩ := isDir_iff.mp hdir
  obtain ⟨-, hnode, habove⟩ := lookup_eq_some h hlookup
  intro p hp
  by_cases heq : p = path
  · rw [heq]
    exact hnode
  · exact habove p hp heq

theorem mkdirAt_spec {path : Path} (h : Resolved t path) (missing : Tree × Option Errno)
    (hgrown : Grown path t missing.1)
    (hdirs : missing.2 = none → ∀ p, p <+: path → missing.1.lstat p = some .dir) :
    Grown path t (t.mkdirAt path missing).1 ∧
      ((t.mkdirAt path missing).2 = none →
        ∀ p, p <+: path → (t.mkdirAt path missing).1.lstat p = some .dir) := by
  unfold mkdirAt
  split
  next after hafter =>
    obtain ⟨hgrown', hdirs'⟩ := mkdir_ok h hafter
    exact ⟨hgrown', fun _ => hdirs'⟩
  next e he =>
    split
    · exact ⟨hgrown, hdirs⟩
    · refine ⟨Grown.refl, ?_⟩
      intro hnone
      cases hdir : t.isDir path with
      | true => exact dirs_of_isDir h hdir
      | false =>
          rw [hdir] at hnone
          cases hnone

/-- `mkdir(parents=True)` makes directories on the way to its path and nothing else, and
where it succeeds all of that way is directories. -/
theorem mkdirs_spec {path : Path} (h : Resolved t path) (n : ℕ) :
    Grown (path.take n) t (t.mkdirs path n).1 ∧
      ((t.mkdirs path n).2 = none →
        ∀ p, p <+: path.take n → (t.mkdirs path n).1.lstat p = some .dir) := by
  induction n with
  | zero =>
      refine ⟨Grown.refl, fun _ p hp => ?_⟩
      rw [List.take_zero] at hp
      rw [List.prefix_nil.mp hp]
      rfl
  | succ n ih =>
      have hshorter : path.take n <+: path.take (n + 1) :=
        List.take_prefix_take_left (Nat.le_succ n)
      have hresolved : Resolved t (path.take (n + 1)) := h.of_isPrefix (List.take_prefix _ _)
      rw [mkdirs]
      cases hup : t.mkdirs path n with
      | mk after error =>
          rw [hup] at ih
          have hgrown : Grown (path.take (n + 1)) t after := ih.1.mono hshorter
          cases error with
          | some e =>
              apply mkdirAt_spec hresolved _ hgrown
              intro hnone
              cases hnone
          | none =>
              have hagain := mkdirAt_spec (hresolved.congr hgrown.sameLinks)
                (after, some .notFound) Grown.refl (fun hnone => by cases hnone)
              exact mkdirAt_spec hresolved _ (hgrown.trans hagain.1) hagain.2

theorem openNew_ok {path found : Path} {after : Tree} (h : t.openNew path = .ok (found, after)) :
    after = t.put found (.file []) ∧ Resolved t found ∧ found ≠ [] ∧ t.lstat found ≠ some .dir := by
  unfold openNew at h
  split at h
  next => cases h
  next there hthere =>
    split at h
    next => cases h
    next hnotDir =>
      cases h
      refine ⟨rfl, resolved_locate hthere, ?_, fun hdir => hnotDir hdir⟩
      intro hnil
      rw [hnil, lstat_nil] at hnotDir
      exact hnotDir rfl

/-- A path without links is opened where it is. -/
theorem openNew_at {path found : Path} {after : Tree} (h : Resolved t path)
    (hopen : t.openNew path = .ok (found, after)) : found = path := by
  rw [openNew_of_resolved h] at hopen
  cases hdescend : t.descend [] path with
  | error e =>
      rw [hdescend] at hopen
      cases hopen
  | ok there =>
      obtain ⟨hthere, -⟩ := descend_ok hdescend
      rw [List.nil_append] at hthere
      rw [hdescend, hthere] at hopen
      dsimp only at hopen
      split at hopen
      next => cases hopen
      next => cases hopen; rfl

/-! ## Directories -/

theorem mem_names {path : Path} {name : String} :
    name ∈ t.names path ↔ (t.lstat (path ++ [name])).isSome = true := by
  have hne : path ++ [name] ≠ [] := by simp
  rw [names, lstat, if_neg hne, Option.isSome_iff_exists, List.mem_filterMap]
  constructor
  · rintro ⟨key, hmem, hname⟩
    obtain ⟨-, hkey⟩ := Option.filter_eq_some_iff.mp hname
    have hkey : key = path ++ [name] := of_decide_eq_true hkey
    obtain ⟨entry, hentry, heq⟩ := List.mem_map.mp hmem
    refine ⟨entry.2, OrderedDict.get?_eq_some.mpr ?_⟩
    rw [← hkey, ← heq]
    exact hentry
  · rintro ⟨node, hnode⟩
    refine ⟨path ++ [name], List.mem_map_of_mem (OrderedDict.get?_eq_some.mp hnode), ?_⟩
    simp

theorem nodup_names (path : Path) : (t.names path).Nodup := by
  apply List.Nodup.filterMap _ t.nodes.distinct
  intro key key' name hkey hkey'
  have h := (Option.filter_eq_some_iff.mp hkey).2
  have h' := (Option.filter_eq_some_iff.mp hkey').2
  exact (of_decide_eq_true h).trans (of_decide_eq_true h').symm

/-! ## What a part of a tree depends on -/

/-- The trees are the same below `root`, and apart from files they are everywhere. -/
structure Agree (root : Path) (t t' : Tree) : Prop where
  below : ∀ p, root <+: p → t.lstat p = t'.lstat p
  dirs : ∀ p, t.lstat p = some .dir ↔ t'.lstat p = some .dir
  links : SameLinks t t'

theorem enter_ok_iff {root : Path} (h : Agree root t t') {busy : List Path}
    {follow follow' : Path → Path → String → Except Errno Path}
    (hfollow : ∀ link base target path,
      follow link base target = .ok path ↔ follow' link base target = .ok path)
    (base : Path) (name : String) (path : Path) :
    t.enter t.strict busy follow base name = .ok path ↔
      t'.enter t'.strict busy follow' base name = .ok path := by
  have hbarred : ∀ {u : Tree}, u.barred base = none ↔ u.lstat base = some .dir := by
    intro u
    unfold barred
    cases u.lstat base with
    | none => simp
    | some node => cases node <;> simp
  have hsame : t.barred base = none ↔ t'.barred base = none :=
    hbarred.trans ((h.dirs base).trans hbarred.symm)
  have hmanner : ∀ {u : Tree}, u.strict.barred base = u.barred base := rfl
  unfold enter
  rw [hmanner, hmanner]
  cases hbase : t.barred base with
  | some e =>
      cases hbase' : t'.barred base with
      | some e' => simp
      | none => rw [hsame.mpr hbase'] at hbase; cases hbase
  | none =>
      rw [hsame.mp hbase]
      dsimp only
      split
      · exact Iff.rfl
      · split
        · exact Iff.rfl
        · split
          · exact Iff.rfl
          · cases hlink : t.isLink (base ++ [name]) with
            | true =>
                obtain ⟨target, htarget⟩ := isLink_iff.mp hlink
                rw [htarget, (h.links _ target).mp htarget]
                dsimp only
                split
                · exact Iff.rfl
                · exact hfollow _ _ _ _
            | false =>
                have hnot : ∀ {u : Tree} {y : Except Errno Path}
                    {f : String → Except Errno Path}, u.isLink (base ++ [name]) = false →
                    (match u.lstat (base ++ [name]) with
                      | some (.link target) => f target
                      | _ => y) = y := by
                  intro u y f hu
                  split
                  next target htarget =>
                    rw [isLink_iff.mpr ⟨target, htarget⟩] at hu
                    cases hu
                  next => rfl
                rw [hnot hlink, hnot (h.links.isLink _ ▸ hlink)]

theorem component_ok_iff {root : Path} (h : Agree root t t') (fuel : ℕ) (busy : List Path)
    (base : Path) (name : String) (path : Path) :
    t.component t.strict fuel busy base name = .ok path ↔
      t'.component t'.strict fuel busy base name = .ok path := by
  induction fuel generalizing busy base name path with
  | zero =>
      apply enter_ok_iff h
      exact fun _ _ _ _ => Iff.rfl
  | succ fuel ih =>
      apply enter_ok_iff h
      exact fun link _ _ _ => walk_ok_iff (ih (link :: busy))

/-- Whether a path leads to a directory does not depend on any file. -/
theorem isDir_agree {root : Path} (h : Agree root t t') (path : Path) :
    t.isDir path = t'.isDir path := by
  have hdir : ∀ {u : Tree}, u.isDir path = true ↔
      ∃ found, u.locate path = .ok found ∧ u.lstat found = some .dir := by
    intro u
    rw [isDir_iff, lookup]
    cases u.locate path <;> simp
  have hlocate : ∀ found, t.locate path = .ok found ↔ t'.locate path = .ok found := by
    intro found
    rw [locate, locate, h.links.length_links]
    exact walk_ok_iff (component_ok_iff h _ [])
  rw [Bool.eq_iff_iff, hdir, hdir]
  exact exists_congr fun found => and_congr (hlocate found) (h.dirs found)

namespace Agree

variable {root : Path}

theorem put {path : Path} (h : Agree root t t') (hpath : path ≠ []) (node : Node) :
    Agree root (t.put path node) (t'.put path node) where
  below p hp := by
    rw [lstat_put hpath, lstat_put hpath, h.below p hp]
  dirs p := by
    rw [lstat_put hpath, lstat_put hpath]
    split
    · exact Iff.rfl
    · exact h.dirs p
  links p target := by
    rw [lstat_put hpath, lstat_put hpath]
    split
    · exact Iff.rfl
    · exact h.links p target

/-- A file outside, put where there is no directory and no link. -/
theorem put_outside {path : Path} (hpath : ¬ root <+: path) (hne : path ≠ [])
    (hdir : t.lstat path ≠ some .dir) (hlink : t.isLink path = false) (bytes : List UInt8) :
    Agree root t (t.put path (.file bytes)) where
  below p hp := by
    rw [lstat_put hne, if_neg]
    intro heq
    exact hpath (heq ▸ hp)
  dirs p := by
    rw [lstat_put hne]
    by_cases hp : p = path
    · rw [if_pos hp, hp]
      simp [hdir]
    · rw [if_neg hp]
  links := sameLinks_put hne (fun _ h => by cases h) hlink

theorem grown {path : Path} {u u' : Tree} (h : Agree root t t') (hu : Grown path t u)
    (hu' : Grown path t' u') (hway : ∀ p, p <+: path → u.lstat p = u'.lstat p) :
    Agree root u u' where
  below p hp := by
    by_cases hpath : p <+: path
    · exact hway p hpath
    · rw [(hu p).resolve_right fun hgrown => hpath hgrown.1,
        (hu' p).resolve_right fun hgrown => hpath hgrown.1, h.below p hp]
  dirs p := by
    by_cases hpath : p <+: path
    · rw [hway p hpath]
    · rw [(hu p).resolve_right fun hgrown => hpath hgrown.1,
        (hu' p).resolve_right fun hgrown => hpath hgrown.1, h.dirs p]
  links := hu.sameLinks.symm.trans (h.links.trans hu'.sameLinks)

end Agree

/-! ## The same operation on two trees -/

section Twice

variable {path : Path}

/-- What two runs of an operation come to: the same error, or trees that are the same on
the way to the path. -/
def SameWay (path : Path) (t t' : Tree) : Prop := ∀ p, p <+: path → t.lstat p = t'.lstat p

theorem mkdir_sameWay (hway : SameWay path t t') (h : Resolved t path) (h' : Resolved t' path) :
    (∃ e, t.mkdir path = .error e ∧ t'.mkdir path = .error e) ∨
      ∃ u u', t.mkdir path = .ok u ∧ t'.mkdir path = .ok u' ∧ SameWay path u u' := by
  rw [mkdir_of_resolved h, mkdir_of_resolved h', ← descend_congr [] hway]
  cases hdescend : t.descend [] path with
  | error e => exact .inl ⟨e, rfl, rfl⟩
  | ok found =>
      have hfound : found = path := (descend_ok hdescend).1
      rw [hfound]
      dsimp only
      rw [← hway path List.prefix_rfl]
      cases hnode : t.lstat path with
      | some node => exact .inl ⟨.fileExists, rfl, rfl⟩
      | none =>
          refine .inr ⟨_, _, rfl, rfl, ?_⟩
          have hne : path ≠ [] := by
            intro hnil
            rw [hnil, lstat_nil] at hnode
            cases hnode
          intro p hp
          rw [lstat_put hne, lstat_put hne, hway p hp]

theorem lookup_sameWay (hway : SameWay path t t') (h : Resolved t path)
    (h' : Resolved t' path) : t.lookup path = t'.lookup path := by
  rw [lookup_of_resolved h, lookup_of_resolved h', ← descend_congr [] hway]
  cases hdescend : t.descend [] path with
  | error e => rfl
  | ok found =>
      have hfound : found = path := (descend_ok hdescend).1
      rw [hfound]
      dsimp only
      rw [hway path List.prefix_rfl]

theorem isDir_sameWay (hway : SameWay path t t') (h : Resolved t path) (h' : Resolved t' path) :
    t.isDir path = t'.isDir path := by
  rw [isDir, isDir, lookup_sameWay hway h h']

theorem mkdirAt_sameWay (hway : SameWay path t t') (h : Resolved t path)
    (h' : Resolved t' path) (missing missing' : Tree × Option Errno)
    (herror : missing.2 = missing'.2) (hmissing : SameWay path missing.1 missing'.1) :
    (t.mkdirAt path missing).2 = (t'.mkdirAt path missing').2 ∧
      SameWay path (t.mkdirAt path missing).1 (t'.mkdirAt path missing').1 := by
  unfold mkdirAt
  rcases mkdir_sameWay hway h h' with ⟨e, he, he'⟩ | ⟨u, u', hu, hu', hsame⟩
  · rw [he, he']
    dsimp only
    split
    · exact ⟨herror, hmissing⟩
    · rw [isDir_sameWay hway h h']
      exact ⟨rfl, hway⟩
  · rw [hu, hu']
    exact ⟨rfl, hsame⟩

theorem SameWay.of_isPrefix {p : Path} (h : SameWay path t t') (hp : p <+: path) :
    SameWay p t t' := fun q hq => h q (hq.trans hp)

/-- Grown on the same way, trees that were the same beyond it still are. -/
theorem SameWay.grown {p : Path} {u u' : Tree} (h : SameWay path t t') (hu : Grown p t u)
    (hu' : Grown p t' u') (hway : SameWay p u u') : SameWay path u u' := by
  intro q hq
  by_cases hqp : q <+: p
  · exact hway q hqp
  · rw [(hu q).resolve_right fun hgrown => hqp hgrown.1,
      (hu' q).resolve_right fun hgrown => hqp hgrown.1, h q hq]

theorem mkdirs_sameWay (hway : SameWay path t t') (h : Resolved t path) (h' : Resolved t' path)
    (n : ℕ) :
    (t.mkdirs path n).2 = (t'.mkdirs path n).2 ∧
      SameWay (path.take n) (t.mkdirs path n).1 (t'.mkdirs path n).1 := by
  induction n with
  | zero => exact ⟨rfl, hway.of_isPrefix (List.take_prefix _ _)⟩
  | succ n ih =>
      have hnow : path.take (n + 1) <+: path := List.take_prefix _ _
      have hshorter : path.take n <+: path.take (n + 1) :=
        List.take_prefix_take_left (Nat.le_succ n)
      have hgrown := (mkdirs_spec h n).1
      have hgrown' := (mkdirs_spec h' n).1
      rw [mkdirs, mkdirs]
      cases hup : t.mkdirs path n with
      | mk u e =>
          cases hup' : t'.mkdirs path n with
          | mk u' e' =>
              rw [hup, hup'] at ih
              rw [hup] at hgrown
              rw [hup'] at hgrown'
              obtain ⟨herror, hsame⟩ := ih
              have hu : SameWay (path.take (n + 1)) u u' :=
                (hway.of_isPrefix hnow).grown hgrown hgrown' hsame
              have hresolved : Resolved u (path.take (n + 1)) :=
                (h.of_isPrefix hnow).congr hgrown.sameLinks
              have hresolved' : Resolved u' (path.take (n + 1)) :=
                (h'.of_isPrefix hnow).congr hgrown'.sameLinks
              have herror : e = e' := herror
              subst herror
              have hagain := mkdirAt_sameWay hu hresolved hresolved'
                (u, some .notFound) (u', some .notFound) rfl hu
              apply mkdirAt_sameWay (hway.of_isPrefix hnow) (h.of_isPrefix hnow)
                (h'.of_isPrefix hnow)
              · cases e with
                | some e => rfl
                | none => exact hagain.1
              · cases e with
                | some e => exact hu
                | none => exact hagain.2

theorem openNew_sameWay (hway : SameWay path t t') (h : Resolved t path)
    (h' : Resolved t' path) :
    (∃ e, t.openNew path = .error e ∧ t'.openNew path = .error e) ∨
      t.openNew path = .ok (path, t.put path (.file [])) ∧
        t'.openNew path = .ok (path, t'.put path (.file [])) := by
  rw [openNew_of_resolved h, openNew_of_resolved h', ← descend_congr [] hway]
  cases hdescend : t.descend [] path with
  | error e => exact .inl ⟨e, rfl, rfl⟩
  | ok found =>
      have hfound : found = path := (descend_ok hdescend).1
      rw [hfound]
      dsimp only
      rw [← hway path List.prefix_rfl]
      cases t.lstat path with
      | none => exact .inr ⟨rfl, rfl⟩
      | some node =>
          cases node with
          | dir => exact .inl ⟨.isADirectory, rfl, rfl⟩
          | file b => exact .inr ⟨rfl, rfl⟩
          | link target => exact .inr ⟨rfl, rfl⟩

end Twice

end

end Tree

end Lour.Lib.Files
