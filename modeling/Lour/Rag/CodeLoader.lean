import Lour.Lib.Utf8
import Lour.Rag.Wellformed
import Mathlib.Data.List.Infix
import Mathlib.Logic.Relation
/-!
# `CodeLoader`

A source file is cut into the root children of its syntax tree whose type says that they
are definitions, and ingestion indexes these instead of the content as soon as there is
one.
-/

namespace Lour.Rag

open Lour.Lib Lour.Lib.Python

/-! ## Syntax trees -/

inductive SyntaxNode where
  | mk (type : String) (startByte endByte : ℕ) (children : List SyntaxNode)

namespace SyntaxNode

def type : SyntaxNode → String
  | mk type _ _ _ => type

def startByte : SyntaxNode → ℕ
  | mk _ startByte _ _ => startByte

def endByte : SyntaxNode → ℕ
  | mk _ _ endByte _ => endByte

def children : SyntaxNode → List SyntaxNode
  | mk _ _ _ children => children

/-- `inner` is the node itself, or somewhere below it. -/
def Within (self inner : SyntaxNode) : Prop :=
  Relation.ReflTransGen (fun node child => child ∈ node.children) self inner

/-- The node is the `middle` of the content. -/
structure Spans (node : SyntaxNode) (content front middle : List Char) : Prop where
  starts : front ++ middle <+: content
  startByte_eq : node.startByte = (Utf8.encode front).length
  endByte_eq : node.endByte = (Utf8.encode (front ++ middle)).length

/-- Nodes begin and end between characters; the children of one are in it, one behind the
other. -/
structure Fits (content : List Char) (node : SyntaxNode) : Prop where
  spans : ∃ front middle, node.Spans content front middle
  nested : ∀ child ∈ node.children,
    node.startByte ≤ child.startByte ∧ child.endByte ≤ node.endByte
  ordered : node.children.Pairwise fun a b => a.endByte ≤ b.startByte

/-- `data[node.start_byte : node.end_byte].decode("utf-8", errors="replace")`. -/
def text (content : String) (self : SyntaxNode) : String :=
  String.ofList (Utf8.decode (((Utf8.encode content.toList).drop self.startByte).take
    (self.endByte - self.startByte)))

end SyntaxNode

/-- A parse tree of the content. -/
structure SyntaxTree (content : String) where
  root : SyntaxNode
  fits : ∀ node, root.Within node → node.Fits content.toList

/-! ## The loader -/

def extToLang : List (String × String) :=
  [(".py", "python"), (".js", "javascript"), (".jsx", "javascript"), (".ts", "typescript"),
    (".tsx", "tsx"), (".go", "go"), (".rs", "rust"), (".java", "java"), (".rb", "ruby"),
    (".c", "c"), (".h", "c"), (".cpp", "cpp"), (".cc", "cpp"), (".hpp", "cpp")]

def definitionSuffixes : List String := ["_definition", "_declaration", "_item"]

def definitionKeywords : List String :=
  ["function", "class", "method", "struct", "impl", "interface"]

def isDefinition (nodeType : String) : Bool :=
  definitionSuffixes.any (fun ending => decide (ending.toList <:+ nodeType.toList)) ||
    definitionKeywords.any fun kw => decide (kw.toList <:+: nodeType.toList)

/-- The segment of a root child, if it becomes one. -/
def SyntaxNode.segment (content : String) (node : SyntaxNode) : Option String :=
  if isDefinition node.type then
    if isBlank (node.text content) then none else some (node.text content)
  else none

/-- `_chunk_by_symbols`; there is no tree where the parser is not available. -/
def chunkBySymbols {content : String} : Option (SyntaxTree content) → List String
  | none => []
  | some tree => tree.root.children.filterMap (SyntaxNode.segment content)

/-- What `Path(source)` says of a file: its name, its suffix in lower case, and its text if
there is such a file. -/
structure SourceFile where
  path : String
  name : String
  extension : String
  text : Option String

inductive CodeLoadError where
  | notFound (source : String)
  | unsupported (extension : String)

def CodeLoader.supports (file : SourceFile) : Bool := (extToLang.lookup file.extension).isSome

def CodeLoader.load (parse : (lang content : String) → Option (SyntaxTree content))
    (file : SourceFile) : Except CodeLoadError LoadedDocument :=
  match file.text with
  | none => .error (.notFound file.path)
  | some content =>
      match extToLang.lookup file.extension with
      | none => .error (.unsupported file.extension)
      | some lang =>
          let segments := chunkBySymbols (parse lang content)
          .ok
            { content := content
              sourceUri := file.path
              docType := "code"
              title := some file.name
              metadata := [("filename", .str file.name), ("language", .str lang)]
              segments := if segments.isEmpty then none else some segments }

/-! ## Texts of nodes -/

section Texts

variable {content front middle front' middle' : List Char} {node inner : SyntaxNode}

theorem encode_eq_nil {cs : List Char} (h : (Utf8.encode cs).length = 0) : cs = [] := by
  cases cs with
  | nil => rfl
  | cons c cs =>
      have hpos := c.utf8Size_pos
      rw [Utf8.encode, List.flatMap_cons, List.length_append, String.length_utf8EncodeChar] at h
      omega

/-- Of two beginnings of a text the one with fewer bytes begins the other. -/
theorem begins_of_encode_le (hp : front <+: content) (hq : front' <+: content)
    (h : (Utf8.encode front).length ≤ (Utf8.encode front').length) : front <+: front' := by
  rcases List.prefix_or_prefix_of_prefix hp hq with hfront | ⟨rest, hrest⟩
  · exact hfront
  · rw [← hrest, Utf8.encode_append, List.length_append] at h
    have hnil : rest = [] := encode_eq_nil (by omega)
    rw [hnil, List.append_nil] at hrest
    exact hrest ▸ List.prefix_rfl

namespace SyntaxNode

theorem Spans.text_eq {content : String} (h : node.Spans content.toList front middle) :
    node.text content = String.ofList middle := by
  obtain ⟨back, hback⟩ := h.starts
  rw [text, h.startByte_eq, h.endByte_eq, ← hback, Utf8.slice_encode, Utf8.decode_encode]

/-- What is within the bytes of a node is within its text. -/
theorem Spans.middle_within (h : node.Spans content front middle)
    (h' : inner.Spans content front' middle') (hstart : node.startByte ≤ inner.startByte)
    (hend : inner.endByte ≤ node.endByte) : middle' <:+: middle := by
  rw [h.startByte_eq, h'.startByte_eq] at hstart
  rw [h.endByte_eq, h'.endByte_eq] at hend
  have hbefore : front <+: content := (List.prefix_append ..).trans h.starts
  have hbefore' : front' <+: content := (List.prefix_append ..).trans h'.starts
  obtain ⟨skipped, hskipped⟩ := begins_of_encode_le hbefore hbefore' hstart
  obtain ⟨rest, hrest⟩ := begins_of_encode_le h'.starts h.starts hend
  refine ⟨skipped, rest, ?_⟩
  apply (List.append_right_inj front).mp
  calc front ++ (skipped ++ middle' ++ rest)
      = front ++ skipped ++ middle' ++ rest := by simp only [List.append_assoc]
    _ = front ++ middle := by rw [hskipped, hrest]

/-- A node has the bytes of all that is below it. -/
theorem Within.bytes (h : node.Within inner)
    (hfits : ∀ below, node.Within below → below.Fits content) :
    node.startByte ≤ inner.startByte ∧ inner.endByte ≤ node.endByte := by
  induction h with
  | refl => exact ⟨le_rfl, le_rfl⟩
  | @tail parent child habove hchild ih =>
      have hnested := (hfits parent habove).nested child hchild
      omega

theorem Within.text_within {content : String} (h : node.Within inner)
    (hfits : ∀ below, node.Within below → below.Fits content.toList) :
    (inner.text content).toList <:+: (node.text content).toList := by
  obtain ⟨front, middle, hspans⟩ := (hfits node .refl).spans
  obtain ⟨front', middle', hspans'⟩ := (hfits inner h).spans
  obtain ⟨hstart, hend⟩ := h.bytes hfits
  rw [hspans.text_eq, hspans'.text_eq, String.toList_ofList, String.toList_ofList]
  exact hspans.middle_within hspans' hstart hend

end SyntaxNode

end Texts

/-! ## What the segments keep -/

section Segments

variable {content : String} (tree : SyntaxTree content)

/-- The node becomes a segment where it is a root child. -/
def SyntaxNode.Indexed (content : String) (node : SyntaxNode) : Prop :=
  isDefinition node.type = true ∧ isBlank (node.text content) = false

theorem SyntaxNode.segment_eq_some {node : SyntaxNode} {segment : String} :
    node.segment content = some segment ↔
      node.Indexed content ∧ segment = node.text content := by
  unfold SyntaxNode.segment SyntaxNode.Indexed
  by_cases htype : isDefinition node.type = true
  · cases hblank : isBlank (node.text content) with
    | true => simp [htype]
    | false => simp [htype, eq_comm]
  · simp [htype]

theorem mem_chunkBySymbols {segment : String} :
    segment ∈ chunkBySymbols (some tree) ↔
      ∃ node ∈ tree.root.children, node.Indexed content ∧ segment = node.text content := by
  rw [chunkBySymbols, List.mem_filterMap]
  simp only [SyntaxNode.segment_eq_some]

variable (content) in
/-- The text of the node is contained in some segment. -/
def Kept (segments : List String) (node : SyntaxNode) : Prop :=
  ∃ segment ∈ segments, (node.text content).toList <:+: segment.toList

/-- Where there are segments they have every function and class, by the types that are such
definitions, of every statement at the root. -/
def KeepsDefinitions (symbol : String → Bool) (segments : List String) : Prop :=
  segments ≠ [] → ∀ statement ∈ tree.root.children, ∀ node, statement.Within node →
    symbol node.type = true → Kept content segments node

/-- No root child becomes a segment, or functions and classes are only in root children that
do, unless a text is there once more. -/
def Unwrapped (symbol : String → Bool) : Prop :=
  (∀ statement ∈ tree.root.children, ¬ statement.Indexed content) ∨
    ∀ statement ∈ tree.root.children, ¬ statement.Indexed content →
      ∀ node, statement.Within node → symbol node.type = true →
        ∃ other ∈ tree.root.children, other.Indexed content ∧
          (node.text content).toList <:+: (other.text content).toList

variable {tree}

theorem kept_iff {node : SyntaxNode} :
    Kept content (chunkBySymbols (some tree)) node ↔
      ∃ other ∈ tree.root.children, other.Indexed content ∧
        (node.text content).toList <:+: (other.text content).toList := by
  constructor
  · rintro ⟨segment, hmem, hinfix⟩
    obtain ⟨other, hother, hindexed, rfl⟩ := (mem_chunkBySymbols tree).mp hmem
    exact ⟨other, hother, hindexed, hinfix⟩
  · rintro ⟨other, hother, hindexed, hinfix⟩
    exact ⟨_, (mem_chunkBySymbols tree).mpr ⟨other, hother, hindexed, rfl⟩, hinfix⟩

/-- Whatever is within a root child that becomes a segment is kept. -/
theorem kept_of_indexed {statement node : SyntaxNode} (hstatement : statement ∈ tree.root.children)
    (hindexed : statement.Indexed content) (hwithin : statement.Within node) :
    Kept content (chunkBySymbols (some tree)) node := by
  apply kept_iff.mpr
  refine ⟨statement, hstatement, hindexed, ?_⟩
  apply hwithin.text_within
  intro below hbelow
  apply tree.fits
  exact Relation.ReflTransGen.head hstatement hbelow

theorem chunkBySymbols_eq_nil_iff :
    chunkBySymbols (some tree) = [] ↔
      ∀ statement ∈ tree.root.children, ¬ statement.Indexed content := by
  rw [List.eq_nil_iff_forall_not_mem]
  constructor
  · intro hnone statement hstatement hindexed
    exact hnone _ ((mem_chunkBySymbols tree).mpr ⟨statement, hstatement, hindexed, rfl⟩)
  · intro hnone segment hmem
    obtain ⟨statement, hstatement, hindexed, -⟩ := (mem_chunkBySymbols tree).mp hmem
    exact hnone statement hstatement hindexed

theorem segments_sublist_of_ordered (nodes : List SyntaxNode) {front rest : List Char}
    (hcontent : content.toList = front ++ rest) (hfits : ∀ node ∈ nodes, node.Fits content.toList)
    (hordered : nodes.Pairwise fun a b => a.endByte ≤ b.startByte)
    (hbehind : ∀ node ∈ nodes, (Utf8.encode front).length ≤ node.startByte) :
    ((nodes.filterMap (SyntaxNode.segment content)).flatMap String.toList).Sublist rest := by
  induction nodes generalizing front rest with
  | nil => exact List.nil_sublist rest
  | cons node nodes ih =>
      obtain ⟨hfirst, hnodes⟩ := List.forall_mem_cons.mp hfits
      obtain ⟨hbefore, hpairwise⟩ := List.pairwise_cons.mp hordered
      obtain ⟨before, middle, hspans⟩ := hfirst.spans
      obtain ⟨back, hback⟩ := hspans.starts
      obtain ⟨skipped, hskipped⟩ : front <+: before := by
        apply begins_of_encode_le
        · exact ⟨rest, hcontent.symm⟩
        · exact (List.prefix_append ..).trans hspans.starts
        · exact hspans.startByte_eq ▸ hbehind node List.mem_cons_self
      have hrest : rest = skipped ++ (middle ++ back) := by
        apply (List.append_right_inj front).mp
        calc front ++ rest = before ++ middle ++ back := by rw [← hcontent, hback]
          _ = front ++ (skipped ++ (middle ++ back)) := by
            rw [← hskipped]
            simp only [List.append_assoc]
      have htail := ih hback.symm hnodes hpairwise fun other hother =>
        hspans.endByte_eq ▸ hbefore other hother
      rw [hrest]
      apply List.Sublist.trans _ (List.sublist_append_right skipped _)
      cases hsegment : SyntaxNode.segment content node with
      | none =>
          rw [List.filterMap_cons_none hsegment]
          exact htail.trans (List.sublist_append_right middle back)
      | some segment =>
          have hmiddle : segment.toList = middle := by
            rw [(SyntaxNode.segment_eq_some.mp hsegment).2, hspans.text_eq, String.toList_ofList]
          rw [List.filterMap_cons_some hsegment, List.flatMap_cons, hmiddle]
          exact htail.append_left middle

/-- The segments are parts of the content in its order, and none has what another has. -/
theorem chunkBySymbols_sublist :
    ((chunkBySymbols (some tree)).flatMap String.toList).Sublist content.toList := by
  apply segments_sublist_of_ordered tree.root.children (List.nil_append content.toList).symm
  · exact fun node hnode => tree.fits node (Relation.ReflTransGen.single hnode)
  · exact (tree.fits tree.root .refl).ordered
  · exact fun node _ => Nat.zero_le _

theorem filter_chunkBySymbols :
    (chunkBySymbols (some tree)).filter (fun text => !isBlank text) =
      chunkBySymbols (some tree) := by
  apply List.filter_eq_self.mpr
  intro segment hmem
  obtain ⟨node, -, hindexed, rfl⟩ := (mem_chunkBySymbols tree).mp hmem
  rw [hindexed.2]
  rfl

/-- Once there are segments, ingestion indexes these. -/
theorem texts_load {δ σ : Type} (env : Collaborators δ σ)
    {parse : (lang content : String) → Option (SyntaxTree content)} {file : SourceFile}
    {loaded : LoadedDocument} (hload : CodeLoader.load parse file = .ok loaded) :
    ∃ content lang, file.text = some content ∧ extToLang.lookup file.extension = some lang ∧
      (chunkBySymbols (parse lang content) ≠ [] →
        env.texts loaded = chunkBySymbols (parse lang content)) := by
  unfold CodeLoader.load at hload
  split at hload
  next => cases hload
  next content htext =>
      split at hload
      next => cases hload
      next lang hlang =>
          cases hload
          refine ⟨content, lang, htext, hlang, ?_⟩
          intro hsome
          have hnonempty : (chunkBySymbols (parse lang content)).isEmpty = false := by
            rw [List.isEmpty_eq_false_iff]
            exact hsome
          rw [Collaborators.texts]
          simp only [hnonempty, Bool.false_eq_true, if_false, Option.getD_some]
          cases hparse : parse lang content with
          | none =>
              rw [hparse] at hsome
              exact absurd rfl hsome
          | some tree => exact filter_chunkBySymbols

end Segments

/-- The segments of a file have all its functions and classes exactly where they are
unwrapped. -/
theorem chunk_keeps_definitions_iff {content : String} (tree : SyntaxTree content)
    (symbol : String → Bool) :
    KeepsDefinitions tree symbol (chunkBySymbols (some tree)) ↔ Unwrapped tree symbol := by
  constructor
  · intro hkeeps
    by_cases hnone : chunkBySymbols (some tree) = []
    · exact .inl (chunkBySymbols_eq_nil_iff.mp hnone)
    · right
      intro statement hstatement _ node hwithin hsymbol
      exact kept_iff.mp (hkeeps hnone statement hstatement node hwithin hsymbol)
  · intro hunwrapped hsome statement hstatement node hwithin hsymbol
    by_cases hindexed : statement.Indexed content
    · exact kept_of_indexed hstatement hindexed hwithin
    · rcases hunwrapped with hnone | hunwrapped
      · exact absurd (chunkBySymbols_eq_nil_iff.mpr hnone) hsome
      · exact kept_iff.mpr (hunwrapped statement hstatement hindexed node hwithin hsymbol)

/-- A text in ASCII has as many bytes as characters. -/
theorem encode_length_of_ascii {cs : List Char} (h : ∀ c ∈ cs, c.utf8Size = 1) :
    (Utf8.encode cs).length = cs.length := by
  induction cs with
  | nil => rfl
  | cons c cs ih =>
      obtain ⟨hc, hcs⟩ := List.forall_mem_cons.mp h
      rw [Utf8.encode, List.flatMap_cons, List.length_append, String.length_utf8EncodeChar, hc,
        ← Utf8.encode, ih hcs, List.length_cons, Nat.add_comm]

/-- What `Fits` says of the bytes. -/
def SyntaxNode.InBytes (size : ℕ) (node : SyntaxNode) : Prop :=
  (node.startByte ≤ node.endByte ∧ node.endByte ≤ size) ∧
    (∀ child ∈ node.children, node.startByte ≤ child.startByte ∧ child.endByte ≤ node.endByte) ∧
    node.children.Pairwise fun a b => a.endByte ≤ b.startByte

theorem SyntaxNode.InBytes.fits {content : List Char} {node : SyntaxNode}
    (hascii : ∀ c ∈ content, c.utf8Size = 1) (h : node.InBytes content.length) :
    node.Fits content := by
  obtain ⟨⟨hle, hsize⟩, hnested, hordered⟩ := h
  have hcount : ∀ k ≤ content.length, (Utf8.encode (content.take k)).length = k := by
    intro k hk
    rw [encode_length_of_ascii fun c hc => hascii c (List.mem_of_mem_take hc), List.length_take]
    omega
  have hjoined : content.take node.startByte ++
      (content.take node.endByte).drop node.startByte = content.take node.endByte := by
    calc content.take node.startByte ++ (content.take node.endByte).drop node.startByte
        = (content.take node.endByte).take node.startByte ++
            (content.take node.endByte).drop node.startByte := by
          rw [List.take_take, Nat.min_eq_left hle]
      _ = content.take node.endByte := List.take_append_drop _ _
  refine ⟨⟨content.take node.startByte, (content.take node.endByte).drop node.startByte, ?_⟩,
    hnested, hordered⟩
  constructor
  · rw [hjoined]
    exact List.take_prefix _ _
  · exact (hcount _ (hle.trans hsize)).symm
  · rw [hjoined]
    exact (hcount _ hsize).symm

theorem SyntaxNode.forall_within_iff {p : SyntaxNode → Prop} {type : String} {first last : ℕ}
    {children : List SyntaxNode} :
    (∀ node, (mk type first last children).Within node → p node) ↔
      p (mk type first last children) ∧
        ∀ child ∈ children, ∀ node, child.Within node → p node := by
  constructor
  · intro h
    refine ⟨h _ .refl, ?_⟩
    intro child hchild node hnode
    exact h node (Relation.ReflTransGen.head hchild hnode)
  · rintro ⟨hself, hbelow⟩ node hnode
    rcases Relation.ReflTransGen.cases_head hnode with rfl | ⟨child, hchild, hrest⟩
    · exact hself
    · exact hbelow child hchild node hrest

def twoClasses : String := "class A\x7b\x7d\nexport class B\x7b\x7d"

def classA : SyntaxNode :=
  .mk "class_declaration" 0 9
    [.mk "class" 0 5 [], .mk "identifier" 6 7 [],
      .mk "class_body" 7 9 [.mk "\x7b" 7 8 [], .mk "\x7d" 8 9 []]]

def classB : SyntaxNode :=
  .mk "class_declaration" 17 26
    [.mk "class" 17 22 [], .mk "identifier" 23 24 [],
      .mk "class_body" 24 26 [.mk "\x7b" 24 25 [], .mk "\x7d" 25 26 []]]

def twoClassesRoot : SyntaxNode :=
  .mk "program" 0 26
    [classA, .mk "export_statement" 10 26 [.mk "export" 10 16 [], classB]]

theorem twoClassesRoot_inBytes : ∀ node, twoClassesRoot.Within node → node.InBytes 26 := by
  simp [twoClassesRoot, classA, classB, SyntaxNode.forall_within_iff, SyntaxNode.InBytes,
    SyntaxNode.startByte, SyntaxNode.endByte, SyntaxNode.children]

/-- A class, and one that is exported. -/
def twoClassesTree : SyntaxTree twoClasses where
  root := twoClassesRoot
  fits node hnode := by
    apply SyntaxNode.InBytes.fits
    · have hall : twoClasses.toList.all (fun c => c.utf8Size == 1) = true := by decide
      exact fun c hc => beq_iff_eq.mp (List.all_eq_true.mp hall c hc)
    · exact twoClassesRoot_inBytes node hnode

theorem classA_text : classA.text twoClasses = "class A\x7b\x7d" := by
  have hspans : classA.Spans twoClasses.toList [] "class A\x7b\x7d".toList := by
    refine ⟨⟨"\nexport class B\x7b\x7d".toList, ?_⟩, ?_, ?_⟩ <;> decide
  rw [hspans.text_eq, String.ofList_toList]

theorem classB_text : classB.text twoClasses = "class B\x7b\x7d" := by
  have hspans : classB.Spans twoClasses.toList "class A\x7b\x7d\nexport ".toList
      "class B\x7b\x7d".toList := by
    refine ⟨⟨[], ?_⟩, ?_, ?_⟩ <;> decide
  rw [hspans.text_eq, String.ofList_toList]

/-- The exported class is in no segment. -/
theorem chunk_drops_class :
    ¬ ∀ (content : String) (tree : SyntaxTree content),
      KeepsDefinitions tree (fun type => type ∈ ["function_declaration", "class_declaration"])
        (chunkBySymbols (some tree)) := by
  intro hall
  have hindexed : classA.Indexed twoClasses := by
    refine ⟨by decide +kernel, ?_⟩
    rw [classA_text]
    decide +kernel
  have hsome : chunkBySymbols (some twoClassesTree) ≠ [] := by
    intro hnil
    exact chunkBySymbols_eq_nil_iff.mp hnil classA List.mem_cons_self hindexed
  have hexported : SyntaxNode.Within (.mk "export_statement" 10 26
      [.mk "export" 10 16 [], classB]) classB :=
    Relation.ReflTransGen.single (List.mem_cons_of_mem _ List.mem_cons_self)
  obtain ⟨other, hother, hindexed', hinfix⟩ := kept_iff.mp (hall twoClasses twoClassesTree hsome _
    (List.mem_cons_of_mem _ List.mem_cons_self) classB hexported (by decide +kernel))
  rw [classB_text] at hinfix
  rcases List.mem_pair.mp hother with rfl | rfl
  · change _ <:+: (classA.text twoClasses).toList at hinfix
    rw [classA_text] at hinfix
    exact absurd hinfix (by decide +kernel)
  · exact absurd hindexed'.1 (by decide +kernel)

end Lour.Rag
