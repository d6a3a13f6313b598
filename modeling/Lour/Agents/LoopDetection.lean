import Lour.Agents.Verdict
import Lour.Lib.JsonLiterals
import Lour.Lib.JsonOrder
/-!
# What the loop detector sees

A signature is the name of a call, two colons and its arguments as a text.  The name may have
colons and quotes of its own; the whole can still be read in one way only.
-/

namespace Lour.Agents.BudgetEnforcer

open Lour.Lib.Python

/-- The same name, and the same arguments as JSON values. -/
def SameCall (r r' : ToolCallRecord) : Prop :=
  r.name = r'.name ∧ Json.Same (.obj r.arguments) (.obj r'.arguments)

/-- The ledger ends in `loopWindow` records of one call. -/
def EndsInLoop (loopWindow : Nat) (ledger : List ToolCallRecord) : Prop :=
  ∃ earlier last, ledger = earlier ++ last ∧ last.length = loopWindow ∧
    ∀ r ∈ last, ∀ r' ∈ last, SameCall r r'

section Signatures

variable {name name' : String} {arguments arguments' : Dict}

theorem signature_toList (name : String) (arguments : Dict) :
    (signature name arguments).toList =
      name.toList ++ ':' :: ':' :: (Json.obj arguments).dumpsSorted.toList := by
  rw [signature, String.toList_append, String.toList_append, List.append_assoc]
  rfl

/-- Signatures are equal exactly for the same call. -/
theorem signature_eq_iff (h : (Json.obj arguments).WellFormed)
    (h' : (Json.obj arguments').WellFormed) :
    signature name arguments = signature name' arguments' ↔
      name = name' ∧ Json.Same (.obj arguments) (.obj arguments') := by
  constructor
  · intro heq
    have htext := congrArg String.toList heq
    rw [signature_toList, signature_toList] at htext
    obtain ⟨hname, harguments⟩ := Json.append_colons_inj Json.Reader.restores_escapeAscii
      (Json.wellFormed_sortKeys _ h) (Json.wellFormed_sortKeys _ h') htext
    exact ⟨String.toList_injective hname, (Json.dumpsSorted_eq_iff h h').mp harguments⟩
  · rintro ⟨rfl, hsame⟩
    rw [signature, signature, (Json.dumpsSorted_eq_iff h h').mpr hsame]

end Signatures

/-! ## The window -/

section Windows

variable {loopWindow : Nat} {earlier last ledger : List ToolCallRecord}

theorem tail_append (hw : 1 ≤ loopWindow) (hlast : last.length = loopWindow) :
    tail loopWindow (earlier ++ last) = last := by
  have hdrop : (earlier ++ last).length - loopWindow = earlier.length := by
    rw [List.length_append]
    omega
  rw [tail, if_neg (by omega), hdrop, List.drop_left]

/-- A window of records is of one call where any two of them are. -/
theorem oneCall_iff (hne : last ≠ []) (hwf : ∀ r ∈ last, (Json.obj r.arguments).WellFormed) :
    OneCall last ↔ ∀ r ∈ last, ∀ r' ∈ last, SameCall r r' := by
  constructor
  · rintro ⟨sig, -, hsig⟩ r hr r' hr'
    apply (signature_eq_iff (hwf r hr) (hwf r' hr')).mp
    rw [hsig r hr, hsig r' hr']
  · intro hsame
    obtain ⟨r, hr⟩ := List.exists_mem_of_ne_nil last hne
    refine ⟨signature r.name r.arguments, ⟨r, hr, rfl⟩, ?_⟩
    intro r' hr'
    exact (signature_eq_iff (hwf r' hr') (hwf r hr)).mpr (hsame r' hr' r hr)

/-- The detector reports a loop exactly where the ledger ends in one call, and no two calls
have one signature. -/
theorem detectLoop_exact (loopWindow : Nat) (hw : 1 ≤ loopWindow) (ledger : List ToolCallRecord)
    (hledger : ∀ r ∈ ledger, (Json.obj r.arguments).WellFormed) :
    (detectLoop loopWindow ledger = true ↔ EndsInLoop loopWindow ledger) ∧
      ∀ (name name' : String) (arguments arguments' : Dict), (Json.obj arguments).WellFormed →
        (Json.obj arguments').WellFormed →
        (signature name arguments = signature name' arguments' ↔
          name = name' ∧ Json.Same (.obj arguments) (.obj arguments')) := by
  refine ⟨?_, fun name name' arguments arguments' h h' => signature_eq_iff h h'⟩
  rw [detectLoop_iff]
  have hwindow : ∀ earlier last, ledger = earlier ++ last → last.length = loopWindow →
      (OneCall (tail loopWindow ledger) ↔ ∀ r ∈ last, ∀ r' ∈ last, SameCall r r') := by
    intro earlier last hsplit hlast
    rw [hsplit, tail_append hw hlast]
    apply oneCall_iff
    · apply List.ne_nil_of_length_pos
      omega
    · intro r hr
      exact hledger r (hsplit ▸ List.mem_append_right earlier hr)
  constructor
  · rintro ⟨hlength, hone⟩
    have hlast : (ledger.drop (ledger.length - loopWindow)).length = loopWindow := by
      rw [List.length_drop]
      omega
    have hsplit : ledger = ledger.take (ledger.length - loopWindow) ++
        ledger.drop (ledger.length - loopWindow) := (List.take_append_drop _ ledger).symm
    exact ⟨_, _, hsplit, hlast, (hwindow _ _ hsplit hlast).mp hone⟩
  · rintro ⟨earlier, last, hsplit, hlast, hsame⟩
    refine ⟨?_, (hwindow earlier last hsplit hlast).mpr hsame⟩
    rw [hsplit, List.length_append]
    omega

/-- Two calls that differ in the order of their keys, then a name that quotes the separator. -/
theorem detectLoop_reordered :
    detectLoop 2 [⟨"rag_query", [("top_k", .int 5), ("query", .str "x")], true, none⟩,
        ⟨"rag_query", [("query", .str "x"), ("top_k", .int 5)], true, none⟩] = true ∧
      signature "rag" [("::\x7b\"", .null)] ≠ signature "rag::\x7b\"" [("\"", .null)] := by
  have htop : Json.SameEntries [("top_k", .int 5), ("query", .str "x")]
      [("top_k", .int 5), ("query", .str "x")] :=
    .cons (.number rfl rfl) (.cons .str .nil)
  have hquery : Json.SameEntries [("query", .str "x"), ("top_k", .int 5)]
      [("query", .str "x"), ("top_k", .int 5)] :=
    .cons .str (.cons (.number rfl rfl) .nil)
  have hexact := detectLoop_exact 2 (by decide)
    [⟨"rag_query", [("top_k", .int 5), ("query", .str "x")], true, none⟩,
      ⟨"rag_query", [("query", .str "x"), ("top_k", .int 5)], true, none⟩]
    (by simp [Json.WellFormed, Json.WellFormedEntries])
  constructor
  · apply hexact.1.mpr
    refine ⟨[], _, rfl, rfl, ?_⟩
    simp only [List.forall_mem_cons, List.not_mem_nil, false_imp_iff, implies_true, and_true]
    constructor
    · exact ⟨⟨rfl, .obj (.refl _) htop⟩, rfl, .obj (.swap _ _ _) htop⟩
    · exact ⟨⟨rfl, .obj (.swap _ _ _) hquery⟩, rfl, .obj (.refl _) hquery⟩
  · intro heq
    have hcall := (hexact.2 _ _ _ _ (by simp [Json.WellFormed, Json.WellFormedEntries])
      (by simp [Json.WellFormed, Json.WellFormedEntries])).mp heq
    exact absurd hcall.1 (by decide)

end Windows

end Lour.Agents.BudgetEnforcer
