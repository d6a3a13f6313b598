import Lour.Rag.Replacement
/-!
# Well-formed corpora stay well formed

Whatever fails on the way, the relational store changes only by a commit that
replaces documents as a whole, and no id is handed out twice.
-/

namespace Lour.Rag

open Lour.Lib Lour.Lib.Python

variable {δ σ : Type} {env : Collaborators δ σ} {corpus after : Corpus δ σ} {draft : Draft δ σ}

/-! ## One write -/

theorem Corpus.WF.withPoints (h : corpus.WF) {points : List (Point δ σ)} {minted : ℕ}
    (hle : corpus.minted ≤ minted) (hpoints : ∀ p ∈ points, p.id < minted) :
    Corpus.WF { database := corpus.database, points := points, minted := minted } where
  hashes := h.hashes
  sources := h.sources
  ids := h.ids
  rows := h.rows
  owned := h.owned
  indices := h.indices
  documents_lt d hd := Nat.lt_of_lt_of_le (h.documents_lt d hd) hle
  rows_lt c hc := Nat.lt_of_lt_of_le (h.rows_lt c hc) hle
  points_lt := hpoints

/-- The documents that stay are neither of the hash nor of the source of the draft. -/
theorem mem_without_doomed {db : Database} {docHash sourceUri : String} {d : Document}
    (hids : (db.documents.map Document.id).Nodup) :
    d ∈ (db.without (db.doomed docHash sourceUri)).documents ↔
      d ∈ db.documents ∧ d.docHash ≠ docHash ∧ d.sourceUri ≠ sourceUri := by
  simp only [Database.without, List.mem_filter, decide_eq_true_eq, Database.mem_doomed]
  constructor
  · rintro ⟨hd, hnot⟩
    exact ⟨hd, fun heq => hnot ⟨d, hd, .inl heq, rfl⟩, fun heq => hnot ⟨d, hd, .inr heq, rfl⟩⟩
  · rintro ⟨hd, hhash, hsource⟩
    refine ⟨hd, ?_⟩
    rintro ⟨e, he, hdoomed, hid⟩
    rcases List.inj_on_of_nodup_map hids he hd hid with rfl
    rcases hdoomed with heq | heq
    · exact hhash heq
    · exact hsource heq

theorem draft_chunk_mem {c : Chunk} (hc : c ∈ draft.chunks) :
    c.documentId = draft.documentId ∧ c.pointId = draft.documentId + 1 + c.chunkIndex ∧
      c.chunkIndex < draft.texts.length ∧ draft.texts[c.chunkIndex]? = some c.content := by
  obtain ⟨⟨text, i⟩, hmem, rfl⟩ := List.mem_map.mp hc
  have htext := List.mem_zipIdx_iff_getElem?.mp hmem
  exact ⟨rfl, rfl, (List.getElem?_eq_some_iff.mp htext).1, htext⟩

theorem draft_indices (draft : Draft δ σ) :
    draft.chunks.map Chunk.chunkIndex = List.range draft.texts.length := by
  rw [Draft.chunks, List.map_map, List.range_eq_range', ← List.zipIdx_map_snd 0 draft.texts]
  rfl

theorem nodup_map_filter {α β : Type} {f : α → β} {l : List α} (p : α → Bool)
    (h : (l.map f).Nodup) : ((l.filter p).map f).Nodup :=
  (List.filter_sublist.map f).nodup h

theorem nodup_map_snoc {α β : Type} {f : α → β} {l : List α} {a : α} (h : (l.map f).Nodup)
    (hne : ∀ b ∈ l, f b ≠ f a) : ((l ++ [a]).map f).Nodup := by
  rw [List.map_append, List.nodup_append]
  refine ⟨h, by simp, fun x hx y hy => ?_⟩
  obtain ⟨b, hb, rfl⟩ := List.mem_map.mp hx
  have hy : y = f a := by simpa using hy
  rw [hy]
  exact hne b hb

/-- The chunk rows of a document that stays are those it had. -/
theorem replaced_rows_old (h : corpus.WF) (hid : draft.documentId = corpus.minted)
    (createdAt : Rat) {d : Document}
    (hd : d ∈ (corpus.database.without
      (corpus.database.doomed draft.docHash draft.loaded.sourceUri)).documents) :
    (corpus.database.replaced draft createdAt).chunks.filter (fun c => c.documentId == d.id) =
      corpus.database.chunks.filter fun c => c.documentId == d.id := by
  obtain ⟨hmem, hstays⟩ := List.mem_filter.mp hd
  have hlt := h.documents_lt d hmem
  have hnew : draft.chunks.filter (fun c => c.documentId == d.id) = [] := by
    rw [List.filter_eq_nil_iff]
    intro c hc heq
    have hdoc := (draft_chunk_mem hc).1
    have heq : c.documentId = d.id := by simpa using heq
    omega
  rw [Database.replaced, List.filter_append, hnew, List.append_nil, Database.without,
    List.filter_filter]
  apply List.filter_congr
  intro c _
  by_cases heq : c.documentId = d.id
  · simp only [heq, beq_self_eq_true, Bool.true_and]
    exact hstays
  · simp [heq]

/-- The chunk rows of the draft's document are the draft's. -/
theorem replaced_rows_new (h : corpus.WF) (hid : draft.documentId = corpus.minted)
    (createdAt : Rat) :
    (corpus.database.replaced draft createdAt).chunks.filter
      (fun c => c.documentId == draft.documentId) = draft.chunks := by
  have hold : ((corpus.database.without (corpus.database.doomed draft.docHash
      draft.loaded.sourceUri)).chunks.filter fun c => c.documentId == draft.documentId) = [] := by
    rw [List.filter_eq_nil_iff]
    intro c hc heq
    obtain ⟨d, hd, hdc⟩ := List.mem_map.mp (h.owned c (List.mem_of_mem_filter hc))
    have hlt := h.documents_lt d hd
    have heq : c.documentId = draft.documentId := by simpa using heq
    omega
  have hnew : draft.chunks.filter (fun c => c.documentId == draft.documentId) =
      draft.chunks := by
    rw [List.filter_eq_self]
    intro c hc
    simp [(draft_chunk_mem hc).1]
  rw [Database.replaced, List.filter_append, hold, hnew, List.nil_append]

theorem Corpus.WF.replaced (h : corpus.WF) (hid : draft.documentId = corpus.minted)
    (htexts : draft.texts ≠ []) (createdAt : Rat) :
    Corpus.WF { corpus.mint draft with
      database := corpus.database.replaced draft createdAt } where
  hashes := nodup_map_snoc (nodup_map_filter _ h.hashes) fun d hd =>
    ((mem_without_doomed h.ids).mp hd).2.1
  sources := nodup_map_snoc (nodup_map_filter _ h.sources) fun d hd =>
    ((mem_without_doomed h.ids).mp hd).2.2
  ids := by
    apply nodup_map_snoc (nodup_map_filter _ h.ids)
    intro d hd heq
    have hlt := h.documents_lt d (List.mem_of_mem_filter hd)
    have heq : d.id = draft.documentId := heq
    omega
  rows := by
    simp only [Database.replaced]
    rw [List.map_append, List.nodup_append, draft_pointIds]
    refine ⟨nodup_map_filter _ h.rows, ?_, fun x hx y hy => ?_⟩
    · exact List.nodup_range.map fun i j hij => by
        have : draft.documentId + 1 + i = draft.documentId + 1 + j := hij
        omega
    · obtain ⟨c, hc, rfl⟩ := List.mem_map.mp hx
      obtain ⟨i, -, rfl⟩ := List.mem_map.mp hy
      have hlt := h.rows_lt c (List.mem_of_mem_filter hc)
      omega
  owned c hc := by
    rcases List.mem_append.mp hc with hc | hc
    · obtain ⟨hmem, hstays⟩ := List.mem_filter.mp hc
      obtain ⟨d, hd, hdc⟩ := List.mem_map.mp (h.owned c hmem)
      refine List.mem_map.mpr ⟨d, List.mem_append_left _ (List.mem_filter.mpr ⟨hd, ?_⟩), hdc⟩
      rw [hdc]
      exact hstays
    · refine List.mem_map.mpr ⟨draft.document createdAt, ?_, (draft_chunk_mem hc).1.symm⟩
      exact List.mem_append_right _ (List.mem_singleton_self _)
  indices d hd := by
    rcases List.mem_append.mp hd with hd | hd
    · obtain ⟨n, hn, hindices⟩ := h.indices d (List.mem_of_mem_filter hd)
      refine ⟨n, hn, ?_⟩
      rw [replaced_rows_old h hid createdAt hd]
      exact hindices
    · rw [List.mem_singleton.mp hd]
      refine ⟨draft.texts.length, List.length_pos_iff.mpr htexts, ?_⟩
      rw [← draft_indices, ← replaced_rows_new h hid createdAt]
      rfl
  documents_lt d hd := by
    simp only [Corpus.mint]
    rcases List.mem_append.mp hd with hd | hd
    · have hlt := h.documents_lt d (List.mem_of_mem_filter hd)
      omega
    · rw [List.mem_singleton.mp hd]
      simp only [Draft.document]
      omega
  rows_lt c hc := by
    simp only [Corpus.mint]
    rcases List.mem_append.mp hc with hc | hc
    · have hlt := h.rows_lt c (List.mem_of_mem_filter hc)
      omega
    · obtain ⟨-, hpoint, hlt, -⟩ := draft_chunk_mem hc
      omega
  points_lt p hp := by
    have hlt := h.points_lt p hp
    simp only [Corpus.mint]
    omega

theorem kept_lt (h : corpus.WF) : ∀ p ∈ corpus.kept draft, p.id < (corpus.mint draft).minted := by
  intro p hp
  have hlt := h.points_lt p (List.mem_of_mem_filter hp)
  simp only [Corpus.mint]
  omega

theorem indexed_lt (hid : draft.documentId = corpus.minted) {points : List (Point δ σ)}
    (hpoints : List.Forall₂ draft.Indexes draft.chunks points) :
    ∀ p ∈ points, corpus.minted < p.id ∧ p.id < (corpus.mint draft).minted := by
  intro p hp
  have hin : p.id ∈ points.map Point.id := List.mem_map_of_mem hp
  rw [indexes_ids hpoints] at hin
  obtain ⟨c, hc, hpc⟩ := List.mem_map.mp hin
  obtain ⟨-, hpoint, hlt, -⟩ := draft_chunk_mem hc
  simp only [Corpus.mint]
  omega

theorem Written.wf {r : Except Failure IngestResult} (h : corpus.WF)
    (hid : draft.documentId = corpus.minted) (htexts : draft.texts ≠ [])
    (hwritten : Written env draft corpus r after) : after.WF := by
  have hle : corpus.minted ≤ (corpus.mint draft).minted := by
    simp only [Corpus.mint]
    omega
  have hall : ∀ points, List.Forall₂ draft.Indexes draft.chunks points →
      ∀ p ∈ corpus.kept draft ++ points, p.id < (corpus.mint draft).minted := by
    intro points hpoints p hp
    rcases List.mem_append.mp hp with hp | hp
    · exact kept_lt h p hp
    · exact (indexed_lt hid hpoints p hp).2
  cases hwritten with
  | rolledBack e hupsert hcommit =>
      exact h.withPoints hle fun p hp => Nat.lt_of_lt_of_le (h.points_lt p hp) hle
  | halfway hraises => exact h.withPoints hle (kept_lt h)
  | uncommitted hraises points hpoints => exact h.withPoints hle (hall points hpoints)
  | committed result points hpoints =>
      exact (h.replaced hid htexts env.now).withPoints (Nat.le_refl _) (hall points hpoints)

/-! ## One call -/

variable {sha256 : String → String} {loaded : LoadedDocument} {force : Bool}

/-- The chunk texts of a document that are not blank. -/
def Collaborators.texts (env : Collaborators δ σ) (loaded : LoadedDocument) : List String :=
  (loaded.segments.getD (env.split loaded.content)).filter fun text => !isBlank text

/-- The call gets past both early exits. -/
def Proceeds (sha256 : String → String) (env : Collaborators δ σ) (loaded : LoadedDocument)
    (force : Bool) (corpus : Corpus δ σ) : Prop :=
  (force = true ∨ ∀ d ∈ corpus.database.documents, d.docHash ≠ sha256 loaded.content) ∧
    env.texts loaded ≠ []

def draftOf (sha256 : String → String) (env : Collaborators δ σ) (loaded : LoadedDocument)
    (corpus : Corpus δ σ) : Draft δ σ where
  documentId := corpus.minted
  docHash := sha256 loaded.content
  loaded := loaded
  texts := env.texts loaded
  dense := env.embedDense (env.texts loaded)
  sparse := env.embedSparse (env.texts loaded)

inductive Ingested (sha256 : String → String) (env : Collaborators δ σ) (loaded : LoadedDocument)
    (force : Bool) (corpus : Corpus δ σ) :
    Except Failure IngestResult → Corpus δ σ → List (Draft δ σ) → Prop
  | failed (e : Failure) (hupsert : e ≠ .raised .upsertPoints) (hcommit : e ≠ .raised .commit) :
      Ingested sha256 env loaded force corpus (.error e) corpus []
  | skipped (result : IngestResult) (hstops : ¬ Proceeds sha256 env loaded force corpus) :
      Ingested sha256 env loaded force corpus (.ok result) corpus []
  | wrote (r : Except Failure IngestResult) (after : Corpus δ σ)
      (hproceeds : Proceeds sha256 env loaded force corpus)
      (hwritten : Written env (draftOf sha256 env loaded corpus) corpus r after) :
      Ingested sha256 env loaded force corpus r after [draftOf sha256 env loaded corpus]

theorem chunkTexts_ok {texts : List String} (h : env.chunkTexts loaded = .ok texts) :
    texts = env.texts loaded := by
  unfold Collaborators.chunkTexts at h
  obtain ⟨found, hfound, h⟩ := bind_eq_ok.mp h
  cases h
  unfold Collaborators.segments at hfound
  unfold Collaborators.texts
  cases hsegments : loaded.segments with
  | none =>
      rw [hsegments] at hfound
      obtain ⟨-, -, hsplit⟩ := bind_eq_ok.mp hfound
      cases hsplit
      rfl
  | some segments =>
      rw [hsegments] at hfound
      cases hfound
      rfl

theorem prepare_ok {docHash : String} {documentId : ℕ} {found : Option (Draft δ σ)}
    (h : env.prepare docHash loaded documentId = .ok found) :
    (env.texts loaded = [] ∧ found = none) ∨ env.texts loaded ≠ [] ∧ found = some
      { documentId, docHash, loaded
        texts := env.texts loaded
        dense := env.embedDense (env.texts loaded)
        sparse := env.embedSparse (env.texts loaded) } := by
  unfold Collaborators.prepare at h
  obtain ⟨texts, htexts, h⟩ := bind_eq_ok.mp h
  rw [chunkTexts_ok htexts] at h
  split at h
  next hempty =>
      cases h
      exact .inl ⟨List.isEmpty_iff.mp hempty, rfl⟩
  next hne =>
      obtain ⟨-, -, h⟩ := bind_eq_ok.mp h
      obtain ⟨-, -, h⟩ := bind_eq_ok.mp h
      cases h
      exact .inr ⟨by simpa using hne, rfl⟩

theorem prepare_raises (docHash : String) (documentId : ℕ) :
    Raises Staging (env.prepare docHash loaded documentId) := by
  unfold Collaborators.prepare
  refine Raises.bind ?_ fun texts => ?_
  · unfold Collaborators.chunkTexts Collaborators.segments
    refine Raises.bind ?_ fun _ => .ok _
    split
    · exact .ok _
    · exact (call_raises env (by simp [Staging])).bind fun _ => .ok _
  · split
    · exact .ok _
    · exact (call_raises env (by simp [Staging])).bind fun _ =>
        (call_raises env (by simp [Staging])).bind fun _ => .ok _

theorem duplicate_ok (h : corpus.WF) {docHash : String} {found : Option Document}
    (hok : env.duplicate force docHash corpus.database = .ok found) :
    found = none ↔ force = true ∨ ∀ d ∈ corpus.database.documents, d.docHash ≠ docHash := by
  unfold Collaborators.duplicate at hok
  cases force with
  | true =>
      cases hok
      simp
  | false =>
      obtain ⟨-, -, hok⟩ := bind_eq_ok.mp hok
      obtain ⟨-, -, hok⟩ := bind_eq_ok.mp hok
      cases hok
      rw [Option.eq_none_iff_forall_ne_some]
      simp only [Bool.false_eq_true, false_or]
      constructor
      · intro hnone d hd hhash
        apply hnone d
        exact h.getByHash_iff.mpr ⟨hd, hhash⟩
      · intro hall d hd
        obtain ⟨hmem, hhash⟩ := h.getByHash_iff.mp hd
        exact hall d hmem hhash

theorem duplicate_raises (docHash : String) (db : Database) :
    Raises Staging (env.duplicate force docHash db) := by
  unfold Collaborators.duplicate
  split
  · exact .ok _
  · exact (call_raises env (by simp [Staging])).bind fun _ =>
      (call_raises env (by simp [Staging])).bind fun _ => .ok _

theorem ingest_cases (sha256 : String → String) (env : Collaborators δ σ)
    (loaded : LoadedDocument) (force : Bool) (h : corpus.WF) :
    Ingested sha256 env loaded force corpus (ingest sha256 env loaded force corpus).1
      (ingest sha256 env loaded force corpus).2.1
      (ingest sha256 env loaded force corpus).2.2 := by
  unfold ingest
  dsimp only
  cases hduplicate : env.duplicate force (sha256 loaded.content) corpus.database with
  | error e =>
      obtain ⟨-, hupsert, hcommit⟩ := duplicate_raises _ _ e hduplicate
      exact .failed e hupsert hcommit
  | ok found =>
      have hfound := duplicate_ok h hduplicate
      cases found with
      | some existing =>
          apply Ingested.skipped
          intro hproceeds
          cases hfound.mpr hproceeds.1
      | none =>
          cases hprepare : env.prepare (sha256 loaded.content) loaded corpus.minted with
          | error e =>
              obtain ⟨-, hupsert, hcommit⟩ := prepare_raises _ _ e hprepare
              exact .failed e hupsert hcommit
          | ok draft =>
              rcases prepare_ok hprepare with ⟨hempty, rfl⟩ | ⟨htexts, rfl⟩
              · exact .skipped _ fun hproceeds => hproceeds.2 hempty
              · exact .wrote _ _ ⟨hfound.mp rfl, htexts⟩ (write_cases env h rfl)

theorem Ingested.wf {r : Except Failure IngestResult} {drafts : List (Draft δ σ)} (h : corpus.WF)
    (hingested : Ingested sha256 env loaded force corpus r after drafts) : after.WF := by
  cases hingested with
  | failed e hupsert hcommit => exact h
  | skipped result hstops => exact h
  | wrote r after hproceeds hwritten => exact hwritten.wf h rfl hproceeds.2

/-! ## Sequences of calls -/

/-- A call that loads nothing changes nothing; any other ingests what it loads. -/
theorem corpusSystem_cases {call : IngestCall × Collaborators δ σ} {drafts : List (Draft δ σ)}
    (h : corpus.WF) (hstep : (corpusSystem δ σ sha256).step corpus call = some (after, drafts)) :
    (after = corpus ∧ drafts = []) ∨
      ∃ loaded r, call.1.load call.2 = .ok loaded ∧
        Ingested sha256 call.2 loaded call.1.force corpus r after drafts := by
  simp only [corpusSystem, perform] at hstep
  cases hload : call.1.load call.2 with
  | error e =>
      rw [hload] at hstep
      cases hstep
      exact .inl ⟨rfl, rfl⟩
  | ok loaded =>
      rw [hload] at hstep
      cases hstep
      exact .inr ⟨loaded, _, rfl, ingest_cases sha256 call.2 loaded call.1.force h⟩

theorem step_wf (call : IngestCall × Collaborators δ σ) (drafts : List (Draft δ σ))
    (h : corpus.WF) (hstep : (corpusSystem δ σ sha256).step corpus call = some (after, drafts)) :
    after.WF := by
  rcases corpusSystem_cases h hstep with ⟨rfl, -⟩ | ⟨loaded, r, -, hingested⟩
  · exact h
  · exact hingested.wf h

theorem reachable_wf {calls : List (IngestCall × Collaborators δ σ)} {drafts : List (Draft δ σ)}
    (hrun : (corpusSystem δ σ sha256).run {} calls = some (corpus, drafts)) : corpus.WF :=
  System.invariant_run (fun _ call _ out hs hstep => step_wf call out hs hstep) empty_wf hrun

end Lour.Rag
