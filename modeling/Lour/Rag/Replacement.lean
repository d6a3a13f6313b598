import Lour.Lib.Fallible
import Lour.Rag.Ingestion
/-!
# What a write replaces

In a well-formed corpus the two lookups find every document with the hash or the
source of the draft, so a write that commits leaves what is neither, and the
draft.  `write_cases` says how far each failure gets.
-/

namespace Lour.Rag

open Lour.Lib Lour.Lib.Python

/-! ## Deleting documents -/

namespace Database

def without (self : Database) (ids : List ℕ) : Database where
  documents := self.documents.filter fun d => decide (d.id ∉ ids)
  chunks := self.chunks.filter fun c => decide (c.documentId ∉ ids)

def pointsOf (self : Database) (ids : List ℕ) : List ℕ :=
  (self.chunks.filter fun c => decide (c.documentId ∈ ids)).map Chunk.pointId

/-- The documents a draft takes the place of. -/
def doomed (self : Database) (docHash sourceUri : String) : List ℕ :=
  (self.documents.filter fun d => d.docHash == docHash || d.sourceUri == sourceUri).map Document.id

variable (db : Database)

theorem mem_pointsOf {ids : List ℕ} {x : ℕ} :
    x ∈ db.pointsOf ids ↔ ∃ c ∈ db.chunks, c.documentId ∈ ids ∧ c.pointId = x := by
  simp [pointsOf, and_assoc]

/-- One more document adds the points of its rows that no earlier one has. -/
theorem mem_pointsOf_concat {ids : List ℕ} {id x : ℕ} :
    x ∈ db.pointsOf (ids ++ [id]) ↔ x ∈ db.pointsOf ids ∨
      ∃ c ∈ db.chunks, c.documentId = id ∧ c.documentId ∉ ids ∧ c.pointId = x := by
  rw [mem_pointsOf, mem_pointsOf]
  constructor
  · rintro ⟨c, hc, hin, hx⟩
    by_cases hbefore : c.documentId ∈ ids
    · exact .inl ⟨c, hc, hbefore, hx⟩
    · rcases List.mem_append.mp hin with hin | hin
      · exact absurd hin hbefore
      · exact .inr ⟨c, hc, List.mem_singleton.mp hin, hbefore, hx⟩
  · rintro (⟨c, hc, hin, hx⟩ | ⟨c, hc, heq, -, hx⟩)
    · exact ⟨c, hc, List.mem_append_left _ hin, hx⟩
    · exact ⟨c, hc, List.mem_append_right _ (List.mem_singleton.mpr heq), hx⟩

theorem mem_doomed {docHash sourceUri : String} {x : ℕ} :
    x ∈ db.doomed docHash sourceUri ↔
      ∃ d ∈ db.documents, (d.docHash = docHash ∨ d.sourceUri = sourceUri) ∧ d.id = x := by
  simp [doomed, and_assoc]

theorem without_nil : db.without [] = db := by
  cases db
  simp [without]

theorem without_delete (ids : List ℕ) (id : ℕ) :
    (db.without ids).delete id = db.without (ids ++ [id]) := by
  simp only [without, delete, List.filter_filter, Database.mk.injEq]
  constructor
  · apply List.filter_congr
    intro d _
    by_cases h : d.id = id <;> simp [h]
  · apply List.filter_congr
    intro c _
    by_cases h : c.documentId = id <;> simp [h]

theorem without_congr {ids ids' : List ℕ} (h : ∀ x, x ∈ ids ↔ x ∈ ids') :
    db.without ids = db.without ids' := by
  simp only [without, h]

theorem pointsOf_congr {ids ids' : List ℕ} (h : ∀ x, x ∈ ids ↔ x ∈ ids') :
    db.pointsOf ids = db.pointsOf ids' := by
  simp only [pointsOf, h]

end Database

section

variable {δ σ : Type} (env : Collaborators δ σ)

theorem deleteOne_fold {docs : List Document} {db db' : Database} {old : List ℕ}
    (h : docs.foldlM env.deleteOne ([], db) = .ok (old, db')) :
    db' = db.without (docs.map Document.id) ∧
      ∀ x, x ∈ old ↔ x ∈ db.pointsOf (docs.map Document.id) := by
  refine foldlM_ok (P := fun before acc => acc.2 = db.without (before.map Document.id) ∧
    ∀ x, x ∈ acc.1 ↔ x ∈ db.pointsOf (before.map Document.id)) ?_
    ⟨by simp [Database.without_nil], by simp [Database.pointsOf]⟩ h
  rintro before acc doc acc' ⟨hdb, hold⟩ hdelete
  unfold Collaborators.deleteOne at hdelete
  simp only [bind_eq_ok] at hdelete
  obtain ⟨-, -, -, -, hacc⟩ := hdelete
  cases hacc
  rw [List.map_append, List.map_singleton]
  refine ⟨by rw [hdb, Database.without_delete], fun x => ?_⟩
  have hlist : x ∈ acc.2.listPointIds doc.id ↔
      ∃ c ∈ db.chunks, c.documentId = doc.id ∧ c.documentId ∉ before.map Document.id ∧
        c.pointId = x := by
    rw [hdb]
    simp [Database.listPointIds, Database.without, and_assoc]
  rw [List.mem_append, hold, hlist, Database.mem_pointsOf_concat _]

/-! ## Well-formed corpora -/

/-- What no ingestion, failing or not, ever breaks. -/
structure Corpus.WF (corpus : Corpus δ σ) : Prop where
  hashes : (corpus.database.documents.map Document.docHash).Nodup
  sources : (corpus.database.documents.map Document.sourceUri).Nodup
  ids : (corpus.database.documents.map Document.id).Nodup
  rows : (corpus.database.chunks.map Chunk.pointId).Nodup
  owned : ∀ c ∈ corpus.database.chunks,
    c.documentId ∈ corpus.database.documents.map Document.id
  indices : ∀ d ∈ corpus.database.documents, ∃ n, 1 ≤ n ∧
    (corpus.database.chunks.filter fun c => c.documentId == d.id).map Chunk.chunkIndex =
      List.range n
  documents_lt : ∀ d ∈ corpus.database.documents, d.id < corpus.minted
  rows_lt : ∀ c ∈ corpus.database.chunks, c.pointId < corpus.minted
  points_lt : ∀ p ∈ corpus.points, p.id < corpus.minted

theorem empty_wf : ({} : Corpus δ σ).WF := by
  constructor <;> simp

/-- Where a key is unique, the filter for it finds one element at most. -/
theorem filter_eq_singleton {α β : Type} [BEq β] [LawfulBEq β] {key : α → β} {l : List α}
    (hnodup : (l.map key).Nodup) {a : α} (ha : a ∈ l) :
    l.filter (fun b => key b == key a) = [a] := by
  induction l with
  | nil => cases ha
  | cons b l ih =>
      rw [List.map_cons, List.nodup_cons] at hnodup
      rw [List.filter_cons]
      rcases List.mem_cons.mp ha with rfl | ha
      · have hrest : l.filter (fun b => key b == key a) = [] := by
          rw [List.filter_eq_nil_iff]
          intro b hb hkey
          exact hnodup.1 (List.mem_map.mpr ⟨b, hb, by simpa using hkey⟩)
        simp [hrest]
      · have hne : (key b == key a) = false := by
          rw [beq_eq_false_iff_ne]
          intro heq
          apply hnodup.1
          exact List.mem_map.mpr ⟨a, ha, heq.symm⟩
        simp [hne, ih hnodup.2 ha]

variable {corpus : Corpus δ σ}

theorem Corpus.WF.getByHash_iff (h : corpus.WF) {docHash : String} {d : Document} :
    corpus.database.getByHash docHash = some d ↔
      d ∈ corpus.database.documents ∧ d.docHash = docHash := by
  constructor
  · intro hd
    exact ⟨List.mem_of_find?_eq_some hd, by simpa using List.find?_some hd⟩
  · rintro ⟨hd, rfl⟩
    rw [Database.getByHash, ← List.head?_filter, filter_eq_singleton h.hashes hd]
    rfl

theorem Corpus.WF.getBySource_iff (h : corpus.WF) {sourceUri : String} {d : Document} :
    corpus.database.getBySource sourceUri = some d ↔
      d ∈ corpus.database.documents ∧ d.sourceUri = sourceUri := by
  constructor
  · intro hd
    have hmem := List.mem_of_mem_head? hd
    rw [List.mem_insertionSort, List.mem_filter] at hmem
    exact ⟨hmem.1, by simpa using hmem.2⟩
  · rintro ⟨hd, rfl⟩
    rw [Database.getBySource, filter_eq_singleton h.sources hd]
    rfl

/-- The two lookups, taken together, find exactly the doomed documents. -/
theorem Corpus.WF.mem_existing (h : corpus.WF) {docHash sourceUri : String} {x : ℕ} :
    x ∈ (Collaborators.existing docHash sourceUri corpus.database).map Document.id ↔
      x ∈ corpus.database.doomed docHash sourceUri := by
  rw [Database.mem_doomed]
  simp only [Collaborators.existing, List.map_append, List.mem_append, List.mem_map,
    Option.mem_toList, Option.filter_eq_some_iff, h.getByHash_iff,
    h.getBySource_iff]
  constructor
  · rintro (⟨d, ⟨hd, hhash⟩, rfl⟩ | ⟨d, ⟨⟨hd, hsource⟩, -⟩, rfl⟩)
    · exact ⟨d, hd, .inl hhash, rfl⟩
    · exact ⟨d, hd, .inr hsource, rfl⟩
  · rintro ⟨d, hd, hhash | hsource, rfl⟩
    · exact .inl ⟨d, ⟨hd, hhash⟩, rfl⟩
    · by_cases hseen : ∃ e ∈ corpus.database.documents, e.docHash = docHash ∧ e.id = d.id
      · obtain ⟨e, he, hhash, hid⟩ := hseen
        exact .inl ⟨e, ⟨he, hhash⟩, hid⟩
      · refine .inr ⟨d, ⟨⟨hd, hsource⟩, ?_⟩, rfl⟩
        cases hbyHash : corpus.database.getByHash docHash with
        | none => rfl
        | some e =>
            obtain ⟨he, hhash⟩ := h.getByHash_iff.mp hbyHash
            have hne : e.id ≠ d.id := fun hid => hseen ⟨e, he, hhash, hid⟩
            simpa using hne

theorem deleteExisting_ok (h : corpus.WF) {docHash sourceUri : String} {old : List ℕ}
    {db' : Database}
    (hok : env.deleteExisting docHash sourceUri corpus.database = .ok (old, db')) :
    db' = corpus.database.without (corpus.database.doomed docHash sourceUri) ∧
      ∀ x, x ∈ old ↔
        x ∈ corpus.database.pointsOf (corpus.database.doomed docHash sourceUri) := by
  unfold Collaborators.deleteExisting at hok
  simp only [bind_eq_ok] at hok
  obtain ⟨-, -, -, -, hfold⟩ := hok
  obtain ⟨hdb, hold⟩ := deleteOne_fold env hfold
  rw [Database.without_congr _ fun x => h.mem_existing] at hdb
  rw [Database.pointsOf_congr _ fun x => h.mem_existing] at hold
  exact ⟨hdb, hold⟩

/-! ## Writing the draft -/

/-- The point that belongs to a chunk row of the draft. -/
def Draft.Indexes (draft : Draft δ σ) (chunk : Chunk) (point : Point δ σ) : Prop :=
  ∃ dense sparse, draft.dense[chunk.chunkIndex]? = some dense ∧
    draft.sparse[chunk.chunkIndex]? = some sparse ∧
    point = draft.buildPoint chunk dense sparse

theorem vectors_ok {draft : Draft δ σ} {i : ℕ} {v : δ × σ} (h : draft.vectors i = .ok v) :
    draft.dense[i]? = some v.1 ∧ draft.sparse[i]? = some v.2 := by
  unfold Draft.vectors at h
  split at h
  next dense sparse hdense hsparse =>
      cases h
      exact ⟨hdense, hsparse⟩
  next => cases h

theorem flush_ok {α : Type} {site : Site} {written : Option α} {a : α}
    (h : env.flush site written = .ok a) : written = some a := by
  unfold Collaborators.flush at h
  obtain ⟨-, -, h⟩ := bind_eq_ok.mp h
  cases written with
  | none => cases h
  | some b =>
      cases h
      rfl

theorem addChunk_eq_some {db db' : Database} {chunk : Chunk} (h : db.addChunk chunk = some db') :
    db' = { db with chunks := db.chunks ++ [chunk] } := by
  unfold Database.addChunk at h
  split at h
  · cases h
  · exact (Option.some.inj h).symm

theorem addDocument_eq_some {db db' : Database} {document : Document}
    (h : db.addDocument document = some db') :
    db' = { db with documents := db.documents ++ [document] } := by
  unfold Database.addDocument at h
  split at h
  · cases h
  · exact (Option.some.inj h).symm

theorem writeChunk_fold {draft : Draft δ σ} {chunks : List Chunk} {db db' : Database}
    {points : List (Point δ σ)}
    (h : chunks.foldlM (env.writeChunk draft) (db, []) = .ok (db', points)) :
    db' = { db with chunks := db.chunks ++ chunks } ∧
      List.Forall₂ draft.Indexes chunks points := by
  refine foldlM_ok (P := fun before acc => acc.1 = { db with chunks := db.chunks ++ before } ∧
    List.Forall₂ draft.Indexes before acc.2) ?_ ⟨by simp, List.Forall₂.nil⟩ h
  rintro before acc chunk acc' ⟨hdb, hpoints⟩ hwrite
  unfold Collaborators.writeChunk at hwrite
  obtain ⟨db₁, hflush, hwrite⟩ := bind_eq_ok.mp hwrite
  obtain ⟨v, hvectors, hacc⟩ := bind_eq_ok.mp hwrite
  cases hacc
  obtain ⟨hdense, hsparse⟩ := vectors_ok hvectors
  refine ⟨?_, ?_⟩
  · rw [addChunk_eq_some (flush_ok env hflush), hdb]
    simp
  · exact List.rel_append hpoints
      (.cons ⟨v.1, v.2, hdense, hsparse, rfl⟩ .nil)

/-- The database after the draft took the place of the doomed documents. -/
def Database.replaced (db : Database) (draft : Draft δ σ) (createdAt : Rat) : Database :=
  let rest := db.without (db.doomed draft.docHash draft.loaded.sourceUri)
  { documents := rest.documents ++ [draft.document createdAt]
    chunks := rest.chunks ++ draft.chunks }

theorem stage_ok (h : corpus.WF) {draft : Draft δ σ} {old : List ℕ} {db' : Database}
    {points : List (Point δ σ)} (hok : env.stage draft corpus.database = .ok (old, db', points)) :
    db' = corpus.database.replaced draft env.now ∧
      (∀ x, x ∈ old ↔ x ∈ corpus.database.pointsOf
        (corpus.database.doomed draft.docHash draft.loaded.sourceUri)) ∧
      List.Forall₂ draft.Indexes draft.chunks points := by
  unfold Collaborators.stage at hok
  obtain ⟨⟨old', db₁⟩, hdelete, hok⟩ := bind_eq_ok.mp hok
  obtain ⟨db₂, hadd, hok⟩ := bind_eq_ok.mp hok
  obtain ⟨⟨db₃, points'⟩, hchunks, hok⟩ := bind_eq_ok.mp hok
  cases hok
  obtain ⟨rfl, hold⟩ := deleteExisting_ok env h hdelete
  obtain ⟨rfl, hpoints⟩ := writeChunk_fold env hchunks
  rw [addDocument_eq_some (flush_ok env hadd)]
  exact ⟨rfl, hold, hpoints⟩

/-- No exception of the relational half comes from a later call. -/
def Staging (e : Failure) : Prop :=
  e ≠ .raised .deletePoints ∧ e ≠ .raised .upsertPoints ∧ e ≠ .raised .commit

theorem call_raises {P : Failure → Prop} {site : Site} (h : P (.raised site)) :
    Raises P (env.call site) := by
  unfold Collaborators.call
  split
  · exact .error h
  · exact .ok ()

theorem flush_raises {α : Type} {P : Failure → Prop} {site : Site} (h : P (.raised site))
    (written : Option α) : Raises P (env.flush site written) := by
  unfold Collaborators.flush
  apply (call_raises env h).bind
  intro _
  cases written with
  | none => exact .error h
  | some a => exact .ok a

theorem stage_raises (draft : Draft δ σ) (db : Database) :
    Raises Staging (env.stage draft db) := by
  have hdelete : ∀ acc doc, Raises Staging (env.deleteOne acc doc) := fun acc doc =>
    (call_raises env (by simp [Staging])).bind fun _ =>
      (call_raises env (by simp [Staging])).bind fun _ => .ok _
  have hchunk : ∀ acc chunk, Raises Staging (env.writeChunk draft acc chunk) := fun acc chunk =>
    (flush_raises env (by simp [Staging]) _).bind fun _ => by
      refine Raises.bind ?_ fun _ => .ok _
      unfold Draft.vectors
      split
      · exact .ok _
      · exact .error (by simp [Staging])
  unfold Collaborators.stage Collaborators.deleteExisting
  refine Raises.bind ?_ fun acc => ?_
  · exact (call_raises env (by simp [Staging])).bind fun _ =>
      (call_raises env (by simp [Staging])).bind fun _ => .foldlM hdelete _ _
  · exact (flush_raises env (by simp [Staging]) _).bind fun _ =>
      (Raises.foldlM hchunk _ _).bind fun _ => .ok _

/-! ## How far a write gets -/

/-- The points that stay when the doomed documents go. -/
def Corpus.kept (corpus : Corpus δ σ) (draft : Draft δ σ) : List (Point δ σ) :=
  deletePoints (corpus.database.pointsOf
    (corpus.database.doomed draft.docHash draft.loaded.sourceUri)) corpus.points

def Corpus.mint (corpus : Corpus δ σ) (draft : Draft δ σ) : Corpus δ σ :=
  { corpus with minted := corpus.minted + 1 + draft.texts.length }

inductive Written (env : Collaborators δ σ) (draft : Draft δ σ) (corpus : Corpus δ σ) :
    Except Failure IngestResult → Corpus δ σ → Prop
  | rolledBack (e : Failure) (hupsert : e ≠ .raised .upsertPoints) (hcommit : e ≠ .raised .commit) :
      Written env draft corpus (.error e) (corpus.mint draft)
  | halfway (hraises : env.raises .upsertPoints = true) :
      Written env draft corpus (.error (.raised .upsertPoints))
        { corpus.mint draft with points := corpus.kept draft }
  | uncommitted (hraises : env.raises .commit = true) (points : List (Point δ σ))
      (hpoints : List.Forall₂ draft.Indexes draft.chunks points) :
      Written env draft corpus (.error (.raised .commit))
        { corpus.mint draft with points := corpus.kept draft ++ points }
  | committed (result : IngestResult) (points : List (Point δ σ))
      (hpoints : List.Forall₂ draft.Indexes draft.chunks points) :
      Written env draft corpus (.ok result)
        { corpus.mint draft with
          database := corpus.database.replaced draft env.now
          points := corpus.kept draft ++ points }

theorem draft_pointIds (draft : Draft δ σ) :
    draft.chunks.map Chunk.pointId =
      (List.range draft.texts.length).map fun i => draft.documentId + 1 + i := by
  rw [Draft.chunks, List.map_map, List.range_eq_range', ← List.zipIdx_map_snd 0 draft.texts,
    List.map_map]
  rfl

theorem indexes_ids {draft : Draft δ σ} {chunks : List Chunk} {points : List (Point δ σ)}
    (h : List.Forall₂ draft.Indexes chunks points) :
    points.map Point.id = chunks.map Chunk.pointId := by
  induction h with
  | nil => rfl
  | cons hpoint _ ih =>
      obtain ⟨dense, sparse, -, -, rfl⟩ := hpoint
      rw [List.map_cons, List.map_cons, ih]
      rfl

/-- The points of a draft are new to the collection. -/
theorem upsertPoints_kept (h : corpus.WF) {draft : Draft δ σ}
    (hid : draft.documentId = corpus.minted) {points : List (Point δ σ)}
    (hpoints : List.Forall₂ draft.Indexes draft.chunks points) :
    upsertPoints (corpus.kept draft) points = corpus.kept draft ++ points := by
  have hids : points.map Point.id =
      (List.range draft.texts.length).map fun i => corpus.minted + 1 + i := by
    rw [indexes_ids hpoints, draft_pointIds, hid]
  apply upsertPoints_eq_append
  · rw [hids]
    apply List.nodup_range.map
    intro a b hab
    have hsame : corpus.minted + 1 + a = corpus.minted + 1 + b := hab
    omega
  · intro p hp hin
    have hlt := h.points_lt p (List.mem_of_mem_filter hp)
    rw [hids, List.mem_map] at hin
    obtain ⟨i, -, hi⟩ := hin
    omega

theorem call_cases (site : Site) :
    env.call site = .ok () ∨ env.raises site = true ∧ env.call site = .error (.raised site) := by
  unfold Collaborators.call
  split
  next hraises => exact .inr ⟨hraises, rfl⟩
  next => exact .inl rfl

theorem write_cases (h : corpus.WF) {draft : Draft δ σ} (hid : draft.documentId = corpus.minted) :
    Written env draft corpus (env.write draft corpus).1 (env.write draft corpus).2 := by
  unfold Collaborators.write
  dsimp only
  cases hstage : env.stage draft corpus.database with
  | error e =>
      obtain ⟨-, hupsert, hcommit⟩ := stage_raises env draft corpus.database e hstage
      exact .rolledBack e hupsert hcommit
  | ok staged =>
      obtain ⟨old, db, points⟩ := staged
      obtain ⟨rfl, hold, hpoints⟩ := stage_ok env h hstage
      have hkept : deletePoints old corpus.points = corpus.kept draft := by
        simp only [Corpus.kept, deletePoints, hold]
      have hstored := upsertPoints_kept h hid hpoints
      have hdelete : (if old.isEmpty then .ok () else env.call .deletePoints) =
          (.ok () : Except Failure Unit) ∨
          (if old.isEmpty then .ok () else env.call .deletePoints) =
            (.error (.raised .deletePoints) : Except Failure Unit) := by
        split
        · exact .inl rfl
        · exact (call_cases env .deletePoints).imp_right And.right
      rcases hdelete with hdelete | hdelete
      · rcases call_cases env .upsertPoints with hupsert | ⟨hraises, hupsert⟩
        · rcases call_cases env .commit with hcommit | ⟨hraises, hcommit⟩
          · simp only [hdelete, hupsert, hcommit, hkept, hstored]
            exact .committed _ points hpoints
          · simp only [hdelete, hupsert, hcommit, hkept, hstored]
            exact .uncommitted hraises points hpoints
        · simp only [hdelete, hupsert, hkept]
          exact .halfway hraises
      · simp only [hdelete]
        exact .rolledBack _ (by simp) (by simp)

end

end Lour.Rag
