import TachyonEngine.Gc.YoungMark

/-!
# Rebuilding the remembered sources

After young marking has closed the weak references, the remembered sources are traced
once more, only to learn which of them still have a young target, and the marked
objects of the promotion candidates are traced to prepare their cards. Both change
cards, remembered bits and the chain of remembered sources, and nothing else: the
`uncarded` table stays as it is. No source with a young target is forgotten
(`rebuildRemembered_facts`), and the cards of a promotion candidate have every marked
object with a young target (`preparePromotions_facts`).
-/

namespace TachyonEngine.Gc

open SpanTable Option

open Lib.Traversal Lib.Capacity

/-! ## Tables without cards -/

/-- An entry's content without cards and remembered bit. -/
def SpanKind.uncarded : SpanKind → SpanKind
  | .small span => .small { span with metadata := { span.metadata with cards := .new } }
  | .largeOwner span =>
    .largeOwner { span with metadata := { span.metadata with remembered := false } }
  | .largeContinuation owner ordinal => .largeContinuation owner ordinal

/-- An entry without cards, remembered bit and remembered link. -/
def SpanEntry.uncarded (entry : SpanEntry) : SpanEntry :=
  { entry with
    kind := entry.kind.map SpanKind.uncarded
    rememberedNext := none
    inRememberedSet := false }

@[simp] theorem SpanKind.bare_uncarded (kind : SpanKind) : kind.uncarded.bare = kind.bare := by
  cases kind <;> rfl

@[simp] theorem SpanEntry.bare_uncarded (ent : SpanEntry) : ent.uncarded.bare = ent.bare := by
  unfold SpanEntry.bare SpanEntry.uncarded
  cases ent.kind <;> simp

namespace SpanTable

variable {t t' : SpanTable} {span : SpanId} {ref : RawHeapRef}

/-- The table without what the remembered set has. -/
def uncarded (t : SpanTable) : SpanTable :=
  { t with entries := t.entries.map SpanEntry.uncarded, rememberedHead := none }

theorem getElem?_uncarded (t : SpanTable) (span : SpanId) :
    t.uncarded.entries[span]? = (t.entries[span]?).map SpanEntry.uncarded := by
  simp [uncarded]

theorem kind_uncarded (t : SpanTable) (span : SpanId) :
    t.uncarded.kind span = (t.kind span).map SpanKind.uncarded := by
  unfold kind
  rw [getElem?_uncarded]
  cases t.entries[span]? <;> rfl

@[simp] theorem bare_uncarded (t : SpanTable) : t.uncarded.bare = t.bare := by
  unfold bare uncarded
  simp

/-- An entry change that the uncarded table does not show. -/
theorem uncarded_modifyEntry {f : SpanEntry → SpanEntry}
    (hf : ∀ ent : SpanEntry, (f ent).uncarded = ent.uncarded) (span : SpanId) :
    (t.modifyEntry span f).uncarded = t.uncarded := by
  unfold uncarded
  simp only [modifyEntry, mk.injEq, and_true]
  exact Lib.map_modify_of_eq hf t.entries span

theorem uncarded_modifyKind {f : SpanKind → SpanKind}
    (hf : ∀ kind : SpanKind, (f kind).uncarded = kind.uncarded) (span : SpanId) :
    (t.modifyKind span f).uncarded = t.uncarded := by
  apply uncarded_modifyEntry
  intro ent
  unfold SpanEntry.uncarded
  cases ent.kind with
  | none => rfl
  | some kind => simp [hf]

@[simp] theorem uncarded_replaceCards (t : SpanTable) (span : SpanId) (cards : CardBitmap) :
    (t.replaceCards span cards).uncarded = t.uncarded :=
  uncarded_modifyKind (fun kind => by cases kind <;> rfl) span

@[simp] theorem uncarded_setLargeRemembered (t : SpanTable) (span : SpanId) (remembered : Bool) :
    (t.setLargeRemembered span remembered).uncarded = t.uncarded :=
  uncarded_modifyKind (fun kind => by cases kind <;> rfl) span

@[simp] theorem uncarded_linkRememberedSource (t : SpanTable) (span : SpanId) :
    (t.linkRememberedSource span).uncarded = t.uncarded := by
  have hlink : (t.modifyEntry span fun ent =>
      { ent with rememberedNext := t.rememberedHead, inRememberedSet := true }).uncarded =
        t.uncarded := by
    apply uncarded_modifyEntry
    intro ent
    rfl
  unfold linkRememberedSource
  split
  · rfl
  · exact hlink

@[simp] theorem uncarded_relinkRememberedSource (t : SpanTable) (span : SpanId) :
    (t.relinkRememberedSource span).uncarded = t.uncarded := by
  have hunlink : (t.modifyEntry span fun ent =>
      { ent with rememberedNext := none, inRememberedSet := false }).uncarded = t.uncarded := by
    apply uncarded_modifyEntry
    intro ent
    rfl
  unfold relinkRememberedSource
  simp only
  split
  · rw [uncarded_linkRememberedSource, hunlink]
  · exact hunlink

theorem uncarded_compactRememberedSources (h : t.compactRememberedSources = some t') :
    t'.uncarded = t.uncarded := by
  apply walk_induction (fun s => s.uncarded = t.uncarded) h rfl
  intro s span hs _
  rw [uncarded_relinkRememberedSource, hs]

section Congr

variable (h : t.uncarded = t'.uncarded)
include h

theorem bare_of_uncarded : t.bare = t'.bare := by
  rw [← bare_uncarded, h, bare_uncarded]

theorem kind_of_uncarded (span : SpanId) :
    (t.kind span).map SpanKind.uncarded = (t'.kind span).map SpanKind.uncarded := by
  rw [← kind_uncarded, h, kind_uncarded]

theorem getElem?_of_uncarded (span : SpanId) :
    (t.entries[span]?).map SpanEntry.uncarded = (t'.entries[span]?).map SpanEntry.uncarded := by
  rw [← getElem?_uncarded, h, getElem?_uncarded]

/-- What the cards do not show is the same. -/
theorem map_kind_of_uncarded {β : Type} (f : SpanKind → β)
    (hf : ∀ kind : SpanKind, f kind.uncarded = f kind) (span : SpanId) :
    (t.kind span).map f = (t'.kind span).map f := by
  have hcomp : f = f ∘ SpanKind.uncarded := funext fun kind => (hf kind).symm
  rw [hcomp, ← map_map, kind_of_uncarded h, map_map]

theorem map_entry_of_uncarded {β : Type} (f : SpanEntry → β)
    (hf : ∀ ent : SpanEntry, f ent.uncarded = f ent) (span : SpanId) :
    (t.entries[span]?).map f = (t'.entries[span]?).map f := by
  have hcomp : f = f ∘ SpanEntry.uncarded := funext fun ent => (hf ent).symm
  rw [hcomp, ← map_map, getElem?_of_uncarded h, map_map]

theorem payload_of_uncarded (ref : RawHeapRef) : t.payload ref = t'.payload ref := by
  unfold payload
  rw [map_kind_of_uncarded h _ fun kind => by cases kind <;> rfl]

theorem markBit_of_uncarded (ref : RawHeapRef) (epoch : CollectionEpoch) :
    t.markBit ref epoch = t'.markBit ref epoch := by
  have hmap := map_kind_of_uncarded h (fun kind => kind.markBit ref.spanOffset epoch)
    (fun kind => by cases kind <;> rfl) ref.spanId
  unfold markBit
  cases hk : t.kind ref.spanId <;> cases hk' : t'.kind ref.spanId <;> simp_all

theorem marked_of_uncarded (epoch : CollectionEpoch) : t.marked epoch = t'.marked epoch := by
  ext ref
  rw [mem_marked, mem_marked, markBit_of_uncarded h, valid_of_bare (bare_of_uncarded h)]

theorem marksWithin_of_uncarded {epoch : CollectionEpoch} :
    t.MarksWithin epoch ↔ t'.MarksWithin epoch := by
  have hmap : ∀ span, (t.kind span).bind SpanKind.markEpoch =
      (t'.kind span).bind SpanKind.markEpoch := by
    intro span
    have := map_kind_of_uncarded h SpanKind.markEpoch (fun kind => by cases kind <;> rfl) span
    cases hk : t.kind span <;> cases hk' : t'.kind span <;> simp_all
  rw [marksWithin_iff, marksWithin_iff]
  simp only [hmap]

/-- The metadata of a small span but for its cards. -/
theorem metadata_of_uncarded {β : Type} (f : SmallSpanMetadata → β)
    (hf : ∀ metadata : SmallSpanMetadata, f { metadata with cards := .new } = f metadata)
    (span : SpanId) : (t.metadata span).map f = (t'.metadata span).map f := by
  have hmap := map_kind_of_uncarded h
    (fun kind => kind.casesOn (motive := fun _ => Option β) (fun s => some (f s.metadata))
      (fun _ => none) fun _ _ => none)
    (fun kind => by
      cases kind with
      | small s => exact congrArg some (hf s.metadata)
      | largeOwner s => rfl
      | largeContinuation owner ordinal => rfl) span
  unfold metadata
  revert hmap
  rcases t.kind span with _ | ⟨s⟩ | s | ⟨owner, ordinal⟩ <;>
    rcases t'.kind span with _ | ⟨s'⟩ | s' | ⟨owner', ordinal'⟩ <;> simp

theorem youngSpace_of_uncarded (span : SpanId) : t.youngSpace span = t'.youngSpace span := by
  have hmap := metadata_of_uncarded h SmallSpanMetadata.space (fun _ => rfl) span
  unfold youngSpace
  cases hmeta : t.metadata span <;> cases hmeta' : t'.metadata span <;> simp_all

theorem youngLiveOccupancy_of_uncarded (span : SpanId) (epoch : CollectionEpoch) :
    t.youngLiveOccupancy span epoch = t'.youngLiveOccupancy span epoch := by
  have hmap := metadata_of_uncarded h
    (fun metadata => (metadata.space, metadata.marks, metadata.sizeClass)) (fun _ => rfl) span
  unfold youngLiveOccupancy
  cases hmeta : t.metadata span <;> cases hmeta' : t'.metadata span <;> simp_all

theorem young_of_uncarded : t.young = t'.young := by
  have hhead : t.uncarded.youngHead = t'.uncarded.youngHead := by rw [h]
  have hn : t.young.next = t'.young.next := by
    funext span
    have := map_entry_of_uncarded h (fun ent => ent.youngNext) (fun _ => rfl) span
    unfold young
    cases he : t.entries[span]? <;> cases he' : t'.entries[span]? <;> simp_all
  have hlk : t.young.linked = t'.young.linked := by
    funext span
    have := map_entry_of_uncarded h (fun ent => ent.inYoungSet) (fun _ => rfl) span
    unfold young
    cases he : t.entries[span]? <;> cases he' : t'.entries[span]? <;> simp_all
  unfold young at hn hlk ⊢
  simp only at hn hlk
  rw [hn, hlk]
  have : t.youngHead = t'.youngHead := hhead
  rw [this]

end Congr

/-! ## Young targets -/

/-- A target that a rebuilt source takes note of: a young one, or one that cannot be
verified. -/
def pointsYoung (t : SpanTable) (ref : RawHeapRef) : Bool :=
  match t.referenceSpace ref with
  | .error _ => true
  | .ok space => decide (space = .young)

/-- The object has a young target in some field. -/
def hasYoungTarget (t : SpanTable) (ref : RawHeapRef) : Bool :=
  (payloadRefs (t.payload ref)).any t.pointsYoung

theorem hasYoungTarget_congr (hbare : t.bare = t'.bare) (hpay : t.payload ref = t'.payload ref) :
    t.hasYoungTarget ref = t'.hasYoungTarget ref := by
  have hpoints : t.pointsYoung = t'.pointsYoung := by
    funext tgt
    unfold pointsYoung
    rw [referenceSpace_of_bare hbare]
  unfold hasYoungTarget
  rw [hpay, hpoints]

theorem modifyEntry_eq_self {f : SpanEntry → SpanEntry}
    (h : ∀ ent, t.entries[span]? = some ent → f ent = ent) : t.modifyEntry span f = t := by
  have hes : t.entries.modify span f = t.entries := by
    apply List.ext_getElem?
    intro i
    rw [List.getElem?_modify]
    by_cases hi : span = i
    · subst hi
      cases he : t.entries[span]? with
      | none => rfl
      | some ent => simp [h ent he]
    · simp [hi]
  unfold modifyEntry
  rw [hes]

/-- Writing a payload back changes nothing. -/
theorem setPayload_payload (t : SpanTable) (ref : RawHeapRef) :
    t.setPayload ref (t.payload ref) = t := by
  apply modifyEntry_eq_self
  intro ent he
  have hk : t.kind ref.spanId = ent.kind := by
    unfold kind
    rw [he]
    rfl
  have hcells : ∀ storage : SpanStorage,
      storage.setPayload ref.spanOffset (storage.cells ref.spanOffset).payload = storage := by
    intro storage
    unfold SpanStorage.setPayload
    rw [Function.update_eq_self]
  unfold payload
  rw [hk]
  obtain ⟨generation, kind, rememberedNext, inRemembered, youngNext, inYoung, inPool⟩ := ent
  cases kind with
  | none => rfl
  | some kind =>
    cases kind with
    | small s | largeOwner s =>
      simp [SpanKind.mapStorage, SpanKind.payload, SpanKind.storage, hcells]
    | largeContinuation owner ordinal => rfl

/-! ## Replacing what is remembered -/

@[simp] theorem remembered_modifyKind (t : SpanTable) (span : SpanId) (f : SpanKind → SpanKind) :
    (t.modifyKind span f).remembered = t.remembered := by
  have hes : ∀ i, (t.modifyKind span f).entries[i]? = (t.entries[i]?).map fun ent =>
        if span = i then { ent with kind := ent.kind.map f } else ent := by
    intro i
    unfold modifyKind
    rw [getElem?_modifyEntry]
    split <;> simp
  unfold remembered
  simp only [hes]
  congr 1
  · funext i
    cases t.entries[i]? with
    | none => rfl
    | some ent =>
      split <;> rfl
  · funext i
    cases t.entries[i]? with
    | none => rfl
    | some ent =>
      split <;> rfl

theorem remembers_replaceCards (t : SpanTable) (span : SpanId) (cards : CardBitmap)
    (ref : RawHeapRef) :
    (t.replaceCards span cards).remembers ref =
      match t.kind ref.spanId with
      | some (.small s) => decide (s.metadata.space = .old) &&
          (if span = ref.spanId then cards else s.metadata.cards).isDirty ref.spanOffset
      | _ => t.remembers ref := by
  unfold remembers replaceCards
  rw [kind_modifyKind]
  by_cases hspan : span = ref.spanId
  · rcases t.kind ref.spanId with _ | ⟨s⟩ | s | ⟨owner, ordinal⟩ <;>
      simp [hspan, SpanKind.mapSmall, SpanKind.remembers]
  · rcases t.kind ref.spanId with _ | ⟨s⟩ | s | ⟨owner, ordinal⟩ <;>
      simp [hspan, SpanKind.remembers]

theorem remembers_setLargeRemembered (t : SpanTable) (span : SpanId) (remembered : Bool)
    (ref : RawHeapRef) :
    (t.setLargeRemembered span remembered).remembers ref =
      match t.kind ref.spanId with
      | some (.largeOwner _) => if span = ref.spanId then remembered else t.remembers ref
      | _ => t.remembers ref := by
  unfold remembers setLargeRemembered
  rw [kind_modifyKind]
  by_cases hspan : span = ref.spanId
  · rcases t.kind ref.spanId with _ | ⟨s⟩ | s | ⟨owner, ordinal⟩ <;>
      simp [hspan, SpanKind.mapLarge, SpanKind.remembers]
  · rcases t.kind ref.spanId with _ | ⟨s⟩ | s | ⟨owner, ordinal⟩ <;>
      simp [hspan]

/-- The card of an object of a small span is dirty. -/
def cardDirty (t : SpanTable) (ref : RawHeapRef) : Bool :=
  (t.metadata ref.spanId).any fun metadata => metadata.cards.isDirty ref.spanOffset

theorem metadata_replaceCards (t : SpanTable) (span i : SpanId) (cards : CardBitmap) :
    (t.replaceCards span cards).metadata i =
      if span = i then (t.metadata i).map fun metadata => { metadata with cards := cards }
      else t.metadata i := by
  unfold metadata replaceCards
  rw [kind_modifyKind]
  by_cases hspan : span = i
  · simp only [hspan]
    rcases t.kind i with _ | ⟨s⟩ | s | ⟨owner, ordinal⟩ <;> rfl
  · simp only [hspan, if_false]

/-- Other cards, with which no source of a young target is forgotten. -/
structure Rebuilt (t t' : SpanTable) : Prop where
  uncarded : t'.uncarded = t.uncarded
  remembered : t'.remembered = t.remembered
  remembers : ∀ ref, t.Valid ref → t.remembers ref = true →
    t.hasYoungTarget ref = true → t'.remembers ref = true

theorem Rebuilt.refl (t : SpanTable) : Rebuilt t t := ⟨rfl, rfl, fun _ _ h _ => h⟩

theorem Rebuilt.trans {t'' : SpanTable} (h : Rebuilt t t') (h' : Rebuilt t' t'') :
    Rebuilt t t'' where
  uncarded := h'.uncarded.trans h.uncarded
  remembered := h'.remembered.trans h.remembered
  remembers := by
    intro ref hval hremembers hyoung
    have hbare := bare_of_uncarded h.uncarded
    apply h'.remembers ref ((valid_of_bare hbare).mpr hval) (h.remembers ref hval hremembers hyoung)
    rw [hasYoungTarget_congr hbare (payload_of_uncarded h.uncarded ref)]
    exact hyoung

end SpanTable

namespace Marker

variable {m m' m'' : Marker} {ref : RawHeapRef}

/-! ## Tracing a source again -/

/-- Notes whether the source in hand has a young target. -/
def note (m : Marker) (young : Bool) : Marker :=
  { m with sourceHasYoung := m.sourceHasYoung || young }

theorem note_note (m : Marker) (young young' : Bool) :
    (m.note young).note young' = m.note (young || young') := by
  unfold note
  simp [Bool.or_assoc]

theorem note_false (m : Marker) : m.note false = m := by
  unfold note
  simp

section

variable (h : m.rebuildingSource = true)

include h

theorem enqueue_rebuilding (ref : RawHeapRef) :
    enqueue .young m ref = m.note (m.table.pointsYoung ref) := by
  simp only [enqueue, enqueueYoung, pointsYoung]
  cases hspace : m.table.referenceSpace ref <;> simp [note, h]

theorem enqueueOption_rebuilding (tgt : Option RawHeapRef) :
    enqueueOption .young m tgt = m.note (tgt.any m.table.pointsYoung) := by
  cases tgt with
  | none => exact (note_false m).symm
  | some ref => exact enqueue_rebuilding h ref

/-- A rebuilt field is left as it is, and all its references are looked at. -/
theorem visit_rebuilding (hph : m.phase = .strong) (field : TraceField) :
    visit .young m field = (m.note (field.refs.any m.table.pointsYoung), field) := by
  have hstrong : m.followsStrong = true := by simp [followsStrong, hph]
  have hnote : ∀ young, (m.note young).rebuildingSource = true := fun _ => h
  cases field with
  | value v =>
    simp only [visit, traceValue, traceRawHeapRef, hstrong, TraceField.refs]
    cases v.asHeapRef with
    | none => simp [note_false]
    | some ref => simp [enqueue_rebuilding h]
  | rawHeapRef ref =>
    simp [visit, traceRawHeapRef, hstrong, TraceField.refs, enqueue_rebuilding h]
  | weak tgt =>
    simp only [visit, traceWeakRawHeapRef, h, enqueueOption_rebuilding h, TraceField.refs]
    cases tgt <;> simp
  | ephemeron key v =>
    simp only [visit, traceEphemeron, h, if_true, enqueueOption_rebuilding h,
      enqueueOption_rebuilding (hnote _), note_note, TraceField.refs]
    cases key <;> cases v.asHeapRef <;> simp [note]
  | finalization tgt heldValue =>
    simp only [visit, traceFinalization, h, enqueueOption_rebuilding h,
      enqueueOption_rebuilding (hnote _), note_note, TraceField.refs]
    cases tgt <;> cases heldValue.asHeapRef <;> simp [note]

omit h in
theorem traceAll_rebuilding (fields : List TraceField) (h : m.rebuildingSource = true)
    (hph : m.phase = .strong) : traceAll (visit .young) fields m =
      (m.note ((payloadRefs fields).any m.table.pointsYoung), fields) := by
  induction fields generalizing m with
  | nil => simp [traceAll, payloadRefs, note_false]
  | cons field fields ih =>
    simp only [traceAll, visit_rebuilding h hph]
    rw [ih (m := m.note _) h hph]
    simp [payloadRefs, note, Bool.or_assoc]

theorem tracePayload_rebuilding (hph : m.phase = .strong) (ref : RawHeapRef) :
    tracePayload .young m ref = m.note (m.table.hasYoungTarget ref) := by
  unfold tracePayload
  simp only [traceAll_rebuilding _ h hph]
  rw [show (m.note ((payloadRefs (m.table.payload ref)).any m.table.pointsYoung)).table =
    m.table from rfl, setPayload_payload]
  rfl

end

/-- Only flags and counters differ, and the table as said. -/
structure Rests (m m' : Marker) : Prop where
  epoch : m'.epoch = m.epoch
  error : m'.error = m.error
  phase : m'.phase = m.phase
  pending : m'.pendingFinalizations = m.pendingFinalizations

theorem Rests.refl (m : Marker) : Rests m m := ⟨rfl, rfl, rfl, rfl⟩

theorem Rests.trans (h : Rests m m') (h' : Rests m' m'') : Rests m m'' :=
  ⟨h'.epoch.trans h.epoch, h'.error.trans h.error, h'.phase.trans h.phase,
    h'.pending.trans h.pending⟩

section

variable (types : TypeRegistry)

include types

/-- Tracing a source again finds its young targets and changes nothing. -/
theorem traceSourceRebuilding_facts (herr : m.error = none) (hph : m.phase = .strong)
    (ref : RawHeapRef) : Rests m (traceSourceRebuilding types m ref).2 ∧
      (traceSourceRebuilding types m ref).2.table = m.table ∧ (m.table.hasYoungTarget ref = true →
        (traceSourceRebuilding types m ref).1 = true) := by
  unfold traceSourceRebuilding
  cases resolve m.table types ref with
  | error e => exact ⟨⟨rfl, herr.symm, rfl, rfl⟩, rfl, fun _ => rfl⟩
  | ok u =>
    rw [tracePayload_rebuilding
      (m := { m.resetFlags with rebuildingSource := true, sourceHasYoung := false }) rfl hph]
    exact ⟨⟨rfl, rfl, rfl, rfl⟩, rfl, fun h => (Bool.false_or _).trans h⟩

/-! ## Cards from sources -/

/-- A marker that collects cards: its table is that of the marker it began with. -/
structure Cards (m : Marker) (state : Marker × CardBitmap) : Prop where
  rests : Rests m state.1
  table : state.1.table = m.table

/-- One traced source: its card is dirty if the source has what is looked for. -/
structure Collects (needs : RawHeapRef → Prop) (m : Marker) (state state' : Marker × CardBitmap)
    (ref : RawHeapRef) : Prop where
  cards : Cards m state'
  dirty : needs ref → state'.2.isDirty ref.spanOffset = true
  keeps : ∀ offset, state.2.isDirty offset = true → state'.2.isDirty offset = true

theorem rebuildSource_collects {st : Marker × CardBitmap} (h : Cards m st)
    (herr : m.error = none) (hph : m.phase = .strong) (ref : RawHeapRef) :
    Collects (fun r => m.table.hasYoungTarget r = true) m st (rebuildSource types st ref) ref := by
  obtain ⟨hrests, ht, hyoung⟩ := traceSourceRebuilding_facts types
    (h.rests.error.trans herr) (h.rests.phase.trans hph) ref
  rw [h.table] at ht hyoung
  unfold rebuildSource
  refine ⟨⟨h.rests.trans hrests, ht⟩, ?_, ?_⟩
  · intro hneeds
    simp [hyoung hneeds, CardBitmap.isDirty_mark]
  · intro off hdirty
    simp only
    split
    · simp [CardBitmap.isDirty_mark, hdirty]
    · exact hdirty

theorem preparePromotionObject_collects {st : Marker × CardBitmap} (h : Cards m st)
    (herr : m.error = none) (hph : m.phase = .strong) (ref : RawHeapRef) :
    Collects (fun r => r ∈ m.marked ∧ m.table.hasYoungTarget r = true) m st
      (preparePromotionObject types st ref) ref := by
  unfold preparePromotionObject
  rw [h.table, h.rests.epoch]
  cases hmarked : m.table.isMarked ref m.epoch with
  | error e =>
    refine ⟨h, fun hneeds => ?_, fun _ hdirty => hdirty⟩
    exact absurd (hmarked.symm.trans hneeds.1) (by simp)
  | ok marked =>
    cases marked with
    | false =>
      refine ⟨h, fun hneeds => ?_, fun _ hdirty => hdirty⟩
      exact absurd (hmarked.symm.trans hneeds.1) (by simp)
    | true =>
      have hc : Cards m (st.1.countPromotionObject, st.2) :=
        ⟨⟨h.rests.epoch, h.rests.error, h.rests.phase, h.rests.pending⟩, h.table⟩
      have hsource := rebuildSource_collects types hc herr hph ref
      exact ⟨hsource.cards, fun hneeds => hsource.dirty hneeds.2, hsource.keeps⟩

omit types in
/-- The cards collected from some slots of a span. -/
theorem scan_collects (next : Marker × CardBitmap → Nat → Option RawHeapRef) {span : SpanId}
    {bits : Finset SlotIndex} {needs : RawHeapRef → Prop}
    {body : Marker × CardBitmap → RawHeapRef → Marker × CardBitmap}
    (hbits : bits ⊆ m.table.allocatedSlots span)
    (hn : ∀ st start, Cards m st →
      next st start = (nextSet bits start).map (m.table.slotReference span))
    (hbody : ∀ st ref, Cards m st → Collects needs m st (body st ref) ref) :
    let collected := scan next (fun st ref => st.1.table.nextSlot ref)
      (fun _ => false) body (maxSmallObjectSlots + 1) 0 (m, CardBitmap.new)
    Cards m collected ∧ ∀ slot ∈ bits, needs (m.table.slotReference span slot) →
      collected.2.isDirty (m.table.slotReference span slot).spanOffset = true := by
  have hst : Cards m (m, CardBitmap.new) := ⟨.refl m, rfl⟩
  have hscan : ∃ l : List SlotIndex, l.Pairwise (· < ·) ∧
      (∀ slot, slot ∈ l ↔ slot ∈ bits ∧ 0 ≤ slot.val) ∧
      scan next (fun st ref => st.1.table.nextSlot ref) (fun _ => false) body
        (maxSmallObjectSlots + 1) 0 (m, CardBitmap.new) =
        foldUntil (fun _ => false) body (l.map (m.table.slotReference span))
          (m, CardBitmap.new) := by
    refine scan_eq_foldUntil (Cards m) (fun _ => bits) (m.table.slotReference span) hn ?_ ?_
      (by omega) hst
    · intro st slot h hsl
      rw [(hbody st _ h).cards.table]
      exact nextSlot_slotReference (hbits hsl)
    · intro st slot h _
      exact ⟨(hbody st _ h).cards, fun _ _ => Iff.rfl⟩
  obtain ⟨l, -, hm, heq⟩ := hscan
  rw [heq]
  constructor
  · apply foldUntil_induction (Cards m) hst
    intro st ref _ _ h
    exact (hbody st ref h).cards
  · intro slot hsl
    apply foldUntil_forall (Cards m) (fun ref st => needs ref → st.2.isDirty ref.spanOffset = true)
    · rfl
    · exact hst
    · intro st ref _ _ _ h
      exact (hbody st ref h).cards
    · intro st ref _ _ _ h
      exact (hbody st ref h).dirty
    · intro st ref other _ _ _ h hdirty hneeds
      exact (hbody st other h).keeps _ (hdirty hneeds)
    · exact List.mem_map_of_mem ((hm slot).mpr ⟨hsl, Nat.zero_le _⟩)

/-! ## Remembered sources -/

/-- The cards of a span are rebuilt from the sources on its dirty cards. -/
theorem rebuildSmallSpan_facts (herr : m.error = none) (hph : m.phase = .strong)
    (span : SpanId) : Rests m (rebuildSmallSpan types m span) ∧
      SpanTable.Rebuilt m.table (rebuildSmallSpan types m span).table := by
  obtain ⟨hcards, hdirty⟩ := scan_collects
    (fun st start => st.1.table.nextDirtyOldReference span start)
    (m.table.dirtyOldSlots_subset span)
    (fun st start h => by rw [h.table, nextDirtyOldReference_eq])
    (fun st ref h => rebuildSource_collects types h herr hph ref)
  unfold rebuildSmallSpan
  revert hcards hdirty
  intro hcards hdirty
  refine ⟨⟨hcards.rests.epoch, hcards.rests.error, hcards.rests.phase, hcards.rests.pending⟩, ?_⟩
  simp only [replaceOldCards]
  rw [hcards.table]
  refine ⟨by simp, by simp [replaceCards], ?_⟩
  intro ref hval hremembers hyoung
  rw [remembers_replaceCards]
  obtain ⟨kind, hk, hlive⟩ := valid_iff.mp hval
  rw [hk]
  cases kind with
  | small s =>
    have hold := hremembers
    simp only [remembers, hk, any_some, SpanKind.remembers, Bool.and_eq_true] at hold
    by_cases hspan : span = ref.spanId
    · subst hspan
      obtain ⟨slot, hsl, heq⟩ := exists_dirtySlot hk hlive.1 hremembers
      have hcard := hdirty slot hsl (by rw [heq]; exact hyoung)
      rw [heq] at hcard
      simp only [Bool.and_eq_true]
      exact ⟨hold.1, hcard⟩
    · simp only [hspan, Bool.and_eq_true]
      exact hold
  | largeOwner s | largeContinuation owner ordinal => exact hremembers

/-- One remembered span. -/
theorem rebuildRememberedSpan_facts (herr : m.error = none) (hph : m.phase = .strong)
    (span : SpanId) : Rests m (rebuildRememberedSpan types m span) ∧
      SpanTable.Rebuilt m.table (rebuildRememberedSpan types m span).table := by
  unfold rebuildRememberedSpan
  split
  · exact rebuildSmallSpan_facts types herr hph span
  · cases hlarge : m.table.rememberedLargeReference span with
    | none => exact ⟨.refl m, .refl m.table⟩
    | some owner =>
      obtain ⟨hrests, ht, hyoung⟩ := traceSourceRebuilding_facts types herr hph owner
      refine ⟨⟨hrests.epoch, hrests.error, hrests.phase, hrests.pending⟩, ?_⟩
      simp only
      rw [ht]
      refine ⟨by simp, by simp [setLargeRemembered], ?_⟩
      intro ref hval hremembers hneeds
      rw [remembers_setLargeRemembered]
      obtain ⟨kind, hk, hlive⟩ := valid_iff.mp hval
      rw [hk]
      cases kind with
      | small s | largeContinuation owner ordinal => exact hremembers
      | largeOwner s =>
        by_cases hspan : span = ref.spanId
        · subst hspan
          have heq := (rememberedLargeReference_of_kind hk hlive.1 hremembers).2
          rw [hlarge, some.injEq] at heq
          subst heq
          simpa using hyoung hneeds
        · simpa [hspan] using hremembers

/-- The walk over the remembered sources, before the chain is compacted. -/
theorem rebuildRemembered_facts (herr : m.error = none) (hph : m.phase = .strong)
    (h : rebuildRemembered types m = some m') :
    Rests m m' ∧ ∃ t, SpanTable.Rebuilt m.table t ∧ t.compactRememberedSources = some m'.table := by
  unfold rebuildRemembered at h
  cases hwalk : walk (fun m span => m.table.rememberedNext span) (fun _ => false)
      (rebuildRememberedSpan types) (m.table.entries.length + 1) m.table.rememberedHead m with
  | none =>
    rw [hwalk] at h
    cases h
  | some rebuilt =>
    rw [hwalk] at h
    obtain ⟨tbl, hcompact, rfl⟩ := map_eq_some_iff.mp h
    have hrun : Rests m rebuilt ∧ SpanTable.Rebuilt m.table rebuilt.table := by
      apply walk_induction (fun s => Rests m s ∧ SpanTable.Rebuilt m.table s.table) hwalk
        ⟨.refl m, .refl m.table⟩
      rintro s span ⟨hrests, hrebuilt⟩ -
      obtain ⟨hrests', hrebuilt'⟩ := rebuildRememberedSpan_facts types
        (hrests.error.trans herr) (hrests.phase.trans hph) span
      exact ⟨hrests.trans hrests', hrebuilt.trans hrebuilt'⟩
    exact ⟨⟨hrun.1.epoch, hrun.1.error, hrun.1.phase, hrun.1.pending⟩, rebuilt.table, hrun.2,
      hcompact⟩

/-! ## Promotion candidates -/

omit types in
/-- A candidate is young. -/
theorem youngSpace_of_promotionCandidate {span : SpanId} (h : m.promotionCandidate span = true) :
    (m.table.youngSpace span).isSome := by
  unfold promotionCandidate youngSpace youngLiveOccupancy at h
  unfold youngSpace
  cases hmeta : m.table.metadata span with
  | none => simp [hmeta] at h
  | some metadata =>
    cases hyoung : metadata.space.isYoung
    · simp [hmeta, hyoung] at h
    · simp [hyoung]

/-- The cards of a span have every marked object with a young target. -/
def CardsReady (m : Marker) (t : SpanTable) (span : SpanId) : Prop :=
  ∀ ref ∈ m.marked, ref.spanId = span → (t.metadata span).isSome →
    m.table.hasYoungTarget ref = true → t.cardDirty ref = true

/-- Young spans with prepared cards: what the old spans remember stays. -/
structure Prepares (m m' : Marker) : Prop where
  rests : Rests m m'
  uncarded : m'.table.uncarded = m.table.uncarded
  remembered : m'.table.remembered = m.table.remembered
  old : ∀ span, (m.table.youngSpace span).isNone → m'.table.kind span = m.table.kind span

omit types in
theorem Prepares.refl (m : Marker) : Prepares m m := ⟨.refl m, rfl, rfl, fun _ _ => rfl⟩

omit types in
theorem Prepares.trans (h : Prepares m m') (h' : Prepares m' m'') : Prepares m m'' where
  rests := h.rests.trans h'.rests
  uncarded := h'.uncarded.trans h.uncarded
  remembered := h'.remembered.trans h.remembered
  old := by
    intro span hold
    rw [h'.old span, h.old span hold]
    rw [youngSpace_of_uncarded h.uncarded]
    exact hold

omit types in
theorem Prepares.promotionCandidate_eq (h : Prepares m m') (span : SpanId) :
    m'.promotionCandidate span = m.promotionCandidate span := by
  unfold promotionCandidate
  rw [youngSpace_of_uncarded h.uncarded, h.rests.epoch, youngLiveOccupancy_of_uncarded h.uncarded]

omit types in
theorem Prepares.marked_eq (h : Prepares m m') : m'.marked = m.marked := by
  unfold marked
  rw [h.rests.epoch]
  exact marked_of_uncarded h.uncarded m.epoch

/-- The cards of one candidate. -/
theorem preparePromotionSpan_facts (herr : m.error = none) (hph : m.phase = .strong)
    (span : SpanId) (hyoung : (m.table.youngSpace span).isSome) :
    Prepares m (preparePromotionSpan types m span) ∧
      CardsReady m (preparePromotionSpan types m span).table span ∧
      ∀ i ≠ span, (preparePromotionSpan types m span).table.metadata i = m.table.metadata i := by
  obtain ⟨hcards, hdirty⟩ := scan_collects
    (fun st start => st.1.table.nextAllocatedReference span start)
    (Finset.Subset.refl (m.table.allocatedSlots span))
    (fun st start h => by rw [h.table, nextAllocatedReference_eq])
    (fun st ref h => preparePromotionObject_collects types h herr hph ref)
  unfold preparePromotionSpan
  revert hcards hdirty
  intro hcards hdirty
  simp only [replacePromotionCards]
  rw [hcards.table]
  refine ⟨⟨⟨hcards.rests.epoch, hcards.rests.error, hcards.rests.phase, hcards.rests.pending⟩,
    by simp, by simp [replaceCards], ?_⟩, ?_, ?_⟩
  · intro i hold
    have hne : span ≠ i := by
      rintro rfl
      cases hspace : m.table.youngSpace span <;> simp_all
    simp [replaceCards, kind_modifyKind, hne]
  · rintro ref hmarked rfl - hneeds
    obtain ⟨kind, hk, hlive⟩ := valid_iff.mp (valid_of_marked hmarked)
    cases kind with
    | small s =>
      obtain ⟨slot, hsl, heq, -⟩ := exists_slot hk hlive.1
      have hcard := hdirty slot hsl (by rw [heq]; exact ⟨hmarked, hneeds⟩)
      rw [heq] at hcard
      simp only [cardDirty, metadata_replaceCards, if_true,
        metadata_of_kind hk, map_some, any_some]
      exact hcard
    | largeOwner s => simp [youngSpace, metadata, hk] at hyoung
    | largeContinuation owner ordinal => exact hlive.1.elim
  · intro i hne
    rw [metadata_replaceCards, if_neg hne.symm]

/-- One young span. -/
theorem prepareSpan_facts (herr : m.error = none) (hph : m.phase = .strong) (span : SpanId) :
    let m' := if m.promotionCandidate span then preparePromotionSpan types m span else m
    Prepares m m' ∧ (m.promotionCandidate span = true → CardsReady m m'.table span) ∧
      ∀ i ≠ span, m'.table.metadata i = m.table.metadata i := by
  cases hcand : m.promotionCandidate span with
  | false => exact ⟨.refl m, fun h => (by cases h), fun _ _ => rfl⟩
  | true =>
    obtain ⟨hprepares, hready, ho⟩ := preparePromotionSpan_facts types herr hph span
      (youngSpace_of_promotionCandidate hcand)
    exact ⟨hprepares, fun _ => hready, ho⟩

/-- Every candidate on the chain of young spans is prepared. -/
theorem preparePromotions_facts (herr : m.error = none) (hph : m.phase = .strong)
    (h : preparePromotions types m = some m') :
    Prepares m m' ∧ ∀ span, OnChain m.table.youngNext m.table.youngHead span →
      m.promotionCandidate span = true → CardsReady m m'.table span := by
  have hstep : ∀ s span, Prepares m s →
      Prepares s (if s.promotionCandidate span then preparePromotionSpan types s span else s) ∧
      (s.promotionCandidate span = true → CardsReady s
        (if s.promotionCandidate span then preparePromotionSpan types s span else s).table span) ∧
      ∀ i ≠ span, (if s.promotionCandidate span then preparePromotionSpan types s span
        else s).table.metadata i = s.table.metadata i := fun s span hs =>
    prepareSpan_facts types (hs.rests.error.trans herr) (hs.rests.phase.trans hph) span
  refine ⟨walk_induction (Prepares m) h (.refl m) fun s span hs _ => hs.trans (hstep s span hs).1,
    ?_⟩
  intro span hchained hcand
  have hn : ∀ {s}, Prepares m s → s.table.youngNext = m.table.youngNext := fun hs => by
    funext i
    unfold youngNext
    rw [young_of_uncarded hs.uncarded]
  obtain ⟨l, hchain, rfl⟩ := chain_of_walk (Prepares m) (fun s i hs => ⟨hs.trans (hstep s i hs).1,
      (hn (hs.trans (hstep s i hs).1)).trans (hn hs).symm⟩) (.refl m) h rfl
  -- A candidate is prepared at its turn, and the spans after it have cards of their own.
  have hready : ∀ s i, Prepares m s → m.promotionCandidate i = true → CardsReady m
      (if s.promotionCandidate i then preparePromotionSpan types s i else s).table i := by
    intro s i hs hi ref hmarked hspan hsome hneeds
    refine (hstep s i hs).2.1 ((hs.promotionCandidate_eq i).trans hi) ref ?_ hspan hsome ?_
    · rw [hs.marked_eq]
      exact hmarked
    · rw [hasYoungTarget_congr (bare_of_uncarded hs.uncarded) (payload_of_uncarded hs.uncarded ref)]
      exact hneeds
  refine foldUntil_forall (Prepares m)
    (fun i s => m.promotionCandidate i = true → CardsReady m s.table i) rfl (.refl m) ?_ ?_ ?_ span
    (hchained.mem hchain) hcand
  · intro s i _ _ _ hs
    exact hs.trans (hstep s i hs).1
  · intro s i _ _ _ hs
    exact hready s i hs
  · intro s i other _ _ _ hs hkept hi
    by_cases ho : other = i
    · subst ho
      exact hready s other hs hi
    · have hsm := (hstep s other hs).2.2 i (Ne.symm ho)
      intro ref hmarked hspan hsome hneeds
      rw [hsm] at hsome
      have hdirty := hkept hi ref hmarked hspan hsome hneeds
      unfold cardDirty at hdirty ⊢
      rw [hspan] at hdirty ⊢
      rw [hsm]
      exact hdirty

end

end Marker

/-- Whatever its outcome, the end of young marking changes only what is remembered. -/
theorem YoungOutcome.rests {types : TypeRegistry} {m m' : Marker}
    {res : Except MarkError (MarkStats × YoungMarkStats)}
    (h : YoungOutcome types m (res, m')) (hph : m.error = none → m.phase = .strong) :
    m'.table.uncarded = m.table.uncarded ∧ m'.epoch = m.epoch ∧
      m'.pendingFinalizations = m.pendingFinalizations ∧ (res.isOk = true → m.error = none) := by
  rcases h with ⟨e, herr, heq⟩ | ⟨herr, m₁, m₂, hrebuild, hprep, heq⟩
  · cases heq
    exact ⟨rfl, rfl, rfl, fun hok => by cases hok⟩
  · cases heq
    obtain ⟨hrests, t, hrebuilt, hcompact⟩ :=
      Marker.rebuildRemembered_facts types herr (hph herr) hrebuild
    obtain ⟨hprepares, -⟩ := Marker.preparePromotions_facts types (hrests.error.trans herr)
      (hrests.phase.trans (hph herr)) hprep
    refine ⟨?_, hprepares.rests.epoch.trans hrests.epoch,
      hprepares.rests.pending.trans hrests.pending, fun _ => herr⟩
    rw [hprepares.uncarded, uncarded_compactRememberedSources hcompact, hrebuilt.uncarded]

end TachyonEngine.Gc
