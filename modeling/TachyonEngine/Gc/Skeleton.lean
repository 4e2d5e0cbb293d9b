import TachyonEngine.Gc.Mark
import TachyonEngine.Lib.ArenaChain

/-!
# What marking and tracing leave alone

Marking changes mark bits, tracing rewrites payloads, and neither changes anything
else. The `skeleton` of a table is the table with both erased; its `bare` form lacks
the cards, the remembered bits and the chains as well. An operation is described by
its effect on one of them, on the marked objects and on the payloads. Which objects
there are, of which type and in which generation, is a function of the bare table
(`verifyReference_bare`, `referenceSpace_bare`, `resolve_bare`).

`marked` is the set of marked objects and `white` the number of unmarked ones,
which bounds the work of a marking.
-/

namespace TachyonEngine.Gc

open Lib.Traversal Lib.Capacity SpanKind

/-! ## Skeletons -/

/-- Storage without payloads. -/
def SpanStorage.skeleton (s : SpanStorage) : SpanStorage :=
  { s with cells := fun off => { s.cells off with payload := [] } }

/-- An entry's content without marks and payloads. -/
def SpanKind.skeleton : SpanKind → SpanKind
  | .small span =>
    .small
      { storage := span.storage.skeleton
        metadata := { span.metadata with marks := .new } }
  | .largeOwner span =>
    .largeOwner
      { storage := span.storage.skeleton
        metadata := { span.metadata with markEpoch := none } }
  | .largeContinuation owner ordinal => .largeContinuation owner ordinal

/-- An entry without marks and payloads. -/
def SpanEntry.skeleton (entry : SpanEntry) : SpanEntry :=
  { entry with kind := entry.kind.map SpanKind.skeleton }

/-- An entry's content without marks, payloads, cards and remembered bit. -/
def SpanKind.bare : SpanKind → SpanKind
  | .small span =>
    .small
      { storage := span.storage.skeleton
        metadata := { span.metadata with marks := .new, cards := .new } }
  | .largeOwner span =>
    .largeOwner
      { storage := span.storage.skeleton
        metadata := { span.metadata with markEpoch := none, remembered := false } }
  | .largeContinuation owner ordinal => .largeContinuation owner ordinal

/-- An entry with its bare content and without links. -/
def SpanEntry.bare (entry : SpanEntry) : SpanEntry :=
  { entry with
    kind := entry.kind.map SpanKind.bare
    rememberedNext := none
    inRememberedSet := false
    youngNext := none
    inYoungSet := false }

@[simp] theorem SpanKind.bare_skeleton (kind : SpanKind) : kind.skeleton.bare = kind.bare := by
  cases kind <;> rfl

@[simp] theorem SpanEntry.bare_skeleton (ent : SpanEntry) : ent.skeleton.bare = ent.bare := by
  unfold SpanEntry.bare SpanEntry.skeleton
  cases ent.kind <;> simp

@[simp] theorem SpanStorage.skeleton_setPayload (s : SpanStorage) (off : SpanOffset)
    (fields : List TraceField) : (s.setPayload off fields).skeleton = s.skeleton := by
  unfold SpanStorage.skeleton SpanStorage.setPayload
  congr 1
  funext off'
  rcases eq_or_ne off' off with rfl | hne
  · simp
  · simp [hne]

@[simp] theorem SpanKind.skeleton_mark (off : SpanOffset) (epoch : CollectionEpoch)
    (kind : SpanKind) : (kind.mark off epoch).skeleton = kind.skeleton := by
  cases kind with
  | small span =>
    simp only [mark]
    cases span.metadata.sizeClass.slotForOffset off <;> rfl
  | largeOwner span | largeContinuation owner ordinal => rfl

@[simp] theorem SpanKind.skeleton_setPayload (off : SpanOffset) (fields : List TraceField)
    (kind : SpanKind) :
    (kind.mapStorage fun storage => storage.setPayload off fields).skeleton = kind.skeleton := by
  cases kind <;> simp [mapStorage, SpanKind.skeleton]

namespace SpanTable

variable {t t' : SpanTable} {ref ref' : RawHeapRef} {epoch : CollectionEpoch}

/-- The table without marks and payloads. -/
def skeleton (t : SpanTable) : SpanTable :=
  { t with entries := t.entries.map SpanEntry.skeleton }

theorem getElem?_skeleton (t : SpanTable) (span : SpanId) :
    t.skeleton.entries[span]? = (t.entries[span]?).map SpanEntry.skeleton := by
  simp [skeleton]

theorem kind_skeleton (t : SpanTable) (span : SpanId) :
    t.skeleton.kind span = (t.kind span).map SpanKind.skeleton := by
  unfold kind
  rw [getElem?_skeleton]
  cases t.entries[span]? <;> rfl

/-- An entry change that the skeleton does not show. -/
theorem skeleton_modifyEntry {f : SpanEntry → SpanEntry}
    (hf : ∀ ent : SpanEntry, (f ent).skeleton = ent.skeleton) (span : SpanId) :
    (t.modifyEntry span f).skeleton = t.skeleton := by
  unfold skeleton
  simp only [modifyEntry, SpanTable.mk.injEq, and_true]
  exact Lib.map_modify_of_eq hf t.entries span

theorem skeleton_modifyKind {f : SpanKind → SpanKind}
    (hf : ∀ kind : SpanKind, (f kind).skeleton = kind.skeleton) (span : SpanId) :
    (t.modifyKind span f).skeleton = t.skeleton := by
  apply skeleton_modifyEntry
  intro ent
  unfold SpanEntry.skeleton
  cases ent.kind with
  | none => rfl
  | some kind => simp [hf]

@[simp] theorem skeleton_setPayload (t : SpanTable) (ref : RawHeapRef)
    (fields : List TraceField) : (t.setPayload ref fields).skeleton = t.skeleton :=
  skeleton_modifyKind (SpanKind.skeleton_setPayload _ _) _

/-! ## Observations of the bare table -/

/-- The table without marks, payloads, cards, remembered bits and chains. -/
def bare (t : SpanTable) : SpanTable :=
  { t with
    entries := t.entries.map SpanEntry.bare
    rememberedHead := none
    youngHead := none }

@[simp] theorem bare_skeleton (t : SpanTable) : t.skeleton.bare = t.bare := by
  unfold bare skeleton
  simp

theorem bare_congr (h : t.skeleton = t'.skeleton) : t.bare = t'.bare := by
  rw [← bare_skeleton, h, bare_skeleton]

theorem getElem?_bare (t : SpanTable) (span : SpanId) :
    t.bare.entries[span]? = (t.entries[span]?).map SpanEntry.bare := by
  simp [bare]

theorem kind_bare (t : SpanTable) (span : SpanId) :
    t.bare.kind span = (t.kind span).map SpanKind.bare := by
  unfold kind
  rw [getElem?_bare]
  cases t.entries[span]? <;> rfl

theorem verifyOwner_bare (t : SpanTable) (ref : RawHeapRef) :
    t.bare.verifyOwner ref = t.verifyOwner ref := by
  unfold verifyOwner
  rw [getElem?_bare]
  cases t.entries[ref.spanId]? with
  | none => rfl
  | some ent =>
    obtain ⟨generation, kind, rememberedNext, inRemembered, youngNext, inYoung, inPool⟩ := ent
    cases kind with
    | none => rfl
    | some kind => cases kind <;> rfl

theorem verifyReference_bare (t : SpanTable) (ref : RawHeapRef) (expected : Option GcTypeId) :
    t.bare.verifyReference ref expected = t.verifyReference ref expected := by
  unfold verifyReference
  rw [verifyOwner_bare]

theorem referenceSpace_bare (t : SpanTable) (ref : RawHeapRef) :
    t.bare.referenceSpace ref = t.referenceSpace ref := by
  unfold referenceSpace
  rw [verifyReference_bare, kind_bare]
  have h : ∀ kind : Option SpanKind, (kind.map SpanKind.bare).bind SpanKind.referenceSpace =
      kind.bind SpanKind.referenceSpace := by
    intro kind
    cases kind with
    | none => rfl
    | some kind => cases kind <;> rfl
  rw [h]

theorem verifyReference_of_bare (h : t.bare = t'.bare) (ref : RawHeapRef)
    (expected : Option GcTypeId) :
    t.verifyReference ref expected = t'.verifyReference ref expected := by
  rw [← verifyReference_bare, h, verifyReference_bare]

theorem referenceSpace_of_bare (h : t.bare = t'.bare) (ref : RawHeapRef) :
    t.referenceSpace ref = t'.referenceSpace ref := by
  rw [← referenceSpace_bare, h, referenceSpace_bare]

theorem referenceSpace_congr (h : t.skeleton = t'.skeleton) (ref : RawHeapRef) :
    t.referenceSpace ref = t'.referenceSpace ref :=
  referenceSpace_of_bare (bare_congr h) ref

/-! ## Live objects -/

end SpanTable

namespace SpanKind

variable {kind : SpanKind} {off off' : SpanOffset} {epoch : CollectionEpoch}

/-- The header stored at an offset. -/
def header (off : SpanOffset) (kind : SpanKind) : GcHeader :=
  match kind.storage with
  | none => .zero
  | some storage => (storage.cells off).header

/-- An object starts at the offset and is allocated. -/
def Holds (off : SpanOffset) : SpanKind → Prop
  | .small span => ∃ slot, span.metadata.sizeClass.slotForOffset off = some slot ∧
      slot ∈ span.metadata.allocations
  | .largeOwner span => off = firstOffset ∧ span.metadata.allocated = true
  | .largeContinuation _ _ => False

/-- An allocated object with an initialized header. -/
def Live (off : SpanOffset) (kind : SpanKind) : Prop :=
  kind.Holds off ∧ (kind.header off).typeId ≠ none

/-- Marking an object of a span marks it and nothing else. -/
theorem markBit_mark (h : kind.Holds off) (h' : kind.Holds off') :
    (kind.mark off epoch).markBit off' epoch =
      (decide (off' = off) || kind.markBit off' epoch) := by
  cases kind with
  | small span =>
    obtain ⟨slot, hsl, -⟩ := h
    obtain ⟨slot', hsl', -⟩ := h'
    have hiff : slot' = slot ↔ off' = off := by
      constructor
      · rintro rfl
        apply SpanOffset.ext_get
        rw [(SizeClass.slotForOffset_eq_some.mp hsl).2, (SizeClass.slotForOffset_eq_some.mp hsl').2]
      · rintro rfl
        exact SizeClass.slot_unique hsl' hsl
    simp only [mark, markBit, hsl, hsl', MarkBitmap.isMarked_mark, hiff]
  | largeOwner span =>
    have : off' = off := h'.1.trans h.1.symm
    simp [mark, markBit, LargeSpanMetadata.mark, LargeSpanMetadata.isMarked, this]
  | largeContinuation owner ordinal => exact h.elim

@[simp] theorem payload_mark (off off' : SpanOffset) (epoch : CollectionEpoch)
    (kind : SpanKind) : (kind.mark off epoch).payload off' = kind.payload off' := by
  cases kind with
  | small span =>
    simp only [mark]
    cases span.metadata.sizeClass.slotForOffset off <;> rfl
  | largeOwner span | largeContinuation owner ordinal => rfl

@[simp] theorem markBit_mapStorage (f : SpanStorage → SpanStorage) (kind : SpanKind) :
    (kind.mapStorage f).markBit off epoch = kind.markBit off epoch := by
  cases kind <;> rfl

theorem payload_setPayload (fields : List TraceField) (hsto : kind.storage ≠ none) :
    (kind.mapStorage fun storage => storage.setPayload off fields).payload off' =
      if off' = off then fields else kind.payload off' := by
  cases kind with
  | small span | largeOwner span =>
    by_cases h : off' = off <;>
      simp [mapStorage, payload, storage, SpanStorage.setPayload, h]
  | largeContinuation owner ordinal => exact absurd rfl hsto

theorem storage_of_holds (h : kind.Holds off) : kind.storage ≠ none := by
  cases kind with
  | small span | largeOwner span => simp [storage]
  | largeContinuation owner ordinal => exact h.elim

end SpanKind

namespace SpanTable

variable {t t' : SpanTable} {ref ref' : RawHeapRef} {epoch : CollectionEpoch}

theorem verifyOwner_eq_ok {header : GcHeader} : t.verifyOwner ref = .ok header ↔
    ∃ kind, t.kind ref.spanId = some kind ∧ kind.Holds ref.spanOffset ∧
      kind.header ref.spanOffset = header := by
  unfold verifyOwner kind
  cases t.entries[ref.spanId]? with
  | none => simp
  | some ent =>
    simp only [Option.bind_some]
    cases ent.kind with
    | none => simp
    | some kind =>
      cases kind with
      | small span =>
        simp only [verifySmallSpan, Option.some.injEq, exists_eq_left', SpanKind.Holds,
          SpanKind.header, SpanKind.storage]
        cases span.metadata.sizeClass.slotForOffset ref.spanOffset with
        | none => simp
        | some slot => by_cases hm : slot ∈ span.metadata.allocations <;> simp [hm]
      | largeOwner span =>
        have hoff : ref.spanOffset.get = minimumSlotSizeBytes ↔ ref.spanOffset = firstOffset :=
          ⟨fun h => SpanOffset.ext_get h, fun h => by rw [h]; rfl⟩
        simp only [Option.some.injEq, exists_eq_left', SpanKind.Holds, SpanKind.header,
          SpanKind.storage]
        by_cases h : ref.spanOffset = firstOffset
        · have hfirst : firstOffset.get = minimumSlotSizeBytes := rfl
          cases span.metadata.allocated <;> simp [h, hfirst]
        · simp [h, mt hoff.mp h]
      | largeContinuation owner ordinal => simp [SpanKind.Holds]

theorem verifyReference_eq_ok {header : GcHeader} : t.verifyReference ref none = .ok header ↔
      ∃ kind, t.kind ref.spanId = some kind ∧ kind.Live ref.spanOffset ∧
        kind.header ref.spanOffset = header := by
  unfold verifyReference
  cases howner : t.verifyOwner ref with
  | error e =>
    simp only [reduceCtorEq, false_iff, not_exists, not_and]
    intro kind hk hlive _
    have := verifyOwner_eq_ok.mpr ⟨kind, hk, hlive.1, rfl⟩
    rw [howner] at this
    cases this
  | ok header' =>
    obtain ⟨kind, hk, hholds, hheader⟩ := verifyOwner_eq_ok.mp howner
    simp only [hk, Option.some.injEq, exists_eq_left', SpanKind.Live, hholds, hheader]
    cases header'.typeId with
    | none | some typeId => simp

/-- A reference to a live object. -/
def Valid (t : SpanTable) (ref : RawHeapRef) : Prop :=
  ∃ header, t.verifyReference ref none = .ok header

theorem valid_iff : t.Valid ref ↔
    ∃ kind, t.kind ref.spanId = some kind ∧ kind.Live ref.spanOffset := by
  constructor
  · rintro ⟨header, h⟩
    obtain ⟨kind, hk, hlive, -⟩ := verifyReference_eq_ok.mp h
    exact ⟨kind, hk, hlive⟩
  · rintro ⟨kind, hk, hlive⟩
    exact ⟨_, verifyReference_eq_ok.mpr ⟨kind, hk, hlive, rfl⟩⟩

theorem valid_of_bare (h : t.bare = t'.bare) : t.Valid ref ↔ t'.Valid ref := by
  unfold Valid
  rw [verifyReference_of_bare h]

theorem valid_congr (h : t.skeleton = t'.skeleton) : t.Valid ref ↔ t'.Valid ref :=
  valid_of_bare (bare_congr h)

/-! ## Marks -/

/-- The objects marked in an epoch. -/
def marked (t : SpanTable) (epoch : CollectionEpoch) : Set RawHeapRef :=
  {ref | t.isMarked ref epoch = .ok true}

theorem mem_marked : ref ∈ t.marked epoch ↔ t.Valid ref ∧ t.markBit ref epoch = true := by
  unfold marked isMarked Valid
  simp only [Set.mem_ofPred_eq]
  cases t.verifyReference ref none with
  | error e | ok header => simp

theorem valid_of_marked (h : ref ∈ t.marked epoch) : t.Valid ref := (mem_marked.mp h).1

theorem isMarked_eq_false : t.isMarked ref epoch = .ok false ↔
    t.Valid ref ∧ ref ∉ t.marked epoch := by
  rw [mem_marked]
  unfold isMarked Valid
  cases t.verifyReference ref none with
  | error e | ok header => simp

/-- Marking one verified object marks it and nothing else. -/
theorem mem_marked_mark (hval : t.Valid ref) : ref' ∈ (t.modifyKind ref.spanId
        (mark ref.spanOffset epoch)).marked epoch ↔ ref' = ref ∨ ref' ∈ t.marked epoch := by
  have hskel : (t.modifyKind ref.spanId (mark ref.spanOffset epoch)).skeleton = t.skeleton :=
    skeleton_modifyKind (skeleton_mark _ _) _
  have hbit : t.Valid ref' →
      ((t.modifyKind ref.spanId (mark ref.spanOffset epoch)).markBit ref' epoch = true ↔
        ref' = ref ∨ t.markBit ref' epoch = true) := by
    intro hval'
    obtain ⟨kind, hk, hlive⟩ := valid_iff.mp hval
    obtain ⟨kind', hk', hlive'⟩ := valid_iff.mp hval'
    unfold markBit
    rw [kind_modifyKind]
    by_cases hspan : ref.spanId = ref'.spanId
    · rw [hspan, hk'] at hk
      cases hk
      rw [if_pos hspan, hk']
      have heq : ref' = ref ↔ ref'.spanOffset = ref.spanOffset := by
        cases ref
        cases ref'
        simp_all
      simp [markBit_mark hlive.1 hlive'.1, heq]
    · rw [if_neg hspan]
      have hne : ref' ≠ ref := by
        rintro rfl
        exact hspan rfl
      simp [hne]
  rw [mem_marked, mem_marked, valid_congr hskel]
  constructor
  · rintro ⟨hval', hmark⟩
    rcases (hbit hval').mp hmark with h | h
    · exact Or.inl h
    · exact Or.inr ⟨hval', h⟩
  · rintro (rfl | ⟨hval', hmark⟩)
    · exact ⟨hval, (hbit hval).mpr (Or.inl rfl)⟩
    · exact ⟨hval', (hbit hval').mpr (Or.inr hmark)⟩

@[simp] theorem payload_mark (t : SpanTable) (span : SpanId) (off : SpanOffset)
    (epoch : CollectionEpoch) (ref : RawHeapRef) :
    (t.modifyKind span (mark off epoch)).payload ref = t.payload ref := by
  unfold payload
  rw [kind_modifyKind]
  split
  · cases t.kind ref.spanId <;> simp
  · rfl

@[simp] theorem markBit_setPayload (t : SpanTable) (ref ref' : RawHeapRef)
    (fields : List TraceField) (epoch : CollectionEpoch) :
    (t.setPayload ref fields).markBit ref' epoch = t.markBit ref' epoch := by
  unfold markBit setPayload
  rw [kind_modifyKind]
  split
  · cases t.kind ref'.spanId <;> simp
  · rfl

@[simp] theorem marked_setPayload (t : SpanTable) (ref : RawHeapRef)
    (fields : List TraceField) (epoch : CollectionEpoch) :
    (t.setPayload ref fields).marked epoch = t.marked epoch := by
  ext ref'
  rw [mem_marked, mem_marked, markBit_setPayload, valid_congr (skeleton_setPayload ..)]

theorem payload_setPayload (hval : t.Valid ref) (fields : List TraceField) (ref' : RawHeapRef) :
    (t.setPayload ref fields).payload ref' = if ref' = ref then fields else t.payload ref' := by
  obtain ⟨kind, hk, hlive⟩ := valid_iff.mp hval
  unfold payload setPayload
  rw [kind_modifyKind]
  by_cases hspan : ref.spanId = ref'.spanId
  · rw [← hspan, hk]
    have heq : ref' = ref ↔ ref'.spanOffset = ref.spanOffset := by
      cases ref
      cases ref'
      simp_all
    simp [SpanKind.payload_setPayload fields (SpanKind.storage_of_holds hlive.1), heq]
  · rw [if_neg hspan, if_neg]
    rintro rfl
    exact hspan rfl

/-! ## White objects -/

/-- Objects are finitely many addresses of the table's spans. -/
theorem finite_valid (t : SpanTable) : {ref | t.Valid ref}.Finite ∧
    {ref | t.Valid ref}.ncard ≤ t.objectBound := by
  let addresses : Set (Nat × Nat) :=
    ((Finset.range t.entries.length ×ˢ Finset.range (2 ^ 16) : Finset (Nat × Nat)) : Set _)
  let address : RawHeapRef → Nat × Nat := fun r => (r.spanId, r.spanOffset.get)
  have hmaps : ∀ r ∈ {ref | t.Valid ref}, address r ∈ addresses := by
    intro r hr
    obtain ⟨kind, hk, -⟩ := valid_iff.mp hr
    have hlt : r.spanId < t.entries.length := by
      by_contra hge
      unfold SpanTable.kind at hk
      rw [List.getElem?_eq_none (Nat.le_of_not_lt hge)] at hk
      cases hk
    simp only [addresses, Finset.coe_product, Finset.coe_range]
    exact ⟨hlt, r.spanOffset.lt⟩
  have hinj : Set.InjOn address {ref | t.Valid ref} := by
    intro r _ r' _ h
    simp only [address, Prod.mk.injEq] at h
    cases r
    cases r'
    simp only [RawHeapRef.mk.injEq]
    exact ⟨h.1, SpanOffset.ext_get h.2⟩
  have hfin : addresses.Finite := Finset.finite_toSet _
  constructor
  · exact Set.Finite.of_injOn hmaps hinj hfin
  · have hcard := Set.ncard_le_ncard_of_injOn address hmaps hinj hfin
    have : addresses.ncard = t.objectBound := by
      rw [Set.ncard_coe_finset, Finset.card_product, Finset.card_range, Finset.card_range]
      rfl
    omega

/-- The number of unmarked objects. -/
noncomputable def white (t : SpanTable) (epoch : CollectionEpoch) : Nat :=
  ({ref | t.Valid ref} \ t.marked epoch).ncard

theorem white_le (t : SpanTable) (epoch : CollectionEpoch) : t.white epoch ≤ t.objectBound :=
  le_trans (Set.ncard_le_ncard Set.sdiff_subset t.finite_valid.1) t.finite_valid.2

end SpanTable

end TachyonEngine.Gc
