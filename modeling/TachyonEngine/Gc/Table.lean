import TachyonEngine.Gc.Span
import TachyonEngine.Lib.Capacity

/-!
# The span table

Stable logical indexing over spans: an entry is vacant, a small span, the owner of
a large object or one of its continuations, and it carries the links of the two
intrusive chains, the remembered sources and the young spans. The table verifies
references, marks objects, and resolves payloads; `SpanTable.remembered` and
`SpanTable.young` are its chains in the sense of `Lib.Traversal.Links`.

Most operations change one occupied entry; they are instances of `modifyKind`,
and `kind_modifyKind` says all that happens to the other entries.
-/

namespace TachyonEngine.Gc

open Lib.Traversal Lib.Capacity

/-! ## Errors -/

/-- A failure at the span-table allocation boundary. -/
inductive SpanTableError where
  | addressSpaceExhausted
  | tableAllocationFailed
  | freeRangeAllocationFailed
  | storageAllocationFailed
  | metadataAllocationFailed
  | unknownSpan (span : SpanId)
  | vacantSpan (span : SpanId)
  | liveSpan (span : SpanId)
  | largeOwnerSpan (span : SpanId)
  | largeContinuationSpan (span owner : SpanId)

/-- A failed exact-reference check. -/
inductive HeapReferenceError where
  | unknownSpan (span : SpanId)
  | vacantSpan (span : SpanId)
  | invalidSlotBoundary (reference : RawHeapRef)
  | unallocatedSlot (reference : RawHeapRef)
  | invalidTypeId (reference : RawHeapRef)
  | unregisteredTypeId (reference : RawHeapRef) (typeId : GcTypeId)
  | typeMismatch (expected actual : GcTypeId)
  | largeOwnerOffset (reference : RawHeapRef)
  | largeContinuationReference (reference : RawHeapRef) (owner : SpanId) (ordinal : Nat)
  | payloadAccess (reference : RawHeapRef)

/-! ## Entries -/

/-- A small span. -/
structure SmallSpan where
  storage : SpanStorage
  metadata : SmallSpanMetadata

/-- The owner of a large object. -/
structure LargeSpan where
  storage : SpanStorage
  metadata : LargeSpanMetadata

/-- What an occupied entry is. -/
inductive SpanKind where
  | small (span : SmallSpan)
  | largeOwner (span : LargeSpan)
  | largeContinuation (owner : SpanId) (ordinal : Nat)

/-- The generation of a verified object. -/
inductive ReferenceSpace where
  | young
  | oldSmall
  | oldLarge
  deriving DecidableEq

namespace SpanKind

/-- The store of what an entry holds. -/
def storage : SpanKind → Option SpanStorage
  | .small span => some span.storage
  | .largeOwner span => some span.storage
  | .largeContinuation _ _ => none

/-- Changes the store of what an entry holds. -/
def mapStorage (f : SpanStorage → SpanStorage) : SpanKind → SpanKind
  | .small span => .small { span with storage := f span.storage }
  | .largeOwner span => .largeOwner { span with storage := f span.storage }
  | .largeContinuation owner ordinal => .largeContinuation owner ordinal

/-- The traced fields at an offset. -/
def payload (offset : SpanOffset) (kind : SpanKind) : List TraceField :=
  match kind.storage with
  | none => []
  | some storage => (storage.cells offset).payload

/-- The mark of the object at an offset. -/
def markBit (offset : SpanOffset) (epoch : CollectionEpoch) : SpanKind → Bool
  | .small span =>
    match span.metadata.sizeClass.slotForOffset offset with
    | none => false
    | some slot => span.metadata.marks.isMarked slot epoch
  | .largeOwner span => span.metadata.isMarked epoch
  | .largeContinuation _ _ => false

/-- Sets the mark of what an entry holds. -/
def mark (offset : SpanOffset) (epoch : CollectionEpoch) : SpanKind → SpanKind
  | .small span =>
    match span.metadata.sizeClass.slotForOffset offset with
    | none => .small span
    | some slot =>
      .small { span with
        metadata := { span.metadata with marks := (span.metadata.marks.mark slot epoch).2 } }
  | .largeOwner span => .largeOwner { span with metadata := (span.metadata.mark epoch).2 }
  | .largeContinuation owner ordinal => .largeContinuation owner ordinal

/-- Drops all marks of what an entry holds. -/
def resetMarks : SpanKind → SpanKind
  | .small span => .small { span with metadata := { span.metadata with marks := .new } }
  | .largeOwner span =>
      .largeOwner { span with metadata := { span.metadata with markEpoch := none } }
  | .largeContinuation owner ordinal => .largeContinuation owner ordinal

/-- Changes the metadata of a small span. -/
def mapSmall (f : SmallSpanMetadata → SmallSpanMetadata) : SpanKind → SpanKind
  | .small span => .small { span with metadata := f span.metadata }
  | .largeOwner span => .largeOwner span
  | .largeContinuation owner ordinal => .largeContinuation owner ordinal

/-- Changes the metadata of a large owner. -/
def mapLarge (f : LargeSpanMetadata → LargeSpanMetadata) : SpanKind → SpanKind
  | .small span => .small span
  | .largeOwner span => .largeOwner { span with metadata := f span.metadata }
  | .largeContinuation owner ordinal => .largeContinuation owner ordinal

/-- The generation of what an entry holds. -/
def referenceSpace : SpanKind → Option ReferenceSpace
  | .small span => some (if span.metadata.space.isYoung then .young else .oldSmall)
  | .largeOwner _ => some .oldLarge
  | .largeContinuation _ _ => none

end SpanKind

/-- What became of a surviving young span. -/
inductive YoungSpanTransition where
  | edenToSurvivor
  | survivorAged
  | promoted

/-- The next cohort of a young span that is not promoted. -/
def SpanSpace.aged : SpanSpace → YoungSpanTransition × SpanSpace
  | .eden => (.edenToSurvivor, .survivor 1)
  | .survivor age => (.survivorAged, .survivor (min (age + 1) 255))
  | .old => (.promoted, .old)

namespace SmallSpan

/-- One step of the free-list rebuild: a dead slot is pushed on the list. -/
def pushFree (span : SmallSpan) (slot : SlotIndex) : SmallSpan :=
  if slot ∈ span.metadata.allocations then span
  else
    match span.metadata.sizeClass.offsetForSlot slot with
    | none => span
    | some offset =>
      { storage := span.storage.writeFreeNext offset span.metadata.freeListHead
        metadata := { span.metadata with freeListHead := some slot } }

/-- The slots below the bump cursor, in order. -/
def slotsBelow (cursor : Nat) : List SlotIndex := (List.range cursor).filterMap fun i =>
    if h : i < maxSmallObjectSlots then some ⟨i, h⟩ else none

/-- The free list of an old span, rebuilt from its allocation bits. -/
def rebuildFreeList (span : SmallSpan) : SmallSpan :=
  (slotsBelow span.metadata.bumpCursor).foldl pushFree
    { span with metadata := { span.metadata with freeListHead := none } }

end SmallSpan

/-- What a sweep has to do with an entry. -/
inductive SweepTarget where
  | small
  | largeOwner

/-- One entry with its reuse generation and its links. A released entry keeps its
links until the chain is compacted. -/
structure SpanEntry where
  generation : Nat
  kind : Option SpanKind
  rememberedNext : Option SpanId
  inRememberedSet : Bool
  youngNext : Option SpanId
  inYoungSet : Bool
  inEdenPool : Bool

/-- A new entry, in no chain. -/
def SpanEntry.new (kind : SpanKind) : SpanEntry :=
  { generation := 0
    kind := some kind
    rememberedNext := none
    inRememberedSet := false
    youngNext := none
    inYoungSet := false
    inEdenPool := false }

/-- A coalesced range of vacant entries, both ends included. -/
structure FreeSpanRange where
  start : Nat
  last : Nat

/-- The table. The capacities of its two vectors decide when it asks the allocator,
which also backs storage and metadata. -/
structure SpanTable where
  entries : List SpanEntry
  entriesCapacity : Nat
  freeRanges : List FreeSpanRange
  freeRangesCapacity : Nat
  liveSpans : Nat
  rememberedHead : Option SpanId
  youngHead : Option SpanId
  activeYoungSpans : Nat
  allocator : Allocator

namespace SpanTable

/-- The empty table. -/
def new (allocator : Allocator) : SpanTable :=
  { entries := []
    entriesCapacity := 0
    freeRanges := []
    freeRangesCapacity := 0
    liveSpans := 0
    rememberedHead := none
    youngHead := none
    activeYoungSpans := 0
    allocator := allocator }

/-- What an entry holds; nothing for a vacant or unknown one. -/
def kind (t : SpanTable) (span : SpanId) : Option SpanKind := (t.entries[span]?).bind (·.kind)

/-- Changes one entry. -/
def modifyEntry (t : SpanTable) (span : SpanId) (f : SpanEntry → SpanEntry) : SpanTable :=
  { t with entries := t.entries.modify span f }

/-- Changes what an occupied entry holds. -/
def modifyKind (t : SpanTable) (span : SpanId) (f : SpanKind → SpanKind) : SpanTable :=
  t.modifyEntry span fun entry => { entry with kind := entry.kind.map f }

/-- Number of entries ever used. -/
def historicalSpanCount (t : SpanTable) : Nat := t.entries.length

theorem getElem?_modifyEntry (t : SpanTable) (span i : SpanId) (f : SpanEntry → SpanEntry) :
    (t.modifyEntry span f).entries[i]? =
      if span = i then (t.entries[i]?).map f else t.entries[i]? := by
  unfold modifyEntry
  rw [List.getElem?_modify]
  split <;> simp

@[simp] theorem length_modifyEntry (t : SpanTable) (span : SpanId) (f : SpanEntry → SpanEntry) :
    (t.modifyEntry span f).entries.length = t.entries.length := by
  simp [modifyEntry]

theorem kind_modifyKind (t : SpanTable) (span i : SpanId) (f : SpanKind → SpanKind) :
    (t.modifyKind span f).kind i = if span = i then (t.kind i).map f else t.kind i := by
  unfold kind modifyKind
  rw [getElem?_modifyEntry]
  split
  · cases t.entries[i]? <;> rfl
  · rfl

/-- Metadata of a small span. -/
def metadata (t : SpanTable) (span : SpanId) : Option SmallSpanMetadata :=
  match t.kind span with
  | some (.small s) => some s.metadata
  | _ => none

/-- Metadata of a large owner. -/
def largeMetadata (t : SpanTable) (span : SpanId) : Option LargeSpanMetadata :=
  match t.kind span with
  | some (.largeOwner s) => some s.metadata
  | _ => none

/-- Whether an allocation can stay in this span. -/
def canAllocateInSpan (t : SpanTable) (span : SpanId) : Bool :=
  match t.kind span with
  | some (.small s) => s.metadata.hasAllocationCapacity
  | _ => false

/-! ## Chains -/

/-- The chain of remembered sources. -/
def remembered (t : SpanTable) : Links SpanId where
  head := t.rememberedHead
  next span := (t.entries[span]?).bind (·.rememberedNext)
  linked span := (t.entries[span]?).any (·.inRememberedSet)

/-- The chain of young spans. -/
def young (t : SpanTable) : Links SpanId where
  head := t.youngHead
  next span := (t.entries[span]?).bind (·.youngNext)
  linked span := (t.entries[span]?).any (·.inYoungSet)

def rememberedNext (t : SpanTable) (span : SpanId) : Option SpanId := t.remembered.next span

def isInRememberedSet (t : SpanTable) (span : SpanId) : Bool := t.remembered.linked span

def youngNext (t : SpanTable) (span : SpanId) : Option SpanId := t.young.next span

/-- Links an entry into the remembered sources at most once. -/
def linkRememberedSource (t : SpanTable) (span : SpanId) : SpanTable :=
  if t.isInRememberedSet span then t
  else
    { t.modifyEntry span fun entry =>
        { entry with rememberedNext := t.rememberedHead, inRememberedSet := true } with
      rememberedHead := some span }

/-- Links an entry into the young spans at most once. -/
def linkYoungSpan (t : SpanTable) (span : SpanId) : SpanTable :=
  if t.young.linked span then t
  else
    { t.modifyEntry span fun entry =>
        { entry with youngNext := t.youngHead, inYoungSet := true } with
      youngHead := some span }

/-! ## References -/

/-- The header of a small object, once its slot is known to be allocated. -/
def verifySmallSpan (span : SmallSpan) (reference : RawHeapRef) :
    Except HeapReferenceError GcHeader :=
  match span.metadata.sizeClass.slotForOffset reference.spanOffset with
  | none => .error (.invalidSlotBoundary reference)
  | some slot =>
    if slot ∈ span.metadata.allocations then
      .ok (span.storage.cells reference.spanOffset).header
    else .error (.unallocatedSlot reference)

/-- The header of a live object, before its type field is looked at. -/
def verifyOwner (t : SpanTable) (reference : RawHeapRef) : Except HeapReferenceError GcHeader :=
  match t.entries[reference.spanId]? with
  | none => .error (.unknownSpan reference.spanId)
  | some entry =>
    match entry.kind with
    | none => .error (.vacantSpan reference.spanId)
    | some (.small span) => verifySmallSpan span reference
    | some (.largeOwner span) =>
      if reference.spanOffset.get ≠ minimumSlotSizeBytes then
        .error (.largeOwnerOffset reference)
      else if !span.metadata.allocated then .error (.unallocatedSlot reference)
      else .ok (span.storage.cells reference.spanOffset).header
    | some (.largeContinuation owner ordinal) =>
      .error (.largeContinuationReference reference owner ordinal)

/-- Verifies a live small object or large owner, and its type when one is
expected. -/
def verifyReference (t : SpanTable) (reference : RawHeapRef) (expectedType : Option GcTypeId) :
    Except HeapReferenceError GcHeader :=
  match t.verifyOwner reference with
  | .error e => .error e
  | .ok header =>
    match header.typeId with
    | none => .error (.invalidTypeId reference)
    | some actual =>
      match expectedType with
      | none => .ok header
      | some expected =>
        if actual = expected then .ok header
        else .error (.typeMismatch expected actual)

/-- The mark bit behind a reference. -/
def markBit (t : SpanTable) (reference : RawHeapRef) (epoch : CollectionEpoch) : Bool :=
  (t.kind reference.spanId).any fun kind => kind.markBit reference.spanOffset epoch

/-- Mark state of a verified reference. -/
def isMarked (t : SpanTable) (reference : RawHeapRef) (epoch : CollectionEpoch) :
    Except HeapReferenceError Bool :=
  match t.verifyReference reference none with
  | .error e => .error e
  | .ok _ => .ok (t.markBit reference epoch)

/-- Turns a verified white object gray and tells whether it was white. -/
def markReference (t : SpanTable) (reference : RawHeapRef) (epoch : CollectionEpoch) :
    Except HeapReferenceError (Bool × SpanTable) :=
  match t.verifyReference reference none with
  | .error e => .error e
  | .ok _ =>
    .ok (!t.markBit reference epoch,
      t.modifyKind reference.spanId (SpanKind.mark reference.spanOffset epoch))

/-- Resolves the payload of a verified object of the descriptor's type; the fields
themselves are `payload`. -/
def payloadAddress (t : SpanTable) (reference : RawHeapRef) (descriptor : TypeDescriptor) :
    Except HeapReferenceError Unit :=
  match t.verifyReference reference (some descriptor.typeId) with
  | .error e => .error e
  | .ok _ =>
    match (t.kind reference.spanId).bind SpanKind.storage with
    | none => .error (.payloadAccess reference)
    | some storage =>
      match storage.checkedPayloadOffset reference.spanOffset descriptor.layout with
      | .error _ => .error (.payloadAccess reference)
      | .ok _ => .ok ()

/-- The traced fields stored behind a reference. -/
def payload (t : SpanTable) (reference : RawHeapRef) : List TraceField :=
  ((t.kind reference.spanId).map fun kind => kind.payload reference.spanOffset).getD []

/-- Stores traced fields behind a reference. -/
def setPayload (t : SpanTable) (reference : RawHeapRef) (fields : List TraceField) : SpanTable :=
  t.modifyKind reference.spanId
    (SpanKind.mapStorage fun storage => storage.setPayload reference.spanOffset fields)

/-- Removes the lifetime bit of a small object before its destructor runs; nothing
when it is not allocated. -/
def unpublishSmallForDrop (t : SpanTable) (reference : RawHeapRef) : Option SpanTable :=
  match t.kind reference.spanId with
  | some (.small span) =>
    match span.metadata.sizeClass.slotForOffset reference.spanOffset with
    | none => none
    | some slot =>
      match span.metadata.reclaimAllocation slot with
      | none => none
      | some metadata =>
        some (t.modifyKind reference.spanId fun _ => .small { span with metadata := metadata })
  | _ => none

/-- Reclaims a small object whose destructor has run, and tells whether there was one.
The slot of an old span goes to the front of its free list. -/
def reclaimSmallAfterDrop (t : SpanTable) (reference : RawHeapRef) : Bool × SpanTable :=
  match t.kind reference.spanId with
  | some (.small span) =>
    match span.metadata.sizeClass.slotForOffset reference.spanOffset with
    | none => (false, t)
    | some slot =>
      match span.metadata.reclaimAllocation slot with
      | none => (false, t)
      | some metadata =>
        (true, t.modifyKind reference.spanId fun _ =>
          if metadata.space = .old then
            .small
              { storage := span.storage.writeFreeNext reference.spanOffset metadata.freeListHead
                metadata := { metadata with freeListHead := some slot } }
          else .small { span with metadata := metadata })
  | _ => (false, t)

/-- Drops every mark of the table, on the epoch overflow path. -/
def resetMarks (t : SpanTable) : SpanTable :=
  { t with
    entries := t.entries.map fun entry =>
      { entry with kind := entry.kind.map SpanKind.resetMarks } }

/-- Advances the epoch, resetting the marks when the 32 bits are used up. -/
def advanceCollectionEpoch (t : SpanTable) (current : CollectionEpoch) :
    CollectionEpoch × SpanTable :=
  match current.next with
  | some next => (next, t)
  | none => (.initial, t.resetMarks)

/-! ## Collector views -/

/-- An upper bound for the number of objects: the logical addresses of the spans. -/
def objectBound (t : SpanTable) : Nat := t.entries.length * 2 ^ 16

/-- Owners of storage; vacant entries and continuations are none. -/
def sweepTarget (t : SpanTable) (span : SpanId) : Option SweepTarget :=
  match t.kind span with
  | some (.small _) => some .small
  | some (.largeOwner _) => some .largeOwner
  | _ => none

/-- The generation of a verified reference. -/
def referenceSpace (t : SpanTable) (reference : RawHeapRef) :
    Except HeapReferenceError ReferenceSpace :=
  match t.verifyReference reference none with
  | .error e => .error e
  | .ok _ =>
    match (t.kind reference.spanId).bind SpanKind.referenceSpace with
    | none => .error (.vacantSpan reference.spanId)
    | some space => .ok space

/-- The next allocated object of a small span. -/
def nextAllocatedReference (t : SpanTable) (span : SpanId) (start : Nat) : Option RawHeapRef :=
  match t.metadata span with
  | none => none
  | some metadata => (metadata.nextAllocated start).map fun found => ⟨span, found.2⟩

/-- The cohort of a young span. -/
def youngSpace (t : SpanTable) (span : SpanId) : Option SpanSpace :=
  match t.metadata span with
  | none => none
  | some metadata => if metadata.space.isYoung then some metadata.space else none

/-- Marked and total slots of a young span. -/
def youngLiveOccupancy (t : SpanTable) (span : SpanId) (epoch : CollectionEpoch) :
    Option (Nat × Nat) :=
  match t.metadata span with
  | none => none
  | some metadata =>
    if metadata.space.isYoung then
      some (metadata.marks.markedCount epoch, metadata.sizeClass.slotCount)
    else none

/-- Dirty cards of an old small span. -/
def dirtyOldCardCount (t : SpanTable) (span : SpanId) : Nat :=
  match t.metadata span with
  | none => 0
  | some metadata => if metadata.space = .old then metadata.cards.dirtyCount else 0

/-- The next allocated object of an old span whose card is dirty. -/
def nextDirtyOldReference (t : SpanTable) (span : SpanId) (start : Nat) : Option RawHeapRef :=
  match t.metadata span with
  | none => none
  | some metadata =>
    if metadata.space = .old then
      (metadata.nextDirty (maxSmallObjectSlots + 1) start).map fun found => ⟨span, found.2⟩
    else none

/-- The slot behind that of a small object. -/
def nextSlot (t : SpanTable) (reference : RawHeapRef) : Option Nat :=
  match t.metadata reference.spanId with
  | none => none
  | some metadata =>
    (metadata.sizeClass.slotForOffset reference.spanOffset).map fun slot => slot.val + 1

/-- The reference of a remembered large owner. -/
def rememberedLargeReference (t : SpanTable) (span : SpanId) : Option RawHeapRef :=
  match t.largeMetadata span with
  | none => none
  | some metadata => if metadata.remembered then some ⟨span, firstOffset⟩ else none

/-- Replaces the cards of a small span. -/
def replaceCards (t : SpanTable) (span : SpanId) (cards : CardBitmap) : SpanTable :=
  t.modifyKind span (SpanKind.mapSmall fun metadata => { metadata with cards := cards })

/-- The cards of an old span after all its sources were traced again. -/
def replaceOldCards : SpanTable → SpanId → CardBitmap → SpanTable := replaceCards

/-- The cards prepared for a promotion candidate. -/
def replacePromotionCards : SpanTable → SpanId → CardBitmap → SpanTable := replaceCards

/-- Replaces the remembered bit of a large owner. -/
def setLargeRemembered (t : SpanTable) (span : SpanId) (remembered : Bool) : SpanTable :=
  t.modifyKind span (SpanKind.mapLarge fun metadata => { metadata with remembered := remembered })

/-- The write barrier: an old source that stores a young target is remembered. -/
def rememberOldToYoung (t : SpanTable) (source target : RawHeapRef) :
    Except HeapReferenceError (Bool × SpanTable) :=
  match t.referenceSpace source with
  | .error e => .error e
  | .ok sourceSpace =>
    match t.referenceSpace target with
    | .error e => .error e
    | .ok targetSpace =>
      if targetSpace ≠ .young then .ok (false, t)
      else
        match sourceSpace, t.kind source.spanId with
        | .oldSmall, some (.small span) =>
          let marked := span.metadata.cards.mark source.spanOffset
          let t := t.replaceCards source.spanId marked.2
          .ok (marked.1, if marked.1 then t.linkRememberedSource source.spanId else t)
        | .oldLarge, some (.largeOwner span) =>
          let changed := !span.metadata.remembered
          let t := t.setLargeRemembered source.spanId true
          .ok (changed, if changed then t.linkRememberedSource source.spanId else t)
        | _, _ => .ok (false, t)

/-- Whether an entry has something to remember: an old span with a dirty card, or
a remembered large owner. -/
def retainsRememberedSource (t : SpanTable) (span : SpanId) : Bool :=
  match t.kind span with
  | some (.small s) => decide (s.metadata.space = .old) && decide (s.metadata.cards.dirtyCount ≠ 0)
  | some (.largeOwner s) => s.metadata.remembered
  | _ => false

/-- Takes an entry out of the remembered sources and links it again if it still
has something to remember. -/
def relinkRememberedSource (t : SpanTable) (span : SpanId) : SpanTable :=
  let t := t.modifyEntry span fun entry =>
    { entry with rememberedNext := none, inRememberedSet := false }
  if t.retainsRememberedSource span then t.linkRememberedSource span else t

/-- Drops clean and released entries from the remembered sources. `none` says that
the chain does not end. -/
def compactRememberedSources (t : SpanTable) : Option SpanTable :=
  walk rememberedNext (fun _ => false) relinkRememberedSource (t.entries.length + 1)
    t.rememberedHead { t with rememberedHead := none }

/-- Takes an entry out of the young spans and links it again if it is still young
and in use. -/
def relinkYoungSpan (t : SpanTable) (span : SpanId) : SpanTable :=
  let t := t.modifyEntry span fun entry => { entry with youngNext := none, inYoungSet := false }
  if (t.youngSpace span).isSome && !(t.entries[span]?).any (·.inEdenPool) then
    t.linkYoungSpan span
  else t

/-- Drops released, pooled and promoted entries from the young spans. -/
def compactYoungSpans (t : SpanTable) : Option SpanTable :=
  walk youngNext (fun _ => false) relinkYoungSpan (t.entries.length + 1)
    t.youngHead { t with youngHead := none }

/-- Changes the cohort of a small span. -/
def setSpace (t : SpanTable) (span : SpanId) (space : SpanSpace) : SpanTable :=
  t.modifyKind span (SpanKind.mapSmall fun metadata => { metadata with space := space })

/-- Ages a surviving young span or promotes it, activating its prepared cards. -/
def advanceYoungCohort (t : SpanTable) (span : SpanId) (promotionAge : Nat)
    (promoteEarly : Bool) : YoungSpanTransition × SpanTable :=
  match t.metadata span with
  | none => (.survivorAged, t)
  | some metadata =>
    if promoteEarly || promotionDueToAge metadata.space promotionAge then
      let t := t.setSpace span .old
      let t := if t.dirtyOldCardCount span ≠ 0 then t.linkRememberedSource span else t
      (.promoted, { t with activeYoungSpans := t.activeYoungSpans - 1 })
    else ((SpanSpace.aged metadata.space).1, t.setSpace span (SpanSpace.aged metadata.space).2)

/-- Resets an empty young span for the Eden pool. -/
def poolEmptyYoung (t : SpanTable) (span : SpanId) : SpanTable :=
  let t := t.modifyEntry span fun entry =>
    { entry with
      generation := (entry.generation + 1) % 2 ^ 32
      kind := entry.kind.map (SpanKind.mapSmall fun metadata =>
        .new metadata.sizeClass .eden ((entry.generation + 1) % 2 ^ 32))
      inEdenPool := true }
  { t with activeYoungSpans := t.activeYoungSpans - 1 }

/-- Takes a pooled span back into use. -/
def activatePooledEden (t : SpanTable) (span : SpanId) : SpanTable :=
  let t := t.modifyEntry span fun entry => { entry with inEdenPool := false }
  { t with activeYoungSpans := t.activeYoungSpans + 1 }.linkYoungSpan span

/-- Rebuilds the free list of an old span after a sweep. -/
def rebuildOldFreeList (t : SpanTable) (span : SpanId) : SpanTable :=
  match t.metadata span with
  | none => t
  | some metadata =>
    if metadata.space = .old then
      t.modifyKind span fun kind =>
        match kind with
        | .small s => .small s.rebuildFreeList
        | other => other
    else t

end SpanTable

end TachyonEngine.Gc
