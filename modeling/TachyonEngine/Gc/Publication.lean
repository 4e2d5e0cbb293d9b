import TachyonEngine.Gc.Table

/-!
# Publication, reuse and release of spans

A span enters the table at a vacant index, taken from the coalesced ranges of free
indices, or at its end; a large object takes a whole range, an owner and its
continuations. Release empties an entry, counts its reuse generation and gives the
index back. A released entry keeps its links, so an index can be reused while it is
still in a chain.

An assertion of the source that fails ends the program, and so does an endless chain:
functions that may run into either return `none` there.
-/

namespace TachyonEngine.Gc

open Lib.Traversal Lib.Capacity

/-! ## Errors -/

/-- A failure at the boundary of one small object. -/
inductive SmallAllocationError where
  | unknownSpan (span : SpanId)
  | vacantSpan (span : SpanId)
  | survivorIsNotAllocatable (span : SpanId)
  | spanFull (span : SpanId)
  | invalidInlineLayout (error : SmallObjectLayoutError)
  | sizeClassTooSmall (required actual : Nat)

/-- A range or storage failure before a large owner becomes visible. -/
inductive LargeAllocationError where
  | addressSpaceExhausted
  | tableAllocationFailed
  | storageAllocationFailed
  | payloadAlignmentTooLarge (alignment : Nat)

/-- Accounting of a released large range. -/
structure LargeReclaim where
  spanCount : Nat
  storageBytes : Nat
  objectBytes : Nat

/-! ## Capacity of the vectors of the table -/

def initialSpanTableCapacity : Nat := 8

def initialFreeRangeCapacity : Nat := 4

def maxFreeSpanRanges : Nat := (maxLogicalSpans + 1) / 2

/-- A bounded growth step that is large enough for some more values: the new capacity,
unless the limit or the allocator refuses it. -/
def reserveForAdditional (length capacity additional initialCapacity maximumCapacity : Nat)
    (allocator : Allocator) : Option Nat × Allocator :=
  if length + additional ≤ capacity then (some capacity, allocator)
  else
    let target := min
      (max (if capacity = 0 then initialCapacity else (capacity * 3 + 1) / 2) (length + additional))
      maximumCapacity
    if target < length + additional then (none, allocator)
    else
      match allocator.request with
      | (true, allocator) => (some target, allocator)
      | (false, allocator) => (none, allocator)

/-! ## Free ranges -/

/-- Takes the top of the last range that is long enough. -/
def takeFreeSpanRange (count : Nat) : List FreeSpanRange → Option (SpanId × List FreeSpanRange)
  | [] => none
  | range :: rest =>
    match takeFreeSpanRange count rest with
    | some (owner, rest) => some (owner, range :: rest)
    | none =>
      if count ≤ range.last + 1 - range.start then
        let owner := range.last + 1 - count
        if owner = range.start then some (owner, rest)
        else some (owner, { range with last := owner - 1 } :: rest)
      else none

/-- Whether a released index extends a range that exists. -/
def adjacentFreeRange (ranges : List FreeSpanRange) (index : Nat) : Bool :=
  ranges.any fun range => decide (range.start ≤ index + 1) && decide (index ≤ range.last + 1)

/-- Adds one vacant index and joins it with the ranges on both sides. -/
def insertFreeSpan (ranges : List FreeSpanRange) (index : Nat) : List FreeSpanRange :=
  let before := ranges.takeWhile fun range => range.start < index
  let behind := ranges.dropWhile fun range => range.start < index
  match before.getLast?, behind with
  | some left, right :: behind' =>
    if left.last + 1 = index then
      if index + 1 = right.start then
        before.dropLast ++ { left with last := right.last } :: behind'
      else before.dropLast ++ { left with last := index } :: behind
    else if index + 1 = right.start then before ++ { right with start := index } :: behind'
    else before ++ { start := index, last := index } :: behind
  | some left, [] =>
    if left.last + 1 = index then before.dropLast ++ [{ left with last := index }]
    else before ++ [{ start := index, last := index }]
  | none, right :: behind' =>
    if index + 1 = right.start then { right with start := index } :: behind'
    else { start := index, last := index } :: behind
  | none, [] => [{ start := index, last := index }]

namespace SpanTable

/-- Room for some more entries. -/
def reserveEntries (t : SpanTable) (additional : Nat) : Bool × SpanTable :=
  match reserveForAdditional t.entries.length t.entriesCapacity additional initialSpanTableCapacity
      maxLogicalSpans t.allocator with
  | (some capacity, allocator) =>
    (true, { t with entriesCapacity := capacity, allocator := allocator })
  | (none, allocator) => (false, { t with allocator := allocator })

/-- Room for one more free range, unless the index extends one. -/
def reserveFreeRangeIfNeeded (t : SpanTable) (index : Nat) :
    Except SpanTableError Unit × SpanTable :=
  if adjacentFreeRange t.freeRanges index then (.ok (), t)
  else
    match reserveForAdditional t.freeRanges.length t.freeRangesCapacity 1 initialFreeRangeCapacity
        maxFreeSpanRanges t.allocator with
    | (some capacity, allocator) =>
      (.ok (), { t with freeRangesCapacity := capacity, allocator := allocator })
    | (none, allocator) => (.error .freeRangeAllocationFailed, { t with allocator := allocator })

/-- Makes sure that a later release cannot fail. -/
def prepareRelease (t : SpanTable) (span : SpanId) : Except SpanTableError Unit × SpanTable :=
  t.reserveFreeRangeIfNeeded span

/-! ## Small spans -/

/-- Installs a small span at a vacant index. -/
def installReused (t : SpanTable) (span : SpanId) (sizeClass : SizeClass) (space : SpanSpace) :
    SpanTable :=
  { t.modifyEntry span fun entry =>
      { entry with
        kind := some (.small { storage := .new 1, metadata := .new sizeClass space entry.generation })
        inEdenPool := false } with
    liveSpans := t.liveSpans + 1 }

/-- Appends a small span. -/
def installNew (t : SpanTable) (sizeClass : SizeClass) (space : SpanSpace) :
    Except SpanTableError SpanId × SpanTable :=
  if t.entries.length = maxLogicalSpans then (.error .addressSpaceExhausted, t)
  else
    match t.reserveEntries 1 with
    | (false, t) => (.error .tableAllocationFailed, t)
    | (true, t) =>
      (.ok t.entries.length,
        { t with
          entries := t.entries ++
            [.new (.small { storage := .new 1, metadata := .new sizeClass space 0 })]
          liveSpans := t.liveSpans + 1 })

/-- Links a new young span. -/
def publishSmall (t : SpanTable) (span : SpanId) (space : SpanSpace) : SpanTable :=
  if space = .old then t
  else
    let t := t.linkYoungSpan span
    { t with activeYoungSpans := t.activeYoungSpans + 1 }

/-- Allocates a span for small objects at a reused or a new index. -/
def tryAllocateSmall (t : SpanTable) (sizeClass : SizeClass) (space : SpanSpace) :
    Except SpanTableError SpanId × SpanTable :=
  match t.allocator.request with
  | (false, allocator) => (.error .storageAllocationFailed, { t with allocator := allocator })
  | (true, allocator) =>
    match allocator.request with
    | (false, allocator) => (.error .metadataAllocationFailed, { t with allocator := allocator })
    | (true, allocator) =>
      let t := { t with allocator := allocator }
      match takeFreeSpanRange 1 t.freeRanges with
      | some (span, ranges) =>
        (.ok span, ({ t with freeRanges := ranges }.installReused span sizeClass space).publishSmall
            span space)
      | none =>
        match t.installNew sizeClass space with
        | (.error e, t) => (.error e, t)
        | (.ok span, t) => (.ok span, t.publishSmall span space)

/-- Whether an entry counts as an active young span. -/
def wasActiveYoung (t : SpanTable) (span : SpanId) : Bool :=
  (t.youngSpace span).isSome && !(t.entries[span]?).any (·.inEdenPool)

/-- Empties an entry and gives its index back. -/
def vacate (t : SpanTable) (span : SpanId) : SpanTable :=
  { t.modifyEntry span fun entry =>
      { entry with kind := none, generation := (entry.generation + 1) % 2 ^ 32 } with
    freeRanges := insertFreeSpan t.freeRanges span }

/-- Releases an empty small span. -/
def release (t : SpanTable) (span : SpanId) : Except SpanTableError Unit × SpanTable :=
  match t.entries[span]? with
  | none => (.error (.unknownSpan span), t)
  | some entry =>
    match entry.kind with
    | none => (.error (.vacantSpan span), t)
    | some (.largeOwner _) => (.error (.largeOwnerSpan span), t)
    | some (.largeContinuation owner _) => (.error (.largeContinuationSpan span owner), t)
    | some (.small s) =>
      if s.metadata.allocatedSlots ≠ 0 then (.error (.liveSpan span), t)
      else
        match t.reserveFreeRangeIfNeeded span with
        | (.error e, t) => (.error e, t)
        | (.ok (), t) =>
          let wasYoung := t.wasActiveYoung span
          let t := (t.vacate span).modifyEntry span fun entry =>
            { entry with inEdenPool := false }
          (.ok (),
            { t with
              liveSpans := t.liveSpans - 1
              activeYoungSpans := t.activeYoungSpans - if wasYoung then 1 else 0 })

/-! ## Small objects -/

/-- Selects a slot that the cohort may use. -/
def takeAllocationSlot (s : SmallSpan) (span : SpanId) :
    Option (Except SmallAllocationError (SlotIndex × SmallSpan)) :=
  let bump : Except SmallAllocationError (SlotIndex × SmallSpan) :=
    match s.metadata.takeBumpSlot with
    | none => .error (.spanFull span)
    | some (slot, metadata) => .ok (slot, { s with metadata := metadata })
  match s.metadata.space with
  | .survivor _ => some (.error (.survivorIsNotAllocatable span))
  | .eden => some bump
  | .old =>
    match s.metadata.freeListHead with
    | none => some bump
    | some slot =>
      match s.metadata.sizeClass.offsetForSlot slot with
      | none => none
      | some offset =>
        some (.ok (slot,
          { s with
            metadata := { s.metadata with freeListHead := s.storage.readFreeNext offset } }))

/-- Writes an object into a selected slot and publishes it. A new old object is born
remembered: its card is marked. The flag says whether the span is to be linked. -/
def publishObject (s : SmallSpan) (slot : SlotIndex) (layout : Layout) (header : GcHeader)
    (payload : List TraceField) : Option (SpanOffset × Bool × SmallSpan) :=
  match s.metadata.sizeClass.offsetForSlot slot with
  | none => none
  | some offset =>
    match s.storage.initializeObject offset layout header payload with
    | .error _ => none
    | .ok storage =>
      match s.metadata.commitAllocation slot with
      | none => none
      | some metadata =>
        if metadata.space = .old then
          let marked := metadata.cards.mark offset
          some (offset, marked.1,
            { storage := storage, metadata := { metadata with cards := marked.2 } })
        else some (offset, false, { storage := storage, metadata := metadata })

/-- Initializes one object in a selected span. -/
def tryAllocateInSpan (t : SpanTable) (span : SpanId) (layout : Layout) (header : GcHeader)
    (payload : List TraceField) : Option (Except SmallAllocationError RawHeapRef × SpanTable) :=
  match SmallObjectLayout.forType layout with
  | .error e => some (.error (.invalidInlineLayout e), t)
  | .ok small =>
    match t.entries[span]? with
    | none => some (.error (.unknownSpan span), t)
    | some entry =>
      match entry.kind with
      | none => some (.error (.vacantSpan span), t)
      | some (.largeOwner _) => some (.error (.spanFull span), t)
      | some (.largeContinuation _ _) => some (.error (.spanFull span), t)
      | some (.small s) =>
        if s.metadata.sizeClass.slotSize < small.slotSize then
          some (.error (.sizeClassTooSmall small.slotSize s.metadata.sizeClass.slotSize), t)
        else
          match takeAllocationSlot s span with
          | none => none
          | some (.error e) => some (.error e, t)
          | some (.ok (slot, s)) =>
            match publishObject s slot layout header payload with
            | none => none
            | some (offset, remember, s) =>
              let t := t.modifyKind span fun _ => .small s
              some (.ok ⟨span, offset⟩,
                if remember then t.linkRememberedSource span else t)

/-! ## Large objects -/

/-- Empties the entries of a large range from the owner on. -/
def vacateRange (t : SpanTable) (owner count : Nat) : SpanTable :=
  (List.range count).foldl (fun t ordinal => t.vacate (owner + ordinal)) t

/-- Unpublishes a large object before its destructor runs. -/
def unpublishLargeForDrop (t : SpanTable) (reference : RawHeapRef) :
    Except SpanTableError SpanTable :=
  match t.kind reference.spanId with
  | some (.largeOwner s) =>
    if s.metadata.allocated then
      .ok (t.modifyKind reference.spanId (SpanKind.mapLarge LargeSpanMetadata.reclaim))
    else .error (.vacantSpan reference.spanId)
  | _ => .error (.vacantSpan reference.spanId)

/-- Releases the range of an unpublished large object. -/
def releaseUnpublishedLarge (t : SpanTable) (reference : RawHeapRef) :
    Except SpanTableError LargeReclaim × SpanTable :=
  match t.kind reference.spanId with
  | some (.largeContinuation owner _) =>
    (.error (.largeContinuationSpan reference.spanId owner), t)
  | some (.largeOwner s) =>
    if s.metadata.allocated then (.error (.vacantSpan reference.spanId), t)
    else
      match t.reserveFreeRangeIfNeeded reference.spanId with
      | (.error e, t) => (.error e, t)
      | (.ok (), t) =>
        let t := t.vacateRange reference.spanId s.metadata.spanCount
        (.ok
          { spanCount := s.metadata.spanCount
            storageBytes := s.metadata.spanCount * spanSizeBytes
            objectBytes := s.metadata.objectBytes },
          { t with liveSpans := t.liveSpans - s.metadata.spanCount })
  | _ => (.error (.vacantSpan reference.spanId), t)

/-- Reclaims a large object whose destructor has run, and releases its range. -/
def reclaimLargeAfterDrop (t : SpanTable) (reference : RawHeapRef) :
    Except SpanTableError LargeReclaim × SpanTable :=
  if reference.spanOffset.get ≠ minimumSlotSizeBytes then
    (.error (.largeOwnerSpan reference.spanId), t)
  else
    match t.kind reference.spanId with
    | some (.largeContinuation owner _) =>
      (.error (.largeContinuationSpan reference.spanId owner), t)
    | some (.small _) => (.error (.largeOwnerSpan reference.spanId), t)
    | none => (.error (.vacantSpan reference.spanId), t)
    | some (.largeOwner s) =>
      if !s.metadata.allocated then (.error (.vacantSpan reference.spanId), t)
      else
        match t.reserveFreeRangeIfNeeded reference.spanId with
        | (.error e, t) => (.error e, t)
        | (.ok (), t) =>
          match t.unpublishLargeForDrop reference with
          | .error e => (.error e, t)
          | .ok t => t.releaseUnpublishedLarge reference

/-- Where a large range goes. -/
inductive SpanRangePlacement where
  | reused (owner : SpanId)
  | append (owner : SpanId)

def SpanRangePlacement.owner : SpanRangePlacement → SpanId
  | .reused owner => owner
  | .append owner => owner

/-- Reserves a free range, or room at the end of the table. -/
def reserveSpanRange (t : SpanTable) (spanCount : Nat) :
    Except LargeAllocationError SpanRangePlacement × SpanTable :=
  match takeFreeSpanRange spanCount t.freeRanges with
  | some (owner, ranges) => (.ok (.reused owner), { t with freeRanges := ranges })
  | none =>
    if maxLogicalSpans < t.entries.length + spanCount then (.error .addressSpaceExhausted, t)
    else
      match t.reserveEntries spanCount with
      | (false, t) => (.error .tableAllocationFailed, t)
      | (true, t) => (.ok (.append t.entries.length), t)

/-- What the entry of a large range holds: the owner first, then its continuations. -/
def largeKind (owner : SpanId) (storage : SpanStorage) (objectBytes spanCount generation : Nat)
    (ordinal : Nat) : SpanKind :=
  if ordinal = 0 then
    .largeOwner { storage := storage, metadata := .new spanCount objectBytes generation }
  else .largeContinuation owner ordinal

/-- Installs an owner and its continuations. -/
def installLargeRange (t : SpanTable) (placement : SpanRangePlacement) (storage : SpanStorage)
    (objectBytes spanCount : Nat) : SpanTable :=
  match placement with
  | .reused owner =>
    (List.range spanCount).foldl
      (fun (t : SpanTable) ordinal => t.modifyEntry (owner + ordinal) fun entry =>
        { entry with
          kind := some (largeKind owner storage objectBytes spanCount entry.generation ordinal) })
      t
  | .append owner =>
    { t with
      entries := t.entries ++ (List.range spanCount).map fun ordinal =>
        SpanEntry.new (largeKind owner storage objectBytes spanCount 0 ordinal) }

/-- Publishes a large object; its owner is born remembered. -/
def installLarge (t : SpanTable) (placement : SpanRangePlacement) (storage : SpanStorage)
    (objectBytes spanCount : Nat) : SpanTable :=
  let t := (t.installLargeRange placement storage objectBytes spanCount).linkRememberedSource
    placement.owner
  { t with liveSpans := t.liveSpans + spanCount }

/-- Spans that an object of this size takes, behind the reserved first slot. -/
def largeSpanCount (layout : ObjectLayout) : Nat :=
  (minimumSlotSizeBytes + layout.allocationSize + spanSizeBytes - 1) / spanSizeBytes

/-- Allocates one large object with its own backing store. -/
def tryAllocateLarge (t : SpanTable) (layout : Layout) (header : GcHeader)
    (payload : List TraceField) :
    Option (Except LargeAllocationError (RawHeapRef × Nat) × SpanTable) :=
  match ObjectLayout.forPayloadLayout layout with
  | .error _ => some (.error .addressSpaceExhausted, t)
  | .ok object =>
    if minimumSlotSizeBytes < object.alignment then
      some (.error (.payloadAlignmentTooLarge object.alignment), t)
    else if largeSpanCount object = 0 ∨ maxLogicalSpans < largeSpanCount object then
      some (.error .addressSpaceExhausted, t)
    else
      match t.allocator.request with
      | (false, allocator) =>
        some (.error .storageAllocationFailed, { t with allocator := allocator })
      | (true, allocator) =>
        match { t with allocator := allocator }.reserveSpanRange (largeSpanCount object) with
        | (.error e, t) => some (.error e, t)
        | (.ok placement, t) =>
          match (SpanStorage.new (largeSpanCount object)).initializeObject firstOffset layout
              header payload with
          | .error _ => none
          | .ok storage =>
            some (.ok (⟨placement.owner, firstOffset⟩, largeSpanCount object * spanSizeBytes),
              t.installLarge placement storage object.allocationSize (largeSpanCount object))

end SpanTable

end TachyonEngine.Gc
