import TachyonEngine.Gc.Mark
import TachyonEngine.Gc.Publication

/-!
# Sweeping

The sweep of a major collection visits every span owner, that of a minor collection
the chain of young spans. Both count the marked objects of a span first, then drop
the white ones in the order of the allocation bits, and release a span that had no
marked object. A minor sweep offers an empty span to the Eden pool before it releases
it, and ages or promotes the spans it keeps.

An error stops a sweep where it is: objects that were dropped stay dropped.
-/

namespace TachyonEngine.Gc

open Lib.Traversal Lib.Capacity

/-! ## The Eden pool -/

def edenPoolSpansPerSizeClass : Nat := 1

structure EdenPoolStats where
  retainedSpans : Nat := 0
  retainedBytes : Nat := 0
  spansPooled : Nat := 0
  spansReused : Nat := 0
  spansTrimmed : Nat := 0
  overflowReleases : Nat := 0

/-- Empty Eden spans kept for reuse: some places for every size class. -/
structure EdenPool where
  spans : List (List (Option SpanId))
  stats : EdenPoolStats

namespace EdenPool

def new : EdenPool :=
  { spans := List.replicate smallSizeClasses.length (List.replicate edenPoolSpansPerSizeClass none)
    stats := {} }

/-- The places of a size class. -/
def places (p : EdenPool) (classIndex : Nat) : List (Option SpanId) :=
  (p.spans[classIndex]?).getD []

def hasRetained (p : EdenPool) (classIndex : Nat) : Bool := (p.places classIndex).any Option.isSome

def hasCapacity (p : EdenPool) (classIndex : Nat) : Bool := (p.places classIndex).any Option.isNone

/-- Keeps a span when the class has an empty place. -/
def retain (p : EdenPool) (classIndex : Nat) (span : SpanId) : Bool × EdenPool :=
  match (p.places classIndex).findIdx? Option.isNone with
  | none =>
    (false, { p with stats := { p.stats with overflowReleases := p.stats.overflowReleases + 1 } })
  | some place =>
    (true,
      { spans := p.spans.modify classIndex (·.set place (some span))
        stats :=
          { p.stats with
            retainedSpans := p.stats.retainedSpans + 1
            retainedBytes := p.stats.retainedBytes + spanSizeBytes
            spansPooled := p.stats.spansPooled + 1 } })

/-- The first kept span of a class and its place. -/
def firstRetained (p : EdenPool) (classIndex : Nat) : Option (Nat × SpanId) :=
  ((p.places classIndex).findIdx? Option.isSome).bind fun place =>
    ((p.places classIndex)[place]?).join.map fun span => (place, span)

/-- Empties a place. -/
def vacatePlace (p : EdenPool) (classIndex place : Nat) : EdenPool :=
  { spans := p.spans.modify classIndex (·.set place none)
    stats :=
      { p.stats with
        retainedSpans := p.stats.retainedSpans - 1
        retainedBytes := p.stats.retainedBytes - spanSizeBytes } }

/-- Takes a kept span for allocation. -/
def takeForReuse (p : EdenPool) (classIndex : Nat) : Option (SpanId × EdenPool) :=
  (p.firstRetained classIndex).map fun found =>
    let taken := p.vacatePlace classIndex found.1
    (found.2, { taken with stats := { taken.stats with spansReused :=
      taken.stats.spansReused + 1 } })

/-- Forgets a span that the table has released. -/
def recordTrimmed (p : EdenPool) (classIndex place : Nat) : EdenPool :=
  let trimmed := p.vacatePlace classIndex place
  { trimmed with stats := { trimmed.stats with spansTrimmed := trimmed.stats.spansTrimmed + 1 } }

end EdenPool

/-! ## Errors and counters -/

inductive SweepError where
  | worklist (error : CapacityError)
  | invalidReference (error : HeapReferenceError)
  | unknownTypeId (reference : RawHeapRef)
  | spanTable (error : SpanTableError)
  | allocationStateChanged (reference : RawHeapRef)
  | externalAccountingUnderflow (reference : RawHeapRef) (charged available : Nat)

/-- Why a sweep ended before its time: an error, or an assertion that failed. -/
inductive SweepHalt where
  | error (error : SweepError)
  | abort

structure SweepStats where
  scannedObjects : Nat := 0
  liveObjects : Nat := 0
  reclaimedObjects : Nat := 0
  scannedBytes : Nat := 0
  liveBytes : Nat := 0
  reclaimedBytes : Nat := 0
  spansProcessed : Nat := 0
  spansReleased : Nat := 0
  releasedStorageBytes : Nat := 0
  externalBytes : Nat := 0
  retainedFragmentationBytes : Nat := 0
  reusableOldFreeBytes : Nat := 0
  retainedTailSlackBytes : Nat := 0

/-- Cohort counters of a minor sweep. -/
structure MinorSweepStats where
  edenSpansProcessed : Nat := 0
  survivorSpansProcessed : Nat := 0
  edenToSurvivor : Nat := 0
  survivorSpansAged : Nat := 0
  wholeSpanPromotions : Nat := 0
  earlyWholeSpanPromotions : Nat := 0
  edenSpansPooled : Nat := 0
  edenPoolOverflowSpansReleased : Nat := 0
  edenPoolRetainedBytes : Nat := 0

abbrev SweepWorklist := BoundedVec SpanId

def initialSweepWorklistCapacity : Nat := 64

/-- The metadata of a small span that a sweep accounts for. -/
structure SmallSweepSnapshot where
  sizeClass : SizeClass
  space : SpanSpace
  bumpCursor : Nat
  allocatedSlots : Nat
  allocatedBytes : Nat

def SpanTable.smallSweepSnapshot (t : SpanTable) (span : SpanId) : Option SmallSweepSnapshot :=
  (t.metadata span).map fun metadata =>
    { sizeClass := metadata.sizeClass
      space := metadata.space
      bumpCursor := metadata.bumpCursor
      allocatedSlots := metadata.allocatedSlots
      allocatedBytes := metadata.allocatedBytes }

/-- The state of a sweep. -/
structure Sweeper where
  table : SpanTable
  externalBytes : Nat
  edenPool : EdenPool
  worklist : SweepWorklist
  promotedActiveOld : List (Option SpanId)
  stats : SweepStats := {}
  minor : MinorSweepStats := {}
  halt : Option SweepHalt := none

namespace Sweeper

def fail (s : Sweeper) (error : SweepError) : Sweeper := { s with halt := some (.error error) }

def abort (s : Sweeper) : Sweeper := { s with halt := some .abort }

/-- Whether the sweep has ended early. -/
def halted (s : Sweeper) : Bool := s.halt.isSome

/-- Changes the counters. -/
def count (s : Sweeper) (f : SweepStats → SweepStats) : Sweeper := { s with stats := f s.stats }

def countMinor (s : Sweeper) (f : MinorSweepStats → MinorSweepStats) : Sweeper :=
  { s with minor := f s.minor }

/-- Replaces the table. -/
def setTable (s : Sweeper) (table : SpanTable) : Sweeper := { s with table := table }

/-- Runs a fallible table operation. -/
def runTable {α : Type} (s : Sweeper) (result : Except SpanTableError α × SpanTable) : Sweeper :=
  match result with
  | (.error e, table) => (s.setTable table).fail (.spanTable e)
  | (.ok _, table) => s.setTable table

/-! ## Objects -/

/-- Resolves the object whose destructor is to run, and its external charge. -/
def resolveForDrop (types : TypeRegistry) (s : Sweeper) (reference : RawHeapRef) :
    Except SweepError Nat :=
  match s.table.verifyReference reference none with
  | .error e => .error (.invalidReference e)
  | .ok header =>
    match header.typeId with
    | none => .error (.unknownTypeId reference)
    | some typeId =>
      match types.descriptor typeId with
      | none => .error (.unknownTypeId reference)
      | some descriptor =>
        match s.table.payloadAddress reference descriptor with
        | .error e => .error (.invalidReference e)
        | .ok () =>
          let charged := header.externalBytes.getD 0
          if s.externalBytes < charged then
            .error (.externalAccountingUnderflow reference charged s.externalBytes)
          else .ok charged

/-- Gives the external bytes of a dropped object back. -/
def discharge (s : Sweeper) (charged : Nat) : Sweeper :=
  { s with externalBytes := s.externalBytes - charged }

/-- Unpublishes a small object and drops it. -/
def dropSmall (types : TypeRegistry) (s : Sweeper) (reference : RawHeapRef) : Sweeper :=
  match s.resolveForDrop types reference with
  | .error e => s.fail e
  | .ok charged =>
    match s.table.unpublishSmallForDrop reference with
    | none => s.fail (.allocationStateChanged reference)
    | some table => (s.setTable table).discharge charged

/-- The slot behind a reference, by the size class of the span when its sweep began. -/
def referenceSlotSuccessor (before : SmallSweepSnapshot) (reference : RawHeapRef) : Option Nat :=
  (before.sizeClass.slotForOffset reference.spanOffset).map fun slot => slot.val + 1

/-- Counts one object if it is marked. -/
def countLive (epoch : CollectionEpoch) (state : Sweeper × Nat) (reference : RawHeapRef) :
    Sweeper × Nat :=
  match state.1.table.isMarked reference epoch with
  | .error e => (state.1.fail (.invalidReference e), state.2)
  | .ok true => (state.1, state.2 + 1)
  | .ok false => state

/-- The number of marked objects of a span. -/
def liveSlots (s : Sweeper) (span : SpanId) (epoch : CollectionEpoch)
    (before : SmallSweepSnapshot) : Sweeper × Nat :=
  scan (fun state start => state.1.table.nextAllocatedReference span start)
    (fun _ reference => referenceSlotSuccessor before reference) (fun state => state.1.halted)
    (countLive epoch) (maxSmallObjectSlots + 1) 0 (s, 0)

/-- Counts a dropped object, unless the drop failed. -/
def countReclaimed (s : Sweeper) (slotSize : Nat) : Sweeper :=
  if s.halted then s
  else
    s.count fun stats =>
      { stats with
        reclaimedObjects := stats.reclaimedObjects + 1
        reclaimedBytes := stats.reclaimedBytes + slotSize }

/-- Keeps a marked object and drops a white one. -/
def sweepObject (types : TypeRegistry) (epoch : CollectionEpoch) (slotSize : Nat) (s : Sweeper)
    (reference : RawHeapRef) : Sweeper :=
  let s := s.count fun stats =>
    { stats with
      scannedObjects := stats.scannedObjects + 1
      scannedBytes := stats.scannedBytes + slotSize }
  match s.table.isMarked reference epoch with
  | .error e => s.fail (.invalidReference e)
  | .ok true =>
    s.count fun stats =>
      { stats with
        liveObjects := stats.liveObjects + 1
        liveBytes := stats.liveBytes + slotSize }
  | .ok false => (s.dropSmall types reference).countReclaimed slotSize

/-- Drops the white objects of a span. -/
def sweepObjects (types : TypeRegistry) (epoch : CollectionEpoch) (s : Sweeper) (span : SpanId)
    (before : SmallSweepSnapshot) : Sweeper :=
  scan (fun s start => s.table.nextAllocatedReference span start)
    (fun _ reference => referenceSlotSuccessor before reference) halted
    (sweepObject types epoch before.sizeClass.slotSize) (maxSmallObjectSlots + 1) 0 s

/-- Accounts for a span that stays. -/
def accountRetainedSmall (s : Sweeper) (after : SmallSweepSnapshot) : Sweeper :=
  let region := after.bumpCursor * after.sizeClass.slotSize
  let fragmentation := region - after.allocatedBytes
  s.count fun stats =>
    { stats with
      retainedFragmentationBytes := stats.retainedFragmentationBytes + fragmentation
      reusableOldFreeBytes :=
        stats.reusableOldFreeBytes + if after.space = .old then fragmentation else 0
      retainedTailSlackBytes :=
        stats.retainedTailSlackBytes + (spanSizeBytes - minimumSlotSizeBytes - region) }

/-- Accounts for a span that stays, as the table has it now. -/
def accountRetained (s : Sweeper) (span : SpanId) : Sweeper :=
  match s.table.smallSweepSnapshot span with
  | none => s.abort
  | some after => s.accountRetainedSmall after

def countReleased (s : Sweeper) (spans bytes : Nat) : Sweeper := s.count fun stats =>
    { stats with
      spansReleased := stats.spansReleased + spans
      releasedStorageBytes := stats.releasedStorageBytes + bytes }

/-! ## Minor sweep -/

/-- Pools an empty span, or releases it. -/
def retireYoungSpan (s : Sweeper) (span : SpanId) (classIndex : Nat) : Sweeper :=
  match s.edenPool.retain classIndex span with
  | (true, pool) =>
    { s with edenPool := pool, table := s.table.poolEmptyYoung span }.countMinor fun minor =>
      { minor with edenSpansPooled := minor.edenSpansPooled + 1 }
  | (false, pool) =>
    let s := { s with edenPool := pool }.runTable (s.table.release span)
    if s.halted then s
    else
      (s.countReleased 1 spanSizeBytes).countMinor fun minor =>
        { minor with
          edenPoolOverflowSpansReleased := minor.edenPoolOverflowSpansReleased + 1 }

/-- Accounts for a promotion, and offers the span for allocation when it has room. -/
def adoptPromoted (s : Sweeper) (span : SpanId) (classIndex : Nat) (early : Bool) : Sweeper :=
  let s := s.countMinor fun minor =>
    { minor with
      wholeSpanPromotions := minor.wholeSpanPromotions + 1
      earlyWholeSpanPromotions := minor.earlyWholeSpanPromotions + if early then 1 else 0 }
  let s := s.setTable (s.table.rebuildOldFreeList span)
  if s.table.canAllocateInSpan span then
    { s with promotedActiveOld := s.promotedActiveOld.set classIndex (some span) }
  else s

/-- Ages or promotes a span with survivors. -/
def advanceYoungSpan (s : Sweeper) (span : SpanId) (classIndex live : Nat)
    (before : SmallSweepSnapshot) : Sweeper :=
  let dueByAge := promotionDueToAge before.space youngPromotionAge
  let promoteEarly := !dueByAge && shouldPromoteEarly live before.sizeClass.slotCount
  let (transition, table) := s.table.advanceYoungCohort span youngPromotionAge promoteEarly
  let s := s.setTable table
  let s :=
    match transition with
    | .edenToSurvivor =>
      s.countMinor fun minor => { minor with edenToSurvivor := minor.edenToSurvivor + 1 }
    | .survivorAged =>
      s.countMinor fun minor => { minor with survivorSpansAged := minor.survivorSpansAged + 1 }
    | .promoted => s.adoptPromoted span classIndex promoteEarly
  s.accountRetained span

/-- Makes room for the release of an empty span that the pool cannot take. -/
def prepareRetirement (s : Sweeper) (span : SpanId) (classIndex live : Nat) : Sweeper :=
  if live = 0 && !s.edenPool.hasCapacity classIndex then s.runTable (s.table.prepareRelease span)
  else s

/-- Sweeps one young span. -/
def sweepYoungSpan (types : TypeRegistry) (epoch : CollectionEpoch) (s : Sweeper) (span : SpanId) :
    Sweeper :=
  match s.table.smallSweepSnapshot span with
  | none => s.abort
  | some before =>
    let (s, live) := s.liveSlots span epoch before
    if s.halted then s
    else
      match smallSizeClasses.findIdx? (· == before.sizeClass.slotSize) with
      | none => s.abort
      | some classIndex =>
        let s := s.prepareRetirement span classIndex live
        if s.halted then s
        else
          let s := s.sweepObjects types epoch span before
          if s.halted then s
          else if live = 0 then s.retireYoungSpan span classIndex
          else s.advanceYoungSpan span classIndex live before

/-- Counts a young span by its cohort. -/
def countYoungSpan (s : Sweeper) (space : SpanSpace) : Sweeper :=
  let s := s.count fun stats => { stats with spansProcessed := stats.spansProcessed + 1 }
  match space with
  | .eden =>
    s.countMinor fun minor => { minor with edenSpansProcessed := minor.edenSpansProcessed + 1 }
  | .survivor _ =>
    s.countMinor fun minor =>
      { minor with survivorSpansProcessed := minor.survivorSpansProcessed + 1 }
  | .old => s

/-- One node of the young chain; it may have been released or promoted since it was
linked. -/
def sweepYoungNode (types : TypeRegistry) (epoch : CollectionEpoch) (s : Sweeper) (span : SpanId) :
    Sweeper :=
  match s.table.youngSpace span with
  | none => s
  | some space => sweepYoungSpan types epoch (s.countYoungSpan space) span

/-- Sweeps the young spans. `none` says that the chain does not end. -/
def sweepYoung (types : TypeRegistry) (epoch : CollectionEpoch) (s : Sweeper) : Option Sweeper :=
  match walk (fun s span => s.table.youngNext span) halted (sweepYoungNode types epoch)
      (s.table.entries.length + 1) s.table.youngHead s with
  | none => none
  | some s =>
    if s.halted then some s
    else
      (s.table.compactYoungSpans).map fun table =>
        (s.setTable table).countMinor fun minor =>
          { minor with edenPoolRetainedBytes := s.edenPool.stats.retainedBytes }

/-! ## Major sweep -/

/-- Sweeps one small span of any generation. -/
def sweepSmall (types : TypeRegistry) (epoch : CollectionEpoch) (s : Sweeper) (span : SpanId) :
    Sweeper :=
  match s.table.smallSweepSnapshot span with
  | none => s.abort
  | some before =>
    let (s, live) := s.liveSlots span epoch before
    if s.halted then s
    else
      let s := if live = 0 then s.runTable (s.table.prepareRelease span) else s
      if s.halted then s
      else
        let s := s.sweepObjects types epoch span before
        if s.halted then s
        else
          match s.table.smallSweepSnapshot span with
          | none => s.abort
          | some after =>
            if after.allocatedSlots = 0 then
              let s := s.runTable (s.table.release span)
              if s.halted then s else s.countReleased 1 spanSizeBytes
            else
              (s.setTable (s.table.rebuildOldFreeList span)).accountRetainedSmall after

/-- Releases the range of an unpublished large object. -/
def releaseLarge (s : Sweeper) (reference : RawHeapRef) : Sweeper :=
  match s.table.releaseUnpublishedLarge reference with
  | (.error e, table) => (s.setTable table).fail (.spanTable e)
  | (.ok reclaim, table) => (s.setTable table).countReleased reclaim.spanCount reclaim.storageBytes

/-- Drops a white large object and releases its range. -/
def dropLarge (types : TypeRegistry) (s : Sweeper) (reference : RawHeapRef) : Sweeper :=
  match s.resolveForDrop types reference with
  | .error e => s.fail e
  | .ok charged =>
    match s.table.unpublishLargeForDrop reference with
    | .error e => s.fail (.spanTable e)
    | .ok table => ((s.setTable table).discharge charged).releaseLarge reference

/-- Counts a dropped large object, unless the drop failed. -/
def sweepWhiteLarge (types : TypeRegistry) (s : Sweeper) (reference : RawHeapRef)
    (objectBytes : Nat) : Sweeper :=
  let s := s.runTable (s.table.prepareRelease reference.spanId)
  if s.halted then s
  else (s.dropLarge types reference).countReclaimed objectBytes

/-- Sweeps one large object. -/
def sweepLarge (types : TypeRegistry) (epoch : CollectionEpoch) (s : Sweeper) (span : SpanId) :
    Sweeper :=
  match s.table.largeMetadata span with
  | none => s.abort
  | some metadata =>
    let reference : RawHeapRef := ⟨span, firstOffset⟩
    if !metadata.allocated then
      let s := s.runTable (s.table.prepareRelease span)
      if s.halted then s else s.releaseLarge reference
    else
      let s := s.count fun stats =>
        { stats with
          scannedObjects := stats.scannedObjects + 1
          scannedBytes := stats.scannedBytes + metadata.objectBytes }
      match s.table.isMarked reference epoch with
      | .error e => s.fail (.invalidReference e)
      | .ok true =>
        s.count fun stats =>
          { stats with
            liveObjects := stats.liveObjects + 1
            liveBytes := stats.liveBytes + metadata.objectBytes
            retainedTailSlackBytes := stats.retainedTailSlackBytes +
              (metadata.spanCount * spanSizeBytes - (minimumSlotSizeBytes + metadata.objectBytes)) }
      | .ok false => s.sweepWhiteLarge types reference metadata.objectBytes

/-- Queues the owners of the table. -/
def queueOwners (s : Sweeper) : Sweeper := foldUntil halted (fun s span =>
      if (s.table.sweepTarget span).isSome then
        match s.worklist.tryPush initialSweepWorklistCapacity span with
        | (.error e, worklist) => { s with worklist := worklist }.fail (.worklist e)
        | (.ok (), worklist) => { s with worklist := worklist }
      else s)
    (List.range s.table.historicalSpanCount) { s with worklist := s.worklist.clear }

/-- Takes the last owner from the queue. -/
def popOwner (s : Sweeper) : Sweeper :=
  { s with worklist := { s.worklist with entries := s.worklist.entries.dropLast } }

/-- Sweeps one owner. -/
def sweepOwner (types : TypeRegistry) (epoch : CollectionEpoch) (s : Sweeper) (span : SpanId) :
    Sweeper :=
  let s := s.popOwner.count fun stats => { stats with spansProcessed := stats.spansProcessed + 1 }
  match s.table.sweepTarget span with
  | none => s
  | some .small => s.sweepSmall types epoch span
  | some .largeOwner => s.sweepLarge types epoch span

/-- Sweeps every owner that is there when the sweep begins, last one first. -/
def sweepFull (types : TypeRegistry) (epoch : CollectionEpoch) (s : Sweeper) : Sweeper :=
  let s := s.queueOwners
  foldUntil halted (sweepOwner types epoch) s.worklist.entries.reverse s

end Sweeper

end TachyonEngine.Gc
