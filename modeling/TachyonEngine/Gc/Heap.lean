import TachyonEngine.Gc.Barrier
import TachyonEngine.Gc.Sweep

/-!
# The heap

Allocation policy and collections over the span table. An allocation goes to the
active span of its size class, to a pooled Eden span, to a new span, or to a large
range of its own. A minor collection marks and sweeps the young spans, a major one
trims the Eden pool and then marks and sweeps everything.

The trigger that decides when an allocation collects first is left out: it only
chooses between the operations below. A function returns `none` where the source does
not return.
-/

namespace TachyonEngine.Gc

open Lib.Traversal Lib.Capacity

/-! ## Errors and requests -/

inductive HeapAllocationError where
  | unregisteredOrMismatchedType (typeId : GcTypeId)
  | heapLimitExceeded (limit committed requested : Nat)
  | reservedHeaderFlag (flags : Nat)
  | externalBytesTooLarge (bytes maximum : Nat)
  | spanTable (error : SpanTableError)
  | spanAllocation (error : SmallAllocationError)
  | largeAllocation (error : LargeAllocationError)

inductive MajorCollectionError where
  | poolTrim (error : SpanTableError)
  | mark (error : MarkError)
  | sweep (error : SweepError)

inductive MinorCollectionError where
  | barrier (error : BarrierVerificationError)
  | mark (error : MarkError)
  | sweep (error : SweepError)

structure MajorCollectionStats where
  mark : MarkStats
  sweep : SweepStats

structure MinorCollectionStats where
  mark : MarkStats
  young : YoungMarkStats
  sweep : SweepStats
  minor : MinorSweepStats

/-- The generation an object is allocated in. -/
inductive AllocationSpace where
  | young
  | old
  deriving DecidableEq

/-- One object to be allocated: its type, its header fields and its traced fields. -/
structure AllocationRequest where
  objectType : GcType
  flags : Nat
  aux : Nat
  value : List TraceField
  space : AllocationSpace
  externalBytes : Nat

structure AllocationPlan where
  space : AllocationSpace
  classIndex : Option Nat
  allocationBytes : Nat
  requiredSpanStorageBytes : Nat
  externalBytes : Nat

/-- Addition of the 64-bit counters, which saturates. -/
def saturatingAdd (a b : Nat) : Nat := min (a + b) (2 ^ 64 - 1)

def AllocationPlan.requiredCommitBytes (plan : AllocationPlan) : Nat :=
  saturatingAdd plan.requiredSpanStorageBytes plan.externalBytes

/-- The allocators behind the containers of a heap. -/
structure Allocators where
  table : Allocator
  gray : Allocator
  sweepWorklist : Allocator
  weakOwners : Allocator
  pendingFinalizations : Allocator

/-! ## The heap -/

structure Heap where
  types : TypeRegistry
  table : SpanTable
  activeEden : List (Option SpanId)
  activeOld : List (Option SpanId)
  maxHeapBytes : Nat
  committedSpanStorageBytes : Nat
  hostExternalBytes : Nat
  objectExternalBytes : Nat
  collectionEpoch : CollectionEpoch
  gray : GrayQueue
  sweepWorklist : SweepWorklist
  temporaryRoots : List RawHeapRef
  persistentRoots : List RawHeapRef
  weakOwners : WeakOwners
  keptObjects : List RawHeapRef
  pendingFinalizations : PendingFinalizations
  edenPool : EdenPool

namespace Heap

/-- An empty heap. -/
def new (maxHeapBytes : Nat) (types : TypeRegistry) (allocators : Allocators) : Heap :=
  let limitSpans := (maxHeapBytes + spanSizeBytes - 1) / spanSizeBytes
  let maxReferenceEntries := min (maxHeapBytes / minimumSlotSizeBytes) maxLogicalObjectCount
  { types := types
    table := .new allocators.table
    activeEden := List.replicate smallSizeClasses.length none
    activeOld := List.replicate smallSizeClasses.length none
    maxHeapBytes := maxHeapBytes
    committedSpanStorageBytes := 0
    hostExternalBytes := 0
    objectExternalBytes := 0
    collectionEpoch := .initial
    gray := .new maxReferenceEntries allocators.gray
    sweepWorklist := .new (min limitSpans maxLogicalSpans) allocators.sweepWorklist
    temporaryRoots := []
    persistentRoots := []
    weakOwners := .new maxReferenceEntries allocators.weakOwners
    keptObjects := []
    pendingFinalizations := .new maxReferenceEntries allocators.pendingFinalizations
    edenPool := .new }

def externalBytes (h : Heap) : Nat := saturatingAdd h.hostExternalBytes h.objectExternalBytes

def committedHeapBytes (h : Heap) : Nat := saturatingAdd h.committedSpanStorageBytes h.externalBytes

/-- The roots of a collection: those of the caller, then those of the heap. -/
def rootComposition (h : Heap) (roots : List TraceField) : List TraceField :=
  roots ++ (h.temporaryRoots ++ h.persistentRoots ++ h.keptObjects).map TraceField.rawHeapRef

/-! ## Barriers and stores -/

/-- The post-write barrier of one stored reference. -/
def writeBarrier (h : Heap) (source target : RawHeapRef) :
    Except HeapReferenceError (Bool × Heap) :=
  match h.table.rememberOldToYoung source target with
  | .error e => .error e
  | .ok (remembered, table) => .ok (remembered, { h with table := table })

/-- The mutator replaces the fields of an object. -/
def storeFields (h : Heap) (source : RawHeapRef) (fields : List TraceField) : Heap :=
  { h with table := h.table.setPayload source fields }

/-- Hands the oldest cleanup record over. -/
def popPendingFinalization (h : Heap) : Option PendingFinalization × Heap :=
  let (record, pending) := Gc.popPendingFinalization h.pendingFinalizations
  (record, { h with pendingFinalizations := pending })

/-! ## Allocation -/

/-- The size class of an object that takes this many bytes. -/
def sizeClassIndex (required : Nat) : Option Nat :=
  smallSizeClasses.findIdx? fun size => decide (required ≤ size)

/-- Spans charged for a large object. -/
def largeStorageBytes (layout : Layout) : Except HeapAllocationError Nat :=
  match ObjectLayout.forPayloadLayout layout with
  | .error _ => .error (.largeAllocation .addressSpaceExhausted)
  | .ok object => .ok (SpanTable.largeSpanCount object * spanSizeBytes)

/-- The size class of a type that fits a small slot. -/
def smallClassIndex (layout : Layout) : Option Nat :=
  match SmallObjectLayout.forType layout with
  | .error _ => none
  | .ok small => sizeClassIndex small.slotSize

/-- The active span of a size class. -/
def active (h : Heap) (space : AllocationSpace) (classIndex : Nat) : Option SpanId :=
  match space with
  | .young => (h.activeEden[classIndex]?).join
  | .old => (h.activeOld[classIndex]?).join

def setActive (h : Heap) (space : AllocationSpace) (classIndex : Nat) (span : Option SpanId) :
    Heap :=
  match space with
  | .young => { h with activeEden := h.activeEden.set classIndex span }
  | .old => { h with activeOld := h.activeOld.set classIndex span }

/-- Chooses generation, size class and charge of a request. -/
def allocationPlan (h : Heap) (objectType : GcType) (requestedSpace : AllocationSpace)
    (externalBytes : Nat) : Except HeapAllocationError AllocationPlan :=
  if !h.types.matchesType objectType then
    .error (.unregisteredOrMismatchedType objectType.descriptor.typeId)
  else
    let space := if objectType.descriptor.allocationPolicy = .oldOnly then .old else requestedSpace
    match smallClassIndex objectType.descriptor.layout with
    | some classIndex =>
      let required :=
        if (h.active space classIndex).any h.table.canAllocateInSpan ||
            decide (space = .young) && h.edenPool.hasRetained classIndex then 0
        else spanSizeBytes
      .ok
        { space := space
          classIndex := some classIndex
          allocationBytes := saturatingAdd ((smallSizeClasses[classIndex]?).getD 0) externalBytes
          requiredSpanStorageBytes := required
          externalBytes := externalBytes }
    | none =>
      match largeStorageBytes objectType.descriptor.layout with
      | .error e => .error e
      | .ok required =>
        .ok
          { space := .old
            classIndex := none
            allocationBytes := saturatingAdd required externalBytes
            requiredSpanStorageBytes := required
            externalBytes := externalBytes }

/-- Refuses a commit past the limit. -/
def ensureCommitCapacity (h : Heap) (requested : Nat) : Except HeapAllocationError Unit :=
  if h.maxHeapBytes < saturatingAdd h.committedHeapBytes requested then
    .error (.heapLimitExceeded h.maxHeapBytes h.committedHeapBytes requested)
  else .ok ()

/-- Publishes an object in a span. -/
def allocateInSpan (h : Heap) (span : SpanId) (request : AllocationRequest) :
    Option (Except HeapAllocationError RawHeapRef × Heap) :=
  match h.table.tryAllocateInSpan span request.objectType.descriptor.layout
      (.new request.objectType.descriptor.typeId request.flags request.aux) request.value with
  | none => none
  | some (.error e, table) => some (.error (.spanAllocation e), { h with table := table })
  | some (.ok reference, table) => some (.ok reference, { h with table := table })

/-- The cohort of a new span. -/
def AllocationSpace.spanSpace : AllocationSpace → SpanSpace
  | .young => .eden
  | .old => .old

/-- Takes a pooled span back into use. -/
def reusePooled (h : Heap) (classIndex : Nat) (span : SpanId) (pool : EdenPool) : Heap :=
  { h with
    edenPool := pool
    table := h.table.activatePooledEden span
    activeEden := h.activeEden.set classIndex (some span) }

/-- Installs a new active span, or one from the pool. -/
def allocateSlow (h : Heap) (classIndex : Nat) (space : AllocationSpace)
    (request : AllocationRequest) : Option (Except HeapAllocationError RawHeapRef × Heap) :=
  match if space = .young then h.edenPool.takeForReuse classIndex else none with
  | some (span, pool) => (h.reusePooled classIndex span pool).allocateInSpan span request
  | none =>
    match h.ensureCommitCapacity spanSizeBytes with
    | .error e => some (.error e, h)
    | .ok () =>
      match (smallSizeClasses[classIndex]?).bind SizeClass.new with
      | none => none
      | some sizeClass =>
        match h.table.tryAllocateSmall sizeClass (AllocationSpace.spanSpace space) with
        | (.error e, table) => some (.error (.spanTable e), { h with table := table })
        | (.ok span, table) =>
          ({ h with
              table := table
              committedSpanStorageBytes := h.committedSpanStorageBytes + spanSizeBytes
              : Heap }.setActive space classIndex (some span)).allocateInSpan span request

/-- Allocates in the active span while it has room. -/
def tryAllocateClass (h : Heap) (classIndex : Nat) (space : AllocationSpace)
    (request : AllocationRequest) : Option (Except HeapAllocationError RawHeapRef × Heap) :=
  match h.active space classIndex with
  | none => h.allocateSlow classIndex space request
  | some span =>
    if h.table.canAllocateInSpan span then h.allocateInSpan span request
    else (h.setActive space classIndex none).allocateSlow classIndex space request

/-- Allocates a large object in the old generation. -/
def allocateLarge (h : Heap) (request : AllocationRequest) :
    Option (Except HeapAllocationError RawHeapRef × Heap) :=
  match largeStorageBytes request.objectType.descriptor.layout with
  | .error e => some (.error e, h)
  | .ok requested =>
    match h.ensureCommitCapacity requested with
    | .error e => some (.error e, h)
    | .ok () =>
      match h.table.tryAllocateLarge request.objectType.descriptor.layout
          (.new request.objectType.descriptor.typeId request.flags request.aux)
          request.value with
      | none => none
      | some (.error e, table) => some (.error (.largeAllocation e), { h with table := table })
      | some (.ok (reference, _), table) =>
        some (.ok reference,
          { h with
            table := table
            committedSpanStorageBytes := h.committedSpanStorageBytes + requested })

/-- A header says that it has an external charge exactly when it has one. -/
def validateHeaderCharge (flags externalBytes : Nat) : Except HeapAllocationError Unit :=
  if decide (flags / gcHeaderExternalBytesFlag % 2 ≠ 0) = decide (externalBytes ≠ 0) then .ok ()
  else .error (.reservedHeaderFlag flags)

/-- Charges the external bytes of a published object. -/
def chargeObject (h : Heap) (externalBytes : Nat) : Heap :=
  { h with objectExternalBytes := h.objectExternalBytes + externalBytes }

/-- The one publication path. -/
def tryAllocateAccounted (h : Heap) (request : AllocationRequest) :
    Option (Except HeapAllocationError RawHeapRef × Heap) :=
  match validateHeaderCharge request.flags request.externalBytes with
  | .error e => some (.error e, h)
  | .ok () =>
    match h.allocationPlan request.objectType request.space request.externalBytes with
    | .error e => some (.error e, h)
    | .ok plan =>
      match h.ensureCommitCapacity plan.requiredCommitBytes with
      | .error e => some (.error e, h)
      | .ok () =>
        let result :=
          match plan.classIndex with
          | some classIndex => h.tryAllocateClass classIndex plan.space request
          | none => h.allocateLarge request
        match result with
        | none => none
        | some (.error e, h) => some (.error e, h)
        | some (.ok reference, h) => some (.ok reference, h.chargeObject plan.externalBytes)

/-- Allocates one object without external backing. -/
def tryAllocate (h : Heap) (objectType : GcType) (flags aux : Nat) (value : List TraceField)
    (space : AllocationSpace) : Option (Except HeapAllocationError RawHeapRef × Heap) :=
  h.tryAllocateAccounted
    { objectType := objectType
      flags := flags
      aux := aux
      value := value
      space := space
      externalBytes := 0 }

/-- Allocates one object with external backing of this size. -/
def tryAllocateExternal (h : Heap) (objectType : GcType) (flags : Nat) (value : List TraceField)
    (bytes : Nat) (space : AllocationSpace) :
    Option (Except HeapAllocationError RawHeapRef × Heap) :=
  if 2 ^ 32 ≤ bytes then some (.error (.externalBytesTooLarge bytes (2 ^ 32 - 1)), h)
  else if flags / gcHeaderExternalBytesFlag % 2 ≠ 0 then
    some (.error (.reservedHeaderFlag flags), h)
  else
    h.tryAllocateAccounted
      { objectType := objectType
        flags := if bytes = 0 then flags else flags + gcHeaderExternalBytesFlag
        aux := bytes
        value := value
        space := space
        externalBytes := bytes }

/-! ## Trimming the pool -/

/-- The state of a trim. -/
structure Trimmer where
  heap : Heap
  releasedBytes : Nat := 0
  error : Option SpanTableError := none

/-- Releases the first kept span of a class. -/
def trimOne (classIndex : Nat) (s : Trimmer) : Trimmer :=
  match s.heap.edenPool.firstRetained classIndex with
  | none => s
  | some (place, span) =>
    match s.heap.table.prepareRelease span with
    | (.error e, table) => { s with heap := { s.heap with table := table }, error := some e }
    | (.ok (), table) =>
      match table.release span with
      | (.error e, table) => { s with heap := { s.heap with table := table }, error := some e }
      | (.ok (), table) =>
        { s with
          heap :=
            { s.heap with
              table := table
              edenPool := s.heap.edenPool.recordTrimmed classIndex place
              committedSpanStorageBytes := s.heap.committedSpanStorageBytes - spanSizeBytes }
          releasedBytes := s.releasedBytes + spanSizeBytes }

/-- Releases the kept spans of a class; each round empties one place. -/
def trimClass (s : Trimmer) (classIndex : Nat) : Trimmer :=
  foldUntil (fun s : Trimmer => s.error.isSome) (fun s _ => trimOne classIndex s)
    (List.range (s.heap.edenPool.places classIndex).length) s

/-- Releases every kept span, up to the first error. -/
def trimEdenPoolStorage (h : Heap) : Except SpanTableError Nat × Heap :=
  let s := foldUntil (fun s : Trimmer => s.error.isSome) trimClass
    (List.range smallSizeClasses.length) { heap := h }
  match s.error with
  | some e => (.error e, s.heap)
  | none => (.ok s.releasedBytes, s.heap)

/-! ## Collections -/

/-- Advances the epoch before a marking. -/
def advanceEpoch (h : Heap) : Heap :=
  let (epoch, table) := h.table.advanceCollectionEpoch h.collectionEpoch
  { h with collectionEpoch := epoch, table := table }

/-- Takes the state of a marker back. -/
def absorbMarker (h : Heap) (m : Marker) : Heap :=
  { h with
    table := m.table
    gray := m.gray
    weakOwners := m.weakOwners
    pendingFinalizations := m.pendingFinalizations }

/-- Marks everything reachable in a new epoch. -/
def markStrong (h : Heap) (roots : List TraceField) : Except MarkError MarkStats × Heap :=
  let h := h.advanceEpoch
  let run := markStrongRoots h.table h.types h.gray h.weakOwners h.pendingFinalizations
    h.collectionEpoch (h.rootComposition roots)
  (run.1, h.absorbMarker run.2)

/-- Marks the reachable young objects in a new epoch. -/
def markYoung (h : Heap) (roots : List TraceField) :
    Option (Except MarkError (MarkStats × YoungMarkStats) × Heap) :=
  let h := h.advanceEpoch
  (markYoungRoots h.table h.types h.gray h.weakOwners h.pendingFinalizations h.collectionEpoch
    (h.rootComposition roots)).map fun (result, m) => (result, h.absorbMarker m)

/-- A sweep of the heap's table. -/
def sweeper (h : Heap) : Sweeper :=
  { table := h.table
    externalBytes := h.objectExternalBytes
    edenPool := h.edenPool
    worklist := h.sweepWorklist
    promotedActiveOld := List.replicate smallSizeClasses.length none }

/-- Takes the state of a sweep back; the released storage is no longer committed. -/
def absorbSweeper (h : Heap) (s : Sweeper) : Option Heap :=
  if h.committedSpanStorageBytes < s.stats.releasedStorageBytes then none
  else
    some
      { h with
        table := s.table
        objectExternalBytes := s.externalBytes
        edenPool := s.edenPool
        sweepWorklist := s.worklist
        committedSpanStorageBytes := h.committedSpanStorageBytes - s.stats.releasedStorageBytes }

/-- Forgets active spans whose entries were released. -/
def clearReleasedActiveSpans (h : Heap) : Heap :=
  let keep := fun span : Option SpanId => span.filter fun span => (h.table.sweepTarget span).isSome
  { h with activeEden := h.activeEden.map keep, activeOld := h.activeOld.map keep }

/-- Forgets the active Eden spans and adopts promoted spans with room. -/
def repairActiveSpansAfterMinor (h : Heap) (promoted : List (Option SpanId)) : Heap :=
  { h with
    activeEden := h.activeEden.map fun _ => none
    activeOld := List.zipWith
      (fun active promoted => (active.filter h.table.canAllocateInSpan).or promoted) h.activeOld
      promoted }

/-- A full collection. -/
def collectMajor (h : Heap) (roots : List TraceField) :
    Option (Except MajorCollectionError MajorCollectionStats × Heap) :=
  match h.trimEdenPoolStorage with
  | (.error e, h) => some (.error (.poolTrim e), h)
  | (.ok trimmed, h) =>
    match h.markStrong roots with
    | (.error e, h) => some (.error (.mark e), h)
    | (.ok mark, h) =>
      let s := h.sweeper.sweepFull h.types h.collectionEpoch
      match h.absorbSweeper s with
      | none => none
      | some h =>
        let h := h.clearReleasedActiveSpans
        let sweep : SweepStats :=
          { s.stats with
            externalBytes := h.externalBytes
            spansReleased := s.stats.spansReleased + trimmed / spanSizeBytes
            releasedStorageBytes := s.stats.releasedStorageBytes + trimmed }
        match s.halt with
        | some .abort => none
        | some (.error e) => some (.error (.sweep e), h)
        | none => some (.ok { mark := mark, sweep := sweep }, h)

/-- The marking and the sweep of a minor collection. -/
def minorCycle (h : Heap) (roots : List TraceField) :
    Option (Except MinorCollectionError MinorCollectionStats × Heap) :=
  match h.markYoung roots with
  | none => none
  | some (.error e, h) => some (.error (.mark e), h)
  | some (.ok (mark, young), h) =>
    match h.sweeper.sweepYoung h.types h.collectionEpoch with
    | none => none
    | some s =>
      match h.absorbSweeper s with
      | none => none
      | some h =>
        let h := h.repairActiveSpansAfterMinor s.promotedActiveOld
        let sweep : SweepStats := { s.stats with externalBytes := h.externalBytes }
        match s.halt with
        | some .abort => none
        | some (.error e) => some (.error (.sweep e), h)
        | none =>
          some (.ok { mark := mark, young := young, sweep := sweep, minor := s.minor }, h)

/-- A minor collection. Builds with the barrier verifier check the barriers first. -/
def collectMinor (barrierVerifier : Bool) (h : Heap) (roots : List TraceField) :
    Option (Except MinorCollectionError MinorCollectionStats × Heap) :=
  if barrierVerifier then
    match verifyGenerationalBarriers h.table h.types with
    | .error e => some (.error (.barrier e), h)
    | .ok _ => h.minorCycle roots
  else h.minorCycle roots

end Heap

end TachyonEngine.Gc
