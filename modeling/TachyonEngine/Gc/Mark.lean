import TachyonEngine.Gc.Table

/-!
# Marking

The iterative marker over exact roots and descriptor-provided edges, in its two
forms: the full marker of a major collection and the young marker of a minor one,
which classifies every edge and never walks through old objects. The two share
the phases, the worklist of weak owners and the finalization queue, so the shared
functions take the `Generation` they work for and each form is an instance.

A phase traces an object by visiting its fields in order. Strong tracing marks and
queues targets and records the owner when a field is weak; the ephemeron phase
marks the values of live keys; the clearing phase empties weak slots and
ephemerons whose target or key is dead; the finalization phase moves dead
registrations into the pending queue.

The queues of the collector live on an explicit fuel that bounds the objects of
the table; `Gc.MarkClosure` shows that it never runs out.
-/

namespace TachyonEngine.Gc

open Lib.Traversal Lib.Capacity

/-! ## Worklists -/

/-- The gray worklist, top first. -/
abbrev GrayQueue := BoundedVec RawHeapRef

def initialGrayQueueCapacity : Nat := 256

/-- An object whose weak fields are to be looked at again. -/
structure WeakOwner where
  reference : RawHeapRef
  hasWeak : Bool
  hasEphemeron : Bool
  hasFinalization : Bool

abbrev WeakOwners := BoundedVec WeakOwner

def initialWeakOwnerCapacity : Nat := 64

/-- A cleanup record: the registry and the held value. -/
structure PendingFinalization where
  owner : RawHeapRef
  heldValue : Value

abbrev PendingFinalizations := BoundedVec PendingFinalization

def initialFinalizationQueueCapacity : Nat := 64

/-- Appends one cleanup record. -/
def tryEnqueueFinalization (pending : PendingFinalizations) (owner : RawHeapRef)
    (heldValue : Value) : Except CapacityError Unit × PendingFinalizations :=
  pending.tryPush initialFinalizationQueueCapacity { owner := owner, heldValue := heldValue }

/-- Hands the oldest record over. -/
def popPendingFinalization (pending : PendingFinalizations) :
    Option PendingFinalization × PendingFinalizations :=
  match pending.entries with
  | [] => (none, pending)
  | record :: rest => (some record, { pending with entries := rest })

/-! ## The marker -/

inductive MarkError where
  | invalidReference (error : HeapReferenceError)
  | grayQueue (error : CapacityError)
  | weakOwners (error : CapacityError)
  | finalizationQueue (error : CapacityError)
  | unknownTypeId (reference : RawHeapRef)

/-- Work counters. The marked objects steer the ephemeron loop. -/
structure MarkStats where
  tracedEdges : Nat := 0
  markedObjects : Nat := 0
  tracedObjects : Nat := 0
  weakOwners : Nat := 0
  ephemeronPasses : Nat := 0
  ephemeronValuesMarked : Nat := 0
  weakSlotsCleared : Nat := 0
  ephemeronsCleared : Nat := 0
  finalizationsEnqueued : Nat := 0

/-- Work counters of the young marker beside the shared ones. -/
structure YoungMarkStats where
  dirtyCardsScanned : Nat := 0
  oldObjectsScanned : Nat := 0
  rememberedLargeOwnersScanned : Nat := 0
  promotionObjectsScanned : Nat := 0
  cardFalsePositiveCards : Nat := 0

inductive TracePhase where
  | strong
  | ephemeron
  | clearWeak
  | enqueueFinalization
  deriving DecidableEq

/-- Which objects a marker marks: all of them, or the young ones. -/
inductive Generation where
  | full
  | young

/-- The state of both markers. The full marker never sets `rebuildingSource` and
`sourceHasYoung`. -/
structure Marker where
  table : SpanTable
  gray : GrayQueue
  weakOwners : WeakOwners
  pendingFinalizations : PendingFinalizations
  epoch : CollectionEpoch
  error : Option MarkError := none
  stats : MarkStats := {}
  youngStats : YoungMarkStats := {}
  rebuildingSource : Bool := false
  sourceHasYoung : Bool := false
  currentHasWeak : Bool := false
  currentHasEphemeron : Bool := false
  currentHasFinalization : Bool := false
  currentOwner : Option RawHeapRef := none
  phase : TracePhase := .strong

/-- Visits fields in order, threading the state and rewriting each field. -/
def traceAll (visit : Marker → TraceField → Marker × TraceField) :
    List TraceField → Marker → Marker × List TraceField
  | [], m => (m, [])
  | field :: fields, m =>
    let first := visit m field
    let rest := traceAll visit fields first.1
    (rest.1, first.2 :: rest.2)

namespace Marker

/-- Stops the marker with an error. -/
def fail (m : Marker) (error : MarkError) : Marker := { m with error := some error }

/-- Marks a white object and queues it, once the queue has room. -/
def markAndQueue (m : Marker) (reference : RawHeapRef) : Marker :=
  match m.table.isMarked reference m.epoch with
  | .error e => m.fail (.invalidReference e)
  | .ok true => m
  | .ok false =>
    match m.gray.tryReserveOne initialGrayQueueCapacity with
    | (.error e, gray) => { m with gray := gray }.fail (.grayQueue e)
    | (.ok (), gray) =>
      match m.table.markReference reference m.epoch with
      | .error e => { m with gray := gray }.fail (.invalidReference e)
      | .ok (true, table) =>
        { m with
          table := table
          gray := { gray with entries := reference :: gray.entries }
          stats := { m.stats with markedObjects := m.stats.markedObjects + 1 } }
      | .ok (false, table) => { m with table := table, gray := gray }

/-- Counts one traced edge. -/
def countEdge (m : Marker) : Marker :=
  { m with stats := { m.stats with tracedEdges := m.stats.tracedEdges + 1 } }

/-- The full marker marks every target. -/
def enqueueFull (m : Marker) (reference : RawHeapRef) : Marker :=
  if m.error.isSome then m else m.countEdge.markAndQueue reference

/-- The young marker classifies the target first. While a source is rebuilt it
only notes whether there is a young or invalid target. -/
def enqueueYoung (m : Marker) (reference : RawHeapRef) : Marker :=
  if m.error.isSome && !m.rebuildingSource then m
  else
    match m.table.referenceSpace reference with
    | .error e =>
      if m.rebuildingSource then { m with sourceHasYoung := true }
      else m.fail (.invalidReference e)
    | .ok space =>
      if m.rebuildingSource then
        { m with sourceHasYoung := m.sourceHasYoung || decide (space = .young) }
      else if space ≠ .young then m.countEdge
      else m.countEdge.markAndQueue reference

def enqueue (g : Generation) : Marker → RawHeapRef → Marker :=
  match g with
  | .full => enqueueFull
  | .young => enqueueYoung

/-- Liveness for the full marker: the mark. -/
def referenceLiveFull (m : Marker) (reference : RawHeapRef) : Bool × Marker :=
  match m.table.isMarked reference m.epoch with
  | .ok live => (live, m)
  | .error e => (false, m.fail (.invalidReference e))

/-- Liveness for the young marker: every old object is live. -/
def referenceLiveYoung (m : Marker) (reference : RawHeapRef) : Bool × Marker :=
  match m.table.referenceSpace reference with
  | .error e => (false, m.fail (.invalidReference e))
  | .ok .young => referenceLiveFull m reference
  | .ok _ => (true, m)

def referenceLive (g : Generation) : Marker → RawHeapRef → Bool × Marker :=
  match g with
  | .full => referenceLiveFull
  | .young => referenceLiveYoung

/-! ## Tracer callbacks -/

/-- Strong and ephemeron phases follow strong references. -/
def followsStrong (m : Marker) : Bool :=
  decide (m.phase = .strong ∨ m.phase = .ephemeron)

def traceRawHeapRef (g : Generation) (m : Marker) (reference : RawHeapRef) : Marker :=
  if m.followsStrong then enqueue g m reference else m

def traceValue (g : Generation) (m : Marker) (value : Value) : Marker :=
  match value.asHeapRef with
  | none => m
  | some reference => traceRawHeapRef g m reference

/-- Enqueues an optional target, as the rebuild of a source does for weak fields. -/
def enqueueOption (g : Generation) (m : Marker) (target : Option RawHeapRef) : Marker :=
  match target with
  | none => m
  | some reference => enqueue g m reference

def traceWeakRawHeapRef (g : Generation) (m : Marker) (target : Option RawHeapRef) :
    Marker × Option RawHeapRef :=
  if m.rebuildingSource then (enqueueOption g m target, target)
  else
    match m.phase with
    | .strong => ({ m with currentHasWeak := m.currentHasWeak || target.isSome }, target)
    | .ephemeron => (m, target)
    | .enqueueFinalization => (m, target)
    | .clearWeak =>
      match target with
      | none => (m, none)
      | some reference =>
        let (live, m) := referenceLive g m reference
        if m.error.isNone && !live then
          ({ m with stats := { m.stats with weakSlotsCleared := m.stats.weakSlotsCleared + 1 } },
            none)
        else (m, some reference)

/-- Liveness of an ephemeron key; a cleared key is dead. -/
def keyLive (g : Generation) (m : Marker) (key : Option RawHeapRef) : Bool × Marker :=
  match key with
  | none => (false, m)
  | some reference => referenceLive g m reference

def traceEphemeron (g : Generation) (m : Marker) (key : Option RawHeapRef) (value : Value) :
    Marker × Option RawHeapRef × Value :=
  if m.rebuildingSource then
    (enqueueOption g (enqueueOption g m key) value.asHeapRef, key, value)
  else
    match m.phase with
    | .strong => ({ m with currentHasEphemeron := m.currentHasEphemeron || key.isSome }, key, value)
    | .ephemeron =>
      let (live, m) := keyLive g m key
      match live, value.asHeapRef with
      | true, some reference =>
        let before := m.stats.markedObjects
        let m := enqueue g m reference
        ({ m with
            stats := { m.stats with
              ephemeronValuesMarked :=
                m.stats.ephemeronValuesMarked + (m.stats.markedObjects - before) } },
          key, value)
      | _, _ => (m, key, value)
    | .clearWeak =>
      let (live, m) := keyLive g m key
      if m.error.isNone && !live then
        ({ m with stats := { m.stats with ephemeronsCleared := m.stats.ephemeronsCleared + 1 } },
          none, .undefined)
      else (m, key, value)
    | .enqueueFinalization => (m, key, value)

def traceFinalization (g : Generation) (m : Marker) (target : Option RawHeapRef)
    (heldValue : Value) : Marker × Option RawHeapRef × Value :=
  if m.rebuildingSource then
    (enqueueOption g (enqueueOption g m target) heldValue.asHeapRef, target, heldValue)
  else
    match m.phase with
    | .strong =>
      (traceValue g { m with currentHasFinalization := m.currentHasFinalization || target.isSome }
          heldValue,
        target, heldValue)
    | .ephemeron => (m, target, heldValue)
    | .clearWeak => (m, target, heldValue)
    | .enqueueFinalization =>
      match target, m.currentOwner with
      | some reference, some registry =>
        let (live, m) := referenceLive g m reference
        if m.error.isSome || live then (m, some reference, heldValue)
        else
          match tryEnqueueFinalization m.pendingFinalizations registry heldValue with
          | (.ok (), pending) =>
            ({ m with
                pendingFinalizations := pending
                stats := { m.stats with
                  finalizationsEnqueued := m.stats.finalizationsEnqueued + 1 } },
              none, .undefined)
          | (.error e, pending) =>
            ({ m with pendingFinalizations := pending }.fail (.finalizationQueue e),
              some reference, heldValue)
      | _, _ => (m, target, heldValue)

/-- The callback of one field. -/
def visit (g : Generation) (m : Marker) : TraceField → Marker × TraceField
  | .value value => (traceValue g m value, .value value)
  | .rawHeapRef reference => (traceRawHeapRef g m reference, .rawHeapRef reference)
  | .weak target =>
    let traced := traceWeakRawHeapRef g m target
    (traced.1, .weak traced.2)
  | .ephemeron key value =>
    let traced := traceEphemeron g m key value
    (traced.1, .ephemeron traced.2.1 traced.2.2)
  | .finalization target heldValue =>
    let traced := traceFinalization g m target heldValue
    (traced.1, .finalization traced.2.1 traced.2.2)

/-- Runs the trace callback of an object over its fields, in place. -/
def tracePayload (g : Generation) (m : Marker) (reference : RawHeapRef) : Marker :=
  let traced := traceAll (visit g) (m.table.payload reference) m
  { traced.1 with table := traced.1.table.setPayload reference traced.2 }

/-! ## Draining -/

/-- Resolves the descriptor of a live object and the place of its payload. -/
def resolve (table : SpanTable) (types : TypeRegistry) (reference : RawHeapRef) :
    Except MarkError Unit :=
  match table.verifyReference reference none with
  | .error e => .error (.invalidReference e)
  | .ok header =>
    match header.typeId with
    | none => .error (.unknownTypeId reference)
    | some typeId =>
      match types.descriptor typeId with
      | none => .error (.unknownTypeId reference)
      | some descriptor =>
        match table.payloadAddress reference descriptor with
        | .error e => .error (.invalidReference e)
        | .ok () => .ok ()

/-- Publishes the object just traced when one of its fields is weak. -/
def recordWeakOwner (m : Marker) (reference : RawHeapRef) : Marker :=
  if !m.currentHasWeak && !m.currentHasEphemeron && !m.currentHasFinalization then m
  else
    let owner : WeakOwner :=
      { reference := reference
        hasWeak := m.currentHasWeak
        hasEphemeron := m.currentHasEphemeron
        hasFinalization := m.currentHasFinalization }
    match m.weakOwners.tryPush initialWeakOwnerCapacity owner with
    | (.error e, owners) => { m with weakOwners := owners }.fail (.weakOwners e)
    | (.ok (), owners) =>
      { m with
        weakOwners := owners
        stats := { m.stats with weakOwners := m.stats.weakOwners + 1 } }

/-- Forgets what the last traced object had. -/
def resetFlags (m : Marker) : Marker :=
  { m with currentHasWeak := false, currentHasEphemeron := false, currentHasFinalization := false }

/-- Traces one resolved source strongly and publishes it as a weak owner. -/
def traceStrong (g : Generation) (m : Marker) (reference : RawHeapRef) : Marker :=
  (tracePayload g { m.resetFlags with rebuildingSource := false, sourceHasYoung := false }
    reference).recordWeakOwner reference

/-- Traces one source of the young marker without rebuilding. -/
def traceSource (g : Generation) (types : TypeRegistry) (m : Marker) (reference : RawHeapRef) :
    Marker :=
  match resolve m.table types reference with
  | .error e => m.fail e
  | .ok () => traceStrong g m reference

/-- Counts one traced object. -/
def countObject (m : Marker) : Marker :=
  { m with stats := { m.stats with tracedObjects := m.stats.tracedObjects + 1 } }

/-- One popped object. The full marker counts it once it is resolved, the young
marker before. -/
def drainOne (g : Generation) (types : TypeRegistry) (m : Marker) (reference : RawHeapRef) :
    Marker :=
  match g with
  | .full =>
    match resolve m.table types reference with
    | .error e => m.fail e
    | .ok () => traceStrong .full m.countObject reference
  | .young => traceSource .young types m.countObject reference

/-- The marker without its topmost queued object. -/
def popGray (m : Marker) (rest : List RawHeapRef) : Marker :=
  { m with gray := { m.gray with entries := rest } }

/-- Pops one object at a time until the queue is empty or an error stops it. -/
def drainLoop (g : Generation) (types : TypeRegistry) : Nat → Marker → Marker
  | 0, m => m
  | fuel + 1, m =>
    if m.error.isSome then m
    else
      match m.gray.entries with
      | [] => m
      | reference :: rest =>
        drainLoop g types fuel (drainOne g types (m.popGray rest) reference)

/-- Objects still white may be queued once each, besides those queued already. -/
def drain (g : Generation) (types : TypeRegistry) (m : Marker) : Marker :=
  drainLoop g types (m.table.objectBound + m.gray.entries.length) m

/-! ## Weak closure -/

/-- Resolves a weak owner afresh and runs the phase over its fields. -/
def traceWeakOwner (g : Generation) (types : TypeRegistry) (m : Marker) (reference : RawHeapRef) :
    Marker :=
  match resolve m.table types reference with
  | .error e => m.fail e
  | .ok () => { tracePayload g { m with currentOwner := some reference } reference with
      currentOwner := none }

/-- One ephemeron pass over the owners known when it begins. -/
def ephemeronPass (g : Generation) (types : TypeRegistry) (m : Marker) : Marker :=
  m.weakOwners.entries.foldl
    (fun m owner => if owner.hasEphemeron then traceWeakOwner g types m owner.reference else m)
    { m with phase := .ephemeron }

/-- Drains what a pass has queued. -/
def drainPassed (g : Generation) (types : TypeRegistry) (passed : Marker) : Marker := drain g types
    { passed with
      stats := { passed.stats with ephemeronPasses := passed.stats.ephemeronPasses + 1 }
      phase := .strong }

/-- Repeats ephemeron passes and drains until neither marks nor owners grow. -/
def closureLoop (g : Generation) (types : TypeRegistry) : Nat → Marker → Marker
  | 0, m => m
  | fuel + 1, m =>
    if m.error.isSome then m
    else
      let passed := ephemeronPass g types m
      if !m.weakOwners.entries.any (·.hasEphemeron) || passed.error.isSome then passed
      else
        let drained := drainPassed g types passed
        if drained.stats.markedObjects = m.stats.markedObjects ∧
            drained.weakOwners.entries.length = m.weakOwners.entries.length then drained
        else closureLoop g types fuel drained

/-- Clears weak slots and ephemerons of every owner. -/
def clearWeak (g : Generation) (types : TypeRegistry) (m : Marker) : Marker :=
  foldUntil (fun m => m.error.isSome) (fun m owner => traceWeakOwner g types m owner.reference)
    m.weakOwners.entries { m with phase := .clearWeak }

/-- Moves dead registrations of every registry into the pending queue. -/
def enqueueFinalizations (g : Generation) (types : TypeRegistry) (m : Marker) : Marker :=
  foldUntil (fun m => m.error.isSome)
    (fun m owner => if owner.hasFinalization then traceWeakOwner g types m owner.reference else m)
    m.weakOwners.entries { m with phase := .enqueueFinalization }

/-- Reaches ephemeron closure, clears weak slots, then enqueues finalizations. -/
def closeWeak (g : Generation) (types : TypeRegistry) (m : Marker) : Marker :=
  let closed := closureLoop g types (m.table.objectBound + 1) m
  if closed.error.isSome then closed
  else
    let cleared := clearWeak g types closed
    let finalized :=
      if cleared.error.isNone then enqueueFinalizations g types cleared else cleared
    { finalized with phase := .strong }

/-- Marks the records left by earlier collections. -/
def markPendingFinalizationRoots (g : Generation) (m : Marker) : Marker :=
  m.pendingFinalizations.entries.foldl
    (fun m record => enqueueOption g (enqueue g m record.owner) record.heldValue.asHeapRef) m

/-- Visits a root set. -/
def traceRoots (g : Generation) (m : Marker) (roots : List TraceField) : Marker :=
  (traceAll (visit g) roots m).1

end Marker

/-- A marker at the beginning of a collection, with cleared worklists. -/
def Marker.start (table : SpanTable) (gray : GrayQueue) (weakOwners : WeakOwners)
    (pending : PendingFinalizations) (epoch : CollectionEpoch) : Marker :=
  { table := table
    gray := gray.clear
    weakOwners := weakOwners.clear
    pendingFinalizations := pending
    epoch := epoch }

/-- The marker without its queued work. -/
def Marker.abandon (m : Marker) : Marker := { m with gray := m.gray.clear }

/-- The outcome of a marking: an error abandons the queued work. -/
def Marker.finish (m : Marker) : Except MarkError MarkStats × Marker :=
  match m.error with
  | some e => (.error e, m.abandon)
  | none => (.ok m.stats, m)

/-- Reaches the strong fixed point of a major collection. -/
def markStrongRoots (table : SpanTable) (types : TypeRegistry) (gray : GrayQueue)
    (weakOwners : WeakOwners) (pending : PendingFinalizations) (epoch : CollectionEpoch)
    (roots : List TraceField) : Except MarkError MarkStats × Marker :=
  let m := Marker.start table gray weakOwners pending epoch
  let m := m.traceRoots .full roots
  let m := m.markPendingFinalizationRoots .full
  let m := m.drain .full types
  (m.closeWeak .full types).finish

/-! ## Young marking -/

namespace Marker

/-- Traces one source again, only to learn whether it has a young target. A source
or a target that cannot be resolved counts as young. -/
def traceSourceRebuilding (types : TypeRegistry) (m : Marker) (reference : RawHeapRef) :
    Bool × Marker :=
  match resolve m.table types reference with
  | .error _ => (true, { m with error := none })
  | .ok () =>
    let traced := tracePayload .young
      { m.resetFlags with rebuildingSource := true, sourceHasYoung := false } reference
    (traced.sourceHasYoung, { traced with rebuildingSource := false })

/-- Counts one old object on a dirty card. -/
def countOldObject (m : Marker) : Marker :=
  { m with
    youngStats := { m.youngStats with oldObjectsScanned := m.youngStats.oldObjectsScanned + 1 } }

/-- Traces the objects on dirty cards of a span. -/
def scanDirtySmallSpan (types : TypeRegistry) (m : Marker) (span : SpanId) : Marker :=
  scan (fun m start => m.table.nextDirtyOldReference span start)
    (fun m reference => m.table.nextSlot reference) (fun m => m.error.isSome)
    (fun m reference => traceSource .young types m.countOldObject reference)
    (maxSmallObjectSlots + 1) 0 m

def countDirtyCards (m : Marker) (count : Nat) : Marker :=
  { m with
    youngStats :=
      { m.youngStats with dirtyCardsScanned := m.youngStats.dirtyCardsScanned + count } }

def countLargeOwner (m : Marker) : Marker :=
  { m with
    youngStats :=
      { m.youngStats with
        rememberedLargeOwnersScanned := m.youngStats.rememberedLargeOwnersScanned + 1 } }

/-- Traces the sources of one remembered span. -/
def scanRememberedSpan (types : TypeRegistry) (m : Marker) (span : SpanId) : Marker :=
  if m.table.dirtyOldCardCount span ≠ 0 then
    scanDirtySmallSpan types (m.countDirtyCards (m.table.dirtyOldCardCount span)) span
  else
    match m.table.rememberedLargeReference span with
    | none => m
    | some reference => traceSource .young types m.countLargeOwner reference

/-- Traces the remembered sources. `none` says that the chain does not end. -/
def scanRemembered (types : TypeRegistry) (m : Marker) : Option Marker :=
  walk (fun m span => m.table.rememberedNext span) (fun m => m.error.isSome)
    (scanRememberedSpan types) (m.table.entries.length + 1) m.table.rememberedHead m

/-- One source of a span whose cards are rebuilt. -/
def rebuildSource (types : TypeRegistry) (state : Marker × CardBitmap) (reference : RawHeapRef) :
    Marker × CardBitmap :=
  let (young, m) := traceSourceRebuilding types state.1 reference
  (m, if young then (state.2.mark reference.spanOffset).2 else state.2)

/-- Rebuilds the cards of a span from the sources on its dirty cards. -/
def rebuildSmallSpan (types : TypeRegistry) (m : Marker) (span : SpanId) : Marker :=
  let dirtyBefore := m.table.dirtyOldCardCount span
  let (m, rebuilt) := scan (fun state start => state.1.table.nextDirtyOldReference span start)
      (fun state reference => state.1.table.nextSlot reference) (fun _ => false)
      (rebuildSource types) (maxSmallObjectSlots + 1) 0 (m, CardBitmap.new)
  { m with
    youngStats :=
      { m.youngStats with
        cardFalsePositiveCards :=
          m.youngStats.cardFalsePositiveCards + (dirtyBefore - rebuilt.dirtyCount) }
    table := m.table.replaceOldCards span rebuilt }

/-- Rebuilds what one remembered span remembers. -/
def rebuildRememberedSpan (types : TypeRegistry) (m : Marker) (span : SpanId) : Marker :=
  if m.table.dirtyOldCardCount span ≠ 0 then rebuildSmallSpan types m span
  else
    match m.table.rememberedLargeReference span with
    | none => m
    | some reference =>
      let (remembered, m) := traceSourceRebuilding types m reference
      { m with table := m.table.setLargeRemembered span remembered }

/-- Rebuilds the remembered sources and drops those with nothing left. -/
def rebuildRemembered (types : TypeRegistry) (m : Marker) : Option Marker :=
  match walk (fun m span => m.table.rememberedNext span) (fun _ => false)
      (rebuildRememberedSpan types) (m.table.entries.length + 1) m.table.rememberedHead m with
  | none => none
  | some m => (m.table.compactRememberedSources).map fun table => { m with table := table }

def countPromotionObject (m : Marker) : Marker :=
  { m with
    youngStats :=
      { m.youngStats with
        promotionObjectsScanned := m.youngStats.promotionObjectsScanned + 1 } }

/-- One object of a promotion candidate; white objects are left out. -/
def preparePromotionObject (types : TypeRegistry) (state : Marker × CardBitmap)
    (reference : RawHeapRef) : Marker × CardBitmap :=
  match state.1.table.isMarked reference state.1.epoch with
  | .ok true => rebuildSource types (state.1.countPromotionObject, state.2) reference
  | _ => state

/-- Prepares the cards of a promotion candidate from its marked objects. -/
def preparePromotionSpan (types : TypeRegistry) (m : Marker) (span : SpanId) : Marker :=
  let (m, cards) := scan (fun state start => state.1.table.nextAllocatedReference span start)
      (fun state reference => state.1.table.nextSlot reference) (fun _ => false)
      (preparePromotionObject types) (maxSmallObjectSlots + 1) 0 (m, CardBitmap.new)
  { m with table := m.table.replacePromotionCards span cards }

/-- Whether a young span is due for promotion, by its age or by its marked
objects. -/
def promotionCandidate (m : Marker) (span : SpanId) : Bool :=
  (m.table.youngSpace span).any (fun space => promotionDueToAge space youngPromotionAge) ||
    (m.table.youngLiveOccupancy span m.epoch).any fun occupancy =>
      shouldPromoteEarly occupancy.1 occupancy.2

/-- Prepares every promotion candidate. -/
def preparePromotions (types : TypeRegistry) (m : Marker) : Option Marker :=
  walk (fun m span => m.table.youngNext span) (fun _ => false)
    (fun m span => if m.promotionCandidate span then preparePromotionSpan types m span else m)
    (m.table.entries.length + 1) m.table.youngHead m

end Marker

/-- The outcome of young marking. Remembered sources and promotion cards are rebuilt
once nothing can fail any more; `none` says that a chain of the table does not
end. -/
def markYoungRoots (table : SpanTable) (types : TypeRegistry) (gray : GrayQueue)
    (weakOwners : WeakOwners) (pending : PendingFinalizations) (epoch : CollectionEpoch)
    (roots : List TraceField) :
    Option (Except MarkError (MarkStats × YoungMarkStats) × Marker) :=
  let m := Marker.start table gray weakOwners pending epoch
  let m := m.traceRoots .young roots
  let m := m.markPendingFinalizationRoots .young
  match m.scanRemembered types with
  | none => none
  | some m =>
    let m := (m.drain .young types).closeWeak .young types
    match m.error with
    | some e => some (.error e, m.abandon)
    | none =>
      match m.rebuildRemembered types with
      | none => none
      | some m =>
        (m.preparePromotions types).map fun m => (.ok (m.stats, m.youngStats), m)

end TachyonEngine.Gc
