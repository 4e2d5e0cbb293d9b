import TachyonEngine.Gc.Mark

/-!
# Verification of the generational barriers

The diagnostic scan of the old generation: every edge of an allocated old object must
lead to a live object, and an edge to a young one must be remembered, by a dirty card
or by the bit of a large owner, in a span that is among the remembered sources.
-/

namespace TachyonEngine.Gc

open Lib.Traversal

inductive BarrierVerificationError where
  | invalidSource (source : RawHeapRef) (error : HeapReferenceError)
  | unknownTypeId (source : RawHeapRef)
  | invalidTarget (source target : RawHeapRef) (error : HeapReferenceError)
  | missingSmallCard (source target : RawHeapRef)
  | missingLargeRememberedBit (source target : RawHeapRef)
  | missingRememberedSource (source target : RawHeapRef)

structure BarrierVerificationStats where
  oldObjectsScanned : Nat := 0
  tracedHeapEdges : Nat := 0
  oldToYoungEdges : Nat := 0
  smallCardEdges : Nat := 0
  largeOwnerEdges : Nat := 0

/-- The state of the scan; the table is only read. -/
structure BarrierVerifier where
  error : Option BarrierVerificationError := none
  stats : BarrierVerificationStats := {}

namespace BarrierVerifier

def fail (v : BarrierVerifier) (error : BarrierVerificationError) : BarrierVerifier :=
  { v with error := some error }

def count (v : BarrierVerifier) (f : BarrierVerificationStats → BarrierVerificationStats) :
    BarrierVerifier :=
  { v with stats := f v.stats }

def checkChain (table : SpanTable) (v : BarrierVerifier) (source target : RawHeapRef) :
    BarrierVerifier :=
  if table.isInRememberedSet source.spanId then v
  else v.fail (.missingRememberedSource source target)

def checkSmallEdge (table : SpanTable) (v : BarrierVerifier) (source target : RawHeapRef) :
    BarrierVerifier :=
  if (table.metadata source.spanId).any (fun metadata => metadata.cards.isDirty source.spanOffset)
  then
    checkChain table
      (v.count fun stats => { stats with smallCardEdges := stats.smallCardEdges + 1 }) source target
  else v.fail (.missingSmallCard source target)

def checkLargeEdge (table : SpanTable) (v : BarrierVerifier) (source target : RawHeapRef) :
    BarrierVerifier :=
  if (table.largeMetadata source.spanId).any (·.remembered) then
    checkChain table
      (v.count fun stats => { stats with largeOwnerEdges := stats.largeOwnerEdges + 1 }) source
      target
  else v.fail (.missingLargeRememberedBit source target)

/-- Checks one edge of a small or large old source. -/
def checkEdge (table : SpanTable) (small : Bool) (source : RawHeapRef) (v : BarrierVerifier)
    (target : RawHeapRef) : BarrierVerifier :=
  if v.error.isSome then v
  else
    let v := v.count fun stats => { stats with tracedHeapEdges := stats.tracedHeapEdges + 1 }
    match table.referenceSpace target with
    | .error e => v.fail (.invalidTarget source target e)
    | .ok space =>
      if space ≠ .young then v
      else
        let v := v.count fun stats => { stats with oldToYoungEdges := stats.oldToYoungEdges + 1 }
        if small then checkSmallEdge table v source target
        else checkLargeEdge table v source target

/-- Resolves a source and checks its edges. -/
def traceSource (table : SpanTable) (types : TypeRegistry) (small : Bool) (v : BarrierVerifier)
    (source : RawHeapRef) : BarrierVerifier :=
  match table.verifyReference source none with
  | .error e => v.fail (.invalidSource source e)
  | .ok header =>
    match header.typeId with
    | none => v.fail (.unknownTypeId source)
    | some typeId =>
      match types.descriptor typeId with
      | none => v.fail (.unknownTypeId source)
      | some descriptor =>
        match table.payloadAddress source descriptor with
        | .error e => v.fail (.invalidSource source e)
        | .ok () =>
          (payloadRefs (table.payload source)).foldl (checkEdge table small source)
            (v.count fun stats =>
              { stats with oldObjectsScanned := stats.oldObjectsScanned + 1 })

/-- Checks the allocated objects of an old small span. -/
def scanSmallSpan (table : SpanTable) (types : TypeRegistry) (v : BarrierVerifier)
    (span : SpanId) : BarrierVerifier :=
  scan (fun _ start => table.nextAllocatedReference span start)
    (fun _ reference => table.nextSlot reference) (fun v => v.error.isSome)
    (traceSource table types true) (maxSmallObjectSlots + 1) 0 v

/-- Checks one entry of the table. -/
def scanSpan (table : SpanTable) (types : TypeRegistry) (v : BarrierVerifier) (span : SpanId) :
    BarrierVerifier :=
  match table.sweepTarget span with
  | some .small =>
    if (table.metadata span).any (fun metadata => decide (metadata.space = .old)) then
      scanSmallSpan table types v span
    else v
  | some .largeOwner => traceSource table types false v ⟨span, firstOffset⟩
  | none => v

end BarrierVerifier

/-- Scans every allocated old object. -/
def verifyGenerationalBarriers (table : SpanTable) (types : TypeRegistry) :
    Except BarrierVerificationError BarrierVerificationStats :=
  let v := foldUntil (fun v : BarrierVerifier => v.error.isSome)
    (BarrierVerifier.scanSpan table types) (List.range table.historicalSpanCount) {}
  match v.error with
  | some e => .error e
  | none => .ok v.stats

end TachyonEngine.Gc
