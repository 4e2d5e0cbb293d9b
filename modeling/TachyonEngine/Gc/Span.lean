import TachyonEngine.Gc.Layout
import TachyonEngine.Lib.Traversal

/-!
# Spans: side metadata and storage

The side metadata of one span: the allocation bitmap, epoch-qualified marks, the
remembered-set cards, the bump cursor and the free-list head, and the owner
metadata of a large object. Bitmaps are the finite sets of their set bits; the
scan for the next set bit is `Lib.Traversal.nextSet`.

Storage maps the offset of an object to its header and its traced fields. A free
list link is written over the first two bytes of a dead slot, which are the type
field of its header, and `writeFreeNext` does exactly that.
-/

namespace TachyonEngine.Gc

open Lib.Traversal

/-! ## Collection epochs -/

/-- A nonzero 32-bit collection epoch. -/
@[ext]
structure CollectionEpoch where
  get : Nat
  pos : 0 < get
  lt : get < 2 ^ 32

namespace CollectionEpoch

instance : DecidableEq CollectionEpoch := fun _ _ => decidable_of_iff' _ CollectionEpoch.ext_iff

/-- The first epoch. -/
def initial : CollectionEpoch := ⟨1, Nat.one_pos, one_lt_word⟩

/-- The following epoch, or nothing when the 32 bits are used up. -/
def next (e : CollectionEpoch) : Option CollectionEpoch :=
  if h : e.get + 1 < 2 ^ 32 then some ⟨e.get + 1, Nat.succ_pos _, h⟩ else none

theorem get_next {e e' : CollectionEpoch} (h : e.next = some e') : e'.get = e.get + 1 := by
  unfold next at h
  split at h
  · cases h
    rfl
  · cases h

end CollectionEpoch

/-! ## Spaces and tuning -/

/-- The generation of a whole small span. -/
inductive SpanSpace where
  | eden
  | survivor (age : Nat)
  | old
  deriving DecidableEq

/-- Eden and survivor spans are young. -/
def SpanSpace.isYoung : SpanSpace → Bool
  | .eden => true
  | .survivor _ => true
  | .old => false

/-- Age at which a survivor span is promoted. -/
def youngPromotionAge : Nat := 2

/-- Percentage of live slots from which a young span is promoted early. -/
def earlyPromotionOccupancyPercent : Nat := 80

/-- The segregated size classes of the allocator. -/
def smallSizeClasses : List Nat :=
  [16, 32, 48, 64, 80, 96, 112, 128, 160, 192, 224, 256, 320, 384, 448, 512, 640, 768, 896, 1024,
    1280, 1536, 1792, 2048, 2560, 3072, 3584, 4096]

/-- Dense live spans are promoted before their age. -/
def shouldPromoteEarly (liveSlots totalSlots : Nat) : Bool :=
  decide (liveSlots ≠ 0) &&
    decide (totalSlots * earlyPromotionOccupancyPercent ≤ liveSlots * 100)

/-- Whether a cohort reaches the promotion age with its next survival. Ages are
8-bit and saturate. -/
def promotionDueToAge (space : SpanSpace) (promotionAge : Nat) : Bool :=
  match space with
  | .eden => decide (promotionAge ≤ 1)
  | .survivor age => decide (promotionAge ≤ min (age + 1) 255)
  | .old => false

/-! ## Bitmaps -/

/-- Mark bits of one epoch; under any other epoch they are white. -/
structure MarkBitmap where
  epoch : Option CollectionEpoch
  bits : Finset SlotIndex

namespace MarkBitmap

/-- A white bitmap. -/
def new : MarkBitmap := { epoch := none, bits := ∅ }

def isMarked (m : MarkBitmap) (slot : SlotIndex) (epoch : CollectionEpoch) : Bool :=
  decide (m.epoch = some epoch) && decide (slot ∈ m.bits)

/-- Drops stale bits, marks the slot, and tells whether it was white. -/
def mark (m : MarkBitmap) (slot : SlotIndex) (epoch : CollectionEpoch) : Bool × MarkBitmap :=
  let bits := if m.epoch = some epoch then m.bits else ∅
  (decide (slot ∉ bits), { epoch := some epoch, bits := insert slot bits })

/-- Marks of the epoch. -/
def markedCount (m : MarkBitmap) (epoch : CollectionEpoch) : Nat :=
  if m.epoch = some epoch then m.bits.card else 0

theorem isMarked_mark (m : MarkBitmap) (slot slot' : SlotIndex) (epoch : CollectionEpoch) :
    (m.mark slot epoch).2.isMarked slot' epoch =
      (decide (slot' = slot) || m.isMarked slot' epoch) := by
  unfold mark isMarked
  by_cases he : m.epoch = some epoch
  · by_cases hs : slot' = slot <;> simp [he]
  · by_cases hs : slot' = slot <;> simp [he, hs]

end MarkBitmap

/-- Remembered-set cards. -/
structure CardBitmap where
  cards : Finset (Fin cardsPerSpan)

namespace CardBitmap

/-- A clean card table. -/
def new : CardBitmap := { cards := ∅ }

/-- The card that covers an offset. -/
def cardOf (offset : SpanOffset) : Fin cardsPerSpan := ⟨offset.get / cardSizeBytes, by
    have h := offset.lt
    unfold cardSizeBytes cardsPerSpan
    omega⟩

/-- Marks the card of an offset and tells whether it was clean. -/
def mark (c : CardBitmap) (offset : SpanOffset) : Bool × CardBitmap :=
  (decide (cardOf offset ∉ c.cards), { cards := insert (cardOf offset) c.cards })

def isDirty (c : CardBitmap) (offset : SpanOffset) : Bool :=
  decide (cardOf offset ∈ c.cards)

def dirtyCount (c : CardBitmap) : Nat := c.cards.card

theorem isDirty_mark (c : CardBitmap) (off off' : SpanOffset) : (c.mark off).2.isDirty off' =
      (decide (cardOf off' = cardOf off) || c.isDirty off') := by
  unfold mark isDirty
  by_cases h : cardOf off' = cardOf off <;> simp [h]

end CardBitmap

/-! ## Side metadata -/

/-- Side metadata of one homogeneous small span. -/
structure SmallSpanMetadata where
  sizeClass : SizeClass
  space : SpanSpace
  allocations : Finset SlotIndex
  marks : MarkBitmap
  cards : CardBitmap
  bumpCursor : Nat
  freeListHead : Option SlotIndex
  reuseGeneration : Nat
  allocatedSlots : Nat
  allocatedBytes : Nat

namespace SmallSpanMetadata

/-- Metadata of an empty span. -/
def new (sizeClass : SizeClass) (space : SpanSpace) (reuseGeneration : Nat) :
    SmallSpanMetadata :=
  { sizeClass := sizeClass
    space := space
    allocations := ∅
    marks := .new
    cards := .new
    bumpCursor := 0
    freeListHead := none
    reuseGeneration := reuseGeneration
    allocatedSlots := 0
    allocatedBytes := 0 }

/-- Whether the cohort can take one more object. -/
def hasAllocationCapacity (m : SmallSpanMetadata) : Bool :=
  match m.space with
  | .survivor _ => false
  | .eden => decide (m.bumpCursor < m.sizeClass.slotCount)
  | .old => m.freeListHead.isSome || decide (m.bumpCursor < m.sizeClass.slotCount)

/-- Takes the next slot that was never used. -/
def takeBumpSlot (m : SmallSpanMetadata) : Option (SlotIndex × SmallSpanMetadata) :=
  if h : m.bumpCursor < m.sizeClass.slotCount then
    some (⟨m.bumpCursor, lt_of_lt_of_le h m.sizeClass.slotCount_le⟩,
      { m with bumpCursor := m.bumpCursor + 1 })
  else none

/-- Publishes an initialized object; nothing when the slot is live already, where
the source asserts. -/
def commitAllocation (m : SmallSpanMetadata) (slot : SlotIndex) : Option SmallSpanMetadata :=
  if slot ∈ m.allocations then none
  else
    some
      { m with
        allocations := insert slot m.allocations
        allocatedSlots := m.allocatedSlots + 1
        allocatedBytes := m.allocatedBytes + m.sizeClass.slotSize }

/-- Removes a dropped object; nothing when the slot holds none. -/
def reclaimAllocation (m : SmallSpanMetadata) (slot : SlotIndex) : Option SmallSpanMetadata :=
  if slot ∈ m.allocations then
    some
      { m with
        allocations := m.allocations.erase slot
        allocatedSlots := m.allocatedSlots - 1
        allocatedBytes := m.allocatedBytes - m.sizeClass.slotSize }
  else none

theorem reclaimAllocation_eq_some {m m' : SmallSpanMetadata} {slot : SlotIndex}
    (h : m.reclaimAllocation slot = some m') :
    slot ∈ m.allocations ∧ m' =
        { m with
          allocations := m.allocations.erase slot
          allocatedSlots := m.allocatedSlots - 1
          allocatedBytes := m.allocatedBytes - m.sizeClass.slotSize } := by
  unfold reclaimAllocation at h
  split at h
  next hm =>
    exact ⟨hm, (Option.some.inj h).symm⟩
  · cases h

/-- The allocated slots of the class. -/
def liveSlots (m : SmallSpanMetadata) : Finset SlotIndex :=
  m.allocations.filter fun slot => slot.val < m.sizeClass.slotCount

theorem mem_liveSlots {m : SmallSpanMetadata} {slot : SlotIndex} :
    slot ∈ m.liveSlots ↔ slot ∈ m.allocations ∧ slot.val < m.sizeClass.slotCount := by
  exact Finset.mem_filter

/-- The next allocated slot and its offset. An allocated slot outside the class,
at which the source panics, ends the scan; it lies behind every slot of the
class. -/
def nextAllocated (m : SmallSpanMetadata) (start : Nat) : Option (SlotIndex × SpanOffset) :=
  match nextSet m.allocations start with
  | none => none
  | some slot => (m.sizeClass.offsetForSlot slot).map fun offset => (slot, offset)

/-- Scanning the allocation bits finds the slots of the class in order. -/
theorem nextAllocated_fst (m : SmallSpanMetadata) (start : Nat) :
    (m.nextAllocated start).map (·.1) = nextSet m.liveSlots start := by
  unfold nextAllocated
  cases hn : nextSet m.allocations start with
  | none =>
    symm
    rw [Option.map_none, nextSet_eq_none]
    intro i hi
    exact nextSet_eq_none.mp hn i (mem_liveSlots.mp hi).1
  | some slot =>
    obtain ⟨hm, hst, hleast⟩ := nextSet_facts hn
    simp only [Option.map_map]
    cases hoff : m.sizeClass.offsetForSlot slot with
    | none =>
      -- Every slot of the class behind `start` would come before this one.
      symm
      rw [Option.map_none, nextSet_eq_none]
      intro i hi
      obtain ⟨hi, hc⟩ := mem_liveSlots.mp hi
      apply Nat.lt_of_not_le
      intro hi'
      have hle := hleast i hi hi'
      have hsl : slot.val < m.sizeClass.slotCount := by
        omega
      have hsome := SizeClass.offsetForSlot_isSome.mpr hsl
      rw [hoff] at hsome
      cases hsome
    | some off =>
      have hc := (SizeClass.offsetForSlot_eq_some.mp hoff).1
      have hf : slot ∈ m.liveSlots := mem_liveSlots.mpr ⟨hm, hc⟩
      cases hlive : nextSet m.liveSlots start with
      | none =>
        exact absurd hst (Nat.not_le_of_lt (nextSet_eq_none.mp hlive slot hf))
      | some i =>
        obtain ⟨hi, histart, hileast⟩ := nextSet_facts hlive
        have h1 : i ≤ slot := hileast slot hf hst
        have h2 : slot ≤ i := hleast i (mem_liveSlots.mp hi).1 histart
        exact congrArg some (le_antisymm h2 h1)

theorem nextAllocated_eq (m : SmallSpanMetadata) (start : Nat) : m.nextAllocated start =
      (nextSet m.liveSlots start).map fun slot => (slot, m.sizeClass.slotOffset slot) := by
  have hfst := m.nextAllocated_fst start
  cases hf : m.nextAllocated start with
  | none =>
    rw [hf] at hfst
    rw [← hfst]
    rfl
  | some found =>
    rw [hf] at hfst
    rw [← hfst]
    unfold nextAllocated at hf
    cases hn : nextSet m.allocations start with
    | none =>
      rw [hn] at hf
      cases hf
    | some slot' =>
      rw [hn] at hf
      simp only [Option.map_eq_some_iff] at hf
      obtain ⟨off', hoff, rfl, rfl⟩ := hf
      simp [SizeClass.slotOffset, hoff]

/-- The next allocated slot whose card is dirty: the scan goes on past clean
ones. -/
def nextDirty (m : SmallSpanMetadata) : Nat → Nat → Option (SlotIndex × SpanOffset)
  | 0, _ => none
  | fuel + 1, start =>
    match m.nextAllocated start with
    | none => none
    | some (slot, offset) =>
      if m.cards.isDirty offset then some (slot, offset) else m.nextDirty fuel (slot.val + 1)

/-- The allocated slots on dirty cards. -/
def dirtySlots (m : SmallSpanMetadata) : Finset SlotIndex :=
  m.liveSlots.filter fun slot => m.cards.isDirty (m.sizeClass.slotOffset slot) = true

theorem nextDirty_eq (m : SmallSpanMetadata) {fuel start : Nat}
    (hfuel : maxSmallObjectSlots < fuel + start) : m.nextDirty fuel start =
      (nextSet m.dirtySlots start).map fun slot => (slot, m.sizeClass.slotOffset slot) := by
  induction fuel generalizing start with
  | zero =>
    have hn : nextSet m.dirtySlots start = none := by
      rw [nextSet_eq_none]
      intro i _
      omega
    rw [hn]
    rfl
  | succ fuel ih =>
    simp only [nextDirty, nextAllocated_eq]
    cases hnx : nextSet m.liveSlots start with
    | none =>
      have hn : nextSet m.dirtySlots start = none := by
        rw [nextSet_eq_none] at hnx ⊢
        intro i hi
        exact hnx i (Finset.mem_filter.mp hi).1
      rw [hn]
      rfl
    | some slot =>
      obtain ⟨-, hst, -⟩ := nextSet_facts hnx
      simp only [Option.map_some]
      unfold dirtySlots
      rw [nextSet_filter hnx]
      split
      · rfl
      · rw [ih (by omega)]
        rfl

end SmallSpanMetadata

/-- Owner metadata of one large object. -/
structure LargeSpanMetadata where
  spanCount : Nat
  objectBytes : Nat
  allocated : Bool
  markEpoch : Option CollectionEpoch
  remembered : Bool
  reuseGeneration : Nat

namespace LargeSpanMetadata

/-- Large objects are born allocated, white and remembered. -/
def new (spanCount objectBytes reuseGeneration : Nat) : LargeSpanMetadata :=
  { spanCount := spanCount
    objectBytes := objectBytes
    allocated := true
    markEpoch := none
    remembered := true
    reuseGeneration := reuseGeneration }

def isMarked (m : LargeSpanMetadata) (epoch : CollectionEpoch) : Bool :=
  decide (m.markEpoch = some epoch)

/-- Marks the object and tells whether it was white. -/
def mark (m : LargeSpanMetadata) (epoch : CollectionEpoch) : Bool × LargeSpanMetadata :=
  (!m.isMarked epoch, { m with markEpoch := some epoch })

/-- Unpublishes the object. -/
def reclaim (m : LargeSpanMetadata) : LargeSpanMetadata :=
  { m with allocated := false, markEpoch := none }

end LargeSpanMetadata

/-! ## Storage -/

/-- Header and traced fields at one object offset. -/
structure Cell where
  header : GcHeader
  payload : List TraceField

/-- Fresh storage is zeroed. -/
def Cell.zero : Cell := { header := .zero, payload := [] }

/-- A rejected payload access. -/
inductive SpanStorageAccessError where
  | misalignedObjectOffset (offset : SpanOffset)
  | objectCrossesSpanEnd (offset : SpanOffset)
  | invalidPayloadLayout (error : SmallObjectLayoutError)
  | payloadAlignmentTooLarge (alignment : Nat)

/-- The backing store of a span, or of the whole range of a large object. -/
structure SpanStorage where
  spanCount : Nat
  cells : SpanOffset → Cell

namespace SpanStorage

/-- Zeroed storage of some spans. -/
def new (spanCount : Nat) : SpanStorage :=
  { spanCount := spanCount, cells := fun _ => .zero }

/-- Bytes of the store. -/
def len (s : SpanStorage) : Nat := s.spanCount * spanSizeBytes

/-- Repeats the alignment and bounds checks of an object of this payload layout. -/
def checkedPayloadOffset (s : SpanStorage) (offset : SpanOffset) (payload : Layout) :
    Except SpanStorageAccessError Nat :=
  match ObjectLayout.forPayloadLayout payload with
  | .error e => .error (.invalidPayloadLayout e)
  | .ok layout =>
    if minimumSlotSizeBytes < layout.alignment then
      .error (.payloadAlignmentTooLarge layout.alignment)
    else if offset.get % minimumSlotSizeBytes ≠ 0 then .error (.misalignedObjectOffset offset)
    else if s.len < offset.get + layout.allocationSize then
      .error (.objectCrossesSpanEnd offset)
    else .ok (offset.get + layout.payloadOffset)

/-- Writes a complete object after the same checks. -/
def initializeObject (s : SpanStorage) (offset : SpanOffset) (payloadLayout : Layout)
    (header : GcHeader) (payload : List TraceField) : Except SpanStorageAccessError SpanStorage :=
  match s.checkedPayloadOffset offset payloadLayout with
  | .error e => .error e
  | .ok _ =>
    .ok { s with cells := Function.update s.cells offset { header := header, payload := payload } }

/-- Replaces the traced fields at an offset. -/
def setPayload (s : SpanStorage) (offset : SpanOffset) (payload : List TraceField) : SpanStorage :=
  { s with cells := Function.update s.cells offset { s.cells offset with payload := payload } }

/-- Writes a free-list link over the type field of a dead slot: the slot plus one,
or zero at the end of the list. -/
def writeFreeNext (s : SpanStorage) (offset : SpanOffset) (next : Option SlotIndex) :
    SpanStorage :=
  let encoded := match next with
    | none => 0
    | some slot => slot.val + 1
  let cell := s.cells offset
  { s with
    cells := Function.update s.cells offset
      { cell with header := { cell.header with typeIdField := encoded } } }

/-- Reads a free-list link back. -/
def readFreeNext (s : SpanStorage) (offset : SpanOffset) : Option SlotIndex :=
  let encoded := (s.cells offset).header.typeIdField
  if h : 0 < encoded ∧ encoded - 1 < maxSmallObjectSlots then some ⟨encoded - 1, h.2⟩ else none

end SpanStorage

end TachyonEngine.Gc
