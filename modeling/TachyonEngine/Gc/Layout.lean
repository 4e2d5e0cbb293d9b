import Mathlib

/-!
# Heap addresses, slots and object layouts

The fixed representation of the heap: 64 KiB spans with a reserved first slot, a
logical address made of a span and a nonzero offset, homogeneous size classes
whose slots start behind the reserved one, and the header and payload placement
of an object. `SizeClass.slotForOffset_eq_some` reads an offset back to its slot
and `SizeClass.offsetForSlot_eq_some` is its inverse.

Span identifiers are indices of the span table, which never grows past
`maxLogicalSpans` entries; they are natural numbers here.
-/

namespace TachyonEngine.Gc

/-! ## Constants -/

/-- Bytes of one span. -/
def spanSizeBytes : Nat := 64 * 1024

/-- Entries the span table may have. -/
def maxLogicalSpans : Nat := 2 ^ 16

/-- Bytes of the smallest slot, and of the reserved region of every span. -/
def minimumSlotSizeBytes : Nat := 16

/-- Slots of the smallest size class. -/
def maxSmallObjectSlots : Nat := 4095

/-- Bytes covered by one remembered-set card. -/
def cardSizeBytes : Nat := 512

/-- Cards of one span. -/
def cardsPerSpan : Nat := 128

/-- Objects the 32-bit logical address space can hold. -/
def maxLogicalObjectCount : Nat := 2 ^ 32 / minimumSlotSizeBytes

theorem one_lt_word : 1 < 2 ^ 32 := by decide

/-- The header flag that reserves `aux` for an external backing charge. -/
def gcHeaderExternalBytesFlag : Nat := 2 ^ 15

/-! ## Logical addresses -/

/-- The index of a span in the span table. -/
abbrev SpanId := Nat

/-- A nonzero byte offset inside a span. -/
structure SpanOffset where
  get : Nat
  pos : 0 < get
  lt : get < 2 ^ 16
  deriving DecidableEq

namespace SpanOffset

/-- The offset with this value, if it is one. -/
def new (value : Nat) : Option SpanOffset :=
  if h : 0 < value ∧ value < 2 ^ 16 then some ⟨value, h.1, h.2⟩ else none

theorem ext_get {a b : SpanOffset} (h : a.get = b.get) : a = b := by
  cases b
  cases h
  rfl

theorem new_eq_some {val : Nat} {off : SpanOffset} : new val = some off ↔ off.get = val := by
  unfold new
  constructor
  · intro h
    split at h
    · cases h
      rfl
    · cases h
  · rintro rfl
    rw [dif_pos ⟨off.pos, off.lt⟩]

end SpanOffset

/-- The offset of the first slot, where a large object lives. -/
def firstOffset : SpanOffset := ⟨minimumSlotSizeBytes, by decide, by decide⟩

/-- A logical heap address. -/
structure RawHeapRef where
  spanId : SpanId
  spanOffset : SpanOffset
  deriving DecidableEq

/-! ## Slots and size classes -/

/-- An index into the allocation and mark bitmaps. -/
abbrev SlotIndex := Fin maxSmallObjectSlots

/-- A homogeneous slot size: a multiple of the smallest one. -/
structure SizeClass where
  slotSize : Nat
  minimum_le : minimumSlotSizeBytes ≤ slotSize
  aligned : slotSize % minimumSlotSizeBytes = 0
  lt : slotSize < 2 ^ 16

namespace SizeClass

/-- The class of a slot size, if it is one. -/
def new (slotSize : Nat) : Option SizeClass :=
  if h : minimumSlotSizeBytes ≤ slotSize ∧ slotSize % minimumSlotSizeBytes = 0 ∧
      slotSize < 2 ^ 16 then
    some ⟨slotSize, h.1, h.2.1, h.2.2⟩
  else none

/-- Complete slots behind the reserved region. -/
def slotCount (c : SizeClass) : Nat := (spanSizeBytes - minimumSlotSizeBytes) / c.slotSize

theorem slotSize_pos (c : SizeClass) : 0 < c.slotSize := by
  have h := c.minimum_le
  unfold minimumSlotSizeBytes at h
  omega

theorem slotCount_le (c : SizeClass) : c.slotCount ≤ maxSmallObjectSlots := by
  have h : c.slotCount ≤ (spanSizeBytes - minimumSlotSizeBytes) / minimumSlotSizeBytes :=
    Nat.div_le_div_left c.minimum_le (by decide)
  exact le_trans h (by decide)

/-- Where a slot of the class starts. -/
def offsetForSlot (c : SizeClass) (slot : SlotIndex) : Option SpanOffset :=
  if c.slotCount ≤ slot.val then none
  else SpanOffset.new ((minimumSlotSizeBytes + slot.val * c.slotSize) % 2 ^ 16)

/-- The slot that starts at an offset. -/
def slotForOffset (c : SizeClass) (off : SpanOffset) : Option SlotIndex :=
  if off.get < minimumSlotSizeBytes then none
  else
    let relative := off.get - minimumSlotSizeBytes
    if relative % c.slotSize ≠ 0 then none
    else
      let slot := relative / c.slotSize
      if slot < c.slotCount then
        if h : slot < maxSmallObjectSlots then some ⟨slot, h⟩ else none
      else none

theorem slot_end_le (c : SizeClass) {slot : Nat} (h : slot < c.slotCount) :
    minimumSlotSizeBytes + slot * c.slotSize + c.slotSize ≤ spanSizeBytes := by
  have hmul : c.slotCount * c.slotSize ≤ spanSizeBytes - minimumSlotSizeBytes :=
    Nat.div_mul_le_self _ _
  have hsucc : (slot + 1) * c.slotSize ≤ c.slotCount * c.slotSize := Nat.mul_le_mul_right _ h
  rw [Nat.succ_mul] at hsucc
  unfold spanSizeBytes minimumSlotSizeBytes at *
  omega

variable {c : SizeClass} {off : SpanOffset} {slot : SlotIndex}

theorem slotForOffset_eq_some : c.slotForOffset off = some slot ↔
      slot.val < c.slotCount ∧ off.get = minimumSlotSizeBytes + slot.val * c.slotSize := by
  have hpos := c.slotSize_pos
  unfold slotForOffset
  constructor
  · intro h
    split_ifs at h
    simp only [ite_not] at h
    split at h
    · split at h
      · split at h
        · cases h
          have hdiv := Nat.div_add_mod (off.get - minimumSlotSizeBytes) c.slotSize
          rw [Nat.mul_comm] at hdiv
          simp only
          omega
        · cases h
      · cases h
    · cases h
  · rintro ⟨hc, hoff⟩
    have hrel : off.get - minimumSlotSizeBytes = slot.val * c.slotSize := by omega
    rw [if_neg (by omega)]
    simp only [hrel, Nat.mul_mod_left, ne_eq, not_true_eq_false, if_false,
      Nat.mul_div_left _ hpos, hc, if_true, slot.isLt, dif_pos]

theorem offsetForSlot_eq_some : c.offsetForSlot slot = some off ↔
      slot.val < c.slotCount ∧ off.get = minimumSlotSizeBytes + slot.val * c.slotSize := by
  unfold offsetForSlot
  by_cases hc : c.slotCount ≤ slot.val
  · rw [if_pos hc]
    constructor
    · intro h
      cases h
    · omega
  · rw [if_neg hc, SpanOffset.new_eq_some]
    have hend := c.slot_end_le (Nat.lt_of_not_le hc)
    have hpos := c.slotSize_pos
    have hmod : (minimumSlotSizeBytes + slot.val * c.slotSize) % 2 ^ 16 =
        minimumSlotSizeBytes + slot.val * c.slotSize := by
      apply Nat.mod_eq_of_lt
      unfold spanSizeBytes at hend
      omega
    rw [hmod]
    constructor
    · intro h
      exact ⟨Nat.lt_of_not_le hc, h⟩
    · exact fun h => h.2

/-- Slots and offsets of a class name each other. -/
theorem offsetForSlot_iff_slotForOffset :
    c.offsetForSlot slot = some off ↔ c.slotForOffset off = some slot :=
  offsetForSlot_eq_some.trans slotForOffset_eq_some.symm

theorem offsetForSlot_isSome : (c.offsetForSlot slot).isSome = true ↔ slot.val < c.slotCount := by
  rw [Option.isSome_iff_exists]
  constructor
  · rintro ⟨off, h⟩
    exact (offsetForSlot_eq_some.mp h).1
  · intro h
    have hend := c.slot_end_le h
    have hpos := c.slotSize_pos
    have hlt : minimumSlotSizeBytes + slot.val * c.slotSize < 2 ^ 16 := by
      unfold spanSizeBytes at hend
      omega
    have hpos' : 0 < minimumSlotSizeBytes + slot.val * c.slotSize := by
      unfold minimumSlotSizeBytes
      omega
    exact ⟨⟨_, hpos', hlt⟩, offsetForSlot_eq_some.mpr ⟨h, rfl⟩⟩

/-- The offset of a slot of the class. -/
def slotOffset (c : SizeClass) (slot : SlotIndex) : SpanOffset :=
  (c.offsetForSlot slot).getD firstOffset

/-- The slots of the class and their offsets determine each other. -/
theorem slotForOffset_slotOffset (h : slot.val < c.slotCount) :
    c.slotForOffset (c.slotOffset slot) = some slot := by
  have hsome := offsetForSlot_isSome.mpr h
  obtain ⟨off, hoff⟩ := Option.isSome_iff_exists.mp hsome
  unfold slotOffset
  rw [hoff]
  exact offsetForSlot_iff_slotForOffset.mp hoff

theorem slotOffset_of_slotForOffset (h : c.slotForOffset off = some slot) :
    c.slotOffset slot = off := by
  unfold slotOffset
  rw [offsetForSlot_iff_slotForOffset.mpr h]
  rfl

/-- Two slots at one offset are one slot. -/
theorem slot_unique {a b : SlotIndex} (ha : c.slotForOffset off = some a)
    (hb : c.slotForOffset off = some b) : a = b := by
  rw [ha] at hb
  exact Option.some.inj hb

end SizeClass

/-! ## Object layouts -/

/-- Size and alignment of a payload type. -/
structure Layout where
  size : Nat
  align : Nat

/-- Why a payload cannot be placed. -/
inductive SmallObjectLayoutError where
  | alignmentTooLarge (alignment : Nat)
  | sizeTooLarge (size : Nat)

/-- Placement of header and payload in one object. -/
structure ObjectLayout where
  payloadOffset : Nat
  allocationSize : Nat
  alignment : Nat

/-- The next multiple of `m` from `n` on. -/
def nextMultipleOf (n m : Nat) : Nat := (n + m - 1) / m * m

/-- Places a payload behind the eight-byte header and rounds the object to whole
minimum slots. A layout of more than `isize::MAX` bytes is refused. -/
def ObjectLayout.forPayloadLayout (payload : Layout) :
    Except SmallObjectLayoutError ObjectLayout :=
  let payloadOffset := nextMultipleOf 8 payload.align
  let alignment := max 4 payload.align
  let combined := nextMultipleOf (payloadOffset + payload.size) alignment
  if 2 ^ 63 ≤ combined then .error (.sizeTooLarge payload.size)
  else
    .ok
      { payloadOffset := payloadOffset
        allocationSize := nextMultipleOf (max combined minimumSlotSizeBytes) minimumSlotSizeBytes
        alignment := alignment }

/-- Placement inside one small slot. -/
structure SmallObjectLayout where
  payloadOffset : Nat
  slotSize : Nat

/-- The slot a payload type needs, when it fits in 16 bits and its alignment is
that of a slot at most. -/
def SmallObjectLayout.forType (payload : Layout) :
    Except SmallObjectLayoutError SmallObjectLayout :=
  match ObjectLayout.forPayloadLayout payload with
  | .error e => .error e
  | .ok layout =>
    if minimumSlotSizeBytes < layout.alignment then .error (.alignmentTooLarge layout.alignment)
    else if 2 ^ 16 ≤ layout.payloadOffset then .error (.sizeTooLarge layout.allocationSize)
    else if 2 ^ 16 ≤ layout.allocationSize then .error (.sizeTooLarge layout.allocationSize)
    else .ok { payloadOffset := layout.payloadOffset, slotSize := layout.allocationSize }

/-! ## Headers and descriptors -/

/-- A nonzero descriptor index. -/
structure GcTypeId where
  index : Nat
  pos : 0 < index
  deriving DecidableEq

/-- The descriptor index with this value; zero is reserved. -/
def GcTypeId.new (value : Nat) : Option GcTypeId :=
  if h : 0 < value then some ⟨value, h⟩ else none

/-- The eight-byte prefix of every object. -/
structure GcHeader where
  typeIdField : Nat
  flags : Nat
  aux : Nat

namespace GcHeader

/-- A header of an initialized object. -/
def new (typeId : GcTypeId) (flags aux : Nat) : GcHeader :=
  { typeIdField := typeId.index, flags := flags, aux := aux }

/-- The bytes of storage that holds no object. -/
def zero : GcHeader := { typeIdField := 0, flags := 0, aux := 0 }

/-- The descriptor index, when the header is initialized. -/
def typeId (h : GcHeader) : Option GcTypeId := GcTypeId.new h.typeIdField

/-- The external backing charge encoded in the header. -/
def externalBytes (h : GcHeader) : Option Nat :=
  if h.flags / gcHeaderExternalBytesFlag % 2 = 0 then none else some h.aux

end GcHeader

/-- Generation policy of a payload type. -/
inductive GcAllocationPolicy where
  | youngEligible
  | oldOnly
  deriving DecidableEq

/-- Immutable metadata of a payload type. The trace and drop callbacks are those
of the payload itself: a payload is modelled by the fields its trace visits. -/
structure TypeDescriptor where
  typeId : GcTypeId
  layout : Layout
  allocationPolicy : GcAllocationPolicy

/-- A registered descriptor with the identity of its Rust type. -/
structure TypeEntry where
  rustTypeId : Nat
  descriptor : TypeDescriptor

/-- A registration token paired with its payload type. -/
abbrev GcType := TypeEntry

/-- The descriptor table of a heap. -/
structure TypeRegistry where
  entries : List TypeEntry

namespace TypeRegistry

/-- The descriptor behind a header index. -/
def descriptor (types : TypeRegistry) (typeId : GcTypeId) : Option TypeDescriptor :=
  (types.entries[typeId.index - 1]?).map (·.descriptor)

/-- Whether a token belongs to this registry. -/
def matchesType (types : TypeRegistry) (objectType : GcType) : Bool :=
  match types.entries[objectType.descriptor.typeId.index - 1]? with
  | none => false
  | some entry => entry.rustTypeId == objectType.rustTypeId

end TypeRegistry

/-! ## Traced values -/

/-- Immediate JavaScript values. -/
inductive Immediate where
  | undefined
  | null
  | false
  | true
  | hole
  | uninitialized

/-- A NaN-boxed value, as far as the collector looks into it. -/
inductive Value where
  | heapRef (reference : RawHeapRef)
  | immediate (i : Immediate)
  | number (bits : Nat)

namespace Value

/-- The value of cleared slots. -/
def undefined : Value := .immediate .undefined

/-- The heap reference in a value. -/
def asHeapRef : Value → Option RawHeapRef
  | .heapRef reference => some reference
  | .immediate _ => none
  | .number _ => none

end Value

/-- One edge-carrying field of a payload, by the tracer callback that visits it. -/
inductive TraceField where
  | value (value : Value)
  | rawHeapRef (reference : RawHeapRef)
  | weak (target : Option RawHeapRef)
  | ephemeron (key : Option RawHeapRef) (value : Value)
  | finalization (target : Option RawHeapRef) (heldValue : Value)

/-- Every direct edge of a field, weak or strong, in the order of its trace. -/
def TraceField.refs : TraceField → List RawHeapRef
  | .value v => v.asHeapRef.toList
  | .rawHeapRef reference => [reference]
  | .weak target => target.toList
  | .ephemeron key v => key.toList ++ v.asHeapRef.toList
  | .finalization target heldValue => target.toList ++ heldValue.asHeapRef.toList

/-- Every direct edge of a payload. -/
def payloadRefs (fields : List TraceField) : List RawHeapRef := fields.flatMap TraceField.refs

end TachyonEngine.Gc
