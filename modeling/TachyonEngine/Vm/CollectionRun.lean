import TachyonEngine.Vm.CollectionLive

/-!
# Maps and Sets under iteration

A session is a collection together with the record of what was done to it. Whatever the order of the
mutations, of the growth of the backing and of the steps of the iterators and scans, the collection
is the map of the record and its iterators are the cursors of the record.
-/

namespace TachyonEngine.Vm

open Lib Lib.Capacity List Option Function

/-! ## Operations -/

inductive CollectionOperation where
  | mapSet (key value : Option Value)
  | mapGetOrInsert (key default : Option Value)
  | mapGetOrInsertComputed (key : Option Value) (value : Value)
  | setAdd (key : Option Value)
  | delete (key : Option Value)
  | clear

namespace CollectionOperation

/-- What an operation is meant to do. -/
def mutation : CollectionOperation → LiveMutation Value Value
  | .mapSet key value => .set (collectionKey key) (value.getD .undefined)
  | .mapGetOrInsert key default => .insert (collectionKey key) (default.getD .undefined)
  | .mapGetOrInsertComputed key value => .set (collectionKey key) value
  | .setAdd key => .insert (collectionKey key) (collectionKey key)
  | .delete key => .delete (collectionKey key)
  | .clear => .clear

end CollectionOperation

namespace CollectionHeap

variable (same : Value → Value → Bool)

/-- Performs an operation and tells whether it succeeded. -/
def perform (heap : CollectionHeap) : CollectionOperation → Bool × CollectionHeap
  | .mapSet key value => ((heap.mapSet same key value).1.isOk, (heap.mapSet same key value).2)
  | .mapGetOrInsert key default =>
    ((heap.mapGetOrInsert same key default).1.isOk, (heap.mapGetOrInsert same key default).2)
  | .mapGetOrInsertComputed key value =>
    ((heap.resumeMapGetOrInsertComputed same key value).1.isOk,
      (heap.resumeMapGetOrInsertComputed same key value).2)
  | .setAdd key => ((heap.setAdd same key).1.isOk, (heap.setAdd same key).2)
  | .delete key => ((heap.deleteEntry same key).1.isOk, (heap.deleteEntry same key).2)
  | .clear => (true, heap.collectionClear)

variable {same} {heap heap' : CollectionHeap}

/-- The same memory, later. -/
structure Later (heap heap' : CollectionHeap) : Prop where
  refuses : heap'.allocator.refuses = heap.allocator.refuses
  requests : heap.allocator.requests ≤ heap'.allocator.requests

theorem Later.refl (heap : CollectionHeap) : heap.Later heap := ⟨rfl, le_refl _⟩

theorem Later.trans {heap'' : CollectionHeap} (h : heap.Later heap') (h' : heap'.Later heap'') :
    heap.Later heap'' :=
  ⟨h'.refuses.trans h.refuses, h.requests.trans h'.requests⟩

/-- No request was refused so far. -/
def Served (heap : CollectionHeap) : Prop :=
  ∀ n < heap.allocator.requests, heap.allocator.refuses n = false

theorem Later.served (h : heap.Later heap') (hserved : heap'.Served) : heap.Served := by
  intro n hn
  rw [← h.refuses]
  exact hserved n (lt_of_lt_of_le hn h.requests)

/-- The next request is granted. -/
def Grants (heap : CollectionHeap) : Prop :=
  heap.allocator.refuses heap.allocator.requests = false

/-- There is a position for one more entry, or the memory for a larger backing. -/
structure HasRoom (heap : CollectionHeap) : Prop where
  small : heap.storage.used + 1 < 2 ^ 32
  room : heap.storage.used < heap.storage.entries.length ∨
    0 < heap.storage.entries.length ∧ heap.storage.entries.length * 2 < 2 ^ 64 ∧
      heap.Grants ∧ heap.request.2.Grants

/-- An operation on the collection: it changes the map as said if it succeeds, and it fails only for
want of room. -/
structure Changes (heap : CollectionHeap) (after : LiveMap Value Value) (succeeded : Bool)
    (heap' : CollectionHeap) : Prop where
  backed : heap'.storage.Backed
  cursors : heap'.cursors = heap.cursors
  later : heap.Later heap'
  succeeds : heap.HasRoom → succeeded = true
  map : heap'.storage.toLiveMap = if succeeded then after else heap.storage.toLiveMap

theorem Changes.refl (h : heap.storage.Backed) : heap.Changes heap.storage.toLiveMap true heap :=
  ⟨h, rfl, .refl heap, fun _ => rfl, rfl⟩

theorem request_eq {granted : Bool} (h : heap.request = (granted, heap')) :
    heap'.storage = heap.storage ∧ heap'.cursors = heap.cursors ∧ heap.Later heap' := by
  obtain rfl := (Prod.mk.inj h).2
  exact ⟨rfl, rfl, rfl, Nat.le_succ _⟩

theorem request_of_grants (h : heap.Grants) : heap.request = (true,
    { heap with allocator := { heap.allocator with requests :=
    heap.allocator.requests + 1 } }) := by
  rw [Grants] at h
  rw [request, Allocator.request, h]
  rfl

/-- A request that was refused is among those that were made. -/
theorem not_served_of_request (h : heap.request = (false, heap')) : ¬ heap'.Served ∧
    ¬ heap.Grants := by
  obtain ⟨hgranted, rfl⟩ := Prod.mk.inj h
  rw [Bool.not_eq_false'] at hgranted
  refine ⟨fun hserved => ?_, fun hgrants => ?_⟩
  · cases hgranted.symm.trans (hserved heap.allocator.requests (Nat.lt_succ_self _))
  · cases hgranted.symm.trans hgrants

theorem ensureCollectionCapacity_spec (h : heap.storage.Backed) {res : Except CollectionError Unit}
    (hensure : heap.ensureCollectionCapacity = (res, heap')) :
    heap'.storage.Backed ∧ heap'.cursors = heap.cursors ∧ heap.Later heap' ∧
      heap'.storage.toLiveMap = heap.storage.toLiveMap := by
  simp only [ensureCollectionCapacity] at hensure
  split at hensure
  · obtain rfl := (Prod.mk.inj hensure).2
    exact ⟨h, rfl, .refl heap, rfl⟩
  · split at hensure
    · obtain rfl := (Prod.mk.inj hensure).2
      exact ⟨h, rfl, .refl heap, rfl⟩
    · split at hensure
      · obtain rfl := (Prod.mk.inj hensure).2
        exact ⟨h, rfl, .refl heap, rfl⟩
      next replacement hgrown =>
        obtain ⟨hbacked, hmap⟩ := OrderedCollection.growCopy_spec h hgrown
        split at hensure
        next first hfirst =>
          obtain rfl := (Prod.mk.inj hensure).2
          obtain ⟨hsto, hcus, hlater⟩ := request_eq hfirst
          exact ⟨hsto ▸ h, hcus, hlater, by rw [hsto]⟩
        next first hfirst =>
          obtain ⟨hsto, hcus, hlater⟩ := request_eq hfirst
          split at hensure
          next second hsec =>
            obtain rfl := (Prod.mk.inj hensure).2
            obtain ⟨hsto', hcus', hlater'⟩ := request_eq hsec
            exact ⟨(hsto'.trans hsto) ▸ h, hcus'.trans hcus, hlater.trans hlater',
              by rw [hsto', hsto]⟩
          next second hsec =>
            obtain rfl := (Prod.mk.inj hensure).2
            obtain ⟨-, hcus', hlater'⟩ := request_eq hsec
            exact ⟨hbacked, hcus'.trans hcus,
              hlater.trans ⟨hlater'.refuses, hlater'.requests⟩, hmap⟩

theorem ensureCollectionCapacity_ok (h : heap.storage.Backed) (hroom : heap.HasRoom) :
    ∃ grown, heap.ensureCollectionCapacity = (.ok (), grown) ∧ grown.storage.Backed ∧
      grown.storage.used = heap.storage.used ∧
      grown.storage.used < grown.storage.entries.length := by
  by_cases hthere : heap.storage.used < heap.storage.entries.length
  · exact ⟨heap, if_pos hthere, h, rfl, hthere⟩
  · obtain ⟨hpositive, hbound, hfirst, hsecond⟩ := hroom.room.resolve_left hthere
    have hused : heap.storage.used = heap.storage.entries.length :=
      le_antisymm h.room (not_lt.mp hthere)
    have hfits : ¬ heap.storage.entries.length * 2 < heap.storage.used := by omega
    have hcopy : heap.storage.growCopy (heap.storage.entries.length * 2) = some _ :=
      if_neg hfits
    have hgrown : grownEntryCapacity heap.storage.entries.length =
        some (heap.storage.entries.length * 2) := if_pos ⟨hbound, by omega⟩
    refine ⟨{ heap with
      storage := _
      allocator := { heap.allocator with requests := heap.allocator.requests + 1 + 1 } }, ?_,
      (OrderedCollection.growCopy_spec h hcopy).1, rfl, ?_⟩
    · rw [ensureCollectionCapacity, if_neg hthere, hgrown]
      rw [request_of_grants hfirst] at hsecond
      simp only [hcopy, request_of_grants hfirst, request_of_grants hsecond]
    · simp only [length_append, length_take, length_replicate]
      omega

theorem insertEntry_ok (h : heap.storage.Backed) (hroom : heap.HasRoom) (key val : Value) :
    (heap.insertEntry key val).1.isOk = true := by
  obtain ⟨grown, hensure, hbacked, hused, hthere⟩ := ensureCollectionCapacity_ok h hroom
  have hsmall := hroom.small
  have hcounted := hbacked.counted
  have hle : grown.storage.live.length ≤ grown.storage.used := OrderedCollection.live_length_le
  have happend : (grown.storage.append key val).1 = true := by
    rw [OrderedCollection.append, if_pos hthere]
    simp only [OrderedCollection.checkedSucc]
    rw [if_pos (by omega), if_pos (by omega)]
  rw [insertEntry, hensure]
  simp only [collectionAppend]
  cases hres : grown.storage.append key val with
  | mk done post =>
    rw [hres] at happend
    obtain rfl : done = true := happend
    rfl

theorem insertEntry_changes (h : heap.storage.Backed) (key val : Value) :
    heap.Changes (heap.storage.toLiveMap.append key val) (heap.insertEntry key val).1.isOk
      (heap.insertEntry key val).2 := by
  have hok := fun hroom => insertEntry_ok h hroom key val
  simp only [insertEntry] at hok ⊢
  cases hensure : heap.ensureCollectionCapacity with
  | mk res grown =>
    obtain ⟨hbacked, hcus, hlater, hmap⟩ := ensureCollectionCapacity_spec h hensure
    rw [hensure] at hok
    cases res with
    | error err => exact ⟨hbacked, hcus, hlater, hok, hmap⟩
    | ok _ =>
      simp only [collectionAppend] at hok ⊢
      rcases OrderedCollection.append_spec hbacked key val with
        ⟨post, happend, ha, hlive⟩ | ⟨post, happend, ha, hlive⟩
      · rw [happend]
        refine ⟨ha, hcus, ⟨hlater.refuses, hlater.requests⟩, fun _ => rfl, ?_⟩
        rw [← hmap]
        exact hlive
      · rw [happend] at hok ⊢
        exact ⟨ha, hcus, ⟨hlater.refuses, hlater.requests⟩, hok, hlive.trans hmap⟩

variable {key : Value}

/-- An insertion leaves a key alone that is there. -/
theorem insert_changes_there (h : heap.storage.Backed) {idx : Nat} (hfind : collectionFind same
    heap.storage key = some idx) (val : Value) :
    heap.Changes (heap.storage.toLiveMap.apply same (.insert key val)) true heap := by
  have hhas : heap.storage.toLiveMap.has same key = true := by
    rw [← isSome_collectionFind, hfind]
    rfl
  simp only [LiveMap.apply]
  rw [if_pos hhas]
  exact Changes.refl h

theorem insert_changes_missing {val : Value} {succeeded : Bool} (hfind : collectionFind same
    heap.storage key = none) (hchanges : heap.Changes (heap.storage.toLiveMap.append key val)
    succeeded heap') :
    heap.Changes (heap.storage.toLiveMap.apply same (.insert key val)) succeeded heap' := by
  have hn : heap.storage.toLiveMap.has same key = false := by
    rw [← isSome_collectionFind, hfind]
    rfl
  simp only [LiveMap.apply]
  rw [if_neg (Bool.not_eq_true _ ▸ hn)]
  exact hchanges

section Keys

variable (hsame : SameKey same) (h : heap.storage.Backed)
  (hdist : heap.storage.live.Pairwise fun left right => same left.key right.key = false)

include hsame h hdist

theorem upsert_changes (key val : Value) :
    heap.Changes (heap.storage.toLiveMap.apply same (.set key val))
    (heap.upsert same key val).1.isOk (heap.upsert same key val).2 := by
  simp only [upsert, LiveMap.apply]
  rw [← isSome_collectionFind]
  cases hfind : collectionFind same heap.storage key with
  | none => exact insertEntry_changes h key val
  | some idx =>
    obtain ⟨ent, hf, hticket, -, he, hkey⟩ := of_collectionFind hfind
    obtain ⟨post, hupdate, ha, hlive⟩ := OrderedCollection.updateAt_spec h he val
    simp only [collectionUpdate, hupdate]
    refine ⟨ha, rfl, ⟨rfl, le_refl _⟩, fun _ => rfl, ?_⟩
    rw [hlive]
    refine congrArg (LiveMap.mk · heap.storage.toLiveMap.fresh) ?_
    apply map_congr_left
    intro other ho
    have hiff := same_iff_ticket hsame hdist (mem_of_find?_eq_some hf) hkey ho
    rw [hticket] at hiff
    simp only [LiveMap.updated, hiff]

theorem deleteEntry_changes (argument : Option Value) :
    heap.Changes (heap.storage.toLiveMap.apply same (.delete (collectionKey argument)))
      (heap.deleteEntry same argument).1.isOk (heap.deleteEntry same argument).2 := by
  simp only [deleteEntry, LiveMap.apply]
  cases hfind : collectionFind same heap.storage (collectionKey argument) with
  | none =>
    have hn : heap.storage.toLiveMap.has same (collectionKey argument) = false := by
      rw [← isSome_collectionFind, hfind]
      rfl
    have hall : (heap.storage.toLiveMap.entries.filter fun ent =>
        !same ent.key (collectionKey argument)) = heap.storage.toLiveMap.entries := by
      rw [filter_eq_self]
      intro ent he
      rw [(LiveMap.has_eq_false_iff _).mp hn ent he]
      rfl
    rw [hall]
    exact Changes.refl h
  | some idx =>
    obtain ⟨ent, hf, hticket, hused, he, hkey⟩ := of_collectionFind hfind
    obtain ⟨post, hdelete, ha, hlive⟩ := OrderedCollection.deleteAt_spec h he hused
    simp only [collectionDelete, hdelete]
    refine ⟨ha, rfl, ⟨rfl, le_refl _⟩, fun _ => rfl, ?_⟩
    rw [hlive]
    refine congrArg (LiveMap.mk · heap.storage.toLiveMap.fresh) ?_
    apply filter_congr
    intro other ho
    have hiff := same_iff_ticket hsame hdist (mem_of_find?_eq_some hf) hkey ho
    rw [hticket] at hiff
    cases ho' : same other.key (collectionKey argument) with
    | true => simp [hiff.mp ho']
    | false =>
      have hne : other.ticket ≠ idx := by
        intro heq
        rw [hiff.mpr heq] at ho'
        cases ho'
      simp [hne]

/-- Each operation does what it is meant to do, or it fails and changes nothing. -/
theorem perform_changes (operation : CollectionOperation) :
    heap.Changes (heap.storage.toLiveMap.apply same operation.mutation)
      (heap.perform same operation).1 (heap.perform same operation).2 := by
  cases operation with
  | mapSet key val | mapGetOrInsertComputed key val => exact upsert_changes hsame h hdist _ _
  | delete key => exact deleteEntry_changes hsame h hdist key
  | clear =>
    obtain ⟨hbacked, hmap⟩ := OrderedCollection.clear_spec h
    exact ⟨hbacked, rfl, ⟨rfl, le_refl _⟩, fun _ => rfl, hmap⟩
  | mapGetOrInsert key default =>
    simp only [perform, mapGetOrInsert]
    cases hfind : collectionFind same heap.storage (collectionKey key) with
    | some idx =>
      obtain ⟨ent, -, -, -, he, -⟩ := of_collectionFind hfind
      simp only [he]
      exact insert_changes_there h hfind _
    | none =>
      apply insert_changes_missing hfind
      have hchanges := insertEntry_changes h (collectionKey key) (default.getD .undefined)
      cases hinsert : heap.insertEntry (collectionKey key) (default.getD .undefined) with
      | mk res post =>
        rw [hinsert] at hchanges
        cases res with
        | error err | ok _ => exact hchanges
  | setAdd key =>
    simp only [perform, setAdd]
    cases hfind : collectionFind same heap.storage (collectionKey key) with
    | some idx => exact insert_changes_there h hfind _
    | none => exact insert_changes_missing hfind (insertEntry_changes h _ _)

end Keys

theorem delete_ok (h : heap.storage.Backed) (argument : Option Value) :
    (heap.perform same (.delete argument)).1 = true := by
  simp only [perform, deleteEntry]
  cases hfind : collectionFind same heap.storage (collectionKey argument) with
  | none => rfl
  | some idx =>
    obtain ⟨ent, -, -, hused, he, -⟩ := of_collectionFind hfind
    obtain ⟨post, hdelete, -⟩ := OrderedCollection.deleteAt_spec h he hused
    simp only [collectionDelete, hdelete]
    rfl

end CollectionHeap

/-! ## Sessions -/

/-- A collection, the record of what was done to it, and what its iterators and scans handed out. -/
structure CollectionSession where
  heap : CollectionHeap
  record : LiveRecord Value Value
  yields : Nat → List IteratedValue

namespace CollectionSession

variable (same : Value → Value → Bool)

def start (capacity : Nat) (allocator : Allocator) : CollectionSession :=
  { heap := .start capacity allocator, record := .start, yields := fun _ => [] }

/-- A failed operation is not recorded. -/
def operate (sess : CollectionSession) (operation : CollectionOperation) : CollectionSession :=
  match sess.heap.perform same operation with
  | (true, heap) =>
    { sess with heap := heap, record := sess.record.mutate same operation.mutation }
  | (false, heap) => { sess with heap := heap }

def createCursor (sess : CollectionSession) (id : Nat) (kind : Option CollectionIterationKind) :
    CollectionSession :=
  match sess.heap.createCursor id kind with
  | (.ok _, heap) => { sess with heap := heap, record := sess.record.openCursor id }
  | (.error _, heap) => { sess with heap := heap }

/-- The outcome of a step of an iterator or a scan. An error says that there was no memory for the
result of the call, which takes its entry all the same. -/
def advanced (sess : CollectionSession) (id : Nat) :
    Except CollectionError (Option IteratedValue) × CollectionHeap → CollectionSession
  | (.ok (some value), heap) =>
    { heap := heap
      record := sess.record.advance id true
      yields := Function.update sess.yields id (sess.yields id ++ [value]) }
  | (.ok none, heap) =>
    { sess with heap := heap, record := sess.record.advance id true }
  | (.error _, heap) =>
    { sess with heap := heap, record := sess.record.advance id false }

/-- Operations, new iterators and scans, and their steps, in any order. -/
inductive Step (sess : CollectionSession) : CollectionSession → Prop where
  | operate (operation : CollectionOperation) : Step sess (sess.operate same operation)
  | createCursor (id : Nat) (kind : Option CollectionIterationKind)
      (unused : sess.heap.cursors id = none) : Step sess (sess.createCursor id kind)
  | next (id : Nat) (cursor : CollectionCursor) (kind : CollectionIterationKind)
      (used : sess.heap.cursors id = some cursor) (iterator : cursor.kind = some kind) :
      Step sess (sess.advanced id (sess.heap.collectionIteratorNext id))
  | forEach (id : Nat) (cursor : CollectionCursor)
      (used : sess.heap.cursors id = some cursor) (scan : cursor.kind = none) :
      Step sess (sess.advanced id (sess.heap.advanceCollectionForEach id))

/-! ## The collection is the map of its record -/

/-- What a cursor handed out of what it took. -/
def handed (cursor : CollectionCursor) (taken : List (LiveTake Value Value)) : List IteratedValue :=
  (taken.filter LiveTake.delivered).map fun take =>
    (cursor.kind.getD .keyAndValue).result ⟨take.entry.key, take.entry.value⟩

/-- An iterator or a scan is at the place of a cursor of the record. -/
inductive Tracks : Option CollectionCursor → Option (LiveCursor Value Value) →
    List IteratedValue → Prop where
  | unused : Tracks none none []
  | used {cursor : CollectionCursor} {recorded : LiveCursor Value Value}
      {yields : List IteratedValue} (attached : cursor.attached = recorded.finished.isNone)
      (position : recorded.finished = none → cursor.nextIndex = recorded.next)
      (yielded : yields = handed cursor recorded.taken) :
      Tracks (some cursor) (some recorded) yields

structure Refines (sess : CollectionSession) : Prop where
  backed : sess.heap.storage.Backed
  canonical : ∀ entry ∈ sess.heap.storage.live, collectionKey (some entry.key) = entry.key
  map : sess.heap.storage.toLiveMap = sess.record.map
  tracks : ∀ id, Tracks (sess.heap.cursors id) (sess.record.cursors id) (sess.yields id)

variable {same} {sess sess' : CollectionSession}

theorem refines_start (cap : Nat) (alloc : Allocator) : (start cap alloc).Refines :=
  ⟨OrderedCollection.backed_withCapacity cap, by rintro _ ⟨⟩, rfl, fun _ => .unused⟩

theorem distinct_of_refines (h : sess.Refines) (hcoherent : sess.record.Coherent same) :
    sess.heap.storage.live.Pairwise fun left right => same left.key right.key = false := by
  have hdist := hcoherent.wellFormed.distinct
  rw [← h.map] at hdist
  exact hdist

theorem collectionKey_collectionKey (argument : Option Value) :
    collectionKey (some (collectionKey argument)) = collectionKey argument := by
  by_cases hz : (numericValue (argument.getD .undefined)).any equalsZero = true
  · have hkey : collectionKey argument = .fromF64 (Binary64.zero .positive) := if_pos hz
    have hagain : (numericValue (.fromF64 (Binary64.zero .positive))).any equalsZero = true := by
      simp [numericValue, equalsZero, Value.fromF64, Value.asI32, Value.asF64]
    rw [hkey]
    simp only [collectionKey, getD_some]
    rw [if_pos hagain]
  · have hkey : collectionKey argument = argument.getD .undefined := if_neg hz
    rw [hkey]
    exact if_neg hz

theorem canonical_mutation (operation : CollectionOperation) {key : Value}
    (hkey : operation.mutation.key? = some key) : collectionKey (some key) = key := by
  cases operation with
  | mapSet argument val | mapGetOrInsert argument val | mapGetOrInsertComputed argument val
  | setAdd argument =>
    rw [← some.inj hkey]
    exact collectionKey_collectionKey argument
  | delete argument => cases hkey
  | clear => cases hkey

theorem Refines.operate (hsame : SameKey same) (h : sess.Refines)
    (hcoherent : sess.record.Coherent same) (operation : CollectionOperation) :
    (sess.operate same operation).Refines := by
  have hchanges := CollectionHeap.perform_changes hsame h.backed (distinct_of_refines h hcoherent)
    operation
  simp only [CollectionSession.operate]
  cases hperform : sess.heap.perform same operation with
  | mk succeeded heap =>
    rw [hperform] at hchanges
    obtain ⟨hbacked, hcus, -, -, hmap⟩ := hchanges
    cases succeeded with
    | true =>
      refine ⟨hbacked, ?_, ?_, ?_⟩
      · intro ent he
        have hm : ent ∈ heap.storage.toLiveMap.entries := he
        rw [hmap] at hm
        rcases LiveMap.key_of_mem_apply operation.mutation hm with ⟨old, hold, hkey⟩ | hkey
        · rw [← hkey]
          exact h.canonical old hold
        · exact canonical_mutation operation hkey
      · rw [hmap, h.map]
        rfl
      · intro id
        rw [hcus]
        exact h.tracks id
    | false =>
      refine ⟨hbacked, ?_, hmap.trans h.map, ?_⟩
      · have hlive : heap.storage.live = sess.heap.storage.live := congrArg LiveMap.entries hmap
        rw [hlive]
        exact h.canonical
      · intro id
        rw [hcus]
        exact h.tracks id

variable {id : Nat}

theorem Refines.unused (h : sess.Refines) (hunused : sess.heap.cursors id = none) :
    sess.record.cursors id = none ∧ sess.yields id = [] := by
  have htracks := h.tracks id
  rw [hunused] at htracks
  generalize sess.record.cursors id = recorded, sess.yields id = yields at htracks ⊢
  cases htracks
  exact ⟨rfl, rfl⟩

theorem Refines.createCursor (h : sess.Refines) (id : Nat)
    (kind : Option CollectionIterationKind) (hunused : sess.heap.cursors id = none) :
    (sess.createCursor id kind).Refines := by
  have hyields := (h.unused hunused).2
  simp only [CollectionSession.createCursor, CollectionHeap.createCursor]
  cases hreq : sess.heap.request with
  | mk granted heap =>
    obtain ⟨hsto, hcus, -⟩ := CollectionHeap.request_eq hreq
    cases granted with
    | false =>
      refine ⟨hsto ▸ h.backed, hsto ▸ h.canonical, ?_, ?_⟩
      · rw [hsto]
        exact h.map
      · intro other
        rw [hcus]
        exact h.tracks other
    | true =>
      refine ⟨hsto ▸ h.backed, hsto ▸ h.canonical, ?_, ?_⟩
      · rw [hsto]
        exact h.map
      · intro other
        simp only [LiveRecord.openCursor]
        by_cases ho : other = id
        · rw [ho, update_self, update_self]
          exact .used rfl (fun _ => rfl) hyields
        · rw [update_of_ne ho, update_of_ne ho, hcus]
          exact h.tracks other

variable {cursor : CollectionCursor}

/-- What a step of a cursor takes, and where it stands afterwards. -/
theorem moveCursor_spec (h : sess.Refines) (hcu : sess.heap.cursors id = some cursor) :
    ∃ recorded, sess.record.cursors id = some recorded ∧
      sess.yields id = handed cursor recorded.taken ∧
      ((recorded.finished ≠ none ∧ sess.heap.moveCursor id cursor = (none, sess.heap)) ∨
        (recorded.finished = none ∧ ∃ moved, (sess.heap.moveCursor id cursor).2 =
            { sess.heap with
              cursors := Function.update sess.heap.cursors id (some moved) } ∧
          moved.kind = cursor.kind ∧
          ((∃ ent, sess.record.map.nextFrom recorded.next = some ent ∧
              (sess.heap.moveCursor id cursor).1 = some ⟨ent.key, ent.value⟩ ∧
              moved.attached = true ∧ moved.nextIndex = ent.ticket + 1) ∨
            (sess.record.map.nextFrom recorded.next = none ∧
              (sess.heap.moveCursor id cursor).1 = none ∧ moved.attached = false)))) := by
  have htracks := h.tracks id
  rw [hcu] at htracks
  cases hrecorded : sess.record.cursors id with
  | none =>
    rw [hrecorded] at htracks
    cases htracks
  | some recorded =>
    rw [hrecorded] at htracks
    cases htracks with
    | used attached pos yielded =>
      refine ⟨recorded, rfl, yielded, ?_⟩
      cases hfin : recorded.finished with
      | some f =>
        rw [hfin] at attached
        refine .inl ⟨nofun, ?_⟩
        rw [CollectionHeap.moveCursor, if_neg (by rw [attached]; simp)]
      | none =>
        rw [hfin] at attached
        have hattached : cursor.attached = true := attached
        have hpos := pos hfin
        have hmove : sess.heap.moveCursor id cursor = _ := if_pos hattached
        refine .inr ⟨rfl, _, congrArg Prod.snd hmove, rfl, ?_⟩
        rw [hmove, ← h.map, ← hpos]
        rcases @CollectionHeap.scanEntries_eq sess.heap.storage cursor.nextIndex _ rfl with
          ⟨ent, hn, hscan⟩ | ⟨hn, hscan⟩
        · rw [hscan]
          exact .inl ⟨ent, hn, rfl, rfl, rfl⟩
        · rw [hscan]
          exact .inr ⟨hn, rfl, rfl⟩

/-- The outcome of a call that moves a cursor: the entry, or an error after a refused request. -/
structure Hands (heap : CollectionHeap) (id : Nat) (cursor : CollectionCursor)
    (result : Except CollectionError (Option IteratedValue)) (heap' : CollectionHeap) : Prop where
  storage : heap'.storage = (heap.moveCursor id cursor).2.storage
  cursors : heap'.cursors = (heap.moveCursor id cursor).2.cursors
  later : heap.Later heap'
  refused : ∀ error, result = .error error → ¬ heap'.Served ∧ ¬ heap.Grants
  result : (∃ error, result = .error error) ∨
    result = .ok ((heap.moveCursor id cursor).1.map (cursor.kind.getD .keyAndValue).result)

theorem later_moveCursor (heap : CollectionHeap) (id : Nat) (cursor : CollectionCursor) :
    heap.Later (heap.moveCursor id cursor).2 ∧
      ((heap.moveCursor id cursor).2.Grants ↔ heap.Grants) := by
  rw [CollectionHeap.moveCursor]
  split
  · exact ⟨⟨rfl, le_refl _⟩, Iff.rfl⟩
  · exact ⟨.refl heap, Iff.rfl⟩

variable {heap : CollectionHeap}

theorem hands_next (hcu : heap.cursors id = some cursor) :
    Hands heap id cursor (heap.collectionIteratorNext id).1 (heap.collectionIteratorNext id).2 := by
  simp only [CollectionHeap.collectionIteratorNext, hcu]
  obtain ⟨hmoved, hgrants⟩ := later_moveCursor heap id cursor
  cases hreq : (heap.moveCursor id cursor).2.request with
  | mk granted post =>
    obtain ⟨hsto, hcus, hlater⟩ := CollectionHeap.request_eq hreq
    cases granted with
    | false =>
      obtain ⟨hserved, hrefused⟩ := CollectionHeap.not_served_of_request hreq
      rw [hgrants] at hrefused
      exact ⟨hsto, hcus, hmoved.trans hlater, fun _ _ => ⟨hserved, hrefused⟩, .inl ⟨_, rfl⟩⟩
    | true => exact ⟨hsto, hcus, hmoved.trans hlater, (fun _ h => by cases h), .inr rfl⟩

theorem hands_forEach (hcu : heap.cursors id = some cursor) (hscan : cursor.kind = none) :
    Hands heap id cursor (heap.advanceCollectionForEach id).1
      (heap.advanceCollectionForEach id).2 := by
  simp only [CollectionHeap.advanceCollectionForEach, hcu]
  obtain ⟨hmoved, hgrants⟩ := later_moveCursor heap id cursor
  cases hmove : heap.moveCursor id cursor with
  | mk ent moved =>
    rw [hmove] at hmoved hgrants
    cases ent with
    | none =>
      refine ⟨by rw [hmove], by rw [hmove], hmoved, (fun _ h => by cases h), .inr ?_⟩
      rw [hmove]
      rfl
    | some ent =>
      simp only
      cases hreq : moved.request with
      | mk granted post =>
        obtain ⟨hsto, hcus, hlater⟩ := CollectionHeap.request_eq hreq
        cases granted with
        | false =>
          obtain ⟨hserved, hrefused⟩ := CollectionHeap.not_served_of_request hreq
          rw [hgrants] at hrefused
          exact ⟨by rw [hmove, hsto], by rw [hmove, hcus], hmoved.trans hlater,
            fun _ _ => ⟨hserved, hrefused⟩, .inl ⟨_, rfl⟩⟩
        | true =>
          refine ⟨by rw [hmove, hsto], by rw [hmove, hcus], hmoved.trans hlater,
            (fun _ h => by cases h), .inr ?_⟩
          rw [hmove, hscan]
          rfl

theorem handed_append (cursor : CollectionCursor) (taken : List (LiveTake Value Value))
    (take : LiveTake Value Value) :
    handed cursor (taken ++ [take]) = handed cursor taken ++
        if take.delivered then
          [(cursor.kind.getD .keyAndValue).result ⟨take.entry.key, take.entry.value⟩] else [] := by
  simp only [handed]
  cases hdelivered : take.delivered <;> simp [hdelivered]

variable {res : Except CollectionError (Option IteratedValue)} {heap' : CollectionHeap}

/-- A call that moves a cursor. -/
theorem Refines.advanced (h : sess.Refines) (hcu : sess.heap.cursors id = some cursor) (hhands :
    Hands sess.heap id cursor res heap') : (sess.advanced id (res, heap')).Refines := by
  obtain ⟨recorded, hrecorded, hyields, hcases⟩ := moveCursor_spec h hcu
  obtain ⟨hsto, hcus, -, -, hres⟩ := hhands
  -- the storage is left alone in all cases
  have hsame : heap'.storage = sess.heap.storage := by
    rcases hcases with ⟨-, hmove⟩ | ⟨-, moved, hmove, -⟩
    · rw [hsto, hmove]
    · rw [hsto, hmove]
  rcases hcases with ⟨hfin, hmove⟩ | ⟨hunfinished, moved, hmove, hk, he⟩
  · have hl : ∀ delivered, sess.record.advance id delivered =
        { sess.record with clock := sess.record.clock + 1 } := by
      intro delivered
      obtain ⟨f, hf⟩ := ne_none_iff_exists'.mp hfin
      simp only [LiveRecord.advance, hrecorded, hf]
    have htracks : ∀ other, Tracks (heap'.cursors other) (sess.record.cursors other)
        (sess.yields other) := by
      intro other
      rw [hcus, hmove]
      exact h.tracks other
    rw [hmove] at hres
    rcases hres with ⟨err, rfl⟩ | rfl
    · simp only [CollectionSession.advanced, hl]
      exact ⟨hsame ▸ h.backed, hsame ▸ h.canonical, hsame ▸ h.map, htracks⟩
    · simp only [CollectionSession.advanced, hl]
      exact ⟨hsame ▸ h.backed, hsame ▸ h.canonical, hsame ▸ h.map, htracks⟩
  · have hl : ∀ delivered, sess.record.advance id delivered =
        { sess.record with
          clock := sess.record.clock + 1
          cursors := update sess.record.cursors id (some
            (recorded.advance sess.record.map sess.record.clock delivered)) } := by
      intro delivered
      simp only [LiveRecord.advance, hrecorded, hunfinished]
    have hos : ∀ other, other ≠ id → ∀ advanced, Tracks (heap'.cursors other)
        (update sess.record.cursors id advanced other) (sess.yields other) := by
      intro other ho advanced
      rw [hcus, hmove]
      simp only [update_of_ne ho]
      exact h.tracks other
    have hthis : heap'.cursors id = some moved := by
      rw [hcus, hmove]
      exact update_self _ _ _
    have hhanded : ∀ taken, handed moved taken = handed cursor taken := by
      intro taken
      simp only [handed, hk]
    rcases he with ⟨ent, hn, htaken, hattached, hi⟩ | ⟨hn, htaken, hattached⟩
    · rw [htaken] at hres
      rcases hres with ⟨err, rfl⟩ | rfl
      · simp only [CollectionSession.advanced, hl]
        refine ⟨hsame ▸ h.backed, hsame ▸ h.canonical, hsame ▸ h.map, ?_⟩
        intro other
        by_cases ho : other = id
        · rw [ho]
          simp only [update_self]
          rw [hthis]
          simp only [LiveCursor.advance, hn]
          refine .used ?_ (fun _ => hi) ?_
          · rw [hattached, hunfinished]
            rfl
          · rw [handed_append, hhanded, hyields]
            simp
        · exact hos other ho _
      · simp only [CollectionSession.advanced, hl, map_some]
        refine ⟨hsame ▸ h.backed, hsame ▸ h.canonical, hsame ▸ h.map, ?_⟩
        intro other
        by_cases ho : other = id
        · rw [ho]
          simp only [update_self]
          rw [hthis]
          simp only [LiveCursor.advance, hn]
          refine .used ?_ (fun _ => hi) ?_
          · rw [hattached, hunfinished]
            rfl
          · rw [handed_append, hhanded, hyields, hk]
            simp
        · rw [hcus, hmove]
          simp only [update_of_ne ho]
          exact h.tracks other
    · rw [htaken] at hres
      have hdone : ∀ delivered, ∀ other, Tracks (heap'.cursors other)
          (update sess.record.cursors id (some
            (recorded.advance sess.record.map sess.record.clock delivered)) other)
              (sess.yields other) := by
        intro delivered other
        by_cases ho : other = id
        · rw [ho, update_self, hthis]
          simp only [LiveCursor.advance, hn]
          refine .used ?_ (fun h => by cases h) ?_
          · rw [hattached]
            rfl
          · rw [hhanded, hyields]
        · exact hos other ho _
      rcases hres with ⟨err, rfl⟩ | rfl
      · simp only [CollectionSession.advanced, hl]
        exact ⟨hsame ▸ h.backed, hsame ▸ h.canonical, hsame ▸ h.map, hdone false⟩
      · simp only [CollectionSession.advanced, hl, map_none]
        exact ⟨hsame ▸ h.backed, hsame ▸ h.canonical, hsame ▸ h.map, hdone true⟩

theorem Refines.step (hsame : SameKey same) (h : sess.Refines)
    (hcoherent : sess.record.Coherent same) (hstep : Step same sess sess') : sess'.Refines := by
  cases hstep with
  | operate operation => exact h.operate hsame hcoherent operation
  | createCursor id kind unused => exact h.createCursor id kind unused
  | next id cursor kind used iterator => exact h.advanced used (hands_next used)
  | forEach id cursor used scan => exact h.advanced used (hands_forEach used scan)

theorem record_advanced (sess : CollectionSession) (id : Nat)
    (outcome : Except CollectionError (Option IteratedValue) × CollectionHeap) :
    ∃ delivered, (sess.advanced id outcome).record = sess.record.advance id delivered := by
  obtain ⟨res, heap⟩ := outcome
  match res with
  | .ok (some val) => exact ⟨true, rfl⟩
  | .ok none => exact ⟨true, rfl⟩
  | .error err => exact ⟨false, rfl⟩

/-- A step of a session is a step of its record, or none. -/
theorem record_step (h : sess.Refines) (hstep : Step same sess sess') :
    sess'.record = sess.record ∨ LiveRecord.Step same sess.record sess'.record := by
  cases hstep with
  | operate operation =>
    simp only [CollectionSession.operate]
    split
    · exact .inr (.mutate _)
    · exact .inl rfl
  | createCursor id kind unused =>
    simp only [CollectionSession.createCursor]
    split
    · exact .inr (.openCursor id (h.unused unused).1)
    · exact .inl rfl
  | next id cursor kind used iterator | forEach id cursor used scan =>
    obtain ⟨delivered, hrec⟩ := record_advanced sess id _
    rw [hrec]
    exact .inr (.advance id delivered)

variable {cap : Nat} {alloc : Allocator}

theorem refines_run (hsame : SameKey same) (hrun : Relation.ReflTransGen (Step same) (start cap
    alloc) sess) : sess.Refines ∧
      Relation.ReflTransGen (LiveRecord.Step same) LiveRecord.start sess.record := by
  induction hrun with
  | refl => exact ⟨refines_start cap alloc, .refl⟩
  | tail _ hstep ih =>
    obtain ⟨hrefines, hrec⟩ := ih
    refine ⟨hrefines.step hsame (LiveRecord.coherent_run hsame hrec) hstep, ?_⟩
    rcases record_step hrefines hstep with heq | hn
    · rw [heq]
      exact hrec
    · exact hrec.tail hn

/-! ## Takes and refused requests -/

/-- While no request is refused, what the cursors take reaches their callers. -/
def Delivers (sess : CollectionSession) : Prop :=
  sess.heap.Served → ∀ id cursor, sess.record.cursors id = some cursor →
    ∀ take ∈ cursor.taken, take.delivered = true

theorem delivers_start (cap : Nat) (alloc : Allocator) : (start cap alloc).Delivers := by
  intro _ id cursor hcu
  cases hcu

variable {other : Nat}

/-- A step of a cursor adds at most one take, with the mark of the step. -/
theorem delivered_advance {rec : LiveRecord Value Value} {id : Nat} {delivered : Bool} {recorded :
    LiveCursor Value Value} (hcu : (rec.advance id delivered).cursors other = some recorded) {take :
    LiveTake Value Value} (htake : take ∈ recorded.taken) : take.delivered = delivered ∨
      ∃ before, rec.cursors other = some before ∧ take ∈ before.taken := by
  rw [LiveRecord.advance] at hcu
  cases hbefore : rec.cursors id with
  | none =>
    rw [hbefore] at hcu
    exact .inr ⟨recorded, hcu, htake⟩
  | some before =>
    cases hfin : before.finished with
    | some f =>
      simp only [hbefore, hfin] at hcu
      exact .inr ⟨recorded, hcu, htake⟩
    | none =>
      simp only [hbefore, hfin] at hcu
      by_cases ho : other = id
      · rw [ho, update_self] at hcu
        obtain rfl := some.inj hcu
        rw [LiveCursor.advance] at htake
        cases hn : rec.map.nextFrom before.next with
        | none =>
          rw [hn] at htake
          exact .inr ⟨before, ho ▸ hbefore, htake⟩
        | some ent =>
          rw [hn] at htake
          rcases mem_append.mp htake with hold | hnew
          · exact .inr ⟨before, ho ▸ hbefore, hold⟩
          · rw [mem_singleton.mp hnew]
            exact .inl rfl
      · rw [update_of_ne ho] at hcu
        exact .inr ⟨recorded, hcu, htake⟩

theorem Delivers.advanced (h : sess.Delivers) (hhands : Hands sess.heap id cursor res heap') :
    (sess.advanced id (res, heap')).Delivers := by
  have hok : ∀ recorded other, (sess.record.advance id true).cursors other = some recorded →
      heap'.Served → ∀ take ∈ recorded.taken, take.delivered = true := by
    intro recorded other hcu hserved take htake
    rcases delivered_advance hcu htake with heq | ⟨before, hbefore, hold⟩
    · exact heq
    · exact h (hhands.later.served hserved) other before hbefore take hold
  rcases res with err | _ | val
  · intro hserved
    exact absurd hserved (hhands.refused err rfl).1
  · exact fun hserved other recorded hcu => hok recorded other hcu hserved
  · exact fun hserved other recorded hcu => hok recorded other hcu hserved

theorem Delivers.step (h : sess.Delivers) (hsame : SameKey same) (hrefines : sess.Refines)
    (hcoherent : sess.record.Coherent same) (hstep : Step same sess sess') : sess'.Delivers := by
  cases hstep with
  | operate operation =>
    have hchanges := CollectionHeap.perform_changes hsame hrefines.backed
      (distinct_of_refines hrefines hcoherent) operation
    simp only [CollectionSession.operate]
    cases hperform : sess.heap.perform same operation with
    | mk succeeded heap =>
      rw [hperform] at hchanges
      cases succeeded with
      | true | false => exact fun hserved => h (hchanges.later.served hserved)
  | createCursor id kind unused =>
    simp only [CollectionSession.createCursor, CollectionHeap.createCursor]
    cases hreq : sess.heap.request with
    | mk granted heap =>
      obtain ⟨-, -, hlater⟩ := CollectionHeap.request_eq hreq
      cases granted with
      | false => exact fun hserved => h (hlater.served hserved)
      | true =>
        intro hserved other recorded hcu
        simp only [LiveRecord.openCursor] at hcu
        by_cases ho : other = id
        · rw [ho, update_self] at hcu
          obtain rfl := some.inj hcu
          exact forall_mem_nil _
        · rw [update_of_ne ho] at hcu
          exact h (hlater.served hserved) other recorded hcu
  | next id cursor kind used iterator => exact h.advanced (hands_next used)
  | forEach id cursor used scan => exact h.advanced (hands_forEach used scan)

theorem delivers_run (hsame : SameKey same) (hrun : Relation.ReflTransGen (Step same) (start cap
    alloc) sess) : sess.Delivers := by
  induction hrun with
  | refl => exact delivers_start cap alloc
  | tail hsteps hstep ih =>
    obtain ⟨hrefines, hrec⟩ := refines_run hsame hsteps
    exact ih.step hsame hrefines (LiveRecord.coherent_run hsame hrec) hstep

/-! ## What a program sees -/

/-- A cursor walks over the entries in the order of their insertion. It takes each entry once that
was inserted before it was exhausted and lived until then, and no entry that was deleted. -/
structure Iterates (sess : CollectionSession) (id : Nat) (cursor : LiveCursor Value Value) :
    Prop where
  yields : ∃ iterator, sess.heap.cursors id = some iterator ∧
    sess.yields id = handed iterator cursor.taken
  inOrder : cursor.taken.Pairwise fun left right => ∃ a b,
    sess.record.born left.entry.ticket = some a ∧
      sess.record.born right.entry.ticket = some b ∧ a < b
  once : ∀ ticket b f, sess.record.born ticket = some b → cursor.finished = some f → b < f →
    (∀ d, sess.record.died ticket = some d → f ≤ d) →
    (cursor.taken.map fun take => take.entry.ticket).count ticket = 1
  alive : ∀ take ∈ cursor.taken,
    (∃ b, sess.record.born take.entry.ticket = some b ∧ b < take.time) ∧
      ∀ d, sess.record.died take.entry.ticket = some d → take.time < d
  within : ∀ take ∈ cursor.taken, cursor.opened < take.time ∧
    ∀ f, cursor.finished = some f → take.time < f
  delivered : sess.heap.Served → ∀ take ∈ cursor.taken, take.delivered = true

/-- What succeeds while there is memory. -/
structure Works (same : Value → Value → Bool) (heap : CollectionHeap) : Prop where
  operates : heap.HasRoom → ∀ operation, (heap.perform same operation).1 = true
  deletes : ∀ argument, (heap.perform same (.delete argument)).1 = true
  opens : heap.Grants → ∀ id kind, (heap.createCursor id kind).1 = .ok ()
  hands : heap.Grants → ∀ id cursor, heap.cursors id = some cursor →
    ((heap.collectionIteratorNext id).1 =
        .ok ((heap.moveCursor id cursor).1.map (cursor.kind.getD .keyAndValue).result)) ∧
      (cursor.kind = none → (heap.advanceCollectionForEach id).1 =
        .ok ((heap.moveCursor id cursor).1.map fun entry => .pair entry.key entry.value))

structure Lawful (same : Value → Value → Bool) (sess : CollectionSession) : Prop where
  map : sess.heap.storage.toLiveMap = sess.record.map
  distinct : sess.heap.storage.live.Pairwise fun left right => same left.key right.key = false
  canonical : ∀ entry ∈ sess.heap.storage.live, collectionKey (some entry.key) = entry.key
  size : sess.heap.collectionLen = sess.heap.storage.live.length
  get : ∀ argument, sess.heap.mapGet same argument =
    (LiveMap.lastSet same (collectionKey argument) sess.record.history).getD .undefined
  has : ∀ argument, sess.heap.collectionHas same argument =
    (LiveMap.lastSet same (collectionKey argument) sess.record.history).isSome
  cursors : ∀ id cursor, sess.record.cursors id = some cursor → sess.Iterates id cursor
  works : Works same sess.heap

theorem works_of_backed (h : heap.storage.Backed) (hoperates : heap.HasRoom → ∀ operation,
    (heap.perform same operation).1 = true) : Works same heap where
  operates := hoperates
  deletes := CollectionHeap.delete_ok h
  opens := by
    intro hgrants id kind
    simp only [CollectionHeap.createCursor]
    cases hreq : heap.request with
    | mk granted post =>
      cases granted with
      | false => exact absurd hgrants (CollectionHeap.not_served_of_request hreq).2
      | true => rfl
  hands := by
    intro hgrants id cursor hcu
    have hnext := hands_next hcu
    refine ⟨hnext.result.resolve_left ?_, fun hscan => ?_⟩
    · rintro ⟨err, herr⟩
      exact (hnext.refused err herr).2 hgrants
    · have heach := hands_forEach hcu hscan
      refine (heach.result.resolve_left ?_).trans ?_
      · rintro ⟨err, herr⟩
        exact (heach.refused err herr).2 hgrants
      · rw [hscan]
        rfl

theorem mapGet_eq (heap : CollectionHeap) (argument : Option Value) : heap.mapGet same argument =
      (heap.storage.toLiveMap.get? same (collectionKey argument)).getD .undefined := by
  have hget : heap.storage.toLiveMap.get? same (collectionKey argument) =
      (heap.storage.live.find? fun ent => same ent.key (collectionKey argument)).map
        LiveEntry.value := rfl
  simp only [CollectionHeap.mapGet]
  cases hfind : CollectionHeap.collectionFind same heap.storage (collectionKey argument) with
  | none =>
    rw [CollectionHeap.collectionFind_eq, map_eq_none_iff] at hfind
    rw [hget, hfind]
    rfl
  | some idx =>
    obtain ⟨ent, hf, -, -, he, -⟩ := CollectionHeap.of_collectionFind hfind
    rw [hget, hf]
    simp only [he]
    rfl

theorem Refines.iterates (h : sess.Refines) (hcoherent : sess.record.Coherent same)
    (hdelivers : sess.Delivers) {cursor : LiveCursor Value Value}
    (hcu : sess.record.cursors id = some cursor) :
    sess.Iterates id cursor := by
  have hfol := hcoherent.follows id cursor hcu
  refine ⟨?_, ?_, ?_, ?_, ?_, fun hserved => hdelivers hserved id cursor hcu⟩
  · have htracks := h.tracks id
    rw [hcu] at htracks
    generalize hiterator : sess.heap.cursors id = iterator at htracks ⊢
    cases htracks with
    | used attached pos yielded => exact ⟨_, rfl, yielded⟩
  · apply hfol.ascending.imp_of_mem
    intro left right hl hr hlt
    obtain ⟨-, -, ⟨a, ha, -⟩, -⟩ := hfol.isPresent left hl
    obtain ⟨-, -, ⟨b, hb, -⟩, -⟩ := hfol.isPresent right hr
    exact ⟨a, b, ha, hb, hcoherent.timed.bornOrder _ _ a b hlt ha hb⟩
  · intro ticket b f hborn hfin hlt hlived
    have hnodup : (cursor.taken.map fun take => take.entry.ticket).Nodup := by
      rw [List.Nodup, pairwise_map]
      exact hfol.ascending.imp fun hlt => ne_of_lt hlt
    have hm : ticket ∈ cursor.taken.map fun take => take.entry.ticket := by
      rcases hfol.complete ticket b hborn (fun hn => absurd (hn ▸ hfin) nofun)
        (fun f' hf' => by rw [hfin] at hf'; exact some.inj hf' ▸ hlt) with
        ⟨take, htake, hticket⟩ | ⟨d, hdied, hbf⟩
      · exact mem_map.mpr ⟨take, htake, hticket⟩
      · exact absurd (hbf f hfin) (not_lt.mpr (hlived d hdied))
    exact count_eq_one_of_mem hnodup hm
  · intro take htake
    obtain ⟨-, -, hborn, hdied⟩ := hfol.isPresent take htake
    exact ⟨hborn, hdied⟩
  · intro take htake
    refine ⟨(hfol.isPresent take htake).1, ?_⟩
    intro f hf
    exact (hfol.finished f hf).2.2 take htake

theorem Refines.lawful (hsame : SameKey same) (h : sess.Refines)
    (hcoherent : sess.record.Coherent same) (hdelivers : sess.Delivers) : sess.Lawful same := by
  have hv : ∀ argument, sess.heap.storage.toLiveMap.get? same (collectionKey argument) =
      LiveMap.lastSet same (collectionKey argument) sess.record.history := by
    intro argument
    rw [h.map]
    exact hcoherent.values _
  refine ⟨h.map, distinct_of_refines h hcoherent, h.canonical, h.backed.counted, ?_, ?_, ?_,
    works_of_backed h.backed fun hroom operation => ?_⟩
  · intro argument
    rw [mapGet_eq, hv]
  · intro argument
    rw [CollectionHeap.collectionHas, CollectionHeap.isSome_collectionFind, LiveMap.has_eq_isSome,
      hv]
  · intro id cursor hcu
    exact h.iterates hcoherent hdelivers hcu
  · exact (CollectionHeap.perform_changes hsame h.backed (distinct_of_refines h hcoherent)
      operation).succeeds hroom

/-- A call on another cursor, or on one that is exhausted, leaves an exhausted cursor alone. -/
theorem exhausted_advanced (h : sess.Refines) {cursor : LiveCursor Value Value} (hcu :
    sess.record.cursors id = some cursor) (hfin : cursor.finished ≠ none) {iterator :
    CollectionCursor} (hiterator : sess.heap.cursors other = some iterator) (hhands : Hands
    sess.heap other iterator res heap') :
    (sess.advanced other (res, heap')).record.cursors id = some cursor ∧
      (sess.advanced other (res, heap')).yields id = sess.yields id := by
  have hcus : ∀ delivered,
      (sess.record.advance other delivered).cursors id = some cursor := by
    intro delivered
    simp only [LiveRecord.advance]
    split
    next recorded hrecorded =>
      split
      next hunfinished =>
        have hne : id ≠ other := by
          rintro rfl
          rw [hcu] at hrecorded
          rw [some.inj hrecorded] at hfin
          exact hfin hunfinished
        simp only [update_of_ne hne]
        exact hcu
      · exact hcu
    · exact hcu
  rcases res with err | _ | val
  · exact ⟨hcus false, rfl⟩
  · exact ⟨hcus true, rfl⟩
  · refine ⟨hcus true, ?_⟩
    have hne : id ≠ other := by
      rintro rfl
      -- an exhausted cursor finds no entry
      obtain ⟨recorded, hrecorded, -, hcases⟩ := moveCursor_spec h hiterator
      rw [hcu] at hrecorded
      obtain rfl := some.inj hrecorded
      rcases hcases with ⟨-, hmove⟩ | ⟨hunfinished, -⟩
      · rcases hhands.result with ⟨err, herr⟩ | hok
        · cases herr
        · rw [hmove] at hok
          cases hok
      · exact hfin hunfinished
    exact update_of_ne hne _ _

theorem exhausted_step (h : sess.Refines) {cursor : LiveCursor Value Value}
    (hcu : sess.record.cursors id = some cursor) (hfin : cursor.finished ≠ none)
    (hstep : Step same sess sess') :
    sess'.record.cursors id = some cursor ∧ sess'.yields id = sess.yields id := by
  cases hstep with
  | operate operation =>
    simp only [CollectionSession.operate]
    split
    · exact ⟨hcu, rfl⟩
    · exact ⟨hcu, rfl⟩
  | createCursor other kind unused =>
    have hne : id ≠ other := by
      rintro rfl
      rw [(h.unused unused).1] at hcu
      cases hcu
    simp only [CollectionSession.createCursor]
    split
    · simp only [LiveRecord.openCursor, update_of_ne hne]
      exact ⟨hcu, trivial⟩
    · exact ⟨hcu, rfl⟩
  | next other iterator kind used isIterator =>
    exact exhausted_advanced h hcu hfin used (hands_next used)
  | forEach other iterator used scan =>
    exact exhausted_advanced h hcu hfin used (hands_forEach used scan)

/-- Over every run of a Map or a Set the keys differ, the size is their number, `get` and `has` tell
what was set last, and the iterators and scans walk over the live entries in the order of their
insertion. An iterator that is exhausted yields nothing any more. -/
theorem collections_iterate_live (hsame : SameKey same) {cap : Nat} {alloc : Allocator}
    (hrun : Relation.ReflTransGen (Step same) (start cap alloc) sess) :
    sess.Lawful same ∧ ∀ sess', Relation.ReflTransGen (Step same) sess sess' → ∀ id cursor,
        sess.record.cursors id = some cursor → cursor.finished ≠ none →
          sess'.record.cursors id = some cursor ∧ sess'.yields id = sess.yields id := by
  obtain ⟨hrefines, hrec⟩ := refines_run hsame hrun
  refine ⟨hrefines.lawful hsame (LiveRecord.coherent_run hsame hrec) (delivers_run hsame hrun), ?_⟩
  intro sess' hlat id cursor hcu hfin
  induction hlat with
  | refl => exact ⟨hcu, rfl⟩
  | tail hsteps hstep ih =>
    obtain ⟨hkept, hyields⟩ := ih
    have hreached := (refines_run hsame (hrun.trans hsteps)).1
    obtain ⟨hkept', hyields'⟩ := exhausted_step hreached hkept hfin hstep
    exact ⟨hkept', hyields'.trans hyields⟩

/-- The comparison of values that are neither numbers nor strings. -/
def sameImmediate (left right : Value) : Bool := left = right

theorem sameKey_sameImmediate : SameKey sameImmediate := by
  refine ⟨?_, ?_, ?_⟩
  · intro key
    exact decide_eq_true rfl
  · intro left right hsame
    exact decide_eq_true (of_decide_eq_true hsame).symm
  · intro left middle right hl hr
    exact decide_eq_true ((of_decide_eq_true hl).trans (of_decide_eq_true hr))

/-- A Set of `true` and `false`; while it is iterated `false` is deleted and `null` is added. -/
def sampleSession : CollectionSession :=
  let two := ((start initialEntryCapacity .granting).operate sameImmediate
    (.setAdd (some (.fromImmediate .true)))).operate sameImmediate
      (.setAdd (some (.fromImmediate .false)))
  let opened := two.createCursor 0 (some .value)
  let first := opened.advanced 0 (opened.heap.collectionIteratorNext 0)
  let changed := (first.operate sameImmediate (.delete (some (.fromImmediate .false)))).operate
    sameImmediate (.setAdd (some (.fromImmediate .null)))
  let second := changed.advanced 0 (changed.heap.collectionIteratorNext 0)
  second.advanced 0 (second.heap.collectionIteratorNext 0)

theorem run_sampleSession : Relation.ReflTransGen (Step sameImmediate)
    (start initialEntryCapacity .granting) sampleSession := by
  have hop := ((Relation.ReflTransGen.refl (r := Step sameImmediate)
    (a := start initialEntryCapacity .granting)).tail
      (.operate (.setAdd (some (.fromImmediate .true))))).tail
        (.operate (.setAdd (some (.fromImmediate .false)))) |>.tail
          (.createCursor 0 (some .value) rfl)
  have hchanged := (hop.tail (.next 0 _ .value rfl rfl)).tail
    (.operate (.delete (some (.fromImmediate .false)))) |>.tail
      (.operate (.setAdd (some (.fromImmediate .null))))
  exact (hchanged.tail (.next 0 _ .value rfl rfl)).tail (.next 0 _ .value rfl rfl)

theorem collections_iterate_live_sample :
    sampleSession.Lawful sameImmediate ∧
      sampleSession.yields 0 = [.one (.fromImmediate .true), .one (.fromImmediate .null)] := by
  refine ⟨(collections_iterate_live sameKey_sameImmediate run_sampleSession).1, ?_⟩
  decide

end CollectionSession

end TachyonEngine.Vm
