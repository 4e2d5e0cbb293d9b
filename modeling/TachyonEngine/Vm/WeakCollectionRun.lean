import TachyonEngine.Vm.WeakCollection

/-!
# The table of a weak collection as a finite map

The buckets index the live keys, and the free list lists the other entries (`WellFormed`), in every
state of a run, as long as no capacity reaches `2 ^ 32`. There the codes of the indices wrap: the
list of a new table ends before its last entry.
-/

namespace TachyonEngine.Vm

open Lib Lib.MachineWord List Option Function
open Gc (RawHeapRef)
open Relation (ReflTransGen)

/-! ## Codes -/

variable {idx : Nat}

theorem decode_encode_optional (h : idx + 1 < 2 ^ 32) :
    decodeOptionalIndex (encodeOptionalIndex (some idx)) = some idx := by
  have hv : (UInt32.ofNat idx + 1).toNat = idx + 1 := by
    rw [UInt32.toNat_add, UInt32.toNat_ofNat']
    have hone : (1 : UInt32).toNat = 1 := rfl
    omega
  have hne : UInt32.ofNat idx + 1 ≠ emptyBucket := by
    intro heq
    rw [heq] at hv
    cases hv
  rw [encodeOptionalIndex, decodeOptionalIndex, if_neg hne, hv, Nat.add_sub_cancel]

theorem decodeOptional_lt {encoded : UInt32} (h : decodeOptionalIndex encoded = some idx) :
    idx + 1 < 2 ^ 32 := by
  rw [decodeOptionalIndex] at h
  split_ifs at h
  cases h
  have hlt := encoded.toNat_lt
  omega

/-- An index below the last two words has a code of its own. -/
theorem decode_encodeEntry (h : idx + 2 < 2 ^ 32) :
    ∃ code, encodeEntryIndex idx = some code ∧ decodeBucketIndex code = .entry idx := by
  have hlt : idx < 2 ^ 32 := by omega
  have hword : (UInt32.ofNat idx).toNat = idx := by
    rw [UInt32.toNat_ofNat', Nat.mod_eq_of_lt hlt]
  have hone : (1 : UInt32).toNat = 1 := rfl
  have hv : (UInt32.ofNat idx + 1).toNat = idx + 1 := by
    rw [UInt32.toNat_add, hword, hone, Nat.mod_eq_of_lt (by omega)]
  refine ⟨UInt32.ofNat idx + 1, ?_, ?_⟩
  · have hfits : (UInt32.ofNat idx).toNat + (1 : UInt32).toNat < 2 ^ 32 := by
      omega
    rw [encodeEntryIndex, tryFromLength, if_pos hlt, bind_some,
      TachyonEngine.Lib.MachineWord.checkedAdd, if_pos hfits]
  · have hempty : UInt32.ofNat idx + 1 ≠ emptyBucket := by
      intro heq
      rw [heq] at hv
      cases hv
    have htombstone : UInt32.ofNat idx + 1 ≠ tombstoneBucket := by
      intro heq
      rw [heq] at hv
      have hmax : tombstoneBucket.toNat = 2 ^ 32 - 1 := rfl
      omega
    rw [decodeBucketIndex, if_neg hempty, if_neg htombstone, hv, Nat.add_sub_cancel]

/-- The masks of the source are remainders. -/
theorem weakKeyPath_eq (key : RawHeapRef) (exponent : Nat) : weakKeyPath key (2 ^ exponent) =
      Probing.path (weakKeyBucket key (2 ^ exponent)) (2 ^ exponent) := by
  apply map_congr_left
  intro distance hdist
  exact Nat.and_two_pow_sub_one_eq_mod _ exponent

namespace WeakCollection

/-! ## Well-formed tables -/

section Views

variable (tbl : WeakCollection)

/-- The successor in the free list. -/
def nextAt (idx : Nat) : Option Nat := decodeOptionalIndex (tbl.nextFree.getD idx emptyBucket)

def IsFree (idx : Nat) : Prop := idx < tbl.capacity ∧ tbl.liveKey idx = none

def liveCount : Nat := (List.range tbl.capacity).countP fun idx => (tbl.liveKey idx).isSome

end Views

/-- The arrays fit together and have a size that the codes can express. -/
structure Sized (tbl : WeakCollection) : Prop where
  power : ∃ exponent, tbl.capacity = 2 ^ exponent
  small : tbl.capacity < 2 ^ 32
  buckets : tbl.buckets.length = tbl.capacity * 2
  nextFree : tbl.nextFree.length = tbl.capacity

variable {tbl post : WeakCollection}

theorem Sized.congr (h : tbl.Sized) (he : post.entries.length = tbl.entries.length) (hb :
    post.buckets.length = tbl.buckets.length) (hn : post.nextFree.length = tbl.nextFree.length) :
    post.Sized := by
  obtain ⟨hpower, hsm, hbuckets, hnx⟩ := h
  have hcap : post.capacity = tbl.capacity := he
  exact ⟨hcap ▸ hpower, hcap ▸ hsm, by rw [hb, hbuckets, hcap], by rw [hn, hnx, hcap]⟩

structure WellFormed (tbl : WeakCollection) : Prop where
  sized : tbl.Sized
  indexes : Probing.Indexes tbl.buckets.length
    (fun key => weakKeyBucket key tbl.buckets.length) tbl.bucketAt tbl.liveKey
  free : Probing.Lists tbl.nextAt (decodeOptionalIndex tbl.freeHead) tbl.IsFree

/-- What a finite map over the entries is. -/
structure IsFiniteMap (tbl : WeakCollection) : Prop where
  find : ∀ key idx, tbl.findIndex key = some idx ↔ tbl.liveKey idx = some key
  once : ∀ key idx other, tbl.liveKey idx = some key → tbl.liveKey other = some key → idx = other
  free : Probing.Lists tbl.nextAt (decodeOptionalIndex tbl.freeHead) tbl.IsFree
  insertion : ∀ key, tbl.liveCount < tbl.capacity → (tbl.insertionIndex key).isSome = true

section Facts

variable {tbl post : WeakCollection} {idx pos : Nat} {key : RawHeapRef}

theorem Sized.power_buckets (h : tbl.Sized) : ∃ exponent, tbl.buckets.length = 2 ^ exponent := by
  obtain ⟨exponent, hpower⟩ := h.power
  exact ⟨exponent + 1, by rw [h.buckets, hpower, pow_succ]⟩

/-- A power of two below `2 ^ 32` leaves room for the tombstone. -/
theorem Sized.index_lt (h : tbl.Sized) (hi : idx < tbl.capacity) : idx + 2 < 2 ^ 32 := by
  obtain ⟨exponent, hpower⟩ := h.power
  have hsm := h.small
  rw [hpower] at hsm hi
  have hexp : exponent ≤ 31 := by
    have := (Nat.pow_lt_pow_iff_right (by decide : 1 < 2)).mp hsm
    omega
  have : 2 ^ exponent ≤ 2 ^ 31 := Nat.pow_le_pow_right (by decide) hexp
  omega

theorem Sized.path_eq (h : tbl.Sized) (key : RawHeapRef) : weakKeyPath key tbl.buckets.length =
      Probing.path (weakKeyBucket key tbl.buckets.length) tbl.buckets.length := by
  obtain ⟨exponent, hpower⟩ := h.power_buckets
  rw [hpower]
  exact weakKeyPath_eq key exponent

theorem lt_of_live (h : tbl.liveKey idx = some key) : idx < tbl.capacity := by
  by_contra hle
  rw [liveKey, entryAt, getElem?_eq_none (not_lt.mp hle)] at h
  cases h

theorem liveKey_set (hi : idx < tbl.entries.length) (ent : Option Ephemeron) (buckets
    nextFree : List UInt32) (freeHead : UInt32) :
    liveKey ⟨tbl.entries.set idx ent, buckets, nextFree, freeHead⟩ =
      Function.update tbl.liveKey idx (ent.bind Ephemeron.key) := by
  funext other
  by_cases heq : other = idx
  · subst heq
    rw [update_self, liveKey, entryAt, getElem?_set_self hi, join_some]
  · rw [update_of_ne heq, liveKey, entryAt, getElem?_set_ne (Ne.symm heq)]
    rfl

theorem bucketAt_set (hpos : pos < tbl.buckets.length) (code : UInt32)
    (entries : List (Option Ephemeron)) (nextFree : List UInt32) (freeHead : UInt32) :
    bucketAt ⟨entries, tbl.buckets.set pos code, nextFree, freeHead⟩ =
      Function.update tbl.bucketAt pos (decodeBucketIndex code) := by
  funext other
  by_cases heq : other = pos
  · subst heq
    rw [update_self, bucketAt, getD_eq_getElem?_getD,
      getElem?_set_self hpos, getD_some]
  · rw [update_of_ne heq, bucketAt, getD_eq_getElem?_getD,
      getElem?_set_ne (Ne.symm heq)]
    rfl

theorem nextAt_set (hi : idx < tbl.nextFree.length) (code : UInt32)
    (entries : List (Option Ephemeron)) (buckets : List UInt32) (freeHead : UInt32) :
    nextAt ⟨entries, buckets, tbl.nextFree.set idx code, freeHead⟩ =
      Function.update tbl.nextAt idx (decodeOptionalIndex code) := by
  funext other
  by_cases heq : other = idx
  · subst heq
    rw [update_self, nextAt, getD_eq_getElem?_getD,
      getElem?_set_self hi, getD_some]
  · rw [update_of_ne heq, nextAt, getD_eq_getElem?_getD,
      getElem?_set_ne (Ne.symm heq)]
    rfl

/-! ## Lookups -/

section

variable (h : tbl.WellFormed)

include h

theorem findEntry_iff : tbl.findEntry key = some (pos, idx) ↔
      tbl.liveKey idx = some key ∧ pos < tbl.buckets.length ∧ tbl.bucketAt pos = .entry idx := by
  rw [findEntry, h.sized.path_eq]
  exact h.indexes.find_iff

theorem findIndex_iff : tbl.findIndex key = some idx ↔ tbl.liveKey idx = some key := by
  rw [findIndex, findEntry, h.sized.path_eq]
  exact h.indexes.find_index_iff

theorem absent_of_findIndex (hab : tbl.findIndex key = none) (other : Nat) :
    tbl.liveKey other ≠ some key := by
  intro ho
  rw [(findIndex_iff h).mpr ho] at hab
  cases hab

theorem insertionBucket_isSome (key : RawHeapRef) : (tbl.insertionBucket key).isSome = true := by
  obtain ⟨exponent, hpower⟩ := h.sized.power
  have hpos : 0 < tbl.capacity := by
    rw [hpower]
    exact Nat.two_pow_pos exponent
  have hkeys : ∀ {idx}, (tbl.liveKey idx).isSome → idx < tbl.capacity := by
    intro idx hlive
    obtain ⟨shared, hshared⟩ := isSome_iff_exists.mp hlive
    exact lt_of_live hshared
  have hsize : tbl.capacity < tbl.buckets.length := by
    rw [h.sized.buckets]
    omega
  rw [insertionBucket, h.sized.path_eq]
  exact h.indexes.insertion_isSome hkeys hsize key

theorem insertionIndex_isSome (hroom : ∃ idx, tbl.IsFree idx) (key : RawHeapRef) :
    (tbl.insertionIndex key).isSome = true := by
  obtain ⟨bucket, hbk⟩ := isSome_iff_exists.mp (insertionBucket_isSome h key)
  obtain ⟨idx, hi⟩ := hroom
  rw [insertionIndex, hbk, bind_some]
  exact h.free.head_isSome hi

omit h in
theorem exists_free (h : tbl.liveCount < tbl.capacity) : ∃ idx, tbl.IsFree idx := by
  by_contra hn
  have hall : ∀ idx ∈ range tbl.capacity, (tbl.liveKey idx).isSome = true := by
    intro idx hi
    rw [mem_range] at hi
    rw [← ne_none_iff_isSome]
    exact fun hfree => hn ⟨idx, hi, hfree⟩
  have hc := countP_eq_length.mpr hall
  rw [length_range] at hc
  exact absurd h (by rw [liveCount, hc]; exact lt_irrefl _)

/-- A well-formed table is a finite map. -/
theorem WellFormed.isFiniteMap : tbl.IsFiniteMap where
  find := fun _ _ => findIndex_iff h
  once := fun _ _ _ => h.indexes.distinct
  free := h.free
  insertion := fun key hc => insertionIndex_isSome h (exists_free hc) key

end

end Facts

/-! ## Steps -/

section Steps

variable {tbl post : WeakCollection} {idx : Nat} {key : RawHeapRef} {val : Value}

variable {ent : Ephemeron}

/-- What an installation does, if it succeeds. -/
theorem installAt_eq (h : tbl.installAt idx ent = (true, post)) :
    ∃ key bucket code, ent.key = some key ∧ idx < tbl.capacity ∧
      tbl.liveKey idx = none ∧ decodeOptionalIndex tbl.freeHead = some idx ∧
      tbl.insertionBucket key = some bucket ∧ encodeEntryIndex idx = some code ∧ post =
        ⟨tbl.entries.set idx (some ent), tbl.buckets.set bucket code,
          tbl.nextFree.set idx emptyBucket, tbl.nextFree.getD idx emptyBucket⟩ := by
  rw [installAt] at h
  split at h
  · cases h
  next hi =>
    split at h
    · cases h
    next hlive =>
      split_ifs at h with hhead
      · cases h
      · split at h
        · cases h
        next bucket hbk =>
          obtain ⟨key, hkey, hbk⟩ := bind_eq_some_iff.mp hbk
          split at h
          · cases h
          next code hcode =>
            refine ⟨key, bucket, code, hkey, not_le.mp hi, ?_, not_not.mp hhead, hbk,
              hcode, (Prod.mk.inj h).2.symm⟩
            rwa [Bool.not_eq_true, isSome_eq_false_iff, isNone_iff_eq_none] at hlive

theorem WellFormed.install (h : tbl.WellFormed) (hab : ∀ key, ent.key = some key → ∀ other,
    tbl.liveKey other ≠ some key) (hinstall : tbl.installAt idx ent = (true, post)) :
    post.WellFormed := by
  obtain ⟨key, bucket, code, hkey, hi, hlive, hhead, hbk, hcode, rfl⟩ := installAt_eq hinstall
  obtain ⟨code', hcode', hdec⟩ := decode_encodeEntry (h.sized.index_lt hi)
  rw [hcode] at hcode'
  cases hcode'
  rw [insertionBucket, h.sized.path_eq] at hbk
  have hpos : bucket < tbl.buckets.length := by
    rcases Probing.insertion_sound hbk with hn | ⟨hreached, -⟩
    · cases hn
    · exact Probing.mem_path.mp hreached.mem
  refine ⟨h.sized.congr length_set length_set length_set, ?_, ?_⟩
  · rw [bucketAt_set hpos, liveKey_set hi, hdec, bind_some, hkey]
    simp only [length_set]
    exact h.indexes.insert hlive (hab key hkey) hbk
  · have hnx : idx < tbl.nextFree.length := by
      rw [h.sized.nextFree]
      exact hi
    have hfree := h.free
    rw [hhead] at hfree
    rw [nextAt_set hnx]
    refine (hfree.pop _).congr ?_
    intro other
    simp only [IsFree, capacity, length_set]
    rw [liveKey_set hi, bind_some, hkey]
    by_cases heq : other = idx
    · rw [heq, update_self]
      exact iff_of_false (fun h => h.2 rfl) (fun h => (nomatch h.2))
    · rw [update_of_ne heq]
      exact and_iff_left heq

theorem WellFormed.update (h : tbl.WellFormed) (hupdate : tbl.updateAt idx val = some post) :
    post.WellFormed := by
  obtain ⟨ent, he, rfl⟩ := map_eq_some_iff.mp hupdate
  have hi : idx < tbl.entries.length := by
    by_contra hle
    rw [entryAt, getElem?_eq_none (not_lt.mp hle)] at he
    cases he
  have hlive : liveKey ⟨tbl.entries.set idx (some (ent.replaceValue val)), tbl.buckets,
      tbl.nextFree, tbl.freeHead⟩ = tbl.liveKey := by
    rw [liveKey_set hi, bind_some, Ephemeron.replaceValue]
    have hkey : tbl.liveKey idx = ent.key := by
      rw [liveKey, he, bind_some]
    rw [← hkey, update_eq_self]
  refine ⟨h.sized.congr length_set rfl rfl, ?_, ?_⟩
  · rw [hlive]
    exact h.indexes
  · refine h.free.congr ?_
    intro other
    simp only [IsFree, capacity, length_set, hlive]

theorem WellFormed.delete (h : tbl.WellFormed) (hdelete : tbl.deleteAt idx = some post) :
    post.WellFormed := by
  obtain ⟨bucket, hbk, rfl⟩ := map_eq_some_iff.mp hdelete
  obtain ⟨key, hkey, hbk⟩ := bind_eq_some_iff.mp hbk
  obtain ⟨⟨pos, found⟩, hf, rfl⟩ := map_eq_some_iff.mp hbk
  obtain ⟨hfoundKey, hpos, he⟩ := (findEntry_iff h).mp hf
  have hs : found = idx := h.indexes.distinct hfoundKey hkey
  rw [hs] at he
  have hi : idx < tbl.capacity := lt_of_live hkey
  refine ⟨h.sized.congr length_set length_set length_set, ?_, ?_⟩
  · rw [bucketAt_set hpos, liveKey_set hi]
    simp only [length_set]
    exact h.indexes.delete hpos he
  · have hnx : idx < tbl.nextFree.length := by
      rw [h.sized.nextFree]
      exact hi
    have hhead : idx + 1 < 2 ^ 32 := by
      have := h.sized.index_lt hi
      omega
    have hused : ¬ tbl.IsFree idx := by
      rintro ⟨-, hn⟩
      rw [hkey] at hn
      cases hn
    rw [nextAt_set hnx, decode_encode_optional hhead]
    refine (h.free.push hused).congr ?_
    intro other
    simp only [IsFree, capacity, length_set]
    rw [liveKey_set hi]
    by_cases heq : other = idx
    · rw [heq, update_self]
      exact iff_of_true (.inr rfl) ⟨hi, rfl⟩
    · rw [update_of_ne heq]
      exact or_iff_left heq

end Steps

/-! ## New tables -/

section Fresh

variable {tbl : WeakCollection} {requested : Nat}

theorem liveKey_replicate (cnt : Nat) (buckets nextFree : List UInt32) (freeHead : UInt32) :
    liveKey ⟨List.replicate cnt none, buckets, nextFree, freeHead⟩ = fun _ => none := by
  funext idx
  rw [liveKey, entryAt, getElem?_replicate]
  split
  · rfl
  · rfl

theorem bucketAt_replicate (cnt : Nat) (entries : List (Option Ephemeron)) (nextFree : List UInt32)
    (freeHead : UInt32) :
    bucketAt ⟨entries, List.replicate cnt emptyBucket, nextFree, freeHead⟩ = fun _ => .empty := by
  funext pos
  rw [bucketAt, getD_eq_getElem?_getD, getElem?_replicate]
  split
  · rfl
  · rfl

theorem withCapacity_eq (h : withCapacity requested = some tbl) (hpos : requested ≠ 0) :
    (∃ exponent, requested = 2 ^ exponent) ∧ tbl.capacity = requested ∧
      tbl.liveKey = fun _ => none := by
  rw [withCapacity] at h
  split at h
  · cases h
  next hpower =>
    split_ifs at h
    cases h
    refine ⟨⟨requested.log2, ?_⟩, length_replicate, liveKey_replicate ..⟩
    simp only [hpos, ne_eq, not_false_eq_true, decide_true, Bool.true_and, Bool.not_eq_true,
      Bool.not_eq_false', isPowerOfTwo, decide_eq_true_eq] at hpower
    exact hpower

theorem wellFormed_withCapacity (h : withCapacity requested = some tbl) (hpos : requested ≠ 0)
    (hsm : requested < 2 ^ 32) : tbl.WellFormed := by
  obtain ⟨hpower, hcap, hlive⟩ := withCapacity_eq h hpos
  rw [withCapacity] at h
  split at h
  · cases h
  · split_ifs at h
    cases h
    refine ⟨⟨?_, ?_, ?_, ?_⟩, ?_, ?_⟩
    · rw [hcap]
      exact hpower
    · rw [hcap]
      exact hsm
    · rw [hcap]
      exact length_replicate
    · rw [hcap, length_map, length_range]
    · rw [hlive, bucketAt_replicate]
      exact Probing.Indexes.empty _ _
    · have hhead : decodeOptionalIndex (encodeOptionalIndex (some 0)) =
          if 0 < requested then some 0 else none := by
        rw [if_pos (pos_of_ne_zero hpos)]
        exact decode_encode_optional (by decide)
      rw [hhead]
      refine (Probing.Lists.ascending ?_).congr ?_
      · intro idx hi
        rw [nextAt, getD_eq_getElem?_getD, getElem?_map,
          getElem?_range hi, map_some]
        split
        · exact decode_encode_optional (by omega)
        · rfl
      · intro idx
        rw [IsFree, hcap, hlive]
        exact (and_iff_left rfl).symm

end Fresh

/-! ## Indexing again -/

section Rebuild

variable {tbl post : WeakCollection}

/-- The entries from `bound` on are indexed, and the free ones among them listed. -/
structure Rebuilding (entries : List (Option Ephemeron)) (bound : Nat) (tbl : WeakCollection) :
    Prop where
  sized : tbl.Sized
  entries : tbl.entries = entries
  indexes : Probing.Indexes tbl.buckets.length
    (fun key => weakKeyBucket key tbl.buckets.length) tbl.bucketAt
    fun idx => if bound ≤ idx then tbl.liveKey idx else none
  free : Probing.Lists tbl.nextAt (decodeOptionalIndex tbl.freeHead)
    fun idx => bound ≤ idx ∧ tbl.IsFree idx

variable {entries : List (Option Ephemeron)} {idx : Nat}

/-- One round indexes one more entry. -/
theorem rebuilding_step (h : Rebuilding entries (idx + 1) tbl) (hi : idx < tbl.capacity) (hdist : ∀
    {left right key}, tbl.liveKey left = some key → tbl.liveKey right = some key → left = right) :
    ∃ post, tbl.rebuildEntry idx = some post ∧ Rebuilding entries idx post := by
  have hnx : idx < tbl.nextFree.length := by
    rw [h.sized.nextFree]
    exact hi
  rw [rebuildEntry]
  cases hlive : tbl.liveKey idx with
  | none =>
    refine ⟨_, rfl, ?_, h.entries, ?_, ?_⟩
    · obtain ⟨hpower, hsm, hbuckets, hnx⟩ := h.sized
      exact ⟨hpower, hsm, hbuckets, by rwa [length_set]⟩
    · -- the entry has no key, so nothing more is indexed
      have hs : (fun other => if idx ≤ other then tbl.liveKey other else none) =
          fun other => if idx + 1 ≤ other then tbl.liveKey other else none := by
        funext other
        by_cases heq : other = idx
        · rw [heq, if_pos (le_refl _), hlive, if_neg (by omega)]
        · by_cases hle : idx ≤ other
          · rw [if_pos hle, if_pos (by omega)]
          · rw [if_neg hle, if_neg (by omega)]
      have hindexes := h.indexes
      rw [← hs] at hindexes
      exact hindexes
    · have hhead : idx + 1 < 2 ^ 32 := by
        have := h.sized.index_lt hi
        omega
      rw [nextAt_set hnx, decode_encode_optional hhead]
      refine (h.free.push ?_).congr ?_
      · rintro ⟨hle, -⟩
        omega
      · intro other
        show (idx + 1 ≤ other ∧ tbl.IsFree other) ∨ other = idx ↔ idx ≤ other ∧ tbl.IsFree other
        constructor
        · rintro (⟨hle, hfree⟩ | rfl)
          · exact ⟨by omega, hfree⟩
          · exact ⟨le_refl _, hi, hlive⟩
        · rintro ⟨hle, hfree⟩
          by_cases heq : other = idx
          · exact .inr heq
          · exact .inl ⟨by omega, hfree⟩
  | some key =>
    have hkeyOf : ∀ other, (if idx + 1 ≤ other then tbl.liveKey other else none) ≠ some key := by
      intro other ho
      split at ho
      · have := hdist ho hlive
        omega
      · cases ho
    have hkeys : ∀ {other : Nat},
        (if idx + 1 ≤ other then tbl.liveKey other else none).isSome → other < tbl.capacity := by
      intro other ho
      split at ho
      · obtain ⟨shared, hshared⟩ := isSome_iff_exists.mp ho
        exact lt_of_live hshared
      · cases ho
    have hsize : tbl.capacity < tbl.buckets.length := by
      rw [h.sized.buckets]
      omega
    obtain ⟨bucket, hbk⟩ := isSome_iff_exists.mp (h.indexes.insertion_isSome hkeys hsize key)
    have hpos : bucket < tbl.buckets.length := by
      rcases Probing.insertion_sound hbk with hn | ⟨hreached, -⟩
      · cases hn
      · exact Probing.mem_path.mp hreached.mem
    obtain ⟨code, hcode, hdec⟩ := decode_encodeEntry (h.sized.index_lt hi)
    have hinsertion : insertionBucket
        { tbl with nextFree := tbl.nextFree.set idx emptyBucket } key = some bucket := by
      rw [insertionBucket]
      rw [h.sized.path_eq]
      exact hbk
    dsimp only
    rw [hinsertion]
    rw [hcode]
    refine ⟨_, rfl, ?_, h.entries, ?_, ?_⟩
    · obtain ⟨hpower, hsm, hbuckets, hnx⟩ := h.sized
      exact ⟨hpower, hsm, by rwa [length_set], by rwa [length_set]⟩
    · rw [bucketAt_set hpos, hdec]
      have hs : (fun other => if idx ≤ other then tbl.liveKey other else none) =
          update (fun other => if idx + 1 ≤ other then tbl.liveKey other else none)
            idx (some key) := by
        funext other
        by_cases heq : other = idx
        · rw [heq, update_self, if_pos (le_refl _), hlive]
        · rw [update_of_ne heq]
          by_cases hle : idx ≤ other
          · rw [if_pos hle, if_pos (by omega)]
          · rw [if_neg hle, if_neg (by omega)]
      have hn : (if idx + 1 ≤ idx then tbl.liveKey idx else none) = none := if_neg (by omega)
      have hinserted := h.indexes.insert hn hkeyOf hbk
      rw [← hs] at hinserted
      simp only [length_set]
      exact hinserted
    · rw [nextAt_set hnx]
      refine (h.free.update (fun hm => absurd hm.1 (by omega)) _).congr ?_
      intro other
      constructor
      · rintro ⟨hle, hfree⟩
        exact ⟨by omega, hfree⟩
      · rintro ⟨hle, hfree⟩
        refine ⟨?_, hfree⟩
        by_contra hlt
        have heq : other = idx := by omega
        have hn : tbl.liveKey other = none := hfree.2
        rw [heq, hlive] at hn
        cases hn

/-- The rounds from a bound down to the first entry. -/
theorem rebuilding_run (bound : Nat) (h : Rebuilding entries bound tbl) (hbound : bound ≤
    entries.length) (hdist : ∀ {left right key}, tbl.liveKey left = some key → tbl.liveKey right =
    some key → left = right) :
    ∃ post, (List.range bound).foldr (fun idx rebuilt => rebuilt.bind (rebuildEntry · idx))
      (some tbl) = some post ∧ Rebuilding entries 0 post := by
  induction bound generalizing tbl with
  | zero => exact ⟨tbl, rfl, h⟩
  | succ bound ih =>
    have hi : bound < tbl.capacity := by
      rw [capacity, h.entries]
      omega
    obtain ⟨next, hn, hrebuilding⟩ := rebuilding_step h hi hdist
    have hlive : next.liveKey = tbl.liveKey := by
      funext idx
      rw [liveKey, liveKey, entryAt, entryAt, hrebuilding.entries, h.entries]
    rw [range_succ, foldr_append, foldr_cons, foldr_nil, bind_some, hn]
    refine ih hrebuilding (by omega) ?_
    rw [hlive]
    exact hdist

variable {cleared : Nat → Bool}

theorem liveKey_clearKeys {key : RawHeapRef} (h : (tbl.clearKeys cleared).liveKey idx = some key) :
    tbl.liveKey idx = some key := by
  rw [liveKey, entryAt, clearKeys] at h
  simp only [getElem?_mapIdx] at h
  rw [liveKey, entryAt]
  cases he : tbl.entries[idx]? with
  | none =>
    rw [he] at h
    cases h
  | some ent =>
    rw [he, map_some] at h
    split at h
    · cases ent with
      | none | some ent => cases h
    · exact h

theorem WellFormed.collect (h : tbl.WellFormed) (hrebuild : (tbl.clearKeys
    cleared).rebuildIndexInPlace = some post) : post.WellFormed := by
  have hlen : (tbl.clearKeys cleared).entries.length = tbl.capacity := by
    rw [clearKeys]
    simp only [length_mapIdx, capacity]
  have hbuckets : ((tbl.clearKeys cleared).buckets.map fun _ => emptyBucket) =
      replicate tbl.buckets.length emptyBucket := map_const' ..
  rw [rebuildIndexInPlace, hbuckets] at hrebuild
  have hdist : ∀ {left right key}, (tbl.clearKeys cleared).liveKey left = some key →
      (tbl.clearKeys cleared).liveKey right = some key → left = right := by
    intro left right key hl hr
    exact h.indexes.distinct (liveKey_clearKeys hl) (liveKey_clearKeys hr)
  -- no entry is indexed yet
  have hst : Rebuilding (tbl.clearKeys cleared).entries (tbl.clearKeys cleared).entries.length
      ⟨(tbl.clearKeys cleared).entries, replicate tbl.buckets.length emptyBucket,
        tbl.nextFree, emptyBucket⟩ := by
    refine ⟨⟨?_, ?_, ?_, ?_⟩, rfl, ?_, ?_⟩
    · rw [capacity, hlen]
      exact h.sized.power
    · rw [capacity, hlen]
      exact h.sized.small
    · rw [capacity, hlen, length_replicate]
      exact h.sized.buckets
    · rw [capacity, hlen]
      exact h.sized.nextFree
    · rw [bucketAt_replicate]
      have hn : (fun idx => if (tbl.clearKeys cleared).entries.length ≤ idx then
          liveKey ⟨(tbl.clearKeys cleared).entries,
            replicate tbl.buckets.length emptyBucket, tbl.nextFree, emptyBucket⟩ idx
          else none) = fun _ => none := by
        funext idx
        split_ifs with hle
        · rw [liveKey, entryAt, getElem?_eq_none hle]
          rfl
        · rfl
      rw [hn]
      exact Probing.Indexes.empty _ _
    · refine Probing.Lists.nil _ ?_
      rintro idx ⟨hle, hlt, -⟩
      rw [capacity] at hlt
      dsimp only at hlt
      omega
  obtain ⟨rebuilt, hrebuilt, hfinal⟩ := rebuilding_run _ hst (Nat.le_refl _) hdist
  have hs : rebuilt = post := some.inj (hrebuilt.symm.trans hrebuild)
  rw [← hs]
  refine ⟨hfinal.sized, ?_, hfinal.free.congr fun idx => and_iff_right (Nat.zero_le _)⟩
  have hindexes := hfinal.indexes
  exact hindexes

end Rebuild

/-! ## Growth -/

section Growth

variable {tbl post : WeakCollection}

/-- The live keys among a list of entries. -/
def liveKeys (entries : List (Option Ephemeron)) : List RawHeapRef :=
  entries.filterMap fun entry => entry.bind Ephemeron.key

variable {entries : List (Option Ephemeron)}

/-- The live keys of a table stand in different entries. -/
theorem nodup_liveKeys (h : ∀ {left right : Nat} {key : RawHeapRef}, (entries[left]?).join.bind
    Ephemeron.key = some key → (entries[right]?).join.bind Ephemeron.key = some key → left = right)
    :
    (liveKeys entries).Nodup := by
  rw [liveKeys, List.Nodup, pairwise_filterMap, pairwise_iff_getElem]
  intro left right hl hr hlt key hkey other ho
  rintro rfl
  have heq := @h left right key (by rw [getElem?_eq_getElem hl]; exact hkey)
    (by rw [getElem?_eq_getElem hr]; exact ho)
  omega

/-- The copies keep the new table well-formed, since no key is copied twice. -/
theorem copyEntries (h : tbl.WellFormed) (hnodup : (liveKeys entries).Nodup) (hfr : ∀ key ∈ liveKeys
    entries, ∀ idx, tbl.liveKey idx ≠ some key) (hcopy : entries.foldlM copyEntry tbl = some post) :
    post.WellFormed := by
  induction entries generalizing tbl with
  | nil =>
    cases hcopy
    exact h
  | cons ent rest ih =>
    obtain ⟨next, hn, hrest⟩ := bind_eq_some_iff.mp hcopy
    cases hkey : ent.bind Ephemeron.key with
    | none =>
      have hs : next = tbl := by
        simp only [copyEntry, hkey, some.injEq] at hn
        exact hn.symm
      have hrestKeys : liveKeys (ent :: rest) = liveKeys rest := by
        simp only [liveKeys, filterMap_cons, hkey]
      rw [hrestKeys] at hnodup hfr
      rw [hs] at hrest
      exact ih h hnodup hfr hrest
    | some key =>
      have hrestKeys : liveKeys (ent :: rest) = key :: liveKeys rest := by
        simp only [liveKeys, filterMap_cons, hkey]
      rw [hrestKeys] at hnodup hfr
      obtain ⟨copied, rfl, hcopied⟩ := bind_eq_some_iff.mp hkey
      simp only [copyEntry, hkey] at hn
      obtain ⟨idx, hi, hn⟩ := bind_eq_some_iff.mp hn
      split at hn
      next grown hinstall =>
        cases hn
        have hab : ∀ key', copied.key = some key' → ∀ other, tbl.liveKey other ≠ some key' := by
          intro key' hkey'
          have heq : key' = key := some.inj (hkey'.symm.trans hcopied)
          rw [heq]
          exact hfr key mem_cons_self
        refine ih (h.install hab hinstall) hnodup.of_cons ?_ hrest
        intro other ho place hplace
        obtain ⟨key', bucket, code, hkey', hlt, -, -, -, -, rfl⟩ := installAt_eq hinstall
        rw [liveKey_set hlt, bind_some, hcopied] at hplace
        by_cases heq : place = idx
        · rw [heq, update_self] at hplace
          cases hplace
          exact (nodup_cons.mp hnodup).1 ho
        · rw [update_of_ne heq] at hplace
          exact hfr other (mem_cons_of_mem _ ho) place hplace
      · cases hn

theorem WellFormed.grow {requested : Nat} (h : tbl.WellFormed)
    (hgrow : tbl.growCopy requested = some post) (hsm : requested < 2 ^ 32) : post.WellFormed := by
  rw [growCopy] at hgrow
  split_ifs at hgrow
  obtain ⟨grown, hgrown, hcopy⟩ := bind_eq_some_iff.mp hgrow
  have hpos : requested ≠ 0 := by
    obtain ⟨exponent, hpower⟩ := h.sized.power
    have := Nat.two_pow_pos exponent
    omega
  refine copyEntries (wellFormed_withCapacity hgrown hpos hsm) ?_ ?_ hcopy
  · exact nodup_liveKeys h.indexes.distinct
  · intro key _ idx hlive
    rw [(withCapacity_eq hgrown hpos).2.2] at hlive
    cases hlive

end Growth

/-! ## Runs -/

/-- A step after which the capacity fits the codes. -/
def CodedStep (tbl post : WeakCollection) : Prop := Step tbl post ∧ post.capacity < 2 ^ 32

theorem capacity_copyEntry {ent : Option Ephemeron} (h : tbl.copyEntry ent = some post) :
    post.capacity = tbl.capacity := by
  simp only [copyEntry] at h
  split at h
  · obtain ⟨idx, -, h⟩ := bind_eq_some_iff.mp h
    split at h
    next hinstall =>
      cases h
      obtain ⟨_, _, _, -, -, -, -, -, -, rfl⟩ := installAt_eq hinstall
      rw [capacity, length_set]
      rfl
    · cases h
  · cases h
    rfl

theorem capacity_growCopy {requested : Nat} (h : tbl.growCopy requested = some post) :
    post.capacity = requested := by
  have hfold : ∀ (entries : List (Option Ephemeron)) (grown : WeakCollection),
      entries.foldlM copyEntry grown = some post → post.capacity = grown.capacity := by
    intro entries
    induction entries with
    | nil =>
      intro grown h
      cases h
      rfl
    | cons ent rest ih =>
      intro grown h
      obtain ⟨next, hn, hrest⟩ := bind_eq_some_iff.mp h
      rw [ih next hrest, capacity_copyEntry hn]
  rw [growCopy] at h
  split at h
  · cases h
  · obtain ⟨grown, hgrown, hcopy⟩ := bind_eq_some_iff.mp h
    rw [hfold _ _ hcopy]
    rw [withCapacity] at hgrown
    split at hgrown
    · cases hgrown
    · split at hgrown
      · cases hgrown
      · cases hgrown
        exact length_replicate

theorem WellFormed.step (h : tbl.WellFormed) (hstep : CodedStep tbl post) : post.WellFormed := by
  obtain ⟨hstep, hsm⟩ := hstep
  cases hstep with
  | install key val idx hab hi hinstall =>
    refine h.install ?_ hinstall
    intro key' hkey'
    cases hkey'
    exact absent_of_findIndex h hab
  | update idx val hupdate => exact h.update hupdate
  | delete idx hdelete => exact h.delete hdelete
  | collect cleared hrebuild => exact h.collect hrebuild
  | grow requested hgrow =>
    rw [capacity_growCopy hgrow] at hsm
    exact h.grow hgrow hsm

/-- A table of a capacity that fits the codes stays a finite map while it is used, collected and
grown. -/
theorem weak_collection_map {exponent : Nat} {start tbl : WeakCollection}
    (hst : withCapacity (2 ^ exponent) = some start) (hsm : start.capacity < 2 ^ 32)
    (hrun : ReflTransGen CodedStep start tbl) : tbl.IsFiniteMap := by
  have hpos : 2 ^ exponent ≠ 0 := ne_of_gt (Nat.two_pow_pos exponent)
  have hfr : start.WellFormed := by
    rw [(withCapacity_eq hst hpos).2.1] at hsm
    exact wellFormed_withCapacity hst hpos hsm
  have hval : tbl.WellFormed := by
    induction hrun with
    | refl => exact hfr
    | tail _ hstep ih => exact ih.step hstep
  exact hval.isFiniteMap

/-- A new table for two keys. -/
def sample : WeakCollection :=
  { entries := [none, none], buckets := [0, 0, 0, 0], nextFree := [2, 0], freeHead := 1 }

def sampleKey (spanId : Nat) : RawHeapRef := ⟨spanId, Gc.firstOffset⟩

/-- Two keys are set, and the collector clears the first. -/
theorem weak_collection_map_cleared :
    ∃ tbl, ReflTransGen CodedStep sample tbl ∧ tbl.IsFiniteMap := by
  have hst : withCapacity (2 ^ 1) = some sample := by decide
  let one := (sample.installAt 0 ⟨some (sampleKey 0), .undefined⟩).2
  let two := (one.installAt 1 ⟨some (sampleKey 1), .undefined⟩).2
  have hone : CodedStep sample one :=
    ⟨.install (sampleKey 0) .undefined 0 (by decide) (by decide) (by decide), by decide⟩
  have htwo : CodedStep one two :=
    ⟨.install (sampleKey 1) .undefined 1 (by decide) (by decide) (by decide), by decide⟩
  have hrebuilt : ((two.clearKeys fun idx => idx = 0).rebuildIndexInPlace).isSome := by decide
  obtain ⟨tbl, ht⟩ := isSome_iff_exists.mp hrebuilt
  have hfr : sample.WellFormed := wellFormed_withCapacity hst (by decide) (by decide)
  have hsm := (((hfr.step hone).step htwo).collect ht).sized.small
  have hrun : ReflTransGen CodedStep sample tbl :=
    .tail (.tail (.single hone) htwo) ⟨.collect _ ht, hsm⟩
  exact ⟨tbl, hrun, weak_collection_map hst (by decide) hrun⟩

/-- The list of a new table with `2 ^ 32` entries does not reach the last one. -/
theorem weak_collection_map_wraps :
    ∃ tbl, withCapacity (2 ^ 32) = some tbl ∧ ¬ tbl.IsFiniteMap := by
  obtain ⟨tbl, ht⟩ : ∃ tbl, withCapacity (2 ^ 32) = some tbl := by
    exact ⟨_, rfl⟩
  refine ⟨tbl, ht, ?_⟩
  intro hmap
  obtain ⟨-, hcap, hlive⟩ := withCapacity_eq ht (by decide)
  -- a code never decodes to the last index
  have hl : tbl.IsFree (2 ^ 32 - 1) := by
    refine ⟨?_, ?_⟩
    · rw [hcap]
      decide
    · rw [hlive]
  obtain ⟨list, hchain, -, hmembers⟩ := hmap.free
  have hm := (hmembers (2 ^ 32 - 1)).mpr hl
  have hcoded := hchain.forall_mem (fun idx => idx + 1 < 2 ^ 32)
    (fun idx hi => decodeOptional_lt hi)
    (fun idx other ho => decodeOptional_lt ho) _ hm
  omega

end WeakCollection

end TachyonEngine.Vm
