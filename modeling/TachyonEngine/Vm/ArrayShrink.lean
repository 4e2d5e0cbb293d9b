import TachyonEngine.Vm.ArrayLength

/-!
# A shorter length

A shorter length is published first. Then the indices from it on are deleted, the largest first, and
one that cannot be deleted makes its successor the length. A requested read-only length is kept back
until then. What is left is the Array below its final length, unless a request for memory is refused
on the way.
-/

namespace TachyonEngine.Vm

open Lib Lib.Attempt List

namespace PropertyObject

variable {host : PropertyHost} {mem : MemoryRequest → Bool} {obj post : PropertyObject}
  {key : PropertyKey} {length : Nat} {writable : Bool}

section

variable {idx : Nat} (h : host.arrayPropertyIndex key = some idx)

include h

/-- An index is not the key of the length. -/
theorem ne_lengthKey : key ≠ host.lengthKey := by
  rintro rfl
  rw [index_lengthKey] at h
  cases h

theorem isPrivate_of_index : key.isPrivate = false := by
  rw [(AtomTable.eq_indexKey h).1]
  rfl

theorem index_lt : idx + 1 < 2 ^ 32 := by
  have hmax : idx ≤ maxArrayIndex := (AtomTable.eq_indexKey h).2
  simp only [maxArrayIndex] at hmax
  omega

end

/-- The properties do not depend on anything but the list and the elements. -/
theorem ownProperty_congr (hex : post.exotic = obj.exotic)
    (hlook : post.lookup key = obj.lookup key) :
    post.ownProperty host key = obj.ownProperty host key := by
  have hd : post.denseArrayValue host key = obj.denseArrayValue host key := by
    simp only [denseArrayValue, PropertyObject.elements, hex]
  simp only [ownProperty, hd, hlook]

theorem isSome_ownProperty (h : obj.WellFormed host) (key : PropertyKey) :
    (obj.ownProperty host key).isSome ↔
      (obj.denseArrayValue host key).isSome ∨ (obj.lookup key).isSome := by
  rw [← Option.ne_none_iff_isSome, ne_eq, h.absent_iff, not_and_or, ← ne_eq, ← ne_eq,
    Option.ne_none_iff_isSome, Option.ne_none_iff_isSome]

/-! ## Deletions -/

/-- An index that a shorter length cannot delete. -/
def Blocks (host : PropertyHost) (obj : PropertyObject) (newLength : Nat) (key : PropertyKey)
    (idx : Nat) : Prop :=
  host.arrayPropertyIndex key = some idx ∧ newLength ≤ idx ∧
    ∃ property, obj.lookup key = some property ∧ property.attributes.configurable = false

/-- What a deletion does to the properties, to the lists and to the length of an Array. -/
structure Erases (host : PropertyHost) (obj : PropertyObject) (key : PropertyKey)
    (post : PropertyObject) : Prop where
  gone : post.ownProperty host key = none
  others : ∀ other, other ≠ key → other.isPrivate = false →
    post.ownProperty host other = obj.ownProperty host other
  found : ∀ other property, post.lookup other = some property → obj.lookup other = some property
  kept : ∀ other property, obj.lookup other = some property →
    property.attributes.configurable = false → other.isPrivate = false →
    post.lookup other = some property
  array : post.isArray = obj.isArray

theorem Deleted.erases (h : obj.WellFormed host) (hdeleted : Deleted host obj key true post)
    (ha : post.WellFormed host) : Erases host obj key post := by
  cases hdeleted with
  | @dense idx _ spelled present written =>
    obtain ⟨harray, elements, hbacked, rfl, hvalues⟩ := written
    obtain ⟨val, hv⟩ := Option.isSome_iff_exists.mp present
    have hd : obj.denseArrayValue host key = some val := by
      rw [denseArrayValue_eq, spelled, Option.bind_some, hv]
    refine ⟨ha.absent_iff.mpr ⟨?_, h.separate key val hd⟩, ?_, fun _ _ hf => hf,
      fun _ _ hf _ _ => hf, harray.symm⟩
    · rw [denseArrayValue_withElements, spelled, Option.bind_some, hvalues, if_pos rfl]
    · intro other hne _
      have hs : (obj.withElements elements).denseArrayValue host other =
          obj.denseArrayValue host other := by
        rw [denseArrayValue_withElements, denseArrayValue_eq]
        cases hi : host.arrayPropertyIndex other with
        | none => rfl
        | some i =>
          rw [Option.bind_some, Option.bind_some, hvalues, if_neg]
          rintro rfl
          exact hne (key_of_index spelled hi)
      simp only [ownProperty, hs, lookup_withElements]
  | absent missing =>
    exact ⟨missing, fun _ _ _ => rfl, fun _ _ hf => hf, fun _ _ hf _ _ => hf, rfl⟩
  | @removed removed found configurable =>
    have hlook := fun other => lookup_retained h.nodup key other
    have hd : obj.denseArrayValue host key = none := by
      cases hd : obj.denseArrayValue host key with
      | none => rfl
      | some val =>
        rw [h.separate key val hd] at found
        cases found
    refine ⟨ha.absent_iff.mpr ⟨hd, ?_⟩, ?_, ?_, ?_, rfl⟩
    · rw [hlook, if_pos (.inl rfl)]
    · intro other hne hpub
      simp only [ownProperty, denseArrayValue_withProperties, hlook]
      rw [if_neg]
      rintro (hs | hpriv)
      · exact hne hs
      · rw [hpub] at hpriv
        cases hpriv
    · intro other prop hf
      rw [hlook] at hf
      split_ifs at hf
      exact hf
    · intro other prop hf hfixed hpub
      rw [hlook, if_neg, hf]
      rintro (rfl | hpriv)
      · rw [found] at hf
        cases hf
        rw [configurable] at hfixed
        cases hfixed
      · rw [hpub] at hpriv
        cases hpriv

theorem Erases.hasLength (h : obj.HasLength host length writable)
    (herases : Erases host obj key post) (ha : post.WellFormed host) :
    post.HasLength host length writable := by
  obtain ⟨prop, hf, hrest⟩ := h.stored
  refine ⟨ha, herases.array.trans h.array, h.small, prop, ?_, hrest⟩
  exact herases.kept host.lengthKey prop hf hrest.2.2.2 rfl

variable {other : PropertyKey}

/-- An index that is left was there before, and it is not the one of the deletion. -/
theorem Erases.present (herases : Erases host obj key post) {idx : Nat} (hi :
    host.arrayPropertyIndex other = some idx) (hpres : (post.ownProperty host other).isSome) :
    (obj.ownProperty host other).isSome ∧ other ≠ key := by
  have hne : other ≠ key := by
    rintro rfl
    rw [herases.gone] at hpres
    cases hpres
  rw [herases.others other hne (isPrivate_of_index hi)] at hpres
  exact ⟨hpres, hne⟩

variable {newLength idx : Nat}

theorem Erases.blocks_iff (herases : Erases host obj key post) :
    Blocks host post newLength other idx ↔ Blocks host obj newLength other idx := by
  refine and_congr_right ?_
  intro hi
  refine and_congr_right ?_
  intro _
  constructor
  · rintro ⟨prop, hf, hfixed⟩
    exact ⟨prop, herases.found other prop hf, hfixed⟩
  · rintro ⟨prop, hf, hfixed⟩
    exact ⟨prop, herases.kept other prop hf hfixed (isPrivate_of_index hi), hfixed⟩

theorem Blocks.present (h : obj.WellFormed host) (hblocks : Blocks host obj newLength other idx) :
    (obj.ownProperty host other).isSome := by
  obtain ⟨-, -, prop, hf, -⟩ := hblocks
  rw [h.ownProperty_of_lookup hf]
  rfl

/-- The properties of `object` without the indices from `bound` on. -/
structure CutAt (host : PropertyHost) (obj : PropertyObject) (bound : Nat)
    (post : PropertyObject) : Prop where
  gone : ∀ key idx, host.arrayPropertyIndex key = some idx → bound ≤ idx →
    post.ownProperty host key = none
  kept : ∀ key, key ≠ host.lengthKey → key.isPrivate = false →
    (∀ idx, host.arrayPropertyIndex key = some idx → idx < bound) →
    post.ownProperty host key = obj.ownProperty host key

/-- The largest index that a shorter length cannot delete. -/
def HighestBlock (host : PropertyHost) (obj : PropertyObject) (newLength idx : Nat) : Prop :=
  IsGreatest {blocked | ∃ key, Blocks host obj newLength key blocked} idx

/-- A deletion of a shorter length that is refused: one of an index above all that block. -/
structure RemovalRefused (host : PropertyHost) (mem : MemoryRequest → Bool)
    (obj : PropertyObject) (newLength : Nat) (key : PropertyKey) (idx : Nat) : Prop where
  spelled : host.arrayPropertyIndex key = some idx
  removed : newLength ≤ idx
  listed : (obj.lookup key).isSome
  above : ∀ other blocked, Blocks host obj newLength other blocked → blocked < idx
  refused : mem (.removal key) = false

/-- The deletions of a shorter length, from the largest index on. They stop at the largest index
that cannot be deleted. -/
theorem ends_deleteShrunk (keys : List (Nat × PropertyKey)) :
    ∀ obj : PropertyObject, obj.HasLength host length writable →
      (∀ ent ∈ keys, host.arrayPropertyIndex ent.2 = some ent.1 ∧ newLength ≤ ent.1) →
      keys.Pairwise (fun left right => right.1 ≤ left.1) →
      (∀ key idx, host.arrayPropertyIndex key = some idx → newLength ≤ idx →
        (obj.ownProperty host key).isSome → (idx, key) ∈ keys) →
      Ends (deleteShrunk host mem keys) (fun blocked post => post.HasLength host length writable ∧
          match blocked with
          | none => (∀ key idx, ¬ Blocks host obj newLength key idx) ∧ CutAt host obj newLength post
          | some idx => HighestBlock host obj newLength idx ∧ CutAt host obj (idx + 1) post)
        (fun err _ => ∃ key idx, err = .refused (.removal key) ∧
          RemovalRefused host mem obj newLength key idx) obj := by
  induction keys with
  | nil =>
    intro obj h _ _ hcover
    have hnone : ∀ key idx, host.arrayPropertyIndex key = some idx → newLength ≤ idx →
        obj.ownProperty host key = none := by
      intro key idx hi hle
      rw [← Option.not_isSome_iff_eq_none]
      intro hpres
      cases hcover key idx hi hle hpres
    refine ⟨h, ?_, hnone, fun _ _ _ _ => rfl⟩
    intro key idx hblocks
    have hpres := hblocks.present h.wellFormed
    rw [hnone key idx hblocks.1 hblocks.2.1] at hpres
    cases hpres
  | cons ent rest ih =>
    obtain ⟨idx, key⟩ := ent
    intro obj h hspelled hsort hcover
    obtain ⟨hix, hle⟩ := hspelled (idx, key) mem_cons_self
    have hlargest : ∀ other i, host.arrayPropertyIndex other = some i → newLength ≤ i →
        (obj.ownProperty host other).isSome → i ≤ idx := by
      intro other i hi hnew hpres
      rcases mem_cons.mp (hcover other i hi hnew hpres) with heq | hm
      · exact (congrArg Prod.fst heq).le
      · exact (pairwise_cons.mp hsort).1 (i, other) hm
    have hblocked : ∀ other i, Blocks host obj newLength other i → i ≤ idx :=
      fun other i hblocks => hlargest other i hblocks.1 hblocks.2.1 (hblocks.present h.wellFormed)
    rw [deleteShrunk, ends_bind]
    refine (ends_delete h.wellFormed key).imp ?_ ?_
    · intro deleted post hdeleted
      cases deleted with
      | true =>
        have ha := (hdeleted.changes h.wellFormed).wellFormed h.wellFormed
        have herases := hdeleted.erases h.wellFormed ha
        -- an index below a bound that is not above `index` is not the one deleted here
        have hcut : ∀ {bound final}, bound ≤ idx → CutAt host post bound final →
            CutAt host obj bound final := by
          intro bound final hbound hcut
          refine ⟨hcut.gone, ?_⟩
          intro other hne hpub hbelow
          rw [hcut.kept other hne hpub hbelow, herases.others other _ hpub]
          rintro rfl
          have := hbelow idx hix
          omega
        have hrest := ih post (herases.hasLength h ha)
          (fun ent he => hspelled ent (mem_cons_of_mem _ he))
          (pairwise_cons.mp hsort).2 ?_
        · refine hrest.imp ?_ ?_
          · rintro blocked final ⟨hlen, hres⟩
            refine ⟨hlen, ?_⟩
            cases blocked with
            | none =>
              exact ⟨fun other i hblocks => hres.1 other i (herases.blocks_iff.mpr hblocks),
                hcut hle hres.2⟩
            | some blocked =>
              obtain ⟨⟨⟨other, hblocks⟩, hmost⟩, hbelow⟩ := hres
              refine ⟨⟨⟨other, herases.blocks_iff.mp hblocks⟩, ?_⟩, hcut ?_ hbelow⟩
              · rintro i ⟨another, hanother⟩
                exact hmost ⟨another, herases.blocks_iff.mpr hanother⟩
              · -- the index that blocks is another one than the deleted
                obtain ⟨hpres, hne⟩ := herases.present hblocks.1 (hblocks.present ha)
                rcases lt_or_eq_of_le (hlargest other blocked hblocks.1 hblocks.2.1 hpres)
                  with hlt | rfl
                · exact hlt
                · exact absurd (key_of_index hix hblocks.1) hne
          · rintro err final ⟨other, i, herr, href⟩
            obtain ⟨prop, hf⟩ := Option.isSome_iff_exists.mp href.listed
            refine ⟨other, i, herr, href.spelled, href.removed, ?_, ?_, href.refused⟩
            · rw [herases.found other prop hf]
              rfl
            · exact fun blocking blocked hblocks =>
                href.above blocking blocked (herases.blocks_iff.mpr hblocks)
        · intro other i hi hnew hpres
          obtain ⟨hpres, hne⟩ := herases.present hi hpres
          rcases mem_cons.mp (hcover other i hi hnew hpres) with heq | hm
          · exact absurd (congrArg Prod.snd heq) hne
          · exact hm
      | false =>
        cases hdeleted with
        | blocked found fixed =>
          refine ⟨h, ⟨⟨key, hix, hle, _, found, fixed⟩, ?_⟩, ?_, fun _ _ _ _ => rfl⟩
          · rintro i ⟨other, hblocks⟩
            exact hblocked other i hblocks
          · intro other i hi habove
            rw [← Option.not_isSome_iff_eq_none]
            intro hpres
            have := hlargest other i hi (by omega) hpres
            omega
    · rintro err post ⟨rfl, herr, href, prop, hf, hconf⟩
      refine ⟨key, idx, herr, hix, hle, by rw [hf]; rfl, ?_, href⟩
      intro other blocked hblocks
      rcases lt_or_eq_of_le (hblocked other blocked hblocks) with hlt | rfl
      · exact hlt
      · obtain ⟨hspelled, -, blocking, hblocking, hfixed⟩ := hblocks
        rw [key_of_index hix hspelled, hf] at hblocking
        cases hblocking
        rw [hconf] at hfixed
        cases hfixed

/-- The keys of a shorter length: every present index from it on, the largest first. -/
theorem shrinkKeys_spec (h : obj.WellFormed host) (newLength : Nat) :
    (∀ ent ∈ obj.shrinkKeys host newLength,
        host.arrayPropertyIndex ent.2 = some ent.1 ∧ newLength ≤ ent.1) ∧
      (obj.shrinkKeys host newLength).Pairwise (fun left right => right.1 ≤ left.1) ∧
      ∀ key idx, host.arrayPropertyIndex key = some idx → newLength ≤ idx →
        (obj.ownProperty host key).isSome → (idx, key) ∈ obj.shrinkKeys host newLength := by
  have hd : ∀ idx, idx ∈ obj.elements.elim [] ArrayElements.presentIndices ↔
      (obj.denseAt idx).isSome := by
    intro idx
    rw [denseAt]
    cases obj.elements with
    | none => exact ⟨by rintro ⟨⟩, by rintro ⟨⟩⟩
    | some elements => exact ArrayElements.mem_presentIndices
  have hsm : ∀ idx, (obj.denseAt idx).isSome → idx ≤ maxArrayIndex := by
    intro idx hpres
    obtain ⟨val, hv⟩ := Option.isSome_iff_exists.mp hpres
    obtain ⟨elements, helems, hv⟩ := Option.bind_eq_some_iff.mp hv
    have hused := (h.backed elements helems).used_lt
    simp only [ArrayElements.value] at hv
    split at hv
    · simp only [maxArrayIndex]
      omega
    · cases hv
  refine ⟨?_, ?_, ?_⟩
  · rintro ⟨idx, key⟩ hm
    simp only [shrinkKeys, mem_mergeSort, mem_filter, mem_append, mem_map,
      mem_filterMap, decide_eq_true_eq] at hm
    obtain ⟨⟨i, hi, heq⟩ | ⟨prop, -, hspelled⟩, hle⟩ := hm
    · cases heq
      exact ⟨AtomTable.index_indexKey host.atoms (hsm idx ((hd idx).mp hi)), hle⟩
    · split at hspelled
      · obtain ⟨i, hi, heq⟩ := Option.map_eq_some_iff.mp hspelled
        cases heq
        exact ⟨hi, hle⟩
      · cases hspelled
  · have hsort : (obj.shrinkKeys host newLength).Pairwise
        (fun left right => decide (right.1 ≤ left.1) = true) := by
      apply pairwise_mergeSort
      · intro first second third hfirst hsec
        exact decide_eq_true (le_trans (of_decide_eq_true hsec) (of_decide_eq_true hfirst))
      · intro first second
        rw [Bool.or_eq_true, decide_eq_true_eq, decide_eq_true_eq]
        exact le_total _ _
    refine hsort.imp ?_
    intro left right hle
    exact of_decide_eq_true hle
  · intro key idx hix hle hpres
    simp only [shrinkKeys, mem_mergeSort, mem_filter, mem_append, mem_map,
      mem_filterMap, decide_eq_true_eq]
    refine ⟨?_, hle⟩
    rw [isSome_ownProperty h, denseArrayValue_eq, hix] at hpres
    rcases hpres with hpres | hpres
    · exact .inl ⟨idx, (hd idx).mpr hpres, Prod.ext rfl (AtomTable.eq_indexKey hix).1.symm⟩
    · obtain ⟨prop, hf⟩ := Option.isSome_iff_exists.mp hpres
      obtain ⟨hm, rfl⟩ := lookup_eq_some hf
      refine .inr ⟨prop, hm, ?_⟩
      rw [h.stored_lookup hf, Option.isSome_some, if_pos rfl, hix, Option.map_some]

/-! ## The new length -/

theorem CutAt.of_others {bound : Nat} (h : CutAt host obj bound post) {final : PropertyObject}
    (hs : ∀ key, key ≠ host.lengthKey → final.ownProperty host key = post.ownProperty host key) :
    CutAt host obj bound final := by
  refine ⟨?_, ?_⟩
  · intro key idx hi hle
    rw [hs key (ne_lengthKey hi)]
    exact h.gone key idx hi hle
  · intro key hne hpub hbelow
    rw [hs key hne]
    exact h.kept key hne hpub hbelow

/-- An Array as a shorter length leaves it: the Array below its length, with the flag that the
descriptor asks for. -/
structure ShortenedTo (host : PropertyHost) (obj : PropertyObject) (data : DataPropertyDescriptor)
    (length : Nat) (post : PropertyObject) : Prop where
  hasLength : post.HasLength host length (data.writable.getD true)
  cut : CutAt host obj length post

/-- The validation of the length lets a shorter one pass. -/
def Shortens (writable : Bool) (data : DataPropertyDescriptor) : Prop :=
  writable = true ∧ data.enumerable ≠ some true ∧ data.configurable ≠ some true

/-- A request that is refused on the way to a shorter length. -/
inductive ShrinkRefused (host : PropertyHost) (mem : MemoryRequest → Bool) (obj : PropertyObject)
    (next : Nat) (data : DataPropertyDescriptor) : MemoryRequest → PropertyObject → Prop where
  | listing {post : PropertyObject} (published : post.HasLength host next true)
      (kept : ∀ key, key ≠ host.lengthKey → post.ownProperty host key = obj.ownProperty host key)
      (refused : mem .ownKeys = false) : ShrinkRefused host mem obj next data .ownKeys post
  | removal {key : PropertyKey} {idx : Nat} {post : PropertyObject}
      (refused : RemovalRefused host mem obj next key idx) :
      ShrinkRefused host mem obj next data (.removal key) post
  | restoring {idx : Nat} {post : PropertyObject} (frozen : data.writable = some false)
      (blocks : HighestBlock host obj next idx)
      (refused : mem (.reconfiguration host.lengthKey) = false) :
      ShrinkRefused host mem obj next data (.reconfiguration host.lengthKey) post
  | freezing {post : PropertyObject} (published : post.HasLength host next true)
      (cut : CutAt host obj next post) (refused : mem (.reconfiguration host.lengthKey) = false) :
      ShrinkRefused host mem obj next data (.reconfiguration host.lengthKey) post

theorem ShrinkRefused.mem_eq_false {next : Nat} {data : DataPropertyDescriptor}
    {asked : MemoryRequest} (h : ShrinkRefused host mem obj next data asked post) :
    mem asked = false := by
  cases h with
  | listing _ _ refused | restoring _ _ refused | freezing _ _ refused => exact refused
  | removal refused => exact refused.refused

variable {next : Nat}

/-- A length that is not shorter is only redefined. -/
theorem ends_setLength_longer (h : obj.HasLength host length writable)
    (data : DataPropertyDescriptor) (hlonger : length ≤ next)
    {returns : Unit → PropertyObject → Prop} {fails : DescriptorError → PropertyObject → Prop} :
    Ends (arraySetLengthDescriptorCanonical host mem (.data data) next) returns fails obj ↔
      Ends (redefineArrayLength host mem (.data { data with value := some (safeIntegerValue next) }))
        returns fails obj := by
  rw [arraySetLengthDescriptorCanonical, ends_bind, ends_get, h.arrayLength_eq]
  dsimp only
  rw [h.truncated_eq, if_pos hlonger]

section

variable (h : obj.HasLength host length writable)

include h

/-- The dense elements past the last index that is left are holes already. -/
theorem ends_truncate {bound : Nat} (hgone : ∀ key idx, host.arrayPropertyIndex key = some idx →
      bound ≤ idx → obj.ownProperty host key = none) :
    Ends (truncateDenseArray bound) (fun _ post => post.HasLength host length writable ∧
        ∀ key, post.ownProperty host key = obj.ownProperty host key) (fun _ _ => False) obj := by
  refine (ends_truncateDense h.wellFormed bound).imp ?_ (fun _ _ hfalse => hfalse)
  rintro _ post (⟨-, rfl⟩ | ⟨elements, harray, hbacked, rfl, hvalues⟩)
  · exact ⟨h, fun _ => rfl⟩
  · have hkept : ∀ i val, elements.value i = some val → obj.denseAt i = some val := by
      intro i val hv
      rw [hvalues] at hv
      split at hv
      · exact hv
      · cases hv
    have ha := (change_lose h.wellFormed hbacked harray hkept).wellFormed h.wellFormed
    refine ⟨h.of_lookup ha rfl rfl, ?_⟩
    intro key
    have hd : (obj.withElements elements).denseArrayValue host key =
        obj.denseArrayValue host key := by
      rw [denseArrayValue_withElements, denseArrayValue_eq]
      cases hi : host.arrayPropertyIndex key with
      | none => rfl
      | some i =>
        rw [Option.bind_some, hvalues]
        split
        · rfl
        · have hab := (h.wellFormed.absent_iff.mp (hgone key i hi (by omega))).1
          rw [denseArrayValue_eq, hi] at hab
          exact hab.symm
    simp only [ownProperty, hd, lookup_withElements]

/-- How a shorter length ends. -/
theorem ends_shorten (data : DataPropertyDescriptor) (hshorter : next < length) :
    Ends (arraySetLengthDescriptorCanonical host mem (.data data) next)
      (fun _ post => Shortens writable data ∧ (∀ key idx, ¬ Blocks host obj next key idx) ∧
        ShortenedTo host obj data next post)
      (fun err post => post = obj ∧ ¬ Shortens writable data ∨ Shortens writable data ∧
        ((∃ idx, err = .invalidPropertyRedefinition ∧ HighestBlock host obj next idx ∧
            ShortenedTo host obj data (idx + 1) post) ∨
          ∃ asked, err = .refused asked ∧ ShrinkRefused host mem obj next data asked post))
      obj := by
  have hn : next < 2 ^ 32 := lt_trans hshorter h.small
  rw [arraySetLengthDescriptorCanonical, ends_bind, ends_get, h.arrayLength_eq]
  dsimp only
  rw [h.truncated_eq, if_neg (by omega)]
  split
  next hro =>
    refine .inl ⟨rfl, ?_⟩
    rintro ⟨rfl, -⟩
    exact hro rfl
  next hw =>
    obtain rfl : writable = true := by
      by_contra hro
      exact hw fun heq => hro (Option.some.inj heq)
    -- the descriptor that is published first leaves the length writable
    obtain ⟨flag, hflag, hpublished⟩ : ∃ flag : Option Bool, flag ≠ some false ∧
        (if data.writable = some false then
          ({ data with value := some (safeIntegerValue next), writable := some true } :
            DataPropertyDescriptor)
        else { data with value := some (safeIntegerValue next) }) =
          { data with value := some (safeIntegerValue next), writable := flag } := by
      by_cases hdelay : data.writable = some false
      · exact ⟨some true, by decide, if_pos hdelay⟩
      · exact ⟨data.writable, hdelay, if_neg hdelay⟩
    have hstill : ∀ {flag : Option Bool}, flag ≠ some false → flag.getD true = true := by
      intro flag hflag
      cases flag with
      | none => rfl
      | some val =>
        cases val with
        | false => exact absurd rfl hflag
        | true => rfl
    rw [hpublished, ends_bind]
    refine (ends_redefineLength h _ (.inl rfl) hn).imp ?_ ?_
    · rintro _ shrunk ⟨hlook, hex, hshrunk, -, henumerable, hconf⟩
      have hpass : Shortens true data := ⟨rfl, henumerable, hconf⟩
      have hshrunk : shrunk.HasLength host next true := hstill hflag ▸ hshrunk
      have hown : ∀ key, key ≠ host.lengthKey →
          shrunk.ownProperty host key = obj.ownProperty host key :=
        fun key hne => ownProperty_congr hex (hlook key hne)
      have hblocks : ∀ {key idx},
          Blocks host shrunk next key idx ↔ Blocks host obj next key idx := by
        intro key idx
        refine and_congr_right ?_
        intro hi
        rw [hlook key (ne_lengthKey hi)]
      have hhighest : ∀ {idx}, HighestBlock host shrunk next idx →
          HighestBlock host obj next idx := by
        intro idx hh
        simpa only [HighestBlock, hblocks] using hh
      have hcut : ∀ {bound left}, CutAt host shrunk bound left → CutAt host obj bound left := by
        intro bound left hcut
        refine ⟨hcut.gone, ?_⟩
        intro key hne hpub hbelow
        rw [hcut.kept key hne hpub hbelow, hown key hne]
      rw [ends_bind, arrayShrinkKeys, ends_bind, ends_request]
      split
      · rw [ends_bind, ends_get, ends_pure, ends_bind]
        obtain ⟨hspelled, hsort, hcover⟩ := shrinkKeys_spec hshrunk.wellFormed next
        refine (ends_deleteShrunk _ shrunk hshrunk hspelled hsort hcover).imp ?_ ?_
        · rintro blocked left ⟨hl, hres⟩
          cases blocked with
          | none =>
            have hfree : ∀ key idx, ¬ Blocks host obj next key idx :=
              fun key idx hb => hres.1 key idx (hblocks.mpr hb)
            rw [ends_bind]
            refine (ends_truncate hl hres.2.gone).imp ?_ (fun _ _ hfalse => hfalse.elim)
            rintro _ truncated ⟨htrunc, hs⟩
            have htc := hcut (hres.2.of_others fun key _ => hs key)
            split_ifs with hdelay
            · refine (ends_redefineLength htrunc _ (.inr ⟨rfl, rfl⟩) hn).imp ?_ ?_
              · rintro _ final ⟨hlook, hex, hfinal, -⟩
                refine ⟨hpass, hfree, ?_, htc.of_others fun key hne => ownProperty_congr hex
                  (hlook key hne)⟩
                rw [show data.writable = some false from hdelay]
                exact hfinal
              · rintro err final ⟨rfl, href⟩
                obtain ⟨-, herr, href⟩ := href rfl (fun h => by cases h) (fun h => by cases h)
                exact .inr ⟨hpass, .inr ⟨_, herr, .freezing htrunc htc href⟩⟩
            · refine ⟨hpass, hfree, ?_, htc⟩
              rw [hstill hdelay]
              exact htrunc
          | some idx =>
            obtain ⟨hmost, hcutLeft⟩ := hres
            have hsm := index_lt hmost.1.choose_spec.1
            rw [ends_bind]
            refine (ends_truncate hl hcutLeft.gone).imp ?_ (fun _ _ hfalse => hfalse.elim)
            rintro _ truncated ⟨htrunc, hs⟩
            have htc := hcut (hcutLeft.of_others fun key _ => hs key)
            rw [ends_bind]
            refine (ends_redefineLength htrunc _ (.inl rfl) hsm).imp ?_ ?_
            · rintro _ final ⟨hlook, hex, hfinal, -⟩
              refine .inr ⟨hpass, .inl ⟨idx, rfl, hhighest hmost, ?_,
                htc.of_others fun key hne => ownProperty_congr hex (hlook key hne)⟩⟩
              by_cases hdelay : data.writable = some false
              · simpa only [hdelay, if_true] using hfinal
              · rw [hstill hdelay]
                simpa only [if_neg hdelay, hstill hflag] using hfinal
            · rintro err final ⟨rfl, href⟩
              obtain ⟨hro, herr, href⟩ := href rfl henumerable hconf
              refine .inr ⟨hpass, .inr ⟨_, herr, .restoring ?_ (hhighest hmost) href⟩⟩
              by_contra hdelay
              simp only [if_neg hdelay] at hro
              exact hflag hro
        · rintro err left ⟨key, idx, herr, href⟩
          refine .inr ⟨hpass, .inr ⟨_, herr,
            .removal ⟨href.spelled, href.removed, ?_, ?_, href.refused⟩⟩⟩
          · rw [← hlook key (ne_lengthKey href.spelled)]
            exact href.listed
          · exact fun other blocked hb => href.above other blocked (hblocks.mpr hb)
      next href =>
        exact .inr ⟨hpass, .inr ⟨_, rfl, .listing hshrunk hown (Bool.not_eq_true _ ▸ href)⟩⟩
    · rintro err post ⟨rfl, href⟩
      refine .inl ⟨rfl, ?_⟩
      rintro ⟨hw, henumerable, hconf⟩
      exact hflag (href hw henumerable hconf).1

end

end PropertyObject

end TachyonEngine.Vm
