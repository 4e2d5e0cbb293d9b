import TachyonEngine.Gc.PersistentRoots

/-!
# Ids of persistent roots over histories

What an operation does to the table is said once, and from this follow the shape of the table and
what its entries say of the ids that were issued. An id resolves to a reference exactly while it is
live for it.
-/

namespace TachyonEngine.Gc

open Lib List
open Lib.HandleLog (Live issued live_append_issued live_append_released)
open Attempt

namespace PersistentRoots

/-! ## What the operations do -/

/-- The entry of a slot that an id of the current generation resolves to. -/
def Holds (roots : PersistentRoots) (id : PersistentRootId) (ref : RawHeapRef)
    (typeId : GcTypeId) : Prop :=
  roots.entries[id.slot]? = some ⟨id.generation, .occupied ref typeId⟩

/-- A slot of the table is free. -/
def IsFree (roots : PersistentRoots) (slot : Nat) : Prop :=
  ∃ entry, roots.entries[slot]? = some entry ∧ entry.state.isFree = true

/-- The shape of the table: what the free list and the counters say of the entries. -/
structure Sound (roots : PersistentRoots) : Prop where
  freeList : ∃ order, Links (fun entry : RootEntry => entry.state.nextFree) roots.entries
    roots.freeHead order ∧ ∀ slot, slot ∈ order ↔ roots.IsFree slot
  live : roots.liveRoots = roots.entries.countP (·.state.isOccupied)
  free : roots.freeSlots = roots.entries.countP (·.state.isFree)
  retired : roots.retiredSlots = roots.entries.countP (·.state.isRetired)

/-- The tables in which an id was issued for a reference. -/
inductive Inserted (roots : PersistentRoots) (ref : RawHeapRef) (typeId : GcTypeId) :
    PersistentRootId → PersistentRoots → Prop
  | reused {slot : Nat} {generation : RootGeneration} {next : Option Nat}
      (head : roots.freeHead = some slot)
        (vacant : roots.entries[slot]? = some ⟨generation, .free next⟩) :
      Inserted roots ref typeId ⟨slot, generation⟩ (recordInsert
          { roots with
            freeHead := next
            freeSlots := roots.freeSlots - 1
            entries := roots.entries.set slot ⟨generation, .occupied ref typeId⟩ })
  | added (head : roots.freeHead = none) (capacity initialCapacity growthCount : Nat) :
      Inserted roots ref typeId ⟨roots.entries.length, .first⟩ (recordInsert
          { roots with
            capacity := capacity
            initialCapacity := initialCapacity
            growthCount := growthCount
            entries := roots.entries ++ [⟨.first, .occupied ref typeId⟩] })

/-- An error leaves the table as it was, and only a table with as many slots as there are indices
panics. -/
def Refused (roots : PersistentRoots) : RootsFailure → PersistentRoots → Prop
  | .error _, after => after = roots
  | .panic, _ => 2 ^ 32 ≤ roots.entries.length

section

variable (roots : PersistentRoots)

theorem ends_reserveEntry (grant : Option Nat) :
    (reserveEntry grant).Ends (fun _ post => ∃ cap initialCapacity growthCount, post =
        { roots with capacity := cap, initialCapacity := initialCapacity, growthCount :=
        growthCount })
      (fun failure post => ∃ err, failure = .error err ∧ post = roots) roots := by
  simp only [reserveEntry, ends_bind, ends_get]
  split
  · exact ⟨_, rfl, rfl⟩
  · split
    · exact ⟨_, _, _, rfl⟩
    · cases grant with
      | none => exact ⟨_, rfl, rfl⟩
      | some extra =>
        rw [ends_modify]
        split
        · exact ⟨_, _, _, rfl⟩
        · exact ⟨_, _, _, rfl⟩

theorem Sound.vacant {roots : PersistentRoots} (h : roots.Sound) {slot : Nat}
    (hhead : roots.freeHead = some slot) :
    ∃ generation next, roots.entries[slot]? = some ⟨generation, .free next⟩ := by
  obtain ⟨order, hlinks, hfree⟩ := h.freeList
  rw [hhead] at hlinks
  cases hlinks with
  | node found rest =>
    obtain ⟨⟨generation, st⟩, he, hvac⟩ := (hfree slot).mp mem_cons_self
    cases st with
    | free next => exact ⟨generation, next, he⟩
    | occupied _ _ | retired => cases hvac

theorem ends_tryInsert {roots : PersistentRoots} (h : roots.Sound) (ref : RawHeapRef)
    (typeId : GcTypeId) (grant : Option Nat) :
    (tryInsert ref typeId grant).Ends (Inserted roots ref typeId) roots.Refused roots := by
  simp only [tryInsert, ends_bind, ends_get]
  cases hhead : roots.freeHead with
  | some slot =>
    obtain ⟨generation, next, hvac⟩ := h.vacant hhead
    simp only [hvac]
    exact .reused hhead hvac
  | none =>
    simp only [ends_bind]
    refine (ends_reserveEntry roots grant).imp ?_ ?_
    · rintro - post ⟨cap, initialCapacity, growthCount, rfl⟩
      rw [ends_bind, ends_get]
      split
      · next hfull => exact hfull
      · exact .added hhead cap initialCapacity growthCount
    · rintro - post ⟨err, rfl, rfl⟩
      exact rfl

theorem ends_resolve (id : PersistentRootId) (expectedType : GcTypeId) :
    (resolve id expectedType).Ends (fun ref post => post = roots ∧ roots.Holds id ref expectedType)
      (fun failure post => post = roots ∧ (∃ err, failure = .error err) ∧
        ∀ ref, ¬ roots.Holds id ref expectedType) roots := by
  simp only [resolve, entry, ends_bind, ends_get, Holds]
  cases he : roots.entries[id.slot]? with
  | none => exact ⟨rfl, ⟨_, rfl⟩, fun _ h => by cases h⟩
  | some ent =>
    obtain ⟨generation, st⟩ := ent
    by_cases hstale : generation ≠ id.generation
    · simp only [if_pos hstale, ends_throw]
      refine ⟨trivial, ⟨_, rfl⟩, ?_⟩
      intro ref heq
      cases heq
      exact hstale rfl
    · obtain rfl := Decidable.not_not.mp hstale
      simp only [if_neg hstale, ends_pure]
      cases st with
      | free next | retired => exact ⟨rfl, ⟨_, rfl⟩, fun _ h => by cases h⟩
      | occupied ref typeId =>
        by_cases htype : typeId = expectedType
        · subst htype
          show Attempt.Ends (if typeId = typeId then pure ref else throw _) _ _ roots
          rw [if_pos rfl]
          exact ⟨rfl, rfl⟩
        · simp only [if_neg htype, ends_throw]
          refine ⟨trivial, ⟨_, rfl⟩, ?_⟩
          intro other heq
          cases heq
          exact htype rfl

/-- An id resolves to what the entry of its slot holds in its generation. -/
theorem resolve_iff (id : PersistentRootId) (expectedType : GcTypeId) (ref : RawHeapRef) :
    (resolve id expectedType).outcome roots = (.ok ref, roots) ↔
      roots.Holds id ref expectedType := by
  have hends := ends_resolve roots id expectedType
  rw [Attempt.Ends] at hends
  constructor
  · intro heq
    rw [heq] at hends
    exact hends.2
  · intro hholds
    generalize (resolve id expectedType).outcome roots = outcome at hends ⊢
    obtain ⟨res, post⟩ := outcome
    cases res with
    | ok other =>
      obtain ⟨rfl, ho⟩ := hends
      have heq := hholds.symm.trans ho
      cases heq
      rfl
    | error failure => exact absurd hholds (hends.2.2 ref)

theorem ends_release (id : PersistentRootId) (expectedType : GcTypeId) :
    (release id expectedType).Ends (fun _ post => ∃ ref, roots.Holds id ref expectedType ∧
        post = roots.retire id.slot ⟨id.generation, .occupied ref expectedType⟩)
      roots.Refused roots := by
  simp only [release, ends_bind]
  refine (ends_resolve roots id expectedType).imp ?_ ?_
  · rintro ref post ⟨rfl, hholds⟩
    have he : post.entries[id.slot]? = _ := hholds
    rw [ends_bind, ends_get, he]
    exact ⟨ref, hholds, rfl⟩
  · rintro failure post ⟨rfl, ⟨err, rfl⟩, -⟩
    exact rfl

end

/-- What an operation that returns does, and what it issues or releases by that. -/
inductive Effect (roots : PersistentRoots) : RootLog → PersistentRoots → Prop
  | read : Effect roots [] roots
  | inserted {ref : RawHeapRef} {typeId : GcTypeId} {id : PersistentRootId}
      {after : PersistentRoots}
      (inserted : Inserted roots ref typeId id after) :
      Effect roots [.issued id (ref, typeId)] after
  | released {ref : RawHeapRef} {typeId : GcTypeId} {id : PersistentRootId}
      (held : roots.Holds id ref typeId) :
      Effect roots [.released id] (roots.retire id.slot ⟨id.generation, .occupied ref typeId⟩)

variable {roots : PersistentRoots}

theorem ends_tryClone (h : roots.Sound) (id : PersistentRootId) (expectedType : GcTypeId) (grant :
    Option Nat) : (tryClone id expectedType grant).Ends
      (fun clone post => ∃ ref, roots.Holds id ref expectedType ∧
        Inserted roots ref expectedType clone post) roots.Refused roots := by
  simp only [tryClone, ends_bind]
  refine (ends_resolve roots id expectedType).imp ?_ ?_
  · rintro ref post ⟨rfl, hholds⟩
    exact (ends_tryInsert h ref expectedType grant).imp
      (fun clone post hinserted => ⟨ref, hholds, hinserted⟩) (fun _ _ href => href)
  · rintro failure post ⟨rfl, ⟨err, rfl⟩, -⟩
    exact rfl

theorem ends_run (h : roots.Sound) (action : RootAction) :
    action.run.Ends roots.Effect roots.Refused roots := by
  have hread : ∀ failure post, (post = roots ∧ (∃ err, failure = .error err) ∧ True) →
      roots.Refused failure post := by
    rintro failure post ⟨rfl, ⟨err, rfl⟩, -⟩
    exact rfl
  cases action with
  | tryInsert ref typeId grant =>
    simp only [RootAction.run, ends_bind]
    exact (ends_tryInsert h ref typeId grant).imp
      (fun id post hinserted => .inserted hinserted) (fun _ _ href => href)
  | tryClone id expectedType grant =>
    simp only [RootAction.run, ends_bind]
    refine (ends_resolve roots id expectedType).imp ?_ ?_
    · rintro ref post ⟨rfl, hholds⟩
      rw [ends_bind]
      refine (ends_tryClone h id expectedType grant).imp ?_ (fun _ _ href => href)
      rintro clone post' ⟨other, ho, hinserted⟩
      have heq := hholds.symm.trans ho
      cases heq
      exact .inserted hinserted
    · exact fun failure post hfl => hread failure post ⟨hfl.1, hfl.2.1, trivial⟩
  | resolve id expectedType =>
    simp only [RootAction.run, ends_bind]
    refine (ends_resolve roots id expectedType).imp ?_ ?_
    · rintro ref post ⟨rfl, -⟩
      exact .read
    · exact fun failure post hfl => hread failure post ⟨hfl.1, hfl.2.1, trivial⟩
  | release id expectedType =>
    simp only [RootAction.run, ends_bind]
    refine (ends_release roots id expectedType).imp ?_ (fun _ _ href => href)
    rintro - post ⟨ref, hholds, rfl⟩
    exact .released hholds

/-! ## The shape of the table -/

/-- The number of entries of a kind behind an exchange of one entry. -/
theorem countP_set_add {α : Type} (kind : α → Bool) {entries : List α} {slot : Nat} {old : α}
    (new : α) (hold : entries[slot]? = some old) :
    (entries.set slot new).countP kind + (kind old).toNat = entries.countP kind +
    (kind new).toNat := by
  induction entries generalizing slot with
  | nil => cases hold
  | cons head rest ih =>
    cases slot with
    | zero =>
      cases hold
      simp only [set_cons_zero, countP_cons]
      cases kind old <;> cases kind new <;> simp
    | succ slot =>
      have hrest := @ih slot hold
      simp only [set_cons_succ, countP_cons]
      omega

section Counts

variable {kind : RootEntry → Bool} {entries : List RootEntry} {slot : Nat} {old new : RootEntry}

theorem countP_set_same (hold : entries[slot]? = some old) (hs : kind old = kind new) :
    (entries.set slot new).countP kind = entries.countP kind := by
  have hc := countP_set_add kind new hold
  rw [hs] at hc
  omega

theorem countP_set_gain (hold : entries[slot]? = some old) (hb : kind old = false)
    (ha : kind new = true) : (entries.set slot new).countP kind = entries.countP kind + 1 := by
  have hc := countP_set_add kind new hold
  rw [hb, ha] at hc
  exact hc

theorem countP_set_lose (kind : RootEntry → Bool) (new : RootEntry)
    (hold : entries[slot]? = some old) (hb : kind old = true) (ha : kind new = false) :
    (entries.set slot new).countP kind + 1 = entries.countP kind := by
  have hc := countP_set_add kind new hold
  rw [hb, ha] at hc
  exact hc

end Counts

theorem sound_new (maxEntries : Nat) : (new maxEntries).Sound where
  freeList := ⟨[], .done, fun _ => ⟨nofun, fun ⟨_, he, _⟩ => nomatch he⟩⟩
  live := rfl
  free := rfl
  retired := rfl

section Shape

variable {roots : PersistentRoots}

theorem getElem?_set_entry {slot : Nat} {old new : RootEntry}
    (hold : roots.entries[slot]? = some old) (other : Nat) :
    (roots.entries.set slot new)[other]? = if slot = other then some new else
    roots.entries[other]? := by
  have hlt := (List.getElem?_eq_some_iff.mp hold).1
  by_cases heq : slot = other
  · subst heq
    rw [if_pos rfl, getElem?_set_self hlt]
  · rw [if_neg heq, getElem?_set_ne heq]

variable {ref : RawHeapRef} {typeId : GcTypeId} {id : PersistentRootId} {post : PersistentRoots}

theorem Sound.inserted (h : roots.Sound) (hinserted : roots.Inserted ref typeId id post) :
    post.Sound := by
  obtain ⟨order, hlinks, hfree⟩ := h.freeList
  have hlive := h.live
  have hvac := h.free
  have hretired := h.retired
  cases hinserted with
  | @reused slot generation next head vacant =>
    rw [head] at hlinks
    cases hlinks with
    | @node _ rest _ found hrest =>
      cases vacant.symm.trans found
      have hnodup := (Links.node found hrest).nodup
      have hnot : slot ∉ rest := (nodup_cons.mp hnodup).1
      refine ⟨⟨rest, ?_, ?_⟩, ?_, ?_, ?_⟩
      · apply hrest.frame
        intro other ho
        apply getElem?_set_ne
        rintro rfl
        exact hnot ho
      · intro other
        have hs := hfree other
        simp only [IsFree, recordInsert, getElem?_set_entry found, mem_cons] at hs ⊢
        split
        next heq =>
          subst heq
          exact ⟨fun hm => absurd hm hnot, fun ⟨_, he, hst⟩ => by cases he; cases hst⟩
        next hne =>
          rw [← hs]
          exact ⟨.inr, fun hm => hm.resolve_left fun heq => hne heq.symm⟩
      · simp only [hlive]
        exact (countP_set_gain found rfl rfl).symm
      · simp only [recordInsert]
        have hc := countP_set_lose (·.state.isFree) ⟨generation, .occupied ref typeId⟩ found rfl rfl
        omega
      · simp only [hretired]
        exact (countP_set_same found (by rfl)).symm
  | added head cap initialCapacity growthCount =>
    rw [head] at hlinks
    cases hlinks
    refine ⟨⟨[], ?_, ?_⟩, ?_, ?_, ?_⟩
    · simp only [head]
      exact .done
    · intro other
      refine ⟨nofun, ?_⟩
      rintro ⟨ent, he, hst⟩
      simp only [recordInsert, getElem?_append] at he
      split at he
      · exact (hfree other).mpr ⟨ent, he, hst⟩
      · rw [getElem?_singleton] at he
        split at he
        · cases he
          cases hst
        · cases he
    · simp only [recordInsert, countP_append, hlive]
      rfl
    · simp only [recordInsert, countP_append, hvac]
      rfl
    · simp only [recordInsert, countP_append, hretired]
      rfl

/-- The release of a slot exchanges its entry by a free or a retired one. -/
theorem Sound.released (h : roots.Sound) (hholds : roots.Holds id ref typeId) :
    (roots.retire id.slot ⟨id.generation, .occupied ref typeId⟩).Sound := by
  obtain ⟨order, hlinks, hfree⟩ := h.freeList
  have hlive := h.live
  have hvac := h.free
  have hretired := h.retired
  have hnot : id.slot ∉ order := by
    rw [hfree]
    rintro ⟨ent, he, hst⟩
    cases hholds.symm.trans he
    cases hst
  have hfr : ∀ new, Links (fun ent : RootEntry => ent.state.nextFree)
      (roots.entries.set id.slot new) roots.freeHead order := by
    intro new
    apply hlinks.frame
    intro other ho
    apply getElem?_set_ne
    rintro rfl
    exact hnot ho
  simp only [retire]
  cases hn : id.generation.next with
  | some generation =>
    refine ⟨⟨id.slot :: order, ?_, ?_⟩, ?_, ?_, ?_⟩
    · refine .node (?_ : _ = some (⟨generation, .free roots.freeHead⟩ : RootEntry)) (hfr _)
      rw [getElem?_set_entry hholds, if_pos rfl]
    · intro other
      simp only [IsFree, getElem?_set_entry hholds, mem_cons]
      split
      · next heq => exact ⟨fun _ => ⟨_, rfl, rfl⟩, fun _ => .inl heq.symm⟩
      next hne =>
        rw [hfree]
        exact ⟨fun hm => hm.resolve_left fun heq => hne heq.symm, .inr⟩
    · have hc := countP_set_lose (·.state.isOccupied) ⟨generation, .free roots.freeHead⟩
        hholds rfl rfl
      simp only [hlive]
      omega
    · simp only [hvac]
      exact (countP_set_gain hholds rfl rfl).symm
    · simp only [hretired]
      exact (countP_set_same hholds (by rfl)).symm
  | none =>
    refine ⟨⟨order, hfr _, ?_⟩, ?_, ?_, ?_⟩
    · intro other
      simp only [IsFree, getElem?_set_entry hholds]
      split_ifs with heq
      · subst heq
        exact ⟨fun hm => absurd hm hnot, fun ⟨_, he, hst⟩ => by cases he; cases hst⟩
      · exact hfree other
    · have hc := countP_set_lose (·.state.isOccupied) ⟨id.generation, .retired⟩ hholds rfl rfl
      simp only [hlive]
      omega
    · simp only [hvac]
      exact (countP_set_same hholds (by rfl)).symm
    · simp only [hretired]
      exact (countP_set_gain hholds rfl rfl).symm

theorem Sound.effect (h : roots.Sound) {events : RootLog} (heffect : roots.Effect events post) :
    post.Sound := by
  cases heffect with
  | read => exact h
  | inserted hinserted => exact h.inserted hinserted
  | released hholds => exact h.released hholds

end Shape

/-! ## The ids that were issued -/

/-- What the entries say of the ids that a log has issued and released. -/
structure Accounts (roots : PersistentRoots) (log : RootLog) : Prop where
  live_iff : ∀ id ref typeId, Live log id (ref, typeId) ↔ roots.Holds id ref typeId
  /-- The current generation of a slot that is free was not issued yet. -/
  past : ∀ id ∈ issued log, ∃ entry, roots.entries[id.slot]? = some entry ∧
    (id.generation.value < entry.generation.value ∨
      id.generation = entry.generation ∧ entry.state.isFree = false)
  once : (issued log).Nodup

theorem accounts_new (maxEntries : Nat) : (new maxEntries).Accounts [] where
  live_iff := fun _ _ _ => ⟨fun hlive => absurd hlive HandleLog.not_live_nil,
    fun hholds => nomatch hholds⟩
  past := fun _ hm => nomatch hm
  once := nodup_nil

/-- What the release of an id puts into its slot. -/
theorem retire_entries (roots : PersistentRoots) (slot : Nat) (ent : RootEntry) :
    ∃ released : RootEntry, (roots.retire slot ent).entries = roots.entries.set slot released ∧
      released.state.isOccupied = false ∧ (ent.generation.value < released.generation.value ∨
        ent.generation = released.generation ∧ released.state.isFree = false) := by
  simp only [retire]
  cases hn : ent.generation.next with
  | some generation =>
    refine ⟨_, rfl, rfl, .inl ?_⟩
    rw [RootGeneration.next] at hn
    split at hn
    · cases hn
      exact Nat.lt_succ_self _
    · cases hn
  | none => exact ⟨_, rfl, rfl, .inr ⟨rfl, rfl⟩⟩

section Ids

variable {roots : PersistentRoots} {log : RootLog} {ref : RawHeapRef} {typeId : GcTypeId}

variable {post : PersistentRoots}

theorem Accounts.reused (h : roots.Accounts log) {slot : Nat} {generation : RootGeneration} {next :
    Option Nat} (hvac : roots.entries[slot]? = some ⟨generation, .free next⟩) (ha : post.entries =
    roots.entries.set slot ⟨generation, .occupied ref typeId⟩) :
    post.Accounts (log ++ [.issued ⟨slot, generation⟩ (ref, typeId)]) := by
  have he : ∀ other, post.entries[other]? = if slot = other then
      some ⟨generation, .occupied ref typeId⟩ else roots.entries[other]? := by
    intro other
    rw [ha, getElem?_set_entry hvac]
  refine ⟨?_, ?_, ?_⟩
  · rintro ⟨other, otherGeneration⟩ otherReference otherType
    rw [live_append_issued, h.live_iff]
    simp only [Holds, he]
    split
    next heq =>
      subst heq
      rw [hvac]
      simp only [PersistentRootId.mk.injEq, true_and, Prod.mk.injEq, Option.some.injEq,
        RootEntry.mk.injEq, RootState.occupied.injEq, reduceCtorEq, and_false, or_false]
    next hne =>
      refine ⟨?_, .inr⟩
      rintro (⟨heq, -⟩ | hholds)
      · exact absurd (PersistentRootId.mk.inj heq).1 hne
      · exact hholds
  · intro id hid
    rw [HandleLog.issued_append_issued, mem_append, mem_singleton] at hid
    rcases hid with hid | rfl
    · obtain ⟨ent, hf, hpast⟩ := h.past id hid
      rw [he]
      split_ifs with heq
      · -- the generation that is issued now is above those that were issued for the slot
        subst heq
        cases hvac.symm.trans hf
        refine ⟨_, rfl, .inl (hpast.resolve_right ?_)⟩
        rintro ⟨-, hfree⟩
        cases hfree
      · exact ⟨ent, hf, hpast⟩
    · refine ⟨⟨generation, .occupied ref typeId⟩, ?_, .inr ⟨rfl, rfl⟩⟩
      rw [he, if_pos rfl]
  · rw [HandleLog.issued_append_issued]
    refine nodup_append.mpr ⟨h.once, nodup_singleton _, ?_⟩
    intro id hid other ho heq
    rw [mem_singleton.mp ho] at heq
    subst heq
    obtain ⟨ent, hf, hpast⟩ := h.past _ hid
    cases hvac.symm.trans hf
    rcases hpast with hlt | ⟨-, hfree⟩
    · exact lt_irrefl _ hlt
    · cases hfree

theorem Accounts.added (h : roots.Accounts log) (ha : post.entries = roots.entries ++ [⟨.first,
    .occupied ref typeId⟩]) :
    post.Accounts (log ++ [.issued ⟨roots.entries.length, .first⟩ (ref, typeId)]) := by
  have hkept : ∀ {other : Nat} {ent : RootEntry}, roots.entries[other]? = some ent →
      post.entries[other]? = some ent := by
    intro other ent hf
    rw [ha, List.getElem?_append_left (List.getElem?_eq_some_iff.mp hf).1]
    exact hf
  have hnew : post.entries[roots.entries.length]? = some ⟨.first, .occupied ref typeId⟩ := by
    rw [ha, getElem?_concat_length]
  refine ⟨?_, ?_, ?_⟩
  · rintro ⟨other, otherGeneration⟩ otherReference otherType
    rw [live_append_issued, h.live_iff]
    constructor
    · rintro (⟨heq, hcontent⟩ | hholds)
      · cases heq
        cases hcontent
        exact hnew
      · exact hkept hholds
    · intro hholds
      simp only [Holds, ha, getElem?_append] at hholds
      split at hholds
      · exact .inr hholds
      · left
        rw [getElem?_singleton] at hholds
        split at hholds
        · cases hholds
          exact ⟨by rw [show other = roots.entries.length by omega], rfl⟩
        · cases hholds
  · intro id hid
    rw [HandleLog.issued_append_issued, mem_append, mem_singleton] at hid
    rcases hid with hid | rfl
    · obtain ⟨ent, hf, hpast⟩ := h.past id hid
      exact ⟨ent, hkept hf, hpast⟩
    · exact ⟨_, hnew, .inr ⟨rfl, rfl⟩⟩
  · rw [HandleLog.issued_append_issued]
    refine nodup_append.mpr ⟨h.once, nodup_singleton _, ?_⟩
    intro id hid other ho heq
    rw [mem_singleton.mp ho] at heq
    subst heq
    obtain ⟨ent, hf, -⟩ := h.past _ hid
    exact absurd (List.getElem?_eq_some_iff.mp hf).1 (lt_irrefl _)

theorem Accounts.released (h : roots.Accounts log) {id : PersistentRootId}
    (hholds : roots.Holds id ref typeId) :
    (roots.retire id.slot ⟨id.generation, .occupied ref typeId⟩).Accounts
    (log ++ [.released id]) := by
  obtain ⟨released, ha, hempty, hgen⟩ :=
    roots.retire_entries id.slot ⟨id.generation, .occupied ref typeId⟩
  have he : ∀ other, (roots.retire id.slot ⟨id.generation, .occupied ref typeId⟩).entries[other]? =
      if id.slot = other then some released else roots.entries[other]? := by
    intro other
    rw [ha, getElem?_set_entry hholds]
  refine ⟨?_, ?_, ?_⟩
  · intro other otherReference otherType
    rw [live_append_released, h.live_iff]
    simp only [Holds, he]
    split
    next heq =>
      constructor
      · rintro ⟨hne, ho⟩
        obtain ⟨slot, generation⟩ := id
        obtain ⟨otherSlot, otherGeneration⟩ := other
        obtain rfl : slot = otherSlot := heq
        cases hholds.symm.trans ho
        exact absurd rfl hne
      · intro ho
        cases ho
        cases hempty
    · next hne => exact ⟨And.right, fun ho => ⟨fun heq => hne (congrArg _ heq), ho⟩⟩
  · intro other ho
    rw [HandleLog.issued_append_released] at ho
    obtain ⟨ent, hf, hpast⟩ := h.past other ho
    rw [he]
    split_ifs with heq
    · rw [← heq, hholds] at hf
      cases hf
      refine ⟨released, rfl, ?_⟩
      rcases hpast with hlt | ⟨hs, -⟩
      · rcases hgen with hless | ⟨hs, -⟩
        · exact .inl (lt_trans hlt hless)
        · exact .inl (hs ▸ hlt)
      · rw [hs]
        exact hgen
    · exact ⟨ent, hf, hpast⟩
  · rw [HandleLog.issued_append_released]
    exact h.once

theorem Accounts.effect (h : roots.Accounts log) {events : RootLog} (heffect : roots.Effect events
    post) : post.Accounts (log ++ events) := by
  cases heffect with
  | read =>
    rw [append_nil]
    exact h
  | inserted hinserted =>
    cases hinserted with
    | reused head vacant => exact h.reused vacant rfl
    | added head cap initialCapacity growthCount => exact h.added rfl
  | released hholds => exact h.released hholds

end Ids

/-! ## Histories -/

theorem sound_accounts {log : RootLog} (hrun : RootsRun roots log) :
    roots.Sound ∧ roots.Accounts log := by
  induction hrun with
  | start maxEntries => exact ⟨sound_new maxEntries, accounts_new maxEntries⟩
  | @returned roots post log events _ action step ih =>
    have hends := ends_run ih.1 action
    rw [Attempt.Ends, step] at hends
    exact ⟨ih.1.effect hends, ih.2.effect hends⟩
  | @refused roots post log _ action err step ih =>
    have hends := ends_run ih.1 action
    rw [Attempt.Ends, step] at hends
    obtain rfl : post = roots := hends
    exact ih

/-- What a table says of the ids that were issued and released on the way to it. -/
structure Exact (roots : PersistentRoots) (log : RootLog) : Prop where
  /-- An id resolves to a ref from where it was issued for it up to its first release. -/
  resolves : ∀ id ref typeId,
    (resolve id typeId).outcome roots = (.ok ref, roots) ↔ Live log id (ref, typeId)
  /-- No id is issued twice. -/
  once : (issued log).Nodup
  /-- The free list meets every free slot once, and no other slot. -/
  freeList : ∃ order, order.Nodup ∧
    Links (fun entry : RootEntry => entry.state.nextFree) roots.entries roots.freeHead order ∧
    ∀ slot, slot ∈ order ↔ roots.IsFree slot
  live : roots.liveRoots = roots.entries.countP (·.state.isOccupied)
  free : roots.freeSlots = roots.entries.countP (·.state.isFree)
  retired : roots.retiredSlots = roots.entries.countP (·.state.isRetired)
  /-- An error leaves the table as it was, and only a table with as many slots as there are indices
  panics. -/
  refused : ∀ (action : RootAction) failure after,
    action.run.outcome roots = (.error failure, after) → roots.Refused failure after

/-- Every table that operations lead to. -/
theorem exact_of_run {roots : PersistentRoots} {log : RootLog} (hrun : RootsRun roots log) :
    roots.Exact log := by
  obtain ⟨hsound, haccounts⟩ := sound_accounts hrun
  refine ⟨?_, haccounts.once, ?_, hsound.live, hsound.free, hsound.retired, ?_⟩
  · intro id ref typeId
    rw [resolve_iff, haccounts.live_iff]
  · obtain ⟨order, hlinks, hfree⟩ := hsound.freeList
    exact ⟨order, hlinks.nodup, hlinks, hfree⟩
  · intro action failure post hout
    have hends := ends_run hsound action
    rw [Attempt.Ends, hout] at hends
    exact hends

/-! ## A slot that is used again -/

/-- The first reference of a span. -/
def sampleReference (span : Nat) : RawHeapRef := ⟨span, firstOffset⟩

def sampleType : GcTypeId := ⟨1, Nat.one_pos⟩

def secondGeneration : RootGeneration := ⟨2, Nat.two_pos, by decide⟩

/-- A table whose only slot was released and taken again. -/
def reusedRoots : PersistentRoots :=
  { entries := [⟨secondGeneration, .occupied (sampleReference 1) sampleType⟩], capacity := 2
    freeHead := none, maxEntries := 2, initialCapacity := 2, growthCount := 0, peakLiveRoots := 1
    liveRoots := 1, freeSlots := 0, retiredSlots := 0 }

def reusedLog : RootLog :=
  [.issued ⟨0, .first⟩ (sampleReference 0, sampleType), .released ⟨0, .first⟩,
    .issued ⟨0, secondGeneration⟩ (sampleReference 1, sampleType)]

theorem run_reused : RootsRun reusedRoots reusedLog := by
  have hfirst := RootsRun.returned (.start 2)
    (show (RootAction.tryInsert (sampleReference 0) sampleType (some 0)).run.outcome (new 2) =
      _ from rfl)
  have hrel := hfirst.returned
    (show (RootAction.release ⟨0, .first⟩ sampleType).run.outcome _ = _ from rfl)
  exact hrel.returned
    (show (RootAction.tryInsert (sampleReference 1) sampleType none).run.outcome _ = _ from rfl)

/-- The old id of the slot does not resolve to what the slot holds now. -/
theorem exact_reused :
    reusedRoots.Exact reusedLog ∧ (resolve ⟨0, secondGeneration⟩ sampleType).outcome reusedRoots =
        (.ok (sampleReference 1), reusedRoots) ∧
      (resolve ⟨0, .first⟩ sampleType).outcome reusedRoots =
        (.error (.error (.staleGeneration 0 secondGeneration .first)), reusedRoots) :=
  ⟨exact_of_run run_reused, rfl, rfl⟩

end PersistentRoots

end TachyonEngine.Gc
