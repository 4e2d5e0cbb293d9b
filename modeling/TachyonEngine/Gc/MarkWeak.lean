import TachyonEngine.Gc.MarkClosure

/-!
# The weak phases

After the fixed point the marker rewrites payloads twice: the clearing phase empties
weak slots and ephemerons whose target or key is dead, and the finalization phase
moves dead registrations into the pending queue. Neither phase changes a mark, so
both decide liveness by the fixed point.

`TraceField.cleared` is what clearing makes of a field, and `Delivers` says what a
sequence of deliveries does to the registrations of a table: each delivered
registration was there, is gone afterwards and was delivered once, and every other
slot is as it was. Both are stated for runs that stop on an error as well.
-/

namespace TachyonEngine.Gc

open Lib.Traversal Lib.Capacity List

/-! ## Cleared fields -/

open Classical in
/-- A field after the clearing phase. A cleared ephemeron is cleared again. -/
noncomputable def TraceField.cleared (live : RawHeapRef → Prop) : TraceField → TraceField
  | .weak (some target) => if live target then .weak (some target) else .weak none
  | .ephemeron (some key) v =>
    if live key then .ephemeron (some key) v else .ephemeron none .undefined
  | .ephemeron none _ => .ephemeron none .undefined
  | field => field

/-- What the clearing phase may have made of a field when it stops. -/
def TraceField.MayClear (live : RawHeapRef → Prop) (field field' : TraceField) : Prop :=
  field' = field ∨ field' = field.cleared live

namespace TraceField

variable {live live' : RawHeapRef → Prop} {field field' field'' : TraceField}

theorem cleared_cleared (live : RawHeapRef → Prop) (field : TraceField) :
    (field.cleared live).cleared live = field.cleared live := by
  cases field with
  | value v | rawHeapRef ref | finalization tgt heldValue => rfl
  | weak tgt =>
    cases tgt with
    | none => rfl
    | some tgt => by_cases h : live tgt <;> simp [cleared, h]
  | ephemeron key v =>
    cases key with
    | none => rfl
    | some key => by_cases h : live key <;> simp [cleared, h]

theorem MayClear.refl (live : RawHeapRef → Prop) (field : TraceField) : MayClear live field field :=
  Or.inl rfl

theorem MayClear.cleared_eq (h : MayClear live field field') :
    field'.cleared live = field.cleared live := by
  rcases h with rfl | rfl
  · rfl
  · exact cleared_cleared live field

theorem MayClear.trans (h : MayClear live field field') (h' : MayClear live field' field'') :
    MayClear live field field'' := by
  rcases h' with rfl | rfl
  · exact h
  · exact Or.inr h.cleared_eq

/-- Clearing leaves registrations alone. -/
theorem MayClear.finalization_iff (h : MayClear live field field') {tgt : Option RawHeapRef}
    {heldValue : Value} :
    field' = .finalization tgt heldValue ↔ field = .finalization tgt heldValue := by
  rcases h with rfl | rfl
  · rfl
  · cases field with
    | value v | rawHeapRef ref | finalization tgt heldValue => rfl
    | weak tgt =>
      cases tgt with
      | none => rfl
      | some tgt => by_cases h : live tgt <;> simp [cleared, h]
    | ephemeron key v =>
      cases key with
      | none => simp [cleared]
      | some key => by_cases h : live key <;> simp [cleared, h]

end TraceField

/-- The clearing phase on a payload. -/
abbrev MayClearAll (live : RawHeapRef → Prop) : List TraceField → List TraceField → Prop :=
  List.Forall₂ (TraceField.MayClear live)

theorem MayClearAll.refl (live : RawHeapRef → Prop) (fields : List TraceField) :
    MayClearAll live fields fields := by
  rw [MayClearAll, forall₂_same]
  intro field _
  exact .refl live field

variable {live : RawHeapRef → Prop} {fields fields' : List TraceField}

theorem MayClearAll.trans {fields'' : List TraceField} (h : MayClearAll live fields fields') (h' :
    MayClearAll live fields' fields'') : MayClearAll live fields fields'' := by
  induction h generalizing fields'' with
  | nil => cases h'; exact .nil
  | cons hfield _ ih =>
    cases h' with
    | cons hfield' hrest => exact .cons (hfield.trans hfield') (ih hrest)

theorem MayClearAll.map_cleared (h : MayClearAll live fields fields') :
    fields'.map (TraceField.cleared live) = fields.map (TraceField.cleared live) := by
  induction h with
  | nil => rfl
  | cons hfield _ ih => rw [map_cons, map_cons, hfield.cleared_eq, ih]

namespace Marker

variable {g : Generation} {types : TypeRegistry} {m m' m'' : Marker} {ref : RawHeapRef}

/-! ## What both phases keep -/

/-- The state that a weak phase works with and does not change, apart from payloads
and the pending queue. -/
structure Settled (m m' : Marker) : Prop where
  skeleton : m'.table.skeleton = m.table.skeleton
  marked : m'.marked = m.marked
  epoch : m'.epoch = m.epoch
  gray : m'.gray = m.gray
  weakOwners : m'.weakOwners = m.weakOwners
  rebuilding : m'.rebuildingSource = m.rebuildingSource
  error : m'.error = none → m.error = none
  marksWithin : m.table.MarksWithin m.epoch → m'.table.MarksWithin m'.epoch

theorem Settled.refl (m : Marker) : Settled m m :=
  ⟨rfl, rfl, rfl, rfl, rfl, rfl, fun h => h, fun h => h⟩

theorem Settled.trans (h : Settled m m') (h' : Settled m' m'') : Settled m m'' where
  skeleton := h'.skeleton.trans h.skeleton
  marked := h'.marked.trans h.marked
  epoch := h'.epoch.trans h.epoch
  gray := h'.gray.trans h.gray
  weakOwners := h'.weakOwners.trans h.weakOwners
  rebuilding := h'.rebuilding.trans h.rebuilding
  error := fun herr => h.error (h'.error herr)
  marksWithin := fun hm => h'.marksWithin (h.marksWithin hm)

/-- Liveness is that of the fixed point throughout. -/
theorem Settled.live_eq (h : Settled m m') : Live g m' = Live g m := by
  funext r
  unfold Live
  rw [h.marked, ignored_congr h.skeleton]

theorem settled_fail (m : Marker) (e : MarkError) : Settled m (m.fail e) :=
  ⟨rfl, rfl, rfl, rfl, rfl, rfl, fun h => (by cases h), fun h => h⟩

theorem settled_phase (m : Marker) (phase : TracePhase) : Settled m { m with phase := phase } :=
  ⟨rfl, rfl, rfl, rfl, rfl, rfl, fun h => h, fun h => h⟩

/-- Tracing fields keeps the table, the phase and the traced owner besides. -/
structure Still (m m' : Marker) : Prop extends Settled m m' where
  table : m'.table = m.table
  phase : m'.phase = m.phase
  currentOwner : m'.currentOwner = m.currentOwner

theorem Still.refl (m : Marker) : Still m m := ⟨.refl m, rfl, rfl, rfl⟩

theorem Still.trans (h : Still m m') (h' : Still m' m'') : Still m m'' :=
  ⟨h.toSettled.trans h'.toSettled, h'.table.trans h.table, h'.phase.trans h.phase,
    h'.currentOwner.trans h.currentOwner⟩

theorem still_fail (m : Marker) (e : MarkError) : Still m (m.fail e) :=
  ⟨settled_fail m e, rfl, rfl, rfl⟩

theorem still_stats (m : Marker) (stats : MarkStats) : Still m { m with stats := stats } :=
  ⟨⟨rfl, rfl, rfl, rfl, rfl, rfl, fun h => h, fun h => h⟩, rfl, rfl, rfl⟩

theorem still_pending (m : Marker) (pending : PendingFinalizations) :
    Still m { m with pendingFinalizations := pending } :=
  ⟨⟨rfl, rfl, rfl, rfl, rfl, rfl, fun h => h, fun h => h⟩, rfl, rfl, rfl⟩

theorem referenceLive_facts (g : Generation) (m : Marker) (ref : RawHeapRef) :
    Still m (referenceLive g m ref).2 ∧
      (referenceLive g m ref).2.pendingFinalizations = m.pendingFinalizations ∧
      ((referenceLive g m ref).2.error = none →
        ((referenceLive g m ref).1 = true ↔ Live g m ref)) := by
  rcases referenceLive_cases g m ref with ⟨hm, hlive⟩ | ⟨-, e, hfail⟩
  · rw [hm]
    exact ⟨.refl m, rfl, fun _ => hlive⟩
  · rw [hfail]
    exact ⟨still_fail m e, rfl, fun h => by cases h⟩

theorem keyLive_facts (g : Generation) (m : Marker) (key : Option RawHeapRef) :
    Still m (keyLive g m key).2 ∧
      (keyLive g m key).2.pendingFinalizations = m.pendingFinalizations ∧
      ((keyLive g m key).2.error = none →
        ((keyLive g m key).1 = true ↔ ∃ k, key = some k ∧ Live g m k)) := by
  cases key with
  | none => exact ⟨.refl m, rfl, fun _ => by simp [keyLive]⟩
  | some k =>
    obtain ⟨hstill, hpend, hlive⟩ := referenceLive_facts g m k
    refine ⟨hstill, hpend, fun herr => ?_⟩
    simp only [keyLive]
    rw [hlive herr]
    simp

/-! ## The clearing phase -/

/-- A field visited by the clearing phase. -/
structure ClearsField (g : Generation) (m m' : Marker) (field field' : TraceField) : Prop where
  still : Still m m'
  pending : m'.pendingFinalizations = m.pendingFinalizations
  may : field.MayClear (Live g m) field'
  cleared : m'.error = none → field' = field.cleared (Live g m)

theorem ClearsField.unchanged (field : TraceField) (h : Still m m')
    (hpend : m'.pendingFinalizations = m.pendingFinalizations)
    (hcleared : m'.error = none → field.cleared (Live g m) = field) :
    ClearsField g m m' field field :=
  ⟨h, hpend, .refl _ _, fun herr => (hcleared herr).symm⟩

theorem visit_clearWeak (hrebuild : m.rebuildingSource = false) (hph : m.phase = .clearWeak)
    (field : TraceField) : ClearsField g m (visit g m field).1 field (visit g m field).2 := by
  have hstrong : m.followsStrong = false := by simp [followsStrong, hph]
  cases field with
  | value v =>
    have heq : traceValue g m v = m := by
      unfold traceValue traceRawHeapRef
      cases v.asHeapRef <;> simp [hstrong]
    simp only [visit, heq]
    exact .unchanged _ (.refl m) rfl fun _ => rfl
  | rawHeapRef ref =>
    simp only [visit, traceRawHeapRef, hstrong]
    exact .unchanged _ (.refl m) rfl fun _ => rfl
  | finalization tgt heldValue =>
    simp only [visit, traceFinalization, hrebuild, hph]
    exact .unchanged _ (.refl m) rfl fun _ => rfl
  | weak tgt =>
    simp only [visit, traceWeakRawHeapRef, hrebuild, hph]
    cases tgt with
    | none => exact .unchanged _ (.refl m) rfl fun _ => rfl
    | some tgt =>
      obtain ⟨hstill, hpend, hlive⟩ := referenceLive_facts g m tgt
      rcases htest : referenceLive g m tgt with ⟨live, m₁⟩
      simp only [htest] at hstill hpend hlive ⊢
      cases herr : m₁.error with
      | some e =>
        simp only [Option.isNone_some, Bool.false_and, Bool.false_eq_true, if_false]
        refine .unchanged _ hstill hpend fun hn => ?_
        rw [herr] at hn
        cases hn
      | none =>
        cases live with
        | true =>
          refine .unchanged _ hstill hpend fun _ => ?_
          simp [TraceField.cleared, (hlive herr).mp rfl]
        | false =>
          have hdead : ¬Live g m tgt := fun h => by
            have := (hlive herr).mpr h
            cases this
          have hcleared : TraceField.weak none =
              (TraceField.weak (some tgt)).cleared (Live g m) := by
            simp [TraceField.cleared, hdead]
          simp only [Option.isNone_none, Bool.not_false]
          exact ⟨herr ▸ hstill.trans (still_stats m₁ _), hpend, Or.inr hcleared, fun _ => hcleared⟩
  | ephemeron key v =>
    simp only [visit, traceEphemeron, hrebuild, hph]
    obtain ⟨hstill, hpend, hlive⟩ := keyLive_facts g m key
    rcases htest : keyLive g m key with ⟨live, m₁⟩
    rw [htest] at hstill hpend hlive
    cases herr : m₁.error with
    | some e =>
      simp only [Option.isNone_some, Bool.false_and, Bool.false_eq_true, if_false]
      refine .unchanged _ hstill hpend fun hn => ?_
      rw [herr] at hn
      cases hn
    | none =>
      cases live with
      | true =>
        obtain ⟨k, rfl, hk⟩ := (hlive herr).mp rfl
        refine .unchanged _ hstill hpend fun _ => ?_
        simp [TraceField.cleared, hk]
      | false =>
        have hcleared : TraceField.ephemeron none .undefined =
            (TraceField.ephemeron key v).cleared (Live g m) := by
          cases key with
          | none => rfl
          | some k =>
            have hdead : ¬Live g m k := fun h => by
              have := (hlive herr).mpr ⟨k, rfl, h⟩
              cases this
            simp [TraceField.cleared, hdead]
        simp only [Option.isNone_none]
        exact ⟨herr ▸ hstill.trans (still_stats m₁ _), hpend, Or.inr hcleared, fun _ => hcleared⟩

theorem traceAll_clearWeak (fields : List TraceField) (hrebuild : m.rebuildingSource = false)
    (hph : m.phase = .clearWeak) :
    let traced := traceAll (visit g) fields m
    Still m traced.1 ∧ traced.1.pendingFinalizations = m.pendingFinalizations ∧
      MayClearAll (Live g m) fields traced.2 ∧
      (traced.1.error = none → traced.2 = fields.map (TraceField.cleared (Live g m))) := by
  induction fields generalizing m with
  | nil => exact ⟨.refl m, rfl, .nil, fun _ => rfl⟩
  | cons field fields ih =>
    have hvisit := visit_clearWeak (g := g) hrebuild hph field
    obtain ⟨hstill, hpend, hmay, hcleared⟩ := ih (hvisit.still.rebuilding.trans hrebuild)
      (hvisit.still.phase.trans hph)
    have hlive : Live g (visit g m field).1 = Live g m := hvisit.still.live_eq
    rw [hlive] at hmay hcleared
    simp only [traceAll]
    refine ⟨hvisit.still.trans hstill, hpend.trans hvisit.pending, .cons hvisit.may hmay, ?_⟩
    intro herr
    rw [map_cons, hcleared herr, hvisit.cleared (hstill.error herr)]

/-- An owner visited by the clearing phase. -/
structure ClearsOwner (g : Generation) (ref : RawHeapRef) (m m' : Marker) : Prop where
  settled : Settled m m'
  phase : m'.phase = m.phase
  pending : m'.pendingFinalizations = m.pendingFinalizations
  other : ∀ r, r ≠ ref → m'.table.payload r = m.table.payload r
  may : MayClearAll (Live g m) (m.table.payload ref) (m'.table.payload ref)
  cleared : m'.error = none →
    m'.table.payload ref = (m.table.payload ref).map (TraceField.cleared (Live g m))

/-- The marker that traces an owner. -/
def tracing (m : Marker) (ref : RawHeapRef) : Marker :=
  { m with currentOwner := some ref }

theorem settled_tracing (m : Marker) (ref : RawHeapRef) : Settled m (m.tracing ref) :=
  ⟨rfl, rfl, rfl, rfl, rfl, rfl, fun h => h, fun h => h⟩

/-- An owner traced in a weak phase: its fields are replaced by the traced ones. -/
structure TracesWeak (g : Generation) (ref : RawHeapRef) (m m' : Marker) : Prop where
  settled : Settled m m'
  phase : m'.phase = m.phase
  pending : m'.pendingFinalizations =
    (traceAll (visit g) (m.table.payload ref) (m.tracing ref)).1.pendingFinalizations
  error : m'.error = (traceAll (visit g) (m.table.payload ref) (m.tracing ref)).1.error
  payload : ∀ r, m'.table.payload r =
    if r = ref then
      (traceAll (visit g) (m.table.payload ref) (m.tracing ref)).2
    else m.table.payload r

theorem tracesWeak (hres : resolve m.table types ref = .ok ()) (hstill : Still (m.tracing ref)
      (traceAll (visit g) (m.table.payload ref) (m.tracing ref)).1) :
    TracesWeak g ref m (traceWeakOwner g types m ref) := by
  have heq : traceWeakOwner g types m ref =
      { tracePayload g (m.tracing ref) ref with currentOwner := none } := by
    unfold traceWeakOwner
    rw [hres]
    rfl
  rw [heq]
  unfold tracePayload
  have hpay : (m.tracing ref).table.payload ref = m.table.payload ref := rfl
  rw [hpay]
  obtain ⟨traced, htraced⟩ :
      ∃ p, traceAll (visit g) (m.table.payload ref) (m.tracing ref) = p := ⟨_, rfl⟩
  rw [htraced] at hstill ⊢
  have ht : traced.1.table = m.table := hstill.table
  refine ⟨(settled_tracing m ref).trans ?_, hstill.phase, by rw [htraced], by rw [htraced], ?_⟩
  · exact
      { skeleton := (SpanTable.skeleton_setPayload ..).trans hstill.skeleton
        marked := (SpanTable.marked_setPayload ..).trans hstill.marked
        epoch := hstill.epoch
        gray := hstill.gray
        weakOwners := hstill.weakOwners
        rebuilding := hstill.rebuilding
        error := hstill.error
        marksWithin := fun h => (hstill.marksWithin h).setPayload }
  · intro r
    simp only [htraced, ht]
    exact SpanTable.payload_setPayload (valid_of_resolve hres) _ r

theorem clearsOwner_traceWeakOwner (hrebuild : m.rebuildingSource = false)
    (hph : m.phase = .clearWeak) : ClearsOwner g ref m (traceWeakOwner g types m ref) := by
  cases hres : resolve m.table types ref with
  | error e =>
    have heq : traceWeakOwner g types m ref = m.fail e := by
      unfold traceWeakOwner
      rw [hres]
    rw [heq]
    exact ⟨settled_fail m e, rfl, rfl, fun _ _ => rfl, .refl _ _, fun h => by cases h⟩
  | ok u =>
    obtain ⟨hstill, hpend, hmay, hcleared⟩ := traceAll_clearWeak (g := g)
      (m := m.tracing ref) (m.table.payload ref) hrebuild hph
    have htr := tracesWeak (g := g) hres hstill
    refine ⟨htr.settled, htr.phase, htr.pending.trans hpend, ?_, ?_, ?_⟩
    · intro r hr
      rw [htr.payload, if_neg hr]
    · rw [htr.payload, if_pos rfl]
      exact hmay
    · intro herr
      rw [htr.payload, if_pos rfl]
      exact hcleared (htr.error ▸ herr)

/-- The clearing phase so far. -/
structure ClearsWeak (g : Generation) (m m' : Marker) : Prop where
  settled : Settled m m'
  pending : m'.pendingFinalizations = m.pendingFinalizations
  may : ∀ r, MayClearAll (Live g m) (m.table.payload r) (m'.table.payload r)

theorem ClearsWeak.refl (m : Marker) : ClearsWeak g m m := ⟨.refl m, rfl, fun _ => .refl _ _⟩

theorem ClearsOwner.clearsWeak (h : ClearsOwner g ref m m') : ClearsWeak g m m' where
  settled := h.settled
  pending := h.pending
  may := by
    intro r
    by_cases hr : r = ref
    · rw [hr]
      exact h.may
    · rw [h.other r hr]
      exact .refl _ _

theorem ClearsWeak.trans (h : ClearsWeak g m m') (h' : ClearsWeak g m' m'') :
    ClearsWeak g m m'' where
  settled := h.settled.trans h'.settled
  pending := h'.pending.trans h.pending
  may := fun r => (h.may r).trans (h.settled.live_eq ▸ h'.may r)

/-- Clearing a list of owners. Without an error each of them is cleared. -/
theorem clearsWeak_foldUntil (types : TypeRegistry) (l : List WeakOwner)
    (hrebuild : m.rebuildingSource = false) (hph : m.phase = .clearWeak) :
    let m' := foldUntil (fun m => m.error.isSome)
      (fun m owner => traceWeakOwner g types m owner.reference) l m
    ClearsWeak g m m' ∧ (m'.error = none → ∀ owner ∈ l, m'.table.payload owner.reference =
      (m.table.payload owner.reference).map (TraceField.cleared (Live g m))) := by
  have howner : ∀ s, ClearsWeak g m s ∧ s.phase = .clearWeak → ∀ r,
      ClearsOwner g r s (traceWeakOwner g types s r) := fun s hs r =>
    clearsOwner_traceWeakOwner (hs.1.settled.rebuilding.trans hrebuild) hs.2
  have hstep : ∀ s, ClearsWeak g m s ∧ s.phase = .clearWeak → ∀ r,
      ClearsWeak g m (traceWeakOwner g types s r) ∧
        (traceWeakOwner g types s r).phase = .clearWeak := fun s hs r =>
    ⟨hs.1.trans (howner s hs r).clearsWeak, (howner s hs r).phase.trans hs.2⟩
  constructor
  · refine (foldUntil_induction (fun s => ClearsWeak g m s ∧ s.phase = .clearWeak)
      ⟨.refl m, hph⟩ ?_).1
    intro s owner _ _ hs
    exact hstep s hs owner.reference
  · intro herr
    -- Once cleared, an owner stays cleared: clearing it again changes nothing.
    apply foldUntil_forall (fun s => ClearsWeak g m s ∧ s.phase = .clearWeak)
      (fun (owner : WeakOwner) s => s.table.payload owner.reference =
        (m.table.payload owner.reference).map (TraceField.cleared (Live g m)))
    · simp [herr]
    · exact ⟨.refl m, hph⟩
    · intro s owner _ _ _ hs
      exact hstep s hs owner.reference
    · intro s owner _ _ hend hs
      rw [(howner s hs owner.reference).cleared (by simpa using hend), hs.1.settled.live_eq,
        (hs.1.may owner.reference).map_cleared]
    · intro s owner other _ _ hend hs hcleared
      have ho := howner s hs other.reference
      by_cases hr : owner.reference = other.reference
      · rw [hr, ho.cleared (by simpa using hend), hs.1.settled.live_eq,
          (hs.1.may other.reference).map_cleared]
      · rw [ho.other _ hr, hcleared]

theorem clearWeak_facts (types : TypeRegistry) (hrebuild : m.rebuildingSource = false) :
    ClearsWeak g m (clearWeak g types m) ∧
      ((clearWeak g types m).error = none → ∀ owner ∈ m.weakOwners.entries,
        (clearWeak g types m).table.payload owner.reference =
          (m.table.payload owner.reference).map (TraceField.cleared (Live g m))) := by
  obtain ⟨hclears, hall⟩ := clearsWeak_foldUntil (g := g)
    (m := { m with phase := .clearWeak }) types
    m.weakOwners.entries hrebuild rfl
  refine ⟨⟨(settled_phase m .clearWeak).trans hclears.settled, hclears.pending, ?_⟩, hall⟩
  exact hclears.may

end Marker

/-! ## Deliveries -/

/-- A registration handed over to the pending queue: the slot of a registry and
what it held. -/
structure Delivery where
  registry : RawHeapRef
  slot : Nat
  target : RawHeapRef
  heldValue : Value

namespace Delivery

/-- The cleanup record of a delivery. -/
def record (d : Delivery) : PendingFinalization :=
  { owner := d.registry, heldValue := d.heldValue }

/-- Where the registration is stored. -/
def site (d : Delivery) : RawHeapRef × Nat := (d.registry, d.slot)

end Delivery

/-- The field at a slot of an object. -/
def SpanTable.slotAt (t : SpanTable) (site : RawHeapRef × Nat) : Option TraceField :=
  (t.payload site.1)[site.2]?

/-- The deliveries `log` lead from one table to the other. -/
structure Delivers (t t' : SpanTable) (log : List Delivery) : Prop where
  once : (log.map Delivery.site).Nodup
  registered : ∀ d ∈ log, t.Valid d.registry ∧
    t.slotAt d.site = some (.finalization (some d.target) d.heldValue)
  gone : ∀ d ∈ log, t'.slotAt d.site = some (.finalization none .undefined)
  kept : ∀ site, site ∉ log.map Delivery.site → t'.slotAt site = t.slotAt site

theorem Delivers.refl (t : SpanTable) : Delivers t t [] where
  once := nodup_nil
  registered := fun _ h => absurd h not_mem_nil
  gone := fun _ h => absurd h not_mem_nil
  kept := fun _ _ => rfl

theorem Delivers.trans {t t' t'' : SpanTable} {log log' : List Delivery}
    (hskel : t'.skeleton = t.skeleton) (h : Delivers t t' log) (h' : Delivers t' t'' log') :
    Delivers t t'' (log ++ log') := by
  -- A delivered slot is empty, so it is not delivered again.
  have hdisjoint : ∀ d' ∈ log', d'.site ∉ log.map Delivery.site := by
    intro d' hd' hm
    obtain ⟨d, hd, hsite⟩ := mem_map.mp hm
    have hgone := h.gone d hd
    rw [hsite, (h'.registered d' hd').2] at hgone
    cases hgone
  have hrest : ∀ d ∈ log, d.site ∉ log'.map Delivery.site := by
    intro d hd hm
    obtain ⟨d', hd', hsite⟩ := mem_map.mp hm
    exact hdisjoint d' hd' (hsite ▸ mem_map_of_mem hd)
  constructor
  · rw [map_append]
    refine nodup_append.mpr ⟨h.once, h'.once, ?_⟩
    rintro a ha b hb rfl
    obtain ⟨d', hd', rfl⟩ := mem_map.mp hb
    exact hdisjoint d' hd' ha
  · intro d hd
    rcases mem_append.mp hd with hd | hd
    · exact h.registered d hd
    · obtain ⟨hval, hsl⟩ := h'.registered d hd
      exact ⟨(SpanTable.valid_congr hskel).mp hval, (h.kept d.site (hdisjoint d hd)).symm.trans hsl⟩
  · exact forall_mem_append.mpr ⟨fun d hd => (h'.kept d.site (hrest d hd)).trans (h.gone d
      hd), h'.gone⟩
  · intro site hsite
    rw [map_append, mem_append, not_or] at hsite
    exact (h'.kept site hsite.2).trans (h.kept site hsite.1)

namespace Marker

variable {g : Generation} {types : TypeRegistry} {m m' m'' : Marker} {ref : RawHeapRef}

/-! ## The finalization phase -/

/-- The fields of a registry visited by the finalization phase, from slot `n` on. -/
structure DeliversFields (g : Generation) (registry : RawHeapRef) (n : Nat) (m m' : Marker)
    (fields fields' : List TraceField) (log : List Delivery) : Prop where
  still : Still m m'
  pending : m'.pendingFinalizations.entries =
    m.pendingFinalizations.entries ++ log.map Delivery.record
  once : (log.map Delivery.site).Nodup
  registered : ∀ d ∈ log, d.registry = registry ∧ ∃ j, d.slot = n + j ∧
    fields[j]? = some (.finalization (some d.target) d.heldValue) ∧
    fields'[j]? = some (.finalization none .undefined) ∧ ¬Live g m d.target
  kept : ∀ j, (registry, n + j) ∉ log.map Delivery.site → fields'[j]? = fields[j]?
  all : m'.error = none → ∀ target heldValue,
    .finalization (some target) heldValue ∈ fields' → Live g m target

variable {registry : RawHeapRef}

theorem DeliversFields.unchanged {n : Nat} (field : TraceField) (h : Still m m') (hpend :
    m'.pendingFinalizations = m.pendingFinalizations) (hlive : m'.error = none → ∀ tgt heldValue,
    field = .finalization (some tgt) heldValue → Live g m tgt) :
    DeliversFields g registry n m m' [field] [field] [] where
  still := h
  pending := by simp [hpend]
  once := nodup_nil
  registered := fun _ hd => absurd hd not_mem_nil
  kept := fun _ _ => rfl
  all := by
    intro herr tgt heldValue hm
    exact hlive herr tgt heldValue (mem_singleton.mp hm).symm

theorem visit_enqueueFinalization (registry : RawHeapRef) (n : Nat)
    (hrebuild : m.rebuildingSource = false) (hph : m.phase = .enqueueFinalization)
    (howner : m.currentOwner = some registry) (field : TraceField) :
    ∃ log, DeliversFields g registry n m (visit g m field).1 [field] [(visit g m field).2] log := by
  have hstrong : m.followsStrong = false := by simp [followsStrong, hph]
  cases field with
  | value v =>
    have heq : traceValue g m v = m := by
      unfold traceValue traceRawHeapRef
      cases v.asHeapRef <;> simp [hstrong]
    simp only [visit, heq]
    exact ⟨[], .unchanged _ (.refl m) rfl fun _ _ _ h => by cases h⟩
  | rawHeapRef ref =>
    simp only [visit, traceRawHeapRef, hstrong]
    exact ⟨[], .unchanged _ (.refl m) rfl fun _ _ _ h => by cases h⟩
  | weak tgt =>
    simp only [visit, traceWeakRawHeapRef, hrebuild, hph]
    exact ⟨[], .unchanged _ (.refl m) rfl fun _ _ _ h => by cases h⟩
  | ephemeron key v =>
    simp only [visit, traceEphemeron, hrebuild, hph]
    exact ⟨[], .unchanged _ (.refl m) rfl fun _ _ _ h => by cases h⟩
  | finalization tgt heldValue =>
    simp only [visit, traceFinalization, hrebuild, hph, howner, Bool.false_eq_true, if_false]
    cases tgt with
    | none => exact ⟨[], .unchanged _ (.refl m) rfl fun _ _ _ h => by cases h⟩
    | some tgt =>
      obtain ⟨hstill, hpend, hlive⟩ := referenceLive_facts g m tgt
      rcases htest : referenceLive g m tgt with ⟨live, m₁⟩
      simp only [htest] at hstill hpend hlive ⊢
      cases herror : m₁.error with
      | some e =>
        simp only [Option.isSome_some, Bool.true_or, if_true]
        refine ⟨[], .unchanged _ hstill hpend fun hn => ?_⟩
        rw [herror] at hn
        cases hn
      | none =>
        cases live with
        | true =>
          refine ⟨[], .unchanged _ hstill hpend fun _ t v h => ?_⟩
          cases h
          exact (hlive herror).mp rfl
        | false =>
          have hdead : ¬Live g m tgt := fun h => by
            have := (hlive herror).mpr h
            cases this
          simp only [Option.isSome_none, Bool.or_self, Bool.false_eq_true, if_false]
          unfold tryEnqueueFinalization
          rcases BoundedVec.tryPush_cases initialFinalizationQueueCapacity
              m₁.pendingFinalizations { owner := registry, heldValue := heldValue }
            with ⟨hok, hes⟩ | ⟨e, herr, hes⟩
          · -- The record is in the queue: the slot is emptied.
            rcases hpush : m₁.pendingFinalizations.tryPush initialFinalizationQueueCapacity
                { owner := registry, heldValue := heldValue } with ⟨res, pending⟩
            simp only [hpush] at hok hes ⊢
            subst hok
            refine ⟨[⟨registry, n, tgt, heldValue⟩], ⟨herror ▸ (hstill.trans
              (still_pending _ pending)).trans (still_stats _ _), ?_,
              nodup_singleton _, ?_, ?_, ?_⟩⟩
            · simp only [hes, hpend]
              rfl
            · intro d hd
              rw [mem_singleton] at hd
              subst hd
              exact ⟨rfl, 0, rfl, rfl, rfl, hdead⟩
            · intro j hj
              cases j with
              | zero => simp [Delivery.site] at hj
              | succ j => rfl
            · intro _ t v hm
              cases mem_singleton.mp hm
          · -- The queue is full: the registration stays.
            rcases hpush : m₁.pendingFinalizations.tryPush initialFinalizationQueueCapacity
                { owner := registry, heldValue := heldValue } with ⟨res, pending⟩
            simp only [hpush] at herr hes ⊢
            subst herr
            refine ⟨[], ⟨(hstill.trans (still_pending _ pending)).trans
              (still_fail _ (.finalizationQueue e)), ?_,
              nodup_nil, ?_, fun _ _ => rfl, fun h => by cases h⟩⟩
            · simp [fail, hes, hpend]
            · exact fun _ hd => absurd hd not_mem_nil

theorem traceAll_enqueueFinalization (registry : RawHeapRef) (n : Nat) (fields : List TraceField)
    (hrebuild : m.rebuildingSource = false) (hph : m.phase = .enqueueFinalization)
    (howner : m.currentOwner = some registry) :
    ∃ log, DeliversFields g registry n m (traceAll (visit g) fields m).1 fields
      (traceAll (visit g) fields m).2 log := by
  induction fields generalizing m n with
  | nil => exact ⟨[], ⟨.refl m, by simp [traceAll], nodup_nil, by simp, fun _ _ => rfl,
      fun _ _ _ h => absurd h not_mem_nil⟩⟩
  | cons field fields ih =>
    obtain ⟨first, hfirst⟩ := visit_enqueueFinalization
      (g := g) registry n hrebuild hph howner field
    obtain ⟨rest, hrest⟩ := ih (m := (visit g m field).1) (n + 1)
      (hfirst.still.rebuilding.trans hrebuild) (hfirst.still.phase.trans hph)
      (hfirst.still.currentOwner.trans howner)
    have hlive : Live g (visit g m field).1 = Live g m := hfirst.still.live_eq
    -- The first delivery is at slot `n`, the others are behind it.
    have hfirstSlot : ∀ d ∈ first, d.slot = n := by
      intro d hd
      obtain ⟨-, j, hsl, hj, -⟩ := hfirst.registered d hd
      cases j with
      | zero => exact hsl
      | succ j => cases hj
    have hrestSlot : ∀ d ∈ rest, n < d.slot := by
      intro d hd
      obtain ⟨-, j, hsl, -⟩ := hrest.registered d hd
      omega
    refine ⟨first ++ rest, ⟨hfirst.still.trans hrest.still, ?_, ?_, ?_, ?_, ?_⟩⟩
    · simp only [traceAll]
      rw [hrest.pending, hfirst.pending, map_append, append_assoc]
    · rw [map_append]
      refine nodup_append.mpr ⟨hfirst.once, hrest.once, ?_⟩
      rintro a ha b hb rfl
      obtain ⟨d, hd, rfl⟩ := mem_map.mp ha
      obtain ⟨d', hd', hsite⟩ := mem_map.mp hb
      have hsl : d'.slot = d.slot := congrArg Prod.snd hsite
      have h1 := hfirstSlot d hd
      have h2 := hrestSlot d' hd'
      omega
    · intro d hd
      rcases mem_append.mp hd with hd | hd
      · obtain ⟨hreg, j, hsl, hj, hj', hdead⟩ := hfirst.registered d hd
        cases j with
        | zero => exact ⟨hreg, 0, hsl, hj, hj', hdead⟩
        | succ j => cases hj
      · obtain ⟨hreg, j, hsl, hj, hj', hdead⟩ := hrest.registered d hd
        exact ⟨hreg, j + 1, by omega, hj, hj', hlive ▸ hdead⟩
    · intro j hj
      rw [map_append, mem_append, not_or] at hj
      cases j with
      | zero => exact hfirst.kept 0 hj.1
      | succ j =>
        have hsite : (registry, n + 1 + j) ∉ rest.map Delivery.site := by
          have : n + 1 + j = n + (j + 1) := by omega
          rw [this]
          exact hj.2
        exact hrest.kept j hsite
    · intro herr tgt heldValue hm
      rcases mem_cons.mp hm with hm | hm
      · exact hfirst.all (hrest.still.error herr) tgt heldValue (mem_singleton.mpr hm)
      · exact hlive ▸ hrest.all herr tgt heldValue hm

/-- The finalization phase so far, with the deliveries made. -/
structure Finalizes (g : Generation) (m m' : Marker) (log : List Delivery) : Prop where
  settled : Settled m m'
  pending : m'.pendingFinalizations.entries =
    m.pendingFinalizations.entries ++ log.map Delivery.record
  delivers : Delivers m.table m'.table log
  dead : ∀ d ∈ log, ¬Live g m d.target

theorem Finalizes.refl (m : Marker) : Finalizes g m m [] :=
  ⟨.refl m, by simp, .refl _, fun _ h => absurd h not_mem_nil⟩

variable {log : List Delivery}

theorem Finalizes.trans {log' : List Delivery} (h : Finalizes g m m' log) (h' : Finalizes g m' m''
    log') : Finalizes g m m'' (log ++ log') where
  settled := h.settled.trans h'.settled
  pending := by rw [h'.pending, h.pending, map_append, append_assoc]
  delivers := h.delivers.trans h.settled.skeleton h'.delivers
  dead := by
    exact forall_mem_append.mpr ⟨h.dead, fun d hd => h.settled.live_eq ▸ h'.dead d hd⟩

/-- No dead registration is left at a registry. -/
def Swept (g : Generation) (m m' : Marker) (registry : RawHeapRef) : Prop :=
  ∀ target heldValue, .finalization (some target) heldValue ∈ m'.table.payload registry →
    Live g m target

theorem finalizes_traceWeakOwner (types : TypeRegistry) (ref : RawHeapRef)
    (hrebuild : m.rebuildingSource = false) (hph : m.phase = .enqueueFinalization) :
    ∃ log, Finalizes g m (traceWeakOwner g types m ref) log ∧
      (traceWeakOwner g types m ref).phase = m.phase ∧
      ((traceWeakOwner g types m ref).error = none →
        Swept g m (traceWeakOwner g types m ref) ref) := by
  cases hres : resolve m.table types ref with
  | error e =>
    have heq : traceWeakOwner g types m ref = m.fail e := by
      unfold traceWeakOwner
      rw [hres]
    rw [heq]
    exact ⟨[], ⟨settled_fail m e, by simp [fail], .refl _, fun _ h => absurd h not_mem_nil⟩,
      rfl, fun h => by cases h⟩
  | ok u =>
    obtain ⟨log, hlog⟩ := traceAll_enqueueFinalization (g := g) (m := m.tracing ref)
      ref 0 (m.table.payload ref) hrebuild hph rfl
    have htr := tracesWeak (g := g) hres hlog.still
    have hlive : Live g (m.tracing ref) = Live g m := (settled_tracing m ref).live_eq
    have hsl : ∀ site, (traceWeakOwner g types m ref).table.slotAt site =
        if site.1 = ref then
          (traceAll (visit g) (m.table.payload ref) (m.tracing ref)).2[site.2]?
        else m.table.slotAt site := by
      intro site
      unfold SpanTable.slotAt
      rw [htr.payload]
      split <;> rfl
    refine ⟨log, ⟨htr.settled, ?_, ⟨hlog.once, ?_, ?_, ?_⟩, ?_⟩, htr.phase, ?_⟩
    · rw [htr.pending]
      exact hlog.pending
    · intro d hd
      obtain ⟨hreg, j, hj, hfield, -, -⟩ := hlog.registered d hd
      have hj : d.slot = j := by omega
      refine ⟨hreg ▸ valid_of_resolve hres, ?_⟩
      simp only [Delivery.site, hreg, hj]
      exact hfield
    · intro d hd
      obtain ⟨hreg, j, hj, -, hfield, -⟩ := hlog.registered d hd
      have hj : d.slot = j := by omega
      have hsite : d.site.1 = ref := hreg
      rw [hsl, if_pos hsite]
      simp only [Delivery.site, hj]
      exact hfield
    · rintro ⟨r, j⟩ hsite
      rw [hsl]
      by_cases hr : r = ref
      · subst hr
        rw [if_pos rfl]
        exact hlog.kept j (by simpa using hsite)
      · rw [if_neg hr]
    · intro d hd
      obtain ⟨-, -, -, -, -, hdead⟩ := hlog.registered d hd
      exact hlive ▸ hdead
    · intro herr tgt heldValue hm
      rw [htr.payload, if_pos rfl] at hm
      exact hlive ▸ hlog.all (htr.error ▸ herr) tgt heldValue hm

/-- Deliveries never bring a registration back. -/
theorem Finalizes.swept {m₀ : Marker} (h : Finalizes g m m' log) (hs : Swept g m₀ m registry) :
    Swept g m₀ m' registry := by
  intro tgt heldValue hm
  obtain ⟨j, hj⟩ := mem_iff_getElem?.mp hm
  have hsl : m'.table.slotAt (registry, j) = some (.finalization (some tgt) heldValue) := hj
  by_cases hsite : (registry, j) ∈ log.map Delivery.site
  · obtain ⟨d, hd, hdsite⟩ := mem_map.mp hsite
    have hgone := h.delivers.gone d hd
    rw [hdsite, hsl] at hgone
    cases hgone
  · rw [h.delivers.kept _ hsite] at hsl
    exact hs tgt heldValue (mem_iff_getElem?.mpr ⟨j, hsl⟩)

/-- The registries of a list of owners. Without an error none keeps a dead
registration. -/
theorem finalizes_foldUntil (types : TypeRegistry) (l : List WeakOwner)
    (hrebuild : m.rebuildingSource = false) (hph : m.phase = .enqueueFinalization) :
    let m' := foldUntil (fun m => m.error.isSome)
      (fun m owner => if owner.hasFinalization then traceWeakOwner g types m owner.reference else m)
      l m
    ∃ log, Finalizes g m m' log ∧ (m'.error = none → ∀ owner ∈ l, owner.hasFinalization = true →
      Swept g m m' owner.reference) := by
  induction l generalizing m with
  | nil => exact ⟨[], .refl m, fun _ _ h => absurd h not_mem_nil⟩
  | cons owner l ih =>
    simp only [foldUntil]
    cases herr : m.error with
    | some e =>
      simp only [Option.isSome_some, if_true]
      refine ⟨[], .refl m, fun hn => ?_⟩
      rw [herr] at hn
      cases hn
    | none =>
      cases hflag : owner.hasFinalization with
      | false =>
        obtain ⟨log, hlog, hall⟩ := ih hrebuild hph
        refine ⟨log, hlog, fun hn o ho hfo => ?_⟩
        rcases mem_cons.mp ho with rfl | ho
        · rw [hflag] at hfo
          cases hfo
        · exact hall hn o ho hfo
      | true =>
        simp only [if_true]
        obtain ⟨first, hfirst, hs, hswept⟩ := finalizes_traceWeakOwner (g := g) types
          owner.reference hrebuild hph
        obtain ⟨rest, hrest, hall⟩ := ih (hfirst.settled.rebuilding.trans hrebuild) (hs.trans hph)
        refine ⟨first ++ rest, hfirst.trans hrest, fun hn o ho hfo => ?_⟩
        rcases mem_cons.mp ho with rfl | ho
        · exact hrest.swept (hswept (hrest.settled.error hn))
        · have hlive : Live g _ = Live g m := hfirst.settled.live_eq
          intro tgt heldValue hm
          exact hlive ▸ hall hn o ho hfo tgt heldValue hm

theorem enqueueFinalizations_facts (types : TypeRegistry) (hrebuild : m.rebuildingSource = false) :
    ∃ log, Finalizes g m (enqueueFinalizations g types m) log ∧
      ((enqueueFinalizations g types m).error = none → ∀ owner ∈ m.weakOwners.entries,
        owner.hasFinalization = true →
          Swept g m (enqueueFinalizations g types m) owner.reference) := by
  obtain ⟨log, hlog, hall⟩ := finalizes_foldUntil (g := g)
    (m := { m with phase := .enqueueFinalization }) types m.weakOwners.entries hrebuild rfl
  exact ⟨log, ⟨(settled_phase m .enqueueFinalization).trans hlog.settled, hlog.pending,
    hlog.delivers, hlog.dead⟩, hall⟩

/-! ## Closing the weak references -/

/-- A closed marking of the table `t`, begun by `m`: the weak fields go through
`cleared`, then the deliveries `log` are made. Every part but `done` also holds of a
marking that stopped. -/
structure WeakClosed (g : Generation) (t : SpanTable) (C S : Set RawHeapRef)
    (cleared : SpanTable) (log : List Delivery) (m m' : Marker) : Prop where
  skeleton : m'.table.skeleton = t.skeleton
  epoch : m'.epoch = m.epoch
  rebuilding : m'.rebuildingSource = false
  within : ∀ r ∈ m'.marked, r ∈ C
  marked_mono : ∀ r ∈ m.marked, r ∈ m'.marked
  error : m'.error = none → m.error = none
  marksWithin : m.table.MarksWithin m.epoch → m'.table.MarksWithin m'.epoch
  clearedSkeleton : cleared.skeleton = t.skeleton
  may : ∀ r, MayClearAll (Live g m') (t.payload r) (cleared.payload r)
  delivers : Delivers cleared m'.table log
  pending : m'.pendingFinalizations.entries =
    m.pendingFinalizations.entries ++ log.map Delivery.record
  dead : ∀ d ∈ log, ¬Live g m' d.target
  scanned : m'.error = none → ∀ r, r ∈ m'.marked ∨ r ∈ S → Scanned g t m' r
  ephemerons : m'.error = none → ∀ owner ∈ m'.weakOwners.entries,
    ∀ field ∈ t.payload owner.reference, ∀ key value, field.Ephemeral key value →
      Live g m' key → Live g m' value
  clears : m'.error = none → ∀ owner ∈ m'.weakOwners.entries, cleared.payload owner.reference =
      (t.payload owner.reference).map (TraceField.cleared (Live g m'))
  swept : m'.error = none → ∀ owner ∈ m'.weakOwners.entries, owner.hasFinalization = true →
    Swept g m' m' owner.reference

namespace WeakClosed

variable {t cleared : SpanTable} {C S : Set RawHeapRef} {log : List Delivery}

section

variable (h : WeakClosed g t C S cleared log m m')

include h

theorem live_mono (hm : Live g m ref) (hskel : m.table.skeleton = t.skeleton) : Live g m' ref := by
  rcases hm with hm | hm
  · exact Or.inl (h.marked_mono _ hm)
  · exact Or.inr ((ignored_congr (hskel.trans h.skeleton.symm)).mp hm)

variable {site : RawHeapRef × Nat}

/-- Only registrations are touched after the clearing phase. -/
theorem slotAt_eq (hfield : ∀ tgt heldValue, cleared.slotAt site ≠ some (.finalization (some tgt)
    heldValue)) : m'.table.slotAt site = cleared.slotAt site := by
  apply h.delivers.kept
  intro hm
  obtain ⟨d, hd, rfl⟩ := mem_map.mp hm
  exact hfield _ _ (h.delivers.registered d hd).2

variable {field : TraceField}

/-- A field whose target or key is live is not cleared. -/
theorem slotAt_kept (hsl : t.slotAt site = some field) (hkept : field.cleared (Live g m') = field)
    (hfield : ∀ tgt heldValue, field ≠ .finalization (some tgt) heldValue) :
    m'.table.slotAt site = some field := by
  have hs : cleared.slotAt site = some field := by
    have hmay := (forall₂_iff_get.mp (h.may site.1))
    obtain ⟨hlt, hget⟩ := List.getElem?_eq_some_iff.mp hsl
    have hlt' : site.2 < (cleared.payload site.1).length := hmay.1 ▸ hlt
    unfold SpanTable.slotAt
    rw [getElem?_eq_getElem hlt']
    rcases hmay.2 site.2 hlt hlt' with heq | heq
    · exact congrArg some (heq.trans hget)
    · simp only [get_eq_getElem, hget, hkept] at heq
      exact congrArg some heq
  rw [h.slotAt_eq, hs]
  intro tgt heldValue heq
  rw [hs] at heq
  exact hfield tgt heldValue (Option.some.inj heq)

/-- A field of a scanned owner is cleared when its target or key is dead. -/
theorem slotAt_cleared (herr : m'.error = none) (howner : ref ∈ m'.marked ∨ ref ∈ S) {slot : Nat}
    (hsl : t.slotAt (ref, slot) = some field) (hweak : field.hasWeak = true ∨ field.hasEphemeron =
    true) : m'.table.slotAt (ref, slot) = some (field.cleared (Live g m')) := by
  have hm : field ∈ t.payload ref := mem_iff_getElem?.mpr ⟨slot, hsl⟩
  have hisWeak : (weakOwnerOf t ref).isWeak = true := by
    simp only [WeakOwner.isWeak, weakOwnerOf, Bool.or_eq_true, any_eq_true]
    rcases hweak with hw | he
    · exact Or.inl (Or.inl ⟨field, hm, hw⟩)
    · exact Or.inl (Or.inr ⟨field, hm, he⟩)
  have hrecorded := (h.scanned herr ref howner).recorded hisWeak
  have hcleared : cleared.slotAt (ref, slot) = some (field.cleared (Live g m')) := by
    have hpay : cleared.payload ref = (t.payload ref).map (TraceField.cleared (Live g m')) :=
      h.clears herr _ hrecorded
    have hget : (t.payload ref)[slot]? = some field := hsl
    simp only [SpanTable.slotAt, hpay, getElem?_map, hget, Option.map_some]
  rw [h.slotAt_eq, hcleared]
  intro tgt heldValue heq
  rw [hcleared, Option.some.injEq,
    TraceField.MayClear.finalization_iff (Or.inr rfl : TraceField.MayClear _ field _)] at heq
  subst heq
  rcases hweak with hw | he
  · cases hw
  · cases he

end

end WeakClosed

section CloseWeak

variable {t : SpanTable} {C S : Set RawHeapRef}

/-- The fixed point before any field is rewritten. -/
theorem Closure.weakClosed (h : Closure g t C S m') (hadv : Advances m m')
    (herr : m'.error ≠ none) : WeakClosed g t C S m'.table [] m m' where
  skeleton := h.inv.skeleton
  epoch := hadv.epoch
  rebuilding := h.inv.rebuilding
  within := h.inv.within
  marked_mono := hadv.marked_mono
  error := hadv.error
  marksWithin := hadv.marksWithin
  clearedSkeleton := h.inv.skeleton
  may := fun r => by
    rw [h.inv.payload]
    exact .refl _ _
  delivers := .refl _
  pending := by simp [hadv.pending]
  dead := fun _ hd => absurd hd not_mem_nil
  scanned := fun hn => absurd hn herr
  ephemerons := fun hn => absurd hn herr
  clears := fun hn => absurd hn herr
  swept := fun hn => absurd hn herr

/-- Both weak phases after a fixed point. -/
theorem Closure.weakClosed_of_phases {cleared : Marker} {log : List Delivery}
    (h : Closure g t C S m') (hadv : Advances m m') (hclear : ClearsWeak g m' cleared)
    (hfinal : Finalizes g cleared m'' log)
    (hcleared : m''.error = none → ∀ owner ∈ m'.weakOwners.entries,
      cleared.table.payload owner.reference =
        (m'.table.payload owner.reference).map (TraceField.cleared (Live g m')))
    (hswept : m''.error = none → ∀ owner ∈ m'.weakOwners.entries, owner.hasFinalization = true →
      Swept g cleared m'' owner.reference) : WeakClosed g t C S cleared.table log m m'' := by
  have hset := hclear.settled.trans hfinal.settled
  have hlive : Live g m'' = Live g m' := hset.live_eq
  have hclive : Live g cleared = Live g m' := hclear.settled.live_eq
  exact
    { skeleton := hset.skeleton.trans h.inv.skeleton
      epoch := hset.epoch.trans hadv.epoch
      rebuilding := hset.rebuilding.trans h.inv.rebuilding
      within := by
        rw [hset.marked]
        exact h.inv.within
      marked_mono := by
        rw [hset.marked]
        exact hadv.marked_mono
      error := fun hn => hadv.error (hset.error hn)
      marksWithin := fun hm => hset.marksWithin (hadv.marksWithin hm)
      clearedSkeleton := hclear.settled.skeleton.trans h.inv.skeleton
      may := fun r => by
        rw [hlive, ← h.inv.payload]
        exact hclear.may r
      delivers := hfinal.delivers
      pending := by rw [hfinal.pending, hclear.pending, hadv.pending]
      dead := fun d hd => by
        rw [hlive, ← hclive]
        exact hfinal.dead d hd
      scanned := by
        intro hn r hr
        have hn' := hset.error hn
        have hscan : Scanned g t m' r := by
          rcases hr with hr | hr
          · rw [hset.marked] at hr
            rcases h.inv.scanned hn' r hr with hq | hh | hs
            · rw [h.gray hn'] at hq
              cases hq
            · cases hh
            · exact hs
          · exact h.inv.sources hn' r hr
        refine ⟨fun field hf r' hr' => ?_, fun hw => ?_⟩
        · rw [hlive]
          exact hscan.live field hf r' hr'
        · rw [hset.weakOwners]
          exact hscan.recorded hw
      ephemerons := by
        rw [hset.weakOwners, hlive]
        exact fun hn => h.ephemerons (hset.error hn)
      clears := by
        rw [hset.weakOwners, hlive]
        intro hn owner ho
        rw [hcleared hn owner ho, h.inv.payload]
      swept := by
        rw [hset.weakOwners]
        intro hn owner ho hfo tgt heldValue hmm
        rw [hlive, ← hclive]
        exact hswept hn owner ho hfo tgt heldValue hmm }

/-- A closed marker is back in the strong phase. -/
theorem phase_closeWeak (types : TypeRegistry) (h : (closeWeak g types m).error = none) :
    (closeWeak g types m).phase = .strong := by
  unfold closeWeak at h ⊢
  simp only at h ⊢
  split
  next herr =>
    rw [if_pos herr] at h
    rw [h] at herr
    cases herr
  · rfl

/-- From a drained marker to a closed one. -/
theorem closeWeak_facts (types : TypeRegistry) (hclosed : ∀ r ∈ C, ClosedUnder (t.payload r) C)
    (hign : ∀ r, Ignored g t r → r ∈ C) (h : DrainInv g t C S [] m)
    (hph : m.phase = .strong) (hgray : m.error = none → m.gray.entries = []) :
    ∃ cleared log, WeakClosed g t C S cleared log m (closeWeak g types m) := by
  have hfuel : m.table.white m.epoch < m.table.objectBound + 1 := by
    have := m.table.white_le m.epoch
    omega
  obtain ⟨hclosure, hadv⟩ := closureLoop_closure hclosed hign types h hph hgray hfuel
  unfold closeWeak
  obtain ⟨closed, hc⟩ : ∃ closed, closureLoop g types (m.table.objectBound + 1) m = closed :=
    ⟨_, rfl⟩
  rw [hc] at hclosure hadv ⊢
  simp only
  cases herr : closed.error with
  | some e =>
    exact ⟨closed.table, [], hclosure.weakClosed hadv (by simp [herr])⟩
  | none =>
    obtain ⟨hclear, hcleared⟩ := clearWeak_facts (g := g) types hclosure.inv.rebuilding
    obtain ⟨cleared, hcl⟩ : ∃ cleared, clearWeak g types closed = cleared := ⟨_, rfl⟩
    rw [hcl] at hclear hcleared ⊢
    cases hcerror : cleared.error with
    | some e =>
      refine ⟨cleared.table, [], hclosure.weakClosed_of_phases hadv hclear
        ⟨settled_phase cleared .strong, by simp, .refl _, fun _ h => absurd h not_mem_nil⟩
        (fun hn => absurd hn ?_) (fun hn => absurd hn ?_)⟩ <;>
        simp [hcerror]
    | none =>
      simp only [Option.isNone_none, if_true]
      obtain ⟨log, hfinal, hswept⟩ := enqueueFinalizations_facts (g := g) (m := cleared) types
        (hclear.settled.rebuilding.trans hclosure.inv.rebuilding)
      refine ⟨cleared.table, log, hclosure.weakClosed_of_phases hadv hclear
        ⟨hfinal.settled.trans (settled_phase _ .strong), hfinal.pending, hfinal.delivers,
          hfinal.dead⟩ (fun _ => hcleared hcerror) ?_⟩
      rw [hclear.settled.weakOwners] at hswept
      exact hswept

end CloseWeak

end Marker

end TachyonEngine.Gc
