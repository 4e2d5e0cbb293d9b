import TachyonEngine.Vm.FinalizerStacks
import TachyonEngine.Vm.FinalizerTable

/-!
# Dispatching with finalizers on the stacks

`Standing` says that the stacks of the running frame hold one pair for each finalizer whose body
contains the program counter. The dispatch of a completion, the normal entry of a finalizer and its
end lead from such a state to such a state or out of the frame, and none of them fails for want of
a saved completion.
-/

namespace TachyonEngine.Vm

open Bytecode Lib List
open Gc (RawHeapRef)

variable {ν : Type}

/-! ## A frame at an instruction -/

/-- The jump target of a completion is an instruction. -/
def TargetStarts (fn : CompiledFunction) (completion : CompletionRecord) : Prop :=
  ∀ target, completion.target = some target → fn.StartsAt target.index.toNat

/-- The running frame stands at an instruction, with the finalizers around it on its stacks. -/
structure Standing (codes : List LoadedCode) (fn : CompiledFunction) (fiber : Fiber ν)
    (frame : Frame) (saved : List Saved) (natives : List (CompletionEntry ν)) : Prop where
  running : fiber.frames.last = some frame
  runs : Runs codes fn frame
  stacked : Stacked fn.metadata.handlers fiber frame.completionBase saved natives
  lockstep : InLockstep fn.metadata.handlers frame.pc.index.toNat saved
  starts : fn.StartsAt frame.pc.index.toNat
  targets : ∀ s ∈ saved, TargetStarts fn s.2

def Stands (codes : List LoadedCode) (fn : CompiledFunction) (fiber : Fiber ν) : Prop :=
  ∃ frame saved natives, Standing codes fn fiber frame saved natives

/-- What a dispatch leaves: the frame goes on at an instruction, or the frame is left. -/
def StandsOrLeaves (codes : List LoadedCode) (fn : CompiledFunction)
    (result : AbruptExit × Fiber ν) : Prop :=
  match result.1 with
  | .resumed => Stands codes fn result.2
  | .returns _ | .unwinds _ => True

/-- A function whose table is nested as block-structured code nests it. -/
structure FinalizerTable (fn : CompiledFunction) : Prop where
  valid : HandlersValid fn.metadata.handlers
  nested : WellNested fn.metadata.handlers
  starts : ∀ entry ∈ fn.metadata.handlers, fn.StartsAt entry.handler.index.toNat

section Dispatch

variable {codes : List LoadedCode} {fn : CompiledFunction} {fiber : Fiber ν} {frame : Frame}
  {saved : List Saved} {inner : Option HandlerEntry} {off : WordOffset}
  {completion : CompletionRecord}

/-- A frame whose stacks hold the pairs, while a completion is dispatched. -/
structure DispatchState (codes : List LoadedCode) (fn : CompiledFunction) (fiber : Fiber ν)
    (frame : Frame) (inner : Option HandlerEntry) (off : WordOffset)
    (completion : CompletionRecord) (saved : List Saved) (natives : List (CompletionEntry ν)) :
    Prop where
  running : fiber.frames.last = some frame
  runs : Runs codes fn frame
  stacked : Stacked fn.metadata.handlers fiber frame.completionBase saved natives
  dispatching : Dispatching fn.metadata.handlers inner off.index.toNat saved
  fits : CompletionFits fn.metadata.handlers inner off.index.toNat completion
  targets : ∀ s ∈ saved, TargetStarts fn s.2
  target : TargetStarts fn completion

variable {handlers : List HandlerEntry}

/-- The value of a throw or a return. -/
theorem CompletionFits.value {off : Nat} (h : CompletionFits handlers inner off completion)
    (hk : completion.kind = .throw ∨ completion.kind = .return) :
    ∃ val, completion.value = some val := by
  rcases hk with hk | hk
  · simp only [CompletionFits, hk] at h
    exact h
  · simp only [CompletionFits, hk] at h
    exact h

/-- The target of a break or a continue. -/
theorem CompletionFits.target {off : Nat} (h : CompletionFits handlers inner off completion)
    (hk : completion.kind = .break ∨ completion.kind = .continue) :
    ∃ tgt, completion.target = some tgt ∧ ∀ around ∈ handlers, around.kind.isFinalizer = true →
        around.body.Contains tgt.index.toNat → Around inner off around := by
  rcases hk with hk | hk
  · simp only [CompletionFits, hk] at h
    exact h
  · simp only [CompletionFits, hk] at h
    exact h

/-- A catch takes throws only. -/
theorem throw_of_eligible {handler : HandlerEntry}
    (heligible : handler.eligible completion = true) (hcatch : handler.kind.isFinalizer = false) :
    completion.kind = .throw := by
  cases hk : completion.kind with
  | throw => rfl
  | normal => simp [HandlerEntry.eligible, hk] at heligible
  | «return» | «break» | «continue» => simp [HandlerEntry.eligible, hk, hcatch] at heligible

/-- The second half of a pass keeps the finalizers around the new program counter. -/
theorem DispatchState.routeAbrupt (htable : FinalizerTable fn) (heap : EnvironmentHeap)
    (h : DispatchState codes fn fiber frame inner off completion saved [])
    (hbreak : BreakFits fn.metadata.handlers off completion) :
    Meets NotMissing (StandsOrLeaves codes fn)
      (Vm.routeAbrupt (heap.host codes) fiber frame completion off) := by
  rw [Vm.routeAbrupt, h.runs.handlers heap]
  simp only [Fiber.discardExitedFinalizers, bind, Except.bind]
  obtain ⟨kept, hloop, hstacked, hfs⟩ := h.stacked.discardExitedFinalizersLoop heap h.runs off
    completion ((findAbruptHandler fn.metadata.handlers off completion).map (·.2))
      h.stacked.length_lt
  have hl : kept.frames.last = some frame := by
    rw [hfs]
    exact h.running
  have hkeptTargets : ∀ candidate, ∀ s ∈ keepEntered off completion candidate saved,
      TargetStarts fn s.2 := fun candidate s hs =>
    h.targets s ((keepEntered_isInitial off completion candidate saved).subset hs)
  rw [hloop]
  cases hf : findAbruptHandler fn.metadata.handlers off completion with
  | some found =>
    obtain ⟨idx, handler⟩ := found
    obtain ⟨hget, hm, -, heligible⟩ := findAbruptHandler_some hf
    have henter := h.dispatching.enter htable.valid htable.nested h.fits hbreak hf
    rw [hf] at hstacked
    refine Meets.bind (kept.restoreLexicalEnvironmentDepth_keeps heap codes _) ?_
    intro left hkeeps
    obtain ⟨last, hleft, hruns, hleftStacked⟩ := hkeeps.stacked hl h.runs hstacked
    by_cases hfin : handler.kind.isFinalizer = true
    · rw [if_pos hfin] at henter
      rw [if_pos hfin]
      refine Meets.bind (hleftStacked.enterFinalizer hget hleft completion) ?_
      rintro post ⟨ha, hrunning⟩
      refine ⟨_, _, [], hrunning, hruns, ha, henter, htable.starts handler hm, ?_⟩
      exact forall_mem_append.mpr ⟨hkeptTargets _, forall_mem_singleton.mpr h.target⟩
    · rw [if_neg hfin, append_nil] at henter
      rw [if_neg hfin]
      have hthrow := throw_of_eligible heligible (Bool.not_eq_true _ ▸ hfin)
      obtain ⟨val, hv⟩ := h.fits.value (.inl hthrow)
      simp only [hv]
      exact ⟨_, _, [], Fiber.modifyTop_last hleft _, hruns, (hleftStacked.modifyTop _).congr
        rfl rfl rfl, henter, htable.starts handler hm, hkeptTargets _⟩
  | none =>
    rw [hf] at hstacked
    have hland : (completion.kind = .break ∨ completion.kind = .continue) →
        ∃ tgt, completion.target = some tgt ∧ Meets NotMissing (StandsOrLeaves codes fn) (do
          let fiber ← kept.restoreLexicalEnvironmentDepth (heap.host codes)
            completion.targetEnvironmentDepth
          .ok (.resumed, fiber.setPc tgt)) := by
      intro hk
      obtain ⟨tgt, ht, hout⟩ := h.fits.target hk
      refine ⟨tgt, ht, ?_⟩
      refine Meets.bind (kept.restoreLexicalEnvironmentDepth_keeps heap codes _) ?_
      intro left hkeeps
      obtain ⟨last, hleft, hruns, hleftStacked⟩ := hkeeps.stacked hl h.runs hstacked
      exact ⟨_, _, [], Fiber.modifyTop_last hleft _, hruns, hleftStacked.modifyTop _,
        h.dispatching.land hk ht hout, h.target tgt ht, hkeptTargets _⟩
    cases hk : completion.kind with
    | normal =>
      have hfits := h.fits
      simp only [CompletionFits, hk] at hfits
    | throw =>
      obtain ⟨val, hv⟩ := h.fits.value (.inl hk)
      simp only [hv]
      exact trivial
    | «return» =>
      obtain ⟨val, hv⟩ := h.fits.value (.inr hk)
      simp only [hv]
      exact trivial
    | «break» =>
      obtain ⟨tgt, ht, hmeets⟩ := hland (.inl hk)
      simp only [ht]
      exact hmeets
    | «continue» =>
      obtain ⟨tgt, ht, hmeets⟩ := hland (.inr hk)
      simp only [ht]
      exact hmeets

/-- A dispatch fits the saved finalizers, the innermost first: while errors raised in the closing of
iterators give way to saved completions, these are not normal ones, and the completion that is
routed in the end is not taken over inside a finalizer that its target leaves. The first completion
that the frame has saved decides whether an error gives way. -/
def DispatchFits (handlers : List HandlerEntry) :
    List Saved → WordOffset → CompletionRecord → Prop
  | [], off, completion => BreakFits handlers off completion
  | s :: outer, off, completion =>
    if completion.kind = .throw ∧ s.1.kind = .iteratorClose ∧ s.1.bodyContains off = true ∧
        (outer.getLast?.getD s).2.kind = .throw then
      s.2.kind ≠ .normal ∧ DispatchFits handlers outer s.1.handler s.2
    else BreakFits handlers off completion

variable {ent : HandlerEntry}

/-- A saved completion that is not normal fits behind its finalizer. -/
theorem RecordFits.completionFits {rec : CompletionRecord} {off : Nat} (h : RecordFits handlers ent
    rec) (hk : rec.kind ≠ .normal) : CompletionFits handlers (some ent) off rec := by
  cases hrec : rec.kind with
  | normal => exact absurd hrec hk
  | throw | «return» | «break» | «continue» =>
    simp only [RecordFits, hrec] at h
    simp only [CompletionFits, hrec]
    exact h

variable {natives : List (CompletionEntry ν)}

/-- The first saved completion of a frame that has saved one. -/
theorem Stacked.record_first {base : Nat} {top : Saved} (h : Stacked handlers fiber base (saved ++
    [top]) natives) : fiber.completions.record base = some (saved.reverse.getLast?.getD top).2 := by
  cases saved with
  | nil => exact h.record_head
  | cons first rest =>
    rw [h.record_head, getLast?_reverse]
    rfl

/-- An error raised in the innermost finalizer gives way, and the completion that it has saved goes
on behind it; or nothing is changed. -/
theorem DispatchState.suppressIteratorCloseError (htable : FinalizerTable fn)
    (heap : EnvironmentHeap) (h : DispatchState codes fn fiber frame inner off completion saved [])
    (hthrow : completion.kind = .throw)
    (hfits : DispatchFits fn.metadata.handlers saved.reverse off completion) :
    fiber.suppressIteratorCloseError (heap.host codes) frame off = .ok none ∨
      ∃ rest top post, saved = rest ++ [top] ∧
        fiber.suppressIteratorCloseError (heap.host codes) frame off =
          .ok (some (top.1.handler, top.2, post)) ∧
        DispatchFits fn.metadata.handlers rest.reverse top.1.handler top.2 ∧
        DispatchState codes fn post frame (some top.1) top.1.handler top.2 rest [] := by
  rw [Fiber.suppressIteratorCloseError]
  rcases eq_nil_or_concat saved with rfl | ⟨rest, top, rfl⟩
  · left
    cases hl : fiber.handlers.last with
    | none => rfl
    | some active => simp only [if_pos (h.stacked.last_nil hl)]
  · simp only [concat_eq_append] at h hfits ⊢
    rw [reverse_append, reverse_singleton, singleton_append, DispatchFits] at hfits
    obtain ⟨active, hl, hdepth, he⟩ := h.stacked.last_concat
    have hact := h.runs.activeHandlerEntry heap he
    simp only [hl, hdepth, ne_eq, not_true_eq_false, if_false, hact, h.stacked.record_first]
    by_cases hclose : top.1.kind = .iteratorClose ∧ top.1.bodyContains off = true
    · have hins : (decide ¬top.1.kind = .iteratorClose || !top.1.bodyContains off) = false := by
        simp [hclose.1, hclose.2]
      simp only [hins, Bool.false_eq_true, if_false]
      by_cases hfirst : (rest.reverse.getLast?.getD top).2.kind = .throw
      · rw [if_pos ⟨hthrow, hclose.1, hclose.2, hfirst⟩] at hfits
        obtain ⟨completions, hrestore, hstacked⟩ := h.stacked.restoreRecord
        have hm : top ∈ rest ++ [top] := mem_append.mpr (.inr (mem_singleton.mpr rfl))
        obtain ⟨htop, hfin⟩ := h.dispatching.entries top hm
        -- no range inside the body covers its first instruction
        have hclear : ∀ ent ∈ fn.metadata.handlers,
            ent.range.Contains top.1.handler.index.toNat → ¬ent.range.Within top.1.body := by
          intro ent hm hcovers hwi
          exact not_lt.mpr hcovers.1 (htable.nested.first ent hm top.1 htop hclose.1 hwi)
        have hbody : top.1.body.Contains top.1.handler.index.toNat :=
          ⟨le_refl _, htable.valid.body top.1 htop hfin⟩
        refine .inr ⟨rest, top, { fiber with
          handlers := fiber.handlers.pop, completions := completions }, rfl, ?_, hfits.2, h.running,
          h.runs, hstacked, h.dispatching.pop hbody hclear,
          (h.dispatching.records top hm).completionFits hfits.1,
          fun s hs => h.targets s (mem_append.mpr (.inl hs)), h.targets top hm⟩
        simp only [hfirst, not_true_eq_false, if_false, hrestore]
      · left
        simp only [hfirst, not_false_eq_true, if_true]
    · left
      have hout : (decide ¬top.1.kind = .iteratorClose || !top.1.bodyContains off) = true := by
        by_cases hk : top.1.kind = .iteratorClose
        · have hbody : top.1.bodyContains off ≠ true := fun hbody => hclose ⟨hk, hbody⟩
          simp [hbody]
        · simp [hk]
      simp only [hout, if_true]

/-- Without a throw, the completion that is routed is the one that is dispatched. -/
theorem DispatchFits.breakFits {stack : List Saved} (h : DispatchFits handlers stack off completion)
    (hthrow : completion.kind ≠ .throw) : BreakFits handlers off completion := by
  cases stack with
  | nil => exact h
  | cons s outer =>
    rw [DispatchFits, if_neg fun hcond => hthrow hcond.1] at h
    exact h

/-- The passes over a frame end, and none of them fails for want of a saved completion. -/
theorem DispatchState.dispatchLoop (htable : FinalizerTable fn) (heap : EnvironmentHeap) {rounds :
    Nat} (hrounds : saved.length < rounds) (h : DispatchState codes fn fiber frame inner off
    completion saved natives) (hfits : DispatchFits fn.metadata.handlers saved.reverse off
    completion) :
    ∃ res, Vm.dispatchLoop (heap.host codes) frame rounds fiber completion off = some res ∧
      Meets NotMissing (StandsOrLeaves codes fn) res := by
  induction rounds generalizing fiber inner off completion saved natives with
  | zero => exact absurd hrounds (Nat.not_lt_zero _)
  | succ rounds ih =>
    have hset : DispatchState codes fn { fiber with
        completions := fiber.completions.discardNativeSuffix frame.completionBase } frame inner
        off completion saved [] :=
      ⟨h.running, h.runs, h.stacked.discardNativeSuffix, h.dispatching, h.fits, h.targets, h.target⟩
    rw [Vm.dispatchLoop, dispatchPass]
    by_cases hthrow : completion.kind = .throw
    · have hbreak : BreakFits fn.metadata.handlers off completion := by
        intro hk
        rw [hthrow] at hk
        rcases hk with hk | hk
        · cases hk
        · cases hk
      simp only [if_pos hthrow]
      rcases hset.suppressIteratorCloseError htable heap hthrow hfits with
        hn | ⟨rest, top, post, rfl, hsome, hrest, ha⟩
      · rw [hn]
        exact ⟨_, rfl, hset.routeAbrupt htable heap hbreak⟩
      · rw [hsome]
        rw [length_append] at hrounds
        exact ih (Nat.lt_of_succ_lt_succ hrounds) ha hrest
    · simp only [if_neg hthrow]
      exact ⟨_, rfl, hset.routeAbrupt htable heap (hfits.breakFits hthrow)⟩

/-- A dispatch in a frame keeps the finalizers around the new program counter. -/
theorem DispatchState.dispatchAbrupt (htable : FinalizerTable fn) (heap : EnvironmentHeap) (h :
    DispatchState codes fn fiber frame inner off completion saved natives) (hfits : DispatchFits
    fn.metadata.handlers saved.reverse off completion) :
    ∃ res, Vm.dispatchAbrupt (heap.host codes) fiber completion off = some res ∧
      Meets NotMissing (StandsOrLeaves codes fn) res := by
  rw [Vm.dispatchAbrupt, h.running]
  exact h.dispatchLoop htable heap h.stacked.length_lt hfits

/-! ## The instructions of finalizers -/

/-- A table in which a handler has a property has a last one. -/
theorem exists_findLastHandler {p : HandlerEntry → Bool} (hm : ent ∈ handlers) (hp : p ent = true) :
    ∃ found, findLastHandler p handlers = some found := by
  obtain ⟨idx, hi, rfl⟩ := getElem_of_mem hm
  have hzip : (handlers[idx], idx) ∈ handlers.zipIdx.reverse := by
    rw [mem_reverse, mem_zipIdx_iff_getElem?]
    exact getElem?_eq_getElem hi
  have hsome : (handlers.zipIdx.reverse.find? fun ent => p ent.1).isSome = true :=
    find?_isSome.mpr ⟨_, hzip, hp⟩
  obtain ⟨found, hf⟩ := Option.isSome_iff_exists.mp hsome
  exact ⟨_, by rw [findLastHandler, hf]; rfl⟩

variable {trace : List (Nat × DecodedInstruction)} {instr : DecodedInstruction}
  {natives : List (CompletionEntry ν)}

section

variable (htable : FinalizerTable fn)

include htable

/-- The normal entry of a finalizer, when the finalizers around the instruction are around the range
of the entered one. -/
theorem Standing.enterFinally (hcheck : TableChecked fn trace) (heap : EnvironmentHeap)
    (h : Standing codes fn fiber frame saved []) (next : WordOffset)
    (hm : (frame.pc.index.toNat, instr) ∈ trace) (hop : instr.opcode = .enterFinally)
    (hwi : ∀ found, findCoveringFinally fn.metadata.handlers frame.pc = some found →
      ∀ around ∈ fn.metadata.handlers, around.kind.isFinalizer = true →
        around.body.Contains frame.pc.index.toNat → found.2.range.Within around.body) :
    ∃ res, Vm.enterFinally (heap.host codes) (fiber.setPc next) frame.pc = some res ∧
      Meets NotMissing (Stands codes fn) res := by
  have hrunning : (fiber.setPc next).frames.last = some { frame with pc := next } :=
    Fiber.modifyTop_last h.running _
  obtain ⟨ent, he, hfinalizer, hcovers⟩ := hcheck.enters _ _ hm hop
  have hcov : (ent.kind.isFinalizer && ent.covers frame.pc) = true := by
    rw [hfinalizer, HandlerEntry.covers_iff.mpr hcovers]
    rfl
  obtain ⟨⟨idx, handler⟩, hf⟩ :
      ∃ found, findCoveringFinally fn.metadata.handlers frame.pc = some found :=
    exists_findLastHandler (p := fun ent => ent.kind.isFinalizer && ent.covers frame.pc) he hcov
  obtain ⟨hget, hhandler, hrange, hk⟩ := findCoveringFinally_some hf
  have hhandlers : (heap.host codes).handlers { frame with pc := next } =
      .ok fn.metadata.handlers := Runs.handlers h.runs heap
  refine ⟨_, by rw [Vm.enterFinally, hrunning], ?_⟩
  simp only [hhandlers, hf]
  have hstacked : Stacked fn.metadata.handlers (fiber.setPc next) frame.completionBase saved [] :=
    h.stacked.modifyTop _
  refine (hstacked.enterFinalizer hget hrunning (.normal none)).imp ?_
  rintro post ⟨ha, hl⟩
  have hkept : ∀ s, s ∈ saved ↔ s ∈ saved ∧ handler.range.Within s.1.body := by
    intro s
    refine ⟨fun hs => ⟨hs, ?_⟩, And.left⟩
    obtain ⟨hs', hfin⟩ := h.lockstep.entries s hs
    exact hwi _ hf s.1 hs' hfin (h.lockstep.contains (h.lockstep.around_of_mem hs))
  refine ⟨_, _, [], hl, h.runs, ha, ?_, htable.starts handler hhandler, ?_⟩
  · refine h.lockstep.enter_of_kept htable.valid htable.nested hhandler hrange
      (prefix_refl saved) hkept ?_ (le_refl _) fun _ => cons_ne_nil _ _
    intro s hs
    obtain rfl := mem_singleton.mp hs
    exact ⟨rfl, hk, trivial⟩
  · exact forall_mem_append.mpr ⟨h.targets, forall_mem_singleton.mpr nofun⟩

/-- The innermost finalizer ends behind the `resumeCompletion` that it stands at. -/
theorem Standing.top_ends (hcheck : TableChecked fn trace)
    (h : Standing codes fn fiber frame saved natives) (hm : (frame.pc.index.toNat, instr) ∈ trace)
    (hop : instr.opcode = .resumeCompletion) : ∃ rest top, saved = rest ++ [top] ∧
      top.1.body.hi = frame.pc.index.toNat + instr.length := by
  obtain ⟨ent, he, hfin, hbody, hend⟩ := hcheck.resumes _ _ hm hop
  obtain ⟨s, hs, hsm⟩ := (h.lockstep.active ent he hfin).mp hbody
  rcases eq_nil_or_concat saved with rfl | ⟨rest, top, rfl⟩
  · cases hs
  · rw [concat_eq_append] at h hs ⊢
    refine ⟨rest, top, rfl, ?_⟩
    have htop : top ∈ rest ++ [top] := mem_append.mpr (.inr (mem_singleton.mpr rfl))
    obtain ⟨htopMem, htopFin⟩ := h.lockstep.entries top htop
    have hcon := h.lockstep.contains (h.lockstep.around_of_mem htop)
    rcases mem_append.mp hs with hs | hs
    · -- a body inside another one would end before it, and an instr does not end twice
      have hins := (pairwise_append.mp h.lockstep.nested).2.2 s hs top
        (mem_singleton.mpr rfl)
      rw [hsm] at hins
      have hlt := htable.nested.ends top.1 htopMem ent he hfin htopFin hins
      have hle := hcheck.body top.1 htopMem htopFin _ _ hm hcon.2
      omega
    · obtain rfl := mem_singleton.mp hs
      rw [hsm, hend]

/-- Behind a finalizer that ends normally the ones around it are active. -/
theorem Standing.fallThrough {rest : List Saved} {top : Saved}
    (h : Standing codes fn fiber frame (rest ++ [top]) natives) {next : Nat}
    (hend : top.1.body.hi = next)
    (hout : ∀ around ∈ fn.metadata.handlers, around.kind.isFinalizer = true →
      around.body.Contains next → around.body.Contains frame.pc.index.toNat) :
    InLockstep fn.metadata.handlers next rest := by
  have htop : top ∈ rest ++ [top] := mem_append.mpr (.inr (mem_singleton.mpr rfl))
  obtain ⟨htopMem, htopFin⟩ := h.lockstep.entries top htop
  have hcon := h.lockstep.contains (h.lockstep.around_of_mem htop)
  obtain ⟨hnested, -, hins⟩ := pairwise_append.mp h.lockstep.nested
  refine ⟨fun s hs => h.lockstep.entries s (mem_append.mpr (.inl hs)), hnested,
    fun s hs => h.lockstep.records s (mem_append.mpr (.inl hs)), ?_, nofun⟩
  intro ent he hfin
  constructor
  · intro hn
    obtain ⟨s, hs, hsm⟩ := (h.lockstep.active ent he hfin).mp (hout ent he hfin hn)
    rcases mem_append.mp hs with hs | hs
    · exact ⟨s, hs, hsm⟩
    · obtain rfl := mem_singleton.mp hs
      have hcontained : ent.body.Contains next := hn
      rw [← hsm] at hcontained
      have hlt := hcontained.2
      omega
  · rintro ⟨s, hs, hsm⟩
    obtain ⟨hsMem, hsFin⟩ := h.lockstep.entries s (mem_append.mpr (.inl hs))
    have hin := hins s hs top (mem_singleton.mpr rfl)
    have hlt := htable.nested.ends top.1 htopMem s.1 hsMem hsFin htopFin hin
    have hlo := le_trans hin.1.1 hcon.1
    have hpc := hcon.2
    show ent.body.Contains next
    rw [← hsm]
    exact ⟨by omega, by omega⟩

/-- The end of a finalizer: its completion is normal and the frame goes on behind it, or the
completion is replayed in the finalizers around it. -/
theorem Standing.resumeCompletion (hcheck : TableChecked fn trace)
    (hst : VerifiedStream fn.bytecode trace) (heap : EnvironmentHeap)
    (h : Standing codes fn fiber frame saved natives) (hm : (frame.pc.index.toNat, instr) ∈ trace)
    (hop : instr.opcode = .resumeCompletion) {next : WordOffset}
    (hn : next.index.toNat = frame.pc.index.toNat + instr.length)
    (hout : ∀ around ∈ fn.metadata.handlers, around.kind.isFinalizer = true →
      around.body.Contains next.index.toNat → around.body.Contains frame.pc.index.toNat)
    (hfits : ∀ s outer, saved.reverse = s :: outer → s.2.kind ≠ .normal →
      DispatchFits fn.metadata.handlers outer frame.pc s.2) :
    ∃ res, Vm.resumeCompletion (heap.host codes) (fiber.setPc next) frame.pc = some res ∧
      Meets NotMissing (StandsOrLeaves codes fn) res := by
  obtain ⟨rest, top, rfl, hend⟩ := h.top_ends htable hcheck hm hop
  have hrunning : (fiber.setPc next).frames.last = some { frame with pc := next } :=
    Fiber.modifyTop_last h.running _
  have hstacked := (h.stacked.modifyTop fun frame => { frame with pc := next }).discardNativeSuffix
  obtain ⟨active, hl, hdepth, he⟩ := hstacked.last_concat
  obtain ⟨completions, hrestore, hpopped⟩ := hstacked.restoreRecord
  have htop : top ∈ rest ++ [top] := mem_append.mpr (.inr (mem_singleton.mpr rfl))
  obtain ⟨htopMem, htopFin⟩ := h.lockstep.entries top htop
  have hcon := h.lockstep.contains (h.lockstep.around_of_mem htop)
  have hact : (heap.host codes).activeHandlerEntry { frame with pc := next }
      active.handlerIndex = .ok top.1 := Runs.activeHandlerEntry h.runs heap he
  have hbody := HandlerEntry.bodyContains_iff.mpr hcon
  have hstart : fn.StartsAt next.index.toNat := by
    rw [hn]
    exact startsAt_fallThrough hst hm (by rw [hop]; rfl)
  have hl' : (fiber.setPc next).handlers.last = some active := hl
  have hdepth' : active.frameDepth = (fiber.setPc next).frames.len := hdepth
  have hrestore' : ((fiber.setPc next).completions.discardNativeSuffix
      frame.completionBase).restoreRecord frame.completionBase = some (top.2,
        completions) := hrestore
  rw [Vm.resumeCompletion, hrunning]
  simp only [hl', hdepth', ne_eq, hact, hbody, hrestore']
  by_cases hnormal : top.2.kind = .normal
  · rw [if_pos hnormal]
    refine ⟨_, rfl, { frame with pc := next }, rest, [], hrunning, h.runs, hpopped, ?_, hstart,
      fun s hs => h.targets s (mem_append.mpr (.inl hs))⟩
    exact h.fallThrough htable (hend.trans hn.symm) hout
  · rw [if_neg hnormal]
    have hreplay := hfits top rest.reverse (by rw [reverse_append]; rfl) hnormal
    -- no range inside the body covers its last instruction
    have hclear : ∀ ent ∈ fn.metadata.handlers,
        ent.range.Contains frame.pc.index.toNat → ¬ent.range.Within top.1.body := by
      intro ent hentryMem hcovers hwi
      have hlt := htable.nested.last ent hentryMem top.1 htopMem htopFin hwi
      have hle := hcheck.range ent hentryMem _ _ hm hcovers.2
      omega
    have hstate : DispatchState codes fn { fiber.setPc next with
        handlers := (fiber.setPc next).handlers.pop, completions := completions }
        { frame with pc := next } (some top.1) frame.pc top.2 rest [] :=
      ⟨hrunning, h.runs, hpopped, h.lockstep.pop hcon hclear,
        (h.lockstep.records top htop).completionFits hnormal,
        fun s hs => h.targets s (mem_append.mpr (.inl hs)), h.targets top htop⟩
    exact hstate.dispatchAbrupt htable heap hreplay

end

end Dispatch

end TachyonEngine.Vm
