import TachyonEngine.Vm.Calls

/-!
# Runs of calls, returns and unwinding

`Consistent` says that the side stacks, the register file, the bases and the active realm fit the
frames. `callRun_consistent` keeps it over every run whose steps avoid three slips of the code: a
call that fails after its register window was opened keeps the window, a call that fails at its
environment keeps the realm of the callee, and so does a throw that leaves a frame.
-/

namespace TachyonEngine.Vm

open Bytecode List
open Gc (RawHeapRef)
open Isolate

variable {ν : Type}

/-! ## The contents of a fiber -/

/-- What the stacks of calls hold, without their capacities. -/
structure FiberContents (ν : Type) where
  frames : List Frame
  argumentObjects : List (Option Value)
  argumentSources : List (Option RawHeapRef)
  argumentCallees : List (Option Value)
  derivedActivations : List ClassActivation
  baseClassActivations : List ClassActivation
  registers : List Value
  handlers : List ActiveHandler
  completions : List (CompletionEntry ν)

def Fiber.contents (fiber : Fiber ν) : FiberContents ν :=
  { frames := fiber.frames.entries
    argumentObjects := fiber.argumentObjects
    argumentSources := fiber.argumentSources
    argumentCallees := fiber.argumentCallees
    derivedActivations := fiber.derivedActivations.entries
    baseClassActivations := fiber.baseClassActivations.entries
    registers := fiber.registers.entries
    handlers := fiber.handlers.entries
    completions := fiber.completions.entries }

/-! ## Consistency -/

/-- Strictly increasing depths of existing frames. -/
structure ActivationsFit (activations : List ClassActivation) (frames : Nat) : Prop where
  increasing : activations.Pairwise fun lower upper => lower.frameDepth < upper.frameDepth
  existing : ∀ activation ∈ activations, 1 ≤ activation.frameDepth ∧ activation.frameDepth ≤ frames

/-- The registers of the frame's function. -/
def Host.registerCount (host : Host) (frame : Frame) : Nat :=
  match host.loadedCode frame.code with
  | .error _ => 0
  | .ok loaded =>
    match loaded.functions[frame.function.index.toNat]? with
    | none => 0
    | some function => function.metadata.layout.registerCount.toNat

/-- The bases of a frame and of a frame above it. A frame that returns to a trampoline has it
between the bases. -/
structure BasesFit (caller callee : Frame) : Prop where
  handlers : caller.handlerBase ≤ callee.handlerBase
  completions : caller.completionBase ≤ callee.completionBase
  trampoline : callee.returnContinuation = true → caller.completionBase < callee.completionBase

/-- The entry under the completion base is a trampoline. -/
def AboveTrampoline (frame : Frame) (completions : List (CompletionEntry ν)) : Prop :=
  0 < frame.completionBase ∧
    ∃ continuation, completions[frame.completionBase - 1]? = some (.native continuation)

structure ContentsFit (host : Host) (c : FiberContents ν) : Prop where
  objects : c.argumentObjects.length = c.frames.length
  sources : c.argumentSources.length = c.frames.length
  callees : c.argumentCallees.length = c.frames.length
  derived : ActivationsFit c.derivedActivations c.frames.length
  baseClass : ActivationsFit c.baseClassActivations c.frames.length
  windows : c.frames.IsChain fun caller callee =>
    callee.base = caller.base + host.registerCount caller
  registers : ∀ top ∈ c.frames.getLast?, c.registers.length = top.base + host.registerCount top
  bases : c.frames.Pairwise BasesFit
  handlerBases : ∀ frame ∈ c.frames, frame.handlerBase ≤ c.handlers.length
  completionBases : ∀ frame ∈ c.frames, frame.completionBase ≤ c.completions.length
  trampolines : ∀ frame ∈ c.frames, frame.returnContinuation = true →
    AboveTrampoline frame c.completions

/-- The realms that can be activated. -/
def Isolate.realms (isolate : Isolate ν) : List Nat := isolate.activeRealm :: isolate.inactiveRealms

/-- The code is loaded and belongs to the realm. -/
def Host.RunsIn (host : Host) (code realm : Nat) : Prop :=
  ∃ loaded, host.loadedCode code = .ok loaded ∧ loaded.realm = realm

structure Consistent (host : Host) (isolate : Isolate ν) : Prop where
  contents : ContentsFit host isolate.fiber.contents
  loaded : ∀ frame ∈ isolate.fiber.contents.frames, ∃ realm, host.RunsIn frame.code realm
  active : ∀ top ∈ isolate.fiber.contents.frames.getLast?, host.RunsIn top.code isolate.activeRealm
  realms : ∀ loaded ∈ host.codes, loaded.realm ∈ isolate.realms

/-! ## Activations -/

namespace ActivationsFit

variable {activations : List ClassActivation} {frames : Nat}

theorem push (h : ActivationsFit activations frames) (fn : Value) :
    ActivationsFit (activations ++ [{ frameDepth := frames + 1, function := fn }])
      (frames + 1) where
  increasing := by
    refine pairwise_append.mpr ⟨h.increasing, pairwise_singleton _ _, ?_⟩
    intro lower hlower upper hupper
    obtain rfl := mem_singleton.mp hupper
    exact Nat.lt_succ_of_le (h.existing lower hlower).2
  existing := by
    exact forall_mem_append.mpr ⟨fun activation hm => ⟨(h.existing activation hm).1,
      Nat.le_succ_of_le (h.existing activation hm).2⟩, forall_mem_singleton.mpr (⟨Nat.succ_pos
      _, le_refl _⟩)⟩

theorem weaken (h : ActivationsFit activations frames) : ActivationsFit activations (frames + 1) :=
  ⟨h.increasing, fun activation hm =>
    ⟨(h.existing activation hm).1, Nat.le_succ_of_le (h.existing activation hm).2⟩⟩

/-- At most the last activation is of the frame that leaves. -/
theorem pop {s : Stack ClassActivation} (h : ActivationsFit s.entries (frames + 1)) :
    ActivationsFit (s.popExited frames).entries frames := by
  rcases eq_nil_or_concat s.entries with hnil | ⟨rest, last, hl⟩
  · have heq : (s.popExited frames).entries = [] := by
      simp [Stack.popExited, Stack.last, hnil]
    rw [heq]
    exact ⟨List.Pairwise.nil, fun _ hm => absurd hm not_mem_nil⟩
  · rw [hl, concat_eq_append] at h
    obtain ⟨hrest, -, hbl⟩ := pairwise_append.mp h.increasing
    have hlastLe := (h.existing last (by simp)).2
    by_cases hexited : frames < last.frameDepth
    · have heq : (s.popExited frames).entries = rest := by
        simp [Stack.popExited, Stack.last, Stack.pop, hl, hexited]
      rw [heq]
      refine ⟨hrest, fun activation hm => ⟨(h.existing activation (by simp [hm])).1, ?_⟩⟩
      have hlt := hbl activation hm last (mem_singleton.mpr rfl)
      omega
    · have heq : (s.popExited frames).entries = rest ++ [last] := by
        simp [Stack.popExited, Stack.last, hl, hexited]
      rw [heq]
      refine ⟨h.increasing, fun activation hm => ⟨(h.existing activation hm).1, ?_⟩⟩
      rcases mem_append.mp hm with hrestMem | hlastMem
      · have hlt := hbl activation hrestMem last (mem_singleton.mpr rfl)
        omega
      · obtain rfl := mem_singleton.mp hlastMem
        omega

end ActivationsFit

variable {s : Stack ClassActivation}

variable {frames : Nat}

/-- Nothing is popped when every activation is of a frame that is there. -/
theorem Stack.popExited_of_fit (h : ActivationsFit s.entries frames) : s.popExited frames = s := by
  cases hl : s.last with
  | none => simp [Stack.popExited, hl]
  | some activation =>
    have hle := (h.existing activation (mem_of_getLast? hl)).2
    have hlt : ¬frames < activation.frameDepth := not_lt.mpr hle
    simp [Stack.popExited, hl, hlt]

/-! ## Reserving keeps the contents -/

namespace Fiber

theorem inOrder_contents {reservations : List (Fiber ν → Except ExecutionError Unit × Fiber ν)}
    (h : ∀ reserve ∈ reservations, ∀ fiber, (reserve fiber).2.contents = fiber.contents)
    (fiber : Fiber ν) : (inOrder reservations fiber).2.contents = fiber.contents := by
  induction reservations generalizing fiber with
  | nil => rfl
  | cons reserve rest ih =>
    have hrsv := h reserve mem_cons_self fiber
    simp only [inOrder]
    split
    next e fiber' heq =>
      rw [heq] at hrsv
      exact hrsv
    next fiber' heq =>
      rw [heq] at hrsv
      exact (ih (fun r hr => h r (mem_cons_of_mem _ hr)) fiber').trans hrsv

theorem reserveOn_contents {α : Type} {needed : Bool} {stack : Stack α} {additional : Nat}
    {failure : ExecutionError} {replace : Stack α → Fiber ν} {fiber : Fiber ν}
    (h : ∀ other : Stack α, other.entries = stack.entries →
      (replace other).contents = fiber.contents) :
    (reserveOn needed stack additional failure replace fiber).2.contents = fiber.contents := by
  have hes := stack.tryReserveExact_entries additional
  simp only [reserveOn]
  split
  · split
    next other heq =>
      rw [heq] at hes
      exact h other hes
    next other heq =>
      rw [heq] at hes
      exact h other hes
  · rfl

theorem reserveCompletions_contents (depth : Nat) (fiber : Fiber ν) :
    (fiber.reserveCompletions depth).2.contents = fiber.contents := by
  have hes := fiber.completions.reserve_entries depth
  simp only [reserveCompletions]
  split
  · simp only [contents, hes]
  · rfl

theorem reserveCallee_contents (limits : StackLimits) (tgt : ResolvedCallTarget)
    (fiber : Fiber ν) : (fiber.reserveCallee limits tgt).2.contents = fiber.contents := by
  simp only [reserveCallee]
  split
  · rfl
  · split
    · rfl
    · split
      · rfl
      · refine inOrder_contents ?_ fiber
        intro reserve hm
        simp only [mem_cons, not_mem_nil, or_false] at hm
        rcases hm with rfl | rfl | rfl | rfl | rfl | rfl <;> intro fiber
        · exact reserveOn_contents fun other h => by simp only [contents, h]
        · exact reserveOn_contents fun other h => by simp only [contents, h]
        · exact reserveOn_contents fun other h => by simp only [contents, h]
        · exact reserveOn_contents fun other h => by simp only [contents, h]
        · exact reserveCompletions_contents _ fiber
        · exact reserveOn_contents fun other h => by simp only [contents, h]

end Fiber

/-! ## The window of a callee -/

/-- The contents with a window of registers added. -/
def OpensWindow (c : FiberContents ν) (cnt : Nat) (post : FiberContents ν) : Prop :=
  ∃ window, window.length = cnt ∧ post = { c with registers := c.registers ++ window }

namespace Fiber

theorem growRegisters_opens (fiber : Fiber ν) (cnt : Nat) :
    OpensWindow fiber.contents cnt (fiber.growRegisters cnt).contents :=
  ⟨replicate cnt .undefined, length_replicate, rfl⟩

variable {c : FiberContents ν} {cnt : Nat} {fiber : Fiber ν}

/-- A write at the base of the window stays in the window. -/
theorem write_opens (h : OpensWindow c cnt fiber.contents) (register : Nat) (val : Value) :
    OpensWindow c cnt (fiber.write c.registers.length register val).2.contents := by
  obtain ⟨window, hlen, hcont⟩ := h
  have hregs : fiber.registers.entries = c.registers ++ window :=
    congrArg FiberContents.registers hcont
  simp only [write]
  split
  · refine ⟨window.set register val, by rw [length_set, hlen], ?_⟩
    have hset : (c.registers ++ window).set (c.registers.length + register) val =
        c.registers ++ window.set register val := by
      rw [set_append_right _ _ (Nat.le_add_right _ _), Nat.add_sub_cancel_left]
    rw [hregs, hset]
    exact congrArg (fun other : FiberContents ν =>
      { other with registers := c.registers ++ window.set register val }) hcont
  · exact ⟨window, hlen, hcont⟩

theorem copyArguments_opens (heap : CallHeap) (site : CallSite) (indices : List Nat)
    (h : OpensWindow c cnt fiber.contents) : OpensWindow c cnt
      (fiber.copyArguments heap site c.registers.length indices).2.contents := by
  induction indices generalizing fiber with
  | nil => exact h
  | cons idx rest ih =>
    simp only [copyArguments]
    split
    · exact h
    next val _ =>
      have hwrite := write_opens h idx val
      split
      next heq =>
        rw [heq] at hwrite
        exact hwrite
      next heq =>
        rw [heq] at hwrite
        exact ih hwrite

variable {heap : CallHeap} {site : CallSite}

/-- Whether an argument can be read depends on the length of the register file only. -/
theorem positionalArgument_of_len {idx : Nat} {other : Fiber ν} (hlen : other.registers.len =
    fiber.registers.len) (h : ∃ val, fiber.positionalArgument heap site idx = .ok val) :
    ∃ val, other.positionalArgument heap site idx = .ok val := by
  obtain ⟨val, h⟩ := h
  simp only [positionalArgument] at h ⊢
  split at h
  next hinit =>
    simp only [if_pos hinit]
    exact ⟨val, h⟩
  next hinit =>
    simp only [if_neg hinit]
    cases hsource : site.argumentSource with
    | some source =>
      simp only [hsource] at h
      exact ⟨val, h⟩
    | none =>
      simp only [hsource] at h ⊢
      split_ifs at h with hword
      simp only [if_neg hword]
      cases hget : fiber.registers.entries[
          site.argumentBase + (idx - site.argumentPrefixCount)]? with
      | none =>
        simp only [hget] at h
        cases h
      | some found =>
        obtain ⟨hlt, -⟩ := List.getElem?_eq_some_iff.mp hget
        have hlt' : site.argumentBase + (idx - site.argumentPrefixCount) <
            other.registers.entries.length := by
          simp only [Stack.len] at hlen
          omega
        rw [getElem?_eq_getElem hlt']
        exact ⟨_, rfl⟩

theorem OpensWindow.len (h : OpensWindow c cnt fiber.contents) :
    fiber.registers.len = c.registers.length + cnt := by
  obtain ⟨window, hlen, hcont⟩ := h
  have hregs : fiber.registers.entries = c.registers ++ window :=
    congrArg FiberContents.registers hcont
  rw [Stack.len, hregs, length_append, hlen]

/-- The arguments are copied when every one of them can be read and has a register. -/
theorem copyArguments_ok {indices : List Nat} (h : OpensWindow c cnt fiber.contents) (havailable : ∀
    idx ∈ indices, idx < cnt ∧ ∃ val, fiber.positionalArgument heap site idx = .ok val) :
    (fiber.copyArguments heap site c.registers.length indices).1 = .ok () := by
  induction indices generalizing fiber with
  | nil => rfl
  | cons idx rest ih =>
    obtain ⟨hi, val, hv⟩ := havailable idx mem_cons_self
    have hlen := OpensWindow.len h
    have hlt : c.registers.length + idx < fiber.registers.len := by omega
    have hwrite := write_opens h idx val
    simp only [copyArguments, hv]
    simp only [write, if_pos hlt] at hwrite ⊢
    refine ih hwrite fun other hm => ?_
    obtain ⟨ho, hread⟩ := havailable other (mem_cons_of_mem _ hm)
    refine ⟨ho, positionalArgument_of_len ?_ hread⟩
    exact length_set

end Fiber

/-! ## Realms -/

variable {realm : Nat}

theorem mem_swapRemove {realms : List Nat} {pos : Nat} (hm : realm ∈ realms)
    (hpos : pos < realms.length) (hne : realms[pos]? ≠ some realm) :
    realm ∈ swapRemove realms pos := by
  rcases eq_nil_or_concat realms with rfl | ⟨rest, last, rfl⟩
  · exact absurd hm not_mem_nil
  · simp only [concat_eq_append] at hm hpos hne ⊢
    simp only [length_append, length_singleton] at hpos
    simp only [swapRemove, List.getLast?_append, getLast?_singleton, Option.some_or]
    obtain ⟨idx, hi⟩ := mem_iff_getElem?.mp hm
    have hnePosition : pos ≠ idx := by
      rintro rfl
      exact hne hi
    rcases lt_or_ge idx rest.length with hlt | hge
    · refine mem_iff_getElem?.mpr ⟨idx, ?_⟩
      rw [List.getElem?_dropLast, if_pos (by simp [hlt]), getElem?_set_ne hnePosition, hi]
    · -- the realm is the last one, which moves to the position
      have hl : idx = rest.length := by
        obtain ⟨hlt, -⟩ := List.getElem?_eq_some_iff.mp hi
        simp only [length_append, length_singleton] at hlt
        omega
      subst hl
      have hrealm : realm = last := by simpa using hi.symm
      have hlt : pos < rest.length := by omega
      refine mem_iff_getElem?.mpr ⟨pos, ?_⟩
      rw [List.getElem?_dropLast, if_pos (by simp [hlt]), getElem?_set_self (by simp; omega),
        hrealm]

/-- Activating a known realm loses no realm and keeps the fiber. -/
theorem Isolate.activateRealmForFrame_spec {isolate : Isolate ν} (h : realm ∈ isolate.realms) :
    ∃ inactive, isolate.activateRealmForFrame realm =
        (.ok (), { isolate with activeRealm := realm, inactiveRealms := inactive }) ∧
      ∀ known ∈ isolate.realms, known ∈ realm :: inactive := by
  by_cases hact : realm = isolate.activeRealm
  · refine ⟨isolate.inactiveRealms, ?_, ?_⟩
    · rw [activateRealmForFrame, if_pos hact, hact]
    · intro known hknown
      rw [hact]
      exact hknown
  · have hm : realm ∈ isolate.inactiveRealms := by
      rcases mem_cons.mp h with heq | hm
      · exact absurd heq hact
      · exact hm
    cases hfind : isolate.inactiveRealms.findIdx? (· == realm) with
    | none =>
      have hn := findIdx?_eq_none_iff.mp hfind realm hm
      simp at hn
    | some pos =>
      obtain ⟨hlt, hget, -⟩ := findIdx?_eq_some_iff_getElem.mp hfind
      have hrealm : isolate.inactiveRealms[pos]? = some realm := by
        rw [getElem?_eq_getElem hlt, beq_iff_eq.mp hget]
      refine ⟨swapRemove isolate.inactiveRealms pos ++ [isolate.activeRealm],
        by simp only [activateRealmForFrame, if_neg hact, hfind], ?_⟩
      intro known hknown
      by_cases heq : known = realm
      · exact heq ▸ mem_cons_self
      · refine mem_cons_of_mem _ (mem_append.mpr ?_)
        rcases mem_cons.mp hknown with rfl | hknown
        · exact .inr (mem_singleton.mpr rfl)
        · refine .inl (mem_swapRemove hknown hlt ?_)
          rw [hrealm]
          exact fun hsome => heq (Option.some.inj hsome).symm

/-! ## Opening a frame -/

/-- The target is the function that the code holds, as the callers resolve it; a loaded function
has a register for each of its arguments. -/
structure Host.Resolves (host : Host) (tgt : ResolvedCallTarget) : Prop where
  function : ∃ loaded function, host.loadedCode tgt.code = .ok loaded ∧
    loaded.functions[tgt.function.index.toNat]? = some function ∧
    tgt.kind = function.metadata.kind ∧ tgt.role = function.metadata.role ∧
    tgt.strictness = function.metadata.strictness ∧ tgt.layout = function.metadata.layout
  arguments : tgt.layout.argumentCount ≤ tgt.layout.registerCount

/-- The answers that a call needs once its limits and reservations are passed: its arguments, its
receiver and its home object are there, and an environment that cannot be allocated is one of the
active realm. -/
structure PushAnswers (host : Host) (heap : CallHeap) (tgt : ResolvedCallTarget) (site : CallSite)
    (pre : Isolate ν) : Prop where
  arguments : ∀ index < min site.argumentCount tgt.layout.argumentCount.toNat,
    ∃ value, (pre.fiber.growRegisters tgt.layout.registerCount.toNat).positionalArgument heap
      site index = .ok value
  thisValue : ∀ realm, host.RunsIn tgt.code realm →
    ∃ value, heap.bindOrdinaryThis realm tgt.strictness site.thisValue = .ok value
  receiver : ∃ receiver, heap.receiverOrHomeObject tgt site = .ok receiver
  environment : tgt.layout.environmentSlotCount ≠ 0 →
    (∃ environment, heap.allocateActivationEnvironment tgt.kind tgt.environment tgt.code
      tgt.function tgt.layout.environmentSlotCount
      (tgt.layout.selfBindingSlot.map fun slot => (slot, site.callee)) = .ok environment) ∨
    host.RunsIn tgt.code pre.activeRealm

variable {host : Host}

variable {code : Nat}

theorem Host.RunsIn.unique {other : Nat} (h : host.RunsIn code realm) (h' : host.RunsIn code other)
    :
    realm = other := by
  obtain ⟨loaded, hloaded, rfl⟩ := h
  obtain ⟨loaded', hloaded', rfl⟩ := h'
  rw [hloaded] at hloaded'
  cases hloaded'
  rfl

theorem Host.mem_codes_of_loadedCode {loaded : LoadedCode} (h : host.loadedCode code = .ok loaded) :
    loaded ∈ host.codes := by
  simp only [Host.loadedCode] at h
  split at h
  next found hget =>
    cases h
    exact mem_of_getElem? hget
  · cases h

variable {heap : CallHeap} {tgt : ResolvedCallTarget} {site : CallSite} {pre : Isolate ν}

theorem PushAnswers.of_registers {fiber : Fiber ν} (h : PushAnswers host heap tgt site pre)
    (hfiber : fiber.contents.registers = pre.fiber.contents.registers) :
    PushAnswers host heap tgt site { pre with fiber := fiber } where
  arguments := by
    intro idx hi
    refine Fiber.positionalArgument_of_len ?_ (h.arguments idx hi)
    have hes : fiber.registers.entries = pre.fiber.registers.entries := hfiber
    simp only [Fiber.growRegisters, Stack.len, hes]
  thisValue := h.thisValue
  receiver := h.receiver
  environment := h.environment

namespace Isolate

/-- A call that has its answers opens its window in the realm of its code. -/
theorem openCallee_spec {host : Host} {heap : CallHeap} {tgt : ResolvedCallTarget}
    {site : CallSite} {isolate : Isolate ν} {realm : Nat}
    (hrealms : ∀ loaded ∈ host.codes, loaded.realm ∈ isolate.realms)
    (ht : host.Resolves tgt) (hrealm : host.RunsIn tgt.code realm)
    (hanswers : PushAnswers host heap tgt site isolate) :
    ∃ thisValue receiver fiber inactive, isolate.openCallee host heap tgt site =
        (.ok (thisValue, receiver),
          { isolate with fiber := fiber, activeRealm := realm, inactiveRealms := inactive }) ∧
      OpensWindow isolate.fiber.contents tgt.layout.registerCount.toNat fiber.contents ∧
      ∀ known ∈ isolate.realms, known ∈ realm :: inactive := by
  have hgrow := isolate.fiber.growRegisters_opens tgt.layout.registerCount.toNat
  have hcopied : ∀ idx ∈ range (min site.argumentCount tgt.layout.argumentCount.toNat),
      idx < tgt.layout.registerCount.toNat ∧
        ∃ val, (isolate.fiber.growRegisters
          tgt.layout.registerCount.toNat).positionalArgument heap site idx = .ok val := by
    intro idx hm
    have hlt := mem_range.mp hm
    have hle : tgt.layout.argumentCount.toNat ≤ tgt.layout.registerCount.toNat :=
      UInt32.le_iff_toNat_le.mp ht.arguments
    exact ⟨by omega, hanswers.arguments idx hlt⟩
  have hok := Fiber.copyArguments_ok hgrow hcopied
  have hopens := Fiber.copyArguments_opens heap site
    (range (min site.argumentCount tgt.layout.argumentCount.toNat)) hgrow
  generalize hcopy : (isolate.fiber.growRegisters
    tgt.layout.registerCount.toNat).copyArguments heap site isolate.fiber.contents.registers.length
      (range (min site.argumentCount tgt.layout.argumentCount.toNat)) = copied at hok hopens
  obtain ⟨answer, fiber⟩ := copied
  obtain rfl : answer = .ok () := hok
  obtain ⟨loaded, hloaded, rfl⟩ := hrealm
  have hm : loaded.realm ∈ ({ isolate with fiber := fiber } : Isolate ν).realms :=
    hrealms loaded (Host.mem_codes_of_loadedCode hloaded)
  obtain ⟨inactive, hactivate, hknown⟩ := activateRealmForFrame_spec hm
  obtain ⟨thisValue, hthis⟩ := hanswers.thisValue loaded.realm ⟨loaded, hloaded, rfl⟩
  obtain ⟨receiver, hreceiver⟩ := hanswers.receiver
  refine ⟨thisValue, receiver, fiber, inactive, ?_, hopens, hknown⟩
  have hcopy' : (isolate.fiber.growRegisters
      tgt.layout.registerCount.toNat).copyArguments heap site isolate.fiber.registers.len
        (range (min site.argumentCount tgt.layout.argumentCount.toNat)) =
          (.ok (), fiber) := hcopy
  simp only [openCallee, hcopy', hloaded, hactivate, hthis, hreceiver]

end Isolate

/-- The contents after a call. -/
def FiberContents.called (c : FiberContents ν) (tgt : ResolvedCallTarget) (site : CallSite)
    (frame : Frame) (window : List Value) : FiberContents ν :=
  let activation : ClassActivation :=
    { frameDepth := c.frames.length + 1, function := site.callee }
  { c with
    frames := c.frames ++ [frame]
    argumentObjects := c.argumentObjects ++ [none]
    argumentSources := c.argumentSources ++ [site.argumentSource]
    argumentCallees := c.argumentCallees ++ [some site.callee]
    derivedActivations :=
      if tgt.kind = .derivedClassConstructor then c.derivedActivations ++ [activation]
      else c.derivedActivations
    baseClassActivations :=
      if tgt.kind = .baseClassConstructor then c.baseClassActivations ++ [activation]
      else c.baseClassActivations
    registers := c.registers ++ window }

/-- The frame of a call stands on the ends of the stacks. -/
structure CalleeFits (tgt : ResolvedCallTarget) (c : FiberContents ν) (frame : Frame) : Prop where
  code : frame.code = tgt.code
  function : frame.function = tgt.function
  base : frame.base = c.registers.length
  handlers : frame.handlerBase = c.handlers.length
  completions : frame.completionBase = c.completions.length
  ordinary : frame.returnContinuation = false

variable {frame : Frame}

theorem Host.registerCount_of_resolves (ht : host.Resolves tgt)
    (hcode : frame.code = tgt.code) (hfn : frame.function = tgt.function) :
    host.registerCount frame = tgt.layout.registerCount.toNat := by
  obtain ⟨loaded, fn, hloaded, hget, -, -, -, hlayout⟩ := ht.function
  simp only [Host.registerCount, hcode, hloaded, hfn, hget, hlayout]

variable {c : FiberContents ν}

theorem ContentsFit.called {window : List Value} (h : ContentsFit host c)
    (ht : host.Resolves tgt) (hfr : CalleeFits tgt c frame)
    (hwindow : window.length = tgt.layout.registerCount.toNat) :
    ContentsFit host (c.called tgt site frame window) where
  objects := by simp [FiberContents.called, h.objects]
  sources := by simp [FiberContents.called, h.sources]
  callees := by simp [FiberContents.called, h.callees]
  derived := by
    simp only [FiberContents.called, length_append]
    split
    · exact h.derived.push site.callee
    · exact h.derived.weaken
  baseClass := by
    simp only [FiberContents.called, length_append]
    split
    · exact h.baseClass.push site.callee
    · exact h.baseClass.weaken
  windows := by
    have hjoin : ∀ caller ∈ c.frames.getLast?, ∀ callee ∈ [frame].head?,
        callee.base = caller.base + host.registerCount caller := by
      intro caller hcaller callee hcallee
      obtain rfl : frame = callee := by simpa using hcallee
      rw [hfr.base, h.registers caller hcaller]
    exact isChain_append.mpr ⟨h.windows, isChain_singleton frame, hjoin⟩
  registers := by
    intro top htop
    obtain rfl : frame = top := by simpa [FiberContents.called] using htop
    have hc := Host.registerCount_of_resolves ht hfr.code hfr.function
    simp only [FiberContents.called, length_append, hfr.base, hc, hwindow]
  bases := by
    refine pairwise_append.mpr ⟨h.bases, pairwise_singleton _ _, ?_⟩
    intro caller hcaller callee hcallee
    obtain rfl := mem_singleton.mp hcallee
    refine ⟨?_, ?_, fun hret => ?_⟩
    · rw [hfr.handlers]
      exact h.handlerBases caller hcaller
    · rw [hfr.completions]
      exact h.completionBases caller hcaller
    · rw [hfr.ordinary] at hret
      cases hret
  handlerBases := by
    exact forall_mem_append.mpr ⟨h.handlerBases, forall_mem_singleton.mpr (le_of_eq
      hfr.handlers)⟩
  completionBases := by
    exact forall_mem_append.mpr ⟨h.completionBases, forall_mem_singleton.mpr
      (le_of_eq hfr.completions)⟩
  trampolines := by
    intro other hm hret
    rcases mem_append.mp hm with hm | hm
    · exact h.trampolines other hm hret
    · obtain rfl := mem_singleton.mp hm
      rw [hfr.ordinary] at hret
      cases hret

namespace Fiber

variable {fiber : Fiber ν}

theorem pushFrame_contents {c : FiberContents ν} {window : List Value} (tgt : ResolvedCallTarget)
    (site : CallSite) (frame : Frame) (h : fiber.contents = { c with registers := c.registers ++
    window }) : (fiber.pushFrame tgt site frame).contents = c.called tgt site frame window := by
  have hcalled : (fiber.pushFrame tgt site frame).contents =
      fiber.contents.called tgt site frame [] := by
    simp only [contents, pushFrame, FiberContents.called, append_nil]
    split <;> split <;> rfl
  rw [hcalled, h]
  simp only [FiberContents.called, append_nil]

/-- A change of the frame on top. -/
theorem modifyTop_contents {frames : List Frame} {frame : Frame} (h : fiber.contents.frames = frames
    ++ [frame]) (f : Frame → Frame) :
    (fiber.modifyTop f).contents = { fiber.contents with frames := frames ++ [f frame] } := by
  have hes := modifyTop_entries h f
  simp only [contents, hes]
  rfl

end Fiber

/-- The activation of a call is the one that is popped with its frame. -/
theorem Stack.popExited_called {activations : List ClassActivation} {frames : Nat} {fn : Value}
    {opened : Prop} [Decidable opened] (h : s.entries = if opened then
      activations ++ [{ frameDepth := frames + 1, function := fn }] else activations)
    (hfit : ActivationsFit activations frames) : (s.popExited frames).entries = activations := by
  by_cases hop : opened
  · rw [if_pos hop] at h
    simp [Stack.popExited, Stack.last, Stack.pop, h]
  · rw [if_neg hop] at h
    rw [← h] at hfit
    rw [Stack.popExited_of_fit hfit, h]

namespace Fiber

/-- Taking a call back restores the contents. -/
theorem takeBack_contents {host : Host} {fiber : Fiber ν} {c : FiberContents ν}
    {tgt : ResolvedCallTarget} {site : CallSite} {frame : Frame} {window : List Value}
    (hc : ContentsFit host c) (h : fiber.contents = c.called tgt site frame window) :
    ({ fiber.popFrame.popExitedDerived.popExitedBaseClass with
      registers := fiber.popFrame.popExitedDerived.popExitedBaseClass.registers.truncate
        c.registers.length } : Fiber ν).contents = c := by
  have hfs : fiber.frames.entries = c.frames ++ [frame] := congrArg FiberContents.frames h
  have hobj : fiber.argumentObjects = c.argumentObjects ++ [none] :=
    congrArg FiberContents.argumentObjects h
  have hsources : fiber.argumentSources = c.argumentSources ++ [site.argumentSource] :=
    congrArg FiberContents.argumentSources h
  have hcallees : fiber.argumentCallees = c.argumentCallees ++ [some site.callee] :=
    congrArg FiberContents.argumentCallees h
  have hderived := Stack.popExited_called (congrArg FiberContents.derivedActivations h) hc.derived
  have hbase := Stack.popExited_called (congrArg FiberContents.baseClassActivations h) hc.baseClass
  have hregs : fiber.registers.entries = c.registers ++ window := congrArg FiberContents.registers h
  have hhandlers : fiber.handlers.entries = c.handlers := congrArg FiberContents.handlers h
  have hcompls : fiber.completions.entries = c.completions :=
    congrArg FiberContents.completions h
  simp only [contents, popFrame, discardExitedLexicalEnvironments, popExitedDerived,
    popExitedBaseClass, hobj, hsources, hcallees, hhandlers, hcompls, Stack.truncate,
    Stack.pop, Stack.len, hfs, hregs, dropLast_concat, take_left, hderived,
    hbase]

end Fiber

namespace Isolate

variable {heap : CallHeap} {tgt : ResolvedCallTarget} {site : CallSite}

variable {fiber : Fiber ν}

/-- The environment of a call changes the new frame only. -/
theorem allocateCurrentEnvironment_ok {post : Fiber ν} {c : FiberContents ν} {frame : Frame} {window
    : List Value} (hfr : CalleeFits tgt c frame) (hfiber : fiber.contents = c.called tgt site frame
    window) (h : allocateCurrentEnvironment heap tgt site fiber = .ok post) :
    ∃ frame, CalleeFits tgt c frame ∧ post.contents = c.called tgt site frame window := by
  simp only [allocateCurrentEnvironment] at h
  split at h
  · cases h
    exact ⟨frame, hfr, hfiber⟩
  · split at h
    · cases h
      exact ⟨frame, hfr, hfiber⟩
    · split at h
      · cases h
      next environment _ =>
        cases h
        refine ⟨{ frame with environment := some environment }, ⟨hfr.code, hfr.function,
          hfr.base, hfr.handlers, hfr.completions, hfr.ordinary⟩, ?_⟩
        rw [Fiber.modifyTop_contents (congrArg FiberContents.frames hfiber), hfiber]
        rfl

/-- An environment that is not allocated is one of the active realm. -/
theorem runsIn_of_allocateCurrentEnvironment_error {host : Host} {pre : Isolate ν} {frames : List
    Frame} {frame : Frame} {e : ExecutionError} (hanswers : PushAnswers host heap tgt site pre)
    (hfiber : fiber.contents.frames = frames ++ [frame]) (hcode : frame.code = tgt.code) (hfn :
    frame.function = tgt.function) (henv : frame.environment = tgt.environment) (h :
    allocateCurrentEnvironment heap tgt site fiber = .error e) :
    host.RunsIn tgt.code pre.activeRealm := by
  have hl : fiber.frames.last = some frame := by
    have hes : fiber.frames.entries = frames ++ [frame] := hfiber
    simp [Stack.last, hes]
  simp only [allocateCurrentEnvironment, hl, hcode, hfn, henv] at h
  split_ifs at h with hslots
  rcases hanswers.environment hslots with ⟨environment, hok⟩ | hrealm
  · rw [hok] at h
    cases h
  · exact hrealm

/-- What a call can do: it fails and everything is as it was, or its frame stands on the
stacks of the caller and its realm is active. -/
theorem pushCallFrame_cases {host : Host} {pre : Isolate ν} (hbefore : Consistent host pre)
    (ht : host.Resolves tgt) (hanswers : (pre.fiber.reserveCallee pre.stackLimits tgt).1 = .ok () →
      PushAnswers host heap tgt site pre) :
    (∃ e post, pre.pushCallFrame host heap tgt site = (.error e, post) ∧
      post.fiber.contents = pre.fiber.contents ∧ post.activeRealm = pre.activeRealm ∧
      ∀ known ∈ pre.realms, known ∈ post.realms) ∨
    (∃ frame window post, pre.pushCallFrame host heap tgt site = (.ok (), post) ∧
      CalleeFits tgt pre.fiber.contents frame ∧ window.length = tgt.layout.registerCount.toNat ∧
      post.fiber.contents = pre.fiber.contents.called tgt site frame window ∧
      host.RunsIn tgt.code post.activeRealm ∧ ∀ known ∈ pre.realms, known ∈ post.realms) := by
  have hrsv := pre.fiber.reserveCallee_contents pre.stackLimits tgt
  cases hreserved : pre.fiber.reserveCallee pre.stackLimits tgt with
  | mk answer fiber =>
    rw [hreserved] at hrsv hanswers
    cases answer with
    | error e =>
      refine .inl ⟨e, { pre with fiber := fiber }, ?_, hrsv, rfl, fun _ h => h⟩
      simp only [pushCallFrame, hreserved]
    | ok _ =>
      have hanswers : PushAnswers host heap tgt site { pre with fiber := fiber } :=
        (hanswers rfl).of_registers (congrArg FiberContents.registers hrsv)
      have hrealms : ∀ loaded ∈ host.codes,
          loaded.realm ∈ ({ pre with fiber := fiber } : Isolate ν).realms := hbefore.realms
      obtain ⟨loaded, -, hloaded, -⟩ := ht.function
      obtain ⟨thisValue, receiver, opened, inactive, hopen, hopens, hknown⟩ :=
        openCallee_spec hrealms ht ⟨loaded, hloaded, rfl⟩ hanswers
      simp only [hrsv] at hopens
      obtain ⟨window, hwindow, hop⟩ := hopens
      have hfr : CalleeFits tgt pre.fiber.contents
          (calleeFrame tgt site fiber.registers.len thisValue receiver opened) :=
        ⟨rfl, rfl, congrArg (length ∘ FiberContents.registers) hrsv,
          congrArg (length ∘ FiberContents.handlers) hop,
          congrArg (length ∘ FiberContents.completions) hop, rfl⟩
      have hpushed := Fiber.pushFrame_contents tgt site
        (calleeFrame tgt site fiber.registers.len thisValue receiver opened) hop
      have hlen : fiber.registers.len = pre.fiber.contents.registers.length := hfr.base
      cases hallocated : allocateCurrentEnvironment heap tgt site (opened.pushFrame tgt
          site (calleeFrame tgt site fiber.registers.len thisValue receiver opened)) with
      | ok allocated =>
        obtain ⟨frame, hfr, hcont⟩ :=
          allocateCurrentEnvironment_ok hfr hpushed hallocated
        refine .inr ⟨frame, window,
          { pre with
            fiber := allocated, activeRealm := loaded.realm, inactiveRealms := inactive },
          ?_, hfr, hwindow, hcont, ⟨loaded, hloaded, rfl⟩, hknown⟩
        simp only [pushCallFrame, hreserved, hopen, hallocated]
      | error e =>
        have hact := runsIn_of_allocateCurrentEnvironment_error hanswers
          (congrArg FiberContents.frames hpushed) rfl rfl rfl hallocated
        have hrealm : loaded.realm = pre.activeRealm :=
          Host.RunsIn.unique ⟨loaded, hloaded, rfl⟩ hact
        have hback := Fiber.takeBack_contents hbefore.contents hpushed
        rw [← hlen] at hback
        have hpush : ∃ post, pre.pushCallFrame host heap tgt site = (.error e, post) ∧
            post.fiber.contents = pre.fiber.contents ∧
            post.activeRealm = loaded.realm ∧ post.inactiveRealms = inactive := by
          simp only [pushCallFrame, hreserved, hopen, hallocated]
          exact ⟨_, rfl, hback, rfl, rfl⟩
        obtain ⟨post, hpush, hcont, ha, hinactive⟩ := hpush
        refine .inl ⟨e, post, hpush, hcont, ha.trans hrealm, fun known hm => ?_⟩
        rw [realms, ha, hinactive]
        exact hknown known hm

end Isolate

/-! ## Leaving a frame -/

/-- The contents after the frame on top has left. -/
def FiberContents.left (c : FiberContents ν) (frame : Frame)
    (derived baseClass : List ClassActivation) (kept : Nat) : FiberContents ν :=
  { frames := c.frames.dropLast
    argumentObjects := c.argumentObjects.dropLast
    argumentSources := c.argumentSources.dropLast
    argumentCallees := c.argumentCallees.dropLast
    derivedActivations := derived
    baseClassActivations := baseClass
    registers := c.registers.take frame.base
    handlers := c.handlers.take frame.handlerBase
    completions := c.completions.take kept }

variable {rest : List Frame}

/-- The completions that stay are at least those under the bases of the frames below. -/
theorem ContentsFit.left {derived baseClass : List ClassActivation} {kept : Nat} (h : ContentsFit
    host c) (hfs : c.frames = rest ++ [frame]) (hderived : ActivationsFit derived rest.length)
    (hbaseClass : ActivationsFit baseClass rest.length) (hkept : kept ≤ c.completions.length)
    (hbases : ∀ caller ∈ rest, caller.completionBase ≤ kept) :
    ContentsFit host (c.left frame derived baseClass kept) := by
  have hrest : (c.left frame derived baseClass kept).frames = rest := by
    simp only [FiberContents.left, hfs, dropLast_concat]
  have hlen : c.frames.length = rest.length + 1 := by simp [hfs]
  have hm : ∀ caller ∈ rest, caller ∈ c.frames := fun caller hcaller => by simp [hfs, hcaller]
  have hwindows := h.windows
  have hpairs := h.bases
  rw [hfs] at hwindows hpairs
  rw [isChain_append] at hwindows
  obtain ⟨hwindows, -, hbase⟩ := hwindows
  obtain ⟨hpairs, -, hbl⟩ := pairwise_append.mp hpairs
  have htop : c.registers.length = frame.base + host.registerCount frame :=
    h.registers frame (by simp [hfs])
  have hhandlers := h.handlerBases frame (by simp [hfs])
  constructor
  case objects => rw [hrest]; simp [FiberContents.left, h.objects, hlen]
  case sources => rw [hrest]; simp [FiberContents.left, h.sources, hlen]
  case callees => rw [hrest]; simp [FiberContents.left, h.callees, hlen]
  case derived => rw [hrest]; exact hderived
  case baseClass => rw [hrest]; exact hbaseClass
  case windows => rw [hrest]; exact hwindows
  case registers =>
    rw [hrest]
    intro caller hcaller
    have hjoin := hbase caller hcaller frame (by simp)
    simp only [FiberContents.left, length_take]
    omega
  case bases => rw [hrest]; exact hpairs
  case handlerBases =>
    rw [hrest]
    intro caller hcaller
    have hle := (hbl caller hcaller frame (mem_singleton.mpr rfl)).handlers
    simp only [FiberContents.left, length_take]
    omega
  case completionBases =>
    rw [hrest]
    intro caller hcaller
    have hle := hbases caller hcaller
    simp only [FiberContents.left, length_take]
    omega
  case trampolines =>
    rw [hrest]
    intro caller hcaller hret
    obtain ⟨hpos, continuation, hget⟩ := h.trampolines caller (hm caller hcaller) hret
    have hle := hbases caller hcaller
    refine ⟨hpos, continuation, ?_⟩
    simp only [FiberContents.left]
    rw [getElem?_take_of_lt (by omega), hget]

/-- The frames below the one on top have lower completion bases. -/
theorem ContentsFit.below (h : ContentsFit host c) (hfs : c.frames = rest ++ [frame]) :
    ∀ caller ∈ rest, BasesFit caller frame := by
  have hpairs := h.bases
  rw [hfs] at hpairs
  intro caller hcaller
  exact (pairwise_append.mp hpairs).2.2 caller hcaller frame (mem_singleton.mpr rfl)

/-- The registers count only with their number. -/
theorem ContentsFit.of_registers {registers : List Value} (h : ContentsFit host c)
    (hlen : registers.length = c.registers.length) :
    ContentsFit host { c with registers := registers } :=
  ⟨h.objects, h.sources, h.callees, h.derived, h.baseClass, h.windows,
    fun top htop => hlen.trans (h.registers top htop), h.bases, h.handlerBases, h.completionBases,
    h.trampolines⟩

/-- A return looks for the activation of its frame where unwinding looks for an exited one. -/
theorem Stack.popReturned (h : ActivationsFit s.entries (frames + 1)) :
    (if s.last.any fun activation => decide (activation.frameDepth = frames + 1) then
    s.pop else s) = s.popExited frames := by
  cases hl : s.last with
  | none => simp [Stack.popExited, hl]
  | some activation =>
    have hle := (h.existing activation (mem_of_getLast? hl)).2
    have hiff : activation.frameDepth = frames + 1 ↔ frames < activation.frameDepth := by omega
    simp [Stack.popExited, hl, hiff]

namespace Isolate

variable {frame : Frame} {fiber post : Fiber ν} {continuation : Option ν}

/-- A frame that returns to no trampoline pops none; the other one pops the top. -/
theorem popContinuation_ok (h : popContinuation frame fiber = .ok (continuation, post)) :
    (frame.returnContinuation = false ∧ post = fiber) ∨ (frame.returnContinuation = true ∧
      post.contents =
        { fiber.contents with completions := fiber.contents.completions.dropLast }) := by
  simp only [popContinuation] at h
  split_ifs at h with hret
  · split at h
    · cases h
    next found completions hpop =>
      cases h
      refine .inr ⟨hret, ?_⟩
      simp only [CompletionStack.popNative] at hpop
      split at hpop
      · cases hpop
        rfl
      · cases hpop
  · cases h
    exact .inl ⟨Bool.not_eq_true _ ▸ hret, rfl⟩

theorem popContinuation_isOk (h : frame.returnContinuation = true →
      ∃ continuation, fiber.contents.completions.getLast? = some (.native continuation)) :
    ∃ continuation post, popContinuation frame fiber = .ok (continuation, post) := by
  by_cases hret : frame.returnContinuation = true
  · obtain ⟨continuation, hl⟩ := h hret
    have hl : fiber.completions.stack.last = some (.native continuation) := hl
    simp only [popContinuation, if_pos hret, CompletionStack.popNative, hl]
    exact ⟨_, _, rfl⟩
  · simp only [popContinuation, if_neg hret]
    exact ⟨_, _, rfl⟩

variable {host : Host} {rest : List Frame}

/-- The contents after the pops and truncations that a return and an unwinding share. -/
theorem leave_contents (h : ContentsFit host fiber.contents)
    (hfs : fiber.contents.frames = rest ++ [frame]) :
    ∃ derived baseClass, ActivationsFit derived rest.length ∧ ActivationsFit baseClass rest.length ∧
      (truncateWindow frame fiber.popFrame.popExitedDerived.popExitedBaseClass).contents =
        fiber.contents.left frame derived baseClass fiber.contents.completions.length := by
  have hes : fiber.frames.entries = rest ++ [frame] := hfs
  have hlen : fiber.contents.frames.length = rest.length + 1 := by simp [hfs]
  have hderived := h.derived
  have hbaseClass := h.baseClass
  rw [hlen] at hderived hbaseClass
  refine ⟨_, _, hderived.pop, hbaseClass.pop, ?_⟩
  simp only [Fiber.contents, truncateWindow, Fiber.popFrame,
    Fiber.discardExitedLexicalEnvironments, Fiber.popExitedDerived, Fiber.popExitedBaseClass,
    FiberContents.left, Stack.truncate, Stack.pop, Stack.len, hes, dropLast_concat,
    take_length]

/-- The frame on top, from the stack. -/
theorem frames_of_last (h : fiber.frames.last = some frame) :
    ∃ rest, fiber.contents.frames = rest ++ [frame] :=
  getLast?_eq_some_iff.mp h

variable {c : FiberContents ν}

variable {derived baseClass : List ClassActivation}

/-- A return takes its trampoline off the top before it truncates. -/
theorem returned_completions (h : ContentsFit host c) (hfs : c.frames = rest ++ [frame]) (hfiber :
    fiber.contents = c.left frame derived baseClass c.completions.length) (hpop : popContinuation
    frame fiber = .ok (continuation, post)) :
    ∃ kept, (truncateCompletions frame post).contents = c.left frame derived baseClass kept ∧
      kept ≤ c.completions.length ∧ ∀ caller ∈ rest, caller.completionBase ≤ kept := by
  have hbl := h.below hfs
  have hbase := h.completionBases frame (by simp [hfs])
  have htrunc : (truncateCompletions frame post).contents =
      { post.contents with
        completions := post.contents.completions.take frame.completionBase } := rfl
  rcases popContinuation_ok hpop with ⟨-, rfl⟩ | ⟨hret, ha⟩
  · refine ⟨frame.completionBase, ?_, hbase, fun caller hcaller => (hbl caller hcaller).completions⟩
    rw [htrunc, hfiber]
    simp only [FiberContents.left, take_length]
  · refine ⟨min frame.completionBase (c.completions.length - 1), ?_, by omega, ?_⟩
    · rw [htrunc, ha, hfiber]
      simp only [FiberContents.left, take_length, dropLast_eq_take, take_take]
    · intro caller hcaller
      have hlt := (hbl caller hcaller).trampoline hret
      omega

/-- Unwinding truncates first and then takes the trampoline under the base. -/
theorem unwound_completions (h : ContentsFit host c) (hfs : c.frames = rest ++ [frame]) (hfiber :
    fiber.contents = c.left frame derived baseClass c.completions.length) (hpop : popContinuation
    frame (truncateCompletions frame fiber) = .ok (continuation, post)) :
    ∃ kept, post.contents = c.left frame derived baseClass kept ∧
      kept ≤ c.completions.length ∧ ∀ caller ∈ rest, caller.completionBase ≤ kept := by
  have hbl := h.below hfs
  have hbase := h.completionBases frame (by simp [hfs])
  have htrunc : (truncateCompletions frame fiber).contents =
      c.left frame derived baseClass frame.completionBase := by
    have hstep : (truncateCompletions frame fiber).contents =
        { fiber.contents with
          completions := fiber.contents.completions.take frame.completionBase } := rfl
    rw [hstep, hfiber]
    simp only [FiberContents.left, take_length]
  rcases popContinuation_ok hpop with ⟨-, rfl⟩ | ⟨hret, ha⟩
  · exact ⟨frame.completionBase, htrunc, hbase,
      fun caller hcaller => (hbl caller hcaller).completions⟩
  · refine ⟨frame.completionBase - 1, ?_, by omega, ?_⟩
    · rw [ha, htrunc]
      simp only [FiberContents.left, dropLast_eq_take, take_take, length_take]
      congr 2
      omega
    · intro caller hcaller
      have hlt := (hbl caller hcaller).trampoline hret
      omega

/-- The trampoline of an unwound frame is there. -/
theorem unwound_isOk (h : ContentsFit host c) (hfs : c.frames = rest ++ [frame])
    (hfiber : fiber.contents.completions = c.completions) : ∃ continuation post,
      popContinuation frame (truncateCompletions frame fiber) = .ok (continuation, post) := by
  apply popContinuation_isOk
  intro hret
  obtain ⟨hpos, continuation, hget⟩ := h.trampolines frame (by simp [hfs]) hret
  have hbase := h.completionBases frame (by simp [hfs])
  have htrunc : (truncateCompletions frame fiber).contents.completions =
      fiber.contents.completions.take frame.completionBase := rfl
  refine ⟨continuation, ?_⟩
  rw [htrunc, hfiber, getLast?_eq_getElem?, length_take, min_eq_left hbase,
    getElem?_take_of_lt (by omega), hget]

variable {isolate : Isolate ν}

/-- The caller's realm is activated after a return. -/
theorem restoreCallerRealm_spec (hloaded : ∀ frame ∈ isolate.fiber.contents.frames, ∃ realm,
    host.RunsIn frame.code realm) (hrealms : ∀ loaded ∈ host.codes, loaded.realm ∈ isolate.realms) :
    ∃ realm inactive, isolate.restoreCallerRealm host =
        (.ok (), { isolate with activeRealm := realm, inactiveRealms := inactive }) ∧
      (∀ top ∈ isolate.fiber.contents.frames.getLast?, host.RunsIn top.code realm) ∧
      ∀ known ∈ isolate.realms, known ∈ realm :: inactive := by
  cases hl : isolate.fiber.frames.last with
  | none =>
    have hn : isolate.fiber.contents.frames.getLast? = none := hl
    refine ⟨isolate.activeRealm, isolate.inactiveRealms, ?_, ?_, fun _ h => h⟩
    · simp only [restoreCallerRealm, hl]
    · rw [hn]
      intro top htop
      cases htop
  | some caller =>
    have hsome : isolate.fiber.contents.frames.getLast? = some caller := hl
    obtain ⟨realm, loaded, hcode, rfl⟩ := hloaded caller (mem_of_getLast? hsome)
    obtain ⟨inactive, hactivate, hknown⟩ :=
      activateRealmForFrame_spec (hrealms loaded (Host.mem_codes_of_loadedCode hcode))
    refine ⟨loaded.realm, inactive, ?_, ?_, hknown⟩
    · simp only [restoreCallerRealm, hl, hcode, hactivate]
    · rw [hsome]
      intro top htop
      cases htop
      exact ⟨loaded, hcode, rfl⟩

/-- The end of a return changes at most one register. -/
theorem continueReturn_contents {returnError : Option ExecutionError} {val : Value} {post : Isolate
    ν} {answer : Except ExecutionError (ReturnExit ν)} (h : continueReturn frame continuation
    returnError val isolate = some (answer, post)) :
    ∃ registers : List Value, registers.length = isolate.fiber.contents.registers.length ∧
      post.fiber.contents = { isolate.fiber.contents with registers := registers } ∧
      post.activeRealm = isolate.activeRealm ∧ post.inactiveRealms = isolate.inactiveRealms := by
  have hs : ∃ registers : List Value,
      registers.length = isolate.fiber.contents.registers.length ∧
        isolate.fiber.contents = { isolate.fiber.contents with registers := registers } ∧
        isolate.activeRealm = isolate.activeRealm ∧
        isolate.inactiveRealms = isolate.inactiveRealms :=
    ⟨isolate.fiber.contents.registers, rfl, rfl, rfl, rfl⟩
  simp only [continueReturn] at h
  split at h
  · cases hsite : frame.callSite with
    | none => simp [hsite] at h
    | some site =>
      simp only [hsite] at h
      obtain ⟨-, rfl⟩ := h
      exact hs
  · split at h
    · cases h
      exact hs
    · split at h
      · simp only [Fiber.write] at h
        split at h
        next heq =>
          split at heq
          · cases heq
          · cases heq
            cases h
            exact hs
        next heq =>
          split at heq
          · cases heq
            cases h
            exact ⟨_, length_set, rfl, rfl, rfl⟩
          · cases heq
      · cases h

/-- A return pops the derived activation that unwinding would pop. -/
theorem popDerived_eq (hfs : fiber.contents.frames = rest ++ [frame])
    (h : ActivationsFit fiber.derivedActivations.entries (rest.length + 1)) :
    (if fiber.derivedActivations.last.any fun activation =>
        decide (activation.frameDepth = fiber.frames.len) then
      { fiber.popFrame with derivedActivations := fiber.popFrame.derivedActivations.pop }
    else fiber.popFrame) = fiber.popFrame.popExitedDerived := by
  have hes : fiber.frames.entries = rest ++ [frame] := hfs
  have hlen : fiber.frames.len = rest.length + 1 := by simp [Stack.len, hes]
  have hpopped : fiber.popFrame.frames.len = rest.length := by
    simp [Fiber.popFrame, Fiber.discardExitedLexicalEnvironments, Stack.pop, Stack.len, hes]
  have hpop := Stack.popReturned h
  simp only [Fiber.popExitedDerived, hpopped, hlen]
  have hs : fiber.popFrame.derivedActivations = fiber.derivedActivations := rfl
  rw [hs, ← hpop]
  split
  · rfl
  · rfl

end Isolate

/-! ## The steps -/

/-- A frame that returns to a trampoline finds one on top of the completions. -/
def ReturnSafe (pre : Isolate ν) : Prop :=
  ∀ frame ∈ pre.fiber.contents.frames.getLast?, frame.returnContinuation = true →
    ∃ continuation, pre.fiber.contents.completions.getLast? = some (.native continuation)

/-- The frame under the one on top runs code of the active realm. -/
def UnwindSafe (host : Host) (pre : Isolate ν) : Prop :=
  ∀ caller ∈ pre.fiber.contents.frames.dropLast.getLast?, host.RunsIn caller.code pre.activeRealm

theorem Consistent.push (hbefore : Consistent host pre) (ht : host.Resolves tgt)
    (hanswers : (pre.fiber.reserveCallee pre.stackLimits tgt).1 = .ok () →
      PushAnswers host heap tgt site pre) :
    Consistent host (pre.pushCallFrame host heap tgt site).2 := by
  rcases pushCallFrame_cases hbefore ht hanswers with
    ⟨e, post, hpush, hcont, hact, hknown⟩ |
    ⟨frame, window, post, hpush, hfr, hwindow, hcont, hact, hknown⟩
  · rw [hpush]
    refine ⟨?_, ?_, ?_, fun loaded hm => hknown _ (hbefore.realms loaded hm)⟩
    · rw [hcont]
      exact hbefore.contents
    · rw [hcont]
      exact hbefore.loaded
    · rw [hcont, hact]
      exact hbefore.active
  · rw [hpush]
    refine ⟨?_, ?_, ?_, fun loaded hm => hknown _ (hbefore.realms loaded hm)⟩
    · rw [hcont]
      exact hbefore.contents.called ht hfr hwindow
    · rw [hcont]
      exact forall_mem_append.mpr ⟨hbefore.loaded, forall_mem_singleton.mpr
        (⟨post.activeRealm, hfr.code ▸ hact⟩)⟩
    · rw [hcont]
      intro top htop
      obtain rfl : frame = top := by simpa [FiberContents.called] using htop
      rw [hfr.code]
      exact hact

variable {post : Isolate ν}

section

variable (hbefore : Consistent host pre)

include hbefore

theorem Consistent.return {val : Value} {answer : Except ExecutionError (Isolate.ReturnExit ν)}
    (hsafe : ReturnSafe pre)
    (h : pre.returnFromCallee host heap val = some (answer, post)) : Consistent host post := by
  simp only [returnFromCallee] at h
  split at h
  · cases h
  next frame hl =>
    obtain ⟨rest, hfs⟩ := frames_of_last hl
    split at h
    · cases h
      exact hbefore
    · have hfit : ActivationsFit pre.fiber.derivedActivations.entries (rest.length + 1) := by
        have hderived := hbefore.contents.derived
        rw [hfs, length_append] at hderived
        exact hderived
      rw [popDerived_eq hfs hfit] at h
      obtain ⟨derived, baseClass, hderived, hbaseClass, hleave⟩ :=
        leave_contents hbefore.contents hfs
      have htop : frame.returnContinuation = true → ∃ continuation, (truncateWindow frame
            pre.fiber.popFrame.popExitedDerived.popExitedBaseClass).contents.completions.getLast? =
              some (.native continuation) := by
        intro hret
        rw [hleave]
        simp only [FiberContents.left, take_length]
        exact hsafe frame hl hret
      obtain ⟨continuation, popped, hpop⟩ := popContinuation_isOk htop
      obtain ⟨kept, hkept, hle, hbases⟩ :=
        returned_completions hbefore.contents hfs hleave hpop
      have hfits := hbefore.contents.left hfs hderived hbaseClass hle hbases
      have hrest : (pre.fiber.contents.left frame derived baseClass kept).frames = rest := by
        simp only [FiberContents.left, hfs, dropLast_concat]
      have hloaded : ∀ other ∈ ({ pre with
          fiber := truncateCompletions frame popped } : Isolate ν).fiber.contents.frames,
          ∃ realm, host.RunsIn other.code realm := by
        intro other hm
        rw [hkept, hrest] at hm
        exact hbefore.loaded other (by simp [hfs, hm])
      obtain ⟨realm, inactive, hrestore, hact, hknown⟩ :=
        restoreCallerRealm_spec hloaded hbefore.realms
      simp only [hpop, hrestore] at h
      obtain ⟨registers, hlen, hcont, hrealm, hinactive⟩ := continueReturn_contents h
      simp only [hkept] at hlen hcont hact hloaded
      refine ⟨?_, ?_, ?_, ?_⟩
      · rw [hcont]
        exact hfits.of_registers hlen
      · rw [hcont]
        exact hloaded
      · rw [hcont, hrealm]
        exact hact
      · intro loaded hm
        rw [Isolate.realms, hrealm, hinactive]
        exact hknown _ (hbefore.realms loaded hm)

theorem Consistent.unwind {answer : Except ExecutionError (Isolate.UnwindExit ν)}
    (hsafe : UnwindSafe host pre) (h : pre.unwindFrame heap = some (answer, post)) :
    Consistent host post := by
  simp only [unwindFrame] at h
  split at h
  · cases h
  next frame hl =>
    obtain ⟨rest, hfs⟩ := frames_of_last hl
    split at h
    · cases h
      exact hbefore
    · split at h
      · cases h
        exact hbefore
      · obtain ⟨derived, baseClass, hderived, hbaseClass, hleave⟩ :=
          leave_contents hbefore.contents hfs
        have hcompls : (truncateWindow frame
            pre.fiber.popFrame.popExitedDerived.popExitedBaseClass).contents.completions =
              pre.fiber.contents.completions := by
          rw [hleave]
          exact take_length
        obtain ⟨continuation, popped, hpop⟩ := unwound_isOk hbefore.contents hfs hcompls
        obtain ⟨kept, hkept, hle, hbases⟩ :=
          unwound_completions hbefore.contents hfs hleave hpop
        have hfits := hbefore.contents.left hfs hderived hbaseClass hle hbases
        have hrest : (pre.fiber.contents.left frame derived baseClass kept).frames = rest := by
          simp only [FiberContents.left, hfs, dropLast_concat]
        simp only [hpop] at h
        obtain ⟨-, rfl⟩ := h
        refine ⟨?_, ?_, ?_, hbefore.realms⟩
        · simp only [hkept]
          exact hfits
        · intro other hm
          simp only [hkept, hrest] at hm
          exact hbefore.loaded other (by simp [hfs, hm])
        · intro caller hcaller
          simp only [hkept, hrest] at hcaller
          refine hsafe caller ?_
          rw [hfs, dropLast_concat]
          exact hcaller

/-- What the running frame does between calls: it keeps its bases and what is under them, the
side stacks and the size of its window. It may be made to return to the trampoline that stands
under its completion base. -/
structure RunsInFrame (pre post : Isolate ν) : Prop where
  frames : ∃ rest top next, pre.fiber.contents.frames = rest ++ [top] ∧
    post.fiber.contents.frames = rest ++ [next] ∧
    next.code = top.code ∧ next.function = top.function ∧ next.base = top.base ∧
    next.handlerBase = top.handlerBase ∧ next.completionBase = top.completionBase ∧
    (next.returnContinuation = true → top.returnContinuation = true ∨
      AboveTrampoline next post.fiber.contents.completions ∧
        ∀ caller ∈ rest, caller.completionBase < next.completionBase) ∧
    next.handlerBase ≤ post.fiber.contents.handlers.length ∧
    post.fiber.contents.completions.take next.completionBase =
      pre.fiber.contents.completions.take next.completionBase
  objects : post.fiber.contents.argumentObjects.length = pre.fiber.contents.argumentObjects.length
  sources : post.fiber.contents.argumentSources.length = pre.fiber.contents.argumentSources.length
  callees : post.fiber.contents.argumentCallees.length = pre.fiber.contents.argumentCallees.length
  derived : post.fiber.contents.derivedActivations = pre.fiber.contents.derivedActivations
  baseClass : post.fiber.contents.baseClassActivations = pre.fiber.contents.baseClassActivations
  registers : post.fiber.contents.registers.length = pre.fiber.contents.registers.length
  activeRealm : post.activeRealm = pre.activeRealm
  inactiveRealms : post.inactiveRealms = pre.inactiveRealms

omit hbefore in
theorem AboveTrampoline.of_take {completions other : List (CompletionEntry ν)} {kept : Nat}
    (h : AboveTrampoline frame completions) (hle : frame.completionBase ≤ kept)
    (htake : other.take kept = completions.take kept) : AboveTrampoline frame other := by
  obtain ⟨hpos, continuation, hget⟩ := h
  refine ⟨hpos, continuation, ?_⟩
  rw [← getElem?_take_of_lt (show frame.completionBase - 1 < kept by omega), htake,
    getElem?_take_of_lt (by omega), hget]

omit hbefore in
theorem ContentsFit.inFrame (h : ContentsFit host pre.fiber.contents)
    (hstep : RunsInFrame pre post) : ContentsFit host post.fiber.contents := by
  obtain ⟨rest, top, next, hbefore, ha, hcode, hfn, hbase, hhandler, hcompletion, hret,
    hhandlers, htake⟩ := hstep.frames
  have hlen : post.fiber.contents.frames.length = pre.fiber.contents.frames.length := by
    simp [hbefore, ha]
  have htop : top ∈ pre.fiber.contents.frames := by simp [hbefore]
  have hrest : ∀ caller ∈ rest, caller ∈ pre.fiber.contents.frames := fun caller hm => by
    simp [hbefore, hm]
  have hbl := h.below hbefore
  have hc : host.registerCount next = host.registerCount top := by
    simp only [Host.registerCount, hcode, hfn]
  have hlong : next.completionBase ≤ post.fiber.contents.completions.length := by
    have hlens := congrArg length htake
    have hle := h.completionBases top htop
    rw [length_take, length_take] at hlens
    omega
  constructor
  case objects => rw [hstep.objects, h.objects, hlen]
  case sources => rw [hstep.sources, h.sources, hlen]
  case callees => rw [hstep.callees, h.callees, hlen]
  case derived => rw [hstep.derived, hlen]; exact h.derived
  case baseClass => rw [hstep.baseClass, hlen]; exact h.baseClass
  case windows =>
    have hwindows := h.windows
    rw [hbefore, isChain_append] at hwindows
    rw [ha, isChain_append]
    refine ⟨hwindows.1, isChain_singleton next, ?_⟩
    intro caller hcaller callee hcallee
    obtain rfl : next = callee := by simpa using hcallee
    rw [hbase]
    exact hwindows.2.2 caller hcaller top (by simp)
  case registers =>
    intro frame hfr
    obtain rfl : next = frame := by simpa [ha] using hfr
    rw [hstep.registers, hbase, hc]
    exact h.registers top (by simp [hbefore])
  case bases =>
    have hpairs := h.bases
    rw [hbefore] at hpairs
    rw [ha]
    refine pairwise_append.mpr
      ⟨(pairwise_append.mp hpairs).1, pairwise_singleton _ _, ?_⟩
    intro caller hcaller callee hcallee
    obtain rfl := mem_singleton.mp hcallee
    obtain ⟨hle, hcompl, hlt⟩ := hbl caller hcaller
    refine ⟨hhandler ▸ hle, hcompletion ▸ hcompl, fun hcallee => ?_⟩
    rcases hret hcallee with htopRet | ⟨-, hcallers⟩
    · exact hcompletion ▸ hlt htopRet
    · exact hcallers caller hcaller
  case handlerBases =>
    rw [ha]
    intro frame hm
    rcases mem_append.mp hm with hm | hm
    · have hle := (hbl frame hm).handlers
      omega
    · obtain rfl := mem_singleton.mp hm
      exact hhandlers
  case completionBases =>
    rw [ha]
    intro frame hm
    rcases mem_append.mp hm with hm | hm
    · have hle := (hbl frame hm).completions
      omega
    · obtain rfl := mem_singleton.mp hm
      exact hlong
  case trampolines =>
    rw [ha]
    intro frame hm hfr
    rcases mem_append.mp hm with hm | hm
    · have hle := (hbl frame hm).completions
      exact (h.trampolines frame (hrest frame hm) hfr).of_take (by omega) htake
    · obtain rfl := mem_singleton.mp hm
      rcases hret hfr with htopRet | ⟨habove, -⟩
      · have habove : AboveTrampoline frame pre.fiber.contents.completions := by
          have htopAbove := h.trampolines top htop htopRet
          rw [AboveTrampoline, ← hcompletion] at htopAbove
          exact htopAbove
        exact habove.of_take (le_refl _) htake
      · exact habove

theorem Consistent.inFrame (hstep : RunsInFrame pre post) : Consistent host post := by
  obtain ⟨rest, top, next, hfs, ha, hcode, -⟩ := hstep.frames
  refine ⟨hbefore.contents.inFrame hstep, ?_, ?_, ?_⟩
  · rw [ha]
    intro frame hm
    rcases mem_append.mp hm with hm | hm
    · exact hbefore.loaded frame (by simp [hfs, hm])
    · obtain rfl := mem_singleton.mp hm
      rw [hcode]
      exact hbefore.loaded top (by simp [hfs])
  · rw [ha]
    intro frame hfr
    obtain rfl : next = frame := by simpa using hfr
    rw [hcode, hstep.activeRealm]
    exact hbefore.active top (by simp [hfs])
  · intro loaded hm
    rw [Isolate.realms, hstep.activeRealm, hstep.inactiveRealms]
    exact hbefore.realms loaded hm

/-! ## Runs -/

/-- A call, a return, an unwinding or a step inside the running frame that meets its condition. -/
inductive SafeStep (host : Host) : Isolate ν → Isolate ν → Prop where
  | push {pre : Isolate ν} (heap : CallHeap) (tgt : ResolvedCallTarget) (site : CallSite)
      (resolves : host.Resolves tgt)
      (answers : (pre.fiber.reserveCallee pre.stackLimits tgt).1 = .ok () →
        PushAnswers host heap tgt site pre) :
      SafeStep host pre (pre.pushCallFrame host heap tgt site).2
  | return {pre post : Isolate ν} (heap : CallHeap) (value : Value)
      (answer : Except ExecutionError (Isolate.ReturnExit ν)) (safe : ReturnSafe pre)
      (returned : pre.returnFromCallee host heap value = some (answer, post)) :
      SafeStep host pre post
  | unwind {pre post : Isolate ν} (heap : CallHeap)
      (answer : Except ExecutionError (Isolate.UnwindExit ν)) (safe : UnwindSafe host pre)
      (unwound : pre.unwindFrame heap = some (answer, post)) : SafeStep host pre post
  | inFrame {pre post : Isolate ν} (runs : RunsInFrame pre post) :
      SafeStep host pre post

theorem Consistent.step (hstep : SafeStep host pre post) : Consistent host post := by
  cases hstep with
  | push heap tgt site hrs hanswers => exact hbefore.push hrs hanswers
  | «return» heap val answer hsafe hret => exact hbefore.return hsafe hret
  | unwind heap answer hsafe hunwound => exact hbefore.unwind hsafe hunwound
  | inFrame hruns => exact hbefore.inFrame hruns

end

/-- Every state of a run of safe steps is consistent, and a call from it that fails leaves the
stacks and the realm as they are. -/
theorem callRun_consistent {host : Host} {start finish : Isolate ν} (hst : Consistent host start)
    (hrun : Relation.ReflTransGen (SafeStep host) start finish) :
    Consistent host finish ∧ ∀ heap tgt site e post, host.Resolves tgt →
        ((finish.fiber.reserveCallee finish.stackLimits tgt).1 = .ok () →
          PushAnswers host heap tgt site finish) →
        finish.pushCallFrame host heap tgt site = (.error e, post) →
        post.fiber.contents = finish.fiber.contents ∧ post.activeRealm = finish.activeRealm := by
  have hfin : Consistent host finish := by
    induction hrun with
    | refl => exact hst
    | tail _ hstep ih => exact ih.step hstep
  refine ⟨hfin, ?_⟩
  intro heap tgt site e post hrs hanswers hpush
  rcases Isolate.pushCallFrame_cases hfin hrs hanswers with
    ⟨e', post', hfl, hcont, hact, -⟩ | ⟨frame, window, post', hpushed, -⟩
  · rw [hpush] at hfl
    cases hfl
    exact ⟨hcont, hact⟩
  · rw [hpush] at hpushed
    cases hpushed

/-- A sloppy function with two registers. -/
def sloppyFunction : CompiledFunction :=
  { id := ⟨1⟩
    bytecode := ⟨⟨[46]⟩, [true]⟩
    metadata :=
      { kind := .ordinary, role := .ordinary, strictness := .sloppy
        layout := { registerCount := 2 }
        sourceMap := [], handlers := [], suspendPoints := []
        feedbackSites := [], bindingPlan := [], environmentSlots := [] }
    sourceRange := .unavailable }

/-- A script that calls it. -/
def callingHost : Host :=
  { codes := [{ functions := [closingFunction, sloppyFunction], realm := 0 }]
    environmentParent := fun _ => .ok none }

def callingIsolate : Isolate Unit :=
  { stackLimits := { maxFrames := 10, maxRegisters := 100 }
    fiber := scriptFiber ⟨0⟩ [] []
    activeRealm := 0
    inactiveRealms := [] }

def sloppyTarget : ResolvedCallTarget :=
  { code := 0, function := ⟨1⟩, environment := none, kind := .ordinary, role := .ordinary
    layout := { registerCount := 2 }, strictness := .sloppy }

/-- The call `f.call(thisValue)` without arguments. -/
def callingSite (thisValue : Value) : CallSite :=
  { destination := 0, callee := .undefined, argumentBase := 0, argumentSource := none
    argumentPrefix := none, argumentPrefixOffset := 0, argumentPrefixCount := 0, argumentCount := 0
    thisValue := thisValue, newTarget := .undefined, constructReceiver := none, callSite := ⟨0⟩ }

/-- A heap that has no room for a wrapper object. -/
def fullHeap : CallHeap :=
  { boundFunctionArgument := fun _ _ => .error (.other 0)
    nativeCallArgument := fun _ _ => .error (.other 0)
    isObjectValue := fun _ => false
    globalObject := fun _ => .undefined
    boxObjectPrimitive := fun _ => .error (.other 0)
    homeObject := fun _ => .error (.other 0)
    allocateActivationEnvironment := fun _ _ _ _ _ _ => .error (.other 0)
    detachMappedArguments := fun _ => .ok () }

theorem consistent_callingIsolate : Consistent callingHost callingIsolate where
  contents :=
    { objects := rfl, sources := rfl, callees := rfl
      derived := ⟨List.Pairwise.nil, fun _ hm => absurd hm not_mem_nil⟩
      baseClass := ⟨List.Pairwise.nil, fun _ hm => absurd hm not_mem_nil⟩
      windows := isChain_singleton _
      registers := fun top htop => by cases htop; rfl
      bases := pairwise_singleton _ _
      handlerBases := fun frame hm => by
        obtain rfl := mem_singleton.mp hm
        exact le_refl _
      completionBases := fun frame hm => by
        obtain rfl := mem_singleton.mp hm
        exact le_refl _
      trampolines := fun frame hm hret => by
        obtain rfl := mem_singleton.mp hm
        cases hret }
  loaded := fun frame hm => by
    obtain rfl := mem_singleton.mp hm
    exact ⟨0, _, rfl, rfl⟩
  active := fun top htop => by
    cases htop
    exact ⟨_, rfl, rfl⟩
  realms := fun loaded hm => by
    obtain rfl := mem_singleton.mp hm
    exact mem_cons_self

theorem resolves_sloppyTarget : callingHost.Resolves sloppyTarget where
  function := ⟨_, _, rfl, rfl, rfl, rfl, rfl, rfl⟩
  arguments := by decide

theorem pushAnswers_sloppyTarget :
    PushAnswers callingHost fullHeap sloppyTarget (callingSite .undefined) callingIsolate where
  arguments := fun idx hlt => absurd hlt (Nat.not_lt_zero idx)
  thisValue := fun _ _ => ⟨_, rfl⟩
  receiver := ⟨_, rfl⟩
  environment := fun hslots => absurd rfl hslots

/-- The call with an undefined receiver goes through and leaves a consistent state. -/
theorem callRun_consistent_callingIsolate :
    Consistent callingHost
      (callingIsolate.pushCallFrame callingHost fullHeap sloppyTarget (callingSite .undefined)).2 :=
  (callRun_consistent consistent_callingIsolate
    (.single (.push fullHeap sloppyTarget (callingSite .undefined) resolves_sloppyTarget
      fun _ => pushAnswers_sloppyTarget))).1

/-- A number as receiver has to be boxed; the call fails and keeps its window. -/
theorem not_consistent_after_boxing :
    Consistent callingHost callingIsolate ∧ callingHost.Resolves sloppyTarget ∧
      ∃ e post,
        callingIsolate.pushCallFrame callingHost fullHeap sloppyTarget (callingSite (.fromI32 1)) =
          (.error e, post) ∧
        post.fiber.contents ≠ callingIsolate.fiber.contents ∧ ¬Consistent callingHost post := by
  refine ⟨consistent_callingIsolate, resolves_sloppyTarget, .other 0, _, rfl, ?_, ?_⟩
  · intro hcont
    have hregs := congrArg (length ∘ FiberContents.registers) hcont
    cases hregs
  · intro ha
    have hregs := ha.contents.registers (scriptFrame ⟨0⟩) rfl
    cases hregs

end TachyonEngine.Vm
