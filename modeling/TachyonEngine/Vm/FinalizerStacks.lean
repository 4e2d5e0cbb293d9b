import TachyonEngine.Lib.Fallible
import TachyonEngine.Vm.Finalizers
import TachyonEngine.Vm.LexicalEnvironments

/-!
# The two stacks of finalizers

A frame keeps its active finalizers on the handler stack of the fiber and their saved completions
on the completion stack. `Stacked` reads one list of pairs off the two. Each operation of the
dispatch has a specification in terms of that list; none of them fails for want of a saved
completion.
-/

namespace TachyonEngine.Vm

open Bytecode Lib List
open Gc (RawHeapRef)

variable {ν : Type}

/-- What stands over a list with a last entry. -/
theorem forall₂_concat {α β : Type} {R : α → β → Prop} {own : List α} {saved : List β} {top : β}
    (h : List.Forall₂ R own (saved ++ [top])) :
    ∃ rest last, own = rest ++ [last] ∧ List.Forall₂ R rest saved ∧ R last top := by
  have hrest := forall₂_take_append _ _ _ h
  have hl := forall₂_drop_append _ _ _ h
  obtain ⟨last, nothing, hrel, hnil, hdrop⟩ := forall₂_cons_right_iff.mp hl
  rw [forall₂_nil_right_iff] at hnil
  refine ⟨_, last, ?_, hrest, hrel⟩
  conv_lhs => rw [← take_append_drop saved.length own, hdrop, hnil]

/-! ## The pairs on the stacks -/

/-- The active handler names this entry of the table. -/
def ActiveHandler.Names (depth : Nat) (handlers : List HandlerEntry) (active : ActiveHandler)
    (saved : Saved) : Prop :=
  active.frameDepth = depth ∧ handlers[active.handlerIndex]? = some saved.1

/-- The saved completions as entries of the completion stack. -/
def savedEntries (ν : Type) (saved : List Saved) : List (CompletionEntry ν) :=
  saved.map fun s => .language s.2

/-- Above its base a frame has saved the completions of the list, with trampolines on top of them,
and it has activated the finalizers of the list. -/
structure Stacked (handlers : List HandlerEntry) (fiber : Fiber ν) (base : Nat)
    (saved : List Saved) (natives : List (CompletionEntry ν)) : Prop where
  native : ∀ entry ∈ natives, entry.isNative = true
  completions : ∃ below, below.length = base ∧
    fiber.completions.entries = below ++ savedEntries ν saved ++ natives
  active : ∃ below own, fiber.handlers.entries = below ++ own ∧
    (∀ active ∈ below, active.frameDepth ≠ fiber.frames.len) ∧
    List.Forall₂ (ActiveHandler.Names fiber.frames.len handlers) own saved

/-- The frame runs the function of a loaded module. -/
def Runs (codes : List LoadedCode) (fn : CompiledFunction) (frame : Frame) : Prop :=
  ∃ loaded, codes[frame.code]? = some loaded ∧
    loaded.functions[frame.function.index.toNat]? = some fn

/-- An error other than the one for a missing completion. -/
def NotMissing (e : ExecutionError) : Prop := e ≠ .missingCompletionRecord

theorem savedEntries_concat (saved : List Saved) (top : Saved) :
    savedEntries ν (saved ++ [top]) = savedEntries ν saved ++ [.language top.2] := by
  rw [savedEntries, map_append]
  rfl

/-- Dropping trampolines stops at a saved completion. -/
theorem rdropWhile_savedEntries (saved : List Saved) {natives : List (CompletionEntry ν)}
    (hnative : ∀ ent ∈ natives, ent.isNative = true) :
    (savedEntries ν saved ++ natives).rdropWhile CompletionEntry.isNative =
      savedEntries ν saved := by
  induction natives using reverseRecOn with
  | nil =>
    rw [append_nil]
    rcases eq_nil_or_concat saved with rfl | ⟨rest, last, rfl⟩
    · rfl
    · rw [concat_eq_append, savedEntries_concat]
      exact rdropWhile_concat_neg _ _ _ (by simp [CompletionEntry.isNative])
  | append_singleton rest last ih =>
    have hl := hnative last (mem_append.mpr (.inr (mem_singleton.mpr rfl)))
    rw [← append_assoc, rdropWhile_concat_pos _ _ _ hl]
    exact ih fun ent he => hnative ent (mem_append.mpr (.inl he))

namespace Runs

variable {codes : List LoadedCode} {fn : CompiledFunction} {frame : Frame}

theorem handlers (h : Runs codes fn frame) (heap : EnvironmentHeap) :
    (heap.host codes).handlers frame = .ok fn.metadata.handlers := by
  obtain ⟨loaded, hloaded, hfn⟩ := h
  simp only [Host.handlers, Host.loadedCode, EnvironmentHeap.host, hloaded, hfn]

theorem activeHandlerEntry (h : Runs codes fn frame) (heap : EnvironmentHeap) {idx : Nat}
    {ent : HandlerEntry} (he : fn.metadata.handlers[idx]? = some ent) :
    (heap.host codes).activeHandlerEntry frame idx = .ok ent := by
  obtain ⟨loaded, hloaded, hfn⟩ := h
  simp only [Host.activeHandlerEntry, Host.loadedCode, EnvironmentHeap.host, hloaded, hfn, he]

end Runs

namespace Stacked

variable {handlers : List HandlerEntry} {fiber other : Fiber ν} {base : Nat} {saved : List Saved}
  {natives : List (CompletionEntry ν)} {top : Saved}

section

variable (h : Stacked handlers fiber base saved natives)

include h

/-- The stacks are those of any fiber with the same handlers, completions and depth. -/
theorem congr (hhandlers : other.handlers.entries = fiber.handlers.entries)
    (hcompls : other.completions.entries = fiber.completions.entries)
    (hdepth : other.frames.len = fiber.frames.len) : Stacked handlers other base saved natives := by
  refine ⟨h.native, ?_, ?_⟩
  · rw [hcompls]
    exact h.completions
  · rw [hhandlers, hdepth]
    exact h.active

/-- There are as many active handlers as pairs, or more. -/
theorem length_lt : saved.length < fiber.handlers.len + 1 := by
  obtain ⟨below, own, hes, -, hown⟩ := h.active
  rw [Stack.len, hes, length_append, hown.length_eq]
  omega

theorem modifyTop (f : Frame → Frame) : Stacked handlers (fiber.modifyTop f) base saved natives :=
  h.congr rfl rfl (fiber.modifyTop_len f)

/-- Dropping the trampolines. -/
theorem discardNativeSuffix : Stacked handlers
      { fiber with completions := fiber.completions.discardNativeSuffix base } base saved [] := by
  refine ⟨fun ent he => absurd he not_mem_nil, ?_, h.active⟩
  obtain ⟨below, hbase, hes⟩ := h.completions
  refine ⟨below, hbase, ?_⟩
  have hstack : fiber.completions.stack.entries = below ++ savedEntries ν saved ++ natives := hes
  simp only [CompletionStack.entries, CompletionStack.discardNativeSuffix,
    CompletionStack.withoutNativeSuffix, hstack, ← hbase, append_assoc, take_left,
    drop_left, rdropWhile_savedEntries saved h.native, append_nil]

end

/-- Without a saved completion the innermost active handler is of another frame. -/
theorem last_nil (h : Stacked handlers fiber base [] natives) {active : ActiveHandler}
    (hl : fiber.handlers.last = some active) : active.frameDepth ≠ fiber.frames.len := by
  obtain ⟨below, own, hes, hbl, hown⟩ := h.active
  cases hown
  rw [Stack.last, hes, append_nil] at hl
  exact hbl active (mem_of_getLast? hl)

/-- The innermost active handler is the one of the last pair. -/
theorem last_concat (h : Stacked handlers fiber base (saved ++ [top]) natives) :
    ∃ active, fiber.handlers.last = some active ∧ active.Names fiber.frames.len handlers top := by
  obtain ⟨below, own, hes, -, hown⟩ := h.active
  obtain ⟨rest, active, rfl, -, hnames⟩ := forall₂_concat hown
  refine ⟨active, ?_, hnames⟩
  rw [Stack.last, hes, ← append_assoc, getLast?_concat]

/-- Popping the last pair off the two stacks. -/
theorem restoreRecord (h : Stacked handlers fiber base (saved ++ [top]) []) :
    ∃ completions, fiber.completions.restoreRecord base = some (top.2, completions) ∧
      Stacked handlers { fiber with handlers := fiber.handlers.pop, completions := completions }
        base saved [] := by
  obtain ⟨below, hbase, hes⟩ := h.completions
  obtain ⟨belowActive, own, hact, ho, hown⟩ := h.active
  obtain ⟨rest, last, rfl, hrest, -⟩ := forall₂_concat hown
  have hstack : fiber.completions.stack.entries =
      below ++ savedEntries ν saved ++ [.language top.2] := by
    rw [append_nil, savedEntries_concat, ← append_assoc] at hes
    exact hes
  have hlen : ¬fiber.completions.len ≤ base := by
    rw [CompletionStack.len, CompletionStack.entries, hstack, ← hbase]
    simp
  refine ⟨{ fiber.completions with stack := fiber.completions.stack.pop }, ?_, ?_, ?_, ?_⟩
  · rw [CompletionStack.restoreRecord, if_neg hlen, Stack.last, hstack, getLast?_concat]
  · exact h.native
  · refine ⟨below, hbase, ?_⟩
    have hpop : fiber.completions.stack.entries.dropLast = below ++ savedEntries ν saved := by
      rw [hstack, dropLast_concat]
    rw [append_nil]
    exact hpop
  · refine ⟨belowActive, rest, ?_, ho, hrest⟩
    rw [Stack.pop, hact, ← append_assoc, dropLast_concat]

/-- The first completion that the frame has saved. -/
theorem record_head {first : Saved} {rest : List Saved}
    (h : Stacked handlers fiber base (first :: rest) natives) :
    fiber.completions.record base = some first.2 := by
  obtain ⟨below, hbase, hes⟩ := h.completions
  have hget : fiber.completions.entries[base]? = some (.language first.2) := by
    rw [hes, append_assoc, getElem?_append_right (by omega), hbase, Nat.sub_self]
    rfl
  rw [CompletionStack.record, hget]

/-- Saving a completion and activating its finalizer. -/
theorem enterFinalizer (h : Stacked handlers fiber base saved []) {idx : Nat}
    {handler : HandlerEntry} {frame : Frame} (hhandler : handlers[idx]? = some handler)
    (hl : fiber.frames.last = some frame) (completion : CompletionRecord) :
    Meets NotMissing
      (fun post : Fiber ν => Stacked handlers post base (saved ++ [(handler, completion)]) [] ∧
        post.frames.last = some { frame with pc := handler.handler })
      (fiber.enterFinalizer idx handler completion) := by
  obtain ⟨below, hbase, hes⟩ := h.completions
  obtain ⟨belowActive, own, hact, ho, hown⟩ := h.active
  rw [Fiber.enterFinalizer]
  have hrsv := fiber.handlers.tryReserveExact_entries 1
  generalize fiber.handlers.tryReserveExact 1 = answer at hrsv ⊢
  obtain ⟨granted, reserved⟩ := answer
  cases granted with
  | false => exact nofun
  | true =>
    rcases fiber.completions.pushEntry_cases (.language completion) with
      ⟨e, post, hpush, hfails⟩ | ⟨post, hpush, hpushed⟩
    · simp only [CompletionStack.pushRecord, hpush]
      exact hfails
    · simp only [CompletionStack.pushRecord, hpush]
      refine ⟨?_, Fiber.modifyTop_last hl _⟩
      apply Stacked.modifyTop
      refine ⟨h.native, ?_, ?_⟩
      · refine ⟨below, hbase, ?_⟩
        rw [hpushed, hes, savedEntries_concat, append_nil, append_nil, append_assoc]
      · refine ⟨belowActive, own ++ [⟨idx, fiber.frames.len, handler.environmentDepth.toNat⟩], ?_,
          ho, ?_⟩
        · rw [← append_assoc, ← hact, ← hrsv]
          rfl
        · exact rel_append hown (.cons ⟨rfl, hhandler⟩ .nil)

end Stacked

/-! ## Leaving environments -/

/-- A change of the fiber that leaves the two stacks and the code of the running frame alone. -/
structure KeepsFinalizers (before after : Fiber ν) : Prop where
  handlers : after.handlers.entries = before.handlers.entries
  completions : after.completions.entries = before.completions.entries
  depth : after.frames.len = before.frames.len
  frame : ∀ frame, before.frames.last = some frame → ∃ last, after.frames.last = some last ∧
    last.code = frame.code ∧ last.function = frame.function ∧
      last.completionBase = frame.completionBase

namespace KeepsFinalizers

variable {first second third : Fiber ν}

theorem refl (fiber : Fiber ν) : KeepsFinalizers fiber fiber :=
  ⟨rfl, rfl, rfl, fun frame h => ⟨frame, h, rfl, rfl, rfl⟩⟩

theorem trans (h : KeepsFinalizers first second) (h' : KeepsFinalizers second third) :
    KeepsFinalizers first third := by
  refine ⟨h'.handlers.trans h.handlers, h'.completions.trans h.completions,
    h'.depth.trans h.depth, ?_⟩
  intro frame hl
  obtain ⟨second, hsec, hcode, hfunction, hbase⟩ := h.frame frame hl
  obtain ⟨third, hthird, hcode', hfunction', hbase'⟩ := h'.frame second hsec
  exact ⟨third, hthird, hcode'.trans hcode, hfunction'.trans hfunction, hbase'.trans hbase⟩

/-- The running frame afterwards, with the same pairs on its stacks. -/
theorem stacked {codes : List LoadedCode} {fn : CompiledFunction} {fiber after : Fiber ν}
    {frame : Frame} {handlers : List HandlerEntry} {saved : List Saved}
    {natives : List (CompletionEntry ν)} (h : KeepsFinalizers fiber after)
    (hl : fiber.frames.last = some frame) (hruns : Runs codes fn frame)
    (hstacked : Stacked handlers fiber frame.completionBase saved natives) :
    ∃ last, after.frames.last = some last ∧ Runs codes fn last ∧
      Stacked handlers after last.completionBase saved natives := by
  obtain ⟨last, hlast, hcode, hfunction, hbase⟩ := h.frame frame hl
  refine ⟨last, hlast, ?_, ?_⟩
  · rw [Runs, hcode, hfunction]
    exact hruns
  · rw [hbase]
    exact hstacked.congr h.handlers h.completions h.depth

end KeepsFinalizers

namespace Fiber

variable (heap : EnvironmentHeap) (codes : List LoadedCode) (fiber : Fiber ν)

theorem leaveLexicalEnvironment_keeps : Meets NotMissing (KeepsFinalizers fiber)
      (fiber.leaveLexicalEnvironment (heap.host codes)) := by
  rw [leaveLexicalEnvironment]
  split
  · exact fun h => by cases h
  · split
    · exact fun h => by cases h
    · split
      · exact fun h => by cases h
      · split
        next e herr =>
          simp only [EnvironmentHeap.host, EnvironmentHeap.environmentParent] at herr
          split at herr
          · cases herr
            exact fun h => by cases h
          · cases herr
        next parent _ =>
          refine ⟨rfl, rfl, fiber.modifyTop_len _, ?_⟩
          intro frame hl
          exact ⟨{ frame with environment := parent }, Fiber.modifyTop_last hl _, rfl, rfl, rfl⟩

theorem leaveLexicalEnvironments_keeps (cnt : Nat) : Meets NotMissing (KeepsFinalizers fiber)
      (fiber.leaveLexicalEnvironments (heap.host codes) cnt) := by
  induction cnt generalizing fiber with
  | zero => exact .refl fiber
  | succ cnt ih =>
    have hleave := fiber.leaveLexicalEnvironment_keeps heap codes
    rw [leaveLexicalEnvironments]
    split
    next e herr =>
      rw [herr] at hleave
      exact hleave
    next left hl =>
      exact (ih left).imp fun post ha => (hleave.of_ok hl).trans ha

theorem restoreLexicalEnvironmentDepth_keeps (tgt : Nat) : Meets NotMissing (KeepsFinalizers fiber)
      (fiber.restoreLexicalEnvironmentDepth (heap.host codes) tgt) := by
  rw [restoreLexicalEnvironmentDepth]
  split
  · exact fun h => by cases h
  · exact fiber.leaveLexicalEnvironments_keeps heap codes _

end Fiber

/-! ## Dropping finalizers -/

section Dispatch

variable {codes : List LoadedCode} {fn : CompiledFunction} {fiber : Fiber ν} {frame : Frame}
  {saved : List Saved} {natives : List (CompletionEntry ν)} {top : Saved}

/-- The loop drops the pairs that the transfer does not keep. -/
theorem Stacked.discardExitedFinalizersLoop (heap : EnvironmentHeap) (hruns : Runs codes fn frame)
    (h : Stacked fn.metadata.handlers fiber frame.completionBase saved [])
    (off : WordOffset) (completion : CompletionRecord) (candidate : Option HandlerEntry)
    {rounds : Nat} (hrounds : saved.length < rounds) :
    ∃ post, Fiber.discardExitedFinalizersLoop (heap.host codes) frame off completion candidate
        rounds fiber = .ok post ∧ Stacked fn.metadata.handlers post frame.completionBase
        (keepEntered off completion candidate saved) [] ∧ post.frames = fiber.frames := by
  induction saved using reverseRecOn generalizing fiber rounds with
  | nil =>
    cases rounds with
    | zero => exact absurd hrounds (Nat.not_lt_zero _)
    | succ rounds =>
      refine ⟨fiber, ?_, h, rfl⟩
      rw [Fiber.discardExitedFinalizersLoop, Fiber.discardExitedFinalizer]
      cases hl : fiber.handlers.last with
      | none => rfl
      | some active => simp only [if_pos (h.last_nil hl)]
  | append_singleton saved top ih =>
    cases rounds with
    | zero => exact absurd hrounds (Nat.not_lt_zero _)
    | succ rounds =>
      obtain ⟨active, hl, hdepth, he⟩ := h.last_concat
      have hact := hruns.activeHandlerEntry heap he
      rw [Fiber.discardExitedFinalizersLoop, Fiber.discardExitedFinalizer]
      simp only [hl, hdepth, ne_eq, hact]
      by_cases hkeeps : top.1.preserves off completion candidate = true
      · have hkept : keepEntered off completion candidate (saved ++ [top]) = saved ++ [top] :=
          rdropWhile_concat_neg _ _ _ (by simp [hkeeps])
        rw [hkept, if_pos hkeeps]
        exact ⟨fiber, rfl, h, rfl⟩
      · obtain ⟨completions, hrestore, hstacked⟩ := h.restoreRecord
        have hkept : keepEntered off completion candidate (saved ++ [top]) =
            keepEntered off completion candidate saved :=
          rdropWhile_concat_pos _ _ _ (by simp [hkeeps])
        rw [hkept, if_neg hkeeps, hrestore]
        rw [length_append] at hrounds
        exact ih hstacked (Nat.lt_of_succ_lt_succ hrounds)

end Dispatch

end TachyonEngine.Vm
