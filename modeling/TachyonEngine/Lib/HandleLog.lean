import Mathlib.Data.List.Nodup

/-!
# Handles that are issued and released

A log says which handles were issued, for which contents, and which were released. A handle is live
for a content from where it was issued for it up to where it is first released.
-/

namespace TachyonEngine.Lib

open List

inductive HandleEvent (ι κ : Type) where
  | issued (handle : ι) (content : κ)
  | released (handle : ι)

namespace HandleLog

variable {ι κ : Type} {log : List (HandleEvent ι κ)} {handle other : ι} {content : κ}

/-- Issued for a content, and not released behind that. -/
def Live (log : List (HandleEvent ι κ)) (handle : ι) (content : κ) : Prop :=
  ∃ before after, log = before ++ .issued handle content :: after ∧ .released handle ∉ after

/-- The handles in the order in which they were issued. -/
def issued (log : List (HandleEvent ι κ)) : List ι := log.filterMap fun
    | .issued handle _ => some handle
    | .released _ => none

theorem not_live_nil : ¬ Live ([] : List (HandleEvent ι κ)) handle content := by
  rintro ⟨pre, post, hsplit, -⟩
  cases pre <;> cases hsplit

/-- An event at the end ends the liveness of the handle that it releases, and of no other. -/
theorem live_append_released :
    Live (log ++ [.released other]) handle content ↔ other ≠ handle ∧ Live log handle content := by
  constructor
  · rintro ⟨pre, post, hsplit, hkept⟩
    rcases eq_nil_or_concat post with rfl | ⟨front, last, rfl⟩
    · rw [append_singleton_inj] at hsplit
      cases hsplit.2
    · rw [concat_eq_append, ← cons_append, ← append_assoc,
        append_singleton_inj] at hsplit
      obtain ⟨hlog, rfl⟩ := hsplit
      rw [concat_eq_append, mem_append, not_or, mem_singleton] at hkept
      refine ⟨?_, pre, front, hlog, hkept.1⟩
      rintro rfl
      exact hkept.2 rfl
  · rintro ⟨hne, pre, post, rfl, hkept⟩
    refine ⟨pre, post ++ [.released other], by simp, ?_⟩
    rw [mem_append, not_or, mem_singleton]
    refine ⟨hkept, ?_⟩
    intro heq
    exact hne (HandleEvent.released.inj heq).symm

theorem live_append_issued {given : κ} : Live (log ++ [.issued other given]) handle content ↔
      (other = handle ∧ given = content) ∨ Live log handle content := by
  constructor
  · rintro ⟨pre, post, hsplit, hkept⟩
    rcases eq_nil_or_concat post with rfl | ⟨front, last, rfl⟩
    · rw [append_singleton_inj] at hsplit
      cases hsplit.2
      exact .inl ⟨rfl, rfl⟩
    · rw [concat_eq_append, ← cons_append, ← append_assoc,
        append_singleton_inj] at hsplit
      rw [concat_eq_append, mem_append, not_or] at hkept
      exact .inr ⟨pre, front, hsplit.1, hkept.1⟩
  · rintro (⟨rfl, rfl⟩ | ⟨pre, post, rfl, hkept⟩)
    · exact ⟨log, [], rfl, not_mem_nil⟩
    · refine ⟨pre, post ++ [.issued other given], by simp, ?_⟩
      rw [mem_append, not_or, mem_singleton]
      exact ⟨hkept, nofun⟩

@[simp] theorem issued_append_issued (log : List (HandleEvent ι κ)) (handle : ι) (content : κ) :
    issued (log ++ [.issued handle content]) = issued log ++ [handle] := by
  simp [issued]

@[simp] theorem issued_append_released (log : List (HandleEvent ι κ)) (handle : ι) :
    issued (log ++ [.released handle]) = issued log := by
  simp [issued]

end HandleLog

end TachyonEngine.Lib
