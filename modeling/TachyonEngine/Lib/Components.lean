import Mathlib

/-!
# Strongly connected components

A depth-first search that reports the strongly connected components of a graph. The search keeps its
frames itself, and a stack of the vertices whose component is not complete. An open vertex has an
index, in the order of entering, and a low index: that of an open vertex that it reaches. A
component is complete when the search leaves a vertex whose two indices agree.

The search may start among components that an earlier one completed. `Sound` is what holds between
two steps, and every step keeps it.
-/

namespace TachyonEngine.Lib.Components

open List Function

universe u

variable {V : Type u}

inductive Mark (V : Type u) where
  | white
  | opened (index low : Nat)
  | closed (root : V)

def Mark.index : Mark V → Nat
  | .opened index _ => index
  | _ => 0

def Mark.low : Mark V → Nat
  | .opened _ low => low
  | _ => 0

/-- A vertex that the search is in, the successors that are left, and the one it waits for. -/
structure SearchFrame (V : Type u) where
  vertex : V
  rest : List V
  pending : Option V

/-- Frames and stack have their top first. -/
structure Search (V : Type u) where
  mark : V → Mark V
  next : Nat
  frames : List (SearchFrame V)
  stack : List V
  touched : List V
  components : List (List V)

def Search.index (search : Search V) (v : V) : Nat := (search.mark v).index

def Search.low (search : Search V) (v : V) : Nat := (search.mark v).low

/-! ## Steps -/

section Steps

variable [DecidableEq V]

/-- Where both are open, the vertex takes over the low index of its successor. -/
def lower (mark : V → Mark V) (v successor : V) : V → Mark V :=
  match mark v, mark successor with
  | .opened index low, .opened _ other => Function.update mark v (.opened index (min low other))
  | _, _ => mark

/-- The marks after a component was completed. -/
def close (mark : V → Mark V) (members : List V) (root : V) : V → Mark V := fun v =>
  if v ∈ members then .closed root else mark v

variable (succs : V → List V)

/-- The search after it has gone on to a successor. -/
def Search.enter (search : Search V) (v child : V) (rest : List V) (below : List (SearchFrame V)) :
    Search V :=
  { search with
    mark := Function.update search.mark child (.opened search.next search.next)
    next := search.next + 1
    frames := ⟨child, succs child, none⟩ :: ⟨v, rest, some child⟩ :: below
    stack := child :: search.stack
    touched := child :: search.touched }

inductive Step : Search V → Search V → Prop where
  /-- The search comes back from a successor. -/
  | settle {search : Search V} {v child : V} {rest : List V} {below : List (SearchFrame V)}
      (hfs : search.frames = ⟨v, rest, some child⟩ :: below) :
      Step search
        { search with
          mark := lower search.mark v child
          frames := ⟨v, rest, none⟩ :: below }
  /-- The next successor was entered before. -/
  | visit {search : Search V} {v child : V} {rest : List V} {below : List (SearchFrame V)}
      (hfs : search.frames = ⟨v, child :: rest, none⟩ :: below)
      (hchild : search.mark child ≠ .white) :
      Step search
        { search with
          mark := lower search.mark v child
          frames := ⟨v, rest, none⟩ :: below }
  /-- The search goes on to the next successor. -/
  | enter {search : Search V} {v child : V} {rest : List V} {below : List (SearchFrame V)}
      (hfs : search.frames = ⟨v, child :: rest, none⟩ :: below)
      (hchild : search.mark child = .white) : Step search (search.enter succs v child rest below)
  /-- The search leaves a vertex that reaches one entered before. -/
  | leave {search : Search V} {v : V} {below : List (SearchFrame V)} {index low : Nat}
      (hfs : search.frames = ⟨v, [], none⟩ :: below)
      (hmark : search.mark v = .opened index low) (hne : index ≠ low) :
      Step search { search with frames := below }
  /-- The search leaves the first vertex of a component. -/
  | complete {search : Search V} {v : V} {below : List (SearchFrame V)} {index : Nat}
      {members remaining : List V}
      (hfs : search.frames = ⟨v, [], none⟩ :: below)
      (hmark : search.mark v = .opened index index)
      (hstack : search.stack = members ++ v :: remaining) :
      Step search
        { search with
          mark := close search.mark (members ++ [v]) v
          frames := below
          stack := remaining
          components := search.components ++ [members ++ [v]] }

/-- The state in which the search has entered its first vertex. -/
def start (initial : V → Mark V) (root : V) : Search V :=
  { mark := Function.update initial root (.opened 0 0)
    next := 1
    frames := [⟨root, succs root, none⟩]
    stack := [root]
    touched := [root]
    components := [] }

end Steps

/-! ## Soundness -/

def Path (succs : V → List V) : V → V → Prop :=
  Relation.ReflTransGen fun v successor => successor ∈ succs v

/-- The seen successors of an open vertex are not white, and its low index is at most their index. A
successor that the search is still in is not counted yet. -/
def Covered (search : Search V) (v : V) (seen : List V) (pending : Option V) : Prop :=
  ∀ successor ∈ seen, search.mark successor ≠ .white ∧
    (pending ≠ some successor → successor ∈ search.stack → search.low v ≤ search.index successor)

/-- The marks of the vertex and of its successors on the stack are as before. -/
theorem Covered.congr {search next : Search V} {v : V} {seen : List V} {pending : Option V}
    (h : Covered search v seen pending) (hv : next.mark v = search.mark v)
    (hwhite : ∀ other, search.mark other ≠ .white → next.mark other ≠ .white)
    (hstack : ∀ successor ∈ next.stack, search.mark successor ≠ .white →
      successor ∈ search.stack ∧ next.mark successor = search.mark successor) :
    Covered next v seen pending := by
  intro successor hsucc
  obtain ⟨hnot, hle⟩ := h successor hsucc
  refine ⟨hwhite successor hnot, fun hwait hin => ?_⟩
  obtain ⟨hold, hmark⟩ := hstack successor hin hnot
  rw [Search.index, Search.low, hv, hmark]
  exact hle hwait hold

/-- What holds between two steps of the frames and of the stack. -/
structure Nested (succs : V → List V) (search : Search V) : Prop where
  opened : ∀ v, v ∈ search.stack ↔ ∃ index low, search.mark v = .opened index low
  index_lt : ∀ v ∈ search.stack, search.index v < search.next
  low_le : ∀ v ∈ search.stack, search.low v ≤ search.index v
  stack_sorted : search.stack.Pairwise fun upper under => search.index under < search.index upper
  frames_stack : ∀ frame ∈ search.frames, frame.vertex ∈ search.stack
  frames_sorted : search.frames.Pairwise fun upper under =>
    search.index under.vertex < search.index upper.vertex
  frames_waiting : search.frames.IsChain fun upper under => under.pending = some upper.vertex
  frames_pending : ∀ frame ∈ search.frames, ∀ child, frame.pending = some child →
    child ∈ succs frame.vertex ∧ search.mark child ≠ .white
  frames_covered : ∀ frame ∈ search.frames, ∃ seen, succs frame.vertex = seen ++ frame.rest ∧
    Covered search frame.vertex seen frame.pending
  left_covered : ∀ v ∈ search.stack, (∀ frame ∈ search.frames, frame.vertex ≠ v) →
    Covered search v (succs v) none
  low_reached : ∀ v ∈ search.stack, ∃ reached ∈ search.stack,
    search.index reached = search.low v ∧ Path succs v reached
  left_parent : ∀ v ∈ search.stack, (∀ frame ∈ search.frames, frame.vertex ≠ v) →
    search.low v < search.index v ∧
      ∃ parent ∈ search.stack, v ∈ succs parent ∧ search.index parent < search.index v ∧
        (∀ frame ∈ search.frames, search.index frame.vertex < search.index v →
          search.index frame.vertex ≤ search.index parent) ∧
        (search.low parent ≤ search.low v ∨
          ∃ rest below, search.frames = ⟨parent, rest, some v⟩ :: below)

/-- The closed vertices form components, and keep what they lead to among them. -/
structure Closed (succs : V → List V) (mark : V → Mark V) : Prop where
  edge : ∀ v root, mark v = .closed root → ∀ successor ∈ succs v,
    ∃ other, mark successor = .closed other
  root : ∀ v root, mark v = .closed root →
    mark root = .closed root ∧ Path succs v root ∧ Path succs root v
  unique : ∀ v root other root', mark v = .closed root → mark other = .closed root' →
    Path succs v other → Path succs other v → root = root'

/-- What holds between two steps of the components, in a search over the marks it started with. -/
structure Reported (succs : V → List V) (initial : V → Mark V) (root : V) (search : Search V) :
    Prop where
  closed : Closed succs search.mark
  touched_nodup : search.touched.Nodup
  touched_iff : ∀ v, v ∈ search.touched ↔ initial v = .white ∧ search.mark v ≠ .white
  untouched : ∀ v, v ∉ search.touched → search.mark v = initial v
  touched_reached : ∀ v ∈ search.touched, Path succs root v
  root_touched : root ∈ search.touched
  component_closed : ∀ component ∈ search.components, ∃ root ∈ search.touched,
    search.mark root = .closed root ∧ ∀ v, v ∈ component ↔ search.mark v = .closed root
  component_of_closed : ∀ v ∈ search.touched, ∀ root, search.mark v = .closed root →
    v ∈ search.components.flatten
  components_nodup : search.components.flatten.Nodup
  components_sorted : search.components.Pairwise fun earlier later =>
    ∀ v ∈ earlier, ∀ successor ∈ succs v, successor ∉ later

structure Sound (succs : V → List V) (initial : V → Mark V) (root : V) (search : Search V) :
    Prop where
  nested : Nested succs search
  reported : Reported succs initial root search

/-! ## The frames and the stack -/

section Nested

variable {succs : V → List V} {search : Search V}

section

variable (h : Nested succs search)

include h

variable {v : V}

theorem Nested.index_injective {other : V} (hv : v ∈ search.stack) (ho : other ∈ search.stack) (hi :
    search.index v = search.index other) : v = other := by
  by_contra hne
  have hsymm : Std.Symm fun upper under => search.index upper ≠ search.index under :=
    ⟨fun _ _ hne => hne.symm⟩
  have hapart : search.stack.Pairwise fun upper under => search.index upper ≠ search.index under :=
    h.stack_sorted.imp fun hlt => hlt.ne'
  exact hapart.forall hv ho hne hi

variable {top : SearchFrame V} {below : List (SearchFrame V)}

theorem Nested.top_mem (hfs : search.frames = top :: below) :
    top ∈ search.frames ∧ top.vertex ∈ search.stack ∧
      ∀ frame ∈ below, frame ∈ search.frames := by
  have htop : top ∈ search.frames := by
    rw [hfs]
    exact mem_cons_self
  refine ⟨htop, h.frames_stack _ htop, fun frame hfr => ?_⟩
  rw [hfs]
  exact mem_cons_of_mem _ hfr

/-- What stands above the vertex on top of the frames has no frame. -/
theorem Nested.frameless (hfs : search.frames = top :: below) (habove : search.index top.vertex <
    search.index v) : ∀ frame ∈ search.frames, frame.vertex ≠ v := by
  rintro frame hfr rfl
  have hsort := h.frames_sorted
  rw [hfs] at hfr hsort
  rcases mem_cons.mp hfr with rfl | hbl
  · exact lt_irrefl _ habove
  · exact lt_asymm habove (rel_of_pairwise_cons hsort hbl)

variable {rest : List V}

/-- Above the vertex on top of the frames, everything is reached from it, and lowers it. -/
theorem Nested.climb {top : V} (hfs : search.frames = ⟨top, rest, none⟩ :: below) (hv : v ∈
    search.stack) (habove : search.index top < search.index v) :
    Path succs top v ∧ search.low top ≤ search.low v := by
  obtain ⟨htop, -, -⟩ := h.top_mem hfs
  induction hi : search.index v using Nat.strong_induction_on generalizing v with
  | _ idx ih =>
    subst hi
    have hl := h.frameless hfs habove
    obtain ⟨-, parent, hp, hedge, hlt, hfr, hlow⟩ := h.left_parent v hv hl
    have hlow : search.low parent ≤ search.low v := by
      rcases hlow with hlow | ⟨rest', below', hfs'⟩
      · exact hlow
      · rw [hfs] at hfs'
        cases hfs'
    rcases (hfr _ htop habove).eq_or_lt with hs | hbetween
    · obtain rfl := h.index_injective (h.frames_stack _ htop) hp hs
      exact ⟨.single hedge, hlow⟩
    · obtain ⟨hpath, hle⟩ := ih _ hlt hp hbetween rfl
      exact ⟨hpath.tail hedge, hle.trans hlow⟩

/-- Where the two indices of the vertex on top of the frames agree, it is reached from everything
above. -/
theorem Nested.descend {top : V} (hfs : search.frames = ⟨top, rest, none⟩ :: below) (hlow :
    search.low top = search.index top) (hv : v ∈ search.stack) (habove : search.index top <
    search.index v) : Path succs v top := by
  obtain ⟨-, htop, -⟩ := h.top_mem hfs
  induction hi : search.index v using Nat.strong_induction_on generalizing v with
  | _ idx ih =>
    have hl := h.frameless hfs habove
    have hlt := (h.left_parent v hv hl).1
    obtain ⟨reached, hreached, hi, hpath⟩ := h.low_reached v hv
    have hle : search.index top ≤ search.index reached := by
      have := (h.climb hfs hv habove).2
      omega
    rcases hle.eq_or_lt with hs | hbetween
    · obtain rfl := h.index_injective htop hreached hs
      exact hpath
    · exact hpath.trans (ih _ (by omega) hreached hbetween rfl)

/-- Every open vertex stands above a frame. -/
theorem Nested.exists_frame (hv : v ∈ search.stack) :
    ∃ frame ∈ search.frames, search.index frame.vertex ≤ search.index v := by
  induction hi : search.index v using Nat.strong_induction_on generalizing v with
  | _ idx ih =>
    subst hi
    by_cases hl : ∀ frame ∈ search.frames, frame.vertex ≠ v
    · obtain ⟨-, parent, hp, -, hlt, -⟩ := h.left_parent v hv hl
      obtain ⟨frame, hfr, hle⟩ := ih _ hlt hp rfl
      exact ⟨frame, hfr, hle.trans hlt.le⟩
    · push Not at hl
      obtain ⟨frame, hfr, rfl⟩ := hl
      exact ⟨frame, hfr, le_rfl⟩

end

end Nested

/-! ## Lowering -/

section Lower

variable [DecidableEq V] {mark : V → Mark V} {v successor : V}

/-- Only the low index of the vertex changes, and it takes over that of an open successor. -/
theorem lower_cases (mark : V → Mark V) (v successor : V) : (lower mark v successor = mark ∧
      ((∀ idx low, mark v ≠ .opened idx low) ∨ ∀ idx low, mark successor ≠ .opened idx low)) ∨
    ∃ idx low other otherLow, mark v = .opened idx low ∧ mark successor = .opened other otherLow ∧
      lower mark v successor = Function.update mark v (.opened idx (min low otherLow)) := by
  rw [lower]
  split
  next idx low other otherLow hv hsucc =>
    exact .inr ⟨idx, low, other, otherLow, hv, hsucc, rfl⟩
  next hnot =>
    refine .inl ⟨rfl, ?_⟩
    by_contra h
    push Not at h
    obtain ⟨⟨idx, low, hv⟩, other, otherLow, hsucc⟩ := h
    exact hnot idx low other otherLow hv hsucc

variable {other : V}

theorem lower_of_ne (hne : other ≠ v) : lower mark v successor other = mark other := by
  rcases lower_cases mark v successor with ⟨hs, -⟩ | ⟨idx, low, _, otherLow, -, -, hlower⟩
  · rw [hs]
  · rw [hlower]
    exact update_of_ne hne _ _

/-- A mark stays, or it is an open one whose low index goes down. -/
theorem lower_at (other : V) : lower mark v successor other = mark other ∨
    ∃ idx low low', mark other = .opened idx low ∧ lower mark v successor other = .opened idx low' ∧
      low' ≤ low := by
  rcases lower_cases mark v successor with ⟨hs, -⟩ | ⟨idx, low, _, otherLow, hv, -, hlower⟩
  · exact .inl (congrFun hs other)
  · by_cases ho : other = v
    · subst ho
      exact .inr ⟨idx, low, _, hv, by rw [hlower, update_self], min_le_left low otherLow⟩
    · exact .inl (by rw [hlower, update_of_ne ho])

theorem lower_index (other : V) : (lower mark v successor other).index = (mark other).index := by
  rcases @lower_at _ _ mark v successor other with hs | ⟨idx, low, low', hold, hnew, -⟩
  · rw [hs]
  · rw [hold, hnew, Mark.index, Mark.index]

theorem lower_low_le (other : V) : (lower mark v successor other).low ≤ (mark other).low := by
  rcases @lower_at _ _ mark v successor other with hs | ⟨idx, low, low', hold, hnew, hle⟩
  · rw [hs]
  · rw [hold, hnew]
    exact hle

theorem lower_eq_white : lower mark v successor other = .white ↔ mark other = .white := by
  rcases @lower_at _ _ mark v successor other with hs | ⟨idx, low, low', hold, hnew, -⟩
  · rw [hs]
  · simp [hold, hnew]

theorem lower_eq_closed {root : V} :
    lower mark v successor other = .closed root ↔ mark other = .closed root := by
  rcases @lower_at _ _ mark v successor other with hs | ⟨idx, low, low', hold, hnew, -⟩
  · rw [hs]
  · simp [hold, hnew]

theorem lower_eq_opened : (∃ idx low, lower mark v successor other = .opened idx low) ↔
      ∃ idx low, mark other = .opened idx low := by
  rcases @lower_at _ _ mark v successor other with hs | ⟨idx, low, low', hold, hnew, -⟩
  · rw [hs]
  · exact iff_of_true ⟨idx, low', hnew⟩ ⟨idx, low, hold⟩

variable {succs : V → List V} {search : Search V}

/-- The vertex on top of the frames has seen one more successor. -/
theorem Nested.lowered (h : Nested succs search) {v child : V} {rest left : List V}
    {pending : Option V} {below : List (SearchFrame V)}
    (hfs : search.frames = ⟨v, left, pending⟩ :: below)
    (hchild : child ∈ succs v) (hmark : search.mark child ≠ .white)
    (hpend : ∀ other, pending = some other → other = child)
    (hseen : ∃ seen, succs v = seen ++ rest ∧ ∀ successor ∈ seen, successor ≠ child →
      search.mark successor ≠ .white ∧
        (successor ∈ search.stack → search.low v ≤ search.index successor)) :
    Nested succs
      { search with
        mark := lower search.mark v child
        frames := ⟨v, rest, none⟩ :: below } := by
  obtain ⟨htop, hv, hbl⟩ := h.top_mem hfs
  have hsort := h.frames_sorted
  rw [hfs] at hsort
  -- the two indices after the step
  have hlowVertex : child ∈ search.stack →
      (lower search.mark v child v).low ≤ search.low child := by
    intro hstack
    obtain ⟨idx, low, hop⟩ := (h.opened v).mp hv
    obtain ⟨other, otherLow, ho⟩ := (h.opened child).mp hstack
    rw [lower, hop, ho]
    dsimp only
    rw [update_self, Search.low, ho]
    exact min_le_right _ _
  have hlowOther : ∀ other, other ≠ v → (lower search.mark v child other).low =
      search.low other := by
    intro other hne
    rw [lower_of_ne hne]
    rfl
  have hl : ∀ other, (∀ frame ∈ (⟨v, rest, none⟩ :: below : List (SearchFrame V)),
    frame.vertex ≠ other) →
      other ≠ v ∧ ∀ frame ∈ search.frames, frame.vertex ≠ other := by
    intro other hfr
    refine ⟨fun heq => hfr _ mem_cons_self heq.symm, fun frame hm => ?_⟩
    rw [hfs] at hm
    rcases mem_cons.mp hm with rfl | hm
    · exact hfr ⟨v, rest, none⟩ mem_cons_self
    · exact hfr frame (mem_cons_of_mem _ hm)
  have hcov : ∀ {other seen pending}, other ≠ v → Covered search other seen pending → Covered
        { search with
          mark := lower search.mark v child
          frames := ⟨v, rest, none⟩ :: below } other seen pending := by
    intro other seen pending hne hcov successor hsucc
    obtain ⟨hwhite, hle⟩ := hcov successor hsucc
    refine ⟨fun hwhite' => hwhite (lower_eq_white.mp hwhite'), fun hwait hstack => ?_⟩
    have := hle hwait hstack
    simp only [Search.index, Search.low, lower_index, lower_of_ne hne] at this ⊢
    exact this
  exact
    { opened := fun other => (h.opened other).trans lower_eq_opened.symm
      index_lt := by
        intro other ho
        simp only [Search.index, lower_index]
        exact h.index_lt other ho
      low_le := by
        intro other ho
        simp only [Search.index, lower_index]
        exact (lower_low_le other).trans (h.low_le other ho)
      stack_sorted := by
        simp only [Search.index, lower_index]
        exact h.stack_sorted
      frames_stack := by
        intro frame hfr
        rcases mem_cons.mp hfr with rfl | hm
        · exact hv
        · exact h.frames_stack frame (hbl frame hm)
      frames_sorted := by
        simp only [Search.index, lower_index]
        exact pairwise_cons.mpr (pairwise_cons.mp hsort)
      frames_waiting := by
        have hwaiting := h.frames_waiting
        rw [hfs] at hwaiting
        exact isChain_cons.mpr (isChain_cons.mp hwaiting)
      frames_pending := by
        intro frame hfr other ho
        rcases mem_cons.mp hfr with rfl | hm
        · cases ho
        · obtain ⟨hedge, hwhite⟩ := h.frames_pending frame (hbl frame hm) other ho
          exact ⟨hedge, fun hwhite' => hwhite (lower_eq_white.mp hwhite')⟩
      frames_covered := by
        intro frame hfr
        rcases mem_cons.mp hfr with rfl | hm
        · obtain ⟨seen, heq, hall⟩ := hseen
          refine ⟨seen, heq, fun successor hsucc => ?_⟩
          simp only [Search.index, lower_index]
          by_cases hs : successor = child
          · subst hs
            refine ⟨fun hwhite => hmark (lower_eq_white.mp hwhite), fun _ hstack => ?_⟩
            exact (hlowVertex hstack).trans (h.low_le successor hstack)
          · obtain ⟨hwhite, hle⟩ := hall successor hsucc hs
            refine ⟨fun hwhite' => hwhite (lower_eq_white.mp hwhite'), fun _ hstack => ?_⟩
            exact (lower_low_le v).trans (hle hstack)
        · obtain ⟨seen, heq, hold⟩ := h.frames_covered frame (hbl frame hm)
          refine ⟨seen, heq, hcov ?_ hold⟩
          intro heq'
          have := rel_of_pairwise_cons hsort hm
          rw [heq'] at this
          exact lt_irrefl _ this
      left_covered := by
        intro other ho hfr
        obtain ⟨hne, hold⟩ := hl other hfr
        exact hcov hne (h.left_covered other ho hold)
      low_reached := by
        intro other ho
        simp only [Search.index, Search.low, lower_index]
        obtain ⟨reached, hreached, hi, hpath⟩ := h.low_reached other ho
        by_cases hs : other = v
        · subst hs
          rcases lower_cases search.mark other child with
            ⟨hold, -⟩ | ⟨idx, low, childIndex, childLow, hop, ho', hlower⟩
          · rw [hold]
            exact ⟨reached, hreached, hi, hpath⟩
          · rw [hlower, update_self]
            rcases le_total low childLow with hle | hle
            · rw [min_eq_left hle]
              rw [Search.low, hop] at hi
              exact ⟨reached, hreached, hi, hpath⟩
            · rw [min_eq_right hle]
              have hstack : child ∈ search.stack := (h.opened child).mpr ⟨_, _, ho'⟩
              obtain ⟨reached, hreached, hi, hpath⟩ := h.low_reached child hstack
              rw [Search.low, ho'] at hi
              exact ⟨reached, hreached, hi, .head hchild hpath⟩
        · rw [hlowOther other hs]
          exact ⟨reached, hreached, hi, hpath⟩
      left_parent := by
        intro other ho hfr
        obtain ⟨hne, hold⟩ := hl other hfr
        simp only [Search.index, Search.low, lower_index]
        obtain ⟨hlt, parent, hp, hedge, hparentLt, hall, hlow⟩ := h.left_parent other ho hold
        rw [hlowOther other hne]
        refine ⟨hlt, parent, hp, hedge, hparentLt, ?_, .inl ?_⟩
        · intro frame hm
          rcases mem_cons.mp hm with rfl | hm
          · exact hall ⟨v, left, pending⟩ htop
          · exact hall frame (hbl frame hm)
        · rcases hlow with hlow | ⟨rest', below', hfs'⟩
          · exact (lower_low_le parent).trans hlow
          · rw [hfs] at hfs'
            obtain ⟨⟨rfl, rfl, rfl⟩, rfl⟩ : (v = parent ∧ left = rest' ∧ pending = some other) ∧
                below = below' := by
              simpa using hfs'
            obtain rfl := hpend other rfl
            exact hlowVertex ho }

end Lower

/-! ## Leaving -/

section Leaving

variable {succs : V → List V} {search : Search V}

variable {below : List (SearchFrame V)}

/-- A vertex whose two indices differ waits under another frame. -/
theorem Nested.exists_below (h : Nested succs search) {v : V} (hfs : search.frames = ⟨v, [], none⟩
    :: below) (hne : search.index v ≠ search.low v) : ∃ frame rest, below = frame :: rest := by
  obtain ⟨-, hv, -⟩ := h.top_mem hfs
  have hle := h.low_le v hv
  obtain ⟨reached, hreached, hi, -⟩ := h.low_reached v hv
  obtain ⟨frame, hfr, hframeLe⟩ := h.exists_frame hreached
  rw [hfs] at hfr
  rcases mem_cons.mp hfr with rfl | hbl
  · dsimp only at hframeLe
    omega
  · exact exists_cons_of_ne_nil (ne_nil_of_mem hbl)

theorem Nested.left (h : Nested succs search) {v : V} (hfs : search.frames = ⟨v, [], none⟩ :: below)
    (hne : search.index v ≠ search.low v) : Nested succs { search with frames := below } := by
  obtain ⟨htop, hv, hbl⟩ := h.top_mem hfs
  have hsort := h.frames_sorted
  have hwait := h.frames_waiting
  rw [hfs] at hsort hwait
  have hfr : ∀ other, other ≠ v → (∀ frame ∈ below, frame.vertex ≠ other) →
      ∀ frame ∈ search.frames, frame.vertex ≠ other := by
    intro other ho hall frame hfr
    rw [hfs] at hfr
    rcases mem_cons.mp hfr with rfl | hfr
    · exact ho.symm
    · exact hall frame hfr
  obtain ⟨seen, heq, hseen⟩ := h.frames_covered _ htop
  rw [append_nil] at heq
  exact
    { opened := h.opened
      index_lt := h.index_lt
      low_le := h.low_le
      stack_sorted := h.stack_sorted
      frames_stack := fun frame hm => h.frames_stack frame (hbl frame hm)
      frames_sorted := (pairwise_cons.mp hsort).2
      frames_waiting := (isChain_cons.mp hwait).2
      frames_pending := fun frame hm => h.frames_pending frame (hbl frame hm)
      frames_covered := fun frame hm => h.frames_covered frame (hbl frame hm)
      left_covered := by
        intro other ho hall
        by_cases hs : other = v
        · subst hs
          rw [heq]
          exact hseen
        · exact h.left_covered other ho (hfr other hs hall)
      low_reached := h.low_reached
      left_parent := by
        intro other ho hall
        by_cases hs : other = v
        · subst hs
          refine ⟨lt_of_le_of_ne (h.low_le other ho) hne.symm, ?_⟩
          obtain ⟨frame, rest, hrest⟩ := h.exists_below hfs hne
          subst hrest
          have hpend : frame.pending = some other := (isChain_cons_cons.mp hwait).1
          have hm : frame ∈ search.frames := hbl frame mem_cons_self
          refine ⟨frame.vertex, h.frames_stack frame hm, (h.frames_pending frame hm other hpend).1,
            rel_of_pairwise_cons hsort mem_cons_self, ?_, .inr ⟨frame.rest, rest, ?_⟩⟩
          · intro under hunder _
            rcases mem_cons.mp hunder with rfl | hunder
            · exact le_rfl
            · have hrest := (pairwise_cons.mp hsort).2
              exact (rel_of_pairwise_cons hrest hunder).le
          · rw [← hpend]
        · obtain ⟨hlt, parent, hp, hedge, hparentLt, hup, hlow⟩ :=
            h.left_parent other ho (hfr other hs hall)
          refine ⟨hlt, parent, hp, hedge, hparentLt,
            fun under hunder => hup under (hbl under hunder), .inl ?_⟩
          rcases hlow with hlow | ⟨rest', below', hfs'⟩
          · exact hlow
          · rw [hfs] at hfs'
            cases hfs' }

/-- The stack splits at the vertex that completes a component. -/
structure Completes (search : Search V) (v : V) (below : List (SearchFrame V))
    (members remaining : List V) : Prop where
  frames : search.frames = ⟨v, [], none⟩ :: below
  low : search.low v = search.index v
  stack : search.stack = members ++ v :: remaining

section Completes

variable {v : V} {below : List (SearchFrame V)} {members remaining : List V}

section

variable (hcompl : Completes search v below members remaining)

include hcompl

section

variable (h : Nested succs search)

include h

variable {other : V}

theorem Completes.above (ho : other ∈ members) :
    other ∈ search.stack ∧ search.index v < search.index other := by
  have hsort := h.stack_sorted
  rw [hcompl.stack] at hsort ⊢
  exact ⟨mem_append_left _ ho,
    (pairwise_append.mp hsort).2.2 other ho v mem_cons_self⟩

theorem Completes.under (ho : other ∈ remaining) :
    other ∈ search.stack ∧ search.index other < search.index v := by
  have hsort := h.stack_sorted
  rw [hcompl.stack] at hsort ⊢
  refine ⟨mem_append_right _ (mem_cons_of_mem _ ho), ?_⟩
  exact rel_of_pairwise_cons (pairwise_append.mp hsort).2.1 ho

theorem Completes.mem_remaining (ho : other ∈ search.stack) :
    other ∈ remaining ↔ search.index other < search.index v := by
  refine ⟨fun hm => (hcompl.under h hm).2, fun hlt => ?_⟩
  have hm := ho
  rw [hcompl.stack] at hm
  rcases mem_append.mp hm with hm | hm
  · exact absurd (hcompl.above h hm).2 (lt_asymm hlt)
  · rcases mem_cons.mp hm with rfl | hm
    · exact absurd hlt (lt_irrefl _)
    · exact hm

theorem Completes.mem_members (ho : other ∈ search.stack) :
    other ∈ members ++ [v] ↔ search.index v ≤ search.index other := by
  constructor
  · intro hm
    rcases mem_append.mp hm with hm | hm
    · exact (hcompl.above h hm).2.le
    · rw [mem_singleton.mp hm]
  · intro hle
    have hm := ho
    rw [hcompl.stack] at hm
    rcases mem_append.mp hm with hm | hm
    · exact mem_append_left _ hm
    · rcases mem_cons.mp hm with rfl | hm
      · exact mem_append_right _ (mem_singleton_self _)
      · exact absurd (hcompl.under h hm).2 (not_lt.mpr hle)

omit h in
theorem Completes.mem_stack (ho : other ∈ members ++ [v]) : other ∈ search.stack := by
  rw [hcompl.stack]
  rcases mem_append.mp ho with hm | hm
  · exact mem_append_left _ hm
  · rw [mem_singleton.mp hm]
    exact mem_append_right _ mem_cons_self

/-- The members and their first vertex reach each other. -/
theorem Completes.paths (ho : other ∈ members ++ [v]) :
    Path succs v other ∧ Path succs other v := by
  rcases mem_append.mp ho with hm | hm
  · obtain ⟨hstack, habove⟩ := hcompl.above h hm
    exact ⟨(h.climb hcompl.frames hstack habove).1,
      h.descend hcompl.frames hcompl.low hstack habove⟩
  · rw [mem_singleton.mp hm]
    exact ⟨.refl, .refl⟩

/-- What a member leads to is a member, or closed already. -/
theorem Completes.edge {successor : V} (ho : other ∈ members ++ [v]) (hsucc : successor ∈ succs
    other) : successor ∈ members ++ [v] ∨ ∃ root, search.mark successor = .closed root := by
  have htop : (⟨v, [], none⟩ : SearchFrame V) ∈ search.frames := by
    rw [hcompl.frames]
    exact mem_cons_self
  have hstack := hcompl.mem_stack ho
  -- the vertex and the members above it have seen all their successors
  have hcov : Covered search other (succs other) none ∧ search.low v ≤ search.low other := by
    rcases mem_append.mp ho with hm | hm
    · obtain ⟨-, habove⟩ := hcompl.above h hm
      refine ⟨h.left_covered other hstack ?_, (h.climb hcompl.frames hstack habove).2⟩
      rintro frame hfr rfl
      have hsort := h.frames_sorted
      rw [hcompl.frames] at hfr hsort
      rcases mem_cons.mp hfr with rfl | hfr
      · exact lt_irrefl _ habove
      · exact lt_asymm habove (rel_of_pairwise_cons hsort hfr)
    · rw [mem_singleton.mp hm]
      obtain ⟨seen, heq, hseen⟩ := h.frames_covered _ htop
      rw [append_nil] at heq
      rw [heq]
      exact ⟨hseen, le_rfl⟩
  obtain ⟨hwhite, hle⟩ := hcov.1 successor hsucc
  cases hmark : search.mark successor with
  | white => exact absurd hmark hwhite
  | closed root => exact .inr ⟨root, rfl⟩
  | opened idx low =>
    have hopen : successor ∈ search.stack := (h.opened successor).mpr ⟨idx, low, hmark⟩
    have hi := hle (fun hn => nomatch hn) hopen
    refine .inl ((hcompl.mem_members h hopen).mpr ?_)
    rw [← hcompl.low]
    exact hcov.2.trans hi

end

end

end Completes

end Leaving

/-! ## Entering and completing -/

section Steps

variable [DecidableEq V] {succs : V → List V} {search : Search V}

variable {below : List (SearchFrame V)}

section Entered

variable {v child other : V} {rest : List V}

theorem mark_enter_of_ne (hne : other ≠ child) :
    (search.enter succs v child rest below).mark other = search.mark other :=
  update_of_ne hne _ _

theorem mark_enter_self : (search.enter succs v child rest below).mark child =
    .opened search.next search.next :=
  update_self _ _ _

theorem index_enter_self : (search.enter succs v child rest below).index child = search.next :=
  congrArg Mark.index mark_enter_self

theorem mark_enter_ne_white (hnot : search.mark other ≠ .white) :
    (search.enter succs v child rest below).mark other ≠ .white := by
  by_cases heq : other = child
  · subst heq
    rw [mark_enter_self]
    exact fun hwhite => nomatch hwhite
  · rwa [mark_enter_of_ne heq]

variable (h : Nested succs search) (hchild : search.mark child = .white)

include h hchild

theorem Nested.ne_of_mem_stack (ho : other ∈ search.stack) : other ≠ child := by
  rintro rfl
  obtain ⟨idx, low, hop⟩ := (h.opened other).mp ho
  rw [hchild] at hop
  cases hop

/-- The vertices on the stack keep their marks. -/
theorem Nested.mark_enter (ho : other ∈ search.stack) :
    (search.enter succs v child rest below).mark other = search.mark other :=
  mark_enter_of_ne (h.ne_of_mem_stack hchild ho)

theorem Nested.index_enter (ho : other ∈ search.stack) :
    (search.enter succs v child rest below).index other = search.index other :=
  congrArg Mark.index (h.mark_enter hchild ho)

theorem Nested.low_enter (ho : other ∈ search.stack) :
    (search.enter succs v child rest below).low other = search.low other :=
  congrArg Mark.low (h.mark_enter hchild ho)

theorem Nested.covered_enter {seen : List V} {pending : Option V} (ho : other ∈ search.stack)
    (hold : Covered search other seen pending) :
    Covered (search.enter succs v child rest below) other seen pending := by
  refine hold.congr (h.mark_enter hchild ho)
    (fun _ => mark_enter_ne_white) fun successor hin hnot => ?_
  have hne : successor ≠ child := by
    rintro rfl
    exact hnot hchild
  exact ⟨(mem_cons.mp hin).resolve_left hne, mark_enter_of_ne hne⟩

variable (hfs : search.frames = ⟨v, child :: rest, none⟩ :: below)

include hfs

omit hchild in
theorem Nested.frames_stack_enter {frame : SearchFrame V}
    (hfr : frame ∈ ⟨v, rest, some child⟩ :: below) : frame.vertex ∈ search.stack := by
  obtain ⟨-, hv, hbl⟩ := h.top_mem hfs
  rcases mem_cons.mp hfr with rfl | hfr
  · exact hv
  · exact h.frames_stack frame (hbl frame hfr)

omit h hchild in
/-- A vertex without a frame was on the stack, and had none. -/
theorem frameless_enter (ho : other ∈ child :: search.stack)
    (hfr : ∀ frame ∈ (search.enter succs v child rest below).frames, frame.vertex ≠ other) :
    other ∈ search.stack ∧ ∀ frame ∈ search.frames, frame.vertex ≠ other := by
  refine ⟨(mem_cons.mp ho).resolve_left fun heq => hfr _ mem_cons_self heq.symm, fun frame hm => ?_⟩
  rw [hfs] at hm
  rcases mem_cons.mp hm with rfl | hm
  · exact hfr ⟨v, rest, some child⟩ (mem_cons_of_mem _ mem_cons_self)
  · exact hfr frame (mem_cons_of_mem _ (mem_cons_of_mem _ hm))

theorem Nested.frames_sorted_enter : (search.enter succs v child rest below).frames.Pairwise
    fun upper under => (search.enter succs v child rest below).index under.vertex <
      (search.enter succs v child rest below).index upper.vertex := by
  have hsort := h.frames_sorted
  rw [hfs] at hsort
  have hold : (⟨v, rest, some child⟩ :: below : List (SearchFrame V)).Pairwise fun upper under =>
      search.index under.vertex < search.index upper.vertex :=
    pairwise_cons.mpr (pairwise_cons.mp hsort)
  refine pairwise_cons.mpr ⟨fun frame hfr => ?_, ?_⟩
  · have hstack := h.frames_stack_enter hfs hfr
    rw [index_enter_self, h.index_enter hchild hstack]
    exact h.index_lt _ hstack
  · refine hold.imp_of_mem fun {upper under} hupper hunder hlt => ?_
    rw [h.index_enter hchild (h.frames_stack_enter hfs hupper),
      h.index_enter hchild (h.frames_stack_enter hfs hunder)]
    exact hlt

omit hchild in
theorem Nested.frames_pending_enter : ∀ frame ∈ (search.enter succs v child rest below).frames,
    ∀ other, frame.pending = some other → other ∈ succs frame.vertex ∧
      (search.enter succs v child rest below).mark other ≠ .white := by
  obtain ⟨htop, -, hbl⟩ := h.top_mem hfs
  obtain ⟨seen, heq, -⟩ := h.frames_covered _ htop
  intro frame hfr other ho
  rcases mem_cons.mp hfr with rfl | hfr
  · cases ho
  rcases mem_cons.mp hfr with rfl | hfr
  · cases ho
    refine ⟨?_, by rw [mark_enter_self]; rintro ⟨⟩⟩
    rw [heq]
    exact mem_append_right _ mem_cons_self
  · obtain ⟨hedge, hnot⟩ := h.frames_pending frame (hbl frame hfr) other ho
    exact ⟨hedge, mark_enter_ne_white hnot⟩

/-- The vertex on top has seen the successor, but waits for it. -/
theorem Nested.frames_covered_enter : ∀ frame ∈ (search.enter succs v child rest below).frames,
    ∃ seen, succs frame.vertex = seen ++ frame.rest ∧
      Covered (search.enter succs v child rest below) frame.vertex seen frame.pending := by
  obtain ⟨htop, hv, hbl⟩ := h.top_mem hfs
  intro frame hfr
  rcases mem_cons.mp hfr with rfl | hfr
  · exact ⟨[], rfl, fun successor hsucc => absurd hsucc not_mem_nil⟩
  rcases mem_cons.mp hfr with rfl | hfr
  · obtain ⟨seen, heq, hold⟩ := h.frames_covered _ htop
    refine ⟨seen ++ [child], by rw [append_assoc]; exact heq, fun successor hsucc => ?_⟩
    rcases mem_append.mp hsucc with hsucc | hsucc
    · obtain ⟨hnot, hle⟩ := h.covered_enter hchild hv hold successor hsucc
      exact ⟨hnot, fun _ hstack => hle (fun hn => nomatch hn) hstack⟩
    · obtain rfl := mem_singleton.mp hsucc
      exact ⟨by rw [mark_enter_self]; rintro ⟨⟩, fun hwait => absurd rfl hwait⟩
  · obtain ⟨seen, heq, hold⟩ := h.frames_covered frame (hbl frame hfr)
    exact ⟨seen, heq, h.covered_enter hchild (h.frames_stack frame (hbl frame hfr)) hold⟩

/-- A vertex that was left keeps its parent. -/
theorem Nested.left_parent_enter (ho : other ∈ search.stack)
    (hold : ∀ frame ∈ search.frames, frame.vertex ≠ other) :
    search.low other < search.index other ∧ ∃ parent ∈ search.stack, other ∈ succs parent ∧
      search.index parent < search.index other ∧
      (∀ frame ∈ (search.enter succs v child rest below).frames,
        (search.enter succs v child rest below).index frame.vertex < search.index other →
          (search.enter succs v child rest below).index frame.vertex ≤ search.index parent) ∧
      search.low parent ≤ search.low other := by
  obtain ⟨htop, -, hbl⟩ := h.top_mem hfs
  obtain ⟨hlt, parent, hp, hedge, hparentLt, hall, hlow⟩ := h.left_parent other ho hold
  refine ⟨hlt, parent, hp, hedge, hparentLt, fun frame hm hframeLt => ?_, ?_⟩
  · rcases mem_cons.mp hm with rfl | hm
    · rw [index_enter_self] at hframeLt
      exact absurd (h.index_lt other ho) (lt_asymm hframeLt)
    · rw [h.index_enter hchild (h.frames_stack_enter hfs hm)] at hframeLt ⊢
      rcases mem_cons.mp hm with rfl | hm
      · exact hall ⟨v, child :: rest, none⟩ htop hframeLt
      · exact hall frame (hbl frame hm) hframeLt
  · refine hlow.resolve_right ?_
    rintro ⟨rest', below', hfs'⟩
    rw [hfs] at hfs'
    cases hfs'

theorem Nested.entered : Nested succs (search.enter succs v child rest below) where
  opened := by
    intro other
    by_cases ho : other = child
    · subst ho
      exact ⟨fun _ => ⟨_, _, mark_enter_self⟩, fun _ => mem_cons_self⟩
    · rw [mark_enter_of_ne ho]
      exact mem_cons.trans ((or_iff_right ho).trans (h.opened other))
  index_lt := by
    intro other ho
    rcases mem_cons.mp ho with rfl | ho
    · rw [index_enter_self]
      exact Nat.lt_succ_self _
    · rw [h.index_enter hchild ho]
      exact Nat.lt_succ_of_lt (h.index_lt other ho)
  low_le := by
    intro other ho
    rcases mem_cons.mp ho with rfl | ho
    · rw [Search.index, Search.low, mark_enter_self]
      exact le_rfl
    · rw [h.index_enter hchild ho, h.low_enter hchild ho]
      exact h.low_le other ho
  stack_sorted := by
    refine pairwise_cons.mpr ⟨fun other ho => ?_, ?_⟩
    · rw [index_enter_self, h.index_enter hchild ho]
      exact h.index_lt other ho
    · refine h.stack_sorted.imp_of_mem fun {upper under} hupper hunder hlt => ?_
      rw [h.index_enter hchild hupper, h.index_enter hchild hunder]
      exact hlt
  frames_stack := by
    intro frame hfr
    rcases mem_cons.mp hfr with rfl | hfr
    · exact mem_cons_self
    · exact mem_cons_of_mem _ (h.frames_stack_enter hfs hfr)
  frames_sorted := h.frames_sorted_enter hchild hfs
  frames_waiting := by
    have hwaiting := h.frames_waiting
    rw [hfs] at hwaiting
    exact isChain_cons_cons.mpr ⟨rfl, isChain_cons.mpr (isChain_cons.mp hwaiting)⟩
  frames_pending := h.frames_pending_enter hfs
  frames_covered := h.frames_covered_enter hchild hfs
  left_covered := by
    intro other ho hfr
    obtain ⟨ho, hold⟩ := frameless_enter hfs ho hfr
    exact h.covered_enter hchild ho (h.left_covered other ho hold)
  low_reached := by
    intro other ho
    rcases mem_cons.mp ho with rfl | ho
    · refine ⟨other, mem_cons_self, ?_, .refl⟩
      rw [Search.index, Search.low, mark_enter_self]
      rfl
    · obtain ⟨reached, hreached, hi, hpath⟩ := h.low_reached other ho
      refine ⟨reached, mem_cons_of_mem _ hreached, ?_, hpath⟩
      rw [h.index_enter hchild hreached, h.low_enter hchild ho]
      exact hi
  left_parent := by
    intro other ho hfr
    obtain ⟨ho, hold⟩ := frameless_enter hfs ho hfr
    obtain ⟨hlt, parent, hp, hedge, hparentLt, hall, hlow⟩ := h.left_parent_enter hchild hfs ho hold
    rw [h.index_enter hchild ho, h.low_enter hchild ho]
    refine ⟨hlt, parent, mem_cons_of_mem _ hp, hedge, ?_⟩
    rw [h.index_enter hchild hp, h.low_enter hchild hp]
    exact ⟨hparentLt, hall, .inl hlow⟩

end Entered

theorem Nested.completed (h : Nested succs search) {v : V} {members remaining : List V} (hcompl :
    Completes search v below members remaining) :
    Nested succs
      { search with
        mark := close search.mark (members ++ [v]) v
        frames := below
        stack := remaining
        components := search.components ++ [members ++ [v]] } := by
  have hbl : ∀ frame ∈ below, frame ∈ search.frames := by
    intro frame hfr
    rw [hcompl.frames]
    exact mem_cons_of_mem _ hfr
  have hsort := h.frames_sorted
  have hwaiting := h.frames_waiting
  rw [hcompl.frames] at hsort hwaiting
  have hstackSorted := h.stack_sorted
  rw [hcompl.stack] at hstackSorted
  -- the marks of what remains are as before
  have hmark : ∀ other ∈ remaining,
      close search.mark (members ++ [v]) v other = search.mark other := by
    intro other ho
    obtain ⟨hstack, hlt⟩ := hcompl.under h ho
    exact if_neg fun hm => absurd ((hcompl.mem_members h hstack).mp hm) (not_le.mpr hlt)
  have hwhite : ∀ other, search.mark other ≠ .white →
      close search.mark (members ++ [v]) v other ≠ .white := by
    intro other ho
    rw [close]
    split
    · exact fun hcl => nomatch hcl
    · exact ho
  have hframeStack : ∀ frame ∈ below, frame.vertex ∈ remaining := by
    intro frame hfr
    exact (hcompl.mem_remaining h (h.frames_stack frame (hbl frame hfr))).mpr
      (rel_of_pairwise_cons hsort hfr)
  have hcov : ∀ {other seen pending}, other ∈ remaining → Covered search other seen pending →
      Covered
        { search with
          mark := close search.mark (members ++ [v]) v
          frames := below
          stack := remaining
          components := search.components ++ [members ++ [v]] } other seen pending := by
    intro other seen pending ho hold
    exact hold.congr (hmark other ho) hwhite fun successor hin _ =>
      ⟨(hcompl.under h hin).1, hmark successor hin⟩
  have hfr : ∀ other ∈ remaining, (∀ frame ∈ below, frame.vertex ≠ other) →
      ∀ frame ∈ search.frames, frame.vertex ≠ other := by
    intro other ho hall frame hfr
    rw [hcompl.frames] at hfr
    rcases mem_cons.mp hfr with rfl | hfr
    · rintro rfl
      exact lt_irrefl _ (hcompl.under h ho).2
    · exact hall frame hfr
  exact
    { opened := by
        intro other
        dsimp only
        constructor
        · intro ho
          rw [hmark other ho]
          exact (h.opened other).mp (hcompl.under h ho).1
        · rintro ⟨idx, low, hop⟩
          rw [close] at hop
          split_ifs at hop with hnot
          have hstack := (h.opened other).mpr ⟨idx, low, hop⟩
          rw [hcompl.mem_members h hstack] at hnot
          exact (hcompl.mem_remaining h hstack).mpr (not_le.mp hnot)
      index_lt := by
        intro other ho
        simp only [Search.index]
        rw [hmark other ho]
        exact h.index_lt other (hcompl.under h ho).1
      low_le := by
        intro other ho
        simp only [Search.index, Search.low]
        rw [hmark other ho]
        exact h.low_le other (hcompl.under h ho).1
      stack_sorted := by
        have hrem := (pairwise_cons.mp (pairwise_append.mp hstackSorted).2.1).2
        refine hrem.imp_of_mem fun {upper under} hupper hunder hlt => ?_
        simp only [Search.index]
        rw [hmark upper hupper, hmark under hunder]
        exact hlt
      frames_stack := hframeStack
      frames_sorted := by
        refine (pairwise_cons.mp hsort).2.imp_of_mem fun {upper under} hupper hunder hlt => ?_
        simp only [Search.index]
        rw [hmark _ (hframeStack upper hupper), hmark _ (hframeStack under hunder)]
        exact hlt
      frames_waiting := (isChain_cons.mp hwaiting).2
      frames_pending := by
        intro frame hm child hchild
        obtain ⟨hedge, hnot⟩ := h.frames_pending frame (hbl frame hm) child hchild
        exact ⟨hedge, hwhite child hnot⟩
      frames_covered := by
        intro frame hm
        obtain ⟨seen, heq, hold⟩ := h.frames_covered frame (hbl frame hm)
        exact ⟨seen, heq, hcov (hframeStack frame hm) hold⟩
      left_covered := by
        intro other ho hall
        exact hcov ho (h.left_covered other (hcompl.under h ho).1 (hfr other ho hall))
      low_reached := by
        intro other ho
        obtain ⟨hstack, hlt⟩ := hcompl.under h ho
        obtain ⟨reached, hreached, hi, hpath⟩ := h.low_reached other hstack
        have hle := h.low_le other hstack
        have hremains := (hcompl.mem_remaining h hreached).mpr (by omega)
        refine ⟨reached, hremains, ?_, hpath⟩
        simp only [Search.index, Search.low]
        rw [hmark reached hremains, hmark other ho]
        exact hi
      left_parent := by
        intro other ho hall
        obtain ⟨hstack, hltVertex⟩ := hcompl.under h ho
        obtain ⟨hlt, parent, hp, hedge, hparentLt, hup, hlow⟩ :=
          h.left_parent other hstack (hfr other ho hall)
        have hremains := (hcompl.mem_remaining h hp).mpr (hparentLt.trans hltVertex)
        simp only [Search.index, Search.low]
        rw [hmark other ho]
        refine ⟨hlt, parent, hremains, hedge, ?_, ?_, .inl ?_⟩
        · rw [hmark parent hremains]
          exact hparentLt
        · intro under hunder
          rw [hmark parent hremains, hmark _ (hframeStack under hunder)]
          exact hup under (hbl under hunder)
        · rw [hmark parent hremains]
          rcases hlow with hlow | ⟨rest', below', hfs'⟩
          · exact hlow
          · rw [hcompl.frames] at hfs'
            cases hfs' }

end Steps

end TachyonEngine.Lib.Components
