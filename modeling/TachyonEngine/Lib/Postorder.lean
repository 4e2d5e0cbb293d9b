import TachyonEngine.Lib.Components

/-!
# Postorders

A depth-first walk that keeps its frames itself and lists a vertex when it leaves it. The list is a
postorder of what the root reaches: the vertex from which the walk entered another one comes after
it. Before it leaves a vertex, the walk has left all that a successor outside the component of the
vertex reaches. A vertex that does not come last in its component was entered from the component.
-/

namespace TachyonEngine.Lib.Postorder

open List

open Lib.Components (Path)

universe u

variable {V : Type u}

/-- A vertex that the walk is in, and the successors that are left. -/
structure WalkFrame (V : Type u) where
  vertex : V
  rest : List V

/-- Frames have their top first, the order has the vertex that was left last at its end. -/
structure Walk (V : Type u) where
  seen : V → Prop
  frames : List (WalkFrame V)
  order : List V

def Walk.inside (walk : Walk V) : List V := walk.frames.map WalkFrame.vertex

variable (succs : V → List V)

inductive Step : Walk V → Walk V → Prop where
  /-- The next successor was entered before. -/
  | pass {walk : Walk V} {v child : V} {rest : List V} {below : List (WalkFrame V)}
      (hfs : walk.frames = ⟨v, child :: rest⟩ :: below) (hchild : walk.seen child) :
      Step walk { walk with frames := ⟨v, rest⟩ :: below }
  | enter {walk : Walk V} {v child : V} {rest : List V} {below : List (WalkFrame V)}
      (hfs : walk.frames = ⟨v, child :: rest⟩ :: below) (hchild : ¬ walk.seen child) :
      Step walk
        { walk with
          seen := fun other => other = child ∨ walk.seen other
          frames := ⟨child, succs child⟩ :: ⟨v, rest⟩ :: below }
  | leave {walk : Walk V} {v : V} {below : List (WalkFrame V)}
      (hfs : walk.frames = ⟨v, []⟩ :: below) :
      Step walk { walk with frames := below, order := walk.order ++ [v] }

/-- The walk has entered its first vertex. -/
def start (root : V) : Walk V :=
  { seen := fun v => v = root
    frames := [⟨root, succs root⟩]
    order := [] }

/-- Where the walk leaves what was passed so far, it comes to a vertex that leads to the parent. -/
def Leaves (passed : List V) (parent : V) : Prop :=
  ∀ v ∈ passed, ∀ successor ∈ succs v, successor ∈ passed ∨ Path succs successor parent

/-- What holds between two steps. -/
structure Sound (root : V) (walk : Walk V) : Prop where
  seen_iff : ∀ v, walk.seen v ↔ v ∈ walk.order ∨ v ∈ walk.inside
  nodup : (walk.order ++ walk.inside).Nodup
  reached : ∀ v, walk.seen v → Path succs root v
  root_seen : walk.seen root
  chain : walk.inside.IsChain fun upper under => upper ∈ succs under
  bottom : ∀ v ∈ walk.inside.getLast?, v = root
  passed : ∀ frame ∈ walk.frames, ∃ passed, succs frame.vertex = passed ++ frame.rest ∧
    ∀ successor ∈ passed, walk.seen successor
  left : ∀ v ∈ walk.order, ∀ successor ∈ succs v, walk.seen successor
  parent : ∀ pre v post, walk.order = pre ++ v :: post →
    v = root ∨ ∃ parent ∈ post ++ walk.inside, v ∈ succs parent ∧ Leaves succs (pre ++ [v]) parent

/-- A list of what the root reaches, in the order in which a walk leaves it. -/
structure Postordered (root : V) (order : List V) : Prop where
  nodup : order.Nodup
  mem_iff : ∀ v, v ∈ order ↔ Path succs root v
  parent : ∀ pre v post, order = pre ++ v :: post →
    v = root ∨ ∃ parent ∈ post, v ∈ succs parent ∧ Leaves succs (pre ++ [v]) parent

variable {succs}

/-! ## Steps -/

section Steps

variable {root : V} {walk next : Walk V}

theorem sound_start (root : V) : Sound succs root (start succs root) where
  seen_iff v := by
    constructor
    · intro h
      exact .inr (mem_singleton.mpr h)
    · rintro (h | h)
      · cases h
      · exact mem_singleton.mp h
  nodup := nodup_singleton root
  reached := by
    rintro v rfl
    exact .refl
  root_seen := rfl
  chain := isChain_singleton root
  bottom := by
    rintro v h
    exact (Option.mem_some_iff.mp h).symm
  passed := by
    intro frame hfr
    obtain rfl := mem_singleton.mp hfr
    exact ⟨[], rfl, fun successor h => by cases h⟩
  left := fun v h => by cases h
  parent := by
    intro pre v post h
    exact absurd h.symm (append_ne_nil_of_right_ne_nil _ (cons_ne_nil _ _))

/-- A vertex that the walk is in leads to the one on top. -/
theorem path_top {top under : V} {below : List V}
    (h : (top :: below).IsChain fun upper under => upper ∈ succs under)
    (hunder : under ∈ top :: below) : Path succs under top := by
  induction below generalizing top with
  | nil =>
    obtain rfl := mem_singleton.mp hunder
    exact .refl
  | cons next below ih =>
    obtain ⟨hedge, hrest⟩ := isChain_cons_cons.mp h
    rcases mem_cons.mp hunder with rfl | hunder
    · exact .refl
    · exact (ih hrest hunder).tail hedge

section

variable (h : Sound succs root walk)

include h

variable {v child : V} {rest : List V} {below : List (WalkFrame V)}

theorem Sound.pass (hfs : walk.frames = ⟨v, child :: rest⟩ :: below) (hchild : walk.seen child) :
    Sound succs root { walk with frames := ⟨v, rest⟩ :: below } := by
  have hins : ({ walk with frames := ⟨v, rest⟩ :: below } : Walk V).inside = walk.inside := by
    rw [Walk.inside, Walk.inside, hfs]
    rfl
  refine ⟨?_, ?_, h.reached, h.root_seen, ?_, ?_, ?_, h.left, ?_⟩
  · rw [hins]
    exact h.seen_iff
  · rw [hins]
    exact h.nodup
  · rw [hins]
    exact h.chain
  · rw [hins]
    exact h.bottom
  · intro frame hfr
    rcases mem_cons.mp hfr with rfl | hfr
    · obtain ⟨passed, hpassed, hseen⟩ := h.passed _ (hfs ▸ mem_cons_self)
      refine ⟨passed ++ [child], ?_, ?_⟩
      · rw [hpassed, append_assoc]
        rfl
      · intro successor hsucc
        rcases mem_append.mp hsucc with hsucc | hsucc
        · exact hseen successor hsucc
        · exact mem_singleton.mp hsucc ▸ hchild
    · exact h.passed frame (hfs ▸ mem_cons_of_mem _ hfr)
  · rw [hins]
    exact h.parent

theorem Sound.enter (hfs : walk.frames = ⟨v, child :: rest⟩ :: below) (hchild : ¬ walk.seen child) :
    Sound succs root
      { walk with
        seen := fun other => other = child ∨ walk.seen other
        frames := ⟨child, succs child⟩ :: ⟨v, rest⟩ :: below } := by
  have hins : walk.inside = v :: below.map WalkFrame.vertex := by
    rw [Walk.inside, hfs]
    rfl
  obtain ⟨passed, hpassed, hseen⟩ := h.passed _ (hfs ▸ mem_cons_self)
  have hedge : child ∈ succs v := by
    rw [show succs v = passed ++ child :: rest from hpassed]
    exact mem_append_right _ mem_cons_self
  have hm : v ∈ walk.inside := by
    rw [hins]
    exact mem_cons_self
  refine ⟨?_, ?_, ?_, .inr h.root_seen, ?_, ?_, ?_, ?_, ?_⟩
  · intro other
    change other = child ∨ walk.seen other ↔
      other ∈ walk.order ∨ other ∈ child :: v :: below.map WalkFrame.vertex
    rw [h.seen_iff, ← hins, mem_cons]
    tauto
  · change (walk.order ++ child :: v :: below.map WalkFrame.vertex).Nodup
    rw [← hins]
    refine nodup_middle.mpr (nodup_cons.mpr ⟨fun hm => hchild ?_, h.nodup⟩)
    exact (h.seen_iff child).mpr (mem_append.mp hm)
  · rintro other (rfl | ho)
    · exact (h.reached v ((h.seen_iff v).mpr (.inr hm))).tail hedge
    · exact h.reached other ho
  · change (child :: v :: below.map WalkFrame.vertex).IsChain _
    rw [← hins]
    exact isChain_cons.mpr ⟨by
      rw [hins]
      rintro other ho
      obtain rfl := Option.mem_some_iff.mp ho
      exact hedge, h.chain⟩
  · change ∀ other ∈ (child :: v :: below.map WalkFrame.vertex).getLast?, other = root
    rw [getLast?_cons_cons, ← hins]
    exact h.bottom
  · intro frame hfr
    rcases mem_cons.mp hfr with rfl | hfr
    · exact ⟨[], rfl, fun successor hsucc => nomatch hsucc⟩
    · rcases mem_cons.mp hfr with rfl | hfr
      · refine ⟨passed ++ [child], ?_, ?_⟩
        · rw [append_assoc]
          exact hpassed
        · intro successor hsucc
          rcases mem_append.mp hsucc with hsucc | hsucc
          · exact .inr (hseen successor hsucc)
          · exact .inl (mem_singleton.mp hsucc)
      · obtain ⟨passed, hpassed, hseen⟩ := h.passed frame (hfs ▸ mem_cons_of_mem _ hfr)
        exact ⟨passed, hpassed, fun successor hsucc => .inr (hseen successor hsucc)⟩
  · exact fun other ho successor hsucc => .inr (h.left other ho successor hsucc)
  · intro pre other post horder
    rcases h.parent pre other post horder with hroot | ⟨parent, hp, hleaves⟩
    · exact .inl hroot
    · refine .inr ⟨parent, ?_, hleaves⟩
      change parent ∈ post ++ child :: v :: below.map WalkFrame.vertex
      rw [← hins]
      rcases mem_append.mp hp with hp | hp
      · exact mem_append_left _ hp
      · exact mem_append_right _ (mem_cons_of_mem _ hp)

theorem Sound.leave (hfs : walk.frames = ⟨v, []⟩ :: below) :
    Sound succs root { walk with frames := below, order := walk.order ++ [v] } := by
  have hins : walk.inside = v :: below.map WalkFrame.vertex := by
    rw [Walk.inside, hfs]
    rfl
  have hdone : ∀ successor ∈ succs v, walk.seen successor := by
    obtain ⟨passed, hpassed, hseen⟩ := h.passed _ (hfs ▸ mem_cons_self)
    rw [append_nil] at hpassed
    rw [show succs v = passed from hpassed]
    exact hseen
  have hl : ∀ other ∈ walk.order ++ [v], ∀ successor ∈ succs other, walk.seen successor := by
    exact forall_mem_append.mpr ⟨h.left, forall_mem_singleton.mpr hdone⟩
  have hnodup := h.nodup
  have hchain := h.chain
  have hbottom := h.bottom
  rw [hins] at hnodup hchain hbottom
  refine ⟨?_, ?_, h.reached, h.root_seen, hchain.tail, ?_, ?_, hl, ?_⟩
  · intro other
    rw [h.seen_iff, hins, mem_append, mem_cons, mem_singleton]
    tauto
  · rw [append_assoc]
    exact hnodup
  · change ∀ other ∈ (below.map WalkFrame.vertex).getLast?, other = root
    cases hbl : below.map WalkFrame.vertex with
    | nil => exact fun other ho => nomatch ho
    | cons next rest =>
      rw [hbl] at hbottom
      exact hbottom
  · exact fun frame hfr => h.passed frame (hfs ▸ mem_cons_of_mem _ hfr)
  · intro pre other post horder
    change other = root ∨ ∃ parent ∈ post ++ below.map WalkFrame.vertex, _
    rcases eq_nil_or_concat post with rfl | ⟨post, last, rfl⟩
    · -- the vertex that the walk leaves
      obtain ⟨rfl, heq⟩ := append_inj' horder rfl
      obtain rfl := singleton_inj.mp heq
      cases hbl : below.map WalkFrame.vertex with
      | nil =>
        rw [hbl] at hbottom
        exact .inl (hbottom v rfl)
      | cons parent rest =>
        rw [hbl] at hchain
        obtain ⟨hedge, hrest⟩ := isChain_cons_cons.mp hchain
        refine .inr ⟨parent, mem_append_right _ mem_cons_self, hedge, ?_⟩
        intro passed hpassed successor hsucc
        rcases (h.seen_iff successor).mp (hl passed hpassed successor hsucc) with hseen | hseen
        · exact .inl (mem_append_left _ hseen)
        · rw [hins, mem_cons, hbl] at hseen
          rcases hseen with rfl | hseen
          · exact .inl (mem_append_right _ mem_cons_self)
          · exact .inr (path_top hrest hseen)
    · rw [concat_eq_append, ← cons_append, ← append_assoc] at horder
      obtain ⟨hb, heq⟩ := append_inj' horder rfl
      obtain rfl := singleton_inj.mp heq
      rcases h.parent pre other post hb with hroot | ⟨parent, hp, hleaves⟩
      · exact .inl hroot
      · refine .inr ⟨parent, ?_, hleaves⟩
        rw [hins] at hp
        rw [concat_eq_append, append_assoc]
        exact hp

omit h in
theorem Step.sound (hstep : Step succs walk next) (h : Sound succs root walk) :
    Sound succs root next := by
  cases hstep with
  | pass hfs hchild => exact h.pass hfs hchild
  | enter hfs hchild => exact h.enter hfs hchild
  | leave hfs => exact h.leave hfs

/-- A walk without frames has listed what the root reaches. -/
theorem Sound.postordered (hfs : walk.frames = []) : Postordered succs root walk.order := by
  have hins : walk.inside = [] := by
    rw [Walk.inside, hfs]
    rfl
  have hseen : ∀ v, walk.seen v ↔ v ∈ walk.order := by
    intro v
    rw [h.seen_iff, hins]
    exact or_iff_left (fun hm => nomatch hm)
  have hnodup := h.nodup
  rw [hins, append_nil] at hnodup
  refine ⟨hnodup, fun v => ⟨fun hm => h.reached v ((hseen v).mpr hm), ?_⟩, ?_⟩
  · intro hpath
    induction hpath with
    | refl => exact (hseen root).mp h.root_seen
    | tail _ hedge ih => exact (hseen _).mp (h.left _ ih _ hedge)
  · intro pre v post horder
    have hp := h.parent pre v post horder
    rw [hins, append_nil] at hp
    exact hp

end

/-! ## Length of a walk -/

/-- The entered vertices that are missing to the bound, and the work in the frames. -/
def Walk.rank (walk : Walk V) (bound : Nat) : Nat × Nat :=
  (bound - (walk.order ++ walk.inside).length,
    (walk.frames.map fun frame => frame.rest.length + 1).sum)

/-- A step lowers the rank of a walk over at most so many vertices. -/
theorem Step.rank_lt (hstep : Step succs walk next) {bound : Nat}
    (hbound : (next.order ++ next.inside).length ≤ bound) :
    Prod.Lex (· < ·) (· < ·) (next.rank bound) (walk.rank bound) := by
  cases hstep with
  | @pass v child rest below hfs hchild =>
    rw [Walk.rank, Walk.rank, Walk.inside, Walk.inside, hfs]
    refine Prod.Lex.right _ ?_
    simp only [map_cons, sum_cons, length_cons]
    omega
  | @enter v child rest below hfs hchild =>
    rw [Walk.rank, Walk.rank, Walk.inside, Walk.inside, hfs]
    rw [Walk.inside] at hbound
    simp only [length_append, map_cons, length_cons] at hbound ⊢
    omega
  | @leave v below hfs =>
    rw [Walk.rank, Walk.rank, Walk.inside, Walk.inside, hfs]
    have heq : (walk.order ++ [v] ++ below.map WalkFrame.vertex).length =
        (walk.order ++ (v :: below.map WalkFrame.vertex)).length := by
      rw [append_assoc, singleton_append]
    dsimp only [map_cons]
    rw [heq]
    refine Prod.Lex.right _ ?_
    rw [map_cons, sum_cons]
    omega

end Steps

/-! ## Postorders and components -/

section Postordered

variable {root : V} {order pre post : List V} {v : V}

section

variable (h : Postordered succs root order)

include h

/-- The root comes last. -/
theorem Postordered.after_root (horder : order = pre ++ root :: post) : post = [] := by
  rcases eq_nil_or_concat post with rfl | ⟨init, last, rfl⟩
  · rfl
  · have hl : order = (pre ++ root :: init) ++ last :: [] := by
      rw [horder, concat_eq_append, ← cons_append, append_assoc]
    rcases h.parent _ _ _ hl with rfl | ⟨parent, hp, -⟩
    · have hnodup := h.nodup
      rw [hl, append_assoc] at hnodup
      have hfr := (nodup_cons.mp (nodup_middle.mp hnodup)).1
      exact absurd (mem_append_right _ (mem_append_right _ mem_cons_self)) hfr
    · cases hp

section

variable (horder : order = pre ++ v :: post)

include horder

theorem Postordered.notMem_after : v ∉ post := by
  have hnodup := h.nodup
  rw [horder] at hnodup
  exact (nodup_cons.mp hnodup.of_append_right).1

/-- What a successor outside the component of the vertex reaches was left before the vertex. -/
theorem Postordered.mem_before {successor : V} (hedge : successor ∈ succs v)
    (hout : ¬ Path succs successor v) {reached : V}
    (hpath : Path succs successor reached) : reached ∈ pre := by
  have hm : reached ∈ pre ++ [v] := by
    rcases h.parent pre v post horder with rfl | ⟨parent, -, hp, hleaves⟩
    · obtain rfl := h.after_root horder
      rw [← horder]
      have hv : v ∈ order := horder ▸ mem_append_right _ mem_cons_self
      exact (h.mem_iff reached).mpr ((((h.mem_iff v).mp hv).tail hedge).trans hpath)
    · -- the walk would have left the prefix for a vertex that leads back
      have hins : ∀ {passed other : V}, passed ∈ pre ++ [v] → other ∈ succs passed →
          Path succs successor other → other ∈ pre ++ [v] := by
        intro passed other hpassed ho hreach
        rcases hleaves passed hpassed other ho with hin | hback
        · exact hin
        · exact absurd (hreach.trans (hback.tail hp)) hout
      induction hpath with
      | refl => exact hins (mem_append_right _ mem_cons_self) hedge .refl
      | tail hreach hstep ih => exact hins ih hstep (hreach.tail hstep)
  rcases mem_append.mp hm with hm | hm
  · exact hm
  · obtain rfl := mem_singleton.mp hm
    exact absurd hpath hout

/-- A vertex that does not come last in its component was entered from the component. -/
theorem Postordered.exists_parent {later : V} (hlat : later ∈ post) (hpath : Path succs v later) :
    ∃ parent ∈ post, v ∈ succs parent ∧ Path succs v parent := by
  rcases h.parent pre v post horder with rfl | ⟨parent, hm, hp, hleaves⟩
  · rw [h.after_root horder] at hlat
    cases hlat
  · refine ⟨parent, hm, hp, ?_⟩
    have hnot : later ∉ pre ++ [v] := by
      have hnodup := h.nodup
      rw [horder, ← singleton_append, ← append_assoc] at hnodup
      exact fun hin => (disjoint_of_nodup_append hnodup) hin hlat
    -- the path leaves what was passed, and from there it leads to the parent
    have hcases : ∀ other, Path succs v other → other ∈ pre ++ [v] ∨ Path succs v parent := by
      intro other hreach
      induction hreach with
      | refl => exact .inl (mem_append_right _ mem_cons_self)
      | tail hreach hstep ih =>
        rcases ih with hin | hdone
        · exact (hleaves _ hin _ hstep).imp_right (hreach.tail hstep).trans
        · exact .inr hdone
    exact (hcases later hpath).resolve_left hnot

end

end

end Postordered

end TachyonEngine.Lib.Postorder
