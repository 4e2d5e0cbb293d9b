import TachyonEngine.Lib.Components

/-!
# Running a search for components

Every step keeps a search sound, and lowers a rank while the touched vertices are bounded. A search
whose frames are empty has closed what its root reaches.
-/

namespace TachyonEngine.Lib.Components

open List Function

universe u

variable {V : Type u} {succs : V → List V} {initial : V → Mark V} {root : V} {search : Search V}

/-! ## The components -/

variable {mark : V → Mark V}

theorem Closed.congr {mark' : V → Mark V} (h : Closed succs mark)
    (hs : ∀ v root, mark' v = .closed root ↔ mark v = .closed root) : Closed succs mark' where
  edge := by
    intro v root hv successor hsucc
    obtain ⟨other, ho⟩ := h.edge v root ((hs _ _).mp hv) successor hsucc
    exact ⟨other, (hs _ _).mpr ho⟩
  root := by
    intro v root hv
    obtain ⟨hroot, hpaths⟩ := h.root v root ((hs _ _).mp hv)
    exact ⟨(hs _ _).mpr hroot, hpaths⟩
  unique := by
    intro v root other root' hv ho
    exact h.unique v root other root' ((hs _ _).mp hv) ((hs _ _).mp ho)

variable {v : V}

variable {other : V}

theorem Closed.path (h : Closed succs mark) {root : V} (hv : mark v = .closed root) (hpath : Path
    succs v other) : ∃ root', mark other = .closed root' := by
  induction hpath with
  | refl => exact ⟨root, hv⟩
  | tail _ hedge ih =>
    obtain ⟨root', hmid⟩ := ih
    exact h.edge _ root' hmid _ hedge

/-- Other successors, that are the same for closed vertices. -/
theorem Closed.transport (h : Closed succs mark) {succs' : V → List V}
    (hs : ∀ v root, mark v = .closed root → succs' v = succs v) :
    (∀ v root other, mark v = .closed root →
      (Path succs' v other ↔ Path succs v other)) ∧ Closed succs' mark := by
  have hpath : ∀ v root other, mark v = .closed root →
      (Path succs' v other ↔ Path succs v other) := by
    intro v root other hv
    constructor
    · intro hpath
      induction hpath with
      | refl => exact .refl
      | tail _ hedge ih =>
        obtain ⟨root', hmid⟩ := h.path hv ih
        rw [hs _ root' hmid] at hedge
        exact ih.tail hedge
    · intro hpath
      induction hpath with
      | refl => exact .refl
      | tail hb hedge ih =>
        obtain ⟨root', hmid⟩ := h.path hv hb
        rw [← hs _ root' hmid] at hedge
        exact ih.tail hedge
  refine ⟨hpath, ?_, ?_, ?_⟩
  · intro v root hv successor hsucc
    rw [hs v root hv] at hsucc
    exact h.edge v root hv successor hsucc
  · intro v root hv
    obtain ⟨hroot, hto, hfrom⟩ := h.root v root hv
    exact ⟨hroot, (hpath _ _ _ hv).mpr hto, (hpath _ _ _ hroot).mpr hfrom⟩
  · intro v root other root' hv ho hto hfrom
    exact h.unique v root other root' hv ho ((hpath _ _ _ hv).mp hto) ((hpath _ _ _ ho).mp hfrom)

/-- Closed vertices have one root exactly when they reach each other. -/
theorem Closed.root_eq_iff (h : Closed succs mark) {root root' : V} (hv : mark v = .closed root) (ho
    : mark other = .closed root') : root = root' ↔ Path succs v other ∧ Path succs other v := by
  constructor
  · rintro rfl
    obtain ⟨-, hvertexRoot, hrootVertex⟩ := h.root v root hv
    obtain ⟨-, hotherRoot, hrootOther⟩ := h.root other root ho
    exact ⟨hvertexRoot.trans hrootOther, hotherRoot.trans hrootVertex⟩
  · rintro ⟨hto, hfrom⟩
    exact h.unique v root other root' hv ho hto hfrom

/-- Marks that agree but for the indices of open vertices. -/
theorem Reported.congr (h : Reported succs initial root search)
    (hwhite : ∀ v, mark v = .white ↔ search.mark v = .white)
    (hcl : ∀ v root, mark v = .closed root ↔ search.mark v = .closed root)
    (huntouched : ∀ v, v ∉ search.touched → mark v = search.mark v)
    (frames : List (SearchFrame V)) :
    Reported succs initial root { search with mark := mark, frames := frames } where
  closed := h.closed.congr hcl
  touched_nodup := h.touched_nodup
  touched_iff := by
    intro v
    rw [h.touched_iff v, Ne, Ne, hwhite]
  untouched := fun v hv => (huntouched v hv).trans (h.untouched v hv)
  touched_reached := h.touched_reached
  root_touched := h.root_touched
  component_closed := by
    intro component hcomp
    obtain ⟨root', hroot', hmark, hall⟩ := h.component_closed component hcomp
    exact ⟨root', hroot', (hcl _ _).mpr hmark, fun v =>
      (hall v).trans (hcl v root').symm⟩
  component_of_closed := by
    intro v hv root' hmark
    exact h.component_of_closed v hv root' ((hcl _ _).mp hmark)
  components_nodup := h.components_nodup
  components_sorted := h.components_sorted

/-- An open vertex was touched by the search, if none was open before. -/
theorem Sound.mem_touched (h : Sound succs initial root search)
    (hinit : ∀ v idx low, initial v ≠ .opened idx low)
    (hv : v ∈ search.stack) : v ∈ search.touched := by
  obtain ⟨idx, low, hop⟩ := (h.nested.opened v).mp hv
  by_contra hnot
  rw [h.reported.untouched v hnot] at hop
  exact hinit v idx low hop

section Steps

variable [DecidableEq V]

variable {v : V}

variable {child : V}

theorem Sound.lowered (h : Sound succs initial root search) (hinit : ∀ v idx low, initial v ≠
    .opened idx low) (hv : v ∈ search.stack) (frames : List (SearchFrame V)) :
    Reported succs initial root
      { search with mark := lower search.mark v child, frames := frames } :=
  h.reported.congr (fun _ => lower_eq_white) (fun _ _ => lower_eq_closed)
    (fun _ ho => lower_of_ne fun heq => ho (heq ▸ h.mem_touched hinit hv)) frames

theorem Reported.entered (h : Reported succs initial root search) {frames : List (SearchFrame V)}
    {idx : Nat} (hv : v ∈ search.touched) (hedge : child ∈ succs v) (hchild : search.mark child =
    .white) :
    Reported succs initial root
      { search with
        mark := Function.update search.mark child (.opened idx idx)
        next := idx + 1
        frames := frames
        stack := child :: search.stack
        touched := child :: search.touched } := by
  have hfr : child ∉ search.touched := fun hm => ((h.touched_iff child).mp hm).2 hchild
  have hself : update search.mark child (.opened idx idx) child = .opened idx idx :=
    update_self _ _ _
  have hmark : ∀ other, other ≠ child →
      update search.mark child (.opened idx idx) other = search.mark other :=
    fun _ ho => update_of_ne ho _ _
  have hcl : ∀ other root, update search.mark child (.opened idx idx) other =
      .closed root ↔ search.mark other = .closed root := by
    intro other root
    by_cases ho : other = child
    · subst ho
      rw [hself, hchild]
      constructor <;> intro heq <;> cases heq
    · rw [hmark other ho]
  exact
    { closed := h.closed.congr hcl
      touched_nodup := nodup_cons.mpr ⟨hfr, h.touched_nodup⟩
      touched_iff := by
        intro other
        by_cases ho : other = child
        · subst ho
          refine ⟨fun _ => ⟨?_, ?_⟩, fun _ => mem_cons_self⟩
          · rw [← h.untouched other hfr]
            exact hchild
          · dsimp only
            rw [hself]
            exact fun heq => nomatch heq
        · dsimp only
          rw [hmark other ho, mem_cons]
          exact (or_iff_right ho).trans (h.touched_iff other)
      untouched := by
        intro other ho
        rw [mem_cons, not_or] at ho
        exact (hmark other ho.1).trans (h.untouched other ho.2)
      touched_reached := by
        intro other ho
        rcases mem_cons.mp ho with rfl | ho
        · exact (h.touched_reached v hv).tail hedge
        · exact h.touched_reached other ho
      root_touched := mem_cons_of_mem _ h.root_touched
      component_closed := by
        intro component hcomp
        obtain ⟨root', hroot', hmark', hall⟩ := h.component_closed component hcomp
        exact ⟨root', mem_cons_of_mem _ hroot', (hcl _ _).mpr hmark', fun other =>
          (hall other).trans (hcl other root').symm⟩
      component_of_closed := by
        intro other ho root' hmark'
        have hold := (hcl _ _).mp hmark'
        rcases mem_cons.mp ho with rfl | ho
        · rw [hchild] at hold
          cases hold
        · exact h.component_of_closed other ho root' hold
      components_nodup := h.components_nodup
      components_sorted := h.components_sorted }

theorem Sound.completed (h : Sound succs initial root search)
    (hinit : ∀ v idx low, initial v ≠ .opened idx low) {below : List (SearchFrame V)}
    {members remaining : List V} (hcompl : Completes search v below members remaining) :
    Reported succs initial root
      { search with
        mark := close search.mark (members ++ [v]) v
        frames := below
        stack := remaining
        components := search.components ++ [members ++ [v]] } := by
  have hnested := h.nested
  have hreported := h.reported
  have hmember : ∀ {other}, other ∈ members ++ [v] →
      close search.mark (members ++ [v]) v other = .closed v := fun hm => if_pos hm
  have ho : ∀ {other}, other ∉ members ++ [v] →
      close search.mark (members ++ [v]) v other = search.mark other := fun hm => if_neg hm
  have hopen : ∀ {other root}, other ∈ members ++ [v] → search.mark other ≠ .closed root := by
    intro other root hm hcl
    obtain ⟨idx, low, hop⟩ := (hnested.opened other).mp (hcompl.mem_stack hm)
    rw [hcl] at hop
    cases hop
  have hv : v ∈ members ++ [v] := mem_append_right _ (mem_singleton_self _)
  have hold : ∀ {other root}, search.mark other = .closed root →
      close search.mark (members ++ [v]) v other = .closed root := by
    intro other root hcl
    rw [ho fun hm => hopen hm hcl]
    exact hcl
  have hm : ∀ {other}, other ∈ members ++ [v] ↔
      close search.mark (members ++ [v]) v other = .closed v := by
    intro other
    refine ⟨hmember, fun hcl => ?_⟩
    by_contra hnot
    rw [ho hnot] at hcl
    exact hopen hv (hreported.closed.root other v hcl).1
  have hcl : Closed succs (close search.mark (members ++ [v]) v) :=
    { edge := by
        intro other root ho' successor hsucc
        by_cases hin : other ∈ members ++ [v]
        · rcases hcompl.edge hnested hin hsucc with hsucc | ⟨root', hroot'⟩
          · exact ⟨v, hmember hsucc⟩
          · exact ⟨root', hold hroot'⟩
        · rw [ho hin] at ho'
          obtain ⟨root', hroot'⟩ := hreported.closed.edge other root ho' successor hsucc
          exact ⟨root', hold hroot'⟩
      root := by
        intro other root ho'
        by_cases hin : other ∈ members ++ [v]
        · rw [hmember hin] at ho'
          cases ho'
          obtain ⟨hto, hfrom⟩ := hcompl.paths hnested hin
          exact ⟨hmember hv, hfrom, hto⟩
        · rw [ho hin] at ho'
          obtain ⟨hroot, hpaths⟩ := hreported.closed.root other root ho'
          exact ⟨hold hroot, hpaths⟩
      unique := by
        intro one root two root' hone htwo hto hfrom
        by_cases hinOne : one ∈ members ++ [v]
        · by_cases hinTwo : two ∈ members ++ [v]
          · rw [hmember hinOne] at hone
            rw [hmember hinTwo] at htwo
            cases hone
            cases htwo
            rfl
          · rw [ho hinTwo] at htwo
            obtain ⟨root'', hclosedOne⟩ := hreported.closed.path htwo hfrom
            exact absurd hclosedOne (hopen hinOne)
        · rw [ho hinOne] at hone
          by_cases hinTwo : two ∈ members ++ [v]
          · obtain ⟨root'', hclosedTwo⟩ := hreported.closed.path hone hto
            exact absurd hclosedTwo (hopen hinTwo)
          · rw [ho hinTwo] at htwo
            exact hreported.closed.unique one root two root' hone htwo hto hfrom }
  have htou : ∀ {other}, other ∈ members ++ [v] → other ∈ search.touched := fun hin =>
    h.mem_touched hinit (hcompl.mem_stack hin)
  exact
    { closed := hcl
      touched_nodup := hreported.touched_nodup
      touched_iff := by
        intro other
        dsimp only
        by_cases hin : other ∈ members ++ [v]
        · rw [hmember hin]
          refine ⟨fun hm' => ⟨((hreported.touched_iff other).mp hm').1, fun heq => nomatch heq⟩,
            fun _ => htou hin⟩
        · rw [ho hin]
          exact hreported.touched_iff other
      untouched := by
        intro other hnot
        dsimp only
        rw [ho fun hin => hnot (htou hin)]
        exact hreported.untouched other hnot
      touched_reached := hreported.touched_reached
      root_touched := hreported.root_touched
      component_closed := by
        intro component hcomp
        rcases mem_append.mp hcomp with hcomp | hcomp
        · obtain ⟨root', hroot', hmark, hall⟩ := hreported.component_closed component hcomp
          refine ⟨root', hroot', hold hmark, fun other => (hall other).trans ⟨hold, fun hcl' => ?_⟩⟩
          by_cases hin : other ∈ members ++ [v]
          · dsimp only at hcl'
            rw [hmember hin] at hcl'
            cases hcl'
            exact absurd hmark (hopen hv)
          · exact (ho hin).symm.trans hcl'
        · rw [mem_singleton.mp hcomp]
          exact ⟨v, htou hv, hmember hv, fun other => hm⟩
      component_of_closed := by
        intro other htou' root' hmark
        dsimp only at hmark ⊢
        rw [flatten_append, mem_append, flatten_singleton]
        by_cases hin : other ∈ members ++ [v]
        · exact .inr hin
        · rw [ho hin] at hmark
          exact .inl (hreported.component_of_closed other htou' root' hmark)
      components_nodup := by
        rw [flatten_append, flatten_singleton, nodup_append']
        refine ⟨hreported.components_nodup, ?_, ?_⟩
        · have hstack : search.stack.Nodup := hnested.stack_sorted.imp fun hlt heq => by
            rw [heq] at hlt
            exact lt_irrefl _ hlt
          rw [hcompl.stack, append_cons] at hstack
          exact (nodup_append'.mp hstack).1
        · intro other hin hin'
          obtain ⟨component, hcomp, ho'⟩ := mem_flatten.mp hin
          obtain ⟨root', -, -, hall⟩ := hreported.component_closed component hcomp
          exact hopen hin' ((hall other).mp ho')
      components_sorted := by
        refine pairwise_append.mpr ⟨hreported.components_sorted, pairwise_singleton _ _, ?_⟩
        intro component hcomp last hl other ho' successor hsucc hin
        rw [mem_singleton.mp hl] at hin
        obtain ⟨root', -, -, hall⟩ := hreported.component_closed component hcomp
        obtain ⟨root'', hcl'⟩ :=
          hreported.closed.edge other root' ((hall other).mp ho') successor hsucc
        exact hopen hin hcl' }

/-! ## Runs -/

theorem sound_start (hinit : ∀ v idx low, initial v ≠ .opened idx low)
    (hcl : Closed succs initial) (hroot : initial root = .white) :
    Sound succs initial root (start succs initial root) := by
  have hself : (start succs initial root).mark root = .opened 0 0 := update_self _ _ _
  have hmark : ∀ other, other ≠ root → (start succs initial root).mark other = initial other :=
    fun other ho => update_of_ne ho _ _
  have hstack : ∀ {other}, other ∈ (start succs initial root).stack → other = root :=
    fun ho => mem_singleton.mp ho
  have hfr : ∀ {frame}, frame ∈ (start succs initial root).frames →
      frame = ⟨root, succs root, none⟩ := fun hm => mem_singleton.mp hm
  have hl : ∀ {other}, other ∈ (start succs initial root).stack →
      ¬ ∀ frame ∈ (start succs initial root).frames, frame.vertex ≠ other := by
    intro other ho hall
    exact hall ⟨root, succs root, none⟩ (mem_singleton_self _) (hstack ho).symm
  refine ⟨?_, ?_⟩
  · exact
      { opened := by
          intro other
          by_cases ho : other = root
          · subst ho
            exact ⟨fun _ => ⟨0, 0, hself⟩, fun _ => mem_singleton_self _⟩
          · refine ⟨fun hm => absurd (hstack hm) ho, ?_⟩
            rintro ⟨idx, low, hop⟩
            rw [hmark other ho] at hop
            exact absurd hop (hinit other idx low)
        index_lt := by
          intro other ho
          obtain rfl := hstack ho
          rw [Search.index, hself]
          exact Nat.one_pos
        low_le := by
          intro other ho
          obtain rfl := hstack ho
          rw [Search.index, Search.low, hself]
          exact le_rfl
        stack_sorted := pairwise_singleton _ _
        frames_stack := by
          intro frame hm
          obtain rfl := hfr hm
          exact mem_singleton_self _
        frames_sorted := pairwise_singleton _ _
        frames_waiting := isChain_singleton _
        frames_pending := by
          intro frame hm child hchild
          obtain rfl := hfr hm
          cases hchild
        frames_covered := by
          intro frame hm
          obtain rfl := hfr hm
          exact ⟨[], rfl, fun successor hsucc => absurd hsucc not_mem_nil⟩
        left_covered := fun other ho hall => absurd hall (hl ho)
        low_reached := by
          intro other ho
          obtain rfl := hstack ho
          refine ⟨other, mem_singleton_self _, ?_, .refl⟩
          rw [Search.index, Search.low, hself]
          rfl
        left_parent := fun other ho hall => absurd hall (hl ho) }
  · exact
      { closed := by
          refine hcl.congr fun other root' => ?_
          by_cases ho : other = root
          · subst ho
            rw [hself, hroot]
            constructor <;> intro heq <;> cases heq
          · rw [hmark other ho]
        touched_nodup := nodup_singleton _
        touched_iff := by
          intro other
          by_cases ho : other = root
          · subst ho
            refine ⟨fun _ => ⟨hroot, ?_⟩, fun _ => mem_singleton_self _⟩
            rw [hself]
            exact fun heq => by cases heq
          · refine ⟨fun hm => absurd (mem_singleton.mp hm) ho, ?_⟩
            rintro ⟨hwhite, hnot⟩
            rw [hmark other ho] at hnot
            exact absurd hwhite hnot
        untouched := fun other ho => hmark other fun heq => ho (mem_singleton.mpr heq)
        touched_reached := by
          intro other ho
          obtain rfl := mem_singleton.mp ho
          exact .refl
        root_touched := mem_singleton_self _
        component_closed := fun component hcomp => absurd hcomp not_mem_nil
        component_of_closed := by
          intro other ho root' hmark'
          obtain rfl := mem_singleton.mp ho
          rw [hself] at hmark'
          cases hmark'
        components_nodup := nodup_nil
        components_sorted := List.Pairwise.nil }

variable {next : Search V}

theorem Step.sound (hstep : Step succs search next) (hinit : ∀ v idx low, initial v ≠ .opened idx
    low) (h : Sound succs initial root search) : Sound succs initial root next := by
  cases hstep with
  | @settle v child rest below hfs =>
    have htop : (⟨v, rest, some child⟩ : SearchFrame V) ∈ search.frames := by
      rw [hfs]
      exact mem_cons_self
    obtain ⟨hedge, hwhite⟩ := h.nested.frames_pending _ htop child rfl
    obtain ⟨seen, heq, hseen⟩ := h.nested.frames_covered _ htop
    refine ⟨h.nested.lowered hfs hedge hwhite (fun other ho => ?_) ⟨seen, heq, ?_⟩,
      h.lowered hinit (h.nested.frames_stack _ htop) _⟩
    · exact (Option.some.inj ho).symm
    · intro successor hsucc hne
      obtain ⟨hnot, hle⟩ := hseen successor hsucc
      exact ⟨hnot, hle fun hsome => hne (Option.some.inj hsome).symm⟩
  | @visit v child rest below hfs hwhite =>
    have htop : (⟨v, child :: rest, none⟩ : SearchFrame V) ∈ search.frames := by
      rw [hfs]
      exact mem_cons_self
    obtain ⟨seen, heq, hseen⟩ := h.nested.frames_covered _ htop
    have hedge : child ∈ succs v := by
      rw [heq]
      exact mem_append_right _ mem_cons_self
    refine ⟨h.nested.lowered hfs hedge hwhite (fun other ho => nomatch ho)
      ⟨seen ++ [child], ?_, ?_⟩, h.lowered hinit (h.nested.frames_stack _ htop) _⟩
    · rw [append_assoc]
      exact heq
    · intro successor hsucc hne
      rcases mem_append.mp hsucc with hsucc | hsucc
      · obtain ⟨hnot, hle⟩ := hseen successor hsucc
        exact ⟨hnot, hle fun hn => nomatch hn⟩
      · exact absurd (mem_singleton.mp hsucc) hne
  | @enter v child rest below hfs hwhite =>
    have htop : (⟨v, child :: rest, none⟩ : SearchFrame V) ∈ search.frames := by
      rw [hfs]
      exact mem_cons_self
    obtain ⟨seen, heq, -⟩ := h.nested.frames_covered _ htop
    have hedge : child ∈ succs v := by
      rw [heq]
      exact mem_append_right _ mem_cons_self
    have hv := h.mem_touched hinit (h.nested.frames_stack _ htop)
    exact ⟨h.nested.entered hwhite hfs, h.reported.entered hv hedge hwhite⟩
  | @leave v below idx low hfs hmark hne =>
    have hidx : search.index v ≠ search.low v := by
      rw [Search.index, Search.low, hmark]
      exact hne
    refine ⟨h.nested.left hfs hidx, ?_⟩
    exact h.reported.congr (fun _ => Iff.rfl) (fun _ _ => Iff.rfl) (fun _ _ => rfl) below
  | @complete v below idx members remaining hfs hmark hstack =>
    have hcompl : Completes search v below members remaining := by
      refine ⟨hfs, ?_, hstack⟩
      rw [Search.index, Search.low, hmark]
      rfl
    exact ⟨h.nested.completed hcompl, h.completed hinit hcompl⟩

/-- The work that is left in a frame. -/
def SearchFrame.weight (frame : SearchFrame V) : Nat :=
  2 * frame.rest.length + (if frame.pending.isSome then 1 else 0) + 1

/-- The vertices that are left, and the work that is left in the frames. -/
def Search.rank (search : Search V) (bound : Nat) : Nat × Nat :=
  (bound - search.touched.length, (search.frames.map SearchFrame.weight).sum)

theorem Step.rank_lt (hstep : Step succs search next) {bound : Nat} (hbound : next.touched.length ≤
    bound) : Prod.Lex (· < ·) (· < ·) (next.rank bound) (search.rank bound) := by
  cases hstep with
  | settle hfs | visit hfs hwhite =>
    refine Prod.Lex.right _ ?_
    rw [hfs, map_cons, map_cons]
    simp [SearchFrame.weight]
  | enter hfs hwhite =>
    refine Prod.Lex.left _ _ ?_
    rw [Search.enter, length_cons] at hbound ⊢
    omega
  | leave hfs hmark hne | complete hfs hmark hstack =>
    refine Prod.Lex.right _ ?_
    rw [hfs, map_cons]
    simp [SearchFrame.weight]

end Steps

/-! ## The end of a search -/

theorem Sound.stack_nil (h : Sound succs initial root search) (hfs : search.frames = []) :
    search.stack = [] := by
  rw [eq_nil_iff_forall_not_mem]
  intro v hv
  obtain ⟨frame, hfr, -⟩ := h.nested.exists_frame hv
  rw [hfs] at hfr
  cases hfr

/-- A search without frames has closed what its root reaches. -/
theorem Sound.closed_of_path (h : Sound succs initial root search) (hfs : search.frames = [])
    (hpath : Path succs root v) : ∃ root', search.mark v = .closed root' := by
  have hroot : ∃ root', search.mark root = .closed root' := by
    cases hmark : search.mark root with
    | white => exact absurd hmark ((h.reported.touched_iff root).mp h.reported.root_touched).2
    | opened idx low =>
      have hm := (h.nested.opened root).mpr ⟨idx, low, hmark⟩
      rw [h.stack_nil hfs] at hm
      cases hm
    | closed root' => exact ⟨root', rfl⟩
  obtain ⟨root', hroot'⟩ := hroot
  exact h.reported.closed.path hroot' hpath

end TachyonEngine.Lib.Components
