import Mathlib

/-!
# Cursor loops: bitmap scans and intrusive chains

Two loops that follow a cursor through a state they may change. `scan` asks for the
item of the next set bit at or after the cursor; `walk` follows the `next` links of
an intrusive chain. Both read the cursor from the current state, so a
body could disturb them. `scan_eq_foldUntil` and `walk_eq_foldUntil` say that a
body which leaves the rest of the way alone is run over a list fixed in advance:
the set bits in increasing order, the chain from head to tail.

`Links` is the store of an intrusive chain with a membership flag for every
node. `Links.link` puts a node in front of the chain and a fold of `Links.relink`
rebuilds it from the nodes to keep; both keep the flags equal to membership
(`Links.Linked.link`, `Links.foldl_relink`).
-/

namespace TachyonEngine.Lib.Traversal

open List

universe u v

variable {σ : Type u} {ι : Type v}

/-! ## Folds that stop -/

/-- A left fold whose body is skipped from the first stopped state on. -/
def foldUntil (stop : σ → Bool) (body : σ → ι → σ) : List ι → σ → σ
  | [], s => s
  | a :: l, s => if stop s then s else foldUntil stop body l (body s a)

section FoldUntil

variable {stop : σ → Bool} {body : σ → ι → σ}

variable {l : List ι} {s : σ}

/-- A fold keeps what every step of it keeps. -/
theorem foldUntil_induction (P : σ → Prop) (h0 : P s) (hstep : ∀ s a, a ∈ l → stop s = false → P s →
    P (body s a)) : P (foldUntil stop body l s) := by
  induction l generalizing s with
  | nil => exact h0
  | cons a l ih =>
    simp only [foldUntil]
    cases hstop : stop s with
    | true => exact h0
    | false =>
      apply ih
      · exact hstep s a (mem_cons_self ..) hstop h0
      · intro s b hb hs hP
        exact hstep s b (mem_cons_of_mem _ hb) hs hP

theorem foldUntil_stopped (hs : stop s = true) : foldUntil stop body l s = s := by
  cases l with
  | nil => rfl
  | cons a l => simp [foldUntil, hs]

/-- A fold that is not stopped at its end was not stopped at its start. -/
theorem stop_of_foldUntil (hend : stop (foldUntil stop body l s) = false) : stop s = false := by
  cases hs : stop s with
  | false => rfl
  | true => rw [foldUntil_stopped hs, hs] at hend; cases hend

theorem foldUntil_cons_of_end {a : ι} (hend : stop (foldUntil stop body (a :: l) s) = false) :
    stop s = false ∧ stop (body s a) = false ∧
      foldUntil stop body (a :: l) s = foldUntil stop body l (body s a) := by
  have hs : stop s = false := stop_of_foldUntil hend
  have heq : foldUntil stop body (a :: l) s = foldUntil stop body l (body s a) := by
    simp [foldUntil, hs]
  rw [heq] at hend
  exact ⟨hs, stop_of_foldUntil hend, heq⟩

/-- In a fold that is not stopped at its end no step is stopped before or after. -/
theorem foldUntil_run (P : σ → Prop) (hend : stop (foldUntil stop body l s) = false) (h0 : P s)
    (hstep : ∀ s a, a ∈ l → stop s = false → stop (body s a) = false → P s → P (body s a)) :
    P (foldUntil stop body l s) := by
  induction l generalizing s with
  | nil => exact h0
  | cons a l ih =>
    obtain ⟨hs, ha, heq⟩ := foldUntil_cons_of_end hend
    rw [heq] at hend ⊢
    apply ih hend
    · exact hstep s a (mem_cons_self ..) hs ha h0
    · intro s' b hb
      exact hstep s' b (mem_cons_of_mem _ hb)

/-- A fold that is not stopped at its end has run every element: what the step of
an element establishes and the other steps keep holds at the end. -/
theorem foldUntil_forall (P : σ → Prop) (Q : ι → σ → Prop) (hend : stop (foldUntil stop body l s) =
    false) (h0 : P s) (hstep : ∀ s a, a ∈ l → stop s = false → stop (body s a) = false → P s → P
    (body s a)) (hgives : ∀ s a, a ∈ l → stop s = false → stop (body s a) = false → P s → Q a (body
    s a)) (hkeeps : ∀ s a b, b ∈ l → stop s = false → stop (body s b) = false → P s → Q a s → Q a
    (body s b)) : ∀ a ∈ l, Q a (foldUntil stop body l s) := by
  induction l generalizing s with
  | nil => intro a ha; cases ha
  | cons b l ih =>
    obtain ⟨hs, hb, heq⟩ := foldUntil_cons_of_end hend
    rw [heq] at hend ⊢
    have hP : P (body s b) := hstep s b (mem_cons_self ..) hs hb h0
    intro a ha
    rcases mem_cons.mp ha with rfl | ha
    · have hQ : Q a (body s a) := hgives s a (mem_cons_self ..) hs hb h0
      refine (foldUntil_run (fun s => P s ∧ Q a s) hend ⟨hP, hQ⟩ ?_).2
      intro s' c hc hs' hc' hPQ
      have hm := mem_cons_of_mem a hc
      exact ⟨hstep s' c hm hs' hc' hPQ.1, hkeeps s' a c hm hs' hc' hPQ.1 hPQ.2⟩
    · apply ih hend hP
      · intro s' c hc
        exact hstep s' c (mem_cons_of_mem _ hc)
      · intro s' c hc
        exact hgives s' c (mem_cons_of_mem _ hc)
      · intro s' c d hd
        exact hkeeps s' c d (mem_cons_of_mem _ hd)
      · exact ha

end FoldUntil

/-! ## Bitmap scans -/

section Bits

variable {n : Nat}

/-- The least set bit at or after a position. -/
def nextSet (bits : Finset (Fin n)) (start : Nat) : Option (Fin n) :=
  (bits.filter fun i => start ≤ i.val).min

variable {bits : Finset (Fin n)} {start : Nat}

theorem nextSet_eq_none : nextSet bits start = none ↔ ∀ i ∈ bits, i.val < start := by
  have h : nextSet bits start = none ↔ bits.filter (fun i => start ≤ i.val) = ∅ := Finset.min_eq_top
  rw [h, Finset.filter_eq_empty_iff]
  constructor
  · intro hn i hi
    exact Nat.lt_of_not_le (hn hi)
  · intro hlt i hi
    exact Nat.not_le_of_lt (hlt i hi)

variable {i : Fin n}

theorem nextSet_facts (h : nextSet bits start = some i) :
    i ∈ bits ∧ start ≤ i.val ∧ ∀ j ∈ bits, start ≤ j.val → i ≤ j := by
  have hmin : (bits.filter fun i => start ≤ i.val).min = (i : WithTop (Fin n)) := h
  have hm := Finset.mem_of_min hmin
  rw [Finset.mem_filter] at hm
  refine ⟨hm.1, hm.2, ?_⟩
  intro j hj hst
  exact Finset.min_le_of_eq (Finset.mem_filter.mpr ⟨hj, hst⟩) hmin

/-- The least set bit is characterised by its position. -/
theorem nextSet_eq_some (hi : i ∈ bits) (hst : start ≤ i.val) (hleast : ∀ j ∈ bits, start ≤ j.val →
    i ≤ j) : nextSet bits start = some i := by
  cases hf : nextSet bits start with
  | none => exact absurd hst (Nat.not_le_of_lt (nextSet_eq_none.mp hf i hi))
  | some j =>
    obtain ⟨hj, hjstart, hjleast⟩ := nextSet_facts hf
    rw [le_antisymm (hjleast i hi hst) (hleast j hj hjstart)]

/-- Looking for a bit with a property: the first set bit, or one behind it. -/
theorem nextSet_filter {p : Fin n → Prop} [DecidablePred p] (h : nextSet bits start = some i) :
    nextSet (bits.filter p) start =
      if p i then some i else nextSet (bits.filter p) (i.val + 1) := by
  obtain ⟨hi, hst, hleast⟩ := nextSet_facts h
  by_cases hp : p i
  · rw [if_pos hp]
    refine nextSet_eq_some (Finset.mem_filter.mpr ⟨hi, hp⟩) hst ?_
    intro j hj
    exact hleast j (Finset.mem_filter.mp hj).1
  · rw [if_neg hp]
    -- Bits with the property are not the first one, so they lie behind it.
    have hbehind : ∀ j ∈ bits.filter p, start ≤ j.val → i.val + 1 ≤ j.val := by
      intro j hj hjstart
      obtain ⟨hj, hpj⟩ := Finset.mem_filter.mp hj
      have hne : i ≠ j := by
        rintro rfl
        exact hp hpj
      exact Fin.lt_def.mp (lt_of_le_of_ne (hleast j hj hjstart) hne)
    cases hrest : nextSet (bits.filter p) (i.val + 1) with
    | none =>
      rw [nextSet_eq_none] at hrest ⊢
      intro j hj
      by_contra hge
      have := hbehind j hj (Nat.le_of_not_lt hge)
      have := hrest j hj
      omega
    | some j =>
      obtain ⟨hj, hjstart, hjleast⟩ := nextSet_facts hrest
      refine nextSet_eq_some hj (by omega) ?_
      intro k hk hkstart
      exact hjleast k hk (hbehind k hk hkstart)

end Bits

section Scan

variable {n : Nat} {next : σ → Nat → Option ι} {post : σ → ι → Option Nat} {stop : σ → Bool}
variable {body : σ → ι → σ}

/-- Visits the items that `next` finds from a cursor on; `after` is the cursor behind
an item. -/
def scan (next : σ → Nat → Option ι) (post : σ → ι → Option Nat) (stop : σ → Bool)
    (body : σ → ι → σ) : Nat → Nat → σ → σ
  | 0, _, s => s
  | fuel + 1, start, s =>
    if stop s then s
    else
      match next s start with
      | none => s
      | some a =>
        match post (body s a) a with
        | none => body s a
        | some start' => scan next post stop body fuel start' (body s a)

variable {fuel start : Nat}

/-- What every visited item keeps, the scan keeps. -/
theorem scan_induction (P : σ → Prop) {s : σ} (h0 : P s) (hstep : ∀ s start a, P s → stop s = false
    → next s start = some a → P (body s a)) : P (scan next post stop body fuel start s) := by
  induction fuel generalizing start s with
  | zero => exact h0
  | succ fuel ih =>
    simp only [scan]
    cases hstop : stop s with
    | true => exact h0
    | false =>
      cases hn : next s start with
      | none => exact h0
      | some a =>
        have ha := hstep s start a h0 hstop hn
        simp only
        cases post (body s a) a with
        | none => exact ha
        | some start' => exact ih ha

/-- A scan over the items of the set bits of a bitmap. A body that keeps the bits
behind the one it is given is run over the set bits in increasing order. -/
theorem scan_eq_foldUntil (P : σ → Prop) (bits : σ → Finset (Fin n)) (item : Fin n → ι) (hn : ∀ s
    start, P s → next s start = (nextSet (bits s) start).map item) (ha : ∀ s i, P s → i ∈ bits s →
    post (body s (item i)) (item i) = some (i.val + 1)) (hbody : ∀ s i, P s → i ∈ bits s → P (body s
    (item i)) ∧ ∀ j, i < j → (j ∈ bits (body s (item i)) ↔ j ∈ bits s)) (hfuel : n < fuel + start)
    {s : σ} (hs : P s) :
    ∃ l : List (Fin n), l.Pairwise (· < ·) ∧ (∀ i, i ∈ l ↔ i ∈ bits s ∧ start ≤ i.val) ∧
      scan next post stop body fuel start s = foldUntil stop body (l.map item) s := by
  induction fuel generalizing start s with
  | zero =>
    refine ⟨[], List.Pairwise.nil, ?_, rfl⟩
    intro i
    simp only [not_mem_nil, false_iff]
    omega
  | succ fuel ih =>
    cases hf : nextSet (bits s) start with
    | none =>
      refine ⟨[], List.Pairwise.nil, ?_, ?_⟩
      · intro i
        simp only [not_mem_nil, false_iff, not_and, not_le]
        exact nextSet_eq_none.mp hf i
      · simp [scan, hn s start hs, hf, foldUntil]
    | some i =>
      obtain ⟨hi, hst, hleast⟩ := nextSet_facts hf
      obtain ⟨hs', hkeep⟩ := hbody s i hs hi
      have hfuel' : n < fuel + (i.val + 1) := by omega
      obtain ⟨l, hsort, hm, heq⟩ := ih hfuel' hs'
      have hbehind : ∀ j ∈ l, i < j := by
        intro j hj
        exact Fin.lt_def.mpr ((hm j).mp hj).2
      refine ⟨i :: l, pairwise_cons.mpr ⟨hbehind, hsort⟩, ?_, ?_⟩
      · intro j
        rw [mem_cons, hm]
        constructor
        · rintro (rfl | ⟨hj, hij⟩)
          · exact ⟨hi, hst⟩
          · exact ⟨(hkeep j (Fin.lt_def.mpr hij)).mp hj, by omega⟩
        · rintro ⟨hj, hjs⟩
          rcases eq_or_lt_of_le (hleast j hj hjs) with heq | hlt
          · exact Or.inl heq.symm
          · exact Or.inr ⟨(hkeep j hlt).mpr hj, Fin.lt_def.mp hlt⟩
      · simp only [scan, foldUntil, map_cons, hn s start hs, hf, Option.map_some, ha s i hs hi]
        rw [heq]

end Scan

/-! ## Chains -/

/-- The list of nodes from a head along the `next` links. -/
inductive Chain (next : ι → Option ι) : Option ι → List ι → Prop where
  | nil : Chain next none []
  | cons {a : ι} {l : List ι} (tail : Chain next (next a) l) : Chain next (some a) (a :: l)

namespace Chain

variable {next next' : ι → Option ι} {head : Option ι} {l l' : List ι} {a : ι}

theorem unique (h : Chain next head l) (h' : Chain next head l') : l = l' := by
  induction h generalizing l' with
  | nil => cases h'; rfl
  | cons _ ih =>
    cases h' with
    | cons tail' => rw [ih tail']

theorem suffix_of_mem (h : Chain next head l) (ha : a ∈ l) :
    ∃ l', Chain next (some a) (a :: l') ∧ l'.length < l.length := by
  induction h with
  | nil => cases ha
  | @cons b l tail ih =>
    rcases mem_cons.mp ha with rfl | ha
    · exact ⟨l, .cons tail, by simp⟩
    · obtain ⟨l', hchain, hlen⟩ := ih ha
      exact ⟨l', hchain, Nat.lt_succ_of_lt hlen⟩

/-- A chain that ends never meets a node twice. -/
theorem nodup (h : Chain next head l) : l.Nodup := by
  induction h with
  | nil => exact nodup_nil
  | @cons a l tail ih =>
    refine nodup_cons.mpr ⟨?_, ih⟩
    intro ha
    obtain ⟨l', hchain, hlen⟩ := tail.suffix_of_mem ha
    cases hchain with
    | cons tail' =>
      have := tail.unique tail'
      subst this
      exact Nat.lt_irrefl _ hlen

theorem congr (h : Chain next head l) (heq : ∀ a ∈ l, next' a = next a) : Chain next' head l := by
  induction h with
  | nil => exact .nil
  | @cons a l tail ih =>
    have hn := heq a (mem_cons_self ..)
    refine .cons ?_
    rw [hn]
    exact ih fun b hb => heq b (mem_cons_of_mem _ hb)

end Chain

/-- The node is on the way from a head along the `next` links. -/
inductive OnChain (next : ι → Option ι) : Option ι → ι → Prop where
  | here (a : ι) : OnChain next (some a) a
  | there {a b : ι} (tail : OnChain next (next b) a) : OnChain next (some b) a

/-- The nodes on the way along a chain that ends. -/
theorem OnChain.mem {next : ι → Option ι} {head : Option ι} {l : List ι} {a : ι}
    (h : OnChain next head a) (hchain : Chain next head l) : a ∈ l := by
  induction h generalizing l with
  | here a =>
    cases hchain with
    | cons tail => exact mem_cons_self ..
  | there _ ih =>
    cases hchain with
    | cons tail => exact mem_cons_of_mem _ (ih tail)

/-- Follows the `next` links of the state, reading the successor before the body
runs. `none` says that the fuel ran out before the chain ended. -/
def walk (next : σ → ι → Option ι) (stop : σ → Bool) (body : σ → ι → σ) :
    Nat → Option ι → σ → Option σ
  | _, none, s => some s
  | 0, some _, _ => none
  | fuel + 1, some a, s =>
    if stop s then some s else walk next stop body fuel (next s a) (body s a)

section Walk

variable {next : σ → ι → Option ι} {stop : σ → Bool} {body : σ → ι → σ}

variable {head : Option ι} {fuel : Nat} {s : σ}

/-- A body that changes no link but that of its own node is run over the chain. -/
theorem walk_eq_foldUntil (hbody : ∀ s a b, b ≠ a → next (body s a) b = next s b) {l : List ι}
    (hchain : Chain (next s) head l) (hfuel : l.length ≤ fuel) :
    walk next stop body fuel head s = some (foldUntil stop body l s) := by
  induction l generalizing head fuel s with
  | nil => cases hchain; cases fuel <;> rfl
  | cons a l ih =>
    have hnodup := hchain.nodup
    cases hchain with
    | cons tail =>
      cases fuel with
      | zero => cases hfuel
      | succ fuel =>
        simp only [walk, foldUntil]
        cases hstop : stop s with
        | true => rfl
        | false =>
          apply ih
          · apply tail.congr
            intro b hb
            apply hbody
            rintro rfl
            exact (nodup_cons.mp hnodup).1 hb
          · exact Nat.le_of_succ_le_succ hfuel

variable {s' : σ}

/-- What every visited node keeps, a walk that returns keeps. -/
theorem walk_induction (P : σ → Prop) (hwalk : walk next stop body fuel head s = some s') (h0 : P s)
    (hstep : ∀ s a, P s → stop s = false → P (body s a)) : P s' := by
  induction fuel generalizing head s with
  | zero =>
    cases head with
    | none => cases hwalk; exact h0
    | some a => cases hwalk
  | succ fuel ih =>
    cases head with
    | none => cases hwalk; exact h0
    | some a =>
      simp only [walk] at hwalk
      cases hstop : stop s with
      | true =>
        rw [hstop] at hwalk
        cases hwalk
        exact h0
      | false =>
        rw [hstop] at hwalk
        exact ih hwalk (hstep s a h0 hstop)

/-- A walk that returns without a stop has a chain to its end, provided that no body
changes a link. -/
theorem chain_of_walk (P : σ → Prop) (hbody : ∀ s a, P s → P (body s a) ∧ next (body s a) = next s)
    (hs : P s) (hwalk : walk next stop body fuel head s = some s') (hend : stop s' = false) :
    ∃ l, Chain (next s) head l ∧ s' = foldUntil stop body l s := by
  induction fuel generalizing head s with
  | zero =>
    cases head with
    | none => cases hwalk; exact ⟨[], .nil, rfl⟩
    | some a => cases hwalk
  | succ fuel ih =>
    cases head with
    | none => cases hwalk; exact ⟨[], .nil, rfl⟩
    | some a =>
      simp only [walk] at hwalk
      cases hstop : stop s with
      | true =>
        rw [hstop] at hwalk
        cases hwalk
        rw [hstop] at hend
        cases hend
      | false =>
        rw [hstop] at hwalk
        obtain ⟨hs', hn⟩ := hbody s a hs
        obtain ⟨l, hchain, heq⟩ := ih hs' hwalk
        rw [hn] at hchain
        refine ⟨a :: l, .cons hchain, ?_⟩
        simp [foldUntil, hstop, heq]

end Walk

/-! ## Linked nodes -/

/-- The store of an intrusive chain: its head, the link of every node, and a flag
that says whether the node is in the chain. -/
structure Links (ι : Type v) where
  head : Option ι
  next : ι → Option ι
  linked : ι → Bool

namespace Links

variable {c : Links ι} {l acc : List ι}

/-- The chain is `l`, and the flags are set on its nodes and nowhere else. -/
structure Linked (c : Links ι) (l : List ι) : Prop where
  chain : Chain c.next c.head l
  mem_iff : ∀ a, c.linked a = true ↔ a ∈ l

variable [DecidableEq ι]

/-- Puts a node in front of the chain, at most once. -/
def link (c : Links ι) (a : ι) : Links ι :=
  if c.linked a then c
  else
    { head := some a
      next := Function.update c.next a c.head
      linked := Function.update c.linked a true }

/-- Takes the link and the flag of one node away. -/
def unlink (c : Links ι) (a : ι) : Links ι :=
  { c with next := Function.update c.next a none, linked := Function.update c.linked a false }

/-- Moves a node of the old chain to the new one if it is to be kept. -/
def relink (keep : ι → Bool) (c : Links ι) (a : ι) : Links ι :=
  if keep a then (c.unlink a).link a else c.unlink a

theorem chain_update {next : ι → Option ι} {head val : Option ι} {a : ι}
    (h : Chain next head l) (ha : a ∉ l) : Chain (Function.update next a val) head l := by
  apply h.congr
  intro b hb
  apply Function.update_of_ne
  rintro rfl
  exact ha hb

theorem Linked.link (h : c.Linked l) (a : ι) :
    ∃ l', (c.link a).Linked l' ∧ ∀ b, b ∈ l' ↔ b = a ∨ b ∈ l := by
  unfold Links.link
  cases hflag : c.linked a with
  | true =>
    refine ⟨l, h, ?_⟩
    intro b
    constructor
    · intro hb
      exact Or.inr hb
    · rintro (rfl | hb)
      · exact (h.mem_iff b).mp hflag
      · exact hb
  | false =>
    have ha : a ∉ l := by
      intro ha
      rw [(h.mem_iff a).mpr ha] at hflag
      cases hflag
    simp only [Bool.false_eq_true, if_false]
    refine ⟨a :: l, ⟨?_, ?_⟩, ?_⟩
    · refine Chain.cons ?_
      simp only [Function.update_self]
      exact chain_update h.chain ha
    · intro b
      rcases eq_or_ne b a with rfl | hne
      · simp
      · simp [h.mem_iff, hne]
    · intro b
      exact mem_cons

variable {keep : ι → Bool}

/-- One node moved while a chain is rebuilt: the new chain so far is `acc`, the
nodes still to come keep their flags. -/
theorem relink_facts {a : ι} (hchain : Chain c.next c.head acc) (hm : ∀ b, c.linked b = true ↔ b ∈
    acc ∨ b = a ∨ b ∈ l) (hacc : a ∉ acc) (hl : a ∉ l) :
    let acc' := if keep a then a :: acc else acc
    Chain (c.relink keep a).next (c.relink keep a).head acc' ∧
      ∀ b, (c.relink keep a).linked b = true ↔ b ∈ acc' ∨ b ∈ l := by
  have hcut : Chain (c.unlink a).next (c.unlink a).head acc := chain_update hchain hacc
  have hcutmem : ∀ b, (c.unlink a).linked b = true ↔ b ∈ acc ∨ b ∈ l := by
    intro b
    rcases eq_or_ne b a with rfl | hne
    · simp [unlink, hacc, hl]
    · simp [unlink, hm, hne]
  unfold relink
  cases hkeep : keep a with
  | false => exact ⟨hcut, hcutmem⟩
  | true =>
    have hflag : (c.unlink a).linked a = false := by simp [unlink]
    simp only [Links.link, hflag, Bool.false_eq_true, if_false, if_true]
    constructor
    · refine Chain.cons ?_
      simp only [Function.update_self]
      exact chain_update hcut hacc
    · intro b
      rcases eq_or_ne b a with rfl | hne
      · simp
      · simp [hcutmem, hne]

/-- Rebuilding a chain keeps exactly the nodes to keep. -/
theorem foldl_relink (hchain : Chain c.next c.head acc) (hm : ∀ b, c.linked b = true ↔ b ∈ acc ∨ b ∈
    l) (hnodup : l.Nodup) (hdisjoint : ∀ a ∈ l, a ∉ acc) :
    ∃ l', (l.foldl (relink keep) c).Linked l' ∧
      ∀ b, b ∈ l' ↔ b ∈ acc ∨ (b ∈ l ∧ keep b = true) := by
  induction l generalizing c acc with
  | nil =>
    refine ⟨acc, ⟨hchain, ?_⟩, ?_⟩
    · simpa using hm
    · simp
  | cons a l ih =>
    obtain ⟨hal, hnodup⟩ := nodup_cons.mp hnodup
    have haacc : a ∉ acc := hdisjoint a (mem_cons_self ..)
    have hmema : ∀ b, c.linked b = true ↔ b ∈ acc ∨ b = a ∨ b ∈ l := by
      intro b
      rw [hm, mem_cons]
    obtain ⟨hchain', hm'⟩ := @relink_facts _ _ _ _ _ keep _ hchain hmema haacc hal
    obtain ⟨l', hlk, hl'⟩ := ih hchain' hm' hnodup (by
      intro b hb
      have hbacc := hdisjoint b (mem_cons_of_mem _ hb)
      have hba : b ≠ a := by
        rintro rfl
        exact hal hb
      split <;> simp [hbacc, hba])
    refine ⟨l', hlk, ?_⟩
    intro b
    rw [hl']
    rcases eq_or_ne b a with rfl | hne
    · cases hkeep : keep b <;> simp [hal, haacc]
    · cases hkeep : keep a <;> simp [hne]

end Links

end TachyonEngine.Lib.Traversal
