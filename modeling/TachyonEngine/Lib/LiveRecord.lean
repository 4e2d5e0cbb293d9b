import TachyonEngine.Lib.LiveMap

/-!
# Cursors over a changing map

A record follows a map through its mutations. It notes when each ticket appears and disappears, and
for each cursor when it was opened, what it took and when it was exhausted. A cursor takes every
ticket once that is there until the cursor is exhausted, in the order of the tickets, and it takes
no ticket that has disappeared.
-/

namespace TachyonEngine.Lib

open List

universe u v

variable {K : Type u} {V : Type v}

/-- An entry that a cursor took, and whether it reached the caller. -/
structure LiveTake (K : Type u) (V : Type v) where
  entry : LiveEntry K V
  time : Nat
  delivered : Bool

structure LiveCursor (K : Type u) (V : Type v) where
  opened : Nat
  next : Nat
  finished : Option Nat
  taken : List (LiveTake K V)

/-- What a cursor that is not exhausted does. -/
def LiveCursor.advance (cursor : LiveCursor K V) (map : LiveMap K V) (clock : Nat)
    (delivered : Bool) : LiveCursor K V :=
  match map.nextFrom cursor.next with
  | some entry =>
    { cursor with
      next := entry.ticket + 1
      taken := cursor.taken ++ [⟨entry, clock, delivered⟩] }
  | none => { cursor with finished := some clock }

structure LiveRecord (K : Type u) (V : Type v) where
  map : LiveMap K V
  history : List (LiveMutation K V)
  clock : Nat
  born : Nat → Option Nat
  died : Nat → Option Nat
  cursors : Nat → Option (LiveCursor K V)

namespace LiveRecord

variable (same : K → K → Bool)

def start : LiveRecord K V :=
  { map := .empty, history := [], clock := 0, born := fun _ => none, died := fun _ => none
    cursors := fun _ => none }

def mutate (rec : LiveRecord K V) (mutation : LiveMutation K V) : LiveRecord K V :=
  let after := rec.map.apply same mutation
  { rec with
    map := after
    history := mutation :: rec.history
    clock := rec.clock + 1
    born := fun ticket =>
      if ticket ∈ after.tickets ∧ ticket ∉ rec.map.tickets then some rec.clock
      else rec.born ticket
    died := fun ticket =>
      if ticket ∈ rec.map.tickets ∧ ticket ∉ after.tickets then some rec.clock
      else rec.died ticket }

/-- A new cursor starts before the first ticket. -/
def openCursor (rec : LiveRecord K V) (id : Nat) : LiveRecord K V :=
  { rec with
    clock := rec.clock + 1
    cursors := Function.update rec.cursors id
      (some { opened := rec.clock, next := 0, finished := none, taken := [] }) }

def advance (rec : LiveRecord K V) (id : Nat) (delivered : Bool) : LiveRecord K V :=
  match rec.cursors id with
  | some cursor =>
    match cursor.finished with
    | none =>
      { rec with
        clock := rec.clock + 1
        cursors := Function.update rec.cursors id
          (some (cursor.advance rec.map rec.clock delivered)) }
    | some _ => { rec with clock := rec.clock + 1 }
  | none => rec

inductive Step (rec : LiveRecord K V) : LiveRecord K V → Prop where
  | mutate (mutation : LiveMutation K V) : Step rec (rec.mutate same mutation)
  | openCursor (id : Nat) (unused : rec.cursors id = none) : Step rec (rec.openCursor id)
  | advance (id : Nat) (delivered : Bool) : Step rec (rec.advance id delivered)

/-! ## What holds of a record -/

/-- The times of the tickets. -/
structure Timed (rec : LiveRecord K V) : Prop where
  issued : ∀ n, (∃ b, rec.born n = some b) ↔ n < rec.map.fresh
  bornPast : ∀ n b, rec.born n = some b → b < rec.clock
  bornOrder : ∀ m n a b, m < n → rec.born m = some a → rec.born n = some b → a < b
  live : ∀ n, n ∈ rec.map.tickets ↔ n < rec.map.fresh ∧ rec.died n = none
  diedPast : ∀ n d, rec.died n = some d → d < rec.clock ∧ ∀ b, rec.born n = some b → b < d
  diedIssued : ∀ n d, rec.died n = some d → n < rec.map.fresh

/-- What a cursor did. -/
structure Follows (rec : LiveRecord K V) (cursor : LiveCursor K V) : Prop where
  opened : cursor.opened < rec.clock
  reached : cursor.next ≤ rec.map.fresh
  ascending : cursor.taken.Pairwise fun left right => left.entry.ticket < right.entry.ticket
  passed : ∀ take ∈ cursor.taken, take.entry.ticket < cursor.next
  isPresent : ∀ take ∈ cursor.taken, cursor.opened < take.time ∧ take.time < rec.clock ∧
    (∃ b, rec.born take.entry.ticket = some b ∧ b < take.time) ∧
    ∀ d, rec.died take.entry.ticket = some d → take.time < d
  finished : ∀ f, cursor.finished = some f →
    cursor.opened < f ∧ f < rec.clock ∧ ∀ take ∈ cursor.taken, take.time < f
  /-- A ticket behind the cursor was taken or had disappeared. -/
  complete : ∀ n b, rec.born n = some b → (cursor.finished = none → n < cursor.next) →
    (∀ f, cursor.finished = some f → b < f) →
    (∃ take ∈ cursor.taken, take.entry.ticket = n) ∨
      ∃ d, rec.died n = some d ∧ ∀ f, cursor.finished = some f → d < f

structure Coherent (rec : LiveRecord K V) : Prop where
  wellFormed : rec.map.WellFormed same
  values : ∀ key, rec.map.get? same key = LiveMap.lastSet same key rec.history
  timed : rec.Timed
  follows : ∀ id cursor, rec.cursors id = some cursor → rec.Follows cursor

variable {same} {rec : LiveRecord K V}

theorem coherent_start : (start : LiveRecord K V).Coherent same := by
  refine ⟨⟨List.Pairwise.nil, nofun, List.Pairwise.nil⟩, fun _ => rfl, ?_, nofun⟩
  refine ⟨?_, nofun, nofun, ?_, nofun, nofun⟩
  · intro n
    exact ⟨nofun, fun hlt => absurd hlt (Nat.not_lt_zero n)⟩
  · intro n
    exact ⟨nofun, fun hlt => absurd hlt.1 (Nat.not_lt_zero n)⟩

variable {n : Nat}

/-- A ticket that was issued keeps the time of its birth. -/
theorem born_mutate (mutation : LiveMutation K V) (hn : n < rec.map.fresh) :
    (rec.mutate same mutation).born n = rec.born n := by
  apply if_neg
  rintro ⟨ha, hb⟩
  rcases LiveMap.tickets_apply mutation with ⟨-, hsub⟩ | ⟨-, happended⟩
  · exact hb (hsub.subset ha)
  · rw [happended, mem_append, mem_singleton] at ha
    rcases ha with hold | rfl
    · exact hb hold
    · exact lt_irrefl _ hn

variable {d : Nat}

/-- A ticket that has disappeared does not do so again. -/
theorem died_mutate (h : rec.Timed) (mutation : LiveMutation K V) (hdied : rec.died n = some d) :
    (rec.mutate same mutation).died n = some d := by
  have hgone : n ∉ rec.map.tickets := by
    intro hlive
    rw [((h.live n).mp hlive).2] at hdied
    cases hdied
  simp only [mutate]
  rw [if_neg fun hboth => hgone hboth.1]
  exact hdied

theorem died_mutate_cases (mutation : LiveMutation K V) (hdied : (rec.mutate same mutation).died n =
    some d) : rec.died n = some d ∨ (n ∈ rec.map.tickets ∧ d = rec.clock) := by
  simp only [mutate] at hdied
  split at hdied
  · next hboth => exact .inr ⟨hboth.1, (Option.some.inj hdied).symm⟩
  · exact .inl hdied

theorem fresh_le_mutate (mutation : LiveMutation K V) :
    rec.map.fresh ≤ (rec.mutate same mutation).map.fresh := by
  rcases @LiveMap.tickets_apply _ _ same rec.map mutation with ⟨hfr, -⟩ | ⟨hfr, -⟩
  · exact le_of_eq hfr.symm
  · exact le_trans (Nat.le_succ _) (le_of_eq hfr.symm)

/-- A ticket is issued by the mutation, or it was before. -/
theorem born_mutate_cases (h : rec.Coherent same) (mutation : LiveMutation K V) {b : Nat} (hborn :
    (rec.mutate same mutation).born n = some b) :
    (n < rec.map.fresh ∧ rec.born n = some b) ∨ (n = rec.map.fresh ∧ b = rec.clock ∧
        (rec.mutate same mutation).map.tickets = rec.map.tickets ++ [rec.map.fresh]) := by
  by_cases hn : n < rec.map.fresh
  · rw [born_mutate mutation hn] at hborn
    exact .inl ⟨hn, hborn⟩
  · have hunborn : rec.born n = none := by
      cases hold : rec.born n with
      | none => rfl
      | some b => exact absurd ((h.timed.issued n).mp ⟨b, hold⟩) hn
    simp only [mutate] at hborn
    split_ifs at hborn with hboth
    · rcases @LiveMap.tickets_apply _ _ same rec.map mutation with ⟨-, hsub⟩ | ⟨-, happended⟩
      · exact absurd (hsub.subset hboth.1) hboth.2
      · have hm := hboth.1
        rw [happended, mem_append, mem_singleton] at hm
        exact .inr ⟨hm.resolve_left hboth.2, (Option.some.inj hborn).symm, happended⟩
    · rw [hunborn] at hborn
      cases hborn

theorem Timed.mutate (h : rec.Coherent same) (mutation : LiveMutation K V) :
    (rec.mutate same mutation).Timed := by
  have htimed := h.timed
  refine ⟨?_, ?_, ?_, ?_, ?_, ?_⟩
  · intro n
    constructor
    · rintro ⟨b, hborn⟩
      rcases born_mutate_cases h mutation hborn with ⟨hn, -⟩ | ⟨rfl, -, happended⟩
      · exact lt_of_lt_of_le hn (fresh_le_mutate mutation)
      · apply (h.wellFormed.apply mutation).bounded
        exact happended ▸ mem_append_right _ (mem_singleton_self _)
    · intro hn
      by_cases hold : n < rec.map.fresh
      · rw [born_mutate mutation hold]
        exact (htimed.issued n).mpr hold
      · rcases @LiveMap.tickets_apply _ _ same rec.map mutation with ⟨hfr, -⟩ | ⟨hfr, happended⟩
        · exact absurd (hfr ▸ hn) hold
        · have hlt : n < rec.map.fresh + 1 := hfr ▸ hn
          obtain rfl : n = rec.map.fresh := by omega
          refine ⟨rec.clock, if_pos ⟨?_, ?_⟩⟩
          · exact happended ▸ mem_append_right _ (mem_singleton_self _)
          · intro hmm
            exact lt_irrefl _ (h.wellFormed.bounded _ hmm)
  · intro n b hborn
    rcases born_mutate_cases h mutation hborn with ⟨-, hborn⟩ | ⟨-, rfl, -⟩
    · exact Nat.lt_succ_of_lt (htimed.bornPast n b hborn)
    · exact Nat.lt_succ_self _
  · intro m n a b hlt hm hn
    rcases born_mutate_cases h mutation hn with ⟨hold, hn⟩ | ⟨rfl, rfl, -⟩
    · rw [born_mutate mutation (lt_trans hlt hold)] at hm
      exact htimed.bornOrder m n a b hlt hm hn
    · rw [born_mutate mutation hlt] at hm
      exact htimed.bornPast m a hm
  · intro n
    constructor
    · intro hlive
      refine ⟨(h.wellFormed.apply mutation).bounded n hlive, ?_⟩
      simp only [LiveRecord.mutate]
      rw [if_neg fun hboth => hboth.2 hlive]
      by_cases hold : n ∈ rec.map.tickets
      · exact ((htimed.live n).mp hold).2
      · -- the ticket is the fresh one, which cannot have died
        cases hdied : rec.died n with
        | none => rfl
        | some d =>
          have hunborn : ¬ n < rec.map.fresh := by
            rcases @LiveMap.tickets_apply _ _ same rec.map mutation with
              ⟨-, hsub⟩ | ⟨-, happended⟩
            · exact absurd (hsub.subset hlive) hold
            · have hmm : n ∈ rec.map.tickets ++ [rec.map.fresh] := happended ▸ hlive
              rw [mem_append, mem_singleton] at hmm
              rw [hmm.resolve_left hold]
              exact lt_irrefl _
          exact absurd (htimed.diedIssued n d hdied) hunborn
    · rintro ⟨hn, hdied⟩
      by_contra hgone
      have hb : n ∉ rec.map.tickets := by
        intro hmm
        simp only [LiveRecord.mutate] at hdied
        rw [if_pos ⟨hmm, hgone⟩] at hdied
        cases hdied
      have hunborn : ¬ n < rec.map.fresh := by
        intro hold
        cases hwas : rec.died n with
        | none => exact hb ((htimed.live n).mpr ⟨hold, hwas⟩)
        | some d =>
          rw [died_mutate htimed mutation hwas] at hdied
          cases hdied
      rcases @LiveMap.tickets_apply _ _ same rec.map mutation with ⟨hfr, -⟩ | ⟨hfr, happended⟩
      · exact hunborn (hfr ▸ hn)
      · have hlt : n < rec.map.fresh + 1 := hfr ▸ hn
        obtain rfl : n = rec.map.fresh := by omega
        exact hgone (happended ▸ mem_append_right _ (mem_singleton_self _))
  · intro n d hdied
    rcases died_mutate_cases mutation hdied with hdied | ⟨hlive, rfl⟩
    · refine ⟨Nat.lt_succ_of_lt (htimed.diedPast n d hdied).1, ?_⟩
      intro b hborn
      rw [born_mutate mutation (htimed.diedIssued n d hdied)] at hborn
      exact (htimed.diedPast n d hdied).2 b hborn
    · refine ⟨Nat.lt_succ_self _, ?_⟩
      intro b hborn
      rw [born_mutate mutation (h.wellFormed.bounded n hlive)] at hborn
      exact htimed.bornPast n b hborn
  · intro n d hdied
    rcases died_mutate_cases mutation hdied with hdied | ⟨hlive, -⟩
    · exact lt_of_lt_of_le (htimed.diedIssued n d hdied) (fresh_le_mutate mutation)
    · exact lt_of_lt_of_le (h.wellFormed.bounded n hlive) (fresh_le_mutate mutation)

variable {cursor : LiveCursor K V}

/-- A mutation does not concern what a cursor did before. -/
theorem Follows.mutate (h : rec.Coherent same) (hfol : rec.Follows cursor) (mutation : LiveMutation
    K V) : (rec.mutate same mutation).Follows cursor := by
  refine ⟨Nat.lt_succ_of_lt hfol.opened,
    le_trans hfol.reached (fresh_le_mutate mutation), hfol.ascending, hfol.passed,
    ?_, ?_, ?_⟩
  · intro take htake
    obtain ⟨hop, hclock, ⟨b, hborn, hlt⟩, hdied⟩ := hfol.isPresent take htake
    have hissued := lt_of_lt_of_le (hfol.passed take htake) hfol.reached
    refine ⟨hop, Nat.lt_succ_of_lt hclock, ⟨b, ?_, hlt⟩, ?_⟩
    · rw [born_mutate mutation hissued]
      exact hborn
    · intro d hdied'
      rcases died_mutate_cases mutation hdied' with hold | ⟨-, rfl⟩
      · exact hdied d hold
      · exact hclock
  · intro f hf
    obtain ⟨hop, hclock, htaken⟩ := hfol.finished f hf
    exact ⟨hop, Nat.lt_succ_of_lt hclock, htaken⟩
  · intro n b hborn hn hb
    rcases born_mutate_cases h mutation hborn with ⟨-, hold⟩ | ⟨rfl, rfl, -⟩
    · rcases hfol.complete n b hold hn hb with htaken | ⟨d, hdied, hlt⟩
      · exact .inl htaken
      · exact .inr ⟨d, died_mutate h.timed mutation hdied, hlt⟩
    · -- a ticket that is issued now is ahead of the cursor
      cases hfin : cursor.finished with
      | none => exact absurd (hn hfin) (not_lt.mpr hfol.reached)
      | some f =>
        exact absurd (hb f hfin) (not_lt.mpr (le_of_lt (hfol.finished f hfin).2.1))

/-! ## Cursors move -/

/-- The same map later on. -/
structure Later (rec rec' : LiveRecord K V) : Prop where
  map : rec'.map = rec.map
  history : rec'.history = rec.history
  born : rec'.born = rec.born
  died : rec'.died = rec.died
  clock : rec.clock ≤ rec'.clock

variable {rec' : LiveRecord K V}

theorem Timed.later (h : rec.Timed) (hlat : Later rec rec') : rec'.Timed := by
  obtain ⟨hmap, -, hborn, hdied, hclock⟩ := hlat
  refine ⟨?_, ?_, ?_, ?_, ?_, ?_⟩
  · rw [hmap, hborn]
    exact h.issued
  · rw [hborn]
    intro n b hb
    exact lt_of_lt_of_le (h.bornPast n b hb) hclock
  · rw [hborn]
    exact h.bornOrder
  · rw [hmap, hdied]
    exact h.live
  · rw [hborn, hdied]
    intro n d hd
    exact ⟨lt_of_lt_of_le (h.diedPast n d hd).1 hclock, (h.diedPast n d hd).2⟩
  · rw [hmap, hdied]
    exact h.diedIssued

theorem Follows.later (h : rec.Follows cursor) (hlat : Later rec rec') : rec'.Follows cursor := by
  obtain ⟨hmap, -, hborn, hdied, hclock⟩ := hlat
  refine ⟨lt_of_lt_of_le h.opened hclock, hmap ▸ h.reached, h.ascending, h.passed, ?_, ?_, ?_⟩
  · rw [hborn, hdied]
    intro take htake
    obtain ⟨hop, hlt, hpres⟩ := h.isPresent take htake
    exact ⟨hop, lt_of_lt_of_le hlt hclock, hpres⟩
  · intro f hf
    obtain ⟨hop, hlt, htaken⟩ := h.finished f hf
    exact ⟨hop, lt_of_lt_of_le hlt hclock, htaken⟩
  · rw [hborn, hdied]
    exact h.complete

/-- One cursor is replaced, and the map stays as it is. -/
theorem Coherent.later (h : rec.Coherent same) (hlat : Later rec rec')
    (hcus : ∀ id cursor, rec'.cursors id = some cursor →
      rec.cursors id = some cursor ∨ rec'.Follows cursor) : rec'.Coherent same := by
  refine ⟨?_, ?_, h.timed.later hlat, ?_⟩
  · rw [hlat.map]
    exact h.wellFormed
  · rw [hlat.map, hlat.history]
    exact h.values
  · intro id cursor hcu
    rcases hcus id cursor hcu with hold | hnew
    · exact (h.follows id cursor hold).later hlat
    · exact hnew

theorem Coherent.openCursor (h : rec.Coherent same) (id : Nat) :
    (rec.openCursor id).Coherent same := by
  refine h.later ⟨rfl, rfl, rfl, rfl, Nat.le_succ _⟩ ?_
  intro other cursor hcu
  simp only [LiveRecord.openCursor] at hcu
  by_cases ho : other = id
  · rw [ho, Function.update_self] at hcu
    obtain rfl := Option.some.inj hcu
    right
    refine ⟨Nat.lt_succ_self _, Nat.zero_le _, List.Pairwise.nil, nofun, nofun, nofun, ?_⟩
    intro n b _ hn _
    exact absurd (hn rfl) (Nat.not_lt_zero n)
  · rw [Function.update_of_ne ho] at hcu
    exact .inl hcu

/-- A cursor that is not exhausted takes the first ticket ahead, or is exhausted. -/
theorem Follows.advance (h : rec.Coherent same) (hfol : rec.Follows cursor) (hunfinished :
    cursor.finished = none) (delivered : Bool) (hlat : Later rec rec') (hclock : rec'.clock =
    rec.clock + 1) : rec'.Follows (cursor.advance rec.map rec.clock delivered) := by
  have hkept := hfol.later hlat
  obtain ⟨hmap, -, hborn, hdied, -⟩ := hlat
  simp only [LiveCursor.advance]
  split
  next ent he =>
    obtain ⟨hm, hfrom, hfirst⟩ := LiveMap.nextFrom_eq_some h.wellFormed.ascending he
    have hlive : ent.ticket ∈ rec.map.tickets := mem_map_of_mem hm
    have hissued := h.wellFormed.bounded _ hlive
    obtain ⟨b, hb⟩ := (h.timed.issued ent.ticket).mpr hissued
    refine ⟨hkept.opened, ?_, ?_, ?_, ?_, ?_, ?_⟩
    · rw [hmap]
      exact hissued
    · rw [pairwise_append]
      refine ⟨hfol.ascending, pairwise_singleton _ _, ?_⟩
      intro take htake last hl
      rw [mem_singleton.mp hl]
      exact lt_of_lt_of_le (hfol.passed take htake) hfrom
    · exact forall_mem_append.mpr ⟨fun take hold => Nat.lt_succ_of_le (le_of_lt
        (lt_of_lt_of_le (hfol.passed take hold) hfrom)), forall_mem_singleton.mpr
        (Nat.lt_succ_self _)⟩
    · intro take htake
      rcases mem_append.mp htake with hold | hl
      · exact hkept.isPresent take hold
      · rw [mem_singleton.mp hl, hclock, hborn, hdied]
        refine ⟨hfol.opened, Nat.lt_succ_self _, ⟨b, hb, h.timed.bornPast _ b hb⟩, ?_⟩
        intro d hd
        rw [((h.timed.live _).mp hlive).2] at hd
        cases hd
    · intro f hf
      rw [hunfinished] at hf
      cases hf
    · intro n b' hn hnx _
      rw [hborn] at hn
      have hlt : n < ent.ticket + 1 := hnx hunfinished
      by_cases hpassed : n < cursor.next
      · rcases hfol.complete n b' hn (fun _ => hpassed)
          (fun f hf => absurd (hunfinished ▸ hf) nofun) with ⟨take, htake, hticket⟩ | ⟨d, hd, -⟩
        · exact .inl ⟨take, mem_append_left _ htake, hticket⟩
        · refine .inr ⟨d, hdied ▸ hd, ?_⟩
          intro f hf
          rw [hunfinished] at hf
          cases hf
      · by_cases hthis : n = ent.ticket
        · exact .inl ⟨_, mem_append_right _ (mem_singleton_self _), hthis.symm⟩
        · -- between the cursor and the entry that is taken no ticket is live
          right
          cases hd : rec.died n with
          | none =>
            have hn' := (h.timed.issued n).mp ⟨b', hn⟩
            have hle := hfirst n ((h.timed.live n).mpr ⟨hn', hd⟩) (not_lt.mp hpassed)
            omega
          | some d =>
            refine ⟨d, hdied ▸ hd, ?_⟩
            intro f hf
            rw [hunfinished] at hf
            cases hf
  next hno =>
    rw [LiveMap.nextFrom_eq_none_iff] at hno
    refine ⟨hkept.opened, hkept.reached, hkept.ascending, hkept.passed, hkept.isPresent, ?_, ?_⟩
    · intro f hf
      obtain rfl := Option.some.inj hf
      refine ⟨hfol.opened, hclock ▸ Nat.lt_succ_self _, ?_⟩
      intro take htake
      exact (hfol.isPresent take htake).2.1
    · intro n b hn _ _
      rw [hborn] at hn
      have hissued := (h.timed.issued n).mp ⟨b, hn⟩
      have hgone : ∀ d, rec.died n = some d → ∃ d, rec'.died n = some d ∧
          ∀ f, some rec.clock = some f → d < f := by
        intro d hd
        refine ⟨d, hdied ▸ hd, ?_⟩
        intro f hf
        rw [← Option.some.inj hf]
        exact (h.timed.diedPast n d hd).1
      by_cases hpassed : n < cursor.next
      · rcases hfol.complete n b hn (fun _ => hpassed)
          (fun f hf => absurd (hunfinished ▸ hf) nofun) with htaken | ⟨d, hd, -⟩
        · exact .inl htaken
        · exact .inr (hgone d hd)
      · right
        cases hd : rec.died n with
        | none => exact absurd (hno n ((h.timed.live n).mpr ⟨hissued, hd⟩)) hpassed
        | some d => exact hgone d hd

theorem Coherent.advance (h : rec.Coherent same) (id : Nat) (delivered : Bool) :
    (rec.advance id delivered).Coherent same := by
  simp only [LiveRecord.advance]
  split
  next cursor hcu =>
    split
    next hunfinished =>
      refine h.later ⟨rfl, rfl, rfl, rfl, Nat.le_succ _⟩ ?_
      intro other cursor' hcu'
      simp only at hcu'
      by_cases ho : other = id
      · rw [ho, Function.update_self] at hcu'
        obtain rfl := Option.some.inj hcu'
        exact .inr ((h.follows id cursor hcu).advance h hunfinished delivered
          ⟨rfl, rfl, rfl, rfl, Nat.le_succ _⟩ rfl)
      · rw [Function.update_of_ne ho] at hcu'
        exact .inl hcu'
    · exact h.later ⟨rfl, rfl, rfl, rfl, Nat.le_succ _⟩ fun _ _ hold => .inl hold
  · exact h

theorem Coherent.mutate (hs : SameKey same) (h : rec.Coherent same)
    (mutation : LiveMutation K V) : (rec.mutate same mutation).Coherent same := by
  refine ⟨h.wellFormed.apply mutation, ?_, Timed.mutate h mutation, ?_⟩
  · intro key
    exact LiveMap.get?_apply hs mutation h.values
  · intro id cursor hcu
    exact (h.follows id cursor hcu).mutate h mutation

theorem Coherent.step (hs : SameKey same) (h : rec.Coherent same)
    (hstep : Step same rec rec') : rec'.Coherent same := by
  cases hstep with
  | mutate mutation => exact h.mutate hs mutation
  | openCursor id unused => exact h.openCursor id
  | advance id delivered => exact h.advance id delivered

theorem coherent_run (hs : SameKey same)
    (hrun : Relation.ReflTransGen (Step same) start rec) : rec.Coherent same := by
  induction hrun with
  | refl => exact coherent_start
  | tail _ hstep ih => exact ih.step hs hstep

end LiveRecord

end TachyonEngine.Lib
