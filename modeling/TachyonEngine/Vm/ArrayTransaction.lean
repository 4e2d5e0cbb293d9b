import TachyonEngine.Vm.ArrayRun

/-!
# The transaction of an Array length

A length that is not longer comes to the smallest length that is above every index that cannot be
deleted. The Array is left as it was below it and empty from it on, and the operation succeeds
exactly if this is the length that was asked for. Two things stand in the way: a descriptor for
which the length would have to become enumerable or configurable, and a request for memory that is
refused.
-/

namespace TachyonEngine.Vm

open Lib Lib.Attempt

namespace PropertyObject

variable {host : PropertyHost} {mem : MemoryRequest → Bool} {obj : PropertyObject}
  {length next idx : Nat}

/-- The length that `next` comes to: it is not below `next`, and above every index that blocks. -/
def FinalLength (host : PropertyHost) (obj : PropertyObject) (next final : Nat) : Prop :=
  IsLeast {bound | next ≤ bound ∧ ∀ key idx, Blocks host obj next key idx → idx < bound} final

theorem finalLength_of_free (hfree : ∀ key idx, ¬ Blocks host obj next key idx) :
    FinalLength host obj next next :=
  ⟨⟨le_rfl, fun key idx hblocks => absurd hblocks (hfree key idx)⟩, fun _ hbound => hbound.1⟩

theorem finalLength_of_block (hblock : HighestBlock host obj next idx) :
    FinalLength host obj next (idx + 1) := by
  obtain ⟨⟨key, hblocks⟩, hmost⟩ := hblock
  refine ⟨⟨hblocks.2.1.trans (Nat.le_succ idx), ?_⟩, ?_⟩
  · intro other blocked hblocked
    exact Nat.lt_succ_of_le (hmost ⟨other, hblocked⟩)
  · rintro bound ⟨-, habove⟩
    exact habove key idx hblocks

/-- Setting the length to `next` is the transaction, unless it stops with one of some errors. -/
def SetsLength (host : PropertyHost) (mem : MemoryRequest → Bool) (obj : PropertyObject)
    (data : DataPropertyDescriptor) (next : Nat) (stops : DescriptorError → Prop) : Prop :=
  Ends (arraySetLengthDescriptorCanonical host mem (.data data) next)
    (fun _ after => FinalLength host obj next next ∧ ShortenedTo host obj data next after)
    (fun error after => stops error ∨ error = .invalidPropertyRedefinition ∧ ∃ final,
      FinalLength host obj next final ∧ next < final ∧ ShortenedTo host obj data final after) obj

/-- The error is that of a request that is refused. -/
def RequestRefused (mem : MemoryRequest → Bool) (error : DescriptorError) : Prop :=
  ∃ asked, error = .refused asked ∧ mem asked = false

section

variable (h : obj.HasLength host length true) (hbounded : Bounded host obj length)

include h hbounded

/-- A length that stays is only redefined: no index is at or past it. -/
theorem ends_keepLength (data : DataPropertyDescriptor) :
    Ends (arraySetLengthDescriptorCanonical host mem (.data data) length)
      (fun _ post => Shortens true data ∧ FinalLength host obj length length ∧
        ShortenedTo host obj data length post)
      (fun err post => post = obj ∧ (Shortens true data → RequestRefused mem err)) obj := by
  rw [ends_setLength_longer h data le_rfl]
  refine (ends_redefineLength h _ (.inl rfl) h.small).imp ?_ ?_
  · rintro _ post ⟨hlook, hex, ha, -, hpass⟩
    have hown : ∀ key, key ≠ host.lengthKey →
        post.ownProperty host key = obj.ownProperty host key :=
      fun key hne => ownProperty_congr hex (hlook key hne)
    refine ⟨⟨rfl, hpass⟩, finalLength_of_free ?_, ha, ?_, fun key hne _ _ => hown key hne⟩
    · intro key idx hblocks
      have := hbounded key idx hblocks.1 (hblocks.present h.wellFormed)
      have := hblocks.2.1
      omega
    · intro key idx hi hle
      rw [hown key (ne_lengthKey hi), ← Option.not_isSome_iff_eq_none]
      intro hpres
      have := hbounded key idx hi hpres
      omega
  · rintro err post ⟨rfl, href⟩
    refine ⟨rfl, ?_⟩
    rintro ⟨-, henumerable, hconf⟩
    exact ⟨_, (href rfl henumerable hconf).2⟩

/-- A length that is not longer is set as a transaction, unless a request for memory is refused. If
the length would have to become enumerable or configurable, the Array stays as it was. -/
theorem setLength_transaction (data : DataPropertyDescriptor) (hnext : next ≤ length) :
    (data.enumerable ≠ some true ∧ data.configurable ≠ some true →
      SetsLength host mem obj data next (RequestRefused mem)) ∧
    (data.enumerable = some true ∨ data.configurable = some true →
      Ends (arraySetLengthDescriptorCanonical host mem (.data data) next) (fun _ _ => False)
        (fun _ post => post = obj) obj) := by
  rcases Nat.lt_or_eq_of_le hnext with hshorter | rfl
  · have hends : Ends (arraySetLengthDescriptorCanonical host mem (.data data) next) _ _ obj :=
      ends_shorten h data hshorter
    refine ⟨fun hpass => hends.imp ?_ ?_, fun hrej => hends.imp ?_ ?_⟩
    · rintro _ post ⟨-, hfree, hleft⟩
      exact ⟨finalLength_of_free hfree, hleft⟩
    · rintro err post (⟨-, hno⟩ | ⟨-, ⟨idx, herr, hblock, hleft⟩ | ⟨asked, herr, href⟩⟩)
      · exact absurd ⟨rfl, hpass⟩ hno
      · exact .inr ⟨herr, idx + 1, finalLength_of_block hblock,
          Nat.lt_succ_of_le hblock.1.choose_spec.2.1, hleft⟩
      · exact .inl ⟨asked, herr, href.mem_eq_false⟩
    · rintro _ post ⟨⟨-, hpass⟩, -⟩
      exact hrej.elim hpass.1 hpass.2
    · rintro err post (⟨rfl, -⟩ | ⟨⟨-, hpass⟩, -⟩)
      · rfl
      · exact (hrej.elim hpass.1 hpass.2).elim
  · have hends : Ends (arraySetLengthDescriptorCanonical host mem (.data data) next) _ _ obj :=
      ends_keepLength h hbounded data
    refine ⟨fun hpass => hends.imp ?_ ?_, fun hrej => hends.imp ?_ ?_⟩
    · rintro _ post ⟨-, hfinal, hleft⟩
      exact ⟨hfinal, hleft⟩
    · rintro err post ⟨-, href⟩
      exact .inl (href ⟨rfl, hpass⟩)
    · rintro _ post ⟨⟨-, hpass⟩, -⟩
      exact hrej.elim hpass.1 hpass.2
    · rintro err post ⟨rfl, -⟩
      rfl

end

/-- An Array whose index 0 cannot be deleted. -/
def blockedArray : PropertyObject :=
  ((PropertyOperation.define (.atom 3) (.data ⟨some (.fromI32 7), some true, some true,
    some false⟩)).run
    .sample fun _ => true).final (newArray .sample fun _ => .undefined)

theorem blockedArray_length : blockedArray.HasLength .sample 1 true ∧
    Bounded .sample blockedArray 1 := by
  have hkeeps : KeepsExotic .sample (fun _ => true) (newArray .sample fun _ => .undefined)
      (.define (.atom 3) (.data ⟨some (.fromI32 7), some true, some true, some false⟩)) :=
    keepsExotic_define (by decide)
  obtain ⟨length, writable, h, hbounded⟩ :=
    hkeeps.exotic (exotic_newArray .sample fun _ => .undefined) (by decide)
  have hlen : blockedArray.arrayLength .sample = some (Float.Model.ofInt (1 : Nat), some true) := by
    decide
  have hsame := Option.some.inj (h.arrayLength_eq.symm.trans hlen)
  have hnumber : Float.Model.ofInt length = Float.Model.ofInt (1 : Nat) := congrArg Prod.fst hsame
  obtain rfl : length = 1 := unpack_injective (lt_trans h.small (by decide)) (by decide)
    (congrArg Float.Model.unpack hnumber)
  obtain rfl : writable = true := Option.some.inj (congrArg Prod.snd hsame)
  exact ⟨h, hbounded⟩

/-- The length 0 comes to 1. -/
theorem setLength_transaction_blocked :
    FinalLength .sample blockedArray 0 1 ∧
      SetsLength .sample (fun _ => true) blockedArray ⟨none, some false, none, none⟩ 0
        (RequestRefused fun _ => true) := by
  obtain ⟨h, hbounded⟩ := blockedArray_length
  refine ⟨finalLength_of_block ⟨⟨.atom 3, by decide, le_rfl, _, rfl, rfl⟩, ?_⟩,
    (setLength_transaction h hbounded ⟨none, some false, none, none⟩ (Nat.zero_le 1)).1 (by decide)⟩
  rintro idx ⟨key, hblocks⟩
  exact Nat.le_of_lt_succ (hbounded key idx hblocks.1 (hblocks.present h.wellFormed))

/-- On a new Array the length 0 is set to 0: once the length would become configurable, and once it
cannot become read-only for lack of memory. -/
theorem setLength_stops :
    ¬ SetsLength .sample (fun _ => true) (newArray .sample fun _ => .undefined)
        ⟨none, none, none, some true⟩ 0 (fun _ => False) ∧
      ¬ SetsLength .sample (fun _ => false) (newArray .sample fun _ => .undefined)
        ⟨none, some false, none, none⟩ 0 (fun _ => False) := by
  have hfree : ∀ key idx, ¬ Blocks .sample (newArray .sample fun _ => .undefined) 0 key idx := by
    rintro key idx ⟨hi, -, prop, hf, -⟩
    obtain ⟨hm, rfl⟩ := lookup_eq_some hf
    rw [List.mem_singleton.mp hm] at hi
    cases hi
  have hfails : ∀ {mem data err post}, outcome (arraySetLengthDescriptorCanonical .sample mem
      (.data data) 0) (newArray .sample fun _ => .undefined) = (.error err, post) →
      ¬ SetsLength .sample mem (newArray .sample fun _ => .undefined) data 0 fun _ => False := by
    intro mem data err post hout hsets
    rw [SetsLength, Ends, hout] at hsets
    obtain hfalse | ⟨-, final, hfinal, hlt, -⟩ := hsets
    · exact hfalse
    · exact absurd (hfinal.2 ⟨le_rfl, fun key idx hb => absurd hb (hfree key idx)⟩) (by omega)
  exact ⟨hfails rfl, hfails rfl⟩

end PropertyObject

end TachyonEngine.Vm
