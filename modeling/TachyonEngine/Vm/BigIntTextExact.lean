import TachyonEngine.Lib.Numerals
import TachyonEngine.Vm.BigIntText

/-!
# Texts of BigInts are exact

Both formatters give the only text of an integer, and both parsers the canonical value that digits
denote. So a decimal text is read back as the value it was made from.
-/

namespace TachyonEngine.Vm

open Lib Lib.Capacity List
open BigIntValue (signed Denotes)

variable {α β : Type} {fits : Prop} {radix carry : Nat} {limbs : List UInt64}

/-! ## Memory -/

/-- A computation has this result, or lacks memory. What fits lacks it only where it is refused. -/
def Builds (fits : Prop) (run : Building α) (result : α) : Prop :=
  ∀ allocator, (∃ after, run allocator = .ok (result, after) ∧ after.refuses = allocator.refuses) ∨
      run allocator = .error .allocationFailed ∧ ¬ (fits ∧ ∀ n, allocator.refuses n = false)

theorem Builds.pure (res : α) : Builds fits (pure res) res :=
  fun alloc => .inl ⟨alloc, rfl, rfl⟩

theorem Builds.reserve {estimate : Nat} (h : fits → estimate < 2 ^ 64) :
    Builds fits (reserveEstimate estimate) () := by
  intro alloc
  simp only [reserveEstimate, Allocator.request]
  split
  · cases hrefuses : alloc.refuses alloc.requests with
    | false => exact .inl ⟨_, rfl, rfl⟩
    | true => exact .inr ⟨rfl, fun hgrants => by simp [hgrants.2] at hrefuses⟩
  · next hlarge => exact .inr ⟨rfl, fun hgrants => hlarge (h hgrants.1)⟩

theorem Builds.bind {first : Building α} {rest : α → Building β} {a : α} {b : β}
    (hfirst : Builds fits first a) (hrest : Builds fits (rest a) b) :
    Builds fits (first >>= rest) b := by
  intro alloc
  have hbind : (first >>= rest) alloc = first alloc >>= fun res => rest res.1 res.2 := rfl
  rw [hbind]
  rcases hfirst alloc with ⟨middle, hok, hs⟩ | ⟨herr, hnot⟩
  · rw [hok, ← hs]
    exact hrest middle
  · rw [herr]
    exact .inr ⟨rfl, hnot⟩

theorem Builds.imp {fits' : Prop} {run : Building α} {res : α} (h : Builds fits run res)
    (hfits : fits' → fits) : Builds fits' run res :=
  fun alloc => (h alloc).imp_right (And.imp_right (mt (And.imp_left hfits)))

/-! ## Parsing -/

/-- The carry stays below the radix, and the product below the range of the accumulator. -/
theorem multiplyAdd_step (hradix : radix ≤ limbBase) (hcarry : carry < radix) (limb : UInt64) :
    u128 (limb.toNat * radix + carry) = limb.toNat * radix + carry ∧
      (limb.toNat * radix + carry) >>> 64 < radix := by
  have hlimb : limb.toNat + 1 ≤ limbBase := limb.toNat_lt
  have hprod : limb.toNat * radix + carry < limbBase * radix := by nlinarith
  refine ⟨u128_of_lt (lt_of_lt_of_le hprod (Nat.mul_le_mul_left limbBase hradix)), ?_⟩
  have hsplit := lowLimb_add_shiftRight (limb.toNat * radix + carry)
  by_contra hge
  have := Nat.mul_le_mul_left limbBase (not_lt.mp hge)
  omega

/-- One digit behind the others. -/
theorem limbsValue_multiplyAdd (hradix : radix ≤ limbBase) (hcarry : carry < radix)
    (limbs : List UInt64) :
    limbsValue (multiplyAdd radix limbs carry) = limbsValue limbs * radix + carry := by
  induction limbs generalizing carry with
  | nil =>
    rw [multiplyAdd]
    split
    · rw [limbsValue_cons, limbsValue_nil, toNat_lowLimb_of_lt (by omega)]
      omega
    · next hz => simpa using (not_not.mp hz).symm
  | cons limb rest ih =>
    obtain ⟨hwide, hn⟩ := multiplyAdd_step hradix hcarry limb
    have hsplit := lowLimb_add_shiftRight (limb.toNat * radix + carry)
    rw [multiplyAdd, hwide, limbsValue_cons, ih hn, limbsValue_cons, add_mul, mul_add,
      ← mul_assoc]
    omega

theorem canonical_multiplyAdd (hradix : radix ≤ limbBase) (hcarry : carry < radix)
    (hcanon : CanonicalLimbs limbs) : CanonicalLimbs (multiplyAdd radix limbs carry) := by
  induction limbs generalizing carry with
  | nil =>
    rw [multiplyAdd]
    split_ifs with hne
    · intro hl
      have hz : (lowLimb carry).toNat = 0 := congrArg UInt64.toNat (Option.some.inj hl)
      rw [toNat_lowLimb_of_lt (by omega)] at hz
      exact hne hz
    · exact nofun
  | cons limb rest ih =>
    obtain ⟨hwide, hn⟩ := multiplyAdd_step hradix hcarry limb
    have hhigher := ih hn hcanon.tail
    have hv := limbsValue_multiplyAdd hradix hcarry (limb :: rest)
    have hpos : 0 < limbsValue (limb :: rest) * radix :=
      mul_pos (pos_of_ne_zero fun hz => nomatch hcanon.value_eq_zero.mp hz) (by omega)
    rw [multiplyAdd, hwide] at hv ⊢
    cases hls : multiplyAdd radix rest ((limb.toNat * radix + carry) >>> 64) with
    | nil =>
      -- the only limb is the whole number
      intro hl
      have hz : lowLimb (limb.toNat * radix + carry) = 0 := Option.some.inj hl
      rw [hls, hz, limbsValue_cons, limbsValue_nil] at hv
      have : (0 : UInt64).toNat = 0 := rfl
      omega
    | cons next higher =>
      rw [hls] at hhigher
      exact hhigher

/-- Limbs that a parser has collected from digits. -/
structure Collected (number : Nat) (limbs : List UInt64) : Prop where
  canonical : CanonicalLimbs limbs
  value : limbsValue limbs = number
  nonempty : limbs ≠ []

theorem Collected.foldl {digits : List UInt8} {number : Nat} (h : Collected number limbs)
    (hdg : ∀ digit ∈ digits, digit.toNat - 48 < 10) :
    Collected ((digits.map fun digit => digit.toNat - 48).foldl (fun number digit => number * 10 +
    digit) number)
      (digits.foldl (fun limbs digit => multiplyAdd 10 limbs (digit.toNat - 48)) limbs) := by
  induction digits generalizing limbs number with
  | nil => exact h
  | cons digit digits ih =>
    have hdigit := hdg digit mem_cons_self
    refine ih ⟨canonical_multiplyAdd (by decide) hdigit h.canonical, ?_, ?_⟩ ?_
    · rw [limbsValue_multiplyAdd (by decide) hdigit, h.value]
    · obtain ⟨limb, rest, hls⟩ := exists_cons_of_ne_nil h.nonempty
      simp only [hls]
      exact nofun
    · exact fun other ho => hdg other (mem_cons_of_mem _ ho)

theorem isAsciiDigit_iff (byte : UInt8) : isAsciiDigit byte = true ↔ 48 ≤ byte.toNat ∧
    byte.toNat ≤ 57 := by
  rw [isAsciiDigit, Bool.and_eq_true, decide_eq_true_eq, decide_eq_true_eq]
  rfl

/-- The digits of a decimal text. -/
def decimalDigits (text : List UInt8) : List Nat := text.map fun byte => byte.toNat - 48

theorem digitsNumber_dropWhile (text : List UInt8) :
    digitsNumber 10 (decimalDigits (text.dropWhile (· == 48))) = digitsNumber 10
    (decimalDigits text) := by
  induction text with
  | nil => rfl
  | cons byte text ih =>
    by_cases hz : byte = 48
    · rw [hz, dropWhile_cons_of_pos rfl, ih]
      exact (digitsNumber_cons_zero 10 _).symm
    · rw [dropWhile_cons_of_neg (by simpa using hz)]

def signBytes (negative : Bool) : List UInt8 := if negative then [minusByte] else []

/-- The largest number of bytes that memory can be asked for here. -/
abbrev addressable : Nat := 2 ^ 47

/-- A parser that gives the canonical value of a number. -/
def Parses (length : Nat) (run : Building BigIntValue) (n : Int) : Prop :=
  ∃ val, Denotes n val ∧ Builds (length < addressable) run val

theorem parses_fromDecimal (neg : Bool) {digits : List UInt8} (hne : digits ≠ [])
    (hdg : digits.all isAsciiDigit = true) :
    Parses digits.length (BigIntValue.fromDecimal (signBytes neg ++ digits))
      (signed neg (digitsNumber 10 (decimalDigits digits))) := by
  have hdigit : ∀ digit ∈ digits, 48 ≤ digit.toNat ∧ digit.toNat ≤ 57 :=
    fun digit hm => (isAsciiDigit_iff digit).mp (all_eq_true.mp hdg digit hm)
  have hrun : BigIntValue.fromDecimal (signBytes neg ++ digits) =
      if (digits.dropWhile (· == 48)).isEmpty then pure { negative := false, limbs := [] }
      else (do
        reserveEstimate ((digits.dropWhile (· == 48)).length * 3322 + 63999)
        pure
          { negative := neg
            limbs := (digits.dropWhile (· == 48)).foldl
              (fun limbs digit => multiplyAdd 10 limbs (digit.toNat - 48)) [0] }) := by
    have hsign : ((signBytes neg ++ digits).head? == some minusByte) = neg := by
      cases neg with
      | true => rfl
      | false =>
        obtain ⟨digit, rest, rfl⟩ := exists_cons_of_ne_nil hne
        have hrange := hdigit digit mem_cons_self
        refine beq_eq_false_iff_ne.mpr fun heq => ?_
        rw [Option.some.inj heq] at hrange
        exact absurd hrange.1 (by decide)
    have htail : (if neg then (signBytes neg ++ digits).tail else signBytes neg ++ digits) =
        digits := by
      cases neg with
      | true | false => rfl
    simp only [BigIntValue.fromDecimal, hsign, htail, hdg, isEmpty_eq_false_iff.mpr hne,
      Bool.not_true, Bool.or_self, Bool.false_eq_true, if_false]
  have hnumber := digitsNumber_dropWhile digits
  have hsuf := dropWhile_suffix (l := digits) (· == 48)
  rw [hrun, ← hnumber]
  cases hsignificant : digits.dropWhile (· == 48) with
  | nil => exact ⟨⟨false, []⟩, ⟨by decide, (BigIntValue.signed_zero neg).symm⟩, .pure _⟩
  | cons first rest =>
    rw [hsignificant] at hsuf
    have hfirst : first ≠ 48 := by
      have hhead := head?_dropWhile_not (· == 48) digits
      rw [hsignificant] at hhead
      simpa using hhead
    have hrange := hdigit first (hsuf.subset mem_cons_self)
    have hless : ∀ digit ∈ rest, digit.toNat - 48 < 10 := by
      intro digit hm
      have := hdigit digit (hsuf.subset (mem_cons_of_mem _ hm))
      omega
    have hword : (lowLimb (first.toNat - 48)).toNat = first.toNat - 48 := by
      refine toNat_lowLimb_of_lt ?_
      simp only [limbBase]
      omega
    have hst : Collected (first.toNat - 48) [lowLimb (first.toNat - 48)] := by
      refine ⟨fun hl => ?_, by rw [limbsValue_cons, hword]; rfl, nofun⟩
      have hz : (lowLimb (first.toNat - 48)).toNat = 0 := congrArg UInt64.toNat (Option.some.inj hl)
      exact hfirst (UInt8.toNat_inj.mp (by change first.toNat = 48; omega))
    have hcoll := hst.foldl hless
    have hbegin : multiplyAdd 10 [0] (first.toNat - 48) = [lowLimb (first.toNat - 48)] := by
      have hsm : u128 ((0 : UInt64).toNat * 10 + (first.toNat - 48)) = first.toNat - 48 := by
        rw [u128_of_lt]
        · exact Nat.zero_add _
        · change 0 * 10 + _ < _
          omega
      have hn : (first.toNat - 48) >>> 64 = 0 := by
        rw [Nat.shiftRight_eq_div_pow]
        exact Nat.div_eq_of_lt (by omega)
      rw [multiplyAdd, hsm, hn]
      rfl
    refine ⟨⟨neg, _⟩, ⟨⟨hcoll.canonical, fun hnil => absurd hnil hcoll.nonempty⟩, ?_⟩, ?_⟩
    · rw [BigIntValue.toInt, hcoll.value, digitsNumber, decimalDigits, map_cons, foldl_cons,
        Nat.zero_add]
    · rw [isEmpty_cons, foldl_cons, hbegin]
      refine .bind (.reserve fun hfits => ?_) (.pure _)
      have := hsuf.length_le
      simp only [addressable] at hfits
      omega

/-- Digits of a text in one of the radixes of a literal. -/
def AreDigits (radix : Nat) (units : List UInt16) (digits : List Nat) : Prop :=
  units.map (fun unit => asciiRadixDigit unit radix) = digits.map some

theorem builds_accumulateUnits (hradix : radix ≤ limbBase) {units : List UInt16} {digits : List Nat}
    (hdg : AreDigits radix units digits) (limbs : List UInt64) :
    ∃ res, Builds fits (accumulateUnits radix units limbs) res ∧
      limbsValue res = digits.foldl (fun number digit => number * radix + digit)
      (limbsValue limbs) := by
  induction units generalizing digits limbs with
  | nil =>
    rw [map_eq_nil_iff.mp hdg.symm]
    exact ⟨limbs, .pure _, rfl⟩
  | cons unit units ih =>
    cases digits with
    | nil => cases hdg
    | cons digit digits =>
      obtain ⟨hunit, hrest⟩ : asciiRadixDigit unit radix = some digit ∧
        AreDigits radix units digits :=
        cons.inj hdg
      obtain ⟨res, hbuilds, hv⟩ := ih hrest (multiplyAdd radix limbs digit)
      refine ⟨res, ?_, ?_⟩
      · rw [accumulateUnits, hunit]
        exact hbuilds
      · have hlt := (Option.filter_eq_some_iff.mp hunit).2
        rw [hv, limbsValue_multiplyAdd hradix (of_decide_eq_true hlt), foldl_cons]

theorem bitsPerDigit_facts {bits : Nat} (h : bitsPerDigit radix = some bits) : radix ≤ 16 ∧
    bits ≤ 4 := by
  simp only [bitsPerDigit] at h
  split_ifs at h <;> cases h <;> omega

theorem parses_fromRadixDigits (neg : Bool) {bits : Nat} (hbits : bitsPerDigit radix = some bits)
    {units : List UInt16} {digits : List Nat} (hne : units ≠ [])
    (hdg : AreDigits radix units digits) :
    Parses units.length (BigIntValue.fromRadixDigits units radix neg)
      (signed neg (digitsNumber radix digits)) := by
  obtain ⟨hradix, hwidth⟩ := bitsPerDigit_facts hbits
  have hbase : radix ≤ limbBase := hradix.trans (by decide)
  obtain ⟨limbs, hbuilds, hv⟩ := @builds_accumulateUnits
    (units.length < addressable) _ hbase _ _ hdg [0]
  have hdenotes := BigIntValue.denotes_fromOwnedLimbs neg limbs
  rw [hv] at hdenotes
  refine ⟨_, hdenotes, ?_⟩
  rw [BigIntValue.fromRadixDigits, isEmpty_eq_false_iff.mpr hne, hbits]
  refine .bind (.reserve fun hfits => ?_) (.bind hbuilds (.pure _))
  have := mul_le_mul hfits.le hwidth
  simp only [addressable] at this
  omega

/-- The units of a decimal number are those of its bytes. -/
theorem decimalDigits_toUInt8 {units : List UInt16} {digits : List Nat}
    (hdg : AreDigits 10 units digits) :
    (units.map UInt16.toUInt8).all isAsciiDigit = true ∧
      decimalDigits (units.map UInt16.toUInt8) = digits := by
  induction units generalizing digits with
  | nil => exact ⟨rfl, (map_eq_nil_iff.mp hdg.symm).symm⟩
  | cons unit units ih =>
    cases digits with
    | nil => cases hdg
    | cons digit digits =>
      obtain ⟨hunit, hrest⟩ := cons.inj hdg
      obtain ⟨hall, hs⟩ := ih hrest
      have hrange : (48 ≤ unit.toNat ∧ unit.toNat ≤ 57) ∧ digit = unit.toNat - 48 := by
        obtain ⟨hsome, hless⟩ := Option.filter_eq_some_iff.mp hunit
        simp only [decide_eq_true_eq] at hless
        split_ifs at hsome with hdecimal hlower hupper
        · exact ⟨hdecimal, (Option.some.inj hsome).symm⟩
        · have := Option.some.inj hsome
          omega
        · have := Option.some.inj hsome
          omega
      have hbyte : unit.toUInt8.toNat = unit.toNat := by
        rw [UInt16.toNat_toUInt8]
        omega
      refine ⟨?_, ?_⟩
      · rw [map_cons, all_cons, hall, Bool.and_true, isAsciiDigit_iff, hbyte]
        exact hrange.1
      · rw [map_cons, decimalDigits, map_cons, hbyte, ← hrange.2]
        exact congrArg _ hs

/-! ## Formatting -/

theorem remainders_eq {divisor : UInt64} (hdivisor : 1 < divisor.toNat) (h : CanonicalLimbs limbs) :
    remainders divisor hdivisor limbs = Nat.digits divisor.toNat (limbsValue limbs) := by
  generalize hnumber : limbsValue limbs = number
  induction number using Nat.strong_induction_on generalizing limbs with
  | _ number ih =>
    rw [remainders]
    split
    · next hnil => rw [← hnumber, hnil, limbsValue_nil, Nat.digits_zero]
    next hne =>
      obtain ⟨hv, hless⟩ := divideLimbs_spec (Nat.zero_lt_of_lt hdivisor) limbs
      rw [hnumber] at hv
      have hpos : 0 < number :=
        pos_of_ne_zero fun hz => hne (h.value_eq_zero.mp (hnumber.trans hz))
      have hquot : number / divisor.toNat = limbsValue (divideLimbs divisor limbs).1 := by
        rw [hv, Nat.mul_add_div (by omega), Nat.div_eq_of_lt hless, add_zero]
      have hrem : number % divisor.toNat = (divideLimbs divisor limbs).2 := by
        rw [hv, Nat.mul_add_mod, Nat.mod_eq_of_lt hless]
      rw [Nat.digits_def' hdivisor hpos, hquot, hrem]
      rw [ih _ (hquot ▸ Nat.div_lt_self hpos hdivisor) (canonical_trimLimbs _)
        (limbsValue_trimLimbs _)]

theorem reverse_remainders {divisor : UInt64} (hdivisor : 1 < divisor.toNat)
    (h : CanonicalLimbs limbs) (hne : limbs ≠ []) :
    (remainders divisor hdivisor limbs).reverse = numeral divisor.toNat (limbsValue limbs) := by
  rw [remainders_eq hdivisor h, numeral, if_neg fun hz => hne (h.value_eq_zero.mp hz)]

theorem reverse_chunkDigits (chunk : Nat) : (chunkDigits chunk).reverse = numeral 10 chunk := by
  have hdg : chunkDigits chunk = if chunk = 0 then [0] else Nat.digits 10 chunk := by
    induction chunk using Nat.strong_induction_on with
    | _ chunk ih =>
      rw [chunkDigits]
      split
      · split
        · next hz => rw [hz]
        · next hpos => rw [Nat.digits_of_lt 10 chunk hpos (by omega), Nat.mod_eq_of_lt (by omega)]
      next hmore =>
        have hstep : Nat.digits 10 chunk = _ := Nat.digits_def' (by decide) (by omega)
        rw [ih _ (by omega), if_neg hmore, if_neg (by omega), hstep]
  rw [hdg, numeral]
  split
  · rfl
  · rfl

/-- A chunk behind another one. -/
def paddedChunk (chunk : Nat) : List Nat :=
  List.replicate (decimalChunkDigits - (numeral 10 chunk).length) 0 ++ numeral 10 chunk

theorem appendDecimalChunk_eq (output : List UInt8) (chunk : Nat) (padded : Bool) :
    appendDecimalChunk output chunk padded =
      output ++ (if padded then paddedChunk chunk else numeral 10 chunk).map digitByte := by
  rw [appendDecimalChunk, reverse_chunkDigits]
  cases padded with
  | true =>
    simp only [if_true, paddedChunk, map_append, map_replicate, length_map]
    rfl
  | false => rfl

theorem paddedChunk_facts {chunk : Nat} (h : chunk < 10 ^ 9) :
    (paddedChunk chunk).length = 9 ∧ digitsNumber 10 (paddedChunk chunk) = chunk ∧
      ∀ digit ∈ paddedChunk chunk, digit < 10 := by
  have hnumeral := isNumeral_numeral (show 1 < 10 by decide) chunk
  have hlen : (numeral 10 chunk).length ≤ 9 := by
    rw [numeral]
    split
    · decide
    · rw [length_reverse]
      exact (Nat.digits_length_le_iff (by decide) chunk).mpr h
  refine ⟨?_, ?_, ?_⟩
  · rw [paddedChunk, length_append, length_replicate, decimalChunkDigits]
    omega
  · rw [paddedChunk, digitsNumber_append, hnumeral.denotes, digitsNumber_eq, reverse_replicate,
      Nat.ofDigits_replicate_zero, Nat.zero_mul, zero_add]
  · intro digit hm
    rcases mem_append.mp hm with hm | hm
    · rw [eq_of_mem_replicate hm]
      decide
    · exact hnumeral.digit_lt digit hm

theorem foldl_appendDecimalChunk (chunks : List Nat) (output : List UInt8) :
    chunks.foldl (fun output chunk => appendDecimalChunk output chunk true) output =
      output ++ (chunks.flatMap paddedChunk).map digitByte := by
  induction chunks generalizing output with
  | nil => simp
  | cons chunk chunks ih => rw [foldl_cons, ih, appendDecimalChunk_eq, if_pos rfl, append_assoc,
      ← map_append, flatMap_cons]

theorem digitsNumber_chunks {chunks : List Nat} (h : ∀ chunk ∈ chunks, chunk < 10 ^ 9)
    (digits : List Nat) :
    digitsNumber 10 (digits ++ chunks.flatMap paddedChunk) =
      chunks.foldl (fun number chunk => number * 10 ^ 9 + chunk) (digitsNumber 10 digits) := by
  induction chunks generalizing digits with
  | nil => rw [flatMap_nil, append_nil, foldl_nil]
  | cons chunk chunks ih =>
    obtain ⟨hlen, hnumber, -⟩ := paddedChunk_facts (h chunk mem_cons_self)
    rw [flatMap_cons, ← append_assoc, ih fun other hm => h other (mem_cons_of_mem _ hm),
      digitsNumber_append, hlen, hnumber, foldl_cons]

/-- The chunks of a number make its decimal numeral. -/
theorem numeral_of_chunks {number most : Nat} {chunks : List Nat}
    (h : IsNumeral (10 ^ 9) number (most :: chunks)) (hpos : number ≠ 0) :
    numeral 10 most ++ chunks.flatMap paddedChunk = numeral 10 number := by
  have hless : ∀ chunk ∈ chunks, chunk < 10 ^ 9 :=
    fun chunk hm => h.digit_lt chunk (mem_cons_of_mem _ hm)
  have hmost := isNumeral_numeral (show 1 < 10 by decide) most
  refine IsNumeral.eq_numeral (by decide) ⟨?_, ?_, ?_, ?_⟩
  · exact fun hnil => hmost.nonempty (append_eq_nil_iff.mp hnil).1
  · intro digit hm
    rcases mem_append.mp hm with hm | hm
    · exact hmost.digit_lt digit hm
    · obtain ⟨chunk, hchunk, hm⟩ := mem_flatMap.mp hm
      exact (paddedChunk_facts (hless chunk hchunk)).2.2 digit hm
  · -- a zero in front would be that of a chunk that is zero
    intro hhead
    rw [head?_append_of_ne_nil _ hmost.nonempty] at hhead
    have hz : most = 0 := by
      rw [← hmost.denotes, hmost.leading hhead]
      rfl
    have hdenotes := h.denotes
    rw [h.leading (by rw [hz]; rfl)] at hdenotes
    exact absurd hdenotes.symm hpos
  · rw [digitsNumber_chunks hless, hmost.denotes, ← h.denotes, digitsNumber, foldl_cons,
      Nat.zero_mul,
      zero_add]

/-! ## Texts -/

/-- A text of an integer: a minus sign where it is negative, and digits without a zero in front. -/
def IsText (radix : Nat) (n : Int) (text : List UInt8) : Prop :=
  ∃ digits, IsNumeral radix n.natAbs digits ∧
    text = signBytes (decide (n < 0)) ++ digits.map digitByte

namespace BigIntValue

variable {val : BigIntValue}

/-- The text that the formatters make. -/
def textOf (val : BigIntValue) (radix : Nat) : List UInt8 :=
  signBytes val.negative ++ (numeral radix (limbsValue val.limbs)).map digitByte

theorem textOf_zero (h : val.Canonical) (hnil : val.limbs = []) (radix : Nat) :
    val.textOf radix = [48] := by
  rw [textOf, h.zero hnil, hnil]
  rfl

theorem isText_iff (h : val.Canonical) (hradix : 1 < radix) (text : List UInt8) :
    IsText radix val.toInt text ↔ text = val.textOf radix := by
  rw [textOf, h.negative_eq, ← natAbs_toInt]
  constructor
  · rintro ⟨digits, hdg, rfl⟩
    rw [hdg.eq_numeral hradix]
  · exact fun htext => ⟨_, isNumeral_numeral hradix _, htext⟩

theorem remainders_length_le {divisor : UInt64} (hdivisor : 1 < divisor.toNat)
    (h : CanonicalLimbs limbs) :
    (remainders divisor hdivisor limbs).length ≤ 64 * limbs.length := by
  rw [remainders_eq hdivisor h, Nat.digits_length_le_iff hdivisor]
  calc limbsValue limbs < limbBase ^ limbs.length := limbsValue_lt limbs
    _ = 2 ^ (64 * limbs.length) := limbBase_pow limbs.length
    _ ≤ divisor.toNat ^ (64 * limbs.length) := Nat.pow_le_pow_left hdivisor _

theorem builds_decimalBytes (h : val.Canonical) :
    Builds (val.limbs.length < addressable) val.decimalBytes (val.textOf 10) := by
  rw [decimalBytes]
  split
  next hnil =>
    rw [textOf_zero h (isEmpty_iff.mp hnil)]
    exact .pure _
  next hne =>
    have hls : val.limbs ≠ [] := fun hnil => hne (isEmpty_iff.mpr hnil)
    have hc := remainders_length_le (show 1 < decimalChunkBase.toNat by decide) h.limbs
    have hreverse := reverse_remainders (show 1 < decimalChunkBase.toNat by decide) h.limbs hls
    have hchunks := isNumeral_numeral (show 1 < 10 ^ 9 by decide) (limbsValue val.limbs)
    refine .bind (.reserve fun hfits => hfits.trans (by decide)) (.bind (.reserve fun hfits => ?_)
      (.bind (.reserve fun hfits => ?_) ?_))
    · simp only [addressable] at hfits
      omega
    · have := Bool.toNat_le val.negative
      simp only [addressable, decimalChunkDigits] at hfits ⊢
      omega
    · rw [hreverse, show decimalChunkBase.toNat = 10 ^ 9 from rfl]
      cases hparts : numeral (10 ^ 9) (limbsValue val.limbs) with
      | nil => exact absurd hparts hchunks.nonempty
      | cons most chunks =>
        rw [hparts] at hchunks
        have hpos : limbsValue val.limbs ≠ 0 :=
          fun hz => hls (h.limbs.value_eq_zero.mp hz)
        have htext : val.textOf 10 = chunks.foldl
            (fun output chunk => appendDecimalChunk output chunk true)
            (appendDecimalChunk (signBytes val.negative) most false) := by
          rw [foldl_appendDecimalChunk, appendDecimalChunk_eq, if_neg Bool.false_ne_true,
            append_assoc, ← map_append, numeral_of_chunks hchunks hpos, textOf]
        rw [htext]
        exact .pure _

theorem builds_radixBytes (h : val.Canonical) (radix : BigIntRadix) :
    Builds (val.limbs.length < addressable) (val.radixBytes radix)
      (val.textOf radix.get.toNat) := by
  have hradix : 1 < radix.get.toUInt64.toNat := by
    exact radix.valid.1
  rw [radixBytes]
  split
  next hz =>
    rw [textOf_zero h (isEmpty_iff.mp hz)]
    exact .pure _
  next hne =>
    have hls : val.limbs ≠ [] := fun hnil => hne (isEmpty_iff.mpr hnil)
    have hreverse := reverse_remainders hradix h.limbs hls
    rw [UInt8.toNat_toUInt64] at hreverse
    have htext : val.textOf radix.get.toNat =
        (if val.negative then (remainders radix.get.toUInt64 hradix val.limbs).map digitByte ++
          [minusByte] else (remainders radix.get.toUInt64 hradix val.limbs).map
            digitByte).reverse := by
      rw [textOf, ← hreverse, map_reverse]
      cases val.negative with
      | true =>
        rw [if_pos rfl, reverse_append]
        rfl
      | false => rfl
    refine .bind (.reserve fun hfits => ?_) (htext ▸ .pure _)
    have hbits := bitLengthOf_le val.limbs
    have hlog : Nat.log2 radix.get.toNat ≤ radix.get.toNat := Nat.log2_le_self _
    have := radix.valid.2
    simp only [addressable, bitLength] at hfits ⊢
    omega

/-- The decimal text is read back. -/
theorem builds_fromDecimal_textOf (h : val.Canonical) :
    Builds ((val.textOf 10).length < addressable) (fromDecimal (val.textOf 10)) val := by
  have hnumeral := isNumeral_numeral (show 1 < 10 by decide) (limbsValue val.limbs)
  have hbyte : ∀ digit, digit < 10 → isAsciiDigit (digitByte digit) = true ∧
      (digitByte digit).toNat - 48 = digit := by
    intro digit hdigit
    interval_cases digit <;> decide
  have hall : ((numeral 10 (limbsValue val.limbs)).map digitByte).all isAsciiDigit = true := by
    rw [all_map, all_eq_true]
    exact fun digit hm => (hbyte digit (hnumeral.digit_lt digit hm)).1
  have hdg : decimalDigits ((numeral 10 (limbsValue val.limbs)).map digitByte) =
      numeral 10 (limbsValue val.limbs) := by
    rw [decimalDigits, map_map]
    refine (map_congr_left fun digit hm => ?_).trans (map_id _)
    exact (hbyte digit (hnumeral.digit_lt digit hm)).2
  obtain ⟨res, ⟨hcanon, hv⟩, hbuilds⟩ := parses_fromDecimal val.negative
    (fun hnil => hnumeral.nonempty (map_eq_nil_iff.mp hnil)) hall
  rw [hdg, hnumeral.denotes] at hv
  obtain rfl := hcanon.eq_of_toInt_eq h hv
  refine hbuilds.imp (lt_of_le_of_lt ?_)
  rw [textOf, length_append]
  exact Nat.le_add_left _ _

/-- Formatting gives the only text of a value in a radix, the decimal text is read back, and a
parser gives the canonical value that digits denote, with zeros in front or without. -/
theorem text_exact :
    (∀ val : BigIntValue, val.Canonical →
      (∃ text, Builds (val.limbs.length < addressable) val.decimalBytes text ∧
        Builds (text.length < addressable) (fromDecimal text) val) ∧
      ∀ radix : BigIntRadix, ∃ text,
        Builds (val.limbs.length < addressable) (val.radixBytes radix) text ∧
          (∀ other, IsText radix.get.toNat val.toInt other ↔ other = text) ∧
          (radix.get = 10 → Builds (val.limbs.length < addressable) val.decimalBytes text)) ∧
    ∀ (neg : Bool) (radix : Nat) (units : List UInt16) (digits : List Nat),
      (bitsPerDigit radix).isSome → units ≠ [] → AreDigits radix units digits →
        ∃ val, Denotes (signed neg (digitsNumber radix digits)) val ∧
          Builds (units.length < addressable) (fromRadixDigits units radix neg) val ∧
          (radix = 10 → Builds (units.length < addressable)
            (fromDecimal (signBytes neg ++ units.map UInt16.toUInt8)) val) := by
  refine ⟨fun val h => ⟨?_, fun radix => ?_⟩, ?_⟩
  · exact ⟨_, builds_decimalBytes h, builds_fromDecimal_textOf h⟩
  · refine ⟨_, builds_radixBytes h radix, isText_iff h radix.valid.1, fun hten => ?_⟩
    rw [hten]
    exact builds_decimalBytes h
  · intro neg radix units digits hbits hne hdg
    obtain ⟨bits, hbits⟩ := Option.isSome_iff_exists.mp hbits
    obtain ⟨val, hdenotes, hbuilds⟩ := parses_fromRadixDigits neg hbits hne hdg
    refine ⟨val, hdenotes, hbuilds, ?_⟩
    rintro rfl
    obtain ⟨hall, hs⟩ := decimalDigits_toUInt8 hdg
    obtain ⟨other, ⟨hcanon, hv⟩, ho⟩ := parses_fromDecimal neg
      (fun hnil => hne (map_eq_nil_iff.mp hnil)) hall
    rw [hs, ← hdenotes.2] at hv
    rw [← hcanon.eq_of_toInt_eq hdenotes.1 hv, ← length_map UInt16.toUInt8]
    exact ho

theorem text_exact_acrossWords :
    (∃ text, Builds (2 < addressable) (decimalBytes ⟨true, [0, 1]⟩) text ∧
      Builds (text.length < addressable) (fromDecimal text) ⟨true, [0, 1]⟩) ∧
    ∃ val, Denotes (-10) val ∧ Builds (3 < addressable) (fromRadixDigits [48, 49, 48] 10 true) val ∧
      ((10 : Nat) = 10 → Builds (3 < addressable) (fromDecimal [45, 48, 49, 48]) val) :=
  ⟨(text_exact.1 ⟨true, [0, 1]⟩ (by decide)).1, text_exact.2 true 10 [48, 49, 48] [0, 1, 0] rfl
    nofun rfl⟩

end BigIntValue

end TachyonEngine.Vm
