import Mathlib

/-!
# URI encoding and decoding

`encodeUriUnits` and `decodeUriUnits` over UTF-16 units. Every loop takes units off the front and
adds to what it has, so decoding accepts the chains of tokens (`decode_iff`), and encoding turns the
scalars of a sequence into tokens one by one (`encode_scalars`).
-/

namespace TachyonEngine.Vm

open List

inductive UriError where
  | invalidUriEncoding | invalidStringLength | stringBufferAllocationFailed

/-- `;/?:@&=+$,#` -/
def uriReserved : List UInt8 := [0x3b, 0x2f, 0x3f, 0x3a, 0x40, 0x26, 0x3d, 0x2b, 0x24, 0x2c, 0x23]

/-- `-_.!~*'()` -/
def uriMark : List UInt8 := [0x2d, 0x5f, 0x2e, 0x21, 0x7e, 0x2a, 0x27, 0x28, 0x29]

def isUriUnescaped (byte : UInt8) (component : Bool) : Bool :=
  (0x30 ≤ byte && byte ≤ 0x39) || (0x41 ≤ byte && byte ≤ 0x5a) || (0x61 ≤ byte && byte ≤ 0x7a) ||
    uriMark.contains byte || (!component && uriReserved.contains byte)

/-- `char::from_u32`. -/
def charFromU32 (scalar : Nat) : Option Char :=
  if h : scalar.isValidChar then some (Char.ofNatAux scalar h) else none

/-- `str::from_utf8` with its characters. -/
def fromUtf8 (bytes : List UInt8) : Option (List Char) :=
  bytes.toByteArray.utf8Decode?.map (·.toList)

def decodeUtf16Scalar (first : UInt16) (rest : List UInt16) : Except UriError (Nat × List UInt16) :=
  if ¬(0xd800 ≤ first.toNat ∧ first.toNat ≤ 0xdfff) then .ok (first.toNat, rest)
  else if 0xdbff < first.toNat then .error .invalidUriEncoding
  else
    match rest with
    | second :: rest =>
      if 0xdc00 ≤ second.toNat ∧ second.toNat ≤ 0xdfff then
        .ok (0x10000 + (first.toNat - 0xd800) * 2 ^ 10 + (second.toNat - 0xdc00), rest)
      else .error .invalidUriEncoding
    | [] => .error .invalidUriEncoding

def hexDigit (digit : UInt8) : UInt16 :=
  if digit < 10 then 0x30 + digit.toUInt16 else 0x41 + (digit - 10).toUInt16

def appendPercentBytes (bytes : List UInt8) : List UInt16 :=
  bytes.flatMap fun byte : UInt8 => [0x25, hexDigit (byte >>> 4), hexDigit (byte &&& 0x0f)]

def hexValue (unit : UInt16) : Option UInt8 :=
  if 0x30 ≤ unit ∧ unit ≤ 0x39 then some (unit - 0x30).toUInt8
  else if 0x41 ≤ unit ∧ unit ≤ 0x46 then some (unit - 0x41 + 10).toUInt8
  else if 0x61 ≤ unit ∧ unit ≤ 0x66 then some (unit - 0x61 + 10).toUInt8
  else none

def readPercentByte : List UInt16 → Except UriError (UInt8 × List UInt16)
  | percent :: highUnit :: lowUnit :: rest =>
    match hexValue highUnit, hexValue lowUnit with
    | some high, some low =>
      if percent = 0x25 then .ok (high <<< 4 ||| low, rest) else .error .invalidUriEncoding
    | _, _ => .error .invalidUriEncoding
  | _ => .error .invalidUriEncoding

def readPercentBytes : Nat → List UInt16 → Except UriError (List UInt8 × List UInt16)
  | 0, units => .ok ([], units)
  | n + 1, units => do
    let (byte, units) ← readPercentByte units
    let (bytes, units) ← readPercentBytes n units
    .ok (byte :: bytes, units)

def utf8SequenceLength (first : UInt8) : Option Nat :=
  if 0xc2 ≤ first ∧ first ≤ 0xdf then some 2
  else if 0xe0 ≤ first ∧ first ≤ 0xef then some 3
  else if 0xf0 ≤ first ∧ first ≤ 0xf4 then some 4
  else none

def appendUtf16Scalar (scalar : Nat) : List UInt16 :=
  if scalar ≤ 0xffff then [.ofNat scalar]
  else
    let adjusted := scalar - 0x10000
    [.ofNat (0xd800 ||| adjusted >>> 10), .ofNat (0xdc00 ||| adjusted &&& 0x3ff)]

/-- A loop over units with a state; every step takes a unit at least. -/
def scanUnits {σ : Type} (step : σ → List UInt16 → Except UriError (σ × List UInt16)) (s : σ)
    (units : List UInt16) : Except UriError σ :=
  if units = [] then .ok s
  else
    match step s units with
    | .error error => .error error
    | .ok (s, rest) => if rest.length < units.length then scanUnits step s rest else .ok s
termination_by units.length

def encodeScalar (first : UInt16) (rest : List UInt16) : Except UriError (Char × List UInt16) := do
  let (scalar, rest) ← decodeUtf16Scalar first rest
  match charFromU32 scalar with
  | some char => .ok (char, rest)
  | none => .error .invalidUriEncoding

def capacityStep (component : Bool) (capacity : Nat) :
    List UInt16 → Except UriError (Nat × List UInt16)
  | [] => .ok (capacity, [])
  | unit :: rest => do
    let (encodedUnits, rest) ←
      if unit.toNat ≤ 0x7f && isUriUnescaped unit.toUInt8 component then .ok (1, rest)
      else do
        let (char, rest) ← encodeScalar unit rest
        .ok (char.utf8Size * 3, rest)
    if capacity + encodedUnits < 2 ^ 64 then .ok (capacity + encodedUnits, rest)
    else .error .invalidStringLength

def encodedUriCapacity (units : List UInt16) (component : Bool) : Except UriError Nat :=
  scanUnits (capacityStep component) 0 units

def encodeStep (component : Bool) (output : List UInt16) :
    List UInt16 → Except UriError (List UInt16 × List UInt16)
  | [] => .ok (output, [])
  | unit :: rest =>
    if unit.toNat ≤ 0x7f && isUriUnescaped unit.toUInt8 component then .ok (output ++ [unit], rest)
    else do
      let (char, rest) ← encodeScalar unit rest
      .ok (output ++ appendPercentBytes (String.utf8EncodeChar char), rest)

def decodeStep (component : Bool) (output : List UInt16) :
    List UInt16 → Except UriError (List UInt16 × List UInt16)
  | [] => .ok (output, [])
  | unit :: units =>
    if unit ≠ 0x25 then .ok (output ++ [unit], units)
    else do
      let (first, rest) ← readPercentByte (unit :: units)
      if first < 0x80 then
        if !component && uriReserved.contains first then
          .ok (output ++ (unit :: units).take 3, rest)
        else .ok (output ++ [first.toUInt16], rest)
      else
        match utf8SequenceLength first with
        | none => .error .invalidUriEncoding
        | some length => do
          let (bytes, rest) ← readPercentBytes (length - 1) rest
          match fromUtf8 (first :: bytes) with
          | some [scalar] => .ok (output ++ appendUtf16Scalar scalar.toNat, rest)
          | _ => .error .invalidUriEncoding

section Memory

variable (reserves : Nat → Bool)

/-- `Vec::try_reserve_exact`: a vector has `isize::MAX` bytes at most. -/
def tryReserveUnits (capacity : Nat) : Bool := capacity * 2 < 2 ^ 63 && reserves capacity

def encodeUriUnits (units : List UInt16) (component : Bool) : Except UriError (List UInt16) := do
  let capacity ← encodedUriCapacity units component
  if tryReserveUnits reserves capacity then scanUnits (encodeStep component) [] units
  else .error .stringBufferAllocationFailed

def decodeUriUnits (units : List UInt16) (component : Bool) : Except UriError (List UInt16) :=
  if tryReserveUnits reserves units.length then scanUnits (decodeStep component) [] units
  else .error .stringBufferAllocationFailed

end Memory

/-! ## Tokens -/

/-- Every surrogate is one of a pair. -/
inductive Paired : List UInt16 → Prop where
  | nil : Paired []
  | unit {u : UInt16} {rest : List UInt16} (hu : u.toNat < 0xd800 ∨ 0xdfff < u.toNat)
      (h : Paired rest) : Paired (u :: rest)
  | pair {high low : UInt16} {rest : List UInt16} (hh : 0xd800 ≤ high.toNat ∧ high.toNat ≤ 0xdbff)
      (hl : 0xdc00 ≤ low.toNat ∧ low.toNat ≤ 0xdfff) (h : Paired rest) :
      Paired (high :: low :: rest)

/-- Each byte as a percent sign and two hexadecimal digits. -/
inductive Escaped : List UInt8 → List UInt16 → Prop where
  | nil : Escaped [] []
  | cons {high low : UInt8} {h l : UInt16} {bytes : List UInt8} {units : List UInt16}
      (hh : hexValue h = some high) (hl : hexValue l = some low) (hrest : Escaped bytes units) :
      Escaped ((high <<< 4 ||| low) :: bytes) (0x25 :: h :: l :: units)

/-- What decoding takes off the front, emits and leaves: a unit, the escape of a scalar, or in a
full URI the escape of a reserved character, which stays. -/
inductive DecodeToken (component : Bool) : List UInt16 → List UInt16 → List UInt16 → Prop where
  | plain {u : UInt16} {rest : List UInt16} (hu : u ≠ 0x25) :
      DecodeToken component (u :: rest) [u] rest
  | scalar {esc rest : List UInt16} (c : Char) (hesc : Escaped (String.utf8EncodeChar c) esc)
      (h : ∀ byte ∈ uriReserved, String.utf8EncodeChar c = [byte] → component = true) :
      DecodeToken component (esc ++ rest) (appendUtf16Scalar c.toNat) rest
  | reserved {esc rest : List UInt16} {byte : UInt8} (hesc : Escaped [byte] esc)
      (hb : byte ∈ uriReserved) (hc : component = false) :
      DecodeToken component (esc ++ rest) esc rest

inductive Decodes (component : Bool) : List UInt16 → List UInt16 → Prop where
  | nil : Decodes component [] []
  | cons {units emitted rest out : List UInt16} (h : DecodeToken component units emitted rest)
      (hrest : Decodes component rest out) : Decodes component units (emitted ++ out)

variable {component : Bool} {units rest out : List UInt16} {c : Char}

theorem bind_ok_iff {ε α β : Type} {first : Except ε α} {more : α → Except ε β} {b : β} :
    (first >>= more) = .ok b ↔ ∃ a, first = .ok a ∧ more a = .ok b := by
  cases first with
  | error | ok => simp [bind, Except.bind]

/-! ## Scalars -/

theorem charFromU32_iff {n : Nat} {c : Char} : charFromU32 n = some c ↔ n = c.toNat := by
  simp only [charFromU32]
  split_ifs with hinvalid
  · rw [Option.some_inj]
    constructor
    · rintro rfl
      rfl
    · rintro rfl
      exact Char.ext rfl
  · refine ⟨(fun h => by cases h), ?_⟩
    rintro rfl
    exact absurd c.valid hinvalid

theorem surrogate_toNat {a k : Nat} (ha : a < 2 ^ 6) (hk : k < 2 ^ 10) :
    (UInt16.ofNat (2 ^ 10 * a ||| k)).toNat = 2 ^ 10 * a + k := by
  rw [← Nat.two_pow_add_eq_or_of_lt hk, UInt16.toNat_ofNat', Nat.mod_eq_of_lt (by omega)]

/-- The units of a scalar are one that is no surrogate, or a pair. -/
theorem appendUtf16Scalar_cases (c : Char) :
    (∃ u, appendUtf16Scalar c.toNat = [u] ∧ u.toNat = c.toNat ∧
        (u.toNat < 0xd800 ∨ 0xdfff < u.toNat)) ∨
      ∃ h l, appendUtf16Scalar c.toNat = [h, l] ∧ (0xd800 ≤ h.toNat ∧ h.toNat ≤ 0xdbff) ∧
        (0xdc00 ≤ l.toNat ∧ l.toNat ≤ 0xdfff) ∧
        c.toNat = 0x10000 + (h.toNat - 0xd800) * 2 ^ 10 + (l.toNat - 0xdc00) := by
  have hvalid : c.toNat < 0xd800 ∨ 0xdfff < c.toNat ∧ c.toNat < 0x110000 := c.valid
  by_cases hsm : c.toNat ≤ 0xffff
  · have hunit : (UInt16.ofNat c.toNat).toNat = c.toNat := by
      rw [UInt16.toNat_ofNat', Nat.mod_eq_of_lt (by omega)]
    exact .inl ⟨_, if_pos hsm, hunit, by omega⟩
  · obtain ⟨n, hn⟩ : ∃ n, n = c.toNat - 0x10000 := ⟨_, rfl⟩
    have hshift : n >>> 10 = n / 2 ^ 10 := Nat.shiftRight_eq_div_pow n 10
    have hmask : n &&& 0x3ff = n % 2 ^ 10 := Nat.and_two_pow_sub_one_eq_mod n 10
    have hhigh := @surrogate_toNat 54 (n / 2 ^ 10) (by decide) (by omega)
    have hlow := @surrogate_toNat 55 (n % 2 ^ 10) (by decide) (by omega)
    refine .inr ⟨_, _, if_neg hsm, ?_⟩
    rw [← hn, hshift, hmask]
    simp only [Nat.reducePow, Nat.reduceMul] at hhigh hlow ⊢
    omega

theorem exists_unit {u : UInt16} (hu : u.toNat < 0xd800 ∨ 0xdfff < u.toNat) :
    ∃ c : Char, c.toNat = u.toNat ∧ appendUtf16Scalar c.toNat = [u] := by
  have hlt := u.toNat_lt
  obtain ⟨c, hc⟩ : ∃ c : Char, c.toNat = u.toNat :=
    ⟨Char.ofNatAux u.toNat (hu.imp id fun h => ⟨h, by omega⟩), rfl⟩
  exact ⟨c, hc, by rw [hc, appendUtf16Scalar, if_pos (by omega), UInt16.ofNat_toNat]⟩

theorem exists_pair {h l : UInt16} (hh : 0xd800 ≤ h.toNat ∧ h.toNat ≤ 0xdbff)
    (hl : 0xdc00 ≤ l.toNat ∧ l.toNat ≤ 0xdfff) :
    ∃ c : Char, c.toNat = 0x10000 + (h.toNat - 0xd800) * 2 ^ 10 + (l.toNat - 0xdc00) ∧
      appendUtf16Scalar c.toNat = [h, l] := by
  obtain ⟨c, hc⟩ : ∃ c : Char,
      c.toNat = 0x10000 + (h.toNat - 0xd800) * 2 ^ 10 + (l.toNat - 0xdc00) :=
    ⟨Char.ofNatAux _ (.inr (by omega)), rfl⟩
  refine ⟨c, hc, ?_⟩
  rcases appendUtf16Scalar_cases c with ⟨v, _, hnat, _⟩ | ⟨v, w, heq, hv, hw, hnat⟩
  · have := v.toNat_lt
    omega
  · rw [heq, UInt16.toNat_inj.mp (show v.toNat = h.toNat by omega),
      UInt16.toNat_inj.mp (show w.toNat = l.toNat by omega)]

/-- The units of scalars. -/
def utf16 (cs : List Char) : List UInt16 := cs.flatMap (appendUtf16Scalar ·.toNat)

theorem appendUtf16Scalar_pos (c : Char) : 0 < (appendUtf16Scalar c.toNat).length := by
  rcases appendUtf16Scalar_cases c with ⟨u, hu, _⟩ | ⟨u, l, hu, _⟩ <;> simp [hu]

theorem utf16_cons (c : Char) (cs : List Char) :
    utf16 (c :: cs) = appendUtf16Scalar c.toNat ++ utf16 cs :=
  flatMap_cons

theorem Paired.scalar (c : Char) (h : Paired units) :
    Paired (appendUtf16Scalar c.toNat ++ units) := by
  rcases appendUtf16Scalar_cases c with ⟨u, hu, _, hr⟩ | ⟨u, l, hu, hh, hl, _⟩
  · rw [hu]
    exact .unit hr h
  · rw [hu]
    exact .pair hh hl h

/-- A sequence without unpaired surrogates is one of scalars. -/
theorem Paired.scalars (h : Paired units) :
    ∃ cs, units = utf16 cs := by
  induction h with
  | nil => exact ⟨[], rfl⟩
  | unit hu _ ih =>
    obtain ⟨⟨cs, rfl⟩, c, _, hc⟩ := ih, exists_unit hu
    exact ⟨c :: cs, by rw [utf16_cons, hc]; rfl⟩
  | pair hh hl _ ih =>
    obtain ⟨⟨cs, rfl⟩, c, _, hc⟩ := ih, exists_pair hh hl
    exact ⟨c :: cs, by rw [utf16_cons, hc]; rfl⟩

theorem encodeScalar_iff {u : UInt16} {rest' : List UInt16} :
    encodeScalar u rest = .ok (c, rest') ↔ u :: rest = appendUtf16Scalar c.toNat ++ rest' := by
  simp only [encodeScalar, bind_ok_iff, Prod.exists]
  constructor
  · rintro ⟨n, rest₁, hdec, h⟩
    obtain ⟨rfl, rfl⟩ : n = c.toNat ∧ rest₁ = rest' := by
      split at h
      · cases h
        exact ⟨charFromU32_iff.mp ‹_›, rfl⟩
      · cases h
    simp only [decodeUtf16Scalar] at hdec
    split at hdec
    · obtain ⟨hnat, rfl⟩ := Prod.mk.inj (Except.ok.inj hdec)
      obtain ⟨c', hnat', hc⟩ := @exists_unit u (by omega)
      rw [← hnat, ← hnat', hc]
      rfl
    split at hdec
    · cases hdec
    split at hdec
    next second _ =>
      split at hdec
      · obtain ⟨hnat, rfl⟩ := Prod.mk.inj (Except.ok.inj hdec)
        obtain ⟨c', hnat', hc⟩ := @exists_pair u second (by omega) ‹_›
        rw [← hnat, ← hnat', hc]
        rfl
      · cases hdec
    · cases hdec
  · intro heq
    refine ⟨c.toNat, rest', ?_, by rw [charFromU32_iff.mpr rfl]⟩
    rcases appendUtf16Scalar_cases c with ⟨v, hv, hnat, hrange⟩ | ⟨v, w, hv, hh, hl, hnat⟩
    · rw [hv] at heq
      obtain ⟨rfl, rfl⟩ := cons.inj heq
      rw [← hnat]
      exact if_pos (by omega)
    · rw [hv, cons_append, cons_append] at heq
      obtain ⟨rfl, rfl⟩ := cons.inj heq
      rw [hnat, decodeUtf16Scalar, if_neg (by omega), if_neg (by omega)]
      exact if_pos hl

/-! ## Bytes -/

/-- The first byte of a scalar tells how many there are. -/
theorem utf8EncodeChar_head (c : Char) : ∃ b tl, String.utf8EncodeChar c = b :: tl ∧
    if b < 0x80 then tl = [] ∧ appendUtf16Scalar c.toNat = [b.toUInt16]
    else utf8SequenceLength b = some (tl.length + 1) := by
  have hvalid : c.toNat < 0xd800 ∨ 0xdfff < c.toNat ∧ c.toNat < 0x110000 := c.valid
  have hval : c.val.toNat = c.toNat := rfl
  simp only [String.utf8EncodeChar, utf8SequenceLength, UInt8.lt_iff_toNat_lt,
    UInt8.le_iff_toNat_le]
  split
  · refine ⟨_, _, rfl, ?_⟩
    rw [if_pos (by simp; omega), appendUtf16Scalar, if_pos (by omega)]
    refine ⟨rfl, congrArg (fun u => [u]) (UInt16.toNat_inj.mp ?_)⟩
    simp only [UInt8.toNat_toUInt16, UInt8.toNat_ofNat', UInt16.toNat_ofNat']
    omega
  split
  · refine ⟨_, _, rfl, ?_⟩
    rw [if_neg (by simp; omega), if_pos (by simp; omega)]
    rfl
  split
  · refine ⟨_, _, rfl, ?_⟩
    rw [if_neg (by simp; omega), if_neg (by simp; omega), if_pos (by simp; omega)]
    rfl
  · refine ⟨_, _, rfl, ?_⟩
    rw [if_neg (by simp; omega), if_neg (by simp; omega), if_neg (by simp; omega),
      if_pos (by simp; omega)]
    rfl

theorem fromUtf8_iff {bytes : List UInt8} {cs : List Char} :
    fromUtf8 bytes = some cs ↔ bytes = cs.flatMap String.utf8EncodeChar := by
  rw [fromUtf8, Option.map_eq_some_iff]
  constructor
  · rintro ⟨arr, harr, rfl⟩
    have hencode := @ByteArray.utf8Encode_get_utf8Decode? bytes.toByteArray (by simp [harr])
    simp only [harr, utf8Encode] at hencode
    simpa using (congrArg ByteArray.data hencode).symm
  · rintro rfl
    exact ⟨cs.toArray, utf8Decode?_utf8Encode, rfl⟩

/-- The scalars of one byte are those of one unit below 128. -/
theorem utf8EncodeChar_singleton_iff {b : UInt8} : String.utf8EncodeChar c = [b] ↔
    b < 0x80 ∧ appendUtf16Scalar c.toNat = [b.toUInt16] := by
  constructor
  · intro h
    obtain ⟨b', tl, hc, hhead⟩ := utf8EncodeChar_head c
    rw [h] at hc
    cases hc
    split at hhead
    · exact ⟨‹_›, hhead.2⟩
    · simp only [utf8SequenceLength] at hhead
      split at hhead
      · cases hhead
      split at hhead
      · cases hhead
      split at hhead <;> cases hhead
  · rintro ⟨hlt, hunits⟩
    have hlt : b.toNat < 0x80 := hlt
    rcases appendUtf16Scalar_cases c with ⟨u, hu, hnat, _⟩ | ⟨u, l, hu, _⟩
    · rw [hunits] at hu
      cases hu
      have hval : c.val.toNat = b.toNat := hnat.symm.trans b.toNat_toUInt16
      simp only [String.utf8EncodeChar, hval]
      rw [if_pos (by omega), UInt8.ofNat_toNat]
    · rw [hunits] at hu
      cases hu

/-! ## Escapes -/

theorem readPercentByte_iff {b : UInt8} :
    readPercentByte units = .ok (b, rest) ↔ ∃ h l high low, units = 0x25 :: h :: l :: rest ∧
      hexValue h = some high ∧ hexValue l = some low ∧ b = high <<< 4 ||| low := by
  constructor
  · intro heq
    rcases units with _ | ⟨p, _ | ⟨h, _ | ⟨l, units⟩⟩⟩
    · cases heq
    · cases heq
    · cases heq
    · simp only [readPercentByte] at heq
      split at heq
      next high low hh hl =>
        split at heq
        · cases heq
          exact ⟨h, l, high, low, by rw [‹p = _›], hh, hl, rfl⟩
        · cases heq
      · cases heq
  · rintro ⟨h, l, high, low, rfl, hh, hl, rfl⟩
    simp [readPercentByte, hh, hl]

theorem readPercentBytes_iff {n : Nat} {bs : List UInt8} :
    readPercentBytes n units = .ok (bs, rest) ↔
      bs.length = n ∧ ∃ esc, units = esc ++ rest ∧ Escaped bs esc := by
  induction n generalizing units rest bs with
  | zero =>
    constructor
    · intro h
      cases h
      exact ⟨rfl, [], rfl, .nil⟩
    · rintro ⟨hlen, esc, rfl, hesc⟩
      obtain rfl := length_eq_zero_iff.mp hlen
      cases hesc
      rfl
  | succ n ih =>
    simp only [readPercentBytes, bind_ok_iff, Prod.exists, readPercentByte_iff, ih]
    constructor
    · rintro ⟨b, _, ⟨h, l, high, low, rfl, hh, hl, rfl⟩, bs, _, ⟨hlen, esc, rfl, hesc⟩, heq⟩
      cases heq
      exact ⟨congrArg Nat.succ hlen, _, rfl, .cons hh hl hesc⟩
    · rintro ⟨hlen, esc, rfl, hesc⟩
      cases hesc with
      | nil => cases hlen
      | cons hh hl hrest =>
        exact ⟨_, _, ⟨_, _, _, _, rfl, hh, hl, rfl⟩, _, _, ⟨Nat.succ.inj hlen, _, rfl, hrest⟩, rfl⟩

theorem escaped_appendPercentBytes (bytes : List UInt8) :
    Escaped bytes (appendPercentBytes bytes) := by
  induction bytes with
  | nil => exact .nil
  | cons b bytes ih =>
    have hdigits : ∀ n : Fin 256,
        hexValue (hexDigit (UInt8.ofNat n >>> 4)) = some (UInt8.ofNat n >>> 4) ∧
        hexValue (hexDigit (UInt8.ofNat n &&& 0x0f)) = some (UInt8.ofNat n &&& 0x0f) ∧
        (UInt8.ofNat n >>> 4) <<< 4 ||| (UInt8.ofNat n &&& 0x0f) = UInt8.ofNat n := by
      decide +kernel
    have hb := hdigits ⟨b.toNat, b.toNat_lt⟩
    simp only [UInt8.ofNat_toNat] at hb
    have hcons := Escaped.cons hb.1 hb.2.1 ih
    rwa [hb.2.2] at hcons

/-- The percent sign is always escaped, reserved characters stay in a full URI. -/
theorem reserved_facts : isUriUnescaped 0x25 true = false ∧ isUriUnescaped 0x25 false = false ∧
    ∀ byte ∈ uriReserved,
      byte < 0x80 ∧ byte.toUInt16.toNat ≤ 0x7f ∧ isUriUnescaped byte false = true := by
  decide +kernel

/-! ## Decoding -/

theorem decodeStep_iff {output output' : List UInt16} (hne : units ≠ []) :
    decodeStep component output units = .ok (output', rest) ↔
      ∃ e, DecodeToken component units e rest ∧ output' = output ++ e := by
  obtain ⟨unit, units, rfl⟩ := exists_cons_of_ne_nil hne
  constructor
  · intro h
    simp only [decodeStep] at h
    split at h
    · cases h
      exact ⟨_, .plain ‹_›, rfl⟩
    simp only [bind_ok_iff, Prod.exists, readPercentByte_iff] at h
    obtain ⟨first, rest₁, ⟨hu, l, high, low, heq, hh, hl, hbyte⟩, h⟩ := h
    have hesc : ∀ {bytes esc}, Escaped bytes esc →
        Escaped (first :: bytes) (0x25 :: hu :: l :: esc) := by
      intro bytes esc hrest
      rw [hbyte]
      exact .cons hh hl hrest
    rw [heq] at h ⊢
    split at h
    next hlt =>
      split_ifs at h with hres
      · simp only [Bool.and_eq_true, Bool.not_eq_true', contains_eq_mem,
          decide_eq_true_eq] at hres
        cases h
        exact ⟨_, .reserved (hesc .nil) hres.2 hres.1, rfl⟩
      · cases h
        obtain ⟨c, _, hunits⟩ := @exists_unit first.toUInt16 (by
          have hlt : first.toNat < 0x80 := hlt
          rw [UInt8.toNat_toUInt16]
          omega)
        have hc := utf8EncodeChar_singleton_iff.mpr ⟨hlt, hunits⟩
        refine ⟨_, .scalar c (hc ▸ hesc .nil) ?_, by rw [hunits]⟩
        intro byte hmem hb
        rw [hc] at hb
        cases hb
        simpa [hmem] using hres
    next hge =>
      split at h
      · cases h
      simp only [bind_ok_iff, Prod.exists, readPercentBytes_iff] at h
      obtain ⟨bytes, _, ⟨-, esc, rfl, hrest⟩, h⟩ := h
      split at h
      next c hc =>
        cases h
        have hbytes := fromUtf8_iff.mp hc
        rw [flatMap_singleton] at hbytes
        refine ⟨_, .scalar c (hbytes ▸ hesc hrest) ?_, rfl⟩
        intro byte hmem hb
        rw [← hbytes] at hb
        cases hb
        exact absurd (reserved_facts.2.2 _ hmem).1 hge
      · cases h
  · rintro ⟨e, htoken, rfl⟩
    generalize hunits : unit :: units = us at htoken ⊢
    cases htoken with
    | plain hu => simp only [decodeStep, if_pos hu]
    | scalar c hesc h =>
      obtain ⟨b, tl, hc, hhead⟩ := utf8EncodeChar_head c
      rw [hc] at hesc
      generalize hbytes : b :: tl = bytes at hesc
      cases hesc with
      | nil => cases hbytes
      | @cons high low hu l _ more hh hl hmore =>
        obtain ⟨rfl, rfl⟩ := cons.inj hbytes
        simp only [decodeStep, cons_append, ne_eq, not_true, if_false, readPercentByte, hh, hl,
          if_true, bind, Except.bind]
        split_ifs at hhead with hlt
        · obtain ⟨rfl, hone⟩ := hhead
          have hres : ¬(!component && uriReserved.contains (high <<< 4 ||| low)) = true := by
            simp only [Bool.and_eq_true, contains_eq_mem, decide_eq_true_eq]
            rintro ⟨hcomp, hmem⟩
            rw [h _ hmem hc] at hcomp
            cases hcomp
          cases hmore
          rw [if_pos hlt, if_neg hres, hone]
          rfl
        · have hutf : fromUtf8 ((high <<< 4 ||| low) :: tl) = some [c] :=
            fromUtf8_iff.mpr (by rw [flatMap_singleton, hc])
          have hmany : readPercentBytes (tl.length + 1 - 1) (more ++ rest) = .ok (tl, rest) :=
            readPercentBytes_iff.mpr ⟨rfl, more, rfl, hmore⟩
          simp only [if_neg hlt, hhead, hmany, hutf]
    | reserved hesc hmem hcomp =>
      cases hesc with
      | cons hh hl hmore =>
        cases hmore
        simp [decodeStep, readPercentByte, hh, hl, bind, Except.bind, (reserved_facts.2.2 _ hmem).1,
          hcomp, hmem]

theorem DecodeToken.shorter {e : List UInt16} (h : DecodeToken component units e rest) :
    rest.length < units.length := by
  have hpos : ∀ {bytes esc}, bytes ≠ [] → Escaped bytes esc →
      rest.length < (esc ++ rest).length := by
    intro bytes esc hne hesc
    cases hesc with
    | nil => exact absurd rfl hne
    | cons =>
      simp only [length_cons, length_append]
      omega
  cases h with
  | plain => exact Nat.lt_succ_self _
  | scalar c hesc => exact hpos String.utf8EncodeChar_ne_nil hesc
  | reserved hesc => exact hpos (cons_ne_nil _ _) hesc

/-- Decoding accepts the chains of tokens. -/
theorem decode_iff (output : List UInt16) : scanUnits (decodeStep component) output units =
    .ok out ↔
    ∃ e, Decodes component units e ∧ out = output ++ e := by
  fun_induction scanUnits (decodeStep component) output units with
  | case1 output =>
    constructor
    · intro h
      cases h
      exact ⟨[], .nil, (append_nil _).symm⟩
    · rintro ⟨e, hdec, rfl⟩
      cases hdec with
      | nil => rw [append_nil]
      | cons h => exact absurd h.shorter (Nat.not_lt_zero _)
  | case2 output units hne err herr =>
    refine ⟨(fun h => nomatch h), ?_⟩
    rintro ⟨e, hdec, _⟩
    cases hdec with
    | nil => exact absurd rfl hne
    | cons h =>
      rw [(decodeStep_iff hne).mpr ⟨_, h, rfl⟩] at herr
      cases herr
  | case3 output units hne output' rest hok hlt ih =>
    obtain ⟨e, htoken, rfl⟩ := (decodeStep_iff hne).mp hok
    rw [ih]
    constructor
    · rintro ⟨e', hdec, rfl⟩
      exact ⟨e ++ e', .cons htoken hdec, append_assoc _ _ _⟩
    · rintro ⟨_, hdec, rfl⟩
      cases hdec with
      | nil => exact absurd rfl hne
      | cons h hrest =>
        have hsame := (@decodeStep_iff _ _ _ output _ hne).mpr ⟨_, h, rfl⟩
        rw [hok] at hsame
        simp only [Except.ok.injEq, Prod.mk.injEq, append_cancel_left_eq] at hsame
        obtain ⟨rfl, rfl⟩ := hsame
        exact ⟨_, hrest, (append_assoc _ _ _).symm⟩
  | case4 output units hne output' rest hok hge =>
    obtain ⟨e, htoken, _⟩ := (decodeStep_iff hne).mp hok
    exact absurd htoken.shorter hge

/-! ## Encoding -/

/-- One scalar is encoded to what a token decodes to it. -/
theorem encode_scalar (component : Bool) (c : Char) : ∃ e : List UInt16,
    e.length ≤ 9 * (appendUtf16Scalar c.toNat).length ∧
    (∀ out, DecodeToken component (e ++ out) (appendUtf16Scalar c.toNat) out) ∧
    ∀ rest, (∀ output, encodeStep component output (appendUtf16Scalar c.toNat ++ rest) =
        .ok (output ++ e, rest)) ∧
      ∀ cap, capacityStep component cap (appendUtf16Scalar c.toNat ++ rest) =
        if cap + e.length < 2 ^ 64 then .ok (cap + e.length, rest)
        else .error .invalidStringLength := by
  obtain ⟨u, us, hus⟩ := exists_cons_of_ne_nil
    (ne_nil_of_length_pos (appendUtf16Scalar_pos c))
  by_cases hcond : (u.toNat ≤ 0x7f && isUriUnescaped u.toUInt8 component) = true
  · obtain rfl : us = [] := by
      rw [Bool.and_eq_true, decide_eq_true_eq] at hcond
      rcases appendUtf16Scalar_cases c with ⟨v, hv, _⟩ | ⟨v, l, hv, hh, _⟩
      · rw [hus] at hv
        cases hv
        rfl
      · rw [hus] at hv
        cases hv
        omega
    rw [hus]
    refine ⟨[u], Nat.le_add_left 1 8, fun out => .plain ?_, fun rest => ⟨?_, fun cap => ?_⟩⟩
    · rintro rfl
      cases component with
      | false | true => exact absurd hcond (by decide)
    · exact fun output => if_pos hcond
    · simp only [cons_append, capacityStep, if_pos hcond]
      rfl
  · have hscalar : ∀ rest, encodeScalar u (us ++ rest) = .ok (c, rest) := by
      intro rest
      rw [encodeScalar_iff, hus]
      rfl
    have hlen : (appendPercentBytes (String.utf8EncodeChar c)).length = c.utf8Size * 3 := by
      simp [appendPercentBytes, length_flatMap, map_const']
    have hunits : c.utf8Size ≤ 3 * (appendUtf16Scalar c.toNat).length := by
      rw [← String.length_utf8EncodeChar]
      simp only [String.utf8EncodeChar, appendUtf16Scalar, Char.toNat]
      repeat' split
      all_goals
        simp only [length_cons]
        omega
    refine ⟨appendPercentBytes (String.utf8EncodeChar c), by omega,
      fun out => .scalar c (escaped_appendPercentBytes _) ?_,
      fun rest => ⟨fun output => ?_, fun cap => ?_⟩⟩
    · intro byte hmem hb
      obtain ⟨-, hone⟩ := utf8EncodeChar_singleton_iff.mp hb
      rw [hus] at hone
      cases hone
      obtain ⟨-, hle, hfull⟩ := reserved_facts.2.2 byte hmem
      cases component with
      | true => rfl
      | false =>
        -- in a full URI a reserved character is not escaped
        exact absurd (by rw [UInt8.toUInt8_toUInt16, hfull]; simpa using hle) hcond
    · simp only [hus, cons_append, encodeStep, if_neg hcond, hscalar, bind, Except.bind]
    · simp only [hus, cons_append, capacityStep, if_neg hcond, hscalar, bind, Except.bind,
        hlen]

theorem encode_scalars (component : Bool) (cs : List Char) : ∃ e,
    e.length ≤ 9 * (utf16 cs).length ∧ Decodes component e (utf16 cs) ∧
    (∀ output, scanUnits (encodeStep component) output (utf16 cs) = .ok (output ++ e)) ∧
    ∀ cap < 2 ^ 64, scanUnits (capacityStep component) cap (utf16 cs) =
      if cap + e.length < 2 ^ 64 then .ok (cap + e.length) else .error .invalidStringLength := by
  induction cs with
  | nil =>
    refine ⟨[], le_refl _, .nil, fun output => ?_, fun cap hcap => ?_⟩
    · rw [append_nil, utf16, flatMap_nil, scanUnits, if_pos rfl]
    · rw [utf16, flatMap_nil, scanUnits]
      exact (if_pos hcap).symm
  | cons c cs ih =>
    obtain ⟨e', hle', hdec, hscan, hcapacity⟩ := ih
    obtain ⟨e, hle, htoken, hstep⟩ := encode_scalar component c
    obtain ⟨hencode, hcap⟩ := hstep (utf16 cs)
    have hlt : (utf16 cs).length < (appendUtf16Scalar c.toNat ++ utf16 cs).length := by
      rw [length_append]
      exact Nat.lt_add_of_pos_left (appendUtf16Scalar_pos c)
    have hne := ne_nil_of_length_pos (Nat.zero_lt_of_lt hlt)
    rw [utf16_cons]
    refine ⟨e ++ e', ?_, .cons (htoken e') hdec, fun output => ?_, fun cap hroom => ?_⟩
    · simp only [length_append]
      omega
    · rw [scanUnits, if_neg hne]
      simp only [hencode]
      rw [if_pos hlt, hscan, append_assoc]
    · have hlen : cap + (e ++ e').length = cap + e.length + e'.length := by
        rw [length_append, add_assoc]
      rw [scanUnits, if_neg hne, hcap, hlen]
      by_cases hfits : cap + e.length < 2 ^ 64
      · simp only [if_pos hfits, if_pos hlt]
        exact hcapacity _ hfits
      · simp only [if_neg hfits]
        exact (if_neg (by omega)).symm

/-- What the sizing pass takes off the front is no unpaired surrogate. -/
theorem paired_of_capacityStep {cap cap' : Nat} (hne : units ≠ [])
    (h : capacityStep component cap units = .ok (cap', rest)) :
    rest.length < units.length ∧ (Paired rest → Paired units) := by
  obtain ⟨u, us, rfl⟩ := exists_cons_of_ne_nil hne
  simp only [capacityStep] at h
  split_ifs at h with hcond
  · rw [Bool.and_eq_true, decide_eq_true_eq] at hcond
    obtain ⟨_, hone, h⟩ := bind_ok_iff.mp h
    cases hone
    split at h
    · cases h
      exact ⟨Nat.lt_succ_self _, .unit (.inl (by omega))⟩
    · cases h
  · simp only [bind_ok_iff, Prod.exists] at h
    obtain ⟨c, rest₁, hscalar, k, _, heq, h⟩ := h
    cases heq
    split at h
    · cases h
      rw [encodeScalar_iff.mp hscalar, length_append]
      exact ⟨Nat.lt_add_of_pos_left (appendUtf16Scalar_pos c), Paired.scalar c⟩
    · cases h

theorem paired_of_capacity {cap n : Nat} (h :
    scanUnits (capacityStep component) cap units = .ok n) :
    Paired units := by
  fun_induction scanUnits (capacityStep component) cap units with
  | case1 => exact .nil
  | case2 => cases h
  | case3 cap units hne cap' rest hok hlt ih => exact (paired_of_capacityStep hne hok).2 (ih h)
  | case4 cap units hne cap' rest hok hge => exact absurd (paired_of_capacityStep hne hok).1 hge

/-- Where memory suffices, encoding fails on unpaired surrogates alone; decoding inverts it and
accepts the chains of tokens; and the capacity is the length of the output. -/
theorem uri_round_trip (reserves : Nat → Bool) (component : Bool) (units : List UInt16) :
    (∀ out, encodeUriUnits reserves units component = .ok out → Paired units ∧
        encodedUriCapacity units component = .ok out.length ∧
        (tryReserveUnits reserves out.length = true →
          decodeUriUnits reserves out component = .ok units)) ∧
      (Paired units → (∀ n ≤ 9 * units.length, tryReserveUnits reserves n = true) →
        ∃ out, encodeUriUnits reserves units component = .ok out) ∧
      ∀ out, decodeUriUnits reserves units component = .ok out ↔
        tryReserveUnits reserves units.length = true ∧ Decodes component units out := by
  have hdecode : ∀ units out, scanUnits (decodeStep component) [] units = .ok out ↔
      Decodes component units out := by
    intro units out
    rw [decode_iff]
    simp
  refine ⟨fun out h => ?_, fun hp hmem => ?_, fun out => ?_⟩
  · obtain ⟨cap, hcap, h⟩ := bind_ok_iff.mp h
    have hp := paired_of_capacity hcap
    obtain ⟨cs, rfl⟩ := hp.scalars
    obtain ⟨e, -, hdec, hscan, hcapacity⟩ := encode_scalars component cs
    rw [hscan] at h
    have hcap' := hcap
    rw [encodedUriCapacity, hcapacity 0 (by decide), zero_add] at hcap'
    split at hcap'
    · obtain rfl := Except.ok.inj hcap'
      split at h
      · obtain rfl := Except.ok.inj h
        exact ⟨hp, hcap, fun hmem => (if_pos hmem).trans ((hdecode _ _).mpr hdec)⟩
      · cases h
    · cases hcap'
  · obtain ⟨cs, rfl⟩ := hp.scalars
    obtain ⟨e, hle, -, hscan, hcapacity⟩ := encode_scalars component cs
    have hroom : e.length * 2 < 2 ^ 63 := by
      have hreserved := hmem _ hle
      rw [tryReserveUnits, Bool.and_eq_true, decide_eq_true_eq] at hreserved
      exact hreserved.1
    refine ⟨e, bind_ok_iff.mpr ⟨e.length, ?_, ?_⟩⟩
    · rw [encodedUriCapacity, hcapacity 0 (by decide), if_pos (by omega), zero_add]
    · rw [if_pos (hmem _ hle), hscan]
      rfl
  · rw [decodeUriUnits]
    split <;> simp [*]

end TachyonEngine.Vm
