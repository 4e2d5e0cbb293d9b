import TachyonEngine.Vm.BigIntText

/-!
# Decimal literals in strings

The recogniser that stands before the parsing of a decimal number scans the bytes once and judges
the parts by their lengths. `isDecimalStringNumericLiteral_iff` says that it accepts the
StrDecimalLiteral grammar without Infinity.
-/

namespace TachyonEngine.Vm

open List

/-- `+` and `-` -/
def isSignByte (byte : UInt8) : Bool := byte == 0x2b || byte == 0x2d

/-- `e` and `E` -/
def isExponentMark (byte : UInt8) : Bool := byte == 0x65 || byte == 0x45

/-- The first index from `index` on that holds no digit. -/
def skipDigits (bytes : List UInt8) (index : Nat) : Nat :=
  if h : index < bytes.length then
    if isAsciiDigit bytes[index] then skipDigits bytes (index + 1) else index
  else index
termination_by bytes.length - index

/-- The optional exponent goes from an index to the end. -/
def exponentReachesEnd (bytes : List UInt8) (index : Nat) : Bool :=
  if bytes[index]?.any isExponentMark then
    let exponentStart := index + 1 + if bytes[index + 1]?.any isSignByte then 1 else 0
    let index := skipDigits bytes exponentStart
    if index = exponentStart then false else index == bytes.length
  else index == bytes.length

def isDecimalStringNumericLiteral (bytes : List UInt8) : Bool :=
  let integerStart := if bytes.head?.any isSignByte then 1 else 0
  let index := skipDigits bytes integerStart
  let integerDigits := index - integerStart
  let (index, fractionDigits) :=
    if bytes[index]? = some 0x2e then
      (skipDigits bytes (index + 1), skipDigits bytes (index + 1) - (index + 1))
    else (index, 0)
  if integerDigits = 0 ∧ fractionDigits = 0 then false else exponentReachesEnd bytes index

/-! ## The grammar -/

def AllDigits (digits : List UInt8) : Prop := ∀ byte ∈ digits, isAsciiDigit byte

def IsOptionalSign (sign : List UInt8) : Prop := sign = [] ∨ ∃ byte, isSignByte byte ∧ sign = [byte]

/-- The digits of a literal with their point. -/
inductive IsMantissa : List UInt8 → Prop where
  | digits {whole : List UInt8} (hwhole : AllDigits whole) (hne : whole ≠ []) : IsMantissa whole
  | pointed {whole fraction : List UInt8} (hwhole : AllDigits whole) (hne : whole ≠ [])
      (hfraction : AllDigits fraction) : IsMantissa (whole ++ 0x2e :: fraction)
  | point {fraction : List UInt8} (hfraction : AllDigits fraction) (hne : fraction ≠ []) :
      IsMantissa (0x2e :: fraction)

inductive IsOptionalExponent : List UInt8 → Prop where
  | absent : IsOptionalExponent []
  | present {mark : UInt8} {sign digits : List UInt8} (hmark : isExponentMark mark)
      (hsign : IsOptionalSign sign) (hdigits : AllDigits digits) (hne : digits ≠ []) :
      IsOptionalExponent (mark :: (sign ++ digits))

def IsUnsignedLiteral (text : List UInt8) : Prop :=
  ∃ mantissa exponent, IsMantissa mantissa ∧ IsOptionalExponent exponent ∧
    text = mantissa ++ exponent

/-- A StrDecimalLiteral other than Infinity. -/
def IsStrDecimalLiteral (bytes : List UInt8) : Prop :=
  ∃ sign text, IsOptionalSign sign ∧ IsUnsignedLiteral text ∧ bytes = sign ++ text

/-! ## Scanning digits -/

/-- No digit comes first. -/
def EndsDigits (rest : List UInt8) : Prop := ∀ byte ∈ rest.head?, isAsciiDigit byte = false

theorem takeWhile_digits {digits rest : List UInt8} (h : AllDigits digits)
    (hrest : EndsDigits rest) :
    (digits ++ rest).takeWhile isAsciiDigit = digits ∧
      (digits ++ rest).dropWhile isAsciiDigit = rest := by
  rw [takeWhile_append_of_pos h, dropWhile_append_of_pos h]
  cases rest with
  | nil => exact ⟨append_nil _, rfl⟩
  | cons byte rest =>
    have hbyte := hrest byte rfl
    rw [takeWhile_cons_of_neg (by simp [hbyte]), dropWhile_cons_of_neg (by simp [hbyte])]
    exact ⟨append_nil _, rfl⟩

theorem allDigits_takeWhile (bytes : List UInt8) : AllDigits (bytes.takeWhile isAsciiDigit) :=
  all_eq_true.mp all_takeWhile

variable {bytes : List UInt8}

/-- What stands at an index, in terms of what is left there. -/
theorem skipDigits_eq (idx : Nat) :
    skipDigits bytes idx = idx + ((bytes.drop idx).takeWhile isAsciiDigit).length ∧
      bytes.drop (skipDigits bytes idx) = (bytes.drop idx).dropWhile isAsciiDigit := by
  induction idx using skipDigits.induct bytes with
  | case1 idx hlt hdigit ih =>
    rw [skipDigits, dif_pos hlt, if_pos hdigit, drop_eq_getElem_cons hlt,
      takeWhile_cons_of_pos hdigit, dropWhile_cons_of_pos hdigit, length_cons]
    exact ⟨by omega, ih.2⟩
  | case2 idx hlt hdigit =>
    rw [skipDigits, dif_pos hlt, if_neg hdigit, drop_eq_getElem_cons hlt,
      takeWhile_cons_of_neg hdigit, dropWhile_cons_of_neg hdigit]
    exact ⟨rfl, rfl⟩
  | case3 idx hge =>
    rw [skipDigits, dif_neg hge, drop_eq_nil_of_le (Nat.le_of_not_lt hge)]
    exact ⟨rfl, rfl⟩

theorem skipDigits_eq_self_iff (idx : Nat) :
    skipDigits bytes idx = idx ↔ (bytes.drop idx).takeWhile isAsciiDigit = [] := by
  rw [(skipDigits_eq idx).1, add_eq_left, length_eq_zero_iff]

/-- The index is the length, for an index that is not past the end. -/
theorem eq_length_iff {idx : Nat} (hle : idx ≤ bytes.length) :
    (idx == bytes.length) = true ↔ bytes.drop idx = [] := by
  rw [beq_iff_eq, drop_eq_nil_iff]
  omega

theorem skipDigits_le {idx : Nat} (hle : idx ≤ bytes.length) :
    skipDigits bytes idx ≤ bytes.length := by
  have hlen := congrArg length
    (takeWhile_append_dropWhile (p := isAsciiDigit) (l := bytes.drop idx))
  rw [length_append, length_drop] at hlen
  have heq := (@skipDigits_eq bytes idx).1
  omega

/-! ## The exponent -/

theorem EndsDigits.of_byte {byte : UInt8} {rest : List UInt8} (h : isAsciiDigit byte = false) :
    EndsDigits (byte :: rest) := by
  rintro _ ⟨rfl⟩
  exact h

theorem not_digit_of_mark {byte : UInt8} (h : isExponentMark byte) : isAsciiDigit byte = false := by
  simp only [isExponentMark, Bool.or_eq_true, beq_iff_eq] at h
  rcases h with rfl | rfl <;> decide

theorem not_digit_of_sign {byte : UInt8} (h : isSignByte byte) : isAsciiDigit byte = false := by
  simp only [isSignByte, Bool.or_eq_true, beq_iff_eq] at h
  rcases h with rfl | rfl <;> decide

/-- A sign is stripped from what starts with a sign, and from nothing else. -/
theorem exists_sign_iff {rest : List UInt8} {holds : List UInt8 → Prop}
    (hholds : ∀ others, holds others → ∀ byte ∈ others.head?, isSignByte byte = false) :
    (∃ sign others, IsOptionalSign sign ∧ holds others ∧ rest = sign ++ others) ↔
      holds (rest.drop (if rest.head?.any isSignByte then 1 else 0)) := by
  constructor
  · rintro ⟨sign, others, rfl | ⟨byte, hbyte, rfl⟩, hothers, rfl⟩
    · have hany : rest.head?.any isSignByte = false := by
        cases hhead : rest.head? with
        | none => rfl
        | some byte => exact hholds rest hothers byte hhead
      rw [hany]
      exact hothers
    · rw [singleton_append, head?_cons, Option.any_some, if_pos hbyte]
      exact hothers
  · intro h
    split_ifs at h with hany
    · cases rest with
      | nil => cases hany
      | cons byte others => exact ⟨[byte], others, .inr ⟨byte, hany, rfl⟩, h, rfl⟩
    · exact ⟨[], rest, .inl rfl, h, rfl⟩

/-- All the digits that are left, at least one. -/
def IsDigitRun (rest : List UInt8) : Prop := AllDigits rest ∧ rest ≠ []

theorem IsDigitRun.head {rest : List UInt8} (h : IsDigitRun rest) :
    ∀ byte ∈ rest.head?, isSignByte byte = false := by
  intro byte hbyte
  have hdigit := h.1 byte (mem_of_head? hbyte)
  by_contra hsign
  rw [Bool.not_eq_false] at hsign
  rw [not_digit_of_sign hsign] at hdigit
  cases hdigit

theorem isDigitRun_iff (idx : Nat) :
    IsDigitRun (bytes.drop idx) ↔ skipDigits bytes idx ≠ idx ∧
      bytes.drop (skipDigits bytes idx) = [] := by
  rw [Ne, skipDigits_eq_self_iff, (skipDigits_eq idx).2]
  constructor
  · rintro ⟨hall, hne⟩
    obtain ⟨htake, hdrop⟩ := @takeWhile_digits _ [] hall nofun
    rw [append_nil] at htake hdrop
    exact ⟨by rwa [htake], hdrop⟩
  · rintro ⟨hne, hdrop⟩
    have heq := takeWhile_append_dropWhile (p := isAsciiDigit) (l := bytes.drop idx)
    rw [hdrop, append_nil] at heq
    rw [← heq]
    exact ⟨allDigits_takeWhile _, hne⟩

theorem isOptionalExponent_cons {mark : UInt8} {rest : List UInt8} :
    IsOptionalExponent (mark :: rest) ↔ isExponentMark mark ∧
      ∃ sign digits, IsOptionalSign sign ∧ IsDigitRun digits ∧ rest = sign ++ digits := by
  constructor
  · rintro (_ | ⟨hmark, hsign, hdigits, hne⟩)
    exact ⟨hmark, _, _, hsign, ⟨hdigits, hne⟩, rfl⟩
  · rintro ⟨hmark, sign, digits, hsign, ⟨hdigits, hne⟩, rfl⟩
    exact .present hmark hsign hdigits hne

/-- A sign at an index stands before the end. -/
theorem add_sign_le {idx : Nat} (hle : idx ≤ bytes.length) :
    idx + (if (bytes.drop idx).head?.any isSignByte then 1 else 0) ≤ bytes.length := by
  split_ifs with hany
  · rw [head?_drop] at hany
    by_contra hlt
    rw [getElem?_eq_none (by omega)] at hany
    cases hany
  · exact hle

theorem exponentReachesEnd_iff {idx : Nat} (hle : idx ≤ bytes.length) :
    exponentReachesEnd bytes idx = true ↔ IsOptionalExponent (bytes.drop idx) := by
  rw [exponentReachesEnd, ← head?_drop, ← head?_drop]
  cases hrest : bytes.drop idx with
  | nil =>
    rw [head?_nil, Option.any_none, if_neg Bool.false_ne_true, eq_length_iff hle]
    exact iff_of_true hrest .absent
  | cons byte rest =>
    have hlt : idx < bytes.length := by
      have hlen := congrArg length hrest
      rw [length_drop, length_cons] at hlen
      omega
    obtain rfl : bytes.drop (idx + 1) = rest := by rw [← tail_drop, hrest, tail_cons]
    rw [head?_cons, Option.any_some, isOptionalExponent_cons]
    by_cases hmark : isExponentMark byte = true
    · have hstart := add_sign_le hlt
      rw [exists_sign_iff fun _ => IsDigitRun.head, drop_drop, isDigitRun_iff, if_pos hmark,
        and_iff_right hmark]
      simp only [Bool.if_false_left, Bool.and_eq_true, Bool.not_eq_true', decide_eq_false_iff_not,
        eq_length_iff (skipDigits_le hstart)]
    · rw [if_neg hmark, eq_length_iff hle, hrest]
      exact iff_of_false (cons_ne_nil _ _) fun h => hmark h.1

/-! ## The whole literal -/

theorem IsOptionalExponent.ends {rest : List UInt8} (h : IsOptionalExponent rest) :
    EndsDigits rest ∧ rest.head? ≠ some 0x2e := by
  cases h with
  | absent => exact ⟨nofun, nofun⟩
  | present hmark =>
    refine ⟨.of_byte (not_digit_of_mark hmark), ?_⟩
    rintro ⟨rfl⟩
    cases hmark

theorem IsMantissa.head {mantissa : List UInt8} (h : IsMantissa mantissa) :
    mantissa ≠ [] ∧ ∀ byte ∈ mantissa.head?, isSignByte byte = false := by
  cases h with
  | digits hwhole hne => exact ⟨hne, IsDigitRun.head ⟨hwhole, hne⟩⟩
  | pointed hwhole hne =>
    rw [head?_append_of_ne_nil _ hne]
    exact ⟨append_ne_nil_of_left_ne_nil hne _, IsDigitRun.head ⟨hwhole, hne⟩⟩
  | point =>
    refine ⟨cons_ne_nil _ _, ?_⟩
    rintro _ ⟨rfl⟩
    decide

/-- The digits before and after the point, and what follows them. -/
def ScansUnsigned (text : List UInt8) : Prop :=
  let whole := text.takeWhile isAsciiDigit
  let after := text.dropWhile isAsciiDigit
  if after.head? = some 0x2e then
    ¬(whole = [] ∧ after.tail.takeWhile isAsciiDigit = []) ∧
      IsOptionalExponent (after.tail.dropWhile isAsciiDigit)
  else ¬whole = [] ∧ IsOptionalExponent after

theorem scansUnsigned_pointed {whole fraction exponent : List UInt8} (hwhole : AllDigits whole)
    (hfraction : AllDigits fraction) (hsome : ¬(whole = [] ∧ fraction = []))
    (hexponent : IsOptionalExponent exponent) :
    ScansUnsigned (whole ++ 0x2e :: fraction ++ exponent) := by
  obtain ⟨htake, hdrop⟩ := @takeWhile_digits _ (0x2e :: (fraction ++ exponent)) hwhole
    (.of_byte (by decide))
  obtain ⟨htake', hdrop'⟩ := takeWhile_digits hfraction hexponent.ends.1
  simp only [ScansUnsigned, append_assoc, cons_append, htake, hdrop, head?_cons, tail_cons,
    htake', hdrop']
  exact ⟨hsome, hexponent⟩

theorem isUnsignedLiteral_iff {text : List UInt8} : IsUnsignedLiteral text ↔
    ScansUnsigned text := by
  constructor
  · rintro ⟨mantissa, exponent, hmantissa, hexponent, rfl⟩
    obtain ⟨hends, hne⟩ := hexponent.ends
    cases hmantissa with
    | digits hwhole hwholeNe =>
      obtain ⟨htake, hdrop⟩ := takeWhile_digits hwhole hends
      simp only [ScansUnsigned, htake, hdrop, if_neg hne]
      exact ⟨hwholeNe, hexponent⟩
    | pointed hwhole hwholeNe hfraction =>
      exact scansUnsigned_pointed hwhole hfraction (fun h => hwholeNe h.1) hexponent
    | point hfraction hfractionNe =>
      have hnil : AllDigits [] := forall_mem_nil _
      exact scansUnsigned_pointed hnil hfraction (fun h => hfractionNe h.2) hexponent
  · have hsplit := takeWhile_append_dropWhile (p := isAsciiDigit) (l := text)
    intro h
    simp only [ScansUnsigned] at h
    split_ifs at h with hhead
    · obtain ⟨hsome, hexponent⟩ := h
      obtain ⟨after, hafter⟩ := head?_eq_some_iff.mp hhead
      rw [hafter, tail_cons] at hsome hexponent
      have hfraction := takeWhile_append_dropWhile (p := isAsciiDigit) (l := after)
      refine ⟨text.takeWhile isAsciiDigit ++ 0x2e :: after.takeWhile isAsciiDigit, _, ?_,
        hexponent, ?_⟩
      · by_cases hwhole : text.takeWhile isAsciiDigit = []
        · rw [hwhole]
          exact .point (allDigits_takeWhile _) fun h => hsome ⟨hwhole, h⟩
        · exact .pointed (allDigits_takeWhile _) hwhole (allDigits_takeWhile _)
      · rw [append_assoc, cons_append, hfraction, ← hafter, hsplit]
    · exact ⟨_, _, .digits (allDigits_takeWhile _) h.1, h.2, hsplit.symm⟩

/-- The recogniser accepts the decimal literals of the grammar. -/
theorem isDecimalStringNumericLiteral_iff (bytes : List UInt8) :
    isDecimalStringNumericLiteral bytes = true ↔ IsStrDecimalLiteral bytes := by
  have hunsigned : ∀ text, IsUnsignedLiteral text → ∀ byte ∈ text.head?,
      isSignByte byte = false := by
    rintro _ ⟨mantissa, exponent, hmantissa, -, rfl⟩ byte hbyte
    rw [head?_append_of_ne_nil _ hmantissa.head.1] at hbyte
    exact hmantissa.head.2 byte hbyte
  rw [IsStrDecimalLiteral, exists_sign_iff hunsigned, isUnsignedLiteral_iff,
    isDecimalStringNumericLiteral]
  have hstart : (if bytes.head?.any isSignByte then 1 else 0) ≤ bytes.length := by
    have hsign := @add_sign_le bytes 0 (Nat.zero_le _)
    rwa [zero_add] at hsign
  generalize (if bytes.head?.any isSignByte then 1 else 0) = start at hstart ⊢
  obtain ⟨hlen, hdrop⟩ := @skipDigits_eq bytes start
  have hindex := skipDigits_le hstart
  have hcount : skipDigits bytes start - start = 0 ↔
      (bytes.drop start).takeWhile isAsciiDigit = [] := by
    rw [← length_eq_zero_iff]
    omega
  have hget : bytes[skipDigits bytes start]? =
      ((bytes.drop start).dropWhile isAsciiDigit).head? := by
    rw [← hdrop, head?_drop]
  simp only [ScansUnsigned, hget]
  split
  next hpoint =>
    have hlt : skipDigits bytes start < bytes.length := by
      rw [← hget] at hpoint
      exact (List.getElem?_eq_some_iff.mp hpoint).1
    obtain ⟨hlen', hdrop'⟩ := @skipDigits_eq bytes (skipDigits bytes start + 1)
    rw [← hdrop, tail_drop, ← hdrop', ← hcount, ← skipDigits_eq_self_iff,
      ← exponentReachesEnd_iff (skipDigits_le hlt)]
    have hsub : skipDigits bytes (skipDigits bytes start + 1) - (skipDigits bytes start + 1) = 0 ↔
        skipDigits bytes (skipDigits bytes start + 1) = skipDigits bytes start + 1 := by omega
    simp only [hsub, Bool.if_false_left, Bool.and_eq_true, Bool.not_eq_true',
      decide_eq_false_iff_not]
  · rw [← hcount, ← hdrop, ← exponentReachesEnd_iff hindex]
    simp only [and_true, Bool.if_false_left, Bool.and_eq_true, Bool.not_eq_true',
      decide_eq_false_iff_not]

end TachyonEngine.Vm
