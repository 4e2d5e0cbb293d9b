import TachyonEngine.Vm.Shape

/-!
# Atoms and array indices

An atom is an interned string. A string is an array index if it is the canonical decimal spelling of
a number from `0` to `2 ^ 32 - 2`; an array index has one spelling, so it has one atom.
-/

namespace TachyonEngine.Vm

open List Option

/-! ## Parsing -/

def maxArrayIndex : Nat := 2 ^ 32 - 2

def isDigit (unit : UInt16) : Bool := 48 ≤ unit.toNat && unit.toNat ≤ 57

/-- The loop of `arrayIndex` over the units behind the first one, in checked 32-bit arithmetic. -/
def parseDigits : Nat → List UInt16 → Option Nat
  | value, [] => some value
  | value, unit :: rest =>
    if !isDigit unit then none
    else if 2 ^ 32 ≤ value * 10 then none
    else if 2 ^ 32 ≤ value * 10 + (unit.toNat - 48) then none
    else parseDigits (value * 10 + (unit.toNat - 48)) rest

/-- Recognizes the canonical decimal spellings of array indices. -/
def arrayIndex (string : List UInt16) : Option Nat :=
  if string.length = 0 ∨ 10 < string.length then none
  else
    match string with
    | [] => none
    | first :: rest =>
      if first.toNat = 48 then if string.length = 1 then some 0 else none
      else if !(49 ≤ first.toNat && first.toNat ≤ 57) then none
      else
        match parseDigits (first.toNat - 48) rest with
        | none => none
        | some value => if value ≤ maxArrayIndex then some value else none

def maxSafeInteger : Nat := 2 ^ 53 - 1

/-- The loop of the recognizers of safe integers, in checked 64-bit arithmetic. -/
def parseSafeDigits : Nat → List UInt16 → Option Nat
  | value, [] => some value
  | value, unit :: rest =>
    if !isDigit unit then none
    else if 2 ^ 64 ≤ value * 10 then none
    else if 2 ^ 64 ≤ value * 10 + (unit.toNat - 48) then none
    else if maxSafeInteger < value * 10 + (unit.toNat - 48) then none
    else parseSafeDigits (value * 10 + (unit.toNat - 48)) rest

/-- Recognizes a canonical spelling of bounded length; `parse` runs behind the first digit. -/
def canonicalIndex (maxLength : Nat) (parse : Nat → List UInt16 → Option Nat)
    (string : List UInt16) : Option Nat :=
  if string.length = 0 ∨ maxLength < string.length then none
  else
    match string with
    | [] => none
    | first :: rest =>
      if first.toNat = 48 then if string.length = 1 then some 0 else none
      else if !(49 ≤ first.toNat && first.toNat ≤ 57) then none
      else parse (first.toNat - 48) rest

/-- Parses one canonical safe-integer property name. -/
def safeIntegerPropertyIndex : List UInt16 → Option Nat := canonicalIndex 16 parseSafeDigits

/-- The splice has its own copy of the same scanner. -/
def spliceSafeIntegerIndex : List UInt16 → Option Nat := canonicalIndex 16 parseSafeDigits

/-! ## Spelling -/

/-- The decimal spelling of a number. -/
def decimal (n : Nat) : List UInt16 := (Nat.toDigits 10 n).map fun digit => .ofNat digit.toNat

variable {d : Nat}

/-- A digit as a unit. -/
theorem digit_unit (hd : d < 10) :
    UInt16.ofNat (Nat.digitChar d).toNat = UInt16.ofNat (48 + d) := by
  rw [Nat.toNat_digitChar_of_lt_ten hd]

variable {n : Nat}

theorem decimal_of_lt (h : n < 10) : decimal n = [UInt16.ofNat (48 + n)] := by
  rw [decimal, Nat.toDigits_of_lt_base h, map_cons, map_nil, digit_unit h]

/-- One more digit at the end. -/
theorem decimal_append (hn : 0 < n) (hd : d < 10) :
    decimal (10 * n + d) = decimal n ++ [UInt16.ofNat (48 + d)] := by
  rw [decimal, decimal, ← Nat.toDigits_append_toDigits (by decide) hn hd, map_append,
    Nat.toDigits_of_lt_base hd, map_cons, map_nil, digit_unit hd]

/-- Parsing digits below a limit; each of the loops is it. -/
def parseBelow (limit : Nat) : Nat → List UInt16 → Option Nat
  | value, [] => some value
  | value, unit :: rest =>
    if !isDigit unit then none
    else if limit ≤ value * 10 + (unit.toNat - 48) then none
    else parseBelow limit (value * 10 + (unit.toNat - 48)) rest

theorem parseDigits_eq (val : Nat) (units : List UInt16) :
    parseDigits val units = parseBelow (2 ^ 32) val units := by
  induction units generalizing val with
  | nil => rfl
  | cons unit rest ih =>
    simp only [parseDigits, parseBelow, ih]
    split
    · rfl
    · split
      · rw [if_pos (by omega)]
      · rfl

theorem parseSafeDigits_eq : parseSafeDigits = parseBelow (2 ^ 53) := by
  funext val units
  induction units generalizing val with
  | nil => rfl
  | cons unit rest ih =>
    simp only [parseSafeDigits, parseBelow, maxSafeInteger, ih]
    -- the limit is far below the overflow of the machine word
    split
    · rfl
    · by_cases h : 2 ^ 53 ≤ val * 10 + (unit.toNat - 48)
      · rw [if_pos h, if_pos (by omega : 2 ^ 53 - 1 < _), ite_self, ite_self]
      · rw [if_neg (by omega), if_neg (by omega), if_neg (by omega), if_neg h]

theorem parseBelow_append (limit val : Nat) (units : List UInt16) (last : UInt16) :
    parseBelow limit val (units ++ [last]) =
      (parseBelow limit val units).bind fun val => parseBelow limit val [last] := by
  induction units generalizing val with
  | nil => rfl
  | cons unit rest ih =>
    simp only [cons_append, parseBelow]
    split
    · rfl
    · split
      · rfl
      · exact ih _

variable {limit : Nat}

/-- What is parsed has this spelling only. -/
theorem decimal_of_parseBelow {first : Nat} (hfirst : 0 < first) (hlt : first < 10) {units : List
    UInt16} (h : parseBelow limit first units = some n) :
    0 < n ∧ (10 ≤ limit → n < limit) ∧ decimal n = UInt16.ofNat (48 + first) :: units := by
  induction units using reverseRecOn generalizing n with
  | nil =>
    obtain rfl := some.inj h
    exact ⟨hfirst, by omega, decimal_of_lt hlt⟩
  | append_singleton units last ih =>
    rw [parseBelow_append] at h
    obtain ⟨val, hv, hl⟩ := bind_eq_some_iff.mp h
    obtain ⟨hpos, -, hspelled⟩ := ih hv
    simp only [parseBelow] at hl
    split at hl
    · cases hl
    next hdigit =>
      split_ifs at hl
      obtain rfl := some.inj hl
      have hrange : 48 ≤ last.toNat ∧ last.toNat ≤ 57 := by
        simpa [isDigit] using hdigit
      have hunit : UInt16.ofNat (48 + (last.toNat - 48)) = last := by
        rw [Nat.add_sub_cancel' hrange.1, UInt16.ofNat_toNat]
      have happend := decimal_append hpos (by omega : last.toNat - 48 < 10)
      rw [hunit, hspelled] at happend
      refine ⟨by omega, by omega, ?_⟩
      rw [mul_comm val 10, happend]
      rfl

/-- A number below the limit is parsed back from its spelling. -/
theorem parseBelow_decimal (hpos : 0 < n) (hlt : n < limit) :
    ∃ first units, 0 < first ∧ first < 10 ∧ decimal n = UInt16.ofNat (48 + first) :: units ∧
      parseBelow limit first units = some n := by
  induction n using Nat.strongRecOn with
  | ind n ih =>
    by_cases hsm : n < 10
    · exact ⟨n, [], hpos, hsm, decimal_of_lt hsm, rfl⟩
    · obtain ⟨first, units, hfirst, hten, hspelled, hparsed⟩ :=
        ih (n / 10) (by omega) (by omega) (by omega)
      have hsplit : n = 10 * (n / 10) + n % 10 := by omega
      refine ⟨first, units ++ [UInt16.ofNat (48 + n % 10)], hfirst, hten, ?_, ?_⟩
      · conv_lhs => rw [hsplit]
        rw [decimal_append (by omega) (by omega), hspelled]
        rfl
      · have hunit : (UInt16.ofNat (48 + n % 10)).toNat = 48 + n % 10 := by
          rw [UInt16.toNat_ofNat', Nat.mod_eq_of_lt (by omega)]
        rw [parseBelow_append, hparsed, bind_some]
        simp only [parseBelow, isDigit, hunit]
        rw [if_neg (by simp; omega), if_neg (by omega)]
        congr 1
        omega

variable {string : List UInt16}

/-- A scanner whose length bound admits every number below the limit inverts the printing. -/
theorem canonicalIndex_iff {maxLength : Nat} (hten : 10 ≤ limit) (hlen : limit ≤ 10 ^ maxLength) :
    canonicalIndex maxLength (parseBelow limit) string = some n ↔
      n < limit ∧ string = decimal n := by
  constructor
  · intro h
    simp only [canonicalIndex] at h
    split at h
    · cases h
    · split at h
      · cases h
      · split at h
        next hz =>
          split at h
          next hone =>
            obtain rfl := some.inj h
            obtain rfl := eq_nil_of_length_eq_zero (Nat.succ.inj hone)
            refine ⟨by omega, ?_⟩
            rw [decimal_of_lt (by decide), add_zero, ← hz, UInt16.ofNat_toNat]
          · cases h
        · split_ifs at h with hdigit
          simp only [Bool.not_eq_true', Bool.not_eq_false, Bool.and_eq_true,
            decide_eq_true_eq] at hdigit
          obtain ⟨-, hlt, hspelled⟩ := decimal_of_parseBelow (by omega) (by omega) h
          rw [Nat.add_sub_cancel' (by omega), UInt16.ofNat_toNat] at hspelled
          exact ⟨hlt hten, hspelled.symm⟩
  · rintro ⟨hlt, rfl⟩
    have hpositive : 0 < maxLength := by
      apply pos_of_ne_zero
      rintro rfl
      omega
    have hdecimal : (decimal n).length ≤ maxLength := by
      rw [decimal, length_map, Nat.length_toDigits_le_iff (by decide) hpositive]
      exact hlt.trans_le hlen
    rcases eq_zero_or_pos n with rfl | hpos
    · rw [decimal_of_lt (by decide), canonicalIndex, if_neg (by simp; omega)]
      rfl
    · obtain ⟨first, units, hfirst, hten, hspelled, hparsed⟩ := parseBelow_decimal hpos hlt
      have hunit : (UInt16.ofNat (48 + first)).toNat = 48 + first := by
        rw [UInt16.toNat_ofNat', Nat.mod_eq_of_lt (by omega)]
      rw [hspelled] at hdecimal ⊢
      rw [canonicalIndex, if_neg (by rw [length_cons] at hdecimal ⊢; omega)]
      simp only [hunit, Nat.add_sub_cancel_left, hparsed]
      rw [if_neg (by omega), if_neg (by simp; omega)]

/-- Different numbers are spelled differently. -/
theorem decimal_injective : Function.Injective decimal := by
  intro m n heq
  have hlen : m + n + 10 ≤ 10 ^ (m + n + 10) := (Nat.lt_pow_self (by decide)).le
  have hm := (canonicalIndex_iff (by omega) hlen).mpr ⟨(by omega : m < m + n + 10), rfl⟩
  have hn := (canonicalIndex_iff (by omega) hlen).mpr ⟨(by omega : n < m + n + 10), heq⟩
  exact some.inj (hm.symm.trans hn)

theorem arrayIndex_eq (string : List UInt16) :
    arrayIndex string =
      (canonicalIndex 10 (parseBelow (2 ^ 32)) string).filter (· ≤ maxArrayIndex) := by
  simp only [arrayIndex, canonicalIndex, parseDigits_eq]
  split
  · rfl
  · split
    · rfl
    · split
      · split <;> rfl
      · split
        · rfl
        · cases parseBelow (2 ^ 32) _ _ with
          | none => rfl
          | some val => simp [Option.filter]

theorem arrayIndex_iff : arrayIndex string = some n ↔ n ≤ maxArrayIndex ∧ string = decimal n := by
  rw [arrayIndex_eq, filter_eq_some_iff, canonicalIndex_iff (by decide) (by decide),
    maxArrayIndex, decide_eq_true_eq]
  constructor
  · rintro ⟨⟨-, hspelled⟩, hmax⟩
    exact ⟨hmax, hspelled⟩
  · rintro ⟨hmax, hspelled⟩
    exact ⟨⟨by omega, hspelled⟩, hmax⟩

theorem safeIntegerPropertyIndex_iff :
    safeIntegerPropertyIndex string = some n ↔ n ≤ maxSafeInteger ∧ string = decimal n := by
  rw [safeIntegerPropertyIndex, parseSafeDigits_eq, canonicalIndex_iff (by decide) (by decide),
    maxSafeInteger, Nat.le_sub_one_iff_lt (by decide)]

/-- Each recognizer inverts the decimal spelling up to its own bound. -/
theorem recognizers_invert_decimal :
    (∀ string n, arrayIndex string = some n ↔ n ≤ maxArrayIndex ∧ string = decimal n) ∧
    (∀ string n, safeIntegerPropertyIndex string = some n ↔
      n ≤ maxSafeInteger ∧ string = decimal n) ∧
    (∀ string n, spliceSafeIntegerIndex string = some n ↔
      n ≤ maxSafeInteger ∧ string = decimal n) ∧
    safeIntegerPropertyIndex = spliceSafeIntegerIndex ∧
    (∀ string, arrayIndex string =
      (safeIntegerPropertyIndex string).filter (· ≤ maxArrayIndex)) ∧
    ∀ string other n,
      arrayIndex string = some n ∨ safeIntegerPropertyIndex string = some n ∨
        spliceSafeIntegerIndex string = some n →
      arrayIndex other = some n ∨ safeIntegerPropertyIndex other = some n ∨
        spliceSafeIntegerIndex other = some n → string = other := by
  have hsplice : ∀ {string n}, spliceSafeIntegerIndex string = some n ↔
      n ≤ maxSafeInteger ∧ string = decimal n := safeIntegerPropertyIndex_iff
  refine ⟨fun _ _ => arrayIndex_iff, fun _ _ => safeIntegerPropertyIndex_iff,
    fun _ _ => hsplice, rfl, ?_, ?_⟩
  · intro string
    apply ext
    intro n
    rw [arrayIndex_iff, filter_eq_some_iff, safeIntegerPropertyIndex_iff,
      decide_eq_true_eq]
    have hsmaller : maxArrayIndex ≤ maxSafeInteger := by decide
    constructor
    · rintro ⟨hmax, hspelled⟩
      exact ⟨⟨hmax.trans hsmaller, hspelled⟩, hmax⟩
    · rintro ⟨⟨-, hspelled⟩, hmax⟩
      exact ⟨hmax, hspelled⟩
  · intro string other n hs ho
    simp only [arrayIndex_iff, safeIntegerPropertyIndex_iff, hsplice] at hs ho
    have hstring : string = decimal n := by
      rcases hs with h | h | h <;> exact h.2
    rcases ho with h | h | h <;> exact hstring.trans h.2.symm

theorem toNat_le_of_mem_decimal {unit : UInt16} (h : unit ∈ decimal n) : unit.toNat ≤ 57 := by
  obtain ⟨digit, hdigit, rfl⟩ := mem_map.mp h
  have hrange : 48 ≤ digit.toNat ∧ digit.toNat ≤ 57 :=
    Char.isDigit_iff_toNat.mp (Nat.isDigit_of_mem_toDigits (by decide) (by decide) hdigit)
  rw [UInt16.toNat_ofNat']
  omega

/-! ## Atoms -/

/-- The strings of the atoms; atoms with equal strings are equal. -/
structure AtomTable where
  text : AtomId → List UInt16
  text_injective : Function.Injective text
  indexAtom : Nat → AtomId
  text_indexAtom : ∀ index, text (indexAtom index) = decimal index
  lengthAtom : AtomId
  text_lengthAtom : text lengthAtom = [108, 101, 110, 103, 116, 104]
  nameAtom : AtomId
  text_nameAtom : text nameAtom = [110, 97, 109, 101]
  prototypeAtom : AtomId
  text_prototypeAtom : text prototypeAtom = [112, 114, 111, 116, 111, 116, 121, 112, 101]

namespace AtomTable

/-- The array index that a key spells. -/
def index (atoms : AtomTable) : PropertyKey → Option Nat
  | .atom id => arrayIndex (atoms.text id)
  | _ => none

/-- The key of an index. -/
def indexKey (atoms : AtomTable) (index : Nat) : PropertyKey := .atom (atoms.indexAtom index)

variable {idx : Nat}

theorem index_indexKey (atoms : AtomTable) (h : idx ≤ maxArrayIndex) :
    atoms.index (atoms.indexKey idx) = some idx := by
  simp only [AtomTable.index, indexKey, atoms.text_indexAtom]
  exact arrayIndex_iff.mpr ⟨h, rfl⟩

/-- An array index has one key. -/
theorem eq_indexKey {atoms : AtomTable} {key : PropertyKey} (h : atoms.index key = some idx) :
    key = atoms.indexKey idx ∧ idx ≤ maxArrayIndex := by
  cases key with
  | atom id =>
    obtain ⟨hmax, hspelled⟩ := arrayIndex_iff.mp h
    rw [← atoms.text_indexAtom idx] at hspelled
    exact ⟨congrArg PropertyKey.atom (atoms.text_injective hspelled), hmax⟩
  | symbol id | «private» id => cases h

theorem index_lengthAtom (atoms : AtomTable) : atoms.index (.atom atoms.lengthAtom) = none := by
  simp only [index, atoms.text_lengthAtom]
  decide

theorem index_nameAtom (atoms : AtomTable) : atoms.index (.atom atoms.nameAtom) = none := by
  simp only [index, atoms.text_nameAtom]
  decide

theorem index_prototypeAtom (atoms : AtomTable) :
    atoms.index (.atom atoms.prototypeAtom) = none := by
  simp only [index, atoms.text_prototypeAtom]
  decide

/-! ## A table -/

/-- The three names, the numbers, and words of one letter. -/
def sampleText : Nat → List UInt16
  | 0 => [108, 101, 110, 103, 116, 104]
  | 1 => [110, 97, 109, 101]
  | 2 => [112, 114, 111, 116, 111, 116, 121, 112, 101]
  | id + 3 => if id % 2 = 0 then decimal (id / 2) else List.replicate (id / 2 + 1) 97

theorem sampleText_injective : Function.Injective sampleText := by
  -- the first units of the five kinds of text differ
  have hnumber : ∀ {n unit rest}, decimal n = unit :: rest → unit.toNat ≤ 57 := by
    intro n unit rest hspelled
    exact toNat_le_of_mem_decimal (hspelled ▸ mem_cons_self)
  intro m n heq
  match m, n with
  | 0, 0 | 1, 1 | 2, 2 => rfl
  | 0, 1 | 0, 2 | 1, 0 | 1, 2 | 2, 0 | 2, 1 => exact absurd heq (by decide)
  | 0, n + 3 | 1, n + 3 | 2, n + 3 =>
    simp only [sampleText] at heq
    split at heq
    · exact absurd (hnumber heq.symm) (by decide)
    · exact absurd (cons.inj heq).1 (by decide)
  | m + 3, 0 | m + 3, 1 | m + 3, 2 =>
    simp only [sampleText] at heq
    split at heq
    · exact absurd (hnumber heq) (by decide)
    · exact absurd (cons.inj heq).1 (by decide)
  | m + 3, n + 3 =>
    simp only [sampleText] at heq
    split at heq
    · split at heq
      · have hs := decimal_injective heq
        omega
      · exact absurd (hnumber heq) (by decide)
    · split at heq
      · exact absurd (hnumber heq.symm) (by decide)
      · have hlen := congrArg length heq
        rw [length_replicate, length_replicate] at hlen
        omega

def sample : AtomTable where
  text := sampleText
  text_injective := sampleText_injective
  indexAtom index := 2 * index + 3
  text_indexAtom index := by
    simp only [sampleText]
    rw [if_pos (Nat.mul_mod_right 2 index), Nat.mul_div_cancel_left _ (by decide)]
  lengthAtom := 0
  text_lengthAtom := rfl
  nameAtom := 1
  text_nameAtom := rfl
  prototypeAtom := 2
  text_prototypeAtom := rfl

end AtomTable

end TachyonEngine.Vm
