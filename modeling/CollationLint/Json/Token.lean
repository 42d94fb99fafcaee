import CollationLint.Digits
import CollationLint.Json.Value

namespace CollationLint.Json

inductive Token where
  | openBracket | closeBracket | openBrace | closeBrace | colon | comma
  | null
  | bool (b : Bool)
  | natural (n : Nat)
  | number
  | string (text : Text)
  deriving DecidableEq

namespace Token

def isSpace (c : Char) : Bool := c = ' ' || c = '\t' || c = '\n' || c = '\r'

def hexValue? (c : Char) : Option Nat :=
  if c.isDigit then some (c.toNat - '0'.toNat)
  else if 'a' ≤ c ∧ c ≤ 'f' then some (c.toNat - 'a'.toNat + 10)
  else if 'A' ≤ c ∧ c ≤ 'F' then some (c.toNat - 'A'.toNat + 10)
  else none

def unit? (a b c d : Char) : Option Nat := do
  return ((← hexValue? a) * 16 + (← hexValue? b)) * 256 + ((← hexValue? c) * 16 + (← hexValue? d))

def simpleEscape? (c : Char) : Option Char :=
  if c = '"' then some '"'
  else if c = '\\' then some '\\'
  else if c = '/' then some '/'
  else if c = 'b' then some '\x08'
  else if c = 'f' then some '\x0c'
  else if c = 'n' then some '\n'
  else if c = 'r' then some '\r'
  else if c = 't' then some '\t'
  else none

/-- Reads the rest of a string after its opening quote. A character written as itself gives its code
point, an escape gives its 16-bit unit. Control characters have to be escaped. -/
def scanString : List Char → Option (List Nat × List Char)
  | [] => none
  | '"' :: rest => some ([], rest)
  | '\\' :: 'u' :: a :: b :: c :: d :: rest => do
    let unit ← unit? a b c d
    let (units, rest) ← scanString rest
    return (unit :: units, rest)
  | '\\' :: c :: rest => do
    let escaped ← simpleEscape? c
    let (units, rest) ← scanString rest
    return (escaped.toNat :: units, rest)
  | c :: rest =>
    if c.toNat < 0x20 || c = '\\' then none
    else do
      let (units, rest) ← scanString rest
      return (c.toNat :: units, rest)

def isHighSurrogate (n : Nat) : Bool := 0xD800 ≤ n && n ≤ 0xDBFF

def isLowSurrogate (n : Nat) : Bool := 0xDC00 ≤ n && n ≤ 0xDFFF

/-- Joins surrogate pairs; a surrogate that stands alone is no character. -/
def decodeUnits : List Nat → Option (List Char)
  | [] => some []
  | [n] => if isHighSurrogate n || isLowSurrogate n then none else some [Char.ofNat n]
  | high :: low :: rest =>
    if isHighSurrogate high then
      if isLowSurrogate low then
        (Char.ofNat (0x10000 + (high - 0xD800) * 0x400 + (low - 0xDC00)) :: ·) <$> decodeUnits rest
      else none
    else if isLowSurrogate high then none
    else (Char.ofNat high :: ·) <$> decodeUnits (low :: rest)

/-- A leading zero stands alone. -/
def scanInteger (text : List Char) : Option (List Char × List Char) :=
  match text with
  | '0' :: rest => some (['0'], rest)
  | _ =>
    let digits := text.takeWhile Char.isDigit
    if digits.isEmpty then none else some (digits, text.dropWhile Char.isDigit)

def skipDigits (text : List Char) : Option (List Char) :=
  if (text.takeWhile Char.isDigit).isEmpty then none else some (text.dropWhile Char.isDigit)

def skipFraction (text : List Char) : Option (Bool × List Char) :=
  match text with
  | '.' :: rest => (true, ·) <$> skipDigits rest
  | _ => some (false, text)

def skipSign : List Char → List Char
  | '+' :: rest | '-' :: rest => rest
  | text => text

def skipExponent (text : List Char) : Option (Bool × List Char) :=
  match text with
  | c :: rest =>
    if c = 'e' || c = 'E' then (true, ·) <$> skipDigits (skipSign rest) else some (false, text)
  | [] => some (false, text)

def scanUnsigned (negative : Bool) (text : List Char) : Option (Token × List Char) := do
  let (digits, rest) ← scanInteger text
  let (fraction, rest) ← skipFraction rest
  let (exponent, rest) ← skipExponent rest
  return (if negative || fraction || exponent then .number else .natural (Digits.value digits), rest)

def scanNumber : List Char → Option (Token × List Char)
  | '-' :: rest => scanUnsigned true rest
  | text => scanUnsigned false text

def scan (c : Char) (text : List Char) : Option (Token × List Char) :=
  match c, text with
  | '[', _ => some (.openBracket, text)
  | ']', _ => some (.closeBracket, text)
  | '{', _ => some (.openBrace, text)
  | '}', _ => some (.closeBrace, text)
  | ':', _ => some (.colon, text)
  | ',', _ => some (.comma, text)
  | '"', _ => do
    let (units, rest) ← scanString text
    return (.string ((decodeUnits units).map String.ofList), rest)
  | 'n', 'u' :: 'l' :: 'l' :: rest => some (.null, rest)
  | 't', 'r' :: 'u' :: 'e' :: rest => some (.bool true, rest)
  | 'f', 'a' :: 'l' :: 's' :: 'e' :: rest => some (.bool false, rest)
  | _, _ => scanNumber (c :: text)

theorem length_dropWhile_le (p : Char → Bool) (text : List Char) :
    (text.dropWhile p).length ≤ text.length := (List.dropWhile_sublist p).length_le

theorem length_of_scanString {text rest : List Char} {units : List Nat}
    (h : scanString text = some (units, rest)) : rest.length < text.length := by
  fun_induction scanString text generalizing units rest with
  | case1 => cases h
  | case2 => cases h; simp
  | case3 a b c d text ih =>
    simp only [Option.bind_eq_bind, Option.bind_eq_some_iff] at h
    obtain ⟨_, _, ⟨us, r⟩, hr, h⟩ := h
    cases h
    have := ih hr
    simp only [List.length_cons]
    omega
  | case4 c text _ ih =>
    simp only [Option.bind_eq_bind, Option.bind_eq_some_iff] at h
    obtain ⟨_, _, ⟨us, r⟩, hr, h⟩ := h
    cases h
    have := ih hr
    simp only [List.length_cons]
    omega
  | case5 => cases h
  | case6 c text _ _ _ _ ih =>
    simp only [Option.bind_eq_bind, Option.bind_eq_some_iff] at h
    obtain ⟨⟨us, r⟩, hr, h⟩ := h
    cases h
    have := ih hr
    simp only [List.length_cons]
    omega

theorem length_of_scanInteger {text digits rest : List Char}
    (h : scanInteger text = some (digits, rest)) : rest.length < text.length := by
  unfold scanInteger at h
  split at h
  · cases h; simp
  · dsimp only at h
    split at h
    · cases h
    · rename_i hd
      cases h
      have hlen := congrArg List.length (List.takeWhile_append_dropWhile (p := Char.isDigit) (l := text))
      have hpos : 0 < (text.takeWhile Char.isDigit).length :=
        List.length_pos_iff.2 (by simpa using hd)
      rw [List.length_append] at hlen
      omega

theorem length_of_skipDigits {text rest : List Char} (h : skipDigits text = some rest) :
    rest.length ≤ text.length := by
  unfold skipDigits at h
  split at h
  · cases h
  · cases h; exact length_dropWhile_le _ _

theorem length_of_skipFraction {text rest : List Char} {b : Bool}
    (h : skipFraction text = some (b, rest)) : rest.length ≤ text.length := by
  unfold skipFraction at h
  split at h
  · obtain ⟨r, hr, h⟩ := Option.map_eq_some_iff.1 h
    cases h
    exact Nat.le_succ_of_le (length_of_skipDigits hr)
  · cases h; exact Nat.le_refl _

theorem length_skipSign_le (text : List Char) : (skipSign text).length ≤ text.length := by
  fun_cases skipSign text <;> simp

theorem length_of_skipExponent {text rest : List Char} {b : Bool}
    (h : skipExponent text = some (b, rest)) : rest.length ≤ text.length := by
  unfold skipExponent at h
  split at h
  · next c after =>
    split at h
    · obtain ⟨r, hr, h⟩ := Option.map_eq_some_iff.1 h
      cases h
      have := length_of_skipDigits hr
      have := length_skipSign_le after
      simp only [List.length_cons]
      omega
    · cases h; exact Nat.le_refl _
  · cases h; exact Nat.le_refl _

theorem length_of_scanUnsigned {negative : Bool} {text rest : List Char} {t : Token}
    (h : scanUnsigned negative text = some (t, rest)) : rest.length < text.length := by
  simp only [scanUnsigned, Option.bind_eq_bind, Option.bind_eq_some_iff] at h
  obtain ⟨⟨digits, r₁⟩, h₁, ⟨f, r₂⟩, h₂, ⟨e, r₃⟩, h₃, h⟩ := h
  cases h
  have := length_of_scanInteger h₁
  have := length_of_skipFraction h₂
  have := length_of_skipExponent h₃
  simp only at *
  omega

theorem length_of_scanNumber {text rest : List Char} {t : Token}
    (h : scanNumber text = some (t, rest)) : rest.length < text.length := by
  unfold scanNumber at h
  split at h
  · exact Nat.lt_succ_of_lt (length_of_scanUnsigned h)
  · exact length_of_scanUnsigned h

theorem length_of_scan {c : Char} {text rest : List Char} {t : Token}
    (h : scan c text = some (t, rest)) : rest.length ≤ text.length := by
  unfold scan at h
  split at h
  case h_7 =>
    simp only [Option.bind_eq_bind, Option.bind_eq_some_iff] at h
    obtain ⟨⟨units, r⟩, hr, h⟩ := h
    cases h
    exact Nat.le_of_lt (length_of_scanString hr)
  case h_11 =>
    have := length_of_scanNumber h
    simp only [List.length_cons] at this
    omega
  all_goals
    cases h
    grind

def all (text : List Char) : Option (List Token) :=
  match _h : text.dropWhile isSpace with
  | [] => some []
  | c :: rest =>
    match _hs : scan c rest with
    | none => none
    | some (t, rest) => (t :: ·) <$> all rest
termination_by text.length
decreasing_by
  have := length_of_scan _hs
  have hd := length_dropWhile_le isSpace text
  rw [_h, List.length_cons] at hd
  omega

end Token

end CollationLint.Json
