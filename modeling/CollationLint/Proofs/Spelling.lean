import CollationLint.Proofs.Reading

namespace CollationLint.Json

namespace Token

theorem all_eq_singleton {c : Char} {text : List Char} {t : Token} (hc : isSpace c = false)
    (h : scan c text = some (t, [])) : all (c :: text) = some [t] := by
  rw [all_cons hc, h, Option.bind_some, all_nil]
  rfl

section Numbers

theorem head?_toDigits_ne {n : Nat} (h : 0 < n) : (Nat.toDigits 10 n).head? ≠ some '0' := by
  induction n using Nat.strongRecOn with
  | ind n ih =>
    rw [Nat.toDigits_eq_if (by decide)]
    split
    · next hlt =>
      simp only [List.head?_cons, ne_eq, Option.some.injEq, Nat.digitChar_eq_zero]
      omega
    · next hle =>
      rw [List.head?_append, List.head?_eq_some_head Nat.toDigits_ne_nil, Option.some_or,
        ← List.head?_eq_some_head Nat.toDigits_ne_nil]
      exact ih (n / 10) (by omega) (by omega)

theorem isDigit_of_mem {n : Nat} {c : Char} (h : c ∈ Nat.toDigits 10 n) : c.isDigit = true :=
  Nat.isDigit_of_mem_toDigits (by decide) (by decide) h

theorem scanInteger_toDigits (n : Nat) : scanInteger (Nat.toDigits 10 n) = some (Nat.toDigits 10 n, []) := by
  obtain rfl | hpos := Nat.eq_zero_or_pos n
  · rfl
  · have hdigits : ∀ c ∈ Nat.toDigits 10 n, c.isDigit = true := fun c => isDigit_of_mem
    rw [scanInteger_of_ne (head?_toDigits_ne hpos), List.takeWhile_eq_self_iff.2 hdigits,
      List.dropWhile_eq_nil_iff.2 hdigits]
    simp [Nat.toDigits_ne_nil]

theorem scanUnsigned_toDigits (n : Nat) : scanUnsigned false (Nat.toDigits 10 n) = some (.natural n, []) := by
  have hvalue : Digits.value (Nat.toDigits 10 n) = n := Nat.ofDigitChars_ten_toDigits
  simp [scanUnsigned, scanInteger_toDigits, skipFraction, skipExponent, hvalue]

theorem scan_of_isDigit {c : Char} (hc : c.isDigit = true) (text : List Char) :
    scan c text = scanUnsigned false (c :: text) := by
  have hne : (c :: text).head? ≠ some '-' := by
    rintro ⟨⟩
    cases hc
  rw [← scanNumber_of_ne hne]
  revert hc
  fun_cases scan c text with
  | case11 => exact fun _ => rfl
  | _ =>
    intro hc
    cases hc

theorem all_toDigits (n : Nat) : all (Nat.toDigits 10 n) = some [.natural n] := by
  have hscan := scanUnsigned_toDigits n
  cases htext : Nat.toDigits 10 n with
  | nil => exact absurd htext Nat.toDigits_ne_nil
  | cons c text =>
    have hc : c.isDigit = true := isDigit_of_mem (htext ▸ List.mem_cons_self)
    have hspace : isSpace c = false := by
      by_contra hspace
      rw [Bool.not_eq_false] at hspace
      have hstops : Stops (c :: text) := stops_cons (.inl hspace)
      cases hc.symm.trans hstops.isDigit
    rw [htext, ← scan_of_isDigit hc] at hscan
    exact all_eq_singleton hspace hscan

end Numbers

section Strings

theorem hexValue?_hexDigit : ∀ {n : Nat}, n < 16 → hexValue? (hexDigit n) = some n := by decide

theorem unit?_hexDigit {n : Nat} (h : n < 256) : unit? '0' '0' (hexDigit (n / 16)) (hexDigit (n % 16)) = some n := by
  have hzero : hexValue? '0' = some 0 := rfl
  have hjoin : (0 * 16 + 0) * 256 + (n / 16 * 16 + n % 16) = n := by omega
  simp only [unit?, hzero, hexValue?_hexDigit (by omega : n / 16 < 16), hexValue?_hexDigit (by omega : n % 16 < 16),
    Option.bind_eq_bind, Option.bind_some, hjoin]
  rfl

theorem scanString_escape_append (c : Char) (text : List Char) :
    scanString (escape c ++ text) = (scanString text).map (Prod.map (c.toNat :: ·) id) := by
  have hshort {d : Char} (hd : d ≠ 'u') (hc : simpleEscape? d = some c) :
      scanString ('\\' :: d :: text) = (scanString text).map (Prod.map (c.toNat :: ·) id) := by
    rw [scanString_escape hd, hc]
    rfl
  fun_cases escape c with
  | case8 hquote hslash hb hf hn hr ht hcontrol =>
    have hunit := unit?_hexDigit (n := c.toNat) (by omega)
    exact (scanString_unit _ _ _ _ text).trans (by rw [hunit]; rfl)
  | case9 hquote hslash hb hf hn hr ht hcontrol =>
    exact scanString_char hquote hslash (Nat.le_of_not_lt hcontrol) text
  | _ =>
    rename_i hc
    exact hshort (by decide) (by rw [hc]; rfl)

theorem scanString_escapes (cs text : List Char) :
    scanString (cs.flatMap escape ++ '"' :: text) = some (cs.map Char.toNat, text) := by
  induction cs with
  | nil => rw [List.flatMap_nil, List.nil_append, scanString]; rfl
  | cons c cs ih =>
    rw [List.flatMap_cons, List.append_assoc, scanString_escape_append, ih]
    rfl

theorem not_surrogate (c : Char) : isHighSurrogate c.toNat = false ∧ isLowSurrogate c.toNat = false := by
  have hvalid : c.toNat < 0xD800 ∨ 0xDFFF < c.toNat ∧ c.toNat < 0x110000 := c.valid
  simp only [isHighSurrogate, isLowSurrogate, Bool.and_eq_false_iff, decide_eq_false_iff_not]
  omega

theorem decodeUnits_toNat (cs : List Char) : decodeUnits (cs.map Char.toNat) = some cs := by
  induction cs with
  | nil => rfl
  | cons c cs ih =>
    obtain ⟨hhigh, hlow⟩ := not_surrogate c
    cases cs with
    | nil => simp [decodeUnits, hhigh, hlow]
    | cons d cs =>
      rw [List.map_cons] at ih
      rw [List.map_cons, List.map_cons, decodeUnits, hhigh, hlow, ih]
      simp

theorem all_string (s : String) : all ('"' :: (s.toList.flatMap escape ++ ['"'])) = some [.string (some s)] := by
  refine all_eq_singleton rfl ?_
  rw [scan_quote, scanString_escapes, Option.map_some, Prod.map, decodeUnits_toNat, Option.map_some,
    String.ofList_toList]
  rfl

end Strings

theorem all_text (t : Token) : all t.text = some [t] := by
  match t with
  | .natural n => exact all_toDigits n
  | .string (some s) => exact all_string s
  | .openBracket | .closeBracket | .openBrace | .closeBrace | .colon | .comma | .null | .bool true | .bool false
    | .number => exact all_eq_singleton rfl rfl
  | .string none => exact all_eq_singleton rfl (by decide +kernel)

end Token

namespace Value

open Token

-- The text before the items is kept arbitrary, so that each item becomes the text before the next one.
mutual

theorem all_tokens (v : Value) : all (v.tokens.flatMap Token.text) = some v.tokens := by
  match v with
  | .null | .bool _ | .natural _ | .number | .string _ =>
    rw [tokens, List.flatMap_singleton, all_text]
  | .array [] | .object [] => exact all_append_mark rfl all_nil (all_append_mark rfl all_nil all_nil)
  | .array (v :: vs) =>
    simp only [tokens, List.cons_append, List.flatMap_cons, List.flatMap_append]
    exact all_append_mark rfl all_nil (all_itemTokens vs (all_tokens v))
  | .object ((name, v) :: ms) =>
    simp only [tokens, List.cons_append, List.flatMap_cons, List.flatMap_append]
    exact all_append_mark rfl all_nil (all_append_mark rfl (all_text _) (all_memberTokens ms (all_tokens v)))

theorem all_itemTokens (vs : List Value) {text : List Char} {ts : List Token} (h : all text = some ts) :
    all (text ++ (itemTokens vs).flatMap Token.text) = some (ts ++ itemTokens vs) := by
  match vs with
  | [] => exact all_append_mark rfl h all_nil
  | v :: vs =>
    simp only [itemTokens, List.cons_append, List.flatMap_cons, List.flatMap_append]
    exact all_append_mark rfl h (all_itemTokens vs (all_tokens v))

theorem all_memberTokens (ms : List (Text × Value)) {text : List Char} {ts : List Token} (h : all text = some ts) :
    all (text ++ (memberTokens ms).flatMap Token.text) = some (ts ++ memberTokens ms) := by
  match ms with
  | [] => exact all_append_mark rfl h all_nil
  | (name, v) :: ms =>
    simp only [memberTokens, List.cons_append, List.flatMap_cons, List.flatMap_append]
    exact all_append_mark rfl h (all_append_mark rfl (all_text _) (all_memberTokens ms (all_tokens v)))

end

theorem parse?_render (v : Value) : parse? v.render = some v := by
  rw [parse?_eq_some_iff, render, String.toList_ofList, all_tokens]

end Value

end CollationLint.Json
