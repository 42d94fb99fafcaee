import CollationLint.Json.Writer
import Mathlib.Data.List.TakeWhile

namespace CollationLint.Json

inductive Mode where
  | plain | quoted | escaped
  deriving DecidableEq

namespace Mode

def next : Mode → Char → Mode
  | .plain, c => if c = '"' then .quoted else .plain
  | .quoted, c => if c = '"' then .plain else if c = '\\' then .escaped else .quoted
  | .escaped, _ => .quoted

def after (mode : Mode) (text : List Char) : Mode := text.foldl next mode

theorem after_cons (mode : Mode) (c : Char) (text : List Char) :
    mode.after (c :: text) = (mode.next c).after text := rfl

theorem after_append (mode : Mode) (text more : List Char) :
    mode.after (text ++ more) = (mode.after text).after more := List.foldl_append

theorem plain_after_of_notMem {text : List Char} (h : '"' ∉ text) : plain.after text = .plain := by
  induction text with
  | nil => rfl
  | cons c text ih =>
    rw [List.mem_cons, not_or] at h
    rw [after_cons, next, if_neg (Ne.symm h.1), ih h.2]

theorem eq_plain_of_next {mode : Mode} {c : Char} (hc : c ≠ '"') (h : mode.next c = .plain) : mode = .plain := by
  cases mode with
  | plain => rfl
  | quoted =>
    rw [next, if_neg hc] at h
    split at h <;> cases h
  | escaped => cases h

theorem after_ne_plain {mode : Mode} {text : List Char} (hmode : mode ≠ .plain) (h : '"' ∉ text) :
    mode.after text ≠ .plain := by
  induction text generalizing mode with
  | nil => exact hmode
  | cons c text ih =>
    rw [List.mem_cons, not_or] at h
    exact ih (fun hnext => hmode (eq_plain_of_next (Ne.symm h.1) hnext)) h.2

end Mode

namespace Token

def isStructural (c : Char) : Bool := c = '[' || c = ']' || c = '{' || c = '}' || c = ':' || c = ','

/-- No number or word goes on into `text`. -/
def Stops (text : List Char) : Prop := ∀ c, text.head? = some c → isSpace c = true ∨ isStructural c = true

theorem stops_cons {c : Char} {text : List Char} (h : isSpace c = true ∨ isStructural c = true) :
    Stops (c :: text) := by
  intro d hd
  cases hd
  exact h

section Numbers

variable {text more : List Char}

theorem Stops.ne {c : Char} {rest : List Char} (h : Stops (c :: rest)) {d : Char} (hs : isSpace d = false)
    (hd : isStructural d = false) : c ≠ d := by
  rintro rfl
  rcases h c rfl with h | h
  · cases hs.symm.trans h
  · cases hd.symm.trans h

theorem Stops.isDigit {c : Char} {rest : List Char} (h : Stops (c :: rest)) : c.isDigit = false := by
  rcases h c rfl with h | h
  · simp only [isSpace, Bool.or_eq_true, decide_eq_true_eq] at h
    rcases h with ((rfl | rfl) | rfl) | rfl <;> rfl
  · simp only [isStructural, Bool.or_eq_true, decide_eq_true_eq] at h
    rcases h with ((((rfl | rfl) | rfl) | rfl) | rfl) | rfl <;> rfl

theorem takeWhile_append_of_stops (h : Stops more) :
    (text ++ more).takeWhile Char.isDigit = text.takeWhile Char.isDigit := by
  induction text with
  | nil =>
    cases more with
    | nil => rfl
    | cons c rest => simp [h.isDigit]
  | cons c text ih => simp [List.takeWhile_cons, ih]

theorem dropWhile_append_of_stops (h : Stops more) :
    (text ++ more).dropWhile Char.isDigit = text.dropWhile Char.isDigit ++ more := by
  induction text with
  | nil =>
    cases more with
    | nil => rfl
    | cons c rest => simp [h.isDigit]
  | cons c text ih =>
    simp only [List.cons_append, List.dropWhile_cons, ih]
    split <;> rfl

theorem Stops.head?_append_ne (h : Stops more) {d : Char} (hs : isSpace d = false) (hd : isStructural d = false)
    (ht : text.head? ≠ some d) : (text ++ more).head? ≠ some d := by
  cases text with
  | nil =>
    intro hm
    rcases h d hm with h | h
    · cases hs.symm.trans h
    · cases hd.symm.trans h
  | cons c text => exact ht

theorem scanInteger_of_ne (h : text.head? ≠ some '0') : scanInteger text =
    if (text.takeWhile Char.isDigit).isEmpty then none
    else some (text.takeWhile Char.isDigit, text.dropWhile Char.isDigit) := by
  unfold scanInteger
  split
  · exact absurd rfl h
  · rfl

theorem scanInteger_append (h : Stops more) :
    scanInteger (text ++ more) = (scanInteger text).map (Prod.map id (· ++ more)) := by
  by_cases hz : text.head? = some '0'
  · obtain ⟨rest, rfl⟩ := List.head?_eq_some_iff.1 hz
    rfl
  · rw [scanInteger_of_ne hz, scanInteger_of_ne (h.head?_append_ne rfl rfl hz), takeWhile_append_of_stops h,
      dropWhile_append_of_stops h]
    split <;> rfl

theorem skipDigits_append (h : Stops more) :
    skipDigits (text ++ more) = (skipDigits text).map (· ++ more) := by
  rw [skipDigits, skipDigits, takeWhile_append_of_stops h, dropWhile_append_of_stops h]
  split <;> rfl

theorem skipFraction_of_ne (h : text.head? ≠ some '.') : skipFraction text = some (false, text) := by
  unfold skipFraction
  split
  · exact absurd rfl h
  · rfl

theorem skipFraction_append (h : Stops more) :
    skipFraction (text ++ more) = (skipFraction text).map (Prod.map id (· ++ more)) := by
  by_cases hp : text.head? = some '.'
  · obtain ⟨rest, rfl⟩ := List.head?_eq_some_iff.1 hp
    rw [List.cons_append, skipFraction, skipFraction, skipDigits_append h]
    cases skipDigits rest <;> rfl
  · rw [skipFraction_of_ne hp, skipFraction_of_ne (h.head?_append_ne rfl rfl hp)]
    rfl

theorem skipSign_append (h : Stops more) : skipSign (text ++ more) = skipSign text ++ more := by
  cases text with
  | nil =>
    cases more with
    | nil => rfl
    | cons c rest =>
      have hplus : c ≠ '+' := h.ne rfl rfl
      have hminus : c ≠ '-' := h.ne rfl rfl
      simp [skipSign, hplus, hminus]
  | cons c text =>
    by_cases hplus : c = '+'
    · subst hplus
      rfl
    by_cases hminus : c = '-'
    · subst hminus
      rfl
    simp [skipSign, hplus, hminus]

theorem skipExponent_of_ne (hl : text.head? ≠ some 'e') (hu : text.head? ≠ some 'E') :
    skipExponent text = some (false, text) := by
  cases text with
  | nil => rfl
  | cons c text =>
    have hc : (c = 'e' || c = 'E') = false := by simp_all
    rw [skipExponent, hc]
    rfl

theorem exists_of_mark (h : text.head? = some 'e' ∨ text.head? = some 'E') :
    ∃ c rest, text = c :: rest ∧ (c = 'e' || c = 'E') = true := by
  cases text with
  | nil => simp at h
  | cons c rest => exact ⟨c, rest, rfl, by simpa using h⟩

theorem skipExponent_append (h : Stops more) :
    skipExponent (text ++ more) = (skipExponent text).map (Prod.map id (· ++ more)) := by
  by_cases hmark : text.head? = some 'e' ∨ text.head? = some 'E'
  · obtain ⟨c, rest, rfl, hc⟩ := exists_of_mark hmark
    rw [List.cons_append, skipExponent, skipExponent, if_pos hc, if_pos hc, skipSign_append h, skipDigits_append h]
    cases skipDigits (skipSign rest) <;> rfl
  · rw [not_or] at hmark
    rw [skipExponent_of_ne hmark.1 hmark.2, skipExponent_of_ne (h.head?_append_ne rfl rfl hmark.1)
      (h.head?_append_ne rfl rfl hmark.2)]
    rfl

theorem scanUnsigned_append (negative : Bool) (h : Stops more) :
    scanUnsigned negative (text ++ more) = (scanUnsigned negative text).map (Prod.map id (· ++ more)) := by
  rw [scanUnsigned, scanUnsigned, scanInteger_append h]
  rcases scanInteger text with _ | ⟨digits, rest⟩
  · rfl
  simp only [Option.map_some, Prod.map, id_eq, Option.bind_eq_bind, Option.bind_some, skipFraction_append h]
  rcases skipFraction rest with _ | ⟨fraction, rest⟩
  · rfl
  simp only [Option.map_some, Prod.map, id_eq, Option.bind_some, skipExponent_append h]
  rcases skipExponent rest with _ | ⟨exponent, rest⟩ <;> rfl

theorem scanNumber_of_ne (h : text.head? ≠ some '-') : scanNumber text = scanUnsigned false text := by
  unfold scanNumber
  split
  · exact absurd rfl h
  · rfl

theorem scanNumber_append (h : Stops more) :
    scanNumber (text ++ more) = (scanNumber text).map (Prod.map id (· ++ more)) := by
  by_cases hm : text.head? = some '-'
  · obtain ⟨rest, rfl⟩ := List.head?_eq_some_iff.1 hm
    exact scanUnsigned_append true h
  · rw [scanNumber_of_ne hm, scanNumber_of_ne (h.head?_append_ne rfl rfl hm), scanUnsigned_append false h]

end Numbers

section Strings

variable {text more rest : List Char} {units : List Nat}

theorem quoted_next_of_hexValue? {c : Char} {n : Nat} (h : hexValue? c = some n) :
    Mode.quoted.next c = .quoted := by
  have hquote : c ≠ '"' := by
    rintro rfl
    cases h
  have hslash : c ≠ '\\' := by
    rintro rfl
    cases h
  rw [Mode.next, if_neg hquote, if_neg hslash]

theorem quoted_next_of_unit? {a b c d : Char} {n : Nat} (h : unit? a b c d = some n) :
    ∀ e ∈ [a, b, c, d], Mode.quoted.next e = .quoted := by
  simp only [unit?, Option.bind_eq_bind, Option.bind_eq_some_iff] at h
  obtain ⟨_, ha, _, hb, _, hc, _, hd, -⟩ := h
  simp only [List.forall_mem_cons, quoted_next_of_hexValue? ha, quoted_next_of_hexValue? hb,
    quoted_next_of_hexValue? hc, quoted_next_of_hexValue? hd, true_and]
  exact List.forall_mem_nil _

theorem quoted_after_of_unit? {a b c d : Char} {n : Nat} (h : unit? a b c d = some n) (text : List Char) :
    Mode.quoted.after (a :: b :: c :: d :: text) = Mode.quoted.after text := by
  have hnext := quoted_next_of_unit? h
  simp only [List.forall_mem_cons] at hnext
  simp only [Mode.after_cons, hnext]

theorem scanString_unit (a b c d : Char) (text : List Char) : scanString ('\\' :: 'u' :: a :: b :: c :: d :: text) =
    (unit? a b c d).bind fun unit => (scanString text).map (Prod.map (unit :: ·) id) := by
  rw [scanString]
  cases unit? a b c d with
  | none => rfl
  | some unit => cases scanString text <;> rfl

theorem scanString_escape {c : Char} (hc : c ≠ 'u') (text : List Char) : scanString ('\\' :: c :: text) =
    (simpleEscape? c).bind fun escaped => (scanString text).map (Prod.map (escaped.toNat :: ·) id) := by
  rw [scanString]
  · cases simpleEscape? c with
    | none => rfl
    | some escaped => cases scanString text <;> rfl
  · rintro _ _ _ _ _ rfl
    exact absurd rfl hc

theorem scanString_char {c : Char} (hquote : c ≠ '"') (hslash : c ≠ '\\') (hc : 0x20 ≤ c.toNat) (text : List Char) :
    scanString (c :: text) = (scanString text).map (Prod.map (c.toNat :: ·) id) := by
  have hplain : (c.toNat < 0x20 || c = '\\') = false := by simp [hslash, hc]
  rw [scanString]
  · rw [hplain]
    cases scanString text <;> rfl
  · exact hquote
  · rintro _ _ _ _ _ rfl
    exact absurd rfl hslash
  · rintro _ _ rfl
    exact absurd rfl hslash

theorem scanString_control {c : Char} (hquote : c ≠ '"') (hslash : c ≠ '\\') (hc : c.toNat < 0x20) (text : List Char) :
    scanString (c :: text) = none := by
  have hplain : (c.toNat < 0x20 || c = '\\') = true := by simp [hc]
  rw [scanString]
  · rw [hplain]
    rfl
  · exact hquote
  · rintro _ _ _ _ _ rfl
    exact absurd rfl hslash
  · rintro _ _ rfl
    exact absurd rfl hslash

theorem scanString_short {digits : List Char} (hlen : digits.length < 4) (hquote : '"' ∈ digits)
    (more : List Char) : scanString ('\\' :: 'u' :: (digits ++ more)) = none := by
  match hsplit : digits ++ more with
  | a :: b :: c :: d :: text =>
    have hmem : '"' ∈ [a, b, c, d] := by
      have htake : digits = (a :: b :: c :: d :: text).take digits.length := by rw [← hsplit, List.take_left]
      rw [htake] at hquote
      exact (List.take_subset_take_left (a :: b :: c :: d :: text) (by omega : digits.length ≤ 4)) hquote
    have hunit : unit? a b c d = none := by
      cases hu : unit? a b c d with
      | none => rfl
      | some n => cases quoted_next_of_unit? hu '"' hmem
    rw [scanString_unit, hunit]
    rfl
  | [] | [_] | [_, _] | [_, _, _] => rfl

theorem scanString_append (h : Mode.quoted.after text = .plain) :
    scanString (text ++ more) = (scanString text).map (Prod.map id (· ++ more)) := by
  fun_induction scanString text with
  | case1 => cases h
  | case2 rest => rfl
  | case3 a b c d text ih =>
    simp only [List.cons_append]
    rw [scanString_unit]
    cases hunit : unit? a b c d with
    | none => rfl
    | some unit =>
      have htext : Mode.quoted.after text = .plain := by rwa [← quoted_after_of_unit? hunit]
      rw [Option.bind_some, ih htext]
      cases scanString text <;> rfl
  | case4 c text hu ih =>
    have htext : Mode.quoted.after text = .plain := h
    by_cases hc : c = 'u'
    · subst hc
      have hlen : text.length < 4 := by
        rcases text with _ | ⟨a, _ | ⟨b, _ | ⟨c, _ | ⟨d, rest⟩⟩⟩⟩
        case cons.cons.cons.cons => exact absurd rfl (hu a b c d rest rfl)
        all_goals simp
      have hquote : '"' ∈ text := by
        by_contra hm
        exact Mode.after_ne_plain (by decide) hm htext
      exact scanString_short hlen hquote more
    · rw [List.cons_append, List.cons_append, scanString_escape hc, ih htext]
      cases simpleEscape? c with
      | none => rfl
      | some escaped => cases scanString text <;> rfl
  | case5 c text hquote _ hslash hbad =>
    by_cases hc : c = '\\'
    · subst hc
      cases text with
      | nil => cases h
      | cons d text => exact absurd rfl (hslash d text rfl)
    · exact scanString_control hquote hc (by simpa [hc] using hbad) (text ++ more)
  | case6 c text hquote _ _ hgood ih =>
    simp only [Bool.or_eq_true, decide_eq_true_eq, not_or, not_lt] at hgood
    have htext : Mode.quoted.after text = .plain := by
      rwa [Mode.after_cons, Mode.next, if_neg hquote, if_neg hgood.2] at h
    rw [List.cons_append, scanString_char hquote hgood.2 hgood.1, ih htext]
    cases scanString text <;> rfl

theorem exists_of_scanString (h : scanString text = some (units, rest)) :
    ∃ used, text = used ++ rest ∧ Mode.quoted.after used = .plain := by
  fun_induction scanString text generalizing units rest with
  | case1 => cases h
  | case2 =>
    cases h
    exact ⟨['"'], rfl, rfl⟩
  | case3 a b c d text ih =>
    simp only [Option.bind_eq_bind, Option.bind_eq_some_iff] at h
    obtain ⟨unit, hunit, ⟨units, rest⟩, htext, h⟩ := h
    cases h
    obtain ⟨used, rfl, hused⟩ := ih htext
    refine ⟨'\\' :: 'u' :: a :: b :: c :: d :: used, rfl, ?_⟩
    exact (quoted_after_of_unit? hunit used).trans hused
  | case4 c text hu ih =>
    simp only [Option.bind_eq_bind, Option.bind_eq_some_iff] at h
    obtain ⟨escaped, -, ⟨units, rest⟩, htext, h⟩ := h
    cases h
    obtain ⟨used, rfl, hused⟩ := ih htext
    exact ⟨'\\' :: c :: used, rfl, hused⟩
  | case5 => cases h
  | case6 c text hquote _ _ hgood ih =>
    simp only [Bool.or_eq_true, decide_eq_true_eq, not_or, not_lt] at hgood
    simp only [Option.bind_eq_bind, Option.bind_eq_some_iff] at h
    obtain ⟨⟨units, rest⟩, htext, h⟩ := h
    cases h
    obtain ⟨used, rfl, hused⟩ := ih htext
    refine ⟨c :: used, rfl, ?_⟩
    rwa [Mode.after_cons, Mode.next, if_neg hquote, if_neg hgood.2]

end Strings

section Scan

variable {c : Char} {text more rest : List Char} {t : Token}

theorem scan_quote (text : List Char) : scan '"' text =
    (scanString text).map (Prod.map (fun units => .string ((decodeUnits units).map String.ofList)) id) := by
  rw [scan]
  cases scanString text <;> rfl

theorem Stops.exists_of_append_eq (h : Stops more) (word : List Char)
    (hword : ∀ c ∈ word, isSpace c = false ∧ isStructural c = false) (heq : text ++ more = word ++ rest) :
    ∃ rest', text = word ++ rest' := by
  rcases List.append_eq_append_iff.1 heq with ⟨missing, rfl, rfl⟩ | ⟨rest', rfl, -⟩
  · cases missing with
    | nil => exact ⟨[], by simp⟩
    | cons c missing =>
      obtain ⟨hs, hd⟩ := hword c (by simp)
      exact absurd rfl (h.ne hs hd)
  · exact ⟨rest', rfl⟩

theorem scan_append (hc : c ≠ '"') (h : Stops more) :
    scan c (text ++ more) = (scan c text).map (Prod.map id (· ++ more)) := by
  fun_cases scan c text with
  | case1 | case2 | case3 | case4 | case5 | case6 | case8 | case9 | case10 => rfl
  | case7 => exact absurd rfl hc
  | case11 c text _ _ _ _ _ _ _ hnull htrue hfalse =>
    rw [← scanNumber_append h, List.cons_append, scan]
    all_goals try assumption
    · rintro rest rfl hword
      obtain ⟨rest', htext⟩ := h.exists_of_append_eq ['u', 'l', 'l'] (by simp [isSpace, isStructural]) hword
      exact hnull rest' rfl htext
    · rintro rest rfl hword
      obtain ⟨rest', htext⟩ := h.exists_of_append_eq ['r', 'u', 'e'] (by simp [isSpace, isStructural]) hword
      exact htrue rest' rfl htext
    · rintro rest rfl hword
      obtain ⟨rest', htext⟩ := h.exists_of_append_eq ['a', 'l', 's', 'e'] (by simp [isSpace, isStructural]) hword
      exact hfalse rest' rfl htext

def Passes (text rest : List Char) : Prop := ∃ used, text = used ++ rest ∧ '"' ∉ used

namespace Passes

theorem refl (text : List Char) : Passes text text := ⟨[], rfl, List.not_mem_nil⟩

theorem trans {text rest last : List Char} (h : Passes text rest) (h' : Passes rest last) : Passes text last := by
  obtain ⟨used, rfl, hused⟩ := h
  obtain ⟨used', rfl, hused'⟩ := h'
  exact ⟨used ++ used', (List.append_assoc ..).symm, by simp [hused, hused']⟩

theorem cons {c : Char} (hc : c ≠ '"') (h : Passes text rest) : Passes (c :: text) rest := by
  obtain ⟨used, rfl, hused⟩ := h
  exact ⟨c :: used, rfl, by simp [hused, Ne.symm hc]⟩

theorem digits (text : List Char) : Passes text (text.dropWhile Char.isDigit) := by
  refine ⟨text.takeWhile Char.isDigit, List.takeWhile_append_dropWhile.symm, fun h => ?_⟩
  cases List.mem_takeWhile_imp h

end Passes

theorem passes_of_scanInteger {digits : List Char} (h : scanInteger text = some (digits, rest)) :
    Passes text rest := by
  by_cases hz : text.head? = some '0'
  · obtain ⟨after, rfl⟩ := List.head?_eq_some_iff.1 hz
    cases h
    exact (Passes.refl rest).cons (by decide)
  · rw [scanInteger_of_ne hz] at h
    split at h
    · cases h
    · cases h
      exact .digits text

theorem passes_of_skipDigits (h : skipDigits text = some rest) : Passes text rest := by
  unfold skipDigits at h
  split at h
  · cases h
  · cases h
    exact .digits text

theorem passes_of_skipFraction {present : Bool} (h : skipFraction text = some (present, rest)) :
    Passes text rest := by
  by_cases hp : text.head? = some '.'
  · obtain ⟨after, rfl⟩ := List.head?_eq_some_iff.1 hp
    obtain ⟨rest, hrest, h⟩ := Option.map_eq_some_iff.1 h
    cases h
    exact (passes_of_skipDigits hrest).cons (by decide)
  · rw [skipFraction_of_ne hp] at h
    cases h
    exact .refl text

theorem passes_skipSign (text : List Char) : Passes text (skipSign text) := by
  fun_cases skipSign text with
  | case1 rest | case2 rest => exact (Passes.refl rest).cons (by decide)
  | case3 => exact .refl text

theorem passes_of_skipExponent {present : Bool} (h : skipExponent text = some (present, rest)) :
    Passes text rest := by
  by_cases hmark : text.head? = some 'e' ∨ text.head? = some 'E'
  · obtain ⟨c, after, rfl, hc⟩ := exists_of_mark hmark
    rw [skipExponent, if_pos hc] at h
    obtain ⟨rest, hrest, h⟩ := Option.map_eq_some_iff.1 h
    cases h
    have hquote : c ≠ '"' := by
      rintro rfl
      cases hc
    exact ((passes_skipSign after).trans (passes_of_skipDigits hrest)).cons hquote
  · rw [not_or] at hmark
    rw [skipExponent_of_ne hmark.1 hmark.2] at h
    cases h
    exact .refl text

theorem passes_of_scanNumber (h : scanNumber text = some (t, rest)) : Passes text rest := by
  have hunsigned {negative : Bool} {text : List Char} (h : scanUnsigned negative text = some (t, rest)) :
      Passes text rest := by
    simp only [scanUnsigned, Option.bind_eq_bind, Option.bind_eq_some_iff] at h
    obtain ⟨⟨digits, r₁⟩, h₁, ⟨fraction, r₂⟩, h₂, ⟨exponent, r₃⟩, h₃, h⟩ := h
    cases h
    exact ((passes_of_scanInteger h₁).trans (passes_of_skipFraction h₂)).trans (passes_of_skipExponent h₃)
  unfold scanNumber at h
  split at h
  · exact (hunsigned h).cons (by decide)
  · exact hunsigned h

theorem exists_of_scan (h : scan c text = some (t, rest)) :
    ∃ used, text = used ++ rest ∧ Mode.plain.after (c :: used) = .plain := by
  revert h
  fun_cases scan c text with
  | case1 | case2 | case3 | case4 | case5 | case6 =>
    rintro ⟨⟩
    exact ⟨[], rfl, rfl⟩
  | case7 text =>
    intro h
    obtain ⟨⟨units, rest⟩, hunits, h⟩ := Option.bind_eq_some_iff.1 h
    cases h
    exact exists_of_scanString hunits
  | case8 =>
    rintro ⟨⟩
    exact ⟨['u', 'l', 'l'], rfl, rfl⟩
  | case9 =>
    rintro ⟨⟩
    exact ⟨['r', 'u', 'e'], rfl, rfl⟩
  | case10 =>
    rintro ⟨⟩
    exact ⟨['a', 'l', 's', 'e'], rfl, rfl⟩
  | case11 c text _ _ _ _ _ _ hquote _ _ _ =>
    intro h
    have hlen := length_of_scanNumber h
    obtain ⟨used, htext, hused⟩ := passes_of_scanNumber h
    cases used with
    | nil =>
      rw [htext, List.nil_append] at hlen
      exact absurd hlen (Nat.lt_irrefl _)
    | cons d used =>
      cases htext
      exact ⟨used, rfl, Mode.plain_after_of_notMem hused⟩

theorem scan_append_of_plain (hplain : Mode.plain.after (c :: text) = .plain) (h : Stops more) :
    scan c (text ++ more) = (scan c text).map (Prod.map id (· ++ more)) := by
  by_cases hc : c = '"'
  · subst hc
    rw [scan_quote, scan_quote, scanString_append hplain]
    cases scanString text <;> rfl
  · exact scan_append hc h

theorem exists_scan_structural (hc : isStructural c = true) : ∃ t, ∀ text, scan c text = some (t, text) := by
  simp only [isStructural, Bool.or_eq_true, decide_eq_true_eq] at hc
  rcases hc with ((((rfl | rfl) | rfl) | rfl) | rfl) | rfl
  all_goals exact ⟨_, fun text => rfl⟩

end Scan

end Token

end CollationLint.Json
