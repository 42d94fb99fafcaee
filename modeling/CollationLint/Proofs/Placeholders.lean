import CollationLint.Report.Diagnostic
import Mathlib.Data.List.TakeWhile

namespace CollationLint.Template

/-- A number in decimal digits that 64 bits can hold, with or without a plus sign in front. -/
def IsIndex (written : List Char) (index : Nat) : Prop :=
  ∃ digits, (written = digits ∨ written = '+' :: digits) ∧ digits ≠ [] ∧ (∀ c ∈ digits, c.isDigit = true) ∧
    Nat.ofDigitChars 10 digits 0 = index ∧ index < UInt64.size

/-- After an opening brace, `text` has a place for one of `arity` arguments. -/
def Opens (arity : Nat) (text written : List Char) (index : Nat) : Prop :=
  IsIndex written index ∧ index < arity ∧ ∃ rest, text = written ++ '}' :: rest

variable {arity index : Nat} {text more written rest : List Char}

theorem index?_eq_some_iff : index? text = some index ↔ IsIndex text index := by
  have hdigits (digits : List Char) :
      (if digits.isEmpty || !digits.all Char.isDigit then none
        else if Digits.value digits < UInt64.size then some (Digits.value digits) else none) = some index ↔
        digits ≠ [] ∧ (∀ c ∈ digits, c.isDigit = true) ∧ Nat.ofDigitChars 10 digits 0 = index ∧
          index < UInt64.size := by
    have hvalue : Nat.ofDigitChars 10 digits 0 = Digits.value digits := rfl
    rw [hvalue]
    grind
  unfold index? IsIndex
  simp only [hdigits]
  split
  · next rest =>
    constructor
    · intro h
      exact ⟨rest, .inr rfl, h⟩
    · rintro ⟨digits, rfl | hd, h⟩
      · exact absurd (h.2.1 '+' List.mem_cons_self) (by decide)
      · cases hd
        exact h
  · next hplus =>
    constructor
    · intro h
      exact ⟨text, .inl rfl, h⟩
    · rintro ⟨digits, rfl | rfl, h⟩
      · exact h
      · exact absurd rfl (hplus digits)

theorem IsIndex.notMem {c : Char} (h : IsIndex written index) (hc : c.isDigit = false) (hplus : c ≠ '+') :
    c ∉ written := by
  obtain ⟨digits, hw, -, hdigit, -⟩ := h
  have hd : c ∉ digits := by
    intro hm
    cases hc.symm.trans (hdigit c hm)
  rcases hw with rfl | rfl
  · exact hd
  · simp [hplus, hd]

theorem hole?_of_notMem (h : '}' ∉ text) : hole? arity text = none := by
  have hnil : text.dropWhile (· ≠ '}') = [] := by
    rw [List.dropWhile_eq_nil_iff]
    intro c hc
    apply decide_eq_true
    rintro rfl
    exact h hc
  rw [hole?, hnil]

theorem hole?_of_split (h : '}' ∉ written) :
    hole? arity (written ++ '}' :: rest) =
      (index? written).bind fun n => if n < arity then some (n, rest) else none := by
  have hne : ∀ c ∈ written, decide (c ≠ '}') = true := by
    intro c hc
    apply decide_eq_true
    rintro rfl
    exact h hc
  rw [hole?, List.dropWhile_append_of_pos hne, List.takeWhile_append_of_pos hne,
    List.dropWhile_cons_of_neg (by decide), List.takeWhile_cons_of_neg (by decide), List.append_nil]
  cases index? written <;> rfl

theorem hole?_eq_some_iff :
    hole? arity text = some (index, rest) ↔
      ∃ written, IsIndex written index ∧ index < arity ∧ text = written ++ '}' :: rest := by
  constructor
  · intro h
    by_cases hclose : '}' ∈ text
    · obtain ⟨written, rest', rfl, hw⟩ := List.eq_append_cons_of_mem hclose
      rw [hole?_of_split hw] at h
      obtain ⟨n, hn, h⟩ := Option.bind_eq_some_iff.1 h
      split at h
      · cases h
        exact ⟨written, index?_eq_some_iff.1 hn, ‹_›, rfl⟩
      · cases h
    · rw [hole?_of_notMem hclose] at h
      cases h
  · rintro ⟨written, hi, hlt, rfl⟩
    rw [hole?_of_split (hi.notMem (by decide) (by decide)), index?_eq_some_iff.2 hi, Option.bind_some,
      if_pos hlt]

theorem hole?_append (h : '}' ∈ text) (more : List Char) :
    hole? arity (text ++ more) = (hole? arity text).map fun (n, rest) => (n, rest ++ more) := by
  obtain ⟨written, rest, rfl, hw⟩ := List.eq_append_cons_of_mem h
  rw [List.append_assoc, List.cons_append, hole?_of_split hw, hole?_of_split hw, Option.map_bind]
  congr 1
  funext n
  simp only [Function.comp_apply]
  split <;> rfl

theorem Opens.exists_hole? (h : Opens arity text written index) :
    ∃ rest, text = written ++ '}' :: rest ∧ hole? arity text = some (index, rest) := by
  obtain ⟨hi, hlt, rest, htext⟩ := h
  exact ⟨rest, htext, hole?_eq_some_iff.2 ⟨written, hi, hlt, htext⟩⟩

theorem Opens.unique {written' : List Char} {index' : Nat} (h : Opens arity text written index)
    (h' : Opens arity text written' index') : written = written' ∧ index = index' := by
  obtain ⟨rest, htext, hhole⟩ := h.exists_hole?
  obtain ⟨rest', htext', hhole'⟩ := h'.exists_hole?
  cases hhole.symm.trans hhole'
  exact ⟨List.append_cancel_right (htext.symm.trans htext'), rfl⟩

section Pieces

variable {c : Char}

theorem pieces_of_ne (h : c ≠ '{') : pieces arity (c :: text) = .char c :: pieces arity text := by
  rw [pieces, if_neg h]

theorem pieces_of_hole (h : hole? arity text = some (index, rest)) :
    pieces arity ('{' :: text) = .hole index :: pieces arity rest := by
  rw [pieces, if_pos rfl]
  split
  · next hsome =>
    cases h.symm.trans hsome
    rfl
  · next hnone => cases h.symm.trans hnone

theorem pieces_of_none (h : hole? arity text = none) :
    pieces arity ('{' :: text) = .char '{' :: pieces arity text := by
  rw [pieces, if_pos rfl]
  split
  · next hsome => cases h.symm.trans hsome
  · rfl

end Pieces

def Closed (text : List Char) : Prop := ∀ before after, text = before ++ '{' :: after → '}' ∈ after

theorem closed_nil : Closed [] := by
  intro before after h
  simp at h

theorem closed_cons {c : Char} : Closed (c :: text) ↔ (c = '{' → '}' ∈ text) ∧ Closed text := by
  constructor
  · intro h
    refine ⟨?_, fun before after hsplit => h (c :: before) after (by rw [hsplit, List.cons_append])⟩
    rintro rfl
    exact h [] text rfl
  · rintro ⟨hhead, htail⟩ before after hsplit
    cases before with
    | nil =>
      cases hsplit
      exact hhead rfl
    | cons b before => exact htail before after (List.cons.inj hsplit).2

theorem Closed.of_append (h : Closed (text ++ more)) : Closed more := by
  intro before after hsplit
  apply h (text ++ before) after
  rw [hsplit, List.append_assoc]

theorem pieces_append (h : Closed text) (more : List Char) :
    pieces arity (text ++ more) = pieces arity text ++ pieces arity more := by
  fun_induction pieces arity text with
  | case1 => rfl
  | case2 text n rest hhole ih =>
    obtain ⟨hclose, htail⟩ := closed_cons.1 h
    obtain ⟨written, -, -, rfl⟩ := hole?_eq_some_iff.1 hhole
    have hrest : Closed rest := by
      rw [List.append_cons] at htail
      exact htail.of_append
    have hmore : hole? arity (written ++ '}' :: rest ++ more) = some (n, rest ++ more) := by
      rw [hole?_append (hclose rfl), hhole, Option.map_some]
    rw [List.cons_append, pieces_of_hole hmore, ih hrest, List.cons_append]
  | case3 text hhole ih =>
    obtain ⟨hclose, htail⟩ := closed_cons.1 h
    have hmore : hole? arity (text ++ more) = none := by
      rw [hole?_append (hclose rfl), hhole, Option.map_none]
    rw [List.cons_append, pieces_of_none hmore, ih htail, List.cons_append]
  | case4 c text hc ih =>
    rw [List.cons_append, pieces_of_ne hc, ih (closed_cons.1 h).2, List.cons_append]

theorem toList_fill (template : String) (arguments : List String) :
    (fill template arguments).toList =
      (pieces arguments.length template.toList).flatMap (render arguments) := by
  rw [fill, String.toList_ofList]

theorem fill_append {template : String} (h : Closed template.toList) (more : String) (arguments : List String) :
    fill (template ++ more) arguments = fill template arguments ++ fill more arguments := by
  apply String.toList_injective
  rw [String.toList_append, toList_fill, toList_fill, toList_fill, String.toList_append, pieces_append h,
    List.flatMap_append]

inductive Segment where
  | literal (c : Char)
  | placeholder (written : List Char) (index : Nat)

namespace Segment

def source : Segment → List Char
  | .literal c => [c]
  | .placeholder written _ => '{' :: (written ++ ['}'])

def piece : Segment → Piece
  | .literal c => .char c
  | .placeholder _ index => .hole index

def filled (arguments : List String) : Segment → List Char
  | .literal c => [c]
  | .placeholder _ index => (arguments[index]?.getD "").toList

theorem source_ne_nil (s : Segment) : s.source ≠ [] := by
  cases s <;> exact List.cons_ne_nil _ _

theorem filled_eq_render (arguments : List String) (s : Segment) :
    s.filled arguments = render arguments s.piece := by
  cases s <;> rfl

end Segment

theorem split_after_head {α : Type} {x y : α} {xs ys before after : List α} (hx : x ∉ xs)
    (h : y :: xs ++ ys = before ++ x :: after) :
    before = [] ∧ x = y ∧ after = xs ++ ys ∨ ∃ before', before = y :: xs ++ before' ∧ ys = before' ++ x :: after := by
  cases before with
  | nil =>
    cases h
    exact .inl ⟨rfl, rfl, rfl⟩
  | cons b before =>
    right
    obtain ⟨rfl, htail⟩ := List.cons.inj h
    rcases List.append_eq_append_iff.1 htail with ⟨before', rfl, rfl⟩ | ⟨between, rfl, hbetween⟩
    · exact ⟨before', rfl, rfl⟩
    · cases between with
      | nil => exact ⟨[], by simp, hbetween.symm⟩
      | cons z between =>
        cases hbetween
        simp at hx

/-- The segments make up the text, and the placeholders among them stand where one opens and nowhere else. -/
structure Cuts (arity : Nat) (text : List Char) (segments : List Segment) : Prop where
  source : segments.flatMap Segment.source = text
  recognised : ∀ before after written index, text = before ++ '{' :: after →
    ((∃ earlier later, segments = earlier ++ .placeholder written index :: later ∧
      earlier.flatMap Segment.source = before) ↔ Opens arity after written index)

namespace Cuts

theorem nil : Cuts arity [] [] where
  source := rfl
  recognised before after written index h := by simp at h

variable {s : Segment} {segments : List Segment}

theorem cons {c : Char} {source : List Char} (h : Cuts arity text segments) (hsource : s.source = c :: source)
    (hbrace : '{' ∉ source)
    (hopens : c = '{' → ∀ written index, s = .placeholder written index ↔ Opens arity (source ++ text) written index) :
    Cuts arity (c :: source ++ text) (s :: segments) where
  source := by rw [List.flatMap_cons, h.source, hsource]
  recognised before after written index hsplit := by
    rcases split_after_head hbrace hsplit with ⟨rfl, hc, rfl⟩ | ⟨before', rfl, htext⟩
    · rw [← hopens hc.symm]
      constructor
      · rintro ⟨earlier, later, hs, hnil⟩
        cases earlier with
        | nil => exact (List.cons.inj hs).1
        | cons e earlier => exact absurd (List.append_eq_nil_iff.1 hnil).1 e.source_ne_nil
      · rintro rfl
        exact ⟨[], segments, rfl, rfl⟩
    · rw [← h.recognised before' after written index htext]
      constructor
      · rintro ⟨earlier, later, hs, hbefore⟩
        cases earlier with
        | nil => cases hbefore
        | cons e earlier =>
          obtain ⟨rfl, htail⟩ := List.cons.inj hs
          rw [List.flatMap_cons, hsource] at hbefore
          exact ⟨earlier, later, htail, List.append_cancel_left hbefore⟩
      · rintro ⟨earlier, later, rfl, rfl⟩
        exact ⟨s :: earlier, later, rfl, by rw [List.flatMap_cons, hsource]⟩

theorem lt (h : Cuts arity text segments) (hm : .placeholder written index ∈ segments) : index < arity := by
  obtain ⟨earlier, later, rfl⟩ := List.append_of_mem hm
  have hsplit : text = earlier.flatMap Segment.source ++
      '{' :: (written ++ '}' :: later.flatMap Segment.source) := by
    rw [← h.source, List.flatMap_append, List.flatMap_cons, Segment.source]
    simp
  exact ((h.recognised _ _ _ _ hsplit).1 ⟨earlier, later, rfl, rfl⟩).2.1

end Cuts

theorem exists_cuts (arity : Nat) (text : List Char) :
    ∃ segments, Cuts arity text segments ∧ segments.map Segment.piece = pieces arity text := by
  fun_induction pieces arity text with
  | case1 => exact ⟨[], .nil, rfl⟩
  | case2 text n rest hhole ih =>
    obtain ⟨segments, hcuts, hpieces⟩ := ih
    obtain ⟨written, hi, hlt, rfl⟩ := hole?_eq_some_iff.1 hhole
    have hopens : Opens arity (written ++ '}' :: rest) written n := ⟨hi, hlt, rest, rfl⟩
    -- an index is digits, so that no other placeholder opens before this one closes
    have hbrace : '{' ∉ written ++ ['}'] := by simp [hi.notMem (c := '{') (by decide) (by decide)]
    refine ⟨.placeholder written n :: segments, ?_, by rw [List.map_cons, hpieces, Segment.piece]⟩
    rw [List.append_cons]
    apply hcuts.cons rfl hbrace
    rintro - written' index'
    rw [← List.append_cons]
    constructor
    · intro hs
      cases hs
      exact hopens
    · intro h
      obtain ⟨rfl, rfl⟩ := hopens.unique h
      rfl
  | case3 text hhole ih =>
    obtain ⟨segments, hcuts, hpieces⟩ := ih
    refine ⟨.literal '{' :: segments, ?_, by rw [List.map_cons, hpieces, Segment.piece]⟩
    apply hcuts.cons rfl List.not_mem_nil
    rintro - written index
    refine ⟨nofun, fun h => ?_⟩
    obtain ⟨rest, -, hsome⟩ := h.exists_hole?
    cases hhole.symm.trans hsome
  | case4 c text hc ih =>
    obtain ⟨segments, hcuts, hpieces⟩ := ih
    refine ⟨.literal c :: segments, ?_, by rw [List.map_cons, hpieces, Segment.piece]⟩
    exact hcuts.cons rfl List.not_mem_nil fun h => absurd h hc

theorem message_fault (linter description trace : String) (location : Location) :
    (Diagnostic.fault linter description trace location).message =
      "An error occurred in analyzer " ++ linter ++ ": " ++ description ++ " Stack Trace: " ++ trace := by
  have hpieces : pieces 3 Rule.fault.messageTemplate.toList =
      "An error occurred in analyzer ".toList.map .char ++ .hole 0 :: (": ".toList.map .char ++
        .hole 1 :: (" Stack Trace: ".toList.map .char ++ [.hole 2])) := by decide +kernel
  have hchars (arguments : List String) (text : List Char) :
      (text.map Piece.char).flatMap (render arguments) = text := by
    rw [List.flatMap_map]
    exact List.flatMap_singleton' text
  apply String.toList_injective
  change (fill Rule.fault.messageTemplate [linter, description, trace]).toList = _
  rw [toList_fill]
  change (pieces 3 Rule.fault.messageTemplate.toList).flatMap _ = _
  rw [hpieces]
  simp only [List.flatMap_append, List.flatMap_cons, List.flatMap_nil, hchars, render, String.toList_append,
    List.append_assoc, List.append_nil]
  rfl

theorem fill_by_segments (template : String) (arity : Nat) :
    (∃ segments : List Segment, segments.flatMap Segment.source = template.toList ∧
      (∀ written index, .placeholder written index ∈ segments → index < arity) ∧
      (∀ before after written index, template.toList = before ++ '{' :: after →
        ((∃ earlier later, segments = earlier ++ .placeholder written index :: later ∧
          earlier.flatMap Segment.source = before) ↔
        IsIndex written index ∧ index < arity ∧ ∃ rest, after = written ++ '}' :: rest)) ∧
      ∀ arguments : List String, arguments.length = arity →
        (fill template arguments).toList = segments.flatMap (Segment.filled arguments)) ∧
    (Closed template.toList → ∀ (more : String) (arguments : List String),
      fill (template ++ more) arguments = fill template arguments ++ fill more arguments) ∧
    ∀ (linter description trace : String) (location : Location),
      (Diagnostic.fault linter description trace location).message =
        "An error occurred in analyzer " ++ linter ++ ": " ++ description ++ " Stack Trace: " ++ trace := by
  refine ⟨?_, fill_append, message_fault⟩
  obtain ⟨segments, hcuts, hpieces⟩ := exists_cuts arity template.toList
  refine ⟨segments, hcuts.source, fun _ _ => hcuts.lt, hcuts.recognised, ?_⟩
  rintro arguments rfl
  rw [toList_fill, ← hpieces, List.flatMap_map]
  congr 1
  funext s
  exact (s.filled_eq_render arguments).symm

theorem braces_in_argument_kept :
    fill ("\x7b0\x7d: " ++ "\x7b+1\x7d of \x7b2\x7d\x7b") ["\x7b1\x7d", "b"] =
      "\x7b1\x7d: " ++ "b of \x7b2\x7d\x7b" ∧
    ∃ segments : List Segment,
      segments.flatMap Segment.source = "\x7b+1\x7d of \x7b2\x7d\x7b".toList ∧
      segments.flatMap (Segment.filled ["\x7b1\x7d", "b"]) = "b of \x7b2\x7d\x7b".toList := by
  have hclosed : Closed "\x7b0\x7d: ".toList := by
    rw [show "\x7b0\x7d: ".toList = ['{', '0', '}', ':', ' '] from rfl]
    simp [closed_cons, closed_nil]
  constructor
  · rw [(fill_by_segments "\x7b0\x7d: " 2).2.1 hclosed]
    decide +kernel
  · obtain ⟨⟨segments, hsource, -, -, hfill⟩, -⟩ := fill_by_segments "\x7b+1\x7d of \x7b2\x7d\x7b" 2
    refine ⟨segments, hsource, ?_⟩
    rw [← hfill ["\x7b1\x7d", "b"] rfl]
    decide +kernel

end CollationLint.Template
