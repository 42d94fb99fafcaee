import CollationLint.Proofs.Scanning
import Mathlib.Data.List.Induction

namespace CollationLint.Json.Token

variable {text more : List Char} {c : Char}

theorem all_of_space (h : ∀ c ∈ text, isSpace c = true) : all text = some [] := by
  have hnil : text.dropWhile isSpace = [] := List.dropWhile_eq_nil_iff.2 h
  rw [all.eq_def]
  split
  · rfl
  · next hcons => cases hnil.symm.trans hcons

theorem all_nil : all [] = some [] := all_of_space (List.forall_mem_nil _)

theorem all_space_append (h : ∀ c ∈ text, isSpace c = true) (more : List Char) : all (text ++ more) = all more := by
  have hdrop : (text ++ more).dropWhile isSpace = more.dropWhile isSpace := List.dropWhile_append_of_pos h
  rw [all.eq_def, all.eq_def more, hdrop]

theorem all_cons (hc : isSpace c = false) (text : List Char) :
    all (c :: text) = (scan c text).bind fun scanned => (scanned.1 :: ·) <$> all scanned.2 := by
  have hdrop : (c :: text).dropWhile isSpace = c :: text := List.dropWhile_cons_of_neg (by simp [hc])
  rw [all.eq_def]
  split
  · next hnil => cases hdrop.symm.trans hnil
  · next d rest hcons =>
    cases hdrop.symm.trans hcons
    split
    · next hnone => rw [hnone]; rfl
    · next hsome => rw [hsome]; rfl

theorem token_induction {motive : List Char → Prop} (blank : ∀ text, (∀ c ∈ text, isSpace c = true) → motive text)
    (token : ∀ gap c rest, (∀ d ∈ gap, isSpace d = true) → isSpace c = false →
      (∀ t rest', scan c rest = some (t, rest') → motive rest') → motive (gap ++ c :: rest)) (text : List Char) :
    motive text := by
  have hgap : ∀ d ∈ text.takeWhile isSpace, isSpace d = true := fun d => List.mem_takeWhile_imp
  match h : text.dropWhile isSpace with
  | [] => exact blank text (List.dropWhile_eq_nil_iff.1 h)
  | c :: rest =>
    have htext : text = text.takeWhile isSpace ++ c :: rest := by
      rw [← h, List.takeWhile_append_dropWhile]
    have hc : isSpace c = false := by
      have := List.head?_dropWhile_not isSpace text
      rw [h] at this
      exact this
    rw [htext]
    refine token _ c rest hgap hc fun t rest' hscan => ?_
    have hlen : rest'.length < text.length := by
      have := length_of_scan hscan
      rw [htext, List.length_append, List.length_cons]
      omega
    exact token_induction blank token rest'
termination_by text.length

theorem all_eq_nil_iff : all text = some [] ↔ ∀ c ∈ text, isSpace c = true := by
  refine ⟨fun h => ?_, all_of_space⟩
  induction text using token_induction with
  | blank text hspace => exact hspace
  | token gap c rest hgap hc _ =>
    rw [all_space_append hgap, all_cons hc, Option.bind_eq_some_iff] at h
    obtain ⟨scanned, -, h⟩ := h
    obtain ⟨ts, -, h⟩ := Option.map_eq_some_iff.1 h
    cases h

theorem notMem_of_space (h : ∀ c ∈ text, isSpace c = true) : '"' ∉ text := by
  intro hm
  cases h '"' hm

theorem plain_after_space (h : ∀ c ∈ text, isSpace c = true) (more : List Char) :
    Mode.plain.after (text ++ more) = Mode.plain.after more := by
  rw [Mode.after_append, Mode.plain_after_of_notMem (notMem_of_space h)]

theorem all_append (h : Mode.plain.after text = .plain) (hmore : Stops more) :
    all (text ++ more) = (all text).bind fun ts => (ts ++ ·) <$> all more := by
  induction text using token_induction with
  | blank text hspace =>
    rw [all_space_append hspace, all_of_space hspace]
    cases all more <;> rfl
  | token gap c rest hgap hc ih =>
    rw [plain_after_space hgap] at h
    rw [List.append_assoc, all_space_append hgap, all_space_append hgap, List.cons_append, all_cons hc, all_cons hc,
      scan_append_of_plain h hmore]
    rcases hscan : scan c rest with _ | ⟨t, rest'⟩
    · rfl
    · obtain ⟨used, rfl, hused⟩ := exists_of_scan hscan
      have hrest : Mode.plain.after rest' = .plain := by
        rwa [← List.cons_append, Mode.after_append, hused] at h
      have hall := ih t rest' hscan hrest
      simp only [Option.map_some, Prod.map, id_eq, Option.bind_some, hall]
      cases all rest' with
      | none => rfl
      | some ts => cases all more <;> rfl

theorem plain_after_of_all {ts : List Token} (h : all text = some ts) : Mode.plain.after text = .plain := by
  induction text using token_induction generalizing ts with
  | blank text hspace => exact Mode.plain_after_of_notMem (notMem_of_space hspace)
  | token gap c rest hgap hc ih =>
    rw [all_space_append hgap, all_cons hc, Option.bind_eq_some_iff] at h
    obtain ⟨⟨t, rest'⟩, hscan, h⟩ := h
    obtain ⟨ts', hts', -⟩ := Option.map_eq_some_iff.1 h
    obtain ⟨used, rfl, hused⟩ := exists_of_scan hscan
    rw [plain_after_space hgap, ← List.cons_append, Mode.after_append, hused, ih t rest' hscan hts']

theorem Stops.space_append {gap : List Char} (hgap : ∀ c ∈ gap, isSpace c = true) (h : Stops text) :
    Stops (gap ++ text) := by
  cases gap with
  | nil => exact h
  | cons c gap => exact stops_cons (.inl (hgap c List.mem_cons_self))

/-- `before` and `after` meet outside of strings, at an end of the text or beside white space or a structural
character. -/
structure Meet (before after : List Char) : Prop where
  plain : Mode.plain.after before = .plain
  stops : Stops before.reverse ∨ Stops after

theorem all_insert {before after gap : List Char} (h : Meet before after) (hgap : ∀ c ∈ gap, isSpace c = true) :
    all (before ++ (gap ++ after)) = all (before ++ after) := by
  rcases h.stops with hbefore | hafter
  · cases before using List.reverseRecOn with
    | nil => exact all_space_append hgap after
    | append_singleton start c =>
      have hc := hbefore c (by simp)
      have hnext (text : List Char) : all (c :: (gap ++ text)) = all (c :: text) := by
        by_cases hspace : isSpace c = true
        · have hone : ∀ d ∈ [c], isSpace d = true := by simpa using hspace
          have hskip (text : List Char) : all (c :: text) = all text := all_space_append hone text
          rw [hskip, hskip, all_space_append hgap]
        · obtain ⟨t, ht⟩ := exists_scan_structural (hc.resolve_left hspace)
          rw [Bool.not_eq_true] at hspace
          rw [all_cons hspace, all_cons hspace, ht, ht]
          simp only [Option.bind_some, all_space_append hgap]
      have hquote : c ≠ '"' := (stops_cons hc : Stops [c]).ne rfl rfl
      have hstart : Mode.plain.after start = .plain := by
        have hplain := h.plain
        rw [Mode.after_append] at hplain
        exact Mode.eq_plain_of_next hquote hplain
      rw [List.append_assoc, List.append_assoc, List.singleton_append, List.singleton_append,
        all_append hstart (stops_cons hc), all_append hstart (stops_cons hc), hnext]
  · rw [all_append h.plain (hafter.space_append hgap), all_append h.plain hafter, all_space_append hgap]

def mark? : Token → Option Char
  | .openBracket => some '['
  | .closeBracket => some ']'
  | .openBrace => some '{'
  | .closeBrace => some '}'
  | .colon => some ':'
  | .comma => some ','
  | _ => none

theorem mark?_of_scanNumber {t : Token} {rest : List Char} (h : scanNumber text = some (t, rest)) :
    t.mark? = none := by
  have hunsigned {negative : Bool} {text : List Char} (h : scanUnsigned negative text = some (t, rest)) :
      t.mark? = none := by
    simp only [scanUnsigned, Option.bind_eq_bind, Option.bind_eq_some_iff] at h
    obtain ⟨_, -, _, -, _, -, h⟩ := h
    cases h
    split <;> rfl
  unfold scanNumber at h
  split at h <;> exact hunsigned h

theorem scan_mark {t : Token} {rest : List Char} {s : Char} (h : scan c text = some (t, rest))
    (ht : t.mark? = some s) : c = s ∧ rest = text := by
  revert h
  fun_cases scan c text with
  | case1 | case2 | case3 | case4 | case5 | case6 =>
    rintro ⟨⟩
    cases ht
    exact ⟨rfl, rfl⟩
  | case7 text =>
    intro h
    obtain ⟨units, -, h⟩ := Option.bind_eq_some_iff.1 h
    cases h
    cases ht
  | case8 | case9 | case10 =>
    rintro ⟨⟩
    cases ht
  | case11 =>
    intro h
    cases ht.symm.trans (mark?_of_scanNumber h)

theorem scan_of_mark {t : Token} {s : Char} (ht : t.mark? = some s) (text : List Char) :
    scan s text = some (t, text) := by
  cases t <;> cases ht <;> rfl

theorem isStructural_of_mark? {t : Token} {s : Char} (ht : t.mark? = some s) : isStructural s = true := by
  cases t <;> cases ht <;> rfl

theorem all_append_mark {before after : List Char} {ts us : List Token} {u : Token} {s : Char}
    (hu : u.mark? = some s) (hbefore : all before = some ts) (hafter : all after = some us) :
    all (before ++ s :: after) = some (ts ++ u :: us) := by
  have hstructural := isStructural_of_mark? hu
  have hspace : isSpace s = false := by cases u <;> cases hu <;> rfl
  have hmark : all (s :: after) = some (u :: us) := by
    rw [all_cons hspace, scan_of_mark hu, Option.bind_some, hafter]
    rfl
  rw [all_append (plain_after_of_all hbefore) (stops_cons (.inr hstructural)), hbefore, hmark]
  rfl

theorem exists_of_all {ts us : List Token} {u : Token} {s : Char} (h : all text = some (ts ++ u :: us))
    (hu : u.mark? = some s) :
    ∃ before after, text = before ++ s :: after ∧ all before = some ts ∧ all after = some us := by
  induction text using token_induction generalizing ts with
  | blank text hspace =>
    rw [all_of_space hspace] at h
    simp at h
  | token gap c rest hgap hc ih =>
    rw [all_space_append hgap, all_cons hc, Option.bind_eq_some_iff] at h
    obtain ⟨⟨t, rest'⟩, hscan, h⟩ := h
    obtain ⟨ts', hts', h⟩ := Option.map_eq_some_iff.1 h
    cases ts with
    | nil =>
      cases h
      obtain ⟨rfl, rfl⟩ := scan_mark hscan hu
      exact ⟨gap, rest', rfl, all_of_space hgap, hts'⟩
    | cons t' ts =>
      cases h
      obtain ⟨used, rfl, hused⟩ := exists_of_scan hscan
      obtain ⟨before, after, rfl, hbefore, hafter⟩ := ih t rest' hscan hts'
      have hplain : Mode.plain.after (c :: (used ++ before)) = .plain := by
        rw [← List.cons_append, Mode.after_append, hused, plain_after_of_all hbefore]
      have hshort : scan c (used ++ before) = some (t, before) := by
        have hstops : Stops (s :: after) := stops_cons (.inr (isStructural_of_mark? hu))
        rw [← List.append_assoc, scan_append_of_plain hplain hstops] at hscan
        obtain ⟨⟨t', rest⟩, hcut, heq⟩ := Option.map_eq_some_iff.1 hscan
        have ht : t' = t := congrArg Prod.fst heq
        have hrest : rest = before := List.append_cancel_right (congrArg Prod.snd heq)
        rw [hcut, ht, hrest]
      refine ⟨gap ++ c :: (used ++ before), after, by simp, ?_, hafter⟩
      rw [all_space_append hgap, all_cons hc, hshort, Option.bind_some, hbefore]
      rfl

end CollationLint.Json.Token
