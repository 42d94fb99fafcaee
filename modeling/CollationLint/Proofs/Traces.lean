import CollationLint.Proofs.Defects
import CollationLint.Proofs.Naming
import Mathlib.Data.List.DropRight

namespace CollationLint.Trace

section Lines

variable {line text more : List Char}

def withoutReturn (line : List Char) : List Char :=
  if line.getLast? = some '\r' then line.dropLast else line

theorem lines_of_notMem (h : '\n' ∉ line) (hne : line ≠ []) : lines line = [line] := by
  induction line with
  | nil => exact absurd rfl hne
  | cons c line ih =>
    rw [List.mem_cons, not_or] at h
    obtain ⟨hc, hline⟩ := h
    rw [lines]
    · cases line with
      | nil => rfl
      | cons d line => rw [ih hline (List.cons_ne_nil _ _)]
    · exact fun hn => hc hn.symm
    · rintro rest - rfl
      simp at hline

theorem lines_append (h : '\n' ∉ line) (text : List Char) :
    lines (line ++ '\n' :: text) = withoutReturn line :: lines text := by
  induction line with
  | nil => rfl
  | cons c line ih =>
    rw [List.mem_cons, not_or] at h
    obtain ⟨hc, hline⟩ := h
    by_cases hreturn : c = '\r' ∧ line = []
    · obtain ⟨rfl, rfl⟩ := hreturn
      rfl
    · have hkept : withoutReturn (c :: line) = c :: withoutReturn line := by
        cases line with
        | nil => simp_all [withoutReturn]
        | cons d line => simp [withoutReturn, apply_ite (c :: ·)]
      rw [List.cons_append, lines, ih hline, hkept]
      · exact fun hn => hc hn.symm
      · rintro rest rfl hrest
        cases line with
        | nil => exact hreturn ⟨rfl, rfl⟩
        | cons d line =>
          cases hrest
          simp at hline

theorem line_induction {motive : List Char → Prop} (last : ∀ line, '\n' ∉ line → motive line)
    (first : ∀ line text, '\n' ∉ line → motive text → motive (line ++ '\n' :: text)) (text : List Char) :
    motive text := by
  by_cases h : '\n' ∈ text
  · obtain ⟨line, rest, htext, hline⟩ := List.eq_append_cons_of_mem h
    have : rest.length < text.length := by
      simp only [htext, List.length_append, List.length_cons]
      omega
    rw [htext]
    exact first line rest hline (line_induction last first rest)
  · exact last text h
termination_by text.length

end Lines

section Trim

variable {c : Char} {text : List Char}

theorem trim_eq (text : List Char) : trim text = (text.dropWhile isBlank).rdropWhile isBlank := rfl

theorem mem_of_mem_trim (h : c ∈ trim text) : c ∈ text :=
  (List.dropWhile_suffix isBlank).subset ((List.rdropWhile_prefix isBlank _).subset h)

theorem isBlank_of_head?_dropWhile (h : (text.dropWhile isBlank).head? = some c) : isBlank c = false := by
  have hnot := List.head?_dropWhile_not isBlank text
  rw [h] at hnot
  exact hnot

theorem trim_concat (text : List Char) (hc : isBlank c = true) : trim (text ++ [c]) = trim text := by
  rw [trim_eq, trim_eq, List.dropWhile_append]
  split
  · next h => simp [List.isEmpty_iff.1 h, hc]
  · exact List.rdropWhile_concat_pos isBlank _ c hc

theorem trim_withoutReturn (line : List Char) : trim (withoutReturn line) = trim line := by
  unfold withoutReturn
  split
  · next h =>
    obtain ⟨start, rfl⟩ := List.getLast?_eq_some_iff.1 h
    rw [List.dropLast_concat, trim_concat start rfl]
  · rfl

theorem trim_eq_nil_iff : trim text = [] ↔ ∀ c ∈ text, isBlank c = true := by
  rw [trim_eq, List.rdropWhile_eq_nil_iff]
  constructor
  · intro h
    rw [← List.dropWhile_eq_nil_iff]
    by_contra hne
    exact List.dropWhile_get_zero_not isBlank text (List.length_pos_iff.2 hne) (h _ (List.get_mem _ _))
  · intro h c hc
    exact h c ((List.dropWhile_suffix isBlank).subset hc)

end Trim

section Frames

variable {line text : List Char}

theorem frames_of_notMem (h : '\n' ∉ line) : frames line = [trim line].filter (!·.isEmpty) := by
  cases line with
  | nil => rfl
  | cons c line => rw [frames, lines_of_notMem h (List.cons_ne_nil c line), List.map_singleton]

theorem frames_line_append (h : '\n' ∉ line) (text : List Char) :
    frames (line ++ '\n' :: text) = frames line ++ frames text := by
  rw [frames_of_notMem h, frames, lines_append h, List.map_cons, trim_withoutReturn, List.filter_cons,
    List.filter_singleton, frames]
  cases !(trim line).isEmpty <;> rfl

theorem frames_append (text more : List Char) : frames (text ++ '\n' :: more) = frames text ++ frames more := by
  induction text using line_induction with
  | last line h => exact frames_line_append h more
  | first line text h ih =>
    rw [List.append_assoc, List.cons_append, frames_line_append h, frames_line_append h, ih, List.append_assoc]

theorem frames_intercalate (texts : List (List Char)) : frames (['\n'].intercalate texts) = texts.flatMap frames := by
  induction texts with
  | nil => rfl
  | cons text texts ih =>
    cases texts with
    | nil => simp
    | cons next texts =>
      rw [List.flatMap_cons, ← ih, List.intercalate_cons_cons, List.append_assoc, List.singleton_append,
        frames_append]

theorem frames_eq_nil_iff : frames text = [] ↔ ∀ c ∈ text, isBlank c = true := by
  have hline {line : List Char} (h : '\n' ∉ line) : frames line = [] ↔ ∀ c ∈ line, isBlank c = true := by
    rw [frames_of_notMem h, ← trim_eq_nil_iff]
    simp
  induction text using line_induction with
  | last line h => exact hline h
  | first line text h ih =>
    have hfeed : isBlank '\n' = true := rfl
    rw [frames_append, List.append_eq_nil_iff, List.forall_mem_append, List.forall_mem_cons]
    simp only [hfeed, true_and]
    exact and_congr (hline h) ih

/-- A text that fills at most one line, with no blanks around it. -/
structure IsTidy (text : List Char) : Prop where
  notMem : '\n' ∉ text
  head : ∀ c, text.head? = some c → isBlank c = false
  last : ∀ c, text.getLast? = some c → isBlank c = false

theorem isTidy_trim (h : '\n' ∉ line) : IsTidy (trim line) where
  notMem hm := h (mem_of_mem_trim hm)
  head c hc := by
    obtain ⟨rest, hrest⟩ := List.rdropWhile_prefix isBlank (line.dropWhile isBlank)
    have hhead : (line.dropWhile isBlank).head? = some c := by
      rw [← hrest, List.head?_append]
      exact Option.or_eq_some_iff.2 (.inl hc)
    exact isBlank_of_head?_dropWhile hhead
  last c hc := by
    rw [trim, List.getLast?_reverse] at hc
    exact isBlank_of_head?_dropWhile hc

theorem IsTidy.trim_eq_self (h : IsTidy line) : trim line = line := by
  have hdrop {text : List Char} (hhead : ∀ c, text.head? = some c → isBlank c = false) :
      text.dropWhile isBlank = text := by
    cases text with
    | nil => rfl
    | cons c text => exact List.dropWhile_cons_of_neg (by simp [hhead c rfl])
  rw [trim, hdrop h.head, hdrop, List.reverse_reverse]
  intro c hc
  rw [List.head?_reverse] at hc
  exact h.last c hc

theorem IsTidy.frames_eq (h : IsTidy line) (hne : line ≠ []) : frames line = [line] := by
  rw [frames_of_notMem h.notMem, h.trim_eq_self]
  simp [hne]

theorem isTidy_of_mem_frames (h : line ∈ frames text) : IsTidy line ∧ line ≠ [] := by
  induction text using line_induction with
  | last text htext =>
    rw [frames_of_notMem htext, List.mem_filter, List.mem_singleton] at h
    obtain ⟨rfl, hne⟩ := h
    exact ⟨isTidy_trim htext, by simpa using hne⟩
  | first before text hbefore ih =>
    rw [frames_append, List.mem_append, frames_of_notMem hbefore, List.mem_filter, List.mem_singleton] at h
    rcases h with ⟨rfl, hne⟩ | h
    · exact ⟨isTidy_trim hbefore, by simpa using hne⟩
    · exact ih h

end Frames

section Joining

variable {α : Type} {sep : List α}

theorem intercalate_append {xs ys : List (List α)} (hx : xs ≠ []) (hy : ys ≠ []) :
    sep.intercalate (xs ++ ys) = sep.intercalate xs ++ sep ++ sep.intercalate ys := by
  induction xs with
  | nil => exact absurd rfl hx
  | cons x xs ih =>
    cases xs with
    | nil => rw [List.singleton_append, List.intercalate_cons_of_ne_nil hy, List.intercalate_singleton]
    | cons x' xs =>
      rw [List.cons_append, List.cons_append, List.intercalate_cons_cons, List.intercalate_cons_cons,
        ← List.cons_append, ih (List.cons_ne_nil _ _)]
      simp only [List.append_assoc]

theorem intercalate_eq_nil_iff {xs : List (List α)} (h : ∀ x ∈ xs, x ≠ []) : sep.intercalate xs = [] ↔ xs = [] := by
  cases xs with
  | nil => simp
  | cons x xs =>
    have hx := h x List.mem_cons_self
    cases xs with
    | nil => simp [hx]
    | cons x' xs => simp [List.intercalate_cons_cons, hx]

theorem intercalate_flatten (xss : List (List (List α))) (h : ∀ xs ∈ xss, ∀ x ∈ xs, x ≠ []) :
    sep.intercalate xss.flatten = sep.intercalate ((xss.map sep.intercalate).filter (!·.isEmpty)) := by
  induction xss with
  | nil => rfl
  | cons xs xss ih =>
    obtain ⟨hxs, hxss⟩ := List.forall_mem_cons.1 h
    have hrest := ih hxss
    by_cases hnil : xs = []
    · simp [hnil, hrest]
    have hfirst : sep.intercalate xs ≠ [] := by rwa [Ne, intercalate_eq_nil_iff hxs]
    have hkept : (((xs :: xss).map sep.intercalate).filter (!·.isEmpty)) =
        sep.intercalate xs :: (xss.map sep.intercalate).filter (!·.isEmpty) := by
      simp [hfirst]
    by_cases hlast : xss.flatten = []
    · have hnone : (xss.map sep.intercalate).filter (!·.isEmpty) = [] := by
        simp only [List.filter_eq_nil_iff, List.mem_map]
        rintro _ ⟨ys, hys, rfl⟩
        simp [List.flatten_eq_nil_iff.1 hlast ys hys]
      rw [hkept, hnone, List.flatten_cons, hlast, List.append_nil, List.intercalate_singleton]
    · have hsome : (xss.map sep.intercalate).filter (!·.isEmpty) ≠ [] := by
        intro hnone
        rw [hnone, List.intercalate_nil, intercalate_eq_nil_iff] at hrest
        · exact hlast hrest
        · intro x hx
          obtain ⟨ys, hys, hx⟩ := List.mem_flatten.1 hx
          exact hxss ys hys x hx
      rw [hkept, List.flatten_cons, intercalate_append hnil hlast, hrest, List.intercalate_cons_of_ne_nil hsome]

end Joining

theorem isTidy_intercalate {lines : List (List Char)} (h : ∀ line ∈ lines, IsTidy line ∧ line ≠ []) :
    IsTidy (separator.intercalate lines) := by
  have hsep : '\n' ∉ separator := by decide
  induction lines with
  | nil => exact ⟨by simp, by simp, by simp⟩
  | cons line lines ih =>
    obtain ⟨⟨htidy, hne⟩, hlines⟩ := List.forall_mem_cons.1 h
    cases lines with
    | nil => rwa [List.intercalate_singleton]
    | cons line' lines =>
      have hrest := ih hlines
      have hne' : separator.intercalate (line' :: lines) ≠ [] := by
        rw [Ne, intercalate_eq_nil_iff fun x hx => (hlines x hx).2]
        exact List.cons_ne_nil _ _
      rw [List.intercalate_cons_cons]
      constructor
      · simp only [List.mem_append, not_or]
        exact ⟨⟨htidy.notMem, hsep⟩, hrest.notMem⟩
      · intro c hc
        rw [List.append_assoc, List.head?_append_of_ne_nil _ hne] at hc
        exact htidy.head c hc
      · intro c hc
        rw [List.getLast?_append_of_ne_nil _ hne'] at hc
        exact hrest.last c hc

section Flatten

variable {text : String} {texts : List String}

theorem toList_flatten (text : String) : (flatten text).toList = separator.intercalate (frames text.toList) :=
  String.toList_ofList

theorem isTidy_flatten (text : String) : IsTidy (flatten text).toList := by
  rw [toList_flatten]
  exact isTidy_intercalate fun line hline => isTidy_of_mem_frames hline

theorem flatten_eq_self (h : IsTidy text.toList) : flatten text = text := by
  apply String.toList_injective
  rw [toList_flatten]
  by_cases hne : text.toList = []
  · rw [hne]
    rfl
  · rw [h.frames_eq hne, List.intercalate_singleton]

theorem flatten_flatten (text : String) : flatten (flatten text) = flatten text :=
  flatten_eq_self (isTidy_flatten text)

theorem join_eq_flatten (texts : List String) : join texts = flatten ("\n".intercalate texts) := by
  have hnonempty : ∀ lines ∈ texts.map (frames ·.toList), ∀ line ∈ lines, line ≠ [] := by
    intro lines hlines line hline
    obtain ⟨text, -, rfl⟩ := List.mem_map.1 hlines
    exact (isTidy_of_mem_frames hline).2
  have hcut : frames ("\n".intercalate texts).toList = (texts.map (frames ·.toList)).flatten := by
    rw [String.toList_intercalate, show "\n".toList = ['\n'] from rfl, frames_intercalate, List.flatMap_map,
      List.flatMap_def]
  have hjoined : (texts.map fun t => (flatten t).toList) = (texts.map (frames ·.toList)).map separator.intercalate := by
    simp only [List.map_map, Function.comp_def, toList_flatten]
  apply String.toList_injective
  rw [toList_flatten, hcut, intercalate_flatten _ hnonempty, ← hjoined]
  exact String.toList_ofList

theorem flatten_eq_empty_iff : flatten text = "" ↔ ∀ c ∈ text.toList, isBlank c = true := by
  rw [← String.toList_inj, toList_flatten, ← frames_eq_nil_iff]
  exact intercalate_eq_nil_iff fun line hline => (isTidy_of_mem_frames hline).2

end Flatten

theorem isBlank_of_isDigit {c : Char} (h : c.isDigit = true) : isBlank c = false := by
  have hlow : 48 ≤ c.toNat := by
    simp only [Char.isDigit, Bool.and_eq_true, decide_eq_true_eq] at h
    exact UInt32.le_iff_toNat_le.1 h.1
  have hhigh : c.toNat ≤ 57 := by
    simp only [Char.isDigit, Bool.and_eq_true, decide_eq_true_eq] at h
    exact UInt32.le_iff_toNat_le.1 h.2
  simp only [isBlank, Bool.or_eq_false_iff, Bool.and_eq_false_iff, decide_eq_false_iff_not]
  omega

theorem isTidy_between {first last : Char} {start middle ending : List Char} (hstart : start.head? = some first)
    (hfirst : isBlank first = false) (hending : ending.getLast? = some last) (hlast : isBlank last = false)
    (h : '\n' ∉ start ++ middle ++ ending) : IsTidy (start ++ middle ++ ending) where
  notMem := h
  head c hc := by
    rw [List.append_assoc, List.head?_append, hstart] at hc
    cases hc
    exact hfirst
  last c hc := by
    rw [List.getLast?_append, hending] at hc
    cases hc
    exact hlast

end CollationLint.Trace

namespace CollationLint

open Trace

theorem toList_operationLabel (i : Nat) : (operationLabel i).toList = '#' :: Nat.toDigits 10 i := by
  simp [operationLabel, String.toList_append]

namespace Fault

theorem exists_message {e : Fault} (h : ∀ c, e ≠ .crashed c) :
    ∃ (start ending : String) (i : Nat), e.message = start ++ operationLabel i ++ ending ∧
      (∃ c, start.toList.head? = some c ∧ isBlank c = false) ∧ '\n' ∉ start.toList ∧
      (∃ c, ending.toList.getLast? = some c ∧ isBlank c = false) ∧ '\n' ∉ ending.toList := by
  cases e with
  | crashed c => exact absurd rfl (h c)
  | missingOperand i | notCall i | emptyConversion i =>
    exact ⟨_, _, i, rfl, ⟨_, rfl, rfl⟩, by decide, ⟨_, rfl, rfl⟩, by decide⟩
  | missingArgument i k =>
    have hne : Nat.toDigits 10 k ≠ [] := Nat.toDigits_ne_nil
    have hlast := Nat.isDigit_of_mem_toDigits (by omega) (by omega) (List.getLast_mem hne)
    have hk : (toString k).toList = Nat.toDigits 10 k := by simp
    refine ⟨_, " has no argument " ++ toString k, i, String.append_assoc .., ⟨_, rfl, rfl⟩, by decide, ?_, ?_⟩
    · rw [String.toList_append, hk, List.getLast?_append_of_ne_nil _ hne]
      exact ⟨_, List.getLast?_eq_some_getLast hne, isBlank_of_isDigit hlast⟩
    · have hdigits : '\n' ∉ Nat.toDigits 10 k := notMem_toDigits rfl k
      rw [String.toList_append, hk]
      simp [hdigits]

theorem isTidy_message {e : Fault} (h : ∀ c, e ≠ .crashed c) : IsTidy e.message.toList := by
  obtain ⟨start, ending, i, hmessage, ⟨first, hfirst, hblank⟩, hstart, ⟨last, hlast, hblank'⟩, hending⟩ :=
    exists_message h
  have hlabel : '\n' ∉ (operationLabel i).toList := by
    have hdigits : '\n' ∉ Nat.toDigits 10 i := notMem_toDigits rfl i
    rw [toList_operationLabel]
    simp [hdigits]
  rw [hmessage, String.toList_append, String.toList_append]
  exact isTidy_between hfirst hblank hlast hblank' (by simp [hstart, hlabel, hending])

theorem message_ne_empty {e : Fault} (h : ∀ c, e ≠ .crashed c) : e.message ≠ "" := by
  obtain ⟨start, ending, i, hmessage, -⟩ := exists_message h
  rw [hmessage, Ne, ← String.toList_inj, String.toList_append, String.toList_append, toList_operationLabel]
  simp

theorem isTidy_trace (e : Fault) : IsTidy e.trace.toList := by
  have hjoin (texts : List String) : IsTidy (join texts).toList := by
    rw [join_eq_flatten]
    exact isTidy_flatten _
  cases e <;> exact hjoin _

theorem description_eq_message {e : Fault} (h : ∀ c, e ≠ .crashed c) : e.description = e.message := by
  cases e with
  | crashed c => exact absurd rfl (h c)
  | missingOperand | notCall | emptyConversion | missingArgument => rfl

theorem trace_eq_message {e : Fault} (h : ∀ c, e ≠ .crashed c) : e.trace = e.message := by
  have hjoin : e.trace = join [e.message] := by
    cases e with
    | crashed c => exact absurd rfl (h c)
    | missingOperand | notCall | emptyConversion | missingArgument => rfl
  rw [hjoin, join_eq_flatten, String.intercalate_singleton, flatten_eq_self (isTidy_message h)]

theorem trace_crashed_eq_empty_iff (c : Crash) :
    (crashed c).trace = "" ↔ c.site? = none ∧ ∀ x ∈ c.message.toList, isBlank x = true := by
  have htrace : (crashed c).trace = join (c.message :: (c.site?.map ("at " ++ ·)).toList) := rfl
  rw [htrace, join_eq_flatten, flatten_eq_empty_iff]
  cases c.site? with
  | none => simp
  | some site =>
    simp only [Option.map_some, Option.toList_some, reduceCtorEq, false_and, iff_false]
    intro h
    have hat : 'a' ∈ ("\n".intercalate [c.message, "at " ++ site]).toList := by simp
    cases h 'a' hat

theorem exists_crash_of_trace_eq_empty {e : Fault} (h : e.trace = "") :
    ∃ c, e = .crashed c ∧ c.site? = none ∧ ∀ x ∈ c.message.toList, isBlank x = true := by
  by_cases hplain : ∀ c, e ≠ .crashed c
  · rw [trace_eq_message hplain] at h
    exact absurd h (message_ne_empty hplain)
  · simp only [not_forall, not_not] at hplain
    obtain ⟨c, rfl⟩ := hplain
    exact ⟨c, rfl, (trace_crashed_eq_empty_iff c).1 h⟩

theorem lines_trace {e : Fault} (h : e.trace ≠ "") : lines e.trace.toList = [e.trace.toList] := by
  apply lines_of_notMem e.isTidy_trace.notMem
  simpa using h

end Fault

namespace Linter

variable {linter : Linter} {f : Forest} {memo : AncestryMemo} {d : Diagnostic}

inductive Reports (linter : Linter) (f : Forest) (memo : AncestryMemo) (d : Diagnostic) : Prop
  | run (h : d ∈ (linter.run f memo).1)
  | comparison {i : Nat} (h : linter.checkComparison f i = some d)
  | call {i : Nat} (h : (linter.checkCall f i memo).1 = some d)

def Explains (linter : Linter) (outcome : Except Fault Bool) : Prop :=
  ∀ c, outcome = .error (.crashed c) → linter.resolver.Crashes c

theorem explains_flagsComparison (linter : Linter) (f : Forest) (i : Nat) :
    linter.Explains (linter.known.flagsComparison f i) :=
  fun c hc => absurd hc (linter.known.flagsComparison_ne_crashed f i c)

theorem explains_flagsCall (linter : Linter) (f : Forest) (i : Nat) (memo : AncestryMemo) :
    linter.Explains (linter.known.flagsCall linter.resolver f i memo).1 := by
  intro c hc
  obtain ⟨target, -, -, -, hr⟩ | ⟨outcome, hcalm, hr⟩ := linter.known.ruling_cases f i
  · rw [WellKnown.flagsCall, hr] at hc
    rcases hl : target.owner.load linter.resolver with c' | _ | t
    · rw [hl] at hc
      cases hc
      exact TypeRef.crashes_of_load target.owner hl
    · rw [hl] at hc
      cases hc
    · rw [hl] at hc
      cases hc
  · rw [WellKnown.flagsCall, hr] at hc
    rcases outcome with e | b
    · cases hc
      exact absurd rfl (hcalm c)
    · cases b <;> cases hc

theorem exists_record_of_check {i : Nat} (h : (linter.check f i memo).1 = some d) :
    ∃ location outcome, linter.Explains outcome ∧ linter.record location outcome = some d := by
  cases checkCase f i with
  | comparison _ hc =>
    rw [hc] at h
    exact ⟨_, _, linter.explains_flagsComparison f i, h⟩
  | call _ _ hc =>
    rw [hc] at h
    exact ⟨_, _, linter.explains_flagsCall f i memo, h⟩
  | other hc =>
    rw [hc] at h
    cases h

theorem Reports.exists_record (h : linter.Reports f memo d) :
    ∃ location outcome, linter.Explains outcome ∧ linter.record location outcome = some d := by
  cases h with
  | run h =>
    obtain ⟨i, hi⟩ := mem_run_iff_outcomesFrom.1 h
    obtain ⟨memo', hcheck⟩ := exists_check_of_outcomesFrom hi
    exact exists_record_of_check hcheck
  | @comparison i h =>
    obtain ⟨n, -, h⟩ := Option.bind_eq_some_iff.1 h
    exact ⟨_, _, linter.explains_flagsComparison f i, h⟩
  | @call i h =>
    cases hn : f.node? i with
    | none =>
      rw [checkCall, hn] at h
      cases h
    | some n =>
      rw [linter.checkCall_eq hn] at h
      exact ⟨_, _, linter.explains_flagsCall f i memo, h⟩

theorem Reports.exists_fault (h : linter.Reports f memo d) (hd : d.ruleId = Rule.fault.id) :
    ∃ (e : Fault) (location : Location), d = .fault name e.description e.trace location ∧
      ∀ c, e = .crashed c → linter.resolver.Crashes c := by
  obtain ⟨location, outcome, hexplains, hrecord⟩ := h.exists_record
  obtain ⟨e, rfl⟩ := exists_fault_of_record hrecord hd
  cases hrecord
  exact ⟨e, location, rfl, fun c hc => hexplains c (by rw [hc])⟩

end Linter

/-- A trace can only be empty where the resolver broke down without a word and nobody knows where. -/
theorem Trace.traces_on_single_line :
    (∀ text, '\n' ∉ (flatten text).toList ∧
      (∀ c, (flatten text).toList.head? = some c → isBlank c = false) ∧
      (∀ c, (flatten text).toList.getLast? = some c → isBlank c = false) ∧
      flatten (flatten text) = flatten text) ∧
    (∀ texts, join texts = flatten ("\n".intercalate texts)) ∧
    ∀ (linter : Linter) (f : Forest) (memo : AncestryMemo) (d : Diagnostic), linter.Reports f memo d →
      d.ruleId = "INV9999" → ∃ description trace, d.arguments = [Linter.name, description, trace] ∧
        '\n' ∉ trace.toList ∧
        (lines trace.toList = [trace.toList] ∨ trace = "" ∧ ∃ c, linter.resolver.Crashes c ∧ c.site? = none ∧
          description = "panic: " ++ c.message ∧ ∀ x ∈ c.message.toList, isBlank x = true) ∧
        (d.reportsCrash = false → description = trace) := by
  refine ⟨fun text => ?_, join_eq_flatten, fun linter f memo d h hd => ?_⟩
  · have htidy := isTidy_flatten text
    exact ⟨htidy.notMem, htidy.head, htidy.last, flatten_flatten text⟩
  · obtain ⟨e, location, rfl, hcrashes⟩ := h.exists_fault hd
    refine ⟨e.description, e.trace, rfl, e.isTidy_trace.notMem, ?_, fun hcalm => ?_⟩
    · by_cases hempty : e.trace = ""
      · obtain ⟨c, rfl, hsite, hblank⟩ := Fault.exists_crash_of_trace_eq_empty hempty
        exact .inr ⟨hempty, c, hcrashes c rfl, hsite, rfl, hblank⟩
      · exact .inl (Fault.lines_trace hempty)
    · have hshape : ∀ c, e ≠ .crashed c := by
        rintro c rfl
        cases hcalm.symm.trans ((Diagnostic.reportsCrash_fault _ _ _ _).2 ⟨c, rfl⟩)
      exact (Fault.description_eq_message hshape).trans (Fault.trace_eq_message hshape).symm

namespace Library

def verbose : Resolver := fun _ _ _ => .crashed ⟨some " out of\r\n\n\trange\r", some "line\n7"⟩

def verboseLinter : Linter := .ofKnown known verbose

end Library

theorem Trace.verbose_crash_on_single_line :
    ∃ d description trace, Library.verboseLinter.Reports (Library.bagQuery "Bags") .empty d ∧
      d.arguments = [Linter.name, description, trace] ∧ lines trace.toList = [trace.toList] ∧
      d.arguments[2]? = some "out of <-- range <-- at line <-- 7" := by
  have hcrash : (Library.verboseLinter.checkCall (Library.bagQuery "Bags") 3 .empty).1.map
      (fun d => (d.ruleId, d.arguments[2]?)) =
        some ("INV9999", some "out of <-- range <-- at line <-- 7") := by
    decide +kernel
  obtain ⟨d, hd, heq⟩ := Option.map_eq_some_iff.1 hcrash
  obtain ⟨hid, hlast⟩ := Prod.mk.inj heq
  have hreports : Library.verboseLinter.Reports (Library.bagQuery "Bags") .empty d := .call hd
  obtain ⟨description, trace, hargs, -, hline, -⟩ :=
    traces_on_single_line.2.2 Library.verboseLinter _ _ d hreports hid
  have hsome : trace ≠ "" := by
    rintro rfl
    simp [hargs] at hlast
  exact ⟨d, description, trace, hreports, hargs, hline.resolve_right fun h => hsome h.1, hlast⟩

/-- Nothing is left of a breakdown that says nothing and began nowhere. -/
example : (Fault.crashed ⟨some " \r\n", none⟩).trace = "" := by decide +kernel

end CollationLint
