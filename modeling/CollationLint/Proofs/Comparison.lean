import CollationLint.Proofs.Exchange
import CollationLint.Proofs.WellKnown
import Mathlib.Tactic.Common

namespace CollationLint

theorem guarded_eq_error_iff (a b : Except Fault Bool) (s : Bool) (e : Fault) :
    (do if ← a then if ← b then return false else return s else return false) = Except.error e ↔
      a = .error e ∨ a = .ok true ∧ b = .error e := by
  rcases a with e | _ | _ <;> rcases b with e | _ | _ <;>
    simp [bind, Except.bind, pure, Except.pure]

theorem guarded_eq_ok_true_iff (a b : Except Fault Bool) (s : Bool) :
    (do if ← a then if ← b then return false else return s else return false) =
      (Except.ok true : Except Fault Bool) ↔ a = .ok true ∧ b = .ok false ∧ s = true := by
  rcases a with e | _ | _ <;> rcases b with e | _ | _ <;>
    simp [bind, Except.bind, pure, Except.pure]

namespace Forest

variable {f : Forest}

def IsUntold (f : Forest) (string : LoadedType) (i : Nat) : Prop :=
  f.isDeclared string i = false ∧ f.IsHollow i

theorem child?_zero_of_child?_one {i right : Nat} (h : f.child? i 1 = some right) :
    ∃ left, f.child? i 0 = some left := by
  obtain ⟨hlt, -⟩ := List.getElem?_eq_some_iff.1 h
  exact ⟨_, List.getElem?_eq_getElem (by omega : 0 < (f.children i).length)⟩

theorem isStringTyped_error_iff (string : LoadedType) (i : Nat) :
    (∃ e, f.isStringTyped string i = .error e) ↔ f.IsUntold string i := by
  simp only [isStringTyped_eq_error_iff]
  constructor
  · rintro ⟨e, hd, hh, -⟩
    exact ⟨hd, hh⟩
  · rintro ⟨hd, hh⟩
    exact ⟨_, hd, hh, rfl⟩

theorem isStringTyped_eq_ok_false_iff (string : LoadedType) (i : Nat) :
    f.isStringTyped string i = .ok false ↔ ¬f.IsString string i ∧ ¬f.IsUntold string i :=
  ok_false_iff_of_iff (isStringTyped_eq_ok_true_iff string i) (isStringTyped_error_iff string i)

theorem isNull_eq_ok_false_iff (i : Nat) :
    f.isNull i = .ok false ↔ ¬f.ReachesNull i ∧ ¬f.Reaches f.IsHollow i :=
  ok_false_iff_of_iff (isNull_eq_ok_true_iff i) (isNull_error_iff i)

/-- A comparison at `i` meets a shape that it cannot read. Operands are looked at from left to right,
first for their types, then for null, and the right one only if the left one settles nothing. -/
def IsUnreadable (f : Forest) (string : LoadedType) (i : Nat) : Prop :=
  f.child? i 1 = none ∨ ∃ left right, f.child? i 0 = some left ∧ f.child? i 1 = some right ∧
    (f.IsUntold string left ∨ ¬f.IsString string left ∧ f.IsUntold string right ∨
      (f.IsString string left ∨ f.IsString string right) ∧
        (f.Reaches f.IsHollow left ∨ ¬f.ReachesNull left ∧ f.Reaches f.IsHollow right))

end Forest

namespace WellKnown

variable (known : WellKnown) {f : Forest} {i left right : Nat}

theorem flagsComparison_of_operands (ho : (f.operator? i).any (·.testsEquality) = true)
    (hl : f.child? i 0 = some left) (hr : f.child? i 1 = some right) :
    known.flagsComparison f i = do
      if ← either (f.isStringTyped known.string left) (f.isStringTyped known.string right) then
        if ← either (f.isNull left) (f.isNull right) then return false
        else return f.inScope known.entryPoints i
      else return false := by
  rw [flagsComparison, if_pos ho, hl, hr]

theorem inScope_of_flagsComparison (h : known.flagsComparison f i = .ok true) :
    f.inScope known.entryPoints i = true := by
  by_cases ho : (f.operator? i).any (·.testsEquality) = true
  · cases hr : f.child? i 1 with
    | none => simp [flagsComparison, ho, hr] at h
    | some right =>
      obtain ⟨left, hl⟩ := Forest.child?_zero_of_child?_one hr
      rw [known.flagsComparison_of_operands ho hl hr, guarded_eq_ok_true_iff] at h
      exact h.2.2
  · simp [flagsComparison, ho] at h

theorem operands_error_iff (string : LoadedType) (left right : Nat) :
    (∃ e, either (f.isStringTyped string left) (f.isStringTyped string right) = .error e ∨
      either (f.isStringTyped string left) (f.isStringTyped string right) = .ok true ∧
        either (f.isNull left) (f.isNull right) = .error e) ↔
      f.IsUntold string left ∨ ¬f.IsString string left ∧ f.IsUntold string right ∨
        (f.IsString string left ∨ f.IsString string right) ∧
          (f.Reaches f.IsHollow left ∨ ¬f.ReachesNull left ∧ f.Reaches f.IsHollow right) := by
  simp only [either_eq_error_iff, either_eq_ok_true_iff, exists_or, exists_and_left,
    Forest.isStringTyped_error_iff, Forest.isStringTyped_eq_ok_true_iff,
    Forest.isStringTyped_eq_ok_false_iff, Forest.isNull_error_iff, Forest.isNull_eq_ok_false_iff]
  tauto

theorem flagsComparison_error_iff :
    (∃ e, known.flagsComparison f i = .error e) ↔
      (f.operator? i).any (·.testsEquality) = true ∧ f.IsUnreadable known.string i := by
  by_cases ho : (f.operator? i).any (·.testsEquality) = true
  · cases hr : f.child? i 1 with
    | none => simp [flagsComparison, ho, hr, Forest.IsUnreadable]
    | some right =>
      obtain ⟨left, hl⟩ := Forest.child?_zero_of_child?_one hr
      simp only [known.flagsComparison_of_operands ho hl hr, guarded_eq_error_iff, operands_error_iff,
        Forest.IsUnreadable, ho, hl, hr, true_and, reduceCtorEq, false_or, Option.some.injEq,
        exists_and_left, exists_eq_left']
  · simp [flagsComparison, ho]

theorem flagsComparison_of_filled (hf : f.Filled) {operator : BinaryOperator}
    (ho : f.operator? i = some operator) (hl : f.child? i 0 = some left) (hr : f.child? i 1 = some right) :
    ∃ b, known.flagsComparison f i = .ok b ∧ (b = true ↔
      (operator = .equals ∨ operator = .notEquals) ∧
      (f.IsString known.string left ∨ f.IsString known.string right) ∧
      (¬f.ReachesNull left ∧ ¬f.ReachesNull right) ∧ f.inScope known.entryPoints i = true) := by
  have htest : (f.operator? i).any (·.testsEquality) = true ↔ operator = .equals ∨ operator = .notEquals := by
    simp [ho, BinaryOperator.testsEquality]
  by_cases he : operator = .equals ∨ operator = .notEquals
  · obtain ⟨sl, hsl, hl'⟩ := hf.isStringTyped known.string left
    obtain ⟨sr, hsr, hr'⟩ := hf.isStringTyped known.string right
    obtain ⟨nl, hnl, hln⟩ := hf.isNull left
    obtain ⟨nr, hnr, hrn⟩ := hf.isNull right
    rw [known.flagsComparison_of_operands (htest.2 he) hl hr, hsl, hsr, hnl, hnr, either_ok, either_ok,
      ← hl', ← hr', ← hln, ← hrn]
    refine ⟨(sl || sr) && !(nl || nr) && f.inScope known.entryPoints i, ?_, ?_⟩
    · cases sl || sr <;> cases nl || nr <;> rfl
    · simp [he, and_assoc]
  · exact ⟨false, by rw [flagsComparison, if_neg (htest.not.2 he)], by simp [he]⟩

end WellKnown

namespace Linter

variable (linter : Linter) {f : Forest} {i : Nat} {n : Node}

theorem checkComparison_eq (hn : f.node? i = some n) :
    linter.checkComparison f i = linter.record n.location (linter.known.flagsComparison f i) := by
  simp [checkComparison, hn]

theorem record_eq_some_iff (location : Location) (outcome : Except Fault Bool) (d : Diagnostic) :
    linter.record location outcome = some d ↔
      (d = .violation Rule.implicitCollation linter.severity location ∧ outcome = .ok true) ∨
        ∃ e, d = .fault name e.description e.trace location ∧ outcome = .error e := by
  rcases outcome with e | _ | _ <;> simp [record, eq_comm]

theorem checkComparison_eq_some_iff (hf : f.Filled) {operator : BinaryOperator} {left right : Nat}
    (ho : f.operator? i = some operator) (hl : f.child? i 0 = some left) (hr : f.child? i 1 = some right)
    (hn : f.node? i = some n) (d : Diagnostic) :
    linter.checkComparison f i = some d ↔
      d = .violation Rule.implicitCollation linter.severity n.location ∧
      (operator = .equals ∨ operator = .notEquals) ∧
      (f.IsString linter.known.string left ∨ f.IsString linter.known.string right) ∧
      (¬f.ReachesNull left ∧ ¬f.ReachesNull right) ∧
      f.inScope linter.known.entryPoints i = true := by
  obtain ⟨b, hb, hiff⟩ := linter.known.flagsComparison_of_filled hf ho hl hr
  rw [linter.checkComparison_eq hn, hb, record_eq_some_iff, Except.ok.injEq, hiff]
  simp

theorem comparison_flagged_iff (hf : f.Filled) {operator : BinaryOperator} {left right : Nat}
    {rest : List Nat} (ho : f.operator? i = some operator) (hc : f.children i = left :: right :: rest) :
    ∃ n, f.node? i = some n ∧
      (∀ d, linter.checkComparison f i = some d ↔
        d = .violation Rule.implicitCollation linter.severity n.location ∧
        (operator = .equals ∨ operator = .notEquals) ∧
        (f.IsString linter.known.string left ∨ f.IsString linter.known.string right) ∧
        (¬f.ReachesNull left ∧ ¬f.ReachesNull right) ∧
        f.inScope linter.known.entryPoints i = true) ∧
      (f.exchange i).children i = right :: left :: rest ∧
      linter.checkComparison (f.exchange i) i = linter.checkComparison f i := by
  obtain ⟨n, hn⟩ := Forest.exists_node_of_kind? (Forest.kind?_of_operator? ho)
  have hl : f.child? i 0 = some left := by rw [Arena.child?, hc]; rfl
  have hr : f.child? i 1 = some right := by rw [Arena.child?, hc]; rfl
  have hc' : (f.exchange i).children i = right :: left :: rest := by
    rw [Forest.exchange, Arena.children_exchange, if_pos rfl, hc, exchanged]
  refine ⟨n, hn, linter.checkComparison_eq_some_iff hf ho hl hr hn, hc', ?_⟩
  have hag := f.agreeBelow_exchange i
  have hli := Forest.lt_of_child? hl
  have hri := Forest.lt_of_child? hr
  have ho' : (f.exchange i).operator? i = some operator := by
    rw [Forest.operator?, Forest.kind?_exchange]
    exact ho
  have hl' : (f.exchange i).child? i 0 = some right := by rw [Arena.child?, hc']; rfl
  have hr' : (f.exchange i).child? i 1 = some left := by rw [Arena.child?, hc']; rfl
  have hn' : (f.exchange i).node? i = some { n with children := exchanged n.children } := by
    rw [Forest.exchange, Arena.node?_exchange, hn]
    simp
  apply Option.ext
  intro d
  rw [linter.checkComparison_eq_some_iff (hf.exchange i) ho' hl' hr' hn',
    linter.checkComparison_eq_some_iff hf ho hl hr hn, ← hag.isString hli, ← hag.isString hri,
    ← hag.reachesNull hli, ← hag.reachesNull hri, f.inScope_exchange i]
  apply and_congr_right'
  tauto

theorem converted_comparison_flagged :
    let f := Library.query [Library.stringLocal "a", ⟨.conversion, none, Library.site, [0]⟩,
      ⟨.literal (some (.text "b")), none, Library.site, []⟩, ⟨.conversion, none, Library.site, [2]⟩,
      ⟨.conversion, none, Library.site, [3]⟩, ⟨.binary .notEquals, none, Library.site, [1, 4]⟩]
    Library.linter.checkComparison f 5 = some (.violation Rule.implicitCollation .info Library.site) ∧
      Library.linter.checkComparison (f.exchange 5) 5 = Library.linter.checkComparison f 5 := by
  intro f
  obtain ⟨n, hn, hflag, -, hsame⟩ := Library.linter.comparison_flagged_iff
    (by decide +kernel : f.Filled) (by decide +kernel : f.operator? 5 = some .notEquals)
    (by decide +kernel : f.children 5 = [1, 4])
  have hloc : (f.node? 5).map (·.location) = some Library.site := by decide +kernel
  rw [hn, Option.map_some, Option.some.injEq] at hloc
  refine ⟨(hflag _).2 ⟨?_, .inr rfl, .inl ?_, ⟨?_, ?_⟩, ?_⟩, hsame⟩
  · rw [hloc]
    rfl
  · exact (Forest.isStringTyped_eq_ok_true_iff _ _).1 (by decide +kernel)
  · exact fun h => absurd ((Forest.isNull_eq_ok_true_iff _).2 h) (by decide +kernel)
  · exact fun h => absurd ((Forest.isNull_eq_ok_true_iff _).2 h) (by decide +kernel)
  · decide +kernel

end Linter

end CollationLint
