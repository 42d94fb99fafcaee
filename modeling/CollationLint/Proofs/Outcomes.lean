import CollationLint.Proofs.OutOfScope

namespace CollationLint

theorem mapM_cons_apply {σ α β : Type} (f : α → StateM σ β) (a : α) (as : List α) (s : σ) :
    (a :: as).mapM f s =
      ((f a s).1 :: (as.mapM f (f a s).2).1, (as.mapM f (f a s).2).2) := by
  rw [List.mapM_cons]
  rfl

theorem not_isPrefixOf_append {first : Char} {rest : List Char} {start text : String}
    (hs : start.toList = first :: rest) (hf : first ≠ 'p') :
    "panic: ".toList.isPrefixOf (start ++ text).toList = false := by
  have hp : "panic: ".toList = 'p' :: "anic: ".toList := rfl
  rw [String.toList_append, hs, hp, List.cons_append, List.isPrefixOf, beq_false_of_ne hf.symm,
    Bool.false_and]

theorem Fault.isPrefixOf_description (e : Fault) :
    "panic: ".toList.isPrefixOf e.description.toList = true ↔ ∃ c, e = .crashed c := by
  have other {e : Fault} {start text : String} {first : Char} {rest : List Char}
      (hd : e.description = start ++ text) (hs : start.toList = first :: rest) (hf : first ≠ 'p')
      (he : ∀ c, e ≠ .crashed c) :
      "panic: ".toList.isPrefixOf e.description.toList = true ↔ ∃ c, e = .crashed c := by
    simp only [hd, not_isPrefixOf_append hs hf, he, Bool.false_eq_true, exists_false]
  cases e with
  | crashed c =>
    have hd : (crashed c).description = "panic: " ++ c.message := rfl
    rw [hd, String.toList_append, List.isPrefixOf_iff_prefix]
    exact ⟨fun _ => ⟨c, rfl⟩, fun _ => List.prefix_append _ _⟩
  | missingOperand i => exact other (String.append_assoc ..) rfl (by decide) nofun
  | notCall i => exact other (String.append_assoc ..) rfl (by decide) nofun
  | emptyConversion i => exact other (String.append_assoc ..) rfl (by decide) nofun
  | missingArgument i k =>
    have hd : (missingArgument i k).description =
        "invocation " ++ (operationLabel i ++ " has no argument " ++ toString k) := by
      rw [← String.append_assoc, ← String.append_assoc]
      rfl
    exact other hd rfl (by decide) nofun

namespace Diagnostic

def reportsCrash (d : Diagnostic) : Bool :=
  d.isFault && d.arguments[1]?.any fun description => "panic: ".toList.isPrefixOf description.toList

theorem reportsCrash_violation (rule : Rule) (severity : Severity) (location : Location) :
    (violation rule severity location).reportsCrash = false := by
  simp [reportsCrash, violation]

theorem reportsCrash_fault (linter trace : String) (e : Fault) (location : Location) :
    (fault linter e.description trace location).reportsCrash = true ↔ ∃ c, e = .crashed c := by
  rw [← e.isPrefixOf_description]
  simp [reportsCrash, fault, isFault]

end Diagnostic

theorem WellKnown.argumentIsString_ne_crashed (known : WellKnown) (f : Forest) (i k : Nat) (c : Crash) :
    known.argumentIsString f i k ≠ .error (.crashed c) := by
  rw [argumentIsString]
  split
  · simp
  · rw [Ne, Forest.isStringTyped_eq_error_iff]
    simp

theorem either_ne_crashed {a b : Except Fault Bool} {c : Crash} (ha : a ≠ .error (.crashed c))
    (hb : b ≠ .error (.crashed c)) : either a b ≠ .error (.crashed c) := by
  rw [Ne, either_eq_error_iff]
  rintro (h | ⟨-, h⟩)
  · exact ha h
  · exact hb h

namespace WellKnown

theorem flagsComparison_ne_crashed (known : WellKnown) (f : Forest) (i : Nat) (c : Crash) :
    known.flagsComparison f i ≠ .error (.crashed c) := by
  have typed (j : Nat) : f.isStringTyped known.string j ≠ .error (.crashed c) := by
    simp [Forest.isStringTyped_eq_error_iff]
  have null (j : Nat) : f.isNull j ≠ .error (.crashed c) := by
    simp [Forest.isNull_eq_error_iff, Forest.Reaches]
  by_cases ho : (f.operator? i).any (·.testsEquality) = true
  · cases hr : f.child? i 1 with
    | none => simp [flagsComparison, ho, hr]
    | some right =>
      obtain ⟨left, hl⟩ := Forest.child?_zero_of_child?_one hr
      rw [known.flagsComparison_of_operands ho hl hr, Ne, guarded_eq_error_iff]
      rintro (h | ⟨-, h⟩)
      · exact either_ne_crashed (typed left) (typed right) h
      · exact either_ne_crashed (null left) (null right) h
  · simp [flagsComparison, ho]

def rulingOfLoaded : Except Crash (Option LoadedType) → Except Fault Ruling
  | .error c => .error (.crashed c)
  | .ok none => .ok .clear
  | .ok (some t) => .ok (.membership t)

inductive RulingCase (known : WellKnown) (f : Forest) (i : Nat) : Prop
  | notCall (ht : f.target? i = none) (hr : ∀ resolver, known.ruling resolver f i = .error (.notCall i))
  | clear {target : MethodRef} (ht : f.target? i = some target)
      (hr : ∀ resolver, known.ruling resolver f i = .ok .clear)
  | stringMethod {target : MethodRef} (ht : f.target? i = some target)
      (hs : f.inScope known.entryPoints i = true) (hm : known.DenotesStringMethod target)
      (hr : ∀ resolver, known.ruling resolver f i = .ok .violation)
  | objectEquals {target : MethodRef} (ht : f.target? i = some target)
      (hs : f.inScope known.entryPoints i = true) (ho : target.denotes known.staticObjectEquals = true)
      (hr : ∀ resolver, known.ruling resolver f i =
        Ruling.ofBool <$> either (known.argumentIsString f i 0) (known.argumentIsString f i 1))
  | otherEquals {target : MethodRef} (ht : f.target? i = some target)
      (hs : f.inScope known.entryPoints i = true) (he : target.IsUnary "Equals")
      (hr : ∀ resolver, known.ruling resolver f i = Ruling.ofBool <$> known.argumentIsString f i 0)
  | otherContains {target : MethodRef} (ht : f.target? i = some target)
      (hs : f.inScope known.entryPoints i = true) (hc : target.IsUnary "Contains")
      (hr : ∀ resolver, known.ruling resolver f i = rulingOfLoaded (target.owner.load resolver))

theorem rulingCase (known : WellKnown) (f : Forest) (i : Nat) : RulingCase known f i := by
  cases ht : f.target? i with
  | none => exact .notCall ht fun resolver => by rw [ruling, ht]
  | some target =>
    by_cases hs : f.inScope known.entryPoints i = true
    swap
    · exact .clear ht fun resolver => ruling_of_not_inScope ht (Bool.not_eq_true _ ▸ hs)
    by_cases hm : (target.denotes known.staticStringEquals || target.denotes known.stringEquals ||
        target.denotes known.sequenceContains) = true
    · have hd : known.DenotesStringMethod target := by
        simpa [DenotesStringMethod, or_assoc] using hm
      refine .stringMethod ht hs hd fun resolver => ?_
      simp only [ruling, ht, hs, hm, Bool.not_true, Bool.false_eq_true, ↓reduceIte]
    by_cases ho : target.denotes known.staticObjectEquals = true
    · refine .objectEquals ht hs ho fun resolver => ?_
      simp only [ruling, ht, hs, hm, ho, Bool.not_true, Bool.false_eq_true, ↓reduceIte]
    by_cases hst : target.isStatic = true
    · refine .clear ht fun resolver => ?_
      simp only [ruling, ht, hs, hm, ho, hst, Bool.not_true, Bool.false_eq_true, ↓reduceIte]
    have hinstance : target.isStatic = false := Bool.not_eq_true _ ▸ hst
    by_cases he : (target.name = "Equals" && target.parameters.length = 1) = true
    · have hu : target.IsUnary "Equals" := ⟨hinstance, by simpa using he⟩
      refine .otherEquals ht hs hu fun resolver => ?_
      simp only [ruling, ht, hs, hm, ho, hst, he, Bool.not_true, Bool.false_eq_true, ↓reduceIte]
    by_cases hc : (target.name = "Contains" && target.parameters.length = 1) = true
    · have hu : target.IsUnary "Contains" := ⟨hinstance, by simpa using hc⟩
      refine .otherContains ht hs hu fun resolver => ?_
      simp only [ruling, ht, hs, hm, ho, hst, he, hc, Bool.not_true, Bool.false_eq_true, ↓reduceIte]
      rcases target.owner.load resolver with c | _ | t <;> rfl
    · refine .clear ht fun resolver => ?_
      simp only [ruling, ht, hs, hm, ho, hst, he, hc, Bool.not_true, Bool.false_eq_true, ↓reduceIte]

theorem ruling_cases (known : WellKnown) (f : Forest) (i : Nat) :
    (∃ target, f.target? i = some target ∧ f.inScope known.entryPoints i = true ∧
      target.IsUnary "Contains" ∧
      ∀ resolver, known.ruling resolver f i = rulingOfLoaded (target.owner.load resolver)) ∨
    ∃ outcome : Except Fault Bool, (∀ c, outcome ≠ .error (.crashed c)) ∧
      ∀ resolver, known.ruling resolver f i = Ruling.ofBool <$> outcome := by
  have hargument := known.argumentIsString_ne_crashed f i
  cases known.rulingCase f i with
  | notCall _ hr => exact .inr ⟨.error (.notCall i), by simp, hr⟩
  | clear _ hr => exact .inr ⟨.ok false, by simp, hr⟩
  | stringMethod _ _ _ hr => exact .inr ⟨.ok true, by simp, hr⟩
  | objectEquals _ _ _ hr => exact .inr ⟨_, fun c => either_ne_crashed (hargument 0 c) (hargument 1 c), hr⟩
  | otherEquals _ _ _ hr => exact .inr ⟨_, hargument 0, hr⟩
  | otherContains ht hs hc hr => exact .inl ⟨_, ht, hs, hc, hr⟩

end WellKnown

namespace Linter

inductive CheckCase (f : Forest) (i : Nat) : Prop
  | comparison {n : Node} (hn : f.node? i = some n)
      (hc : ∀ (linter : Linter) (memo : AncestryMemo), linter.check f i memo =
        (linter.record n.location (linter.known.flagsComparison f i), memo))
  | call {n : Node} {target : MethodRef} (hn : f.node? i = some n) (ht : f.target? i = some target)
      (hc : ∀ (linter : Linter) (memo : AncestryMemo), linter.check f i memo =
        (linter.record n.location (linter.known.flagsCall linter.resolver f i memo).1,
          (linter.known.flagsCall linter.resolver f i memo).2))
  | other (hc : ∀ (linter : Linter) (memo : AncestryMemo), linter.check f i memo = (none, memo))

theorem checkCase (f : Forest) (i : Nat) : CheckCase f i := by
  cases ho : f.operator? i with
  | some operator =>
    have hk := Forest.kind?_of_operator? ho
    obtain ⟨n, hn⟩ := Forest.exists_node_of_kind? hk
    refine .comparison hn fun linter memo => ?_
    rw [linter.check_of_binary memo hk, linter.checkComparison_eq hn]
  | none =>
    cases ht : f.target? i with
    | some target =>
      have hk := Forest.kind?_of_target? ht
      obtain ⟨n, hn⟩ := Forest.exists_node_of_kind? hk
      refine .call hn ht fun linter memo => ?_
      rw [linter.check_of_invocation memo hk, linter.checkCall_eq hn]
    | none => exact .other fun linter memo => linter.check_of_other memo ho ht

def withResolver (linter : Linter) (resolver : Resolver) : Linter := { linter with resolver }

def membership (linter : Linter) (location : Location) :
    Except Crash (Option LoadedType) → StateM AncestryMemo (Option Diagnostic)
  | .error c => return linter.record location (.error (.crashed c))
  | .ok none => return none
  | .ok (some t) =>
    (fun answer => linter.record location (.ok answer)) <$> AncestryMemo.derivesFrom t linter.known.strings

variable (linter : Linter) (f : Forest) (i : Nat)

theorem reportsCrash_of_record {location : Location} {outcome : Except Fault Bool}
    (h : ∀ c, outcome ≠ .error (.crashed c)) (d : Diagnostic)
    (hd : linter.record location outcome = some d) : d.reportsCrash = false := by
  rw [record_eq_some_iff] at hd
  rcases hd with ⟨rfl, -⟩ | ⟨e, rfl, rfl⟩
  · exact Diagnostic.reportsCrash_violation _ _ _
  · rw [← Bool.not_eq_true, Diagnostic.reportsCrash_fault]
    rintro ⟨c, rfl⟩
    exact h c rfl

theorem check_cases :
    (∃ n target, f.node? i = some n ∧ f.target? i = some target ∧
      f.inScope linter.known.entryPoints i = true ∧ target.IsUnary "Contains" ∧ ∀ resolver,
        (linter.withResolver resolver).check f i = linter.membership n.location (target.owner.load resolver)) ∨
    ∃ outcome, (∀ d, outcome = some d → d.reportsCrash = false) ∧
      ∀ resolver, (linter.withResolver resolver).check f i = pure outcome := by
  cases checkCase f i with
  | @comparison n _ hc =>
    refine .inr ⟨linter.record n.location (linter.known.flagsComparison f i), ?_, fun resolver => ?_⟩
    · exact linter.reportsCrash_of_record (linter.known.flagsComparison_ne_crashed f i)
    · funext memo
      exact hc (linter.withResolver resolver) memo
  | other hc =>
    refine .inr ⟨none, by simp, fun resolver => ?_⟩
    funext memo
    exact hc (linter.withResolver resolver) memo
  | @call n target hn ht hc =>
    have hcheck (resolver : Resolver) : (linter.withResolver resolver).check f i =
        linter.record n.location <$> linter.known.flagsCall resolver f i := by
      funext memo
      exact hc (linter.withResolver resolver) memo
    obtain ⟨target', ht', hs, hu, hr⟩ | ⟨outcome, hcalm, hr⟩ := linter.known.ruling_cases f i
    · refine .inl ⟨n, target', hn, ht', hs, hu, fun resolver => ?_⟩
      rw [hcheck, WellKnown.flagsCall, hr]
      rcases target'.owner.load resolver with c | _ | t <;> rfl
    · refine .inr ⟨linter.record n.location outcome, linter.reportsCrash_of_record hcalm, fun resolver => ?_⟩
      funext memo
      rw [hcheck, WellKnown.flagsCall, hr]
      rcases outcome with e | b
      · rfl
      · cases b <;> rfl

end Linter

end CollationLint
