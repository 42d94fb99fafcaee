import CollationLint.Proofs.Comparison

namespace CollationLint

namespace AncestryMemo

def answer (memo : AncestryMemo) (ancestor t : LoadedType) : Bool := (derivesFrom t ancestor memo).1

theorem answer_eq_derivesFrom {memo : AncestryMemo} {ancestor t : LoadedType}
    (h : ∀ b, memo.find? t ancestor = some b → b = t.derivesFrom ancestor) :
    memo.answer ancestor t = t.derivesFrom ancestor := by
  unfold answer derivesFrom
  cases hb : memo.find? t ancestor with
  | none => rfl
  | some b => exact h b hb

end AncestryMemo

def Forest.ArgumentIsString (f : Forest) (string : LoadedType) (i k : Nat) : Prop :=
  ∃ v, f.argumentValue? i k = some v ∧ f.IsString string v

def MethodRef.IsUnary (target : MethodRef) (name : String) : Prop :=
  target.isStatic = false ∧ target.name = name ∧ target.parameters.length = 1

def WellKnown.DenotesStringMethod (known : WellKnown) (target : MethodRef) : Prop :=
  target.denotes known.staticStringEquals = true ∨ target.denotes known.stringEquals = true ∨
    target.denotes known.sequenceContains = true

inductive CallRule where
  | staticStringEquals | stringEquals | sequenceContains | staticObjectEquals | otherEquals | otherContains
  deriving DecidableEq

section Table

variable (known : WellKnown) (resolver : Resolver) (derives : LoadedType → Bool) (f : Forest) (i : Nat)
  (target : MethodRef)

def CallRule.Holds : CallRule → Prop
  | .staticStringEquals => target.denotes known.staticStringEquals = true
  | .stringEquals => target.denotes known.stringEquals = true
  | .sequenceContains => target.denotes known.sequenceContains = true
  | .staticObjectEquals => target.denotes known.staticObjectEquals = true ∧
      (f.ArgumentIsString known.string i 0 ∨ f.ArgumentIsString known.string i 1)
  | .otherEquals => target.IsUnary "Equals" ∧ f.ArgumentIsString known.string i 0
  | .otherContains => target.IsUnary "Contains" ∧
      ∃ t, target.owner.load resolver = .ok (some t) ∧ derives t = true

def MethodRef.LoadCrashes (c : Crash) : Prop :=
  target.IsUnary "Contains" ∧ target.owner.load resolver = .error c

variable {known resolver derives f i target}

theorem CallRule.exists_holds_iff :
    (∃ rule : CallRule, rule.Holds known resolver derives f i target) ↔
      known.DenotesStringMethod target ∨
      (target.denotes known.staticObjectEquals = true ∧
        (f.ArgumentIsString known.string i 0 ∨ f.ArgumentIsString known.string i 1)) ∨
      (target.IsUnary "Equals" ∧ f.ArgumentIsString known.string i 0) ∨
      (target.IsUnary "Contains" ∧
        ∃ t, target.owner.load resolver = .ok (some t) ∧ derives t = true) := by
  constructor
  · rintro ⟨rule, h⟩
    cases rule with
    | staticStringEquals => exact .inl (.inl h)
    | stringEquals => exact .inl (.inr (.inl h))
    | sequenceContains => exact .inl (.inr (.inr h))
    | staticObjectEquals => exact .inr (.inl h)
    | otherEquals => exact .inr (.inr (.inl h))
    | otherContains => exact .inr (.inr (.inr h))
  · rintro ((h | h | h) | h | h | h)
    · exact ⟨.staticStringEquals, h⟩
    · exact ⟨.stringEquals, h⟩
    · exact ⟨.sequenceContains, h⟩
    · exact ⟨.staticObjectEquals, h⟩
    · exact ⟨.otherEquals, h⟩
    · exact ⟨.otherContains, h⟩

theorem CallRule.holds_congr {derives' : LoadedType → Bool}
    (h : ∀ t, target.owner.load resolver = .ok (some t) → derives t = derives' t) (rule : CallRule) :
    rule.Holds known resolver derives f i target ↔ rule.Holds known resolver derives' f i target := by
  cases rule with
  | otherContains =>
    apply and_congr_right'
    apply exists_congr
    intro t
    apply and_congr_right
    intro ht
    rw [h t ht]
  | _ => exact Iff.rfl

end Table

theorem Forest.Filled.argumentIsString {f : Forest} (hf : f.Filled) (known : WellKnown) {i k : Nat}
    (ha : ∃ v, f.argumentValue? i k = some v) :
    ∃ b, known.argumentIsString f i k = .ok b ∧ (b = true ↔ f.ArgumentIsString known.string i k) := by
  obtain ⟨v, hv⟩ := ha
  obtain ⟨b, hb, hiff⟩ := hf.isStringTyped known.string v
  refine ⟨b, by rw [WellKnown.argumentIsString, hv]; exact hb, ?_⟩
  simp [hiff, ArgumentIsString, hv]

namespace WellKnown

variable {known : WellKnown} {resolver : Resolver} {f : Forest} {i : Nat} {target : MethodRef}

theorem flagsCall_of_ruling {r : Ruling} (h : known.ruling resolver f i = .ok r) (memo : AncestryMemo) :
    known.flagsCall resolver f i memo = (.ok (known.settle r memo).1, (known.settle r memo).2) := by
  rw [flagsCall, h]
  rfl

theorem flagsCall_of_fault {e : Fault} (h : known.ruling resolver f i = .error e) (memo : AncestryMemo) :
    known.flagsCall resolver f i memo = (.error e, memo) := by
  rw [flagsCall, h]
  rfl

theorem settle_ofBool (b : Bool) (memo : AncestryMemo) :
    (known.settle (Ruling.ofBool b) memo) = (b, memo) := by
  cases b <;> rfl

theorem ruling_of_not_inScope (ht : f.target? i = some target)
    (hs : f.inScope known.entryPoints i = false) : known.ruling resolver f i = .ok .clear := by
  simp [ruling, ht, hs]

theorem IsLoaded.not_isUnary_contains (hk : known.IsLoaded)
    (h : known.DenotesStringMethod target ∨ target.denotes known.staticObjectEquals = true) :
    ¬target.IsUnary "Contains" := by
  obtain ⟨hss, hs, hc, ho⟩ := hk.shapes
  rintro ⟨hst, hname, -⟩
  rcases h with (h | h | h) | h
  · exact absurd (hname.symm.trans (MethodRef.shape_of_denotes hss h).1) (by decide)
  · exact absurd (hname.symm.trans (MethodRef.shape_of_denotes hs h).1) (by decide)
  · exact absurd (hst.symm.trans (MethodRef.shape_of_denotes hc h).2.1) (by decide)
  · exact absurd (hst.symm.trans (MethodRef.shape_of_denotes ho h).2.1) (by decide)

section InScope

variable (memo : AncestryMemo) (ht : f.target? i = some target)
  (hs : f.inScope known.entryPoints i = true)
include ht hs

theorem flagsCall_of_stringMethod (h : known.DenotesStringMethod target) :
    (known.flagsCall resolver f i memo).1 = .ok true := by
  have hr : known.ruling resolver f i = .ok .violation := by
    rcases h with h | h | h <;> simp [ruling, ht, hs, h]
  rw [flagsCall_of_ruling hr]
  rfl

variable (hm : ¬known.DenotesStringMethod target)
include hm

theorem flagsCall_of_objectEquals (ho : target.denotes known.staticObjectEquals = true) {a b : Bool}
    (ha : known.argumentIsString f i 0 = .ok a) (hb : known.argumentIsString f i 1 = .ok b) :
    (known.flagsCall resolver f i memo).1 = .ok (a || b) := by
  have hr : known.ruling resolver f i = .ok (Ruling.ofBool (a || b)) := by
    simp only [DenotesStringMethod, not_or] at hm
    simp [ruling, ht, hs, hm, ho, ha, hb, either_ok]
  rw [flagsCall_of_ruling hr, settle_ofBool]

variable (ho : ¬target.denotes known.staticObjectEquals = true)
include ho

theorem flagsCall_of_equals (he : target.IsUnary "Equals") {a : Bool}
    (ha : known.argumentIsString f i 0 = .ok a) :
    (known.flagsCall resolver f i memo).1 = .ok a := by
  have hr : known.ruling resolver f i = .ok (Ruling.ofBool a) := by
    simp only [DenotesStringMethod, not_or] at hm
    simp [ruling, ht, hs, hm, ho, he.1, he.2.1, he.2.2, ha]
  rw [flagsCall_of_ruling hr, settle_ofBool]

theorem flagsCall_of_contains (hc : target.IsUnary "Contains") :
    (known.flagsCall resolver f i memo).1 = match target.owner.load resolver with
      | .error c => .error (.crashed c)
      | .ok none => .ok false
      | .ok (some t) => .ok (memo.answer known.strings t) := by
  simp only [DenotesStringMethod, not_or] at hm
  rcases hl : target.owner.load resolver with c | _ | t
  · have hr : known.ruling resolver f i = .error (.crashed c) := by
      simp [ruling, ht, hs, hm, ho, hc.1, hc.2.1, hc.2.2, hl]
    rw [flagsCall_of_fault hr]
  · have hr : known.ruling resolver f i = .ok .clear := by
      simp [ruling, ht, hs, hm, ho, hc.1, hc.2.1, hc.2.2, hl]
    rw [flagsCall_of_ruling hr]
    rfl
  · have hr : known.ruling resolver f i = .ok (.membership t) := by
      simp [ruling, ht, hs, hm, ho, hc.1, hc.2.1, hc.2.2, hl]
    rw [flagsCall_of_ruling hr]
    rfl

theorem flagsCall_of_other (he : ¬target.IsUnary "Equals") (hc : ¬target.IsUnary "Contains") :
    (known.flagsCall resolver f i memo).1 = .ok false := by
  have hr : known.ruling resolver f i = .ok .clear := by
    simp only [DenotesStringMethod, not_or] at hm
    cases hst : target.isStatic with
    | true => simp [ruling, ht, hs, hm, ho, hst]
    | false =>
      have he' : ¬(target.name = "Equals" ∧ target.parameters.length = 1) := fun h => he ⟨hst, h⟩
      have hc' : ¬(target.name = "Contains" ∧ target.parameters.length = 1) := fun h => hc ⟨hst, h⟩
      simp [ruling, ht, hs, hm, ho, hst, he', hc']
  rw [flagsCall_of_ruling hr]
  rfl

end InScope

theorem IsLoaded.not_isUnary_of_denotes (hk : known.IsLoaded)
    (h : target.denotes known.staticObjectEquals = true) (name : String) : ¬target.IsUnary name := by
  rintro ⟨hst, -⟩
  cases hst.symm.trans (MethodRef.shape_of_denotes hk.shapes.2.2.2 h).2.1

variable (resolver) in
theorem flagsCall_outcome (hk : known.IsLoaded) (hf : f.Filled) (ht : f.target? i = some target)
    (hs : f.inScope known.entryPoints i = true)
    (ha : ∀ k < target.parameters.length, ∃ v, f.argumentValue? i k = some v) (memo : AncestryMemo) :
    ((known.flagsCall resolver f i memo).1 = .ok true ↔
      ∃ rule : CallRule, rule.Holds known resolver (memo.answer known.strings) f i target) ∧
    ∀ e, (known.flagsCall resolver f i memo).1 = .error e ↔
      ∃ c, target.LoadCrashes resolver c ∧ e = .crashed c := by
  rw [CallRule.exists_holds_iff]
  -- the rows exclude each other by name, staticness and arity, so an early exit loses nothing
  by_cases hm : known.DenotesStringMethod target
  · have hc := hk.not_isUnary_contains (.inl hm)
    rw [flagsCall_of_stringMethod memo ht hs hm]
    simp [hm, hc, MethodRef.LoadCrashes]
  by_cases ho : target.denotes known.staticObjectEquals = true
  · have hno := hk.not_isUnary_of_denotes ho
    have hlen := (MethodRef.shape_of_denotes hk.shapes.2.2.2 ho).2.2
    obtain ⟨a, hfirst, ha'⟩ := hf.argumentIsString known (ha 0 (by omega))
    obtain ⟨b, hsecond, hb'⟩ := hf.argumentIsString known (ha 1 (by omega))
    rw [flagsCall_of_objectEquals memo ht hs hm ho hfirst hsecond, ← ha', ← hb']
    simp [hm, ho, hno, MethodRef.LoadCrashes]
  by_cases he : target.IsUnary "Equals"
  · have hc : ¬target.IsUnary "Contains" := fun h => absurd (h.2.1.symm.trans he.2.1) (by decide)
    obtain ⟨a, hfirst, ha'⟩ := hf.argumentIsString known (ha 0 (by rw [he.2.2]; omega))
    rw [flagsCall_of_equals memo ht hs hm ho he hfirst, ← ha']
    simp [hm, ho, he, hc, MethodRef.LoadCrashes]
  by_cases hc : target.IsUnary "Contains"
  · rw [flagsCall_of_contains memo ht hs hm ho hc]
    rcases hl : target.owner.load resolver with c | _ | t
    · refine ⟨by simp [hm, ho, he], fun e => ⟨?_, ?_⟩⟩
      · intro h
        cases h
        exact ⟨c, ⟨hc, hl⟩, rfl⟩
      · rintro ⟨c', ⟨-, h⟩, rfl⟩
        cases hl.symm.trans h
        rfl
    · simp [hm, ho, he, hl, MethodRef.LoadCrashes]
    · simp [hm, ho, he, hc, hl, MethodRef.LoadCrashes]
  · rw [flagsCall_of_other memo ht hs hm ho he hc]
    simp [hm, ho, he, hc, MethodRef.LoadCrashes]

end WellKnown

namespace Linter

variable (linter : Linter) {f : Forest} {i : Nat} {target : MethodRef} {n : Node}

theorem checkCall_eq (hn : f.node? i = some n) (memo : AncestryMemo) :
    linter.checkCall f i memo =
      (linter.record n.location (linter.known.flagsCall linter.resolver f i memo).1,
        (linter.known.flagsCall linter.resolver f i memo).2) := by
  simp only [checkCall, hn]
  rfl

theorem call_flagged_iff (memo : AncestryMemo) (hk : linter.known.IsLoaded) (hf : f.Filled)
    (ht : f.target? i = some target) (hs : f.inScope linter.known.entryPoints i = true)
    (ha : ∀ k < target.parameters.length, ∃ v, f.argumentValue? i k = some v) :
    ∃ n, f.node? i = some n ∧
      (∀ d, (linter.checkCall f i memo).1 = some d ↔
        (d = .violation Rule.implicitCollation linter.severity n.location ∧
          ∃ rule : CallRule, rule.Holds linter.known linter.resolver
            (memo.answer linter.known.strings) f i target) ∨
        ∃ c, target.LoadCrashes linter.resolver c ∧
          d = .fault name (Fault.crashed c).description (Fault.crashed c).trace n.location) ∧
      ((∀ t b, target.owner.load linter.resolver = .ok (some t) →
          memo.find? t linter.known.strings = some b → b = t.derivesFrom linter.known.strings) →
        ∀ rule : CallRule,
          rule.Holds linter.known linter.resolver (memo.answer linter.known.strings) f i target ↔
            rule.Holds linter.known linter.resolver (·.derivesFrom linter.known.strings) f i target) := by
  obtain ⟨n, hn⟩ := Forest.exists_node_of_kind? (Forest.kind?_of_target? ht)
  obtain ⟨hflag, hfault⟩ := WellKnown.flagsCall_outcome linter.resolver hk hf ht hs ha memo
  refine ⟨n, hn, fun d => ?_, fun hmemo rule => ?_⟩
  · rw [linter.checkCall_eq hn, record_eq_some_iff, hflag]
    apply or_congr Iff.rfl
    simp only [hfault]
    constructor
    · rintro ⟨_, rfl, c, hc, rfl⟩
      exact ⟨c, hc, rfl⟩
    · rintro ⟨c, hc, rfl⟩
      exact ⟨_, rfl, c, hc, rfl⟩
  · exact CallRule.holds_congr (fun t hl => AncestryMemo.answer_eq_derivesFrom (hmemo t · hl)) rule

end Linter

namespace Library

def containsCall (owner : TypeRef) : List Node := [
  ⟨.reference .localVariable "owner", some owner, site, []⟩,
  stringLocal "item",
  ⟨.argument, none, site, [1]⟩,
  ⟨.invocation ⟨owner, "Contains", false, [], [⟨"item", mention string⟩]⟩, none, site, [0, 2]⟩]

def stringSet : TypeRef := .named hashSet.space hashSet.simpleName facadeAssembly [mention string]

end Library

theorem Linter.contains_on_set_flagged :
    (Library.linter.checkCall (Library.query (Library.containsCall Library.stringSet)) 3 .empty).1 =
      some (.violation Rule.implicitCollation .info Library.site) := by
  let f := Library.query (Library.containsCall Library.stringSet)
  let target : MethodRef :=
    ⟨Library.stringSet, "Contains", false, [], [⟨"item", Library.mention Library.string⟩]⟩
  have ht : f.target? 3 = some target := by decide +kernel
  have ha : ∀ k < target.parameters.length, ∃ v, f.argumentValue? 3 k = some v := by
    intro k hk
    obtain rfl : k = 0 := by simpa [target] using hk
    exact ⟨1, by decide +kernel⟩
  obtain ⟨n, hn, hflag, -⟩ := Library.linter.call_flagged_iff .empty Library.known_isLoaded
    (by decide +kernel : f.Filled) ht (by decide +kernel) ha
  have hloc : (f.node? 3).map (·.location) = some Library.site := by decide +kernel
  rw [hn, Option.map_some, Option.some.injEq] at hloc
  refine (hflag _).2 (.inl ⟨by rw [hloc]; rfl, .otherContains, ⟨rfl, rfl, rfl⟩,
    .constructed Library.hashSet [.defined Library.string], ?_, by decide +kernel⟩)
  rfl

namespace Library

def bag : Definition := .bare .ordinaryClass "Bags" "" "Bag"

/-- Crashes in one assembly and knows two versions of a type in two others. -/
def unsteady : Resolver := fun assembly name arguments =>
  if assembly = "Crashing" then .crashed ⟨some "out of range", some "somewhere"⟩
  else if assembly = "Old" then .found (.defined (bag.implementing known.strings))
  else if assembly = "New" then .found (.defined bag)
  else assemblies.resolver assembly name arguments

def unsteadyLinter : Linter := .ofKnown known unsteady

def containsTarget (assembly : String) : MethodRef :=
  ⟨.named "" "Bag" assembly [], "Contains", false, [], [⟨"item", mention string⟩]⟩

def bagQuery (assembly : String) : Forest := query (containsCall (.named "" "Bag" assembly []))

def memoAfterOld : AncestryMemo := (unsteadyLinter.checkCall (bagQuery "Old") 3 .empty).2

end Library

theorem Linter.call_faults_or_misremembers :
    (Library.unsteadyLinter.known.IsLoaded ∧ (Library.bagQuery "Crashing").Filled ∧
      (Library.bagQuery "Crashing").target? 3 = some (Library.containsTarget "Crashing") ∧
      (Library.bagQuery "Crashing").inScope Library.unsteadyLinter.known.entryPoints 3 = true ∧
      (Library.bagQuery "Crashing").argumentValue? 3 0 = some 1 ∧
      (Library.unsteadyLinter.checkCall (Library.bagQuery "Crashing") 3 .empty).1.map (·.isFault) =
        some true) ∧
    ((Library.bagQuery "New").Filled ∧
      (Library.bagQuery "New").target? 3 = some (Library.containsTarget "New") ∧
      (Library.bagQuery "New").inScope Library.unsteadyLinter.known.entryPoints 3 = true ∧
      (Library.bagQuery "New").argumentValue? 3 0 = some 1 ∧
      (Library.unsteadyLinter.checkCall (Library.bagQuery "New") 3 Library.memoAfterOld).1.map (·.isFault) =
        some false) ∧
    ¬∃ rule : CallRule, rule.Holds Library.unsteadyLinter.known Library.unsteady
      (·.derivesFrom Library.unsteadyLinter.known.strings) (Library.bagQuery "New") 3
      (Library.containsTarget "New") := by
  refine ⟨⟨Library.known_isLoaded, by decide +kernel⟩, by decide +kernel, ?_⟩
  have hload : (Library.containsTarget "New").owner.load Library.unsteady =
      .ok (some (.defined Library.bag)) := rfl
  rw [CallRule.exists_holds_iff]
  rintro ((h | h | h) | ⟨h, -⟩ | ⟨⟨-, h, -⟩, -⟩ | ⟨-, t, ht, hd⟩)
  · exact absurd h (by decide +kernel)
  · exact absurd h (by decide +kernel)
  · exact absurd h (by decide +kernel)
  · exact absurd h (by decide +kernel)
  · exact absurd h (by decide)
  · cases hload.symm.trans ht
    exact absurd hd (by decide +kernel)

end CollationLint
