import CollationLint.Proofs.Agreement
import CollationLint.Proofs.Enclosure

namespace CollationLint

namespace Arena

/-- All that is in `a` is in `b`, except that nodes without a parent may have got one. -/
structure GrowsTo (a b : Arena) : Prop where
  size_le : a.size ≤ b.size
  node?_eq : ∀ i < a.size, a.node? i = b.node? i
  parent?_eq : ∀ i p, a.parent? i = some p → b.parent? i = some p

namespace GrowsTo

theorem refl (a : Arena) : a.GrowsTo a where
  size_le := Nat.le_refl _
  node?_eq _ _ := rfl
  parent?_eq _ _ hp := hp

theorem trans {a b c : Arena} (hab : a.GrowsTo b) (hbc : b.GrowsTo c) : a.GrowsTo c where
  size_le := Nat.le_trans hab.size_le hbc.size_le
  node?_eq i hi := (hab.node?_eq i hi).trans (hbc.node?_eq i (Nat.lt_of_lt_of_le hi hab.size_le))
  parent?_eq i p hp := hbc.parent?_eq i p (hab.parent?_eq i p hp)

theorem attach {a : Arena} {n : Node} (hn : a.Adoptable n.children) : a.GrowsTo (a.attach n) where
  size_le := by
    rw [size_attach]
    omega
  node?_eq i hi := by rw [node?_attach, if_neg (Nat.ne_of_lt hi)]
  parent?_eq i p hp := by
    have howned : i ∉ n.children := by
      intro hi
      cases hp.symm.trans (hn.1 i hi).2
    rw [parent?_attach hn, if_neg howned, hp]

theorem add (a : Arena) (n : Node) : a.GrowsTo (a.add n).2 := by
  obtain ⟨e, he, -⟩ | ⟨he, -, hn⟩ := a.add_cases n
  · rw [he]
    exact .refl a
  · rw [he]
    exact .attach hn

theorem addAll (a : Arena) (ns : List Node) : a.GrowsTo (a.addAll ns).2 := by
  induction ns generalizing a with
  | nil => exact .refl a
  | cons n ns ih => exact (add a n).trans (ih (a.add n).2)

end GrowsTo

end Arena

namespace Forest

variable {f g : Forest} {i j k : Nat}

theorem mem_ancestors_trans (hj : j ∈ f.ancestors i) (hk : k ∈ f.ancestors j) : k ∈ f.ancestors i := by
  fun_induction f.ancestors i with
  | case1 i hp => cases hj
  | case2 i p hp ih =>
    apply List.mem_cons_of_mem
    rcases List.mem_cons.1 hj with rfl | hj
    · exact hk
    · exact ih hj

theorem eq_or_mem_ancestors_of_find? {q : Nat → Bool} (hj : (f.ancestors i).find? q = some j)
    (hk : k ∈ f.ancestors i) (hq : q k = true) : k = j ∨ k ∈ f.ancestors j := by
  fun_induction f.ancestors i with
  | case1 i hp => cases hk
  | case2 i p hp ih =>
    by_cases hqp : q p = true
    · rw [List.find?_cons_of_pos hqp] at hj
      cases hj
      exact List.mem_cons.1 hk
    · rw [List.find?_cons_of_neg hqp] at hj
      rcases List.mem_cons.1 hk with rfl | hk
      · exact absurd hq hqp
      · exact ih hj hk

def IsEnclosed (f : Forest) (i : Nat) : Prop :=
  ∃ function ∈ f.ancestors i, f.isFunction function = true ∧ ∃ call ∈ f.ancestors function, f.IsCall call

theorem IsEnclosed.exists_governs (h : f.IsEnclosed i) :
    ∃ call function target, f.Governs call function i ∧ f.target? call = some target := by
  obtain ⟨function, hfunction, hisFunction, call, hcall, hisCall⟩ := h
  obtain ⟨nearest, hnearest⟩ :=
    Option.isSome_iff_exists.1 (List.find?_isSome.2 ⟨function, hfunction, hisFunction⟩)
  -- the nearest lambda stands no higher, so the call is above it as well
  have habove : call ∈ f.ancestors nearest := by
    rcases eq_or_mem_ancestors_of_find? hnearest hfunction hisFunction with rfl | hmem
    · exact hcall
    · exact mem_ancestors_trans hmem hcall
  obtain ⟨target, htarget⟩ :=
    Option.isSome_iff_exists.1 (List.findSome?_isSome_iff.2 ⟨call, habove, hisCall⟩)
  obtain ⟨call, hg⟩ := exists_governs_of_found hnearest htarget
  exact ⟨call, nearest, target, hg⟩

section Growth

variable (h : f.toArena.GrowsTo g.toArena)
include h

theorem agreeBelow_of_growsTo : AgreeBelow f.size f g := h.node?_eq

theorem ancestors_isPrefix (i : Nat) : f.ancestors i <+: g.ancestors i := by
  fun_induction f.ancestors i with
  | case1 i hp => exact List.nil_prefix
  | case2 i p hp ih =>
    rw [ancestors_of_some (h.parent?_eq i p hp)]
    exact List.cons_prefix_cons.2 ⟨rfl, ih⟩

theorem Encloses.grow {P Q : Nat → Prop} (hPQ : ∀ m < f.size, Q m → P m) {p c : Nat}
    (hpc : f.Encloses P p c) : g.Encloses Q p c := by
  have grown {m c : Nat} (hc : c ∈ f.children m) : c ∈ g.children m := by
    rw [← (agreeBelow_of_growsTo h).children (Arena.lt_size_of_mem_children hc)]
    exact hc
  induction hpc with
  | child hc => exact .child (grown hc)
  | through _ hm hc ih =>
    apply Encloses.through ih _ (grown hc)
    intro hQ
    exact hm (hPQ _ (Arena.lt_size_of_mem_children hc) hQ)

theorem Governs.grow {call function : Nat} (hg : f.Governs call function i) : g.Governs call function i := by
  have hag := agreeBelow_of_growsTo h
  have hlt : function < f.size := lt_size_of_kind? (of_decide_eq_true hg.isFunction)
  refine ⟨?_, hg.nearestFunction.grow h ?_, hg.nearestCall.grow h ?_⟩
  · rw [← hag.isFunction hlt]
    exact hg.isFunction
  · intro m hm
    rw [hag.isFunction hm]
    exact id
  · intro m hm
    rw [IsCall, IsCall, hag.target? hm]
    exact id

theorem IsEnclosed.inScope_eq (hi : f.IsEnclosed i) (entryPoints : List LoadedType) :
    f.inScope entryPoints i = g.inScope entryPoints i := by
  obtain ⟨call, function, target, hg, ht⟩ := hi.exists_governs
  have hlt : call < f.size := lt_size_of_kind? (kind?_of_target? ht)
  have ht' : g.target? call = some target := by
    rw [← (agreeBelow_of_growsTo h).target? hlt]
    exact ht
  rw [inScope_of_governs hg ht, inScope_of_governs (hg.grow h) ht']

end Growth

theorem additions_keep_checks (f : Forest) (ns : List Node) {i : Nat} (hi : i < f.size) :
    let g := (f.addAll ns).2
    (∃ n, f.node? i = some n ∧ g.node? i = some n) ∧ f.ancestors i <+: g.ancestors i ∧
    ((∃ function ∈ f.ancestors i, f.isFunction function = true ∧
        ∃ call ∈ f.ancestors function, (f.target? call).isSome = true) →
      (∀ entryPoints, g.inScope entryPoints i = f.inScope entryPoints i) ∧
      ∀ linter : Linter, linter.checkComparison g i = linter.checkComparison f i ∧
        linter.checkCall g i = linter.checkCall f i) := by
  intro g
  have hgrow : f.toArena.GrowsTo g.toArena := .addAll f.toArena ns
  have hag := agreeBelow_of_growsTo hgrow
  refine ⟨?_, ancestors_isPrefix hgrow i, ?_⟩
  · obtain ⟨n, hn⟩ : ∃ n, f.node? i = some n := by
      rw [Arena.node?, Array.getElem?_eq_getElem hi]
      exact ⟨_, rfl⟩
    exact ⟨n, hn, (hag i hi).symm.trans hn⟩
  · intro henclosed
    have hscope := IsEnclosed.inScope_eq hgrow henclosed
    refine ⟨fun entryPoints => (hscope entryPoints).symm, fun linter => ⟨?_, ?_⟩⟩
    · exact (linter.checkComparison_congr hag hi (hscope _)).symm
    · exact (linter.checkCall_congr hag hi (hscope _)).symm

end Forest

namespace Library

def comparisonQuery : Forest :=
  query [stringLocal "a", stringLocal "b", ⟨.binary .equals, none, site, [0, 1]⟩]

def surroundings : List Node := [
  ⟨.anonymousFunction, none, site, [5]⟩,
  ⟨.argument, none, site, [6]⟩,
  ⟨.block, none, site, [2]⟩,
  ⟨.invocation ⟨mention sequenceMethods, "Any", true, [], []⟩, none, site, [7]⟩]

end Library

theorem Forest.surrounded_comparison_flagged :
    let g := (Library.comparisonQuery.addAll Library.surroundings).2
    Library.comparisonQuery.ancestors 2 <+: g.ancestors 2 ∧
      (Library.linter.checkComparison g 2).map (·.ruleId) = some "INV1000" := by
  obtain ⟨-, hancestors, hchecks⟩ :=
    Library.comparisonQuery.additions_keep_checks Library.surroundings (by decide +kernel : 2 < _)
  obtain ⟨-, hsame⟩ := hchecks ⟨3, by decide +kernel, by decide +kernel, 5, by decide +kernel, by decide +kernel⟩
  refine ⟨hancestors, ?_⟩
  rw [(hsame Library.linter).1]
  decide +kernel

end CollationLint
