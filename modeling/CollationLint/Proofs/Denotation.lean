import CollationLint.Proofs.Binding
import CollationLint.Proofs.Loading
import CollationLint.Proofs.Naming

namespace CollationLint

theorem exists_forall₂ {α β : Type} {R : α → β → Prop} {l : List α} (h : ∀ a ∈ l, ∃ b, R a b) :
    ∃ bs, List.Forall₂ R l bs := by
  induction l with
  | nil => exact ⟨[], .nil⟩
  | cons a l ih =>
    obtain ⟨b, hb⟩ := h a List.mem_cons_self
    obtain ⟨bs, hbs⟩ := ih fun x hx => h x (List.mem_cons_of_mem a hx)
    exact ⟨b :: bs, .cons hb hbs⟩

theorem forall₂_iff_map_eq {α β γ : Type} {R : α → β → Prop} {f : α → γ} {g : β → γ} {as : List α}
    {bs : List β} (h : ∀ a ∈ as, ∀ b ∈ bs, (R a b ↔ f a = g b)) :
    List.Forall₂ R as bs ↔ as.map f = bs.map g := by
  induction as generalizing bs with
  | nil => simp [eq_comm]
  | cons a as ih =>
    cases bs with
    | nil => simp
    | cons b bs =>
      have hrest : ∀ x ∈ as, ∀ y ∈ bs, (R x y ↔ f x = g y) := by
        intro x hx y hy
        exact h x (List.mem_cons_of_mem a hx) y (List.mem_cons_of_mem b hy)
      rw [List.forall₂_cons, List.map_cons, List.map_cons, List.cons.injEq,
        h a List.mem_cons_self b List.mem_cons_self, ih hrest]

namespace Declaration

variable {d : Definition}

theorem fullName_of_isGeneric (h : d.isGeneric = true) :
    d.fullName = withArity (qualify d.space d.simpleName) d.arity := by
  rw [fullName, name, if_pos h, withArity_qualify]

theorem arity_eq_of_fullName {stem : String} {n : Nat} (h : d.isGeneric = true)
    (hname : d.fullName = withArity stem n) : d.arity = n := by
  rw [fullName_of_isGeneric h] at hname
  exact (withArity_inj hname).2

end Declaration

namespace TypeRef

mutual

def names : TypeRef → List String
  | .named _ name _ arguments => name :: namesAll arguments
  | .array element => (TypeRef.array element).name :: element.names
  | .parameter name => [name]

def namesAll : List TypeRef → List String
  | [] => []
  | r :: rs => r.names ++ namesAll rs

end

theorem mem_namesAll {n : String} {rs : List TypeRef} : n ∈ namesAll rs ↔ ∃ r ∈ rs, n ∈ r.names := by
  induction rs with
  | nil => simp [namesAll]
  | cons r rs ih => simp [namesAll, ih]

theorem denotesAll_iff {rs : List TypeRef} {ts : List LoadedType} :
    denotesAll rs ts = true ↔ List.Forall₂ (fun r t => r.denotes t = true) rs ts := by
  rw [denotesAll_eq_agree, Lockstep.agree_iff]

theorem metadataName_of_nil {r : TypeRef} (h : r.arguments = []) : r.metadataName = qualify r.space r.name := by
  simp [metadataName, isGeneric, h]

theorem metadataName_of_ne_nil {r : TypeRef} (h : r.arguments ≠ []) :
    r.metadataName = withArity (qualify r.space r.name) r.arguments.length := by
  have hg : r.isGeneric = true := by simpa [isGeneric] using h
  rw [metadataName, if_pos hg]

theorem denotes_named_iff {space name assembly : String} {rs : List TypeRef} {t : LoadedType} (hne : rs ≠ []) :
    (named space name assembly rs).denotes t = true ↔ withArity name rs.length = t.name ∧ space = t.space ∧
      List.Forall₂ (fun r t => r.denotes t = true) rs t.arguments := by
  cases rs with
  | nil => exact absurd rfl hne
  | cons r rs =>
    rw [← denotesAll_iff, List.length_cons]
    simp [denotes, carriesArity_iff, and_assoc]

theorem denotes_constructed {space name assembly : String} {rs : List TypeRef} {d : Definition}
    {ts : List LoadedType} (hne : rs ≠ []) (hs : space = d.space) (hn : withArity name rs.length = d.name)
    (ha : List.Forall₂ (fun r t => r.denotes t = true) rs ts) :
    (TypeRef.named space name assembly rs).denotes (.constructed d ts) = true :=
  (denotes_named_iff hne).2 ⟨hn, hs, ha⟩

end TypeRef

namespace LoadedType

variable {r : TypeRef} {s : LoadedType} {loaded : List LoadedType}

theorem isGenericDefinition_iff : s.isGenericDefinition = true ↔ ∃ d, s = .defined d ∧ d.isGeneric = true := by
  cases s <;> simp [isGenericDefinition]

theorem exists_bind_of_fullName (hs : s.isGenericDefinition = true) (hname : s.fullName = r.metadataName)
    (hlen : loaded.length = r.arguments.length) (hne : ¬loaded.isEmpty = true) : ∃ t, s.bind loaded = .ok t := by
  obtain ⟨d, rfl, hg⟩ := isGenericDefinition_iff.1 hs
  have hargs : r.arguments ≠ [] := by
    intro hnil
    rw [hnil] at hlen
    exact hne (by simpa using hlen)
  rw [TypeRef.metadataName_of_ne_nil hargs] at hname
  have harity : d.arity = r.arguments.length := Declaration.arity_eq_of_fullName hg hname
  exact ⟨_, bind_defined_eq_ok_iff.2 ⟨hg, hlen.trans harity.symm, rfl⟩⟩

theorem isGenericDefinition_of_wrongArity {owner : String} {n k : Nat}
    (h : s.bind loaded = .error (.wrongArity owner n k)) : s.isGenericDefinition = true := by
  cases s with
  | parameter p => cases h
  | defined d =>
    rw [bind] at h
    split at h
    · cases h
    · next hg => simpa [isGenericDefinition, Declaration.isGeneric] using hg
  | constructed d arguments => cases h

end LoadedType

namespace Assemblies

open LoadedType

variable {as : Assemblies} {r : TypeRef} {assembly name : String} {s t : LoadedType} {loaded : List LoadedType}

theorem follow_ne_notBindable {start current : String} {visits : Nat} (e : BindingError) :
    as.follow start name visits current ≠ .error (.notBindable e) := by
  intro h
  fun_induction as.follow start name visits current with
  | case5 _ _ _ _ _ _ _ _ ih => exact ih h
  | _ => cases h

theorem resolve_of_follow (h : as.follow assembly name maxVisits assembly = .ok s) :
    as.resolve assembly name loaded =
      if loaded.isEmpty then .ok s else (s.bind loaded).mapError .notBindable := by
  rw [resolve, h]
  rfl

theorem follow_of_lookup? (h : as.lookup? assembly name = some s) :
    as.follow assembly name maxVisits assembly = .ok s := by
  cases hf : as.follow assembly name maxVisits assembly with
  | ok t =>
    rw [lookup?, resolve_of_follow hf] at h
    cases h
    rfl
  | error e =>
    rw [lookup?, resolve, hf] at h
    cases h

theorem resolve_ne_wrongArity (hlen : loaded.length = r.arguments.length) (owner : String) (n k : Nat) :
    as.resolve assembly r.metadataName loaded ≠ .error (.notBindable (.wrongArity owner n k)) := by
  cases hf : as.follow assembly r.metadataName maxVisits assembly with
  | error e =>
    rw [resolve, hf]
    intro h
    cases h
    exact follow_ne_notBindable _ hf
  | ok s =>
    rw [resolve_of_follow hf]
    split
    · nofun
    · next hne =>
      intro h
      have hb : s.bind loaded = .error (.wrongArity owner n k) := by
        cases hb : s.bind loaded <;> rw [hb] at h <;> cases h
        rfl
      obtain ⟨t, ht⟩ := exists_bind_of_fullName (isGenericDefinition_of_wrongArity hb)
        (mem_types_of_follow hf).2 hlen hne
      cases hb.symm.trans ht

theorem exists_load_of_lookup? (hr : r.assembly? = some assembly) (hn : r.isNamed = true)
    (ha : ∀ a ∈ r.arguments, ∃ t, a.load as.resolver = .ok (some t))
    (hl : as.lookup? assembly r.metadataName = some s)
    (hs : s.isGenericDefinition = true ∨ r.arguments = []) :
    ∃ t, r.load as.resolver = .ok (some t) := by
  obtain ⟨loaded, hloaded⟩ := exists_forall₂ ha
  have hf := follow_of_lookup? hl
  have hresolve : ∃ t, as.resolve assembly r.metadataName loaded = .ok t := by
    rw [resolve_of_follow hf]
    split
    · exact ⟨s, rfl⟩
    · next hne =>
      have hg : s.isGenericDefinition = true := by
        apply hs.resolve_right
        intro hnil
        rw [hnil, List.forall₂_nil_left_iff] at hloaded
        exact hne (by rw [hloaded]; rfl)
      obtain ⟨t, ht⟩ := exists_bind_of_fullName hg (mem_types_of_follow hf).2 hloaded.length_eq.symm hne
      exact ⟨t, by rw [ht]; rfl⟩
  obtain ⟨t, ht⟩ := hresolve
  cases r with
  | named space name a arguments =>
    cases hr
    refine ⟨t, TypeRef.load_eq_some_iff.2 ⟨space, name, assembly, arguments, loaded, rfl,
      TypeRef.loadAll_eq_some_iff.2 hloaded, ?_⟩⟩
    rw [resolver, ht]
  | array element => cases hn
  | parameter name => cases hn

theorem isParameter_of_found (hp : ∀ s ∈ as.types, s.isParameter = false)
    (h : as.resolver assembly name loaded = .found t) : t.isParameter = false := by
  obtain ⟨s, hs, -, ⟨-, rfl⟩ | ⟨-, hb⟩⟩ := mem_types_of_found h
  · exact hp t hs
  · obtain ⟨d, -, -, -, rfl⟩ := exists_definition_of_bind hb
    exact d.isParameter_instantiate loaded

theorem denotes_of_found (hd : ∀ s ∈ as.types, '.' ∉ s.name.toList) {space : String} {arguments : List TypeRef}
    (hn : '.' ∉ name.toList) (hl : ∀ s ∈ loaded, s.isParameter = false)
    (ha : List.Forall₂ (fun r t => r.denotes t = true) arguments loaded)
    (h : as.resolver assembly (TypeRef.named space name assembly arguments).metadataName loaded = .found t) :
    (TypeRef.named space name assembly arguments).denotes t = true := by
  obtain ⟨s, hs, hname, ⟨rfl, rfl⟩ | ⟨hne, hb⟩⟩ := mem_types_of_found h
  · obtain rfl := List.forall₂_nil_right_iff.1 ha
    rw [TypeRef.metadataName_of_nil rfl] at hname
    obtain ⟨hspace, hsimple⟩ := qualify_inj (hd t hs) hn hname
    simp [TypeRef.denotes, hspace, hsimple, TypeRef.space]
  · obtain ⟨d, rfl, hg, -, rfl⟩ := exists_definition_of_bind hb
    have hargs : (TypeRef.named space name assembly arguments).arguments ≠ [] := by
      intro hnil
      obtain rfl : arguments = [] := hnil
      exact hne (List.forall₂_nil_left_iff.1 ha)
    rw [TypeRef.metadataName_of_ne_nil hargs, withArity_qualify] at hname
    obtain ⟨hspace, hsimple⟩ := qualify_inj (hd _ hs) (dot_notMem_withArity hn _) hname
    rw [Declaration.instantiate_of_isGeneric hg hl]
    exact TypeRef.denotes_constructed hargs hspace.symm hsimple.symm ha

theorem denotes_of_load (hp : ∀ s ∈ as.types, s.isParameter = false)
    (hd : ∀ s ∈ as.types, '.' ∉ s.name.toList) (h : r.load as.resolver = .ok (some t))
    (hr : ∀ n ∈ r.names, '.' ∉ n.toList) : r.denotes t = true := by
  have hall : t.isParameter = false ∧ ((∀ n ∈ r.names, '.' ∉ n.toList) → r.denotes t = true) := by
    apply TypeRef.load_induction (P := fun r t => t.isParameter = false ∧
      ((∀ n ∈ r.names, '.' ∉ n.toList) → r.denotes t = true)) _ r t h
    intro space name assembly arguments loaded t hargs hfound
    refine ⟨isParameter_of_found hp hfound, fun hr => ?_⟩
    have hnested : ∀ r ∈ arguments, ∀ n ∈ r.names, '.' ∉ n.toList := by
      intro r hm n hn
      exact hr n (List.mem_cons_of_mem name (TypeRef.mem_namesAll.2 ⟨r, hm, hn⟩))
    apply denotes_of_found hd (hr name List.mem_cons_self) _ _ hfound
    · exact forall_mem_of_forall₂ (hargs.imp fun _ _ h => h.1)
    · have hboth := (List.forall₂_and_left arguments loaded).2 ⟨hnested, hargs⟩
      exact hboth.imp fun _ _ h => h.2.2 h.1
  exact hall.2 hr

end Assemblies

theorem TypeRef.load_agrees_with_denotes (as : Assemblies) (r : TypeRef) :
    ((∀ s ∈ as.types, s.isParameter = false ∧ '.' ∉ s.name.toList) → (∀ n ∈ r.names, '.' ∉ n.toList) →
      ∀ t, r.load as.resolver = .ok (some t) → r.denotes t = true) ∧
    ∀ assembly, r.isNamed = true → r.assembly? = some assembly →
      (∀ loaded, loadAll as.resolver r.arguments = .ok (some loaded) → ∀ owner n k,
        as.resolve assembly r.metadataName loaded ≠ .error (.notBindable (.wrongArity owner n k))) ∧
      ((∀ a ∈ r.arguments, ∃ t, a.load as.resolver = .ok (some t)) →
        ∀ s, as.lookup? assembly r.metadataName = some s → s.isGenericDefinition = true ∨ r.arguments = [] →
        ∃ t, r.load as.resolver = .ok (some t)) := by
  constructor
  · intro hs hr t h
    exact Assemblies.denotes_of_load (fun s hm => (hs s hm).1) (fun s hm => (hs s hm).2) h hr
  · intro assembly hn hr
    constructor
    · intro loaded hl
      apply Assemblies.resolve_ne_wrongArity
      exact (loadAll_eq_some_iff.1 hl).length_eq.symm
    · intro ha s hl hs
      exact Assemblies.exists_load_of_lookup? hr hn ha hl hs

namespace Library

def viaFacade (d : Definition) (arguments : List TypeRef) : TypeRef :=
  .named d.space d.simpleName facadeAssembly arguments

def listOfSets : TypeRef := viaFacade list [viaFacade hashSet [viaFacade string []]]

end Library

theorem TypeRef.list_of_sets_denoted :
    ∃ t, Library.listOfSets.load Library.assemblies.resolver = .ok (some t) ∧
      Library.listOfSets.denotes t = true := by
  obtain ⟨hdenotes, hload⟩ := load_agrees_with_denotes Library.assemblies Library.listOfSets
  have hsets : ∀ a ∈ Library.listOfSets.arguments, ∃ t, a.load Library.assemblies.resolver = .ok (some t) := by
    intro a ha
    rw [List.mem_singleton.1 ha]
    exact ⟨Library.hashSet.instantiate [.defined Library.string], rfl⟩
  obtain ⟨t, ht⟩ := (hload Library.facadeAssembly rfl rfl).2 hsets (.defined Library.list) rfl (.inl rfl)
  exact ⟨t, ht, hdenotes (by decide +kernel) (by decide +kernel) t ht⟩

end CollationLint
