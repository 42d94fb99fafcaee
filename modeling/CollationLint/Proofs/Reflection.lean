import CollationLint.Proofs.Denotation
import CollationLint.Proofs.Obtainable

namespace CollationLint

namespace LoadedType

mutual

/-- The mention that spells a type out. -/
def reflected : LoadedType → TypeRef
  | .parameter p => .parameter p.name
  | .defined d => .named d.space d.name d.assembly []
  | .constructed d arguments => .named d.space (withoutArity d.name) d.assembly (reflectedAll arguments)

def reflectedAll : List LoadedType → List TypeRef
  | [] => []
  | t :: ts => t.reflected :: reflectedAll ts

end

theorem reflectedAll_eq_map (ts : List LoadedType) : reflectedAll ts = ts.map reflected := by
  induction ts with
  | nil => rfl
  | cons t ts ih => rw [reflectedAll, ih, List.map_cons]

theorem arguments_reflected (d : Definition) (arguments : List LoadedType) :
    (constructed d arguments).reflected.arguments = arguments.map reflected :=
  reflectedAll_eq_map arguments

theorem metadataName_reflected {d : Definition} {arguments : List LoadedType} (hg : d.isGeneric = true)
    (hlen : arguments.length = d.arity) : (constructed d arguments).reflected.metadataName = d.fullName := by
  have hne : (constructed d arguments).reflected.arguments ≠ [] := by
    rw [arguments_reflected, ← List.length_pos_iff, List.length_map, hlen]
    exact Nat.pos_of_ne_zero (Declaration.isGeneric_iff.1 hg)
  have hstem : (constructed d arguments).reflected.name = d.simpleName := by
    rw [reflected, TypeRef.name, Declaration.name_of_isGeneric hg, withoutArity_withArity]
  rw [TypeRef.metadataName_of_ne_nil hne, hstem, arguments_reflected, List.length_map, hlen]
  exact (Declaration.fullName_of_isGeneric hg).symm

end LoadedType

namespace Assemblies

open LoadedType

variable {as : Assemblies} {d : Definition} {s t : LoadedType} {loaded : List LoadedType}

/-- The assembly that `d` belongs to loads and has `d` under its full name. What it has there need only be
equal to `d`, and generic if `d` is. -/
def Provides (as : Assemblies) (d : Definition) : Prop :=
  ∃ a s, as.find? d.assembly = some a ∧ a.loadFailure = none ∧ a.types.find? d.fullName = some s ∧
    (s == .defined d) = true ∧ (d.isGeneric = true → s.isGenericDefinition = true)

theorem Provides.follow (h : as.Provides d) :
    ∃ s, as.follow d.assembly d.fullName maxVisits d.assembly = .ok s ∧ s.fullName = d.fullName ∧
      s.identity = (defined d).identity ∧ (d.isGeneric = true → s.isGenericDefinition = true) := by
  obtain ⟨a, s, ha, hl, hs, heq, hg⟩ := h
  refine ⟨s, ?_, Directory.key_of_find? hs, beq_iff.1 heq, hg⟩
  simp [Assemblies.follow, maxVisits, ha, hl, hs]

theorem identity_of_bind {arguments : List LoadedType} (hid : s.identity = (defined d).identity)
    (ha : ∀ a ∈ arguments, a.isOpen = false) (hargs : loaded.map identity = arguments.map identity)
    (hb : s.bind loaded = .ok t) : t.identity = (constructed d arguments).identity := by
  obtain ⟨e, rfl, hg, -, rfl⟩ := exists_definition_of_bind hb
  have hne : loaded ≠ e.parameters.map .parameter := by
    rintro rfl
    obtain ⟨p, hp⟩ := Declaration.exists_parameter hg
    rw [eq_parameters_of_identity hargs.symm] at ha
    cases ha (.parameter p) (List.mem_map_of_mem hp)
  rw [Declaration.instantiate_of_ne hne]
  exact identity_constructed_congr hid hargs

theorem exists_load_reflected (ht : Obtainable t) (hc : t.isOpen = false)
    (hp : ∀ d ∈ t.mentions, as.Provides d) :
    ∃ u, t.reflected.load as.resolver = .ok (some u) ∧ u.identity = t.identity := by
  induction t using argumentRec with
  | parameter p => cases hc
  | defined d =>
    obtain ⟨s, hf, -, hid, -⟩ := (hp d List.mem_cons_self).follow
    refine ⟨s, TypeRef.load_eq_some_iff.2 ⟨d.space, d.name, d.assembly, [], [], rfl, rfl, ?_⟩, hid⟩
    have hname : (defined d).reflected.metadataName = d.fullName := TypeRef.metadataName_of_nil rfl
    rw [resolver, hname, resolve_of_follow hf]
    rfl
  | constructed d arguments ih =>
    obtain ⟨-, hg, hlen, -, ha⟩ := obtainable_constructed_iff.1 ht
    rw [isOpen_constructed] at hc
    have hpa : ∀ a ∈ arguments, ∀ e ∈ a.mentions, as.Provides e := by
      intro a hm e he
      exact hp e (mem_mentions_constructed.2 (.inr ⟨a, hm, he⟩))
    obtain ⟨loaded, hloaded⟩ := exists_forall₂ fun a hm => ih a hm (ha a hm) (hc a hm) (hpa a hm)
    have hids : arguments.map identity = loaded.map identity :=
      (forall₂_iff_map_eq fun _ _ _ _ => eq_comm).1 (hloaded.imp fun _ _ h => h.2)
    have hall : TypeRef.loadAll as.resolver (reflectedAll arguments) = .ok (some loaded) := by
      rw [TypeRef.loadAll_eq_some_iff, reflectedAll_eq_map, List.forall₂_map_left_iff]
      exact hloaded.imp fun _ _ h => h.1
    have hlen' : loaded.length = d.arity := hloaded.length_eq.symm.trans hlen
    have hne : ¬loaded.isEmpty = true := by
      rw [List.isEmpty_iff_length_eq_zero, hlen']
      exact Declaration.isGeneric_iff.1 hg
    obtain ⟨s, hf, hfull, hid, hsg⟩ := (hp d (mem_mentions_constructed.2 (.inl rfl))).follow
    have hname := metadataName_reflected hg hlen
    obtain ⟨u, hu⟩ := exists_bind_of_fullName (hsg hg) (hfull.trans hname.symm)
      (by rw [hlen', arguments_reflected, List.length_map, hlen]) hne
    refine ⟨u, TypeRef.load_eq_some_iff.2 ⟨d.space, withoutArity d.name, d.assembly, _, loaded, rfl, hall, ?_⟩,
      identity_of_bind hid hc hids.symm hu⟩
    rw [resolver, hname, resolve_of_follow hf, if_neg hne, hu]
    rfl

end Assemblies

theorem LoadedType.load_reflected (as : Assemblies) {t : LoadedType} (ht : Obtainable t) (hc : t.isOpen = false)
    (hp : ∀ d ∈ t.mentions, as.Provides d) :
    ∃ u, t.reflected.load as.resolver = .ok (some u) ∧ (u == t) = true := by
  obtain ⟨u, hu, hid⟩ := Assemblies.exists_load_reflected ht hc hp
  exact ⟨u, hu, beq_iff.2 hid⟩

theorem LoadedType.list_of_sets_reflected :
    ∃ u, (Library.list.instantiate [Library.setOfStrings]).reflected.load Library.assemblies.resolver =
        .ok (some u) ∧
      (u == Library.list.instantiate [Library.setOfStrings]) = true := by
  apply load_reflected Library.assemblies (by decide +kernel) (by decide +kernel)
  have hmentions : (Library.list.instantiate [Library.setOfStrings]).mentions =
      [Library.list, Library.hashSet, Library.string] := rfl
  rw [hmentions]
  intro d hd
  simp only [List.mem_cons, List.not_mem_nil, or_false] at hd
  rcases hd with rfl | rfl | rfl
  · exact ⟨_, _, rfl, rfl, rfl, rfl, fun _ => rfl⟩
  · exact ⟨_, _, rfl, rfl, rfl, rfl, fun _ => rfl⟩
  · exact ⟨_, _, rfl, rfl, rfl, rfl, nofun⟩

end CollationLint
