import CollationLint.Proofs.Spelling
import CollationLint.Settings
import Mathlib.Data.List.Duplicate

namespace CollationLint

namespace Json

variable {members members' : List (Text × Value)} {names : List String}

theorem lookup_cons_of_ne {name : Text} {m : Text × Value} (h : name ≠ m.1) :
    (m :: members).lookup name = members.lookup name := by
  rw [List.lookup_cons, beq_eq_false_iff_ne.2 h]

theorem lookup_eq_some_iff_mem (h : (members.map Prod.fst).Nodup) {name : Text} {v : Value} :
    members.lookup name = some v ↔ (name, v) ∈ members := by
  induction members with
  | nil => simp
  | cons m members ih =>
    obtain ⟨hnotMem, hrest⟩ := List.nodup_cons.1 h
    obtain ⟨name', w⟩ := m
    rw [List.mem_cons, Prod.mk.injEq]
    by_cases hname : name = name'
    · subst hname
      have hlater : (name, v) ∉ members := fun hm => hnotMem (List.mem_map.2 ⟨_, hm, rfl⟩)
      simp [hlater, eq_comm]
    · rw [lookup_cons_of_ne hname, ih hrest]
      simp [hname]

theorem lookup_eq_none {name : Text} (h : name ∉ members.map Prod.fst) : members.lookup name = none := by
  rw [List.lookup_eq_none_iff]
  intro m hm
  rw [bne_iff_ne]
  rintro rfl
  exact h (List.mem_map_of_mem hm)

theorem member?_of_distinct (h : (members.map Prod.fst).Nodup) (name : String) :
    member? members name = some (members.lookup (some name)) := by
  induction members with
  | nil => rfl
  | cons m members ih =>
    obtain ⟨hnotMem, hrest⟩ := List.nodup_cons.1 h
    obtain ⟨name', v⟩ := m
    by_cases hname : some name = name'
    · subst hname
      have hlater : members.filter (·.1 = some name) = [] := by
        rw [List.filter_eq_nil_iff]
        intro m hm heq
        exact hnotMem (List.mem_map.2 ⟨m, hm, of_decide_eq_true heq⟩)
      rw [member?, List.filter_cons_of_pos (by simp), hlater, List.lookup_cons_self]
    · rw [member?, List.filter_cons_of_neg (by simpa using Ne.symm hname), lookup_cons_of_ne hname, ← ih hrest, member?]

theorem member?_of_duplicate {name : String} (h : List.Duplicate (some name) (members.map Prod.fst)) :
    member? members name = none := by
  have htwo : 2 ≤ (members.filter (·.1 = some name)).length := by
    have hpair := ((List.duplicate_iff_sublist.1 h).filter (· = some name)).length_le
    simpa [List.filter_map, Function.comp_def] using hpair
  rw [member?]
  split
  · next hnil => simp [hnil] at htwo
  · next hone => simp [hone] at htwo
  · rfl

structure IsForm (names : List String) (written : List Text) : Prop where
  known : written ⊆ names.map some
  distinct : written.Nodup

theorem IsForm.perm {written written' : List Text} (h : IsForm names written) (hp : written.Perm written') :
    IsForm names written' where
  known := List.Subset.trans hp.symm.subset h.known
  distinct := hp.nodup_iff.1 h.distinct

theorem fields?_of_isForm (h : IsForm names (members.map Prod.fst)) (lenient : Bool) :
    (Value.object members).fields? lenient names = some (names.map fun name => members.lookup (some name)) := by
  have hknown : members.all (fun m => m.1.any fun name => lenient || names.contains name) = true := by
    rw [List.all_eq_true]
    intro m hm
    obtain ⟨name, hname, heq⟩ := List.mem_map.1 (h.known (List.mem_map_of_mem hm))
    simp [← heq, hname]
  rw [Value.fields?, if_pos hknown, funext (member?_of_distinct h.distinct)]
  exact List.mapM_pure

theorem mapM_eq_none {α β : Type} {f : α → Option β} {xs : List α} {x : α} (hx : x ∈ xs) (h : f x = none) :
    xs.mapM f = none := by
  induction xs with
  | nil => cases hx
  | cons y xs ih =>
    rw [List.mapM_cons]
    rcases List.mem_cons.1 hx with rfl | hx
    · rw [h]
      rfl
    · rw [ih hx]
      cases f y <;> rfl

theorem fields?_of_not_isForm (h : ¬ IsForm names (members.map Prod.fst)) :
    (Value.object members).fields? false names = none := by
  rw [Value.fields?]
  split
  · next hall =>
    have hknown : members.map Prod.fst ⊆ names.map some := by
      intro written hwritten
      obtain ⟨m, hm, rfl⟩ := List.mem_map.1 hwritten
      obtain ⟨name, hname, hmem⟩ := (Option.any_eq_true _ _).1 (List.all_eq_true.1 hall m hm)
      exact hname ▸ List.mem_map_of_mem (by simpa using hmem)
    have hrepeated : ¬ (members.map Prod.fst).Nodup := fun hdistinct => h ⟨hknown, hdistinct⟩
    obtain ⟨written, hwritten⟩ := List.exists_duplicate_iff_not_nodup.2 hrepeated
    obtain ⟨name, hmem, rfl⟩ := List.mem_map.1 (hknown hwritten.mem)
    exact mapM_eq_none hmem (member?_of_duplicate hwritten)
  · rfl

theorem fields?_perm (hp : members.Perm members') :
    (Value.object members).fields? false names = (Value.object members').fields? false names := by
  by_cases h : IsForm names (members.map Prod.fst)
  · have h' := h.perm (hp.map _)
    have hlookup (name : Text) : members.lookup name = members'.lookup name := by
      ext v
      rw [lookup_eq_some_iff_mem h.distinct, lookup_eq_some_iff_mem h'.distinct, hp.mem_iff]
    rw [fields?_of_isForm h, fields?_of_isForm h']
    simp only [hlookup]
  · rw [fields?_of_not_isForm h, fields?_of_not_isForm fun h' => h (h'.perm (hp.symm.map _))]

theorem fields?_array (hnames : names.Nodup) (h : members.map Prod.fst <+: names.map some) (lenient : Bool) :
    (Value.object members).fields? lenient names = (Value.array (members.map Prod.snd)).fields? lenient names := by
  have hform : IsForm names (members.map Prod.fst) :=
    ⟨h.subset, h.sublist.nodup (hnames.map fun _ _ => Option.some.inj)⟩
  have hlen : members.length ≤ names.length := by simpa using h.length_le
  rw [fields?_of_isForm hform, Value.fields?, if_pos (by simpa using hlen)]
  congr 1
  apply List.ext_getElem
  · simp
  intro i hi _
  rw [List.length_map] at hi
  rw [List.getElem_map, List.getElem_mapIdx, List.getElem?_map]
  have hname (j : Nat) (hj : j < members.length) : members[j].1 = some names[j] := by
    have := h.getElem (by simpa using hj : j < (members.map Prod.fst).length)
    simpa using this
  rcases Nat.lt_or_ge i members.length with hlt | hge
  · rw [List.getElem?_eq_getElem hlt, Option.map_some, lookup_eq_some_iff_mem hform.distinct, ← hname i hlt]
    exact List.getElem_mem hlt
  · rw [List.getElem?_eq_none hge, Option.map_none]
    apply lookup_eq_none
    intro hmem
    obtain ⟨m, hm, heq⟩ := List.mem_map.1 hmem
    obtain ⟨j, hj, rfl⟩ := List.getElem_of_mem hm
    rw [hname j hj, Option.some.injEq, hnames.getElem_inj_iff] at heq
    omega

theorem fields?_record (hnames : names.Nodup) {values : List Value} (hlen : values.length = names.length)
    (lenient : Bool) :
    (Value.record (names.zip values)).fields? lenient names = some (values.map some) := by
  have hfst : ((names.zip values).map fun f => (some f.1, f.2)).map Prod.fst = names.map some := by
    have hnames : (names.zip values).map Prod.fst = names := List.map_fst_zip (Nat.le_of_eq hlen.symm)
    rw [← congrArg (List.map some) hnames, List.map_map, List.map_map]
    rfl
  have hsnd : ((names.zip values).map fun f => ((some f.1 : Text), f.2)).map Prod.snd = values := by
    rw [List.map_map]
    exact List.map_snd_zip (Nat.le_of_eq hlen)
  rw [Value.record, fields?_array hnames (hfst ▸ List.prefix_rfl), hsnd, Value.fields?, if_pos (Nat.le_of_eq hlen)]
  congr 1
  apply List.ext_getElem
  · simp [hlen]
  · intro i _ hi
    rw [List.length_map] at hi
    simp [hi]

theorem Value.word?_word (n : UInt32) : (word n).word? = some n := by
  have hlt : n.toNat < UInt32.size := n.toNat_lt
  rw [word, word?, if_pos hlt, UInt32.ofNat_toNat]

end Json

open Json (Value)

theorem Location.ofJson?_toJson (l : Location) : ofJson? l.toJson = some l := by
  rw [ofJson?, toJson, Json.fields?_record (by decide) rfl]
  simp [Value.word?_word, Value.text, Value.string?]

theorem TypeName.ofJson?_toJson (t : TypeName) : ofJson? t.toJson = some t := by
  rw [ofJson?, toJson, Json.fields?_record (by decide) rfl]
  rfl

theorem Severity.ofJson?_toJson (s : Severity) : ofJson? s.toJson = some s := ofText?_text s

namespace Settings

theorem severityOfJson?_elim (severity : Option Severity) :
    severityOfJson? (severity.elim .null (·.toJson)) = some severity := by
  cases severity with
  | none => rfl
  | some s => exact congrArg (Option.map some) s.ofJson?_toJson

theorem entryPointsOfJson?_toJson (entryPoints : List TypeName) :
    entryPointsOfJson? (.array (entryPoints.map (·.toJson))) = some entryPoints := by
  have hread (t : TypeName) : TypeName.ofJson? t.toJson = pure t := t.ofJson?_toJson
  rw [entryPointsOfJson?, Value.array?, Option.bind_eq_bind, Option.bind_some, List.mapM_map]
  simp only [Function.comp_def, hread]
  exact (List.mapM_pure).trans (by simp)

theorem ofJson?_toJson (s : Settings) : ofJson? s.toJson = some s := by
  rw [ofJson?, toJson, Json.fields?_record (by decide) rfl]
  simp only [List.map_cons, List.map_nil, Option.bind_eq_bind, Option.bind_some, Option.elim_some,
    entryPointsOfJson?_toJson, severityOfJson?_elim]
  rfl

theorem parse_of_parse? {text : String} {v : Value} {s : Settings} (htext : Value.parse? text = some v)
    (hv : ofJson? v = some s) :
    parse text = if s.entryPoints = [] then .error .noEntryPoints else .ok s := by
  rw [parse, htext, Option.bind_some, hv]
  simp only [List.isEmpty_iff]

theorem read_back_as_written :
    (∀ s : Settings, parse s.toJson.render = if s.entryPoints = [] then .error .noEntryPoints else .ok s) ∧
    (∀ l : Location, (Value.parse? l.toJson.render).bind Location.ofJson? = some l) ∧
    (∀ t : TypeName, (Value.parse? t.toJson.render).bind TypeName.ofJson? = some t) := by
  refine ⟨fun s => ?_, fun l => ?_, fun t => ?_⟩
  · exact parse_of_parse? s.toJson.parse?_render s.ofJson?_toJson
  · rw [l.toJson.parse?_render, Option.bind_some, l.ofJson?_toJson]
  · rw [t.toJson.parse?_render, Option.bind_some, t.ofJson?_toJson]

end Settings

end CollationLint
