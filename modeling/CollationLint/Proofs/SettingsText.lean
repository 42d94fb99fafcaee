import CollationLint.Proofs.Layout
import CollationLint.Proofs.Records

namespace CollationLint

open Json

namespace Settings

def settle : Option Settings → Except SettingsError Settings
  | none => .error .malformed
  | some s => if s.entryPoints.isEmpty then .error .noEntryPoints else .ok s

theorem parse_eq_settle (text : List Char) :
    parse (.ofList text) = settle ((Token.all text).bind fun ts => (Value.ofTokens? ts).bind ofJson?) := by
  rw [parse, Value.parse?, String.toList_ofList, Option.bind_eq_bind, Option.bind_assoc]
  split <;> next h => rw [h]; rfl

theorem parse_written (w : Written) : parse (.ofList w.text) = settle (ofJson? w.value) := by
  rw [parse_eq_settle, w.reads, Option.bind_some, Value.ofTokens?_eq_some_iff.2 rfl, Option.bind_some]

theorem eq_some_of_settle {found : Option Settings} {s : Settings} (h : settle found = .ok s) : found = some s := by
  cases found with
  | none => cases h
  | some s' =>
    rw [settle] at h
    split at h
    · cases h
    · cases h
      rfl

theorem ofJson?_congr {v w : Value} (h : v.fields? false fieldNames = w.fields? false fieldNames) :
    ofJson? v = ofJson? w := by
  rw [ofJson?, ofJson?, h]

theorem ofJson?_of_fields? {v : Value} (h : v.fields? false fieldNames = none) : ofJson? v = none := by
  rw [ofJson?, h]
  rfl

def ofFields? (find : String → Option Value) : Option Settings := do
  return {
    coreLibrary := ← (find "core_library").elim (some standard.coreLibrary) Value.string?
    sequenceLibrary := ← (find "sequence_library").elim (some standard.sequenceLibrary) Value.string?
    entryPoints := ← (find "provider_entry_points").elim (some standard.entryPoints) entryPointsOfJson?
    severity := ← (find "severity").elim (some standard.severity) severityOfJson? }

theorem ofJson?_of_isForm {members : List (Text × Value)} (h : IsForm fieldNames (members.map Prod.fst)) :
    ofJson? (.object members) = ofFields? fun name => members.lookup (some name) := by
  rw [ofJson?, fields?_of_isForm h]
  rfl

end Settings

theorem TypeName.ofJson?_congr {v w : Value} (h : v.fields? false fieldNames = w.fields? false fieldNames) :
    ofJson? v = ofJson? w := by
  rw [ofJson?, ofJson?, h]

theorem TypeName.ofJson?_of_fields? {v : Value} (h : v.fields? false fieldNames = none) : ofJson? v = none := by
  rw [ofJson?, h]
  rfl

namespace Settings

theorem entryPointsOfJson?_middle (earlier later : List Value) (v : Value) :
    entryPointsOfJson? (.array (earlier ++ v :: later)) = (TypeName.ofJson? v).bind fun t =>
      (earlier.mapM TypeName.ofJson?).bind fun ts => (later.mapM TypeName.ofJson?).map fun us => ts ++ t :: us := by
  simp only [entryPointsOfJson?, Value.array?, Option.bind_eq_bind, Option.bind_some, List.mapM_append, List.mapM_cons]
  cases earlier.mapM TypeName.ofJson? <;> cases TypeName.ofJson? v <;> cases later.mapM TypeName.ofJson? <;> rfl

theorem ofFields?_replace {find others : String → Option Value} {v : Value}
    (hv : find "provider_entry_points" = some v) (hnone : others "provider_entry_points" = none)
    (h : ∀ name, name ≠ "provider_entry_points" → find name = others name) :
    ofFields? find = (entryPointsOfJson? v).bind fun entryPoints =>
      (ofFields? others).map ({ · with entryPoints := entryPoints }) := by
  simp only [ofFields?, h "core_library" (by decide), h "sequence_library" (by decide), h "severity" (by decide),
    hv, hnone, Option.elim_some, Option.elim_none, Option.bind_eq_bind, Option.bind_some]
  cases (others "core_library").elim (some standard.coreLibrary) Value.string? <;>
  cases (others "sequence_library").elim (some standard.sequenceLibrary) Value.string? <;>
  cases (others "severity").elim (some standard.severity) severityOfJson? <;>
  cases entryPointsOfJson? v <;> rfl

theorem exists_continuation (before after : List (Text × Value)) :
    ∃ others : List TypeName → Option Settings, ∀ v,
      ofJson? (.object (before ++ (some "provider_entry_points", v) :: after)) =
        (entryPointsOfJson? v).bind others := by
  have hfront (v : Value) : ofJson? (.object (before ++ (some "provider_entry_points", v) :: after)) =
      ofJson? (.object ((some "provider_entry_points", v) :: (before ++ after))) :=
    ofJson?_congr (fields?_perm List.perm_middle)
  by_cases hform : IsForm fieldNames (some "provider_entry_points" :: (before ++ after).map Prod.fst)
  · have habsent : (before ++ after).lookup (some "provider_entry_points") = none :=
      lookup_eq_none (List.nodup_cons.1 hform.distinct).1
    refine ⟨fun entryPoints => (ofFields? fun name => (before ++ after).lookup (some name)).map
      ({ · with entryPoints := entryPoints }), fun v => ?_⟩
    have hform' : IsForm fieldNames (((some "provider_entry_points", v) :: (before ++ after)).map Prod.fst) := hform
    rw [hfront, ofJson?_of_isForm hform']
    refine ofFields?_replace List.lookup_cons_self habsent fun name hname => ?_
    exact lookup_cons_of_ne fun heq => hname (Option.some.inj heq)
  · refine ⟨fun _ => none, fun v => ?_⟩
    have hform' : ¬ IsForm fieldNames (((some "provider_entry_points", v) :: (before ++ after)).map Prod.fst) := hform
    rw [hfront, ofJson?_of_fields? (fields?_of_not_isForm hform'), Option.bind_fun_none]

/-- Settings that differ from the usual ones only in fields among `names`. -/
structure IsStandardOff (names : List Text) (s : Settings) : Prop where
  coreLibrary : some "core_library" ∉ names → s.coreLibrary = standard.coreLibrary
  sequenceLibrary : some "sequence_library" ∉ names → s.sequenceLibrary = standard.sequenceLibrary
  entryPoints : some "provider_entry_points" ∉ names → s.entryPoints = standard.entryPoints
  severity : some "severity" ∉ names → s.severity = standard.severity

theorem isStandardOff_of_ofJson? {members : List (Text × Value)} {s : Settings}
    (h : ofJson? (.object members) = some s) : IsStandardOff (members.map Prod.fst) s := by
  by_cases hform : IsForm fieldNames (members.map Prod.fst)
  · rw [ofJson?_of_isForm hform] at h
    simp only [ofFields?, Option.bind_eq_bind, Option.bind_eq_some_iff] at h
    obtain ⟨core, hcore, sequence, hsequence, entryPoints, hentryPoints, severity, hseverity, h⟩ := h
    cases h
    constructor
    · intro habsent
      rw [lookup_eq_none habsent] at hcore
      exact (Option.some.inj hcore).symm
    · intro habsent
      rw [lookup_eq_none habsent] at hsequence
      exact (Option.some.inj hsequence).symm
    · intro habsent
      rw [lookup_eq_none habsent] at hentryPoints
      exact (Option.some.inj hentryPoints).symm
    · intro habsent
      rw [lookup_eq_none habsent] at hseverity
      exact (Option.some.inj hseverity).symm
  · rw [ofJson?_of_fields? (fields?_of_not_isForm hform)] at h
    cases h

def members (s : Settings) : List (Text × Value) :=
  (fieldNames.map some).zip [.text s.coreLibrary, .text s.sequenceLibrary, .array (s.entryPoints.map (·.toJson)),
    s.severity.elim .null (·.toJson)]

theorem toJson_eq (s : Settings) : s.toJson = .object s.members := rfl

theorem ofJson?_cons_standard {members : List (Text × Value)} {m : Text × Value} (hm : m ∈ standard.members)
    (habsent : m.1 ∉ members.map Prod.fst) : ofJson? (.object (m :: members)) = ofJson? (.object members) := by
  have hknown : m.1 ∈ fieldNames.map some := (List.of_mem_zip hm).1
  have hform : IsForm fieldNames ((m :: members).map Prod.fst) ↔ IsForm fieldNames (members.map Prod.fst) :=
    ⟨fun h => ⟨fun _ hn => h.known (List.mem_cons_of_mem _ hn), (List.nodup_cons.1 h.distinct).2⟩,
      fun h => ⟨List.cons_subset.2 ⟨hknown, h.known⟩, List.nodup_cons.2 ⟨habsent, h.distinct⟩⟩⟩
  by_cases h : IsForm fieldNames (members.map Prod.fst)
  · rw [ofJson?_of_isForm h, ofJson?_of_isForm (hform.2 h)]
    have hown := lookup_eq_none habsent
    simp only [Settings.members, fieldNames, List.map_cons, List.map_nil, List.zip_cons_cons, List.zip_nil_left,
      List.mem_cons, List.not_mem_nil, or_false] at hm
    rcases hm with rfl | rfl | rfl | rfl <;>
    simp (disch := decide) only [ofFields?, lookup_cons_of_ne, List.lookup_cons_self, hown, Option.elim_some,
      Option.elim_none, entryPointsOfJson?_toJson, severityOfJson?_elim] <;>
    rfl
  · rw [ofJson?_of_fields? (fields?_of_not_isForm h), ofJson?_of_fields? (fields?_of_not_isForm (mt hform.1 h))]

end Settings

structure EntryPlace where
  outer : Gaps
  before : List WrittenMember
  nameText : List Char
  reads : Token.all nameText = some [.string (some "provider_entry_points")]
  inner : Gaps
  earlier : List Written
  later : List Written
  after : List WrittenMember

namespace EntryPlace

def fill (place : EntryPlace) (entry : Written) : Written :=
  .object place.outer (place.before ++
    ⟨place.nameText, some "provider_entry_points", .array place.inner (place.earlier ++ entry :: place.later),
      place.reads⟩ :: place.after)

theorem value_fill (place : EntryPlace) (entry : Written) :
    (place.fill entry).value = .object (place.before.map WrittenMember.member ++
      (some "provider_entry_points",
        .array (place.earlier.map Written.value ++ entry.value :: place.later.map Written.value)) ::
      place.after.map WrittenMember.member) := by
  simp [fill, Written.value_object, Written.value_array, WrittenMember.member]

theorem exists_continuation (place : EntryPlace) :
    ∃ others : TypeName → Option Settings, ∀ entry : Written,
      Settings.ofJson? (place.fill entry).value = (TypeName.ofJson? entry.value).bind others := by
  obtain ⟨others, hothers⟩ := Settings.exists_continuation (place.before.map WrittenMember.member)
    (place.after.map WrittenMember.member)
  refine ⟨fun t => ((place.earlier.map Written.value).mapM TypeName.ofJson?).bind fun ts =>
    (((place.later.map Written.value).mapM TypeName.ofJson?).map fun us => ts ++ t :: us).bind others, fun entry => ?_⟩
  rw [value_fill, hothers, Settings.entryPointsOfJson?_middle, Option.bind_assoc]
  simp only [Option.bind_assoc]

theorem exists_fill {w : Written} {before after : List (Text × Value)} {earlier later : List Value}
    {es : List (Text × Value)} (h : w.value =
      .object (before ++ (some "provider_entry_points", .array (earlier ++ .object es :: later)) :: after)) :
    ∃ (place : EntryPlace) (gaps : Gaps) (members : List WrittenMember),
      w = place.fill (.object gaps members) ∧ members.map WrittenMember.member = es ∧
      place.before.map WrittenMember.member = before ∧ place.earlier.map Written.value = earlier := by
  obtain ⟨outer, ms, rfl, hms⟩ := w.exists_object h
  obtain ⟨msBefore, rest, rfl, hbefore, hrest⟩ := List.map_eq_append_iff.1 hms
  obtain ⟨m, msAfter, rfl, hm, hafter⟩ := List.map_eq_cons_iff.1 hrest
  obtain ⟨nameText, name, content, reads⟩ := m
  obtain ⟨rfl, hcontent⟩ := Prod.mk.inj hm
  obtain ⟨inner, items, rfl, hitems⟩ := content.exists_array hcontent
  obtain ⟨itemsEarlier, rest, rfl, hearlier, hlast⟩ := List.map_eq_append_iff.1 hitems
  obtain ⟨entry, itemsLater, rfl, hentry, hlater⟩ := List.map_eq_cons_iff.1 hlast
  obtain ⟨gaps, members, rfl, hmembers⟩ := entry.exists_object hentry
  exact ⟨⟨outer, msBefore, nameText, reads, inner, itemsEarlier, itemsLater, msAfter⟩, gaps, members, rfl, hmembers,
    hbefore, hearlier⟩

end EntryPlace

section Forms

variable {names : List String} {members members' : List WrittenMember}

theorem map_fst_member (members : List WrittenMember) :
    (members.map WrittenMember.member).map Prod.fst = members.map WrittenMember.name := List.map_map

theorem fields?_object_perm (gaps : Gaps) (hp : members.Perm members') :
    (Written.object gaps members).value.fields? false names =
      (Written.object gaps members').value.fields? false names :=
  fields?_perm (hp.map _)

theorem fields?_object_of_misnamed (gaps : Gaps)
    (h : (∃ m ∈ members, m.name ∉ names.map some) ∨ ¬ (members.map WrittenMember.name).Nodup) :
    (Written.object gaps members).value.fields? false names = none := by
  apply fields?_of_not_isForm
  rw [map_fst_member]
  intro hform
  rcases h with ⟨m, hm, hunknown⟩ | hrepeated
  · exact hunknown (hform.known (List.mem_map_of_mem hm))
  · exact hrepeated hform.distinct

theorem fields?_array_of_names (gaps gaps' : Gaps) (hnames : names.Nodup)
    (h : members.map WrittenMember.name <+: names.map some) :
    (Written.array gaps' (members.map WrittenMember.content)).value.fields? false names =
      (Written.object gaps members).value.fields? false names := by
  have hvalues : (members.map WrittenMember.content).map Written.value =
      (members.map WrittenMember.member).map Prod.snd := by
    rw [List.map_map, List.map_map]
    rfl
  rw [← map_fst_member] at h
  rw [Written.value_array, Written.value_object, fields?_array hnames h, hvalues]

end Forms

namespace EntryPlace

theorem parse_fill_congr (place : EntryPlace) {entry entry' : Written}
    (h : entry.value.fields? false TypeName.fieldNames = entry'.value.fields? false TypeName.fieldNames) :
    Settings.parse (.ofList (place.fill entry).text) = Settings.parse (.ofList (place.fill entry').text) := by
  obtain ⟨others, hothers⟩ := place.exists_continuation
  rw [Settings.parse_written, Settings.parse_written, hothers, hothers, TypeName.ofJson?_congr h]

theorem parse_fill_of_fields? (place : EntryPlace) {entry : Written}
    (h : entry.value.fields? false TypeName.fieldNames = none) :
    Settings.parse (.ofList (place.fill entry).text) = .error .malformed := by
  obtain ⟨others, hothers⟩ := place.exists_continuation
  rw [Settings.parse_written, hothers, TypeName.ofJson?_of_fields? h]
  rfl

end EntryPlace

namespace Settings

theorem outcome_independent_of_form :
    -- White space can be put in and left out, except within strings and between words.
    (∀ before after gap : List Char, Token.Meet before after → (∀ c ∈ gap, Token.isSpace c = true) →
      parse (.ofList (before ++ (gap ++ after))) = parse (.ofList (before ++ after))) ∧
    -- The text of an object is made of the texts of its members, also where the object is an entry point.
    (∀ text ms, Value.parse? (.ofList text) = some (.object ms) →
      ∃ gaps members, text = (Written.object gaps members).text ∧ members.map WrittenMember.member = ms) ∧
    (∀ text before after earlier later es,
      Value.parse? (.ofList text) =
        some (.object (before ++ (some "provider_entry_points", .array (earlier ++ .object es :: later)) :: after)) →
      ∃ (place : EntryPlace) (gaps : Gaps) (members : List WrittenMember),
        text = (place.fill (.object gaps members)).text ∧ members.map WrittenMember.member = es ∧
        place.before.map WrittenMember.member = before ∧ place.earlier.map Written.value = earlier) ∧
    -- The order of members has no meaning.
    (∀ gaps members members', members.Perm members' →
      parse (.ofList (Written.object gaps members).text) = parse (.ofList (Written.object gaps members').text)) ∧
    (∀ (place : EntryPlace) gaps members members', members.Perm members' →
      parse (.ofList (place.fill (.object gaps members)).text) =
        parse (.ofList (place.fill (.object gaps members')).text)) ∧
    -- Members that are not known, and members that stand twice, are refused whatever else is written.
    (∀ gaps members, (∃ m ∈ members, m.name ∉ fieldNames.map some) ∨ ¬ (members.map WrittenMember.name).Nodup →
      parse (.ofList (Written.object gaps members).text) = .error .malformed) ∧
    (∀ (place : EntryPlace) gaps members,
      (∃ m ∈ members, m.name ∉ TypeName.fieldNames.map some) ∨ ¬ (members.map WrittenMember.name).Nodup →
      parse (.ofList (place.fill (.object gaps members)).text) = .error .malformed) ∧
    -- What is left out is as usual: it could as well be written.
    (∀ gaps members s, parse (.ofList (Written.object gaps members).text) = .ok s →
      IsStandardOff (members.map WrittenMember.name) s) ∧
    (∀ gaps members m ms, standard.toJson = .object ms → m.member ∈ ms → m.name ∉ members.map WrittenMember.name →
      parse (.ofList (Written.object gaps members).text) = parse (.ofList (Written.object gaps (m :: members)).text)) ∧
    -- Members that stand in the order of the fields need no names.
    (∀ gaps gaps' members, members.map WrittenMember.name <+: fieldNames.map some →
      parse (.ofList (Written.array gaps' (members.map WrittenMember.content)).text) =
        parse (.ofList (Written.object gaps members).text)) ∧
    (∀ (place : EntryPlace) gaps gaps' members, members.map WrittenMember.name <+: TypeName.fieldNames.map some →
      parse (.ofList (place.fill (.array gaps' (members.map WrittenMember.content))).text) =
        parse (.ofList (place.fill (.object gaps members)).text)) := by
  refine ⟨?_, ?_, ?_, ?_, ?_, ?_, ?_, ?_, ?_, ?_, ?_⟩
  · intro before after gap hmeet hgap
    rw [parse_eq_settle, parse_eq_settle, Token.all_insert hmeet hgap]
  · intro text ms h
    obtain ⟨gaps, members, hw, hmembers⟩ := (Written.ofParse h).exists_object rfl
    exact ⟨gaps, members, congrArg Written.text hw, hmembers⟩
  · intro text before after earlier later es h
    obtain ⟨place, gaps, members, hw, hplace⟩ := EntryPlace.exists_fill (w := Written.ofParse h) rfl
    exact ⟨place, gaps, members, congrArg Written.text hw, hplace⟩
  · intro gaps members members' hp
    rw [parse_written, parse_written, ofJson?_congr (fields?_object_perm gaps hp)]
  · intro place gaps members members' hp
    exact place.parse_fill_congr (fields?_object_perm gaps hp)
  · intro gaps members h
    rw [parse_written, ofJson?_of_fields? (fields?_object_of_misnamed gaps h)]
    rfl
  · intro place gaps members h
    exact place.parse_fill_of_fields? (fields?_object_of_misnamed gaps h)
  · intro gaps members s h
    rw [parse_written] at h
    rw [← map_fst_member]
    exact isStandardOff_of_ofJson? (eq_some_of_settle h)
  · intro gaps members m ms hms hm habsent
    rw [toJson_eq, Value.object.injEq] at hms
    rw [← hms] at hm
    rw [← map_fst_member] at habsent
    rw [parse_written, parse_written]
    exact congrArg settle (ofJson?_cons_standard hm habsent).symm
  · intro gaps gaps' members h
    rw [parse_written, parse_written, ofJson?_congr (fields?_array_of_names gaps gaps' (by decide) h)]
  · intro place gaps gaps' members h
    exact place.parse_fill_congr (fields?_array_of_names gaps gaps' (by decide) h)

def sampleEntry : List WrittenMember := [.ofValue "assembly" (.text "A"), .ofValue "name" (.text "Q")]

def samplePlace : EntryPlace where
  outer := .none
  before := [.ofValue "severity" (.text "error")]
  nameText := (Token.string (some "provider_entry_points")).text
  reads := Token.all_text _
  inner := .none
  earlier := []
  later := []
  after := []

example : String.ofList (samplePlace.fill (.object .none sampleEntry)).text =
    "\x7b\"severity\":\"error\",\"provider_entry_points\":[\x7b\"assembly\":\"A\",\"name\":\"Q\"\x7d]\x7d" := by rfl

def sampleMembers : List WrittenMember :=
  [.ofValue "severity" (.text "error"),
    .ofValue "provider_entry_points" (.array [.object (sampleEntry.map WrittenMember.member)])]

def sample : Settings := { standard with entryPoints := [⟨"A", "Q"⟩], severity := some .error }

theorem sample_read_in_other_forms :
    parse (.ofList ("\x7b\"severity\":\"error\"".toList ++ ([' ', '\n'] ++ ",\"core_library\":\"\"\x7d".toList))) =
      parse (.ofList ("\x7b\"severity\":\"error\"".toList ++ ",\"core_library\":\"\"\x7d".toList)) ∧
    (∃ gaps members, (samplePlace.fill (.object .none sampleEntry)).text = (Written.object gaps members).text ∧
      members.map WrittenMember.name = [some "severity", some "provider_entry_points"]) ∧
    (∃ (place : EntryPlace) (gaps : Gaps) (members : List WrittenMember),
      (samplePlace.fill (.object .none sampleEntry)).text = (place.fill (.object gaps members)).text ∧
      members.map WrittenMember.name = [some "assembly", some "name"]) ∧
    parse (.ofList (Written.object .none sampleMembers.reverse).text) =
      parse (.ofList (Written.object .none sampleMembers).text) ∧
    parse (.ofList (samplePlace.fill (.object .none sampleEntry.reverse)).text) =
      parse (.ofList (samplePlace.fill (.object .none sampleEntry)).text) ∧
    parse (.ofList (Written.object .none [.ofValue "rules" .null, .ofValue "provider_entry_points" (.array [])]).text) =
      .error .malformed ∧
    parse (.ofList (samplePlace.fill (.object .none (.ofValue "name" (.text "Q") :: sampleEntry))).text) =
      .error .malformed ∧
    (parse (.ofList (Written.object .none sampleMembers).text) = .ok sample ∧
      IsStandardOff [some "severity", some "provider_entry_points"] sample) ∧
    parse (.ofList (Written.object .none sampleMembers).text) =
      parse (.ofList (Written.object .none
        (.ofValue "core_library" (.text standard.coreLibrary) :: sampleMembers)).text) ∧
    parse (.ofList (Written.array .none [.ofValue (.text "C")]).text) =
      parse (.ofList (Written.object .none [.ofValue "core_library" (.text "C")]).text) ∧
    parse (.ofList (samplePlace.fill (.array .none [.ofValue (.text "A"), .ofValue (.text "Q")])).text) =
      parse (.ofList (samplePlace.fill (.object .none sampleEntry)).text) := by
  obtain ⟨hspace, hobject, hplace, hperm, hentryPerm, hmisnamed, hentryMisnamed, hstandard, hadd, harray,
    hentryArray⟩ := outcome_independent_of_form
  have hread : Value.parse? (.ofList (samplePlace.fill (.object .none sampleEntry)).text) =
      some (.object ([(some "severity", .text "error")] ++ (some "provider_entry_points",
        .array ([] ++ .object (sampleEntry.map WrittenMember.member) :: [])) :: [])) := by
    rw [Value.parse?_eq_some_iff, String.toList_ofList, (samplePlace.fill (.object .none sampleEntry)).reads]
    rfl
  have hok : parse (.ofList (Written.object .none sampleMembers).text) = .ok sample := by
    rw [parse_written]
    rfl
  refine ⟨?_, ?_, ?_, ?_, ?_, ?_, ?_, ⟨hok, ?_⟩, ?_, ?_, ?_⟩
  · exact hspace _ _ _ ⟨by decide, .inr (Token.stops_cons (.inr rfl))⟩ (by simp [Token.isSpace])
  · obtain ⟨gaps, members, htext, hmembers⟩ := hobject _ _ hread
    refine ⟨gaps, members, htext, ?_⟩
    rw [← map_fst_member, hmembers]
    rfl
  · obtain ⟨place, gaps, members, htext, hmembers, -⟩ := hplace _ _ _ _ _ _ hread
    refine ⟨place, gaps, members, htext, ?_⟩
    rw [← map_fst_member, hmembers]
    rfl
  · exact hperm _ _ _ (.swap _ _ _)
  · exact hentryPerm _ _ _ _ (.swap _ _ _)
  · exact hmisnamed _ _ (.inl ⟨_, List.mem_cons_self, by decide⟩)
  · exact hentryMisnamed _ _ _ (.inr (by decide))
  · exact hstandard .none sampleMembers _ hok
  · exact hadd _ _ _ _ standard.toJson_eq List.mem_cons_self (by decide)
  · exact harray _ _ [.ofValue "core_library" (.text "C")] (by decide)
  · exact hentryArray _ _ _ sampleEntry (by decide)

end Settings

end CollationLint
