import CollationLint.Proofs.Denotation

namespace CollationLint

namespace Assemblies

/-- Where the search for `name` goes from an assembly that loads, lacks the type and forwards it. -/
def next? (as : Assemblies) (name assembly : String) : Option String :=
  match as.find? assembly with
  | none => none
  | some a =>
    if a.loadFailure = none ∧ (a.types.find? name).isNone then (a.forwards.find? name).map (·.target)
    else none

def chain (as : Assemblies) (name : String) : Nat → String → Option String
  | 0, assembly => some assembly
  | k + 1, assembly => (as.next? name assembly).bind (as.chain name k)

inductive Settles (as : Assemblies) (name assembly : String) : Except ResolveError LoadedType → Prop
  | missing (h : as.find? assembly = none) : Settles as name assembly (.error (.assemblyNotFound assembly))
  | unloadable {a : Assembly} {reason : String} (h : as.find? assembly = some a)
      (hl : a.loadFailure = some reason) : Settles as name assembly (.error (.assemblyNotLoadable assembly reason))
  | defines {a : Assembly} {t : LoadedType} (h : as.find? assembly = some a) (hl : a.loadFailure = none)
      (ht : a.types.find? name = some t) : Settles as name assembly (.ok t)

variable {as : Assemblies} {start name assembly target current : String} {visits : Nat}
  {r : Except ResolveError LoadedType}

section Visit

theorem next?_eq_some_iff : as.next? name assembly = some target ↔
    ∃ a, as.find? assembly = some a ∧ a.loadFailure = none ∧ a.types.find? name = none ∧
      (a.forwards.find? name).map (·.target) = some target := by
  unfold next?
  cases as.find? assembly with
  | none => simp
  | some a => simp [and_assoc]

theorem not_settles_iff : (∀ r, ¬as.Settles name assembly r) ↔
    ∃ a, as.find? assembly = some a ∧ a.loadFailure = none ∧ a.types.find? name = none := by
  constructor
  · intro h
    cases ha : as.find? assembly with
    | none => exact absurd (.missing ha) (h _)
    | some a =>
      cases hl : a.loadFailure with
      | some reason => exact absurd (.unloadable ha hl) (h _)
      | none =>
        cases ht : a.types.find? name with
        | some t => exact absurd (.defines ha hl ht) (h _)
        | none => exact ⟨a, rfl, hl, ht⟩
  · rintro ⟨a, ha, hl, ht⟩ r hr
    cases hr with
    | missing h => cases h.symm.trans ha
    | unloadable h hl' =>
      cases h.symm.trans ha
      cases hl'.symm.trans hl
    | defines h _ ht' =>
      cases h.symm.trans ha
      cases ht'.symm.trans ht

theorem Settles.next?_eq_none (h : as.Settles name assembly r) : as.next? name assembly = none := by
  rw [Option.eq_none_iff_forall_ne_some]
  intro target hn
  obtain ⟨a, ha, hl, ht, -⟩ := next?_eq_some_iff.1 hn
  exact not_settles_iff.2 ⟨a, ha, hl, ht⟩ r h

theorem Settles.follow_eq (h : as.Settles name assembly r) : as.follow start name (visits + 1) assembly = r := by
  cases h with
  | missing h => simp [follow, h]
  | unloadable h hl => simp [follow, h, hl]
  | defines h hl ht => simp [follow, h, hl, ht]

theorem follow_of_next? (h : as.next? name assembly = some target) :
    as.follow start name (visits + 1) assembly = as.follow start name visits target := by
  obtain ⟨a, ha, hl, ht, hmap⟩ := next?_eq_some_iff.1 h
  obtain ⟨forward, hf, rfl⟩ := Option.map_eq_some_iff.1 hmap
  simp [follow, ha, hl, ht, hf]

theorem follow_of_next?_eq_none (hn : as.next? name assembly = none) (hs : ∀ r, ¬as.Settles name assembly r) :
    as.follow start name (visits + 1) assembly = .error (.typeNotFound start name) := by
  obtain ⟨a, ha, hl, ht⟩ := not_settles_iff.1 hs
  have hf : a.forwards.find? name = none := by simpa [next?, ha, hl, ht] using hn
  simp [follow, ha, hl, ht, hf]

end Visit

section Chain

variable {i j k m n : Nat} {b c : String}

theorem chain_add (m n : Nat) (assembly : String) :
    as.chain name (m + n) assembly = (as.chain name m assembly).bind (as.chain name n) := by
  induction m generalizing assembly with
  | zero => rw [Nat.zero_add, chain, Option.bind_some]
  | succ m ih =>
    rw [Nat.succ_add, chain, chain, Option.bind_assoc]
    congr 1
    funext target
    exact ih target

theorem exists_chain_of_le (hmn : m ≤ n) (h : as.chain name n assembly = some c) :
    ∃ b, as.chain name m assembly = some b ∧ as.chain name (n - m) b = some c := by
  rwa [← Nat.add_sub_cancel' hmn, chain_add, Option.bind_eq_some_iff] at h

theorem not_settles_of_chain (hkn : k < n) (hn : as.chain name n assembly = some c)
    (hk : as.chain name k assembly = some b) : ¬as.Settles name b r := by
  intro hs
  obtain ⟨b', hb', hc⟩ := exists_chain_of_le (Nat.le_of_lt hkn) hn
  cases hb'.symm.trans hk
  obtain ⟨d, hd⟩ := Nat.exists_eq_add_of_lt hkn
  rw [show n - k = d + 1 by omega, chain, hs.next?_eq_none] at hc
  cases hc

theorem exists_chain_of_cycle (hij : i < j) (hi : as.chain name i assembly = some b)
    (hj : as.chain name j assembly = some b) (n : Nat) : ∃ c, as.chain name n assembly = some c := by
  -- once `b` leads back to itself, going round often enough gives a chain of any length
  have hround : ∀ m, as.chain name (m * (j - i)) b = some b := by
    obtain ⟨b', hb', hback⟩ := exists_chain_of_le (Nat.le_of_lt hij) hj
    cases hb'.symm.trans hi
    intro m
    induction m with
    | zero => rw [Nat.zero_mul, chain]
    | succ m ih => rw [Nat.succ_mul, chain_add, ih, Option.bind_some, hback]
  have hlong : as.chain name (i + n * (j - i)) assembly = some b := by
    rw [chain_add, hi, Option.bind_some, hround]
  have hle : n ≤ i + n * (j - i) := by
    have := Nat.le_mul_of_pos_right n (Nat.sub_pos_of_lt hij)
    omega
  obtain ⟨c, hc, -⟩ := exists_chain_of_le hle hlong
  exact ⟨c, hc⟩

theorem follow_of_chain (hk : k < visits) (hc : as.chain name k current = some b) (hs : as.Settles name b r) :
    as.follow start name visits current = r := by
  induction k generalizing visits current with
  | zero =>
    cases hc
    obtain ⟨v, rfl⟩ := Nat.exists_eq_add_of_lt hk
    rw [Nat.zero_add]
    exact hs.follow_eq
  | succ k ih =>
    obtain ⟨target, hn, hc⟩ := Option.bind_eq_some_iff.1 hc
    cases visits with
    | zero => cases hk
    | succ visits =>
      rw [follow_of_next? hn]
      exact ih (Nat.lt_of_succ_lt_succ hk) hc

theorem follow_of_not_settles (h : ∀ k < visits, ∀ b r, as.chain name k current = some b → ¬as.Settles name b r) :
    as.follow start name visits current = .error (.typeNotFound start name) := by
  induction visits generalizing current with
  | zero => rfl
  | succ visits ih =>
    cases hn : as.next? name current with
    | none =>
      apply follow_of_next?_eq_none hn
      intro r
      exact h 0 (Nat.succ_pos visits) current r rfl
    | some target =>
      rw [follow_of_next? hn]
      apply ih
      intro k hk b r hc
      apply h (k + 1) (Nat.succ_lt_succ hk) b r
      rw [chain, hn, Option.bind_some, hc]

theorem follow_eq_iff (hr : r ≠ .error (.typeNotFound start name)) :
    as.follow start name visits current = r ↔
      ∃ k < visits, ∃ b, as.chain name k current = some b ∧ as.Settles name b r := by
  constructor
  · intro h
    by_contra hnone
    apply hr
    rw [← h]
    apply follow_of_not_settles
    intro k hk b r' hc hs
    rw [follow_of_chain hk hc hs] at h
    exact hnone ⟨k, hk, b, hc, h ▸ hs⟩
  · rintro ⟨k, hk, b, hc, hs⟩
    exact follow_of_chain hk hc hs

theorem follow_eq_typeNotFound_iff :
    as.follow start name visits current = .error (.typeNotFound start name) ↔
      ∀ k < visits, ∀ b r, as.chain name k current = some b → ¬as.Settles name b r := by
  refine ⟨fun h k hk b r hc hs => ?_, follow_of_not_settles⟩
  rw [follow_of_chain hk hc hs] at h
  subst h
  cases hs

end Chain

theorem resolve_nil (as : Assemblies) (assembly name : String) :
    as.resolve assembly name [] = as.follow assembly name maxVisits assembly := by
  cases h : as.follow assembly name maxVisits assembly with
  | ok t => exact resolve_of_follow h
  | error e => rw [resolve, h]; rfl

section Ends

variable {b : String}

theorem settles_ok_iff {t : LoadedType} : as.Settles name b (.ok t) ↔
    ∃ a, as.find? b = some a ∧ a.loadFailure = none ∧ a.types.find? name = some t := by
  constructor
  · intro h
    cases h with
    | defines ha hl ht => exact ⟨_, ha, hl, ht⟩
  · rintro ⟨a, ha, hl, ht⟩
    exact .defines ha hl ht

theorem settles_assemblyNotFound_iff {c : String} :
    as.Settles name b (.error (.assemblyNotFound c)) ↔ b = c ∧ as.find? c = none := by
  constructor
  · intro h
    cases h with
    | missing ha => exact ⟨rfl, ha⟩
  · rintro ⟨rfl, ha⟩
    exact .missing ha

theorem settles_assemblyNotLoadable_iff {c reason : String} :
    as.Settles name b (.error (.assemblyNotLoadable c reason)) ↔
      b = c ∧ ∃ a, as.find? c = some a ∧ a.loadFailure = some reason := by
  constructor
  · intro h
    cases h with
    | unloadable ha hl => exact ⟨rfl, _, ha, hl⟩
  · rintro ⟨rfl, a, ha, hl⟩
    exact .unloadable ha hl

theorem lt_maxVisits_iff {k : Nat} : k < maxVisits ↔ k ≤ 7 := Nat.lt_succ_iff

theorem resolve_nil_eq_iff (hr : r ≠ .error (.typeNotFound start name)) :
    as.resolve start name [] = r ↔ ∃ k ≤ 7, ∃ b, as.chain name k start = some b ∧ as.Settles name b r := by
  rw [resolve_nil, follow_eq_iff hr]
  simp only [lt_maxVisits_iff]

theorem resolve_nil_of_long_chain {k : Nat} (hk : 7 < k) (hc : as.chain name k start = some b) :
    as.resolve start name [] = .error (.typeNotFound start name) := by
  rw [resolve_nil]
  apply follow_of_not_settles
  intro i hi c r hci
  rw [lt_maxVisits_iff] at hi
  exact not_settles_of_chain (Nat.lt_of_le_of_lt hi hk) hc hci

end Ends

theorem resolve_settled_on_chain (as : Assemblies) (start name : String) :
    (∀ t, as.resolve start name [] = .ok t ↔ ∃ k ≤ 7, ∃ b, as.chain name k start = some b ∧
      ∃ a, as.find? b = some a ∧ a.loadFailure = none ∧ a.types.find? name = some t) ∧
    (∀ b, as.resolve start name [] = .error (.assemblyNotFound b) ↔ ∃ k ≤ 7, as.chain name k start = some b ∧
      as.find? b = none) ∧
    (∀ b reason, as.resolve start name [] = .error (.assemblyNotLoadable b reason) ↔
      ∃ k ≤ 7, as.chain name k start = some b ∧ ∃ a, as.find? b = some a ∧ a.loadFailure = some reason) ∧
    (as.resolve start name [] = .error (.typeNotFound start name) ↔ ∀ k ≤ 7, ∀ b, as.chain name k start = some b →
      ∃ a, as.find? b = some a ∧ a.loadFailure = none ∧ a.types.find? name = none) ∧
    (∀ i j b, i < j → as.chain name i start = some b → as.chain name j start = some b →
      as.resolve start name [] = .error (.typeNotFound start name)) ∧
    ∀ k b, 7 < k → as.chain name k start = some b →
      as.resolve start name [] = .error (.typeNotFound start name) := by
  refine ⟨?_, ?_, ?_, ?_, ?_, ?_⟩
  · intro t
    rw [resolve_nil_eq_iff (r := .ok t) nofun]
    simp only [settles_ok_iff]
  · intro b
    rw [resolve_nil_eq_iff (r := .error (.assemblyNotFound b)) nofun]
    simp only [settles_assemblyNotFound_iff, and_left_comm, exists_eq_left]
  · intro b reason
    rw [resolve_nil_eq_iff (r := .error (.assemblyNotLoadable b reason)) nofun]
    simp only [settles_assemblyNotLoadable_iff, and_left_comm, exists_eq_left]
  · rw [resolve_nil, follow_eq_typeNotFound_iff]
    simp only [lt_maxVisits_iff, ← not_settles_iff]
    constructor
    · intro h k hk b hc r
      exact h k hk b r hc
    · intro h k hk b r hc
      exact h k hk b hc r
  · intro i j b hij hi hj
    obtain ⟨c, hc⟩ := exists_chain_of_cycle hij hi hj 8
    exact resolve_nil_of_long_chain (by decide) hc
  · intro k b hk hc
    exact resolve_nil_of_long_chain hk hc

end Assemblies

namespace Library

def passing (name target : String) : Assembly :=
  (Assembly.named name).addForward ⟨string.fullName, target⟩

def relay (n : Nat) : Assemblies :=
  (List.range n).foldl (fun as i => as.register (passing (toString i) (toString (i + 1)))) .empty

def relayEnd (n : Nat) : Assembly := (Assembly.named (toString n)).addType (.defined string)

def ring : Assemblies := (Assemblies.empty.register (passing "A" "B")).register (passing "B" "A")

end Library

theorem Assemblies.relay_settled_on_chain :
    ((Library.relay 7).register (Library.relayEnd 7)).resolve "0" "System.String" [] =
      .ok (.defined Library.string) ∧
    ((Library.relay 8).register (Library.relayEnd 8)).resolve "0" "System.String" [] =
      .error (.typeNotFound "0" "System.String") ∧
    Library.ring.resolve "A" "System.String" [] = .error (.typeNotFound "A" "System.String") := by
  refine ⟨?_, ?_, ?_⟩
  · exact ((resolve_settled_on_chain _ _ _).1 _).2 ⟨7, Nat.le_refl 7, "7", rfl, Library.relayEnd 7, rfl, rfl, rfl⟩
  · exact (resolve_settled_on_chain _ _ _).2.2.2.2.2 8 "8" (by decide) rfl
  · exact (resolve_settled_on_chain _ _ _).2.2.2.2.1 0 2 "A" (by decide) rfl rfl

namespace Assemblies

variable {as : Assemblies} {x : Assembly} {start assembly name current : String} {visits : Nat}

theorem find?_register_self (as : Assemblies) (x : Assembly) : (as.register x).find? x.name = some x :=
  Directory.find?_insert_self as.members x

theorem find?_register_of_ne (h : x.name ≠ name) : (as.register x).find? name = as.find? name :=
  Directory.find?_insert_of_ne as.members h

theorem follow_register_ne (as : Assemblies) (x : Assembly) :
    (as.register x).follow start name visits current ≠ .error (.assemblyNotFound x.name) := by
  rw [ne_eq, follow_eq_iff (r := .error (.assemblyNotFound x.name)) nofun]
  rintro ⟨k, -, b, -, hs⟩
  rw [settles_assemblyNotFound_iff, find?_register_self] at hs
  cases hs.2

theorem follow_register (hx : as.find? x.name = none)
    (h : as.follow start name visits current ≠ .error (.assemblyNotFound x.name)) :
    (as.register x).follow start name visits current = as.follow start name visits current := by
  -- a registered assembly is not `x`, so that the search finds it as before
  have hfind {current : String} {a : Assembly} (ha : as.find? current = some a) :
      (as.register x).find? current = some a := by
    rw [find?_register_of_ne, ha]
    rintro rfl
    cases hx.symm.trans ha
  fun_induction as.follow start name visits current with
  | case1 => rfl
  | case2 visits current ha =>
    have hne : x.name ≠ current := by
      rintro rfl
      exact h rfl
    simp [follow, find?_register_of_ne hne, ha]
  | case3 visits current a ha reason hl => simp [follow, hfind ha, hl]
  | case4 visits current a ha hl t ht => simp [follow, hfind ha, hl, ht]
  | case5 visits current a ha hl forward ht hf ih =>
    rw [← ih h]
    simp [follow, hfind ha, hl, ht, hf]
  | case6 visits current a ha hl ht hf => simp [follow, hfind ha, hl, ht, hf]

theorem resolve_eq_assemblyNotFound_iff {arguments : List LoadedType} {b : String} :
    as.resolve assembly name arguments = .error (.assemblyNotFound b) ↔
      as.follow assembly name maxVisits assembly = .error (.assemblyNotFound b) := by
  cases h : as.follow assembly name maxVisits assembly with
  | error e => rw [resolve, h]; exact Iff.rfl
  | ok s =>
    rw [resolve_of_follow h]
    split
    · simp
    · cases s.bind arguments <;> simp [Except.mapError]

theorem resolve_register_eq_iff (hx : as.find? x.name = none) (assembly name : String)
    (arguments : List LoadedType) :
    (as.register x).resolve assembly name arguments = as.resolve assembly name arguments ↔
      as.resolve assembly name arguments ≠ .error (.assemblyNotFound x.name) := by
  constructor
  · intro h hmissing
    rw [hmissing, resolve_eq_assemblyNotFound_iff] at h
    exact follow_register_ne as x h
  · intro h
    rw [ne_eq, resolve_eq_assemblyNotFound_iff] at h
    rw [resolve, resolve, follow_register hx h]

theorem load_register (hx : as.find? x.name = none) {r : TypeRef} {t : LoadedType}
    (h : r.load as.resolver = .ok (some t)) : r.load (as.register x).resolver = .ok (some t) := by
  apply TypeRef.load_induction (P := fun r t => r.load (as.register x).resolver = .ok (some t)) _ r t h
  intro space name assembly arguments loaded t hargs hfound
  refine TypeRef.load_eq_some_iff.2 ⟨space, name, assembly, arguments, loaded, rfl,
    TypeRef.loadAll_eq_some_iff.2 hargs, ?_⟩
  rw [found_iff] at hfound ⊢
  rw [← hfound, resolve_register_eq_iff hx, hfound]
  nofun

theorem registering_keeps_answers (as : Assemblies) (x : Assembly) (hx : as.find? x.name = none) :
    (∀ (assembly name : String) (arguments : List LoadedType),
      (as.register x).resolve assembly name arguments = as.resolve assembly name arguments ↔
        as.resolve assembly name arguments ≠ .error (.assemblyNotFound x.name)) ∧
    ∀ (r : TypeRef) (t : LoadedType), r.load as.resolver = .ok (some t) →
      r.load (as.register x).resolver = .ok (some t) :=
  ⟨resolve_register_eq_iff hx, fun _ _ => load_register hx⟩

theorem registering_relay_end :
    ((Library.relay 7).register (Library.relayEnd 7)).resolve "0" "System.String" [] ≠
      (Library.relay 7).resolve "0" "System.String" [] ∧
    ((Library.relay 8).register (Library.relayEnd 8)).resolve "0" "System.String" [] =
      (Library.relay 8).resolve "0" "System.String" [] ∧
    Library.listOfSets.load (Library.assemblies.register (Library.relayEnd 8)).resolver =
      .ok (some (Library.list.instantiate [Library.hashSet.instantiate [.defined Library.string]])) := by
  -- the end of the row is noticed as the eighth assembly, but not as the ninth
  have hseven : (Library.relay 7).resolve "0" "System.String" [] = .error (.assemblyNotFound "7") := rfl
  have height : (Library.relay 8).resolve "0" "System.String" [] = .error (.typeNotFound "0" "System.String") := rfl
  refine ⟨?_, ?_, ?_⟩
  · rw [ne_eq, (registering_keeps_answers (Library.relay 7) (Library.relayEnd 7) rfl).1]
    exact not_not.2 hseven
  · rw [(registering_keeps_answers (Library.relay 8) (Library.relayEnd 8) rfl).1, height]
    nofun
  · exact (registering_keeps_answers Library.assemblies (Library.relayEnd 8) rfl).2 _ _ rfl

end Assemblies

end CollationLint
