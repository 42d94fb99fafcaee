import CollationLint.Proofs.Denotation

namespace CollationLint

namespace Lockstep

variable {α β γ : Type}

theorem agree_map_left (p : γ → β → Bool) (g : α → γ) (as : List α) (bs : List β) :
    agree p (as.map g) bs = agree (fun a b => p (g a) b) as bs := by
  induction as generalizing bs with
  | nil => cases bs <;> rfl
  | cons a as ih =>
    cases bs with
    | nil => rfl
    | cons b bs => rw [List.map_cons, agree, agree, ih]

theorem agree_map_right (p : α → γ → Bool) (g : β → γ) (as : List α) (bs : List β) :
    agree p as (bs.map g) = agree (fun a b => p a (g b)) as bs := by
  induction as generalizing bs with
  | nil => cases bs <;> rfl
  | cons a as ih =>
    cases bs with
    | nil => rfl
    | cons b bs => rw [List.map_cons, agree, agree, ih]

theorem agree_congr_left {p : α → β → Bool} {as as' : List α} (h : as.map p = as'.map p) (bs : List β) :
    agree p as bs = agree p as' bs := by
  have happlied (as : List α) : agree p as bs = agree (fun accepts b => accepts b) (as.map p) bs :=
    (agree_map_left (fun accepts b => accepts b) p as bs).symm
  rw [happlied as, happlied as', h]

theorem agree_congr_right {p : α → β → Bool} {bs bs' : List β}
    (h : (bs.map fun b a => p a b) = bs'.map fun b a => p a b) (as : List α) : agree p as bs = agree p as bs' := by
  have happlied (bs : List β) : agree p as bs = agree (fun a accepts => accepts a) as (bs.map fun b a => p a b) :=
    (agree_map_right (fun a accepts => accepts a) (fun b a => p a b) as bs).symm
  rw [happlied bs, happlied bs', h]

end Lockstep

inductive HashItem where
  | text (s : String)
  | number (n : Nat)
  deriving DecidableEq

def Form.hashed : Form → List HashItem
  | .classLike => [.number 0]
  | .interface => [.number 1]
  | .parameter owner position => [.number 2, .text owner, .number position]

theorem Form.hashed_append_inj {f g : Form} {xs ys : List HashItem} (h : f.hashed ++ xs = g.hashed ++ ys) :
    f = g ∧ xs = ys := by
  cases f <;> cases g <;> simp_all [hashed]

namespace LoadedType

def sameHead (s t : LoadedType) : Bool :=
  s.assembly = t.assembly && s.space = t.space && s.name = t.name && s.form = t.form

mutual

/-- Compares two types part by part, unless both are known to be kept in one place. -/
def sameAs (aliased : LoadedType → LoadedType → Bool) : LoadedType → LoadedType → Bool
  | .parameter p, t => aliased (.parameter p) t || (parameter p).sameHead t && t.arguments.isEmpty
  | .defined d, t => aliased (.defined d) t || (defined d).sameHead t && t.arguments.isEmpty
  | .constructed d arguments, t => aliased (.constructed d arguments) t ||
      (constructed d arguments).sameHead t && allSameAs aliased arguments t.arguments

def allSameAs (aliased : LoadedType → LoadedType → Bool) : List LoadedType → List LoadedType → Bool
  | [], [] => true
  | s :: ss, t :: ts => s.sameAs aliased t && allSameAs aliased ss ts
  | _, _ => false

end

mutual

def hashed : LoadedType → List HashItem
  | .parameter p => .text p.assembly :: .text "" :: .text p.name ::
      (Form.hashed (.parameter p.owner p.position) ++ [.number 0])
  | .defined d => .text d.assembly :: .text d.space :: .text d.name :: (d.role.form.hashed ++ [.number 0])
  | .constructed d arguments => .text d.assembly :: .text d.space :: .text d.name ::
      (d.role.form.hashed ++ .number arguments.length :: hashedAll arguments)

def hashedAll : List LoadedType → List HashItem
  | [] => []
  | t :: ts => t.hashed ++ hashedAll ts

end

variable {s t : LoadedType}

theorem allSameAs_eq_agree (aliased : LoadedType → LoadedType → Bool) (ss ts : List LoadedType) :
    allSameAs aliased ss ts = Lockstep.agree (sameAs aliased) ss ts := by
  induction ss generalizing ts with
  | nil => cases ts <;> rfl
  | cons s ss ih =>
    cases ts with
    | nil => rfl
    | cons t ts => rw [allSameAs, Lockstep.agree, ih]

theorem sameAs_eq (aliased : LoadedType → LoadedType → Bool) (s t : LoadedType) :
    s.sameAs aliased t = (aliased s t ||
      s.sameHead t && Lockstep.agree (sameAs aliased) s.arguments t.arguments) := by
  have hempty (ts : List LoadedType) : ts.isEmpty = Lockstep.agree (sameAs aliased) [] ts := by
    cases ts <;> rfl
  cases s with
  | parameter p => rw [sameAs, hempty]; rfl
  | defined d => rw [sameAs, hempty]; rfl
  | constructed d arguments => rw [sameAs, allSameAs_eq_agree]; rfl

theorem sameHead_iff : s.sameHead t = true ↔
    s.assembly = t.assembly ∧ s.space = t.space ∧ s.name = t.name ∧ s.form = t.form := by
  simp [sameHead, and_assoc]

theorem sameAs_iff {aliased : LoadedType → LoadedType → Bool} (h : ∀ s t, aliased s t = true → s = t) :
    s.sameAs aliased t = true ↔ s.identity = t.identity := by
  induction s using step_arguments generalizing t with
  | step s ih =>
    have harguments : List.Forall₂ (fun a b => a.sameAs aliased b = true) s.arguments t.arguments ↔
        s.arguments.map identity = t.arguments.map identity :=
      forall₂_iff_map_eq fun a ha b _ => ih a ha
    rw [sameAs_eq, Bool.or_eq_true, Bool.and_eq_true, sameHead_iff, Lockstep.agree_iff, harguments,
      identity_eq_iff]
    constructor
    · rintro (halias | ⟨⟨ha, hs, hn, hf⟩, hargs⟩)
      · cases h s t halias
        exact ⟨rfl, rfl, rfl, rfl, rfl⟩
      · exact ⟨ha, hs, hn, hf, hargs⟩
    · rintro ⟨ha, hs, hn, hf, hargs⟩
      exact .inr ⟨⟨ha, hs, hn, hf⟩, hargs⟩

theorem sameAs_eq_beq {aliased : LoadedType → LoadedType → Bool} (h : ∀ s t, aliased s t = true → s = t)
    (s t : LoadedType) : s.sameAs aliased t = (s == t) := by
  rw [Bool.eq_iff_iff, sameAs_iff h, beq_iff]

theorem beq_equivalence : Equivalence fun s t : LoadedType => (s == t) = true where
  refl _ := beq_iff.2 rfl
  symm h := beq_iff.2 (beq_iff.1 h).symm
  trans h h' := beq_iff.2 ((beq_iff.1 h).trans (beq_iff.1 h'))

theorem congr_of_identity {α : Type} {F : LoadedType → α} (G : String → String → String → Form → List α → α)
    (hF : ∀ t, F t = G t.assembly t.space t.name t.form (t.arguments.map F)) (h : s.identity = t.identity) :
    F s = F t := by
  induction s using step_arguments generalizing t with
  | step s ih =>
    obtain ⟨ha, hs, hn, hf, hargs⟩ := identity_eq_iff.1 h
    have hmap : s.arguments.map F = t.arguments.map F :=
      map_eq_map_of_identity (fun a ha b _ => ih a ha) hargs
    rw [hF s, hF t, ha, hs, hn, hf, hmap]

theorem map_congr_of_identity {α : Type} {F : LoadedType → α} (hF : ∀ s t, s.identity = t.identity → F s = F t)
    {ss ts : List LoadedType} (h : ss.map identity = ts.map identity) : ss.map F = ts.map F :=
  map_eq_map_of_identity (fun s _ t _ => hF s t) h

theorem display_of_identity (h : s.identity = t.identity) : s.display = t.display := by
  have hrest (ts : List LoadedType) :
      displayRest ts = (ts.map display).foldr (fun a rest => "," ++ a ++ rest) "" := by
    induction ts with
    | nil => rfl
    | cons t ts ih => rw [displayRest, ih, List.map_cons, List.foldr_cons]
  refine congr_of_identity (fun _ space name _ arguments => match arguments with
    | [] => qualify space name
    | a :: as => qualify space name ++ "[" ++ a ++ as.foldr (fun a rest => "," ++ a ++ rest) "" ++ "]") ?_ h
  intro t
  match t with
  | .parameter p => rw [display]; rfl
  | .defined d => rw [display]; rfl
  | .constructed d [] => rw [display]; rfl
  | .constructed d (a :: as) => rw [display, hrest]; rfl

theorem hashedAll_eq (ts : List LoadedType) : hashedAll ts = ts.flatMap hashed := by
  induction ts with
  | nil => rfl
  | cons t ts ih => rw [hashedAll, ih, List.flatMap_cons]

theorem hashed_eq (t : LoadedType) : t.hashed = .text t.assembly :: .text t.space :: .text t.name ::
    (t.form.hashed ++ .number t.arguments.length :: t.arguments.flatMap hashed) := by
  cases t with
  | parameter p => rw [hashed]; rfl
  | defined d => rw [hashed]; rfl
  | constructed d arguments => rw [hashed, hashedAll_eq]; rfl

theorem hashed_of_identity (h : s.identity = t.identity) : s.hashed = t.hashed := by
  refine congr_of_identity (fun assembly space name form arguments => .text assembly :: .text space ::
    .text name :: (form.hashed ++ .number arguments.length :: arguments.flatten)) ?_ h
  intro t
  rw [hashed_eq, List.length_map, List.flatMap_def]

theorem hashed_append_inj {xs ys : List HashItem} (h : s.hashed ++ xs = t.hashed ++ ys) :
    s.identity = t.identity ∧ xs = ys := by
  induction s using step_arguments generalizing t xs ys with
  | step s ih =>
    have hall (ss ts : List LoadedType) (hss : ss ⊆ s.arguments) (hlen : ss.length = ts.length)
        (h : ss.flatMap hashed ++ xs = ts.flatMap hashed ++ ys) :
        ss.map identity = ts.map identity ∧ xs = ys := by
      induction ss generalizing ts with
      | nil =>
        cases List.eq_nil_of_length_eq_zero hlen.symm
        exact ⟨rfl, h⟩
      | cons a ss ihs =>
        cases ts with
        | nil => cases hlen
        | cons b ts =>
          rw [List.flatMap_cons, List.flatMap_cons, List.append_assoc, List.append_assoc] at h
          obtain ⟨hab, hrest⟩ := ih a (hss List.mem_cons_self) h
          obtain ⟨hmap, hxy⟩ :=
            ihs ts (fun x hx => hss (List.mem_cons_of_mem a hx)) (Nat.succ.inj hlen) hrest
          exact ⟨by rw [List.map_cons, List.map_cons, hab, hmap], hxy⟩
    rw [hashed_eq s, hashed_eq t] at h
    simp only [List.cons_append, List.append_assoc, List.cons.injEq, HashItem.text.injEq] at h
    obtain ⟨ha, hs, hn, h⟩ := h
    obtain ⟨hf, h⟩ := Form.hashed_append_inj h
    obtain ⟨hlen, h⟩ := List.cons.inj h
    obtain ⟨hargs, hxy⟩ := hall s.arguments t.arguments (List.Subset.refl _) (HashItem.number.inj hlen) h
    exact ⟨identity_eq_iff.2 ⟨ha, hs, hn, hf, hargs⟩, hxy⟩

theorem hashed_eq_iff : s.hashed = t.hashed ↔ s.identity = t.identity := by
  constructor
  · intro h
    have happend : s.hashed ++ [] = t.hashed ++ [] := by rw [h]
    exact (hashed_append_inj happend).1
  · exact hashed_of_identity

theorem isParameter_of_identity (h : s.identity = t.identity) : s.isParameter = t.isParameter := by
  rw [← isParameter_form, ← isParameter_form, (identity_eq_iff.1 h).2.2.2.1]

end LoadedType

namespace TypeRef

open LoadedType

def fits (space name : String) (arguments : List (TypeRef → Bool)) : TypeRef → Bool
  | .named space' name' _ [] => name' = name && space' = space
  | .named space' name' _ (a :: as) => carriesArity name' (as.length + 1) name && space' = space &&
      Lockstep.agree (fun r accepts => accepts r) (a :: as) arguments
  | .array element => (TypeRef.array element).name = name && element.space = space
  | .parameter name' => name' = name && "" = space

theorem denotes_eq_fits (r : TypeRef) (t : LoadedType) :
    r.denotes t = r.fits t.space t.name (t.arguments.map fun a r => r.denotes a) := by
  match r with
  | .named _ _ _ [] => rw [denotes, fits]
  | .named _ _ _ (_ :: _) => rw [denotes, fits, Lockstep.agree_map_right, denotesAll_eq_agree]
  | .array _ => rw [denotes, fits]
  | .parameter _ => rw [denotes, fits]

theorem denotes_of_identity {s t : LoadedType} (h : s.identity = t.identity) (r : TypeRef) :
    r.denotes s = r.denotes t := by
  have hdenotes : (fun r : TypeRef => r.denotes s) = fun r => r.denotes t := by
    refine congr_of_identity (F := fun t (r : TypeRef) => r.denotes t)
      (fun _ space name _ arguments r => r.fits space name arguments) ?_ h
    intro t
    funext r
    exact r.denotes_eq_fits t
  exact congrFun hdenotes r

end TypeRef

theorem Genericity.beq_cases {g g' : Genericity} (h : (g == g') = true) :
    (g = .plain ∧ g' = .plain) ∨ (∃ names, g = .unbound names ∧ g' = .unbound names) ∨
      ∃ names A B, g = .bound names A ∧ g' = .bound names B ∧
        A.map LoadedType.identity = B.map LoadedType.identity := by
  cases g with
  | plain =>
    cases g' with
    | plain => exact .inl ⟨rfl, rfl⟩
    | unbound names' => cases h
    | bound names' B => cases h
  | unbound names =>
    cases g' with
    | plain => cases h
    | unbound names' =>
      obtain rfl : names = names' := eq_of_beq h
      exact .inr (.inl ⟨names, rfl, rfl⟩)
    | bound names' B => cases h
  | bound names A =>
    cases g' with
    | plain => cases h
    | unbound names' => cases h
    | bound names' B =>
      obtain ⟨hnames, hAB⟩ := Bool.and_eq_true_iff.1 h
      obtain rfl : names = names' := eq_of_beq hnames
      exact .inr (.inr ⟨names, A, B, rfl, rfl, LoadedType.beq_list_iff.1 hAB⟩)

namespace LoadedMethod

open LoadedType

variable {m n : LoadedMethod}

theorem beq_iff : (m == n) = true ↔ m.name = n.name ∧ m.owner.identity = n.owner.identity ∧
    m.isStatic = n.isStatic ∧ (m.genericity == n.genericity) = true ∧
    m.parameters.map identity = n.parameters.map identity := by
  rw [← beq_list_iff, ← LoadedType.beq_iff]
  change (m.name == n.name && m.owner == n.owner && m.isStatic == n.isStatic
    && m.genericity == n.genericity && m.parameters == n.parameters) = true ↔ _
  simp only [Bool.and_eq_true, beq_iff_eq, and_assoc]

theorem generics_of_beq (howner : m.owner.identity = n.owner.identity) (hname : m.name = n.name)
    (h : (m.genericity == n.genericity) = true) :
    m.isGeneric = n.isGeneric ∧ m.isGenericDefinition = n.isGenericDefinition ∧
      m.arguments.map identity = n.arguments.map identity := by
  simp only [isGeneric, isGenericDefinition, arguments]
  obtain ⟨hm, hn⟩ | ⟨names, hm, hn⟩ | ⟨names, A, B, hm, hn, hAB⟩ := Genericity.beq_cases h
  · rw [hm, hn]
    exact ⟨rfl, rfl, rfl⟩
  · rw [hm, hn]
    obtain ⟨hassembly, hspace, htype, -⟩ := identity_eq_iff.1 howner
    refine ⟨rfl, rfl, ?_⟩
    simp only [typeParametersOf, hassembly, LoadedType.fullName, hspace, htype, hname]
  · rw [hm, hn]
    exact ⟨rfl, rfl, hAB⟩

end LoadedMethod

namespace MethodRef

open LoadedType

variable {m n : LoadedMethod}

theorem denotes_of_beq (h : (m == n) = true) (r : MethodRef) : r.denotes m = r.denotes n := by
  obtain ⟨hname, howner, hstatic, hgenericity, hparameters⟩ := LoadedMethod.beq_iff.1 h
  obtain ⟨hgeneric, hdefinition, harguments⟩ := LoadedMethod.generics_of_beq howner hname hgenericity
  have hargs : Lockstep.agree TypeRef.denotes r.typeArguments m.arguments =
      Lockstep.agree TypeRef.denotes r.typeArguments n.arguments := by
    apply Lockstep.agree_congr_right
    exact map_congr_of_identity (fun s t hid => funext (TypeRef.denotes_of_identity hid)) harguments
  have hparams : Lockstep.agree (fun t (p : ParameterRef) => t.isParameter || p.type.denotes t) m.parameters
      r.parameters = Lockstep.agree (fun t p => t.isParameter || p.type.denotes t) n.parameters r.parameters := by
    apply Lockstep.agree_congr_left
    refine map_congr_of_identity (fun s t hid => ?_) hparameters
    funext p
    rw [isParameter_of_identity hid, TypeRef.denotes_of_identity hid]
  rw [denotes, denotes, hname, TypeRef.denotes_of_identity howner, hstatic, hgeneric, hdefinition, hargs, hparams]

end MethodRef

theorem LoadedType.same_types_interchangeable :
    (∀ aliased : LoadedType → LoadedType → Bool, (∀ s t, aliased s t = true → s = t) →
      ∀ s t : LoadedType, s.sameAs aliased t = (s == t)) ∧
    (Equivalence fun s t : LoadedType => (s == t) = true) ∧
    (∀ s t : LoadedType, (s == t) = true →
      s.display = t.display ∧ s.fullName = t.fullName ∧ s.isInterface = t.isInterface ∧
      s.isParameter = t.isParameter ∧ ∀ r : TypeRef, r.denotes s = r.denotes t) ∧
    (∀ s t : LoadedType, s.hashed = t.hashed ↔ (s == t) = true) ∧
    ∀ m n : LoadedMethod, (m == n) = true → ∀ r : MethodRef, r.denotes m = r.denotes n := by
  refine ⟨fun aliased h => sameAs_eq_beq h, beq_equivalence, ?_, ?_, fun m n => MethodRef.denotes_of_beq⟩
  · intro s t h
    have hid := beq_iff.1 h
    obtain ⟨-, hspace, hname, hform, -⟩ := identity_eq_iff.1 hid
    exact ⟨display_of_identity hid, by rw [fullName, fullName, hspace, hname],
      by rw [isInterface, isInterface, hform], isParameter_of_identity hid, TypeRef.denotes_of_identity hid⟩
  · intro s t
    rw [hashed_eq_iff, beq_iff]

namespace Library

def bareString : LoadedType := .defined (core .ordinaryClass "String")

end Library

theorem LoadedType.bare_string_interchangeable :
    (constructed Library.list [.defined Library.string]).sameAs (fun _ _ => false)
      (.constructed Library.list [Library.bareString]) = true ∧
    (constructed Library.list [.defined Library.string]).display =
      (constructed Library.list [Library.bareString]).display ∧
    ∀ r : MethodRef, r.denotes Library.known.stringEquals =
      r.denotes (.plain Library.bareString "Equals" false [Library.bareString]) := by
  have hlists : ((constructed Library.list [.defined Library.string]) ==
      .constructed Library.list [Library.bareString]) = true := by decide +kernel
  have hmethods : (Library.known.stringEquals ==
      .plain Library.bareString "Equals" false [Library.bareString]) = true := by decide +kernel
  obtain ⟨hcompared, -, htypes, -, hdenotes⟩ := same_types_interchangeable
  refine ⟨?_, (htypes _ _ hlists).1, hdenotes _ _ hmethods⟩
  rw [hcompared (fun _ _ => false) nofun]
  exact hlists

end CollationLint
