import CollationLint.Lockstep
import CollationLint.Loaded.Type

namespace CollationLint

def textAfter? : (start text : List Char) → Option (List Char)
  | [], rest => some rest
  | _ :: _, [] => none
  | c :: start, d :: text => if c = d then textAfter? start text else none

theorem textAfter?_eq_some_iff {start text rest : List Char} :
    textAfter? start text = some rest ↔ text = start ++ rest := by
  induction start generalizing text with
  | nil => rw [textAfter?, Option.some.injEq, List.nil_append]
  | cons c start ih =>
    cases text with
    | nil => simp [textAfter?]
    | cons d text =>
      rw [textAfter?, List.cons_append, List.cons.injEq, ← ih]
      split
      · next h => simp [h]
      · next h => simp [Ne.symm h]

def carriesArity (name : String) (arity : Nat) (metadataName : String) : Bool :=
  ((textAfter? name.toList metadataName.toList).bind (textAfter? ['`'])).any (String.ofList · = toString arity)

theorem carriesArity_iff {name metadataName : String} {arity : Nat} :
    carriesArity name arity metadataName = true ↔ withArity name arity = metadataName := by
  simp only [carriesArity, Option.any_eq_true, Option.bind_eq_some_iff, textAfter?_eq_some_iff, decide_eq_true_eq]
  constructor
  · rintro ⟨digits, ⟨rest, htext, rfl⟩, hdigits⟩
    apply String.toList_injective
    rw [htext, withArity, ← hdigits]
    simp
  · rintro rfl
    refine ⟨(toString arity).toList, ⟨'`' :: (toString arity).toList, ?_, rfl⟩, ?_⟩
    · simp [withArity]
    · exact String.ofList_toList

namespace TypeRef

mutual

/-- Whether a mention means the type `t`. The assembly plays no part, since a type may be mentioned
through an assembly that forwards it. -/
def denotes : TypeRef → LoadedType → Bool
  | .named space name _ [], t => name = t.name && space = t.space
  | .named space name _ (a :: as), t =>
    carriesArity name (as.length + 1) t.name && space = t.space && denotesAll (a :: as) t.arguments
  | .array element, t => (TypeRef.array element).name = t.name && element.space = t.space
  | .parameter name, t => name = t.name && "" = t.space

def denotesAll : List TypeRef → List LoadedType → Bool
  | [], [] => true
  | r :: rs, t :: ts => r.denotes t && denotesAll rs ts
  | _, _ => false

end

theorem denotesAll_eq_agree (rs : List TypeRef) (ts : List LoadedType) :
    denotesAll rs ts = Lockstep.agree denotes rs ts := by
  induction rs generalizing ts with
  | nil => cases ts <;> rfl
  | cons r rs ih =>
    cases ts with
    | nil => rfl
    | cons t ts => rw [denotesAll, Lockstep.agree, ih]

end TypeRef

end CollationLint
