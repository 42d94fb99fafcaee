import CollationLint.Json.Reader
import CollationLint.Proofs.Tokens

namespace CollationLint.Json

theorem intercalate_cons {α : Type} (sep x : List α) (xs : List (List α)) :
    sep.intercalate (x :: xs) = x ++ xs.flatMap (sep ++ ·) := by
  induction xs generalizing x with
  | nil => simp
  | cons y xs ih => rw [List.intercalate_cons_cons, ih, List.flatMap_cons, List.append_assoc, List.append_assoc]

theorem intercalate_concat {α : Type} (sep : List α) (xs : List (List α)) (x : List α) :
    sep.intercalate (xs ++ [x]) = xs.flatMap (· ++ sep) ++ x := by
  induction xs with
  | nil => simp
  | cons y xs ih =>
    rw [List.cons_append, List.intercalate_cons_of_ne_nil (by simp), ih, List.flatMap_cons]
    simp only [List.append_assoc]

namespace Value

def tokensOfMember (m : Text × Value) : List Token := .string m.1 :: .colon :: m.2.tokens

theorem itemTokens_eq (vs : List Value) :
    itemTokens vs = (vs.map tokens).flatMap ([.comma] ++ ·) ++ [.closeBracket] := by
  induction vs with
  | nil => rfl
  | cons v vs ih => simp [itemTokens, ih]

theorem memberTokens_eq (ms : List (Text × Value)) :
    memberTokens ms = (ms.map tokensOfMember).flatMap ([.comma] ++ ·) ++ [.closeBrace] := by
  induction ms with
  | nil => rfl
  | cons m ms ih => simp [memberTokens, tokensOfMember, ih]

theorem tokens_array (vs : List Value) :
    (array vs).tokens = .openBracket :: ([.comma].intercalate (vs.map tokens) ++ [.closeBracket]) := by
  cases vs with
  | nil => rfl
  | cons v vs => rw [tokens, itemTokens_eq, List.map_cons, intercalate_cons, List.cons_append, List.append_assoc]

theorem tokens_object (ms : List (Text × Value)) :
    (object ms).tokens = .openBrace :: ([.comma].intercalate (ms.map tokensOfMember) ++ [.closeBrace]) := by
  cases ms with
  | nil => rfl
  | cons m ms =>
    rw [tokens, memberTokens_eq, List.map_cons, intercalate_cons, List.append_assoc]
    rfl

theorem exists_tokens (v : Value) : ∃ t ts, v.tokens = t :: ts ∧ t ≠ .closeBracket := by
  cases v with
  | null | bool | natural | number | string => exact ⟨_, [], rfl, nofun⟩
  | array vs => exact ⟨_, _, tokens_array vs, nofun⟩
  | object ms => exact ⟨_, _, tokens_object ms, nofun⟩

end Value

namespace State

open Value

def run (s : State) (ts : List Token) : Option State := ts.foldlM step s

theorem run_cons (s : State) (t : Token) (ts : List Token) : s.run (t :: ts) = (s.step t).bind (·.run ts) := rfl

theorem step_firstItem {t : Token} (h : t ≠ .closeBracket) (stack : List Frame) :
    (firstItem stack).step t = (value (.items [] :: stack)).step t := by
  cases t with
  | closeBracket => exact absurd rfl h
  | _ => rfl

theorem run_firstItem (v : Value) (ts : List Token) (stack : List Frame) :
    (firstItem stack).run (v.tokens ++ ts) = (value (.items [] :: stack)).run (v.tokens ++ ts) := by
  obtain ⟨t, us, htokens, ht⟩ := v.exists_tokens
  rw [htokens, List.cons_append, run_cons, run_cons, step_firstItem ht]

-- The recursion is that of the tokens: what follows a value is read with the value at hand.
mutual

theorem run_tokens (v : Value) (ts : List Token) (stack : List Frame) :
    (value stack).run (v.tokens ++ ts) = (ended v stack).run ts := by
  match v with
  | .null | .bool _ | .natural _ | .number | .string _ | .array [] | .object [] => rfl
  | .array (v :: vs) =>
    have hopen (us : List Token) : (value stack).run (.openBracket :: us) = (firstItem stack).run us := rfl
    simp only [tokens, List.cons_append, List.append_assoc, hopen, run_firstItem, run_tokens v, run_itemTokens vs]
    rfl
  | .object ((name, v) :: ms) =>
    have hopen (us : List Token) : (value stack).run (.openBrace :: .string name :: .colon :: us) =
        (value (.member [] name :: stack)).run us := rfl
    simp only [tokens, List.cons_append, List.append_assoc, hopen, run_tokens v, run_memberTokens ms]
    rfl

theorem run_itemTokens (vs : List Value) (ts : List Token) (v : Value) (before : List Value) (stack : List Frame) :
    (ended v (.items before :: stack)).run (itemTokens vs ++ ts) =
      (ended (.array (before.reverse ++ v :: vs)) stack).run ts := by
  match vs with
  | [] =>
    rw [← List.reverse_cons]
    rfl
  | w :: vs =>
    have hcomma (us : List Token) : (ended v (.items before :: stack)).run (.comma :: us) =
        (value (.items (v :: before) :: stack)).run us := rfl
    simp only [itemTokens, List.cons_append, List.append_assoc, hcomma, run_tokens w, run_itemTokens vs,
      List.reverse_cons, List.nil_append]

theorem run_memberTokens (ms : List (Text × Value)) (ts : List Token) (name : Text) (v : Value)
    (before : List (Text × Value)) (stack : List Frame) :
    (ended v (.member before name :: stack)).run (memberTokens ms ++ ts) =
      (ended (.object (before.reverse ++ (name, v) :: ms)) stack).run ts := by
  match ms with
  | [] =>
    rw [← List.reverse_cons]
    rfl
  | (next, w) :: ms =>
    have hcomma (us : List Token) :
        (ended v (.member before name :: stack)).run (.comma :: .string next :: .colon :: us) =
          (value (.member ((name, v) :: before) next :: stack)).run us := rfl
    simp only [memberTokens, List.cons_append, List.append_assoc, hcomma, run_tokens w, run_memberTokens ms,
      List.reverse_cons, List.nil_append]

end

end State

def Frame.tokens : Frame → List Token
  | .items before => .openBracket :: (before.reverse.map Value.tokens).flatMap (· ++ [.comma])
  | .member before name => .openBrace :: ((before.reverse.map Value.tokensOfMember).flatMap (· ++ [.comma]) ++
      [.string name, .colon])

namespace State

def outer (stack : List Frame) : List Token := stack.reverse.flatMap Frame.tokens

def tokens : State → List Token
  | .value stack => outer stack
  | .firstItem stack => outer stack ++ [.openBracket]
  | .firstName stack => outer stack ++ [.openBrace]
  | .nextName before stack =>
    outer stack ++ .openBrace :: (before.reverse.map Value.tokensOfMember).flatMap (· ++ [.comma])
  | .colon before name stack =>
    outer stack ++ .openBrace :: (before.reverse.map Value.tokensOfMember).flatMap (· ++ [.comma]) ++ [.string name]
  | .ended v stack => outer stack ++ v.tokens

theorem outer_cons (frame : Frame) (stack : List Frame) : outer (frame :: stack) = outer stack ++ frame.tokens := by
  simp [outer]

theorem tokens_of_start {stack : List Frame} {t : Token} {s : State} (h : start stack t = some s) :
    s.tokens = outer stack ++ [t] := by
  cases t <;> cases h <;> rfl

theorem tokens_of_step {s s' : State} {t : Token} (h : s.step t = some s') : s'.tokens = s.tokens ++ [t] := by
  revert h
  fun_cases step s t with
  | case1 stack t => exact tokens_of_start
  | case2 stack =>
    rintro ⟨⟩
    simp [tokens, Value.tokens]
  | case3 stack t _ =>
    intro h
    rw [tokens_of_start h, outer_cons]
    rfl
  | case4 stack =>
    rintro ⟨⟩
    simp [tokens, Value.tokens]
  | case5 stack name =>
    rintro ⟨⟩
    simp [tokens]
  | case6 before stack name =>
    rintro ⟨⟩
    simp [tokens]
  | case7 before name stack =>
    rintro ⟨⟩
    simp [tokens, outer_cons, Frame.tokens]
  | case8 v before stack =>
    rintro ⟨⟩
    simp [tokens, outer_cons, Frame.tokens]
  | case9 v before stack =>
    rintro ⟨⟩
    simp [tokens, outer_cons, Frame.tokens, Value.tokens_array, intercalate_concat]
  | case10 v before name stack =>
    rintro ⟨⟩
    simp [tokens, outer_cons, Frame.tokens, Value.tokensOfMember]
  | case11 v before name stack =>
    rintro ⟨⟩
    simp [tokens, outer_cons, Frame.tokens, Value.tokens_object, Value.tokensOfMember, intercalate_concat]
  | case12 => nofun

theorem tokens_of_run {s s' : State} {ts : List Token} (h : s.run ts = some s') : s'.tokens = s.tokens ++ ts := by
  induction ts generalizing s with
  | nil =>
    cases h
    rw [List.append_nil]
  | cons t ts ih =>
    rw [run_cons] at h
    obtain ⟨s₁, hstep, hrun⟩ := Option.bind_eq_some_iff.1 h
    rw [ih hrun, tokens_of_step hstep, List.append_assoc, List.singleton_append]

theorem eq_ended_of_result? {s : State} {v : Value} (h : s.result? = some v) : s = ended v [] := by
  revert h
  fun_cases result? s with
  | case1 v => rintro ⟨⟩; rfl
  | case2 => nofun

end State

namespace Value

theorem ofTokens?_eq (ts : List Token) : ofTokens? ts = (State.run (.value []) ts).bind State.result? := rfl

theorem ofTokens?_eq_some_iff {ts : List Token} {v : Value} : ofTokens? ts = some v ↔ ts = v.tokens := by
  rw [ofTokens?_eq]
  constructor
  · intro h
    obtain ⟨s, hrun, hresult⟩ := Option.bind_eq_some_iff.1 h
    have hs := State.tokens_of_run hrun
    rw [State.eq_ended_of_result? hresult] at hs
    exact hs.symm
  · rintro rfl
    have hrun := State.run_tokens v [] []
    rw [List.append_nil] at hrun
    rw [hrun]
    rfl

theorem parse?_eq_some_iff {text : String} {v : Value} :
    parse? text = some v ↔ Token.all text.toList = some v.tokens := by
  simp only [parse?, Option.bind_eq_bind, Option.bind_eq_some_iff, ofTokens?_eq_some_iff, exists_eq_right]

end Value

end CollationLint.Json
