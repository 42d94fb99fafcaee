import CollationLint.Proofs.Spelling

namespace CollationLint.Json

open Token (all)

/-- White space before an array or object, after its opening bracket and after its end. -/
structure Gaps where
  before : List Char
  within : List Char
  after : List Char
  blank_before : ∀ c ∈ before, Token.isSpace c = true
  blank_within : ∀ c ∈ within, Token.isSpace c = true
  blank_after : ∀ c ∈ after, Token.isSpace c = true

@[ext]
structure Written where
  text : List Char
  value : Value
  reads : all text = some value.tokens

@[ext]
structure WrittenMember where
  nameText : List Char
  name : Text
  content : Written
  reads : all nameText = some [.string name]

namespace WrittenMember

def text (m : WrittenMember) : List Char := m.nameText ++ ':' :: m.content.text

def member (m : WrittenMember) : Text × Value := (m.name, m.content.value)

theorem all_text (m : WrittenMember) : all m.text = some (Value.tokensOfMember m.member) :=
  Token.all_append_mark rfl m.reads m.content.reads

theorem exists_of_all {text : List Char} {m : Text × Value} (h : all text = some (Value.tokensOfMember m)) :
    ∃ w : WrittenMember, w.text = text ∧ w.member = m := by
  have hcut : all text = some ([.string m.1] ++ .colon :: m.2.tokens) := h
  obtain ⟨nameText, valueText, rfl, hname, hvalue⟩ := Token.exists_of_all hcut rfl
  exact ⟨⟨nameText, m.1, ⟨valueText, m.2, hvalue⟩, hname⟩, rfl, rfl⟩

end WrittenMember

def Written.ofValue (v : Value) : Written where
  text := v.tokens.flatMap Token.text
  value := v
  reads := v.all_tokens

def WrittenMember.ofValue (name : String) (v : Value) : WrittenMember where
  nameText := (Token.string (some name)).text
  name := some name
  content := .ofValue v
  reads := Token.all_text _

theorem Written.exists_of_all {text : List Char} {v : Value} (h : all text = some v.tokens) :
    ∃ w : Written, w.text = text ∧ w.value = v := ⟨⟨text, v, h⟩, rfl, rfl⟩

namespace Gaps

def none : Gaps := ⟨[], [], [], List.forall_mem_nil _, List.forall_mem_nil _, List.forall_mem_nil _⟩

def wrap (gaps : Gaps) (opening closing : Char) (inner : List Char) : List Char :=
  gaps.before ++ opening :: (gaps.within ++ inner ++ closing :: gaps.after)

variable {u u' : Token} {opening closing : Char} {ts : List Token}

theorem all_wrap (gaps : Gaps) (hu : u.mark? = some opening) (hu' : u'.mark? = some closing) {inner : List Char}
    (h : all inner = some ts) : all (gaps.wrap opening closing inner) = some (u :: (ts ++ [u'])) := by
  have hinner : all (gaps.within ++ inner) = some ts := by rw [Token.all_space_append gaps.blank_within, h]
  exact Token.all_append_mark hu (Token.all_of_space gaps.blank_before)
    (Token.all_append_mark hu' hinner (Token.all_of_space gaps.blank_after))

theorem exists_of_all {text : List Char} (hu : u.mark? = some opening) (hu' : u'.mark? = some closing)
    (h : all text = some (u :: (ts ++ [u']))) :
    ∃ (gaps : Gaps) (inner : List Char), gaps.wrap opening closing inner = text ∧ all inner = some ts ∧
      (ts = [] → inner = []) := by
  rw [← List.nil_append (u :: _)] at h
  obtain ⟨before, rest, rfl, hbefore, hrest⟩ := Token.exists_of_all h hu
  obtain ⟨inner, after, rfl, hinner, hafter⟩ := Token.exists_of_all hrest hu'
  have hblank := Token.all_eq_nil_iff.1 hbefore
  have hblank' := Token.all_eq_nil_iff.1 hafter
  by_cases hts : ts = []
  · subst hts
    have hwithin := Token.all_eq_nil_iff.1 hinner
    exact ⟨⟨before, inner, after, hblank, hwithin, hblank'⟩, [], by simp [wrap],
      Token.all_nil, fun _ => rfl⟩
  · exact ⟨⟨before, [], after, hblank, List.forall_mem_nil _, hblank'⟩, inner, rfl, hinner, fun h => absurd h hts⟩

end Gaps

section Parts

variable {α β : Type} {text : α → List Char} {part : α → β} {tokens : β → List Token}

theorem all_intercalate (h : ∀ a, all (text a) = some (tokens (part a))) (parts : List α) :
    all ([','].intercalate (parts.map text)) = some ([.comma].intercalate ((parts.map part).map tokens)) := by
  induction parts with
  | nil => exact Token.all_nil
  | cons a parts ih =>
    cases parts with
    | nil => simpa using h a
    | cons b parts =>
      simp only [List.map_cons, List.intercalate_cons_cons, List.append_assoc, List.singleton_append] at ih ⊢
      exact Token.all_append_mark rfl (h a) ih

theorem exists_of_all_intercalate (h : ∀ {t b}, all t = some (tokens b) → ∃ a, text a = t ∧ part a = b) {b : β}
    {bs : List β} {t : List Char} (ht : all t = some ([.comma].intercalate ((b :: bs).map tokens))) :
    ∃ parts : List α, [','].intercalate (parts.map text) = t ∧ parts.map part = b :: bs := by
  induction bs generalizing b t with
  | nil =>
    obtain ⟨a, rfl, rfl⟩ := h (by simpa using ht)
    exact ⟨[a], by simp, rfl⟩
  | cons c bs ih =>
    rw [List.map_cons, List.map_cons, List.intercalate_cons_cons, List.append_assoc, List.singleton_append] at ht
    obtain ⟨first, rest, rfl, hfirst, hrest⟩ := Token.exists_of_all ht rfl
    obtain ⟨a, rfl, rfl⟩ := h hfirst
    obtain ⟨parts, rfl, hparts⟩ := ih hrest
    refine ⟨a :: parts, ?_, by rw [List.map_cons, hparts]⟩
    cases parts with
    | nil => cases hparts
    | cons a' parts => simp

theorem exists_of_all_wrap (h : ∀ {t b}, all t = some (tokens b) → ∃ a, text a = t ∧ part a = b) {bs : List β}
    {t : List Char} {u u' : Token} {opening closing : Char} (hu : u.mark? = some opening)
    (hu' : u'.mark? = some closing) (ht : all t = some (u :: ([.comma].intercalate (bs.map tokens) ++ [u']))) :
    ∃ (gaps : Gaps) (parts : List α),
      gaps.wrap opening closing ([','].intercalate (parts.map text)) = t ∧ parts.map part = bs := by
  obtain ⟨gaps, inner, rfl, hinner, hnil⟩ := Gaps.exists_of_all hu hu' ht
  cases bs with
  | nil =>
    rw [hnil rfl]
    exact ⟨gaps, [], rfl, rfl⟩
  | cons b bs =>
    obtain ⟨parts, rfl, hparts⟩ := exists_of_all_intercalate h hinner
    exact ⟨gaps, parts, rfl, hparts⟩

end Parts

namespace Written

def ofParse {text : List Char} {v : Value} (h : Value.parse? (.ofList text) = some v) : Written where
  text := text
  value := v
  reads := by rwa [Value.parse?_eq_some_iff, String.toList_ofList] at h

def array (gaps : Gaps) (items : List Written) : Written where
  text := gaps.wrap '[' ']' ([','].intercalate (items.map text))
  value := .array (items.map value)
  reads := by
    rw [Value.tokens_array]
    exact gaps.all_wrap rfl rfl (all_intercalate reads items)

def object (gaps : Gaps) (members : List WrittenMember) : Written where
  text := gaps.wrap '{' '}' ([','].intercalate (members.map WrittenMember.text))
  value := .object (members.map WrittenMember.member)
  reads := by
    rw [Value.tokens_object]
    exact gaps.all_wrap rfl rfl (all_intercalate WrittenMember.all_text members)

theorem value_array (gaps : Gaps) (items : List Written) : (array gaps items).value = .array (items.map value) := rfl

theorem value_object (gaps : Gaps) (members : List WrittenMember) :
    (object gaps members).value = .object (members.map WrittenMember.member) := rfl

theorem exists_array (w : Written) {vs : List Value} (h : w.value = .array vs) :
    ∃ gaps items, w = array gaps items ∧ items.map value = vs := by
  have hreads := w.reads
  rw [h, Value.tokens_array] at hreads
  obtain ⟨gaps, items, htext, rfl⟩ := exists_of_all_wrap exists_of_all rfl rfl hreads
  exact ⟨gaps, items, Written.ext htext.symm h, rfl⟩

theorem exists_object (w : Written) {ms : List (Text × Value)} (h : w.value = .object ms) :
    ∃ gaps members, w = object gaps members ∧ members.map WrittenMember.member = ms := by
  have hreads := w.reads
  rw [h, Value.tokens_object] at hreads
  obtain ⟨gaps, members, htext, rfl⟩ := exists_of_all_wrap WrittenMember.exists_of_all rfl rfl hreads
  exact ⟨gaps, members, Written.ext htext.symm h, rfl⟩

end Written

end CollationLint.Json
