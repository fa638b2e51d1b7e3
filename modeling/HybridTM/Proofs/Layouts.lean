import HybridTM.Json.Parse
import HybridTM.Proofs.Spelling

/-!
# Layouts of values

A value has its tokens in one order only (`tokens`): its scalars and keys, with brackets, braces,
commas and colons between them. Both layouts that are written spell these tokens, the compact one
without blanks (`spells_compactChars`) and the other one with line breaks and indentation
(`spells_prettyChars`), if each token can be written (`Writable`).

From its tokens a value is put together again (`ofTokens?_tokens`). So a text that spells the tokens
of a value is read as this value, wherever its blanks are (`parse?_of_spelledBy`), and what is
written is read back (`parse?_compact`, `parse?_pretty`).
-/

set_option autoImplicit false

namespace HybridTM

namespace Json

/-! ## Tokens of values -/

mutual

/-- The tokens of a value. -/
def tokens : Json → List Token
  | .null => [.null]
  | .bool b => [.bool b]
  | .number n => [.number n]
  | .string text => [.string text]
  | .array items => .beginArray :: (itemTokens items ++ [.endArray])
  | .object members => .beginObject :: (memberTokens members ++ [.endObject])

/-- The tokens of the items of an array. -/
def itemTokens : List Json → List Token
  | [] => []
  | [v] => tokens v
  | v :: rest => tokens v ++ .comma :: itemTokens rest

/-- The tokens of the members of an object. -/
def memberTokens : List (Text × Json) → List Token
  | [] => []
  | [(key, v)] => .string key :: .colon :: tokens v
  | (key, v) :: rest => .string key :: .colon :: (tokens v ++ .comma :: memberTokens rest)

end

/-- Every token of a value can be written. -/
def Writable (v : Json) : Prop := ∀ t ∈ v.tokens, t.IsProper

/-- A text spells a value if it spells its tokens. -/
def SpelledBy (v : Json) (text : String) : Prop := Spells v.tokens text.toList

/-! ## What can be written -/

/-- A token between items is a comma. -/
theorem mem_itemTokens {items : List Json} {t : Token} (h : t ∈ itemTokens items) :
    t = .comma ∨ ∃ v ∈ items, t ∈ v.tokens := by
  induction items with
  | nil => cases h
  | cons v items ih =>
    rcases items with _ | ⟨w, items⟩
    · exact .inr ⟨v, List.mem_cons_self, h⟩
    · simp only [itemTokens, List.mem_append, List.mem_cons] at h
      rcases h with h | rfl | h
      · exact .inr ⟨v, List.mem_cons_self, h⟩
      · exact .inl rfl
      · rcases ih h with rfl | ⟨x, hx, hxt⟩
        · exact .inl rfl
        · exact .inr ⟨x, List.mem_cons_of_mem _ hx, hxt⟩

/-- A token between keys and values is a colon or a comma. -/
theorem mem_memberTokens {members : List (Text × Json)} {t : Token}
    (h : t ∈ memberTokens members) :
    t = .colon ∨ t = .comma ∨ ∃ m ∈ members, t = .string m.1 ∨ t ∈ m.2.tokens := by
  induction members with
  | nil => cases h
  | cons m members ih =>
    obtain ⟨key, v⟩ := m
    have own (h : t = .string key ∨ t ∈ v.tokens) :
        ∃ m ∈ (key, v) :: members, t = .string m.1 ∨ t ∈ m.2.tokens :=
      ⟨(key, v), List.mem_cons_self, h⟩
    rcases members with _ | ⟨m', members⟩
    · simp only [memberTokens, List.mem_cons] at h
      rcases h with rfl | rfl | h
      · exact .inr (.inr (own (.inl rfl)))
      · exact .inl rfl
      · exact .inr (.inr (own (.inr h)))
    · simp only [memberTokens, List.mem_append, List.mem_cons] at h
      rcases h with rfl | rfl | h | rfl | h
      · exact .inr (.inr (own (.inl rfl)))
      · exact .inl rfl
      · exact .inr (.inr (own (.inr h)))
      · exact .inr (.inl rfl)
      · rcases ih h with rfl | rfl | ⟨x, hx, hxt⟩
        · exact .inl rfl
        · exact .inr (.inl rfl)
        · exact .inr (.inr ⟨x, List.mem_cons_of_mem _ hx, hxt⟩)

theorem writable_null : Writable .null := by
  intro t ht
  obtain rfl := List.mem_singleton.1 ht
  trivial

theorem writable_bool (b : Bool) : Writable (.bool b) := by
  intro t ht
  obtain rfl := List.mem_singleton.1 ht
  trivial

theorem writable_number {n : Number} (h : n.IsProper) : Writable (.number n) := by
  intro t ht
  obtain rfl := List.mem_singleton.1 ht
  exact h

theorem writable_ofText (s : String) : Writable (ofText s) := by
  intro t ht
  obtain rfl := List.mem_singleton.1 ht
  rfl

/-- An array can be written if its items can. -/
theorem writable_array {items : List Json} (h : ∀ v ∈ items, v.Writable) :
    Writable (.array items) := by
  intro t ht
  simp only [tokens, List.mem_cons, List.mem_append, List.not_mem_nil, or_false] at ht
  rcases ht with rfl | ht | rfl
  · trivial
  · rcases mem_itemTokens ht with rfl | ⟨v, hv, ht⟩
    · trivial
    · exact h v hv t ht
  · trivial

/-- A record can be written if the values of its fields can. -/
theorem writable_record {members : List (String × Json)} (h : ∀ m ∈ members, m.2.Writable) :
    Writable (record members) := by
  intro t ht
  simp only [record, tokens, List.mem_cons, List.mem_append, List.not_mem_nil, or_false] at ht
  rcases ht with rfl | ht | rfl
  · trivial
  · rcases mem_memberTokens ht with rfl | rfl | ⟨m, hm, ht⟩
    · trivial
    · trivial
    · obtain ⟨field, hfield, rfl⟩ := List.mem_map.1 hm
      rcases ht with rfl | ht
      · rfl
      · exact h field hfield t ht
  · trivial

/-! ## Layouts -/

section Layouts

variable {ts : List Token} {cs : List Char}

theorem apart_comma : Apart (',' :: cs) := apart_cons (by decide)

theorem apart_endArray : Apart (']' :: cs) := apart_cons (by decide)

theorem apart_endObject : Apart ('\x7d' :: cs) := apart_cons (by decide)

theorem apart_newline (depth : Nat) : Apart (newline depth ++ cs) := apart_cons (by decide)

/-- A key and the colon after it. -/
theorem spells_key {key : Text} (h : (Token.string key).IsProper) (rest : Spells ts cs) :
    Spells (.string key :: .colon :: ts) (stringChars key ++ ':' :: cs) :=
  .token h trivial (.token (t := .colon) trivial trivial rest)

theorem spells_replicate (n : Nat) (rest : Spells ts cs) :
    Spells ts (List.replicate n ' ' ++ cs) := by
  induction n with
  | zero => exact rest
  | succ n ih => exact .blank (by decide) ih

/-- A new line is made of blanks. -/
theorem spells_newline (depth : Nat) (rest : Spells ts cs) : Spells ts (newline depth ++ cs) :=
  .blank (by decide) (spells_replicate _ rest)

end Layouts

mutual

/-- A value without blanks. -/
theorem spells_compactChars (v : Json) (h : v.Writable) {ts : List Token} {cs : List Char}
    (apart : Apart cs) (rest : Spells ts cs) : Spells (v.tokens ++ ts) (v.compactChars ++ cs) := by
  match v with
  | .null => exact .token trivial trivial rest
  | .bool b => exact .token (t := .bool b) trivial trivial rest
  | .number n => exact .token (t := .number n) (h _ List.mem_cons_self) apart rest
  | .string text => exact .token (t := .string text) (h _ List.mem_cons_self) trivial rest
  | .array items =>
    have hitems (t : Token) (ht : t ∈ itemTokens items) : t.IsProper :=
      h t (List.mem_cons_of_mem _ (List.mem_append_left _ ht))
    have inner := spells_compactItems items hitems apart_endArray
      (.token (t := .endArray) trivial trivial rest)
    have outer := Spells.token (t := .beginArray) trivial trivial inner
    simpa [tokens, compactChars, Token.chars] using outer
  | .object members =>
    have hmembers (t : Token) (ht : t ∈ memberTokens members) : t.IsProper :=
      h t (List.mem_cons_of_mem _ (List.mem_append_left _ ht))
    have inner := spells_compactMembers members hmembers apart_endObject
      (.token (t := .endObject) trivial trivial rest)
    have outer := Spells.token (t := .beginObject) trivial trivial inner
    simpa [tokens, compactChars, Token.chars] using outer

/-- The items of an array without blanks. -/
theorem spells_compactItems (items : List Json) (h : ∀ t ∈ itemTokens items, t.IsProper)
    {ts : List Token} {cs : List Char} (apart : Apart cs) (rest : Spells ts cs) :
    Spells (itemTokens items ++ ts) (compactItems items ++ cs) := by
  match items with
  | [] => exact rest
  | [v] => exact spells_compactChars v h apart rest
  | v :: w :: items =>
    simp only [itemTokens, List.mem_append, List.mem_cons] at h
    have tail := spells_compactItems (w :: items) (fun t ht => h t (.inr (.inr ht))) apart rest
    have head := spells_compactChars v (fun t ht => h t (.inl ht)) apart_comma
      (.token (t := .comma) trivial trivial tail)
    simpa [itemTokens, compactItems] using head

/-- The members of an object without blanks. -/
theorem spells_compactMembers (members : List (Text × Json))
    (h : ∀ t ∈ memberTokens members, t.IsProper) {ts : List Token} {cs : List Char}
    (apart : Apart cs) (rest : Spells ts cs) :
    Spells (memberTokens members ++ ts) (compactMembers members ++ cs) := by
  match members with
  | [] => exact rest
  | [(key, v)] =>
    simp only [memberTokens, List.mem_cons] at h
    have value := spells_compactChars v (fun t ht => h t (.inr (.inr ht))) apart rest
    simpa [memberTokens, compactMembers] using spells_key (h _ (.inl rfl)) value
  | (key, v) :: m :: members =>
    simp only [memberTokens, List.mem_append, List.mem_cons] at h
    have tail := spells_compactMembers (m :: members)
      (fun t ht => h t (.inr (.inr (.inr (.inr ht))))) apart rest
    have value := spells_compactChars v (fun t ht => h t (.inr (.inr (.inl ht)))) apart_comma
      (.token (t := .comma) trivial trivial tail)
    simpa [memberTokens, compactMembers] using spells_key (h _ (.inl rfl)) value

end

mutual

/-- A value over several lines. -/
theorem spells_prettyChars (depth : Nat) (v : Json) (h : v.Writable) {ts : List Token}
    {cs : List Char} (apart : Apart cs) (rest : Spells ts cs) :
    Spells (v.tokens ++ ts) (v.prettyChars depth ++ cs) := by
  match v with
  | .null => exact .token trivial trivial rest
  | .bool b => exact .token (t := .bool b) trivial trivial rest
  | .number n => exact .token (t := .number n) (h _ List.mem_cons_self) apart rest
  | .string text => exact .token (t := .string text) (h _ List.mem_cons_self) trivial rest
  | .array [] =>
    exact .token (t := .beginArray) trivial trivial
      (.token (t := .endArray) trivial trivial rest)
  | .array (v :: items) =>
    have hitems (t : Token) (ht : t ∈ itemTokens (v :: items)) : t.IsProper :=
      h t (List.mem_cons_of_mem _ (List.mem_append_left _ ht))
    have inner := spells_prettyItems (depth + 1) (v :: items) hitems (apart_newline depth)
      (spells_newline depth (.token (t := .endArray) trivial trivial rest))
    have outer := Spells.token (t := .beginArray) trivial trivial inner
    simpa [tokens, prettyChars, Token.chars] using outer
  | .object [] =>
    exact .token (t := .beginObject) trivial trivial
      (.token (t := .endObject) trivial trivial rest)
  | .object (m :: members) =>
    have hmembers (t : Token) (ht : t ∈ memberTokens (m :: members)) : t.IsProper :=
      h t (List.mem_cons_of_mem _ (List.mem_append_left _ ht))
    have inner := spells_prettyMembers (depth + 1) (m :: members) hmembers (apart_newline depth)
      (spells_newline depth (.token (t := .endObject) trivial trivial rest))
    have outer := Spells.token (t := .beginObject) trivial trivial inner
    simpa [tokens, prettyChars, Token.chars] using outer

/-- The items of an array, each on a line of its own. -/
theorem spells_prettyItems (depth : Nat) (items : List Json)
    (h : ∀ t ∈ itemTokens items, t.IsProper) {ts : List Token} {cs : List Char}
    (apart : Apart cs) (rest : Spells ts cs) :
    Spells (itemTokens items ++ ts) (prettyItems depth items ++ cs) := by
  match items with
  | [] => exact rest
  | [v] =>
    have value := spells_newline depth (spells_prettyChars depth v h apart rest)
    simpa [itemTokens, prettyItems] using value
  | v :: w :: items =>
    simp only [itemTokens, List.mem_append, List.mem_cons] at h
    have tail := spells_prettyItems depth (w :: items) (fun t ht => h t (.inr (.inr ht))) apart rest
    have head := spells_prettyChars depth v (fun t ht => h t (.inl ht)) apart_comma
      (.token (t := .comma) trivial trivial tail)
    simpa [itemTokens, prettyItems] using spells_newline depth head

/-- The members of an object, each on a line of its own. -/
theorem spells_prettyMembers (depth : Nat) (members : List (Text × Json))
    (h : ∀ t ∈ memberTokens members, t.IsProper) {ts : List Token} {cs : List Char}
    (apart : Apart cs) (rest : Spells ts cs) :
    Spells (memberTokens members ++ ts) (prettyMembers depth members ++ cs) := by
  have space {ts : List Token} {cs : List Char} (rest : Spells ts cs) : Spells ts (' ' :: cs) :=
    .blank (by decide) rest
  match members with
  | [] => exact rest
  | [(key, v)] =>
    simp only [memberTokens, List.mem_cons] at h
    have value := spells_prettyChars depth v (fun t ht => h t (.inr (.inr ht))) apart rest
    have member := spells_key (h _ (.inl rfl)) (space value)
    simpa [memberTokens, prettyMembers] using spells_newline depth member
  | (key, v) :: m :: members =>
    simp only [memberTokens, List.mem_append, List.mem_cons] at h
    have tail := spells_prettyMembers depth (m :: members)
      (fun t ht => h t (.inr (.inr (.inr (.inr ht))))) apart rest
    have value := spells_prettyChars depth v (fun t ht => h t (.inr (.inr (.inl ht)))) apart_comma
      (.token (t := .comma) trivial trivial tail)
    have member := spells_key (h _ (.inl rfl)) (space value)
    simpa [memberTokens, prettyMembers] using spells_newline depth member

end

/-- The compact text of a value spells it. -/
theorem spelledBy_compact {v : Json} (h : v.Writable) : v.SpelledBy v.compact := by
  have H := spells_compactChars v h apart_nil .nil
  rw [List.append_nil, List.append_nil] at H
  rwa [SpelledBy, compact, String.toList_ofList]

/-- So does its text over several lines. -/
theorem spelledBy_pretty {v : Json} (h : v.Writable) : v.SpelledBy v.pretty := by
  have H := spells_prettyChars 0 v h apart_nil .nil
  rw [List.append_nil, List.append_nil] at H
  rwa [SpelledBy, pretty, String.toList_ofList]

/-! ## Assembly -/

namespace Assembly

theorem run_cons (s : Assembly) (t : Token) (ts : List Token) :
    s.run (t :: ts) = (s.step t).bind fun s' => s'.run ts :=
  List.foldlM_cons

/-- A value may come next, as the first item of an array or elsewhere. -/
inductive Awaits : Expecting → List Frame → Prop
  /-- A value has to come. -/
  | value (frames : List Frame) : Awaits .value frames
  /-- A value comes, or the end of the array. -/
  | firstItem (items : List Json) (frames : List Frame) :
      Awaits .firstItem (.array items :: frames)

/-- The first token of a value is taken in the same way wherever one may come. -/
theorem Awaits.step_eq {expecting : Expecting} {frames : List Frame}
    (h : Awaits expecting frames) {t : Token} (ht : t ≠ .endArray) :
    step ⟨frames, expecting⟩ t = beginValue frames t := by
  cases h with
  | value => rfl
  | firstItem items frames => cases t <;> first | rfl | exact absurd rfl ht

end Assembly

open Assembly

mutual

/-- After the tokens of a value the value is complete. -/
theorem run_tokens (v : Json) {expecting : Expecting} {frames : List Frame}
    (h : Awaits expecting frames) (ts : List Token) :
    run ⟨frames, expecting⟩ (v.tokens ++ ts) = run (close frames v) ts := by
  match v with
  | .null | .bool b | .number n | .string text =>
    simp only [tokens, List.singleton_append, run_cons]
    rw [h.step_eq (by simp)]
    rfl
  | .array items =>
    simp only [tokens, List.cons_append, List.append_assoc, List.nil_append, run_cons]
    rw [h.step_eq (by simp)]
    show run ⟨.array [] :: frames, .firstItem⟩ _ = _
    by_cases hnil : items = []
    · subst hnil
      rfl
    · exact run_itemTokens items hnil (.firstItem [] frames) ts
  | .object members =>
    simp only [tokens, List.cons_append, List.append_assoc, List.nil_append, run_cons]
    rw [h.step_eq (by simp)]
    show run ⟨frames, .firstKey⟩ _ = _
    by_cases hnil : members = []
    · subst hnil
      rfl
    · -- A first key is taken as any other.
      have first : run ⟨frames, .firstKey⟩ (memberTokens members ++ .endObject :: ts) =
          run ⟨frames, .key []⟩ (memberTokens members ++ .endObject :: ts) := by
        rcases members with _ | ⟨m, _ | ⟨m', members⟩⟩
        · exact absurd rfl hnil
        · rfl
        · rfl
      rw [first]
      exact run_memberTokens members hnil [] frames ts

/-- After the tokens of items and the end of the array the array is complete. -/
theorem run_itemTokens (items : List Json) (ne : items ≠ []) {acc : List Json}
    {expecting : Expecting} {frames : List Frame} (h : Awaits expecting (.array acc :: frames))
    (ts : List Token) :
    run ⟨.array acc :: frames, expecting⟩ (itemTokens items ++ .endArray :: ts) =
      run (close frames (.array (acc.reverse ++ items))) ts := by
  match items with
  | [] => exact absurd rfl ne
  | [v] =>
    rw [itemTokens, run_tokens v h, run_cons]
    simp [close, step, afterValue]
  | v :: w :: items =>
    have tail := run_itemTokens (w :: items) (List.cons_ne_nil _ _)
      (.value (.array (v :: acc) :: frames)) ts
    simp only [itemTokens, List.append_assoc, List.cons_append]
    rw [run_tokens v h, run_cons]
    show run ⟨.array (v :: acc) :: frames, .value⟩ _ = _
    rw [tail, List.reverse_cons, List.append_assoc]
    rfl

/-- After the tokens of members and the end of the object the object is complete. -/
theorem run_memberTokens (members : List (Text × Json)) (ne : members ≠ [])
    (acc : List (Text × Json)) (frames : List Frame) (ts : List Token) :
    run ⟨frames, .key acc⟩ (memberTokens members ++ .endObject :: ts) =
      run (close frames (.object (acc.reverse ++ members))) ts := by
  have key (key : Text) (ts : List Token) :
      run ⟨frames, .key acc⟩ (.string key :: .colon :: ts) =
        run ⟨.object acc key :: frames, .value⟩ ts := rfl
  match members with
  | [] => exact absurd rfl ne
  | [(k, v)] =>
    rw [memberTokens, List.cons_append, List.cons_append, key, run_tokens v (.value _), run_cons]
    simp [close, step, afterValue]
  | (k, v) :: m :: members =>
    have tail := run_memberTokens (m :: members) (List.cons_ne_nil _ _) ((k, v) :: acc) frames ts
    simp only [memberTokens, List.append_assoc, List.cons_append]
    rw [key, run_tokens v (.value _), run_cons]
    show run ⟨frames, .key ((k, v) :: acc)⟩ _ = _
    rw [tail, List.reverse_cons, List.append_assoc]
    rfl

end

/-- The tokens of a value make up this value. -/
theorem ofTokens?_tokens (v : Json) : ofTokens? v.tokens = some v := by
  have H := run_tokens v (.value []) []
  rw [List.append_nil] at H
  have hrun : Assembly.start.run v.tokens = some (close [] v) := H
  rw [ofTokens?, hrun]
  rfl

/-! ## Reading -/

/-- A text that spells a value is read as this value. -/
theorem parse?_of_spelledBy {v : Json} {text : String} (h : v.SpelledBy text) :
    parse? text = some v := by
  have htokens : tokens? text.toList = some v.tokens := tokens?_of_spells h
  rw [parse?, htokens]
  exact ofTokens?_tokens v

/-- What is written compactly is read back. -/
theorem parse?_compact {v : Json} (h : v.Writable) : parse? v.compact = some v :=
  parse?_of_spelledBy (spelledBy_compact h)

/-- So is what is written over several lines. -/
theorem parse?_pretty {v : Json} (h : v.Writable) : parse? v.pretty = some v :=
  parse?_of_spelledBy (spelledBy_pretty h)

end Json

end HybridTM
