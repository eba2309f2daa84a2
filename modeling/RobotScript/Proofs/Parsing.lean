import RobotScript.Proofs.Scanning
/-!
A document that is written reads back. The text and the document meet in the middle: writing lays
out the tokens of a document, and the reader builds the document from them.
-/
namespace RobotScript.Json

variable {j : Json} {rest : Bytes} {level : Nat}

/-! ### The tokens of a document -/

mutual

def tokens : Json → List Token
  | .null => [.null]
  | .bool b => [.bool b]
  | .number numeral => [.number numeral]
  | .string text => [.string text]
  | .array [] => [.arrayStart, .arrayEnd]
  | .array (item :: items) => .arrayStart :: (tokens item ++ itemTokens items ++ [.arrayEnd])
  | .object [] => [.objectStart, .objectEnd]
  | .object ((key, value) :: members) =>
    .objectStart :: .string key :: .colon ::
      (tokens value ++ memberTokens members ++ [.objectEnd])

def itemTokens : List Json → List Token
  | [] => []
  | item :: items => .comma :: (tokens item ++ itemTokens items)

def memberTokens : List (Option String × Json) → List Token
  | [] => []
  | (key, value) :: members =>
    .comma :: .string key :: .colon :: (tokens value ++ memberTokens members)

end

/-! ### Reading -/

theorem run_firstItem (j : Json) (stack : List Frame) (more : List Token) :
    run .firstItem stack (tokens j ++ more) = run .value (.array [] :: stack) (tokens j ++ more) := by
  cases j with
  | null | bool | number | string => rfl
  | array items => cases items <;> rfl
  | object members => cases members <;> rfl

mutual

theorem run_tokens : ∀ (j : Json) (stack : List Frame) (more : List Token),
    run .value stack (tokens j ++ more) = run (.next j) stack more
  | .null, _, _ | .bool _, _, _ | .number _, _, _ | .string _, _, _ => rfl
  | .array [], _, _ | .object [], _, _ => rfl
  | .array (item :: items), stack, more => by
    have opened : run .value stack (tokens (.array (item :: items)) ++ more) =
        run .firstItem stack (tokens item ++ (itemTokens items ++ .arrayEnd :: more)) := by
      simp only [tokens, List.cons_append, List.append_assoc, List.nil_append]
      rfl
    rw [opened, run_firstItem, run_tokens item, run_itemTokens items item []]
    rfl
  | .object ((key, value) :: members), stack, more => by
    have opened : run .value stack (tokens (.object ((key, value) :: members)) ++ more) =
        run .value (.object [] key :: stack)
          (tokens value ++ (memberTokens members ++ .objectEnd :: more)) := by
      simp only [tokens, List.cons_append, List.append_assoc, List.nil_append]
      rfl
    rw [opened, run_tokens value, run_memberTokens members key value []]
    rfl

theorem run_itemTokens : ∀ (items : List Json) (item : Json) (done : List Json)
    (stack : List Frame) (more : List Token),
    run (.next item) (.array done :: stack) (itemTokens items ++ .arrayEnd :: more) =
      run (.next (.array (done.reverse ++ item :: items))) stack more
  | [], item, done, stack, more => by
    have closed : done.reverse ++ [item] = (item :: done).reverse := by simp
    rw [closed]
    rfl
  | second :: items, item, done, stack, more => by
    have passed : run (.next item) (.array done :: stack)
        (itemTokens (second :: items) ++ .arrayEnd :: more) =
        run .value (.array (item :: done) :: stack)
          (tokens second ++ (itemTokens items ++ .arrayEnd :: more)) := by
      simp only [itemTokens, List.cons_append, List.append_assoc]
      rfl
    rw [passed, run_tokens second, run_itemTokens items second (item :: done)]
    simp

theorem run_memberTokens : ∀ (members : List (Option String × Json)) (key : Option String)
    (value : Json) (done : List (Option String × Json)) (stack : List Frame) (more : List Token),
    run (.next value) (.object done key :: stack) (memberTokens members ++ .objectEnd :: more) =
      run (.next (.object (done.reverse ++ (key, value) :: members))) stack more
  | [], key, value, done, stack, more => by
    have closed : done.reverse ++ [(key, value)] = ((key, value) :: done).reverse := by simp
    rw [closed]
    rfl
  | (key', second) :: members, key, value, done, stack, more => by
    have passed : run (.next value) (.object done key :: stack)
        (memberTokens ((key', second) :: members) ++ .objectEnd :: more) =
        run .value (.object ((key, value) :: done) key' :: stack)
          (tokens second ++ (memberTokens members ++ .objectEnd :: more)) := by
      simp only [memberTokens, List.cons_append, List.append_assoc]
      rfl
    rw [passed, run_tokens second, run_memberTokens members key' second ((key, value) :: done)]
    simp

end

/-! ### Writing -/

/-- Whether what is written of a document says all of it: its numbers are integers, and its
strings and keys are texts. -/
inductive Plain : Json → Prop where
  | null : Plain .null
  | bool (b : Bool) : Plain (.bool b)
  | number {numeral : List Char} (z : Int) : numeral = Chars.decimalInt z → Plain (.number numeral)
  | string (s : String) : Plain (.string (some s))
  | array {items : List Json} : (∀ item ∈ items, Plain item) → Plain (.array items)
  | object {members : List (Option String × Json)} :
    (∀ m ∈ members, m.1.isSome) → (∀ m ∈ members, Plain m.2) → Plain (.object members)

theorem ends_newLine (level : Nat) (rest : Bytes) :
    Token.Ends (Chars.encode (newLine level) ++ rest) := by
  intro b first
  cases first
  decide

theorem ends_writeItems (items : List Json) (ends : Token.Ends rest) :
    Token.Ends (Chars.encode (writeItems level items) ++ rest) := by
  cases items with
  | nil => exact ends
  | cons item items =>
    intro b first
    cases first
    decide

theorem ends_writeMembers (members : List (Option String × Json)) (ends : Token.Ends rest) :
    Token.Ends (Chars.encode (writeMembers level members) ++ rest) := by
  cases members with
  | nil => exact ends
  | cons m members =>
    intro b first
    cases first
    decide

theorem scan?_key (key : String) (rest : Bytes) :
    Token.scan? (Chars.encode (writeString key.toList ++ [':', ' ']) ++ rest) =
      (Token.scan? rest).map fun ts => .string (some key) :: .colon :: ts := by
  rw [Chars.encode_append, List.append_assoc, Token.scan?_string, String.ofList_toList]
  have colon : Token.scan? (Chars.encode [':', ' '] ++ rest) =
      (Token.scan? rest).map (.colon :: ·) :=
    (Token.scan?_mark rfl rfl (0x20 :: rest)).trans (by rw [Token.scan?_space rfl])
  rw [colon, Option.map_map]
  rfl

mutual

theorem scan?_write : ∀ (j : Json), Plain j → ∀ (level : Nat) (rest : Bytes), Token.Ends rest →
    Token.scan? (Chars.encode (write level j) ++ rest) =
      (Token.scan? rest).map (tokens j ++ ·)
  | .null, _, _, rest, _ => Token.scan?_word (.head _) rest
  | .bool true, _, _, rest, _ => Token.scan?_word (.tail _ (.head _)) rest
  | .bool false, _, _, rest, _ => Token.scan?_word (.tail _ (.tail _ (.head _))) rest
  | .number numeral, plain, _, rest, ends => by
    obtain ⟨z, rfl⟩ : ∃ z, numeral = Chars.decimalInt z := by
      cases plain
      exact ⟨_, ‹_›⟩
    exact Token.scan?_number z ends
  | .string text, plain, _, rest, _ => by
    obtain ⟨s, rfl⟩ : ∃ s, text = some s := by
      cases plain
      exact ⟨_, rfl⟩
    have written := Token.scan?_string s.toList rest
    rwa [String.ofList_toList] at written
  | .array [], _, level, rest, _ => by
    have bytes : Chars.encode (write level (.array [])) ++ rest = 0x5B :: 0x5D :: rest := rfl
    rw [bytes, Token.scan?_mark rfl rfl, Token.scan?_mark rfl rfl, Option.map_map]
    rfl
  | .array (item :: items), plain, level, rest, _ => by
    obtain ⟨first, others⟩ : Plain item ∧ ∀ item ∈ items, Plain item := by
      cases plain with
      | array all => exact List.forall_mem_cons.mp all
    have bytes : Chars.encode (write level (.array (item :: items))) ++ rest =
        0x5B :: (Chars.encode (newLine (level + 1)) ++
          (Chars.encode (write (level + 1) item) ++
            (Chars.encode (writeItems (level + 1) items) ++
              (Chars.encode (newLine level) ++ 0x5D :: rest)))) := by
      simp only [write, Chars.encode_append, List.append_assoc]
      rfl
    have closed := ends_newLine level (0x5D :: rest)
    rw [bytes, Token.scan?_mark rfl rfl, Token.scan?_newLine,
      scan?_write item first (level + 1) _ (ends_writeItems items closed),
      scan?_writeItems items others (level + 1) _ closed, Token.scan?_newLine,
      Token.scan?_mark rfl rfl]
    simp [tokens, Function.comp_def]
  | .object [], _, level, rest, _ => by
    have bytes : Chars.encode (write level (.object [])) ++ rest = 0x7B :: 0x7D :: rest := rfl
    rw [bytes, Token.scan?_mark rfl rfl, Token.scan?_mark rfl rfl, Option.map_map]
    rfl
  | .object ((none, _) :: _), plain, _, _, _ => by
    cases plain with
    | object keys _ => simpa using keys _ List.mem_cons_self
  | .object ((some key, value) :: members), plain, level, rest, _ => by
    obtain ⟨keys, first, others⟩ : (∀ m ∈ members, m.1.isSome) ∧ Plain value ∧
        ∀ m ∈ members, Plain m.2 := by
      cases plain with
      | object keys all =>
        exact ⟨(List.forall_mem_cons.mp keys).2, List.forall_mem_cons.mp all⟩
    have bytes : Chars.encode (write level (.object ((some key, value) :: members))) ++ rest =
        0x7B :: (Chars.encode (newLine (level + 1)) ++
          (Chars.encode (writeString key.toList ++ [':', ' ']) ++
            (Chars.encode (write (level + 1) value) ++
              (Chars.encode (writeMembers (level + 1) members) ++
                (Chars.encode (newLine level) ++ 0x7D :: rest))))) := by
      simp only [write, Chars.encode_append, List.append_assoc]
      rfl
    have closed := ends_newLine level (0x7D :: rest)
    rw [bytes, Token.scan?_mark rfl rfl, Token.scan?_newLine, scan?_key,
      scan?_write value first (level + 1) _ (ends_writeMembers members closed),
      scan?_writeMembers members keys others (level + 1) _ closed, Token.scan?_newLine,
      Token.scan?_mark rfl rfl]
    simp [tokens, Function.comp_def]

theorem scan?_writeItems : ∀ (items : List Json), (∀ item ∈ items, Plain item) →
    ∀ (level : Nat) (rest : Bytes), Token.Ends rest →
    Token.scan? (Chars.encode (writeItems level items) ++ rest) =
      (Token.scan? rest).map (itemTokens items ++ ·)
  | [], _, _, _, _ => by simp [writeItems, itemTokens, Chars.encode]
  | item :: items, plain, level, rest, ends => by
    obtain ⟨first, others⟩ := List.forall_mem_cons.mp plain
    have bytes : Chars.encode (writeItems level (item :: items)) ++ rest =
        0x2C :: (Chars.encode (newLine level) ++ (Chars.encode (write level item) ++
          (Chars.encode (writeItems level items) ++ rest))) := by
      simp only [writeItems, Chars.encode_append, List.append_assoc]
      rfl
    rw [bytes, Token.scan?_mark rfl rfl, Token.scan?_newLine,
      scan?_write item first level _ (ends_writeItems items ends),
      scan?_writeItems items others level rest ends]
    simp [itemTokens, Function.comp_def]

theorem scan?_writeMembers : ∀ (members : List (Option String × Json)),
    (∀ m ∈ members, m.1.isSome) → (∀ m ∈ members, Plain m.2) →
    ∀ (level : Nat) (rest : Bytes), Token.Ends rest →
    Token.scan? (Chars.encode (writeMembers level members) ++ rest) =
      (Token.scan? rest).map (memberTokens members ++ ·)
  | [], _, _, _, _, _ => by simp [writeMembers, memberTokens, Chars.encode]
  | (none, value) :: members, keys, _, _, _, _ => absurd (keys _ List.mem_cons_self) (by simp)
  | (some key, value) :: members, keys, plain, level, rest, ends => by
    obtain ⟨first, others⟩ := List.forall_mem_cons.mp plain
    have bytes : Chars.encode (writeMembers level ((some key, value) :: members)) ++ rest =
        0x2C :: (Chars.encode (newLine level) ++
          (Chars.encode (writeString key.toList ++ [':', ' ']) ++
            (Chars.encode (write level value) ++
              (Chars.encode (writeMembers level members) ++ rest)))) := by
      simp only [writeMembers, Chars.encode_append, List.append_assoc]
      rfl
    rw [bytes, Token.scan?_mark rfl rfl, Token.scan?_newLine, scan?_key,
      scan?_write value first level _ (ends_writeMembers members ends),
      scan?_writeMembers members (List.forall_mem_cons.mp keys).2 others level rest ends]
    simp [memberTokens, Function.comp_def]

end

/-- A document that is written reads back. -/
theorem parse?_pretty (plain : Plain j) : parse? (Text.bytes j.pretty) = some j := by
  have bytes : Text.bytes j.pretty = Chars.encode (write 0 j) ++ [] := by
    simp [Text.bytes, pretty]
  have ends : Token.Ends [] := by
    intro b first
    contradiction
  have scanned : Token.scan? (Text.bytes j.pretty) = some (tokens j ++ []) := by
    rw [bytes, scan?_write j plain 0 [] ends, Token.scan?, Option.map_some]
  rw [parse?, scanned]
  exact run_tokens j [] []

end RobotScript.Json
