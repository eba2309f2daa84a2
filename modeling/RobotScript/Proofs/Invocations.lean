import RobotScript.Macro.Invocation
import RobotScript.Proofs.Splitting
/-!
How invocations of macros are written. The grammar allows blanks around every part, and what it allows
is all that there is: each text is a written form of the invocation that is read from it. The reader
looks for four marks, one after the other, so a part may hold those marks that are not looked for where
it stands.
-/
namespace RobotScript.Macro

open Chars (AllBlank Neat Padded)

/-! ### Arguments -/

namespace Argument

structure IsPart (cs : List Char) : Prop where
  neat : Neat cs
  comma : ',' ∉ cs
  close : ')' ∉ cs

instance {cs : List Char} : Decidable (IsPart cs) :=
  decidable_of_iff (Neat cs ∧ ',' ∉ cs ∧ ')' ∉ cs)
    ⟨fun ⟨neat, comma, close⟩ => ⟨neat, comma, close⟩,
      fun isPart => ⟨isPart.neat, isPart.comma, isPart.close⟩⟩

/-- Whether an argument can be told from what it is written as. Only a value behind a key may hold an
equals sign. -/
def Proper : Argument → Prop
  | ⟨none, value⟩ => IsPart value.toList ∧ '=' ∉ value.toList
  | ⟨some key, value⟩ => IsPart value.toList ∧ IsPart key.toList ∧ '=' ∉ key.toList

instance : ∀ a : Argument, Decidable a.Proper
  | ⟨none, _⟩ => inferInstanceAs (Decidable (_ ∧ _))
  | ⟨some _, _⟩ => inferInstanceAs (Decidable (_ ∧ _ ∧ _))

/-- How an argument is written. -/
inductive Written : Argument → List Char → Prop
  | positional {value : String} {cs : List Char} :
    Padded value.toList cs → Written ⟨none, value⟩ cs
  | keyed {key value : String} {left right : List Char} :
    Padded key.toList left → Padded value.toList right →
    Written ⟨some key, value⟩ (left ++ '=' :: right)

def spelling : Argument → List Char
  | ⟨none, value⟩ => value.toList
  | ⟨some key, value⟩ => key.toList ++ '=' :: value.toList

variable {a : Argument} {cs before : List Char} {c : Char}

theorem written_spelling (a : Argument) (blank : AllBlank before) :
    a.Written (before ++ a.spelling) := by
  have padded : ∀ cs, Padded cs (before ++ cs) :=
    fun cs => ⟨before, [], blank, by simp [AllBlank], by simp⟩
  rcases a with ⟨- | key, value⟩
  · exact .positional (padded _)
  · rw [spelling, ← List.append_assoc]
    exact .keyed (padded _) (Chars.padded_self _)

theorem Written.not_mem (written : a.Written cs) (proper : a.Proper) (mark : c = ',' ∨ c = ')') :
    c ∉ cs := by
  have solid : Chars.isBlank c = false ∧ c ≠ '=' := by rcases mark with rfl | rfl <;> decide
  have free : ∀ {part}, IsPart part → c ∉ part := by
    intro part isPart
    rcases mark with rfl | rfl
    · exact isPart.comma
    · exact isPart.close
  cases written with
  | positional padded => exact padded.not_mem solid.1 (free proper.1)
  | keyed left right =>
    rw [List.mem_append, List.mem_cons, not_or, not_or]
    exact ⟨left.not_mem solid.1 (free proper.2.1), solid.2, right.not_mem solid.1 (free proper.1)⟩

theorem Written.parse_eq (written : a.Written cs) (proper : a.Proper) : parse cs = a := by
  cases written with
  | positional padded =>
    have unkeyed : '=' ∉ cs := padded.not_mem (by decide) proper.2
    rw [parse, Chars.splitOnce_eq_none_iff.mpr unkeyed]
    dsimp only
    rw [padded.trim_eq proper.1.neat, String.ofList_toList]
  | keyed left right =>
    have free := left.not_mem (by decide) proper.2.2
    rw [parse, Chars.splitOnce_append_cons free]
    dsimp only
    rw [left.trim_eq proper.2.1.neat, right.trim_eq proper.1.neat, String.ofList_toList,
      String.ofList_toList]

theorem written_parse (cs : List Char) : (parse cs).Written cs := by
  unfold parse
  split
  next key value split =>
    rw [(Chars.splitOnce_eq_some_iff.mp split).2]
    exact .keyed (Chars.padded_ofList_trim key) (Chars.padded_ofList_trim value)
  next => exact .positional (Chars.padded_ofList_trim cs)

theorem proper_parse (comma : ',' ∉ cs) (close : ')' ∉ cs) : (parse cs).Proper := by
  have isPart : ∀ part, part ⊆ cs → IsPart (String.ofList (Chars.trim part)).toList := by
    intro part inside
    rw [String.toList_ofList]
    exact ⟨Chars.neat_trim part, fun mem => comma (inside (Chars.mem_of_mem_trim mem)),
      fun mem => close (inside (Chars.mem_of_mem_trim mem))⟩
  have free : ∀ part, '=' ∉ part → '=' ∉ (String.ofList (Chars.trim part)).toList := by
    intro part unkeyed
    rw [String.toList_ofList]
    exact fun mem => unkeyed (Chars.mem_of_mem_trim mem)
  unfold parse
  split
  next key value split =>
    rcases Chars.splitOnce_eq_some_iff.mp split with ⟨unkeyed, rfl⟩
    exact ⟨isPart value (by simp), isPart key (by simp), free key unkeyed⟩
  next split =>
    exact ⟨isPart cs (List.Subset.refl cs), free cs (Chars.splitOnce_eq_none_iff.mp split)⟩

inductive ListWritten : List Argument → List Char → Prop
  | nil {body : List Char} : AllBlank body → ListWritten [] body
  | single {a : Argument} {cs : List Char} : a.Written cs → ListWritten [a] cs
  | cons {a b : Argument} {args : List Argument} {cs body : List Char} :
    a.Written cs → ListWritten (b :: args) body → ListWritten (a :: b :: args) (cs ++ ',' :: body)

variable {args : List Argument} {body closing : List Char}

theorem ListWritten.close_not_mem (written : ListWritten args body)
    (proper : ∀ a ∈ args, a.Proper) : ')' ∉ body := by
  induction written with
  | nil blank => exact blank.not_mem (by decide)
  | single first => exact first.not_mem (proper _ List.mem_cons_self) (.inr rfl)
  | cons first rest ih =>
    rw [List.forall_mem_cons] at proper
    rw [List.mem_append, List.mem_cons, not_or, not_or]
    exact ⟨first.not_mem proper.1 (.inr rfl), by decide, ih proper.2⟩

theorem ListWritten.map_parse (written : ListWritten args body) (proper : ∀ a ∈ args, a.Proper)
    (nonempty : args ≠ []) : (Chars.splitOn ',' body).map parse = args := by
  have whole : ∀ {a : Argument} {cs}, a.Written cs → a.Proper →
      (Chars.splitOn ',' cs).map parse = [a] := by
    intro a cs written proper
    have one : Chars.splitOn ',' cs = [cs] := Chars.splitWhen_whole fun c mem => by
      simpa using ne_of_mem_of_not_mem mem (written.not_mem proper (.inl rfl))
    rw [one, List.map_singleton, written.parse_eq proper]
  induction written with
  | nil => contradiction
  | single first => exact whole first (proper _ List.mem_cons_self)
  | cons first rest ih =>
    rw [List.forall_mem_cons] at proper
    rw [Chars.splitOn, Chars.splitWhen_append_cons (by decide), List.map_append]
    exact congrArg₂ (· ++ ·) (whole first proper.1) (ih proper.2 (List.cons_ne_nil _ _))

theorem ListWritten.allBlank_iff (written : ListWritten args body)
    (proper : ∀ a ∈ args, a.Proper) : AllBlank body ↔ args = [] ∨ args = [⟨none, ""⟩] := by
  cases written with
  | nil blank => exact iff_of_true blank (.inl rfl)
  | single first =>
    cases first with
    | @positional value _ padded =>
      have neat := (proper _ List.mem_cons_self).1.neat
      rw [← Chars.trim_eq_nil_iff, padded.trim_eq neat, String.toList_eq_nil_iff]
      simp
    | keyed => exact iff_of_false (fun blank => blank.not_mem (c := '=') rfl (by simp)) (by simp)
  | cons => exact iff_of_false (fun blank => blank.not_mem (c := ',') rfl (by simp)) (by simp)

theorem listWritten_spellings (args : List Argument) {gap : List Char} (leading : AllBlank before)
    (blank : AllBlank gap) :
    ListWritten args (before ++ (',' :: gap).intercalate (args.map spelling)) := by
  induction args generalizing before with
  | nil =>
    rw [List.map_nil, List.intercalate_nil, List.append_nil]
    exact .nil leading
  | cons a args ih =>
    cases args with
    | nil =>
      rw [List.map_singleton, List.intercalate_singleton]
      exact .single (written_spelling a leading)
    | cons b args =>
      simpa [List.intercalate_cons_cons] using ListWritten.cons (written_spelling a leading) (ih blank)

theorem ListWritten.parseAll_eq (written : ListWritten args body) (proper : ∀ a ∈ args, a.Proper)
    (closes : ∀ c, closing.head? = some c → c = ')') :
    parseAll (body ++ closing) = if args = [⟨none, ""⟩] then [] else args := by
  have unclosed : ∀ c ∈ body, (c != ')') = true := fun c mem => by
    simpa using ne_of_mem_of_not_mem mem (written.close_not_mem proper)
  have taken : (body ++ closing).takeWhile (· != ')') = body := by
    rw [List.takeWhile_append_of_pos unclosed]
    cases closing with
    | nil => simp
    | cons c closing => simp [closes c rfl]
  have empty : (Chars.trim body).isEmpty = true ↔ args = [] ∨ args = [⟨none, ""⟩] := by
    rw [List.isEmpty_iff, Chars.trim_eq_nil_iff, written.allBlank_iff proper]
  unfold parseAll
  dsimp only
  rw [taken]
  split
  next blank => rcases empty.mp blank with rfl | rfl <;> rfl
  next solid =>
    rw [empty, not_or] at solid
    rw [if_neg solid.2]
    exact written.map_parse proper solid.1

theorem listWritten_map_parse {pieces : List (List Char)} (nonempty : pieces ≠ []) :
    ListWritten (pieces.map parse) ([','].intercalate pieces) := by
  induction pieces with
  | nil => contradiction
  | cons first rest ih =>
    cases rest with
    | nil => simpa using ListWritten.single (written_parse first)
    | cons second rest =>
      rw [List.intercalate_cons_cons, List.append_assoc]
      exact .cons (written_parse first) (ih (List.cons_ne_nil _ _))

/-- Every text is a written form of the arguments that are read from it, and of what ends them. -/
theorem exists_listWritten (cs : List Char) : ∃ body closing, cs = body ++ closing ∧
    (∀ c, closing.head? = some c → c = ')') ∧ ListWritten (parseAll cs) body := by
  refine ⟨cs.takeWhile (· != ')'), cs.dropWhile (· != ')'), ?_, ?_, ?_⟩
  · exact List.takeWhile_append_dropWhile.symm
  · intro c head
    simpa [head] using List.head?_dropWhile_not (· != ')') cs
  · unfold parseAll
    dsimp only
    generalize cs.takeWhile (· != ')') = body
    split
    next blank =>
      rw [List.isEmpty_iff, Chars.trim_eq_nil_iff] at blank
      exact .nil blank
    next =>
      have written := listWritten_map_parse (Chars.splitWhen_ne_nil (· == ',') body)
      rwa [← Chars.splitOn, Chars.intercalate_splitOn] at written

theorem proper_of_mem_parseAll (mem : a ∈ parseAll cs) : a.Proper := by
  unfold parseAll at mem
  dsimp only at mem
  split at mem
  · contradiction
  · rcases List.mem_map.mp mem with ⟨piece, inside, rfl⟩
    have free := Chars.mem_of_mem_splitWhen inside
    apply proper_parse
    · intro comma
      simpa using (free _ comma).2
    · intro close
      simpa using List.mem_takeWhile_imp (free _ close).1

theorem parseAll_ne_empty (cs : List Char) : parseAll cs ≠ [⟨none, ""⟩] := by
  rcases exists_listWritten cs with ⟨body, closing, rfl, closes, written⟩
  intro one
  have again := written.parseAll_eq (fun a mem => proper_of_mem_parseAll mem) closes
  rw [if_pos one, one] at again
  contradiction

end Argument

namespace Invocation

open Argument (ListWritten)

/-- Whether an invocation can be told from what it is written as. -/
structure Proper (i : Invocation) : Prop where
  neat : Neat i.name.toList
  opening : '(' ∉ i.name.toList
  comma : ',' ∉ i.name.toList
  args : ∀ a ∈ i.args, a.Proper

/-- How an invocation is written: as a name alone, or with arguments behind a parenthesis or a comma.
A closing parenthesis ends them, and what stands behind it does not matter; it may be left out. -/
inductive Written : Invocation → List Char → Prop
  | bare {name : String} {cs : List Char} : Padded name.toList cs → Written ⟨name, []⟩ cs
  | listed {name : String} {args : List Argument} {cs body closing : List Char} {opener : Char} :
    Padded name.toList cs → endsName opener = true → ListWritten args body →
    (∀ c, closing.head? = some c → c = ')') →
    Written ⟨name, args⟩ (cs ++ opener :: (body ++ closing))

def spelling (i : Invocation) : List Char :=
  i.name.toList ++ '(' :: ([',', ' '].intercalate (i.args.map (·.spelling)) ++ [')'])

def commaSpelling (i : Invocation) : List Char :=
  [','].intercalate (i.name.toList :: i.args.map (·.spelling))

variable {i : Invocation} {cs : List Char}

theorem written_spelling (i : Invocation) (rest : List Char) : i.Written (i.spelling ++ rest) := by
  have list : ListWritten i.args ([] ++ [',', ' '].intercalate (i.args.map (·.spelling))) :=
    Argument.listWritten_spellings i.args (by simp [AllBlank]) (by decide)
  have closes : ∀ c, (')' :: rest).head? = some c → c = ')' := by simp
  have opens : endsName '(' = true := rfl
  simpa [spelling] using Written.listed (Chars.padded_self i.name.toList) opens list closes

theorem written_commaSpelling (i : Invocation) : i.Written i.commaSpelling := by
  rcases i with ⟨name, - | ⟨a, args⟩⟩
  · simpa [commaSpelling] using Written.bare (Chars.padded_self name.toList)
  · have list : ListWritten (a :: args) ([] ++ [','].intercalate ((a :: args).map (·.spelling))) :=
      Argument.listWritten_spellings (a :: args) (by simp [AllBlank]) (by simp [AllBlank])
    have closes : ∀ c, ([] : List Char).head? = some c → c = ')' := by simp
    have opens : endsName ',' = true := rfl
    simpa [commaSpelling, List.intercalate_cons_cons] using
      Written.listed (Chars.padded_self name.toList) opens list closes

theorem Proper.unended (proper : i.Proper) (padded : Padded i.name.toList cs) :
    ∀ c ∈ cs, (! endsName c) = true := by
  intro c mem
  have opening : c ≠ '(' := ne_of_mem_of_not_mem mem (padded.not_mem rfl proper.opening)
  have comma : c ≠ ',' := ne_of_mem_of_not_mem mem (padded.not_mem rfl proper.comma)
  simp [endsName, opening, comma]

theorem Written.parse_eq (written : i.Written cs) (proper : i.Proper) :
    parse cs = if i.args = [⟨none, ""⟩] then ⟨i.name, []⟩ else i := by
  cases written with
  | @bare name _ padded =>
    have passes := proper.unended padded
    unfold parse
    rw [List.takeWhile_eq_self_iff.mpr passes, List.dropWhile_eq_nil_iff.mpr passes,
      padded.trim_eq proper.neat, String.ofList_toList]
    rfl
  | @listed name args cs body closing opener padded opens list closes =>
    have passes := proper.unended padded
    unfold parse
    rw [List.takeWhile_append_of_pos passes, List.dropWhile_append_of_pos passes]
    simp only [List.takeWhile_cons, List.dropWhile_cons, opens, Bool.not_true, Bool.false_eq_true,
      if_false, List.append_nil, List.drop_succ_cons, List.drop_zero]
    rw [padded.trim_eq proper.neat, String.ofList_toList, list.parseAll_eq proper.args closes]
    split <;> rfl

theorem written_parse (cs : List Char) : (parse cs).Written cs := by
  have padded := Chars.padded_ofList_trim (cs.takeWhile (! endsName ·))
  have parts := List.takeWhile_append_dropWhile (p := (! endsName ·)) (l := cs)
  unfold parse
  cases behind : cs.dropWhile (! endsName ·) with
  | nil =>
    rw [behind, List.append_nil] at parts
    rw [parts] at padded ⊢
    exact .bare padded
  | cons opener rest =>
    have opens : endsName opener = true := by
      simpa [behind] using List.head?_dropWhile_not (! endsName ·) cs
    rcases Argument.exists_listWritten rest with ⟨body, closing, split, closes, list⟩
    have written := Written.listed padded opens list closes
    rwa [← split, ← behind, parts] at written

theorem proper_parse (cs : List Char) : (parse cs).Proper := by
  have unended : ∀ c, endsName c = true → c ∉ (parse cs).name.toList := by
    intro c ends mem
    rw [parse, String.toList_ofList] at mem
    have passed := List.mem_takeWhile_imp (Chars.mem_of_mem_trim mem)
    rw [ends] at passed
    contradiction
  refine ⟨?_, unended '(' rfl, unended ',' rfl, fun _ => Argument.proper_of_mem_parseAll⟩
  rw [parse, String.toList_ofList]
  exact Chars.neat_trim _

/-- An invocation is read from just the texts that it is written as, but for one with a single empty
argument, whose written forms are read as having none. -/
theorem parse_written (i : Invocation) :
    (∀ cs, parse cs = i ↔ i.Written cs ∧ i.Proper ∧ i.args ≠ [⟨none, ""⟩]) ∧
    (∀ cs, i.Written cs → i.Proper →
      parse cs = if i.args = [⟨none, ""⟩] then ⟨i.name, []⟩ else i) ∧
    (∀ rest, i.Written (i.spelling ++ rest)) ∧ i.Written i.commaSpelling := by
  refine ⟨fun cs => ⟨?_, ?_⟩, fun cs => Written.parse_eq, written_spelling i,
    written_commaSpelling i⟩
  · rintro rfl
    exact ⟨written_parse cs, proper_parse cs, Argument.parseAll_ne_empty _⟩
  · rintro ⟨written, proper, solid⟩
    rw [written.parse_eq proper, if_neg solid]

/-- A name may hold a closing parenthesis, a value an opening one and behind a key an equals sign; and
an empty argument is kept among others. -/
theorem parse_written_marks :
    parse " go)\t( f(x , to = a=b,).text".toList =
        ⟨"go)", [⟨none, "f(x"⟩, ⟨some "to", "a=b"⟩, ⟨none, ""⟩]⟩ ∧
      parse "go, ".toList = ⟨"go", []⟩ := by
  have padded : ∀ before cs behind, AllBlank before → AllBlank behind →
      Padded cs (before ++ cs ++ behind) :=
    fun before _ behind leading trailing => ⟨before, behind, leading, trailing, rfl⟩
  constructor
  · have proper : Proper ⟨"go)", [⟨none, "f(x"⟩, ⟨some "to", "a=b"⟩, ⟨none, ""⟩]⟩ :=
      ⟨by decide, by decide, by decide, by decide⟩
    have list : ListWritten [⟨none, "f(x"⟩, ⟨some "to", "a=b"⟩, ⟨none, ""⟩]
        " f(x , to = a=b,".toList :=
      .cons (.positional (padded [' '] _ [' '] (by decide) (by decide)))
        (.cons (.keyed (padded [' '] _ [' '] (by decide) (by decide))
          (padded [' '] _ [] (by decide) (by decide)))
          (.single (.positional (padded [] _ [] (by decide) (by decide)))))
    have closes : ∀ c, (')' :: ".text".toList).head? = some c → c = ')' := by simp
    have written : Written ⟨"go)", [⟨none, "f(x"⟩, ⟨some "to", "a=b"⟩, ⟨none, ""⟩]⟩
        (" go)\t".toList ++ '(' :: (" f(x , to = a=b,".toList ++ ')' :: ".text".toList)) :=
      .listed (padded [' '] _ ['\t'] (by decide) (by decide)) rfl list closes
    exact (parse_written _).2.1 _ written proper
  · have proper : Proper ⟨"go", [⟨none, ""⟩]⟩ := ⟨by decide, by decide, by decide, by decide⟩
    have list : ListWritten [⟨none, ""⟩] " ".toList :=
      .single (.positional (padded [' '] _ [] (by decide) (by decide)))
    have written : Written ⟨"go", [⟨none, ""⟩]⟩ ("go".toList ++ ',' :: (" ".toList ++ [])) :=
      .listed (padded [] _ [] (by decide) (by decide)) rfl list (by simp)
    exact (parse_written _).2.1 _ written proper

end Invocation

end RobotScript.Macro
