import Mathlib.Data.List.TakeWhile
import RobotScript.Macro.Template
import RobotScript.Proofs.Splitting
/-!
References in the lines of a macro. A line is read from left to right: where a reference starts, it
is taken, and any other character stands for itself. Splitting a line comes to the same, although it
looks for marks in pairs and goes back to the second of a pair that spells no reference. What is
written for a reference is not read again.
-/
namespace RobotScript.Macro

namespace Fragment

def IsReference : Fragment → Prop
  | literal _ => False
  | reference name _ => isName name = true

/-- Whether a text starts with a reference. -/
def Opens (cs : List Char) : Prop := ∃ r rest, IsReference r ∧ cs = r.source ++ rest

/-- How a line is read from left to right. -/
inductive Reads : List Char → List Fragment → Prop
  | nil : Reads [] []
  | reference {r : Fragment} {rest : List Char} {pieces : List Fragment} :
    IsReference r → Reads rest pieces → Reads (r.source ++ rest) (r :: pieces)
  | char {c : Char} {cs : List Char} {pieces : List Fragment} :
    ¬ Opens (c :: cs) → Reads cs pieces → Reads (c :: cs) (literal [c] :: pieces)

def units : Fragment → List Fragment
  | literal text => text.map fun c => literal [c]
  | reference name format => [reference name format]

variable {r r' : Fragment} {cs inner before after rest rest' line text : List Char}
  {pieces pieces' : List Fragment}

/-! ### One reference -/

theorem not_mem_of_isName {name : List Char} {c : Char} (named : isName name = true)
    (other : c.isAlphanum = false ∧ c ≠ '_') : c ∉ name := by
  intro mem
  simp only [isName, Bool.and_eq_true, List.all_eq_true, Bool.or_eq_true, beq_iff_eq] at named
  rcases named.2 c mem with letter | line
  · simp [other.1] at letter
  · exact other.2 line

theorem IsReference.exists_inner (is : IsReference r) :
    ∃ inner, '!' ∉ inner ∧ r.source = '!' :: inner ++ ['!'] ∧ ofInner? inner = some r := by
  cases r with
  | literal text => exact absurd is id
  | reference name format =>
    have named : isName name = true := is
    have unmarked : '!' ∉ name := not_mem_of_isName named (by decide)
    have plain : ':' ∉ name := not_mem_of_isName named (by decide)
    cases format with
    | none =>
      refine ⟨name, unmarked, rfl, ?_⟩
      simp [ofInner?, Chars.splitOnce_eq_none_iff.mpr plain, named]
    | some format =>
      cases format with
      | decimal =>
        refine ⟨name ++ [':', 'd'], by simp [unmarked], by simp [source], ?_⟩
        simp [ofInner?, Chars.splitOnce_append_cons plain, named]
      | hex =>
        refine ⟨name ++ [':', 'x'], by simp [unmarked], by simp [source], ?_⟩
        simp [ofInner?, Chars.splitOnce_append_cons plain, named]

theorem source_of_ofInner? (spells : ofInner? inner = some r) :
    IsReference r ∧ r.source = '!' :: inner ++ ['!'] := by
  unfold ofInner? at spells
  split at spells
  · split at spells <;> cases spells
    next named => exact ⟨named, rfl⟩
  · next split =>
    split at spells <;> cases spells
    next named => exact ⟨named, by simp [source, (Chars.splitOnce_eq_some_iff.mp split).2]⟩
  · next split =>
    split at spells <;> cases spells
    next named => exact ⟨named, by simp [source, (Chars.splitOnce_eq_some_iff.mp split).2]⟩
  · cases spells

theorem IsReference.unique (is : IsReference r) (is' : IsReference r')
    (same : r.source ++ rest = r'.source ++ rest') : r = r' ∧ rest = rest' := by
  rcases is.exists_inner with ⟨inner, free, written, spells⟩
  rcases is'.exists_inner with ⟨inner', free', written', spells'⟩
  have parts : some (inner, rest) = some (inner', rest') := by
    rw [← Chars.splitOnce_append_cons free, ← Chars.splitOnce_append_cons free']
    rw [written, written'] at same
    simpa using congrArg (Chars.splitOnce '!' ·.tail) same
  cases parts
  exact ⟨Option.some.inj (spells.symm.trans spells'), rfl⟩

theorem Opens.exists_inner (opens : Opens cs) :
    ∃ r inner rest, '!' ∉ inner ∧ cs = '!' :: (inner ++ '!' :: rest) ∧ ofInner? inner = some r := by
  rcases opens with ⟨r, rest, is, rfl⟩
  rcases is.exists_inner with ⟨inner, free, written, spells⟩
  exact ⟨r, inner, rest, free, by simp [written], spells⟩

/-! ### Reading a line -/

theorem Reads.cases (reads : Reads cs pieces) :
    cs = [] ∧ pieces = [] ∨
      (∃ r rest more, IsReference r ∧ Reads rest more ∧ cs = r.source ++ rest ∧ pieces = r :: more) ∨
      ∃ c rest more, ¬ Opens (c :: rest) ∧ Reads rest more ∧ cs = c :: rest ∧
        pieces = literal [c] :: more := by
  cases reads with
  | nil => exact .inl ⟨rfl, rfl⟩
  | reference is more => exact .inr (.inl ⟨_, _, _, is, more, rfl, rfl⟩)
  | char closed more => exact .inr (.inr ⟨_, _, _, closed, more, rfl, rfl⟩)

theorem not_opens_nil : ¬ Opens [] := by
  intro opens
  rcases opens.exists_inner with ⟨_, _, _, -, same, -⟩
  cases same

/-- There is one way to read a line. -/
theorem Reads.unique (reads : Reads cs pieces) (again : Reads cs pieces') : pieces = pieces' := by
  induction reads generalizing pieces' with
  | nil =>
    rcases again.cases with ⟨-, same⟩ | ⟨r, rest, more, is, -, empty, -⟩ | ⟨_, _, _, -, -, empty, -⟩
    · exact same.symm
    · exact absurd ⟨r, rest, is, empty⟩ not_opens_nil
    · cases empty
  | @reference r rest pieces is more ih =>
    rcases again.cases with ⟨empty, -⟩ | ⟨r', rest', more', is', reads, same, rfl⟩ |
      ⟨c, rest', more', closed, -, same, -⟩
    · exact absurd ⟨r, rest, is, empty.symm⟩ not_opens_nil
    · rcases is.unique is' same with ⟨rfl, rfl⟩
      rw [ih reads]
    · exact absurd ⟨r, rest, is, same.symm⟩ closed
  | @char c cs pieces closed more ih =>
    rcases again.cases with ⟨empty, -⟩ | ⟨r, rest, more', is, -, same, -⟩ |
      ⟨c', rest, more', -, reads, same, rfl⟩
    · cases empty
    · exact absurd ⟨r, rest, is, same⟩ closed
    · cases same
      rw [ih reads]

theorem Reads.append_literal (closed : ∀ before after, text = before ++ after → after ≠ [] →
    ¬ Opens (after ++ rest)) (reads : Reads rest pieces) :
    Reads (text ++ rest) ((literal text).units ++ pieces) := by
  induction text with
  | nil => exact reads
  | cons c text ih =>
    refine .char (closed [] (c :: text) rfl (List.cons_ne_nil c text)) (ih ?_)
    intro before after same
    exact closed (c :: before) after (congrArg (c :: ·) same)

theorem Opens.two_le_count (opens : Opens cs) : 2 ≤ cs.count '!' := by
  rcases opens.exists_inner with ⟨_, inner, rest, -, rfl, -⟩
  rw [List.count_cons_self, List.count_append, List.count_cons_self]
  omega

theorem Reads.append_free (free : '!' ∉ text) (reads : Reads rest pieces) :
    Reads (text ++ rest) ((literal text).units ++ pieces) := by
  apply reads.append_literal
  intro before after same nonempty opens
  cases after with
  | nil => contradiction
  | cons c after =>
    rcases opens.exists_inner with ⟨_, _, _, -, mark, -⟩
    cases (List.cons.inj mark).1
    exact free (by simp [same])

theorem reads_literal (closed : ∀ before after, line = before ++ after → ¬ Opens after) :
    Reads line (literal line).units := by
  have reads : Reads (line ++ []) ((literal line).units ++ []) := by
    apply Reads.nil.append_literal
    intro before after same _
    rw [List.append_nil]
    exact closed before after same
  simpa using reads

/-! ### Splitting a line -/

inductive SplitCase : List Char → List Fragment → Prop
  | whole {line : List Char} : line.count '!' ≤ 1 → SplitCase line [literal line]
  | taken {before : List Char} {r : Fragment} {rest : List Char} : '!' ∉ before → IsReference r →
    SplitCase (before ++ (r.source ++ rest)) (literal before :: r :: split rest)
  | kept {before after : List Char} : '!' ∉ before → ¬ Opens ('!' :: after) →
    SplitCase (before ++ '!' :: after) (literal (before ++ ['!']) :: split after)

theorem takeWhile_mark (cs : List Char) : '!' ∉ cs.takeWhile (· != '!') := by
  intro mem
  simpa using List.mem_takeWhile_imp mem

theorem dropWhile_mark {c : Char} (left : cs.dropWhile (· != '!') = c :: rest) :
    c = '!' ∧ cs = cs.takeWhile (· != '!') ++ '!' :: rest := by
  have mark : c = '!' := by
    have stopped := List.head?_dropWhile_not (· != '!') cs
    simpa [left] using stopped
  refine ⟨mark, ?_⟩
  calc cs = cs.takeWhile (· != '!') ++ cs.dropWhile (· != '!') :=
        List.takeWhile_append_dropWhile.symm
    _ = cs.takeWhile (· != '!') ++ '!' :: rest := by rw [left, mark]

theorem count_eq_zero_of_dropWhile (left : cs.dropWhile (· != '!') = []) : cs.count '!' = 0 := by
  rw [List.dropWhile_eq_nil_iff] at left
  rw [List.count_eq_zero]
  intro mem
  simpa using left '!' mem

theorem splitCase (line : List Char) : SplitCase line (split line) := by
  rw [split.eq_def]
  split
  next none => exact .whole (by rw [count_eq_zero_of_dropWhile none]; decide)
  next after first =>
    rcases dropWhile_mark first with ⟨rfl, parts⟩
    have free := takeWhile_mark line
    generalize line.takeWhile (· != '!') = before at parts free
    subst parts
    split
    next none =>
      have one : (before ++ '!' :: after).count '!' ≤ 1 := by
        rw [List.count_append, List.count_cons_self, List.count_eq_zero.mpr free,
          count_eq_zero_of_dropWhile none]
      exact .whole one
    next rest second =>
      rcases dropWhile_mark second with ⟨rfl, parts⟩
      have unmarked := takeWhile_mark after
      generalize after.takeWhile (· != '!') = inner at parts unmarked
      subst parts
      split
      next r spells =>
        rcases source_of_ofInner? spells with ⟨is, written⟩
        have here : '!' :: (inner ++ '!' :: rest) = r.source ++ rest := by simp [written]
        rw [here]
        exact .taken free is
      next nothing =>
        refine .kept free ?_
        intro opens
        rcases opens.exists_inner with ⟨r, inner', rest', free', same, spells⟩
        have parts : some (inner, rest) = some (inner', rest') := by
          rw [← Chars.splitOnce_append_cons unmarked, ← Chars.splitOnce_append_cons free']
          exact congrArg (Chars.splitOnce '!' ·.tail) same
        cases parts
        exact absurd (nothing.symm.trans spells) (by simp)

theorem IsReference.length_source_pos (is : IsReference r) : 0 < r.source.length := by
  rcases is.exists_inner with ⟨inner, -, written, -⟩
  simp [written]

theorem split_induction {P : List Char → List Fragment → Prop}
    (whole : ∀ line, line.count '!' ≤ 1 → P line [literal line])
    (taken : ∀ before r rest, '!' ∉ before → IsReference r → P rest (split rest) →
      P (before ++ (r.source ++ rest)) (literal before :: r :: split rest))
    (kept : ∀ before after, '!' ∉ before → ¬ Opens ('!' :: after) → P after (split after) →
      P (before ++ '!' :: after) (literal (before ++ ['!']) :: split after)) (line : List Char) :
    P line (split line) := by
  induction length : line.length using Nat.strongRecOn generalizing line with
  | ind n shorter =>
    have pieces := splitCase line
    generalize split line = fragments at pieces
    cases pieces with
    | whole few => exact whole line few
    | @taken before r rest free is =>
      have positive := is.length_source_pos
      simp only [List.length_append] at length
      exact taken before r rest free is (shorter rest.length (by omega) rest rfl)
    | @kept before after free closed =>
      simp only [List.length_append, List.length_cons] at length
      exact kept before after free closed (shorter after.length (by omega) after rfl)

theorem flatMap_source_split (line : List Char) : (split line).flatMap source = line := by
  induction line using split_induction with
  | whole line few => simp [source]
  | taken before r rest free is ih => simp [source, ih]
  | kept before after free closed ih => simp [source, ih]

theorem literal_or_reference_of_mem_split {f : Fragment} (mem : f ∈ split line) :
    (∃ text, f = literal text) ∨ f.IsReference := by
  induction line using split_induction with
  | whole line few => exact .inl ⟨line, List.mem_singleton.mp mem⟩
  | taken before r rest free is ih =>
    rcases List.mem_cons.mp mem with rfl | mem
    · exact .inl ⟨before, rfl⟩
    · rcases List.mem_cons.mp mem with rfl | mem
      · exact .inr is
      · exact ih mem
  | kept before after free closed ih =>
    rcases List.mem_cons.mp mem with rfl | mem
    · exact .inl ⟨_, rfl⟩
    · exact ih mem

theorem IsReference.units_eq (is : IsReference r) : r.units = [r] := by
  cases r with
  | literal text => exact absurd is id
  | reference name format => rfl

theorem reads_split (line : List Char) : Reads line ((split line).flatMap units) := by
  induction line using split_induction with
  | whole line few =>
    rw [List.flatMap_singleton]
    apply reads_literal
    intro before after same opens
    have marks := opens.two_le_count
    rw [same, List.count_append] at few
    omega
  | taken before r rest free is ih =>
    rw [List.flatMap_cons, List.flatMap_cons, is.units_eq]
    exact (ih.reference is).append_free free
  | kept before after free closed ih =>
    have more := (ih.char closed).append_free free
    simpa [units] using more

/-- How a line is split is all there is to how it is read. -/
theorem reads_iff : Reads line pieces ↔ pieces = (split line).flatMap units :=
  ⟨fun reads => reads.unique (reads_split line), fun same => same ▸ reads_split line⟩

end Fragment

namespace Template

open Fragment (Opens Reads)

variable {t : Template} {values : List Value} {line : String} {name : List Char}
  {format : Option Format}

theorem flatMap_renderFragment_units (f : Fragment) :
    f.units.flatMap (t.renderFragment values) = t.renderFragment values f := by
  cases f with
  | literal text => simp [Fragment.units, renderFragment, List.flatMap_map]
  | reference name format => simp [Fragment.units]

theorem toList_renderLine {pieces : List Fragment} (reads : Reads line.toList pieces) :
    (t.renderLine values line).toList = pieces.flatMap (t.renderFragment values) := by
  rw [Fragment.reads_iff] at reads
  simp only [renderLine, String.toList_ofList, reads, List.flatMap_assoc,
    flatMap_renderFragment_units]

theorem renderFragment_undeclared
    (unknown : ∀ p ∈ t.params, Chars.eqIgnoreCase p.name.toList name = false) :
    t.renderFragment values (.reference name format) = undefinedReference := by
  have nowhere : t.indexOf? name = none := List.findIdx?_eq_none_iff.mpr unknown
  simp [renderFragment, nowhere]

theorem renderFragment_declared {before after : List Param} {p : Param} {value : Value}
    (params : t.params = before ++ p :: after)
    (first : ∀ q ∈ before, Chars.eqIgnoreCase q.name.toList name = false)
    (named : Chars.eqIgnoreCase p.name.toList name = true)
    (bound : values[before.length]? = some value) :
    t.renderFragment values (.reference name format) =
      p.kind.render (format == some .hex) value := by
  have place : t.indexOf? name = some before.length := by
    have ahead : before.findIdx? (fun q => Chars.eqIgnoreCase q.name.toList name) = none :=
      List.findIdx?_eq_none_iff.mpr first
    rw [indexOf?, params, List.findIdx?_append, ahead, List.findIdx?_cons, named]
    simp
  have here : t.params[before.length]? = some p := by simp [params]
  simp [renderFragment, place, here, bound]

structure Substitutes (t : Template) (values : List Value) (line rendered : List Char)
    (pieces : List Fragment) : Prop where
  /-- No character is lost or doubled. -/
  whole : pieces.flatMap Fragment.source = line
  kinds : ∀ f ∈ pieces, (∃ text, f = .literal text) ∨ f.IsReference
  /-- References are taken from left to right, each where it starts. -/
  greedy : ∀ read, Reads line read ↔ read = pieces.flatMap Fragment.units
  /-- What is written for a reference is not read again. -/
  once : ∀ read, Reads line read → rendered = read.flatMap (t.renderFragment values)
  literal : ∀ text, t.renderFragment values (.literal text) = text
  undeclared : ∀ name format,
    (∀ p ∈ t.params, Chars.eqIgnoreCase p.name.toList name = false) →
    t.renderFragment values (.reference name format) = "(undef)".toList
  /-- A name stands for the first parameter that has it. -/
  declared : ∀ name format before p after value, t.params = before ++ p :: after →
    (∀ q ∈ before, Chars.eqIgnoreCase q.name.toList name = false) →
    Chars.eqIgnoreCase p.name.toList name = true → values[before.length]? = some value →
    t.renderFragment values (.reference name format) = p.kind.render (format == some .hex) value
  /-- A line without references is left as it is. -/
  plain : (∀ before after, line = before ++ after → ¬ Opens after) → rendered = line

/-- Rendering writes the values for the references that a line is read to have. -/
theorem render_substitutes (t : Template) (values : List Value) :
    t.render values = t.lines.map (t.renderLine values) ∧
      ∀ line : String, t.Substitutes values line.toList (t.renderLine values line).toList
        (Fragment.split line.toList) := by
  refine ⟨rfl, fun line => ?_⟩
  exact
    { whole := Fragment.flatMap_source_split line.toList
      kinds := fun _ => Fragment.literal_or_reference_of_mem_split
      greedy := fun _ => Fragment.reads_iff
      once := fun _ => toList_renderLine
      literal := fun _ => rfl
      undeclared := fun _ _ => renderFragment_undeclared
      declared := fun _ _ _ _ _ _ => renderFragment_declared
      plain := by
        intro closed
        rw [toList_renderLine (Fragment.reads_literal closed), flatMap_renderFragment_units]
        rfl }

example : Fragment.split "1! !a!".toList =
    [.literal ['1', '!'], .literal [' '], .reference ['a'] none, .literal []] := by
  decide +kernel

end Template

end RobotScript.Macro
