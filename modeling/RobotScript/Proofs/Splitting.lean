import Mathlib.Data.List.TakeWhile
import RobotScript.Chars.Blank
import RobotScript.Chars.Split
/-!
Texts split at separators and trimmed at their ends. What a text is split into is stated as the parts
that it is put together of, so that whoever splits a text need not look into how it is done.
-/
namespace RobotScript.Chars

variable {p : Char → Bool} {sep c : Char} {cs before behind : List Char}

/-! ### Separators -/

theorem splitWhen_eq_splitOnP (p : Char → Bool) (cs : List Char) :
    splitWhen p cs = cs.splitOnP p := by
  induction cs with
  | nil => simp [splitWhen]
  | cons c cs ih =>
    rw [splitWhen, List.splitOnP_cons_eq_if_modifyHead, ih]
    split
    · rfl
    · cases pieces : cs.splitOnP p with
      | nil => exact absurd pieces (List.splitOnP_ne_nil p cs)
      | cons piece pieces => rfl

theorem splitWhen_whole (free : ∀ x ∈ cs, p x = false) : splitWhen p cs = [cs] := by
  rw [splitWhen_eq_splitOnP]
  exact List.splitOnP_eq_singleton free

theorem splitWhen_append_cons (separates : p c = true) :
    splitWhen p (before ++ c :: behind) = splitWhen p before ++ splitWhen p behind := by
  simp only [splitWhen_eq_splitOnP]
  exact List.splitOnP_append_cons before behind separates

theorem mem_of_mem_splitWhen {piece : List Char} (mem : piece ∈ splitWhen p cs) :
    ∀ x ∈ piece, x ∈ cs ∧ p x = false := by
  induction cs generalizing piece with
  | nil =>
    rw [splitWhen, List.mem_singleton] at mem
    simp [mem]
  | cons c cs ih =>
    have later : ∀ {piece}, piece ∈ splitWhen p cs → ∀ x ∈ piece, x ∈ c :: cs ∧ p x = false :=
      fun mem x inside => (ih mem x inside).imp_left (List.mem_cons_of_mem c)
    unfold splitWhen at mem
    split at mem
    · rcases List.mem_cons.mp mem with rfl | mem
      · simp
      · exact later mem
    next other =>
      rw [Bool.not_eq_true] at other
      split at mem
      · rw [List.mem_singleton.mp mem]
        simpa using other
      next first pieces split =>
        rcases List.mem_cons.mp mem with rfl | mem
        · exact List.forall_mem_cons.mpr
            ⟨⟨List.mem_cons_self, other⟩, later (split ▸ List.mem_cons_self)⟩
        · exact later (split ▸ List.mem_cons_of_mem first mem)

theorem splitWhen_ne_nil (p : Char → Bool) (cs : List Char) : splitWhen p cs ≠ [] := by
  rw [splitWhen_eq_splitOnP]
  exact List.splitOnP_ne_nil p cs

theorem intercalate_splitOn (sep : Char) (cs : List Char) :
    [sep].intercalate (splitOn sep cs) = cs := by
  rw [splitOn, splitWhen_eq_splitOnP, ← List.splitOn_eq_splitOnP]
  exact List.intercalate_splitOn sep

theorem splitOnce_eq_some_iff :
    splitOnce sep cs = some (before, behind) ↔ sep ∉ before ∧ cs = before ++ sep :: behind := by
  induction cs generalizing before with
  | nil => simp [splitOnce]
  | cons c cs ih =>
    unfold splitOnce
    by_cases here : c = sep
    · cases before with
      | nil => simp [here, eq_comm]
      | cons x before => simp +contextual [here]
    · rw [if_neg here, Option.map_eq_some_iff]
      cases before with
      | nil => simp [here]
      | cons x before =>
        rw [List.mem_cons, not_or]
        constructor
        · rintro ⟨⟨_, _⟩, split, same⟩
          cases same
          rcases ih.mp split with ⟨free, rfl⟩
          exact ⟨⟨Ne.symm here, free⟩, rfl⟩
        · rintro ⟨⟨-, free⟩, same⟩
          rcases List.cons.inj same with ⟨rfl, rest⟩
          exact ⟨(before, behind), ih.mpr ⟨free, rest⟩, rfl⟩

theorem splitOnce_eq_none_iff : splitOnce sep cs = none ↔ sep ∉ cs := by
  induction cs with
  | nil => simp [splitOnce]
  | cons c cs ih =>
    unfold splitOnce
    by_cases here : c = sep
    · simp [here]
    · simp [here, ih, Ne.symm here]

theorem splitOnce_append_cons (free : sep ∉ before) :
    splitOnce sep (before ++ sep :: behind) = some (before, behind) :=
  splitOnce_eq_some_iff.mpr ⟨free, rfl⟩

/-! ### Blanks at the ends -/

structure Neat (cs : List Char) : Prop where
  starts : ∀ c, cs.head? = some c → isBlank c = false
  ends : ∀ c, cs.getLast? = some c → isBlank c = false

theorem neat_iff : Neat cs ↔
    cs.head?.all (! isBlank ·) = true ∧ cs.getLast?.all (! isBlank ·) = true := by
  simp only [Option.all_eq_true, Bool.not_eq_true']
  exact ⟨fun neat => ⟨neat.starts, neat.ends⟩, fun ⟨starts, ends⟩ => ⟨starts, ends⟩⟩

instance : Decidable (Neat cs) := decidable_of_iff' _ neat_iff

def AllBlank (cs : List Char) : Prop := ∀ c ∈ cs, isBlank c = true

instance : Decidable (AllBlank cs) :=
  decidable_of_iff (cs.all isBlank = true) List.all_eq_true

theorem AllBlank.not_mem (blank : AllBlank cs) (solid : isBlank c = false) : c ∉ cs := by
  intro mem
  rw [blank c mem] at solid
  contradiction

theorem head?_trimStart (head : (trimStart cs).head? = some c) : isBlank c = false := by
  rw [trimStart] at head
  simpa [head] using List.head?_dropWhile_not isBlank cs

theorem getLast?_trimEnd (last : (trimEnd cs).getLast? = some c) : isBlank c = false := by
  rw [trimEnd, List.getLast?_reverse] at last
  exact head?_trimStart last

theorem trimEnd_prefix (cs : List Char) : trimEnd cs <+: cs := by
  have suffix : cs.reverse.dropWhile isBlank <:+ cs.reverse := List.dropWhile_suffix isBlank
  rw [← List.reverse_prefix, List.reverse_reverse] at suffix
  exact suffix

theorem mem_of_mem_trim (mem : c ∈ trim cs) : c ∈ cs := by
  have starts : trim cs <+: trimStart cs := trimEnd_prefix (trimStart cs)
  exact (List.dropWhile_sublist isBlank).mem (starts.mem mem)

theorem neat_trim (cs : List Char) : Neat (trim cs) where
  starts := by
    intro c head
    rcases trimEnd_prefix (trimStart cs) with ⟨rest, whole⟩
    rw [trim] at head
    have first : (trimStart cs).head? = some c := by
      rw [← whole, List.head?_append, head]
      rfl
    exact head?_trimStart first
  ends := fun _ last => getLast?_trimEnd last

theorem trimStart_append (blank : AllBlank before) (cs : List Char) :
    trimStart (before ++ cs) = trimStart cs :=
  List.dropWhile_append_of_pos blank

theorem trimEnd_append (blank : AllBlank behind) (cs : List Char) :
    trimEnd (cs ++ behind) = trimEnd cs := by
  have reversed : AllBlank behind.reverse := fun c mem => blank c (List.mem_reverse.mp mem)
  rw [trimEnd, List.reverse_append]
  exact congrArg List.reverse (trimStart_append reversed cs.reverse)

theorem trimStart_eq_self (starts : ∀ c, cs.head? = some c → isBlank c = false) :
    trimStart cs = cs := by
  cases cs with
  | nil => rfl
  | cons c cs => simp [trimStart, starts c rfl]

theorem trimEnd_eq_self (ends : ∀ c, cs.getLast? = some c → isBlank c = false) :
    trimEnd cs = cs := by
  have reversed : trimStart cs.reverse = cs.reverse :=
    trimStart_eq_self fun c head => ends c (by rwa [List.head?_reverse] at head)
  rw [trimEnd, ← trimStart, reversed, List.reverse_reverse]

theorem Neat.trim_padded (neat : Neat cs) (leading : AllBlank before) (trailing : AllBlank behind) :
    trim (before ++ cs ++ behind) = cs := by
  rw [trim, List.append_assoc, trimStart_append leading]
  cases cs with
  | nil =>
    have none : trimStart behind = [] := List.dropWhile_eq_nil_iff.mpr trailing
    rw [List.nil_append, none]
    rfl
  | cons c cs =>
    have starts : trimStart (c :: cs ++ behind) = c :: cs ++ behind :=
      trimStart_eq_self fun d head => neat.starts d head
    rw [starts, trimEnd_append trailing, trimEnd_eq_self neat.ends]

theorem Neat.trim_eq (neat : Neat cs) : trim cs = cs := by
  rw [trim, trimStart_eq_self neat.starts, trimEnd_eq_self neat.ends]

theorem Neat.eq_nil (neat : Neat cs) (blank : AllBlank cs) : cs = [] := by
  cases cs with
  | nil => rfl
  | cons c cs => exact absurd List.mem_cons_self (blank.not_mem (neat.starts c rfl))

def Padded (cs written : List Char) : Prop :=
  ∃ before behind, AllBlank before ∧ AllBlank behind ∧ written = before ++ cs ++ behind

variable {written : List Char}

theorem padded_self (cs : List Char) : Padded cs cs :=
  ⟨[], [], by simp [AllBlank], by simp [AllBlank], by simp⟩

theorem Padded.trim_eq (padded : Padded cs written) (neat : Neat cs) : trim written = cs := by
  rcases padded with ⟨before, behind, leading, trailing, rfl⟩
  exact neat.trim_padded leading trailing

theorem padded_trim (cs : List Char) : Padded (trim cs) cs := by
  have leading : AllBlank (cs.takeWhile isBlank) := fun c mem => List.mem_takeWhile_imp mem
  have trailing : AllBlank ((trimStart cs).reverse.takeWhile isBlank).reverse :=
    fun c mem => List.mem_takeWhile_imp (List.mem_reverse.mp mem)
  refine ⟨_, _, leading, trailing, ?_⟩
  rw [trim, trimEnd, List.append_assoc, ← List.reverse_append, List.takeWhile_append_dropWhile,
    List.reverse_reverse, trimStart, List.takeWhile_append_dropWhile]

theorem padded_ofList_trim (cs : List Char) : Padded (String.ofList (trim cs)).toList cs := by
  rw [String.toList_ofList]
  exact padded_trim cs

theorem trim_eq_nil_iff : trim cs = [] ↔ AllBlank cs := by
  constructor
  · intro nothing
    rcases padded_trim cs with ⟨before, behind, leading, trailing, whole⟩
    rw [whole, nothing, List.append_nil]
    exact List.forall_mem_append.mpr ⟨leading, trailing⟩
  · intro blank
    exact (neat_trim cs).eq_nil fun c mem => blank c (mem_of_mem_trim mem)

theorem Padded.not_mem (padded : Padded cs written) (solid : isBlank c = false) (free : c ∉ cs) :
    c ∉ written := by
  rcases padded with ⟨before, behind, leading, trailing, rfl⟩
  simp [leading.not_mem solid, trailing.not_mem solid, free]

end RobotScript.Chars
