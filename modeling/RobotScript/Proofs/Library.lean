import Mathlib.Data.List.Induction
import Mathlib.Data.List.Nodup
import RobotScript.Macro.Library
import RobotScript.Proofs.Splitting
/-!
A library against the list of macros that were added to it. Under each name, whatever the case of its
letters, stands the macro that was added last, in the place of the first. A macro is looked up by a text
without the blanks around it, but it stands under its name as it is: one whose name has such blanks is
never found.
-/
namespace RobotScript

namespace Chars

variable {a b : List Char}

theorem isBlank_toLower (c : Char) : isBlank c.toLower = isBlank c := by
  by_cases ascii : c.toNat < 128
  · have all : ∀ n < 128, isBlank (Char.ofNat n).toLower = isBlank (Char.ofNat n) := by decide
    simpa using all c.toNat ascii
  · have same : c.toLower = c := by
      refine dif_neg fun letter => ascii ?_
      exact Nat.lt_of_le_of_lt (UInt32.le_iff_toNat_le.mp letter.2) (by decide)
    rw [same]

theorem eqIgnoreCase_iff : eqIgnoreCase a b = true ↔ fold a = fold b := beq_iff_eq

theorem neat_fold_iff : Neat (fold a) ↔ Neat a := by
  have solid : ∀ end? : Option Char,
      (∀ c, end?.map Char.toLower = some c → isBlank c = false) ↔
        ∀ c, end? = some c → isBlank c = false := by
    intro end?
    cases end? <;> simp [isBlank_toLower]
  constructor
  · rintro ⟨starts, ends⟩
    rw [fold, List.head?_map, solid] at starts
    rw [fold, List.getLast?_map, solid] at ends
    exact ⟨starts, ends⟩
  · rintro ⟨starts, ends⟩
    refine ⟨?_, ?_⟩
    · rwa [fold, List.head?_map, solid]
    · rwa [fold, List.getLast?_map, solid]

theorem Neat.of_eqIgnoreCase (neat : Neat b) (same : eqIgnoreCase a b = true) : Neat a := by
  rw [← neat_fold_iff, eqIgnoreCase_iff.mp same, neat_fold_iff]
  exact neat

end Chars

namespace Macro

open Chars (Neat)

def Template.key (t : Template) : List Char := Chars.fold t.name.toList

namespace Library

variable {ts us : List Template} {t u : Template} {name : List Char}

/-- The last macro of a list that has a name, whatever the case of its letters. -/
def latest? (ts : List Template) (name : List Char) : Option Template :=
  (ts.filter fun t => Chars.eqIgnoreCase t.name.toList name).getLast?

theorem latest?_concat (ts : List Template) (t : Template) (name : List Char) :
    latest? (ts ++ [t]) name =
      if Chars.eqIgnoreCase t.name.toList name then some t else latest? ts name := by
  unfold latest?
  split <;> simp [*]

theorem put_cons (t u : Template) (us : List Template) :
    put t (u :: us) = if u.key = t.key then t :: us else u :: put t us := by
  rw [put]
  by_cases same : u.key = t.key
  · rw [if_pos same, if_pos (Chars.eqIgnoreCase_iff.mpr same)]
  · rw [if_neg same, if_neg (Chars.eqIgnoreCase_iff.not.mpr same)]

theorem map_key_put (t : Template) (us : List Template) :
    (put t us).map Template.key =
      if t.key ∈ us.map Template.key then us.map Template.key
      else us.map Template.key ++ [t.key] := by
  induction us with
  | nil => rfl
  | cons u us ih =>
    rw [put_cons]
    by_cases same : u.key = t.key
    · simp [same]
    · rw [if_neg same, List.map_cons, ih]
      by_cases later : t.key ∈ us.map Template.key
      · simp [later]
      · simp [later, Ne.symm same]

theorem find?_put (t : Template) (us : List Template) (name : List Char) :
    (put t us).find? (fun u => Chars.eqIgnoreCase u.name.toList name) =
      if Chars.eqIgnoreCase t.name.toList name then some t
      else us.find? fun u => Chars.eqIgnoreCase u.name.toList name := by
  induction us with
  | nil => cases named : Chars.eqIgnoreCase t.name.toList name <;> simp [put, named]
  | cons u us ih =>
    rw [put_cons]
    split
    next same =>
      have alike : Chars.eqIgnoreCase u.name.toList name = Chars.eqIgnoreCase t.name.toList name :=
        congrArg (· == Chars.fold name) same
      rw [List.find?_cons, List.find?_cons, alike]
      cases Chars.eqIgnoreCase t.name.toList name <;> rfl
    next other =>
      rw [List.find?_cons, List.find?_cons, ih]
      cases named : Chars.eqIgnoreCase u.name.toList name with
      | false => rfl
      | true =>
        have unlike : ¬ Chars.eqIgnoreCase t.name.toList name = true := by
          rw [Chars.eqIgnoreCase_iff] at named ⊢
          exact fun same => other (named.trans same.symm)
        exact (if_neg unlike).symm

theorem templates_concat (ts : List Template) (t : Template) :
    (ofList (ts ++ [t])).templates = put t (ofList ts).templates := by
  rw [ofList, List.foldl_concat]
  rfl

theorem find?_ofList (ts : List Template) (name : List Char) :
    (ofList ts).templates.find? (fun t => Chars.eqIgnoreCase t.name.toList name) =
      latest? ts name := by
  induction ts using List.reverseRecOn with
  | nil => rfl
  | append_singleton ts t ih => rw [templates_concat, find?_put, ih, latest?_concat]

theorem eraseDups_concat (keys : List (List Char)) (key : List Char) :
    (keys ++ [key]).eraseDups = if key ∈ keys then keys.eraseDups else keys.eraseDups ++ [key] := by
  rw [List.eraseDups_append]
  split
  next old => simp [List.removeAll, old]
  next new => simp [List.removeAll, new, List.eraseDups_cons]

theorem map_key_ofList (ts : List Template) :
    (ofList ts).templates.map Template.key = (ts.map Template.key).eraseDups := by
  induction ts using List.reverseRecOn with
  | nil => rfl
  | append_singleton ts t ih =>
    rw [templates_concat, map_key_put, ih, List.map_append, List.map_singleton, eraseDups_concat]
    simp only [List.mem_eraseDups]

theorem nodup_key_ofList (ts : List Template) :
    ((ofList ts).templates.map Template.key).Nodup := by
  induction ts using List.reverseRecOn with
  | nil => exact List.nodup_nil
  | append_singleton ts t ih =>
    rw [templates_concat, map_key_put]
    split
    · exact ih
    next new => simpa using ih.concat new

theorem get?_ofList (ts : List Template) (text : String) :
    (ofList ts).get? text = latest? ts (Chars.trim text.toList) :=
  find?_ofList ts _

theorem mem_of_latest? (found : latest? ts name = some u) :
    u ∈ ts ∧ Chars.eqIgnoreCase u.name.toList name = true :=
  List.mem_filter.mp (List.mem_of_getLast? found)

theorem exists_latest? (mem : t ∈ ts) : ∃ u, latest? ts t.name.toList = some u := by
  have among : t ∈ ts.filter fun u => Chars.eqIgnoreCase u.name.toList t.name.toList :=
    List.mem_filter.mpr ⟨mem, Chars.eqIgnoreCase_iff.mpr rfl⟩
  exact ⟨_, List.getLast?_eq_some_getLast (List.ne_nil_of_mem among)⟩

theorem latest?_of_mem_ofList (mem : t ∈ (ofList ts).templates) :
    latest? ts t.name.toList = some t := by
  have named : Chars.eqIgnoreCase t.name.toList t.name.toList = true := Chars.eqIgnoreCase_iff.mpr rfl
  rw [← find?_ofList]
  cases found : (ofList ts).templates.find? fun u =>
      Chars.eqIgnoreCase u.name.toList t.name.toList with
  | none => exact absurd named (List.find?_eq_none.mp found t mem)
  | some u =>
    have alike := List.find?_some found
    have same : u.key = t.key := Chars.eqIgnoreCase_iff.mp alike
    rw [List.inj_on_of_nodup_map (nodup_key_ofList ts) (List.mem_of_find?_eq_some found) mem same]

/-- A macro is found by its own name just if there are no blanks around the name. -/
theorem get?_name_iff (last : latest? ts t.name.toList = some u) :
    (ofList ts).get? t.name = some u ↔ Neat t.name.toList := by
  rw [get?_ofList]
  constructor
  · intro found
    have asked := Chars.eqIgnoreCase_iff.mp (mem_of_latest? found).2
    have named := Chars.eqIgnoreCase_iff.mp (mem_of_latest? last).2
    exact (Chars.neat_trim _).of_eqIgnoreCase (Chars.eqIgnoreCase_iff.mpr (named.symm.trans asked))
  · intro neat
    rw [neat.trim_eq, last]

theorem get?_eq_none {text : String} (unknown : ∀ t ∈ ts,
    Chars.eqIgnoreCase (Chars.trim t.name.toList) (Chars.trim text.toList) = false) :
    (ofList ts).get? text = none := by
  rw [get?_ofList, Option.eq_none_iff_forall_ne_some]
  intro u found
  obtain ⟨mem, named⟩ := mem_of_latest? found
  have neat : Neat u.name.toList := (Chars.neat_trim _).of_eqIgnoreCase named
  have other := unknown u mem
  rw [neat.trim_eq, named] at other
  contradiction

/-- What a library is to the macros that were added to it, one after the other. -/
structure Gathers (l : Library) (ts : List Template) : Prop where
  /-- No two names differ only in the case of letters. -/
  distinct : l.templates.Pairwise fun t u =>
    Chars.eqIgnoreCase t.name.toList u.name.toList = false
  /-- The names are those of the list, in the order in which they came first. -/
  ordered : l.templates.map Template.key = (ts.map Template.key).eraseDups
  /-- Under each name stands the macro that came last. -/
  latest : ∀ t ∈ l.templates, latest? ts t.name.toList = some t
  /-- A text is looked up without the blanks around it. -/
  found : ∀ text, l.get? text = latest? ts (Chars.trim text.toList)
  /-- Each macro is found by its name, or the one that came last under that name, just if the name has
  no blanks around it. -/
  own : ∀ t ∈ ts, ∃ u, latest? ts t.name.toList = some u ∧
    (l.get? t.name = some u ↔ Neat t.name.toList)
  unknown : ∀ text, (∀ t ∈ ts,
    Chars.eqIgnoreCase (Chars.trim t.name.toList) (Chars.trim text.toList) = false) →
    l.get? text = none

/-- Adding macros gathers them, whatever their names are. -/
theorem ofList_gathers (ts : List Template) : (ofList ts).Gathers ts where
  distinct := by
    refine (List.pairwise_map.mp (nodup_key_ofList ts)).imp ?_
    intro t u other
    rw [Bool.eq_false_iff, ne_eq, Chars.eqIgnoreCase_iff]
    exact other
  ordered := map_key_ofList ts
  latest _ := latest?_of_mem_ofList
  found := get?_ofList ts
  own t mem := by
    obtain ⟨u, last⟩ := exists_latest? mem
    exact ⟨u, last, get?_name_iff last⟩
  unknown _ := get?_eq_none

theorem ofList_gathers_again :
    (ofList [⟨"walk", "", [], ["a"]⟩, ⟨"run", "", [], []⟩, ⟨"WALK", "", [], ["b"]⟩]).get? "walk" =
        some ⟨"WALK", "", [], ["b"]⟩ ∧
      (ofList [⟨"walk", "", [], ["a"]⟩, ⟨"run", "", [], []⟩]).get? " walks" = none := by
  constructor
  · have gathers := ofList_gathers
      [⟨"walk", "", [], ["a"]⟩, ⟨"run", "", [], []⟩, ⟨"WALK", "", [], ["b"]⟩]
    obtain ⟨u, last, found⟩ := gathers.own ⟨"walk", "", [], ["a"]⟩ List.mem_cons_self
    have same : some u = some ⟨"WALK", "", [], ["b"]⟩ := last.symm.trans (by decide)
    rw [← same]
    exact found.mpr (by decide)
  · exact (ofList_gathers _).unknown _ (by decide)

/-- A macro with a blank before its name is not found by the name, and another one may be. -/
theorem get?_padded_name :
    (ofList [⟨" walk", "", [], []⟩]).get? " walk" = none ∧
      (ofList [⟨" walk", "", [], []⟩, ⟨"walk", "", [], ["a"]⟩]).get? " walk" =
        some ⟨"walk", "", [], ["a"]⟩ := by
  decide

end Library

end Macro

end RobotScript
