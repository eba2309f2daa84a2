import Mathlib.Data.List.Find
import Mathlib.Data.List.TakeWhile
import RobotScript.Proofs.Guards
import RobotScript.Proofs.Run
/-!
Which parameter each argument of a macro goes to, and what value it leaves there. Arguments are bound
in one pass that never goes back; where it is in the list of parameters stands for what is said of the
arguments before: that they have taken all parameters up to there.
-/
namespace RobotScript.Macro

def wholeInt (cs : List Char) : Int :=
  let digits (ds : List Char) : Nat := Nat.ofDigitChars 10 (ds.takeWhile Char.isDigit) 0
  match Chars.trimStart cs with
  | '-' :: ds => -(digits ds : Int)
  | '+' :: ds => digits ds
  | ds => digits ds

theorem foldl_pushDigit (ds : List Char) (n : Nat) :
    ds.foldl pushDigit (min Bounds.maxSigned64 n) =
      min Bounds.maxSigned64 (Nat.ofDigitChars 10 ds n : Int) := by
  induction ds generalizing n with
  | nil => rfl
  | cons d ds ih =>
    have pushed : pushDigit (min Bounds.maxSigned64 n) d =
        min Bounds.maxSigned64 ((10 * n + (d.toNat - '0'.toNat) : Nat) : Int) := by
      unfold pushDigit Bounds.maxSigned64
      dsimp only
      omega
    rw [List.foldl_cons, pushed, ih]
    rfl

theorem leadingInt_eq (cs : List Char) :
    leadingInt cs = max (-Bounds.maxSigned64) (min Bounds.maxSigned64 (wholeInt cs)) := by
  have read : ∀ ds : List Char, (ds.takeWhile Char.isDigit).foldl pushDigit 0 =
      min Bounds.maxSigned64 (Nat.ofDigitChars 10 (ds.takeWhile Char.isDigit) 0 : Int) :=
    fun ds => foldl_pushDigit _ 0
  have positive : (0 : Int) ≤ Bounds.maxSigned64 := by decide
  have plus : ∀ n : Nat, min Bounds.maxSigned64 (n : Int) =
      max (-Bounds.maxSigned64) (min Bounds.maxSigned64 n) := by omega
  have minus : ∀ n : Nat, -min Bounds.maxSigned64 (n : Int) =
      max (-Bounds.maxSigned64) (min Bounds.maxSigned64 (-n)) := by omega
  unfold leadingInt
  dsimp only
  fun_cases wholeInt cs with
  | case1 digits ds text =>
    rw [text]
    exact (congrArg Neg.neg (read ds)).trans (minus _)
  | case2 digits ds text =>
    rw [text]
    exact (read ds).trans (plus _)
  | case3 digits noMinus noPlus =>
    split
    next ds text => exact absurd text (noMinus ds)
    next ds text => exact absurd text (noPlus ds)
    next => exact (read _).trans (plus _)

namespace ParamKind

variable {kind : ParamKind} {raw : List Char}

theorem read_number {low high : Int} (least : Bounds.minSigned32 ≤ low) (range : low ≤ high)
    (greatest : high ≤ Bounds.maxSigned32) (raw : List Char) :
    (number low high).read raw = .ok (some (.number (max low (min high (wholeInt raw))))) := by
  have same : max low (min high (leadingInt raw)) = max low (min high (wholeInt raw)) := by
    rw [leadingInt_eq]
    unfold Bounds.minSigned32 at least
    unfold Bounds.maxSigned32 at greatest
    unfold Bounds.maxSigned64
    omega
  unfold read
  dsimp only
  rw [if_pos range, same]

theorem eq_color_of_read (none : kind.read raw = .ok none) : kind = .color := by
  cases kind with
  | number low high =>
    unfold read at none
    dsimp only at none
    split at none <;> cases none
  | text maxLength | character => cases none
  | color => rfl

theorem read_eq_error {fault : Fault} (failed : kind.read raw = .error fault) :
    fault = .emptyRange ∧ ¬ kind.Ranged := by
  cases kind with
  | number low high =>
    unfold read at failed
    dsimp only at failed
    split at failed
    · cases failed
    next void =>
      cases failed
      exact ⟨rfl, void⟩
  | text maxLength | character | color => cases failed

theorem ranged_of_read {given : Option Value} (done : kind.read raw = .ok given) : kind.Ranged := by
  cases kind with
  | number low high =>
    unfold read at done
    dsimp only at done
    split at done
    next range => exact range
    · cases done
  | text maxLength | character | color => trivial

/-- What texts leave of a value: the last of them that gives one, if any does. -/
inductive Settles (kind : ParamKind) (start : Value) (texts : List String) : Value → Prop
  | start : (∀ text ∈ texts, kind.read text.toList = .ok none) → Settles kind start texts start
  | last {before after : List String} {text : String} {value : Value} :
    texts = before ++ text :: after → kind.read text.toList = .ok (some value) →
    (∀ text ∈ after, kind.read text.toList = .ok none) → Settles kind start texts value

theorem Settles.cons {start value : Value} {text : String} {texts : List String}
    {given : Option Value} (read : kind.read text.toList = .ok given)
    (rest : kind.Settles (given.getD start) texts value) :
    kind.Settles start (text :: texts) value := by
  cases rest with
  | start none =>
    cases given with
    | none => exact .start (List.forall_mem_cons.mpr ⟨read, none⟩)
    | some value =>
      have split : text :: texts = [] ++ text :: texts := rfl
      exact .last split read none
  | @last before after last _ split found none =>
    have longer : text :: texts = (text :: before) ++ last :: after := congrArg (text :: ·) split
    exact .last longer found none

end ParamKind

namespace Template

variable {t : Template} {bindings : List Binding} {free taken : List Nat} {arg : Argument}
  {args : List Argument} {i : Nat}

/-! ### Where arguments go -/

/-- The place of the parameter that an argument goes to: the first of its name, whatever the case of
its letters, or for one without a name the first that none has gone to yet. -/
def place? (t : Template) (taken : List Nat) (arg : Argument) : Option Nat :=
  match arg.name with
  | some key => t.params.findIdx? fun p => Chars.eqIgnoreCase p.name.toList key.toList
  | none => (List.range t.params.length).find? (· ∉ taken)

/-- The places that arguments go to with the texts they bring, where earlier ones have gone to some
places. An argument without a place is dropped. -/
def assignments (t : Template) : List Nat → List Argument → List (Nat × String)
  | _, [] => []
  | taken, arg :: args =>
    match t.place? taken arg with
    | some i => (i, arg.value) :: assignments t (i :: taken) args
    | none => assignments t taken args

def textsAt (assigned : List (Nat × String)) (i : Nat) : List String :=
  (assigned.filter (·.1 = i)).map (·.2)

theorem textsAt_cons_self (i : Nat) (text : String) (assigned : List (Nat × String)) :
    textsAt ((i, text) :: assigned) i = text :: textsAt assigned i := by
  simp [textsAt]

theorem textsAt_cons_ne {i j : Nat} (other : i ≠ j) (text : String)
    (assigned : List (Nat × String)) :
    textsAt ((i, text) :: assigned) j = textsAt assigned j := by
  simp [textsAt, other]

structure Tracks (t : Template) (bindings : List Binding) (free taken : List Nat) : Prop where
  params : bindings.map (·.param) = t.params
  assigned : ∀ i b, bindings[i]? = some b → (b.assigned = true ↔ i ∈ taken)
  passed : ∃ passed, List.range t.params.length = passed ++ free ∧ ∀ i ∈ passed, i ∈ taken

theorem tracks_start (t : Template) :
    t.Tracks (t.params.map fun p => ⟨p, p.default, false⟩) (List.range t.params.length) [] := by
  refine ⟨?_, ?_, [], rfl, by simp⟩
  · rw [List.map_map]
    exact List.map_id _
  · intro i b located
    rw [List.getElem?_map] at located
    rcases Option.map_eq_some_iff.mp located with ⟨p, -, rfl⟩
    simp

theorem Tracks.length_eq (tracks : t.Tracks bindings free taken) :
    bindings.length = t.params.length := by
  rw [← tracks.params, List.length_map]

theorem Tracks.taken_iff (tracks : t.Tracks bindings free taken) (inside : i < t.params.length) :
    (bindings[i]?.map (·.assigned)).getD true = true ↔ i ∈ taken := by
  rw [← tracks.length_eq] at inside
  have located := List.getElem?_eq_getElem inside
  rw [← tracks.assigned i _ located, located, Option.map_some, Option.getD_some]

theorem Tracks.lt_length (tracks : t.Tracks bindings free taken) (mem : i ∈ free) :
    i < t.params.length := by
  rcases tracks.passed with ⟨passed, split, -⟩
  rw [← List.mem_range, split]
  exact List.mem_append_right _ mem

theorem Tracks.find?_eq (tracks : t.Tracks bindings free taken) :
    (List.range t.params.length).find? (· ∉ taken) =
      (free.dropWhile fun i => (bindings[i]?.map (·.assigned)).getD true).head? := by
  rcases tracks.passed with ⟨passed, split, behind⟩
  have none : passed.find? (· ∉ taken) = none := by
    rw [List.find?_eq_none]
    simpa using behind
  have same : ∀ i ∈ free,
      decide (i ∉ taken) = !(bindings[i]?.map (·.assigned)).getD true := by
    intro i mem
    rw [decide_not, Bool.not_inj_iff, Bool.eq_iff_iff, decide_eq_true_iff]
    exact (tracks.taken_iff (tracks.lt_length mem)).symm
  rw [split, List.find?_append, none, Option.none_or, List.find?_congr same,
    List.find?_not_eq_head?_dropWhile]

theorem Tracks.set {b : Binding} {free' : List Nat} (tracks : t.Tracks bindings free taken)
    (located : bindings[i]? = some b) (value : Value)
    (passed : ∃ passed, List.range t.params.length = passed ++ free' ∧
      ∀ j ∈ passed, j ∈ i :: taken) :
    t.Tracks (bindings.set i ⟨b.param, value, true⟩) free' (i :: taken) := by
  rcases List.getElem?_eq_some_iff.mp located with ⟨inside, rfl⟩
  refine ⟨?_, ?_, passed⟩
  · have same : (bindings.map (·.param))[i]? = some bindings[i].param := by
      rw [List.getElem?_map, located, Option.map_some]
    rcases List.getElem?_eq_some_iff.mp same with ⟨bound, here⟩
    rw [List.map_set, ← tracks.params, ← here]
    exact List.set_getElem_self bound
  · intro j b' there
    by_cases same : j = i
    · subst same
      rw [List.getElem?_set_self inside] at there
      cases there
      simp
    · rw [List.getElem?_set_ne (Ne.symm same)] at there
      rw [tracks.assigned j b' there, List.mem_cons, or_iff_right same]

theorem Tracks.passed_ahead {rest : List Nat} (tracks : t.Tracks bindings free taken)
    (ahead : (free.dropWhile fun i => (bindings[i]?.map (·.assigned)).getD true) = i :: rest) :
    ∃ passed, List.range t.params.length = passed ++ rest ∧ ∀ j ∈ passed, j ∈ i :: taken := by
  rcases tracks.passed with ⟨passed, split, behind⟩
  have parts := List.takeWhile_append_dropWhile
    (p := fun i => (bindings[i]?.map (·.assigned)).getD true) (l := free)
  generalize skipped : free.takeWhile _ = before at parts
  rw [ahead] at parts
  refine ⟨passed ++ before ++ [i], by rw [split, ← parts]; simp, ?_⟩
  intro j mem
  rcases List.mem_append.mp mem with mem | mem
  · apply List.mem_cons_of_mem
    rcases List.mem_append.mp mem with mem | mem
    · exact behind j mem
    · have among : j ∈ free := by simp [← parts, mem]
      rw [← skipped] at mem
      have assigned := List.mem_takeWhile_imp mem
      exact (tracks.taken_iff (tracks.lt_length among)).mp assigned
  · exact List.mem_singleton.mp mem ▸ List.mem_cons_self

theorem Tracks.bindAll_cons (tracks : t.Tracks bindings free taken) (arg : Argument)
    (args : List Argument) :
    match t.place? taken arg with
    | some i => i < t.params.length ∧ ∃ free',
        (∃ passed, List.range t.params.length = passed ++ free' ∧ ∀ j ∈ passed, j ∈ i :: taken) ∧
        t.bindAll bindings free (arg :: args) =
          (do t.bindAll (← assign bindings i arg.value) free' args)
    | none => ∃ free', t.Tracks bindings free' taken ∧
        t.bindAll bindings free (arg :: args) = t.bindAll bindings free' args := by
  rw [bindAll, place?]
  cases arg.name with
  | some key =>
    have same : t.indexOf? key.toList =
        t.params.findIdx? fun p => Chars.eqIgnoreCase p.name.toList key.toList := rfl
    dsimp only
    rw [same]
    cases found : t.params.findIdx? fun p => Chars.eqIgnoreCase p.name.toList key.toList with
    | none => exact ⟨free, tracks, rfl⟩
    | some i =>
      rcases List.findIdx?_eq_some_iff_getElem.mp found with ⟨inside, -, -⟩
      rcases tracks.passed with ⟨passed, split, behind⟩
      exact ⟨inside, free, ⟨passed, split, fun j mem => List.mem_cons_of_mem i (behind j mem)⟩, rfl⟩
  | none =>
    have place := tracks.find?_eq
    dsimp only
    cases ahead : free.dropWhile fun i => (bindings[i]?.map (·.assigned)).getD true with
    | nil =>
      rw [ahead] at place
      rw [place]
      have full : ∀ i ∈ List.range t.params.length, i ∈ taken := by
        simpa using List.find?_eq_none.mp place
      exact ⟨[], ⟨tracks.params, tracks.assigned, _, (List.append_nil _).symm, full⟩, rfl⟩
    | cons i rest =>
      rw [ahead] at place
      rw [place]
      have inside : i < t.params.length := List.mem_range.mp (List.mem_of_find?_eq_some place)
      exact ⟨inside, rest, tracks.passed_ahead ahead, rfl⟩

structure Binds (t : Template) (bindings : List Binding) (assigned : List (Nat × String))
    (final : List Binding) : Prop where
  ranged : ∀ a ∈ assigned, ∀ p, t.params[a.1]? = some p → p.kind.Ranged
  length : final.length = t.params.length
  values : ∀ (i : Nat) (b : Binding), bindings[i]? = some b → ∃ b', final[i]? = some b' ∧
    b.param.kind.Settles b.value (textsAt assigned i) b'.value

theorem Tracks.binds_nil (tracks : t.Tracks bindings free taken) : t.Binds bindings [] bindings where
  ranged := by simp
  length := tracks.length_eq
  values := fun _ b there => ⟨b, there, .start (by simp [textsAt])⟩

theorem Binds.cons {b : Binding} {text : String} {given : Option Value}
    {assigned : List (Nat × String)} {final : List Binding} (located : bindings[i]? = some b)
    (param : t.params[i]? = some b.param) (read : b.param.kind.read text.toList = .ok given)
    (rest : t.Binds (bindings.set i ⟨b.param, given.getD b.value, true⟩) assigned final) :
    t.Binds bindings ((i, text) :: assigned) final := by
  rcases List.getElem?_eq_some_iff.mp located with ⟨inside, -⟩
  refine ⟨List.forall_mem_cons.mpr ⟨?_, rest.ranged⟩, rest.length, ?_⟩
  · intro p there
    have same : b.param = p := Option.some.inj (param.symm.trans there)
    rw [← same]
    exact ParamKind.ranged_of_read read
  · intro j b' there
    by_cases here : j = i
    · subst here
      have same : b = b' := Option.some.inj (located.symm.trans there)
      rcases rest.values j _ (List.getElem?_set_self inside) with ⟨b'', found, settles⟩
      refine ⟨b'', found, ?_⟩
      rw [← same, textsAt_cons_self]
      exact settles.cons read
    · rw [← List.getElem?_set_ne (Ne.symm here)] at there
      rw [textsAt_cons_ne (Ne.symm here)]
      exact rest.values j b' there

theorem Tracks.assign_eq (tracks : t.Tracks bindings free taken) (inside : i < t.params.length)
    (text : String) :
    ∃ b, bindings[i]? = some b ∧ t.params[i]? = some b.param ∧
      assign bindings i text = (b.param.kind.read text.toList).map fun given =>
        bindings.set i ⟨b.param, given.getD b.value, true⟩ := by
  rw [← tracks.length_eq] at inside
  have located := List.getElem?_eq_getElem inside
  refine ⟨_, located, ?_, ?_⟩
  · rw [← tracks.params, List.getElem?_map, located, Option.map_some]
  · unfold assign
    rw [located]
    rfl

/-- A whole list of arguments: it stops at one that is given to a number without a range, or each
parameter is left with what the texts for it settle. -/
theorem Tracks.run (tracks : t.Tracks bindings free taken) (args : List Argument) :
    match t.bindAll bindings free args with
    | .error fault => fault = .emptyRange ∧ ∃ a ∈ t.assignments taken args, ∃ p,
        t.params[a.1]? = some p ∧ ¬ p.kind.Ranged
    | .ok final => t.Binds bindings (t.assignments taken args) final := by
  induction args generalizing bindings free taken with
  | nil => exact tracks.binds_nil
  | cons arg args ih =>
    have step := tracks.bindAll_cons arg args
    unfold assignments
    cases place : t.place? taken arg with
    | none =>
      rw [place] at step
      rcases step with ⟨free', tracks', same⟩
      rw [same]
      exact ih tracks'
    | some i =>
      rw [place] at step
      rcases step with ⟨inside, free', passed, same⟩
      rcases tracks.assign_eq inside arg.value with ⟨b, located, param, assigned⟩
      rw [assigned] at same
      cases read : b.param.kind.read arg.value.toList with
      | error fault =>
        rw [read] at same
        have stopped : t.bindAll bindings free (arg :: args) = .error fault := same
        rw [stopped]
        rcases ParamKind.read_eq_error read with ⟨rfl, void⟩
        exact ⟨rfl, _, List.mem_cons_self, b.param, param, void⟩
      | ok given =>
        rw [read] at same
        have goes : t.bindAll bindings free (arg :: args) = t.bindAll
          (bindings.set i ⟨b.param, given.getD b.value, true⟩) free' args := same
        have rest := ih (tracks.set located (given.getD b.value) passed)
        rw [goes]
        cases result : t.bindAll (bindings.set i ⟨b.param, given.getD b.value, true⟩) free' args with
        | error fault =>
          rw [result] at rest
          rcases rest with ⟨rfl, a, mem, void⟩
          exact ⟨rfl, a, List.mem_cons_of_mem _ mem, void⟩
        | ok final =>
          rw [result] at rest
          exact rest.cons located param read

/-- Arguments go where they are said to go, and each parameter is left with the value of the last
argument for it that has one, or else with its default. Only colours refuse a text. Binding stops just
if an argument goes to a number without a range, and for nothing else; with one, numbers of any length
are read. -/
theorem bind_assigns (t : Template) (args : List Argument) :
    (t.bind args = .error .emptyRange ↔ ∃ a ∈ t.assignments [] args, ∃ p,
      t.params[a.1]? = some p ∧ ¬ p.kind.Ranged) ∧
    (∀ fault, t.bind args = .error fault → fault = .emptyRange) ∧
    (∀ values, t.bind args = .ok values → values.length = t.params.length ∧
      ∀ (i : Nat) (p : Param), t.params[i]? = some p → ∃ value, values[i]? = some value ∧
        p.kind.Settles p.default (textsAt (t.assignments [] args) i) value) ∧
    (∀ (kind : ParamKind) (raw : List Char), kind.read raw = .ok none → kind = .color) ∧
    ∀ (low high : Int) (raw : List Char), Bounds.minSigned32 ≤ low → low ≤ high →
      high ≤ Bounds.maxSigned32 → (ParamKind.number low high).read raw =
        .ok (some (.number (max low (min high (wholeInt raw))))) := by
  have run := t.tracks_start.run args
  refine ⟨?_, ?_, ?_, fun _ _ => ParamKind.eq_color_of_read,
    fun _ _ raw least range greatest => ParamKind.read_number least range greatest raw⟩
  all_goals
    unfold bind
    dsimp only
    rw [List.length_map]
  · cases bound : t.bindAll (t.params.map fun p => ⟨p, p.default, false⟩)
      (List.range t.params.length) args with
    | error fault =>
      rw [bound] at run
      rcases run with ⟨rfl, stopped⟩
      exact iff_of_true rfl stopped
    | ok final =>
      rw [bound] at run
      refine iff_of_false (by simp [Bind.bind, Except.bind, pure, Except.pure]) ?_
      rintro ⟨a, mem, p, there, void⟩
      exact void (run.ranged a mem p there)
  · intro fault failed
    cases bound : t.bindAll (t.params.map fun p => ⟨p, p.default, false⟩)
      (List.range t.params.length) args with
    | error fault' =>
      rw [bound] at run failed
      cases failed
      exact run.1
    | ok final =>
      rw [bound] at failed
      cases failed
  · intro values done
    rcases bind_eq_ok.mp done with ⟨final, bound, done⟩
    rw [bound] at run
    cases done
    refine ⟨by rw [List.length_map, run.length], ?_⟩
    intro i p there
    have start : (t.params.map fun p => (⟨p, p.default, false⟩ : Binding))[i]? =
        some ⟨p, p.default, false⟩ := by rw [List.getElem?_map, there, Option.map_some]
    rcases run.values i _ start with ⟨b, found, settles⟩
    exact ⟨b.value, by rw [List.getElem?_map, found, Option.map_some], settles⟩

/-- A number of twenty digits by name, one by its place ahead of that, a text that is no colour, and
an argument too many; and a number without a range. -/
theorem bind_assigns_mixed :
    (∃ (t : Template) (args : List Argument) (value : Value),
      t.params = [⟨.number (-5) 10, "a", .number 0⟩, ⟨.number (-5) 10, "b", .number 1⟩,
        ⟨.color, "c", .number 7⟩] ∧
      t.assignments [] args = [(1, "99999999999999999999"), (0, "-3x"), (2, "zz")] ∧
      t.bind args = .ok [.number (-3), .number 10, .number 7] ∧
      ParamKind.color.Settles (.number 7) ["zz"] value ∧ value = .number 7) ∧
    (ParamKind.number (-5) 10).read "99999999999999999999".toList =
      .ok (some (.number (max (-5) (min 10 99999999999999999999)))) ∧
    bind ⟨"m", "", [⟨.number 3 2, [⟨"a", .number 0⟩]⟩], []⟩ [⟨none, "1"⟩] = .error .emptyRange := by
  refine ⟨?_, ?_, ?_⟩
  · let t : Template := ⟨"m", "", [⟨.number (-5) 10, [⟨"a", .number 0⟩, ⟨"b", .number 1⟩]⟩,
      ⟨.color, [⟨"c", .number 7⟩]⟩], []⟩
    let args : List Argument := [⟨some "B", "99999999999999999999"⟩, ⟨none, "-3x"⟩, ⟨none, "zz"⟩,
      ⟨none, "4"⟩]
    have bound : t.bind args = .ok [.number (-3), .number 10, .number 7] := by decide +kernel
    have texts : t.assignments [] args = [(1, "99999999999999999999"), (0, "-3x"), (2, "zz")] := by
      decide +kernel
    have values := (bind_assigns t args).2.2.1 _ bound
    rcases values.2 2 _ rfl with ⟨value, found, settles⟩
    rw [texts] at settles
    exact ⟨t, args, value, rfl, texts, bound, settles, (Option.some.inj found).symm⟩
  · exact (bind_assigns ⟨"m", "", [], []⟩ []).2.2.2.2 (-5) 10 _ (by decide) (by decide) (by decide)
  · have void : ¬ (ParamKind.number 3 2).Ranged := show ¬ (3 : Int) ≤ 2 by decide
    exact (bind_assigns _ _).1.mpr ⟨(0, "1"), by decide, _, rfl, void⟩

end Template

end RobotScript.Macro
