import RobotScript.Editor.Operation
/-!
What comes of steps that may be stopped: where they are not, they give what is read off the lines
that their ways come by.
-/
namespace RobotScript

section Steps

variable {ε α β : Type} {x : Except ε α} {b : β}

theorem bind_eq_ok {f : α → Except ε β} :
    x >>= f = .ok b ↔ ∃ a, x = .ok a ∧ f a = .ok b := by
  cases x with
  | error err => simp [bind, Except.bind]
  | ok a => simp [bind, Except.bind]

theorem map_eq_ok {f : α → β} : x.map f = .ok b ↔ ∃ a, x = .ok a ∧ f a = b := by
  cases x with
  | error err => simp [Except.map]
  | ok a => simp [Except.map]

theorem map_eq_error {f : α → β} {err : ε} : x.map f = .error err ↔ x = .error err := by
  cases x with
  | error err' => simp [Except.map]
  | ok a => simp [Except.map]

theorem checkedSub_eq_ok {a b n : Nat} : checkedSub a b = .ok n ↔ b ≤ a ∧ n = a - b := by
  unfold checkedSub
  split <;> simp [*, eq_comm]

end Steps

namespace Script

variable {s s' : Script} {h : Handle}

theorem throughLines_eq_ok {α : Type} {a b : α} :
    s.throughLines a = .ok b ↔ s.endless = false ∧ a = b := by
  unfold throughLines
  split <;> simp [*]

theorem lineNumber?_of_numberOf {number? : Option Nat} (done : s.numberOf h = .ok number?) :
    s.lineNumber? h = number? := by
  unfold numberOf at done
  split at done
  · cases done
  · exact Except.ok.inj done

theorem numberOf_eq_error {fault : Fault} (stopped : s.numberOf h = .error fault) :
    fault = .endless := by
  unfold numberOf at stopped
  split at stopped
  · exact (Except.error.inj stopped).symm
  · contradiction

theorem lineNumber?_eq_none_of_error {fault : Fault} (stopped : s.numberOf h = .error fault) :
    s.lineNumber? h = none := by
  unfold numberOf at stopped
  split at stopped
  next lost =>
    rw [missesEndlessly, Bool.and_eq_true] at lost
    exact Option.isNone_iff_eq_none.mp lost.1
  next => contradiction

theorem numberOf_of_lineNumber? {number : Nat} (numbered : s.lineNumber? h = some number) :
    s.numberOf h = .ok (some number) := by
  simp [numberOf, missesEndlessly, numbered]

theorem insertBlankAt_of_insertBlank {relation : Relation} {result : Except EditError Handle}
    (done : s.insertBlank h relation = .ok (result, s')) :
    s.insertBlankAt h (s.lineNumber? h) relation = (result, s') := by
  unfold insertBlank at done
  split at done
  · cases done
  · exact Except.ok.inj done

end Script

namespace Editor

variable {e e' : Editor} {pattern : String} {o : SearchOptions} {m? : Option Match}

theorem mapScriptM_eq_ok {f : Script → Except Fault Script} :
    e.mapScriptM f = .ok e' ↔ ∃ script, f e.script = .ok script ∧ { e with script } = e' :=
  map_eq_ok

theorem findFrom_of_seekFrom {start last : Nat} (done : e.seekFrom pattern o start last = .ok m?) :
    e.findFrom pattern o start last = m? := by
  unfold seekFrom at done
  split at done
  · cases done
  · exact Except.ok.inj done

theorem find_of_seek (done : e.seek pattern o = .ok m?) : e.find pattern o = m? := by
  unfold seek at done
  split at done
  · cases done
  · exact findFrom_of_seekFrom done

theorem moveTo_eq_ok {m : Match} : e.moveTo m = .ok e' ↔
    ∃ script, e.script.gotoLine m.number = .ok script ∧
      { e with script := script.setColumn m.column } = e' := by
  unfold moveTo
  rw [bind_eq_ok]
  simp [pure, Except.pure]

inductive NextCase (pattern replacement : String) (o : SearchOptions) (p : Pass) (e : Editor) :
    PassStep → Prop where
  | missing : e.findFrom pattern o p.resume p.startLine = none →
    NextCase pattern replacement o p e (.done ⟨p.replaced, none⟩ e)
  | passed {m : Match} : e.findFrom pattern o p.resume p.startLine = some m →
    p.admit? (Text.size replacement - Text.size pattern) m = none →
    NextCase pattern replacement o p e (.done ⟨p.replaced, none⟩ e)
  | refused {m : Match} {q : Pass} {there : Editor} {edited : Edited Outcome} {err : EditError} :
    e.findFrom pattern o p.resume p.startLine = some m →
    p.admit? (Text.size replacement - Text.size pattern) m = some q →
    e.moveTo m = .ok there → there.replaceAt m (Text.size pattern) replacement = .ok edited →
    edited.result = .error err →
    NextCase pattern replacement o p e (.done ⟨q.replaced, some err⟩ edited.editor)
  | replaced {m : Match} {q : Pass} {there : Editor} {edited : Edited Outcome} {outcome : Outcome} :
    e.findFrom pattern o p.resume p.startLine = some m →
    p.admit? (Text.size replacement - Text.size pattern) m = some q →
    e.moveTo m = .ok there → there.replaceAt m (Text.size pattern) replacement = .ok edited →
    edited.result = .ok outcome →
    NextCase pattern replacement o p e (.more (q.advance m (m.column + Text.size replacement))
      (edited.editor.mapScript (·.setColumn (m.column + Text.size replacement))))

theorem nextCase {replacement : String} {p : Pass} {step : PassStep}
    (done : replaceNext pattern replacement o p e = .ok step) :
    NextCase pattern replacement o p e step := by
  obtain ⟨m?, sought, done⟩ := bind_eq_ok.mp done
  have found := findFrom_of_seekFrom sought
  cases m? with
  | none =>
    cases done
    exact .missing found
  | some m =>
    dsimp only at done
    split at done
    · cases done
    cases admitted : p.admit? (Text.size replacement - Text.size pattern) m with
    | none =>
      rw [admitted] at done
      cases done
      exact .passed found admitted
    | some q =>
      rw [admitted] at done
      obtain ⟨there, moved, done⟩ := bind_eq_ok.mp done
      obtain ⟨edited, written, done⟩ := bind_eq_ok.mp done
      cases result : edited.result with
      | error err =>
        rw [result] at done
        cases done
        exact .refused found admitted moved written result
      | ok outcome =>
        rw [result] at done
        cases done
        exact .replaced found admitted moved written result

theorem replaceMany_of_replaceAll {replacement : String} {result : ReplaceSummary × Editor}
    (done : e.replaceAll pattern replacement o = .ok result) :
    replaceMany pattern replacement o replaceLimit (.start e.script.cursor) e = .ok result := by
  unfold replaceAll at done
  split at done
  · cases done
  · exact done

end Editor

end RobotScript
