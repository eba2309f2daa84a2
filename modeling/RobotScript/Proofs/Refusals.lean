import RobotScript.Proofs.Rollback
/-!
Why an edit is refused. The line that a text is written into is there if the script is sound, and so
are the places that the lines of an expansion are put in. What is left is a macro that is called and
not there, or too little room, at whatever depth of the expansion it shows.
-/
namespace RobotScript.Editor

inductive Refuses (e : Editor) : EditError → Prop where
  /-- There is no such macro. -/
  | unknown {name : String} : e.macros.get? name = none → e.Refuses (.unknownMacro name)
  /-- The program would outgrow its room. -/
  | full {needed : Nat} : e.script.capacity < needed →
    e.Refuses (.capacityExceeded needed e.script.capacity)

variable {e e' : Editor} {as bs new : List Entry} {h : Handle} {old prior : Line} {n : Nat}
  {text : String} {err : EditError}

theorem Refuses.congr (refuses : e'.Refuses err) (macros : e'.macros = e.macros)
    (capacity : e'.script.capacity = e.script.capacity) : e.Refuses err := by
  cases refuses with
  | unknown missing => exact .unknown (macros ▸ missing)
  | full exceeded =>
    rw [capacity] at exceeded ⊢
    exact .full exceeded

theorem refuses_of_writePlain (refused : (e.writePlain h prior text).result = .error err) :
    e.Refuses err := by
  unfold writePlain at refused
  split at refused
  · cases refused
  · split at refused
    · cases refused
    · split at refused
      next err' exceeded =>
        cases refused
        unfold Script.checkCapacity at exceeded
        dsimp only at exceeded
        split at exceeded
        next more =>
          cases exceeded
          exact .full more
        · cases exceeded
      · cases refused

def Writer.Explains (write : Writer) : Prop :=
  ∀ ⦃e : Editor⦄ ⦃h : Handle⦄ ⦃text : String⦄ ⦃edited : Edited Outcome⦄ ⦃err : EditError⦄
    ⦃as bs : List Entry⦄ ⦃old : Line⦄, e.script.Sound (as ++ ⟨h, old⟩ :: bs) →
    write e h text = .ok edited → edited.result = .error err → e.Refuses err

section Expansion

variable {levels : Nat} (explains : (writeWith levels).Explains)

include explains

theorem insertWith_explains {relation : Relation} {edited : Edited (Handle × Outcome)}
    (sound : e.script.Sound (as ++ bs)) (gap : Gap as bs h n relation)
    (done : insertWith (writeWith levels) e h n relation text = .ok edited)
    (refused : edited.result = .error err) : e.Refuses err := by
  cases gapCase sound gap done with
  | written => contradiction
  | @refused _ script _ _ grown wrote =>
    cases refused
    have cause := explains (e := { e with script }) grown.sound wrote rfl
    exact cause.congr rfl grown.shifted.capacity

theorem emitRest_explains {s : Script} {texts : List String} {edited : Edited Unit}
    (grown : s.Grown as new bs e.script) (nonempty : as ≠ [])
    (done : emitRest (writeWith levels) as.length (as.length + bs.length)
      (bs.head?.map (·.handle)) e texts = .ok edited)
    (refused : edited.result = .error err) : e.Refuses err := by
  induction texts generalizing e new with
  | nil =>
    cases done
    contradiction
  | cons text texts ih =>
    have sound := grown.sound
    rw [← List.append_assoc] at sound
    cases growCase grown.sound.toLists nonempty done with
    | refused gap insert =>
      cases refused
      exact insertWith_explains explains sound gap insert rfl
    | inserted gap insert rest =>
      obtain ⟨line, more, again⟩ :=
        insertWith_splices (writeWith_splices levels) sound gap insert
      have cause := ih (grown.trans again rfl rfl) rest
      exact cause.congr (insertWith_frame insert).macros again.shifted.capacity

theorem emit_explains {lines : List String} {edited : Edited Nat}
    (sound : e.script.Sound (as ++ ⟨h, old⟩ :: bs))
    (done : emit (writeWith levels) e h (as.length + 1) (bs.head?.map (·.handle)) lines =
      .ok edited) (refused : edited.result = .error err) : e.Refuses err := by
  cases emitCase done with
  | refused wrote =>
    cases refused
    exact explains sound wrote rfl
  | written wrote emitted =>
    obtain ⟨line, new, grown⟩ := writeWith_splices levels sound wrote
    rw [emitRest_split sound ⟨h, line⟩] at emitted
    have cause := emitRest_explains explains grown (by simp) emitted (map_eq_error.mp refused)
    exact cause.congr (writeWith_frame wrote).macros grown.shifted.capacity

theorem expandTemplate_explains {t : Macro.Template} {args : List Macro.Argument}
    {edited : Edited Outcome} (sound : e.script.Sound (as ++ ⟨h, old⟩ :: bs))
    (done : expandTemplate (writeWith levels) e h old (as.length + 1) t args = .ok edited)
    (refused : edited.result = .error err) : e.Refuses err := by
  cases expandCase done with
  | expanded => contradiction
  | refused _ emitted =>
    cases refused
    rw [sound.next?_split] at emitted
    exact (emit_explains explains (e := e.enter) sound emitted rfl).congr rfl rfl

end Expansion

theorem writeWith_explains (levels : Nat) : (writeWith levels).Explains := by
  -- The lines of a macro are written one level further down.
  induction levels using Nat.strongRecOn with
  | ind levels deeper =>
    intro e h text edited err as bs old sound done refused
    have write := writeCase levels e h text
    have found := sound.get?_split
    generalize writeWith levels e h text = result at write done
    cases write with
    | missing missing => cases found.symm.trans missing
    | unnumbered _ _ _ _ looked =>
      have unnumbered := Script.lineNumber?_of_numberOf looked
      cases sound.lineNumber?_split.symm.trans unnumbered
    | endless => cases done
    | plain =>
      cases done
      exact refuses_of_writePlain refused
    | unknown _ _ unknown =>
      cases done
      cases refused
      exact .unknown unknown
    | held =>
      cases done
      exact refuses_of_writePlain (map_eq_error.mp refused)
    | @expanded _ _ below _ same here _ _ _ numbered =>
      cases found.symm.trans here
      cases sound.lineNumber?_split.symm.trans numbered
      subst same
      exact expandTemplate_explains (deeper below (Nat.lt_succ_self below)) sound done refused

/-! ### Calls of macros that are not there -/

section Unknown

variable {levels : Nat} (calls : callsMacro text = true)
  (unknown : e.macros.get? (callOf text).name = none)

include calls unknown

theorem writeWith_unknown {edited : Edited Outcome} (done : writeWith levels e h text = .ok edited) :
    edited.result = .error .lineNotFound ∨
      edited.result = .error (.unknownMacro (callOf text).name) := by
  have write := writeCase levels e h text
  generalize writeWith levels e h text = result at write done
  cases write with
  | missing | unknown =>
    cases done
    simp
  | plain _ plain => cases calls.symm.trans plain
  | held _ _ known | unnumbered _ _ known | endless _ _ known | expanded _ _ _ known =>
    cases unknown.symm.trans known

theorem insertWith_unknown {relation : Relation} {edited : Edited (Handle × Outcome)}
    (done : insertWith (writeWith levels) e h n relation text = .ok edited) :
    edited.result = .error .lineNotFound ∨
      edited.result = .error (.unknownMacro (callOf text).name) := by
  cases insertCase done with
  | nowhere nowhere =>
    unfold Script.insertLine at nowhere
    dsimp only at nowhere
    split at nowhere <;> cases nowhere
    exact .inl rfl
  | @written _ _ script _ _ _ wrote =>
    rcases writeWith_unknown (e := { e with script }) calls unknown wrote with other | other <;>
      cases other
  | @refused _ _ script _ _ _ wrote =>
    rcases writeWith_unknown (e := { e with script }) calls unknown wrote with same | same <;>
      cases same
    · exact .inl rfl
    · exact .inr rfl

end Unknown

end RobotScript.Editor
