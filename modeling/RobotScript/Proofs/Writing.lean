import RobotScript.Proofs.Run
/-!
What writing a text into a line comes to: every case with the checks that lead to it. Whatever is
true of a write is read off these cases. So is what is true of an expansion, off the cases of the
steps that it is made of.
-/
namespace RobotScript

/-- Whether a line is let in for another: it takes no bytes, or the program has room for it. No line
takes one or two bytes. -/
def Script.Admits (s : Script) (old new : Line) : Prop :=
  new.size = 0 ∨ 3 ≤ new.size ∧ s.checkCapacity old.size new.size = .ok ()

namespace Editor

inductive WriteCase (levels : Nat) (e : Editor) (h : Handle) (text : String) :
    Except Fault (Edited Outcome) → Prop where
  | missing : e.script.get? h = none → WriteCase levels e h text (.ok ⟨.error .lineNotFound, e⟩)
  | plain {prior : Line} : e.script.get? h = some prior → callsMacro text = false →
    WriteCase levels e h text (.ok (e.writePlain h prior text))
  | unknown {prior : Line} : e.script.get? h = some prior → callsMacro text = true →
    e.macros.get? (callOf text).name = none →
    WriteCase levels e h text (.ok ⟨.error (.unknownMacro (callOf text).name), e⟩)
  | held {prior : Line} {t : Macro.Template} : e.script.get? h = some prior →
    callsMacro text = true → e.macros.get? (callOf text).name = some t →
    levels = 0 ∨ e.isGuarded = true → WriteCase levels e h text (.ok (e.suppress h prior))
  | unnumbered {prior : Line} {t : Macro.Template} : e.script.get? h = some prior →
    callsMacro text = true → e.macros.get? (callOf text).name = some t → e.isGuarded = false →
    e.script.numberOf h = .ok none → WriteCase levels e h text (.ok ⟨.error .lineNotFound, e⟩)
  | endless {prior : Line} {t : Macro.Template} : e.script.get? h = some prior →
    callsMacro text = true → e.macros.get? (callOf text).name = some t → e.isGuarded = false →
    e.script.numberOf h = .error .endless → WriteCase levels e h text (.error .endless)
  | expanded {prior : Line} {t : Macro.Template} {below number : Nat} : levels = below + 1 →
    e.script.get? h = some prior → callsMacro text = true →
    e.macros.get? (callOf text).name = some t → e.isGuarded = false →
    e.script.lineNumber? h = some number →
    WriteCase levels e h text
      (expandTemplate (writeWith below) e h prior number t (callOf text).args)

theorem writeCase (levels : Nat) (e : Editor) (h : Handle) (text : String) :
    WriteCase levels e h text (writeWith levels e h text) := by
  unfold writeWith
  split
  next missing => exact .missing missing
  next prior found =>
    split
    next calls =>
      dsimp only
      split
      next unknown => exact .unknown found calls unknown
      next t known =>
        cases levels with
        | zero => exact .held found calls known (.inl rfl)
        | succ below =>
          dsimp only
          split
          next guarded => exact .held found calls known (.inr guarded)
          next free =>
            rw [Bool.not_eq_true] at free
            cases looked : e.script.numberOf h with
            | error fault =>
              obtain rfl := Script.numberOf_eq_error looked
              exact .endless found calls known free looked
            | ok number? =>
              cases number? with
              | none => exact .unnumbered found calls known free looked
              | some number =>
                dsimp only [bind, Except.bind]
                exact .expanded rfl found calls known free (Script.lineNumber?_of_numberOf looked)
    next calls => exact .plain found (Bool.eq_false_iff.mpr calls)

/-! ### The steps of an expansion -/

section Expansion

variable {write : Writer} {e : Editor} {h anchor : Handle} {number countBefore : Nat}
  {relation : Relation} {boundary : Option Handle} {text : String} {texts lines : List String}

inductive InsertCase (write : Writer) (e : Editor) (anchor : Handle) (number : Nat)
    (relation : Relation) (text : String) : Edited (Handle × Outcome) → Prop where
  | nowhere {err : EditError} {script : Script} :
    e.script.insertLine anchor (some number) relation .empty = (.error err, script) →
    InsertCase write e anchor number relation text ⟨.error err, { e with script }⟩
  | written {h : Handle} {position : Nat} {script : Script} {outcome : Outcome} {after : Editor} :
    e.script.insertLine anchor (some number) relation .empty = (.ok (h, position), script) →
    write { e with script } h text = .ok ⟨.ok outcome, after⟩ →
    InsertCase write e anchor number relation text ⟨.ok (h, outcome), after⟩
  | refused {h : Handle} {position : Nat} {script : Script} {err : EditError} {after : Editor} :
    e.script.insertLine anchor (some number) relation .empty = (.ok (h, position), script) →
    write { e with script } h text = .ok ⟨.error err, after⟩ →
    InsertCase write e anchor number relation text
      ⟨.error err, { after with script := after.script.unlink h position }⟩

theorem insertCase {edited : Edited (Handle × Outcome)}
    (done : insertWith write e anchor number relation text = .ok edited) :
    InsertCase write e anchor number relation text edited := by
  unfold insertWith at done
  split at done
  next nowhere =>
    cases done
    exact .nowhere nowhere
  next placed =>
    obtain ⟨⟨result, after⟩, wrote, rest⟩ := bind_eq_ok.mp done
    cases result with
    | ok outcome =>
      cases rest
      exact .written placed wrote
    | error err =>
      cases rest
      exact .refused placed wrote

inductive RestCase (write : Writer) (number countBefore : Nat) (boundary : Option Handle)
    (e : Editor) (text : String) (texts : List String) : Edited Unit → Prop where
  | nowhere : emitPlace e.script number (e.script.lineCount - countBefore) boundary = .ok none →
    RestCase write number countBefore boundary e text texts ⟨.error .lineNotFound, e⟩
  | refused {anchor : Handle} {anchorNumber : Nat} {relation : Relation} {err : EditError}
      {after : Editor} :
    emitPlace e.script number (e.script.lineCount - countBefore) boundary =
      .ok (some (anchor, anchorNumber, relation)) →
    insertWith write e anchor anchorNumber relation text = .ok ⟨.error err, after⟩ →
    RestCase write number countBefore boundary e text texts ⟨.error err, after⟩
  | inserted {anchor : Handle} {anchorNumber : Nat} {relation : Relation}
      {placed : Handle × Outcome} {after : Editor} {edited : Edited Unit} :
    emitPlace e.script number (e.script.lineCount - countBefore) boundary =
      .ok (some (anchor, anchorNumber, relation)) →
    insertWith write e anchor anchorNumber relation text = .ok ⟨.ok placed, after⟩ →
    emitRest write number countBefore boundary after texts = .ok edited →
    RestCase write number countBefore boundary e text texts edited

theorem restCase {edited : Edited Unit}
    (done : emitRest write number countBefore boundary e (text :: texts) = .ok edited) :
    RestCase write number countBefore boundary e text texts edited := by
  obtain ⟨place?, place, done⟩ := bind_eq_ok.mp done
  cases place? with
  | none =>
    cases done
    exact .nowhere place
  | some there =>
    obtain ⟨⟨result, after⟩, insert, rest⟩ := bind_eq_ok.mp done
    cases result with
    | ok placed => exact .inserted place insert rest
    | error err =>
      cases rest
      exact .refused place insert

inductive EmitCase (write : Writer) (e : Editor) (h : Handle) (number : Nat)
    (boundary : Option Handle) (lines : List String) : Edited Nat → Prop where
  | refused {err : EditError} {after : Editor} :
    write e h (lines.headD "") = .ok ⟨.error err, after⟩ →
    EmitCase write e h number boundary lines ⟨.error err, after⟩
  | written {outcome : Outcome} {after : Editor} {others : Edited Unit} :
    write e h (lines.headD "") = .ok ⟨.ok outcome, after⟩ →
    emitRest write number e.script.lineCount boundary after lines.tail = .ok others →
    EmitCase write e h number boundary lines
      ⟨others.result.map fun _ => max 1 lines.length, others.editor⟩

theorem emitCase {edited : Edited Nat} (done : emit write e h number boundary lines = .ok edited) :
    EmitCase write e h number boundary lines edited := by
  obtain ⟨⟨result, after⟩, wrote, rest⟩ := bind_eq_ok.mp done
  cases result with
  | error err =>
    cases rest
    exact .refused wrote
  | ok outcome =>
    obtain ⟨others, emitted, same⟩ := bind_eq_ok.mp rest
    cases same
    exact .written wrote emitted

end Expansion

end Editor

end RobotScript
