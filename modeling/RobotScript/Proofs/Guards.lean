import Mathlib.Logic.Function.Iterate
import RobotScript.Proofs.Held
import RobotScript.Proofs.InStep
/-!
The guards bound the expansion of macros. The recursion that writes a text would go on for ever for
a macro that calls itself; its two counters end it. The log of a write has the macros that it
expands: it is as long as the count that the guards keep, and it bounds the lines that are put in.
-/
namespace RobotScript

namespace Macro

/-- Whether a parameter can have a value. -/
def ParamKind.Ranged : ParamKind → Prop
  | number low high => low ≤ high
  | _ => True

theorem ParamKind.exists_read {kind : ParamKind} (ranged : kind.Ranged) (raw : List Char) :
    ∃ value, kind.read raw = .ok value := by
  cases kind with
  | number low high =>
    have range : low ≤ high := ranged
    exact ⟨_, if_pos range⟩
  | text | character | color => exact ⟨_, rfl⟩

namespace Template

variable {t : Template} {bindings : List Binding}

theorem exists_assign (ranged : ∀ b ∈ bindings, b.param.kind.Ranged) (i : Nat) (raw : String) :
    ∃ bindings', assign bindings i raw = .ok bindings' ∧
      ∀ b ∈ bindings', b.param.kind.Ranged := by
  unfold assign
  split
  · exact ⟨bindings, rfl, ranged⟩
  next b located =>
    have mem := List.mem_of_getElem? located
    obtain ⟨value, read⟩ := ParamKind.exists_read (ranged b mem) raw.toList
    rw [read]
    refine ⟨_, rfl, ?_⟩
    intro b' mem'
    rcases List.mem_or_eq_of_mem_set mem' with mem' | rfl
    · exact ranged b' mem'
    · exact ranged b mem

theorem exists_bindAll (ranged : ∀ b ∈ bindings, b.param.kind.Ranged) (free : List Nat)
    (args : List Argument) : ∃ bindings', t.bindAll bindings free args = .ok bindings' := by
  induction args generalizing bindings free with
  | nil => exact ⟨bindings, rfl⟩
  | cons arg args ih =>
    have assigned : ∀ i free, ∃ bindings',
        (do t.bindAll (← assign bindings i arg.value) free args) = .ok bindings' := by
      intro i free
      obtain ⟨next, done, kept⟩ := exists_assign ranged i arg.value
      rw [done]
      exact ih kept free
    unfold bindAll
    split
    · split
      · exact assigned _ _
      · exact ih ranged free
    · split
      · exact assigned _ _
      · exact ih ranged []

theorem exists_bind (ranged : ∀ g ∈ t.groups, g.kind.Ranged) (args : List Argument) :
    ∃ values, t.bind args = .ok values := by
  have start : ∀ b ∈ t.params.map fun p => (⟨p, p.default, false⟩ : Binding),
      b.param.kind.Ranged := by
    simp only [params, List.mem_map, List.mem_flatMap]
    rintro b ⟨p, ⟨g, mem, v, -, rfl⟩, rfl⟩
    exact ranged g mem
  obtain ⟨bindings, bound⟩ := exists_bindAll start (List.range _) args
  unfold bind
  dsimp only
  rw [bound]
  exact ⟨_, rfl⟩

end Template

namespace Library

def Ranged (l : Library) : Prop := ∀ t ∈ l.templates, ∀ g ∈ t.groups, g.kind.Ranged

def longest (l : Library) : Nat := (l.templates.map (·.lines.length)).max?.getD 0

theorem length_le_longest {l : Library} {t : Template} (mem : t ∈ l.templates) :
    t.lines.length ≤ l.longest :=
  List.le_max?_getD_of_mem (List.mem_map_of_mem mem)

theorem mem_of_get? {l : Library} {name : String} {t : Template} (known : l.get? name = some t) :
    t ∈ l.templates :=
  List.mem_of_find?_eq_some known

end Library

end Macro

namespace Script

variable {s : Script} {h : Handle}

theorem lineCount_setLine (line : Line) : (s.setLine h line).lineCount = s.lineCount := by
  unfold setLine
  split <;> rfl

theorem lineCount_insertLine_le (number? : Option Nat) (relation : Relation) (line : Line) :
    (s.insertLine h number? relation line).2.lineCount ≤ s.lineCount + 1 := by
  unfold insertLine
  dsimp only
  split
  next number s' placed =>
    obtain ⟨n, -, placed⟩ := Option.bind_eq_some_iff.mp placed
    obtain ⟨links, -, same⟩ := Option.map_eq_some_iff.mp placed
    cases same
    exact Nat.le_refl _
  next => exact Nat.le_succ _

theorem lineCount_unlink_le (number : Nat) : (s.unlink h number).lineCount ≤ s.lineCount := by
  unfold unlink
  split
  · exact Nat.sub_le _ _
  · exact Nat.le_refl _

end Script

namespace Editor

structure Frame (e e' : Editor) : Prop where
  config : e'.config = e.config
  macros : e'.macros = e.macros
  lastSearch : e'.lastSearch = e.lastSearch
  depth : e'.guards.depth = e.guards.depth
  expansions : e.guards.expansions ≤ e'.guards.expansions

variable {e e' e'' : Editor} {h : Handle}

theorem Frame.script (e : Editor) (script : Script) : e.Frame { e with script } :=
  ⟨rfl, rfl, rfl, rfl, Nat.le_refl _⟩

theorem Frame.refl (e : Editor) : e.Frame e := Frame.script e e.script

theorem Frame.trans (frame : e.Frame e') (again : e'.Frame e'') : e.Frame e'' where
  config := again.config.trans frame.config
  macros := again.macros.trans frame.macros
  lastSearch := again.lastSearch.trans frame.lastSearch
  depth := again.depth.trans frame.depth
  expansions := Nat.le_trans frame.expansions again.expansions

theorem Frame.levelsLeft (frame : e.Frame e') : e'.levelsLeft = e.levelsLeft := by
  rw [Editor.levelsLeft, frame.config, frame.depth, ← Editor.levelsLeft]

def enter (e : Editor) : Editor :=
  { e with guards := ⟨e.guards.depth + 1, e.guards.expansions + 1⟩ }

def leave (e : Editor) : Editor :=
  { e with guards := { e.guards with depth := e.guards.depth - 1 } }

@[simp] theorem leave_script (e : Editor) : e.leave.script = e.script := rfl

theorem expandTemplate_eq (write : Writer) (e : Editor) (h : Handle) (prior : Line) (number : Nat)
    (t : Macro.Template) (args : List Macro.Argument) :
    expandTemplate write e h prior number t args = (do
      let values ← t.bind args
      let edited ← emit write e.enter h number (e.script.next? h) (t.render values)
      match edited.result with
      | .ok count => return ⟨.ok (.expanded count), edited.editor.leave⟩
      | .error err =>
        let left ← edited.editor.leave.discardBetween h number (e.script.next? h)
        return ⟨.error err, left.setLine h prior⟩) := rfl

inductive ExpandCase (write : Writer) (e : Editor) (h : Handle) (prior : Line) (number : Nat)
    (t : Macro.Template) (args : List Macro.Argument) : Edited Outcome → Prop where
  | expanded {values : List Macro.Value} {count : Nat} {after : Editor} :
    t.bind args = .ok values →
    emit write e.enter h number (e.script.next? h) (t.render values) = .ok ⟨.ok count, after⟩ →
    ExpandCase write e h prior number t args ⟨.ok (.expanded count), after.leave⟩
  | refused {values : List Macro.Value} {err : EditError} {after left : Editor} :
    t.bind args = .ok values →
    emit write e.enter h number (e.script.next? h) (t.render values) = .ok ⟨.error err, after⟩ →
    after.leave.discardBetween h number (e.script.next? h) = .ok left →
    ExpandCase write e h prior number t args ⟨.error err, left.setLine h prior⟩

theorem expandCase {write : Writer} {prior : Line} {number : Nat} {t : Macro.Template}
    {args : List Macro.Argument} {edited : Edited Outcome}
    (done : expandTemplate write e h prior number t args = .ok edited) :
    ExpandCase write e h prior number t args edited := by
  rw [expandTemplate_eq] at done
  obtain ⟨values, bound, rest⟩ := bind_eq_ok.mp done
  obtain ⟨⟨result, after⟩, emitted, rest⟩ := bind_eq_ok.mp rest
  cases result with
  | ok count =>
    cases rest
    exact .expanded bound emitted
  | error err =>
    obtain ⟨left, discarded, same⟩ := bind_eq_ok.mp rest
    cases same
    exact .refused bound emitted discarded

theorem levelsLeft_enter {levels : Nat} (left : e.levelsLeft = levels + 1) :
    e.enter.levelsLeft = levels := by
  unfold levelsLeft enter at *
  dsimp only
  omega

/-! ### What is expanded -/

structure Expansion where
  depth : Nat
  template : Macro.Template

abbrev Log := Editor → Handle → String → List Expansion

def insertLog (log : Log) (e : Editor) (anchor : Handle) (anchorNumber : Nat)
    (relation : Relation) (text : String) : List Expansion :=
  match e.script.insertLine anchor (some anchorNumber) relation .empty with
  | (.error _, _) => []
  | (.ok (h, _), script) => log { e with script } h text

def restLog (write : Writer) (log : Log) (number countBefore : Nat) (boundary : Option Handle) :
    Editor → List String → List Expansion
  | _, [] => []
  | e, text :: texts =>
    match emitPlace e.script number (e.script.lineCount - countBefore) boundary with
    | .ok (some (anchor, anchorNumber, relation)) =>
      insertLog log e anchor anchorNumber relation text ++
        match insertWith write e anchor anchorNumber relation text with
        | .ok ⟨.ok _, e⟩ => restLog write log number countBefore boundary e texts
        | _ => []
    | _ => []

def emitLog (write : Writer) (log : Log) (e : Editor) (h : Handle) (number : Nat)
    (boundary : Option Handle) (lines : List String) : List Expansion :=
  log e h (lines.headD "") ++
    match write e h (lines.headD "") with
    | .ok ⟨.ok _, after⟩ =>
      restLog write log number e.script.lineCount boundary after lines.tail
    | _ => []

def expandLog (write : Writer) (log : Log) (e : Editor) (h : Handle) (number : Nat)
    (t : Macro.Template) (args : List Macro.Argument) : List Expansion :=
  match t.bind args with
  | .error _ => []
  | .ok values =>
    ⟨e.enter.guards.depth, t⟩ ::
      emitLog write log e.enter h number (e.script.next? h) (t.render values)

/-- What writing a text expands, with macros nested at most `levels` deep. -/
def logWith : Nat → Log
  | 0, _, _, _ => []
  | levels + 1, e, h, text =>
    match e.script.get? h, e.macros.get? (callOf text).name, e.script.lineNumber? h with
    | some _, some t, some number =>
      if callsMacro text && !e.isGuarded then
        expandLog (writeWith levels) (logWith levels) e h number t (callOf text).args
      else []
    | _, _, _ => []

/-- The macros that an update expands, each before those that its lines call. -/
def log : Log := fun e h text => logWith e.levelsLeft e h text

/-! ### What the guards bound -/

structure Guarded (e : Editor) (log : List Expansion) : Prop where
  ceiling : log.length ≤ e.config.maxMacroRepeat - e.guards.expansions
  nested : ∀ x ∈ log, x.depth ≤ e.config.maxMacroRecursion ∧ x.template ∈ e.macros.templates

structure Spent (slack : Nat) (e : Editor) (log : List Expansion) (e' : Editor) : Prop
    extends Guarded e log where
  frame : e.Frame e'
  expansions : e'.guards.expansions = e.guards.expansions + log.length
  lineCount :
    e'.script.lineCount ≤ e.script.lineCount + slack + log.length * e.macros.longest

/-- Whether a step of an update can come to a fault: at a parameter without a value, or on a way
without an end. -/
def Stops (e : Editor) (fault : Fault) : Prop := fault = .endless ∨ ¬ e.macros.Ranged

def Bounded {α : Type} (slack : Nat) (e : Editor) (log : List Expansion) :
    Except Fault (Edited α) → Prop
  | .ok edited => Spent slack e log edited.editor
  | .error fault => e.Guarded log ∧ e.Stops fault

def Writer.Bounded (write : Writer) (log : Log) : Prop :=
  ∀ e h text, Editor.Bounded 0 e (log e h text) (write e h text)

variable {α β : Type} {slack more : Nat} {log log' : List Expansion}

theorem Guarded.nil (e : Editor) : e.Guarded [] := ⟨Nat.zero_le _, by simp⟩

theorem Spent.guarded_append (spent : Spent slack e log e') (again : e'.Guarded log') :
    e.Guarded (log ++ log') where
  ceiling := by
    have first := spent.ceiling
    have second := again.ceiling
    rw [spent.frame.config, spent.expansions] at second
    rw [List.length_append]
    omega
  nested := by
    intro x mem
    rcases List.mem_append.mp mem with mem | mem
    · exact spent.nested x mem
    · have nested := again.nested x mem
      rwa [spent.frame.config, spent.frame.macros] at nested

theorem Spent.script {script : Script} (grown : script.lineCount ≤ e.script.lineCount + slack) :
    Spent slack e [] { e with script } where
  toGuarded := .nil e
  frame := .script e script
  expansions := rfl
  lineCount := by simpa using grown

theorem Spent.refl (slack : Nat) (e : Editor) : Spent slack e [] e :=
  .script (Nat.le_add_right _ _)

theorem Spent.trans (spent : Spent slack e log e') (again : Spent more e' log' e'') :
    Spent (slack + more) e (log ++ log') e'' where
  toGuarded := spent.guarded_append again.toGuarded
  frame := spent.frame.trans again.frame
  expansions := by
    rw [again.expansions, spent.expansions, List.length_append]
    omega
  lineCount := by
    have first := spent.lineCount
    have second := again.lineCount
    rw [spent.frame.macros] at second
    rw [List.length_append, Nat.add_mul]
    omega

theorem Bounded.after {x : Except Fault (Edited α)} (spent : Spent slack e log e')
    (rest : Bounded more e' log' x) : Bounded (slack + more) e (log ++ log') x := by
  cases x with
  | error fault =>
    obtain ⟨within, stops⟩ := rest
    unfold Stops at stops
    rw [spent.frame.macros] at stops
    exact ⟨spent.guarded_append within, stops⟩
  | ok edited => exact spent.trans rest

theorem Bounded.bind {x : Except Fault (Edited α)}
    {f : Edited α → Except Fault (Edited β)} (first : Bounded slack e log x)
    (stopped : ∀ fault, x = .error fault → log' = [])
    (rest : ∀ edited, x = .ok edited → Bounded more edited.editor log' (f edited)) :
    Bounded (slack + more) e (log ++ log') (x >>= f) := by
  cases x with
  | error fault =>
    rw [stopped fault rfl, List.append_nil]
    exact first
  | ok edited => exact .after first (rest edited rfl)

theorem Bounded.finish {x : Except Fault (Edited α)}
    {f : Edited α → Except Fault (Edited β)} (first : Bounded slack e log x)
    (rest : ∀ edited, Bounded 0 edited.editor [] (f edited)) : Bounded slack e log (x >>= f) := by
  have whole := first.bind (fun _ _ => rfl) fun edited _ => rest edited
  rwa [List.append_nil] at whole

theorem emitPlace_fault {s : Script} {number added : Nat} {boundary : Option Handle} {fault : Fault}
    (stopped : emitPlace s number added boundary = .error fault) : fault = .endless := by
  cases boundary with
  | some h => contradiction
  | none =>
    unfold emitPlace Script.last? Script.throughLines at stopped
    dsimp only at stopped
    split at stopped
    · cases stopped
      rfl
    · contradiction

theorem discardBetween_fault {number : Nat} {boundary : Option Handle} {fault : Fault}
    (stopped : e.discardBetween h number boundary = .error fault) : fault = .endless := by
  unfold discardBetween at stopped
  split at stopped
  · cases stopped
    rfl
  · contradiction

section Expansion

variable {write : Writer} {log : Log} (bounded : write.Bounded log)

include bounded

theorem insertWith_bounded (e : Editor) (anchor : Handle) (number : Nat) (relation : Relation)
    (text : String) :
    Bounded 1 e (insertLog log e anchor number relation text)
      (insertWith write e anchor number relation text) := by
  have count := e.script.lineCount_insertLine_le (h := anchor) (some number) relation .empty
  unfold insertWith insertLog
  cases put : e.script.insertLine anchor (some number) relation .empty with
  | mk result script =>
    rw [put] at count
    have grown : Spent 1 e [] { e with script } := .script count
    cases result with
    | error err => exact grown
    | ok place =>
      obtain ⟨h, lineNumber⟩ := place
      refine Bounded.after grown ((bounded { e with script } h text).finish ?_)
      intro edited
      split
      · exact Spent.refl 0 edited.editor
      · exact Spent.script (Script.lineCount_unlink_le lineNumber)

theorem emitRest_bounded (number countBefore : Nat) (boundary : Option Handle) (e : Editor)
    (texts : List String) :
    Bounded texts.length e (restLog write log number countBefore boundary e texts)
      (emitRest write number countBefore boundary e texts) := by
  induction texts generalizing e with
  | nil => exact Spent.refl 0 e
  | cons text texts ih =>
    unfold emitRest restLog
    cases found : emitPlace e.script number (e.script.lineCount - countBefore) boundary with
    | error fault => exact ⟨.nil e, .inl (emitPlace_fault found)⟩
    | ok place =>
      obtain _ | ⟨anchor, anchorNumber, relation⟩ := place
      · exact Spent.refl _ e
      rw [List.length_cons, Nat.add_comm]
      refine (insertWith_bounded bounded e anchor anchorNumber relation text).bind ?_ ?_
      · intro fault stopped
        rw [stopped]
      intro edited inserted
      rw [inserted]
      cases edited with
      | mk result after =>
        cases result with
        | ok _ => exact ih after
        | error err => exact Spent.refl _ after

theorem emit_bounded (e : Editor) (h : Handle) (number : Nat) (boundary : Option Handle)
    (lines : List String) :
    Bounded lines.tail.length e (emitLog write log e h number boundary lines)
      (emit write e h number boundary lines) := by
  unfold emit emitLog
  rw [← Nat.zero_add lines.tail.length]
  refine (bounded e h (lines.headD "")).bind ?_ ?_
  · intro fault stopped
    rw [stopped]
  intro edited wrote
  rw [wrote]
  cases edited with
  | mk result after =>
    cases result with
    | error err => exact Spent.refl _ after
    | ok _ =>
      refine (emitRest_bounded bounded number _ boundary after lines.tail).finish ?_
      intro rest
      exact Spent.refl 0 rest.editor

omit bounded in
theorem Spent.discard {number : Nat} {boundary : Option Handle}
    (discarded : e.discardBetween h number boundary = .ok e') (prior : Line) :
    Spent 0 e [] (e'.setLine h prior) := by
  have fewer : ∀ (gone : List Handle) (s : Script),
      (gone.foldl (fun s x => s.unlink x (number + 1)) s).lineCount ≤ s.lineCount := by
    intro gone
    induction gone with
    | nil => exact fun s => Nat.le_refl _
    | cons x gone ih => exact fun s => Nat.le_trans (ih _) (Script.lineCount_unlink_le (number + 1))
  unfold discardBetween at discarded
  split at discarded
  · contradiction
  cases discarded
  apply Spent.script
  rw [Script.lineCount_setLine]
  exact fewer _ e.script

omit bounded in
theorem Guarded.expand {t : Macro.Template} {spent : List Expansion}
    (known : t ∈ e.macros.templates) (free : e.isGuarded = false) (within : e.enter.Guarded spent) :
    e.Guarded (⟨e.enter.guards.depth, t⟩ :: spent) := by
  simp only [isGuarded, Bool.or_eq_false_iff, decide_eq_false_iff_not, Nat.not_le] at free
  obtain ⟨ceiling, nested⟩ := within
  dsimp only [enter] at ceiling nested
  refine ⟨?_, ?_⟩
  · rw [List.length_cons]
    omega
  · intro x mem
    rcases List.mem_cons.mp mem with rfl | mem
    · exact ⟨free.1, known⟩
    · exact nested x mem

omit bounded in
theorem Spent.expand {t : Macro.Template} {spent : List Expansion}
    (known : t ∈ e.macros.templates) (free : e.isGuarded = false)
    (short : slack ≤ e.macros.longest)
    (emitted : Spent slack e.enter spent e') :
    Spent 0 e (⟨e.enter.guards.depth, t⟩ :: spent) e'.leave := by
  obtain ⟨within, frame, expansions, lineCount⟩ := emitted
  dsimp only [enter] at expansions lineCount
  have depth : e'.leave.guards.depth = e.guards.depth := by
    rw [leave, frame.depth]
    rfl
  have counted : e'.leave.guards.expansions = e.guards.expansions + (spent.length + 1) := by
    rw [leave, expansions]
    omega
  refine ⟨.expand known free within,
    ⟨frame.config, frame.macros, frame.lastSearch, depth, ?_⟩, counted, ?_⟩
  · omega
  · rw [List.length_cons, Nat.add_mul, Nat.one_mul, leave_script]
    omega

theorem expandTemplate_bounded {number : Nat} {prior : Line} {t : Macro.Template}
    {args : List Macro.Argument} (known : t ∈ e.macros.templates) (free : e.isGuarded = false) :
    Bounded 0 e (expandLog write log e h number t args)
      (expandTemplate write e h prior number t args) := by
  rw [expandTemplate_eq]
  unfold expandLog
  cases bound : t.bind args with
  | error fault =>
    -- Arguments are refused only where a parameter has no value.
    refine ⟨.nil e, .inr fun ranged => ?_⟩
    obtain ⟨values, done⟩ := Macro.Template.exists_bind (ranged t known) args
    cases bound.symm.trans done
  | ok values =>
    have short : (t.render values).tail.length ≤ e.macros.longest := by
      have := Macro.Library.length_le_longest known
      rw [Macro.Template.render, List.length_tail, List.length_map]
      omega
    have emitted := emit_bounded bounded e.enter h number (e.script.next? h) (t.render values)
    simp only [bind, Except.bind]
    cases run : emit write e.enter h number (e.script.next? h) (t.render values) with
    | error fault =>
      rw [run] at emitted
      exact ⟨.expand known free emitted.1, emitted.2⟩
    | ok edited =>
      rw [run] at emitted
      have spent := Spent.expand known free short emitted
      dsimp only
      split
      · exact spent
      · split
        next stopped => exact ⟨spent.toGuarded, .inl (discardBetween_fault stopped)⟩
        next discarded =>
          have undone := spent.trans (.discard discarded prior)
          rw [List.append_nil] at undone
          exact undone

end Expansion

theorem writePlain_spent (e : Editor) (h : Handle) (prior : Line) (text : String) :
    Spent 0 e [] (e.writePlain h prior text).editor := by
  obtain ⟨err, refused⟩ | ⟨outcome, line, -, -, written⟩ := writePlain_cases e h prior text
  · rw [refused]
    exact .refl 0 e
  · rw [written]
    exact .script (Nat.le_of_eq (Script.lineCount_setLine line))

theorem logWith_eq_nil {levels : Nat} {text : String}
    (stays : e.script.get? h = none ∨ callsMacro text = false ∨
      e.macros.get? (callOf text).name = none ∨ levels = 0 ∨ e.isGuarded = true ∨
      e.script.lineNumber? h = none) : logWith levels e h text = [] := by
  cases levels with
  | zero => rfl
  | succ levels =>
    unfold logWith
    split
    next => cases calls : callsMacro text <;> cases guarded : e.isGuarded <;> simp_all
    next => rfl

theorem logWith_eq_expandLog {levels number : Nat} {text : String} {prior : Line}
    {t : Macro.Template} (found : e.script.get? h = some prior) (calls : callsMacro text = true)
    (known : e.macros.get? (callOf text).name = some t) (free : e.isGuarded = false)
    (numbered : e.script.lineNumber? h = some number) :
    logWith (levels + 1) e h text =
      expandLog (writeWith levels) (logWith levels) e h number t (callOf text).args := by
  simp [logWith, found, calls, known, free, numbered]

/-- Every write stays within the guards. -/
theorem writeWith_bounded (levels : Nat) : (writeWith levels).Bounded (logWith levels) := by
  -- The lines of a macro are written one level further down.
  induction levels using Nat.strongRecOn with
  | ind levels deeper =>
    intro e h text
    have write := writeCase levels e h text
    generalize writeWith levels e h text = result at write
    cases write with
    | missing missing =>
      rw [logWith_eq_nil (.inl missing)]
      exact Spent.refl 0 e
    | plain _ plain =>
      rw [logWith_eq_nil (.inr (.inl plain))]
      exact writePlain_spent e h _ text
    | unknown _ _ unknown =>
      rw [logWith_eq_nil (.inr (.inr (.inl unknown)))]
      exact Spent.refl 0 e
    | held _ _ _ guarded =>
      rw [logWith_eq_nil (.inr (.inr (.inr (guarded.imp_right .inl))))]
      exact writePlain_spent e h _ ""
    | unnumbered _ _ _ _ unnumbered =>
      have unnumbered := Script.lineNumber?_of_numberOf unnumbered
      rw [logWith_eq_nil (.inr (.inr (.inr (.inr (.inr unnumbered)))))]
      exact Spent.refl 0 e
    | endless _ _ _ _ lost =>
      have unnumbered := Script.lineNumber?_eq_none_of_error lost
      rw [logWith_eq_nil (.inr (.inr (.inr (.inr (.inr unnumbered)))))]
      exact ⟨.nil e, .inl rfl⟩
    | @expanded _ _ below _ same found calls known free numbered =>
      subst same
      rw [logWith_eq_expandLog found calls known free numbered]
      exact expandTemplate_bounded (deeper below (Nat.lt_succ_self below))
        (Macro.Library.mem_of_get? known) free

theorem writeWith_frame {levels : Nat} {text : String} {edited : Edited Outcome}
    (done : writeWith levels e h text = .ok edited) : e.Frame edited.editor := by
  have bounded := writeWith_bounded levels e h text
  rw [done] at bounded
  exact bounded.frame

theorem insertWith_frame {levels number : Nat} {relation : Relation} {text : String}
    {edited : Edited (Handle × Outcome)}
    (done : insertWith (writeWith levels) e h number relation text = .ok edited) :
    e.Frame edited.editor := by
  have bounded := insertWith_bounded (writeWith_bounded levels) e h number relation text
  rw [done] at bounded
  exact bounded.frame

/-! ### The recursion ends -/

/-- Writes a text into a line, with another writer for the lines of a macro that it calls. Nothing
but the guards of the editor holds the macro back. -/
def writeBody (write : Writer) : Writer := fun e h text =>
  match e.script.get? h with
  | none => .ok ⟨.error .lineNotFound, e⟩
  | some prior =>
    if callsMacro text then
      let call := callOf text
      match e.macros.get? call.name with
      | none => .ok ⟨.error (.unknownMacro call.name), e⟩
      | some t =>
        if e.isGuarded then .ok (e.suppress h prior)
        else do
          match ← e.script.numberOf h with
          | none => return ⟨.error .lineNotFound, e⟩
          | some number => expandTemplate write e h prior number t call.args
    else .ok (e.writePlain h prior text)

section Agreement

variable {write other : Writer} {log : Log}

theorem insertWith_congr {anchor : Handle} {number : Nat} {relation : Relation} {text : String}
    (agree : ∀ e', e.Frame e' → other e' = write e') :
    insertWith other e anchor number relation text =
      insertWith write e anchor number relation text := by
  unfold insertWith
  split
  · rfl
  · rw [agree _ (.script e _)]

theorem emitRest_congr (bounded : write.Bounded log) {number countBefore : Nat}
    {boundary : Option Handle} {texts : List String}
    (agree : ∀ e', e.Frame e' → other e' = write e') :
    emitRest other number countBefore boundary e texts =
      emitRest write number countBefore boundary e texts := by
  induction texts generalizing e with
  | nil => rfl
  | cons text texts ih =>
    unfold emitRest
    cases emitPlace e.script number (e.script.lineCount - countBefore) boundary with
    | error fault => rfl
    | ok place =>
      obtain _ | ⟨anchor, anchorNumber, relation⟩ := place
      · rfl
      simp only [bind, Except.bind, insertWith_congr agree]
      have spent := insertWith_bounded bounded e anchor anchorNumber relation text
      cases run : insertWith write e anchor anchorNumber relation text with
      | error fault => rfl
      | ok edited =>
        rw [run] at spent
        have rest := ih fun e' frame => agree e' (spent.frame.trans frame)
        simp only [rest]

theorem emit_congr (bounded : write.Bounded log) {number : Nat} {boundary : Option Handle}
    {lines : List String} (agree : ∀ e', e.Frame e' → other e' = write e') :
    emit other e h number boundary lines = emit write e h number boundary lines := by
  unfold emit
  rw [agree e (.refl e)]
  have spent := bounded e h (lines.headD "")
  cases run : write e h (lines.headD "") with
  | error fault => rfl
  | ok edited =>
    rw [run] at spent
    have rest : ∀ countBefore, emitRest other number countBefore boundary edited.editor lines.tail =
        emitRest write number countBefore boundary edited.editor lines.tail := fun _ =>
      emitRest_congr bounded fun e' frame => agree e' (spent.frame.trans frame)
    simp only [bind, Except.bind, rest]

theorem expandTemplate_congr (bounded : write.Bounded log) {prior : Line} {number : Nat}
    {t : Macro.Template} {args : List Macro.Argument}
    (agree : ∀ e', e'.config = e.config → e'.guards.depth = e.guards.depth + 1 →
      other e' = write e') :
    expandTemplate other e h prior number t args = expandTemplate write e h prior number t args := by
  rw [expandTemplate_eq, expandTemplate_eq]
  cases t.bind args with
  | error fault => rfl
  | ok values =>
    have emitted : emit other e.enter h number (e.script.next? h) (t.render values) =
        emit write e.enter h number (e.script.next? h) (t.render values) :=
      emit_congr bounded fun e' frame => agree e' frame.config frame.depth
    simp only [bind, Except.bind, emitted]

theorem isGuarded_of_levelsLeft (ended : e.levelsLeft = 0) : e.isGuarded = true := by
  rw [levelsLeft, Nat.sub_eq_zero_iff_le] at ended
  simp [isGuarded, ended]

theorem writeBody_eq (agree : ∀ e', e'.levelsLeft < e.levelsLeft → write e' = e'.update) :
    writeBody write e = e.update := by
  funext h text
  have cases := writeCase e.levelsLeft e h text
  unfold update
  generalize writeWith e.levelsLeft e h text = result at cases
  cases cases with
  | missing missing => simp [writeBody, missing]
  | plain found plain => simp [writeBody, found, plain]
  | unknown found calls unknown => simp [writeBody, found, calls, unknown]
  | held found calls known guarded =>
    have guarded : e.isGuarded = true := guarded.elim isGuarded_of_levelsLeft id
    simp [writeBody, found, calls, known, guarded]
  | unnumbered found calls known free looked | endless found calls known free looked =>
    simp only [writeBody, found, calls, known, free, looked]
    rfl
  | @expanded prior t below number deep found calls known free numbered =>
    simp only [writeBody, found, calls, known, free, Script.numberOf_of_lineNumber? numbered]
    -- Inside the macro one level fewer is left, which is what its lines are written with.
    apply expandTemplate_congr (writeWith_bounded below)
    intro e' config depth
    have next : e'.levelsLeft = below := by
      rw [levelsLeft, config, depth, ← Nat.sub_sub, ← levelsLeft, deep, Nat.add_sub_cancel]
    rw [agree e' (by omega)]
    funext h text
    rw [update, next]

/-- Whatever the calls nested deeper would do: the guards let none get there. -/
theorem iterate_writeBody (deeper : Writer) {rounds : Nat} (left : e.levelsLeft < rounds) :
    (writeBody^[rounds] deeper) e = e.update := by
  induction rounds generalizing e with
  | zero => exact absurd left (Nat.not_lt_zero _)
  | succ rounds ih =>
    rw [Function.iterate_succ_apply']
    exact writeBody_eq fun e' less => ih (by omega)

end Agreement

theorem update_bounded (e : Editor) (h : Handle) (text : String) :
    Bounded 0 e (e.log h text) (e.update h text) :=
  writeWith_bounded e.levelsLeft e h text

end Editor

end RobotScript
