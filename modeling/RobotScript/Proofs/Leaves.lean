import RobotScript.Proofs.InOrder
/-!
What an expansion leaves behind. Macros expand to texts, whatever script they are called from: a
call stands for the lines of its macro, and these in turn for theirs. An update that is accepted
stores those texts one below the other, the first in the line itself.
-/
namespace RobotScript.Editor

/-! ### Texts -/

def leavesOfAll (expand : Nat → String → Option (List String × Nat)) :
    Nat → List String → Option (List String × Nat)
  | count, [] => some ([], count)
  | count, text :: texts => do
    let (first, count) ← expand count text
    let (rest, count) ← leavesOfAll expand count texts
    return (first ++ rest, count)

/-- The texts that a text comes to after `count` macros have been expanded, with macros nested at
most `levels` deep and `ceiling` of them in all. A macro without lines stands for an empty line, and
so does a call that is held back. -/
def leaves (macros : Macro.Library) (ceiling : Nat) :
    Nat → Nat → String → Option (List String × Nat)
  | levels, count, text =>
    if callsMacro text then do
      let t ← macros.get? (callOf text).name
      match levels with
      | 0 => some ([""], count)
      | levels + 1 =>
        if ceiling ≤ count then some ([""], count)
        else do
          let values ← (t.bind (callOf text).args).toOption
          let lines := t.render values
          if lines.isEmpty then some ([""], count + 1)
          else leavesOfAll (leaves macros ceiling levels) (count + 1) lines
    else some ([text], count)

section

variable {macros : Macro.Library} {ceiling levels count : Nat} {text : String} {t : Macro.Template}

theorem leaves_plain (plain : callsMacro text = false) :
    leaves macros ceiling levels count text = some ([text], count) := by
  cases levels <;> simp [leaves, plain]

theorem leaves_held (calls : callsMacro text = true)
    (known : macros.get? (callOf text).name = some t) (held : levels = 0 ∨ ceiling ≤ count) :
    leaves macros ceiling levels count text = some ([""], count) := by
  cases levels with
  | zero => simp [leaves, calls, known]
  | succ levels =>
    have held : ceiling ≤ count := held.resolve_left (Nat.succ_ne_zero levels)
    simp [leaves, calls, known, held]

theorem leaves_expanded {values : List Macro.Value} (calls : callsMacro text = true)
    (known : macros.get? (callOf text).name = some t) (free : count < ceiling)
    (bound : t.bind (callOf text).args = .ok values) :
    leaves macros ceiling (levels + 1) count text =
      leavesOfAll (leaves macros ceiling levels) (count + 1)
        ((t.render values).headD "" :: (t.render values).tail) := by
  have bind : (t.bind (callOf text).args).toOption = some values := by
    rw [bound]
    rfl
  have empty : leaves macros ceiling levels (count + 1) "" = some ([""], count + 1) :=
    leaves_plain (by decide)
  simp only [leaves, calls, known, bind, Nat.not_le.mpr free, Option.bind_eq_bind,
    Option.bind_some, if_true, if_false]
  cases t.render values with
  | nil => simp [leavesOfAll, empty]
  | cons line lines => rfl

end

/-! ### Storing texts -/

/-- The line that a text is stored as in place of another, or `none` if there is no room for it. -/
def storedLine? (e : Editor) (prior : Line) (text : String) : Option Line :=
  match compile text with
  | .error _ => some (e.invalidLine text (e.dispositionFor prior) prior.size)
  | .ok c =>
    if Text.size c.display > Line.maxText then
      some (e.invalidLine c.display (e.dispositionForLong prior) prior.size)
    else
      match e.script.checkCapacity prior.size c.bytecode.length with
      | .error _ => none
      | .ok () => some (.compiled c.display c.bytecode c.args)

def withSize (e : Editor) (size : Nat) : Editor :=
  { e with script := { e.script with totalSize := size } }

/-- The lines that texts are stored as one after the other, the first in place of a line and the
others in new ones, and how many bytes all lines take then. -/
def storedLines? (e : Editor) : Nat → Line → List String → Option (List Line × Nat)
  | size, _, [] => some ([], size)
  | size, prior, text :: texts => do
    let line ← (e.withSize size).storedLine? prior text
    let (lines, size) ← storedLines? e (size - prior.size + line.size) .empty texts
    return (line :: lines, size)

variable {e e' e'' : Editor} {as bs new : List Entry} {h : Handle} {old prior line : Line}
  {n levels : Nat} {text : String} {texts : List String} {lines more : List Line}

theorem storedLine?_withSize_congr (config : e'.config = e.config)
    (capacity : e'.script.capacity = e.script.capacity) (size : Nat) :
    (e'.withSize size).storedLine? = (e.withSize size).storedLine? := by
  cases e with
  | mk script _ _ _ _ =>
    cases e' with
    | mk script' _ _ _ _ =>
      cases script
      cases script'
      dsimp only at config capacity
      subst config capacity
      rfl

theorem storedLines?_congr (config : e'.config = e.config)
    (capacity : e'.script.capacity = e.script.capacity) : e'.storedLines? = e.storedLines? := by
  funext size prior texts
  induction texts generalizing size prior with
  | nil => rfl
  | cons text texts ih => simp only [storedLines?, storedLine?_withSize_congr config capacity, ih]

theorem storedLines?_cons_iff {size last : Nat} :
    e.storedLines? size prior (text :: texts) = some (lines, last) ↔
      ∃ line rest, (e.withSize size).storedLine? prior text = some line ∧
        e.storedLines? (size - prior.size + line.size) .empty texts = some (rest, last) ∧
        lines = line :: rest := by
  constructor
  · intro stored
    obtain ⟨line, first, stored⟩ := Option.bind_eq_some_iff.mp stored
    obtain ⟨⟨rest, size⟩, others, stored⟩ := Option.bind_eq_some_iff.mp stored
    cases stored
    exact ⟨line, rest, first, others, rfl⟩
  · rintro ⟨line, rest, first, others, rfl⟩
    simp [storedLines?, first, others]

theorem storedLines?_append {size next last : Nat} {others : List String}
    (first : e.storedLines? size prior texts = some (lines, next))
    (rest : e.storedLines? next .empty others = some (more, last))
    (fresh : prior = .empty ∨ lines ≠ []) :
    e.storedLines? size prior (texts ++ others) = some (lines ++ more, last) := by
  induction texts generalizing size prior lines with
  | nil =>
    cases first
    rcases fresh with rfl | nonempty
    · exact rest
    · contradiction
  | cons text texts ih =>
    obtain ⟨line, lines, stored, tail, rfl⟩ := storedLines?_cons_iff.mp first
    exact storedLines?_cons_iff.mpr ⟨line, _, stored, ih tail (.inl rfl), rfl⟩

theorem exists_storedLine {outcome : Outcome}
    (accepted : (e.writePlain h prior text).result = .ok outcome) :
    ∃ line, e.storedLine? prior text = some line ∧
      (e.writePlain h prior text).editor = e.setLine h line := by
  unfold writePlain at accepted ⊢
  unfold storedLine?
  cases made : compile text with
  | error err => exact ⟨_, rfl, rfl⟩
  | ok c =>
    rw [made] at accepted
    dsimp only at accepted ⊢
    split
    next => exact ⟨_, rfl, rfl⟩
    next fits =>
      rw [if_neg fits] at accepted
      cases room : e.script.checkCapacity prior.size c.bytecode.length with
      | error err =>
        rw [room] at accepted
        contradiction
      | ok _ => exact ⟨_, rfl, rfl⟩

def Stores (expanded : Option (List String × Nat)) (e : Editor) (prior : Line) (lines : List Line)
    (e' : Editor) : Prop :=
  ∃ texts, expanded = some (texts, e'.guards.expansions) ∧
    e.storedLines? e.script.totalSize prior texts = some (lines, e'.script.totalSize)

theorem Stores.append {expand : Nat → String → Option (List String × Nat)}
    (first : Stores (expand e.guards.expansions text) e prior (line :: lines) e')
    (rest : Stores (leavesOfAll expand e'.guards.expansions texts) e' .empty more e'')
    (config : e'.config = e.config) (capacity : e'.script.capacity = e.script.capacity) :
    Stores (leavesOfAll expand e.guards.expansions (text :: texts)) e prior
      (line :: lines ++ more) e'' := by
  obtain ⟨as, expanded, stored⟩ := first
  obtain ⟨bs, others, storedRest⟩ := rest
  rw [storedLines?_congr config capacity] at storedRest
  refine ⟨as ++ bs, ?_, storedLines?_append stored storedRest (.inr (List.cons_ne_nil _ _))⟩
  simp [leavesOfAll, expanded, others]

def Writer.Stores (write : Writer) (levels : Nat) : Prop :=
  ∀ ⦃e : Editor⦄ ⦃h : Handle⦄ ⦃text : String⦄ ⦃edited : Edited Outcome⦄ ⦃outcome : Outcome⦄
    ⦃as bs : List Entry⦄ ⦃old : Line⦄, e.script.Sound (as ++ ⟨h, old⟩ :: bs) →
    e.levelsLeft = levels → write e h text = .ok edited → edited.result = .ok outcome →
    ∃ line new, e.script.Grown (as ++ [⟨h, line⟩]) new bs edited.editor.script ∧
      Editor.Stores (leaves e.macros e.config.maxMacroRepeat levels e.guards.expansions text) e old
        (line :: new.map (·.line)) edited.editor

theorem writePlain_stores {outcome : Outcome} (sound : e.script.Sound (as ++ ⟨h, old⟩ :: bs))
    (accepted : (e.writePlain h old text).result = .ok outcome) :
    ∃ line, e.script.Grown (as ++ [⟨h, line⟩]) [] bs (e.writePlain h old text).editor.script ∧
      Stores (some ([text], e.guards.expansions)) e old [line] (e.writePlain h old text).editor := by
  obtain ⟨line, stored, written⟩ := exists_storedLine accepted
  rw [written]
  refine ⟨line, sound.grown_setLine line, [text], rfl, ?_⟩
  refine storedLines?_cons_iff.mpr ⟨line, [], stored, ?_, rfl⟩
  have found : e.script.get? h = some old := sound.get?_split
  simp [storedLines?, setLine, Script.setLine, found]

section Expansion

variable (stores : (writeWith levels).Stores levels)

include stores

theorem insertWith_stores {relation : Relation} {edited : Edited (Handle × Outcome)}
    {place : Handle × Outcome} (sound : e.script.Sound (as ++ bs)) (left : e.levelsLeft = levels)
    (gap : Gap as bs h n relation)
    (done : insertWith (writeWith levels) e h n relation text = .ok edited)
    (accepted : edited.result = .ok place) :
    ∃ h' line new, e.script.Grown as (⟨h', line⟩ :: new) bs edited.editor.script ∧
      Stores (leaves e.macros e.config.maxMacroRepeat levels e.guards.expansions text) e .empty
        (line :: new.map (·.line)) edited.editor := by
  cases gapCase sound gap done with
  | refused => contradiction
  | @written h' script _ _ grown wrote =>
    have laid : script.Sound (as ++ ⟨h', .empty⟩ :: bs) := grown.sound
    obtain ⟨line, new, again, texts, expanded, stored⟩ :=
      stores (e := { e with script }) laid left wrote rfl
    refine ⟨h', line, new, grown.trans again rfl rfl, texts, expanded, ?_⟩
    have same : script.totalSize = e.script.totalSize := by
      rw [laid.size, sound.size]
      simp [Line.empty, Line.compiled]
    have alike : ({ e with script } : Editor).storedLines? = e.storedLines? :=
      storedLines?_congr rfl grown.shifted.capacity
    rw [alike] at stored
    exact same ▸ stored

theorem emitRest_stores {s : Script} {edited : Edited Unit} (grown : s.Grown as new bs e.script)
    (nonempty : as ≠ []) (left : e.levelsLeft = levels)
    (done : emitRest (writeWith levels) as.length (as.length + bs.length)
      (bs.head?.map (·.handle)) e texts = .ok edited)
    (accepted : edited.result = .ok ()) :
    ∃ added, s.Grown as (new ++ added) bs edited.editor.script ∧
      Stores (leavesOfAll (leaves e.macros e.config.maxMacroRepeat levels) e.guards.expansions
        texts) e .empty (added.map (·.line)) edited.editor := by
  induction texts generalizing e new with
  | nil =>
    cases done
    refine ⟨[], ?_, [], rfl, rfl⟩
    rwa [List.append_nil]
  | cons text texts ih =>
    have sound := grown.sound
    rw [← List.append_assoc] at sound
    cases growCase grown.sound.toLists nonempty done with
    | refused => contradiction
    | @inserted _ _ _ _ after _ gap insert rest =>
      -- What the text comes to stands in the gap now, and the next text goes in behind it.
      obtain ⟨h', line, more, again, first⟩ := insertWith_stores stores sound left gap insert rfl
      have frame : e.Frame after := insertWith_frame insert
      obtain ⟨added, kept, others⟩ :=
        ih (grown.trans again rfl rfl) (frame.levelsLeft.trans left) rest
      rw [List.append_assoc] at kept
      refine ⟨⟨h', line⟩ :: more ++ added, kept, ?_⟩
      rw [frame.macros, frame.config] at others
      simpa using first.append others frame.config again.shifted.capacity

theorem emit_stores {edited : Edited Nat} {count : Nat}
    (sound : e.script.Sound (as ++ ⟨h, old⟩ :: bs)) (left : e.levelsLeft = levels)
    {texts : List String}
    (done : emit (writeWith levels) e h (as.length + 1) (bs.head?.map (·.handle)) texts =
      .ok edited) (accepted : edited.result = .ok count) :
    ∃ line new, e.script.Grown (as ++ [⟨h, line⟩]) new bs edited.editor.script ∧
      Stores (leavesOfAll (leaves e.macros e.config.maxMacroRepeat levels) e.guards.expansions
        (texts.headD "" :: texts.tail)) e old (line :: new.map (·.line)) edited.editor := by
  cases emitCase done with
  | refused => contradiction
  | written wrote emitted =>
    obtain ⟨line, new, grown, head⟩ := stores sound left wrote rfl
    have frame := writeWith_frame wrote
    rw [emitRest_split sound ⟨h, line⟩] at emitted
    obtain ⟨_, othersOk, -⟩ := map_eq_ok.mp accepted
    obtain ⟨added, kept, tail⟩ :=
      emitRest_stores stores grown (by simp) (frame.levelsLeft.trans left) emitted othersOk
    refine ⟨line, new ++ added, kept, ?_⟩
    rw [frame.macros, frame.config] at tail
    simpa using head.append tail frame.config grown.shifted.capacity

theorem expandTemplate_stores {t : Macro.Template} {edited : Edited Outcome} {outcome : Outcome}
    (sound : e.script.Sound (as ++ ⟨h, old⟩ :: bs)) (left : e.levelsLeft = levels + 1)
    (calls : callsMacro text = true) (known : e.macros.get? (callOf text).name = some t)
    (free : e.isGuarded = false)
    (done : expandTemplate (writeWith levels) e h old (as.length + 1) t (callOf text).args =
      .ok edited) (accepted : edited.result = .ok outcome) :
    ∃ line new, e.script.Grown (as ++ [⟨h, line⟩]) new bs edited.editor.script ∧
      Stores (leaves e.macros e.config.maxMacroRepeat (levels + 1) e.guards.expansions text) e old
        (line :: new.map (·.line)) edited.editor := by
  cases expandCase done with
  | refused => contradiction
  | expanded bound emitted =>
    rw [sound.next?_split] at emitted
    simp only [isGuarded, Bool.or_eq_false_iff, decide_eq_false_iff_not, Nat.not_le] at free
    obtain ⟨line, new, grown, texts, expanded, stored⟩ :=
      emit_stores stores (e := e.enter) sound (levelsLeft_enter left) emitted rfl
    have alike : e.enter.storedLines? = e.storedLines? := storedLines?_congr rfl rfl
    rw [alike] at stored
    refine ⟨line, new, grown, texts, ?_, stored⟩
    rw [leaves_expanded calls known free.2 bound]
    exact expanded

end Expansion

/-- Every write that is accepted stores what its text comes to. -/
theorem writeWith_stores (levels : Nat) : (writeWith levels).Stores levels := by
  -- The lines of a macro are written one level further down.
  induction levels using Nat.strongRecOn with
  | ind levels deeper =>
    intro e h text edited outcome as bs old sound left done accepted
    have write := writeCase levels e h text
    have found := sound.get?_split
    generalize writeWith levels e h text = result at write done
    cases write with
    | missing | unknown | unnumbered =>
      cases done
      contradiction
    | endless => cases done
    | plain here plain =>
      cases done
      cases found.symm.trans here
      obtain ⟨line, grown, stored⟩ := writePlain_stores sound accepted
      rw [leaves_plain plain]
      exact ⟨line, [], grown, stored⟩
    | held here calls known guarded =>
      cases done
      cases found.symm.trans here
      obtain ⟨_, blank, -⟩ := map_eq_ok.mp accepted
      obtain ⟨line, grown, stored⟩ := writePlain_stores sound blank
      -- While levels are left, only the number of expansions can hold a macro back.
      have held : levels = 0 ∨ e.config.maxMacroRepeat ≤ e.guards.expansions := by
        simp only [isGuarded, Bool.or_eq_true, decide_eq_true_eq] at guarded
        unfold levelsLeft at left
        omega
      rw [leaves_held calls known held]
      exact ⟨line, [], grown, stored⟩
    | @expanded _ _ below _ same here calls known free numbered =>
      cases found.symm.trans here
      cases sound.lineNumber?_split.symm.trans numbered
      subst same
      exact expandTemplate_stores (deeper below (Nat.lt_succ_self below)) sound left calls known
        free done accepted

/-- An update that is accepted puts the stored texts of its expansion in the place of the line, and
leaves all other lines as they are. -/
theorem Reachable.update_leaves {c : Config} {edited : Edited Outcome} {outcome : Outcome}
    (reached : Reachable c e) (room : 5 ≤ c.maxSize) (done : e.update h text = .ok edited)
    (accepted : edited.result = .ok outcome) :
    ∃ above prior below texts first rest,
      e.script.entries = above ++ ⟨h, prior⟩ :: below ∧
      leaves e.macros e.config.maxMacroRepeat e.levelsLeft e.guards.expansions text =
        some (texts, edited.editor.guards.expansions) ∧
      edited.editor.script.entries = above ++ (⟨h, first⟩ :: rest) ++ below ∧
      e.storedLines? e.script.totalSize prior texts =
        some (first :: rest.map (·.line), edited.editor.script.totalSize) := by
  obtain ⟨es, sound⟩ := (reached.inOrder room).script.sound
  cases found : e.script.get? h with
  | none =>
    unfold update writeWith at done
    rw [found] at done
    cases done
    contradiction
  | some prior =>
    obtain ⟨above, below, rfl⟩ := sound.split_of_get? found
    obtain ⟨first, rest, grown, texts, expanded, stored⟩ :=
      writeWith_stores e.levelsLeft sound rfl done accepted
    refine ⟨above, prior, below, texts, first, rest, sound.entries, expanded, ?_, stored⟩
    simpa using grown.sound.entries

def withNested : Editor :=
  { Editor.new {} with
    macros := ⟨[⟨"a", "", [], ["END", "#b", "DIE"]⟩, ⟨"b", "", [], ["WAIT 1", "WAIT 2"]⟩]⟩ }

theorem update_leaves_nested : ∃ edited first rest size,
    withNested.update ⟨1, 0⟩ "#a" = .ok edited ∧
      edited.editor.script.entries = ⟨⟨1, 0⟩, first⟩ :: rest ∧
      withNested.storedLines? withNested.script.totalSize .blank
        ["END", "WAIT 1", "WAIT 2", "DIE"] = some (first :: rest.map (·.line), size) := by
  have reached : Reachable {} withNested := .perform (.setMacros withNested.macros) .new rfl
  have written : (withNested.update ⟨1, 0⟩ "#a").map (·.result) = .ok (.ok (.expanded 3)) := by
    decide +kernel
  obtain ⟨edited, done, accepted⟩ := map_eq_ok.mp written
  obtain ⟨above, prior, below, texts, first, rest, before, expanded, after, stored⟩ :=
    Reachable.update_leaves reached (by decide) done accepted
  have leavesOf : leaves withNested.macros withNested.config.maxMacroRepeat withNested.levelsLeft
      withNested.guards.expansions "#a" = some (["END", "WAIT 1", "WAIT 2", "DIE"], 2) := by
    decide +kernel
  rw [leavesOf] at expanded
  obtain ⟨rfl, -⟩ := Prod.mk.inj (Option.some.inj expanded)
  have blank : withNested.script.entries = [⟨⟨1, 0⟩, .blank⟩] := rfl
  rw [blank] at before
  cases above with
  | nil =>
    cases before
    rw [List.nil_append, List.append_nil] at after
    exact ⟨edited, first, rest, _, done, after, stored⟩
  | cons _ above => simp at before

end RobotScript.Editor
