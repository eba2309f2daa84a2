import RobotScript.Proofs.Histories
import RobotScript.Proofs.Marking
/-!
What handles name. From one opening of a program to the next each new line has a handle that no
line had before it; the handle names that line until it is taken out, and nothing after that.
-/
namespace RobotScript

namespace Script

variable {s₀ s s' : Script} {es : List Entry} {log : List Event} {h : Handle} {line : Line}

theorem contains_iff_mem_held : s.contains h = true ↔ h ∈ Entry.handlesOf s.links.held := by
  rw [contains, Option.isSome_iff_ne_none, Ne, get?, Links.get?_eq_none_iff, Entry.mem_handlesOf_iff]
  simp

def LivesIn (s s' : Script) : Prop := ∀ k, s.contains k = true → s'.contains k = true

theorem LivesIn.refl (s : Script) : s.LivesIn s := fun _ => id

theorem LivesIn.trans {s'' : Script} (lives : s.LivesIn s') (again : s'.LivesIn s'') :
    s.LivesIn s'' := fun k there => again k (lives k there)

theorem livesIn_setLine (h : Handle) (line : Line) : s.LivesIn (s.setLine h line) := by
  intro k there
  rw [contains_iff_mem_held] at there ⊢
  unfold Script.setLine
  split
  · exact there
  · have same := Entry.handlesOf_perm (s.links.held_setLine h line)
    rw [Links.handlesOf_map_setLine] at same
    exact same.mem_iff.mpr there

theorem livesIn_insertLine {anchor : Handle} {number? : Option Nat} {relation : Relation}
    {number : Nat} (inserted : s.insertLine anchor number? relation line = (.ok (h, number), s')) :
    s.LivesIn s' ∧ h = s.pool.allocate.1 ∧ s'.contains h = true := by
  rcases s.insertLine_cases anchor number? relation line with
    ⟨_, _, placed, put, -⟩ | ⟨_, _, refused, -⟩
  · cases inserted.symm.trans placed
    have looked : ∀ k, s'.get? k = if k = s.pool.allocate.1 then some line else s.get? k :=
      Links.get?_insert? put
    refine ⟨fun k there => ?_, rfl, ?_⟩
    · unfold contains at there ⊢
      rw [looked]
      split
      · rfl
      · exact there
    · rw [contains, looked, if_pos rfl]
      rfl
  · cases inserted.symm.trans refused

theorem Books.contains_iff (books : s₀.Books log s) :
    s.contains h = true ↔ h ∈ Entry.handlesOf s₀.links.held ++ given log ∧ h ∉ taken log :=
  contains_iff_mem_held.trans (books.ledger.mem_iff h)

theorem Books.gone (books : s₀.Books log s) (mem : h ∈ taken log) :
    s.contains h = false ∧ s.get? h = none := by
  have absent : s.contains h = false := by
    rw [Bool.eq_false_iff, ne_eq, books.contains_iff]
    exact fun there => there.2 mem
  exact ⟨absent, by simpa [contains] using absent⟩

theorem Books.contains_allocate (books : s₀.Books log s) :
    s.contains s.pool.allocate.1 = false := by
  rw [contains, books.get?_allocate]
  rfl

theorem numberOf_ne_of_get?_eq_none (gone : s.get? h = none) (real : h.isTop = false)
    (other : h ≠ s.cursor.handle) (n : Nat) : s.numberOf h ≠ .ok (some n) := by
  intro numbered
  replace numbered := lineNumber?_of_numberOf numbered
  have absent : s.index? h = none := by
    rw [index?, Entry.indexIn?_eq_none_iff]
    intro y mem
    exact Links.get?_eq_none_iff.mp gone y (Links.mem_held_of_mem_below mem)
  rw [lineNumber?, real, if_neg (by simp), if_neg other, absent, Option.map_none] at numbered
  contradiction

theorem Sound.exists_numberOf (sound : s.Sound es) (there : s.contains h = true) :
    ∃ n, s.numberOf h = .ok (some n) ∧ s.lineAt? n = some h := by
  rcases Entry.mem_handlesOf_iff.mp (sound.contains_iff.mp there) with ⟨x, mem, rfl⟩
  rcases List.append_of_mem mem with ⟨as, bs, rfl⟩
  exact ⟨as.length + 1, numberOf_of_lineNumber? sound.lineNumber?_split,
    sound.lineAt?_eq_some_iff.mpr (Entry.at_split as x bs)⟩

theorem Sound.mem_handles_iff (sound : s.Sound es) : h ∈ s.handles ↔ s.contains h = true := by
  rw [sound.contains_iff, handles, sound.entries]
  rfl

theorem Sound.cursor_ne (sound : s.Sound es) (gone : s.contains h = false) :
    h ≠ s.cursor.handle := by
  rintro rfl
  rw [sound.contains_iff.mpr sound.cursor.mem] at gone
  contradiction

theorem KeptIn.livesIn {es' : List Entry} (kept : s.KeptIn s') (sound : s.Sound es)
    (sound' : s'.Sound es') : s.LivesIn s' :=
  fun _ there => sound'.mem_handles_iff.mp (kept.handles.subset (sound.mem_handles_iff.mpr there))

theorem insertBlank_gives {anchor : Handle} {relation : Relation}
    (done : s.insertBlank anchor relation = .ok (.ok h, s')) :
    h = s.pool.allocate.1 ∧ s'.contains h = true := by
  replace done := insertBlankAt_of_insertBlank done
  unfold Script.insertBlankAt at done
  split at done
  · cases done
  · generalize inserted : s.insertLine anchor (s.lineNumber? anchor) relation .blank = result at done
    rcases result with ⟨_ | ⟨h', number⟩, s''⟩
    · cases done
    · cases done
      exact (livesIn_insertLine inserted).2

end Script

namespace Editor

variable {c : Config} {e₀ e e' : Editor} {log more : List Event} {h : Handle}

inductive Opened (c : Config) : Editor → Prop where
  | new : Opened c (.new c)
  | load {e : Editor} (program : Bytes) : Reachable c e → Opened c (e.load program)

theorem Opened.reachable (opened : Opened c e) : Reachable c e := by
  cases opened with
  | new => exact .new
  | load program reached => exact .perform (.load program) reached rfl

theorem Opened.unused (opened : Opened c e) : e.script.Unused := by
  cases opened with
  | new =>
    rcases Script.lists_ofLines c.maxSize [] with ⟨es, none, lists⟩
    rw [List.map_eq_nil_iff.mp none] at lists
    exact (Script.unused_ofLines _ _).seed lists
  | @load e program reached =>
    rcases Script.lists_ofLines e.config.maxSize
      ((splitRecords (programBody program)).1.map lineOfRecord) with ⟨es, -, lists⟩
    have unused := Script.unused_ofLines e.config.maxSize
      ((splitRecords (programBody program)).1.map lineOfRecord)
    unfold Editor.load
    dsimp only
    split
    next h first => exact unused.setCursor h 1
    next first =>
      rw [lists.eq_nil_of_first? first] at lists
      exact unused.seed lists

/-- The editors that come of another without a program being opened, and what becomes of the lines
on the way. -/
inductive Run (e₀ : Editor) : List Event → Editor → Prop where
  | start : Run e₀ [] e₀
  | perform {log more : List Event} {e e' : Editor} (operation : Operation) :
    Run e₀ log e → (∀ program, operation ≠ .load program) → e.perform operation = .ok e' →
    e.script.Traced more e'.script → Run e₀ (log ++ more) e'

theorem Run.traced (run : Run e₀ log e) : e₀.script.Traced log e.script := by
  induction run with
  | start => exact .refl _
  | perform operation _ _ _ traced before => exact before.trans traced

theorem Run.reachable (run : Run e₀ log e) (reached : Reachable c e₀) : Reachable c e := by
  induction run with
  | start => exact reached
  | perform operation _ _ done _ before => exact .perform operation before done

theorem Run.books (run : Run e₀ log e) (opened : Opened c e₀)
    (few : (taken log).length < 2 ^ 32) : e₀.script.Books log e.script := by
  rcases run.traced with ⟨acts, played⟩
  have books := opened.unused.books.play acts
  rw [played] at books
  exact books few

/-- Whatever an operation does, there is a history of it. -/
theorem exists_traced {operation : Operation} (other : ∀ program, operation ≠ .load program)
    (done : e.perform operation = .ok e') : ∃ more, e.script.Traced more e'.script :=
  (steady_keeps (Script.editable_traced e.script)).perform ⟨[], .refl _⟩ other done

/-! ### Lines that are put in -/

/-- Whether a writer that does not refuse leaves all lines there. -/
def Writer.Spares (write : Writer) : Prop :=
  ∀ ⦃e : Editor⦄ ⦃h : Handle⦄ ⦃text : String⦄ ⦃edited : Edited Outcome⦄ ⦃outcome : Outcome⦄,
    write e h text = .ok edited → edited.result = .ok outcome → e.script.LivesIn edited.editor.script

section Expansion

variable {write : Writer} (spares : write.Spares)

include spares

theorem insertWith_spares {anchor : Handle} {number : Nat} {relation : Relation} {text : String}
    {edited : Edited (Handle × Outcome)} {h : Handle} {outcome : Outcome}
    (done : insertWith write e anchor number relation text = .ok edited)
    (accepted : edited.result = .ok (h, outcome)) :
    e.script.LivesIn edited.editor.script ∧ h = e.script.pool.allocate.1 ∧
      edited.editor.script.contains h = true := by
  cases insertCase done with
  | nowhere | refused => contradiction
  | written inserted wrote =>
    cases accepted
    have put := Script.livesIn_insertLine inserted
    have after := spares wrote rfl
    exact ⟨put.1.trans after, put.2.1, after h put.2.2⟩

theorem emitRest_spares {number countBefore : Nat} {boundary : Option Handle}
    {texts : List String} {edited : Edited Unit}
    (done : emitRest write number countBefore boundary e texts = .ok edited)
    (accepted : edited.result = .ok ()) : e.script.LivesIn edited.editor.script := by
  induction texts generalizing e with
  | nil =>
    cases done
    exact .refl _
  | cons text texts ih =>
    cases restCase done with
    | nowhere | refused => contradiction
    | inserted _ insert rest =>
      exact (insertWith_spares spares insert rfl).1.trans (ih rest)

theorem emit_spares {number count : Nat} {boundary : Option Handle} {lines : List String}
    {edited : Edited Nat} {h : Handle}
    (done : emit write e h number boundary lines = .ok edited)
    (accepted : edited.result = .ok count) : e.script.LivesIn edited.editor.script := by
  cases emitCase done with
  | refused => contradiction
  | written wrote emitted =>
    rcases map_eq_ok.mp accepted with ⟨_, others, -⟩
    exact (spares wrote rfl).trans (emitRest_spares spares emitted others)

theorem expandTemplate_spares {old : Line} {number : Nat} {t : Macro.Template}
    {args : List Macro.Argument} {edited : Edited Outcome} {outcome : Outcome} {h : Handle}
    (done : expandTemplate write e h old number t args = .ok edited)
    (accepted : edited.result = .ok outcome) : e.script.LivesIn edited.editor.script := by
  cases expandCase done with
  | refused => contradiction
  | expanded _ emitted => exact emit_spares spares (e := e.enter) emitted rfl

end Expansion

theorem writeWith_spares (levels : Nat) : (writeWith levels).Spares := by
  -- The lines of a macro are written one level further down.
  induction levels using Nat.strongRecOn with
  | ind levels deeper =>
    intro e h text edited outcome done accepted
    rcases writeWith_cases done with
      ⟨err, rfl⟩ | ⟨_, _, line, -, -, -, rfl⟩ | ⟨below, _, _, _, rfl, -, -, expanded⟩
    · contradiction
    · exact Script.livesIn_setLine h line
    · exact expandTemplate_spares (deeper below (Nat.lt_succ_self below)) expanded accepted

theorem insert_gives {anchor : Handle} {relation : Relation} {text : String}
    {edited : Edited Handle} (done : e.insert anchor relation text = .ok edited)
    (accepted : edited.result = .ok h) :
    h = e.script.pool.allocate.1 ∧ edited.editor.script.contains h = true := by
  rcases insert_cases done with ⟨-, rfl⟩ | ⟨_, inserted, -, insert, rfl⟩
  · contradiction
  · rcases map_eq_ok.mp accepted with ⟨⟨h', outcome⟩, placed, rfl⟩
    exact (insertWith_spares (writeWith_spares _) insert placed).2

/-! ### What handles name -/

/-- What the handles of an editor name at the end of a run since a program was opened. -/
structure Names (c : Config) (e₀ : Editor) (log : List Event) (e : Editor) : Prop where
  /-- No two lines have one handle, and none has that of the top. -/
  distinct : (Entry.handlesOf e.script.links.held).Nodup
  real : ∀ h ∈ Entry.handlesOf e.script.links.held, h.isTop = false
  /-- Slots are numbered from 1 on, and there are no more than lines to which one was given. -/
  slots : ∀ h, e.script.contains h = true →
    h.slot ≤ (Entry.handlesOf e₀.script.links.held ++ RobotScript.given log).length
  /-- No handle is given to two lines, even if one of them is gone. -/
  given : (Entry.handlesOf e₀.script.links.held ++ given log).Nodup
  /-- A handle names a line from when it is given to it until the line is taken out. -/
  contains : ∀ h, e.script.contains h = true ↔
    h ∈ Entry.handlesOf e₀.script.links.held ++ RobotScript.given log ∧ h ∉ taken log
  /-- What it names is that line, as it was last written. -/
  get? : e.script.get? = replay e₀.script.get? log
  numbered : 5 ≤ c.maxSize → ∀ h, e.script.contains h = true →
    ∃ n, e.script.numberOf h = .ok (some n) ∧ e.script.lineAt? n = some h
  /-- The handle of a line that is gone names none. -/
  gone : ∀ h ∈ taken log, e.script.contains h = false ∧ e.script.get? h = none
  /-- It has no number either, unless the cursor is still there, for which there must be no room for
  a blank line. -/
  unnumbered : ∀ h ∈ taken log, 5 ≤ c.maxSize ∨ h ≠ e.script.cursor.handle →
    ∀ n, e.script.numberOf h ≠ .ok (some n)
  /-- An insertion gives the handle of a line that was not there before. -/
  insert : ∀ anchor relation text edited h, e.insert anchor relation text = .ok edited →
    edited.result = .ok h → e.script.contains h = false ∧ edited.editor.script.contains h = true
  insertBlank : ∀ anchor relation h s, e.script.insertBlank anchor relation = .ok (.ok h, s) →
    e.script.contains h = false ∧ s.contains h = true
  /-- Quiet operations take out no line that was there before. -/
  quiet : 5 ≤ c.maxSize → ∀ operation e', operation.isQuiet = true →
    e.perform operation = .ok e' → e.script.LivesIn e'.script
  /-- The history goes on with every operation that opens no program. -/
  goesOn : ∀ operation e', (∀ program, operation ≠ .load program) →
    e.perform operation = .ok e' → ∃ more, Run e₀ (log ++ more) e'

/-- In a run from one opening of a program to the next, in which fewer lines are taken out than a
word can count, handles of lines are never confused. -/
theorem Run.handles_name_lines (run : Run e₀ log e) (opened : Opened c e₀)
    (few : (taken log).length < 2 ^ 32) : Names c e₀ log e := by
  have books := run.books opened few
  have ledger := books.ledger
  have inOrder : 5 ≤ c.maxSize → e.InOrder := (run.reachable opened.reachable).inOrder
  exact
    { distinct := ledger.owned.nodup
      real := fun h mem => ledger.owned.isTop_eq_false mem
      slots := fun h there => Nat.lt_succ_iff.mp
        (Nat.lt_of_lt_of_le (ledger.known h (books.contains_iff.mp there).1) ledger.slots)
      given := ledger.distinct
      contains := fun _ => books.contains_iff
      get? := books.lines
      numbered := by
        intro room h there
        rcases (inOrder room).script.sound with ⟨es, sound⟩
        exact sound.exists_numberOf there
      gone := fun _ mem => books.gone mem
      unnumbered := by
        intro h mem either
        have other : h ≠ e.script.cursor.handle := by
          rcases either with room | other
          · rcases (inOrder room).script.sound with ⟨es, sound⟩
            exact sound.cursor_ne (books.gone mem).1
          · exact other
        exact Script.numberOf_ne_of_get?_eq_none (books.gone mem).2
          (ledger.real h (ledger.subset mem)) other
      insert := by
        intro anchor relation text edited h done accepted
        rcases insert_gives done accepted with ⟨rfl, there⟩
        exact ⟨books.contains_allocate, there⟩
      insertBlank := by
        intro anchor relation h s done
        rcases Script.insertBlank_gives done with ⟨rfl, there⟩
        exact ⟨books.contains_allocate, there⟩
      quiet := by
        intro room operation e' still done
        have same : e.script.KeptIn e.script := .of_eq rfl rfl
        rcases (quiet_keptIn e.script).perform ⟨inOrder room, same⟩ still done with
          ⟨inOrder', kept⟩
        rcases (inOrder room).script.sound with ⟨es, sound⟩
        rcases inOrder'.script.sound with ⟨es', sound'⟩
        exact kept.livesIn sound sound'
      goesOn := by
        intro operation e' other done
        rcases exists_traced other done with ⟨more, traced⟩
        exact ⟨more, .perform operation run other done traced⟩ }

def follow? : Editor → List (Operation × List Script.Act) → Option (List Event × Editor)
  | e, [] => some ([], e)
  | e, (operation, acts) :: steps =>
    match operation, e.perform operation with
    | .load _, _ => none
    | _, .error _ => none
    | _, .ok e' =>
      if (e.script.play acts).2 = e'.script then
        (follow? e' steps).map fun (log, e'') => ((e.script.play acts).1 ++ log, e'')
      else none

theorem Run.of_follow? {steps : List (Operation × List Script.Act)} (run : Run e₀ log e)
    (followed : follow? e steps = some (more, e')) : Run e₀ (log ++ more) e' := by
  induction steps generalizing log more e with
  | nil =>
    cases followed
    rwa [List.append_nil]
  | cons step steps ih =>
    rcases step with ⟨operation, acts⟩
    unfold follow? at followed
    split at followed
    · contradiction
    · contradiction
    next other done =>
      rcases Option.ite_none_right_eq_some.mp followed with ⟨same, followed⟩
      rcases Option.map_eq_some_iff.mp followed with ⟨⟨rest, e''⟩, followed, same'⟩
      cases same'
      rw [← List.append_assoc]
      exact ih (.perform _ run other done ⟨acts, Prod.ext rfl same⟩) followed

theorem handles_name_lines_reused : ∃ (log : List Event) (e : Editor),
    Run (.new {}) log e ∧ given log = [⟨2, 0⟩, ⟨2, 1⟩] ∧ taken log = [⟨2, 0⟩] ∧
    (taken log).length < 2 ^ 32 ∧ Names {} (.new {}) log e := by
  have followed : (follow? (.new {}) [
      (.edit (.insertBlank .top .after), [.insertLine .top (some 0) .after .blank]),
      (.delete ⟨2, 0⟩ .next, [.unlink ⟨2, 0⟩ 1]),
      (.edit (.insertBlank .top .after), [.insertLine .top (some 0) .after .blank])]).map (·.1) =
        some [.gave ⟨2, 0⟩ .blank, .took ⟨2, 0⟩, .gave ⟨2, 1⟩ .blank] := by
    decide +kernel
  rcases Option.map_eq_some_iff.mp followed with ⟨⟨log, e⟩, whole, rfl⟩
  have run : Run (.new {}) [.gave ⟨2, 0⟩ .blank, .took ⟨2, 0⟩, .gave ⟨2, 1⟩ .blank] e :=
    Run.of_follow? .start whole
  exact ⟨_, e, run, rfl, rfl, by decide, Run.handles_name_lines run .new (by decide)⟩

/-- Without room for a blank line the cursor may stay on a line that is taken out, and the handle
of that line then has the number of another. -/
theorem numberOf_taken : ∃ (log : List Event) (e : Editor),
    Opened { maxSize := 4 } (.new { maxSize := 4 }) ∧ Run (.new { maxSize := 4 }) log e ∧
    (taken log).length < 2 ^ 32 ∧ ⟨1, 0⟩ ∈ taken log ∧ e.script.contains ⟨1, 0⟩ = false ∧
    e.script.numberOf ⟨1, 0⟩ = .ok (some 1) ∧ e.script.lineAt? 1 = some ⟨2, 0⟩ := by
  have followed : (follow? (.new { maxSize := 4 }) [
      (.edit (.insert .top .after "q"), [.insertLine .top (some 0) .after .empty,
        .setLine ⟨1, 0⟩ (.invalid "q" .ignore)]),
      (.clearBlock, [.look ⟨⟨1, 0⟩, 0, 0⟩ none]),
      (.placeMark .start, [.look ⟨⟨1, 0⟩, 0, 0⟩ (some (.single ⟨1, 0⟩ 0))]),
      (.edit (.insert ⟨1, 0⟩ .before "y"), [.insertLine ⟨1, 0⟩ (some 0) .before .empty,
        .setLine ⟨2, 0⟩ (.invalid "y" .ignore)]),
      (.moveCursor (-1), [.look ⟨⟨2, 0⟩, 0, 0⟩ (some (.single ⟨1, 0⟩ 1))]),
      (.edit (.insert ⟨1, 0⟩ .before "z"), [.insertLine ⟨1, 0⟩ (some 2) .before .empty,
        .setLine ⟨3, 0⟩ (.invalid "z" .ignore)]),
      (.moveCursor 2, [.look ⟨⟨1, 0⟩, 2, 0⟩ (some (.single ⟨1, 0⟩ 1))]),
      (.clearBlock, [.unlinkSpan ⟨1, 0⟩ ⟨1, 0⟩, .look ⟨⟨1, 0⟩, 1, 0⟩ none])]).map
      (fun r => ((taken r.1, r.2.script.contains ⟨1, 0⟩), r.2.script.numberOf ⟨1, 0⟩,
        r.2.script.lineAt? 1)) = some (([⟨1, 0⟩], false), .ok (some 1), some ⟨2, 0⟩) := by
    decide +kernel
  rcases Option.map_eq_some_iff.mp followed with ⟨⟨log, e⟩, whole, facts⟩
  simp only [Prod.mk.injEq] at facts
  rcases facts with ⟨⟨taken, gone⟩, number, first⟩
  exact ⟨log, e, .new, Run.of_follow? .start whole, by rw [taken]; decide, by simp [taken], gone,
    number, first⟩

end Editor

end RobotScript
