import RobotScript.Proofs.Ending
/-!
Replacing one match. What a search comes upon is a run of whole characters that spells the pattern.
A replacement takes the place of that run and of nothing else; the text that comes of it is cut
between characters and written as an update writes it.
-/
namespace RobotScript

open Chars (width)

namespace SearchOptions

/-- Whether a text falls into what stands before a column, an occurrence of a pattern there, and what
stands behind the occurrence. -/
structure Parts (o : SearchOptions) (pattern text : String) (column : Nat)
    (before occurrence behind : List Char) : Prop where
  whole : text.toList = before ++ (occurrence ++ behind)
  start : width before = column
  stop : width (before ++ occurrence) = column + Text.size pattern
  same : o.view (String.ofList occurrence) = o.view pattern

variable {o : SearchOptions} {pattern text : String} {column : Nat}

theorem Carries.exists_parts (carries : o.Carries pattern text column) :
    ∃ before occurrence behind, o.Parts pattern text column before occurrence behind := by
  rcases carries with ⟨before, occurrence, behind, whole, same, start⟩
  refine ⟨before, occurrence, behind, whole, start, ?_, ?_⟩
  · rw [Chars.width_append, start, Chars.width_match o.letter_size same, Text.size]
  · rw [view_eq, view_eq, String.toList_ofList, same]

theorem Parts.splice_eq {before occurrence behind : List Char}
    (parts : o.Parts pattern text column before occurrence behind) (replacement : String) :
    Text.splice text column (column + Text.size pattern) replacement =
      String.ofList (before ++ (replacement.toList ++ behind)) := by
  have stop : column + Text.size pattern = width before + width occurrence := by
    rw [← parts.stop, Chars.width_append]
  rw [stop, ← parts.start, ← Text.toList_splice parts.whole, String.ofList_toList]

end SearchOptions

namespace Script

def Shows (s : Script) (o : SearchOptions) (pattern : String) (m : Match) : Prop :=
  s.lineAt? m.number = some m.handle ∧ ∃ line before occurrence behind,
    s.get? m.handle = some line ∧ o.Parts pattern line.text m.column before occurrence behind

end Script

namespace Editor

variable {c : Config} {e e' : Editor} {o : SearchOptions} {pattern replacement text : String}
  {es : List Entry}

def withCursor (e : Editor) (cursor : Cursor) : Editor :=
  { e with script := { e.script with cursor } }

theorem setLine_withCursor (e : Editor) (cursor : Cursor) (h : Handle) (line : Line) :
    (e.withCursor cursor).setLine h line = (e.setLine h line).withCursor cursor := by
  unfold setLine Script.setLine withCursor
  dsimp only [Script.get?]
  split <;> rfl

theorem writePlain_withCursor (e : Editor) (cursor : Cursor) (h : Handle) (prior : Line)
    (text : String) : (e.withCursor cursor).writePlain h prior text =
      ⟨(e.writePlain h prior text).result, (e.writePlain h prior text).editor.withCursor cursor⟩ := by
  have room : ∀ old new, (e.withCursor cursor).script.checkCapacity old new =
      e.script.checkCapacity old new := fun _ _ => rfl
  have invalid : ∀ text d old,
      (e.withCursor cursor).invalidLine text d old = e.invalidLine text d old := fun _ _ _ => rfl
  unfold writePlain setInvalid
  simp only [room, invalid, setLine_withCursor]
  split
  · rfl
  · split
    · rfl
    · split <;> rfl

theorem callsMacro_cut (text : String) :
    callsMacro (Text.cut Line.maxText text) = callsMacro text := by
  unfold callsMacro Text.cut
  rw [String.toList_ofList]
  cases text.toList with
  | nil => rfl
  | cons c cs =>
    have narrow := c.utf8Size_le_four
    rw [Chars.cut, if_pos (Nat.le_trans narrow (by decide))]
    rfl

theorem moveTo_eq_withCursor {m : Match} (sound : e.script.Sound es)
    (stands : Entry.At es m.number m.handle) :
    e.moveTo m = .ok (e.withCursor ⟨m.handle, m.number, m.column⟩) :=
  moveTo_eq sound stands

theorem shows_of_findFrom {start last : Nat} {m : Match} (sound : e.script.Sound es)
    (found : e.findFrom pattern o start last = some m) : e.script.Shows o pattern m := by
  rcases findFrom_held sound.toLists.balanced.holds found with ⟨⟨line, current, carries⟩, -, -⟩
  rcases carries.exists_parts with ⟨before, occurrence, behind, parts⟩
  exact ⟨sound.lineAt?_eq_some_iff.mpr (findFrom_at sound found), line, before, occurrence, behind,
    current, parts⟩

theorem reachable_of_replaces {a b : Pass × Editor}
    (run : Relation.ReflTransGen (Replaces pattern replacement o) a b)
    (reached : Reachable c a.2) : Reachable c b.2 := by
  induction run with
  | refl => exact reached
  | tail _ next ih => exact next.reachable ih

theorem replaceOne_eq {m : Match} {line : Line} {before occurrence behind : List Char}
    (sound : e.script.Sound es) (sought : e.seek pattern o = .ok (some m))
    (current : e.script.get? m.handle = some line)
    (parts : o.Parts pattern line.text m.column before occurrence behind)
    (plain : callsMacro (String.ofList (before ++ (replacement.toList ++ behind))) = false) :
    ∃ text updated,
      Text.IsLongest 240 (String.ofList (before ++ (replacement.toList ++ behind))) text ∧
      e.update m.handle text = .ok updated ∧
      e.script.Spares [m.handle] updated.editor.script ∧
      e.replaceOne pattern replacement o = .ok ⟨updated.result.map fun _ => some m,
        updated.editor.withCursor ⟨m.handle, m.number, m.column⟩⟩ := by
  have moved := moveTo_eq_withCursor sound (find_at sound (find_of_seek sought))
  have short := (callsMacro_cut _).trans plain
  have there : (e.withCursor ⟨m.handle, m.number, m.column⟩).script.get? m.handle = some line :=
    current
  refine ⟨_, _, Text.isLongest_cut Line.maxText _, update_plain current short, ?_, ?_⟩
  · rcases writePlain_cases e m.handle line _ with ⟨err, refused⟩ | ⟨_, line', -, -, written⟩
    · rw [refused]
      exact Script.spares_refl _ _
    · rw [written]
      exact e.script.spares_setLine m.handle line'
  · unfold replaceOne replaceAt
    rw [sought]
    simp only [bind, Except.bind, pure, Except.pure]
    rw [moved]
    dsimp only
    rw [there]
    dsimp only
    rw [parts.splice_eq, update_plain there short, writePlain_withCursor]

/-- Each match that a replacement comes upon is an occurrence between characters of its line. A
replacement of one match writes what comes of putting the replacement there, as an update writes it,
and leaves the rest of the script as it is, unless the text calls a macro. -/
theorem Reachable.replaces_match (reached : Reachable c e) (room : 5 ≤ c.maxSize)
    (pattern replacement : String) (o : SearchOptions) :
    (∀ a m, Relation.ReflTransGen (Replaces pattern replacement o) (.start e.script.cursor, e) a →
      a.2.findFrom pattern o a.1.resume a.1.startLine = some m → a.2.script.Shows o pattern m) ∧
    match e.seek pattern o with
    | .error fault => fault = .overflow ∧ Bounds.max64 ≤ e.script.cursor.column ∧
      e.replaceOne pattern replacement o = .error fault
    | .ok none => e.replaceOne pattern replacement o = .ok ⟨.ok none, e⟩
    | .ok (some m) =>
      e.script.Shows o pattern m ∧ ∀ line before occurrence behind,
        e.script.get? m.handle = some line →
        o.Parts pattern line.text m.column before occurrence behind →
        callsMacro (String.ofList (before ++ (replacement.toList ++ behind))) = false →
        ∃ text updated,
          Text.IsLongest 240 (String.ofList (before ++ (replacement.toList ++ behind))) text ∧
          e.update m.handle text = .ok updated ∧
          e.script.Spares [m.handle] updated.editor.script ∧
          e.replaceOne pattern replacement o = .ok ⟨updated.result.map fun _ => some m,
            updated.editor.withCursor ⟨m.handle, m.number, m.column⟩⟩ := by
  rcases (reached.inOrder room).script.sound with ⟨es, sound⟩
  constructor
  · intro a m run found
    rcases ((reachable_of_replaces run reached).inOrder room).script.sound with ⟨es', sound'⟩
    exact shows_of_findFrom sound' found
  · cases sought : e.seek pattern o with
    | error fault =>
      rcases seek_eq_error sound sought with ⟨rfl, bound⟩
      refine ⟨rfl, bound, ?_⟩
      unfold replaceOne
      rw [sought]
      rfl
    | ok m? =>
      cases m? with
      | none =>
        unfold replaceOne
        dsimp only
        rw [sought]
        rfl
      | some m =>
        refine ⟨shows_of_findFrom sound (find_of_seek sought), ?_⟩
        intro line before occurrence behind current parts plain
        exact replaceOne_eq sound sought current parts plain

/-- An occurrence in another case, with characters of two bytes before, in and behind it. -/
theorem replaces_match_folded : ∃ e e' : Editor, Reachable {} e ∧
    e.script.lines.map Line.text = [": \"aéÉA\""] ∧
    e.script.Shows {} "Éa" ⟨⟨1, 0⟩, 1, 6⟩ ∧
    e.replaceOne "Éa" "ü" {} = .ok ⟨.ok (some ⟨⟨1, 0⟩, 1, 6⟩), e'⟩ ∧
    e.script.Spares [⟨1, 0⟩] e'.script ∧
    e'.script.cursor = ⟨⟨1, 0⟩, 1, 6⟩ ∧
    e'.script.lines.map Line.text = [": \"aéü\""] := by
  generalize whole : (Editor.new {}).load
    [0xFF, 9, 106, 7, 97, 0xC3, 0xA9, 0xC3, 0x89, 65, 0, 9, 0] = e
  have reached : Reachable {} e := by
    rw [← whole]
    exact .perform (.load _) .new rfl
  have sought : e.seek "Éa" {} = .ok (some ⟨⟨1, 0⟩, 1, 6⟩) := by
    rw [← whole]
    decide +kernel
  have after := (Reachable.replaces_match reached (by decide) "Éa" "ü" {}).2
  rw [sought] at after
  rcases after with ⟨shown, replaced⟩
  have current : e.script.get? ⟨1, 0⟩ = some (.compiled ": \"aéÉA\""
      [9, 106, 7, 97, 0xC3, 0xA9, 0xC3, 0x89, 65, 0, 9] [.word]) := by
    rw [← whole]
    decide +kernel
  have parts : SearchOptions.Parts {} "Éa" ": \"aéÉA\"" 6
      [':', ' ', '"', 'a', 'é'] ['É', 'A'] ['"'] := by
    constructor <;> decide
  rcases replaced _ _ _ _ current parts (by decide) with ⟨text, updated, longest, made, spared, done⟩
  have text_eq : text = ": \"aéü\"" := longest.eq_of_size_le (by decide)
  have outcome : (e.update ⟨1, 0⟩ ": \"aéü\"").toOption.map
      (fun updated => (updated.result.toOption, updated.editor.script.lines.map Line.text)) =
        some (some .compiled, [": \"aéü\""]) := by
    rw [← whole]
    decide +kernel
  rw [text_eq] at made
  rw [made] at outcome
  rcases Prod.mk.inj (Option.some.inj outcome) with ⟨accepted, lines⟩
  cases result : updated.result with
  | error err =>
    rw [result] at accepted
    cases accepted
  | ok outcome =>
    rw [result] at done
    refine ⟨e, _, reached, ?_, shown, done, ⟨spared.others, spared.order, spared.mark⟩, rfl, lines⟩
    rw [← whole]
    decide +kernel

end Editor

end RobotScript
