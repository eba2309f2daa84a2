import RobotScript.Proofs.Leaves
import RobotScript.Proofs.Refusals
import RobotScript.Proofs.Returning
import RobotScript.Proofs.Transferring
/-!
Pasting and importing. The texts are put in above the cursor one after the other, each under guards of
its own, and the cursor stays on its line. So what they come to stands in one block above that line, in
the order of the texts; a text that is refused leaves nothing behind.
-/
namespace RobotScript

namespace Editor

variable {e : Editor} {text : String} {edited : Edited Handle}

/-! ### Putting in a text above the cursor -/

theorem insertAtCursor_frame (done : e.insertAtCursor text = .ok edited) :
    e.Frame edited.editor := by
  rcases insert_cases done with ⟨-, rfl⟩ | ⟨_, inserted, -, insert, rfl⟩
  · exact .refl e
  · exact insertWith_frame insert

theorem insertAtCursor_unknown (calls : callsMacro text = true)
    (unknown : e.macros.get? (callOf text).name = none)
    (done : e.insertAtCursor text = .ok edited) :
    edited.result = .error .lineNotFound ∨
      edited.result = .error (.unknownMacro (callOf text).name) := by
  rcases insert_cases done with ⟨-, rfl⟩ | ⟨number, inserted, -, insert, rfl⟩
  · exact .inl rfl
  · rcases insertWith_unknown calls unknown insert with refused | refused
    · exact .inl (map_eq_error.mpr refused)
    · exact .inr (map_eq_error.mpr refused)

end Editor

/-! ### What becomes of texts -/

inductive Fate where
  /-- It is accepted, and comes to these lines. -/
  | accepted (new : List Entry)
  /-- It calls a macro that is not there, or one that does, and is skipped. -/
  | skipped (name : String)
  /-- There is no room for what the program would grow to. -/
  | full (needed : Nat)

namespace Fate

def added : Fate → List Entry
  | accepted new => new
  | skipped _ | full _ => []

def isAccepted : Fate → Bool
  | accepted _ => true
  | skipped _ | full _ => false

def refusal? (capacity : Nat) : Fate → Option EditError
  | full needed => some (.capacityExceeded needed capacity)
  | accepted _ | skipped _ => none

end Fate

namespace Editor

/-- Whether a text that is put in above the cursor, under guards of its own, meets a fate. -/
inductive Meets (e : Editor) (text : String) : Fate → Editor → Prop where
  | accepted {h : Handle} {new : List Entry} {e' : Editor} :
    e.beginCommand.insertAtCursor text = .ok ⟨.ok h, e'⟩ → new ≠ [] →
    e.script.PutsAbove new e'.script →
    Stores (leaves e.macros e.config.maxMacroRepeat e.config.maxMacroRecursion 0 text) e .empty
      (new.map (·.line)) e' → Meets e text (.accepted new) e'
  | skipped {name : String} {e' : Editor} :
    e.beginCommand.insertAtCursor text = .ok ⟨.error (.unknownMacro name), e'⟩ →
    e.macros.get? name = none → e'.script = { e.script with pool := e'.script.pool } →
    Meets e text (.skipped name) e'
  | full {needed : Nat} {e' : Editor} :
    e.beginCommand.insertAtCursor text =
      .ok ⟨.error (.capacityExceeded needed e.script.capacity), e'⟩ →
    e.script.capacity < needed → e'.script = { e.script with pool := e'.script.pool } →
    Meets e text (.full needed) e'

/-- Whether texts meet fates one after the other. The first that there is no room for is the last that
is tried. -/
inductive Lays : Editor → List String → List Fate → Editor → Prop where
  | done (e : Editor) : Lays e [] [] e
  | next {e e' e'' : Editor} {text : String} {texts : List String} {fate : Fate}
    {fates : List Fate} : e.Meets text fate e' → (∀ capacity, fate.refusal? capacity = none) →
    Lays e' texts fates e'' → Lays e (text :: texts) (fate :: fates) e''
  | stop {e e' : Editor} {text : String} {texts : List String} {needed : Nat} :
    e.Meets text (.full needed) e' → Lays e (text :: texts) [.full needed] e'

variable {e e' : Editor} {as bs : List Entry} {x : Entry} {text : String} {texts : List String}
  {fate : Fate} {fates : List Fate} {edited : Edited Handle}

theorem exists_meets (on : e.script.CursorOn as x bs)
    (done : e.beginCommand.insertAtCursor text = .ok edited) :
    ∃ fate, e.Meets text fate edited.editor ∧
      e.script.Grown as fate.added (x :: bs) edited.editor.script := by
  have sound := on.sound
  rcases insert_cases done with ⟨missing, -⟩ | ⟨number, inserted, numbered, insert, rfl⟩
  · cases sound.lineNumber?_cursor.symm.trans missing
  cases sound.lineNumber?_cursor.symm.trans numbered
  have put : insertWith (writeWith e.beginCommand.levelsLeft) e.beginCommand x.handle
      (as.length + 1) .before text = .ok inserted := by
    rw [on.here, ← on.number]
    exact insert
  have gap := Gap.above as x bs
  cases result : inserted.result with
  | ok place =>
    rw [result] at done
    rcases insertWith_stores (writeWith_stores _) (e := e.beginCommand) sound rfl gap put result
      with ⟨h, line, new, grown, leaves, expanded, stored⟩
    have alike : e.beginCommand.storedLines? = e.storedLines? := storedLines?_congr rfl rfl
    rw [alike] at stored
    exact ⟨.accepted (⟨h, line⟩ :: new), .accepted done (by simp) (on.putsAbove grown)
      ⟨leaves, expanded, stored⟩, grown⟩
  | error err =>
    rw [result] at done
    have restored := insertWith_splices (writeWith_splices _) (e := e.beginCommand) sound gap put
    rw [result] at restored
    have grown := (Script.Grown.refl sound).of_restored restored
    have cause : e.Refuses err :=
      (insertWith_explains (writeWith_explains _) (e := e.beginCommand) sound gap put result).congr
        rfl rfl
    cases cause with
    | @unknown name missing => exact ⟨.skipped name, .skipped done missing restored.same, grown⟩
    | @full needed exceeded => exact ⟨.full needed, .full done exceeded restored.same, grown⟩

/-- Texts meet their fates one after the other, and what they come to is put in one behind the other. -/
theorem insertTexts_lays {inserted : Nat} {summary : InsertSummary} (on : e.script.CursorOn as x bs)
    (done : Session.insertTexts inserted e texts = .ok (summary, e')) :
    ∃ fates, e.Lays texts fates e' ∧
      e.script.Grown as (fates.flatMap Fate.added) (x :: bs) e'.script ∧
      summary.inserted = inserted + fates.countP Fate.isAccepted ∧
      summary.refused = fates.findSome? (·.refusal? e.script.capacity) := by
  induction texts generalizing e as inserted with
  | nil =>
    cases done
    exact ⟨[], .done e', .refl on.sound, rfl, rfl⟩
  | cons text texts ih =>
    rcases bind_eq_ok.mp done with ⟨edited, insert, rest⟩
    rcases exists_meets on insert with ⟨fate, meets, grown⟩
    have goOn : ∀ {inserted}, (∀ capacity, fate.refusal? capacity = none) →
        Session.insertTexts inserted edited.editor texts = .ok (summary, e') →
        ∃ fates, e.Lays (text :: texts) (fate :: fates) e' ∧
          e.script.Grown as ((fate :: fates).flatMap Fate.added) (x :: bs) e'.script ∧
          summary.inserted = inserted + fates.countP Fate.isAccepted ∧
          summary.refused = (fate :: fates).findSome? (·.refusal? e.script.capacity) := by
      intro inserted passes rest
      rcases ih (on.grown grown) rest with ⟨fates, lays, more, count, refused⟩
      refine ⟨fates, .next meets passes lays, grown.trans more rfl rfl, count, ?_⟩
      rw [List.findSome?_cons, passes, ← grown.shifted.capacity]
      exact refused
    rcases edited with ⟨result, after⟩
    cases meets with
    | accepted put =>
      cases insert.symm.trans put
      rcases goOn (fun _ => rfl) rest with ⟨fates, lays, block, count, refused⟩
      refine ⟨_, lays, block, ?_, refused⟩
      rw [count, List.countP_cons_of_pos rfl, Nat.add_right_comm, Nat.add_assoc]
    | skipped put =>
      cases insert.symm.trans put
      rcases goOn (fun _ => rfl) rest with ⟨fates, lays, block, count, refused⟩
      exact ⟨_, lays, block, count, refused⟩
    | @full needed _ put exceeded same =>
      cases insert.symm.trans put
      cases rest
      exact ⟨[.full needed], .stop (.full put exceeded same), grown, rfl, rfl⟩

theorem Meets.kept (meets : e.Meets text fate e') :
    e'.config = e.config ∧ e'.macros = e.macros ∧ e'.script.capacity = e.script.capacity := by
  have settings : ∀ {result}, e.beginCommand.insertAtCursor text = .ok ⟨result, e'⟩ →
      e'.config = e.config ∧ e'.macros = e.macros := by
    intro result put
    have frame := insertAtCursor_frame put
    exact ⟨frame.config, frame.macros⟩
  cases meets with
  | accepted put _ puts => exact ⟨(settings put).1, (settings put).2, puts.capacity⟩
  | skipped put _ same => exact ⟨(settings put).1, (settings put).2, by rw [same]⟩
  | full put _ same => exact ⟨(settings put).1, (settings put).2, by rw [same]⟩

theorem Meets.skipped_of_unknown (meets : e.Meets text fate e') (calls : callsMacro text = true)
    (unknown : e.macros.get? (callOf text).name = none) :
    fate = .skipped (callOf text).name := by
  cases meets with
  | accepted put =>
    rcases insertAtCursor_unknown (e := e.beginCommand) calls unknown put with other | other <;>
      cases other
  | full put =>
    rcases insertAtCursor_unknown (e := e.beginCommand) calls unknown put with other | other <;>
      cases other
  | skipped put =>
    rcases insertAtCursor_unknown (e := e.beginCommand) calls unknown put with other | same
    · cases other
    · rw [EditError.unknownMacro.inj (Except.error.inj same)]

def acceptedTexts (texts : List String) (fates : List Fate) : List String :=
  ((texts.zip fates).filter (·.2.isAccepted)).map (·.1)

/-- Whether lines are what texts come to, each expanded by itself under guards of its own, and stored
one behind the other until all lines take `size` bytes. All that a text leaves to the next is less
room. -/
def StoresEach (e : Editor) (texts : List String) (lines : List Line) (size : Nat) : Prop :=
  ∃ parts,
    List.Forall₂ (fun text part => ∃ count,
      leaves e.macros e.config.maxMacroRepeat e.config.maxMacroRecursion 0 text =
        some (part, count)) texts parts ∧
    e.storedLines? e.script.totalSize .empty parts.flatten = some (lines, size)

theorem Lays.storesEach (lays : e.Lays texts fates e') :
    e.StoresEach (acceptedTexts texts fates) ((fates.flatMap Fate.added).map (·.line))
      e'.script.totalSize := by
  induction lays with
  | done e => exact ⟨[], .nil, rfl⟩
  | @next e e' e'' text texts fate fates meets passes lays ih =>
    rcases ih with ⟨parts, leaves, stored⟩
    rcases meets.kept with ⟨config, macros, capacity⟩
    rw [storedLines?_congr config capacity] at stored
    rw [config, macros] at leaves
    cases meets with
    | accepted _ _ _ stores =>
      rcases stores with ⟨part, expanded, first⟩
      refine ⟨part :: parts, .cons ⟨_, expanded⟩ leaves, ?_⟩
      rw [List.flatten_cons, List.flatMap_cons, List.map_append]
      exact storedLines?_append first stored (.inl rfl)
    | skipped _ _ same =>
      rw [same] at stored
      exact ⟨parts, leaves, stored⟩
    | full => cases passes 0
  | stop meets =>
    cases meets with
    | full _ _ same =>
      rw [same]
      exact ⟨[], by simp [acceptedTexts, Fate.isAccepted], rfl⟩

theorem Lays.skipped_of_unknown (lays : e.Lays texts fates e') :
    ∀ p ∈ texts.zip fates, callsMacro p.1 = true → e.macros.get? (callOf p.1).name = none →
      p.2 = .skipped (callOf p.1).name := by
  induction lays with
  | done => simp
  | next meets _ _ ih =>
    intro p mem calls unknown
    rcases List.mem_cons.mp mem with rfl | mem
    · exact meets.skipped_of_unknown calls unknown
    · exact ih p mem calls (meets.kept.2.1 ▸ unknown)
  | stop meets =>
    intro p mem calls unknown
    simp only [List.zip_cons_cons, List.zip_nil_right, List.mem_singleton] at mem
    subst mem
    exact meets.skipped_of_unknown calls unknown

theorem Lays.length_eq {capacity : Nat} (lays : e.Lays texts fates e')
    (room : fates.findSome? (·.refusal? capacity) = none) : fates.length = texts.length := by
  induction lays with
  | done => rfl
  | next _ passes _ ih =>
    rw [List.findSome?_cons, passes] at room
    rw [List.length_cons, List.length_cons, ih room]
  | stop => cases room

theorem exists_insertTexts (on : e.script.CursorOn as x bs) (ranged : e.macros.Ranged)
    (inserted : Nat) (texts : List String) :
    ∃ result, Session.insertTexts inserted e texts = .ok result := by
  induction texts generalizing e as inserted with
  | nil => exact ⟨_, rfl⟩
  | cons text texts ih =>
    rcases insert_returns (e := e.beginCommand) on.sound ranged e.script.cursor.handle .before text
      with ⟨edited, put⟩
    rcases exists_meets on put with ⟨fate, -, grown⟩
    have on := on.grown grown
    have kept : edited.editor.macros.Ranged := (insertAtCursor_frame put).macros ▸ ranged
    have above : e.beginCommand.insertAtCursor text = .ok edited := put
    unfold Session.insertTexts
    rw [above]
    rcases edited with ⟨result, after⟩
    cases result with
    | ok h => exact ih on kept (inserted + 1)
    | error err =>
      cases err with
      | capacityExceeded needed max => exact ⟨_, rfl⟩
      | unknownMacro | lineNotFound => exact ih on kept inserted

end Editor

namespace Session

variable {c : Config} {s s' : Session}

structure Inserts (s : Session) (texts : List String) (fates : List Fate) (summary : InsertSummary)
    (s' : Session) : Prop where
  /-- The session changes by its editor alone. -/
  session : s' = { s with editor := s'.editor }
  /-- Each text is put in by itself, in the editor that those before it have left. -/
  lays : s.editor.Lays texts fates s'.editor
  /-- What they come to is one block above the cursor line. -/
  puts : s.editor.script.PutsAbove (fates.flatMap Fate.added) s'.editor.script
  /-- The block has the lines of the accepted texts and no others. -/
  stored : s.editor.StoresEach (Editor.acceptedTexts texts fates)
    ((fates.flatMap Fate.added).map (·.line)) s'.editor.script.totalSize
  /-- A text that calls a macro that is not there is skipped. -/
  skipped : ∀ p ∈ texts.zip fates, Editor.callsMacro p.1 = true →
    s.editor.macros.get? (Editor.callOf p.1).name = none →
    p.2 = .skipped (Editor.callOf p.1).name
  inserted : summary.inserted = fates.countP Fate.isAccepted
  /-- The insertion ends at the first text that there is no room for, and else with the last. -/
  refused : summary.refused = fates.findSome? (·.refusal? s.editor.script.capacity)
  tried : summary.refused = none → fates.length = texts.length

theorem exists_inserts {texts : List String} {summary : InsertSummary}
    (sound : ∃ es, s.editor.script.Sound es) (done : s.insertLines texts = .ok (summary, s')) :
    ∃ fates, s.Inserts texts fates summary s' := by
  rcases sound with ⟨es, sound⟩
  rcases sound.exists_cursorOn with ⟨as, x, bs, on⟩
  rcases bind_eq_ok.mp done with ⟨⟨summary, editor⟩, insert, same⟩
  cases same
  rcases Editor.insertTexts_lays on insert with ⟨fates, lays, grown, inserted, refused⟩
  refine ⟨fates, rfl, lays, on.putsAbove grown, lays.storesEach, lays.skipped_of_unknown, ?_,
    refused, ?_⟩
  · rw [inserted, Nat.zero_add]
  · intro room
    exact lays.length_eq (refused ▸ room)

/-- However a session came about, texts that are pasted or imported are put in as one block above the
cursor. -/
theorem Reachable.inserts_block (reached : Reachable c s) (room : 5 ≤ c.maxSize) :
    (∀ texts summary s', s.insertLines texts = .ok (summary, s') →
      ∃ fates, s.Inserts texts fates summary s') ∧
    (∀ summary s', s.paste = .ok (summary, s') →
      ∃ fates, s.Inserts s.pasteTexts fates summary s') ∧
    (∀ path attended, s.importFile path = .ok attended →
      (∃ err, importLines s.folder path = .error err ∧ attended = ⟨.error (.io err), s⟩) ∨
      ∃ texts fates summary, importLines s.folder path = .ok texts ∧
        attended.result = .ok summary ∧ s.Inserts texts fates summary attended.session) ∧
    (s.editor.macros.Ranged →
      (∀ texts, ∃ result, s.insertLines texts = .ok result) ∧
      (∃ result, s.paste = .ok result) ∧ ∀ path, ∃ attended, s.importFile path = .ok attended) := by
  have sound := (reached.editor.inOrder room).script.sound
  have block : ∀ texts summary s', s.insertLines texts = .ok (summary, s') →
      ∃ fates, s.Inserts texts fates summary s' := fun _ _ _ => exists_inserts sound
  refine ⟨block, block s.pasteTexts, ?_, fun ranged => ?_⟩
  · intro path attended done
    unfold importFile at done
    split at done
    next err failed =>
      cases done
      exact .inl ⟨err, failed, rfl⟩
    next texts read =>
      rcases bind_eq_ok.mp done with ⟨⟨summary, after⟩, insert, same⟩
      cases same
      rcases block texts summary after insert with ⟨fates, inserts⟩
      exact .inr ⟨texts, fates, summary, read, rfl, inserts⟩
  · have served : ∀ texts, ∃ result, s.insertLines texts = .ok result := by
      intro texts
      rcases sound with ⟨es, sound⟩
      rcases sound.exists_cursorOn with ⟨as, x, bs, on⟩
      rcases Editor.exists_insertTexts on ranged 0 texts with ⟨result, put⟩
      exact ⟨_, bind_eq_ok.mpr ⟨result, put, rfl⟩⟩
    refine ⟨served, served s.pasteTexts, fun path => ?_⟩
    unfold importFile
    split
    · exact ⟨_, rfl⟩
    next texts _ =>
      rcases served texts with ⟨result, put⟩
      exact ⟨_, bind_eq_ok.mpr ⟨result, put, rfl⟩⟩

def tight : Settings :=
  { Settings.initial with
    config := { maxSize := 14 }
    macros := [⟨"a", "", [], ["END", "DIE"]⟩] }

theorem inserts_block_tight : ∃ s s' fates, Reachable tight.config s ∧
    s.insertLines ["END", "#b", "#a", "END", "#a"] =
      .ok (⟨2, some (.capacityExceeded 17 14)⟩, s') ∧
    s'.lines = ["END", "END", "DIE", ""] ∧
    s.Inserts ["END", "#b", "#a", "END", "#a"] fates ⟨2, some (.capacityExceeded 17 14)⟩ s' := by
  let s : Session := ⟨{ Editor.new tight.config with macros := tight.library }, ⟨[], 0, none, none⟩,
    .unavailable, tight, [], "", []⟩
  have reached : Reachable tight.config s := .start ⟨[], 0, none, none⟩ .unavailable tight [] rfl rfl
  have run : (s.insertLines ["END", "#b", "#a", "END", "#a"]).map (fun r => (r.1, r.2.lines)) =
      .ok (⟨2, some (.capacityExceeded 17 14)⟩, ["END", "END", "DIE", ""]) := by
    decide +kernel
  rcases map_eq_ok.mp run with ⟨⟨summary, s'⟩, put, same⟩
  rw [Prod.mk.injEq] at same
  rcases same with ⟨rfl, lines⟩
  rcases (Reachable.inserts_block reached (by decide)).1 _ _ _ put with ⟨fates, inserts⟩
  exact ⟨s, s', fates, reached, put, lines, inserts⟩

end Session

end RobotScript
