import RobotScript.Proofs.InOrder
/-!
What can be observed of the script of every editor with room for a blank line: its lines are
linked into one row, and size, cursor, numbers and mark agree with that row.
-/
namespace RobotScript

namespace Script

/-- Whether links, counters, cursor and mark of a script agree with each other. -/
structure WellFormed (s : Script) : Prop where
  finite : s.endless = false
  distinct : s.handles.Nodup
  first : s.first? = s.handles.head?
  next : ∀ (i : Nat) (h : Handle), s.handles[i]? = some h → s.next? h = s.handles[i + 1]?
  previous : ∀ a b, s.previous? b = some a ↔ a.isTop = false ∧ s.next? a = some b
  lines : ∀ (i : Nat) (h : Handle), s.handles[i]? = some h → s.get? h = s.lines[i]?
  live : ∀ h, s.contains h = true ↔ h ∈ s.handles
  count : s.lineCount = s.handles.length
  nonempty : 1 ≤ s.lineCount
  size : s.totalSize = Line.sizeOfAll s.lines
  cursor : s.lineAt? s.cursor.line = some s.cursor.handle
  numbers : ∀ (i : Nat) (h : Handle), s.handles[i]? = some h → s.lineNumber? h = some (i + 1)
  mark : ∀ m, s.mark = some m → m.startLine ≤ m.endLine ∧
    s.lineAt? m.startLine = some m.start ∧ s.lineAt? m.endLine = some m.stop

variable {s : Script} {es : List Entry} {a b h : Handle}

theorem Lists.handles (lists : s.Lists es) : s.handles = Entry.handlesOf es := by
  rw [Script.handles, lists.entries]
  rfl

theorem Lists.split_of_handles (lists : s.Lists es) {i : Nat} (found : s.handles[i]? = some h) :
    ∃ as x bs, es = as ++ x :: bs ∧ i = as.length ∧ x.handle = h := by
  rw [lists.handles] at found
  have stands : Entry.At es (i + 1) h := ⟨by omega, found⟩
  rcases stands.split with ⟨as, x, bs, split, number, here⟩
  exact ⟨as, x, bs, split, Nat.succ.inj number, here⟩

theorem Lists.split_of_node? (lists : s.Lists es) {n : Node} (found : s.links.node? h = some n) :
    ∃ as x bs, es = as ++ x :: bs ∧ x.handle = h := by
  rw [lists.links] at found
  have mem : h ∈ Entry.handlesOf es := by
    by_contra absent
    cases (Links.node?_eq_none absent).symm.trans found
  rcases Entry.mem_handlesOf_iff.mp mem with ⟨x, there, rfl⟩
  rcases List.append_of_mem there with ⟨as, bs, rfl⟩
  exact ⟨as, x, bs, rfl, rfl⟩

theorem Lists.split_of_above? (lists : s.Lists es) (above : s.links.above? b = some a) :
    ∃ as x bs, es = as ++ x :: bs ∧ x.handle = b := by
  rcases Option.map_eq_some_iff.mp above with ⟨n, found, -⟩
  exact lists.split_of_node? found

theorem Lists.split_of_next? (lists : s.Lists es) (real : a.isTop = false)
    (below : s.next? a = some b) : ∃ as x bs, es = as ++ x :: bs ∧ x.handle = a := by
  rw [Script.next?, Links.next?, if_neg (by simp [real])] at below
  rcases Option.bind_eq_some_iff.mp below with ⟨n, found, -⟩
  exact lists.split_of_node? found

theorem Lists.previous?_iff (lists : s.Lists es) :
    s.previous? b = some a ↔ a.isTop = false ∧ s.next? a = some b := by
  constructor
  · intro previous
    rcases Option.filter_eq_some_iff.mp previous with ⟨above, real⟩
    rcases lists.split_of_above? above with ⟨as, x, bs, rfl, rfl⟩
    rw [lists.previous?_split] at previous
    rcases Option.map_eq_some_iff.mp previous with ⟨y, last, rfl⟩
    rcases List.getLast?_eq_some_iff.mp last with ⟨as, rfl⟩
    rw [List.append_assoc, List.singleton_append] at lists
    exact ⟨lists.real_split, lists.next?_split⟩
  · rintro ⟨real, next⟩
    rcases lists.split_of_next? real next with ⟨as, x, bs, rfl, rfl⟩
    rw [lists.next?_split] at next
    rcases Option.map_eq_some_iff.mp next with ⟨y, first, rfl⟩
    rcases List.head?_eq_some_iff.mp first with ⟨bs, rfl⟩
    rw [← List.singleton_append, ← List.append_assoc] at lists
    rw [lists.previous?_split]
    simp

theorem wellFormed_of_sound (sound : s.Sound es) : s.WellFormed where
  finite := sound.endless
  distinct := by
    rw [sound.handles]
    exact sound.distinct
  first := by
    rw [sound.first?, sound.handles, Entry.handlesOf, List.head?_map]
  next := by
    intro i h found
    rcases sound.split_of_handles found with ⟨as, x, bs, rfl, rfl, rfl⟩
    rw [sound.next?_split, sound.handles]
    simp [Entry.handlesOf, List.getElem?_append_right, List.head?_eq_getElem?]
  previous := fun _ _ => sound.previous?_iff
  lines := by
    intro i h found
    rcases sound.split_of_handles found with ⟨as, x, bs, rfl, rfl, rfl⟩
    rw [sound.get?_split, Script.lines, sound.entries]
    simp
  live := by
    intro h
    rw [sound.contains_iff, sound.handles]
  count := by
    rw [sound.lineCount, sound.handles, Entry.length_handlesOf]
  nonempty := by
    rw [sound.lineCount]
    exact List.length_pos_iff.mpr sound.ne_nil
  size := by
    rw [sound.size, Script.lines, sound.entries, Entry.sizeOf]
  cursor := sound.lineAt?_eq_some_iff.mpr sound.cursor
  numbers := by
    intro i h found
    rcases sound.split_of_handles found with ⟨as, x, bs, rfl, rfl, rfl⟩
    exact sound.lineNumber?_split
  mark := by
    intro m marked
    have sits := sound.mark m marked
    exact ⟨sits.ordered, sound.lineAt?_eq_some_iff.mpr sits.start,
      sound.lineAt?_eq_some_iff.mpr sits.stop⟩

end Script

namespace Editor

variable {c : Config} {e e' : Editor}

theorem Frame.eq_of_script (frame : e.Frame e')
    (same : e'.script = { e.script with pool := e'.script.pool }) :
    e' = { e with
      script := { e.script with pool := e'.script.pool }
      guards := { e.guards with expansions := e'.guards.expansions } } := by
  rcases e' with ⟨script, config, macros, ⟨depth, expansions⟩, lastSearch⟩
  have depth_eq : depth = e.guards.depth := frame.depth
  rw [depth_eq]
  exact mk.injEq .. ▸ ⟨same, frame.config, frame.macros, rfl, frame.lastSearch⟩

/-- However an editor came about, its script is well formed. -/
theorem Reachable.wellFormed (reached : Reachable c e) (room : 5 ≤ c.maxSize) :
    e.script.WellFormed := by
  rcases (reached.inOrder room).script.sound with ⟨es, sound⟩
  exact Script.wellFormed_of_sound sound

theorem wellFormed_marked :
    ∃ e, (((Editor.new {}).load [0xFF, 1, 47, 1, 1, 47, 1, 0]).mapScript
      (·.placeMark .start)).perform (.moveCursor 1) = .ok e ∧ e.script.cursor = ⟨⟨2, 0⟩, 2, 0⟩ ∧
      e.script.WellFormed := by
  have moved : ((((Editor.new {}).load [0xFF, 1, 47, 1, 1, 47, 1, 0]).mapScript
      (·.placeMark .start)).perform (.moveCursor 1)).map (·.script.cursor) =
      .ok ⟨⟨2, 0⟩, 2, 0⟩ := by
    decide +kernel
  rcases map_eq_ok.mp moved with ⟨e, done, cursor⟩
  have reached : Reachable {} e :=
    .perform (.moveCursor 1) (.perform (.placeMark .start) (.perform (.load _) .new rfl) rfl) done
  exact ⟨e, done, cursor, Reachable.wellFormed reached (by decide)⟩

/-- A refused edit leaves everything as it was, but for the pool of handles and the count of the
macros that have been expanded. -/
theorem Reachable.refused_unchanged {edit : Edit} {edited : Edited Unit} {err : EditError}
    (reached : Reachable c e) (room : 5 ≤ c.maxSize) (done : e.attempt edit = .ok edited)
    (refused : edited.result = .error err) :
    edited.editor = { e with
      script := { e.script with pool := edited.editor.script.pool }
      guards := { e.guards with expansions := edited.editor.guards.expansions } } ∧
    e.guards.expansions ≤ edited.editor.guards.expansions := by
  rcases (reached.inOrder room).script.sound with ⟨es, sound⟩
  have atomic := (atomic_changes sound).attempt done
  have frame := atomic.frame
  exact ⟨frame.eq_of_script (atomic.refused err refused).same, frame.expansions⟩

/-- The second line of the expansion calls a macro that there is not. -/
theorem refused_in_expansion : ∃ e edited, Reachable {} e ∧
    e.attempt (.update ⟨1, 0⟩ "#two") = .ok edited ∧
    edited.result = .error (.unknownMacro "gone") ∧ edited.editor.guards = ⟨0, 1⟩ ∧
    edited.editor.script = { e.script with pool := edited.editor.script.pool } := by
  have tried : (({ Editor.new {} with
      macros := .ofList [⟨"two", "", [], ["", "#gone"]⟩] } : Editor).attempt
        (.update ⟨1, 0⟩ "#two")).map (fun edited => (edited.result, edited.editor.guards)) =
      .ok (.error (.unknownMacro "gone"), ⟨0, 1⟩) := by
    decide +kernel
  rcases map_eq_ok.mp tried with ⟨edited, done, same⟩
  rcases Prod.mk.inj same with ⟨refused, guards⟩
  have unchanged :=
    Reachable.refused_unchanged (.perform (.setMacros _) .new rfl) (by decide) done refused
  exact ⟨_, edited, .perform (.setMacros _) .new rfl, done, refused, guards,
    congrArg Editor.script unchanged.1⟩

end Editor

end RobotScript
