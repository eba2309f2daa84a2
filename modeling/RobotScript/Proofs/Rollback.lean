import RobotScript.Proofs.Guards
import RobotScript.Proofs.Run
import RobotScript.Proofs.Splicing
/-!
Edits of sound scripts. An edit that is accepted puts the lines of an expansion below the line
that it writes and changes no other; one that is refused, at whatever depth, takes back all lines
that it has put in and leaves the script as it was, but for the pool of handles.
-/
namespace RobotScript

namespace Script

structure Restored (s : Script) (es : List Entry) (s' : Script) : Prop where
  same : s' = { s with pool := s'.pool }
  sound : s'.Sound es

variable {s s' : Script} {es as bs new : List Entry} {x : Entry} {h : Handle} {n : Nat}

theorem Sound.restored (sound : s.Sound es) : s.Restored es s := ⟨rfl, sound⟩

theorem Restored.keptIn (restored : s.Restored es s') : s.KeptIn s' := by
  rw [restored.same]
  exact .of_eq rfl rfl

theorem Sound.restored_pool (sound : s.Sound es) {pool : HandlePool}
    (owned : pool.Owns (Entry.handlesOf es)) : s.Restored es { s with pool } where
  same := rfl
  sound := ⟨⟨sound.links, sound.lineCount, owned, sound.size⟩, sound.cursor, sound.mark⟩

theorem Grown.refl (sound : s.Sound (as ++ bs)) : s.Grown as [] bs s where
  sound := sound
  shifted := shifted_zero_iff.mpr ⟨rfl, rfl, rfl⟩

theorem Grown.restored (sound : s.Sound (as ++ bs)) (grown : s.Grown as [] bs s') :
    s.Restored (as ++ bs) s' where
  same := sound.toLists.eq_of_shifted grown.sound.toLists grown.shifted
  sound := grown.sound

theorem Grown.of_restored {s'' : Script} (grown : s.Grown as new bs s')
    (restored : s'.Restored (as ++ (new ++ bs)) s'') : s.Grown as new bs s'' where
  sound := restored.sound
  shifted := by
    rw [restored.same]
    exact ⟨grown.shifted.capacity, grown.shifted.cursor, grown.shifted.mark⟩

theorem Sound.grown_setLine {old : Line} (sound : s.Sound (as ++ ⟨h, old⟩ :: bs)) (line : Line) :
    s.Grown (as ++ [⟨h, line⟩]) [] bs (s.setLine h line) where
  sound := by simpa using sound.setLine line
  shifted := shifted_setLine h line

theorem Grown.setLine_restored {old line : Line} (sound : s.Sound (as ++ ⟨h, old⟩ :: bs))
    (grown : s.Grown (as ++ [⟨h, line⟩]) [] bs s') :
    s.Restored (as ++ ⟨h, old⟩ :: bs) (s'.setLine h old) := by
  have laid : s'.Sound (as ++ ⟨h, line⟩ :: bs) := by simpa using grown.sound
  have written := laid.setLine old
  have shifted := grown.shifted.trans (shifted_setLine h old) (Nat.le_refl _) (Nat.le_refl _)
  exact ⟨sound.toLists.eq_of_shifted written.toLists shifted, written⟩

theorem Grown.unlinkAll (grown : s.Grown as new bs s') :
    s.Grown as [] bs
      ((Entry.handlesOf new).foldl (fun s x => s.unlink x (as.length + 1)) s') := by
  induction new generalizing s' with
  | nil => exact grown
  | cons x new ih => exact ih grown.unlink

theorem Sound.above?_top (sound : s.Sound es) (top : h.isTop = true) : s.links.above? h = none := by
  have absent : h ∉ Entry.handlesOf es := fun mem => by simp [sound.real mem] at top
  rw [sound.links, Links.above?, Links.node?_eq_none absent]
  rfl

theorem Sound.insertLine_refused {number? : Option Nat} {relation : Relation}
    (sound : s.Sound es) (nowhere : number? = none ∨ h.isTop = true ∧ relation = .before)
    (line : Line) :
    ∃ s', s.insertLine h number? relation line = (.error .lineNotFound, s') ∧
      s.Restored es s' := by
  have refused : (number?.bind fun n =>
      ({ s with pool := s.pool.allocate.2 } : Script).link? h n relation
        ⟨s.pool.allocate.1, line⟩) = none := by
    rcases nowhere with rfl | ⟨top, rfl⟩
    · rfl
    · rw [Option.bind_eq_none_iff]
      intro n _
      simp [Script.link?, Links.insert?, sound.above?_top top]
  unfold Script.insertLine
  dsimp only
  rw [refused]
  exact ⟨_, rfl, sound.restored_pool sound.owned.allocate.release⟩

theorem Sound.gap_of_lineNumber? (sound : s.Sound es) (numbered : s.lineNumber? h = some n)
    (relation : Relation) :
    (∃ as bs, es = as ++ bs ∧ Gap as bs h n relation) ∨ h.isTop = true ∧ relation = .before := by
  obtain ⟨top, rfl⟩ | stands := sound.of_lineNumber? numbered
  · cases relation with
    | before => exact .inr ⟨top, rfl⟩
    | after =>
      obtain rfl := eq_of_beq top
      exact .inl ⟨[], es, rfl, .top es⟩
  · obtain ⟨as, x, bs, rfl, rfl, rfl⟩ := stands.split
    cases relation with
    | before => exact .inl ⟨as, x :: bs, rfl, .above as x bs⟩
    | after =>
      have below := Gap.below as x bs
      rw [List.length_append, List.length_singleton] at below
      exact .inl ⟨as ++ [x], bs, by simp, below⟩

theorem Sound.insertBlank_cases (sound : s.Sound es) (anchor : Handle) (relation : Relation) :
    (∃ h s' n as bs, es = as ++ bs ∧ s.insertBlank anchor relation = .ok (.ok h, s') ∧
      s.lineNumber? anchor = some n ∧ Gap as bs anchor n relation ∧
      s.Grown as [⟨h, .blank⟩] bs s') ∨
    ∃ err s', s.insertBlank anchor relation = .ok (.error err, s') ∧ s.Restored es s' := by
  rw [sound.insertBlank]
  unfold Script.insertBlankAt
  split
  · exact .inr ⟨_, s, rfl, sound.restored⟩
  · cases numbered : s.lineNumber? anchor with
    | none =>
      rcases sound.insertLine_refused (.inl rfl) .blank with ⟨s', refused, restored⟩
      rw [refused]
      exact .inr ⟨_, s', rfl, restored⟩
    | some n =>
      rcases sound.gap_of_lineNumber? numbered relation with ⟨as, bs, rfl, gap⟩ | nowhere
      · rcases sound.insertLine_gap gap .blank with ⟨h, s', inserted, grown⟩
        rw [inserted]
        exact .inl ⟨h, s', n, as, bs, rfl, rfl, rfl, gap, grown⟩
      · rcases sound.insertLine_refused (.inr nowhere) .blank with ⟨s', refused, restored⟩
        rw [refused]
        exact .inr ⟨_, s', rfl, restored⟩

end Script

namespace Editor

variable {e e' e'' : Editor} {as bs new : List Entry} {h : Handle} {old : Line} {n : Nat}

section Expansion

variable {write : Writer}

inductive GapCase (write : Writer) (e : Editor) (as bs : List Entry) (text : String) :
    Edited (Handle × Outcome) → Prop where
  | written {h : Handle} {script : Script} {outcome : Outcome} {after : Editor} :
    e.script.Grown as [⟨h, .empty⟩] bs script →
    write { e with script } h text = .ok ⟨.ok outcome, after⟩ →
    GapCase write e as bs text ⟨.ok (h, outcome), after⟩
  | refused {h : Handle} {script : Script} {err : EditError} {after : Editor} :
    e.script.Grown as [⟨h, .empty⟩] bs script →
    write { e with script } h text = .ok ⟨.error err, after⟩ →
    GapCase write e as bs text
      ⟨.error err, { after with script := after.script.unlink h (as.length + 1) }⟩

theorem gapCase {relation : Relation} {text : String} {edited : Edited (Handle × Outcome)}
    (sound : e.script.Sound (as ++ bs)) (gap : Gap as bs h n relation)
    (done : insertWith write e h n relation text = .ok edited) :
    GapCase write e as bs text edited := by
  obtain ⟨h', script, inserted, grown⟩ := sound.insertLine_gap gap .empty
  cases insertCase done with
  | nowhere nowhere => cases inserted.symm.trans nowhere
  | written placed wrote =>
    cases inserted.symm.trans placed
    exact .written grown wrote
  | refused placed wrote =>
    cases inserted.symm.trans placed
    exact .refused grown wrote

theorem emitPlace_gap {s : Script} (lists : s.Lists (as ++ (new ++ bs))) (nonempty : as ≠ []) :
    ∃ anchor number relation,
      emitPlace s as.length (s.lineCount - (as.length + bs.length)) (bs.head?.map (·.handle)) =
        .ok (some (anchor, number, relation)) ∧
      Gap (as ++ new) bs anchor number relation := by
  rw [← List.append_assoc] at lists
  unfold emitPlace
  cases bs with
  | nil =>
    rw [List.append_nil] at lists
    have ends : s.last? = .ok (some ((as ++ new).getLast (by simp [nonempty])).handle) := by
      rw [lists.last?, List.getLast?_eq_some_getLast (by simp [nonempty]), Option.map_some]
    refine ⟨_, _, _, ?_, .last (as ++ new) (by simp [nonempty])⟩
    simp only [List.head?_nil, Option.map_none, ends, lists.lineCount]
    rfl
  | cons b bs =>
    refine ⟨b.handle, (as ++ new).length + 1, .before, ?_, .above (as ++ new) b bs⟩
    have counted : s.lineCount - (as.length + (b :: bs).length) = new.length := by
      rw [lists.lineCount, List.length_append, List.length_append]
      omega
    simp only [List.head?_cons, Option.map_some, counted, List.length_append]
    rw [Nat.add_right_comm]

inductive GrowCase (write : Writer) (as new bs : List Entry) (e : Editor) (text : String)
    (texts : List String) : Edited Unit → Prop where
  | refused {anchor : Handle} {number : Nat} {relation : Relation} {err : EditError}
      {after : Editor} :
    Gap (as ++ new) bs anchor number relation →
    insertWith write e anchor number relation text = .ok ⟨.error err, after⟩ →
    GrowCase write as new bs e text texts ⟨.error err, after⟩
  | inserted {anchor : Handle} {number : Nat} {relation : Relation} {placed : Handle × Outcome}
      {after : Editor} {edited : Edited Unit} :
    Gap (as ++ new) bs anchor number relation →
    insertWith write e anchor number relation text = .ok ⟨.ok placed, after⟩ →
    emitRest write as.length (as.length + bs.length) (bs.head?.map (·.handle)) after texts =
      .ok edited →
    GrowCase write as new bs e text texts edited

theorem growCase {text : String} {texts : List String} {edited : Edited Unit}
    (lists : e.script.Lists (as ++ (new ++ bs))) (nonempty : as ≠ [])
    (done : emitRest write as.length (as.length + bs.length) (bs.head?.map (·.handle)) e
      (text :: texts) = .ok edited) : GrowCase write as new bs e text texts edited := by
  obtain ⟨anchor, number, relation, here, gap⟩ := emitPlace_gap lists nonempty
  cases restCase done with
  | nowhere nowhere => cases here.symm.trans nowhere
  | refused place insert =>
    cases here.symm.trans place
    exact .refused gap insert
  | inserted place insert rest =>
    cases here.symm.trans place
    exact .inserted gap insert rest

theorem emitRest_split {texts : List String} {boundary : Option Handle}
    (sound : e.script.Sound (as ++ ⟨h, old⟩ :: bs)) (x : Entry) :
    emitRest write (as.length + 1) e.script.lineCount boundary e' texts =
      emitRest write (as ++ [x]).length ((as ++ [x]).length + bs.length) boundary e' texts := by
  rw [sound.lineCount_split x, List.length_append, List.length_singleton]

theorem handlesBetween_eq {s : Script} {x : Entry} (lists : s.Lists (as ++ x :: (new ++ bs))) :
    handlesBetween s x.handle (bs.head?.map (·.handle)) = Entry.handlesOf new := by
  have below : s.links.below x.handle = new ++ bs := by
    rw [lists.links, Links.below_row lists.distinct (fun _ => lists.real) rfl]
  have distinct : (Entry.handlesOf (new ++ bs)).Nodup := lists.distinct.sublist (by simp)
  have apart : ∀ y ∈ Entry.handlesOf new, (some y != bs.head?.map (·.handle)) = true := by
    intro y mem
    cases bs with
    | nil => rfl
    | cons b bs =>
      have differs : y ≠ b.handle := by
        rintro rfl
        exact Entry.apart_of_nodup distinct _ mem List.mem_cons_self
      simpa using differs
  unfold handlesBetween
  rw [below, ← Entry.handlesOf, Entry.handlesOf_append, List.takeWhile_append_of_pos apart]
  cases bs <;> simp

theorem overruns_eq_false {s : Script} {x : Entry} (lists : s.Lists (as ++ x :: bs))
    (boundary : Option Handle) : overruns s x.handle boundary = false := by
  have behind : as ++ x :: bs = (as ++ [x]) ++ bs := by simp
  rw [overruns, lists.next?_split, lists.links,
    Links.endless_row lists.distinct (fun _ => lists.real) behind, Bool.false_and]

theorem discardBetween_grown {s : Script} {line : Line}
    (grown : s.Grown (as ++ [⟨h, line⟩]) new bs e.script) :
    ∃ left, e.discardBetween h (as.length + 1) (bs.head?.map (·.handle)) = .ok left ∧
      s.Grown (as ++ [⟨h, line⟩]) [] bs left.script := by
  have lists := grown.sound.toLists
  rw [← List.append_cons] at lists
  have removed := grown.unlinkAll
  unfold discardBetween
  rw [overruns_eq_false lists, handlesBetween_eq lists]
  exact ⟨_, rfl, by simpa using removed⟩

/-- Whether a writer puts lines only below the line that it writes, or restores the script. -/
def Writer.Splices (write : Writer) : Prop :=
  ∀ ⦃e : Editor⦄ ⦃h : Handle⦄ ⦃text : String⦄ ⦃edited : Edited Outcome⦄ ⦃as bs : List Entry⦄
    ⦃old : Line⦄, e.script.Sound (as ++ ⟨h, old⟩ :: bs) → write e h text = .ok edited →
    match edited.result with
    | .ok _ => ∃ line new, e.script.Grown (as ++ [⟨h, line⟩]) new bs edited.editor.script
    | .error _ => e.script.Restored (as ++ ⟨h, old⟩ :: bs) edited.editor.script

variable (splices : Writer.Splices write)

include splices

theorem insertWith_splices {relation : Relation} {text : String}
    {edited : Edited (Handle × Outcome)} (sound : e.script.Sound (as ++ bs))
    (gap : Gap as bs h n relation) (done : insertWith write e h n relation text = .ok edited) :
    match edited.result with
    | .ok (h', _) => ∃ line new, e.script.Grown as (⟨h', line⟩ :: new) bs edited.editor.script
    | .error _ => e.script.Restored (as ++ bs) edited.editor.script := by
  cases gapCase sound gap done with
  | @written _ script _ _ grown wrote =>
    obtain ⟨line, new, again⟩ := splices (e := { e with script }) grown.sound wrote
    exact ⟨line, new, grown.trans again rfl rfl⟩
  | @refused _ script _ _ grown wrote =>
    have after := splices (e := { e with script }) grown.sound wrote
    exact (grown.of_restored after).unlink.restored sound

theorem emitRest_splices {s : Script} {texts : List String} {edited : Edited Unit}
    (grown : s.Grown as new bs e.script) (nonempty : as ≠ [])
    (done : emitRest write as.length (as.length + bs.length) (bs.head?.map (·.handle)) e texts =
      .ok edited) :
    ∃ new, s.Grown as new bs edited.editor.script := by
  induction texts generalizing e new with
  | nil =>
    cases done
    exact ⟨new, grown⟩
  | cons text texts ih =>
    have sound := grown.sound
    rw [← List.append_assoc] at sound
    cases growCase grown.sound.toLists nonempty done with
    | refused gap insert =>
      have after := insertWith_splices splices sound gap insert
      rw [List.append_assoc] at after
      exact ⟨new, grown.of_restored after⟩
    | inserted gap insert rest =>
      obtain ⟨line, more, again⟩ := insertWith_splices splices sound gap insert
      exact ih (grown.trans again rfl rfl) rest

theorem emit_splices {lines : List String} {edited : Edited Nat}
    (sound : e.script.Sound (as ++ ⟨h, old⟩ :: bs))
    (done : emit write e h (as.length + 1) (bs.head?.map (·.handle)) lines = .ok edited) :
    ∃ line new, e.script.Grown (as ++ [⟨h, line⟩]) new bs edited.editor.script := by
  cases emitCase done with
  | refused wrote =>
    have after := splices sound wrote
    rw [List.append_cons] at sound after
    exact ⟨old, [], (Script.Grown.refl sound).of_restored after⟩
  | written wrote emitted =>
    obtain ⟨line, new, grown⟩ := splices sound wrote
    rw [emitRest_split sound ⟨h, line⟩] at emitted
    obtain ⟨more, kept⟩ := emitRest_splices splices grown (by simp) emitted
    exact ⟨line, more, kept⟩

theorem expandTemplate_splices {t : Macro.Template} {args : List Macro.Argument}
    {edited : Edited Outcome} (sound : e.script.Sound (as ++ ⟨h, old⟩ :: bs))
    (done : expandTemplate write e h old (as.length + 1) t args = .ok edited) :
    match edited.result with
    | .ok _ => ∃ line new, e.script.Grown (as ++ [⟨h, line⟩]) new bs edited.editor.script
    | .error _ => e.script.Restored (as ++ ⟨h, old⟩ :: bs) edited.editor.script := by
  cases expandCase done with
  | expanded _ emitted =>
    rw [sound.next?_split] at emitted
    exact emit_splices splices (e := e.enter) sound emitted
  | @refused _ _ after left _ emitted discarded =>
    rw [sound.next?_split] at emitted discarded
    obtain ⟨line, new, grown⟩ := emit_splices splices (e := e.enter) sound emitted
    obtain ⟨left', again, back⟩ := discardBetween_grown (e := after.leave) grown
    cases discarded.symm.trans again
    exact back.setLine_restored sound

end Expansion

/-- Whatever macros a text calls: the induction is on how deep they may nest. -/
theorem writeWith_splices (levels : Nat) : Writer.Splices (writeWith levels) := by
  induction levels using Nat.strongRecOn with
  | ind levels deeper =>
    intro e h text edited as bs old sound done
    rcases writeWith_cases done with
      ⟨err, rfl⟩ | ⟨_, _, line, -, -, -, rfl⟩ | ⟨below, _, _, _, rfl, found, numbered, expanded⟩
    · exact sound.restored
    · exact ⟨line, [], sound.grown_setLine line⟩
    · cases sound.get?_split.symm.trans found
      cases sound.lineNumber?_split.symm.trans numbered
      exact expandTemplate_splices (deeper below (Nat.lt_succ_self below)) sound expanded

structure Atomic {α : Type} (e : Editor) (es : List Entry) (edited : Edited α) : Prop where
  frame : e.Frame edited.editor
  sound : ∃ es', edited.editor.script.Sound es'
  capacity : edited.editor.script.capacity = e.script.capacity
  kept : e.script.KeptIn edited.editor.script
  refused : ∀ err, edited.result = .error err → e.script.Restored es edited.editor.script

variable {α β : Type} {es : List Entry}

theorem Atomic.of_grown {edited : Edited α} {a : α} (sound : e.script.Sound es)
    (frame : e.Frame edited.editor) (accepted : edited.result = .ok a)
    (grown : e.script.Grown as new bs edited.editor.script)
    (same : Entry.handlesOf es = Entry.handlesOf (as ++ bs)) : e.Atomic es edited where
  frame := frame
  sound := ⟨_, grown.sound⟩
  capacity := grown.shifted.capacity
  kept := grown.keptIn sound same
  refused := by simp [accepted]

theorem Atomic.of_restored {edited : Edited α} (frame : e.Frame edited.editor)
    (restored : e.script.Restored es edited.editor.script) : e.Atomic es edited where
  frame := frame
  sound := ⟨es, restored.sound⟩
  capacity := by rw [restored.same]
  kept := restored.keptIn
  refused := fun _ _ => restored

theorem Atomic.map {edited : Edited α} (atomic : e.Atomic es edited) (f : α → β) :
    e.Atomic es ⟨edited.result.map f, edited.editor⟩ where
  frame := atomic.frame
  sound := atomic.sound
  capacity := atomic.capacity
  kept := atomic.kept
  refused := fun err refused => atomic.refused err (map_eq_error.mp refused)

theorem update_atomic {text : String} {edited : Edited Outcome} (sound : e.script.Sound es)
    (done : e.update h text = .ok edited) : e.Atomic es edited := by
  cases found : e.script.get? h with
  | none =>
    unfold update writeWith at done
    rw [found] at done
    cases done
    exact .of_restored (.refl e) sound.restored
  | some old =>
    rcases sound.split_of_get? found with ⟨as, bs, rfl⟩
    have frame := writeWith_frame done
    have after := writeWith_splices e.levelsLeft sound done
    cases result : edited.result with
    | ok outcome =>
      rw [result] at after
      rcases after with ⟨line, new, grown⟩
      exact .of_grown sound frame result grown (by simp)
    | error err =>
      rw [result] at after
      exact .of_restored frame after

/-- What putting in a line with a text leads to: the line with those of its expansion in the gap
next to the anchor, or the same script. -/
theorem insertNumbered_cases {relation : Relation} {text : String}
    {edited : Edited (Handle × Outcome)} (sound : e.script.Sound es)
    (numbered : e.script.lineNumber? h = some n)
    (done : e.insertNumbered h n relation text = .ok edited) :
    match edited.result with
    | .ok (h', _) => ∃ as bs line new, es = as ++ bs ∧ Gap as bs h n relation ∧
        e.script.Grown as (⟨h', line⟩ :: new) bs edited.editor.script
    | .error _ => e.script.Restored es edited.editor.script := by
  rcases sound.gap_of_lineNumber? numbered relation with ⟨as, bs, rfl, gap⟩ | nowhere
  · have after := insertWith_splices (writeWith_splices _) sound gap done
    split at after
    · rcases after with ⟨line, new, grown⟩
      exact ⟨as, bs, line, new, rfl, gap, grown⟩
    · exact after
  · rcases sound.insertLine_refused (.inr nowhere) .empty with ⟨script, refused, restored⟩
    cases insertCase done with
    | nowhere nowhere =>
      cases refused.symm.trans nowhere
      exact restored
    | written placed | refused placed => cases refused.symm.trans placed

theorem insertNumbered_atomic {relation : Relation} {text : String}
    {edited : Edited (Handle × Outcome)} (sound : e.script.Sound es)
    (numbered : e.script.lineNumber? h = some n)
    (done : e.insertNumbered h n relation text = .ok edited) : e.Atomic es edited := by
  have frame := insertWith_frame done
  have after := insertNumbered_cases sound numbered done
  cases result : edited.result with
  | ok inserted =>
    rw [result] at after
    rcases after with ⟨as, bs, line, new, split, -, grown⟩
    exact .of_grown sound frame result grown (congrArg _ split)
  | error err =>
    rw [result] at after
    exact .of_restored frame after

theorem setDisposition_atomic (sound : e.script.Sound es) (d : Disposition) :
    e.Atomic es (e.setDisposition h d) := by
  rcases setDisposition_cases e h d with ⟨err, same⟩ | same | ⟨old, line, found, -, -, same⟩
  · rw [same]
    exact .of_restored (.refl e) sound.restored
  · rw [same]
    exact .of_restored (.refl e) sound.restored
  · rcases sound.split_of_get? found with ⟨as, bs, rfl⟩
    rw [same]
    exact .of_grown sound (.script e _) rfl (sound.grown_setLine line) (by simp)

theorem insertBlank_atomic {anchor : Handle} {relation : Relation}
    {result : Except EditError Handle} {script : Script} (sound : e.script.Sound es)
    (done : e.script.insertBlank anchor relation = .ok (result, script)) :
    e.Atomic es (⟨result, { e with script }⟩ : Edited Handle) := by
  rcases sound.insertBlank_cases anchor relation with
    ⟨h, s', n, as, bs, split, inserted, -, -, grown⟩ | ⟨err, s', refused, restored⟩
  · cases done.symm.trans inserted
    exact .of_grown sound (.script e _) rfl grown (congrArg _ split)
  · cases done.symm.trans refused
    exact .of_restored (.script e _) restored

theorem setColumn_atomic {edited : Edited Outcome} {outcome : Outcome} (column : Nat)
    (atomic : e.Atomic es edited) (accepted : edited.result = .ok outcome) :
    e.Atomic es { edited with
      editor := { edited.editor with script := edited.editor.script.setColumn column } } where
  frame := atomic.frame.trans (.script _ _)
  sound := by
    rcases atomic.sound with ⟨es', sound⟩
    exact ⟨es', ⟨sound.links, sound.lineCount, sound.owned, sound.size⟩, sound.cursor, sound.mark⟩
  capacity := atomic.capacity
  kept := atomic.kept.trans (.of_eq rfl rfl)
  refused := by
    intro err refused
    cases accepted.symm.trans refused

theorem atomic_changes (sound : e.script.Sound es) : Changes e (e.Atomic es) where
  refused := fun _ => .of_restored (.refl e) sound.restored
  map := fun f atomic => atomic.map f
  setColumn := setColumn_atomic
  update := update_atomic sound
  insertNumbered := by
    intro anchor number relation text edited numbered done
    rcases numbered with numbered | ⟨rfl, rfl⟩
    · exact insertNumbered_atomic sound numbered done
    · exact insertNumbered_atomic sound sound.lineNumber?_cursor done
  setDisposition := fun _ d => setDisposition_atomic sound d
  insertBlank := insertBlank_atomic sound

end Editor

end RobotScript
