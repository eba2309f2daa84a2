import RobotScript.Proofs.Motion
/-!
Scripts in order: sound ones with room for a blank line. They stay so when the cursor moves, when
the mark is set, and when lines are deleted, cut or loaded.
-/
namespace RobotScript

namespace Mark

variable {m : Mark} {es : List Entry}

theorem sits_order (start : Entry.At es m.startLine m.start) (stop : Entry.At es m.endLine m.stop) :
    m.order.Sits es := by
  unfold Mark.order
  split
  next reversed => exact ⟨Nat.le_of_lt reversed, stop, start⟩
  next inOrder => exact ⟨Nat.le_of_not_lt inOrder, start, stop⟩

theorem Sits.split (sits : m.Sits es) :
    ∃ as run bs first last, es = as ++ (run ++ bs) ∧
      run.head? = some first ∧ first.handle = m.start ∧ m.startLine = as.length + 1 ∧
      run.getLast? = some last ∧ last.handle = m.stop ∧ m.endLine = as.length + run.length := by
  rcases sits.start.split with ⟨as, x, rest, rfl, startLine, starts⟩
  rcases sits.stop.split with ⟨cs, y, bs, same, endLine, stops⟩
  have ordered := sits.ordered
  have upTo : as <+: cs := by
    apply List.prefix_of_prefix_length_le (List.prefix_append as (x :: rest))
    · rw [same]
      exact List.prefix_append cs (y :: bs)
    · omega
  rcases upTo with ⟨run, rfl⟩
  rw [List.append_assoc, List.append_right_inj] at same
  refine ⟨as, run ++ [y], bs, x, y, ?_, ?_, starts, startLine, ?_, stops, ?_⟩
  · rw [same, List.append_assoc, List.singleton_append]
  · cases run with
    | nil => exact congrArg List.head? same.symm
    | cons z run => exact congrArg some (List.cons.inj same).1.symm
  · simp
  · rw [endLine]
    simp
    omega

end Mark

namespace Script

structure InOrder (s : Script) : Prop where
  sound : ∃ es, s.Sound es
  room : 5 ≤ s.capacity

variable {s s' : Script} {es as bs run : List Entry} {h : Handle} {n : Nat} {focus : Focus}

theorem InOrder.setColumn (inOrder : s.InOrder) (column : Nat) : (s.setColumn column).InOrder := by
  rcases inOrder.sound with ⟨es, sound⟩
  exact ⟨⟨es, sound.setColumn column⟩, inOrder.room⟩

theorem InOrder.change (inOrder : s.InOrder) (sound : ∃ es, s'.Sound es)
    (capacity : s'.capacity = s.capacity) : s'.InOrder :=
  ⟨sound, capacity ▸ inOrder.room⟩

theorem Sound.of_moveCursor {count : Int} (sound : s.Sound es)
    (moved : s.moveCursor count = .ok s') : ∃ es', s'.Sound es' := by
  rcases sound.moveCursor count with ⟨es', s'', again, sound'⟩
  cases moved.symm.trans again
  exact ⟨es', sound'⟩

theorem InOrder.moveCursor {count : Int} (inOrder : s.InOrder)
    (moved : s.moveCursor count = .ok s') : s'.InOrder := by
  rcases inOrder.sound with ⟨es, sound⟩
  exact inOrder.change (sound.of_moveCursor moved) ((closed_capacity _).moveCursor rfl moved)

/-! ### The mark -/

theorem Sound.placeMark (sound : s.Sound es) (endpoint : Endpoint) :
    (s.placeMark endpoint).Sound es := by
  refine ⟨⟨sound.links, sound.lineCount, sound.owned, sound.size⟩, sound.cursor, ?_⟩
  intro m' placed
  cases Option.some.inj placed
  apply Mark.sits_order
  all_goals
    cases marked : s.mark with
    | none => exact sound.cursor
    | some m =>
      have sits := sound.mark m marked
      dsimp only
      split
      · first | exact sits.start | exact sound.cursor
      · cases endpoint
        · first | exact sound.cursor | exact sits.stop
        · first | exact sits.start | exact sound.cursor

theorem Sound.unmark (sound : s.Sound es) : s.unmark.Sound es :=
  ⟨⟨sound.links, sound.lineCount, sound.owned, sound.size⟩, sound.cursor, by simp [Script.unmark]⟩

theorem InOrder.placeMark (inOrder : s.InOrder) (endpoint : Endpoint) :
    (s.placeMark endpoint).InOrder := by
  rcases inOrder.sound with ⟨es, sound⟩
  exact ⟨⟨es, sound.placeMark endpoint⟩, inOrder.room⟩

theorem InOrder.unmark (inOrder : s.InOrder) : s.unmark.InOrder := by
  rcases inOrder.sound with ⟨es, sound⟩
  exact ⟨⟨es, sound.unmark⟩, inOrder.room⟩

/-! ### Taking lines out -/

theorem Sound.refuge? (sound : s.Sound es)
    (refuge : s.refuge? s.cursor.handle focus = .ok (some (h, n))) :
    Entry.At es n h ∧ n ≠ s.cursor.line := by
  have positive := sound.cursor.1
  have up : checkedSub s.cursor.line 1 = .ok (s.cursor.line - 1) :=
    checkedSub_eq_ok.mpr ⟨positive, rfl⟩
  unfold Script.refuge? at refuge
  rw [up] at refuge
  split at refuge
  next below =>
    cases refuge
    exact ⟨sound.next?_cursor below, by omega⟩
  next below =>
    cases refuge
    exact ⟨sound.next?_cursor below, by omega⟩
  next above _ =>
    cases refuge
    exact ⟨sound.previous?_cursor above, by omega⟩
  next above =>
    cases refuge
    exact ⟨sound.previous?_cursor above, by omega⟩
  next => cases Except.ok.inj refuge

theorem Sound.delete_cases {deleted : Bool} (sound : s.Sound es)
    (done : s.delete h focus = .ok (deleted, s')) :
    s' = s ∨ ∃ as x bs h' n, es = as ++ x :: bs ∧
      (s.setCursor h' n).Sound (as ++ x :: bs) ∧ h' ≠ x.handle ∧
      s' = (s.setCursor h' n).unlink x.handle (as.length + 1) := by
  unfold Script.delete at done
  split at done
  next =>
    cases done
    exact .inl rfl
  next several =>
    simp only [Bool.or_eq_true, Bool.not_eq_true', not_or, Bool.not_eq_false] at several
    split at done
    next here =>
      subst here
      rcases bind_eq_ok.mp done with ⟨refuge?, refuge, done⟩
      split at done
      next h' n =>
        cases done
        rcases sound.refuge? refuge with ⟨stands, apart⟩
        rcases sound.cursor.split with ⟨as, x, bs, rfl, line, here⟩
        refine .inr ⟨as, x, bs, h', n, rfl, sound.setCursor stands, ?_, ?_⟩
        · rintro rfl
          rw [line] at apart
          exact apart (Entry.At.number_eq sound.distinct stands (Entry.at_split as x bs))
        · rw [here, ← line]
      next =>
        cases done
        exact .inl rfl
    next apart =>
      rcases bind_eq_ok.mp done with ⟨number?, looked, done⟩
      split at done
      next number =>
        cases done
        rcases sound.of_lineNumber? (lineNumber?_of_numberOf looked) with ⟨top, -⟩ | stands
        · have real := sound.real (sound.contains_iff.mp several.2)
          rw [top] at real
          contradiction
        · rcases stands.split with ⟨as, x, bs, rfl, rfl, rfl⟩
          exact .inr ⟨as, x, bs, _, _, rfl, sound.setCursor sound.cursor, Ne.symm apart, rfl⟩
      next =>
        cases done
        exact .inl rfl

theorem Sound.delete {deleted : Bool} (sound : s.Sound es)
    (done : s.delete h focus = .ok (deleted, s')) : ∃ es', s'.Sound es' := by
  rcases sound.delete_cases done with rfl | ⟨as, x, bs, h', n, rfl, moved, off, rfl⟩
  · exact ⟨es, sound⟩
  · exact ⟨as ++ bs, moved.unlink off⟩

theorem InOrder.delete {deleted : Bool} (inOrder : s.InOrder)
    (done : s.delete h focus = .ok (deleted, s')) : s'.InOrder := by
  rcases inOrder.sound with ⟨es, sound⟩
  exact inOrder.change (sound.delete done) ((closed_capacity _).delete rfl done)

theorem Lists.seed (lists : s.Lists []) (unmarked : s.mark = none) (room : 5 ≤ s.capacity) :
    ∃ h, s.seed.Sound [⟨h, .blank⟩] ∧ s.seed.capacity = s.capacity ∧ s.seed.mark = none := by
  have moved : (s.setCursor .top 0).Lists ([] ++ []) :=
    ⟨lists.links, lists.lineCount, lists.owned, lists.size⟩
  have enough : (s.setCursor .top 0).checkCapacity 0 Line.blank.size = .ok () := by
    have needed : (s.setCursor .top 0).programSize - 0 + Line.blank.size = 5 := by
      rw [Script.programSize, moved.size]
      rfl
    unfold Script.checkCapacity
    dsimp only
    rw [needed]
    exact if_neg (Nat.not_lt.mpr room)
  have inserted := moved.insertLine_gap (.top []) .blank
  unfold Script.seed Script.insertBlankAt
  rw [enough]
  dsimp only
  rw [inserted]
  dsimp only [Except.map]
  have gone : ((s.setCursor .top 0).shiftDown 1).mark = none := by
    simp [Script.setCursor, Script.shiftDown, unmarked]
  refine ⟨_, ⟨moved.insert rfl rfl rfl rfl, Entry.at_split [] _ [], ?_⟩, rfl, gone⟩
  intro m marked
  cases gone.symm.trans marked

theorem Lists.seed_inOrder (lists : s.Lists []) (unmarked : s.mark = none)
    (room : 5 ≤ s.capacity) : s.seed.InOrder := by
  rcases lists.seed unmarked room with ⟨h, sound, capacity, -⟩
  exact ⟨⟨_, sound⟩, capacity ▸ room⟩

/-! ### The block -/

theorem Sound.block_sits (sound : s.Sound es) : s.block.Sits es := by
  unfold Script.block
  cases marked : s.mark with
  | none => exact ⟨Nat.le_refl _, sound.cursor, sound.cursor⟩
  | some m => exact sound.mark m marked

theorem Lists.unlinkSpan {first last : Entry} (lists : s.Lists (as ++ (run ++ bs)))
    (starts : run.head? = some first) (stops : run.getLast? = some last) :
    ∃ pool, pool.Owns (Entry.handlesOf (as ++ bs)) ∧
      s.unlinkSpan first.handle last.handle = (run.length, { s with
        links := .ofEntries (as ++ bs)
        lineCount := s.lineCount - run.length
        pool
        totalSize := Entry.sizeOf (as ++ bs) }) := by
  have size : s.totalSize - Line.sizeOfAll (run.map (·.line)) = Entry.sizeOf (as ++ bs) := by
    rw [lists.size, ← Entry.sizeOf]
    simp only [Entry.sizeOf_append]
    omega
  have owned : s.pool.Owns (Entry.handlesOf run ++ Entry.handlesOf (as ++ bs)) := by
    apply lists.owned.perm
    simp only [Entry.handlesOf_append]
    rw [← List.append_assoc, ← List.append_assoc]
    exact List.perm_append_comm.append_right _
  refine ⟨_, HandlePool.Owns.releaseAll owned, ?_⟩
  rcases List.head?_eq_some_iff.mp starts with ⟨tail, rfl⟩
  unfold Script.unlinkSpan
  rw [lists.links, Links.eraseSpan_split lists.distinct (fun _ => lists.real) stops]
  dsimp only
  rw [size]

theorem Lists.setCursor_sound (lists : s.Lists es) (unmarked : s.mark = none)
    (stands : Entry.At es n h) : (s.setCursor h n).Sound es :=
  ⟨⟨lists.links, lists.lineCount, lists.owned, lists.size⟩, stands, by simp [setCursor, unmarked]⟩

theorem Lists.relocate {m : Mark} (lists : s.Lists (as ++ bs))
    (stands : Entry.At (as ++ (run ++ bs)) s.cursor.line s.cursor.handle)
    (startLine : m.startLine = as.length + 1) (endLine : m.endLine = as.length + run.length)
    (left : as ++ bs ≠ []) :
    ∃ h n, s.relocate m ((as.getLast?.map (·.handle)).getD .top) (bs.head?.map (·.handle))
        run.length = .ok (s.setCursor h n) ∧ Entry.At (as ++ bs) n h ∧
      n = if m.contains s.cursor.line then
          if bs = [] then as.length else as.length + 1
        else if m.endLine < s.cursor.line then s.cursor.line - run.length
        else s.cursor.line := by
  unfold Script.relocate
  split
  next inside =>
    split
    next h after =>
      rcases Option.map_eq_some_iff.mp after with ⟨y, first, rfl⟩
      rcases List.head?_eq_some_iff.mp first with ⟨bs, rfl⟩
      rw [startLine]
      exact ⟨_, _, rfl, Entry.at_split as y bs, by simp⟩
    next after =>
      rw [Option.map_eq_none_iff, List.head?_eq_none_iff] at after
      rw [after, List.append_nil] at left
      rcases List.eq_nil_or_concat as with empty | ⟨as, y, rfl⟩
      · contradiction
      · have above := Entry.at_split as y bs
        rw [List.concat_eq_append] at startLine ⊢
        have up : checkedSub m.startLine 1 = .ok (as ++ [y]).length :=
          checkedSub_eq_ok.mpr ⟨by omega, by omega⟩
        rw [up]
        exact ⟨_, _, rfl, by simpa using above, by simp [after]⟩
  next outside =>
    split
    next below =>
      have up : checkedSub s.cursor.line run.length = .ok (s.cursor.line - run.length) :=
        checkedSub_eq_ok.mpr ⟨by omega, rfl⟩
      rw [up]
      exact ⟨_, _, rfl, stands.below_run run (by omega), rfl⟩
    next above =>
      refine ⟨s.cursor.handle, s.cursor.line, rfl, stands.above_run run ?_, rfl⟩
      simp only [Mark.contains, Bool.and_eq_true, decide_eq_true_eq, not_and] at outside
      omega

/-- A block that is taken out is a run of lines; `t` is the script without them, before the cursor
is moved. -/
theorem Sound.clearBlock_eq (sound : s.Sound es) :
    ∃ (as run bs : List Entry) (t left : Script), es = as ++ (run ++ bs) ∧
      s.block.startLine = as.length + 1 ∧
      s.block.endLine = as.length + run.length ∧ t.Lists (as ++ bs) ∧ t.mark = none ∧
      t.capacity = s.capacity ∧ t.cursor = s.cursor ∧ s.clearBlock = .ok (run.length, left) ∧
      if as ++ bs = [] then left = t.seed
      else t.relocate s.block ((as.getLast?.map (·.handle)).getD .top) (bs.head?.map (·.handle))
        run.length = .ok left := by
  rcases sound.block_sits.split with
    ⟨as, run, bs, first, last, rfl, starts, start, startLine, stops, stop, endLine⟩
  have before : s.previous? s.block.start = as.getLast?.map (·.handle) := by
    rcases List.head?_eq_some_iff.mp starts with ⟨rest, rfl⟩
    rw [← start]
    exact sound.previous?_split
  have after : s.next? s.block.stop = bs.head?.map (·.handle) := by
    rcases List.getLast?_eq_some_iff.mp stops with ⟨init, rfl⟩
    rw [← stop]
    rw [List.append_assoc, List.singleton_append, ← List.append_assoc] at sound
    exact sound.next?_split
  have unmarked : s.unmark.Lists (as ++ (run ++ bs)) :=
    ⟨sound.links, sound.lineCount, sound.owned, sound.size⟩
  rcases unmarked.unlinkSpan starts stops with ⟨pool, owned, removed⟩
  have count : s.lineCount - run.length = (as ++ bs).length := by
    rw [sound.lineCount]
    simp only [List.length_append]
    omega
  generalize same : ({ s.unmark with
      links := .ofEntries (as ++ bs), lineCount := s.unmark.lineCount - run.length, pool,
      totalSize := Entry.sizeOf (as ++ bs) } : Script) = t at removed
  have lists : t.Lists (as ++ bs) := by
    rw [← same]
    exact ⟨rfl, count, owned, rfl⟩
  have cleared : s.clearBlock = (do
      if t.lineCount = 0 then return (run.length, t.seed)
      else return (run.length, ← t.relocate s.block ((as.getLast?.map (·.handle)).getD .top)
        (bs.head?.map (·.handle)) run.length)) := by
    unfold Script.clearBlock
    dsimp only
    rw [before, after, ← start, ← stop, removed]
  simp only [lists.lineCount, List.length_eq_zero_iff] at cleared
  have kept : t.mark = none ∧ t.capacity = s.capacity ∧ t.cursor = s.cursor := by
    rw [← same]
    exact ⟨rfl, rfl, rfl⟩
  by_cases none : as ++ bs = []
  · rw [if_pos none] at cleared
    exact ⟨as, run, bs, t, t.seed, rfl, startLine, endLine, lists, kept.1, kept.2.1, kept.2.2,
      cleared, by rw [if_pos none]⟩
  · rw [if_neg none] at cleared
    have stands := sound.cursor
    rw [← kept.2.2] at stands
    rcases lists.relocate stands startLine endLine none with ⟨h, n, moved, -⟩
    rw [moved] at cleared
    exact ⟨as, run, bs, t, t.setCursor h n, rfl, startLine, endLine, lists, kept.1, kept.2.1,
      kept.2.2, cleared, by rw [if_neg none, moved]⟩

/-- What is left when a block is taken out is sound, but that a program without lines may have no
room for a blank one. -/
theorem Sound.clearBlock_cases {removed : Nat} (sound : s.Sound es)
    (done : s.clearBlock = .ok (removed, s')) :
    (∃ es', s'.Sound es') ∨
      ∃ t : Script, t.Lists [] ∧ t.mark = none ∧ t.capacity = s.capacity ∧ s' = t.seed := by
  rcases sound.clearBlock_eq with
    ⟨as, run, bs, t, left, rfl, startLine, endLine, lists, unmarked, capacity, cursor, cleared, rest⟩
  cases done.symm.trans cleared
  split at rest
  next none =>
    rw [none] at lists
    exact .inr ⟨t, lists, unmarked, capacity, rest⟩
  next some =>
    have stands := sound.cursor
    rw [← cursor] at stands
    rcases lists.relocate stands startLine endLine some with ⟨h, n, moved, there, -⟩
    cases rest.symm.trans moved
    exact .inl ⟨_, lists.setCursor_sound unmarked there⟩

theorem InOrder.clearBlock {removed : Nat} (inOrder : s.InOrder)
    (done : s.clearBlock = .ok (removed, s')) : s'.InOrder := by
  rcases inOrder.sound with ⟨es, sound⟩
  rcases sound.clearBlock_cases done with sound' | ⟨t, lists, unmarked, capacity, rfl⟩
  · exact inOrder.change sound' ((closed_capacity _).clearBlock rfl done)
  · exact lists.seed_inOrder unmarked (capacity ▸ inOrder.room)

/-! ### Loading -/

theorem lists_ofLines (capacity : Nat) (lines : List Line) :
    ∃ es, es.map (·.line) = lines ∧ (ofLines capacity lines).Lists es := by
  have same : (lines.mapIdx fun i line => (⟨⟨i + 1, 0⟩, line⟩ : Entry)).map (·.line) = lines := by
    apply List.ext_getElem <;> simp
  refine ⟨_, same, rfl, by simp [ofLines], owns_ofLines capacity lines, ?_⟩
  unfold Entry.sizeOf
  rw [same]
  rfl

theorem Lists.start (lists : s.Lists es) (unmarked : s.mark = none) (first : s.first? = some h) :
    (s.setCursor h 1).Sound es := by
  rw [lists.first?] at first
  rcases Option.map_eq_some_iff.mp first with ⟨x, head, rfl⟩
  rcases List.head?_eq_some_iff.mp head with ⟨es, rfl⟩
  exact lists.setCursor_sound unmarked (Entry.at_split [] x es)

theorem Lists.eq_nil_of_first? (lists : s.Lists es) (first : s.first? = none) : es = [] := by
  rw [lists.first?] at first
  exact List.head?_eq_none_iff.mp (Option.map_eq_none_iff.mp first)

end Script

namespace Editor

variable {e : Editor}

structure InOrder (e : Editor) : Prop where
  script : e.script.InOrder
  room : 5 ≤ e.config.maxSize

theorem InOrder.mapScript {f : Script → Script} (inOrder : e.InOrder)
    (kept : e.script.InOrder → (f e.script).InOrder) : (e.mapScript f).InOrder :=
  ⟨kept inOrder.script, inOrder.room⟩

theorem InOrder.attempt {edit : Edit} {edited : Edited Unit} (inOrder : e.InOrder)
    (done : e.attempt edit = .ok edited) : edited.editor.InOrder := by
  rcases inOrder.script.sound with ⟨es, sound⟩
  have atomic := (atomic_changes sound).attempt done
  refine ⟨⟨atomic.sound, ?_⟩, ?_⟩
  · rw [atomic.capacity]
    exact inOrder.script.room
  · rw [atomic.frame.config]
    exact inOrder.room

theorem sound_insertBelow {es : List Entry} {text : String} {edited : Edited Handle} {h : Handle}
    (sound : e.script.Sound es) (done : e.insert e.script.cursor.handle .after text = .ok edited)
    (accepted : edited.result = .ok h) :
    ∃ es', (edited.editor.script.setCursor h (edited.editor.script.cursor.line + 1)).Sound es' ∧
      edited.editor.script.capacity = e.script.capacity := by
  rcases insert_cases done with ⟨-, rfl⟩ | ⟨_, inserted, numbered, insert, rfl⟩
  · contradiction
  · cases sound.lineNumber?_cursor.symm.trans numbered
    have after := insertNumbered_cases sound numbered insert
    rcases map_eq_ok.mp accepted with ⟨answer, insertedOk, rfl⟩
    rw [insertedOk] at after
    rcases after with ⟨as, bs, line, new, -, gap, grown⟩
    exact ⟨_, sound.setCursor_below numbered gap grown, grown.shifted.capacity⟩

theorem InOrder.insertBelow {text : String} {edited : Edited Handle} {h : Handle}
    (inOrder : e.InOrder)
    (done : e.insert e.script.cursor.handle .after text = .ok edited)
    (accepted : edited.result = .ok h) :
    (edited.editor.mapScript (·.setCursor h (edited.editor.script.cursor.line + 1))).InOrder := by
  rcases inOrder.script.sound with ⟨es, sound⟩
  rcases sound_insertBelow sound done accepted with ⟨es', sound', capacity⟩
  have frame := ((atomic_changes sound).insert done).frame
  exact ⟨inOrder.script.change ⟨es', sound'⟩ capacity, frame.config ▸ inOrder.room⟩

theorem InOrder.load (inOrder : e.InOrder) (program : Bytes) : (e.load program).InOrder := by
  refine ⟨?_, inOrder.room⟩
  rcases Script.lists_ofLines e.config.maxSize
    ((splitRecords (programBody program)).1.map lineOfRecord) with ⟨es, -, lists⟩
  unfold Editor.load
  dsimp only
  split
  next h first => exact ⟨⟨es, lists.start rfl first⟩, inOrder.room⟩
  next first =>
    rw [lists.eq_nil_of_first? first] at lists
    exact lists.seed_inOrder rfl inOrder.room

theorem inOrder_new {c : Config} (room : 5 ≤ c.maxSize) : (Editor.new c).InOrder := by
  rcases Script.lists_ofLines c.maxSize [] with ⟨es, none, lists⟩
  rw [List.map_eq_nil_iff.mp none] at lists
  exact ⟨lists.seed_inOrder rfl room, room⟩

theorem stable_inOrder : Stable InOrder where
  congr := by
    intro e e' inOrder script config
    refine ⟨?_, ?_⟩
    · rw [script]
      exact inOrder.script
    · rw [config]
      exact inOrder.room
  attempt := fun inOrder _ done => inOrder.attempt done
  insertBelow := fun inOrder done accepted => inOrder.insertBelow done accepted
  load := fun inOrder program => inOrder.load program
  delete := fun inOrder removed => ⟨inOrder.script.delete removed, inOrder.room⟩
  moveCursor := fun inOrder moved => ⟨inOrder.script.moveCursor moved, inOrder.room⟩
  setColumn := fun inOrder column => inOrder.mapScript fun kept => kept.setColumn column
  placeMark := fun inOrder endpoint => inOrder.mapScript fun kept => kept.placeMark endpoint
  unmark := fun inOrder => inOrder.mapScript fun kept => kept.unmark
  clearBlock := fun inOrder cleared => ⟨inOrder.script.clearBlock cleared, inOrder.room⟩

theorem Reachable.inOrder {c : Config} (reached : Reachable c e) (room : 5 ≤ c.maxSize) :
    e.InOrder :=
  stable_inOrder.reachable (inOrder_new room) reached

end Editor

end RobotScript
