import RobotScript.Proofs.Rollback
/-!
Where the cursor comes to when it is moved. Nothing else changes, but that a step down past a last
line that is not blank puts a blank line there.
-/
namespace RobotScript.Script

variable {s s' : Script} {es as bs : List Entry} {h : Handle} {n : Nat}

theorem Sound.setCursor (sound : s.Sound es) (stands : Entry.At es n h) :
    (s.setCursor h n).Sound es :=
  ⟨⟨sound.links, sound.lineCount, sound.owned, sound.size⟩, stands, sound.mark⟩

theorem Sound.setColumn (sound : s.Sound es) (column : Nat) : (s.setColumn column).Sound es :=
  ⟨⟨sound.links, sound.lineCount, sound.owned, sound.size⟩, sound.cursor, sound.mark⟩

theorem Sound.next?_cursor (sound : s.Sound es) (below : s.next? s.cursor.handle = some h) :
    Entry.At es (s.cursor.line + 1) h := by
  rcases sound.cursor.split with ⟨as, x, bs, rfl, number, here⟩
  rw [← here, sound.next?_split] at below
  rcases Option.map_eq_some_iff.mp below with ⟨y, first, rfl⟩
  rcases List.head?_eq_some_iff.mp first with ⟨bs, rfl⟩
  have stands := Entry.at_split (as ++ [x]) y bs
  rw [number]
  simpa using stands

theorem Sound.previous?_cursor (sound : s.Sound es)
    (above : s.previous? s.cursor.handle = some h) : Entry.At es (s.cursor.line - 1) h := by
  rcases sound.cursor.split with ⟨as, x, bs, rfl, number, here⟩
  rw [← here, sound.previous?_split] at above
  rcases Option.map_eq_some_iff.mp above with ⟨y, last, rfl⟩
  rcases List.getLast?_eq_some_iff.mp last with ⟨as, rfl⟩
  have stands := Entry.at_split as y (x :: bs)
  rw [number]
  simpa using stands

theorem Sound.setCursor_below {line : Line} {new : List Entry} (sound : s.Sound es)
    (numbered : s.lineNumber? s.cursor.handle = some n) (gap : Gap as bs s.cursor.handle n .after)
    (grown : s.Grown as (⟨h, line⟩ :: new) bs s') :
    (s'.setCursor h (s'.cursor.line + 1)).Sound (as ++ (⟨h, line⟩ :: new ++ bs)) := by
  have here : s.cursor.line = as.length := by
    rw [sound.lineNumber?_cursor] at numbered
    exact (Option.some.inj numbered).trans gap.number_of_after
  have stays : s'.cursor.line = as.length := by
    rw [grown.shifted.cursor]
    dsimp only
    rw [here, renumber, if_neg (by omega)]
  rw [stays]
  exact grown.sound.setCursor (Entry.at_split as ⟨h, line⟩ (new ++ bs))

theorem Sound.previous?_eq_none (sound : s.Sound es) (alone : s.previous? s.cursor.handle = none) :
    s.cursor.line = 1 := by
  rcases sound.cursor.split with ⟨as, x, bs, rfl, number, here⟩
  rw [← here, sound.previous?_split, Option.map_eq_none_iff, List.getLast?_eq_none_iff] at alone
  rw [number, alone, List.length_nil]

theorem Sound.next?_eq_none (sound : s.Sound es) (alone : s.next? s.cursor.handle = none) :
    s.cursor.line = es.length := by
  rcases sound.cursor.split with ⟨as, x, bs, rfl, number, here⟩
  rw [← here, sound.next?_split, Option.map_eq_none_iff, List.head?_eq_none_iff] at alone
  simp [number, alone]

theorem Sound.moveUp_eq (sound : s.Sound es) (steps : Nat) :
    ∃ h, Entry.At es (max 1 (s.cursor.line - steps)) h ∧
      s.moveUp steps = .ok (s.setCursor h (max 1 (s.cursor.line - steps))) := by
  induction steps generalizing s with
  | zero =>
    have positive : max 1 s.cursor.line = s.cursor.line := Nat.max_eq_right sound.cursor.1
    rw [Nat.sub_zero, positive]
    exact ⟨_, sound.cursor, rfl⟩
  | succ steps ih =>
    unfold moveUp
    split
    next h above =>
      have up : checkedSub s.cursor.line 1 = .ok (s.cursor.line - 1) :=
        checkedSub_eq_ok.mpr ⟨sound.cursor.1, rfl⟩
      rw [up]
      rcases ih (sound.setCursor (sound.previous?_cursor above)) with ⟨h', stands, moved⟩
      have line : (s.setCursor h (s.cursor.line - 1)).cursor.line - steps =
          s.cursor.line - (steps + 1) := by
        rw [Nat.sub_add_eq, Nat.sub_right_comm]
        rfl
      rw [line] at stands moved
      exact ⟨h', stands, moved⟩
    next alone =>
      have first := sound.previous?_eq_none alone
      have stays : max 1 (s.cursor.line - (steps + 1)) = s.cursor.line := by omega
      rw [stays]
      exact ⟨_, sound.cursor, rfl⟩

theorem Sound.moveDown_eq (sound : s.Sound es) (steps : Nat) :
    ∃ h, Entry.At es (min (s.cursor.line + steps) es.length) h ∧
      s.moveDown steps =
        if s.cursor.line + steps ≤ es.length then s.setCursor h (s.cursor.line + steps)
        else (s.setCursor h es.length).growBelow := by
  have bound := sound.cursor.le_length
  induction steps generalizing s with
  | zero =>
    refine ⟨s.cursor.handle, ?_, ?_⟩
    · rw [Nat.add_zero, Nat.min_eq_left bound]
      exact sound.cursor
    · rw [Nat.add_zero, if_pos bound]
      rfl
  | succ steps ih =>
    unfold moveDown
    split
    next h below =>
      have stands := sound.next?_cursor below
      rcases ih (sound.setCursor stands) stands.le_length with ⟨h', stands', moved⟩
      have line : (s.setCursor h (s.cursor.line + 1)).cursor.line + steps =
          s.cursor.line + (steps + 1) := by
        rw [Nat.add_comm steps 1, ← Nat.add_assoc]
        rfl
      rw [line] at stands' moved
      exact ⟨h', stands', moved⟩
    next alone =>
      have last := sound.next?_eq_none alone
      refine ⟨s.cursor.handle, ?_, ?_⟩
      · rw [Nat.min_eq_right (by omega), ← last]
        exact sound.cursor
      · rw [if_neg (by omega), ← last]
        rfl

theorem Sound.gotoLine_eq (sound : s.Sound es) (number : Nat) :
    ∃ h, Entry.At es (max 1 (min number es.length)) h ∧
      s.gotoLine number = .ok (s.setCursor h (max 1 (min number es.length))) := by
  have positive := sound.cursor.1
  have bound := sound.cursor.le_length
  unfold gotoLine moveCursor
  dsimp only
  rw [sound.lineCount, Nat.max_eq_left (Nat.le_trans positive bound)]
  generalize target_eq : max 1 (min number es.length) = target
  split
  next up =>
    rcases sound.moveUp_eq ((target : Int) - s.cursor.line).natAbs with ⟨h, stands, moved⟩
    have line : max 1 (s.cursor.line - ((target : Int) - s.cursor.line).natAbs) = target := by omega
    rw [line] at stands moved
    exact ⟨h, stands, moved⟩
  next down =>
    rcases sound.moveDown_eq ((target : Int) - s.cursor.line).toNat with ⟨h, stands, moved⟩
    have line : s.cursor.line + ((target : Int) - s.cursor.line).toNat = target := by omega
    have inside : target ≤ es.length := by omega
    rw [line, Nat.min_eq_left inside] at stands
    rw [line, if_pos inside] at moved
    exact ⟨h, stands, congrArg Except.ok moved⟩

theorem checkCapacity_eq_ok_iff {old new : Nat} :
    s.checkCapacity old new = .ok () ↔ s.programSize - old + new ≤ s.capacity := by
  unfold checkCapacity
  dsimp only
  split
  next more => simpa using more
  next enough => simpa using enough

/-- A line that holds anything takes a blank line below it, if there is room. -/
theorem Sound.growBelow_cases (sound : s.Sound es) (last : s.cursor.line = es.length) :
    (s.currentLine?.map Line.isBlank = some true ∨ s.capacity < s.programSize + Line.blank.size) ∧
        s.growBelow = s ∨
      (s.currentLine?.map Line.isBlank = some false ∧
          s.programSize + Line.blank.size ≤ s.capacity) ∧
        ∃ h s', s.Grown es [⟨h, .blank⟩] [] s' ∧ s.growBelow = s'.setCursor h (es.length + 1) := by
  rcases sound.cursor.split with ⟨as, x, bs, rfl, number, here⟩
  have alone : bs = [] := by simpa [number] using last
  subst alone
  have current : s.currentLine? = some x.line := by
    rw [currentLine?, ← here]
    exact sound.get?_split
  have room : s.checkCapacity 0 Line.blank.size = .ok () ↔
      s.programSize + Line.blank.size ≤ s.capacity := checkCapacity_eq_ok_iff
  unfold growBelow
  rw [current, Option.map_some, Option.getD_some]
  split
  next blank => exact .inl ⟨.inl (congrArg some blank), rfl⟩
  next holds =>
    rw [Bool.not_eq_true] at holds
    unfold insertBlankAt
    cases checked : s.checkCapacity 0 Line.blank.size with
    | error err =>
      have full : s.capacity < s.programSize + Line.blank.size := by
        rw [← Nat.not_le, ← room, checked]
        simp
      exact .inl ⟨.inr full, rfl⟩
    | ok _ =>
      have whole : s.Sound (as ++ [x] ++ []) := by simpa using sound
      rcases whole.insertLine_gap (.below as x []) .blank with ⟨h, s', inserted, grown⟩
      have line : s'.cursor.line = (as ++ [x]).length := by
        rw [grown.shifted.cursor]
        dsimp only
        rw [last, renumber, if_neg (by omega)]
      rw [sound.lineNumber?_cursor, last, ← here]
      dsimp only
      rw [inserted]
      dsimp only [Except.map]
      rw [line]
      exact .inr ⟨⟨congrArg some holds, room.mp checked⟩, h, s', grown, rfl⟩

theorem Sound.moveCursor (sound : s.Sound es) (count : Int) :
    ∃ es' s', s.moveCursor count = .ok s' ∧ s'.Sound es' := by
  unfold Script.moveCursor
  split
  · rcases sound.moveUp_eq count.natAbs with ⟨h, stands, moved⟩
    exact ⟨es, _, moved, sound.setCursor stands⟩
  · rcases sound.moveDown_eq count.toNat with ⟨h, stands, moved⟩
    rw [moved]
    split
    next inside =>
      rw [Nat.min_eq_left inside] at stands
      exact ⟨es, _, rfl, sound.setCursor stands⟩
    next past =>
      rw [Nat.min_eq_right (by omega)] at stands
      have last := sound.setCursor stands
      rcases last.growBelow_cases rfl with ⟨-, stays⟩ | ⟨-, h', s', grown, grows⟩
      · rw [stays]
        exact ⟨es, _, rfl, last⟩
      · rw [grows]
        exact ⟨_, _, rfl, grown.sound.setCursor (Entry.at_split es ⟨h', .blank⟩ [])⟩

theorem Sound.growBelow_keptIn (sound : s.Sound es) (last : s.cursor.line = es.length) :
    s.KeptIn s.growBelow := by
  rcases sound.growBelow_cases last with ⟨-, stays⟩ | ⟨-, h, s', grown, grows⟩
  · rw [stays]
    exact .of_eq rfl rfl
  · rw [grows]
    exact (grown.keptIn sound (by simp)).trans (.of_eq rfl rfl)

theorem Sound.moveCursor_keptIn {count : Int} (sound : s.Sound es)
    (done : s.moveCursor count = .ok s') : s.KeptIn s' := by
  unfold Script.moveCursor at done
  split at done
  · rcases sound.moveUp_eq count.natAbs with ⟨h, -, moved⟩
    cases done.symm.trans moved
    exact .of_eq rfl rfl
  · rcases sound.moveDown_eq count.toNat with ⟨h, stands, moved⟩
    cases done
    rw [moved]
    split
    next => exact .of_eq rfl rfl
    next past =>
      rw [Nat.min_eq_right (by omega)] at stands
      have moved : s.KeptIn (s.setCursor h es.length) := .of_eq rfl rfl
      exact moved.trans ((sound.setCursor stands).growBelow_keptIn rfl)

end RobotScript.Script
