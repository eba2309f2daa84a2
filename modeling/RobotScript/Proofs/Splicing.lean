import RobotScript.Proofs.Holds
import RobotScript.Proofs.Sound
/-!
Putting lines into a sound script and taking them out again. Lines that are put in move the cursor
and the mark down; taken out again one by one from where they were put in, they leave the script
as it was, but for the pool of handles.
-/
namespace RobotScript

def Mark.renumber (m : Mark) (first count : Nat) : Mark :=
  { m with
    startLine := RobotScript.renumber first count m.startLine
    endLine := RobotScript.renumber first count m.endLine }

def Mark.ends (m : Mark) : Handle × Handle := (m.start, m.stop)

theorem renumber_zero (first number : Nat) : renumber first 0 number = number := by
  unfold renumber
  split <;> rfl

theorem Mark.renumber_zero (m : Mark) (first : Nat) : m.renumber first 0 = m := by
  simp [Mark.renumber, RobotScript.renumber_zero]

theorem renumber_renumber {first next count more : Nat} (from_le : first ≤ next)
    (le_to : next ≤ first + count) (number : Nat) :
    renumber next more (renumber first count number) = renumber first (count + more) number := by
  unfold renumber
  split <;> split <;> omega

theorem renumber_ne (first count number : Nat) : renumber first (count + 1) number ≠ first := by
  unfold renumber
  split <;> omega

theorem renumber_pred (first count number : Nat) :
    (if first < renumber first (count + 1) number then renumber first (count + 1) number - 1
      else renumber first (count + 1) number) = renumber first count number := by
  unfold renumber
  split <;> split <;> omega

theorem Mark.Sits.congr {m : Mark} {as bs : List Entry} (sits : m.Sits as)
    (same : Entry.handlesOf as = Entry.handlesOf bs) : m.Sits bs :=
  ⟨sits.ordered, sits.start.congr same, sits.stop.congr same⟩

theorem Mark.Sits.insert {m : Mark} {as bs : List Entry} (sits : m.Sits (as ++ bs))
    (run : List Entry) : (m.renumber (as.length + 1) run.length).Sits (as ++ (run ++ bs)) where
  ordered := by
    have := sits.ordered
    unfold Mark.renumber RobotScript.renumber
    dsimp only
    split <;> split <;> omega
  start := sits.start.insert run
  stop := sits.stop.insert run

theorem Mark.Sits.erase {m m' : Mark} {as bs : List Entry} {x : Entry}
    (distinct : (Entry.handlesOf (as ++ x :: bs)).Nodup) (sits : m.Sits (as ++ x :: bs))
    (left : m.shiftUp? x.handle (as.length + 1) ((as.getLast?.map (·.handle)).getD .top)
      (bs.head?.map (·.handle)) = some m') : m'.Sits (as ++ bs) := by
  have here := Entry.at_split as x bs
  have whole := sits.stop.le_length
  rw [List.length_append, List.length_cons] at whole
  unfold Mark.shiftUp? at left
  dsimp only at left
  rw [Option.ite_none_right_eq_some, Bool.and_eq_true_iff, decide_eq_true_eq] at left
  obtain ⟨⟨ordered, real⟩, same⟩ := left
  cases same
  refine ⟨ordered, ?_, ?_⟩
  · dsimp only
    rcases eq_or_ne m.start x.handle with starts | starts
    · -- The mark starts on the line below, which takes the number of the one taken out.
      have number : m.startLine = as.length + 1 :=
        Entry.At.number_eq distinct (starts ▸ sits.start) here
      cases bs with
      | nil =>
        rw [List.length_nil] at whole
        split at ordered <;> split at ordered <;> omega
      | cons y bs =>
        rw [if_pos starts, number, if_neg (by omega)]
        exact Entry.at_split as y bs
    · rw [if_neg starts]
      exact sits.start.erase starts
  · dsimp only
    rcases eq_or_ne m.stop x.handle with stops | stops
    · -- The mark ends on the line above.
      have number : m.endLine = as.length + 1 :=
        Entry.At.number_eq distinct (stops ▸ sits.stop) here
      rw [if_pos stops] at real
      rw [if_pos stops, number, if_pos (by omega)]
      rcases List.eq_nil_or_concat as with rfl | ⟨as, y, rfl⟩
      · contradiction
      · have above := Entry.at_split as y bs
        simpa using above
    · have apart : m.endLine ≠ as.length + 1 := by
        intro number
        exact stops (sits.stop.handle_eq (number ▸ here))
      have same : (as.length + 1 ≤ m.endLine) = (as.length + 1 < m.endLine) := by
        rw [eq_iff_iff]
        omega
      rw [if_neg stops]
      simp only [same]
      exact sits.stop.erase stops

/-- Taking out the first of some lines below the mark's start, or above it, moves back by one the
ends that they have moved. -/
theorem Mark.shiftUp?_renumber {m : Mark} {h previous : Handle} {next? : Option Handle}
    {first count : Nat} (starts : m.start ≠ h) (stops : m.stop ≠ h) (real : m.stop.isTop = false)
    (ordered : (m.renumber first (count + 1)).startLine ≤ (m.renumber first (count + 1)).endLine) :
    (m.renumber first (count + 1)).shiftUp? h first previous next? =
      some (m.renumber first count) := by
  have apart := renumber_ne first count m.endLine
  have same : (first ≤ RobotScript.renumber first (count + 1) m.endLine) =
      (first < RobotScript.renumber first (count + 1) m.endLine) := by
    rw [eq_iff_iff]
    omega
  unfold Mark.shiftUp? Mark.renumber
  simp only [starts, stops, if_false, same, renumber_pred, real]
  have kept : RobotScript.renumber first count m.startLine ≤
      RobotScript.renumber first count m.endLine := by
    unfold Mark.renumber RobotScript.renumber at ordered
    unfold RobotScript.renumber
    dsimp only at ordered
    split at ordered <;> split at ordered <;> simp only [*, if_true, if_false] <;> omega
  simp [kept]

/-- The place between some lines and others, next to an anchor with a number. -/
inductive Gap : List Entry → List Entry → Handle → Nat → Relation → Prop where
  | above (as : List Entry) (x : Entry) (bs : List Entry) :
    Gap as (x :: bs) x.handle (as.length + 1) .before
  | below (as : List Entry) (x : Entry) (bs : List Entry) :
    Gap (as ++ [x]) bs x.handle (as ++ [x]).length .after
  | top (bs : List Entry) : Gap [] bs .top 0 .after

theorem Gap.number_of_after {as bs : List Entry} {h : Handle} {n : Nat}
    (gap : Gap as bs h n .after) : n = as.length := by
  cases gap <;> rfl

theorem Gap.last (es : List Entry) (nonempty : es ≠ []) :
    Gap es [] (es.getLast nonempty).handle es.length .after := by
  have below := Gap.below es.dropLast (es.getLast nonempty) []
  rwa [List.dropLast_append_getLast] at below

namespace Script

structure Shifted (s : Script) (first count : Nat) (s' : Script) : Prop where
  capacity : s'.capacity = s.capacity
  cursor : s'.cursor = { s.cursor with line := renumber first count s.cursor.line }
  mark : s'.mark = s.mark.map (·.renumber first count)

/-- Whether a script comes of another by putting in lines between some and others. -/
structure Grown (s : Script) (as new bs : List Entry) (s' : Script) : Prop where
  sound : s'.Sound (as ++ (new ++ bs))
  shifted : s.Shifted (as.length + 1) new.length s'

structure KeptIn (s s' : Script) : Prop where
  handles : s.handles.Sublist s'.handles
  mark : s'.mark.map Mark.ends = s.mark.map Mark.ends

variable {s s' s'' : Script} {as bs new more : List Entry} {x : Entry} {h : Handle} {n : Nat}

theorem KeptIn.of_eq (handles : s'.handles = s.handles) (mark : s'.mark = s.mark) : s.KeptIn s' :=
  ⟨handles ▸ List.Sublist.refl _, mark ▸ rfl⟩

theorem KeptIn.trans (kept : s.KeptIn s') (again : s'.KeptIn s'') : s.KeptIn s'' :=
  ⟨kept.handles.trans again.handles, again.mark.trans kept.mark⟩

theorem Grown.keptIn {es : List Entry} (grown : s.Grown as new bs s') (sound : s.Sound es)
    (same : Entry.handlesOf es = Entry.handlesOf (as ++ bs)) : s.KeptIn s' where
  handles := by
    have before : s.handles = Entry.handlesOf es := congrArg Entry.handlesOf sound.entries
    have after : s'.handles = _ := congrArg Entry.handlesOf grown.sound.entries
    rw [before, after, same]
    simp only [Entry.handlesOf_append]
    exact (List.sublist_append_right _ _).append_left _
  mark := by
    rw [grown.shifted.mark, Option.map_map]
    rfl

theorem shifted_zero_iff :
    s.Shifted n 0 s' ↔ s'.capacity = s.capacity ∧ s'.cursor = s.cursor ∧ s'.mark = s.mark := by
  have cursor : { s.cursor with line := renumber n 0 s.cursor.line } = s.cursor := by
    rw [renumber_zero]
  have mark : s.mark.map (·.renumber n 0) = s.mark := by
    simp [Mark.renumber_zero]
  constructor
  · intro shifted
    exact ⟨shifted.capacity, shifted.cursor.trans cursor, shifted.mark.trans mark⟩
  · rintro ⟨sameCapacity, sameCursor, sameMark⟩
    exact ⟨sameCapacity, sameCursor.trans cursor.symm, sameMark.trans mark.symm⟩

theorem Shifted.trans {first next count more : Nat} (shifted : s.Shifted first count s')
    (again : s'.Shifted next more s'') (from_le : first ≤ next) (le_to : next ≤ first + count) :
    s.Shifted first (count + more) s'' where
  capacity := again.capacity.trans shifted.capacity
  cursor := by rw [again.cursor, shifted.cursor, renumber_renumber from_le le_to]
  mark := by
    rw [again.mark, shifted.mark, Option.map_map]
    congr 1
    funext m
    simp [Mark.renumber, renumber_renumber from_le le_to]

/-- The size of a row of lines follows from the lines, so a script is known by them, the cursor
and the mark. -/
theorem Lists.eq_of_shifted {es : List Entry} (lists : s.Lists es) (lists' : s'.Lists es)
    (shifted : s.Shifted n 0 s') : s' = { s with pool := s'.pool } := by
  obtain ⟨capacity, cursor, mark⟩ := shifted_zero_iff.mp shifted
  cases s
  cases s'
  simp only [mk.injEq] at *
  exact ⟨lists'.links.trans lists.links.symm, lists'.lineCount.trans lists.lineCount.symm, trivial,
    lists'.size.trans lists.size.symm, capacity, cursor, mark⟩

/-! ### Writing a line -/

theorem Lists.setLine {old : Line} (lists : s.Lists (as ++ ⟨h, old⟩ :: bs)) (line : Line) :
    (s.setLine h line).Lists (as ++ ⟨h, line⟩ :: bs) := by
  have found : s.get? h = some old := lists.get?_split
  have same : Entry.handlesOf (as ++ ⟨h, line⟩ :: bs) = Entry.handlesOf (as ++ ⟨h, old⟩ :: bs) := by
    simp
  have size := lists.size
  unfold Script.setLine
  rw [found]
  refine ⟨?_, ?_, same ▸ lists.owned, ?_⟩
  · dsimp only
    rw [lists.links]
    exact Links.setLine_split lists.distinct line
  · rw [lists.lineCount_split ⟨h, line⟩]
    simp
    omega
  · simp only [Entry.sizeOf_append, Entry.sizeOf_cons] at size ⊢
    omega

theorem shifted_setLine (h : Handle) (line : Line) : s.Shifted n 0 (s.setLine h line) := by
  rw [shifted_zero_iff]
  unfold Script.setLine
  split <;> exact ⟨rfl, rfl, rfl⟩

theorem Sound.of_handles {es es' : List Entry} (sound : s.Sound es) (lists : s'.Lists es')
    (same : Entry.handlesOf es = Entry.handlesOf es') (shifted : s.Shifted n 0 s') :
    s'.Sound es' := by
  obtain ⟨-, cursor, mark⟩ := shifted_zero_iff.mp shifted
  refine ⟨lists, ?_, ?_⟩
  · rw [cursor]
    exact sound.cursor.congr same
  · rw [mark]
    exact fun m marked => (sound.mark m marked).congr same

theorem Sound.setLine {old : Line} (sound : s.Sound (as ++ ⟨h, old⟩ :: bs)) (line : Line) :
    (s.setLine h line).Sound (as ++ ⟨h, line⟩ :: bs) :=
  sound.of_handles (n := 0) (sound.toLists.setLine line) (by simp) (shifted_setLine h line)

/-! ### Putting a line in -/

theorem Lists.insert?_gap {relation : Relation} (lists : s.Lists (as ++ bs))
    (gap : Gap as bs h n relation) (line : Line) :
    s.links.insert? h relation ⟨s.pool.allocate.1, line⟩ =
      some (.ofEntries (as ++ ⟨s.pool.allocate.1, line⟩ :: bs)) := by
  have distinct : (Entry.handlesOf (as ++ ⟨s.pool.allocate.1, line⟩ :: bs)).Nodup := by
    have fresh := lists.owned.allocate.nodup
    rw [Entry.handlesOf_append] at fresh ⊢
    exact List.perm_middle.nodup_iff.mpr fresh
  rw [lists.links]
  cases gap with
  | above as x bs =>
    exact Links.insert?_before_split distinct fun k mem => lists.real (by simp [mem])
  | below as x bs =>
    rw [List.append_assoc, List.singleton_append] at lists distinct ⊢
    rw [Links.insert?_after_split distinct fun k mem => lists.real ?_, List.append_assoc,
      List.singleton_append]
    simp only [Entry.handlesOf_append, Entry.handlesOf_cons, Entry.handlesOf_nil, List.mem_append,
      List.mem_cons] at mem ⊢
    tauto
  | top bs => exact Links.insert?_top distinct

theorem Lists.insertLine_gap {relation : Relation} (lists : s.Lists (as ++ bs))
    (gap : Gap as bs h n relation) (line : Line) :
    s.insertLine h (some n) relation line = (.ok (s.pool.allocate.1, as.length + 1),
      { s.shiftDown (as.length + 1) with
        links := .ofEntries (as ++ ⟨s.pool.allocate.1, line⟩ :: bs)
        lineCount := s.lineCount + 1
        pool := s.pool.allocate.2
        totalSize := s.totalSize + line.size }) := by
  have put := lists.insert?_gap gap line
  unfold Script.insertLine Script.link?
  simp only [Option.bind_some, put, Option.map_some]
  cases gap <;> rfl

theorem Lists.insert (lists : s.Lists (as ++ bs)) {line : Line}
    (links : s'.links = .ofEntries (as ++ ⟨s.pool.allocate.1, line⟩ :: bs))
    (lineCount : s'.lineCount = s.lineCount + 1)
    (pool : s'.pool = s.pool.allocate.2) (size : s'.totalSize = s.totalSize + line.size) :
    s'.Lists (as ++ ⟨s.pool.allocate.1, line⟩ :: bs) where
  links := links
  lineCount := by
    rw [lineCount, lists.lineCount]
    simp
    omega
  owned := by
    rw [pool]
    apply lists.owned.allocate.perm
    simp only [Entry.handlesOf_append, Entry.handlesOf_cons]
    exact List.perm_middle.symm
  size := by
    have before := lists.size
    simp only [Entry.sizeOf_append, Entry.sizeOf_cons] at before ⊢
    omega

theorem Sound.grow (sound : s.Sound (as ++ bs)) (lists : s'.Lists (as ++ (new ++ bs)))
    (shifted : s.Shifted (as.length + 1) new.length s') : s.Grown as new bs s' where
  sound := by
    refine ⟨lists, ?_, ?_⟩
    · rw [shifted.cursor]
      exact sound.cursor.insert new
    · rw [shifted.mark]
      intro m' moved
      obtain ⟨m, marked, rfl⟩ := Option.map_eq_some_iff.mp moved
      exact (sound.mark m marked).insert new
  shifted := shifted

theorem Sound.shifted_shiftDown {es : List Entry} (sound : s.Sound es) (number : Nat) :
    s.Shifted number 1 (s.shiftDown number) where
  capacity := rfl
  cursor := by
    unfold Script.shiftDown renumber
    simp only [sound.cursor_real, Bool.not_false, Bool.true_and, decide_eq_true_eq]
    split <;> rfl
  mark := rfl

theorem Sound.insertLine_gap {relation : Relation} (sound : s.Sound (as ++ bs))
    (gap : Gap as bs h n relation) (line : Line) :
    ∃ h' s', s.insertLine h (some n) relation line = (.ok (h', as.length + 1), s') ∧
      s.Grown as [⟨h', line⟩] bs s' := by
  have shifted := sound.shifted_shiftDown (as.length + 1)
  refine ⟨_, _, sound.toLists.insertLine_gap gap line, sound.grow ?_ ?_⟩
  · exact sound.toLists.insert rfl rfl rfl rfl
  · exact ⟨shifted.capacity, shifted.cursor, shifted.mark⟩

theorem Grown.trans {as' new' : List Entry} (grown : s.Grown as new bs s')
    (again : s'.Grown as' more bs s'') (split : as' = as ++ new')
    (same : new'.length = new.length) : s.Grown as (new' ++ more) bs s'' where
  sound := by
    have sound := again.sound
    rw [split] at sound
    simpa only [List.append_assoc] using sound
  shifted := by
    have shifted := again.shifted
    rw [split, List.length_append] at shifted
    rw [List.length_append, same]
    exact grown.shifted.trans shifted (by omega) (by omega)

/-! ### Taking a line out -/

theorem Lists.unlink (lists : s.Lists (as ++ x :: bs)) (number : Nat) :
    s.unlink x.handle number = { s with
      links := .ofEntries (as ++ bs)
      lineCount := s.lineCount - 1
      pool := s.pool.release x.handle
      totalSize := s.totalSize - x.line.size
      mark := s.mark.bind (·.shiftUp? x.handle number ((as.getLast?.map (·.handle)).getD .top)
        (bs.head?.map (·.handle)))
      cursor :=
        if s.cursor.handle ≠ x.handle ∧ number < s.cursor.line then
          { s.cursor with line := s.cursor.line - 1 }
        else s.cursor } := by
  have erased : s.links.erase x.handle = .ofEntries (as ++ bs) := by
    rw [lists.links, Links.erase_split lists.distinct fun k mem => lists.real (by simp [mem])]
  unfold Script.unlink
  rw [lists.get?_split, lists.above?_split, lists.next?_split]
  dsimp only
  rw [erased, Links.bottom]

theorem Lists.erase (lists : s.Lists (as ++ x :: bs)) (number : Nat) :
    (s.unlink x.handle number).Lists (as ++ bs) := by
  rw [lists.unlink]
  refine ⟨rfl, ?_, ?_, ?_⟩
  · rw [lists.lineCount]
    simp
  · apply HandlePool.Owns.release
    apply lists.owned.perm
    simp only [Entry.handlesOf_append, Entry.handlesOf_cons]
    exact List.perm_middle
  · have size := lists.size
    simp only [Entry.sizeOf_append, Entry.sizeOf_cons] at size ⊢
    omega

theorem Sound.unlink (sound : s.Sound (as ++ x :: bs)) (other : s.cursor.handle ≠ x.handle) :
    (s.unlink x.handle (as.length + 1)).Sound (as ++ bs) := by
  refine ⟨sound.erase _, ?_, ?_⟩
  · have stands := sound.cursor.erase other
    rw [sound.toLists.unlink]
    dsimp only
    simp only [ne_eq, other, not_false_eq_true, true_and]
    split
    next below => rwa [if_pos below] at stands
    next below => rwa [if_neg below] at stands
  · rw [sound.toLists.unlink]
    intro m' left
    obtain ⟨m, marked, left⟩ := Option.bind_eq_some_iff.mp left
    exact (sound.mark m marked).erase sound.distinct left

theorem Grown.unlink (grown : s.Grown as (x :: new) bs s') :
    s.Grown as new bs (s'.unlink x.handle (as.length + 1)) := by
  have sound : s'.Sound (as ++ x :: (new ++ bs)) := grown.sound
  have here := Entry.at_split as x (new ++ bs)
  have shifted := grown.shifted
  have apart : ∀ {number h}, Entry.At (as ++ x :: (new ++ bs)) (renumber (as.length + 1)
      (new.length + 1) number) h → h ≠ x.handle := by
    rintro number h stands rfl
    exact renumber_ne _ _ _ (Entry.At.number_eq sound.distinct stands here)
  have other : s'.cursor.handle ≠ x.handle := by
    have stands := sound.cursor
    rw [shifted.cursor] at stands ⊢
    exact apart stands
  refine ⟨sound.unlink other, ?_⟩
  rw [sound.toLists.unlink]
  refine ⟨shifted.capacity, ?_, ?_⟩
  · dsimp only
    simp only [ne_eq, other, not_false_eq_true, true_and]
    rw [shifted.cursor, List.length_cons]
    have number := renumber_pred (as.length + 1) new.length s.cursor.line
    split
    next below => rw [← number, if_pos below]
    next below => rw [← number, if_neg below]
  · dsimp only
    rw [shifted.mark]
    cases marked : s.mark with
    | none => rfl
    | some m =>
      have sits := sound.mark _ (by rw [shifted.mark, marked, Option.map_some])
      exact Mark.shiftUp?_renumber (apart sits.start) (apart sits.stop) (sound.real sits.stop.mem)
        sits.ordered

end Script

end RobotScript
