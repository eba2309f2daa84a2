import RobotScript.Proofs.Ownership
import RobotScript.Proofs.Row
import RobotScript.Script.Block
/-!
Sound scripts: the lines form a row under handles that the pool has given out, the size is that of
the lines, and the cursor and the ends of the mark stand at the numbers that are kept with them.
What is looked up in such a script is what the row says.
-/
namespace RobotScript

namespace Line

theorem sizeOfAll_append (ls ms : List Line) :
    sizeOfAll (ls ++ ms) = sizeOfAll ls + sizeOfAll ms := by
  induction ls with
  | nil => simp [sizeOfAll]
  | cons l ls ih => simp [sizeOfAll, ih, Nat.add_assoc]

end Line

namespace Entry

def sizeOf (es : List Entry) : Nat := Line.sizeOfAll (es.map (·.line))

@[simp] theorem sizeOf_nil : sizeOf [] = 0 := rfl

@[simp] theorem sizeOf_cons (x : Entry) (es : List Entry) :
    sizeOf (x :: es) = x.line.size + sizeOf es := rfl

@[simp] theorem sizeOf_append (as bs : List Entry) : sizeOf (as ++ bs) = sizeOf as + sizeOf bs := by
  simp [sizeOf, Line.sizeOfAll_append]

/-- Whether a handle stands at a number, counted from 1. -/
def At (es : List Entry) (number : Nat) (h : Handle) : Prop :=
  1 ≤ number ∧ (handlesOf es)[number - 1]? = some h

variable {es as bs : List Entry} {x : Entry} {h h' : Handle} {n m : Nat}

theorem at_split (as : List Entry) (x : Entry) (bs : List Entry) :
    At (as ++ x :: bs) (as.length + 1) x.handle := by
  refine ⟨by omega, ?_⟩
  simp [handlesOf]

theorem At.split (stands : At es n h) :
    ∃ as x bs, es = as ++ x :: bs ∧ n = as.length + 1 ∧ x.handle = h := by
  obtain ⟨positive, found⟩ := stands
  rw [handlesOf, List.getElem?_map] at found
  obtain ⟨x, located, rfl⟩ := Option.map_eq_some_iff.mp found
  obtain ⟨bound, rfl⟩ := List.getElem?_eq_some_iff.mp located
  refine ⟨es.take (n - 1), es[n - 1], es.drop (n - 1 + 1), ?_, ?_, rfl⟩
  · rw [List.getElem_cons_drop, List.take_append_drop]
  · simp only [List.length_take]
    omega

theorem At.mem (stands : At es n h) : h ∈ handlesOf es :=
  List.mem_of_getElem? stands.2

theorem At.le_length (stands : At es n h) : n ≤ es.length := by
  obtain ⟨as, x, bs, rfl, rfl, -⟩ := stands.split
  simp

theorem At.handle_eq (stands : At es n h) (other : At es n h') : h = h' :=
  Option.some.inj (stands.2.symm.trans other.2)

theorem At.number_eq (distinct : (handlesOf es).Nodup) (stands : At es n h) (other : At es m h) :
    n = m := by
  obtain ⟨bound, -⟩ := List.getElem?_eq_some_iff.mp stands.2
  have same := (List.getElem?_inj bound distinct).mp (stands.2.trans other.2.symm)
  have := stands.1
  have := other.1
  omega

theorem At.congr (stands : At as n h) (same : handlesOf as = handlesOf bs) : At bs n h :=
  ⟨stands.1, same ▸ stands.2⟩

end Entry

def renumber (first count number : Nat) : Nat :=
  if first ≤ number then number + count else number

namespace Entry

variable {as bs : List Entry} {x : Entry} {h : Handle} {n : Nat}

theorem At.insert (stands : At (as ++ bs) n h) (run : List Entry) :
    At (as ++ (run ++ bs)) (renumber (as.length + 1) run.length n) h := by
  obtain ⟨positive, found⟩ := stands
  rw [handlesOf_append, List.getElem?_append, length_handlesOf] at found
  unfold renumber
  split at found
  next above =>
    rw [if_neg (by omega)]
    refine ⟨positive, ?_⟩
    rw [handlesOf_append, List.getElem?_append_left (by rwa [length_handlesOf])]
    exact found
  next below =>
    rw [if_pos (by omega)]
    refine ⟨by omega, ?_⟩
    rw [handlesOf_append, handlesOf_append, List.getElem?_append_right (by simp; omega),
      List.getElem?_append_right (by simp; omega), length_handlesOf, length_handlesOf, ← found]
    congr 1
    omega

theorem At.above_run (run : List Entry) (stands : At (as ++ (run ++ bs)) n h)
    (above : n ≤ as.length) :
    At (as ++ bs) n h := by
  have bound : n - 1 < (handlesOf as).length := by
    have := stands.1
    rw [length_handlesOf]
    omega
  refine ⟨stands.1, ?_⟩
  have found := stands.2
  rw [handlesOf_append, List.getElem?_append_left bound] at found ⊢
  exact found

theorem At.below_run (run : List Entry) (stands : At (as ++ (run ++ bs)) n h)
    (below : as.length + run.length < n) :
    At (as ++ bs) (n - run.length) h := by
  refine ⟨by omega, ?_⟩
  have found := stands.2
  rw [handlesOf_append, handlesOf_append, List.getElem?_append_right (by simp; omega),
    List.getElem?_append_right (by simp; omega), length_handlesOf, length_handlesOf] at found
  rw [handlesOf_append, List.getElem?_append_right (by simp; omega), length_handlesOf, ← found]
  congr 1
  omega

theorem At.erase (stands : At (as ++ x :: bs) n h) (other : h ≠ x.handle) :
    At (as ++ bs) (if as.length + 1 < n then n - 1 else n) h := by
  split
  next below => exact At.below_run [x] stands (by simpa using below)
  next above =>
    have apart : n ≠ as.length + 1 := by
      rintro rfl
      exact other (stands.handle_eq (at_split as x bs))
    exact At.above_run [x] stands (by omega)

end Entry

structure Mark.Sits (m : Mark) (es : List Entry) : Prop where
  ordered : m.startLine ≤ m.endLine
  start : Entry.At es m.startLine m.start
  stop : Entry.At es m.endLine m.stop

namespace Script

structure Lists (s : Script) (es : List Entry) : Prop where
  links : s.links = .ofEntries es
  lineCount : s.lineCount = es.length
  owned : s.pool.Owns (Entry.handlesOf es)
  size : s.totalSize = Entry.sizeOf es

/-- Whether the cursor and the mark of such a script stand at their numbers. -/
structure Sound (s : Script) (es : List Entry) : Prop extends Lists s es where
  cursor : Entry.At es s.cursor.line s.cursor.handle
  mark : ∀ m, s.mark = some m → m.Sits es

variable {s : Script} {es as bs : List Entry} {x : Entry} {h : Handle} {n : Nat}

theorem Lists.distinct (lists : s.Lists es) : (Entry.handlesOf es).Nodup := lists.owned.nodup

theorem Lists.real (lists : s.Lists es) (mem : h ∈ Entry.handlesOf es) : h.isTop = false :=
  lists.owned.isTop_eq_false mem

theorem Lists.entries (lists : s.Lists es) : s.entries = es := by
  rw [Script.entries, lists.links]
  exact Links.below_top lists.distinct fun _ => lists.real

theorem Lists.first? (lists : s.Lists es) : s.first? = es.head?.map (·.handle) := by
  rw [Script.first?, Script.next?, lists.links]
  rfl

theorem Lists.endless (lists : s.Lists es) : s.endless = false := by
  rw [Script.endless, lists.first?, lists.links]
  exact Links.endless_row lists.distinct (fun _ => lists.real) (List.nil_append es).symm

theorem Lists.throughLines {α : Type} (lists : s.Lists es) (result : α) :
    s.throughLines result = .ok result := by
  rw [Script.throughLines, lists.endless]
  rfl

theorem Lists.numberOf (lists : s.Lists es) (h : Handle) : s.numberOf h = .ok (s.lineNumber? h) := by
  rw [Script.numberOf, missesEndlessly, lists.endless, Bool.and_false]
  rfl

theorem Lists.insertBlank (lists : s.Lists es) (anchor : Handle) (relation : Relation) :
    s.insertBlank anchor relation =
      .ok (s.insertBlankAt anchor (s.lineNumber? anchor) relation) := by
  rw [Script.insertBlank, missesEndlessly, lists.endless, Bool.and_false, Bool.and_false]
  rfl

theorem Lists.last? (lists : s.Lists es) : s.last? = .ok (es.getLast?.map (·.handle)) := by
  rw [Script.last?, lists.throughLines, lists.links,
    Links.last?_row lists.distinct fun _ => lists.real]

theorem Lists.endless_below (lists : s.Lists (as ++ x :: bs)) :
    s.links.endless (s.next? x.handle) = false := by
  have row : as ++ x :: bs = (as ++ [x]) ++ bs := by simp
  have next : s.next? x.handle = bs.head?.map (·.handle) := by
    rw [Script.next?, lists.links, Links.next?_split lists.distinct]
    exact lists.real (Entry.mem_handlesOf (by simp))
  rw [next, lists.links]
  exact Links.endless_row lists.distinct (fun _ => lists.real) row

theorem Lists.lineCount_split (lists : s.Lists (as ++ x :: bs)) (y : Entry) :
    s.lineCount = (as ++ [y]).length + bs.length := by
  rw [lists.lineCount]
  simp
  omega

theorem Lists.real_split (lists : s.Lists (as ++ x :: bs)) : x.handle.isTop = false :=
  lists.real (Entry.mem_handlesOf (by simp))

theorem Lists.split_of_get? (lists : s.Lists es) {line : Line} (found : s.get? h = some line) :
    ∃ as bs, es = as ++ ⟨h, line⟩ :: bs := by
  rw [Script.get?, lists.links] at found
  by_cases mem : h ∈ Entry.handlesOf es
  · obtain ⟨x, inside, rfl⟩ := Entry.mem_handlesOf_iff.mp mem
    obtain ⟨as, bs, rfl⟩ := List.append_of_mem inside
    rw [Links.get?_split lists.distinct] at found
    cases found
    exact ⟨as, bs, rfl⟩
  · rw [Links.get?, Links.node?_eq_none mem] at found
    contradiction

theorem Lists.get?_split (lists : s.Lists (as ++ x :: bs)) : s.get? x.handle = some x.line := by
  rw [Script.get?, lists.links, Links.get?_split lists.distinct]

theorem Lists.contains_iff (lists : s.Lists es) :
    s.contains h = true ↔ h ∈ Entry.handlesOf es := by
  rw [Script.contains, Option.isSome_iff_exists]
  constructor
  · rintro ⟨line, found⟩
    obtain ⟨as, bs, rfl⟩ := lists.split_of_get? found
    exact Entry.mem_handlesOf (x := ⟨h, line⟩) (by simp)
  · intro mem
    obtain ⟨x, there, rfl⟩ := Entry.mem_handlesOf_iff.mp mem
    obtain ⟨as, bs, rfl⟩ := List.append_of_mem there
    exact ⟨_, lists.get?_split⟩

theorem Lists.lineAt?_eq_some_iff (lists : s.Lists es) :
    s.lineAt? n = some h ↔ Entry.At es n h := by
  have walk := Links.walk_row lists.distinct (fun _ => lists.real) (List.nil_append es).symm n
  unfold lineAt? Entry.At
  rw [lists.first?, lists.links, walk]
  split
  · simp [*]
  · rw [Option.filter_eq_some_iff, List.getElem?_take_of_lt (by omega)]
    constructor
    · exact fun found => ⟨by omega, found.1⟩
    · exact fun stands => ⟨stands.2, lists.contains_iff.mpr (List.mem_of_getElem? stands.2)⟩

theorem Lists.next?_split (lists : s.Lists (as ++ x :: bs)) :
    s.next? x.handle = bs.head?.map (·.handle) := by
  rw [Script.next?, lists.links, Links.next?_split lists.distinct lists.real_split]

theorem Lists.above?_split (lists : s.Lists (as ++ x :: bs)) :
    s.links.above? x.handle = some (Links.bottom .top as) := by
  rw [lists.links, Links.above?_split lists.distinct]

theorem Lists.previous?_split (lists : s.Lists (as ++ x :: bs)) :
    s.previous? x.handle = as.getLast?.map (·.handle) := by
  rw [Script.previous?, lists.above?_split, Links.bottom]
  rcases List.eq_nil_or_concat as with rfl | ⟨as, y, rfl⟩
  · rfl
  · have real : y.handle.isTop = false := lists.real (Entry.mem_handlesOf (by simp))
    simp [real]

theorem Lists.index?_split (lists : s.Lists (as ++ x :: bs)) :
    s.index? x.handle = some as.length := by
  rw [Script.index?, lists.entries, Entry.indexIn?_split (Entry.before_ne lists.distinct)]

theorem Sound.lineNumber?_split (sound : s.Sound (as ++ x :: bs)) :
    s.lineNumber? x.handle = some (as.length + 1) := by
  rw [Script.lineNumber?, sound.real_split, if_neg (by simp)]
  split
  next here =>
    have stands := Entry.at_split as x bs
    rw [here] at stands
    rw [Entry.At.number_eq sound.distinct sound.cursor stands]
  next => rw [sound.index?_split, Option.map_some]

theorem Sound.of_lineNumber? (sound : s.Sound es) (numbered : s.lineNumber? h = some n) :
    h.isTop = true ∧ n = 0 ∨ Entry.At es n h := by
  unfold Script.lineNumber? at numbered
  split at numbered
  next top => exact .inl ⟨top, (Option.some.inj numbered).symm⟩
  next =>
    split at numbered
    next here =>
      cases numbered
      exact .inr (here ▸ sound.cursor)
    next =>
      obtain ⟨i, located, rfl⟩ := Option.map_eq_some_iff.mp numbered
      rw [Script.index?, sound.entries] at located
      obtain ⟨as, x, bs, rfl, rfl, rfl⟩ := Entry.split_of_indexIn? located
      exact .inr (Entry.at_split as x bs)

theorem Sound.cursor_real (sound : s.Sound es) : s.cursor.handle.isTop = false :=
  sound.real sound.cursor.mem

theorem Sound.lineNumber?_cursor (sound : s.Sound es) :
    s.lineNumber? s.cursor.handle = some s.cursor.line := by
  simp [Script.lineNumber?, sound.cursor_real]

theorem Sound.ne_nil (sound : s.Sound es) : es ≠ [] := by
  rintro rfl
  simpa using sound.cursor.mem

end Script

end RobotScript
