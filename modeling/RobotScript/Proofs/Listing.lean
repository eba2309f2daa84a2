import RobotScript.Proofs.Leaves
import RobotScript.Proofs.Motion
/-!
A script seen as a list of lines with a cursor on one of them. What edits, moves and cuts of a
script come to is what they come to for such a list.
-/
namespace RobotScript

structure Listing where
  entries : List Entry
  cursor : Nat
  deriving DecidableEq, Repr

namespace Listing

def place? (l : Listing) (anchor : Handle) : Relation → Option Nat
  | .before => Entry.indexIn? l.entries anchor
  | .after => if anchor.isTop then some 0 else (Entry.indexIn? l.entries anchor).map (· + 1)

def insert (l : Listing) (place : Nat) (x : Entry) : Listing where
  entries := l.entries.insertIdx place x
  cursor := if place ≤ l.cursor then l.cursor + 1 else l.cursor

/-- Takes out the line at a place. The cursor stays on its line; it leaves the one taken out for
the neighbour that the focus names, or for the other one at the ends. -/
def erase (l : Listing) (place : Nat) (focus : Focus) : Listing where
  entries := l.entries.eraseIdx place
  cursor :=
    if l.cursor < place then l.cursor
    else if place < l.cursor then l.cursor - 1
    else match focus with
      | .next => min place (l.entries.length - 2)
      | .previous => place - 1

def delete (l : Listing) (h : Handle) (focus : Focus) : Bool × Listing :=
  match Entry.indexIn? l.entries h with
  | some place => if 1 < l.entries.length then (true, l.erase place focus) else (false, l)
  | none => (false, l)

theorem delete_fst_iff {l : Listing} {h : Handle} {focus : Focus} :
    (l.delete h focus).1 = true ↔ h ∈ l.entries.map (·.handle) ∧ 1 < l.entries.length := by
  unfold delete
  rw [List.mem_map]
  split
  next place located =>
    rcases Entry.split_of_indexIn? located with ⟨as, x, bs, same, -, named⟩
    have present : ∃ y ∈ l.entries, y.handle = h := ⟨x, by simp [same], named⟩
    split
    next several => simp [present, several]
    next several => simp [several]
  next located =>
    have absent := Entry.indexIn?_eq_none_iff.mp located
    simp only [Bool.false_eq_true, false_iff, not_and]
    rintro ⟨y, mem, named⟩
    exact absurd named (absent y mem)

/-- Takes out the lines from one place up to another. The cursor stays on its line; it leaves those
taken out for the first line behind them, or else for the last line before them. -/
def cut (l : Listing) (first last : Nat) : Listing where
  entries := l.entries.take first ++ l.entries.drop (last + 1)
  cursor :=
    if l.cursor < first then l.cursor
    else if last < l.cursor then l.cursor - (last + 1 - first)
    else min first (l.entries.length - (last + 1 - first) - 1)

def slice (l : Listing) (first last : Nat) : List Entry :=
  (l.entries.take (last + 1)).drop first

def move (l : Listing) (count : Int) : Listing :=
  { l with cursor := (min (l.cursor + count) (l.entries.length - 1)).toNat }

def goto (l : Listing) (number : Nat) : Listing :=
  { l with cursor := min (number - 1) (l.entries.length - 1) }

def grow (l : Listing) (h : Handle) : Listing :=
  ⟨l.entries ++ [⟨h, .blank⟩], l.entries.length⟩

end Listing

theorem Mark.Sits.renumber_last {m : Mark} {es : List Entry} (sits : m.Sits es) (count : Nat) :
    m.renumber (es.length + 1) count = m := by
  have start := sits.start.le_length
  have stop := sits.stop.le_length
  unfold Mark.renumber RobotScript.renumber
  rw [if_neg (by omega), if_neg (by omega)]

namespace Script

def listing (s : Script) : Listing := ⟨s.entries, s.cursor.line - 1⟩

variable {s s' : Script} {es as bs new run : List Entry} {x : Entry} {h : Handle} {n : Nat}

theorem Sound.listing_eq (sound : s.Sound es) : s.listing = ⟨es, s.cursor.line - 1⟩ := by
  rw [listing, sound.entries]

theorem Sound.getElem?_cursor (sound : s.Sound es) :
    s.listing.entries[s.listing.cursor]?.map (·.handle) = some s.cursor.handle := by
  have stands := sound.cursor.2
  rw [sound.listing_eq]
  rwa [Entry.handlesOf, List.getElem?_map] at stands

/-! ### Putting lines in -/

theorem Sound.place?_gap {relation : Relation} (sound : s.Sound (as ++ bs))
    (gap : Gap as bs h n relation) : s.listing.place? h relation = some as.length := by
  rw [sound.listing_eq]
  unfold Listing.place?
  cases gap with
  | above as x bs => exact Entry.indexIn?_split (Entry.before_ne sound.distinct)
  | below as x bs =>
    rw [List.append_assoc, List.singleton_append] at sound
    simp [sound.real_split, Entry.indexIn?_split (Entry.before_ne sound.distinct)]
  | top bs => simp [Handle.isTop]

theorem Sound.place?_cursor (sound : s.Sound es) :
    s.listing.place? s.cursor.handle .after = some (s.listing.cursor + 1) := by
  rcases sound.cursor.split with ⟨as, x, bs, rfl, number, here⟩
  have gap := Gap.below as x bs
  have whole : s.Sound (as ++ [x] ++ bs) := by simpa using sound
  rw [← here, whole.place?_gap gap, listing, number, List.length_append, List.length_singleton]
  rfl

theorem Grown.fresh (grown : s.Grown as (x :: new) bs s') :
    x.handle ∉ Entry.handlesOf (as ++ bs) := by
  have distinct := grown.sound.distinct
  rw [List.cons_append, Entry.handlesOf_append, Entry.handlesOf_cons, List.nodup_middle,
    List.nodup_cons] at distinct
  intro mem
  apply distinct.1
  simp only [Entry.handlesOf_append, List.mem_append] at mem ⊢
  exact mem.imp_right .inr

theorem insertIdx_split (as : List Entry) (x : Entry) (bs : List Entry) :
    (as ++ bs).insertIdx as.length x = as ++ x :: bs := by
  induction as with
  | nil => rfl
  | cons a as ih => exact congrArg (a :: ·) ih

theorem Grown.listing_eq {line : Line} (sound : s.Sound (as ++ bs))
    (grown : s.Grown as [⟨h, line⟩] bs s') :
    s'.listing = s.listing.insert as.length ⟨h, line⟩ := by
  have positive := sound.cursor.1
  rw [grown.sound.listing_eq, sound.listing_eq, Listing.insert, insertIdx_split]
  congr 1
  rw [grown.shifted.cursor]
  simp only [renumber, List.length_singleton]
  split <;> split <;> omega

theorem Grown.mark_of_last (sound : s.Sound es) (grown : s.Grown es new [] s') :
    s'.mark = s.mark := by
  rw [grown.shifted.mark]
  cases marked : s.mark with
  | none => rfl
  | some m => rw [Option.map_some, (sound.mark m marked).renumber_last]

/-! ### Moving -/

/-- Whether a move puts a blank line below the last one: it goes past that line, which is not blank,
and there is room. -/
def GrowsBy (s : Script) (count : Int) : Prop :=
  s.entries.length < s.cursor.line + count ∧
    s.entries.getLast?.map (·.line.isBlank) = some false ∧
    s.programSize + Line.blank.size ≤ s.capacity

theorem Sound.setCursor_listing (sound : s.Sound es) (n : Nat) :
    (s.setCursor h n).listing = ⟨es, n - 1⟩ := by
  unfold listing
  rw [show (s.setCursor h n).entries = es from sound.entries]
  rfl

theorem Sound.currentLine?_of_last (sound : s.Sound es) (last : s.cursor.line = es.length) :
    s.currentLine? = es.getLast?.map (·.line) := by
  rcases sound.cursor.split with ⟨as, x, bs, rfl, number, here⟩
  have alone : bs = [] := by simpa [number] using last
  rw [currentLine?, ← here, sound.get?_split]
  simp [alone]

theorem Sound.moveCursor_listing (sound : s.Sound es) (count : Int) :
    ∃ s', s.moveCursor count = .ok s' ∧
      (s.GrowsBy count ∧ (∃ h, h ∉ s.handles ∧ s'.listing = s.listing.grow h) ∧
          s'.mark = s.mark ∨
        ¬ s.GrowsBy count ∧ (∃ h n, s' = s.setCursor h n) ∧
          s'.listing = s.listing.move count) := by
  have positive := sound.cursor.1
  have bound := sound.cursor.le_length
  have inside : s.cursor.line + count ≤ es.length → ¬ s.GrowsBy count := by
    rintro inside ⟨past, -⟩
    rw [sound.entries] at past
    omega
  have moved_listing : ∀ {h n}, n - 1 = (min (((s.cursor.line - 1 : Nat) : Int) + count)
      (es.length - 1)).toNat → (s.setCursor h n).listing = s.listing.move count := by
    intro h n place
    rw [sound.setCursor_listing, sound.listing_eq, Listing.move, place]
  unfold Script.moveCursor
  split
  next up =>
    rcases sound.moveUp_eq count.natAbs with ⟨h, -, moved⟩
    exact ⟨_, moved, .inr ⟨inside (by omega), ⟨_, _, rfl⟩, moved_listing (by omega)⟩⟩
  next down =>
    rcases sound.moveDown_eq count.toNat with ⟨h, stands, moved⟩
    rw [moved]
    refine ⟨_, rfl, ?_⟩
    split
    next short =>
      exact .inr ⟨inside (by omega), ⟨_, _, rfl⟩, moved_listing (by omega)⟩
    next past =>
      have past : es.length < s.cursor.line + count := by omega
      rw [Nat.min_eq_right (by omega)] at stands
      have last := sound.setCursor stands
      have current := last.currentLine?_of_last rfl
      rcases last.growBelow_cases rfl with ⟨refused, stays⟩ | ⟨⟨holds, room⟩, h', s', grown, grows⟩
      · rw [stays]
        refine .inr ⟨?_, ⟨_, _, rfl⟩, moved_listing (by omega)⟩
        rintro ⟨-, holds, room⟩
        rw [sound.entries] at holds
        rw [current, Option.map_map] at refused
        rcases refused with blank | full
        · rw [Function.comp_def, holds] at blank
          contradiction
        · exact Nat.not_lt.mpr room full
      · refine .inl ⟨⟨sound.entries.symm ▸ past, ?_, room⟩, ⟨h', ?_, ?_⟩, ?_⟩
        · rw [current, Option.map_map] at holds
          rwa [sound.entries]
        · have fresh := grown.fresh
          rw [List.append_nil] at fresh
          rwa [handles, sound.entries]
        · rw [grows, grown.sound.setCursor_listing, sound.listing_eq]
          rfl
        · have kept := grown.mark_of_last last
          rw [grows]
          exact kept

theorem Sound.gotoLine_listing (sound : s.Sound es) (number : Nat) :
    ∃ h n, s.gotoLine number = .ok (s.setCursor h n) ∧
      (s.setCursor h n).listing = s.listing.goto number := by
  have nonempty := List.length_pos_iff.mpr sound.ne_nil
  rcases sound.gotoLine_eq number with ⟨h, -, moved⟩
  refine ⟨_, _, moved, ?_⟩
  rw [sound.setCursor_listing, sound.listing_eq, Listing.goto, Listing.mk.injEq]
  refine ⟨rfl, ?_⟩
  dsimp only
  omega

/-! ### Taking lines out -/

theorem Sound.unlink_listing (sound : s.Sound (as ++ x :: bs)) (other : s.cursor.handle ≠ x.handle) :
    (s.unlink x.handle (as.length + 1)).listing = ⟨as ++ bs,
      (if as.length + 1 < s.cursor.line then s.cursor.line - 1 else s.cursor.line) - 1⟩ := by
  rw [(sound.unlink other).listing_eq, sound.toLists.unlink]
  dsimp only
  simp only [ne_eq, other, not_false_eq_true, true_and]
  congr 2
  split <;> rfl

theorem eraseIdx_split (as : List Entry) (x : Entry) (bs : List Entry) :
    (as ++ x :: bs).eraseIdx as.length = as ++ bs := by
  rw [List.eraseIdx_append_of_length_le (Nat.le_refl _), Nat.sub_self, List.eraseIdx_cons_zero]

theorem Sound.erase_other {focus : Focus} (sound : s.Sound (as ++ x :: bs))
    (other : s.cursor.handle ≠ x.handle) :
    (s.unlink x.handle (as.length + 1)).listing = s.listing.erase as.length focus := by
  have positive := sound.cursor.1
  have apart : s.cursor.line ≠ as.length + 1 := by
    intro same
    have stands := sound.cursor
    rw [same] at stands
    exact other (stands.handle_eq (Entry.at_split as x bs))
  unfold Listing.erase
  rw [sound.unlink_listing other, sound.listing_eq]
  dsimp only
  rw [eraseIdx_split, Listing.mk.injEq]
  refine ⟨rfl, ?_⟩
  split
  next below => rw [if_neg (by omega), if_pos (by omega)]
  next above => rw [if_pos (by omega)]

theorem Sound.unlink_cursor_listing (sound : s.Sound (as ++ x :: bs))
    (here : x.handle = s.cursor.handle) (number : s.cursor.line = as.length + 1)
    (stands : Entry.At (as ++ x :: bs) n h) (apart : n ≠ as.length + 1) :
    ((s.setCursor h n).unlink s.cursor.handle s.cursor.line).listing =
      ⟨as ++ bs, (if as.length + 1 < n then n - 1 else n) - 1⟩ := by
  have off : h ≠ x.handle := by
    rintro rfl
    exact apart (Entry.At.number_eq sound.distinct stands (Entry.at_split as x bs))
  rw [← here, number]
  exact (sound.setCursor stands).unlink_listing off

theorem Sound.exists_refuge (sound : s.Sound (as ++ x :: bs)) (here : x.handle = s.cursor.handle)
    (number : s.cursor.line = as.length + 1) (several : as ++ bs ≠ []) (focus : Focus) :
    ∃ h, s.refuge? s.cursor.handle focus = .ok (some (h, match focus with
      | .next => if bs.length = 0 then as.length else as.length + 2
      | .previous => if as.length = 0 then as.length + 2 else as.length)) := by
  have up : checkedSub (as.length + 1) 1 = .ok as.length :=
    checkedSub_eq_ok.mpr ⟨Nat.le_add_left _ _, rfl⟩
  unfold Script.refuge?
  rw [← here, sound.previous?_split, sound.next?_split, number, up]
  rcases List.eq_nil_or_concat as with rfl | ⟨as, y, rfl⟩
  · cases bs with
    | nil => contradiction
    | cons z bs => cases focus <;> exact ⟨z.handle, rfl⟩
  · cases bs with
    | nil => cases focus <;> exact ⟨y.handle, by simp⟩
    | cons z bs =>
      cases focus with
      | next => exact ⟨z.handle, by simp⟩
      | previous => exact ⟨y.handle, by simp⟩

theorem Sound.erase_cursor (sound : s.Sound es) (several : 1 < es.length) (focus : Focus) :
    ∃ h n, s.refuge? s.cursor.handle focus = .ok (some (h, n)) ∧
      ((s.setCursor h n).unlink s.cursor.handle s.cursor.line).listing =
        s.listing.erase (s.cursor.line - 1) focus := by
  rcases sound.cursor.split with ⟨as, x, bs, rfl, number, here⟩
  simp only [List.length_append, List.length_cons] at several
  have others : as ++ bs ≠ [] := by
    rw [← List.length_pos_iff, List.length_append]
    omega
  rcases sound.exists_refuge here number others focus with ⟨h, refuge⟩
  rcases sound.refuge? refuge with ⟨stands, apart⟩
  refine ⟨h, _, refuge, ?_⟩
  rw [number] at apart
  unfold Listing.erase
  rw [sound.unlink_cursor_listing here number stands apart, sound.listing_eq, number]
  dsimp only
  rw [Nat.add_sub_cancel, eraseIdx_split, Listing.mk.injEq]
  refine ⟨rfl, ?_⟩
  rw [if_neg (Nat.lt_irrefl _), if_neg (Nat.lt_irrefl _), List.length_append, List.length_cons]
  cases focus with
  | next =>
    dsimp only
    by_cases last : bs.length = 0
    · rw [if_pos last, if_neg (by omega)]
      omega
    · rw [if_neg last, if_pos (by omega)]
      omega
  | previous =>
    dsimp only
    by_cases first : as.length = 0
    · rw [if_pos first, if_pos (by omega)]
      omega
    · rw [if_neg first, if_neg (by omega)]

theorem Sound.delete_listing (sound : s.Sound es) (h : Handle) (focus : Focus) :
    ∃ s', s.delete h focus = .ok ((s.listing.delete h focus).1, s') ∧
      s'.listing = (s.listing.delete h focus).2 ∧
      ((s.listing.delete h focus).1 = false → s' = s) := by
  have entries : s.listing.entries = es := sound.entries
  unfold Script.delete Listing.delete
  rw [sound.lineCount, entries]
  cases located : Entry.indexIn? es h with
  | none =>
    have absent : s.contains h = false := by
      rw [Bool.eq_false_iff, ne_eq, sound.contains_iff, Entry.mem_handlesOf_iff]
      rintro ⟨y, mem, same⟩
      exact Entry.indexIn?_eq_none_iff.mp located y mem same
    rw [absent, Bool.not_false, Bool.or_true, if_pos rfl]
    exact ⟨s, rfl, rfl, fun _ => rfl⟩
  | some place =>
    rcases Entry.split_of_indexIn? located with ⟨as, x, bs, rfl, rfl, rfl⟩
    have present : s.contains x.handle = true :=
      sound.contains_iff.mpr (Entry.mem_handlesOf (by simp))
    rw [present, Bool.not_true, Bool.or_false]
    dsimp only
    by_cases several : 1 < (as ++ x :: bs).length
    · rw [if_neg (by simpa using several), if_pos several]
      by_cases here : x.handle = s.cursor.handle
      · rcases sound.erase_cursor several focus with ⟨h, n, refuge, erased⟩
        have stands := Entry.at_split as x bs
        rw [here] at stands
        have number := Entry.At.number_eq sound.distinct sound.cursor stands
        rw [number, Nat.add_sub_cancel] at erased
        rw [if_pos here, here, refuge, number]
        exact ⟨_, rfl, erased, fun deleted => by contradiction⟩
      · rw [if_neg here, sound.numberOf, sound.lineNumber?_split]
        exact ⟨_, rfl, sound.erase_other (Ne.symm here), fun deleted => by contradiction⟩
    · rw [if_pos (by simpa using several), if_neg several]
      exact ⟨s, rfl, rfl, fun _ => rfl⟩

/-! ### The block -/

def range (s : Script) : Nat × Nat := (s.block.startLine - 1, s.block.endLine - 1)

theorem range_of_unmarked (unmarked : s.mark = none) :
    s.range = (s.listing.cursor, s.listing.cursor) := by
  rw [range, block, unmarked]
  rfl

theorem Sound.range_of_marked {m : Mark} (sound : s.Sound es) (marked : s.mark = some m) :
    s.listing.entries[s.range.1]?.map (·.handle) = some m.start ∧
      s.listing.entries[s.range.2]?.map (·.handle) = some m.stop ∧ s.range.1 ≤ s.range.2 := by
  have sits := sound.mark m marked
  have range : s.range = (m.startLine - 1, m.endLine - 1) := by
    rw [Script.range, block, marked]
    rfl
  rw [range, sound.listing_eq, ← List.getElem?_map, ← List.getElem?_map]
  exact ⟨sits.start.2, sits.stop.2, Nat.sub_le_sub_right sits.ordered 1⟩

theorem takeThrough_split {hs ks : List Handle} (others : h ∉ hs) :
    takeThrough h (hs ++ h :: ks) = hs ++ [h] := by
  induction hs with
  | nil => simp [takeThrough]
  | cons k hs ih =>
    rw [List.mem_cons, not_or] at others
    simp [takeThrough, Ne.symm others.1, ih others.2]

theorem slice_split {cursor : Nat} (nonempty : run ≠ []) :
    (⟨as ++ (run ++ bs), cursor⟩ : Listing).slice as.length (as.length + run.length - 1) = run := by
  have positive := List.length_pos_iff.mpr nonempty
  have stop : as.length + run.length - 1 + 1 = (as ++ run).length := by
    rw [List.length_append]
    omega
  rw [Listing.slice, stop, ← List.append_assoc, List.take_left, List.drop_left]

theorem Sound.blockHandles_eq (sound : s.Sound es) :
    s.blockHandles s.block = Entry.handlesOf (s.listing.slice s.range.1 s.range.2) := by
  rcases sound.block_sits.split with
    ⟨as, run, bs, first, last, rfl, starts, start, startLine, stops, stop, endLine⟩
  have nonempty : run ≠ [] := List.ne_nil_of_mem (List.mem_of_head? starts)
  have positive := List.length_pos_iff.mpr nonempty
  have listed : s.links.walk s.block.lineCount (some s.block.start) =
      (Entry.handlesOf (run ++ bs)).take s.block.lineCount := by
    have first : some s.block.start = (run ++ bs).head?.map (·.handle) := by
      rw [List.head?_append, starts, Option.some_or, Option.map_some, start]
    rw [first, sound.links]
    exact Links.walk_row sound.distinct (fun _ => sound.real) rfl _
  have taken : takeThrough s.block.stop (Entry.handlesOf run) = Entry.handlesOf run := by
    rcases List.getLast?_eq_some_iff.mp stops with ⟨init, rfl⟩
    have distinct := sound.distinct
    rw [List.append_assoc, List.singleton_append, ← List.append_assoc] at distinct
    have others : last.handle ∉ Entry.handlesOf init := by
      rw [Entry.mem_handlesOf_iff]
      rintro ⟨y, mem, same⟩
      exact Entry.before_ne distinct y (List.mem_append_right as mem) same
    simp only [Entry.handlesOf_append, Entry.handlesOf_cons, Entry.handlesOf_nil, ← stop]
    exact takeThrough_split others
  have count : s.block.lineCount = (Entry.handlesOf run).length := by
    rw [Mark.lineCount, startLine, endLine, Entry.length_handlesOf]
    omega
  have whole : (Entry.handlesOf (run ++ bs)).take s.block.lineCount = Entry.handlesOf run := by
    rw [count, Entry.handlesOf_append, List.take_left]
  unfold blockHandles range
  rw [listed, whole, taken, startLine, endLine, Nat.add_sub_cancel, sound.listing_eq,
    slice_split nonempty]

theorem Lists.filterMap_get? (lists : s.Lists es) (among : ∀ x ∈ run, x ∈ es) :
    (Entry.handlesOf run).filterMap s.get? = run.map (·.line) := by
  induction run with
  | nil => rfl
  | cons x run ih =>
    have found : s.get? x.handle = some x.line := by
      rcases List.append_of_mem (among x List.mem_cons_self) with ⟨as, bs, rfl⟩
      exact lists.get?_split
    rw [Entry.handlesOf_cons, List.filterMap_cons_some found,
      ih fun y mem => among y (List.mem_cons_of_mem x mem), List.map_cons]

theorem Sound.copyBlock_eq (sound : s.Sound es) :
    s.copyBlock = (s.listing.slice s.range.1 s.range.2).map (·.line.text) := by
  have among : ∀ x ∈ s.listing.slice s.range.1 s.range.2, x ∈ es := by
    intro x mem
    rw [sound.listing_eq] at mem
    exact List.mem_of_mem_take (List.mem_of_mem_drop mem)
  rw [copyBlock, blockLines, sound.blockHandles_eq, sound.toLists.filterMap_get? among,
    List.map_map]
  rfl

theorem cut_split {cursor : Nat} (nonempty : run ≠ []) :
    (⟨as ++ (run ++ bs), cursor⟩ : Listing).cut as.length (as.length + run.length - 1) =
      ⟨as ++ bs, if cursor < as.length then cursor
        else if as.length + run.length ≤ cursor then cursor - run.length
        else min as.length (as.length + bs.length - 1)⟩ := by
  have positive := List.length_pos_iff.mpr nonempty
  have stop : as.length + run.length - 1 + 1 = (as ++ run).length := by
    rw [List.length_append]
    omega
  rw [Listing.cut, stop, List.take_left, ← List.append_assoc, List.drop_left, Listing.mk.injEq]
  refine ⟨rfl, ?_⟩
  simp only [List.length_append]
  split
  · rfl
  · split <;> split <;> omega

/-- What is left when the block is taken out, with a blank line if nothing is. -/
theorem Sound.clearBlock_listing (sound : s.Sound es) (room : 5 ≤ s.capacity) :
    ∃ s', s.clearBlock = .ok (s.range.2 + 1 - s.range.1, s') ∧ s'.mark = none ∧
      if (s.listing.cut s.range.1 s.range.2).entries = [] then
        ∃ h, s'.listing = ⟨[⟨h, .blank⟩], 0⟩
      else s'.listing = s.listing.cut s.range.1 s.range.2 := by
  rcases sound.clearBlock_eq with
    ⟨as, run, bs, t, left, rfl, startLine, endLine, lists, unmarked, capacity, cursor, cleared, rest⟩
  have ordered := sound.block_sits.ordered
  have nonempty : run ≠ [] := by
    rw [← List.length_pos_iff]
    omega
  have range : s.range = (as.length, as.length + run.length - 1) := by
    rw [Script.range, startLine, endLine, Nat.add_sub_cancel]
  have count : as.length + run.length - 1 + 1 - as.length = run.length := by omega
  rw [range, sound.listing_eq, cut_split nonempty]
  dsimp only
  rw [count]
  refine ⟨left, cleared, ?_⟩
  split at rest
  next none =>
    subst rest
    rw [none] at lists
    rcases lists.seed unmarked (capacity ▸ room) with ⟨h, seeded, -, gone⟩
    refine ⟨gone, ?_⟩
    have first := seeded.cursor
    have last := first.le_length
    rw [List.length_singleton] at last
    rw [if_pos none]
    refine ⟨h, ?_⟩
    rw [seeded.listing_eq, Listing.mk.injEq]
    exact ⟨rfl, by omega⟩
  next some =>
    have positive := sound.cursor.1
    have stands := sound.cursor
    rw [← cursor] at stands
    rcases lists.relocate stands startLine endLine some with ⟨h, n, moved, -, line⟩
    cases rest.symm.trans moved
    refine ⟨unmarked, ?_⟩
    rw [if_neg some, listing, show (t.setCursor h n).entries = as ++ bs from lists.entries,
      Listing.mk.injEq]
    refine ⟨rfl, ?_⟩
    change n - 1 = _
    rw [line, cursor, Mark.contains, startLine, endLine]
    simp only [Bool.and_eq_true, decide_eq_true_eq, ← List.length_eq_zero_iff]
    split
    next inside =>
      have behindStart : ¬ s.cursor.line - 1 < as.length := by omega
      have beforeStop : ¬ as.length + run.length ≤ s.cursor.line - 1 := by omega
      rw [if_neg behindStart, if_neg beforeStop]
      split <;> omega
    next outside =>
      split
      next below =>
        rw [if_neg (by omega), if_pos (by omega)]
        omega
      next above => rw [if_pos (by omega)]

theorem cutBlock_of_clearBlock {removed : Nat} (cleared : s.clearBlock = .ok (removed, s')) :
    s.cutBlock = .ok (s.copyBlock, s') := by
  rw [cutBlock, cleared]
  rfl

end Script

namespace Editor

variable {c : Config} {e : Editor} {es as bs : List Entry} {anchor h : Handle} {n : Nat}
  {relation : Relation} {text : String}

theorem insertNumbered_plain {edited : Edited (Handle × Outcome)} {outcome : Outcome}
    (sound : e.script.Sound (as ++ bs)) (gap : Gap as bs anchor n relation)
    (plain : callsMacro text = false)
    (done : e.insertNumbered anchor n relation text = .ok edited)
    (accepted : edited.result = .ok (h, outcome)) :
    ∃ line, e.storedLine? .empty text = some line ∧
      e.script.Grown as [⟨h, line⟩] bs edited.editor.script := by
  rcases insertWith_stores (writeWith_stores _) sound rfl gap done accepted with
    ⟨h', line, new, grown, texts, expanded, stored⟩
  rw [leaves_plain plain] at expanded
  rcases Prod.mk.inj (Option.some.inj expanded) with ⟨rfl, -⟩
  rcases storedLines?_cons_iff.mp stored with ⟨line', rest, first, none, same⟩
  rcases Prod.mk.inj (Option.some.inj none) with ⟨rfl, -⟩
  rcases List.cons.inj same with ⟨rfl, alone⟩
  cases List.map_eq_nil_iff.mp alone
  -- Both ways of looking at the insertion speak of the same lines.
  have after := insertWith_splices (writeWith_splices _) sound gap done
  rw [accepted] at after
  rcases after with ⟨line', new', grown'⟩
  have same := grown'.sound.entries.symm.trans grown.sound.entries
  rw [List.append_cancel_left_eq, List.append_cancel_right_eq] at same
  cases same
  exact ⟨line, first, grown⟩

theorem insert_listing {edited : Edited Handle} (sound : e.script.Sound es)
    (plain : callsMacro text = false) (done : e.insert anchor relation text = .ok edited)
    (accepted : edited.result = .ok h) :
    ∃ place line, e.script.listing.place? anchor relation = some place ∧
      e.storedLine? .empty text = some line ∧ h ∉ e.script.handles ∧
      edited.editor.script.listing = e.script.listing.insert place ⟨h, line⟩ ∧
      edited.editor.script.cursor.handle = e.script.cursor.handle := by
  rcases insert_cases done with ⟨-, rfl⟩ | ⟨n, inserted, numbered, insert, rfl⟩
  · contradiction
  · rcases map_eq_ok.mp accepted with ⟨⟨h', outcome⟩, insertedOk, rfl⟩
    have after := insertNumbered_cases sound numbered insert
    rw [insertedOk] at after
    rcases after with ⟨as, bs, _, _, rfl, gap, -⟩
    rcases insertNumbered_plain sound gap plain insert insertedOk with ⟨line, stored, grown⟩
    have fresh := grown.fresh
    rw [← sound.entries] at fresh
    refine ⟨as.length, line, sound.place?_gap gap, stored, fresh, grown.listing_eq sound, ?_⟩
    exact congrArg (·.handle) grown.shifted.cursor

theorem insertBlank_listing {s : Script} (sound : e.script.Sound es)
    (done : e.script.insertBlank anchor relation = .ok (.ok h, s)) :
    ∃ place, e.script.listing.place? anchor relation = some place ∧ h ∉ e.script.handles ∧
      s.listing = e.script.listing.insert place ⟨h, .blank⟩ ∧
      s.cursor.handle = e.script.cursor.handle := by
  rcases sound.insertBlank_cases anchor relation with
    ⟨h', s', n, as, bs, rfl, inserted, numbered, gap, grown⟩ | ⟨err, s', refused, -⟩
  · cases done.symm.trans inserted
    have fresh := grown.fresh
    rw [← sound.entries] at fresh
    exact ⟨as.length, sound.place?_gap gap, fresh, grown.listing_eq sound,
      congrArg (·.handle) grown.shifted.cursor⟩
  · cases done.symm.trans refused

theorem insertAfter_listing {outcome : CommandOutcome} {e' : Editor} (sound : e.script.Sound es)
    (plain : callsMacro text = false) (done : e.apply (.insertAfter text) = .ok (outcome, e')) :
    (∃ h line, outcome = .changed ∧ e.storedLine? .empty text = some line ∧
        h ∉ e.script.handles ∧
        e'.script.listing =
          ⟨(e.script.listing.insert (e.script.listing.cursor + 1) ⟨h, line⟩).entries,
            e.script.listing.cursor + 1⟩) ∨
      ∃ err : EditError, outcome = .status err.message ∧ e'.script.listing = e.script.listing := by
  rcases bind_eq_ok.mp done with ⟨edited, inserted, rest⟩
  have atomic := (atomic_changes (e := e.beginCommand) sound).insert inserted
  dsimp only at rest
  split at rest
  next h accepted =>
    cases rest
    rcases atomic.sound with ⟨es', sound'⟩
    have positive := sound'.cursor.1
    rcases insert_listing (e := e.beginCommand) sound plain inserted accepted with
      ⟨place, line, found, stored, fresh, grown, -⟩
    have below : e.script.listing.cursor + 1 = place :=
      Option.some.inj (sound.place?_cursor.symm.trans found)
    refine .inl ⟨h, line, rfl, stored, fresh, ?_⟩
    subst below
    have stays : edited.editor.script.listing.cursor = e.script.listing.cursor := by
      rw [grown]
      exact if_neg (Nat.not_le.mpr (Nat.lt_succ_self _))
    have moved : (edited.editor.script.setCursor h (edited.editor.script.cursor.line + 1)).listing =
        ⟨edited.editor.script.listing.entries, edited.editor.script.listing.cursor + 1⟩ := by
      rw [Script.listing, Script.listing, Nat.sub_add_cancel positive]
      rfl
    rw [stays, grown] at moved
    exact moved
  next err refused =>
    cases rest
    refine .inr ⟨err, rfl, ?_⟩
    rw [(atomic.refused err refused).same]
    rfl

/-- Whether an editor acts as a list of lines with a cursor. -/
structure ActsAs (e : Editor) (l : Listing) : Prop where
  /-- The cursor stands on a line. -/
  cursor : l.entries[l.cursor]?.map (·.handle) = some e.script.cursor.handle
  /-- A text that calls no macro is put in as one line, next to its anchor. -/
  insert : ∀ anchor relation text edited h, callsMacro text = false →
    e.insert anchor relation text = .ok edited → edited.result = .ok h →
    ∃ place line, l.place? anchor relation = some place ∧
      e.storedLine? .empty text = some line ∧ h ∉ l.entries.map (·.handle) ∧
      edited.editor.script.listing = l.insert place ⟨h, line⟩ ∧
      edited.editor.script.cursor.handle = e.script.cursor.handle
  /-- The command moves the cursor to the new line. -/
  insertAfter : ∀ text outcome e', callsMacro text = false →
    e.apply (.insertAfter text) = .ok (outcome, e') →
    (∃ h line, outcome = .changed ∧ e.storedLine? .empty text = some line ∧
        h ∉ l.entries.map (·.handle) ∧
        e'.script.listing = ⟨(l.insert (l.cursor + 1) ⟨h, line⟩).entries, l.cursor + 1⟩) ∨
      ∃ err : EditError, outcome = .status err.message ∧ e'.script.listing = l
  insertBlank : ∀ anchor relation h s, e.script.insertBlank anchor relation = .ok (.ok h, s) →
    ∃ place, l.place? anchor relation = some place ∧ h ∉ l.entries.map (·.handle) ∧
      s.listing = l.insert place ⟨h, .blank⟩ ∧ s.cursor.handle = e.script.cursor.handle
  delete : ∀ h focus, ∃ s, e.script.delete h focus = .ok ((l.delete h focus).1, s) ∧
    s.listing = (l.delete h focus).2 ∧ ((l.delete h focus).1 = false → s = e.script)
  deleted : ∀ h focus, (l.delete h focus).1 = true ↔
    h ∈ l.entries.map (·.handle) ∧ 1 < l.entries.length
  /-- The block is the cursor line where there is no mark. -/
  unmarked : e.script.mark = none → e.script.range = (l.cursor, l.cursor)
  marked : ∀ m, e.script.mark = some m →
    l.entries[e.script.range.1]?.map (·.handle) = some m.start ∧
      l.entries[e.script.range.2]?.map (·.handle) = some m.stop ∧
      e.script.range.1 ≤ e.script.range.2
  copyBlock : e.script.copyBlock =
    (l.slice e.script.range.1 e.script.range.2).map (·.line.text)
  /-- Clearing the block and cutting it leave the same. -/
  clearBlock : ∃ s,
    e.script.clearBlock = .ok (e.script.range.2 + 1 - e.script.range.1, s) ∧
    e.script.cutBlock = .ok (e.script.copyBlock, s) ∧ s.mark = none ∧
    if (l.cut e.script.range.1 e.script.range.2).entries = [] then
      ∃ h, s.listing = ⟨[⟨h, .blank⟩], 0⟩
    else s.listing = l.cut e.script.range.1 e.script.range.2
  /-- A move changes the cursor only, or puts a blank line below the last one. -/
  moveCursor : ∀ count, ∃ s, e.script.moveCursor count = .ok s ∧
    (e.script.GrowsBy count ∧ (∃ h, h ∉ l.entries.map (·.handle) ∧ s.listing = l.grow h) ∧
        s.mark = e.script.mark ∨
      ¬ e.script.GrowsBy count ∧ (∃ h n, s = e.script.setCursor h n) ∧
        s.listing = l.move count)
  gotoLine : ∀ number, ∃ h n, e.script.gotoLine number = .ok (e.script.setCursor h n) ∧
    (e.script.setCursor h n).listing = l.goto number

/-- However an editor came about, it acts as the list of its lines. -/
theorem Reachable.acts_as_listing (reached : Reachable c e) (room : 5 ≤ c.maxSize) :
    e.ActsAs e.script.listing := by
  have inOrder := reached.inOrder room
  rcases inOrder.script.sound with ⟨es, sound⟩
  exact
    { cursor := sound.getElem?_cursor
      insert := fun _ _ _ _ _ plain done accepted => insert_listing sound plain done accepted
      insertAfter := fun _ _ _ plain done => insertAfter_listing sound plain done
      insertBlank := fun _ _ _ _ done => insertBlank_listing sound done
      delete := sound.delete_listing
      deleted := fun _ _ => Listing.delete_fst_iff
      unmarked := Script.range_of_unmarked
      marked := fun _ marked => sound.range_of_marked marked
      copyBlock := sound.copyBlock_eq
      clearBlock := by
        rcases sound.clearBlock_listing inOrder.script.room with ⟨s, cleared, left⟩
        exact ⟨s, cleared, Script.cutBlock_of_clearBlock cleared, left⟩
      moveCursor := sound.moveCursor_listing
      gotoLine := sound.gotoLine_listing }

theorem acts_as_two_blanks : ∃ e, Reachable {} e ∧
    e.ActsAs ⟨[⟨⟨1, 0⟩, .blank⟩, ⟨⟨2, 0⟩, .blank⟩], 1⟩ := by
  have moved : (((Editor.new {}).load [0xFF, 1, 47, 1, 1, 47, 1, 0]).perform (.moveCursor 1)).map
      (·.script.listing) = .ok ⟨[⟨⟨1, 0⟩, .blank⟩, ⟨⟨2, 0⟩, .blank⟩], 1⟩ := by
    decide +kernel
  rcases map_eq_ok.mp moved with ⟨e, done, listing⟩
  have reached : Reachable {} e := .perform (.moveCursor 1) (.perform (.load _) .new rfl) done
  have acts := Reachable.acts_as_listing reached (by decide)
  rw [listing] at acts
  exact ⟨e, reached, acts⟩

end Editor

end RobotScript
