import Mathlib.Data.Finset.Sort
import Mathlib.Data.Prod.Lex
import Mathlib.Order.Interval.Finset.Nat
import RobotScript.Proofs.InOrder
import RobotScript.Proofs.Searching
/-!
A search finds the next occurrence. Places are read line by line, and each line from left to right.
What is found is the first place behind the cursor at which the pattern occurs; a search that wraps
and finds none there goes on to the first one above the cursor line.
-/
namespace RobotScript

open Chars (FreeOf First takeBytes dropBytes width)

abbrev Place := Nat ×ₗ Nat

def Cursor.place (c : Cursor) : Place := toLex (c.line, c.column)

def Match.place (m : Match) : Place := toLex (m.number, m.column)

namespace SearchOptions

def Carries (o : SearchOptions) (pattern text : String) (column : Nat) : Prop :=
  ∃ as m bs, text.toList = as ++ (m ++ bs) ∧ m.map o.letter = pattern.toList.map o.letter ∧
    width as = column

def places (o : SearchOptions) (pattern : String) (number : Nat) (lines : List Line) : Set Place :=
  {p | ∃ i line column, lines[i]? = some line ∧ o.Carries pattern line.text column ∧
    p = toLex (number + i, column)}

def placesIn (o : SearchOptions) (pattern : String) (number : Nat) (line : Line) (start : Nat) :
    Set Place :=
  {p | ∃ column, start ≤ column ∧ o.Carries pattern line.text column ∧ p = toLex (number, column)}

variable {o : SearchOptions} {pattern text : String} {number start column : Nat}

theorem Carries.split (carries : o.Carries pattern text column) (behind : start ≤ column) :
    ∃ xs m bs, dropBytes start text.toList = xs ++ (m ++ bs) ∧
      m.map o.letter = pattern.toList.map o.letter ∧
      column = width (takeBytes start text.toList) + width xs := by
  rcases carries with ⟨as, m, bs, whole, same, rfl⟩
  rw [← Chars.takeBytes_append_dropBytes start text.toList] at whole
  rcases List.append_eq_append_iff.mp whole with ⟨xs, rfl, rest⟩ | ⟨xs, taken, rest⟩
  · exact ⟨xs, m, bs, rest, same, Chars.width_append _ _⟩
  · cases xs with
    | nil =>
      rw [List.append_nil] at taken
      exact ⟨[], m, bs, rest.symm, same, by rw [taken]; rfl⟩
    | cons c xs =>
      have before := Chars.width_lt_of_takeBytes taken
      omega

theorem findIn_least (o : SearchOptions) (written : pattern ≠ "") (number start : Nat)
    (line : Line) :
    match o.findIn pattern line.text start with
    | some column => IsLeast (o.placesIn pattern number line start) (toLex (number, column))
    | none => o.placesIn pattern number line start = ∅ := by
  have filled : pattern.toList ≠ [] := by simpa using written
  rcases o.findIn_cases pattern line.text start with ⟨nowhere, free⟩ | ⟨xs, m, ys, first, found⟩
  · rw [nowhere, Set.eq_empty_iff_forall_notMem]
    rintro p ⟨column, behind, carries, rfl⟩
    rcases carries.split behind with ⟨xs, m, bs, rest, same, -⟩
    exact free.not_occurs filled rest same
  · rw [found]
    have whole := Chars.takeBytes_append_dropBytes start line.text.toList
    rw [first.whole, ← List.append_assoc] at whole
    refine ⟨⟨_, first.le_column filled, ?_, rfl⟩, ?_⟩
    · exact ⟨_, m, ys, whole.symm, first.same, Chars.width_append _ _⟩
    · rintro p ⟨column, behind, carries, rfl⟩
      rcases carries.split behind with ⟨as, m', bs, rest, same, rfl⟩
      have occurs : width as ∈ Chars.columns o.letter pattern.toList
          (dropBytes start line.text.toList) := by
        rw [rest]
        exact Chars.mem_columns_match filled same as bs
      rw [Prod.Lex.toLex_le_toLex]
      exact .inr ⟨rfl, Nat.add_le_add_left (first.le_of_mem occurs) _⟩

/-! ### Lines one below the other -/

theorem places_cons (line : Line) (lines : List Line) :
    o.places pattern number (line :: lines) =
      o.placesIn pattern number line 0 ∪ o.places pattern (number + 1) lines := by
  ext p
  constructor
  · rintro ⟨i, found, column, there, carries, rfl⟩
    cases i with
    | zero =>
      cases there
      exact .inl ⟨column, Nat.zero_le _, carries, rfl⟩
    | succ i => exact .inr ⟨i, found, column, there, carries, by rw [Nat.add_assoc, Nat.add_comm 1]⟩
  · rintro (⟨column, -, carries, rfl⟩ | ⟨i, found, column, there, carries, rfl⟩)
    · exact ⟨0, line, column, rfl, carries, rfl⟩
    · exact ⟨i + 1, found, column, there, carries, by rw [Nat.add_assoc, Nat.add_comm 1]⟩

theorem places_nil : o.places pattern number [] = ∅ := by
  rw [Set.eq_empty_iff_forall_notMem]
  rintro p ⟨i, line, column, there, -⟩
  simp at there

theorem places_append (above below : List Line) :
    o.places pattern number (above ++ below) =
      o.places pattern number above ∪ o.places pattern (number + above.length) below := by
  induction above generalizing number with
  | nil => rw [places_nil, Set.empty_union]; rfl
  | cons line above ih =>
    rw [List.cons_append, places_cons, places_cons, ih, Set.union_assoc, List.length_cons,
      Nat.add_assoc, Nat.add_comm 1]

theorem bounds_of_mem_places {p : Place} {lines : List Line}
    (occurs : p ∈ o.places pattern number lines) :
    number ≤ (ofLex p).1 ∧ (ofLex p).1 < number + lines.length := by
  rcases occurs with ⟨i, line, column, there, -, rfl⟩
  have bound := (List.getElem?_eq_some_iff.mp there).1
  dsimp only [ofLex_toLex]
  omega

theorem isLeast_union {a : Set Place} {p : Place} (least : IsLeast a p) {b : Set Place}
    (behind : ∀ q ∈ b, p ≤ q) : IsLeast (a ∪ b) p :=
  ⟨.inl least.1, fun q mem => mem.elim (fun mem => least.2 mem) (behind q)⟩

theorem findAmong_least (o : SearchOptions) (written : pattern ≠ "") (number : Nat)
    (es : List Entry) :
    match o.findAmong pattern number es with
    | some m => IsLeast (o.places pattern number (es.map (·.line))) m.place
    | none => o.places pattern number (es.map (·.line)) = ∅ := by
  induction es generalizing number with
  | nil => exact places_nil
  | cons x es ih =>
    have here := findIn_least o written number 0 x.line
    unfold findAmong
    rw [List.map_cons, places_cons]
    cases found : o.findIn pattern x.line.text 0 with
    | some column =>
      rw [found] at here
      apply isLeast_union here
      intro p occurs
      exact Prod.Lex.le_iff.mpr (.inl (bounds_of_mem_places occurs).1)
    | none =>
      rw [found] at here
      dsimp only at here ⊢
      rw [here, Set.empty_union]
      exact ih (number + 1)

end SearchOptions

namespace Script

variable {s s' : Script} {o : SearchOptions} {pattern : String} {as bs : List Entry} {x : Entry}
  {p : Place}

/-- The places at which a pattern occurs. -/
def occurrences (s : Script) (o : SearchOptions) (pattern : String) : Set Place :=
  o.places pattern 1 s.lines

/-- Those behind the cursor. -/
def ahead (s : Script) (o : SearchOptions) (pattern : String) : Set Place :=
  {p ∈ s.occurrences o pattern | s.cursor.place < p}

def overhead (s : Script) (o : SearchOptions) (pattern : String) : Set Place :=
  {p ∈ s.occurrences o pattern | (ofLex p).1 < s.cursor.line}

inductive Next (s : Script) (o : SearchOptions) (pattern : String) : Option Place → Prop
  | ahead {p : Place} : IsLeast (s.ahead o pattern) p → Next s o pattern (some p)
  | wrapped {p : Place} : s.ahead o pattern = ∅ → o.wrap = true →
    IsLeast (s.overhead o pattern) p → Next s o pattern (some p)
  | nowhere : s.ahead o pattern = ∅ → (o.wrap = true → s.overhead o pattern = ∅) →
    Next s o pattern none

theorem Sound.occurrences_eq (sound : s.Sound (as ++ x :: bs)) :
    s.occurrences o pattern = o.places pattern 1 (as.map (·.line)) ∪
      (o.placesIn pattern (as.length + 1) x.line 0 ∪
        o.places pattern (as.length + 1 + 1) (bs.map (·.line))) := by
  rw [occurrences, lines, sound.entries, List.map_append, List.map_cons,
    SearchOptions.places_append, SearchOptions.places_cons, List.length_map, Nat.add_comm 1]

theorem Sound.ahead_eq (sound : s.Sound (as ++ x :: bs)) (o : SearchOptions) (pattern : String)
    (here : s.cursor.line = as.length + 1) :
    s.ahead o pattern = o.placesIn pattern (as.length + 1) x.line (s.cursor.column + 1) ∪
      o.places pattern (as.length + 1 + 1) (bs.map (·.line)) := by
  ext p
  rw [ahead, Set.mem_sep_iff, sound.occurrences_eq, Cursor.place, here]
  constructor
  · rintro ⟨above | ⟨column, -, carries, rfl⟩ | below, behind⟩
    · have bound := (SearchOptions.bounds_of_mem_places above).2
      rw [List.length_map] at bound
      rcases Prod.Lex.lt_iff.mp behind with later | ⟨same, -⟩
      · exact absurd later (by dsimp only [ofLex_toLex]; omega)
      · exact absurd same (by dsimp only [ofLex_toLex]; omega)
    · rcases Prod.Lex.toLex_lt_toLex.mp behind with later | ⟨-, right⟩
      · exact absurd later (Nat.lt_irrefl _)
      · exact .inl ⟨column, right, carries, rfl⟩
    · exact .inr below
  · rintro (⟨column, right, carries, rfl⟩ | below)
    · refine ⟨.inr (.inl ⟨column, Nat.zero_le _, carries, rfl⟩), ?_⟩
      exact Prod.Lex.toLex_lt_toLex.mpr (.inr ⟨rfl, right⟩)
    · refine ⟨.inr (.inr below), ?_⟩
      exact Prod.Lex.lt_iff.mpr (.inl (SearchOptions.bounds_of_mem_places below).1)

theorem Sound.overhead_eq (sound : s.Sound (as ++ x :: bs)) (o : SearchOptions) (pattern : String)
    (here : s.cursor.line = as.length + 1) :
    s.overhead o pattern = o.places pattern 1 (as.map (·.line)) := by
  ext p
  rw [overhead, Set.mem_sep_iff, sound.occurrences_eq, here]
  constructor
  · rintro ⟨above | ⟨column, -, -, rfl⟩ | below, before⟩
    · exact above
    · exact absurd before (Nat.lt_irrefl _)
    · have bound := (SearchOptions.bounds_of_mem_places below).1
      omega
  · intro above
    have bound := (SearchOptions.bounds_of_mem_places above).2
    rw [List.length_map] at bound
    exact ⟨.inl above, by omega⟩

end Script

namespace Editor

variable {c : Config} {e e' : Editor} {o : SearchOptions} {pattern : String} {es : List Entry}

theorem find_next (sound : e.script.Sound es) (written : pattern ≠ "") :
    e.script.Next o pattern ((e.find pattern o).map Match.place) := by
  rcases sound.cursor.split with ⟨as, x, bs, rfl, line, here⟩
  have onLine := o.findIn_least written (as.length + 1) (e.script.cursor.column + 1) x.line
  have below := o.findAmong_least written (as.length + 1 + 1) bs
  have above := o.findAmong_least written 1 as
  have ahead := sound.ahead_eq o pattern line
  have first : (as ++ x :: bs).take (as.length + 1 - 1) = as := by
    rw [Nat.add_sub_cancel, List.take_left]
  rw [find, findFrom_of_sound sound here.symm written, line, first]
  cases found : o.findIn pattern x.line.text (e.script.cursor.column + 1) with
  | some column =>
    rw [found] at onLine
    rw [Option.map_some, Option.some_or, Option.map_some]
    apply Script.Next.ahead
    rw [ahead]
    apply SearchOptions.isLeast_union onLine
    intro p occurs
    exact Prod.Lex.le_iff.mpr (.inl (SearchOptions.bounds_of_mem_places occurs).1)
  | none =>
    rw [found] at onLine
    dsimp only at onLine
    rw [onLine, Set.empty_union] at ahead
    rw [Option.map_none, Option.none_or]
    cases lower : o.findAmong pattern (as.length + 1 + 1) bs with
    | some m =>
      rw [lower] at below
      rw [Option.some_or, Option.map_some]
      exact .ahead (ahead ▸ below)
    | none =>
      rw [lower] at below
      dsimp only at below
      rw [Option.none_or]
      have overhead := sound.overhead_eq o pattern line
      by_cases wraps : o.wrap = true
      · rw [if_pos wraps]
        cases upper : o.findAmong pattern 1 as with
        | some m =>
          rw [upper] at above
          exact .wrapped (ahead.trans below) wraps (overhead ▸ above)
        | none =>
          rw [upper] at above
          exact .nowhere (ahead.trans below) fun _ => overhead.trans above
      · rw [if_neg wraps]
        exact .nowhere (ahead.trans below) fun wrapped => absurd wrapped wraps

theorem findAmong_split {number : Nat} {m : Match}
    (found : o.findAmong pattern number es = some m) :
    ∃ as y bs, es = as ++ y :: bs ∧ m.handle = y.handle ∧ m.number = number + as.length ∧
      o.Carries pattern y.line.text m.column := by
  rcases @SearchOptions.findAmong_cases o pattern number es with
    ⟨nowhere, -⟩ | ⟨as, y, bs, xs, occurrence, ys, split, -, first, same⟩
  · rw [nowhere] at found
    contradiction
  · rw [same] at found
    cases found
    exact ⟨as, y, bs, split, rfl, rfl, xs, occurrence, ys, first.whole, first.same, rfl⟩

theorem findFrom_at {start last : Nat} {m : Match} (sound : e.script.Sound es)
    (found : e.findFrom pattern o start last = some m) : Entry.At es m.number m.handle := by
  have written : pattern ≠ "" := by
    rintro rfl
    cases found
  rcases sound.cursor.split with ⟨as, x, bs, rfl, line, here⟩
  rw [findFrom_of_sound sound here.symm written] at found
  rcases Option.or_eq_some_iff.mp found with onLine | ⟨-, found⟩
  · rcases Option.map_eq_some_iff.mp onLine with ⟨column, -, rfl⟩
    exact Entry.at_split as x bs
  rcases Option.or_eq_some_iff.mp found with below | ⟨-, above⟩
  · rcases findAmong_split below with ⟨cs, y, ds, rfl, handle, number, -⟩
    have stands := Entry.at_split (as ++ x :: cs) y ds
    rw [handle, number]
    simpa [Nat.add_comm, Nat.add_left_comm] using stands
  · rw [Option.ite_none_right_eq_some] at above
    rcases findAmong_split above.2 with ⟨cs, y, ds, split, handle, number, -⟩
    have whole : as ++ x :: bs = cs ++ y :: (ds ++ (as ++ x :: bs).drop last) := by
      rw [← List.cons_append, ← List.append_assoc, ← split, List.take_append_drop]
    rw [whole, handle, number, Nat.add_comm]
    exact Entry.at_split cs y _

theorem find_at {m : Match} (sound : e.script.Sound es) (found : e.find pattern o = some m) :
    Entry.At es m.number m.handle :=
  findFrom_at sound found

/-! ### Searching again and again -/

end Editor

end RobotScript
