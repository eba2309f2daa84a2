import RobotScript.Proofs.Motion
import RobotScript.Proofs.Substitution
/-!
What a search comes upon in a sound script: the first occurrence on the cursor line behind a column,
in the lines below it, or in those from the top on; and what writing over an occurrence leads to.
-/
namespace RobotScript

open Chars (FreeOf First takeBytes dropBytes width)

namespace Entry

def chars (x : Entry) : List Char :=
  x.line.text.toList

end Entry

namespace SearchOptions

def letter (o : SearchOptions) (c : Char) : Char :=
  if o.caseSensitive then c else c.toLower

def columns (o : SearchOptions) (pattern text : String) : List Nat :=
  Chars.columns o.letter pattern.toList text.toList

def substitute (o : SearchOptions) (pattern replacement text : String) : String :=
  String.ofList (Chars.substitute o.letter pattern.toList replacement.toList text.toList)

/-- Whether the occurrences up to a column of a text can be told from those behind it. Once those
have been replaced, what starts at the column or before it ends there or before, or else it has been
there all along and what it has behind the column is no wider than the replacement. -/
def ClearAt (o : SearchOptions) (pattern replacement text : String) (column : Nat) : Prop :=
  ∀ start ∈ Chars.columns o.letter pattern.toList (takeBytes (column + 1) text.toList ++
      Chars.substitute o.letter pattern.toList replacement.toList
        (dropBytes (column + 1) text.toList)),
    start ≤ column → start + Text.size pattern ≤ column ∨
      start ∈ o.columns pattern text ∧
        start + Text.size pattern ≤ column + Text.size replacement

instance (o : SearchOptions) (pattern replacement text : String) (column : Nat) :
    Decidable (ClearAt o pattern replacement text column) :=
  inferInstanceAs (Decidable (∀ start ∈ Chars.columns _ _ _, start ≤ column → _ ∨ _))

variable (o : SearchOptions)

theorem letter_size (c : Char) : (o.letter c).utf8Size = c.utf8Size := by
  unfold letter Char.toLower
  split
  · rfl
  · split
    next upper =>
      have low := upper.1
      have high := upper.2
      have before : c.utf8Size = 1 := by
        rw [Char.utf8Size_eq_one_iff]
        exact UInt32.le_trans high (by decide)
      rw [before, Char.utf8Size_eq_one_iff, UInt32.le_iff_toNat_le]
      rw [ge_iff_le, UInt32.le_iff_toNat_le] at low
      rw [UInt32.le_iff_toNat_le] at high
      simp at *
      omega
    · rfl

theorem view_eq (text : String) : o.view text = text.toList.map o.letter := by
  have folded : o.letter = if o.caseSensitive then id else Char.toLower := by
    funext c
    unfold letter
    split <;> rfl
  unfold view
  rw [folded]
  split
  · exact (List.map_id _).symm
  · rfl

variable {o} {pattern text : String}

theorem findIn_cases (o : SearchOptions) (pattern text : String) (start : Nat) :
    o.findIn pattern text start = none ∧
        FreeOf o.letter pattern.toList (dropBytes start text.toList) [] ∨
      ∃ as m bs, First o.letter pattern.toList (dropBytes start text.toList) as m bs ∧
        o.findIn pattern text start =
          some (width (takeBytes start text.toList) + width as) := by
  unfold findIn
  rw [view_eq, view_eq, Chars.findColumn_eq o.letter_size, Nat.sub_zero, Nat.zero_add]
  cases found : Chars.columnsFrom o.letter pattern.toList (width (takeBytes start text.toList))
      (dropBytes start text.toList) with
  | nil =>
    refine .inl ⟨rfl, Chars.freeOf_of_columnsFrom (width (takeBytes start text.toList)) ?_⟩
    rw [List.append_nil, found]
    simp
  | cons column behind =>
    rcases Chars.exists_first found with ⟨as, m, bs, first, rfl⟩
    exact .inr ⟨as, m, bs, first, rfl⟩

def Absent (o : SearchOptions) (pattern : String) (es : List Entry) : Prop :=
  ∀ x ∈ es, FreeOf o.letter pattern.toList x.chars []

theorem findAmong_cases (number : Nat) (es : List Entry) :
    o.findAmong pattern number es = none ∧ o.Absent pattern es ∨
      ∃ as y bs xs m ys, es = as ++ y :: bs ∧ o.Absent pattern as ∧
        First o.letter pattern.toList y.chars xs m ys ∧
        o.findAmong pattern number es = some ⟨y.handle, number + as.length, width xs⟩ := by
  induction es generalizing number with
  | nil => exact .inl ⟨rfl, by simp [Absent]⟩
  | cons x es ih =>
    rcases o.findIn_cases pattern x.line.text 0 with ⟨nowhere, free⟩ | ⟨xs, m, ys, first, found⟩
    · rw [Chars.dropBytes_zero] at free
      unfold findAmong
      rw [nowhere]
      rcases ih (number + 1) with
        ⟨nowhere, absent⟩ | ⟨as, y, bs, xs, m, ys, rfl, absent, first, found⟩
      · exact .inl ⟨nowhere, by simpa [Absent] using ⟨free, absent⟩⟩
      · refine .inr ⟨x :: as, y, bs, xs, m, ys, rfl, ?_, first, ?_⟩
        · simpa [Absent] using ⟨free, absent⟩
        · rw [List.length_cons, Nat.add_comm as.length, ← Nat.add_assoc]
          exact found
    · rw [Chars.dropBytes_zero] at first
      refine .inr ⟨[], x, es, xs, m, ys, rfl, by simp [Absent], first, ?_⟩
      unfold findAmong
      rw [found]
      simp

end SearchOptions

theorem split_cases {α : Type} {as bs cs ds : List α} {x y : α}
    (same : as ++ x :: bs = cs ++ y :: ds) :
    (∃ es, as = cs ++ y :: es ∧ ds = es ++ x :: bs) ∨ (as = cs ∧ x = y ∧ bs = ds) ∨
      ∃ es, cs = as ++ x :: es ∧ bs = es ++ y :: ds := by
  rcases List.append_eq_append_iff.mp same with ⟨zs, rfl, rest⟩ | ⟨zs, rfl, rest⟩
  · cases zs with
    | nil =>
      rcases List.cons.inj rest with ⟨rfl, rfl⟩
      exact .inr (.inl ⟨(List.append_nil as).symm, rfl, rfl⟩)
    | cons z zs =>
      rcases List.cons.inj rest with ⟨rfl, rfl⟩
      exact .inr (.inr ⟨zs, rfl, rfl⟩)
  · cases zs with
    | nil =>
      rcases List.cons.inj rest with ⟨rfl, rfl⟩
      exact .inr (.inl ⟨List.append_nil cs, rfl, rfl⟩)
    | cons z zs =>
      rcases List.cons.inj rest with ⟨rfl, rfl⟩
      exact .inl ⟨zs, rfl, rfl⟩

namespace Editor

/-- What a search finds that starts at a column of a line `x` and wraps up to line `last`. -/
inductive Found (o : SearchOptions) (pattern : String) (start last : Nat) (as : List Entry)
    (x : Entry) (bs : List Entry) : Option Match → Prop
  | here {xs m ys : List Char} :
    First o.letter pattern.toList (dropBytes start x.chars) xs m ys →
    Found o pattern start last as x bs
      (some ⟨x.handle, as.length + 1, width (takeBytes start x.chars) + width xs⟩)
  | below {more cs : List Entry} {y : Entry} {xs m ys : List Char} :
    FreeOf o.letter pattern.toList (dropBytes start x.chars) [] → bs = more ++ y :: cs →
    o.Absent pattern more → First o.letter pattern.toList y.chars xs m ys →
    Found o pattern start last as x bs
      (some ⟨y.handle, as.length + 1 + (more.length + 1), width xs⟩)
  /-- A search that has wrapped ends before the column at which it started. -/
  | above {more cs : List Entry} {y : Entry} {xs m ys : List Char} :
    FreeOf o.letter pattern.toList (dropBytes start x.chars) [] → o.Absent pattern bs →
    (as ++ x :: bs).take last = more ++ y :: cs → o.Absent pattern more →
    First o.letter pattern.toList y.chars xs m ys →
    more.length < as.length ∨ more.length = as.length ∧ width xs < start →
    Found o pattern start last as x bs (some ⟨y.handle, more.length + 1, width xs⟩)
  | nowhere : FreeOf o.letter pattern.toList (dropBytes start x.chars) [] →
    o.Absent pattern bs → o.Absent pattern ((as ++ x :: bs).take last) →
    Found o pattern start last as x bs none

variable {e : Editor} {o : SearchOptions} {pattern replacement : String} {as bs : List Entry}
  {x y : Entry} {start last : Nat}

theorem Found.occurs {m : Match} (written : pattern.toList ≠ [])
    (found : Found o pattern start last as x bs (some m)) :
    ∃ y ∈ as ++ x :: bs, m.column ∈ Chars.columns o.letter pattern.toList y.chars := by
  have occurs : ∀ y xs m ys, First o.letter pattern.toList y xs m ys →
      width xs ∈ Chars.columns o.letter pattern.toList y := by
    intro y xs m ys first
    rw [first.whole]
    exact Chars.mem_columns_match written first.same xs ys
  cases found with
  | here first =>
    refine ⟨x, by simp, ?_⟩
    have inside := Chars.mem_columns_append_right (takeBytes start x.chars) (occurs _ _ _ _ first)
    rwa [Chars.takeBytes_append_dropBytes] at inside
  | @below more _ y _ _ _ _ split _ first =>
    exact ⟨y, by simp [split], occurs _ _ _ _ first⟩
  | @above more _ y _ _ _ _ _ split _ first =>
    have mem : y ∈ (as ++ x :: bs).take last := by simp [split]
    exact ⟨y, List.mem_of_mem_take mem, occurs _ _ _ _ first⟩

theorem lt_start_of_first {xs m ys : List Char} (written : pattern.toList ≠ [])
    (free : FreeOf o.letter pattern.toList (dropBytes start x.chars) [])
    (first : First o.letter pattern.toList x.chars xs m ys) : width xs < start := by
  have whole := first.whole
  rw [← Chars.takeBytes_append_dropBytes start x.chars] at whole
  rcases List.append_eq_append_iff.mp whole with ⟨zs, -, rest⟩ | ⟨zs, taken, rest⟩
  · exact (free.not_occurs written rest first.same).elim
  · cases zs with
    | nil =>
      have here : dropBytes start x.chars = [] ++ (m ++ ys) := rest.symm
      exact (free.not_occurs written here first.same).elim
    | cons c zs => exact Chars.width_lt_of_takeBytes taken

/-- A search goes from the cursor line to the lines below it, and then to those from the top. -/
theorem findFrom_of_sound (sound : e.script.Sound (as ++ x :: bs))
    (here : e.script.cursor.handle = x.handle) (written : pattern ≠ "") (start last : Nat) :
    e.findFrom pattern o start last =
      ((o.findIn pattern x.line.text start).map (⟨x.handle, as.length + 1, ·⟩)).or
        ((o.findAmong pattern (as.length + 1 + 1) bs).or
          (if o.wrap then o.findAmong pattern 1 ((as ++ x :: bs).take last) else none)) := by
  have line : e.script.cursor.line = as.length + 1 :=
    Entry.At.number_eq sound.distinct (here ▸ sound.cursor) (Entry.at_split as x bs)
  have current : e.script.currentLine? = some x.line := by
    rw [Script.currentLine?, here]
    exact sound.get?_split
  have rest : e.script.links.below x.handle = bs := by
    rw [sound.links, Links.below_row sound.distinct (fun _ => sound.real) rfl]
  unfold findFrom findHere? findBelow?
  dsimp only
  rw [if_neg (by simpa using written), current, here, rest, line, sound.entries]
  simp only [Option.orElse_eq_orElse, Option.orElse_eq_or, Option.bind_eq_bind, Option.bind_some]
  cases o.findIn pattern x.line.text start <;> rfl

theorem seekFrom_eq {es : List Entry} (sound : e.script.Sound es) (start last : Nat) :
    e.seekFrom pattern o start last = .ok (e.findFrom pattern o start last) := by
  rcases sound.cursor.split with ⟨as, x, bs, rfl, -, here⟩
  rw [seekFrom, searchesEndlessly, ← here, sound.endless_below, Bool.and_false]
  rfl

theorem seek_eq_error {es : List Entry} {fault : Fault} (sound : e.script.Sound es)
    (stopped : e.seek pattern o = .error fault) :
    fault = .overflow ∧ Bounds.max64 ≤ e.script.cursor.column := by
  rw [seek, seekFrom_eq sound] at stopped
  split at stopped
  next full =>
    cases stopped
    exact ⟨rfl, of_decide_eq_true full⟩
  next => cases stopped

theorem Found.of_sound (sound : e.script.Sound (as ++ x :: bs))
    (here : e.script.cursor.handle = x.handle) (written : pattern ≠ "") (wraps : o.wrap = true)
    (start last : Nat) : Found o pattern start last as x bs (e.findFrom pattern o start last) := by
  have filled : pattern.toList ≠ [] := by simpa using written
  rw [findFrom_of_sound sound here written, if_pos wraps]
  rcases o.findIn_cases pattern x.line.text start with ⟨none, free⟩ | ⟨xs, m, ys, first, found⟩
  case inr =>
    rw [found]
    exact .here first
  rw [none, Option.map_none, Option.none_or]
  rcases o.findAmong_cases (as.length + 1 + 1) bs with
    ⟨none, absent⟩ | ⟨more, y, cs, xs, m, ys, split, absent, first, found⟩
  case inr =>
    rw [found, Option.some_or, Nat.add_assoc (as.length + 1), Nat.add_comm 1]
    exact .below free split absent first
  rw [none, Option.none_or]
  rcases o.findAmong_cases 1 ((as ++ x :: bs).take last) with
    ⟨none, nowhere⟩ | ⟨more, y, cs, xs, m, ys, split, passed, first, found⟩
  · rw [none]
    exact .nowhere free absent nowhere
  · have whole : as ++ x :: bs = more ++ y :: (cs ++ (as ++ x :: bs).drop last) := by
      rw [← List.cons_append, ← List.append_assoc, ← split, List.take_append_drop]
    rw [found, Nat.add_comm]
    apply Found.above free absent split passed first
    rcases split_cases whole with ⟨es, rfl, -⟩ | ⟨rfl, rfl, -⟩ | ⟨es, -, rest⟩
    · left
      simp
    · exact .inr ⟨rfl, lt_start_of_first filled free first⟩
    · have mem : y ∈ bs := by
        rw [rest]
        simp
      exact ((absent y mem).not_occurs filled first.whole first.same).elim

/-! ### Writing over an occurrence -/

theorem moveTo_eq {es : List Entry} {m : Match} {h : Handle} (sound : e.script.Sound es)
    (stands : Entry.At es m.number h) :
    e.moveTo m = .ok { e with
      script := { e.script with cursor := ⟨h, m.number, m.column⟩ } } := by
  have positive := stands.1
  have bound := stands.le_length
  have inside : max 1 (min m.number es.length) = m.number := by omega
  rcases sound.gotoLine_eq m.number with ⟨h', there, moved⟩
  rw [inside] at there moved
  rw [there.handle_eq stands] at moved
  unfold moveTo
  rw [moved]
  rfl

theorem sound_moveTo {m : Match} {there : Editor} (sound : e.script.Sound (as ++ x :: bs))
    (number : m.number = as.length + 1) (moved : e.moveTo m = .ok there) :
    there.script.Sound (as ++ x :: bs) ∧ there.script.cursor.handle = x.handle := by
  have here := Entry.at_split as x bs
  rw [← number] at here
  cases moved.symm.trans (moveTo_eq sound here)
  exact ⟨⟨⟨sound.links, sound.lineCount, sound.owned, sound.size⟩, here, sound.mark⟩, rfl⟩

theorem exists_setLine_of_update {h : Handle} {text : String} {edited : Edited Outcome}
    {outcome : Outcome} (plain : callsMacro text = false) (done : e.update h text = .ok edited)
    (accepted : edited.result = .ok outcome) : ∃ line, edited.editor = e.setLine h line := by
  have write := writeCase e.levelsLeft e h text
  unfold update at done
  generalize writeWith e.levelsLeft e h text = result at write done
  cases write with
  | missing | unknown =>
    cases done
    contradiction
  | plain found =>
    cases done
    rcases writePlain_cases e h _ text with ⟨err, refused⟩ | ⟨_, line, -, -, written⟩
    · rw [refused] at accepted
      contradiction
    · exact ⟨line, congrArg Edited.editor written⟩
  | held _ calls => simp [plain] at calls
  | unnumbered _ calls => simp [plain] at calls
  | endless _ calls => simp [plain] at calls
  | expanded _ _ calls => simp [plain] at calls

end Editor

end RobotScript
