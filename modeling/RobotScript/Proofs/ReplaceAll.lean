import Mathlib.Logic.Relation
import RobotScript.Proofs.InOrder
import RobotScript.Proofs.Stages
/-!
Replacing all matches. If the occurrences up to the cursor can be told from those behind it, and each
line holds what is put together for it, then every occurrence is replaced once.
-/
namespace RobotScript

open Chars (First takeBytes dropBytes width)

theorem Text.toList_splice {s insertion : String} {xs ys occurrence : List Char}
    (whole : s.toList = xs ++ (occurrence ++ ys)) :
    (splice s (width xs) (width xs + width occurrence) insertion).toList =
      xs ++ (insertion.toList ++ ys) := by
  have kept : Chars.cut (width xs) s.toList = xs := by rw [whole, Chars.cut_width]
  have dropped : Chars.dropBytes (width xs + width occurrence) s.toList = ys := by
    rw [whole, ← List.append_assoc, ← Chars.width_append, Chars.dropBytes_width]
  rw [splice, kept, dropped, String.toList_ofList, List.append_assoc]

namespace Editor

theorem signed64_of_lt {n : Nat} (small : n < 2 ^ 63) : signed64 n = n := by
  unfold signed64 Bounds.count64
  rw [Int.bmod_eq_of_le] <;> omega

def splicedAt (line : Line) (m : Match) (pattern replacement : String) : String :=
  Text.splice line.text m.column (m.column + Text.size pattern) replacement

def Replaces (pattern replacement : String) (o : SearchOptions) (a b : Pass × Editor) : Prop :=
  replaceNext pattern replacement o a.1 a.2 = .ok (.more b.1 b.2)

/-- Whether a line is left with a text that is put together for it: the text is not too long, calls
no macro and is stored as it is. -/
def StoredAsIs (text : String) (line? : Option Line) : Prop :=
  Text.size text ≤ Line.maxText ∧ callsMacro text = false ∧ line?.map Line.text = some text

def StoresNext (pattern replacement : String) (o : SearchOptions) (p : Pass) (e e' : Editor) :
    Prop :=
  ∀ m ∈ e.findFrom pattern o p.resume p.startLine, ∀ line ∈ e.script.get? m.handle,
    StoredAsIs (splicedAt line m pattern replacement) (e'.script.get? m.handle)

/-- Whether each line that a pass rewrites from some state on is left with what is put together for
it. -/
def Verbatim (pattern replacement : String) (o : SearchOptions) (p : Pass) (e : Editor) : Prop :=
  ∀ a b, Relation.ReflTransGen (Replaces pattern replacement o) (p, e) a →
    Replaces pattern replacement o a b → StoresNext pattern replacement o a.1 a.2 b.2

instance (text : String) (line? : Option Line) : Decidable (StoredAsIs text line?) :=
  inferInstanceAs (Decidable (_ ∧ _ ∧ _))

instance (pattern replacement : String) (o : SearchOptions) (p : Pass) (e e' : Editor) :
    Decidable (StoresNext pattern replacement o p e e') :=
  inferInstanceAs (Decidable (∀ m ∈ e.findFrom pattern o p.resume p.startLine,
    ∀ line ∈ e.script.get? m.handle,
      StoredAsIs (splicedAt line m pattern replacement) (e'.script.get? m.handle)))

def endsChecked (pattern replacement : String) (o : SearchOptions)
    (check : Pass → Editor → Editor → Bool) : Nat → Pass → Editor → Bool
  | 0, _, _ => false
  | fuel + 1, p, e =>
    match replaceNext pattern replacement o p e with
    | .ok (.more p' e') =>
      check p e e' && endsChecked pattern replacement o check fuel p' e'
    | _ => true

theorem check_of_endsChecked {pattern replacement : String} {o : SearchOptions}
    {check : Pass → Editor → Editor → Bool} {fuel : Nat} {p : Pass} {e : Editor}
    (ends : endsChecked pattern replacement o check fuel p e = true) (a b : Pass × Editor)
    (reached : Relation.ReflTransGen (Replaces pattern replacement o) (p, e) a)
    (next : Replaces pattern replacement o a b) : check a.1 a.2 b.2 = true := by
  induction fuel generalizing p e with
  | zero => contradiction
  | succ fuel ih =>
    have more : ∀ c, Replaces pattern replacement o (p, e) c → check p e c.2 = true ∧
        endsChecked pattern replacement o check fuel c.1 c.2 = true := by
      intro c next
      unfold Replaces at next
      dsimp only at next
      rw [endsChecked, next, Bool.and_eq_true_iff] at ends
      exact ends
    rcases reached.cases_head with rfl | ⟨c, first, rest⟩
    · exact (more b next).1
    · exact ih (more c first).2 rest

def endsVerbatim (pattern replacement : String) (o : SearchOptions) : Nat → Pass → Editor → Bool
  | 0, _, _ => false
  | fuel + 1, p, e =>
    match replaceNext pattern replacement o p e with
    | .ok (.more p' e') =>
      decide (StoresNext pattern replacement o p e e') &&
        endsVerbatim pattern replacement o fuel p' e'
    | _ => true

theorem endsVerbatim_eq (pattern replacement : String) (o : SearchOptions) (fuel : Nat) (p : Pass)
    (e : Editor) : endsVerbatim pattern replacement o fuel p e =
      endsChecked pattern replacement o
        (fun p e e' => decide (StoresNext pattern replacement o p e e')) fuel p e := by
  induction fuel generalizing p e with
  | zero => rfl
  | succ fuel ih =>
    unfold endsVerbatim endsChecked
    split
    · rw [ih]
    · rfl

theorem verbatim_of_endsVerbatim {pattern replacement : String} {o : SearchOptions} {fuel : Nat}
    {p : Pass} {e : Editor} (ends : endsVerbatim pattern replacement o fuel p e = true) :
    Verbatim pattern replacement o p e := by
  intro a b reached next
  rw [endsVerbatim_eq] at ends
  exact of_decide_eq_true (check_of_endsChecked ends a b reached next)

theorem replaceAt_stored {e there : Editor} {m : Match} {as bs : List Entry} {y : Entry}
    {xs occurrence ys : List Char} {pattern replacement : String} {edited : Edited Outcome}
    {outcome : Outcome} (sound : e.script.Sound (as ++ y :: bs))
    (found : m = ⟨y.handle, as.length + 1, width xs⟩)
    (whole : y.chars = xs ++ (occurrence ++ ys)) (wide : width occurrence = Text.size pattern)
    (reached : e.moveTo m = .ok there)
    (done : there.replaceAt m (Text.size pattern) replacement = .ok edited)
    (accepted : edited.result = .ok outcome)
    (stored : StoredAsIs (splicedAt y.line m pattern replacement)
      (edited.editor.script.get? m.handle)) :
    ∃ line, edited.editor.script.Sound (as ++ ⟨y.handle, line⟩ :: bs) ∧
      edited.editor.script.cursor.handle = y.handle ∧
      Entry.chars ⟨y.handle, line⟩ = xs ++ (replacement.toList ++ ys) ∧
      Text.size line.text ≤ Line.maxText := by
  rcases sound_moveTo sound (congrArg Match.number found) reached with ⟨moved, here⟩
  have handle : m.handle = y.handle := congrArg Match.handle found
  have spliced : (splicedAt y.line m pattern replacement).toList =
      xs ++ (replacement.toList ++ ys) := by
    rw [splicedAt, found, ← wide]
    exact Text.toList_splice whole
  rcases stored with ⟨fits, plain, text⟩
  unfold replaceAt at done
  rw [handle, moved.get?_split] at done
  dsimp only at done
  rw [← splicedAt, Text.cut_eq_self fits] at done
  rcases exists_setLine_of_update plain done accepted with ⟨line, written⟩
  have laid : edited.editor.script.Sound (as ++ ⟨y.handle, line⟩ :: bs) := by
    rw [written]
    exact moved.setLine line
  have kept : edited.editor.script.get? y.handle = some line := laid.get?_split
  rw [handle, kept] at text
  have same : line.text = splicedAt y.line m pattern replacement := Option.some.inj text
  refine ⟨line, laid, ?_, ?_, same ▸ fits⟩
  · rw [written, ← here]
    unfold setLine Script.setLine
    dsimp only
    split <;> rfl
  · rw [Entry.chars, same, spliced]

section Run

variable {j : Job} {es as bs : List Entry} {x : Entry} {p : Pass} {e : Editor}

structure Underway (j : Job) (es : List Entry) (p : Pass) (e : Editor) (as : List Entry)
    (x : Entry) (bs : List Entry) : Prop where
  clear : j.Clear
  sound : e.script.Sound (as ++ x :: bs)
  cursor : e.script.cursor.handle = x.handle
  handles : Entry.handlesOf (as ++ x :: bs) = Entry.handlesOf es
  near : ∀ y ∈ as ++ x :: bs, ∀ column ∈ Chars.columns j.options.letter j.pattern.toList y.chars,
    column ≤ Line.maxText
  stage : j.Stage p as x bs

theorem Underway.step {m : Match} {q : Pass} {there : Editor} {edited : Edited Outcome}
    {outcome : Outcome}
    (underway : Underway j es p e as x bs) (goes : j.GoesOn q m (as ++ x :: bs))
    (reached : e.moveTo m = .ok there)
    (done : there.replaceAt m (Text.size j.pattern) j.replacement = .ok edited)
    (accepted : edited.result = .ok outcome)
    (stored : ∀ line ∈ e.script.get? m.handle,
      StoredAsIs (splicedAt line m j.pattern j.replacement)
        (edited.editor.script.get? m.handle)) :
    ∃ as' x' bs', Underway j es (q.advance m (m.column + Text.size j.replacement))
      { edited.editor with
        script := edited.editor.script.setColumn (m.column + Text.size j.replacement) }
      as' x' bs' := by
  rcases goes with ⟨as', y, bs', xs, occurrence, ys, rows, found, whole, same, next⟩
  rcases underway with ⟨clear, sound, -, handles, near, -⟩
  rw [rows] at sound handles near
  have old : e.script.get? m.handle = some y.line := by
    rw [found]
    exact sound.get?_split
  rcases replaceAt_stored sound found whole (Chars.width_match j.options.letter_size same)
    reached done accepted (stored y.line old) with ⟨line, laid, here, made, fits⟩
  refine ⟨as', ⟨y.handle, line⟩, bs', clear, laid.setColumn _, here, ?_, ?_, next _ made⟩
  · rw [← handles]
    simp
  · intro z mem column occurs
    rcases List.mem_append.mp mem with above | rest
    · exact near z (by simp [above]) column occurs
    · rcases List.mem_cons.mp rest with rfl | below
      · have ends := Chars.end_le_of_mem_columns j.options.letter_size occurs
        exact Nat.le_trans (Nat.le_trans (Nat.le_add_right _ _) ends) fits
      · exact near z (by simp [below]) column occurs

/-- A step of a pass goes on with a match, or ends where the pass is finished. -/
theorem Underway.next {step : PassStep} (underway : Underway j es p e as x bs)
    (wraps : j.options.wrap = true)
    (verbatim : Verbatim j.pattern j.replacement j.options p e)
    (done : replaceNext j.pattern j.replacement j.options p e = .ok step) :
    match step with
    | .done summary e' => summary.refused = none →
        e' = e ∧ summary.replaced = p.replaced ∧ j.Finished p (as ++ x :: bs)
    | .more p' e' => p'.replaced = p.replaced + 1 ∧
        ∃ as' x' bs', Underway j es p' e' as' x' bs' := by
  have written : j.pattern ≠ "" := by simpa using j.written
  have found := Found.of_sound underway.sound underway.cursor written wraps p.resume p.startLine
  have proceeds : ∀ m, e.findFrom j.pattern j.options p.resume p.startLine = some m →
      p.admit? j.delta m = none ∧ j.Finished p (as ++ x :: bs) ∨
      ∃ q, p.admit? j.delta m = some q ∧ j.GoesOn q m (as ++ x :: bs) := by
    intro m search
    rw [search] at found
    rcases found.occurs j.written with ⟨y, mem, occurs⟩
    exact underway.stage.proceeds underway.clear found (underway.near y mem _ occurs)
  cases nextCase done with
  | missing search =>
    rw [search] at found
    exact fun _ => ⟨rfl, rfl, underway.stage.finished found⟩
  | passed search ends =>
    rcases proceeds _ search with ⟨-, finished⟩ | ⟨q, admitted, -⟩
    · exact fun _ => ⟨rfl, rfl, finished⟩
    · cases ends.symm.trans admitted
  | refused => simp
  | @replaced m q there edited outcome search admitted reached replaced accepted =>
    rcases proceeds m search with ⟨ends, -⟩ | ⟨q', admitted', goes⟩
    · cases ends.symm.trans admitted
    · cases admitted.symm.trans admitted'
      have same := (Pass.admit?_eq_some admitted').2.1
      refine ⟨congrArg (· + 1) same, underway.step goes reached replaced accepted ?_⟩
      exact verbatim (p, e) (_, _) .refl done m search

theorem replaced_le_total (stage : j.Stage p as x bs) : p.replaced ≤ j.total := by
  cases stage with
  | down down =>
    have := down.counted
    omega
  | round round =>
    have := round.counted
    omega
  | home home =>
    have := home.counted
    omega
  | still finished _ => exact Nat.le_of_eq finished.2

theorem Verbatim.next {pattern replacement : String} {o : SearchOptions} {p' : Pass} {e' : Editor}
    (verbatim : Verbatim pattern replacement o p e)
    (done : replaceNext pattern replacement o p e = .ok (.more p' e')) :
    Verbatim pattern replacement o p' e' := by
  intro a b reached
  exact verbatim a b (.head (b := (p', e')) done reached)

theorem Underway.run {fuel n : Nat} {e' : Editor} (underway : Underway j es p e as x bs)
    (wraps : j.options.wrap = true)
    (verbatim : Verbatim j.pattern j.replacement j.options p e)
    (enough : j.total < p.replaced + fuel)
    (done : replaceMany j.pattern j.replacement j.options fuel p e = .ok (⟨n, none⟩, e')) :
    ∃ rows, e'.script.Sound rows ∧ Entry.handlesOf rows = Entry.handlesOf es ∧
      rows.map Entry.chars = j.goal ∧ n = j.total := by
  -- Each step but the last counts one more occurrence, and there are not more than in all.
  induction fuel generalizing p e as x bs with
  | zero =>
    have := replaced_le_total underway.stage
    omega
  | succ fuel ih =>
    rcases bind_eq_ok.mp done with ⟨step, stepped, rest⟩
    have after := underway.next wraps verbatim stepped
    cases step with
    | done summary e'' =>
      cases rest
      rcases after rfl with ⟨rfl, same, made, counted⟩
      exact ⟨_, underway.sound, underway.handles, made, same.trans counted⟩
    | more p' e'' =>
      rcases after with ⟨more, as', x', bs', underway'⟩
      exact ih underway' (verbatim.next stepped) (by omega) rest

theorem Underway.start {y : Entry} (clear : j.Clear)
    (sound : e.script.Sound (j.above ++ y :: j.below))
    (cursor : e.script.cursor.handle = y.handle) (column : e.script.cursor.column = j.column)
    (small : j.column < 2 ^ 63) (whole : j.head ++ j.tail = y.chars)
    (near : ∀ x ∈ j.above ++ y :: j.below,
      ∀ column ∈ Chars.columns j.options.letter j.pattern.toList x.chars, column ≤ Line.maxText) :
    Underway j (j.above ++ y :: j.below) (.start e.script.cursor) e j.above y j.below := by
  have line : e.script.cursor.line = j.above.length + 1 :=
    Entry.At.number_eq sound.distinct (cursor ▸ sound.cursor) (Entry.at_split _ y _)
  have startColumn : (Pass.start e.script.cursor).startColumn = j.column := by
    simp only [Pass.start, column, signed64_of_lt small]
  have lastColumn : (Pass.start e.script.cursor).lastColumn = j.column := startColumn
  have resume : (Pass.start e.script.cursor).resume = j.column + 1 := by
    rw [Pass.start, column]
  rcases j.divides.dropBytes_eq with ⟨xs, head, ahead, free⟩
  rw [whole] at head ahead
  have apart := j.apart
  rw [whole, ← Chars.takeBytes_append_dropBytes (j.column + 1) y.chars, ahead] at apart
  have scan : j.Scan [] (Pass.start e.script.cursor).resume [] y (xs ++ j.tail) j.below
      ((j.head ++ j.rewrite j.tail) :: j.rewriteAll j.below)
      (j.count j.tail + j.countAll j.below) := by
    rw [resume]
    refine ⟨?_, ?_, ?_, apart.right, fun x mem => j.apartAll x (List.mem_append_right _ mem)⟩
    · rw [ahead, List.append_nil]
    · rw [head, Job.rewrite, Job.rewrite, free.substitute_eq]
      simp
    · rw [Job.count, Job.count, free.length_columns]
  have stage : j.Stage (.start e.script.cursor) (j.above ++ []) y j.below := by
    refine .down ⟨scan, line, startColumn, rfl, ?_, .inr ⟨rfl, lastColumn, resume, rfl⟩, ?_, ?_⟩
    · rw [List.append_nil]
      exact line
    · rw [resume]
      exact fun _ => Nat.lt_succ_self _
    · unfold Job.total
      simp only [Pass.start]
      omega
  rw [List.append_nil] at stage
  exact ⟨clear, sound, cursor, rfl, near, stage⟩

end Run

def occurrences (e : Editor) (pattern : String) (o : SearchOptions) : Nat :=
  (e.script.lines.map fun line => (o.columns pattern line.text).length).sum

/-- Whether a replacement of all matches can tell, in the line of the cursor, what it has replaced
from what it has not. If the only occurrence of the script is at the cursor, none may be in the
rewritten line. -/
def ClearAtCursor (e : Editor) (pattern replacement : String) (o : SearchOptions) : Prop :=
  ∀ line ∈ e.script.currentLine?,
    if e.script.cursor.column ∈ o.columns pattern line.text ∧ e.occurrences pattern o = 1 then
      o.columns pattern (o.substitute pattern replacement line.text) = []
    else o.ClearAt pattern replacement line.text e.script.cursor.column

instance (e : Editor) (pattern replacement : String) (o : SearchOptions) :
    Decidable (e.ClearAtCursor pattern replacement o) :=
  inferInstanceAs (Decidable (∀ line ∈ e.script.currentLine?, if _ ∧ _ then _ else _))

section Start

variable {e : Editor} {pattern replacement : String} {o : SearchOptions} {above below : List Entry}
  {x : Entry}

theorem occurrences_eq {es : List Entry} (sound : e.script.Sound es) (pattern : String)
    (o : SearchOptions) :
    e.occurrences pattern o =
      (es.map fun y => (Chars.columns o.letter pattern.toList y.chars).length).sum := by
  rw [occurrences, Script.lines, sound.entries, List.map_map]
  rfl

theorem Job.clear_of_clearAtCursor {j : Job} (whole : j.head ++ j.tail = x.chars)
    (current : e.script.currentLine? = some x.line) (column : j.column = e.script.cursor.column)
    (total : j.total = e.occurrences j.pattern j.options)
    (clear : e.ClearAtCursor j.pattern j.replacement j.options) : j.Clear := by
  have settled := clear x.line current
  have lone : j.Lone ↔ e.script.cursor.column ∈ j.options.columns j.pattern x.line.text ∧
      e.occurrences j.pattern j.options = 1 := by
    rw [Job.Lone, Job.Occurs, whole, total, column]
    rfl
  split at settled
  next single =>
    apply Job.clear_of_lone (lone.mpr single)
    have free := Chars.freeOf_of_columns_nil settled
    rw [SearchOptions.substitute, String.toList_ofList] at free
    rw [whole]
    exact free
  next several =>
    rw [← column] at settled
    exact Job.clear_of_several whole (several ∘ lone.mp) settled

theorem exists_underway (sound : e.script.Sound (above ++ x :: below))
    (here : x.handle = e.script.cursor.handle) (written : pattern ≠ "")
    (apart : ∀ y ∈ above ++ x :: below, Chars.Apart o.letter pattern.toList y.chars)
    (near : ∀ y ∈ above ++ x :: below, ∀ column ∈ Chars.columns o.letter pattern.toList y.chars,
      column ≤ Line.maxText)
    (clear : e.ClearAtCursor pattern replacement o) (small : e.script.cursor.column < 2 ^ 63) :
    ∃ j : Job, j.options = o ∧ j.pattern = pattern ∧ j.replacement = replacement ∧
      j.goal = j.rewriteAll (above ++ x :: below) ∧ j.total = e.occurrences pattern o ∧
      Underway j (above ++ x :: below) (.start e.script.cursor) e above x below := by
  have filled : pattern.toList ≠ [] := by simpa using written
  have inside : x ∈ above ++ x :: below := by simp
  rcases Chars.exists_divides o.letter_size filled e.script.cursor.column (apart x inside) with
    ⟨head, tail, whole, divides⟩
  let j : Job := {
    options := o
    pattern
    replacement
    above
    head
    tail
    below
    column := e.script.cursor.column
    written := filled
    divides
    apart := whole.symm ▸ apart x inside
    apartAll := fun y mem => apart y (by
      rcases List.mem_append.mp mem with mem | mem <;> simp [mem]) }
  have total : j.total = e.occurrences pattern o := by
    rw [occurrences_eq sound]
    exact j.total_eq whole
  have current : e.script.currentLine? = some x.line := by
    rw [Script.currentLine?, ← here]
    exact sound.get?_split
  have settled : j.Clear := Job.clear_of_clearAtCursor whole current rfl total clear
  exact ⟨j, rfl, rfl, rfl, j.goal_eq whole, total,
    .start settled sound here.symm rfl small whole near⟩

end Start

/-- A replacement of all matches replaces each occurrence once, if it can tell at the cursor what it
has replaced from what it has not. -/
theorem Reachable.replaceAll_substitutes {c : Config} {e e' : Editor}
    {pattern replacement : String} {o : SearchOptions} {n : Nat} (reached : Reachable c e)
    (room : 5 ≤ c.maxSize) (written : pattern ≠ "") (wraps : o.wrap = true)
    (apart : ∀ line ∈ e.script.lines, (o.columns pattern line.text).Pairwise fun column next =>
      column + Text.size pattern ≤ next)
    (near : ∀ line ∈ e.script.lines, ∀ column ∈ o.columns pattern line.text,
      column ≤ Line.maxText)
    (clear : e.ClearAtCursor pattern replacement o) (small : e.script.cursor.column < 2 ^ 63)
    (few : e.occurrences pattern o < replaceLimit)
    (verbatim : Verbatim pattern replacement o (.start e.script.cursor) e)
    (done : e.replaceAll pattern replacement o = .ok (⟨n, none⟩, e')) :
    e'.script.handles = e.script.handles ∧
      e'.script.lines.map Line.text =
        e.script.lines.map (fun line => o.substitute pattern replacement line.text) ∧
      n = e.occurrences pattern o := by
  rcases (reached.inOrder room).script.sound with ⟨es, sound⟩
  rcases sound.cursor.split with ⟨above, x, below, rfl, -, here⟩
  have mem : ∀ y ∈ above ++ x :: below, y.line ∈ e.script.lines := by
    intro y inside
    rw [Script.lines, sound.entries]
    exact List.mem_map_of_mem inside
  rcases exists_underway sound here written (fun y inside => apart y.line (mem y inside))
    (fun y inside => near y.line (mem y inside)) clear small with
    ⟨j, rfl, rfl, rfl, goal, total, underway⟩
  have enough : j.total < (Pass.start e.script.cursor).replaced + replaceLimit := by
    rw [total]
    exact Nat.lt_add_left _ few
  rcases underway.run wraps verbatim enough (replaceMany_of_replaceAll done) with
    ⟨rows, sound', handles, made, counted⟩
  refine ⟨?_, ?_, counted.trans total⟩
  · rw [Script.handles, Script.handles, sound'.entries, sound.entries]
    exact handles
  · have shown : String.ofList ∘ Entry.chars = fun y => y.line.text := by
      funext y
      exact String.ofList_toList
    have texts := congrArg (List.map String.ofList) (made.trans goal)
    rw [List.map_map, shown, Job.rewriteAll, List.map_map] at texts
    rw [Script.lines, Script.lines, sound'.entries, sound.entries, List.map_map, List.map_map]
    exact texts

theorem replaceAll_from_occurrence : ∃ e e' : Editor, Reachable {} e ∧
    e.script.lines.map Line.text = [": a_b_a", ": a"] ∧ e.script.cursor.column = 2 ∧
    e.replaceAll "a" "aa" {} = .ok (⟨3, none⟩, e') ∧
    e'.script.lines.map Line.text = [": aa_b_aa", ": aa"] := by
  generalize whole : (((Editor.new {}).load [0xFF, 8, 106, 6, 97, 95, 98, 95, 97, 0, 8, 4, 106, 2,
    97, 0, 4, 0]).mapScript (·.setColumn 2)) = e
  have reached : Reachable {} e := by
    rw [← whole]
    exact .perform (.setColumn 2) (.perform (.load _) .new rfl) rfl
  have run : (e.replaceAll "a" "aa" {}).map Prod.fst = .ok ⟨3, none⟩ := by
    rw [← whole]
    decide +kernel
  rcases map_eq_ok.mp run with ⟨⟨summary, e'⟩, done, rfl⟩
  have clear : e.ClearAtCursor "a" "aa" {} := by
    rw [← whole]
    decide +kernel
  have ends : endsVerbatim "a" "aa" {} 4 (.start e.script.cursor) e = true := by
    rw [← whole]
    decide +kernel
  have after := Reachable.replaceAll_substitutes reached (by decide) (by decide) rfl
    (by rw [← whole]; decide +kernel) (by rw [← whole]; decide +kernel) clear
    (by rw [← whole]; decide +kernel) (by rw [← whole]; decide +kernel)
    (verbatim_of_endsVerbatim ends) done
  refine ⟨e, e', reached, ?_, ?_, done, ?_⟩
  · rw [← whole]
    decide +kernel
  · rw [← whole]
    rfl
  · rw [after.2.1, ← whole]
    decide +kernel

/-- An occurrence at the cursor is replaced where the pass ends, and what it is replaced with once
more: the search comes back to the column from which the pass set out, and not to one before it. -/
theorem replaceAll_at_cursor : ∃ e e' : Editor, Reachable {} e ∧
    e.script.lines.map Line.text = [": a"] ∧ e.script.cursor.column = 2 ∧
    Verbatim "a" "aa" {} (.start e.script.cursor) e ∧
    e.replaceAll "a" "aa" {} = .ok (⟨3, none⟩, e') ∧
    e'.script.lines.map Line.text = [": aaaa"] ∧
    e.script.lines.map (fun line => SearchOptions.substitute {} "a" "aa" line.text) = [": aa"] ∧
    e.script.lines.map (fun line => (SearchOptions.columns {} "a" line.text).length) = [1] := by
  generalize whole : (((Editor.new {}).load [0xFF, 4, 106, 2, 97, 0, 4, 0]).mapScript
    (·.setColumn 2)) = e
  have reached : Reachable {} e := by
    rw [← whole]
    exact .perform (.setColumn 2) (.perform (.load _) .new rfl) rfl
  have run : (e.replaceAll "a" "aa" {}).map (fun r => (r.1, r.2.script.lines.map Line.text)) =
      .ok (⟨3, none⟩, [": aaaa"]) := by
    rw [← whole]
    decide +kernel
  rcases map_eq_ok.mp run with ⟨⟨summary, e'⟩, done, same⟩
  rcases Prod.mk.inj same with ⟨rfl, texts⟩
  have ends : endsVerbatim "a" "aa" {} 4 (.start e.script.cursor) e = true := by
    rw [← whole]
    decide +kernel
  refine ⟨e, e', reached, ?_, ?_, verbatim_of_endsVerbatim ends, done, texts, ?_, ?_⟩
  all_goals
    rw [← whole]
    decide +kernel

end Editor

end RobotScript
