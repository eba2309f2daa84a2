import RobotScript.Proofs.InOrder
import RobotScript.Proofs.Sessions
/-!
The mark follows its lines. Lines that are put in move its ends along with the lines that they are
on; an end whose line is taken out goes to the next marked line inside; and the mark goes with the
last of its lines.
-/
namespace RobotScript

def ends? (hs : List Handle) : Option (Handle × Handle) :=
  hs.head?.bind fun first => hs.getLast?.map fun last => (first, last)

theorem ends?_eq_some_iff {hs : List Handle} {first last : Handle} :
    ends? hs = some (first, last) ↔ hs.head? = some first ∧ hs.getLast? = some last := by
  unfold ends?
  rw [Option.bind_eq_some_iff]
  simp only [Option.map_eq_some_iff, Prod.mk.injEq]
  constructor
  · rintro ⟨_, starts, _, stops, rfl, rfl⟩
    exact ⟨starts, stops⟩
  · rintro ⟨starts, stops⟩
    exact ⟨first, starts, last, stops, rfl, rfl⟩

theorem ends?_eq_none_iff {hs : List Handle} : ends? hs = none ↔ hs = [] := by
  cases hs with
  | nil => simp [ends?]
  | cons h hs => simp [ends?, List.getLast?_cons]

theorem ends?_filter {hs : List Handle} {p : Handle → Bool} {first last : Handle}
    (ends : ends? hs = some (first, last)) (starts : p first = true) (stops : p last = true) :
    ends? (hs.filter p) = some (first, last) := by
  rw [ends?_eq_some_iff] at ends ⊢
  constructor
  · rcases List.head?_eq_some_iff.mp ends.1 with ⟨hs, rfl⟩
    rw [List.filter_cons_of_pos starts, List.head?_cons]
  · rcases List.getLast?_eq_some_iff.mp ends.2 with ⟨hs, rfl⟩
    rw [List.filter_append, List.filter_cons_of_pos stops, List.filter_nil, List.getLast?_concat]

theorem filter_ne_split {as bs : List Handle} {h : Handle} (distinct : (as ++ h :: bs).Nodup) :
    (as ++ h :: bs).filter (· ≠ h) = as ++ bs := by
  rw [List.nodup_append, List.nodup_cons] at distinct
  rw [List.filter_append, List.filter_cons_of_neg (by simp)]
  congr 1 <;> rw [List.filter_eq_self]
  · intro y mem
    simpa using distinct.2.2 y mem h List.mem_cons_self
  · rintro y mem
    rw [decide_eq_true_eq]
    rintro rfl
    exact distinct.2.1.1 mem

theorem Entry.split_unique {as bs cs ds : List Entry} {x y : Entry}
    (distinct : (handlesOf (as ++ x :: bs)).Nodup) (same : as ++ x :: bs = cs ++ y :: ds)
    (named : y.handle = x.handle) : as = cs ∧ x = y ∧ bs = ds := by
  have one := at_split as x bs
  have other := at_split cs y ds
  rw [← same, named] at other
  have length := At.number_eq distinct one other
  rcases List.append_inj same (by omega) with ⟨rfl, behind⟩
  exact ⟨rfl, List.cons.inj behind⟩

namespace Script

/-- The lines that the mark spans. -/
def spanned (s : Script) : List Handle :=
  match s.mark with
  | none => []
  | some m => (s.handles.take m.endLine).drop (m.startLine - 1)

/-- Whether the mark spans the lines from the first of some to the last of them. It is gone when
there are none. -/
structure MarkSpans (s : Script) (hs : List Handle) : Prop where
  gone : s.mark = none ↔ hs = []
  span : ∀ m, s.mark = some m →
    hs.head? = some m.start ∧ hs.getLast? = some m.stop ∧
      s.lineAt? m.startLine = some m.start ∧ s.lineAt? m.endLine = some m.stop ∧
      m.startLine ≤ m.endLine

variable {s s' : Script} {es es' as bs : List Entry} {x : Entry} {m : Mark} {h : Handle}

theorem Sound.markSpans_of_ends {hs : List Handle} (sound : s.Sound es)
    (ends : s.mark.map Mark.ends = ends? hs) : s.MarkSpans hs where
  gone := by rw [← ends?_eq_none_iff, ← ends, Option.map_eq_none_iff]
  span := by
    intro m marked
    have sits := sound.mark m marked
    rw [marked, Option.map_some, eq_comm, Mark.ends, ends?_eq_some_iff] at ends
    exact ⟨ends.1, ends.2, sound.lineAt?_eq_some_iff.mpr sits.start,
      sound.lineAt?_eq_some_iff.mpr sits.stop, sits.ordered⟩

theorem Sound.spanned_split (sound : s.Sound es) (marked : s.mark = some m) :
    ∃ as run bs, es = as ++ (run ++ bs) ∧ s.spanned = Entry.handlesOf run ∧
      ends? (Entry.handlesOf run) = some m.ends ∧
      m.startLine = as.length + 1 ∧ m.endLine = as.length + run.length := by
  rcases (sound.mark m marked).split with
    ⟨as, run, bs, first, last, rfl, starts, start, startLine, stops, stop, endLine⟩
  have handles : s.handles = Entry.handlesOf as ++ Entry.handlesOf run ++ Entry.handlesOf bs := by
    rw [← Entry.handlesOf_append, ← Entry.handlesOf_append, List.append_assoc]
    exact congrArg Entry.handlesOf sound.entries
  have above : m.startLine - 1 = (Entry.handlesOf as).length := by
    rw [startLine, Nat.add_sub_cancel, Entry.length_handlesOf]
  have through : m.endLine = (Entry.handlesOf as ++ Entry.handlesOf run).length := by
    rw [endLine, List.length_append, Entry.length_handlesOf, Entry.length_handlesOf]
  refine ⟨as, run, bs, rfl, ?_, ?_, startLine, endLine⟩
  · rw [spanned, marked]
    dsimp only
    rw [handles, through, List.take_left, above, List.drop_left]
  · rw [Mark.ends, ends?_eq_some_iff, Entry.handlesOf, List.head?_map, List.getLast?_map, starts,
      stops, ← start, ← stop]
    exact ⟨rfl, rfl⟩

theorem mem_handles_of_mem_spanned (mem : h ∈ s.spanned) : h ∈ s.handles := by
  unfold spanned at mem
  split at mem
  · contradiction
  · exact List.mem_of_mem_take (List.mem_of_mem_drop mem)

theorem Sound.ends?_spanned (sound : s.Sound es) : s.mark.map Mark.ends = ends? s.spanned := by
  cases marked : s.mark with
  | none =>
    rw [spanned, marked]
    rfl
  | some m =>
    rcases sound.spanned_split marked with ⟨as, run, bs, -, spanned, ends, -⟩
    rw [spanned, ends, Option.map_some]

/-- Where no line is taken out and the mark stays on its ends, all marked lines are left. -/
theorem Sound.markSpans_kept (sound : s.Sound es) (sound' : s'.Sound es') (kept : s.KeptIn s') :
    s'.MarkSpans (s.spanned.filter (· ∈ s'.handles)) := by
  have all : s.spanned.filter (· ∈ s'.handles) = s.spanned := by
    rw [List.filter_eq_self]
    intro h mem
    rw [decide_eq_true_eq]
    exact kept.handles.subset (mem_handles_of_mem_spanned mem)
  rw [all]
  exact sound'.markSpans_of_ends (kept.mark.trans sound.ends?_spanned)

/-! ### Taking a line out -/

theorem shiftUp?_ends {number : Nat} {above : Handle} {below : Option Handle}
    (ordered : m.startLine ≤ m.endLine) (real : m.stop.isTop = false) (start : m.start ≠ h)
    (stop : m.stop ≠ h) (apart : m.startLine ≠ number ∧ m.endLine ≠ number) :
    (m.shiftUp? h number above below).map Mark.ends = some m.ends := by
  have left : (if number < m.startLine then m.startLine - 1 else m.startLine) ≤
      if number ≤ m.endLine then m.endLine - 1 else m.endLine := by
    split <;> split <;> omega
  unfold Mark.shiftUp?
  simp only [start, stop, if_false, left, decide_true, real, Bool.not_false, Bool.and_self,
    if_true]
  rfl

theorem shiftUp?_first {above : Handle} {run : List Entry}
    (distinct : (Entry.handlesOf (x :: run)).Nodup)
    (ends : ends? (Entry.handlesOf (x :: run)) = some m.ends)
    (real : m.stop.isTop = false) (last : m.endLine = m.startLine + run.length)
    (positive : 1 ≤ m.startLine) :
    (m.shiftUp? x.handle m.startLine above ((run ++ bs).head?.map (·.handle))).map Mark.ends =
      ends? (Entry.handlesOf run) := by
  rw [Mark.ends, ends?_eq_some_iff, Entry.handlesOf_cons, List.head?_cons, Option.some_inj] at ends
  have ordered : m.startLine ≤ m.endLine := by omega
  unfold Mark.shiftUp?
  rw [if_pos ends.1.symm, if_neg (Nat.lt_irrefl _), if_pos ordered]
  cases run with
  | nil =>
    have gone : ¬ m.startLine ≤ m.endLine - 1 := by
      rw [last, List.length_nil]
      omega
    simp [gone, ends?]
  | cons y run =>
    have left : m.startLine ≤ m.endLine - 1 := by
      rw [last, List.length_cons]
      omega
    rw [Entry.handlesOf_cons, List.getLast?_cons_cons] at ends
    have stop : m.stop ≠ x.handle := by
      rintro same
      rw [Entry.handlesOf_cons, List.nodup_cons] at distinct
      exact distinct.1 (same ▸ List.mem_of_getLast? ends.2)
    simp only [stop, if_false, left, decide_true, real, Bool.not_false, Bool.and_self, if_true]
    exact (ends?_eq_some_iff.mpr ⟨rfl, ends.2⟩).symm

theorem shiftUp?_last {below : Option Handle} {run : List Entry}
    (ends : ends? (Entry.handlesOf (run ++ [x])) = some m.ends) (start : m.start ≠ x.handle)
    (real : ∀ y ∈ run, y.handle.isTop = false) (last : m.endLine = m.startLine + run.length)
    (positive : 1 ≤ m.startLine) :
    (m.shiftUp? x.handle m.endLine (((as ++ run).getLast?.map (·.handle)).getD .top) below).map
      Mark.ends = ends? (Entry.handlesOf run) := by
  rw [Mark.ends, ends?_eq_some_iff, Entry.handlesOf_append, Entry.handlesOf_cons,
    Entry.handlesOf_nil, List.getLast?_concat, Option.some_inj] at ends
  rcases List.eq_nil_or_concat' run with rfl | ⟨run, y, rfl⟩
  · exact absurd (Option.some.inj ends.1).symm start
  · have real := real y (by simp)
    have above : ((as ++ (run ++ [y])).getLast?.map (·.handle)).getD .top = y.handle := by
      rw [← List.append_assoc, List.getLast?_concat]
      rfl
    have ordered : ¬ m.endLine < m.startLine := by omega
    have left : m.startLine ≤ m.endLine - 1 := by
      rw [last, List.length_append, List.length_singleton]
      omega
    unfold Mark.shiftUp?
    rw [if_neg start, if_pos ends.2.symm, if_neg ordered, if_pos (Nat.le_refl _), above]
    simp only [left, decide_true, real, Bool.not_false, Bool.and_self, if_true]
    refine (ends?_eq_some_iff.mpr ⟨?_, ?_⟩).symm
    · rw [List.head?_append_of_ne_nil _ (by simp)] at ends
      exact ends.1
    · rw [Entry.handlesOf_append, Entry.handlesOf_cons, Entry.handlesOf_nil, List.getLast?_concat]

theorem Sound.shiftUp?_ends (sound : s.Sound (as ++ x :: bs)) (marked : s.mark = some m) :
    (m.shiftUp? x.handle (as.length + 1) ((as.getLast?.map (·.handle)).getD .top)
      (bs.head?.map (·.handle))).map Mark.ends = ends? (s.spanned.filter (· ≠ x.handle)) := by
  have sits := sound.mark m marked
  have here := Entry.at_split as x bs
  have distinct := sound.distinct
  rcases sound.spanned_split marked with ⟨cs, run, ds, same, spanned, ends, startLine, endLine⟩
  rw [spanned]
  have whole : (Entry.handlesOf cs ++ (Entry.handlesOf run ++ Entry.handlesOf ds)).Nodup := by
    rw [← Entry.handlesOf_append, ← Entry.handlesOf_append, ← same]
    exact distinct
  have own : (Entry.handlesOf run).Nodup := whole.of_append_right.of_append_left
  by_cases start : m.start = x.handle
  · rcases List.head?_eq_some_iff.mp (ends?_eq_some_iff.mp ends).1 with ⟨hs, starts⟩
    rcases List.map_eq_cons_iff.mp starts with ⟨y, run, rfl, first, rfl⟩
    rw [List.cons_append] at same
    rcases Entry.split_unique distinct same (first.trans start) with ⟨rfl, rfl, rfl⟩
    have last : m.endLine = m.startLine + run.length := by
      rw [startLine, endLine, List.length_cons]
      omega
    rw [← startLine, shiftUp?_first own ends (sound.real sits.stop.mem) last sits.start.1]
    have kept := @filter_ne_split [] (Entry.handlesOf run) x.handle own
    exact congrArg ends? kept.symm
  by_cases stop : m.stop = x.handle
  · rcases List.getLast?_eq_some_iff.mp (ends?_eq_some_iff.mp ends).2 with ⟨hs, stops⟩
    rcases List.map_eq_append_iff.mp stops with ⟨run, ys, rfl, rfl, alone⟩
    rcases List.map_eq_cons_iff.mp alone with ⟨y, none, rfl, last, empty⟩
    cases List.map_eq_nil_iff.mp empty
    rw [List.append_assoc, List.singleton_append, ← List.append_assoc] at same
    rcases Entry.split_unique distinct same (last.trans stop) with ⟨rfl, rfl, rfl⟩
    have number : (cs ++ run).length + 1 = m.endLine := by
      rw [endLine, List.length_append, List.length_append, List.length_singleton]
      omega
    have real : ∀ y ∈ run, y.handle.isTop = false := fun y mem =>
      sound.real (Entry.mem_handlesOf (by simp [mem]))
    have last : m.endLine = m.startLine + run.length := by
      rw [startLine, endLine, List.length_append, List.length_singleton]
      omega
    rw [number, shiftUp?_last ends start real last sits.start.1]
    rw [Entry.handlesOf_append] at own ⊢
    exact congrArg ends? ((filter_ne_split own).trans (List.append_nil _)).symm
  have apart : m.startLine ≠ as.length + 1 ∧ m.endLine ≠ as.length + 1 :=
    ⟨fun number => start (sits.start.handle_eq (number ▸ here)),
      fun number => stop (sits.stop.handle_eq (number ▸ here))⟩
  rw [Script.shiftUp?_ends sits.ordered (sound.real sits.stop.mem) start stop apart, ends?_filter ends]
  · rfl
  · simpa using start
  · simpa using stop

theorem Sound.markSpans_unlink (sound : s.Sound (as ++ x :: bs))
    (other : s.cursor.handle ≠ x.handle) :
    (s.unlink x.handle (as.length + 1)).MarkSpans
      (s.spanned.filter (· ∈ (s.unlink x.handle (as.length + 1)).handles)) := by
  have left := sound.unlink other
  have before : s.handles = Entry.handlesOf as ++ x.handle :: Entry.handlesOf bs := by
    rw [← Entry.handlesOf_cons, ← Entry.handlesOf_append]
    exact congrArg Entry.handlesOf sound.entries
  have after : (s.unlink x.handle (as.length + 1)).handles = s.handles.filter (· ≠ x.handle) := by
    have distinct := sound.distinct
    rw [Entry.handlesOf_append, Entry.handlesOf_cons] at distinct
    rw [before, filter_ne_split distinct, ← Entry.handlesOf_append]
    exact congrArg Entry.handlesOf left.entries
  have same : s.spanned.filter (· ∈ (s.unlink x.handle (as.length + 1)).handles) =
      s.spanned.filter (· ≠ x.handle) := by
    apply List.filter_congr
    intro h mem
    simp [after, mem_handles_of_mem_spanned mem]
  rw [same]
  apply left.markSpans_of_ends
  rw [sound.toLists.unlink]
  dsimp only
  cases marked : s.mark with
  | none =>
    rw [spanned, marked]
    rfl
  | some m => exact sound.shiftUp?_ends marked

theorem Sound.markSpans_delete {focus : Focus} {deleted : Bool} (sound : s.Sound es)
    (done : s.delete h focus = .ok (deleted, s')) :
    s'.MarkSpans (s.spanned.filter (· ∈ s'.handles)) := by
  rcases sound.delete_cases done with rfl | ⟨as, x, bs, h', n, rfl, moved, off, rfl⟩
  · exact sound.markSpans_kept sound (.of_eq rfl rfl)
  · exact moved.markSpans_unlink off

end Script

namespace Editor

variable {e e' : Editor}

theorem quiet_keptIn (s : Script) : Quiet fun e => e.InOrder ∧ s.KeptIn e.script where
  congr := fun ⟨inOrder, kept⟩ script config =>
    ⟨stable_inOrder.congr inOrder script config, script ▸ kept⟩
  attempt := by
    rintro e edited ⟨inOrder, kept⟩ edit done
    rcases inOrder.script.sound with ⟨es, sound⟩
    exact ⟨inOrder.attempt done, kept.trans ((atomic_changes sound).attempt done).kept⟩
  insertBelow := by
    rintro e text edited h ⟨inOrder, kept⟩ done accepted
    rcases inOrder.script.sound with ⟨es, sound⟩
    have grown := kept.trans ((atomic_changes sound).insert done).kept
    exact ⟨inOrder.insertBelow done accepted, grown.trans (.of_eq rfl rfl)⟩
  moveCursor := by
    rintro e count script ⟨inOrder, kept⟩ moved
    rcases inOrder.script.sound with ⟨es, sound⟩
    exact ⟨⟨inOrder.script.moveCursor moved, inOrder.room⟩,
      kept.trans (sound.moveCursor_keptIn moved)⟩
  setColumn := fun ⟨inOrder, kept⟩ column =>
    ⟨inOrder.mapScript fun kept => kept.setColumn column, kept.trans (.of_eq rfl rfl)⟩

theorem InOrder.markSpans_quiet {operations : List Operation} (inOrder : e.InOrder)
    (still : ∀ o ∈ operations, o.isQuiet = true)
    (done : operations.foldlM Editor.perform e = .ok e') :
    e'.script.MarkSpans (e.script.spanned.filter (· ∈ e'.script.handles)) := by
  have same : e.script.KeptIn e.script := .of_eq rfl rfl
  rcases (quiet_keptIn e.script).performAll ⟨inOrder, same⟩ still done with ⟨inOrder', kept⟩
  rcases inOrder.script.sound with ⟨es, sound⟩
  rcases inOrder'.script.sound with ⟨es', sound'⟩
  exact sound.markSpans_kept sound' kept

theorem InOrder.markSpans_delete {h : Handle} {focus : Focus} {deleted : Bool} {script : Script}
    (inOrder : e.InOrder) (done : e.script.delete h focus = .ok (deleted, script)) :
    script.MarkSpans (e.script.spanned.filter (· ∈ script.handles)) := by
  rcases inOrder.script.sound with ⟨es, sound⟩
  exact sound.markSpans_delete done

end Editor

namespace Session

variable {c : Config} {s s' : Session}

/-- Whether an operation sets no mark, loads no program and takes out no line but one that it
deletes. -/
def Operation.leavesMark : Operation → Bool
  | .edit (.delete ..) | .edit (.command .deleteLine) => true
  | operation => operation.isQuiet

/-- After every operation that does not set it, refused or not, the mark spans the lines from the
first to the last of those that it spanned and that are left. -/
theorem mark_follows {operation : Operation} (reached : Editor.Reachable c s.editor)
    (room : 5 ≤ c.maxSize) (leaves : operation.leavesMark = true)
    (done : s.serve operation = .ok s') :
    s'.editor.script.MarkSpans
      (s.editor.script.spanned.filter (· ∈ s'.editor.script.handles)) := by
  have inOrder := reached.inOrder room
  have quiet : operation.isQuiet = true → s'.editor.script.MarkSpans
      (s.editor.script.spanned.filter (· ∈ s'.editor.script.handles)) := by
    intro still
    rcases (serve_follows done).editor with ⟨operations, all, went⟩
    exact inOrder.markSpans_quiet (all still) went
  unfold Operation.leavesMark at leaves
  split at leaves
  next h focus =>
    obtain ⟨e, performed, rfl⟩ := map_eq_ok.mp done
    simp only [Editor.perform, Editor.mapScriptM_eq_ok] at performed
    obtain ⟨script, taken, rfl⟩ := performed
    obtain ⟨⟨deleted, script⟩, removed, rfl⟩ := map_eq_ok.mp taken
    exact inOrder.markSpans_delete removed
  next =>
    obtain ⟨e, performed, rfl⟩ := map_eq_ok.mp done
    obtain ⟨result, applied, rfl⟩ := map_eq_ok.mp performed
    obtain ⟨⟨deleted, script⟩, removed, same⟩ := bind_eq_ok.mp applied
    cases same
    exact inOrder.markSpans_delete removed
  next => exact quiet leaves

theorem mark_follows_deletion : ∃ s s' : Session, Editor.Reachable {} s.editor ∧
    s.serve (.edit (.delete ⟨1, 0⟩ .next)) = .ok s' ∧
    s.editor.script.spanned = [⟨1, 0⟩, ⟨2, 0⟩, ⟨3, 0⟩] ∧
    s'.editor.script.MarkSpans [⟨2, 0⟩, ⟨3, 0⟩] := by
  have ran : ([.load [0xFF, 1, 47, 1, 1, 47, 1, 1, 47, 1, 0], .placeMark .start, .gotoLine 3,
      .placeMark .stop].foldlM Editor.perform (Editor.new {})).bind (fun e =>
        (e.perform (.delete ⟨1, 0⟩ .next)).map fun e' => (e.script.spanned, e'.script.handles)) =
      .ok ([⟨1, 0⟩, ⟨2, 0⟩, ⟨3, 0⟩], [⟨2, 0⟩, ⟨3, 0⟩]) := by
    decide +kernel
  rcases bind_eq_ok.mp ran with ⟨e, marked, taken⟩
  rcases map_eq_ok.mp taken with ⟨e', deleted, same⟩
  rcases Prod.mk.inj same with ⟨spanned, left⟩
  have reached : Editor.Reachable {} e := Editor.Reachable.new.performAll marked
  have done : Session.serve { opened [] .unavailable with editor := e }
      (.edit (.delete ⟨1, 0⟩ .next)) = .ok { opened [] .unavailable with editor := e' } :=
    serve_edit deleted
  have survivors : e.script.spanned.filter (· ∈ e'.script.handles) = [⟨2, 0⟩, ⟨3, 0⟩] := by
    rw [spanned, left]
    decide
  have follows := mark_follows reached (by decide) rfl done
  exact ⟨_, _, reached, done, spanned, survivors ▸ follows⟩

end Session

end RobotScript
