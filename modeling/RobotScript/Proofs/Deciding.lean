import RobotScript.Proofs.Capacity
import RobotScript.Proofs.StayInStep
import RobotScript.Proofs.Utf8
import RobotScript.Proofs.Ways
/-!
Deciding on the lines that do not compile. They are all shown as they stand before the first decision
is applied, and then one decision is applied after the other. So a remark has to fit in with the lines
above it as they have been decided and with the lines below it as they were.
-/
namespace RobotScript

theorem Entry.map_setLine_split {as bs : List Entry} {x : Entry}
    (distinct : (handlesOf (as ++ x :: bs)).Nodup) (line : Line) :
    ((as ++ x :: bs).map fun y => if y.handle = x.handle then { y with line } else y) =
      as ++ ⟨x.handle, line⟩ :: bs := by
  have others : ∀ es : List Entry, (∀ y ∈ es, y.handle ≠ x.handle) →
      (es.map fun y => if y.handle = x.handle then { y with line } else y) = es := by
    intro es differ
    exact (List.map_congr_left fun y mem => if_neg (differ y mem)).trans (List.map_id es)
  rw [List.map_append, List.map_cons, if_pos rfl, others as (before_ne distinct),
    others bs (behind_ne distinct)]

namespace Script

structure Displays (s : Script) (es : List Entry) : Prop where
  entries : s.entries = es
  distinct : (Entry.handlesOf es).Nodup
  found : ∀ x ∈ es, s.get? x.handle = some x.line
  fits : ∀ x ∈ es, x.line.InStep
  size : s.totalSize = Entry.sizeOf es

variable {s : Script} {es as bs : List Entry} {x : Entry}

theorem Lists.displays (lists : s.Lists es) (fits : ∀ x ∈ s.entries, x.line.InStep) :
    s.Displays es where
  entries := lists.entries
  distinct := lists.distinct
  found := by
    intro x mem
    rcases List.append_of_mem mem with ⟨as, bs, rfl⟩
    exact lists.get?_split
  fits := lists.entries ▸ fits
  size := lists.size

theorem Weightless.displays (weightless : s.Weightless) (ends : s.endless = false)
    (fits : ∀ x ∈ s.entries, x.line.InStep) : s.Displays s.entries where
  entries := rfl
  distinct := Links.nodup_below_top ends
  found := fun _ mem => Links.get?_eq_some_iff.mpr (Links.mem_held_of_mem_below mem)
  fits := fits
  size := by
    rw [weightless.balanced.size, Entry.sizeOf_eq_zero weightless.lines.all]
    exact (Entry.sizeOf_eq_zero fun x mem =>
      weightless.lines.all x (Links.mem_held_of_mem_below mem)).symm

theorem lineAt?_eq_some_iff_at (ends : s.endless = false) {n : Nat} {h : Handle} :
    s.lineAt? n = some h ↔ Entry.At s.entries n h := by
  have placed := Links.getElem?_below_top ends (n - 1)
  unfold lineAt? Entry.At Entry.handlesOf
  split
  next zero => simp [zero]
  next positive =>
    rw [Links.getElem?_walk, if_pos (Nat.sub_one_lt positive), List.getElem?_map]
    unfold Script.entries
    rw [placed]
    change (s.links.placeAfter s.links.first (n - 1)).filter s.contains = some h ↔ _
    cases s.links.placeAfter s.links.first (n - 1) with
    | none => simp
    | some k =>
      have counted : 1 ≤ n := Nat.pos_of_ne_zero positive
      cases found : s.links.get? k <;>
        simp [Option.filter_some, Links.entryAt?, contains, Script.get?, found, counted]

theorem Displays.setLine (displays : s.Displays (as ++ x :: bs)) {line : Line}
    (fit : line.InStep) : (s.setLine x.handle line).Displays (as ++ ⟨x.handle, line⟩ :: bs) := by
  have current := displays.found x (by simp)
  have written : s.setLine x.handle line = { s with
      links := s.links.setLine x.handle line
      totalSize := s.totalSize - x.line.size + line.size } := by
    unfold Script.setLine
    rw [current]
  rw [written]
  have row := Entry.map_setLine_split displays.distinct line
  refine ⟨?_, ?_, ?_, ?_, ?_⟩
  · unfold Script.entries
    rw [Links.below_setLine, ← row]
    exact congrArg _ displays.entries
  · have distinct := displays.distinct
    rw [Entry.handlesOf_append, Entry.handlesOf_cons] at distinct ⊢
    exact distinct
  · intro y mem
    unfold Script.get?
    rcases List.mem_map.mp (row ▸ mem) with ⟨z, there, rfl⟩
    have before : s.links.get? z.handle = some z.line := displays.found z there
    have handle : (if z.handle = x.handle then { z with line } else z).handle = z.handle := by
      split <;> rfl
    rw [Links.get?_setLine_eq_map, handle, before, Option.map_some]
    split <;> rfl
  · have others := displays.fits
    simp only [List.mem_append, List.mem_cons] at others ⊢
    rintro y (mem | rfl | mem)
    · exact others y (.inl mem)
    · exact fit
    · exact others y (.inr (.inr mem))
  · have size := displays.size
    rw [Entry.sizeOf_append, Entry.sizeOf_cons] at size ⊢
    dsimp only
    omega

end Script

structure InvalidLine.Shows (l : InvalidLine) (number : Nat) (x : Entry) : Prop where
  handle : l.handle = x.handle
  number : l.number = number
  line : x.line = .invalid l.text l.disposition
  error : l.error = Editor.reasonFor l.text

/-- What a decision makes of a line that is shown, with the remark that its text is cut to, and
whether there is room for that. -/
inductive InvalidLine.Becomes (l : InvalidLine) (remark : String) (room : Prop) :
    Option Disposition → Line → Prop
  | undecided : Becomes l remark room none (.invalid l.text l.disposition)
  | kept : Becomes l remark room (some l.disposition) (.invalid l.text l.disposition)
  | leftOut {d : Disposition} : d ≠ .comment → Becomes l remark room (some d) (.invalid l.text d)
  | remark : l.disposition ≠ .comment → room →
    Becomes l remark room (some .comment) (.invalid remark .comment)
  | noRoom : l.disposition ≠ .comment → ¬ room →
    Becomes l remark room (some .comment) (.invalid l.text l.disposition)

namespace Editor

variable {c : Config} {e e' e'' : Editor} {es es' as bs : List Entry} {x : Entry} {h : Handle}
  {hs ks : List Handle} {l : InvalidLine} {i : Nat}

structure Spares (e : Editor) (hs : List Handle) (e' : Editor) : Prop where
  script : e.script.Spares hs e'.script
  capacity : e'.script.capacity = e.script.capacity
  cursor : e'.script.cursor = e.script.cursor
  rest : e' = { e with script := e'.script }

theorem spares_refl (e : Editor) (hs : List Handle) : e.Spares hs e :=
  ⟨Script.spares_refl _ _, rfl, rfl, rfl⟩

theorem Spares.append (first : e.Spares hs e') (second : e'.Spares ks e'') :
    e.Spares (hs ++ ks) e'' where
  script := first.script.append second.script
  capacity := second.capacity.trans first.capacity
  cursor := second.cursor.trans first.cursor
  rest := by rw [second.rest, first.rest]

theorem spares_setLine (e : Editor) (h : Handle) (line : Line) : e.Spares [h] (e.setLine h line) where
  script := e.script.spares_setLine h line
  capacity := Script.capacity_setLine _ _ _
  cursor := by
    unfold setLine Script.setLine
    dsimp only
    split <;> rfl
  rest := rfl

/-! ### What is shown -/

def shown? (place : Entry × Nat) : Option InvalidLine :=
  place.1.line.validity.disposition?.map fun d =>
    ⟨place.1.handle, place.2 + 1, place.1.line.text, d, reasonFor place.1.line.text⟩

theorem invalidLines_eq (e : Editor) : e.invalidLines = e.script.entries.zipIdx.filterMap shown? := rfl

theorem shown?_eq_some_iff (fits : x.line.InStep) :
    shown? (x, i) = some l ↔ l.Shows (i + 1) x := by
  rcases x with ⟨h, line⟩
  cases fits with
  | compiled =>
    exact iff_of_false (fun same => by cases same) fun shows => by
      have standing := congrArg Line.validity shows.line
      cases standing
  | @invalid text d =>
    constructor
    · intro same
      cases same
      exact ⟨rfl, rfl, rfl, rfl⟩
    · rintro ⟨handle, number, line, error⟩
      rcases l with ⟨h', number', text', d', error'⟩
      dsimp only at handle number line error
      cases congrArg Line.text line
      cases congrArg Line.validity line
      subst handle number error
      rfl

theorem pairwise_invalidLines (e : Editor) : e.invalidLines.Pairwise (·.number < ·.number) := by
  have number : ∀ {place : Entry × Nat} {l : InvalidLine}, shown? place = some l →
      l.number = place.2 + 1 := by
    intro place l shown
    rcases Option.map_eq_some_iff.mp shown with ⟨d, -, rfl⟩
    rfl
  rw [invalidLines_eq, List.pairwise_filterMap]
  have places : e.script.entries.zipIdx.Pairwise (·.2 < ·.2) := by
    rw [← List.pairwise_map, List.zipIdx_map_snd]
    exact List.pairwise_lt_range'
  refine places.imp ?_
  intro a b less l first l' second
  rw [number first, number second]
  exact Nat.succ_lt_succ less

theorem mem_invalidLines_iff (displays : e.script.Displays es) :
    l ∈ e.invalidLines ↔ ∃ i x, es[i]? = some x ∧ l.Shows (i + 1) x := by
  rw [invalidLines_eq, displays.entries, List.mem_filterMap]
  constructor
  · rintro ⟨⟨x, i⟩, mem, shown⟩
    have located := List.mem_zipIdx_iff_getElem?.mp mem
    have fits := displays.fits x (List.mem_of_getElem? located)
    exact ⟨i, x, located, (shown?_eq_some_iff fits).mp shown⟩
  · rintro ⟨i, x, located, shows⟩
    have fits := displays.fits x (List.mem_of_getElem? located)
    exact ⟨(x, i), List.mem_zipIdx_iff_getElem?.mpr located, (shown?_eq_some_iff fits).mpr shows⟩

theorem mem_invalidLines_iff_stands (displays : e.script.Displays es)
    (placed : ∀ n h, e.script.lineAt? n = some h ↔ Entry.At es n h) :
    l ∈ e.invalidLines ↔ e.script.lineAt? l.number = some l.handle ∧
      e.script.get? l.handle = some (.invalid l.text l.disposition) ∧ l.error = reasonFor l.text := by
  rw [mem_invalidLines_iff displays, placed]
  unfold Entry.At Entry.handlesOf
  constructor
  · rintro ⟨i, x, located, shows⟩
    have current := displays.found x (List.mem_of_getElem? located)
    rw [shows.number, shows.handle, Nat.add_sub_cancel, List.getElem?_map, located, current,
      shows.line]
    exact ⟨⟨Nat.succ_pos i, rfl⟩, rfl, shows.error⟩
  · rintro ⟨⟨positive, stands⟩, current, error⟩
    rw [List.getElem?_map] at stands
    rcases Option.map_eq_some_iff.mp stands with ⟨x, located, same⟩
    have found := displays.found x (List.mem_of_getElem? located)
    rw [same, current] at found
    exact ⟨l.number - 1, x, located, same.symm, by omega, (Option.some.inj found).symm, error⟩

/-! ### What is decided -/

theorem setDisposition_comment {text : String} {prior : Disposition}
    (current : e.script.get? h = some (.invalid text prior)) :
    e.setDisposition h .comment =
      match e.script.checkCapacity (Line.invalid text prior).size
        (Line.commentSize (Text.cut Line.maxCommentText text)) with
      | .ok () => ⟨.ok (.invalid .comment),
          e.setLine h (.invalid (Text.cut Line.maxCommentText text) .comment)⟩
      | .error err => ⟨.error err, e⟩ := by
  unfold setDisposition
  rw [current]
  rfl

theorem setDisposition_leftOut {text : String} {prior d : Disposition}
    (current : e.script.get? h = some (.invalid text prior)) (leftOut : d ≠ .comment) :
    e.setDisposition h d = ⟨.ok (.invalid d), e.setLine h (.invalid text d)⟩ := by
  unfold setDisposition
  rw [current]
  cases d with
  | comment => contradiction
  | ignore | delete => rfl

theorem applyDecision_becomes (decide : InvalidLine → Option Disposition)
    (current : e.script.get? l.handle = some (.invalid l.text l.disposition)) :
    ∃ line, l.Becomes (Text.cut Line.maxCommentText l.text)
        (e.script.programSize - (Line.invalid l.text l.disposition).size +
          Line.commentSize (Text.cut Line.maxCommentText l.text) ≤ e.script.capacity)
        (decide l) line ∧
      (applyDecision decide e l = e ∧ line = .invalid l.text l.disposition ∨
        applyDecision decide e l = e.setLine l.handle line) := by
  unfold applyDecision
  cases decide l with
  | none => exact ⟨_, .undecided, .inl ⟨rfl, rfl⟩⟩
  | some d =>
    dsimp only
    split
    next same =>
      rw [same]
      exact ⟨_, .kept, .inl ⟨rfl, rfl⟩⟩
    next other =>
      by_cases comment : d = .comment
      · rw [comment] at other ⊢
        rw [setDisposition_comment current, ← Script.checkCapacity_eq_ok_iff]
        split
        next room => exact ⟨_, .remark (Ne.symm other) room, .inr rfl⟩
        next err full =>
          refine ⟨_, .noRoom (Ne.symm other) ?_, .inl ⟨rfl, rfl⟩⟩
          rw [full]
          exact fun enough => by cases enough
      · rw [setDisposition_leftOut current comment]
        exact ⟨_, .leftOut comment, .inr rfl⟩

theorem inStep_of_becomes {room : Prop} {d : Option Disposition} {line : Line}
    (becomes : l.Becomes (Text.cut Line.maxCommentText l.text) room d line)
    (fits : (Line.invalid l.text l.disposition).InStep) : line.InStep := by
  rcases fits.eq_invalid rfl with ⟨-, written, short⟩
  have short : Text.size l.text ≤ Line.maxText := Nat.le_trans short (Line.longest_le _)
  cases becomes with
  | undecided | kept | noRoom => exact fits
  | @leftOut d leftOut =>
    cases d with
    | comment => contradiction
    | ignore | delete => exact .invalid written short
  | remark => exact .invalid (Text.cut_ne_empty (by decide) written) (Text.size_cut_le _ _)

theorem applyDecision_spares (decide : InvalidLine → Option Disposition) (e : Editor)
    (l : InvalidLine) : e.Spares [l.handle] (applyDecision decide e l) := by
  unfold applyDecision
  split
  · exact spares_refl e _
  next d _ =>
    split
    · exact spares_refl e _
    · rcases setDisposition_cases e l.handle d with ⟨err, same⟩ | same | ⟨_, line, -, -, -, same⟩
      · rw [same]
        exact spares_refl e _
      · rw [same]
        exact spares_refl e _
      · rw [same]
        exact e.spares_setLine l.handle line

theorem applyDecisions_spare (decide : InvalidLine → Option Disposition) (ls : List InvalidLine)
    (e : Editor) : e.Spares (ls.map (·.handle)) (ls.foldl (applyDecision decide) e) := by
  induction ls generalizing e with
  | nil => exact spares_refl e _
  | cons l ls ih => exact (applyDecision_spares decide e l).append (ih _)

theorem applyDecision_displays (decide : InvalidLine → Option Disposition)
    (displays : e.script.Displays (as ++ x :: bs)) (shows : l.Shows (as.length + 1) x) :
    ∃ line, l.Becomes (Text.cut Line.maxCommentText l.text)
        (Script.framing + Entry.sizeOf as + Line.commentSize (Text.cut Line.maxCommentText l.text) +
          Entry.sizeOf bs ≤ e.script.capacity) (decide l) line ∧
      (applyDecision decide e l).script.Displays (as ++ ⟨x.handle, line⟩ :: bs) := by
  have current := displays.found x (by simp)
  rw [← shows.handle, shows.line] at current
  rcases applyDecision_becomes decide current with ⟨line, becomes, changed⟩
  have others : e.script.programSize - (Line.invalid l.text l.disposition).size =
      Script.framing + Entry.sizeOf as + Entry.sizeOf bs := by
    rw [Script.programSize, displays.size, Entry.sizeOf_append, Entry.sizeOf_cons, shows.line]
    omega
  rw [others, Nat.add_right_comm] at becomes
  refine ⟨line, becomes, ?_⟩
  rcases changed with ⟨same, kept⟩ | written
  · rw [same, kept, ← shows.line]
    exact displays
  · rw [written, shows.handle]
    have fits := displays.fits x (by simp)
    rw [shows.line] at fits
    exact displays.setLine (inStep_of_becomes becomes fits)

/-- Whether the entries below some others come to what is decided on them. Those above stay as they
have been decided, and each finds those below it as they were. -/
def Decided (capacity : Nat) (decide : InvalidLine → Option Disposition) (as es es' : List Entry) :
    Prop :=
  ∀ (i : Nat) (x : Entry) (l : InvalidLine), es[i]? = some x → l.Shows (as.length + i + 1) x →
    ∃ line, es'[i]? = some ⟨x.handle, line⟩ ∧ l.Becomes (Text.cut Line.maxCommentText l.text)
      (Script.framing + Entry.sizeOf (as ++ es'.take i) +
        Line.commentSize (Text.cut Line.maxCommentText l.text) + Entry.sizeOf (es.drop (i + 1)) ≤
          capacity) (decide l) line

theorem Decided.cons {capacity : Nat} {decide : InvalidLine → Option Disposition} {y : Entry}
    (here : ∀ l : InvalidLine, l.Shows (as.length + 1) x → ∃ line, y = ⟨x.handle, line⟩ ∧
      l.Becomes (Text.cut Line.maxCommentText l.text) (Script.framing + Entry.sizeOf as +
        Line.commentSize (Text.cut Line.maxCommentText l.text) + Entry.sizeOf es ≤ capacity)
        (decide l) line)
    (below : Decided capacity decide (as ++ [y]) es es') :
    Decided capacity decide as (x :: es) (y :: es') := by
  intro i z l located shows
  cases i with
  | zero =>
    cases located
    rcases here l shows with ⟨line, rfl, becomes⟩
    rw [← List.append_nil as] at becomes
    exact ⟨line, rfl, becomes⟩
  | succ i =>
    have number : as.length + (i + 1) + 1 = (as ++ [y]).length + i + 1 := by
      rw [List.length_append, List.length_singleton]
      omega
    rw [number] at shows
    have line := below i z l located shows
    rwa [List.append_assoc] at line

theorem applyDecisions_display (decide : InvalidLine → Option Disposition)
    (displays : e.script.Displays (as ++ es)) :
    ∃ es', Decided e.script.capacity decide as es es' ∧
      (((es.zipIdx as.length).filterMap shown?).foldl (applyDecision decide) e).script.Displays
        (as ++ es') := by
  induction es generalizing as e with
  | nil =>
    refine ⟨[], ?_, displays⟩
    intro i x l located
    cases located
  | cons x es ih =>
    have split : ∀ (y : Entry) (bs : List Entry), as ++ y :: bs = (as ++ [y]) ++ bs := by simp
    have next : ∀ y : Entry, as.length + 1 = (as ++ [y]).length := by simp
    have fits := displays.fits x (by simp)
    rw [List.zipIdx_cons]
    cases shown : shown? (x, as.length) with
    | none =>
      rw [List.filterMap_cons_none shown, next x]
      rw [split] at displays
      rcases ih displays with ⟨es', decided, after⟩
      refine ⟨x :: es', .cons ?_ decided, split x es' ▸ after⟩
      intro l shows
      rw [(shown?_eq_some_iff fits).mpr shows] at shown
      cases shown
    | some first =>
      rcases applyDecision_displays decide displays ((shown?_eq_some_iff fits).mp shown) with
        ⟨line, becomes, written⟩
      rw [List.filterMap_cons_some shown, List.foldl_cons, next ⟨x.handle, line⟩]
      rw [split] at written
      rcases ih written with ⟨es', decided, after⟩
      rw [(applyDecision_spares decide e first).capacity] at decided
      refine ⟨⟨x.handle, line⟩ :: es', .cons ?_ decided, split ⟨x.handle, line⟩ es' ▸ after⟩
      intro l shows
      rw [(shown?_eq_some_iff fits).mpr shows] at shown
      cases shown
      exact ⟨line, rfl, becomes⟩

/-- Each line on a way with an end is shown once, at its number. -/
theorem Reachable.displays (reached : Reachable c e) (ends : e.script.endless = false) :
    ∃ es, e.script.Displays es ∧ ∀ n h, e.script.lineAt? n = some h ↔ Entry.At es n h := by
  have fits : ∀ x ∈ e.script.entries, x.line.InStep := fun x mem =>
    reached.inStep_of_mem_lines (List.mem_map_of_mem mem)
  rcases reached.within with ⟨bound, within⟩
  rcases within.kind with ⟨es, sound⟩ | weightless
  · exact ⟨es, sound.toLists.displays fits, fun _ _ => sound.toLists.lineAt?_eq_some_iff⟩
  · exact ⟨_, weightless.displays ends fits, fun _ _ => Script.lineAt?_eq_some_iff_at ends⟩

theorem Reachable.exists_lists (reached : Reachable c e) (room : 5 ≤ c.maxSize) :
    ∃ es, e.script.Lists es := by
  rcases reached.within with ⟨bound, within⟩
  rcases within.kind with ⟨es, sound⟩ | weightless
  · exact ⟨es, sound.toLists⟩
  · have full := weightless.full
    rw [within.capacity_eq] at full
    omega

theorem validateAll_eq_ok_iff {decide : InvalidLine → Option Disposition} {done : Nat × Editor} :
    e.validateAll decide = .ok done ↔ e.script.endless = false ∧
      done = ((e.invalidLines.foldl (applyDecision decide) e).unresolvedCount,
        e.invalidLines.foldl (applyDecision decide) e) := by
  unfold validateAll Script.throughLines
  cases e.script.endless <;> simp [eq_comm]

/-- Where there is room for a blank line, all lines have numbers and are gone through. The lines that do
not compile are shown in order and at their numbers, and each comes to what is decided on it, unless
there is no room for it as a remark. Nothing else changes. -/
theorem Reachable.validateAll_decides (reached : Reachable c e)
    (decide : InvalidLine → Option Disposition) :
    (5 ≤ c.maxSize → (∃ done, e.validateAll decide = .ok done) ∧
      ∀ h, e.script.contains h = true → ∃ n, e.script.lineAt? n = some h) ∧
    ∀ remaining e', e.validateAll decide = .ok (remaining, e') →
      e.invalidLines.Pairwise (·.number < ·.number) ∧
      (∀ l, l ∈ e.invalidLines ↔ e.script.lineAt? l.number = some l.handle ∧
        e.script.get? l.handle = some (.invalid l.text l.disposition) ∧
        l.error = reasonFor l.text) ∧
      e.Spares (e.invalidLines.map (·.handle)) e' ∧
      (∀ l ∈ e.invalidLines, ∃ remark line, Text.IsLongest 236 l.text remark ∧
        e'.script.get? l.handle = some line ∧
        l.Becomes remark
          (Script.framing + Line.sizeOfAll (e'.script.lines.take (l.number - 1)) +
            Line.commentSize remark + Line.sizeOfAll (e.script.lines.drop l.number) ≤ c.maxSize)
          (decide l) line) ∧
      remaining = e'.script.lines.countP (·.validity == .invalid .ignore) := by
  constructor
  · intro room
    rcases reached.exists_lists room with ⟨es, lists⟩
    refine ⟨⟨_, validateAll_eq_ok_iff.mpr ⟨lists.endless, rfl⟩⟩, fun h there => ?_⟩
    rcases Entry.mem_handlesOf_iff.mp (lists.contains_iff.mp there) with ⟨x, mem, rfl⟩
    rcases List.append_of_mem mem with ⟨as, bs, rfl⟩
    exact ⟨_, lists.lineAt?_eq_some_iff.mpr (Entry.at_split as x bs)⟩
  intro remaining e' done
  rcases validateAll_eq_ok_iff.mp done with ⟨ends, ⟨⟩⟩
  rcases reached.displays ends with ⟨es, displays, placed⟩
  refine ⟨pairwise_invalidLines e, fun l => mem_invalidLines_iff_stands displays placed,
    applyDecisions_spare decide e.invalidLines e, ?_, rfl⟩
  have start : e.script.Displays ([] ++ es) := displays
  rcases applyDecisions_display decide start with ⟨es', decided, displays'⟩
  rw [← displays.entries, List.length_nil, ← invalidLines_eq] at displays'
  intro l offered
  rcases (mem_invalidLines_iff displays).mp offered with ⟨i, x, located, shows⟩
  rcases decided i x l located (by simpa using shows) with ⟨line, written, becomes⟩
  refine ⟨_, line, Text.isLongest_cut Line.maxCommentText l.text, ?_, ?_⟩
  · rw [shows.handle]
    exact displays'.found _ (List.mem_of_getElem? written)
  · have above : Line.sizeOfAll ((e.invalidLines.foldl (applyDecision decide) e).script.lines.take i) =
        Entry.sizeOf (es'.take i) := by
      rw [Script.lines, displays'.entries, ← List.map_take]
      rfl
    have below : Line.sizeOfAll (e.script.lines.drop (i + 1)) = Entry.sizeOf (es.drop (i + 1)) := by
      rw [Script.lines, displays.entries, ← List.map_drop]
      rfl
    rw [shows.number, Nat.add_sub_cancel, above, below, ← reached.capacity_eq]
    exact becomes

/-- A remark that is left out makes room for the next, and then there is none for a third. -/
theorem validateAll_decides_mixed : ∃ e e' : Editor, Reachable { maxSize := 14 } e ∧
    e.script.lines.map (fun l => (l.text, l.validity)) = [("zz", .invalid .comment), ("END", .valid),
      ("yy", .invalid .ignore), ("xx", .invalid .ignore)] ∧
    e.validateAll (fun l => some (if l.number = 1 then .delete else .comment)) = .ok (1, e') ∧
    e.Spares [⟨1, 0⟩, ⟨3, 0⟩, ⟨4, 0⟩] e' ∧
    e'.script.lines.map (fun l => (l.text, l.validity)) = [("zz", .invalid .delete), ("END", .valid),
      ("yy", .invalid .comment), ("xx", .invalid .ignore)] ∧
    e'.script.get? ⟨4, 0⟩ = some (.invalid "xx" .ignore) := by
  let choice := fun l : InvalidLine =>
    some (if l.number = 1 then Disposition.delete else Disposition.comment)
  let operations : List Operation := [.edit (.update ⟨1, 0⟩ "zz"),
    .edit (.setDisposition ⟨1, 0⟩ .comment), .edit (.insert ⟨1, 0⟩ .after "end"),
    .edit (.insert ⟨2, 0⟩ .after "yy"), .edit (.insert ⟨3, 0⟩ .after "xx")]
  let shown := fun s : Script => s.lines.map fun l => (l.text, l.validity)
  have offers : (operations.foldlM Editor.perform (.new { maxSize := 14 })).map
      (fun e => (shown e.script, e.invalidLines.map (·.handle), e.invalidLines.getLast?)) =
      .ok ([("zz", .invalid .comment), ("END", .valid), ("yy", .invalid .ignore),
        ("xx", .invalid .ignore)], [⟨1, 0⟩, ⟨3, 0⟩, ⟨4, 0⟩],
        some ⟨⟨4, 0⟩, 4, "xx", .ignore, reasonFor "xx"⟩) := by
    decide +kernel
  have decides : (operations.foldlM Editor.perform (.new { maxSize := 14 })).map
      (fun e => (e.validateAll choice).map fun done =>
        (done.1, shown done.2.script, Line.sizeOfAll (done.2.script.lines.take 3))) =
      .ok (.ok (1, [("zz", .invalid .delete), ("END", .valid), ("yy", .invalid .comment),
        ("xx", .invalid .ignore)], 10)) := by
    decide +kernel
  rcases map_eq_ok.mp offers with ⟨e, built, outcome⟩
  simp only [Prod.mk.injEq] at outcome
  rcases outcome with ⟨before, handles, third⟩
  rw [built] at decides
  rcases map_eq_ok.mp (Except.ok.inj decides) with ⟨⟨remaining, e'⟩, done, outcome⟩
  simp only [Prod.mk.injEq] at outcome
  rcases outcome with ⟨rfl, after, above⟩
  have reached : Reachable { maxSize := 14 } e := Reachable.new.performAll built
  rcases (reached.validateAll_decides choice).2 _ _ done with ⟨-, -, spared, decided, -⟩
  rcases decided _ (List.mem_of_getLast? third) with ⟨remark, line, longest, found, becomes⟩
  have decision : choice ⟨⟨4, 0⟩, 4, "xx", .ignore, reasonFor "xx"⟩ = some .comment := rfl
  rw [decision, longest.eq_of_size_le (by decide)] at becomes
  refine ⟨e, e', reached, before, done, handles ▸ spared, after, ?_⟩
  cases becomes with
  | leftOut other => exact absurd rfl other
  | remark _ room =>
    have least : Script.framing + 10 + Line.commentSize "xx" = 19 := by decide
    dsimp only at room
    rw [above] at room
    omega
  | noRoom => exact found

/-- Without room for a blank line the cursor may stay on a line that is taken out, and a line that is
put in below it is linked to no other: it is there and waits for a decision, but is not shown. -/
theorem validateAll_misses : ∃ e e' : Editor, Reachable { maxSize := 4 } e ∧
    e.script.lineCount = 3 ∧ e.script.cursor.handle = ⟨1, 1⟩ ∧
    e.script.currentLine? = some (.invalid "w" .ignore) ∧ ⟨1, 1⟩ ∉ e.invalidLines.map (·.handle) ∧
    e.validateAll (fun _ => none) = .ok (2, e') := by
  let operations : List Operation := [.edit (.insert .top .after "q"), .clearBlock,
    .placeMark .start, .edit (.insert ⟨1, 0⟩ .before "y"), .moveCursor (-1),
    .edit (.insert ⟨1, 0⟩ .before "z"), .moveCursor 2, .clearBlock, .command (.insertAfter "w")]
  have run : (operations.foldlM Editor.perform (.new { maxSize := 4 })).map
      (fun e => (e.script.lineCount, e.script.cursor.handle, e.script.currentLine?,
        e.invalidLines.map (·.handle), (e.validateAll fun _ => none).map (·.1))) =
      .ok (3, ⟨1, 1⟩, some (.invalid "w" .ignore), [⟨2, 0⟩, ⟨3, 0⟩], .ok 2) := by
    decide +kernel
  rcases map_eq_ok.mp run with ⟨e, done, shown⟩
  simp only [Prod.mk.injEq] at shown
  rcases shown with ⟨count, cursor, line, handles, decided⟩
  rcases map_eq_ok.mp decided with ⟨⟨remaining, e'⟩, validated, rfl⟩
  exact ⟨e, e', Reachable.new.performAll done, count, cursor, line, by rw [handles]; decide,
    validated⟩

/-- The lines may also come to be linked in a way that goes round, on which a line that does not
compile is come by again and again. -/
theorem validateAll_endless : ∃ e : Editor, Reachable { maxSize := 4 } e ∧ e.script.lineCount = 3 ∧
    (∀ h ∈ e.script.links.walk 3 e.script.first?,
      (e.script.get? h).map (·.validity) = some (.invalid .ignore)) ∧
    (∀ n, (e.script.links.walk n e.script.first?).length = n) ∧
    ∀ decide, e.validateAll decide = .error .endless := by
  let operations : List Operation := [.edit (.insert .top .after "q"), .clearBlock,
    .placeMark .stop, .edit (.insertAtCursor "y"), .moveCursor (-1),
    .edit (.insert ⟨1, 0⟩ .before "z"), .moveCursor 1, .edit (.insert ⟨3, 0⟩ .after "w"),
    .placeMark .stop, .clearBlock]
  have run : (operations.foldlM Editor.perform (.new { maxSize := 4 })).map
      (fun e => (e.script.lineCount,
        (e.script.links.walk 3 e.script.first?).all fun h =>
          (e.script.get? h).map (·.validity) == some (.invalid .ignore), e.script.endless)) =
      .ok (3, true, true) := by
    decide +kernel
  rcases map_eq_ok.mp run with ⟨e, done, shown⟩
  simp only [Prod.mk.injEq] at shown
  rcases shown with ⟨count, waiting, round⟩
  refine ⟨e, Reachable.new.performAll done, count, ?_, Links.endless_iff.mp round, ?_⟩
  · intro h mem
    exact eq_of_beq (List.all_eq_true.mp waiting h mem)
  · intro decide
    unfold validateAll Script.throughLines
    rw [round]
    rfl

end Editor

end RobotScript
