import Mathlib.Logic.Relation
import RobotScript.Proofs.Editable
import RobotScript.Proofs.Leaves
/-!
How many bytes a program takes. The total is that of the lines that are held, so nothing is ever
taken from it that it does not have, and no operation but loading takes it past what the program may
take, or past what it took before. In a program without room for a blank line this holds for another
reason: once its lines are gone, no line that takes any bytes comes in again.
-/
namespace RobotScript

namespace Entry

variable {es as bs : List Entry} {x : Entry}

theorem sizeOf_perm (perm : as.Perm bs) : sizeOf as = sizeOf bs := by
  induction perm with
  | nil => rfl
  | cons x _ ih => rw [sizeOf_cons, sizeOf_cons, ih]
  | swap x y es => rw [sizeOf_cons, sizeOf_cons, sizeOf_cons, sizeOf_cons, Nat.add_left_comm]
  | trans _ _ first second => exact first.trans second

theorem size_le_sizeOf (mem : x ∈ es) : x.line.size ≤ sizeOf es := by
  rcases List.append_of_mem mem with ⟨as, bs, rfl⟩
  rw [sizeOf_append, sizeOf_cons]
  omega

theorem sizeOf_eq_zero (weightless : ∀ x ∈ es, x.line.size = 0) : sizeOf es = 0 := by
  induction es with
  | nil => rfl
  | cons x es ih =>
    rw [sizeOf_cons, weightless x List.mem_cons_self,
      ih fun y mem => weightless y (List.mem_cons_of_mem x mem)]

end Entry

namespace Script

variable {s s' : Script} {es : List Entry} {h : Handle} {old line : Line}

/-! ### The total -/

structure Balanced (s : Script) : Prop where
  holds : s.Holds fun _ => True
  size : s.totalSize = Entry.sizeOf s.links.held

theorem Lists.balanced (lists : s.Lists es) : s.Balanced where
  holds := lists.holds fun _ _ => trivial
  size := lists.size.trans (Entry.sizeOf_perm lists.held_perm.symm)

theorem Balanced.totalSize_eq (balanced : s.Balanced) (found : s.get? h = some line) :
    s.totalSize = line.size + Entry.sizeOf (s.links.held.filter (·.handle != h)) := by
  have mem := Links.get?_eq_some_iff.mp found
  rw [balanced.size, Entry.sizeOf_perm (Entry.perm_filter_ne s.links.nodup_held mem)]
  rfl

theorem Balanced.setLine (balanced : s.Balanced) (h : Handle) (line : Line) :
    (s.setLine h line).Balanced := by
  have holds : (s.setLine h line).Holds fun _ => True :=
    Holds.setLine (balanced.holds.mono fun _ _ _ => trivial) trivial
  refine ⟨holds, ?_⟩
  unfold Script.setLine
  split
  next => exact balanced.size
  next old found =>
    have mem := Links.get?_eq_some_iff.mp found
    have others : (s.links.held.filter (·.handle != h)).map
        (fun x => if x.handle = h then { x with line } else x) =
          s.links.held.filter (·.handle != h) := by
      conv_rhs => rw [← List.map_id (s.links.held.filter _)]
      apply List.map_congr_left
      intro x mem
      exact if_neg (by simpa using (List.mem_filter.mp mem).2)
    have written := Entry.sizeOf_perm ((Entry.perm_filter_ne s.links.nodup_held mem).map
      fun x => if x.handle = h then { x with line } else x)
    rw [List.map_cons, others, if_pos rfl, Entry.sizeOf_cons] at written
    dsimp only
    rw [Entry.sizeOf_perm (s.links.held_setLine h line), written, balanced.totalSize_eq found,
      Nat.add_sub_cancel_left, Nat.add_comm]

theorem Balanced.insertLine (balanced : s.Balanced) (anchor : Handle) (number? : Option Nat)
    (relation : Relation) (line : Line) :
    (s.insertLine anchor number? relation line).2.Balanced := by
  have holds := balanced.holds.insertLine anchor number? relation line
  rcases s.insertLine_cases anchor number? relation line with
    ⟨_, _, inserted, put, -, -, size, -⟩ | ⟨_, _, refused, links, -, -, size, -⟩
  · rw [inserted] at holds ⊢
    refine ⟨holds.mono fun _ _ => trivial, ?_⟩
    dsimp only
    rw [Entry.sizeOf_perm (Links.held_insert? balanced.holds.fresh put), size, balanced.size,
      Entry.sizeOf_cons, Nat.add_comm]
  · rw [refused] at holds ⊢
    refine ⟨holds, ?_⟩
    dsimp only
    rw [links, size, balanced.size]

theorem Balanced.unlink (balanced : s.Balanced) (h : Handle) (number : Nat) :
    (s.unlink h number).Balanced := by
  have holds : (s.unlink h number).Holds fun _ => True :=
    Holds.unlink (balanced.holds.mono fun _ _ _ => trivial) number
  refine ⟨holds, ?_⟩
  unfold Script.unlink
  split
  next line above found _ =>
    dsimp only
    rw [Entry.sizeOf_perm (s.links.held_erase h), balanced.totalSize_eq found,
      Nat.add_sub_cancel_left]
  next => exact balanced.size

theorem Balanced.unlinkSpan (balanced : s.Balanced) (start stop : Handle) :
    (s.unlinkSpan start stop).2.Balanced := by
  have before := Entry.sizeOf_perm (s.links.held_eraseSpan start stop)
  rw [← balanced.size, Entry.sizeOf_append] at before
  refine ⟨balanced.holds.unlinkSpan start stop, ?_⟩
  unfold Script.unlinkSpan
  dsimp only
  rw [before, Entry.sizeOf]
  omega

structure Solvent (s : Script) : Prop where
  line : ∀ h line, s.get? h = some line → line.size ≤ s.totalSize
  span : ∀ start stop,
    Line.sizeOfAll ((s.links.eraseSpan start stop).1.map (·.line)) ≤ s.totalSize
  lineCount : ∀ h line, s.get? h = some line → 1 ≤ s.lineCount
  spanCount : ∀ start stop, (s.links.eraseSpan start stop).1.length ≤ s.lineCount

theorem Balanced.solvent (balanced : s.Balanced) : s.Solvent where
  line := by
    intro h line found
    rw [balanced.size]
    exact Entry.size_le_sizeOf (x := ⟨h, line⟩) (Links.get?_eq_some_iff.mp found)
  span := by
    intro start stop
    have parts := Entry.sizeOf_perm (s.links.held_eraseSpan start stop)
    rw [Entry.sizeOf_append] at parts
    rw [balanced.size, parts]
    exact Nat.le_add_right _ _
  lineCount := by
    intro h line found
    rw [balanced.holds.counted]
    exact List.length_pos_of_mem (Links.get?_eq_some_iff.mp found)
  spanCount := by
    intro start stop
    rw [balanced.holds.counted, (s.links.held_eraseSpan start stop).length_eq, List.length_append]
    exact Nat.le_add_right _ _

theorem editable_balanced : Editable Balanced where
  look := by
    intro s s' balanced links lineCount pool size _
    refine ⟨balanced.holds.congr links lineCount pool, ?_⟩
    rw [links, size]
    exact balanced.size
  insertBlank := fun balanced _ _ _ _ => balanced.insertLine _ _ _ _
  insertEmpty := fun balanced _ _ _ => balanced.insertLine _ _ _ _
  setLine := fun balanced _ _ => balanced.setLine _ _
  restore := fun _ _ balanced => balanced.setLine _ _
  unlink := fun balanced _ _ => balanced.unlink _ _
  unlinkSpan := fun balanced _ _ => balanced.unlinkSpan _ _

inductive Change (s : Script) : Script → Prop where
  | look {s' : Script} : s'.links = s.links → s'.lineCount = s.lineCount → s'.pool = s.pool →
    s'.totalSize = s.totalSize → s'.capacity = s.capacity → Change s s'
  | insertLine (anchor : Handle) (number? : Option Nat) (relation : Relation) (line : Line) :
    Change s (s.insertLine anchor number? relation line).2
  | setLine (h : Handle) (line : Line) : Change s (s.setLine h line)
  | unlink (h : Handle) (number : Nat) : Change s (s.unlink h number)
  | unlinkSpan (start stop : Handle) : Change s (s.unlinkSpan start stop).2

/-- Whether such changes lead from one script to another, and nothing is taken from the total on the
way that it does not have. -/
def Reaches : Script → Script → Prop :=
  Relation.ReflTransGen fun s s' => s.Solvent ∧ s.Change s'

theorem editable_reaches (start : Script) :
    Editable fun s => s.Balanced ∧ start.Reaches s := by
  have step : ∀ {s s' : Script}, s.Balanced ∧ start.Reaches s → s'.Balanced → s.Change s' →
      s'.Balanced ∧ start.Reaches s' :=
    fun inv balanced change => ⟨balanced, inv.2.tail ⟨inv.1.solvent, change⟩⟩
  exact
    { look := fun inv links lineCount pool size capacity => step inv
        (editable_balanced.look inv.1 links lineCount pool size capacity)
        (.look links lineCount pool size capacity)
      insertBlank := fun inv _ _ _ _ => step inv (inv.1.insertLine _ _ _ _) (.insertLine ..)
      insertEmpty := fun inv _ _ _ => step inv (inv.1.insertLine _ _ _ _) (.insertLine ..)
      setLine := fun inv _ _ => step inv (inv.1.setLine _ _) (.setLine ..)
      restore := fun _ _ inv => step inv (inv.1.setLine _ _) (.setLine ..)
      unlink := fun inv _ _ => step inv (inv.1.unlink _ _) (.unlink ..)
      unlinkSpan := fun inv _ _ => step inv (inv.1.unlinkSpan _ _) (.unlinkSpan ..) }

theorem editable_capacity (n : Nat) : Editable (·.capacity = n) where
  toClosed := closed_capacity n
  insertEmpty := fun same _ _ _ => (capacity_insertLine _ _ _ _ _).trans same
  setLine := fun same _ _ => (capacity_setLine _ _ _).trans same
  restore := fun _ _ same => (capacity_setLine _ _ _).trans same

/-! ### Programs without room for a blank line -/

/-- Whether there is no room for a blank line, and all lines that are held take no bytes. -/
structure Weightless (s : Script) : Prop where
  full : s.capacity < 5
  balanced : s.Balanced
  lines : s.Holds (·.line.size = 0)

theorem Weightless.programSize_eq (weightless : s.Weightless) : s.programSize = 2 := by
  rw [programSize, weightless.balanced.size, Entry.sizeOf_eq_zero weightless.lines.all]
  rfl

theorem Weightless.size_of_admits (weightless : s.Weightless) (admitted : s.Admits old line)
    (light : old.size = 0) : line.size = 0 := by
  rcases admitted with light | ⟨heavy, room⟩
  · exact light
  · rw [checkCapacity_eq_ok_iff, weightless.programSize_eq, light] at room
    have full := weightless.full
    omega

theorem editable_weightless : Editable Weightless where
  look := by
    intro s s' weightless links lineCount pool size capacity
    exact ⟨capacity ▸ weightless.full,
      editable_balanced.look weightless.balanced links lineCount pool size capacity,
      weightless.lines.congr links lineCount pool⟩
  insertBlank := by
    intro s weightless room
    have admitted : s.Admits .empty .blank := .inr ⟨by decide, room⟩
    exact absurd (weightless.size_of_admits admitted rfl) (by decide)
  insertEmpty := by
    intro s weightless anchor number? relation
    refine ⟨?_, weightless.balanced.insertLine _ _ _ _, ?_⟩
    · rw [capacity_insertLine]
      exact weightless.full
    · have put := weightless.lines.insertLine anchor number? relation .empty
      split at put
      next inserted =>
        rw [inserted]
        exact put.mono fun x known => known.elim (fun same => same ▸ rfl) id
      next refused =>
        rw [refused]
        exact put
  setLine := by
    intro s h old line weightless found admitted
    have light := weightless.size_of_admits admitted (weightless.lines.of_get? found)
    refine ⟨?_, weightless.balanced.setLine h line, ?_⟩
    · rw [capacity_setLine]
      exact weightless.full
    · exact Holds.setLine (weightless.lines.mono fun _ known _ => known) light
  restore := by
    intro s s' h saved before found weightless
    refine ⟨?_, weightless.balanced.setLine h saved, ?_⟩
    · rw [capacity_setLine]
      exact weightless.full
    · exact Holds.setLine (weightless.lines.mono fun _ known _ => known)
        (before.lines.of_get? found)
  unlink := by
    intro s weightless h number
    refine ⟨?_, weightless.balanced.unlink h number, ?_⟩
    · rw [capacity_unlink]
      exact weightless.full
    · exact Holds.unlink (weightless.lines.mono fun _ known _ => known) number
  unlinkSpan := fun weightless start stop => ⟨weightless.full,
    weightless.balanced.unlinkSpan start stop, weightless.lines.unlinkSpan start stop⟩

/-! ### The bound -/

theorem programSize_insertLine_le (s : Script) (anchor : Handle) (number? : Option Nat)
    (relation : Relation) (line : Line) :
    (s.insertLine anchor number? relation line).2.programSize ≤ s.programSize + line.size := by
  unfold programSize
  rcases s.insertLine_cases anchor number? relation line with
    ⟨_, _, inserted, -, -, -, size, -⟩ | ⟨_, _, refused, -, -, -, size, -⟩
  · rw [inserted]
    dsimp only
    omega
  · rw [refused]
    dsimp only
    omega

theorem programSize_unlink_le (s : Script) (h : Handle) (number : Nat) :
    (s.unlink h number).programSize ≤ s.programSize := by
  unfold programSize unlink
  split
  · exact Nat.add_le_add_right (Nat.sub_le _ _) _
  · exact Nat.le_refl _

theorem closed_bound (bound : Nat) :
    Closed fun s => s.capacity ≤ bound ∧ s.programSize ≤ bound where
  look := by
    intro s s' within _ _ _ size capacity
    rw [capacity, programSize, size]
    exact within
  insertBlank := by
    intro s within room anchor number? relation
    rw [checkCapacity_eq_ok_iff] at room
    have grown := s.programSize_insertLine_le anchor number? relation .blank
    rw [capacity_insertLine]
    exact ⟨within.1, by omega⟩
  unlink := by
    intro s within h number
    rw [capacity_unlink]
    exact ⟨within.1, Nat.le_trans (s.programSize_unlink_le h number) within.2⟩
  unlinkSpan := by
    intro s within start stop
    refine ⟨within.1, Nat.le_trans ?_ within.2⟩
    exact Nat.add_le_add_right (Nat.sub_le _ _) _

theorem Admits.programSize_le (admitted : s.Admits old line) (covered : old.size ≤ s.totalSize) :
    s.totalSize - old.size + line.size + framing ≤ max s.capacity s.programSize := by
  unfold programSize
  rcases admitted with light | ⟨-, room⟩
  · omega
  · rw [checkCapacity_eq_ok_iff, programSize] at room
    omega

structure Within (capacity bound : Nat) (s : Script) : Prop where
  capacity_eq : s.capacity = capacity
  capacity_le : capacity ≤ bound
  size_le : s.programSize ≤ bound
  kind : (∃ es, s.Sound es) ∨ s.Weightless

variable {capacity bound : Nat}

theorem within_of_kind (same : s.capacity = capacity)
    (kind : (∃ es, s.Sound es) ∨ s.Weightless) :
    s.Within capacity (max capacity s.programSize) :=
  ⟨same, Nat.le_max_left _ _, Nat.le_max_right _ _, kind⟩

theorem Weightless.within (weightless : s.Weightless) (same : s.capacity = capacity)
    (room : capacity ≤ bound) (framed : 2 ≤ bound) : s.Within capacity bound :=
  ⟨same, room, weightless.programSize_eq ▸ framed, .inr weightless⟩

theorem Within.change (within : s.Within capacity bound)
    (closed : ∀ {P : Script → Prop}, Closed P → P s → P s')
    (kept : ∀ es, s.Sound es → (∃ es', s'.Sound es') ∨ s'.Weightless) :
    s'.Within capacity bound := by
  have inside := closed (closed_bound bound) ⟨within.capacity_eq ▸ within.capacity_le, within.size_le⟩
  refine ⟨closed (closed_capacity capacity) within.capacity_eq, within.capacity_le, inside.2, ?_⟩
  rcases within.kind with ⟨es, sound⟩ | weightless
  · exact kept es sound
  · exact .inr (closed editable_weightless.toClosed weightless)

theorem Lists.seed_kind (lists : s.Lists []) (unmarked : s.mark = none) :
    (∃ es, s.seed.Sound es) ∨ s.seed.Weightless := by
  by_cases room : 5 ≤ s.capacity
  · rcases lists.seed unmarked room with ⟨h, sound, -⟩
    exact .inl ⟨_, sound⟩
  · have weightless : s.Weightless :=
      ⟨by omega, lists.balanced, lists.holds fun x mem => by contradiction⟩
    exact .inr (editable_weightless.seed weightless)

theorem Sound.clearBlock_kind {removed : Nat} (sound : s.Sound es)
    (done : s.clearBlock = .ok (removed, s')) : (∃ es', s'.Sound es') ∨ s'.Weightless := by
  rcases sound.clearBlock_cases done with sound' | ⟨t, lists, unmarked, -, rfl⟩
  · exact .inl sound'
  · exact lists.seed_kind unmarked

theorem Restored.programSize_eq (restored : s.Restored es s') : s'.programSize = s.programSize := by
  rw [restored.same]
  rfl

end Script

namespace Editor

variable {c : Config} {e e' : Editor} {es : List Entry} {h : Handle} {prior line : Line}
  {text : String} {texts : List String} {lines : List Line}

theorem storedLine?_admits (stored : e.storedLine? prior text = some line) :
    e.script.Admits prior line := by
  unfold storedLine? at stored
  split at stored
  next =>
    cases stored
    exact e.admits_invalidLine _ _ _
  next made =>
    split at stored
    next =>
      cases stored
      exact e.admits_invalidLine _ _ _
    next =>
      split at stored
      next => contradiction
      next room =>
        cases stored
        exact .inr ⟨three_le_consumed (Line.decode_bytecode made), room⟩

theorem storedLines?_le {size last : Nat} (covered : prior.size ≤ size)
    (stored : e.storedLines? size prior texts = some (lines, last)) :
    last + Script.framing ≤ max e.script.capacity (size + Script.framing) := by
  induction texts generalizing size prior lines with
  | nil =>
    cases stored
    exact Nat.le_max_right _ _
  | cons text texts ih =>
    rcases storedLines?_cons_iff.mp stored with ⟨line, rest, first, others, -⟩
    have bound : size - prior.size + line.size + Script.framing ≤
        max e.script.capacity (size + Script.framing) :=
      (storedLine?_admits first).programSize_le covered
    have later := ih (Nat.zero_le _) others
    omega

theorem changes_bound (sound : e.script.Sound es) : Changes e fun edited =>
    edited.editor.script.programSize ≤ max e.script.capacity e.script.programSize where
  refused := fun _ => Nat.le_max_right _ _
  map := fun _ bound => bound
  setColumn := fun _ bound _ => bound
  update := by
    intro h text edited done
    cases result : edited.result with
    | error err =>
      rw [((update_atomic sound done).refused err result).programSize_eq]
      exact Nat.le_max_right _ _
    | ok outcome =>
      cases found : e.script.get? h with
      | none =>
        unfold update writeWith at done
        rw [found] at done
        cases done
        contradiction
      | some old =>
        have covered := sound.toLists.balanced.solvent.line h old found
        rcases sound.split_of_get? found with ⟨as, bs, rfl⟩
        rcases writeWith_stores e.levelsLeft sound rfl done result with
          ⟨line, new, -, texts, -, stored⟩
        exact storedLines?_le covered stored
  insertNumbered := by
    intro anchor number relation text edited numbered done
    have numbered : e.script.lineNumber? anchor = some number := by
      rcases numbered with numbered | ⟨rfl, rfl⟩
      · exact numbered
      · exact sound.lineNumber?_cursor
    have after := insertNumbered_cases sound numbered done
    cases result : edited.result with
    | error err =>
      rw [result] at after
      rw [after.programSize_eq]
      exact Nat.le_max_right _ _
    | ok place =>
      rw [result] at after
      rcases after with ⟨as, bs, _, _, rfl, gap, -⟩
      rcases insertWith_stores (writeWith_stores _) sound rfl gap done result with
        ⟨h, line, new, -, texts, -, stored⟩
      exact storedLines?_le (Nat.zero_le _) stored
  setDisposition := by
    intro h d
    rcases setDisposition_cases e h d with
      ⟨err, same⟩ | same | ⟨old, line, found, -, admitted, same⟩
    · rw [same]
      exact Nat.le_max_right _ _
    · rw [same]
      exact Nat.le_max_right _ _
    · have bound := admitted.programSize_le (sound.toLists.balanced.solvent.line h old found)
      rw [same]
      unfold Editor.setLine Script.setLine
      rw [found]
      exact bound
  insertBlank := by
    intro anchor relation result script inserted
    exact ((Script.closed_bound (max e.script.capacity e.script.programSize)).insertBlankLine
      ⟨Nat.le_max_left _ _, Nat.le_max_right _ _⟩ inserted).2

theorem config_changes (e : Editor) : Changes e fun edited => edited.editor.config = e.config where
  refused := fun _ => rfl
  map := fun _ same => same
  setColumn := fun _ same _ => same
  update := fun done => (writeWith_frame done).config
  insertNumbered := fun _ done => (insertWith_frame done).config
  setDisposition := by
    intro h d
    rcases setDisposition_cases e h d with ⟨err, same⟩ | same | ⟨old, line, -, -, -, same⟩
    · rw [same]
    · rw [same]
    · rw [same]
      rfl
  insertBlank := fun _ => rfl

structure Within (capacity bound : Nat) (e : Editor) : Prop where
  config : e.config.maxSize = capacity
  script : e.script.Within capacity bound

variable {capacity bound : Nat}

theorem Within.two_le (within : e.Within capacity bound) : 2 ≤ bound :=
  Nat.le_trans (Nat.le_add_left _ _) within.script.size_le

theorem Within.attempt {edit : Edit} {edited : Edited Unit} (within : e.Within capacity bound)
    (done : e.attempt edit = .ok edited) : edited.editor.Within capacity bound := by
  refine ⟨(congrArg Config.maxSize ((config_changes e).attempt done)).trans within.config, ?_⟩
  have same := within.script.capacity_eq
  rcases within.script.kind with ⟨es, sound⟩ | weightless
  · have atomic := (atomic_changes sound).attempt done
    have grown := (changes_bound sound).attempt done
    have fits := within.script.size_le
    have room := within.script.capacity_le
    exact ⟨atomic.capacity.trans same, room, by omega, .inl atomic.sound⟩
  · have kept := (changes_keep Script.editable_weightless weightless).attempt done
    have kept_capacity := (changes_keep (Script.editable_capacity capacity) same).attempt done
    exact kept.within kept_capacity within.script.capacity_le within.two_le

theorem Within.insertBelow {edited : Edited Handle} (within : e.Within capacity bound)
    (done : e.insert e.script.cursor.handle .after text = .ok edited)
    (accepted : edited.result = .ok h) :
    (edited.editor.mapScript
      (·.setCursor h (edited.editor.script.cursor.line + 1))).Within capacity bound := by
  refine ⟨(congrArg Config.maxSize ((config_changes e).insert done)).trans within.config, ?_⟩
  have same := within.script.capacity_eq
  rcases within.script.kind with ⟨es, sound⟩ | weightless
  · rcases sound_insertBelow sound done accepted with ⟨es', sound', kept_capacity⟩
    have grown := (changes_bound sound).insert done
    have fits := within.script.size_le
    have room := within.script.capacity_le
    exact ⟨kept_capacity.trans same, room, Nat.le_trans grown (by omega), .inl ⟨es', sound'⟩⟩
  · have kept := (changes_keep Script.editable_weightless weightless).insert done
    have kept_capacity := (changes_keep (Script.editable_capacity capacity) same).insert done
    exact (Script.editable_weightless.setCursor kept _ _).within kept_capacity
      within.script.capacity_le within.two_le

theorem Within.change {script : Script} (within : e.Within capacity bound)
    (closed : ∀ {P : Script → Prop}, Script.Closed P → P e.script → P script)
    (kept : ∀ es, e.script.Sound es → (∃ es', script.Sound es') ∨ script.Weightless) :
    ({ e with script } : Editor).Within capacity bound :=
  ⟨within.config, within.script.change closed kept⟩

theorem steady_within (capacity bound : Nat) : Steady (Within capacity bound) where
  congr := by
    intro e e' within script config
    refine ⟨config ▸ within.config, ?_⟩
    rw [script]
    exact within.script
  attempt := fun within _ done => within.attempt done
  insertBelow := fun within done accepted => within.insertBelow done accepted
  delete := fun within removed => within.change (fun closed inv => closed.delete inv removed)
    fun _ sound => .inl (sound.delete removed)
  moveCursor := fun within moved => within.change (fun closed inv => closed.moveCursor inv moved)
    fun _ sound => .inl (sound.of_moveCursor moved)
  setColumn := fun within column => within.change
    (fun closed inv => closed.setColumn inv column) fun es sound => .inl ⟨es, sound.setColumn column⟩
  placeMark := fun within endpoint => within.change
    (fun closed inv => closed.placeMark inv endpoint)
    fun es sound => .inl ⟨es, sound.placeMark endpoint⟩
  unmark := fun within => within.change (fun closed inv => closed.unmark inv)
    fun es sound => .inl ⟨es, sound.unmark⟩
  clearBlock := fun within cleared => within.change
    (fun closed inv => closed.clearBlock inv cleared) fun _ sound => sound.clearBlock_kind cleared

theorem kind_load (e : Editor) (program : Bytes) :
    (e.load program).script.capacity = e.config.maxSize ∧
      ((∃ es, (e.load program).script.Sound es) ∨ (e.load program).script.Weightless) := by
  rcases Script.lists_ofLines e.config.maxSize
    ((splitRecords (programBody program)).1.map lineOfRecord) with ⟨es, -, lists⟩
  unfold Editor.load
  dsimp only
  split
  next h first => exact ⟨rfl, .inl ⟨es, lists.start rfl first⟩⟩
  next first =>
    rw [lists.eq_nil_of_first? first] at lists
    exact ⟨(Script.closed_capacity _).seed rfl, lists.seed_kind rfl⟩

theorem kind_new (c : Config) : (Editor.new c).script.capacity = c.maxSize ∧
    ((∃ es, (Editor.new c).script.Sound es) ∨ (Editor.new c).script.Weightless) := by
  rcases Script.lists_ofLines c.maxSize [] with ⟨es, none, lists⟩
  rw [List.map_eq_nil_iff.mp none] at lists
  exact ⟨(Script.closed_capacity _).seed rfl, lists.seed_kind rfl⟩

theorem stable_within (capacity : Nat) : Stable fun e => ∃ bound, e.Within capacity bound where
  toSteady := Steady.exists_of_forall fun bound => steady_within capacity bound
  load := by
    rintro e ⟨bound, within⟩ program
    rcases kind_load e program with ⟨same, kind⟩
    exact ⟨_, within.config, Script.within_of_kind (same.trans within.config) kind⟩

theorem Reachable.within (reached : Reachable c e) :
    ∃ bound, e.script.Within c.maxSize bound := by
  rcases kind_new c with ⟨same, kind⟩
  rcases (stable_within c.maxSize).reachable ⟨_, rfl, Script.within_of_kind same kind⟩ reached with
    ⟨bound, within⟩
  exact ⟨bound, within.script⟩

theorem Reachable.capacity_eq (reached : Reachable c e) : e.script.capacity = c.maxSize := by
  rcases reached.within with ⟨_, within⟩
  exact within.capacity_eq

/-- No run of operations takes a program past what it may take, or past what it took at first, unless
one of them loads another program; and nothing is ever taken from the total that it does not have. -/
theorem Reachable.within_capacity {operations : List Operation} (reached : Reachable c e)
    (others : ∀ program, Operation.load program ∉ operations)
    (done : operations.foldlM Editor.perform e = .ok e') :
    e'.script.programSize ≤ max c.maxSize e.script.programSize ∧
      (e.script.programSize ≤ c.maxSize → e'.script.programSize ≤ c.maxSize) ∧
      e.script.Reaches e'.script ∧ e'.script.Solvent := by
  rcases kind_new c with ⟨same, kind⟩
  rcases (stable_within c.maxSize).reachable ⟨_, rfl, Script.within_of_kind same kind⟩ reached with
    ⟨_, config, within⟩
  have least : e.Within c.maxSize (max c.maxSize e.script.programSize) :=
    ⟨config, Script.within_of_kind within.capacity_eq within.kind⟩
  have bound := ((steady_within _ _).performAll least others done).script.size_le
  have balanced : e.script.Balanced := by
    rcases within.kind with ⟨es, sound⟩ | weightless
    · exact sound.toLists.balanced
    · exact weightless.balanced
  have path := (steady_keeps (Script.editable_reaches e.script)).performAll
    ⟨balanced, .refl⟩ others done
  refine ⟨bound, ?_, path.2, path.1.solvent⟩
  intro inside
  rwa [Nat.max_eq_left inside] at bound

theorem within_capacity_full : ∃ e' : Editor,
    [.edit (.update ⟨1, 0⟩ "wait 3"), .moveCursor 1].foldlM Editor.perform
      (.new { maxSize := 8 }) = .ok e' ∧
    e'.script.programSize = 8 ∧ e'.script.lineCount = 1 ∧
    e'.script.programSize ≤ max 8 (Editor.new { maxSize := 8 }).script.programSize := by
  have run : ([.edit (.update ⟨1, 0⟩ "wait 3"), .moveCursor 1].foldlM Editor.perform
      (.new { maxSize := 8 })).map (fun e => (e.script.programSize, e.script.lineCount)) =
        .ok (8, 1) := by
    decide +kernel
  rcases map_eq_ok.mp run with ⟨e', done, same⟩
  rcases Prod.mk.inj same with ⟨size, count⟩
  have bound := (Reachable.within_capacity (.new (c := { maxSize := 8 })) (by simp) done).1
  exact ⟨e', done, size, count, bound⟩

end Editor

end RobotScript
