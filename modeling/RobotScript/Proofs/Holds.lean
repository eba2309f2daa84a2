import RobotScript.Proofs.Closed
import RobotScript.Proofs.Held
import RobotScript.Proofs.Ownership
import RobotScript.Proofs.Sound
/-!
Properties of all lines of a script, in whatever way they are held together. Each change of a
script keeps such a property if the lines that it writes have it.
-/
namespace RobotScript

namespace HandlePool

theorem Owns.releaseAll {run : List Entry} {hs : List Handle} {p : HandlePool}
    (owns : p.Owns (Entry.handlesOf run ++ hs)) :
    (run.foldl (fun p e => p.release e.handle) p).Owns hs := by
  induction run generalizing p with
  | nil => exact owns
  | cons e run ih => exact ih (Owns.release owns)

end HandlePool

namespace Script

/-- The handles that a script uses are given out by its pool, its lines are counted, and all of them
have some property. -/
structure Holds (P : Entry → Prop) (s : Script) : Prop where
  owned : s.pool.Owns (Entry.handlesOf s.links.held)
  counted : s.lineCount = s.links.held.length
  all : ∀ x ∈ s.links.held, P x

variable {s : Script} {P Q : Entry → Prop} {h : Handle}

theorem Holds.mono (holds : s.Holds P) (weaker : ∀ x, P x → Q x) : s.Holds Q :=
  ⟨holds.owned, holds.counted, fun x mem => weaker x (holds.all x mem)⟩

theorem Holds.of_get? (holds : s.Holds P) {line : Line} (found : s.get? h = some line) :
    P ⟨h, line⟩ :=
  holds.all _ (Links.get?_eq_some_iff.mp found)

theorem Lists.held_perm {es : List Entry} (lists : s.Lists es) : s.links.held.Perm es := by
  rw [lists.links]
  exact Links.held_ofEntries lists.distinct

theorem Lists.holds {es : List Entry} (lists : s.Lists es) (all : ∀ x ∈ es, P x) : s.Holds P where
  owned := lists.owned.perm (Entry.handlesOf_perm lists.held_perm.symm)
  counted := lists.lineCount.trans lists.held_perm.length_eq.symm
  all := fun x mem => all x (lists.held_perm.mem_iff.mp mem)

theorem Holds.congr {s' : Script} (holds : s.Holds P) (links : s'.links = s.links)
    (lineCount : s'.lineCount = s.lineCount) (pool : s'.pool = s.pool) : s'.Holds P :=
  ⟨by rw [links, pool]; exact holds.owned, by rw [links, lineCount]; exact holds.counted,
    by rw [links]; exact holds.all⟩

theorem Holds.setLine (holds : s.Holds fun x => x.handle ≠ h → P x) {line : Line}
    (written : P ⟨h, line⟩) : (s.setLine h line).Holds P := by
  unfold Script.setLine
  split
  next absent =>
    have others := Links.get?_eq_none_iff.mp absent
    exact ⟨holds.owned, holds.counted, fun x mem => holds.all x mem (others x mem)⟩
  next old found =>
    have perm := s.links.held_setLine h line
    refine ⟨?_, ?_, ?_⟩
    · apply holds.owned.perm
      rw [← Links.handlesOf_map_setLine h line]
      exact Entry.handlesOf_perm perm.symm
    · rw [perm.length_eq, List.length_map]
      exact holds.counted
    intro x mem
    obtain ⟨y, before, rfl⟩ := List.mem_map.mp (perm.mem_iff.mp mem)
    split
    next same =>
      rw [← same] at written
      exact written
    next differs => exact holds.all y before differs

theorem Holds.fresh (holds : s.Holds P) : s.links.get? s.pool.allocate.1 = none := by
  have distinct := holds.owned.allocate.nodup
  rw [List.nodup_cons] at distinct
  exact Links.get?_eq_none_iff.mpr fun x mem same => distinct.1 (same ▸ Entry.mem_handlesOf mem)

theorem Holds.insertLine (holds : s.Holds P) (anchor : Handle) (anchorNumber? : Option Nat)
    (relation : Relation) (line : Line) :
    match s.insertLine anchor anchorNumber? relation line with
    | (.ok (h, _), s') => s'.Holds fun x => x = ⟨h, line⟩ ∨ P x
    | (.error _, s') => s'.Holds P := by
  have owns := holds.owned.allocate
  rcases s.insertLine_cases anchor anchorNumber? relation line with
    ⟨number, s', inserted, put, lineCount, pool, -⟩ | ⟨err, s', refused, links, lineCount, pool, -⟩
  · have perm := Links.held_insert? holds.fresh put
    rw [inserted]
    refine ⟨by rw [pool]; exact owns.perm (Entry.handlesOf_perm perm.symm), ?_, ?_⟩
    · rw [lineCount, holds.counted, perm.length_eq, List.length_cons]
    intro x mem
    rcases List.mem_cons.mp (perm.mem_iff.mp mem) with rfl | mem
    · exact .inl rfl
    · exact .inr (holds.all x mem)
  · rw [refused]
    exact ⟨by rw [links, pool]; exact owns.release, by rw [links, lineCount]; exact holds.counted,
      by rw [links]; exact holds.all⟩

theorem unlink_cases (s : Script) (h : Handle) (number : Nat) :
    s.get? h = none ∧ s.unlink h number = s ∨
      ∃ line, s.get? h = some line ∧ (s.unlink h number).links = s.links.erase h ∧
        (s.unlink h number).lineCount = s.lineCount - 1 ∧
        (s.unlink h number).pool = s.pool.release h := by
  cases found : s.get? h with
  | none =>
    refine .inl ⟨rfl, ?_⟩
    unfold Script.unlink
    rw [found]
  | some line =>
    rcases Links.above?_isSome found with ⟨above, linked⟩
    refine .inr ⟨line, rfl, ?_⟩
    unfold Script.unlink
    rw [found, linked]
    exact ⟨rfl, rfl, rfl⟩

theorem Holds.unlink (holds : s.Holds fun x => x.handle ≠ h → P x) (number : Nat) :
    (s.unlink h number).Holds P := by
  rcases s.unlink_cases h number with ⟨absent, stays⟩ | ⟨line, found, links, lineCount, pool⟩
  · have others := Links.get?_eq_none_iff.mp absent
    rw [stays]
    exact ⟨holds.owned, holds.counted, fun x mem => holds.all x mem (others x mem)⟩
  · have held := s.links.held_erase h
    have mem := Links.get?_eq_some_iff.mp found
    have parts := Entry.perm_filter_ne s.links.nodup_held mem
    have counted := holds.counted
    rw [parts.length_eq, List.length_cons, ← held.length_eq] at counted
    refine ⟨?_, ?_, ?_⟩
    · rw [links, pool]
      exact (holds.owned.perm (Entry.handlesOf_perm parts)).release.perm
        (Entry.handlesOf_perm held.symm)
    · rw [links, lineCount, counted, Nat.add_sub_cancel]
    · intro x mem
      rw [links, held.mem_iff, List.mem_filter] at mem
      exact holds.all x mem.1 (by simpa using mem.2)

theorem Holds.unlinkSpan (holds : s.Holds P) (start stop : Handle) :
    (s.unlinkSpan start stop).2.Holds P := by
  have perm := s.links.held_eraseSpan start stop
  have counted := holds.counted
  rw [perm.length_eq, List.length_append] at counted
  unfold Script.unlinkSpan
  constructor
  · apply HandlePool.Owns.releaseAll
    rw [← Entry.handlesOf_append]
    exact holds.owned.perm (Entry.handlesOf_perm perm)
  · dsimp only
    omega
  · intro x mem
    exact holds.all x (perm.mem_iff.mpr (List.mem_append_right _ mem))

theorem Holds.setCursor (holds : s.Holds P) (h : Handle) (number : Nat) :
    (s.setCursor h number).Holds P :=
  holds.congr rfl rfl rfl

theorem owns_ofLines (capacity : Nat) (lines : List Line) : (ofLines capacity lines).pool.Owns
    (Entry.handlesOf (lines.mapIdx fun i line => ⟨⟨i + 1, 0⟩, line⟩)) := by
  have handles : Entry.handlesOf (lines.mapIdx fun i line => ⟨⟨i + 1, 0⟩, line⟩) =
      (List.range lines.length).map fun i => ⟨i + 1, 0⟩ := by
    apply List.ext_getElem <;> simp [Entry.handlesOf]
  rw [handles]
  exact HandlePool.owns_ofCount lines.length

theorem holds_ofLines (capacity : Nat) (lines : List Line)
    (all : ∀ h, ∀ line ∈ lines, P ⟨h, line⟩) : (ofLines capacity lines).Holds P := by
  have owned := owns_ofLines capacity lines
  have perm := Links.held_ofEntries owned.nodup
  refine ⟨owned.perm (Entry.handlesOf_perm perm.symm), ?_, ?_⟩
  · rw [ofLines, perm.length_eq, List.length_mapIdx]
  · intro x mem
    obtain ⟨i, bound, rfl⟩ := List.mem_mapIdx.mp (perm.mem_iff.mp mem)
    exact all _ _ (List.getElem_mem bound)

theorem closed_holds (blank : ∀ h, P ⟨h, .blank⟩) : Closed (Holds P) where
  look := fun holds links lineCount pool _ _ => holds.congr links lineCount pool
  insertBlank := by
    intro s holds _ anchor number? relation
    have put := holds.insertLine anchor number? relation .blank
    split at put
    next h _ _ inserted =>
      rw [inserted]
      exact put.mono fun x known => known.elim (fun same => same ▸ blank h) id
    next inserted =>
      rw [inserted]
      exact put
  unlink := fun holds _ number => Holds.unlink (holds.mono fun _ known _ => known) number
  unlinkSpan := fun holds start stop => holds.unlinkSpan start stop

/-! ### Lines that are spared -/

structure Spares (s : Script) (hs : List Handle) (s' : Script) : Prop where
  others : ∀ k ∉ hs, s'.get? k = s.get? k
  order : s'.handles = s.handles
  mark : s'.mark = s.mark

variable {s' s'' : Script} {hs ks : List Handle}

theorem spares_refl (s : Script) (hs : List Handle) : s.Spares hs s :=
  ⟨fun _ _ => rfl, rfl, rfl⟩

theorem Spares.append (first : s.Spares hs s') (second : s'.Spares ks s'') :
    s.Spares (hs ++ ks) s'' where
  others := fun k spared => by
    rw [List.mem_append, not_or] at spared
    rw [second.others k spared.2, first.others k spared.1]
  order := second.order.trans first.order
  mark := second.mark.trans first.mark

theorem spares_setLine (s : Script) (h : Handle) (line : Line) : s.Spares [h] (s.setLine h line) := by
  unfold setLine
  split
  · exact spares_refl s [h]
  refine ⟨fun k spared => ?_, ?_, rfl⟩
  · unfold get?
    rw [Links.get?_setLine_eq_map]
    simp [List.ne_of_not_mem_cons spared]
  · unfold handles entries
    rw [Links.below_setLine, List.map_map]
    apply List.map_congr_left
    intro x _
    dsimp only [Function.comp]
    split <;> rfl

end Script

end RobotScript
