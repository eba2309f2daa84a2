import Mathlib.Data.List.Dedup
import RobotScript.Proofs.Row
/-!
The lines that are held by links, also those that no way from the top leads to. Putting in adds one
line to them, taking out takes its line away, and nothing else changes them.
-/
namespace RobotScript

namespace Entry

variable {es : List Entry} {h : Handle} {x : Entry}

theorem perm_filter_ne (distinct : (handlesOf es).Nodup) (mem : x ∈ es) :
    es.Perm (x :: es.filter (·.handle != x.handle)) := by
  induction es with
  | nil => contradiction
  | cons y es ih =>
    rcases List.mem_cons.mp mem with rfl | mem
    · rw [List.filter_cons_of_neg (by simp), filter_ne (@behind_ne [] es x distinct)]
    · have differs : x.handle ≠ y.handle := @behind_ne [] es y distinct x mem
      rw [List.filter_cons_of_pos (by simpa using differs.symm)]
      exact ((ih (List.nodup_cons.mp distinct).2 mem).cons y).trans (.swap x y _)

end Entry

namespace Links

def held (l : Links) : List Entry := l.nodes.toList.map fun node => ⟨node.1, node.2.line⟩

variable {l l' : Links} {h k : Handle} {line : Line} {x e : Entry}

theorem nodup_held (l : Links) : (Entry.handlesOf l.held).Nodup := by
  rw [held, Entry.handlesOf, List.map_map, List.Nodup, List.pairwise_map]
  exact l.nodes.distinct_keys_toList.imp fun differ same =>
    differ (Std.LawfulEqCmp.compare_eq_iff_eq.mpr same)

theorem get?_eq_some_iff : l.get? h = some line ↔ ⟨h, line⟩ ∈ l.held := by
  rw [get?, node?, Option.map_eq_some_iff, held, List.mem_map]
  constructor
  · rintro ⟨n, found, rfl⟩
    exact ⟨(h, n), Std.ExtTreeMap.mem_toList_iff_getElem?_eq_some.mpr found, rfl⟩
  · rintro ⟨⟨k, n⟩, mem, same⟩
    cases same
    exact ⟨n, Std.ExtTreeMap.mem_toList_iff_getElem?_eq_some.mp mem, rfl⟩

theorem mem_held_iff : x ∈ l.held ↔ l.get? x.handle = some x.line := get?_eq_some_iff.symm

theorem get?_eq_none_iff : l.get? h = none ↔ ∀ x ∈ l.held, x.handle ≠ h := by
  rw [Option.eq_none_iff_forall_ne_some]
  constructor
  · rintro absent x mem rfl
    exact absent x.line (mem_held_iff.mp mem)
  · intro others line found
    exact others ⟨h, line⟩ (get?_eq_some_iff.mp found) rfl

theorem entryAt?_eq_some_iff : l.entryAt? h = some x ↔ x.handle = h ∧ x ∈ l.held := by
  rw [entryAt?, Option.map_eq_some_iff, mem_held_iff]
  constructor
  · rintro ⟨line, found, rfl⟩
    exact ⟨rfl, found⟩
  · rintro ⟨rfl, found⟩
    exact ⟨x.line, found, rfl⟩

theorem held_perm {es : List Entry} (distinct : (Entry.handlesOf es).Nodup)
    (same : ∀ h line, l.get? h = some line ↔ ⟨h, line⟩ ∈ es) : l.held.Perm es := by
  rw [List.perm_ext_iff_of_nodup (.of_map _ l.nodup_held) (.of_map _ distinct)]
  exact fun x => get?_eq_some_iff.symm.trans (same x.handle x.line)

theorem held_perm_held (same : ∀ h, l.get? h = l'.get? h) : l.held.Perm l'.held :=
  held_perm l'.nodup_held fun h line => by rw [same, get?_eq_some_iff]

theorem length_held (l : Links) : l.held.length = l.nodes.size := by
  rw [held, List.length_map, Std.ExtTreeMap.length_toList]

/-! ### Lines and links -/

@[simp] theorem get?_linkBelow (h : Handle) (target : Option Handle) (k : Handle) :
    (l.linkBelow h target).get? k = l.get? k := by
  rw [get?, get?, node?_linkBelow]
  split
  · rw [Option.map_map]
    rfl
  · rfl

@[simp] theorem get?_linkAbove (h? : Option Handle) (target k : Handle) :
    (l.linkAbove h? target).get? k = l.get? k := by
  rw [get?, get?, node?_linkAbove]
  split
  · rw [Option.map_map]
    rfl
  · rfl

theorem held_ofEntries {es : List Entry} (distinct : (Entry.handlesOf es).Nodup) :
    (ofEntries es).held.Perm es := by
  apply held_perm distinct
  intro h line
  by_cases mem : h ∈ Entry.handlesOf es
  · rcases Entry.mem_handlesOf_iff.mp mem with ⟨x, inside, rfl⟩
    rcases List.append_of_mem inside with ⟨as, bs, rfl⟩
    rw [get?_split distinct]
    constructor
    · rintro ⟨⟩
      exact inside
    · intro again
      have same := Entry.eq_of_handle distinct again inside rfl
      rw [← same]
  · rw [get?, node?_eq_none mem]
    constructor
    · rintro ⟨⟩
    · exact fun again => absurd (Entry.mem_handlesOf again) mem

theorem above?_isSome (found : l.get? h = some line) : ∃ above, l.above? h = some above := by
  rcases Option.map_eq_some_iff.mp found with ⟨n, found, -⟩
  exact ⟨n.above, by rw [above?, found]; rfl⟩

theorem mem_held_of_mem_below (mem : x ∈ l.below h) : x ∈ l.held := by
  rcases List.mem_filterMap.mp mem with ⟨h, -, found⟩
  exact (entryAt?_eq_some_iff.mp found).2

theorem length_walk_le (steps : Nat) (h? : Option Handle) : (l.walk steps h?).length ≤ steps := by
  induction steps generalizing h? with
  | zero => cases h? <;> exact Nat.le_refl 0
  | succ steps ih =>
    cases h? with
    | none => exact Nat.zero_le _
    | some h => exact Nat.succ_le_succ (ih _)

theorem length_below_le (l : Links) (h : Handle) : (l.below h).length ≤ l.nodes.size + 3 :=
  Nat.le_trans (List.length_filterMap_le _ _) (length_walk_le _ _)

/-! ### Another line under a handle -/

theorem get?_setLine_eq_map (h : Handle) (line : Line) (k : Handle) :
    (l.setLine h line).get? k = (l.get? k).map fun old => if k = h then line else old := by
  rw [get?, get?, node?_setLine, Option.map_map]
  split
  · rw [Option.map_map]
    rfl
  · rfl

theorem get?_setLine {old : Line} (found : l.get? h = some old) (line : Line) :
    (l.setLine h line).get? h = some line := by
  rw [get?_setLine_eq_map, found, Option.map_some, if_pos rfl]

theorem entryAt?_setLine (h : Handle) (line : Line) (k : Handle) :
    (l.setLine h line).entryAt? k =
      (l.entryAt? k).map fun x => if x.handle = h then { x with line } else x := by
  rw [entryAt?, entryAt?, get?_setLine_eq_map, Option.map_map, Option.map_map]
  congr 1
  funext old
  dsimp only [Function.comp]
  split <;> rfl

theorem handlesOf_map_setLine (h : Handle) (line : Line) (es : List Entry) :
    Entry.handlesOf (es.map fun x => if x.handle = h then { x with line } else x) =
      Entry.handlesOf es := by
  rw [Entry.handlesOf, List.map_map]
  apply List.map_congr_left
  intro x _
  dsimp only [Function.comp]
  split <;> rfl

theorem held_setLine (h : Handle) (line : Line) : (l.setLine h line).held.Perm
    (l.held.map fun x => if x.handle = h then { x with line } else x) := by
  apply held_perm
  · rw [handlesOf_map_setLine]
    exact l.nodup_held
  · intro k line'
    rw [get?_setLine_eq_map, Option.map_eq_some_iff, List.mem_map]
    constructor
    · rintro ⟨old, found, rfl⟩
      refine ⟨⟨k, old⟩, get?_eq_some_iff.mp found, ?_⟩
      dsimp only
      split <;> rfl
    · rintro ⟨x, mem, same⟩
      rw [mem_held_iff] at mem
      split at same
      next here =>
        cases same
        exact ⟨x.line, mem, if_pos here⟩
      next differs =>
        cases same
        exact ⟨line', mem, if_neg differs⟩

theorem next?_setLine (h : Handle) (line : Line) (k : Handle) :
    (l.setLine h line).next? k = l.next? k := by
  unfold next?
  rw [node?_setLine]
  split
  · rfl
  · split
    · rw [Option.bind_map]
      rfl
    · rfl

theorem walk_setLine (h : Handle) (line : Line) (steps : Nat) (h? : Option Handle) :
    (l.setLine h line).walk steps h? = l.walk steps h? := by
  induction steps generalizing h? with
  | zero => cases h? <;> rfl
  | succ steps ih =>
    cases h? with
    | none => rfl
    | some k => rw [walk, walk, next?_setLine, ih]

theorem steps_setLine (h : Handle) (line : Line) : (l.setLine h line).steps = l.steps :=
  congrArg (· + 3) Std.ExtTreeMap.size_modify

theorem below_setLine (h : Handle) (line : Line) (k : Handle) :
    (l.setLine h line).below k =
      (l.below k).map fun x => if x.handle = h then { x with line } else x := by
  unfold below
  rw [next?_setLine, walk_setLine, steps_setLine, List.map_filterMap]
  exact List.filterMap_congr fun k _ => entryAt?_setLine h line k

/-! ### Lines put in and taken out -/

theorem get?_put (above : Handle) (below : Option Handle) (e : Entry) (k : Handle) :
    (l.put above below e).get? k = if k = e.handle then some e.line else l.get? k := by
  rw [put, get?_linkAbove, get?_linkBelow, get?, node?_insert]
  simp only [eq_comm (a := e.handle)]
  split <;> rfl

theorem get?_insert? {anchor : Handle} {relation : Relation}
    (put : l.insert? anchor relation e = some l') (k : Handle) :
    l'.get? k = if k = e.handle then some e.line else l.get? k := by
  cases relation with
  | after =>
    cases put
    exact get?_put ..
  | before =>
    rcases Option.map_eq_some_iff.mp put with ⟨above, -, rfl⟩
    exact get?_put ..

theorem held_insert? {anchor : Handle} {relation : Relation} (fresh : l.get? e.handle = none)
    (put : l.insert? anchor relation e = some l') : l'.held.Perm (e :: l.held) := by
  have others := get?_eq_none_iff.mp fresh
  apply held_perm
  · rw [Entry.handlesOf_cons, List.nodup_cons, Entry.mem_handlesOf_iff]
    exact ⟨fun ⟨x, mem, same⟩ => others x mem same, l.nodup_held⟩
  · intro k line
    rw [get?_insert? put, List.mem_cons]
    split
    next same =>
      subst same
      constructor
      · rintro ⟨⟩
        exact .inl rfl
      · rintro (same | mem)
        · rw [← same]
        · exact absurd rfl (others ⟨e.handle, line⟩ mem)
    next differs =>
      rw [get?_eq_some_iff]
      constructor
      · exact .inr
      · rintro (same | mem)
        · exact absurd (congrArg Entry.handle same) differs
        · exact mem

theorem get?_without {run : List Entry} {left : Links} (without : l.Without run left) (k : Handle) :
    left.get? k = if k ∈ Entry.handlesOf run then none else l.get? k := by
  rw [get?, without.nodes, get?]
  split <;> rfl

theorem held_without {run : List Entry} {left : Links} (without : l.Without run left) :
    l.held.Perm (run ++ left.held) := by
  have gone : ∀ x ∈ run, l.get? x.handle = some x.line := fun x mem =>
    mem_held_iff.mp (entryAt?_eq_some_iff.mp (without.found x mem)).2
  apply held_perm
  · rw [Entry.handlesOf_append, List.nodup_append]
    refine ⟨without.distinct, left.nodup_held, ?_⟩
    rintro k out _ stays rfl
    rcases Entry.mem_handlesOf_iff.mp stays with ⟨x, mem, rfl⟩
    rw [mem_held_iff, get?_without without, if_pos out] at mem
    contradiction
  · intro k line
    rw [List.mem_append, ← get?_eq_some_iff, get?_without without]
    constructor
    · intro found
      by_cases out : k ∈ Entry.handlesOf run
      · rcases Entry.mem_handlesOf_iff.mp out with ⟨x, mem, rfl⟩
        cases (gone x mem).symm.trans found
        exact .inl mem
      · exact .inr (by rw [if_neg out, found])
    · rintro (mem | stays)
      · exact gone _ mem
      · split at stays
        · contradiction
        · exact stays

theorem get?_erase (h k : Handle) :
    (l.erase h).get? k = if k = h then none else l.get? k := by
  cases found : l.node? h with
  | none =>
    have absent : l.get? h = none := by rw [get?, found, Option.map_none]
    have stays : l.erase h = l := by simp only [erase, found]
    rw [stays]
    split
    next same => rw [same, absent]
    next => rfl
  | some n =>
    rw [erase_eq found, get?_linkAbove, get?_linkBelow, get?_without (without_erase found)]
    simp

theorem held_erase (h : Handle) : (l.erase h).held.Perm (l.held.filter (·.handle != h)) := by
  apply held_perm
  · exact l.nodup_held.sublist (List.filter_sublist.map _)
  · intro k line
    rw [get?_erase, List.mem_filter, ← get?_eq_some_iff]
    by_cases same : k = h <;> simp [same]

theorem held_eraseSpan (l : Links) (start stop : Handle) :
    l.held.Perm ((l.eraseSpan start stop).1 ++ (l.eraseSpan start stop).2.held) := by
  unfold eraseSpan
  split
  · exact .refl _
  next above _ =>
    have parts := held_without (without_takeOut stop l.nodes.size start l)
    refine parts.trans ((held_perm_held fun k => ?_).append_left _)
    rw [get?_linkAbove, get?_linkBelow]

end Links

end RobotScript
