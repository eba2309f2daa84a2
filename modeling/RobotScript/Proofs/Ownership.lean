import Mathlib.Data.List.Nodup
import RobotScript.Handle
/-!
The pool of handles knows which are in use: no two lines share a slot, no slot in use is free, and
a handle in use names the present generation of its slot. A handle given out is therefore none of
those in use.
-/
namespace RobotScript.HandlePool

/-- Whether a pool has given out some handles, and no others that are still in use. -/
structure Owns (p : HandlePool) (hs : List Handle) : Prop where
  /-- The slots in use and the free ones are all different. -/
  distinct : (hs.map (·.slot) ++ p.free).Nodup
  current : ∀ h ∈ hs, p.generations[h.slot]? = some h.generation
  known : ∀ slot ∈ p.free, slot < p.generations.size
  /-- Slot 0 is neither in use nor free. -/
  reserved : 0 ∉ hs.map (·.slot) ++ p.free
  started : 0 < p.generations.size

variable {p : HandlePool} {hs : List Handle} {h : Handle}

theorem Owns.nodup (owns : p.Owns hs) : hs.Nodup :=
  List.Nodup.of_map _ (List.nodup_append.mp owns.distinct).1

theorem Owns.isTop_eq_false (owns : p.Owns hs) (mem : h ∈ hs) : h.isTop = false := by
  rw [Handle.isTop, beq_eq_false_iff_ne]
  rintro rfl
  exact owns.reserved (List.mem_append_left _ (List.mem_map_of_mem mem))

theorem Owns.perm {hs' : List Handle} (owns : p.Owns hs) (perm : hs.Perm hs') : p.Owns hs' where
  distinct := ((perm.map _).append_right _).nodup_iff.mp owns.distinct
  current := fun h mem => owns.current h (perm.mem_iff.mpr mem)
  known := owns.known
  reserved := fun mem => owns.reserved (((perm.map _).append_right _).mem_iff.mpr mem)
  started := owns.started

theorem Owns.allocate (owns : p.Owns hs) : p.allocate.2.Owns (p.allocate.1 :: hs) := by
  unfold HandlePool.allocate
  split
  next slot free freed =>
    have distinct := owns.distinct
    have reserved := owns.reserved
    have bound : slot < p.generations.size := owns.known slot (by simp [freed])
    rw [freed] at distinct reserved
    constructor
    · exact List.nodup_middle.mp distinct
    · intro h mem
      rcases List.mem_cons.mp mem with rfl | mem
      · simp [bound]
      · exact owns.current h mem
    · intro other mem
      exact owns.known other (by simp [freed, mem])
    · intro mem
      exact reserved (List.perm_middle.mem_iff.mpr mem)
    · exact owns.started
  next freed =>
    have distinct := owns.distinct
    have reserved := owns.reserved
    rw [freed] at distinct reserved
    have inUse : ∀ h ∈ hs, h.slot < p.generations.size := fun h mem =>
      (Array.getElem?_eq_some_iff.mp (owns.current h mem)).1
    constructor
    · rw [List.map_cons, List.cons_append, List.nodup_cons, freed]
      refine ⟨?_, distinct⟩
      simp only [List.append_nil, List.mem_map, not_exists, not_and]
      intro h mem same
      have := inUse h mem
      omega
    · intro h mem
      rcases List.mem_cons.mp mem with rfl | mem
      · simp
      · rw [Array.getElem?_push_lt (inUse h mem)]
        simpa [inUse h mem] using owns.current h mem
    · simp [freed]
    · have := owns.started
      simp only [freed, List.map_cons, List.cons_append, List.mem_cons, not_or]
      exact ⟨by omega, reserved⟩
    · simp

theorem Owns.release (owns : p.Owns (h :: hs)) : (p.release h).Owns hs where
  distinct := List.nodup_middle.mpr owns.distinct
  current := by
    intro other mem
    have apart : h.slot ≠ other.slot := by
      have distinct := owns.distinct
      simp only [List.map_cons, List.cons_append, List.nodup_cons, List.mem_append, not_or] at distinct
      intro same
      exact distinct.1.1 (List.mem_map.mpr ⟨other, mem, same.symm⟩)
    have current := owns.current other (List.mem_cons_of_mem _ mem)
    simpa [HandlePool.release, Array.getElem?_modify, apart] using current
  known := by
    intro slot mem
    have bound : h.slot < p.generations.size :=
      (Array.getElem?_eq_some_iff.mp (owns.current h List.mem_cons_self)).1
    rcases List.mem_cons.mp mem with rfl | mem
    · simpa [HandlePool.release] using bound
    · simpa [HandlePool.release] using owns.known slot mem
  reserved := fun mem => owns.reserved (List.perm_middle.mem_iff.mp mem)
  started := by simpa [HandlePool.release] using owns.started

theorem owns_ofCount (count : Nat) :
    (ofCount count).Owns ((List.range count).map fun i => ⟨i + 1, 0⟩) where
  distinct := by
    simp only [ofCount, List.append_nil, List.map_map]
    exact List.nodup_range.map fun a b same => by simpa using same
  current := by
    intro h mem
    obtain ⟨i, bound, rfl⟩ := List.mem_map.mp mem
    have bound : i + 1 < count + 1 := Nat.succ_lt_succ (List.mem_range.mp bound)
    simp [ofCount, bound]
  known := by simp [ofCount]
  reserved := by simp [ofCount]
  started := by simp [ofCount]

end RobotScript.HandlePool
