import Mathlib.Algebra.Group.Nat.Defs
import RobotScript.Line
import RobotScript.Proofs.Ownership
/-!
The lines of a script as a history of events: a handle is given to a new line, its line is written,
its line is taken out. Over a pool of handles that has been used in such a way, the generation of a
slot counts how often it has been freed, as long as that is less often than a word can count; so no
handle is given twice.
-/
namespace RobotScript

inductive Event where
  | gave (h : Handle) (line : Line)
  | wrote (h : Handle) (line : Line)
  | took (h : Handle)
  deriving DecidableEq, Repr

namespace Event

def given? : Event → Option Handle
  | gave h _ => some h
  | _ => none

def taken? : Event → Option Handle
  | took h => some h
  | _ => none

def apply (lines : Handle → Option Line) : Event → Handle → Option Line
  | gave h line | wrote h line => fun k => if k = h then some line else lines k
  | took h => fun k => if k = h then none else lines k

end Event

def given (log : List Event) : List Handle := log.filterMap Event.given?

def taken (log : List Event) : List Handle := log.filterMap Event.taken?

def replay (lines : Handle → Option Line) (log : List Event) : Handle → Option Line :=
  log.foldl Event.apply lines

section History

variable {log more : List Event} {h : Handle} {line : Line}

@[simp] theorem given_nil : given [] = [] := rfl

@[simp] theorem taken_nil : taken [] = [] := rfl

@[simp] theorem given_append : given (log ++ more) = given log ++ given more :=
  List.filterMap_append

@[simp] theorem taken_append : taken (log ++ more) = taken log ++ taken more :=
  List.filterMap_append

@[simp] theorem given_gave : given (.gave h line :: log) = h :: given log := rfl

@[simp] theorem taken_gave : taken (.gave h line :: log) = taken log := rfl

@[simp] theorem given_wrote : given (.wrote h line :: log) = given log := rfl

@[simp] theorem taken_wrote : taken (.wrote h line :: log) = taken log := rfl

@[simp] theorem given_took : given (.took h :: log) = given log := rfl

@[simp] theorem taken_took : taken (.took h :: log) = h :: taken log := rfl

theorem replay_append (lines : Handle → Option Line) :
    replay lines (log ++ more) = replay (replay lines log) more :=
  List.foldl_append

theorem replay_map_took (lines : Handle → Option Line) (hs : List Handle) :
    replay lines (hs.map .took) = fun k => if k ∈ hs then none else lines k := by
  induction hs generalizing lines with
  | nil => rfl
  | cons h hs ih =>
    have step : replay lines ((h :: hs).map .took) =
        replay (Event.apply lines (.took h)) (hs.map .took) := rfl
    funext k
    rw [step, ih]
    simp only [List.mem_cons, Event.apply]
    by_cases same : k = h <;> by_cases mem : k ∈ hs <;> simp [same, mem]

@[simp] theorem given_map_took (hs : List Handle) : given (hs.map .took) = [] := by
  induction hs with
  | nil => rfl
  | cons h hs ih => exact ih

@[simp] theorem taken_map_took (hs : List Handle) : taken (hs.map .took) = hs := by
  induction hs with
  | nil => rfl
  | cons h hs ih => exact congrArg (h :: ·) ih

def freed (log : List Event) (slot : Nat) : Nat := ((taken log).map (·.slot)).count slot

theorem freed_append (slot : Nat) : freed (log ++ more) slot = freed log slot + freed more slot := by
  rw [freed, taken_append, List.map_append, List.count_append]
  rfl

theorem freed_took (h : Handle) (slot : Nat) :
    freed (log ++ [.took h]) slot = freed log slot + if h.slot = slot then 1 else 0 := by
  have once : freed [.took h] slot = [h.slot].count slot := rfl
  rw [freed_append, once, List.count_singleton]
  simp only [beq_iff_eq]

theorem freed_le (log : List Event) (slot : Nat) : freed log slot ≤ (taken log).length := by
  rw [freed, ← List.length_map (f := fun h : Handle => h.slot)]
  exact List.count_le_length

end History

namespace HandlePool

/-- Whether a pool has been used in some way from when it had only given out the handles in `start`,
and all slots were in their first use; `live` are the handles that are in use. -/
structure Ledger (start : List Handle) (log : List Event) (p : HandlePool) (live : List Handle) :
    Prop where
  owned : p.Owns live
  /-- The generation of a slot is how often it has been freed. -/
  counted : ∀ slot g, p.generations[slot]? = some g → g.toNat = freed log slot
  known : ∀ h ∈ start ++ given log, h.slot < p.generations.size
  slots : p.generations.size ≤ (start ++ given log).length + 1
  distinct : (start ++ given log).Nodup
  real : ∀ h ∈ start ++ given log, h.isTop = false
  mem_iff : ∀ h, h ∈ live ↔ h ∈ start ++ given log ∧ h ∉ taken log
  subset : taken log ⊆ start ++ given log
  /-- The slot of a line that is gone is in a later use. -/
  past : ∀ h ∈ taken log, h.generation.toNat < freed log h.slot

variable {p : HandlePool} {start live : List Handle} {log : List Event} {h : Handle} {line : Line}

theorem Owns.ledger (owns : p.Owns start) (unused : ∀ g ∈ p.generations, g = 0)
    (slots : p.generations.size ≤ start.length + 1) : p.Ledger start [] start where
  owned := owns
  counted := by
    intro slot g found
    rw [unused g (Array.mem_of_getElem? found)]
    rfl
  known := by
    intro h mem
    rw [given_nil, List.append_nil] at mem
    exact (Array.getElem?_eq_some_iff.mp (owns.current h mem)).1
  slots := by
    rw [given_nil, List.append_nil]
    exact slots
  distinct := by
    rw [given_nil, List.append_nil]
    exact owns.nodup
  real := by
    intro h mem
    rw [given_nil, List.append_nil] at mem
    exact owns.isTop_eq_false mem
  mem_iff := by simp
  subset := by simp
  past := by simp

theorem Ledger.perm {live' : List Handle} (ledger : p.Ledger start log live)
    (perm : live.Perm live') : p.Ledger start log live' :=
  { ledger with
    owned := ledger.owned.perm perm
    mem_iff := fun h => perm.mem_iff.symm.trans (ledger.mem_iff h) }

theorem Ledger.wrote (ledger : p.Ledger start log live) (h : Handle) (line : Line) :
    p.Ledger start (log ++ [.wrote h line]) live := by
  have freed_eq : freed (log ++ [.wrote h line]) = freed log := by
    funext slot
    rw [freed_append]
    rfl
  constructor
  · exact ledger.owned
  · rw [freed_eq]
    exact ledger.counted
  all_goals simp only [given_append, given_wrote, given_nil, taken_append, taken_wrote, taken_nil,
    List.append_nil, freed_eq]
  · exact ledger.known
  · exact ledger.slots
  · exact ledger.distinct
  · exact ledger.real
  · exact ledger.mem_iff
  · exact ledger.subset
  · exact ledger.past

theorem Ledger.counted_allocate (ledger : p.Ledger start log live) {slot : Nat} {g : UInt32}
    (found : p.allocate.2.generations[slot]? = some g) : g.toNat = freed log slot := by
  unfold HandlePool.allocate at found
  split at found
  next => exact ledger.counted slot g found
  next =>
    rw [Array.getElem?_push] at found
    split at found
    next new =>
      have unused : freed log slot = 0 := by
        rw [freed, List.count_eq_zero, List.mem_map]
        rintro ⟨h, gone, same⟩
        have := ledger.known h (ledger.subset gone)
        omega
      cases found
      exact unused.symm
    next => exact ledger.counted slot g found

theorem size_allocate (p : HandlePool) :
    p.generations.size ≤ p.allocate.2.generations.size ∧
      p.allocate.2.generations.size ≤ p.generations.size + 1 := by
  unfold HandlePool.allocate
  split
  · exact ⟨Nat.le_refl _, Nat.le_succ _⟩
  · rw [Array.size_push]
    exact ⟨Nat.le_succ _, Nat.le_refl _⟩

theorem Ledger.fresh (ledger : p.Ledger start log live) :
    p.allocate.1 ∉ start ++ given log := by
  have owned := ledger.owned.allocate
  intro before
  by_cases gone : p.allocate.1 ∈ taken log
  · have past := ledger.past _ gone
    rw [ledger.counted_allocate (owned.current _ List.mem_cons_self)] at past
    exact Nat.lt_irrefl _ past
  · have unused := owned.nodup
    rw [List.nodup_cons] at unused
    exact unused.1 ((ledger.mem_iff _).mpr ⟨before, gone⟩)

theorem Ledger.gave (ledger : p.Ledger start log live) (line : Line) :
    p.allocate.2.Ledger start (log ++ [.gave p.allocate.1 line]) (p.allocate.1 :: live) := by
  have owned := ledger.owned.allocate
  have fresh := ledger.fresh
  have taken_eq : taken (log ++ [.gave p.allocate.1 line]) = taken log := by simp
  have given_eq : start ++ given (log ++ [.gave p.allocate.1 line]) =
      start ++ given log ++ [p.allocate.1] := by simp
  have freed_eq : freed (log ++ [.gave p.allocate.1 line]) = freed log := by
    funext slot
    rw [freed, taken_eq, freed]
  constructor
  · exact owned
  · intro slot g found
    rw [freed_eq]
    exact ledger.counted_allocate found
  · intro h mem
    rw [given_eq, List.mem_append, List.mem_singleton] at mem
    rcases mem with mem | rfl
    · exact Nat.lt_of_lt_of_le (ledger.known h mem) p.size_allocate.1
    · exact (Array.getElem?_eq_some_iff.mp (owned.current _ List.mem_cons_self)).1
  · rw [given_eq, List.length_append, List.length_singleton]
    exact Nat.le_trans p.size_allocate.2 (Nat.succ_le_succ ledger.slots)
  · rw [given_eq, List.nodup_append]
    refine ⟨ledger.distinct, List.nodup_singleton _, ?_⟩
    rintro h mem k new rfl
    cases List.mem_singleton.mp new
    exact fresh mem
  · intro h mem
    rw [given_eq, List.mem_append, List.mem_singleton] at mem
    rcases mem with mem | rfl
    · exact ledger.real h mem
    · exact owned.isTop_eq_false List.mem_cons_self
  · intro h
    rw [given_eq, taken_eq, List.mem_cons, List.mem_append, List.mem_singleton, ledger.mem_iff]
    constructor
    · rintro (rfl | ⟨before, there⟩)
      · exact ⟨.inr rfl, fun gone => fresh (ledger.subset gone)⟩
      · exact ⟨.inl before, there⟩
    · rintro ⟨before | new, there⟩
      · exact .inr ⟨before, there⟩
      · exact .inl new
  · rw [given_eq, taken_eq]
    exact fun h mem => List.mem_append_left _ (ledger.subset mem)
  · rw [taken_eq, freed_eq]
    exact ledger.past

/-- The generation of a slot does not wrap around as long as that is freed less often than a word
can count. -/
theorem Ledger.counted_release (ledger : p.Ledger start log (h :: live))
    (few : (taken log).length + 1 < 2 ^ 32) {slot : Nat} {g : UInt32}
    (found : (p.release h).generations[slot]? = some g) :
    g.toNat = freed (log ++ [.took h]) slot := by
  have current := ledger.owned.current h List.mem_cons_self
  have counted := ledger.counted h.slot h.generation current
  have bound := freed_le log h.slot
  unfold HandlePool.release at found
  rw [Array.getElem?_modify] at found
  rw [freed_took]
  split at found
  next same =>
    subst same
    rw [current] at found
    cases found
    rw [if_pos rfl, UInt32.toNat_add, counted]
    exact Nat.mod_eq_of_lt (Nat.lt_of_le_of_lt (Nat.succ_le_succ bound) few)
  next other =>
    rw [if_neg other]
    exact ledger.counted slot g found

theorem Ledger.took (ledger : p.Ledger start log (h :: live))
    (few : (taken log).length + 1 < 2 ^ 32) :
    (p.release h).Ledger start (log ++ [.took h]) live := by
  have unused := ledger.owned.nodup
  rw [List.nodup_cons] at unused
  have here := (ledger.mem_iff h).mp List.mem_cons_self
  have taken_eq : taken (log ++ [.took h]) = taken log ++ [h] := by simp
  have given_eq : given (log ++ [.took h]) = given log := by simp
  have counted := ledger.counted h.slot h.generation (ledger.owned.current h List.mem_cons_self)
  constructor
  · exact ledger.owned.release
  · intro slot g found
    exact ledger.counted_release few found
  · intro k mem
    rw [given_eq] at mem
    unfold HandlePool.release
    rw [Array.size_modify]
    exact ledger.known k mem
  · rw [given_eq]
    unfold HandlePool.release
    rw [Array.size_modify]
    exact ledger.slots
  · rw [given_eq]
    exact ledger.distinct
  · rw [given_eq]
    exact ledger.real
  · intro k
    have before := ledger.mem_iff k
    have apart : k ∉ taken log ++ [h] ↔ k ∉ taken log ∧ k ≠ h := by simp
    rw [List.mem_cons] at before
    rw [given_eq, taken_eq, apart, ← and_assoc, ← before]
    constructor
    · intro mem
      exact ⟨.inr mem, fun same => unused.1 (same ▸ mem)⟩
    · rintro ⟨same | mem, other⟩
      · exact absurd same other
      · exact mem
  · rw [given_eq, taken_eq]
    intro k mem
    rcases List.mem_append.mp mem with mem | mem
    · exact ledger.subset mem
    · cases List.mem_singleton.mp mem
      exact here.1
  · rw [taken_eq]
    intro k mem
    rw [freed_took]
    rcases List.mem_append.mp mem with mem | mem
    · exact Nat.lt_of_lt_of_le (ledger.past k mem) (Nat.le_add_right _ _)
    · cases List.mem_singleton.mp mem
      rw [if_pos rfl, counted]
      exact Nat.lt_succ_self _

end HandlePool

end RobotScript
