import Mathlib.Data.Finset.Card
import Mathlib.Logic.Function.Iterate
import RobotScript.Proofs.Held
/-!
Ways without an end. A way that takes more steps than there are places to come by comes back to one
of them, and then goes round for ever; so `Links.endless` tells of exactly the ways that no number of
steps takes to an end.
-/
namespace RobotScript.Links

variable {l : Links} {h? : Option Handle}

/-- The place that a way comes to after some steps. -/
def placeAfter (l : Links) (h? : Option Handle) (n : Nat) : Option Handle :=
  (fun k? => k?.bind l.next?)^[n] h?

theorem placeAfter_add (m n : Nat) :
    l.placeAfter h? (m + n) = l.placeAfter (l.placeAfter h? n) m :=
  Function.iterate_add_apply _ m n h?

theorem placeAfter_none (n : Nat) : l.placeAfter none n = none := Function.iterate_fixed rfl n

theorem placeAfter_eq_none {i j : Nat} (before : i ≤ j) (gone : l.placeAfter h? i = none) :
    l.placeAfter h? j = none := by
  rw [← Nat.sub_add_cancel before, placeAfter_add, gone, placeAfter_none]

theorem getElem?_walk (n i : Nat) :
    (l.walk n h?)[i]? = if i < n then l.placeAfter h? i else none := by
  induction n generalizing h? i with
  | zero => simp [walk]
  | succ n ih =>
    cases h? with
    | none => simp [walk, placeAfter_none]
    | some h =>
      cases i with
      | zero => rfl
      | succ i =>
        rw [walk, List.getElem?_cons_succ, ih]
        simp only [Nat.add_lt_add_iff_right]
        rfl

theorem length_walk_eq_iff (n : Nat) :
    (l.walk n h?).length = n ↔ ∀ i < n, (l.placeAfter h? i).isSome = true := by
  induction n generalizing h? with
  | zero => simp [walk]
  | succ n ih =>
    cases h? with
    | none =>
      constructor
      · intro short
        cases short
      · intro goes
        have first := goes 0 n.succ_pos
        contradiction
    | some h =>
      rw [walk, List.length_cons, Nat.succ_inj, ih]
      constructor
      · intro goes i inside
        cases i with
        | zero => rfl
        | succ i => exact goes i (Nat.lt_of_succ_lt_succ inside)
      · exact fun goes i inside => goes (i + 1) (Nat.succ_lt_succ inside)

theorem mem_of_placeAfter {n : Nat} {h : Handle} (here : l.placeAfter h? n = some h)
    (goes : (l.placeAfter h? (n + 1)).isSome = true) : h ∈ Handle.top :: Entry.handlesOf l.held := by
  rw [Nat.add_comm, placeAfter_add, here] at goes
  change (l.next? h).isSome = true at goes
  unfold next? at goes
  split at goes
  next top => exact List.mem_cons.mpr (.inl (eq_of_beq top))
  next =>
    cases found : l.node? h with
    | none =>
      rw [found] at goes
      contradiction
    | some n =>
      have there : l.get? h = some n.line := by rw [get?, found, Option.map_some]
      exact List.mem_cons_of_mem _ (Entry.mem_handlesOf (get?_eq_some_iff.mp there))

/-- A way that comes to one place twice goes on for ever. -/
theorem isSome_placeAfter {i j : Nat} (before : i < j)
    (same : l.placeAfter h? i = l.placeAfter h? j)
    (goes : ∀ k ≤ j, (l.placeAfter h? k).isSome = true) (n : Nat) :
    (l.placeAfter h? n).isSome = true := by
  induction n using Nat.strongRecOn with
  | ind n ih =>
    rcases Nat.lt_or_ge j n with past | inside
    · have back : l.placeAfter h? n = l.placeAfter h? (n - j + i) := by
        rw [placeAfter_add, same, ← placeAfter_add, Nat.sub_add_cancel (Nat.le_of_lt past)]
      rw [back]
      exact ih _ (by omega)
    · exact goes n inside

/-- The ways that are told to have no end are those on which every step leads on. -/
theorem endless_iff : l.endless h? = true ↔ ∀ n, (l.walk n h?).length = n := by
  rw [endless, beq_iff_eq]
  refine ⟨fun far n => ?_, fun ever => ever l.steps⟩
  rw [length_walk_eq_iff] at far ⊢
  -- There are more steps than places, so two of them lead to the same one.
  let places := (Handle.top :: Entry.handlesOf l.held).map some
  have maps : ∀ i ∈ Finset.range (l.nodes.size + 2), l.placeAfter h? i ∈ places.toFinset := by
    intro i mem
    have inside := Finset.mem_range.mp mem
    rcases Option.isSome_iff_exists.mp (far i (Nat.lt_succ_of_lt inside)) with ⟨h, here⟩
    rw [here, List.mem_toFinset]
    exact List.mem_map_of_mem (mem_of_placeAfter here (far (i + 1) (Nat.succ_lt_succ inside)))
  have few : places.toFinset.card < (Finset.range (l.nodes.size + 2)).card := by
    have bound := places.toFinset_card_le
    rw [List.length_map, List.length_cons, Entry.length_handlesOf, length_held] at bound
    rw [Finset.card_range]
    omega
  rcases Finset.exists_ne_map_eq_of_card_lt_of_maps_to few maps with ⟨i, imem, j, jmem, ne, same⟩
  have inside := fun k (mem : k ∈ Finset.range (l.nodes.size + 2)) => Finset.mem_range.mp mem
  have goes : ∀ k < l.nodes.size + 2, ∀ k' ≤ k, (l.placeAfter h? k').isSome = true :=
    fun k below k' le => far k' (by unfold steps; omega)
  rcases Nat.lt_or_gt_of_ne ne with before | behind
  · exact fun k _ => isSome_placeAfter before same (goes j (inside j jmem)) k
  · exact fun k _ => isSome_placeAfter behind same.symm (goes i (inside i imem)) k

/-! ### Ways with an end -/

section Ends

variable (ends : l.endless h? = false)

include ends

theorem placeAfter_ne {i j : Nat} (before : i < j) (there : (l.placeAfter h? j).isSome = true) :
    l.placeAfter h? i ≠ l.placeAfter h? j := by
  intro same
  have goes : ∀ k ≤ j, (l.placeAfter h? k).isSome = true := by
    intro k le
    rw [Option.isSome_iff_ne_none] at there ⊢
    exact fun gone => there (placeAfter_eq_none le gone)
  have ever : l.endless h? = true := endless_iff.mpr fun n =>
    (length_walk_eq_iff n).mpr fun k _ => isSome_placeAfter before same goes k
  rw [ends] at ever
  contradiction

theorem nodup_walk (n : Nat) : (l.walk n h?).Nodup := by
  rw [List.nodup_iff_getElem?_ne_getElem?]
  intro i j before inside
  have there : ((l.walk n h?)[j]?).isSome = true := by rw [List.getElem?_eq_getElem inside]; rfl
  have short := Nat.lt_of_lt_of_le inside (length_walk_le n h?)
  rw [getElem?_walk, if_pos short] at there
  rw [getElem?_walk, getElem?_walk, if_pos short, if_pos (before.trans short)]
  exact placeAfter_ne ends before there

theorem getElem?_walk_steps (i : Nat) : (l.walk l.steps h?)[i]? = l.placeAfter h? i := by
  rw [getElem?_walk]
  split
  next => rfl
  next past =>
    have short : ¬ ∀ j < l.steps, (l.placeAfter h? j).isSome = true := by
      rw [← length_walk_eq_iff, ← beq_iff_eq]
      exact fun far => Bool.false_ne_true (ends.symm.trans far)
    push Not at short
    rcases short with ⟨j, inside, gone⟩
    exact (placeAfter_eq_none (by omega) (Option.not_isSome_iff_eq_none.mp gone)).symm

end Ends

theorem isTop_eq_false_of_mem_walk (ends : l.endless l.first = false) {n : Nat} {h : Handle}
    (mem : h ∈ l.walk n l.first) : h.isTop = false := by
  rcases List.getElem?_of_mem mem with ⟨i, here⟩
  rw [getElem?_walk] at here
  split at here
  · rw [Bool.eq_false_iff]
    intro top
    have back : l.placeAfter l.first (i + 1) = l.placeAfter l.first 0 := by
      rw [Nat.add_comm, placeAfter_add, here]
      change l.next? h = l.first
      rw [next?, if_pos top]
    have there : (l.placeAfter l.first (i + 1)).isSome = true := by
      rw [back, Option.isSome_iff_ne_none]
      intro gone
      rw [placeAfter_eq_none (Nat.zero_le i) gone] at here
      contradiction
    exact placeAfter_ne ends i.succ_pos there back.symm
  · contradiction

/-- Only the last place on a way can be one where no line is. -/
theorem getElem?_filterMap_walk {n : Nat} (real : ∀ h ∈ l.walk n h?, h.isTop = false) (i : Nat) :
    ((l.walk n h?).filterMap l.entryAt?)[i]? = ((l.walk n h?)[i]?).bind l.entryAt? := by
  induction n generalizing h? i with
  | zero => simp [walk]
  | succ n ih =>
    cases h? with
    | none => rfl
    | some h =>
      rw [walk] at real ⊢
      cases found : l.entryAt? h with
      | some x =>
        rw [List.filterMap_cons_some found]
        cases i with
        | zero => exact found.symm
        | succ i => exact ih (fun k mem => real k (List.mem_cons_of_mem _ mem)) i
      | none =>
        have gone : l.node? h = none := by
          rw [entryAt?, Option.map_eq_none_iff, get?, Option.map_eq_none_iff] at found
          exact found
        have last : l.next? h = none := by
          rw [next?, real h List.mem_cons_self, if_neg (by decide), gone]
          rfl
        have ended : l.walk n none = [] := by cases n <;> rfl
        rw [List.filterMap_cons_none found, last, ended]
        cases i with
        | zero => exact found.symm
        | succ i => rfl

theorem getElem?_below_top (ends : l.endless l.first = false) (i : Nat) :
    (l.below .top)[i]? = (l.placeAfter l.first i).bind l.entryAt? := by
  change ((l.walk l.steps l.first).filterMap l.entryAt?)[i]? = _
  rw [getElem?_filterMap_walk fun h => isTop_eq_false_of_mem_walk ends, getElem?_walk_steps ends]

theorem nodup_below_top (ends : l.endless l.first = false) :
    (Entry.handlesOf (l.below .top)).Nodup := by
  change (Entry.handlesOf ((l.walk l.steps l.first).filterMap l.entryAt?)).Nodup
  rw [Entry.handlesOf, List.Nodup, List.pairwise_map, List.pairwise_filterMap]
  refine (nodup_walk ends l.steps).imp ?_
  intro h k differ x found y found' same
  rw [← (entryAt?_eq_some_iff.mp found).1, ← (entryAt?_eq_some_iff.mp found').1] at differ
  exact differ same

end RobotScript.Links
