import RobotScript.Files.Transfer
import RobotScript.Proofs.Run
/-!
A file that has been written is there to be read. Writing a file turns no folder into anything else,
so that its path leads where it led before.
-/
namespace RobotScript

namespace Folder

variable {f f' : Folder} {path name : String} {data : Bytes} {place reached next : List (List Char)}

theorem lookup_cons_eq (n key : String) (node : FileNode) (f : Folder) :
    List.lookup key ((n, node) :: f) = if key = n then some node else f.lookup key := by
  rw [List.lookup_cons]
  by_cases same : key = n <;> simp [same, beq_false_of_ne]

theorem lookup_put (name key : String) (data : Bytes) (f : Folder) :
    (put name data f).lookup key = if key = name then some (.file data) else f.lookup key := by
  induction f with
  | nil => rw [put, lookup_cons_eq]
  | cons entry f ih =>
    obtain ⟨n, node⟩ := entry
    unfold put
    split
    next here =>
      rw [lookup_cons_eq, lookup_cons_eq, here]
      split <;> rfl
    next other =>
      rw [lookup_cons_eq, lookup_cons_eq, ih]
      split
      next first => rw [if_neg (first ▸ other)]
      next => rfl

structure Keeps (f : Folder) (place : List (List Char)) (data : Bytes) (f' : Folder) : Prop where
  file : f'.node? place = some (.file data)
  folders : ∀ reached, f.node? reached = some .folder → f'.node? reached = some .folder

theorem put_keeps (free : f.node? place ≠ some .folder) :
    f.Keeps place data (put (join place) data f) where
  file := by
    unfold node? at free ⊢
    split at free
    next => exact absurd rfl free
    next below => rw [if_neg below, lookup_put, if_pos rfl]
  folders := by
    intro reached folder
    unfold node? at free folder ⊢
    split
    next => rfl
    next below =>
      rw [if_neg below] at folder
      split at free
      next => exact absurd rfl free
      next =>
        rw [lookup_put, if_neg]
        · exact folder
        · intro same
          exact free (same ▸ folder)

theorem checkFolder_eq_ok : f.checkFolder reached = .ok () ↔ f.node? reached = some .folder := by
  unfold checkFolder
  split <;> simp [*]

theorem Keeps.enter {component : List Char} (keeps : f.Keeps place data f')
    (entered : f.enter reached component = .ok next) : f'.enter reached component = .ok next := by
  obtain ⟨⟨⟩, folder, rest⟩ := bind_eq_ok.mp entered
  refine bind_eq_ok.mpr ⟨(), ?_, rest⟩
  exact checkFolder_eq_ok.mpr (keeps.folders reached (checkFolder_eq_ok.mp folder))

theorem Keeps.walk {components : List (List Char)} (keeps : f.Keeps place data f')
    (walked : components.foldlM f.enter reached = .ok next) :
    components.foldlM f'.enter reached = .ok next := by
  induction components generalizing reached with
  | nil => exact walked
  | cons component components ih =>
    rw [List.foldlM_cons] at walked ⊢
    obtain ⟨_, entered, rest⟩ := bind_eq_ok.mp walked
    exact bind_eq_ok.mpr ⟨_, keeps.enter entered, ih rest⟩

theorem Keeps.resolve (keeps : f.Keeps place data f') (led : f.resolve path = .ok reached) :
    f'.resolve path = .ok reached := by
  obtain ⟨⟨⟩, checked, rest⟩ := bind_eq_ok.mp led
  obtain ⟨last, walked, rest⟩ := bind_eq_ok.mp rest
  refine bind_eq_ok.mpr ⟨(), checked, bind_eq_ok.mpr ⟨last, keeps.walk walked, ?_⟩⟩
  split at rest
  next demands =>
    rw [if_pos demands]
    obtain ⟨⟨⟩, folder, rest⟩ := bind_eq_ok.mp rest
    refine bind_eq_ok.mpr ⟨(), ?_, rest⟩
    exact checkFolder_eq_ok.mpr (keeps.folders last (checkFolder_eq_ok.mp folder))
  next demands =>
    rw [if_neg demands]
    exact rest

theorem read_write (written : f.write path data = .ok f') : f'.read path = .ok data := by
  obtain ⟨⟨⟩, checked, rest⟩ := bind_eq_ok.mp written
  split at rest
  next slashed =>
    obtain ⟨_, walked, rest⟩ := bind_eq_ok.mp rest
    obtain ⟨⟨⟩, folder, rest⟩ := bind_eq_ok.mp rest
    contradiction
  next plain =>
    obtain ⟨place, led, rest⟩ := bind_eq_ok.mp rest
    split at rest
    next folder => contradiction
    next free =>
      cases rest
      have keeps : f.Keeps place data _ := put_keeps free
      unfold read
      rw [keeps.resolve led]
      simp [bind, Except.bind, keeps.file, pure, Except.pure]

end Folder

end RobotScript
