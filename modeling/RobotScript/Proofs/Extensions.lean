import Mathlib.Data.List.Basic
import Mathlib.Data.List.Induction
import RobotScript.Files.Transfer
import RobotScript.Proofs.Run
import RobotScript.Proofs.Splitting
/-!
The extensions of exported files. An extension is added at the end of a path, but looked up in its
last component: the two agree unless the path has nothing behind its last slash, in which case the
file gets a name that starts with its only point.
-/
namespace RobotScript

namespace Path

variable {path name folder suffix extension : List Char}

structure EndsWith (path name : List Char) : Prop where
  free : '/' ∉ name
  parted : ∃ folder, path = folder ++ name ∧ (folder = [] ∨ folder.getLast? = some '/')

theorem exists_endsWith (path : List Char) : ∃ name, EndsWith path name := by
  induction path using List.reverseRecOn with
  | nil => exact ⟨[], by simp, [], rfl, .inl rfl⟩
  | append_singleton path c ih =>
    by_cases slash : c = '/'
    · exact ⟨[], by simp, path ++ [c], by simp, .inr (by simp [slash])⟩
    · rcases ih with ⟨name, free, folder, rfl, parted⟩
      exact ⟨name ++ [c], by simp [free, Ne.symm slash], folder, by simp, parted⟩

theorem EndsWith.eq_nil_iff (ends : EndsWith path name) :
    name = [] ↔ path = [] ∨ path.getLast? = some '/' := by
  rcases ends with ⟨free, folder, rfl, parted⟩
  constructor
  · rintro rfl
    simpa using parted
  · rintro (nothing | slash)
    · exact (List.append_eq_nil_iff.mp nothing).2
    · by_contra named
      rw [List.getLast?_append_of_ne_nil _ named] at slash
      exact free (List.mem_of_getLast? slash)

theorem EndsWith.append (ends : EndsWith path name) (free : '/' ∉ suffix) :
    EndsWith (path ++ suffix) (name ++ suffix) where
  free := by simp [ends.free, free]
  parted := by
    rcases ends.parted with ⟨folder, rfl, parted⟩
    exact ⟨folder, List.append_assoc _ _ _, parted⟩

theorem EndsWith.exists_splitOn (ends : EndsWith path name) :
    ∃ before, Chars.splitOn '/' path = before ++ [name] := by
  rcases ends with ⟨free, folder, rfl, parted⟩
  have whole : Chars.splitOn '/' name = [name] :=
    Chars.splitWhen_whole fun c mem => by simpa using ne_of_mem_of_not_mem mem free
  rcases parted with rfl | slash
  · exact ⟨[], whole⟩
  · rcases List.getLast?_eq_some_iff.mp slash with ⟨above, rfl⟩
    refine ⟨Chars.splitOn '/' above, ?_⟩
    rw [List.append_assoc, List.singleton_append, ← whole]
    exact Chars.splitWhen_append_cons (by simp)

theorem EndsWith.fileName?_eq (ends : EndsWith path name) (named : name ≠ []) (apart : name ≠ ['.'])
    (down : name ≠ up) : fileName? path = some name := by
  rcases ends.exists_splitOn with ⟨before, split⟩
  simp [fileName?, components, pieces, split, named, apart, down]

theorem extensionOf?_append (free : '.' ∉ extension) (name : List Char) :
    extensionOf? (name ++ '.' :: extension) = if name = [] then none else some extension := by
  have split : splitLast '.' (name ++ '.' :: extension) = some (name, extension) := by
    have behind : '.' ∉ extension.reverse := by simpa using free
    simp [splitLast, Chars.splitOnce_append_cons behind]
  rw [extensionOf?, split]
  cases name <;> rfl

variable {format other : ExportFormat}

theorem EndsWith.hasExtension_append (ends : EndsWith path name) :
    hasExtension (path ++ '.' :: format.extension) other.extension = true ↔
      name ≠ [] ∧ format = other := by
  have long : ∀ rest, 3 ≤ (rest ++ '.' :: format.extension).length := by
    intro rest
    cases format <;> simp [ExportFormat.extension]
  have slashless : '/' ∉ '.' :: format.extension := by cases format <;> decide
  have pointless : '.' ∉ format.extension := by cases format <;> decide
  have named : fileName? (path ++ '.' :: format.extension) =
      some (name ++ '.' :: format.extension) := by
    apply (ends.append slashless).fileName?_eq
    · simp
    · exact fun same => absurd (same ▸ long name) (by decide)
    · exact fun same => absurd (same ▸ long name) (by decide)
  rw [hasExtension, named, Option.bind_some, extensionOf?_append pointless]
  by_cases nameless : name = []
  · simp [nameless]
  · cases format <;> cases other <;>
      simp [nameless, ExportFormat.extension, Chars.eqIgnoreCase, Chars.fold]

theorem eq_of_hasExtension (has : hasExtension path format.extension = true)
    (also : hasExtension path other.extension = true) : format = other := by
  unfold hasExtension at has also
  cases found : (fileName? path).bind extensionOf? with
  | none => simp [found] at has
  | some extension =>
    simp only [found, Chars.eqIgnoreCase, beq_iff_eq] at has also
    have same := has.symm.trans also
    cases format <;> cases other <;> simp_all [ExportFormat.extension, Chars.fold]

end Path

def ExportFormat.ofPath (path : String) : ExportFormat :=
  if Path.hasExtension path.toList ExportFormat.bytecode.extension then .bytecode else .text

def ImportData.format : ImportData → ExportFormat
  | text _ => .text
  | bytecode _ => .bytecode

theorem format_readImport {f : Folder} {path : String} {data : ImportData}
    (read : readImport f path = .ok data) : data.format = .ofPath path := by
  obtain ⟨bytes, -, rest⟩ := bind_eq_ok.mp read
  unfold ExportFormat.ofPath
  split at rest
  next bytecode =>
    obtain ⟨body, -, same⟩ := bind_eq_ok.mp rest
    cases same
    rw [if_pos bytecode]
    rfl
  next text =>
    cases rest
    rw [if_neg text]
    rfl

/-- Whether the extension of a form can be told from the path of an export: the path has it already,
or it has a name to add it to. -/
def Path.TakesExtension (path : String) (format : ExportFormat) : Prop :=
  hasExtension path.toList format.extension = true ∨
    path ≠ "" ∧ path.toList.getLast? ≠ some '/'

variable {path : String} {format other : ExportFormat}

theorem hasExtension_exportPath (path : String) (format : ExportFormat) :
    Path.hasExtension (exportPath path format).toList format.extension = true ↔
      Path.TakesExtension path format := by
  unfold exportPath Path.TakesExtension
  split
  next has => simp [has]
  next lacks =>
    obtain ⟨name, ends⟩ := Path.exists_endsWith path.toList
    rw [String.toList_ofList, ends.hasExtension_append, ne_eq, ends.eq_nil_iff]
    simp [lacks]

/-- An export has no other extension than that of its form. -/
theorem eq_of_hasExtension_exportPath
    (has : Path.hasExtension (exportPath path format).toList other.extension = true) :
    format = other := by
  unfold exportPath at has
  split at has
  next already => exact Path.eq_of_hasExtension already has
  next =>
    obtain ⟨name, ends⟩ := Path.exists_endsWith path.toList
    rw [String.toList_ofList] at has
    exact (ends.hasExtension_append.mp has).2

theorem exportPath_eq_self_iff :
    exportPath path format = path ↔ Path.hasExtension path.toList format.extension = true := by
  unfold exportPath
  split
  next has => simp [has]
  next lacks => simp [lacks]

/-- A file is imported in the form of its export, and its path is left as it is when it is exported
to again, just if the path takes the extension; but texts are imported as texts in any case. -/
theorem exportPath_recognised (path : String) (format : ExportFormat) :
    (∀ f data, readImport f (exportPath path format) = .ok data →
      data.format = .ofPath (exportPath path format)) ∧
    (ExportFormat.ofPath (exportPath path format) = format ↔
      format = .text ∨ Path.TakesExtension path format) ∧
    (exportPath (exportPath path format) format = exportPath path format ↔
      Path.TakesExtension path format) := by
  refine ⟨fun _ _ => format_readImport, ?_, ?_⟩
  · cases format with
    | bytecode =>
      rw [← hasExtension_exportPath]
      simp [ExportFormat.ofPath]
    | text =>
      have other : ¬ Path.hasExtension (exportPath path .text).toList
          ExportFormat.bytecode.extension = true := fun has =>
        absurd (eq_of_hasExtension_exportPath has) (by decide)
      simp [ExportFormat.ofPath, other]
  · rw [exportPath_eq_self_iff, hasExtension_exportPath]

theorem exportPath_recognised_file : ∃ f data, exportPath "p" .bytecode = "p.bc" ∧
    readImport f "p.bc" = .ok data ∧ data.format = .bytecode := by
  have named : exportPath "p" .bytecode = "p.bc" := by decide
  have read : readImport [("p.bc", .file [0xFF, 1, 0, 1, 0])] (exportPath "p" .bytecode) =
      .ok (.bytecode [1, 0, 1, 0]) := by
    decide +kernel
  have takes : Path.TakesExtension "p" .bytecode := .inr ⟨by decide, by decide⟩
  have recognised := exportPath_recognised "p" .bytecode
  refine ⟨_, _, named, named ▸ read, ?_⟩
  rw [recognised.1 _ _ read, recognised.2.1.mpr (.inr takes)]

/-- Behind the slash there is no name, so that the extension becomes one and is not seen as such. -/
theorem exportPath_of_folder :
    exportPath "d/" .bytecode = "d/.bc" ∧ ExportFormat.ofPath "d/.bc" = .text ∧
      exportPath "d/.bc" .bytecode = "d/.bc.bc" := by
  decide

end RobotScript
