import Mathlib.Data.List.Basic
import RobotScript.Proofs.Sessions
import RobotScript.Proofs.Splitting
/-!
Copying a block and pasting it. Without a clipboard the texts are kept as they are. A clipboard
holds them as one text, with a line feed between any two of them but none behind the last: its rows
are the texts again, except that a blank last one ends no row.
-/
namespace RobotScript

namespace Chars

theorem splitOn_intercalate {sep : Char} {pieces : List (List Char)} (nonempty : pieces ≠ [])
    (free : ∀ piece ∈ pieces, sep ∉ piece) : splitOn sep ([sep].intercalate pieces) = pieces := by
  rw [splitOn, splitWhen_eq_splitOnP]
  exact List.splitOn_intercalate sep free nonempty

theorem rows_intercalate {pieces : List (List Char)} (free : ∀ piece ∈ pieces, '\n' ∉ piece)
    (ends : ∀ piece ∈ pieces, piece.getLast? ≠ some '\r') :
    rows (['\n'].intercalate pieces) =
      if pieces.getLast? = some [] then pieces.dropLast else pieces := by
  rcases List.eq_nil_or_concat pieces with rfl | ⟨init, last, same⟩
  · rfl
  · rw [List.concat_eq_append] at same
    subst same
    have kept : init.map dropReturn = init := by
      calc init.map dropReturn = init.map id :=
            List.map_congr_left fun piece among => if_neg (ends piece (List.mem_append_left _ among))
        _ = init := List.map_id init
    unfold rows
    rw [splitOn_intercalate (by simp) free]
    by_cases empty : last = [] <;> simp [empty, kept]

end Chars

namespace Clipboard

/-- Whether a text makes up a row of its own. -/
def IsRow (text : String) : Prop :=
  '\n' ∉ text.toList ∧ text.toList.getLast? ≠ some '\r'

def withoutBlankLast (texts : List String) : List String :=
  if texts.getLast? = some "" then texts.dropLast else texts

theorem splitLines_joinLines {texts : List String} (rows : ∀ text ∈ texts, IsRow text) :
    splitLines (joinLines texts) = withoutBlankLast texts := by
  have free : ∀ piece ∈ texts.map String.toList, '\n' ∉ piece := by
    intro piece mem
    rcases List.mem_map.mp mem with ⟨text, among, rfl⟩
    exact (rows text among).1
  have ends : ∀ piece ∈ texts.map String.toList, piece.getLast? ≠ some '\r' := by
    intro piece mem
    rcases List.mem_map.mp mem with ⟨text, among, rfl⟩
    exact (rows text among).2
  have back : ∀ ls : List String, (ls.map String.toList).map String.ofList = ls := by
    intro ls
    simp
  have blank : (texts.map String.toList).getLast? = some [] ↔ texts.getLast? = some "" := by
    rw [List.getLast?_map, Option.map_eq_some_iff]
    simp
  have feed : "\n".toList = ['\n'] := rfl
  unfold splitLines joinLines withoutBlankLast
  rw [String.toList_intercalate, feed, Chars.rows_intercalate free ends]
  simp only [blank, ← List.map_dropLast]
  split <;> exact back _

end Clipboard

namespace Session

variable {c : Config} {s : Session}

theorem pasteTexts_copy_of_unavailable (none : s.clipboard = .unavailable) (texts : List String) :
    (s.copy texts).pasteTexts = texts := by
  rw [copy_of_unavailable none]
  unfold pasteTexts
  rw [none]
  rfl

/-- A clipboard without text is passed over, so that the rows of its text are pasted even then, if
nothing was kept in its stead. -/
theorem pasteTexts_copy_of_available (some : s.clipboard ≠ .unavailable)
    (nothing : s.copyBuffer = []) (texts : List String) :
    (s.copy texts).pasteTexts = Clipboard.splitLines (Clipboard.joinLines texts) := by
  rw [copy_of_available some]
  unfold pasteTexts
  by_cases empty : Clipboard.joinLines texts = ""
  · rw [empty]
    exact nothing
  · simp [Clipboard.read?, Option.filter, empty]

theorem exists_run_copy (s : Session) :
    ∃ told : Session, told.clipboard = s.clipboard ∧ told.copyBuffer = s.copyBuffer ∧
      s.run .copy = .ok ⟨.ok .goOn, told.copy s.editor.script.copyBlock⟩ :=
  ⟨{ s with
      editor := s.editor.beginCommand
      status := s!"Copied {s.editor.script.copyBlock.length} line(s)" }, rfl, rfl, rfl⟩

/-- However a session came about, copying a block of rows and pasting it offers the texts of the
block; but on a clipboard a blank last one is lost. -/
theorem Reachable.paste_copied (reached : Reachable c s)
    (rows : ∀ text ∈ s.editor.script.copyBlock, Clipboard.IsRow text) :
    ∃ t, s.run .copy = .ok ⟨.ok .goOn, t⟩ ∧
      (s.clipboard = .unavailable → t.pasteTexts = s.editor.script.copyBlock) ∧
      (s.clipboard ≠ .unavailable →
        t.pasteTexts = Clipboard.withoutBlankLast s.editor.script.copyBlock) ∧
      (s.editor.script.copyBlock.getLast? ≠ some "" →
        t.pasteTexts = s.editor.script.copyBlock) := by
  rcases exists_run_copy s with ⟨told, clipboard, buffer, copied⟩
  refine ⟨_, copied, ?_⟩
  have without : s.clipboard = .unavailable →
      (told.copy s.editor.script.copyBlock).pasteTexts = s.editor.script.copyBlock :=
    fun none => pasteTexts_copy_of_unavailable (clipboard.trans none) _
  have inside : s.clipboard ≠ .unavailable →
      (told.copy s.editor.script.copyBlock).pasteTexts =
        Clipboard.withoutBlankLast s.editor.script.copyBlock := by
    intro available
    have nothing := reached.copyBuffer_eq_nil available
    rw [pasteTexts_copy_of_available (clipboard ▸ available) (buffer.trans nothing),
      Clipboard.splitLines_joinLines rows]
  refine ⟨without, inside, ?_⟩
  intro solid
  by_cases none : s.clipboard = .unavailable
  · exact without none
  · rw [inside none, Clipboard.withoutBlankLast, if_neg solid]

theorem exists_pair (clipboard : Clipboard) : ∃ s, Reachable {} s ∧ s.clipboard = clipboard ∧
    s.copyBuffer = [] ∧ s.editor.script.copyBlock = ["END", ""] := by
  have marked : ([.placeMark .start, .gotoLine 2, .placeMark .stop].foldlM Editor.perform
      (opened [0xFF, 1, 0, 1, 1, 0x2F, 1, 0] .unavailable).editor).map (·.script.copyBlock) =
      .ok ["END", ""] := by
    decide +kernel
  rcases map_eq_ok.mp marked with ⟨e, done, block⟩
  have reached := reachable_opened [0xFF, 1, 0, 1, 1, 0x2F, 1, 0] (by simp) clipboard
  exact ⟨_, reached.edits done, rfl, rfl, block⟩

theorem paste_copied_pair : ∃ s t, Reachable {} s ∧ s.clipboard = .unavailable ∧
    (∀ text ∈ s.editor.script.copyBlock, Clipboard.IsRow text) ∧
    s.run .copy = .ok ⟨.ok .goOn, t⟩ ∧ t.pasteTexts = ["END", ""] := by
  rcases exists_pair .unavailable with ⟨s, reached, none, -, block⟩
  have rows : ∀ text ∈ s.editor.script.copyBlock, Clipboard.IsRow text := by
    rw [block]
    simp [Clipboard.IsRow]
  rcases reached.paste_copied rows with ⟨t, copied, same, -⟩
  exact ⟨s, t, reached, none, rows, copied, (same none).trans block⟩

/-- The same block by way of a clipboard: of its two lines one is pasted. -/
theorem paste_copied_loses_blank : ∃ s t, Reachable {} s ∧ s.clipboard = .available none ∧
    (∀ text ∈ s.editor.script.copyBlock, Clipboard.IsRow text) ∧
    s.editor.script.copyBlock = ["END", ""] ∧
    s.run .copy = .ok ⟨.ok .goOn, t⟩ ∧ t.pasteTexts = ["END"] := by
  rcases exists_pair (.available none) with ⟨s, reached, some, nothing, block⟩
  rcases exists_run_copy s with ⟨told, clipboard, buffer, copied⟩
  refine ⟨s, _, reached, some, by simp [block, Clipboard.IsRow], block, copied, ?_⟩
  rw [block, pasteTexts_copy_of_available (by simp [clipboard, some]) (buffer.trans nothing)]
  rfl

end Session

end RobotScript
