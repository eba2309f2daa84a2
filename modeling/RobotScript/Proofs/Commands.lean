import RobotScript.Proofs.Run
import RobotScript.Proofs.Spelling
import RobotScript.Proofs.Splitting
import RobotScript.Session.ExCommand
/-!
Ex commands have a spelling, a word with an argument behind it, and are read back from it. Which
arguments a command can come with is stated exactly: they are what is left of a line after its blanks
are trimmed and its parts are split.
-/
namespace RobotScript.ExCommand

open Chars (AllBlank Neat isBlank)

/-! ### Words and arguments -/

section Words

variable {head argument word : List Char}

def joined (head argument : List Char) : List Char :=
  if argument.isEmpty then head else head ++ ' ' :: argument

structure IsWord (cs : List Char) : Prop where
  nonempty : cs ≠ []
  unbroken : ∀ c ∈ cs, isBlank c = false

theorem isWord_iff {cs : List Char} :
    IsWord cs ↔ (! cs.isEmpty) = true ∧ cs.all (! isBlank ·) = true := by
  simp only [List.all_eq_true, Bool.not_eq_true', List.isEmpty_eq_false_iff]
  constructor
  · exact fun isWord => ⟨isWord.nonempty, isWord.unbroken⟩
  · exact fun ⟨nonempty, unbroken⟩ => ⟨nonempty, unbroken⟩

instance {cs : List Char} : Decidable (IsWord cs) := decidable_of_iff' _ isWord_iff

theorem IsWord.neat (isWord : IsWord head) : Neat head where
  starts c first := isWord.unbroken c (List.mem_of_head? first)
  ends c last := isWord.unbroken c (List.mem_of_getLast? last)

theorem neat_joined (isWord : IsWord head) (neat : Neat argument) : Neat (joined head argument) := by
  unfold joined
  split
  · exact isWord.neat
  next some =>
    rw [List.isEmpty_iff] at some
    rcases List.exists_cons_of_ne_nil isWord.nonempty with ⟨x, xs, rfl⟩
    rcases List.exists_cons_of_ne_nil some with ⟨y, ys, rfl⟩
    refine ⟨fun c first => isWord.neat.starts c first, fun c last => neat.ends c ?_⟩
    rw [List.getLast?_append, List.getLast?_cons_cons] at last
    simpa using last

theorem splitHead_joined (isWord : IsWord head) (neat : Neat argument) :
    splitHead (joined head argument) = (head, argument) := by
  have passes : ∀ x ∈ head, (! isBlank x) = true := fun x mem => by simp [isWord.unbroken x mem]
  unfold joined
  split
  next none =>
    rw [List.isEmpty_iff] at none
    have taken : head.takeWhile (! isBlank ·) = head := List.takeWhile_eq_self_iff.mpr passes
    have dropped : head.dropWhile (! isBlank ·) = [] := List.dropWhile_eq_nil_iff.mpr passes
    rw [splitHead, taken, dropped, none]
    rfl
  · have taken : (head ++ ' ' :: argument).takeWhile (! isBlank ·) = head := by
      rw [List.takeWhile_append_of_pos passes]
      exact List.append_nil head
    have dropped : (head ++ ' ' :: argument).dropWhile (! isBlank ·) = [' '] ++ argument := by
      rw [List.dropWhile_append_of_pos passes]
      rfl
    rw [splitHead, taken, dropped, Chars.trimStart_append (by decide),
      Chars.trimStart_eq_self neat.starts]

theorem neat_splitHead {line : List Char} (neat : Neat line) : Neat (splitHead line).2 where
  starts _ first := Chars.head?_trimStart first
  ends c last := by
    have suffix : (splitHead line).2 <:+ line :=
      (List.dropWhile_suffix isBlank).trans (List.dropWhile_suffix (! isBlank ·))
    rcases suffix with ⟨front, whole⟩
    refine neat.ends c ?_
    rw [← whole, List.getLast?_append, last]
    rfl

theorem words_joined (isWord : IsWord word) (rest : List Char) :
    words (joined word rest) = word :: words rest := by
  have whole : Chars.splitWhen isBlank word = [word] := Chars.splitWhen_whole isWord.unbroken
  have kept : (!word.isEmpty) = true := by simp [isWord.nonempty]
  unfold joined
  split
  next none =>
    rw [List.isEmpty_iff] at none
    simp [words, whole, kept, none, Chars.splitWhen]
  · rw [words, Chars.splitWhen_append_cons (by decide), whole, List.filter_append]
    simp [kept, words]

theorem isWord_of_mem_words {cs : List Char} (mem : word ∈ words cs) : IsWord word := by
  rw [words, List.mem_filter] at mem
  exact ⟨by simpa using mem.2, fun x inside => (Chars.mem_of_mem_splitWhen mem.1 x inside).2⟩

end Words

/-! ### Spellings -/

def word : ExCommand → String
  | write => "write"
  | quit => "quit"
  | forceQuit => "quit!"
  | writeQuit => "wq"
  | goto _ => "goto"
  | find _ => "find"
  | replace _ _ => "replace"
  | replaceAll _ _ => "replaceall"
  | markStart | markEnd | markClear => "mark"
  | copy => "copy"
  | cut => "cut"
  | clear => "clear"
  | paste => "paste"
  | validate _ => "validate"
  | runMacro _ => "macro"
  | quick _ => "quick"
  | importFile _ => "import"
  | exportFile _ _ _ => "export"

def options : ExportRegion → ExportFormat → String
  | .program, .text => ""
  | .program, .bytecode => "bc"
  | .block, .text => "block"
  | .block, .bytecode => "block bc"

def argument : ExCommand → List Char
  | goto number | quick number => Chars.decimal number
  | find text | runMacro text | importFile text => text.toList
  | replace pattern replacement | replaceAll pattern replacement =>
    pattern.toList ++ '/' :: replacement.toList
  | markStart => "start".toList
  | markEnd => "end".toList
  | markClear => "clear".toList
  | validate disposition => ((disposition.map Disposition.word).getD "").toList
  | exportFile path region format => joined path.toList (options region format).toList
  | write | quit | forceQuit | writeQuit | copy | cut | clear | paste => []

/-- The canonical spelling of a command. -/
def spelling (command : ExCommand) : List Char :=
  joined command.word.toList command.argument

/-- Whether a command can be written: its numbers are within their bounds, and its texts are such
that neither trimming nor splitting takes anything off them. -/
def Proper : ExCommand → Prop
  | goto line => line ≤ Bounds.max64
  | quick slot => Settings.isSlot slot
  | find text | runMacro text | importFile text => text ≠ "" ∧ Neat text.toList
  | replace pattern replacement | replaceAll pattern replacement =>
    pattern ≠ "" ∧ '/' ∉ pattern.toList ∧ Neat (pattern.toList ++ '/' :: replacement.toList)
  | exportFile path _ _ => IsWord path.toList
  | _ => True

theorem isWord_word (command : ExCommand) : IsWord command.word.toList := by
  cases command <;> (dsimp only [word]; decide)

theorem neat_decimal (n : Nat) : Neat (Chars.decimal n) := by
  have digits : IsWord (Chars.decimal n) := by
    refine ⟨by simp [Chars.decimal], fun c mem => ?_⟩
    exact Chars.isBlank_of_isAlphanum (Chars.isAlphanum_of_isDigit (Chars.isDigit_of_mem_decimal mem))
  exact digits.neat

theorem neat_argument {command : ExCommand} (proper : command.Proper) : Neat command.argument := by
  cases command with
  | goto line => exact neat_decimal line
  | quick slot => exact neat_decimal slot
  | find text => exact proper.2
  | runMacro text => exact proper.2
  | importFile text => exact proper.2
  | replace pattern replacement => exact proper.2.2
  | replaceAll pattern replacement => exact proper.2.2
  | exportFile path region format =>
    have written : Neat (options region format).toList := by
      cases region <;> cases format <;> decide
    exact neat_joined proper written
  | validate disposition =>
    rcases disposition with - | disposition
    · decide
    · cases disposition <;> decide
  | _ => decide

/-- A line is read as its spelling says, whatever blanks stand around it. -/
theorem parse_padded {line before behind : List Char} (neat : Neat line) (leading : AllBlank before)
    (trailing : AllBlank behind) :
    parse (String.ofList (before ++ line ++ behind)) = parse (String.ofList line) := by
  unfold parse
  simp only [String.toList_ofList, neat.trim_padded leading trailing, neat.trim_eq]

/-! ### Reading arguments -/

section Arguments

variable {head path : String} {rest : List Char} {command : ExCommand}

theorem required_eq_ok {text : List Char} :
    required head rest = .ok text ↔ rest = text ∧ rest ≠ [] := by
  unfold required
  split
  next none => simp [List.isEmpty_iff.mp none]
  next some => simp [List.isEmpty_iff.not.mp some]

theorem pair_eq_ok {pattern replacement : String} :
    pair head rest = .ok (pattern, replacement) ↔
      pattern ≠ "" ∧ '/' ∉ pattern.toList ∧
        rest = pattern.toList ++ '/' :: replacement.toList := by
  unfold pair
  rw [bind_eq_ok]
  constructor
  · rintro ⟨text, read, parted⟩
    rcases required_eq_ok.mp read with ⟨rfl, -⟩
    split at parted
    next c front behind split =>
      cases parted
      rcases Chars.splitOnce_eq_some_iff.mp split with ⟨free, whole⟩
      refine ⟨by simp, by rwa [String.toList_ofList], ?_⟩
      rwa [String.toList_ofList, String.toList_ofList]
    · cases parted
  · rintro ⟨some, free, rfl⟩
    refine ⟨_, required_eq_ok.mpr ⟨rfl, by simp⟩, ?_⟩
    rw [Chars.splitOnce_append_cons free]
    cases written : pattern.toList with
    | nil => exact absurd (String.toList_eq_nil_iff.mp written) some
    | cons c front => simp [← written, pure, Except.pure]

theorem read_required (build : String → ExCommand) {text : String} (some : text ≠ "") :
    (do return build (String.ofList (← required head text.toList))) = .ok (build text) := by
  have kept : text.toList ≠ [] := fun none => some (String.toList_eq_nil_iff.mp none)
  rw [bind_eq_ok]
  exact ⟨text.toList, required_eq_ok.mpr ⟨rfl, kept⟩, by rw [String.ofList_toList]; rfl⟩

theorem read_pair (build : String → String → ExCommand) {pattern replacement : String}
    (some : pattern ≠ "") (free : '/' ∉ pattern.toList) :
    (do
      let (pattern, replacement) ← pair head (pattern.toList ++ '/' :: replacement.toList)
      return build pattern replacement) = .ok (build pattern replacement) :=
  bind_eq_ok.mpr ⟨(pattern, replacement), pair_eq_ok.mpr ⟨some, free, rfl⟩, rfl⟩

theorem proper_of_required {build : String → ExCommand}
    (builds : build = find ∨ build = runMacro ∨ build = importFile) (neat : Neat rest)
    (read : (do return build (String.ofList (← required head rest))) = .ok command) :
    command.Proper := by
  rcases bind_eq_ok.mp read with ⟨text, taken, built⟩
  rcases required_eq_ok.mp taken with ⟨rfl, some⟩
  cases built
  have proper : String.ofList rest ≠ "" ∧ Neat (String.ofList rest).toList := by
    rw [String.toList_ofList]
    exact ⟨fun none => some (by simpa using none), neat⟩
  rcases builds with rfl | rfl | rfl <;> exact proper

theorem proper_of_pair {build : String → String → ExCommand}
    (builds : build = replace ∨ build = replaceAll) (neat : Neat rest)
    (read : (do
      let (pattern, replacement) ← pair head rest
      return build pattern replacement) = .ok command) : command.Proper := by
  rcases bind_eq_ok.mp read with ⟨⟨pattern, replacement⟩, taken, built⟩
  rcases pair_eq_ok.mp taken with ⟨some, free, rfl⟩
  cases built
  rcases builds with rfl | rfl <;> exact ⟨some, free, neat⟩

theorem exportOptions_eq_ok {region : ExportRegion} {format : ExportFormat}
    {ws : List (List Char)} (read : exportOptions path region format ws = .ok command) :
    ∃ region format, command = exportFile path region format := by
  induction ws generalizing region format with
  | nil =>
    cases read
    exact ⟨region, format, rfl⟩
  | cons word ws ih =>
    unfold exportOptions at read
    split at read
    · exact ih read
    · exact ih read
    · exact ih read
    · cases read

theorem proper_of_parseExport (read : parseExport rest = .ok command) : command.Proper := by
  unfold parseExport at read
  split at read
  · cases read
  next path ws split =>
    rcases exportOptions_eq_ok read with ⟨region, format, rfl⟩
    have isWord : IsWord path := isWord_of_mem_words (split ▸ List.mem_cons_self)
    simpa [Proper] using isWord

theorem parseExport_argument {region : ExportRegion} {format : ExportFormat}
    (isWord : IsWord path.toList) :
    parseExport (exportFile path region format).argument = .ok (exportFile path region format) := by
  show parseExport (joined path.toList (options region format).toList) = _
  simp only [parseExport, words_joined isWord, String.ofList_toList]
  cases region <;> cases format <;> rfl

theorem proper_of_parseGoto (read : parseGoto rest = .ok command) : command.Proper := by
  unfold parseGoto at read
  split at read
  next line number =>
    cases read
    have bounded := (Option.filter_eq_some_iff.mp number).2
    rwa [decide_eq_true_eq] at bounded
  · cases read

theorem proper_of_parseQuick (read : parseQuick rest = .ok command) : command.Proper := by
  unfold parseQuick at read
  split at read
  next slot number =>
    cases read
    exact (Option.filter_eq_some_iff.mp number).2
  · cases read

theorem proper_of_parseMark {rest : String} (read : parseMark rest = .ok command) :
    command.Proper := by
  unfold parseMark at read
  split at read
  · cases read; trivial
  · cases read; trivial
  · cases read; trivial
  · cases read

theorem proper_of_parseValidate {rest : String} (read : parseValidate rest = .ok command) :
    command.Proper := by
  unfold parseValidate at read
  split at read
  · cases read; trivial
  · split at read
    · cases read; trivial
    · cases read

end Arguments

theorem parse_spelling_of_proper {command : ExCommand} (proper : command.Proper) :
    parse (String.ofList command.spelling) = .ok command := by
  have neat : Neat command.spelling := neat_joined (isWord_word command) (neat_argument proper)
  have split : splitHead command.spelling = (command.word.toList, command.argument) :=
    splitHead_joined (isWord_word command) (neat_argument proper)
  unfold parse
  simp only [String.toList_ofList, neat.trim_eq, split, String.ofList_toList]
  cases command with
  | goto line =>
    have bounded : line ≤ Bounds.max64 := proper
    show parseGoto (Chars.decimal line) = _
    rw [parseGoto, Chars.readNat_decimal, if_pos bounded]
  | quick slot =>
    have isSlot : Settings.isSlot slot = true := proper
    have bounded : slot ≤ Bounds.max64 := by
      rw [Settings.isSlot, Bool.and_eq_true, decide_eq_true_eq, decide_eq_true_eq] at isSlot
      exact Nat.le_trans isSlot.2 (by decide)
    show parseQuick (Chars.decimal slot) = _
    rw [parseQuick, Chars.readNat_decimal, if_pos bounded, Option.filter_some, if_pos isSlot]
  | find text | runMacro text | importFile text =>
    exact read_required _ proper.1
  | replace pattern replacement | replaceAll pattern replacement =>
    exact read_pair _ proper.1 proper.2.1
  | exportFile path region format => exact parseExport_argument proper
  | validate disposition =>
    rcases disposition with - | disposition
    · rfl
    · cases disposition <;> rfl
  | _ => rfl

theorem proper_of_parse {text : String} {command : ExCommand} (parsed : parse text = .ok command) :
    command.Proper := by
  have neat : Neat (splitHead (Chars.trim text.toList)).2 :=
    neat_splitHead (Chars.neat_trim text.toList)
  unfold parse at parsed
  dsimp only at parsed
  generalize (splitHead (Chars.trim text.toList)).2 = rest at parsed neat
  split at parsed
  case h_9 => exact proper_of_parseGoto parsed
  case h_10 => exact proper_of_required (.inl rfl) neat parsed
  case h_11 => exact proper_of_pair (.inl rfl) neat parsed
  case h_12 => exact proper_of_pair (.inr rfl) neat parsed
  case h_13 => exact proper_of_parseMark parsed
  case h_18 => exact proper_of_parseValidate parsed
  case h_19 => exact proper_of_required (.inr (.inl rfl)) neat parsed
  case h_20 => exact proper_of_parseQuick parsed
  case h_21 => exact proper_of_required (.inr (.inr rfl)) neat parsed
  case h_22 => exact proper_of_parseExport parsed
  all_goals cases parsed <;> trivial

/-- The commands that are read from some text are the proper ones, and whatever text a command was
read from, it is read again from its spelling, with any blanks around that. -/
theorem parse_spelling (command : ExCommand) :
    ((∃ text, parse text = .ok command) ↔ command.Proper) ∧
      ∀ text before behind, parse text = .ok command → AllBlank before → AllBlank behind →
        parse (String.ofList (before ++ command.spelling ++ behind)) = .ok command := by
  refine ⟨⟨fun ⟨text, parsed⟩ => proper_of_parse parsed, fun proper => ?_⟩, ?_⟩
  · exact ⟨String.ofList command.spelling, parse_spelling_of_proper proper⟩
  · intro text before behind parsed leading trailing
    have proper : command.Proper := proper_of_parse parsed
    have neat : Neat command.spelling := neat_joined (isWord_word command) (neat_argument proper)
    rw [parse_padded neat leading trailing]
    exact parse_spelling_of_proper proper

theorem parse_spelling_replace :
    parse "  replace   a b/c  /d  " = .ok (replace "a b" "c  /d") ∧
      parse "\t\u3000replace a b/c  /d\u00A0" = .ok (replace "a b" "c  /d") := by
  have parsed : parse "  replace   a b/c  /d  " = .ok (replace "a b" "c  /d") := by decide
  have leading : AllBlank "\t\u3000".toList := by decide
  have trailing : AllBlank "\u00A0".toList := by decide
  have spelled : String.ofList ("\t\u3000".toList ++ (replace "a b" "c  /d").spelling ++
      "\u00A0".toList) = "\t\u3000replace a b/c  /d\u00A0" := by
    decide
  have read := (parse_spelling _).2 _ _ _ parsed leading trailing
  exact ⟨parsed, (congrArg parse spelled.symm).trans read⟩

end RobotScript.ExCommand
