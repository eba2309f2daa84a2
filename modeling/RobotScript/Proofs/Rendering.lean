import Mathlib.Data.List.TakeWhile
import RobotScript.Proofs.Record
import RobotScript.Proofs.Spelling
/-!
The canonical text of a statement, read again. Tokens that are set apart by blanks are scanned one
by one, but a quote in a text closes it early, so that the argument comes back as another one. A
remark keeps its quotes, as it is the whole rest of the line.
-/
namespace RobotScript

namespace Token

variable {t : Token} {ts : List Token} {c : Char} {cs rest : List Char}

theorem scan?_nil : scan? [] = some [] := by
  rw [scan?.eq_def]

theorem scan?_blank (blank : Chars.isBlank c = true) : scan? (c :: cs) = scan? cs := by
  rw [scan?.eq_def]
  exact if_pos blank

theorem scan?_word (word : Chars.isBlank c = false) (noQuote : c ≠ '"') (noTick : c ≠ '\'') :
    scan? (c :: cs) = (scan? (cs.dropWhile (! Chars.isBlank ·))).map
      (bare (c :: cs.takeWhile (! Chars.isBlank ·)) :: ·) := by
  rw [scan?.eq_def]
  simp only [word, noQuote, noTick, Bool.false_eq_true, if_false]
  cases scan? (cs.dropWhile (! Chars.isBlank ·)) <;> rfl

theorem scan?_char : scan? ('\'' :: c :: '\'' :: cs) = (scan? cs).map (char c :: ·) := by
  have noBlank : Chars.isBlank '\'' = false := rfl
  have noQuote : ¬ '\'' = '"' := by decide
  rw [scan?.eq_def]
  simp only [noBlank, noQuote, Bool.false_eq_true, if_false, if_true]
  cases scan? cs <;> rfl

theorem scan?_quote (cs : List Char) :
    scan? ('"' :: cs) = ((cs.dropWhile (· != '"')).tail?.bind scan?).map
      (quoted (cs.takeWhile (· != '"')) :: ·) := by
  have noBlank : Chars.isBlank '"' = false := rfl
  rw [scan?.eq_def]
  simp only [noBlank, Bool.false_eq_true, if_false, if_true]
  split
  next ended =>
    rw [ended]
    rfl
  next after closed =>
    rw [closed, List.tail?_cons, Option.bind_some]
    cases scan? after <;> rfl

def Apart (rest : List Char) : Prop := ∀ c, rest.head? = some c → Chars.isBlank c = true

theorem span_bare (word : ∀ x ∈ cs, Chars.isBlank x = false) (apart : Apart rest) :
    (cs ++ rest).takeWhile (! Chars.isBlank ·) = cs ∧
      (cs ++ rest).dropWhile (! Chars.isBlank ·) = rest := by
  have all : ∀ x ∈ cs, (! Chars.isBlank x) = true := by simpa using word
  rw [List.takeWhile_append_of_pos all, List.dropWhile_append_of_pos all]
  cases rest with
  | nil => simp
  | cons d rest => simp [apart d rfl]

theorem span_quoted (unquoted : '"' ∉ cs) (rest : List Char) :
    (cs ++ '"' :: rest).takeWhile (· != '"') = cs ∧
      (cs ++ '"' :: rest).dropWhile (· != '"') = '"' :: rest := by
  have all : ∀ x ∈ cs, (x != '"') = true := by
    intro x mem
    simp only [bne_iff_ne, ne_eq]
    rintro rfl
    exact unquoted mem
  rw [List.takeWhile_append_of_pos all, List.dropWhile_append_of_pos all]
  simp

theorem scan?_source (plain : t.Plain) (apart : Apart rest) :
    scan? (t.source ++ rest) = (scan? rest).map (t :: ·) := by
  cases t with
  | bare word =>
    obtain ⟨⟨c, cs, rfl, noQuote, noTick⟩, word⟩ := plain
    obtain ⟨taken, dropped⟩ :=
      span_bare (fun x mem => word x (List.mem_cons_of_mem c mem)) apart
    rw [source, List.cons_append, scan?_word (word c List.mem_cons_self) noQuote noTick, taken,
      dropped]
  | quoted text =>
    obtain ⟨taken, dropped⟩ := span_quoted plain rest
    have spelled : source (.quoted text) ++ rest = '"' :: (text ++ '"' :: rest) := by simp [source]
    rw [spelled, scan?_quote, taken, dropped]
    rfl
  | char c => exact scan?_char

theorem eq_quoted_of_scan? (scanned : scan? ('"' :: cs) = some ts) :
    ∃ text others, ts = .quoted text :: others ∧ '"' ∉ text := by
  rw [scan?_quote] at scanned
  obtain ⟨others, -, rfl⟩ := Option.map_eq_some_iff.mp scanned
  refine ⟨_, others, rfl, ?_⟩
  intro mem
  simpa using List.mem_takeWhile_imp mem

end Token

namespace Statement

variable {command : String} {index : Nat} {kind : ArgKind} {kinds : List ArgKind} {value : Operand}
  {values : List Operand} {token : Token} {tokens : List Token} {rest : List Char}

def arguments (kinds : List ArgKind) (values : List Operand) : List Char :=
  (kinds.zip values).flatMap fun (kind, value) => ' ' :: value.render kind

theorem render_eq (s : Statement) :
    s.render = s.instruction.name ++ arguments s.instruction.params s.operands := rfl

@[simp] theorem arguments_nil (values : List Operand) : arguments [] values = [] := rfl

@[simp] theorem arguments_cons (kind : ArgKind) (kinds : List ArgKind) (value : Operand)
    (values : List Operand) :
    arguments (kind :: kinds) (value :: values) =
      ' ' :: (value.render kind ++ arguments kinds values) := rfl

theorem apart_arguments (kinds : List ArgKind) (values : List Operand) :
    Token.Apart (arguments kinds values) := by
  intro c first
  cases kinds with
  | nil => contradiction
  | cons kind kinds =>
    cases values with
    | nil => contradiction
    | cons value values =>
      cases first
      rfl

theorem readOperands_cons :
    readOperands command index (kind :: kinds) (token :: tokens) = .ok (value :: values) ↔
      Operand.ofToken? kind token = some value ∧
        readOperands command (index + 1) kinds tokens = .ok values := by
  rw [readOperands]
  cases Operand.ofToken? kind token with
  | none => simp [bind, Except.bind]
  | some read =>
    cases readOperands command (index + 1) kinds tokens with
    | error err => simp [bind, Except.bind]
    | ok others => simp [bind, Except.bind, pure, Except.pure]

theorem scan?_argument (fits : Operand.Fits kind value)
    (unquoted : ∀ cs, value = .text cs → '"' ∉ cs) (apart : Token.Apart rest) :
    ∃ token, Token.scan? (' ' :: (value.render kind ++ rest)) =
        (Token.scan? rest).map (token :: ·) ∧
      (Operand.ofToken? kind token = some value ↔ Operand.Spelled kind value) := by
  rw [Token.scan?_blank rfl]
  cases value with
  | number w =>
    obtain ⟨token, plain, spelled, read⟩ := Operand.exists_token_number fits w
    exact ⟨token, spelled ▸ Token.scan?_source plain apart, read⟩
  | text cs =>
    have clean := unquoted cs rfl
    obtain ⟨token, plain, spelled, read⟩ := Operand.exists_token_text fits clean
    exact ⟨token, spelled ▸ Token.scan?_source plain apart, by simp [read, Operand.Spelled, clean]⟩

theorem readOperands_arguments (fits : List.Forall₂ Operand.Fits kinds values)
    (spelled : List.Forall₂ Operand.Spelled kinds values) :
    ∃ tokens, Token.scan? (arguments kinds values) = some tokens ∧
      tokens.length = kinds.length ∧ readOperands command index kinds tokens = .ok values := by
  induction fits generalizing index with
  | nil => exact ⟨[], Token.scan?_nil, rfl, rfl⟩
  | @cons kind value kinds values fit fits ih =>
    cases spelled with
    | cons first others =>
      obtain ⟨tokens, scanned, length, read⟩ := @ih (index + 1) others
      obtain ⟨token, one, back⟩ := scan?_argument fit
        (fun cs same => by subst same; exact first) (apart_arguments kinds values)
      refine ⟨token :: tokens, ?_, by simp [length], ?_⟩
      · rw [arguments_cons, one, scanned, Option.map_some]
      · exact readOperands_cons.mpr ⟨back.mpr first, read⟩

theorem spelled_of_readOperands (fits : List.Forall₂ Operand.Fits kinds values)
    (scanned : Token.scan? (arguments kinds values) = some tokens)
    (read : readOperands command index kinds tokens = .ok values) :
    List.Forall₂ Operand.Spelled kinds values := by
  induction fits generalizing index tokens with
  | nil => exact .nil
  | @cons kind value kinds values fit fits ih =>
    rw [arguments_cons] at scanned
    by_cases quoted : ∃ cs, value = .text cs ∧ '"' ∈ cs
    · -- The text is read up to its first quote, and so is another one.
      obtain ⟨cs, rfl, mem⟩ := quoted
      rw [Operand.render_of_mem mem, Token.scan?_blank rfl] at scanned
      obtain ⟨text, others, rfl, clean⟩ := Token.eq_quoted_of_scan? scanned
      have first := (readOperands_cons.mp read).1
      have same : text = cs := by cases kind <;> simp_all [Operand.ofToken?]
      exact absurd (same ▸ mem) clean
    · have unquoted : ∀ cs, value = .text cs → '"' ∉ cs := fun cs same mem => quoted ⟨cs, same, mem⟩
      obtain ⟨token, one, back⟩ := scan?_argument fit unquoted (apart_arguments kinds values)
      rw [one] at scanned
      obtain ⟨others, scannedOthers, rfl⟩ := Option.map_eq_some_iff.mp scanned
      obtain ⟨first, readOthers⟩ := readOperands_cons.mp read
      exact .cons (back.mp first) (ih scannedOthers readOthers)

/-! ### Whole lines -/

theorem getLast?_quote (cs : List Char) : (Operand.quote cs).getLast? = some '"' := by
  rw [Operand.quote]
  exact List.getLast?_concat

theorem getLast?_source {token : Token} (plain : token.Plain) :
    ∃ c, token.source.getLast? = some c ∧ Chars.isBlank c = false := by
  cases token with
  | bare word =>
    obtain ⟨⟨c, cs, rfl, -, -⟩, word⟩ := plain
    have nonempty : c :: cs ≠ [] := List.cons_ne_nil c cs
    exact ⟨_, List.getLast?_eq_some_getLast nonempty, word _ (List.getLast_mem nonempty)⟩
  | quoted text => exact ⟨'"', getLast?_quote text, rfl⟩
  | char c => exact ⟨'\'', rfl, rfl⟩

theorem getLast?_render (fits : Operand.Fits kind value) :
    ∃ c, (value.render kind).getLast? = some c ∧ Chars.isBlank c = false := by
  cases value with
  | number w =>
    obtain ⟨token, plain, spelled, -⟩ := Operand.exists_token_number fits w
    exact spelled ▸ getLast?_source plain
  | text cs =>
    by_cases mem : '"' ∈ cs
    · rw [Operand.render_of_mem mem]
      exact ⟨'"', getLast?_quote cs, rfl⟩
    · obtain ⟨token, plain, spelled, -⟩ := Operand.exists_token_text fits mem
      exact spelled ▸ getLast?_source plain

theorem getLast?_arguments {name : List Char} {last : Char} (ends : name.getLast? = some last)
    (solid : Chars.isBlank last = false) (fits : List.Forall₂ Operand.Fits kinds values) :
    ∃ c, (name ++ arguments kinds values).getLast? = some c ∧ Chars.isBlank c = false := by
  induction fits generalizing name last with
  | nil => exact ⟨last, by simpa using ends, solid⟩
  | @cons kind value kinds values fit fits ih =>
    obtain ⟨c, stops, solid⟩ := getLast?_render fit
    have longer : (name ++ ' ' :: value.render kind).getLast? = some c := by
      simp [List.getLast?_append, List.getLast?_cons, stops]
    simpa using ih longer solid

structure Leads (name : List Char) : Prop where
  nonempty : name ≠ []
  solid : ∀ c ∈ name, Chars.isBlank c = false
  noPoint : '.' ∉ name
  symbols : name = ['*'] ∨ name = [':'] ∨ '*' ∉ name ∧ ':' ∉ name

theorem leads_name {i : Instruction} (known : i ∈ Instruction.all) (blank : i ≠ .blank)
    (comment : i ≠ .comment) : Leads i.name := by
  have all : ∀ i ∈ Instruction.all, i ≠ .blank → i ≠ .comment → i.name ≠ [] ∧
      i.name.all (! Chars.isBlank ·) = true ∧ '.' ∉ i.name ∧
      (i.name = ['*'] ∨ i.name = [':'] ∨ '*' ∉ i.name ∧ ':' ∉ i.name) := by
    decide
  obtain ⟨nonempty, solid, noPoint, symbols⟩ := all i known blank comment
  exact ⟨nonempty, by simpa using solid, noPoint, symbols⟩

theorem ofName?_name {i : Instruction} (known : i ∈ Instruction.all) (named : i.name ≠ []) :
    Instruction.ofName? i.name = some i := by
  revert i
  decide

theorem splitName_append {name : List Char} (leads : Leads name) (apart : Token.Apart rest) :
    splitName (name ++ rest) = (name, rest) := by
  rcases leads.symbols with rfl | rfl | ⟨noStar, noColon⟩
  · rfl
  · rfl
  · obtain ⟨taken, dropped⟩ := Token.span_bare leads.solid apart
    obtain ⟨c, cs, rfl⟩ := List.exists_cons_of_ne_nil leads.nonempty
    unfold splitName
    split
    next star =>
      cases star
      exact absurd List.mem_cons_self noStar
    next colon =>
      cases colon
      exact absurd List.mem_cons_self noColon
    next => rw [taken, dropped]

theorem parse_render_eq {s : Statement} (typed : s.WellTyped) (leads : Leads s.instruction.name) :
    parse s.render = ofArguments s.instruction (arguments s.instruction.params s.operands) := by
  have named := ofName?_name typed.known leads.nonempty
  have cut := splitName_append leads (apart_arguments s.instruction.params s.operands)
  have last := List.getLast?_eq_some_getLast leads.nonempty
  obtain ⟨stop, ends, solid⟩ :=
    getLast?_arguments last (leads.solid _ (List.getLast_mem leads.nonempty)) typed.fits
  obtain ⟨c, cs, split⟩ := List.exists_cons_of_ne_nil leads.nonempty
  have first : c ∈ s.instruction.name := split ▸ List.mem_cons_self
  have trimmed : Chars.trim s.render = s.render := by
    rw [render_eq]
    rw [split, List.cons_append] at ends ⊢
    exact Chars.trim_eq_self (leads.solid c first) solid ends
  unfold parse
  rw [trimmed, render_eq]
  split
  next empty =>
    rw [split] at empty
    contradiction
  next point =>
    rw [split] at point
    cases point
    exact absurd first leads.noPoint
  next =>
    rw [cut]
    dsimp only
    rw [named]

theorem ofArguments_eq_ok {i : Instruction} {values : List Operand} :
    ofArguments i rest = .ok ⟨i, values⟩ ↔ ∃ tokens, Token.scan? rest = some tokens ∧
      tokens.length ≤ i.params.length ∧
      readOperands (String.ofList i.name) 0 i.params tokens = .ok values := by
  unfold ofArguments
  cases Token.scan? rest with
  | none => simp [bind, Except.bind]
  | some tokens =>
    simp only [bind, Except.bind]
    cases surplus : tokens[i.params.length]? with
    | some token =>
      have := (List.getElem?_eq_some_iff.mp surplus).1
      simp
      omega
    | none =>
      have := List.getElem?_eq_none_iff.mp surplus
      cases read : readOperands (String.ofList i.name) 0 i.params tokens with
      | error err => simp [read]
      | ok others => simp [read, this, pure, Except.pure]

theorem parse_render_comment (payload : List Char) :
    parse (comment payload).render = .ok (comment payload) := by
  have spelled : (comment payload).render = '.' :: ' ' :: '"' :: (payload ++ ['"']) := by
    simp [render, comment, Instruction.comment, Operand.render, Operand.quote]
  have ends : ('"' :: (payload ++ ['"'])).getLast? = some '"' := getLast?_quote payload
  have whole : Chars.trim ('.' :: ' ' :: '"' :: (payload ++ ['"'])) =
      '.' :: ' ' :: '"' :: (payload ++ ['"']) :=
    Chars.trim_eq_self (by rfl) (by rfl) ends
  have text : Chars.trim (' ' :: '"' :: (payload ++ ['"'])) = '"' :: (payload ++ ['"']) :=
    Chars.trim_eq_self (by rfl) (by rfl) ends
  have bare : unquote ('"' :: (payload ++ ['"'])) = payload := by simp [unquote]
  rw [spelled, parse, whole]
  exact congrArg (Except.ok ∘ comment) ((congrArg unquote text).trans bare)

/-- The canonical text of a statement reads back as the statement just if it is a remark or each
argument is spelled out. -/
theorem parse_render_iff {s : Statement} (typed : s.WellTyped) :
    parse s.render = .ok s ↔
      s.instruction = .comment ∨ List.Forall₂ Operand.Spelled s.instruction.params s.operands := by
  obtain ⟨i, values⟩ := s
  have fits : List.Forall₂ Operand.Fits i.params values := typed.fits
  by_cases empty : i = .blank
  · subst empty
    cases fits
    exact ⟨fun _ => .inr .nil, fun _ => rfl⟩
  by_cases remark : i = .comment
  · subst remark
    cases fits with
    | @cons _ value _ _ fit none =>
      cases none
      cases value with
      | number w => contradiction
      | text payload => exact ⟨fun _ => .inl rfl, fun _ => parse_render_comment payload⟩
  have leads : Leads i.name := leads_name typed.known empty remark
  have read : parse (render ⟨i, values⟩) = ofArguments i (arguments i.params values) :=
    parse_render_eq typed leads
  rw [read, ofArguments_eq_ok]
  constructor
  · rintro ⟨tokens, scanned, -, read⟩
    exact .inr (spelled_of_readOperands fits scanned read)
  · rintro (comment | spelled)
    · contradiction
    · obtain ⟨tokens, scanned, length, read⟩ := readOperands_arguments fits spelled
      exact ⟨tokens, scanned, Nat.le_of_eq length, read⟩

end Statement

end RobotScript
