import RobotScript.Proofs.Editable
import RobotScript.Proofs.Holds
import RobotScript.Proofs.InOrder
import RobotScript.Proofs.Ledger
/-!
What becomes of the lines of a script while it is edited, as a history. The pool of handles and the
lines are what the history says, if fewer lines are taken out than a word can count.
-/
namespace RobotScript

theorem HandlePool.Ledger.tookAll {start live : List Handle} {log : List Event} {p : HandlePool}
    {run : List Entry} (ledger : p.Ledger start log (Entry.handlesOf run ++ live))
    (few : (taken log).length + run.length < 2 ^ 32) :
    (run.foldl (fun p x => p.release x.handle) p).Ledger start
      (log ++ (Entry.handlesOf run).map .took) live := by
  induction run generalizing p log with
  | nil =>
    rw [Entry.handlesOf_nil, List.map_nil, List.append_nil]
    exact ledger
  | cons x run ih =>
    rw [List.length_cons] at few
    have first := HandlePool.Ledger.took ledger (by omega)
    have rest := ih first (by
      rw [taken_append, taken_took, taken_nil, List.length_append, List.length_singleton]
      omega)
    rw [List.append_assoc] at rest
    exact rest

namespace Links

variable {l l' : Links} {run : List Entry}

theorem get?_of_perm (perm : l.held.Perm (run ++ l'.held)) (k : Handle) :
    l'.get? k = if k ∈ Entry.handlesOf run then none else l.get? k := by
  have parts := (Entry.handlesOf_perm perm).nodup_iff.mp l.nodup_held
  split
  next gone =>
    rw [get?_eq_none_iff]
    rintro x mem rfl
    exact Entry.apart_of_nodup parts _ gone (Entry.mem_handlesOf mem)
  next there =>
    ext line
    rw [get?_eq_some_iff, get?_eq_some_iff, perm.mem_iff, List.mem_append]
    constructor
    · exact .inr
    · rintro (mem | mem)
      · exact absurd (Entry.mem_handlesOf mem) there
      · exact mem

theorem get?_of_perm_cons {x : Entry} (perm : l.held.Perm (x :: l'.held)) (k : Handle) :
    l'.get? k = if k = x.handle then none else l.get? k := by
  rw [← List.singleton_append] at perm
  rw [get?_of_perm perm, Entry.handlesOf_cons, Entry.handlesOf_nil]
  simp only [List.mem_singleton]

end Links

namespace Script

inductive Act where
  | look (cursor : Cursor) (mark : Option Mark)
  | insertLine (anchor : Handle) (number? : Option Nat) (relation : Relation) (line : Line)
  | setLine (h : Handle) (line : Line)
  | unlink (h : Handle) (number : Nat)
  | unlinkSpan (start stop : Handle)

/-- What a change does to the lines of a script, and the script after it. A line that finds no place
is taken out at once. -/
def act (s : Script) : Act → List Event × Script
  | .look cursor mark => ([], { s with cursor, mark })
  | .insertLine anchor number? relation line =>
    match s.insertLine anchor number? relation line with
    | (.ok (h, _), s') => ([.gave h line], s')
    | (.error _, s') => ([.gave s.pool.allocate.1 line, .took s.pool.allocate.1], s')
  | .setLine h line => (if s.contains h then [.wrote h line] else [], s.setLine h line)
  | .unlink h number => (if s.contains h then [.took h] else [], s.unlink h number)
  | .unlinkSpan start stop =>
    ((Entry.handlesOf (s.links.eraseSpan start stop).1).map .took, (s.unlinkSpan start stop).2)

def play (s : Script) : List Act → List Event × Script
  | [] => ([], s)
  | a :: acts => ((s.act a).1 ++ ((s.act a).2.play acts).1, ((s.act a).2.play acts).2)

def Traced (s : Script) (log : List Event) (s' : Script) : Prop :=
  ∃ acts, s.play acts = (log, s')

variable {s s' s₀ : Script} {log more : List Event} {h : Handle} {line : Line}

theorem play_append (acts acts' : List Act) :
    s.play (acts ++ acts') = ((s.play acts).1 ++ ((s.play acts).2.play acts').1,
      ((s.play acts).2.play acts').2) := by
  induction acts generalizing s with
  | nil => rfl
  | cons a acts ih =>
    rw [List.cons_append, play, play, ih]
    simp only [List.append_assoc]

theorem Traced.refl (s : Script) : s.Traced [] s := ⟨[], rfl⟩

theorem Traced.trans {s'' : Script} (traced : s.Traced log s') (again : s'.Traced more s'') :
    s.Traced (log ++ more) s'' := by
  rcases traced with ⟨acts, played⟩
  rcases again with ⟨acts', played'⟩
  refine ⟨acts ++ acts', ?_⟩
  rw [play_append, played]
  dsimp only
  rw [played']

theorem traced_act (s : Script) (a : Act) : s.Traced (s.act a).1 (s.act a).2 :=
  ⟨[a], by rw [play, play, List.append_nil]⟩

theorem act_insertLine (s : Script) (anchor : Handle) (number? : Option Nat) (relation : Relation)
    (line : Line) : (s.act (.insertLine anchor number? relation line)).2 =
      (s.insertLine anchor number? relation line).2 := by
  unfold act
  dsimp only
  split
  next inserted => rw [inserted]
  next refused => rw [refused]

theorem editable_traced (start : Script) : Editable fun s => ∃ log, start.Traced log s := by
  have step : ∀ {s : Script} (a : Act), (∃ log, start.Traced log s) →
      ∃ log, start.Traced log (s.act a).2 := by
    rintro s a ⟨log, traced⟩
    exact ⟨_, traced.trans (traced_act s a)⟩
  have insertLine : ∀ {s : Script} anchor number? relation line, (∃ log, start.Traced log s) →
      ∃ log, start.Traced log (s.insertLine anchor number? relation line).2 := by
    intro s anchor number? relation line inv
    rw [← act_insertLine]
    exact step (.insertLine anchor number? relation line) inv
  exact
    { look := by
        intro s s' inv links lineCount pool size capacity
        have after := step (.look s'.cursor s'.mark) inv
        cases s
        cases s'
        dsimp only at links lineCount pool size capacity
        subst links lineCount pool size capacity
        exact after
      insertBlank := fun inv _ _ _ _ => insertLine _ _ _ _ inv
      insertEmpty := fun inv _ _ _ => insertLine _ _ _ _ inv
      setLine := fun inv _ _ => step (.setLine _ _) inv
      restore := fun _ _ inv => step (.setLine _ _) inv
      unlink := fun inv h number => step (.unlink h number) inv
      unlinkSpan := fun inv first last => step (.unlinkSpan first last) inv }

/-! ### Keeping the books -/

structure Books (s₀ : Script) (log : List Event) (s : Script) : Prop where
  ledger : s.pool.Ledger (Entry.handlesOf s₀.links.held) log (Entry.handlesOf s.links.held)
  lines : s.get? = replay s₀.get? log

theorem Books.get?_allocate (books : s₀.Books log s) : s.get? s.pool.allocate.1 = none := by
  have unused := books.ledger.owned.allocate.nodup
  rw [List.nodup_cons] at unused
  refine Links.get?_eq_none_iff.mpr fun x mem same => ?_
  exact unused.1 (same ▸ Entry.mem_handlesOf mem)

theorem Books.insertLine (books : s₀.Books log s) (anchor : Handle) (number? : Option Nat)
    (relation : Relation) (line : Line)
    (few : (taken (log ++ (s.act (.insertLine anchor number? relation line)).1)).length < 2 ^ 32) :
    s₀.Books (log ++ (s.act (.insertLine anchor number? relation line)).1)
      (s.act (.insertLine anchor number? relation line)).2 := by
  have gave := books.ledger.gave line
  unfold Script.act at few ⊢
  dsimp only at few ⊢
  rcases s.insertLine_cases anchor number? relation line with
    ⟨number, s', inserted, put, -, pool, -⟩ | ⟨err, s', refused, links, -, pool, -⟩
  · have perm := Links.held_insert? (e := ⟨_, line⟩) books.get?_allocate put
    have gave := gave.perm (Entry.handlesOf_perm perm.symm)
    rw [inserted]
    refine ⟨by rw [pool]; exact gave, ?_⟩
    rw [replay_append, ← books.lines]
    funext k
    exact Links.get?_insert? put k
  · rw [refused] at few ⊢
    dsimp only at few ⊢
    rw [taken_append, taken_gave, taken_took, taken_nil, List.length_append,
      List.length_singleton] at few
    have took := gave.took (by simpa using few)
    rw [List.append_assoc, List.singleton_append] at took
    refine ⟨by rw [links, pool]; exact took, ?_⟩
    rw [replay_append, ← books.lines]
    funext k
    change s'.links.get? k =
      if k = s.pool.allocate.1 then none else if k = s.pool.allocate.1 then some line else s.get? k
    rw [links]
    split
    next same => rw [same, ← books.get?_allocate, get?]
    next => rfl

theorem Books.setLine (books : s₀.Books log s) (h : Handle) (line : Line) :
    s₀.Books (log ++ (s.act (.setLine h line)).1) (s.act (.setLine h line)).2 := by
  unfold Script.act
  dsimp only
  cases found : s.get? h with
  | none =>
    have stays : s.setLine h line = s := by rw [Script.setLine, found]
    rw [contains, found, stays]
    simpa using books
  | some old =>
    have written : (s.setLine h line).links = s.links.setLine h line := by
      rw [Script.setLine, found]
    have pool : (s.setLine h line).pool = s.pool := by rw [Script.setLine, found]
    rw [contains, found]
    refine ⟨?_, ?_⟩
    · have held := Entry.handlesOf_perm (s.links.held_setLine h line)
      rw [Links.handlesOf_map_setLine] at held
      rw [written, pool]
      exact (books.ledger.wrote h line).perm held.symm
    · rw [Option.isSome_some, if_pos rfl, replay_append, ← books.lines]
      funext k
      change (s.setLine h line).links.get? k = if k = h then some line else s.get? k
      rw [written, Links.get?_setLine_eq_map]
      split
      next same =>
        change s.links.get? h = some old at found
        rw [same, found, Option.map_some]
      next => rw [get?, Option.map_id']

theorem Books.unlink (books : s₀.Books log s) (h : Handle) (number : Nat)
    (few : (taken (log ++ (s.act (.unlink h number)).1)).length < 2 ^ 32) :
    s₀.Books (log ++ (s.act (.unlink h number)).1) (s.act (.unlink h number)).2 := by
  unfold Script.act at few ⊢
  dsimp only at few ⊢
  rcases s.unlink_cases h number with ⟨absent, stays⟩ | ⟨line, found, links, -, pool⟩
  · rw [contains, absent, stays]
    simpa using books
  · rw [contains, found, Option.isSome_some, if_pos rfl] at few ⊢
    have mem := Links.get?_eq_some_iff.mp found
    have perm := (Entry.perm_filter_ne s.links.nodup_held mem).trans
      ((s.links.held_erase h).symm.cons _)
    rw [← links] at perm
    have ledger := books.ledger.perm (Entry.handlesOf_perm perm)
    rw [taken_append, taken_took, taken_nil, List.length_append, List.length_singleton] at few
    refine ⟨by rw [pool]; exact HandlePool.Ledger.took ledger few, ?_⟩
    rw [replay_append, ← books.lines]
    exact funext (Links.get?_of_perm_cons perm)

theorem Books.unlinkSpan (books : s₀.Books log s) (start stop : Handle)
    (few : (taken (log ++ (s.act (.unlinkSpan start stop)).1)).length < 2 ^ 32) :
    s₀.Books (log ++ (s.act (.unlinkSpan start stop)).1) (s.act (.unlinkSpan start stop)).2 := by
  have perm := s.links.held_eraseSpan start stop
  unfold Script.act at few ⊢
  dsimp only at few ⊢
  rw [taken_append, taken_map_took, List.length_append, Entry.length_handlesOf] at few
  have ledger := books.ledger.perm (Entry.handlesOf_perm perm)
  rw [Entry.handlesOf_append] at ledger
  refine ⟨ledger.tookAll few, ?_⟩
  rw [replay_append, replay_map_took, ← books.lines]
  exact funext (Links.get?_of_perm perm)

theorem Books.act (books : s₀.Books log s) (a : Act)
    (few : (taken (log ++ (s.act a).1)).length < 2 ^ 32) :
    s₀.Books (log ++ (s.act a).1) (s.act a).2 := by
  cases a with
  | look cursor mark =>
    rw [Script.act, List.append_nil]
    exact ⟨books.ledger, books.lines⟩
  | insertLine anchor number? relation line => exact books.insertLine anchor number? relation line few
  | setLine h line => exact books.setLine h line
  | unlink h number => exact books.unlink h number few
  | unlinkSpan start stop => exact books.unlinkSpan start stop few

/-- Fewer lines are taken out than a word can count, so no slot comes back to a use that it had. -/
theorem Books.play (books : s₀.Books log s) (acts : List Act)
    (few : (taken (log ++ (s.play acts).1)).length < 2 ^ 32) :
    s₀.Books (log ++ (s.play acts).1) (s.play acts).2 := by
  induction acts generalizing log s with
  | nil =>
    rw [Script.play, List.append_nil]
    exact books
  | cons a acts ih =>
    rw [Script.play, ← List.append_assoc] at few ⊢
    have first : (taken (log ++ (s.act a).1)).length < 2 ^ 32 := by
      rw [taken_append, List.length_append] at few
      omega
    exact ih (books.act a first) few

structure Unused (s : Script) : Prop where
  holds : s.Holds fun _ => True
  unused : ∀ g ∈ s.pool.generations, g = 0
  /-- There are no more slots than lines, but for that of the top. -/
  slots : s.pool.generations.size ≤ s.links.held.length + 1

theorem Unused.books (unused : s.Unused) : s.Books [] s :=
  ⟨unused.holds.owned.ledger unused.unused (by
    rw [Entry.length_handlesOf]
    exact unused.slots), rfl⟩

theorem Unused.setCursor (unused : s.Unused) (h : Handle) (number : Nat) :
    (s.setCursor h number).Unused :=
  ⟨unused.holds.setCursor h number, unused.unused, unused.slots⟩

theorem unused_ofLines (capacity : Nat) (lines : List Line) : (ofLines capacity lines).Unused where
  holds := holds_ofLines capacity lines fun _ _ _ => trivial
  unused := by
    intro g mem
    exact (Array.mem_replicate.mp mem).2
  slots := by
    rcases lists_ofLines capacity lines with ⟨es, same, lists⟩
    have count := congrArg List.length same
    rw [List.length_map] at count
    rw [lists.held_perm.length_eq, count]
    exact Nat.le_of_eq Array.size_replicate

theorem Lists.seed_cases (lists : s.Lists []) :
    s.seed.pool = s.pool ∧ s.seed.lineCount = 0 ∨
    s.seed.pool = s.pool.allocate.2 ∧ s.seed.lineCount = 1 := by
  have moved : (s.setCursor .top 0).Lists ([] ++ []) :=
    ⟨lists.links, lists.lineCount, lists.owned, lists.size⟩
  have inserted := moved.insertLine_gap (.top []) .blank
  unfold Script.seed Script.insertBlankAt
  cases (s.setCursor .top 0).checkCapacity 0 Line.blank.size with
  | error err => exact .inl ⟨rfl, lists.lineCount⟩
  | ok _ =>
    dsimp only
    rw [inserted]
    exact .inr ⟨rfl, congrArg (· + 1) lists.lineCount⟩

theorem Unused.seed (unused : s.Unused) (lists : s.Lists []) : s.seed.Unused := by
  have seeded : s.seed.Holds fun _ => True :=
    (closed_holds fun _ => trivial).seed unused.holds
  have slots := unused.slots
  rw [← unused.holds.counted, lists.lineCount] at slots
  rcases lists.seed_cases with ⟨pool, count⟩ | ⟨pool, count⟩
  · refine ⟨seeded, ?_, ?_⟩
    · rw [pool]
      exact unused.unused
    · rw [pool, ← seeded.counted, count]
      exact slots
  · refine ⟨seeded, ?_, ?_⟩
    · rw [pool]
      intro g mem
      unfold HandlePool.allocate at mem
      split at mem
      · exact unused.unused g mem
      · rcases Array.mem_push.mp mem with mem | same
        · exact unused.unused g mem
        · exact same
    · rw [pool, ← seeded.counted, count]
      exact Nat.le_trans s.pool.size_allocate.2 (Nat.succ_le_succ slots)

end Script

end RobotScript
