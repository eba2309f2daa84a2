import Mathlib.Data.List.Pairwise
import RobotScript.Editor.Search
import RobotScript.Proofs.Utf8
/-!
Where a pattern occurs in a text, and the text with a replacement put in for each occurrence. Both
are read from left to right, up to a folding of characters that keeps their sizes. A search finds
the first column of those where the pattern occurs.
-/
namespace RobotScript.Chars

def takeBytes : Nat → List Char → List Char
  | 0, _ => []
  | _, [] => []
  | n, c :: cs => c :: takeBytes (n - c.utf8Size) cs

def opensWith (f : Char → Char) (pattern cs : List Char) : Bool :=
  (pattern.map f).isPrefixOf (cs.map f)

def columnsFrom (f : Char → Char) (pattern : List Char) : Nat → List Char → List Nat
  | _, [] => []
  | column, c :: cs =>
    let behind := columnsFrom f pattern (column + c.utf8Size) cs
    if opensWith f pattern (c :: cs) then column :: behind else behind

/-- A text with a replacement for each occurrence of a pattern. The first `skip` characters belong
to one that has been replaced. -/
def substituteFrom (f : Char → Char) (pattern replacement : List Char) :
    Nat → List Char → List Char
  | _, [] => []
  | skip + 1, _ :: cs => substituteFrom f pattern replacement skip cs
  | 0, c :: cs =>
    if opensWith f pattern (c :: cs) then
      replacement ++ substituteFrom f pattern replacement (pattern.length - 1) cs
    else c :: substituteFrom f pattern replacement 0 cs

def columns (f : Char → Char) (pattern cs : List Char) : List Nat :=
  columnsFrom f pattern 0 cs

def substitute (f : Char → Char) (pattern replacement cs : List Char) : List Char :=
  substituteFrom f pattern replacement 0 cs

def Apart (f : Char → Char) (pattern cs : List Char) : Prop :=
  (columns f pattern cs).Pairwise fun column next => column + width pattern ≤ next

/-! ### Widths and parts -/

@[simp] theorem takeBytes_zero (cs : List Char) : takeBytes 0 cs = [] := by
  cases cs <;> rfl

@[simp] theorem dropBytes_zero (cs : List Char) : dropBytes 0 cs = cs := by
  cases cs <;> rfl

theorem takeBytes_append_dropBytes (n : Nat) (cs : List Char) :
    takeBytes n cs ++ dropBytes n cs = cs := by
  induction cs generalizing n with
  | nil => cases n <;> rfl
  | cons c cs ih =>
    cases n with
    | zero => rfl
    | succ n => exact congrArg (c :: ·) (ih _)

theorem dropBytes_width (as bs : List Char) : dropBytes (width as) (as ++ bs) = bs := by
  induction as with
  | nil => simp
  | cons c as ih =>
    have positive := c.utf8Size_pos
    rw [width_cons, List.cons_append, dropBytes, Nat.add_sub_cancel_left, ih]
    omega

theorem takeBytes_width (as bs : List Char) : takeBytes (width as) (as ++ bs) = as := by
  have whole := takeBytes_append_dropBytes (width as) (as ++ bs)
  rw [dropBytes_width] at whole
  exact List.append_cancel_right whole

theorem cut_width (as bs : List Char) : cut (width as) (as ++ bs) = as := by
  induction as with
  | nil =>
    cases bs with
    | nil => rfl
    | cons c bs =>
      have positive := c.utf8Size_pos
      rw [width_nil, List.nil_append, cut, if_neg (by omega)]
  | cons c as ih =>
    rw [width_cons, List.cons_append, cut, if_pos (Nat.le_add_right _ _), Nat.add_sub_cancel_left,
      ih]

theorem exists_append_of_width_le {as bs xs ys : List Char} (same : as ++ bs = xs ++ ys)
    (narrow : width as ≤ width xs) : ∃ zs, xs = as ++ zs ∧ bs = zs ++ ys := by
  rcases List.append_eq_append_iff.mp same with ⟨zs, longer, rest⟩ | ⟨zs, rfl, rest⟩
  · exact ⟨zs, longer, rest⟩
  · cases zs with
    | nil => exact ⟨[], by simp, rest.symm⟩
    | cons c zs =>
      have positive := c.utf8Size_pos
      rw [width_append, width_cons] at narrow
      omega

theorem append_inj_of_width {as bs xs ys : List Char} (same : as ++ bs = xs ++ ys)
    (wide : width as = width xs) : as = xs ∧ bs = ys := by
  rcases exists_append_of_width_le same (Nat.le_of_eq wide) with ⟨zs, rfl, rfl⟩
  cases zs with
  | nil => exact ⟨(List.append_nil as).symm, rfl⟩
  | cons c zs =>
    have positive := c.utf8Size_pos
    rw [width_append, width_cons] at wide
    omega

theorem le_width_takeBytes {n : Nat} {cs : List Char} (left : dropBytes n cs ≠ []) :
    n ≤ width (takeBytes n cs) := by
  induction cs generalizing n with
  | nil => cases n <;> simp [dropBytes] at left
  | cons c cs ih =>
    cases n with
    | zero => exact Nat.zero_le _
    | succ n =>
      have behind := ih left
      rw [takeBytes, width_cons]
      · omega
      · simp

theorem width_lt_of_takeBytes {n : Nat} {cs as bs : List Char} {c : Char}
    (taken : takeBytes n cs = as ++ c :: bs) : width as < n := by
  induction as generalizing n cs with
  | nil =>
    cases n with
    | zero => simp at taken
    | succ n => exact Nat.succ_pos n
  | cons d as ih =>
    cases n with
    | zero => simp at taken
    | succ n =>
      cases cs with
      | nil => simp [takeBytes] at taken
      | cons d' cs =>
        rw [takeBytes, List.cons_append] at taken
        · have behind := ih (List.cons.inj taken).2
          rw [(List.cons.inj taken).1] at behind
          rw [width_cons]
          omega
        · simp

/-! ### Occurrences -/

section Occurrences

variable {f : Char → Char} {pattern replacement cs as bs m : List Char} {column start base : Nat}
  {c : Char}

theorem opensWith_iff :
    opensWith f pattern cs = true ↔ ∃ m bs, cs = m ++ bs ∧ m.map f = pattern.map f := by
  rw [opensWith, List.isPrefixOf_iff_prefix]
  constructor
  · rintro ⟨behind, whole⟩
    rcases List.map_eq_append_iff.mp whole.symm with ⟨m, bs, rfl, same, -⟩
    exact ⟨m, bs, rfl, same⟩
  · rintro ⟨m, bs, rfl, same⟩
    rw [List.map_append, same]
    exact List.prefix_append _ _

theorem opensWith_match (same : m.map f = pattern.map f) : opensWith f pattern (m ++ bs) = true :=
  opensWith_iff.mpr ⟨m, bs, rfl, same⟩

theorem opensWith_append (opens : opensWith f pattern cs = true) (bs : List Char) :
    opensWith f pattern (cs ++ bs) = true := by
  rcases opensWith_iff.mp opens with ⟨m, behind, rfl, same⟩
  rw [List.append_assoc]
  exact opensWith_match same

theorem length_le_of_opensWith (opens : opensWith f pattern cs = true) :
    pattern.length ≤ cs.length := by
  rcases opensWith_iff.mp opens with ⟨m, bs, rfl, same⟩
  have length := congrArg List.length same
  simp only [List.length_map] at length
  simp [length]

theorem width_map (size : ∀ c, (f c).utf8Size = c.utf8Size) (cs : List Char) :
    width (cs.map f) = width cs := by
  induction cs with
  | nil => rfl
  | cons c cs ih => simp [size, ih]

theorem width_match (size : ∀ c, (f c).utf8Size = c.utf8Size) (same : m.map f = pattern.map f) :
    width m = width pattern := by
  rw [← width_map size m, same, width_map size]

@[simp] theorem columnsFrom_nil : columnsFrom f pattern base [] = [] := rfl

theorem columnsFrom_cons_pos (opens : opensWith f pattern (c :: cs) = true) :
    columnsFrom f pattern base (c :: cs) =
      base :: columnsFrom f pattern (base + c.utf8Size) cs := by
  rw [columnsFrom, if_pos opens]

theorem columnsFrom_cons_neg (opens : opensWith f pattern (c :: cs) = false) :
    columnsFrom f pattern base (c :: cs) = columnsFrom f pattern (base + c.utf8Size) cs := by
  rw [columnsFrom, opens]
  rfl

theorem columnsFrom_add (shift base : Nat) (cs : List Char) :
    columnsFrom f pattern (shift + base) cs = (columnsFrom f pattern base cs).map (shift + ·) := by
  induction cs generalizing base with
  | nil => rfl
  | cons c cs ih =>
    unfold columnsFrom
    dsimp only
    rw [Nat.add_assoc, ih]
    split
    · rw [List.map_cons]
    · rfl

theorem length_columnsFrom (base : Nat) (cs : List Char) :
    (columnsFrom f pattern base cs).length = (columns f pattern cs).length := by
  rw [← Nat.add_zero base, columnsFrom_add, List.length_map, columns]

theorem columnsFrom_suffix (base : Nat) (as bs : List Char) :
    columnsFrom f pattern (base + width as) bs <:+ columnsFrom f pattern base (as ++ bs) := by
  induction as generalizing base with
  | nil => exact List.suffix_refl _
  | cons c as ih =>
    have behind := ih (base + c.utf8Size)
    rw [Nat.add_assoc, ← width_cons] at behind
    rw [List.cons_append, columnsFrom]
    split
    · exact behind.trans (List.suffix_cons _ _)
    · exact behind

theorem columnsFrom_sublist (base : Nat) (as bs : List Char) :
    (columnsFrom f pattern base as).Sublist (columnsFrom f pattern base (as ++ bs)) := by
  induction as generalizing base with
  | nil => exact List.nil_sublist _
  | cons c as ih =>
    cases opens : opensWith f pattern (c :: as) with
    | true =>
      have still : opensWith f pattern (c :: (as ++ bs)) = true := opensWith_append opens bs
      rw [List.cons_append, columnsFrom_cons_pos opens, columnsFrom_cons_pos still]
      exact (ih _).cons_cons _
    | false =>
      rw [List.cons_append, columnsFrom_cons_neg opens, columnsFrom]
      split
      · exact (ih _).cons _
      · exact ih _

theorem mem_columnsFrom_match (written : pattern ≠ []) (same : m.map f = pattern.map f)
    (base : Nat) (as bs : List Char) :
    base + width as ∈ columnsFrom f pattern base (as ++ (m ++ bs)) := by
  apply (columnsFrom_suffix base as (m ++ bs)).mem
  cases m with
  | nil => simp [written] at same
  | cons c m =>
    have opens : opensWith f pattern (c :: (m ++ bs)) = true := opensWith_match same
    rw [List.cons_append, columnsFrom_cons_pos opens]
    exact List.mem_cons_self

theorem exists_of_mem_columnsFrom (found : column ∈ columnsFrom f pattern base cs) :
    ∃ as m bs, cs = as ++ (m ++ bs) ∧ m.map f = pattern.map f ∧ column = base + width as := by
  induction cs generalizing base with
  | nil => simp at found
  | cons c cs ih =>
    have later : column ∈ columnsFrom f pattern (base + c.utf8Size) cs →
        ∃ as m bs, c :: cs = as ++ (m ++ bs) ∧ m.map f = pattern.map f ∧
          column = base + width as := by
      intro found
      rcases ih found with ⟨as, m, bs, rfl, same, rfl⟩
      exact ⟨c :: as, m, bs, rfl, same, by rw [width_cons, Nat.add_assoc]⟩
    cases opens : opensWith f pattern (c :: cs) with
    | false =>
      rw [columnsFrom_cons_neg opens] at found
      exact later found
    | true =>
      rw [columnsFrom_cons_pos opens] at found
      rcases List.mem_cons.mp found with rfl | found
      · rcases opensWith_iff.mp opens with ⟨m, bs, whole, same⟩
        exact ⟨[], m, bs, whole, same, rfl⟩
      · exact later found

theorem width_pos (written : pattern ≠ []) : 0 < width pattern := by
  rcases List.exists_cons_of_ne_nil written with ⟨c, cs, rfl⟩
  exact Nat.add_pos_left c.utf8Size_pos _

theorem le_of_mem_columnsFrom (found : column ∈ columnsFrom f pattern base cs) : base ≤ column := by
  rcases exists_of_mem_columnsFrom found with ⟨as, m, bs, -, -, rfl⟩
  exact Nat.le_add_right _ _

theorem end_le_of_mem_columns (size : ∀ c, (f c).utf8Size = c.utf8Size)
    (found : column ∈ columns f pattern cs) : column + width pattern ≤ width cs := by
  rcases exists_of_mem_columnsFrom found with ⟨as, m, bs, rfl, same, rfl⟩
  rw [← width_match size same]
  simp only [width_append]
  omega

theorem mem_columns_match (written : pattern ≠ []) (same : m.map f = pattern.map f)
    (as bs : List Char) : width as ∈ columns f pattern (as ++ (m ++ bs)) := by
  have occurs := mem_columnsFrom_match written same 0 as bs
  rwa [Nat.zero_add] at occurs

theorem mem_columns_append_left (found : column ∈ columns f pattern as) (bs : List Char) :
    column ∈ columns f pattern (as ++ bs) :=
  (columnsFrom_sublist 0 as bs).mem found

theorem mem_columns_append_right (as : List Char) (found : column ∈ columns f pattern bs) :
    width as + column ∈ columns f pattern (as ++ bs) := by
  apply (columnsFrom_suffix 0 as bs).mem
  rw [Nat.zero_add, ← Nat.add_zero (width as), columnsFrom_add]
  exact List.mem_map_of_mem found

/-! ### Parts without an occurrence -/

inductive FreeOf (f : Char → Char) (pattern : List Char) : List Char → List Char → Prop
  | nil (bs : List Char) : FreeOf f pattern [] bs
  | cons {c : Char} {as bs : List Char} : opensWith f pattern (c :: (as ++ bs)) = false →
    FreeOf f pattern as bs → FreeOf f pattern (c :: as) bs

theorem FreeOf.columnsFrom_eq (free : FreeOf f pattern as bs) (base : Nat) :
    columnsFrom f pattern base (as ++ bs) = columnsFrom f pattern (base + width as) bs := by
  induction free generalizing base with
  | nil bs => rfl
  | cons opens free ih =>
    rw [List.cons_append, columnsFrom_cons_neg opens, ih, width_cons, Nat.add_assoc]

theorem FreeOf.substitute_eq (free : FreeOf f pattern as bs) (replacement : List Char) :
    substitute f pattern replacement (as ++ bs) = as ++ substitute f pattern replacement bs := by
  induction free with
  | nil bs => rfl
  | cons opens free ih =>
    rw [substitute] at ih ⊢
    rw [List.cons_append, substituteFrom, opens, ih]
    rfl

theorem FreeOf.length_columns (free : FreeOf f pattern as bs) :
    (columns f pattern (as ++ bs)).length = (columns f pattern bs).length := by
  rw [columns, free.columnsFrom_eq, length_columnsFrom]

theorem FreeOf.of_append {xs : List Char} (free : FreeOf f pattern (as ++ xs) bs) :
    FreeOf f pattern as (xs ++ bs) := by
  induction as with
  | nil => exact .nil _
  | cons c as ih =>
    cases free with
    | cons opens free => exact .cons (List.append_assoc as xs bs ▸ opens) (ih free)

theorem FreeOf.behind {xs : List Char} (free : FreeOf f pattern (xs ++ as) bs) :
    FreeOf f pattern as bs := by
  induction xs with
  | nil => exact free
  | cons c xs ih =>
    cases free with
    | cons opens free => exact ih free

theorem FreeOf.shorten {xs : List Char} (free : FreeOf f pattern as (bs ++ xs)) :
    FreeOf f pattern as bs := by
  induction as with
  | nil => exact .nil _
  | cons c as ih =>
    cases free with
    | cons opens free =>
      refine .cons ?_ (ih free)
      rw [Bool.eq_false_iff] at opens ⊢
      intro longer
      apply opens
      have still := opensWith_append longer xs
      rwa [List.cons_append, List.append_assoc] at still

theorem FreeOf.left (free : FreeOf f pattern (as ++ bs) []) : FreeOf f pattern as [] := by
  have longer : FreeOf f pattern as ([] ++ (bs ++ [])) := free.of_append
  exact longer.shorten

theorem freeOf_of_columnsFrom (base : Nat)
    (behind : ∀ column ∈ columnsFrom f pattern base (as ++ bs), base + width as ≤ column) :
    FreeOf f pattern as bs := by
  induction as generalizing base with
  | nil => exact .nil _
  | cons c as ih =>
    have positive := c.utf8Size_pos
    have opens : opensWith f pattern (c :: (as ++ bs)) = false := by
      rw [Bool.eq_false_iff]
      intro opens
      rw [List.cons_append, columnsFrom_cons_pos opens] at behind
      have here := behind base List.mem_cons_self
      rw [width_cons] at here
      omega
    rw [List.cons_append, columnsFrom_cons_neg opens, width_cons, ← Nat.add_assoc] at behind
    exact .cons opens (ih _ behind)

theorem freeOf_of_columns_nil (none : columns f pattern cs = []) : FreeOf f pattern cs [] := by
  apply freeOf_of_columnsFrom 0
  rw [List.append_nil]
  intro column found
  rw [columns] at none
  simp [none] at found

theorem FreeOf.columns_nil (free : FreeOf f pattern cs []) : columns f pattern cs = [] := by
  have whole := free.columnsFrom_eq 0
  rwa [List.append_nil] at whole

theorem FreeOf.substitute_self (free : FreeOf f pattern cs []) (replacement : List Char) :
    substitute f pattern replacement cs = cs := by
  have whole := free.substitute_eq replacement
  rw [List.append_nil] at whole
  exact whole.trans (List.append_nil cs)

theorem FreeOf.not_occurs (free : FreeOf f pattern cs []) (written : pattern ≠ [])
    (whole : cs = as ++ (m ++ bs)) (same : m.map f = pattern.map f) : False := by
  subst whole
  cases m with
  | nil => simp [written] at same
  | cons c m =>
    have behind : FreeOf f pattern (c :: (m ++ bs)) [] := free.behind
    have here : opensWith f pattern (c :: (m ++ bs)) = true := opensWith_match same
    cases behind with
    | cons opens =>
      rw [List.append_nil, here] at opens
      contradiction

/-! ### The first occurrence -/

structure First (f : Char → Char) (pattern cs as m bs : List Char) : Prop where
  whole : cs = as ++ (m ++ bs)
  same : m.map f = pattern.map f
  free : FreeOf f pattern as (m ++ bs)

theorem First.ne_nil (first : First f pattern cs as m bs) (written : pattern ≠ []) : cs ≠ [] := by
  rintro rfl
  exact (FreeOf.nil []).not_occurs written first.whole first.same

theorem First.le_column {n : Nat} (first : First f pattern (dropBytes n cs) as m bs)
    (written : pattern ≠ []) : n ≤ width (takeBytes n cs) + width as :=
  Nat.le_trans (le_width_takeBytes (first.ne_nil written)) (Nat.le_add_right _ _)

theorem First.le_of_mem (first : First f pattern cs as m bs)
    (found : column ∈ columns f pattern cs) : width as ≤ column := by
  rw [columns, first.whole, first.free.columnsFrom_eq, Nat.zero_add] at found
  exact le_of_mem_columnsFrom found

theorem exists_first {behind : List Nat}
    (found : columnsFrom f pattern base cs = column :: behind) :
    ∃ as m bs, First f pattern cs as m bs ∧ column = base + width as := by
  induction cs generalizing base with
  | nil => simp at found
  | cons c cs ih =>
    cases opens : opensWith f pattern (c :: cs) with
    | true =>
      rw [columnsFrom_cons_pos opens] at found
      rcases opensWith_iff.mp opens with ⟨m, bs, whole, same⟩
      exact ⟨[], m, bs, ⟨whole, same, .nil _⟩, (List.cons.inj found).1.symm⟩
    | false =>
      rw [columnsFrom_cons_neg opens] at found
      rcases ih found with ⟨as, m, bs, ⟨rfl, same, free⟩, rfl⟩
      exact ⟨c :: as, m, bs, ⟨rfl, same, .cons opens free⟩, by rw [width_cons, Nat.add_assoc]⟩

theorem findColumn_eq (size : ∀ c, (f c).utf8Size = c.utf8Size) (start base : Nat)
    (cs : List Char) :
    findColumn (pattern.map f) start base (cs.map f) =
      (columnsFrom f pattern (base + width (takeBytes (start - base) cs))
        (dropBytes (start - base) cs)).head? := by
  induction cs generalizing base with
  | nil => cases start - base <;> rfl
  | cons c cs ih =>
    have tested : (pattern.map f).isPrefixOf (f c :: cs.map f) = opensWith f pattern (c :: cs) :=
      rfl
    rw [List.map_cons, findColumn, size, ih, tested]
    by_cases reached : start ≤ base
    · have none : start - (base + c.utf8Size) = 0 := by omega
      rw [Nat.sub_eq_zero_of_le reached, none]
      cases opens : opensWith f pattern (c :: cs) with
      | true => simp [reached, columnsFrom_cons_pos opens]
      | false => simp [columnsFrom_cons_neg opens]
    · rcases Nat.exists_eq_succ_of_ne_zero (Nat.sub_ne_zero_of_lt (Nat.lt_of_not_le reached)) with
        ⟨n, ahead⟩
      have rest : start - (base + c.utf8Size) = n + 1 - c.utf8Size := by omega
      rw [rest, ahead, takeBytes, dropBytes, width_cons, Nat.add_assoc]
      · simp [reached]
      · simp
      · simp

/-! ### Replacing it -/

theorem substituteFrom_length (xs bs : List Char) :
    substituteFrom f pattern replacement xs.length (xs ++ bs) =
      substitute f pattern replacement bs := by
  induction xs with
  | nil => rfl
  | cons c xs ih => exact ih

theorem substitute_match (written : pattern ≠ []) (same : m.map f = pattern.map f)
    (replacement bs : List Char) :
    substitute f pattern replacement (m ++ bs) =
      replacement ++ substitute f pattern replacement bs := by
  cases m with
  | nil => simp [written] at same
  | cons c m =>
    have opens : opensWith f pattern (c :: (m ++ bs)) = true := opensWith_match same
    have length := congrArg List.length same
    simp only [List.length_map, List.length_cons] at length
    rw [List.cons_append, substitute, substituteFrom, if_pos opens, ← length,
      Nat.add_sub_cancel, substituteFrom_length]

theorem First.substitute_eq (first : First f pattern cs as m bs) (written : pattern ≠ [])
    (replacement : List Char) :
    substitute f pattern replacement cs =
      as ++ (replacement ++ substitute f pattern replacement bs) := by
  rw [first.whole, first.free.substitute_eq, substitute_match written first.same]

theorem apart_iff (base : Nat) :
    Apart f pattern cs ↔ (columnsFrom f pattern base cs).Pairwise
      fun column next => column + width pattern ≤ next := by
  have shifted : columnsFrom f pattern base cs = (columns f pattern cs).map (base + ·) :=
    columnsFrom_add base 0 cs
  rw [shifted, List.pairwise_map, Apart]
  simp only [Nat.add_assoc, Nat.add_le_add_iff_left]

theorem Apart.left (apart : Apart f pattern (as ++ bs)) : Apart f pattern as :=
  List.Pairwise.sublist (columnsFrom_sublist 0 as bs) apart

theorem Apart.right (apart : Apart f pattern (as ++ bs)) : Apart f pattern bs :=
  (apart_iff _).mpr (List.Pairwise.sublist (columnsFrom_suffix 0 as bs).sublist apart)

theorem Apart.columns_match (size : ∀ c, (f c).utf8Size = c.utf8Size)
    (apart : Apart f pattern (m ++ bs)) (written : pattern ≠ []) (same : m.map f = pattern.map f)
    (base : Nat) :
    columnsFrom f pattern base (m ++ bs) =
      base :: columnsFrom f pattern (base + width m) bs := by
  have wide := width_match size same
  cases m with
  | nil => simp [written] at same
  | cons c m =>
    have opens : opensWith f pattern (c :: (m ++ bs)) = true := opensWith_match same
    have whole := (apart_iff base).mp apart
    rw [List.cons_append, columnsFrom_cons_pos opens] at whole
    have free : FreeOf f pattern m bs := by
      apply freeOf_of_columnsFrom (base + c.utf8Size)
      intro column found
      have far := List.rel_of_pairwise_cons whole found
      rwa [← wide, width_cons, ← Nat.add_assoc] at far
    rw [List.cons_append, columnsFrom_cons_pos opens, free.columnsFrom_eq, width_cons,
      Nat.add_assoc]

theorem First.length_columns (size : ∀ c, (f c).utf8Size = c.utf8Size)
    (first : First f pattern cs as m bs) (apart : Apart f pattern cs) (written : pattern ≠ []) :
    (columns f pattern cs).length = (columns f pattern bs).length + 1 := by
  rcases first with ⟨rfl, same, free⟩
  rw [columns, free.columnsFrom_eq, apart.right.columns_match size written same,
    List.length_cons, length_columnsFrom]

theorem Apart.far (apart : Apart f pattern cs) {next : Nat} (here : column ∈ columns f pattern cs)
    (there : next ∈ columns f pattern cs) (before : column < next) :
    column + width pattern ≤ next := by
  -- Made symmetric, the relation holds of any two columns, whichever comes first.
  have either : (columns f pattern cs).Pairwise fun a b =>
      a + width pattern ≤ b ∨ b + width pattern ≤ a := List.Pairwise.imp Or.inl apart
  have symm : Std.Symm fun a b => a + width pattern ≤ b ∨ b + width pattern ≤ a :=
    ⟨fun _ _ => Or.symm⟩
  rcases either.forall here there (Nat.ne_of_lt before) with far | near
  · exact far
  · omega

/-! ### A text in two parts -/

variable {head tail xs ys : List Char}

theorem exists_of_mem_columns_append (size : ∀ c, (f c).utf8Size = c.utf8Size)
    (occurs : column ∈ columns f pattern (head ++ tail))
    (ends : column + width pattern ≤ width head) :
    ∃ as m bs, head = as ++ (m ++ bs) ∧ m.map f = pattern.map f ∧ column = width as := by
  rcases exists_of_mem_columnsFrom occurs with ⟨as, m, bs, whole, same, rfl⟩
  have wide := width_match size same
  rw [Nat.zero_add] at ends ⊢
  rw [← List.append_assoc] at whole
  rcases exists_append_of_width_le whole.symm (by rw [width_append]; omega) with ⟨zs, rfl, -⟩
  exact ⟨as, m, zs, List.append_assoc as m zs, same, rfl⟩

def Closed (f : Char → Char) (pattern head tail : List Char) : Prop :=
  ∀ xs c ys, head = xs ++ c :: ys → opensWith f pattern (c :: (ys ++ tail)) = true →
    opensWith f pattern (c :: ys) = true

theorem closed_of_columns (size : ∀ c, (f c).utf8Size = c.utf8Size) (written : pattern ≠ [])
    (inside : ∀ column ∈ columns f pattern (head ++ tail), column < width head →
      column + width pattern ≤ width head) : Closed f pattern head tail := by
  rintro xs c ys rfl opens
  have positive := c.utf8Size_pos
  rcases opensWith_iff.mp opens with ⟨m, bs, rest, same⟩
  have whole : xs ++ c :: ys ++ tail = xs ++ (m ++ bs) := by
    rw [List.append_assoc, ← rest]
    rfl
  have occurs := mem_columns_match written same xs bs
  rw [← whole] at occurs
  have ends := inside _ occurs (by rw [width_append, width_cons]; omega)
  rw [width_append, ← width_match size same, Nat.add_le_add_iff_left] at ends
  rcases exists_append_of_width_le rest.symm ends with ⟨zs, inside, -⟩
  rw [inside]
  exact opensWith_match same

theorem Closed.behind {c : Char} (closed : Closed f pattern (c :: head) tail) :
    Closed f pattern head tail := by
  rintro xs d ys rfl
  exact closed (c :: xs) d ys rfl

theorem Closed.opensWith_eq {c : Char} (closed : Closed f pattern (c :: head) tail) :
    opensWith f pattern (c :: (head ++ tail)) = opensWith f pattern (c :: head) := by
  rw [Bool.eq_iff_iff]
  refine ⟨closed [] c head rfl, ?_⟩
  intro opens
  exact opensWith_append opens tail

theorem Closed.columnsFrom_append (closed : Closed f pattern head tail) (base : Nat) :
    columnsFrom f pattern base (head ++ tail) =
      columnsFrom f pattern base head ++ columnsFrom f pattern (base + width head) tail := by
  induction head generalizing base with
  | nil => rfl
  | cons c head ih =>
    have same := closed.opensWith_eq
    rw [List.cons_append, columnsFrom, columnsFrom, same, ih closed.behind, width_cons,
      Nat.add_assoc]
    split <;> rfl

theorem Closed.substituteFrom_append {skip : Nat} (closed : Closed f pattern head tail)
    (short : skip ≤ head.length) :
    substituteFrom f pattern replacement skip (head ++ tail) =
      substituteFrom f pattern replacement skip head ++
        substitute f pattern replacement tail := by
  induction head generalizing skip with
  | nil =>
    rw [Nat.le_zero.mp short]
    rfl
  | cons c head ih =>
    cases skip with
    | succ skip => exact ih closed.behind (Nat.le_of_succ_le_succ short)
    | zero =>
      rw [List.cons_append, substituteFrom, substituteFrom, closed.opensWith_eq]
      cases opens : opensWith f pattern (c :: head) with
      | true =>
        have length := length_le_of_opensWith opens
        rw [List.length_cons] at length
        rw [if_pos rfl, if_pos rfl, ih closed.behind (by omega), List.append_assoc]
      | false => exact congrArg (c :: ·) (ih closed.behind (Nat.zero_le _))

/-- Whether a text is divided at a column: the occurrences that start at the column or before it are
those in the first part, and what that part has behind the column is only the rest of the last of
them. -/
structure Divides (f : Char → Char) (pattern : List Char) (column : Nat) (head tail : List Char) :
    Prop where
  closed : Closed f pattern head tail
  starts : ∀ start ∈ columns f pattern head, start ≤ column
  covers : tail ≠ [] → column < width head
  rest : ∃ xs, head = takeBytes (column + 1) (head ++ tail) ++ xs ∧ FreeOf f pattern xs tail

theorem divides_takeBytes (size : ∀ c, (f c).utf8Size = c.utf8Size) (written : pattern ≠ [])
    (clear : ∀ start ∈ columns f pattern cs, start ≤ column → start + width pattern ≤ column) :
    Divides f pattern column (takeBytes (column + 1) cs) (dropBytes (column + 1) cs) := by
  have whole := takeBytes_append_dropBytes (column + 1) cs
  have covers : dropBytes (column + 1) cs ≠ [] → column < width (takeBytes (column + 1) cs) :=
    le_width_takeBytes
  have before : ∀ start ∈ columns f pattern cs, start < width (takeBytes (column + 1) cs) →
      start ≤ column := by
    intro start found inside
    rcases exists_of_mem_columnsFrom found with ⟨as, m, bs, split, -, rfl⟩
    rw [Nat.zero_add] at inside ⊢
    rw [← whole] at split
    rcases exists_append_of_width_le split.symm (Nat.le_of_lt inside) with ⟨zs, taken, -⟩
    cases zs with
    | nil => simp [taken] at inside
    | cons c zs => exact Nat.le_of_lt_succ (width_lt_of_takeBytes taken)
  refine ⟨closed_of_columns size written ?_, ?_, covers, [], ?_, .nil _⟩
  · rw [whole]
    intro start found inside
    have ends := clear start found (before start found inside)
    by_cases none : dropBytes (column + 1) cs = []
    · have fits := end_le_of_mem_columns size found
      rwa [← whole, none, List.append_nil] at fits
    · have := covers none
      omega
  · intro start found
    have fits := end_le_of_mem_columns size found
    have positive := width_pos written
    have still := mem_columns_append_left found (dropBytes (column + 1) cs)
    rw [whole] at still
    exact before start still (by omega)
  · rw [whole, List.append_nil]

theorem Apart.exists_freeOf (size : ∀ c, (f c).utf8Size = c.utf8Size) (written : pattern ≠ [])
    (apart : Apart f pattern (as ++ m ++ bs)) (same : m.map f = pattern.map f)
    (before : width as ≤ column) (past : column < width as + width pattern) :
    ∃ xs, as ++ m = takeBytes (column + 1) (as ++ m ++ bs) ++ xs ∧ FreeOf f pattern xs bs := by
  have wide : width (as ++ m) = width as + width pattern := by
    rw [width_append, width_match size same]
  have here : width as ∈ columns f pattern (as ++ m ++ bs) := by
    rw [List.append_assoc]
    exact mem_columns_match written same as bs
  have whole := takeBytes_append_dropBytes (column + 1) (as ++ m ++ bs)
  rcases List.append_eq_append_iff.mp whole with ⟨xs, longer, left⟩ | ⟨xs, taken, -⟩
  · refine ⟨xs, longer, ?_⟩
    cases xs with
    | nil => exact .nil _
    | cons c xs =>
      have covers : column + 1 ≤ width (takeBytes (column + 1) (as ++ m ++ bs)) :=
        le_width_takeBytes (by rw [left]; simp)
      have longest := congrArg width longer
      rw [wide, width_append] at longest
      apply freeOf_of_columnsFrom (0 + width (takeBytes (column + 1) (as ++ m ++ bs)))
      intro next found
      have behind := le_of_mem_columnsFrom found
      rw [← left] at found
      have there := (columnsFrom_suffix 0 _ _).mem found
      rw [whole] at there
      have := apart.far here there (by omega)
      omega
  · cases xs with
    | nil => exact ⟨[], by rw [taken, List.append_nil, List.append_nil], .nil _⟩
    | cons c xs =>
      have := width_lt_of_takeBytes taken
      omega

theorem divides_match (size : ∀ c, (f c).utf8Size = c.utf8Size) (written : pattern ≠ [])
    (apart : Apart f pattern (as ++ m ++ bs)) (same : m.map f = pattern.map f)
    (before : width as ≤ column) (past : column < width as + width pattern) :
    Divides f pattern column (as ++ m) bs := by
  have wide : width (as ++ m) = width as + width pattern := by
    rw [width_append, width_match size same]
  have here : width as ∈ columns f pattern (as ++ m ++ bs) := by
    rw [List.append_assoc]
    exact mem_columns_match written same as bs
  refine ⟨closed_of_columns size written ?_, ?_, ?_,
    apart.exists_freeOf size written same before past⟩
  · intro start found inside
    rcases Nat.lt_trichotomy start (width as) with less | rfl | more
    · have := apart.far found here less
      omega
    · exact Nat.le_of_eq wide.symm
    · have := apart.far here found more
      omega
  · intro start found
    have := end_le_of_mem_columns size found
    omega
  · intro _
    omega

theorem exists_divides (size : ∀ c, (f c).utf8Size = c.utf8Size) (written : pattern ≠ [])
    (column : Nat) (apart : Apart f pattern cs) :
    ∃ head tail, head ++ tail = cs ∧ Divides f pattern column head tail := by
  by_cases clear : ∀ start ∈ columns f pattern cs, start ≤ column → start + width pattern ≤ column
  · exact ⟨_, _, takeBytes_append_dropBytes (column + 1) cs, divides_takeBytes size written clear⟩
  · simp only [not_forall, Nat.not_le] at clear
    rcases clear with ⟨start, found, before, past⟩
    rcases exists_of_mem_columnsFrom found with ⟨as, m, bs, rfl, same, rfl⟩
    rw [Nat.zero_add] at before past
    rw [← List.append_assoc] at apart
    exact ⟨as ++ m, bs, List.append_assoc as m bs,
      divides_match size written apart same before past⟩

theorem Divides.dropBytes_eq (divides : Divides f pattern column head tail) :
    ∃ xs, head = takeBytes (column + 1) (head ++ tail) ++ xs ∧
      dropBytes (column + 1) (head ++ tail) = xs ++ tail ∧ FreeOf f pattern xs tail := by
  rcases divides.rest with ⟨xs, longer, free⟩
  have whole := takeBytes_append_dropBytes (column + 1) (head ++ tail)
  have same : takeBytes (column + 1) (head ++ tail) ++ dropBytes (column + 1) (head ++ tail) =
      takeBytes (column + 1) (head ++ tail) ++ (xs ++ tail) := by
    rw [whole, ← List.append_assoc, ← longer]
  exact ⟨xs, longer, List.append_cancel_left same, free⟩

theorem Divides.mem_head (divides : Divides f pattern column head tail)
    (occurs : start ∈ columns f pattern (head ++ tail)) (before : start ≤ column) :
    start ∈ columns f pattern head := by
  rw [columns, divides.closed.columnsFrom_append, List.mem_append] at occurs
  rcases occurs with inside | beyond
  · exact inside
  · have behind := le_of_mem_columnsFrom beyond
    have covers : tail ≠ [] → column < width head := divides.covers
    cases tail with
    | nil => simp at beyond
    | cons c tail =>
      have := covers (List.cons_ne_nil c tail)
      omega

/-- Once the occurrences behind the column have been replaced, what ends up to it is in the first
part. -/
theorem Divides.mem_head_of_le (size : ∀ c, (f c).utf8Size = c.utf8Size) (written : pattern ≠ [])
    (divides : Divides f pattern column head tail)
    (occurs : start ∈ columns f pattern (head ++ substitute f pattern replacement tail))
    (ends : start + width pattern ≤ column) : start ∈ columns f pattern head := by
  by_cases none : tail = []
  · have same : head ++ substitute f pattern replacement tail = head := by
      rw [none]
      exact List.append_nil head
    rwa [same] at occurs
  · have covers := divides.covers none
    rcases exists_of_mem_columns_append size occurs (by omega) with ⟨as, m, bs, rfl, same, rfl⟩
    exact mem_columns_match written same as bs

end Occurrences

end RobotScript.Chars
