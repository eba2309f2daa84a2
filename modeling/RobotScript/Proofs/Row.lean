import Mathlib.Data.List.Nodup
import RobotScript.Script.Links
/-!
Rows of lines, linked. The handles of a row are distinct, so a handle names one place in it, and
what its links say there follows from the lines on both sides. Whatever is put into a row or taken
out of it by changing links, the links are those of the row that is left.
-/
namespace RobotScript

namespace Entry

def handlesOf (es : List Entry) : List Handle := es.map (·.handle)

@[simp] theorem handlesOf_nil : handlesOf [] = [] := rfl

@[simp] theorem handlesOf_cons (x : Entry) (es : List Entry) :
    handlesOf (x :: es) = x.handle :: handlesOf es := rfl

@[simp] theorem handlesOf_append (as bs : List Entry) :
    handlesOf (as ++ bs) = handlesOf as ++ handlesOf bs := List.map_append

@[simp] theorem length_handlesOf (es : List Entry) : (handlesOf es).length = es.length :=
  List.length_map _

theorem handlesOf_perm {as bs : List Entry} (perm : as.Perm bs) :
    (handlesOf as).Perm (handlesOf bs) := perm.map _

theorem mem_handlesOf {es : List Entry} {x : Entry} (mem : x ∈ es) : x.handle ∈ handlesOf es :=
  List.mem_map_of_mem mem

theorem mem_handlesOf_iff {es : List Entry} {h : Handle} :
    h ∈ handlesOf es ↔ ∃ x ∈ es, x.handle = h := List.mem_map

variable {es pre post : List Entry} {h : Handle} {x y : Entry}

theorem eq_of_handle (distinct : (handlesOf es).Nodup) (hx : x ∈ es) (hy : y ∈ es)
    (same : x.handle = y.handle) : x = y :=
  List.inj_on_of_nodup_map distinct hx hy same

theorem apart_of_nodup (distinct : (handlesOf (pre ++ post)).Nodup) :
    ∀ h ∈ handlesOf pre, h ∉ handlesOf post := by
  rw [handlesOf_append] at distinct
  exact fun h above below => List.disjoint_of_nodup_append distinct above below

theorem not_mem_before (distinct : (handlesOf (pre ++ x :: post)).Nodup) :
    x.handle ∉ handlesOf pre :=
  fun mem => apart_of_nodup distinct x.handle mem List.mem_cons_self

theorem not_mem_behind (distinct : (handlesOf (pre ++ x :: post)).Nodup) :
    x.handle ∉ handlesOf post := by
  rw [handlesOf_append] at distinct
  exact (List.nodup_cons.mp distinct.of_append_right).1

theorem before_ne (distinct : (handlesOf (pre ++ x :: post)).Nodup) :
    ∀ y ∈ pre, y.handle ≠ x.handle :=
  fun _ mem same => not_mem_before distinct (same ▸ mem_handlesOf mem)

theorem behind_ne (distinct : (handlesOf (pre ++ x :: post)).Nodup) :
    ∀ y ∈ post, y.handle ≠ x.handle :=
  fun _ mem same => not_mem_behind distinct (same ▸ mem_handlesOf mem)

theorem filter_ne (others : ∀ y ∈ es, y.handle ≠ h) : es.filter (·.handle != h) = es := by
  rw [List.filter_eq_self]
  intro y mem
  simpa using others y mem

theorem indexIn?_eq_none_iff : indexIn? es h = none ↔ ∀ y ∈ es, y.handle ≠ h := by
  rw [indexIn?, List.findIdx?_eq_none_iff]
  simp

theorem split_of_indexIn? {i : Nat} (found : indexIn? es h = some i) :
    ∃ pre x post, es = pre ++ x :: post ∧ pre.length = i ∧ x.handle = h := by
  obtain ⟨bound, named, -⟩ := List.findIdx?_eq_some_iff_getElem.mp found
  refine ⟨es.take i, es[i], es.drop (i + 1), ?_, by simp; omega, by simpa using named⟩
  rw [List.getElem_cons_drop, List.take_append_drop]

theorem indexIn?_split (others : ∀ y ∈ pre, y.handle ≠ x.handle) :
    indexIn? (pre ++ x :: post) x.handle = some pre.length := by
  have absent : pre.findIdx? (·.handle == x.handle) = none := indexIn?_eq_none_iff.mpr others
  simp [indexIn?, List.findIdx?_append, List.findIdx?_cons, absent]

end Entry

namespace Links

open Entry

variable {l l' : Links} {es pre post run : List Entry} {x e : Entry}

/-! ### Links one by one -/

theorem ext_node? (first : l.first = l'.first) (nodes : ∀ k, l.node? k = l'.node? k) : l = l' := by
  cases l
  cases l'
  cases first
  congr 1
  exact Std.ExtTreeMap.ext_getElem? fun k => nodes k

theorem getElem?_modify (nodes : Std.ExtTreeMap Handle Node) (h : Handle) (f : Node → Node)
    (k : Handle) : (nodes.modify h f)[k]? = if k = h then nodes[k]?.map f else nodes[k]? := by
  rw [Std.ExtTreeMap.getElem?_modify]
  simp only [Std.LawfulEqCmp.compare_eq_iff_eq]
  split
  next same => rw [if_pos same.symm, same]
  next differs => rw [if_neg (Ne.symm differs)]

theorem node?_linkBelow (h : Handle) (target : Option Handle) (k : Handle) :
    (l.linkBelow h target).node? k =
      if h.isTop = false ∧ k = h then (l.node? k).map fun n => { n with below := target }
      else l.node? k := by
  unfold linkBelow node?
  cases h.isTop <;> simp [getElem?_modify]

theorem node?_linkAbove (h? : Option Handle) (target k : Handle) :
    (l.linkAbove h? target).node? k =
      if some k = h? then (l.node? k).map fun n => { n with above := target } else l.node? k := by
  cases h? <;> simp [linkAbove, node?, getElem?_modify]

theorem first_linkBelow (h : Handle) (target : Option Handle) :
    (l.linkBelow h target).first = if h.isTop then target else l.first := by
  unfold linkBelow
  split <;> rfl

theorem first_linkAbove (h? : Option Handle) (target : Handle) :
    (l.linkAbove h? target).first = l.first := by
  cases h? <;> rfl

/-! ### Links of a row -/

/-- The links that a line has in a run of lines between two places. -/
def nodeIn? (above : Handle) : List Entry → Option Handle → Handle → Option Node
  | [], _, _ => none
  | e :: es, below, h =>
    if e.handle = h then some ⟨e.line, above, (es.head?.map (·.handle)).or below⟩
    else nodeIn? e.handle es below h

/-- The last of some lines, or the place above them. -/
def bottom (above : Handle) (es : List Entry) : Handle := (es.getLast?.map (·.handle)).getD above

theorem bottom_cons (above : Handle) (e : Entry) (es : List Entry) :
    bottom above (e :: es) = bottom e.handle es := by
  simp [bottom, List.getLast?_cons]

@[simp] theorem bottom_concat (above : Handle) (es : List Entry) (y : Entry) :
    bottom above (es ++ [y]) = y.handle := by
  simp [bottom]

theorem bottom_mem (y : Entry) (es : List Entry) : bottom y.handle es ∈ handlesOf (y :: es) := by
  rcases List.eq_nil_or_concat es with rfl | ⟨es, z, rfl⟩
  · simp [bottom]
  · simp

theorem getElem?_chainFrom (above : Handle) (es : List Entry) (k : Handle) :
    (chainFrom above es)[k]? = nodeIn? above es none k := by
  induction es generalizing above with
  | nil => simp [chainFrom, nodeIn?]
  | cons e es ih =>
    rw [chainFrom, nodeIn?, Std.ExtTreeMap.getElem?_insert]
    simp only [Std.LawfulEqCmp.compare_eq_iff_eq, ih, Option.or_none]

theorem node?_ofEntries (es : List Entry) (k : Handle) :
    (ofEntries es).node? k = nodeIn? .top es none k := getElem?_chainFrom .top es k

theorem nodeIn?_append (above : Handle) (pre post : List Entry) (below : Option Handle)
    (k : Handle) : nodeIn? above (pre ++ post) below k =
      (nodeIn? above pre ((post.head?.map (·.handle)).or below) k).or
        (nodeIn? (bottom above pre) post below k) := by
  induction pre generalizing above with
  | nil => simp [nodeIn?, bottom]
  | cons e pre ih =>
    rw [List.cons_append, nodeIn?, nodeIn?, ih, bottom_cons]
    split
    · cases pre <;> simp
    · rfl

theorem nodeIn?_eq_none_iff {above : Handle} {below : Option Handle} {k : Handle} :
    nodeIn? above es below k = none ↔ k ∉ handlesOf es := by
  induction es generalizing above with
  | nil => simp [nodeIn?]
  | cons e es ih =>
    rw [nodeIn?]
    split
    · simp [*]
    next differs => simp [ih, Ne.symm differs]

theorem nodeIn?_append_left {above : Handle} {below : Option Handle} {k : Handle}
    (mem : k ∈ handlesOf pre) : nodeIn? above (pre ++ post) below k =
      nodeIn? above pre ((post.head?.map (·.handle)).or below) k := by
  rw [nodeIn?_append]
  cases found : nodeIn? above pre ((post.head?.map (·.handle)).or below) k with
  | none => exact absurd mem (nodeIn?_eq_none_iff.mp found)
  | some n => rfl

theorem nodeIn?_append_right {above : Handle} {below : Option Handle} {k : Handle}
    (absent : k ∉ handlesOf pre) : nodeIn? above (pre ++ post) below k =
      nodeIn? (bottom above pre) post below k := by
  rw [nodeIn?_append, nodeIn?_eq_none_iff.mpr absent, Option.none_or]

theorem nodeIn?_below (distinct : (handlesOf (pre ++ [x])).Nodup) (above : Handle)
    (below target : Option Handle) (k : Handle) :
    nodeIn? above (pre ++ [x]) target k =
      if k = x.handle then
        (nodeIn? above (pre ++ [x]) below k).map fun n => { n with below := target }
      else nodeIn? above (pre ++ [x]) below k := by
  rw [nodeIn?_append, nodeIn?_append]
  simp only [nodeIn?, List.head?_cons, Option.map_some, Option.some_or, List.head?_nil,
    Option.map_none, Option.none_or]
  split
  next same =>
    subst same
    have absent : nodeIn? above pre (some x.handle) x.handle = none :=
      nodeIn?_eq_none_iff.mpr (not_mem_before distinct)
    simp [absent]
  next differs => simp [Ne.symm differs]

theorem nodeIn?_above (above target : Handle) (below : Option Handle) (k : Handle) :
    nodeIn? target post below k =
      if some k = post.head?.map (·.handle) then
        (nodeIn? above post below k).map fun n => { n with above := target }
      else nodeIn? above post below k := by
  cases post with
  | nil => simp [nodeIn?]
  | cons e post =>
    simp only [nodeIn?, List.head?_cons, Option.map_some, Option.some.injEq]
    by_cases same : e.handle = k
    · simp [same]
    · simp [same, Ne.symm same]

/-- What the links of two rows that stand apart are when the one is led down to a place and the
other up to one. -/
theorem node?_relink (below : Option Handle) (above : Handle) {target : Option Handle}
    {source : Handle} (distinct : (handlesOf pre).Nodup) (real : ∀ h ∈ handlesOf pre, h.isTop = false)
    (apart : ∀ h ∈ handlesOf pre, h ∉ handlesOf post)
    (upper : ∀ k ∈ handlesOf pre, l.node? k = nodeIn? .top pre below k)
    (lower : ∀ k ∈ handlesOf post, l.node? k = nodeIn? above post none k) (k : Handle) :
    ((l.linkBelow (bottom .top pre) target).linkAbove (post.head?.map (·.handle)) source).node? k =
      if k ∈ handlesOf post then nodeIn? source post none k
      else if k ∈ handlesOf pre then nodeIn? .top pre target k else l.node? k := by
  have led : (l.linkBelow (bottom .top pre) target).node? k =
      if k ∈ handlesOf pre then nodeIn? .top pre target k else l.node? k := by
    rw [node?_linkBelow]
    rcases List.eq_nil_or_concat pre with rfl | ⟨pre, y, rfl⟩
    · simp [bottom, Handle.isTop]
    · rw [List.concat_eq_append] at *
      rw [bottom_concat, nodeIn?_below distinct .top below, real _ (by simp)]
      by_cases mem : k ∈ handlesOf (pre ++ [y])
      · rw [if_pos mem, upper k mem]
        simp
      · have differs : k ≠ y.handle := by
          rintro rfl
          exact mem (by simp)
        rw [if_neg mem, if_neg (differs ·.2)]
  rw [node?_linkAbove, led]
  by_cases mem : k ∈ handlesOf post
  · rw [if_pos mem, if_neg fun above => apart k above mem, lower k mem, ← nodeIn?_above]
  · rw [if_neg mem, if_neg]
    intro here
    rcases Option.map_eq_some_iff.mp here.symm with ⟨y, starts, rfl⟩
    exact mem (mem_handlesOf (List.mem_of_head? starts))

theorem first_relink (real : ∀ h ∈ handlesOf pre, h.isTop = false) (target : Option Handle)
    (h? : Option Handle) (source : Handle) :
    ((l.linkBelow (bottom .top pre) target).linkAbove h? source).first =
      if pre = [] then target else l.first := by
  rw [first_linkAbove, first_linkBelow]
  rcases List.eq_nil_or_concat pre with rfl | ⟨pre, y, rfl⟩
  · rfl
  · rw [List.concat_eq_append] at *
    simp [real y.handle (by simp)]

/-! ### Looking up in a row -/

section Lookup

variable (distinct : (handlesOf (pre ++ x :: post)).Nodup)

include distinct

theorem node?_split :
    (ofEntries (pre ++ x :: post)).node? x.handle =
      some ⟨x.line, bottom .top pre, post.head?.map (·.handle)⟩ := by
  rw [node?_ofEntries, nodeIn?_append_right (not_mem_before distinct), nodeIn?, if_pos rfl, Option.or_none]

theorem get?_split : (ofEntries (pre ++ x :: post)).get? x.handle = some x.line := by
  rw [get?, node?_split distinct]
  rfl

theorem above?_split : (ofEntries (pre ++ x :: post)).above? x.handle = some (bottom .top pre) := by
  rw [above?, node?_split distinct]
  rfl

theorem next?_split (real : x.handle.isTop = false) :
    (ofEntries (pre ++ x :: post)).next? x.handle = post.head?.map (·.handle) := by
  rw [next?, real, node?_split distinct]
  rfl

end Lookup

theorem node?_eq_none {k : Handle} (absent : k ∉ handlesOf es) : (ofEntries es).node? k = none := by
  rw [node?_ofEntries, nodeIn?_eq_none_iff]
  exact absent

theorem size_ofEntries (distinct : (handlesOf es).Nodup) : (ofEntries es).nodes.size = es.length := by
  unfold ofEntries
  generalize Handle.top = above
  induction es generalizing above with
  | nil => rfl
  | cons e es ih =>
    rw [handlesOf_cons, List.nodup_cons] at distinct
    have absent : (chainFrom e.handle es).contains e.handle = false := by
      rw [Std.ExtTreeMap.contains_eq_isSome_getElem?, getElem?_chainFrom,
        nodeIn?_eq_none_iff.mpr distinct.1, Option.isSome_none]
    have rest : (chainFrom e.handle es).size = es.length := ih distinct.2 e.handle
    simp [chainFrom, Std.ExtTreeMap.size_insert, absent, rest]

section Ways

variable (distinct : (handlesOf es).Nodup) (real : ∀ h ∈ handlesOf es, h.isTop = false)

include distinct real

theorem walk_row (row : es = pre ++ post) (steps : Nat) :
    (ofEntries es).walk steps (post.head?.map (·.handle)) = (handlesOf post).take steps := by
  induction steps generalizing pre post with
  | zero => cases post <;> rfl
  | succ steps ih =>
    cases post with
    | nil => rfl
    | cons x post =>
      have next := next?_split (row ▸ distinct) (real x.handle (by simp [row]))
      rw [← row] at next
      rw [List.head?_cons, Option.map_some, walk, next, ih (row.trans (List.append_cons pre x post))]
      rfl

theorem walk_steps (row : es = pre ++ post) :
    (ofEntries es).walk (ofEntries es).steps (post.head?.map (·.handle)) = handlesOf post := by
  rw [walk_row distinct real row, List.take_of_length_le]
  rw [steps, size_ofEntries distinct, row, length_handlesOf, List.length_append]
  omega

theorem endless_row (row : es = pre ++ post) :
    (ofEntries es).endless (post.head?.map (·.handle)) = false := by
  rw [endless, walk_steps distinct real row, beq_eq_false_iff_ne, length_handlesOf, steps,
    size_ofEntries distinct, row, List.length_append]
  omega

omit real in
theorem entries_row (row : es = pre ++ post) :
    (handlesOf post).filterMap (ofEntries es).entryAt? = post := by
  rw [handlesOf, List.filterMap_map]
  have found : ∀ y ∈ post, (ofEntries es).entryAt? y.handle = some y := by
    intro y mem
    rcases List.append_of_mem mem with ⟨as, bs, rfl⟩
    rw [← List.append_assoc] at row
    rw [row]
    rw [entryAt?, get?_split (row ▸ distinct)]
    rfl
  have same := List.filterMap_congr (f := (ofEntries es).entryAt? ∘ (·.handle)) (g := some) found
  rw [same, List.filterMap_some]

theorem below_row (row : es = pre ++ x :: post) : (ofEntries es).below x.handle = post := by
  have behind : es = (pre ++ [x]) ++ post := by rw [row, List.append_assoc, List.singleton_append]
  have next := next?_split (row ▸ distinct) (real x.handle (by simp [row]))
  rw [← row] at next
  rw [below, next, walk_steps distinct real behind, entries_row distinct behind]

theorem below_top : (ofEntries es).below .top = es := by
  have row : es = [] ++ es := rfl
  have next : (ofEntries es).next? .top = es.head?.map (·.handle) := rfl
  rw [below, next, walk_steps distinct real row, entries_row distinct row]

theorem last?_row : (ofEntries es).last? = es.getLast?.map (·.handle) := by
  have row : es = [] ++ es := rfl
  have first : (ofEntries es).first = es.head?.map (·.handle) := rfl
  rw [last?, first, walk_steps distinct real row, handlesOf, List.getLast?_map]

end Ways

/-! ### Changing a row -/

theorem node?_setLine (h : Handle) (line : Line) (k : Handle) :
    (l.setLine h line).node? k =
      if k = h then (l.node? k).map fun n => { n with line } else l.node? k :=
  getElem?_modify _ _ _ _

theorem setLine_split (distinct : (handlesOf (pre ++ x :: post)).Nodup) (line : Line) :
    (ofEntries (pre ++ x :: post)).setLine x.handle line =
      ofEntries (pre ++ ⟨x.handle, line⟩ :: post) := by
  apply ext_node?
  · cases pre <;> rfl
  · intro k
    rw [node?_setLine, node?_ofEntries, node?_ofEntries]
    by_cases above : k ∈ handlesOf pre
    · have differs : k ≠ x.handle := fun same => not_mem_before distinct (same ▸ above)
      rw [if_neg differs, nodeIn?_append_left above, nodeIn?_append_left above]
      rfl
    · rw [nodeIn?_append_right above, nodeIn?_append_right above, nodeIn?, nodeIn?]
      by_cases same : x.handle = k
      · simp [same]
      · simp [same, Ne.symm same]

theorem node?_insert (nodes : Std.ExtTreeMap Handle Node) (first : Option Handle) (h : Handle)
    (n : Node) (k : Handle) :
    (⟨first, nodes.insert h n⟩ : Links).node? k = if h = k then some n else nodes[k]? := by
  rw [node?, Std.ExtTreeMap.getElem?_insert]
  simp only [Std.LawfulEqCmp.compare_eq_iff_eq]

theorem put_row (distinct : (handlesOf (pre ++ e :: post)).Nodup)
    (real : ∀ h ∈ handlesOf pre, h.isTop = false) :
    (ofEntries (pre ++ post)).put (bottom .top pre) (post.head?.map (·.handle)) e =
      ofEntries (pre ++ e :: post) := by
  have other : ∀ k ∈ handlesOf post, e.handle ≠ k :=
    fun k below same => not_mem_behind distinct (same ▸ below)
  have apart : ∀ k ∈ handlesOf pre, k ∉ handlesOf post :=
    fun k above below => apart_of_nodup distinct k above (List.mem_cons_of_mem _ below)
  have preDistinct : (handlesOf pre).Nodup := distinct.sublist (by simp)
  have held : ∀ k, (ofEntries (pre ++ post)).nodes[k]? = nodeIn? .top (pre ++ post) none k :=
    node?_ofEntries (pre ++ post)
  apply ext_node?
  · rw [put, first_relink real]
    cases pre <;> rfl
  · intro k
    rw [put, node?_relink (post.head?.map (·.handle)) (bottom .top pre) preDistinct real apart,
      node?_ofEntries, node?_insert, held]
    · by_cases below : k ∈ handlesOf post
      · rw [if_pos below, nodeIn?_append_right fun above => apart k above below, nodeIn?,
          if_neg (other k below)]
      rw [if_neg below]
      by_cases above : k ∈ handlesOf pre
      · rw [if_pos above, nodeIn?_append_left above]
        rfl
      rw [if_neg above, nodeIn?_append_right above, nodeIn?_append_right above, nodeIn?,
        nodeIn?_eq_none_iff.mpr below, nodeIn?_eq_none_iff.mpr below, Option.or_none]
    · intro k above
      have differs : e.handle ≠ k := fun same => not_mem_before distinct (same ▸ above)
      rw [node?_insert, held, if_neg differs, nodeIn?_append_left above, Option.or_none]
    · intro k below
      rw [node?_insert, held, if_neg (other k below),
        nodeIn?_append_right fun above => apart k above below]

theorem insert?_before_split (distinct : (handlesOf (pre ++ e :: x :: post)).Nodup)
    (real : ∀ h ∈ handlesOf pre, h.isTop = false) :
    (ofEntries (pre ++ x :: post)).insert? x.handle .before e =
      some (ofEntries (pre ++ e :: x :: post)) := by
  have rest : (handlesOf (pre ++ x :: post)).Nodup := by
    refine distinct.sublist ?_
    simp
  unfold insert?
  rw [above?_split rest]
  exact congrArg some (put_row distinct real)

theorem insert?_after_split (distinct : (handlesOf (pre ++ x :: e :: post)).Nodup)
    (real : ∀ h ∈ handlesOf (pre ++ [x]), h.isTop = false) :
    (ofEntries (pre ++ x :: post)).insert? x.handle .after e =
      some (ofEntries (pre ++ x :: e :: post)) := by
  have rest : (handlesOf (pre ++ x :: post)).Nodup := by
    refine distinct.sublist ?_
    simp
  have whole : (handlesOf ((pre ++ [x]) ++ e :: post)).Nodup := by simpa using distinct
  have put := put_row whole real
  rw [bottom_concat, List.append_assoc, List.append_assoc] at put
  unfold insert?
  rw [next?_split rest (real x.handle (by simp))]
  exact congrArg some put

theorem insert?_top (distinct : (handlesOf (e :: post)).Nodup) :
    (ofEntries post).insert? .top .after e = some (ofEntries (e :: post)) := by
  have whole : (handlesOf ([] ++ e :: post)).Nodup := distinct
  exact congrArg some (put_row whole (by simp))

/-! ### Taking lines out -/

structure Without (l : Links) (run : List Entry) (left : Links) : Prop where
  first : left.first = l.first
  nodes : ∀ k, left.node? k = if k ∈ handlesOf run then none else l.node? k
  found : ∀ y ∈ run, l.entryAt? y.handle = some y
  distinct : (handlesOf run).Nodup

theorem node?_erase (nodes : Std.ExtTreeMap Handle Node) (first : Option Handle) (h k : Handle) :
    (⟨first, nodes.erase h⟩ : Links).node? k = if k = h then none else nodes[k]? := by
  rw [node?, Std.ExtTreeMap.getElem?_erase]
  simp only [Std.LawfulEqCmp.compare_eq_iff_eq, eq_comm (a := h)]

theorem without_erase {h : Handle} {n : Node} (found : l.node? h = some n) :
    l.Without [⟨h, n.line⟩] { l with nodes := l.nodes.erase h } where
  first := rfl
  nodes := fun k => by
    rw [node?_erase]
    simp [node?]
  found := by
    rintro y (_ | ⟨_, ⟨⟩⟩)
    rw [entryAt?, get?, found]
    rfl
  distinct := by simp

theorem without_takeOut (stop : Handle) (steps : Nat) (h : Handle) (l : Links) :
    l.Without (takeOut stop steps h l).1 (takeOut stop steps h l).2 := by
  induction steps generalizing h l with
  | zero => exact ⟨rfl, fun k => by simp [takeOut], by simp [takeOut], by simp [takeOut]⟩
  | succ steps ih =>
    unfold takeOut
    cases found : l.node? h with
    | none => exact ⟨rfl, fun k => by simp, by simp, by simp⟩
    | some n =>
      have one := without_erase found
      dsimp only
      split
      next next _ =>
        have rest := ih next { l with nodes := l.nodes.erase h }
        refine ⟨rest.first, fun k => ?_, ?_, ?_⟩
        · rw [rest.nodes, one.nodes]
          simp only [handlesOf_cons, handlesOf_nil, List.mem_cons]
          split <;> split <;> simp_all
        · intro y mem
          rcases List.mem_cons.mp mem with rfl | mem
          · exact one.found _ (by simp)
          · have again := rest.found y mem
            rw [entryAt?, get?, one.nodes] at again
            split at again
            · contradiction
            · exact again
        · rw [handlesOf_cons, List.nodup_cons]
          refine ⟨fun mem => ?_, rest.distinct⟩
          rcases mem_handlesOf_iff.mp mem with ⟨y, inside, same⟩
          have again := rest.found y inside
          rw [same, entryAt?, get?, one.nodes] at again
          simp at again
      next => exact one

/-- Lines that are linked to each other down to the last of them are taken out together. -/
theorem takeOut_run {above : Handle} {below : Option Handle} {steps : Nat} {rest : List Entry}
    (distinct : (handlesOf (x :: rest)).Nodup)
    (linked : ∀ k ∈ handlesOf (x :: rest), l.node? k = nodeIn? above (x :: rest) below k)
    (enough : (x :: rest).length ≤ steps) :
    (takeOut (bottom x.handle rest) steps x.handle l).1 = x :: rest := by
  induction rest generalizing x l steps above with
  | nil =>
    cases steps with
    | zero => contradiction
    | succ steps =>
      have found := linked x.handle (by simp)
      simp only [nodeIn?, if_true] at found
      simp [takeOut, found, bottom]
  | cons y rest ih =>
    cases steps with
    | zero => contradiction
    | succ steps =>
      have found := linked x.handle (by simp)
      simp only [nodeIn?, if_true, List.head?_cons, Option.map_some, Option.some_or] at found
      rw [handlesOf_cons, List.nodup_cons] at distinct
      have differs : x.handle ≠ bottom y.handle rest :=
        fun same => distinct.1 (same ▸ bottom_mem y rest)
      let left : Links := { l with nodes := l.nodes.erase x.handle }
      have still : ∀ k ∈ handlesOf (y :: rest),
          left.node? k = nodeIn? x.handle (y :: rest) below k := by
        intro k mem
        have other : x.handle ≠ k := fun same => distinct.1 (same ▸ mem)
        have here := linked k (List.mem_cons_of_mem _ mem)
        rw [nodeIn?, if_neg other] at here
        rw [(without_erase found).nodes, if_neg (by simpa using other.symm), here]
      have run : (takeOut (bottom y.handle rest) steps y.handle left).1 = y :: rest :=
        ih distinct.2 still (by simpa using enough)
      rw [takeOut, found, bottom_cons]
      simp only [if_neg differs]
      exact congrArg (x :: ·) run

/-- A run of lines that is gone leaves a row when those above and below it are linked. -/
theorem relink_row {gone : Links} (distinct : (handlesOf (pre ++ (run ++ post))).Nodup)
    (real : ∀ h ∈ handlesOf pre, h.isTop = false)
    (without : (ofEntries (pre ++ (run ++ post))).Without run gone) :
    (gone.linkBelow (bottom .top pre) (post.head?.map (·.handle))).linkAbove
      (post.head?.map (·.handle)) (bottom .top pre) = ofEntries (pre ++ post) := by
  have apart : ∀ k ∈ handlesOf pre, k ∉ handlesOf run ∧ k ∉ handlesOf post := by
    intro k above
    simpa using apart_of_nodup distinct k above
  have runApart : ∀ k ∈ handlesOf run, k ∉ handlesOf post :=
    apart_of_nodup (distinct.sublist (by simp))
  have preDistinct : (handlesOf pre).Nodup := distinct.sublist (by simp)
  apply ext_node?
  · rw [first_relink real, without.first]
    cases pre <;> rfl
  · intro k
    rw [node?_relink ((run ++ post).head?.map (·.handle)) (bottom (bottom .top pre) run) preDistinct
      real (fun h above => (apart h above).2), node?_ofEntries]
    · by_cases below : k ∈ handlesOf post
      · rw [if_pos below, nodeIn?_append_right fun above => (apart k above).2 below]
      rw [if_neg below]
      by_cases above : k ∈ handlesOf pre
      · rw [if_pos above, nodeIn?_append_left above, Option.or_none]
      rw [if_neg above, nodeIn?_append_right above, nodeIn?_eq_none_iff.mpr below, without.nodes]
      split
      · rfl
      next other => exact node?_eq_none (by simp [above, below, other])
    · intro k above
      rw [without.nodes, if_neg (apart k above).1, node?_ofEntries, nodeIn?_append_left above,
        Option.or_none]
    · intro k below
      have other : k ∉ handlesOf run := fun mem => runApart k mem below
      rw [without.nodes, if_neg other, node?_ofEntries,
        nodeIn?_append_right fun above => (apart k above).2 below, nodeIn?_append_right other]

theorem erase_eq {h : Handle} {n : Node} (found : l.node? h = some n) :
    l.erase h = (({ l with nodes := l.nodes.erase h } : Links).linkBelow n.above n.below).linkAbove
      n.below n.above := by
  unfold erase
  rw [found]
  apply ext_node?
  · simp only [first_linkAbove, first_linkBelow]
  · intro k
    have gone := node?_erase ((l.linkBelow n.above n.below).linkAbove n.below n.above).nodes
      ((l.linkBelow n.above n.below).linkAbove n.below n.above).first h k
    rw [gone, ← node?]
    simp only [node?_linkAbove, node?_linkBelow, (without_erase found).nodes, handlesOf_cons,
      handlesOf_nil, List.mem_singleton]
    by_cases same : k = h <;> simp [same]

theorem erase_split (distinct : (handlesOf (pre ++ x :: post)).Nodup)
    (real : ∀ h ∈ handlesOf pre, h.isTop = false) :
    (ofEntries (pre ++ x :: post)).erase x.handle = ofEntries (pre ++ post) := by
  have found := node?_split distinct
  have whole : (handlesOf (pre ++ ([x] ++ post))).Nodup := distinct
  rw [erase_eq found]
  exact relink_row whole real (without_erase found)

section Span

variable {first last : Entry} {tail : List Entry}
  (distinct : (handlesOf (pre ++ (first :: tail ++ post))).Nodup)

include distinct

theorem next?_last (real : last.handle.isTop = false) (ends : (first :: tail).getLast? = some last) :
    (ofEntries (pre ++ (first :: tail ++ post))).next? last.handle = post.head?.map (·.handle) := by
  rcases List.getLast?_eq_some_iff.mp ends with ⟨init, split⟩
  rw [split, List.append_assoc, List.singleton_append, ← List.append_assoc] at distinct ⊢
  exact next?_split distinct real

theorem takeOut_split : (takeOut (bottom first.handle tail)
    (ofEntries (pre ++ (first :: tail ++ post))).nodes.size first.handle
    (ofEntries (pre ++ (first :: tail ++ post)))).1 = first :: tail := by
  have enough : (first :: tail).length ≤ (ofEntries (pre ++ (first :: tail ++ post))).nodes.size := by
    rw [size_ofEntries distinct]
    simp only [List.length_append]
    omega
  have runDistinct : (handlesOf (first :: tail)).Nodup :=
    distinct.sublist (by simp)
  have linked : ∀ k ∈ handlesOf (first :: tail),
      (ofEntries (pre ++ (first :: tail ++ post))).node? k =
        nodeIn? (bottom .top pre) (first :: tail) (post.head?.map (·.handle)) k := by
    intro k mem
    rw [node?_ofEntries, nodeIn?_append_right, nodeIn?_append_left mem, Option.or_none]
    exact fun inside => apart_of_nodup distinct k inside
      (handlesOf_append _ _ ▸ List.mem_append_left _ mem)
  exact takeOut_run runDistinct linked enough

theorem eraseSpan_split (real : ∀ h ∈ handlesOf (pre ++ (first :: tail ++ post)), h.isTop = false)
    (ends : (first :: tail).getLast? = some last) :
    (ofEntries (pre ++ (first :: tail ++ post))).eraseSpan first.handle last.handle =
      (first :: tail, ofEntries (pre ++ post)) := by
  have stop : last.handle = bottom first.handle tail := by
    rw [← bottom_cons .top, bottom, ends]
    rfl
  have above : (ofEntries (pre ++ (first :: tail ++ post))).above? first.handle =
      some (bottom .top pre) := above?_split distinct
  have inside : last ∈ pre ++ (first :: tail ++ post) :=
    List.mem_append_right _ (List.mem_append_left _ (List.mem_of_getLast? ends))
  have below := next?_last distinct (real _ (mem_handlesOf inside)) ends
  have taken := takeOut_split distinct
  have without := without_takeOut last.handle (ofEntries (pre ++ (first :: tail ++ post))).nodes.size
    first.handle (ofEntries (pre ++ (first :: tail ++ post)))
  rw [stop, taken] at without
  have joined := relink_row distinct (fun h mem => real h (by simp [mem])) without
  rw [eraseSpan, above, below, stop]
  dsimp only
  rw [taken, joined]

end Span

end Links
end RobotScript
