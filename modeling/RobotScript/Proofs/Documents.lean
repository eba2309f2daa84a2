import RobotScript.Macro.Document
import RobotScript.Proofs.Fields
import RobotScript.Settings
/-!
Macros and settings of the editor read back from the documents that they are written as, if their
numbers fit the words that hold them; and whatever is read fits.
-/
namespace RobotScript

namespace Macro

/-! ### Macros -/

namespace ParamKind

def Fits : ParamKind → Prop
  | number min max => (Bounds.minSigned32 ≤ min ∧ min ≤ Bounds.maxSigned32) ∧
    Bounds.minSigned32 ≤ max ∧ max ≤ Bounds.maxSigned32
  | text maxLength => maxLength ≤ Bounds.max64
  | character | color => True

theorem plain_toJson (kind : ParamKind) : kind.toJson.Plain := by
  cases kind <;> apply Json.plain_ofMembers <;>
    simp [Json.plain_ofString, Json.plain_ofInt]

theorem split?_ofMembers {tag : String} {others : List (String × Json)}
    (distinct : ∀ m ∈ others, m.1 ≠ "type") :
    split? (.ofMembers (("type", .ofString tag) :: others)) = some (tag, .ofMembers others) := by
  have members : Json.ofMembers (("type", .ofString tag) :: others) =
      .object ((some "type", .ofString tag) :: others.map fun m => (some m.1, m.2)) := rfl
  have alone : (others.map fun m => (some m.1, m.2)).filter (·.1 == some "type") = [] := by
    rw [List.filter_map]
    simpa using fun key value => distinct (key, value)
  have kept : (others.map fun m => (some m.1, m.2)).filter (·.1 != some "type") =
      others.map fun m => (some m.1, m.2) := by
    rw [List.filter_eq_self]
    intro m mem
    obtain ⟨other, inside, rfl⟩ := List.mem_map.mp mem
    simpa using distinct other inside
  simp [members, split?, Json.member?, alone, kept]
  rfl

theorem isClean_ofInt {z : Int} (fits : z.natAbs ≤ Bounds.max64) (levels : Nat) :
    (Json.ofInt z).isClean levels = true := by
  rw [Json.ofInt, Json.isClean, Json.isFinite_decimalInt fits]

theorem ofJson?_toJson {kind : ParamKind} (fits : kind.Fits) : ofJson? kind.toJson = some kind := by
  cases kind with
  | number min max =>
    obtain ⟨⟨minLow, minHigh⟩, maxLow, maxHigh⟩ := fits
    have split : split? (number min max).toJson =
        some ("number", .ofMembers [("min", .ofInt min), ("max", .ofInt max)]) :=
      split?_ofMembers (by simp)
    have fields : (Json.ofMembers [("min", .ofInt min), ("max", .ofInt max)]).fields?
        ["min", "max"] = some [some (.ofInt min), some (.ofInt max)] :=
      Json.fields?_ofMembers (by simp)
    have within : ∀ {z}, Bounds.minSigned32 ≤ z → z ≤ Bounds.maxSigned32 →
        z.natAbs ≤ Bounds.max64 := by
      intro z least greatest
      unfold Bounds.minSigned32 at least
      unfold Bounds.maxSigned32 at greatest
      unfold Bounds.max64
      omega
    have clean : (Json.ofMembers [("min", .ofInt min), ("max", .ofInt max)]).isClean
        (spareLevels + 1) = true := by
      simp [Json.ofMembers, Json.isClean, Json.membersClean, isClean_ofInt (within minLow minHigh),
        isClean_ofInt (within maxLow maxHigh)]
    have low : number? (.ofInt min) = some min := Json.int?_ofInt minLow minHigh
    have high : number? (.ofInt max) = some max := Json.int?_ofInt maxLow maxHigh
    simp [ofJson?, split, clean, fields, Json.required?, low, high]
  | text maxLength =>
    have split : split? (text maxLength).toJson =
        some ("string", .ofMembers [("max_len", .ofInt maxLength)]) :=
      split?_ofMembers (by simp)
    have fields : (Json.ofMembers [("max_len", .ofInt maxLength)]).fields? ["max_len"] =
        some [some (.ofInt maxLength)] :=
      Json.fields?_ofMembers (by simp)
    have clean : (Json.ofMembers [("max_len", .ofInt maxLength)]).isClean (spareLevels + 1) =
        true := by
      have finite := isClean_ofInt (z := maxLength) fits spareLevels
      simp [Json.ofMembers, Json.isClean, Json.membersClean, finite]
    have length : (Json.ofInt maxLength).nat? Bounds.max64 = some maxLength := Json.nat?_ofInt fits
    simp [ofJson?, split, clean, fields, Json.required?, length]
  | character => rfl
  | color => rfl

theorem fits_of_ofJson? {j : Json} {kind : ParamKind} (read : ofJson? j = some kind) :
    kind.Fits := by
  obtain ⟨⟨tag, rest⟩, -, read⟩ := Option.bind_eq_some_iff.mp read
  dsimp only at read
  split at read
  case isFalse => contradiction
  split at read
  · obtain ⟨fields, -, read⟩ := Option.bind_eq_some_iff.mp read
    split at read
    · obtain ⟨min, low, read⟩ := Option.bind_eq_some_iff.mp read
      obtain ⟨max, high, read⟩ := Option.bind_eq_some_iff.mp read
      cases read
      have bounds : ∀ {field z}, Json.required? number? field = some z →
          Bounds.minSigned32 ≤ z ∧ z ≤ Bounds.maxSigned32 :=
        Json.of_required? Json.bounds_of_int?
      exact ⟨bounds low, bounds high⟩
    · contradiction
  · obtain ⟨fields, -, read⟩ := Option.bind_eq_some_iff.mp read
    split at read
    · obtain ⟨length, within, read⟩ := Option.bind_eq_some_iff.mp read
      cases read
      exact Json.of_required? (P := (· ≤ Bounds.max64)) Json.le_of_nat? within
    · contradiction
  · obtain ⟨_, -, rfl⟩ := Option.map_eq_some_iff.mp read
    trivial
  · obtain ⟨_, -, rfl⟩ := Option.map_eq_some_iff.mp read
    trivial
  · contradiction

end ParamKind

namespace Value

def Fits : Value → Prop
  | number n => Bounds.minSigned32 ≤ n ∧ n ≤ Bounds.maxSigned32
  | text _ => True

theorem plain_toJson (value : Value) : value.toJson.Plain := by
  cases value with
  | number n => exact Json.plain_ofInt n
  | text s => exact Json.plain_ofString s

theorem ofJson?_toJson {value : Value} (fits : value.Fits) : ofJson? value.toJson = some value := by
  cases value with
  | number n =>
    have read : number? (.ofInt n) = some n := Json.int?_ofInt fits.1 fits.2
    exact congrArg (Option.map number) read
  | text s => rfl

theorem fits_of_ofJson? {j : Json} {value : Value} (read : ofJson? j = some value) :
    value.Fits := by
  unfold ofJson? at read
  split at read
  · obtain ⟨s, -, rfl⟩ := Option.map_eq_some_iff.mp read
    trivial
  · obtain ⟨n, within, rfl⟩ := Option.map_eq_some_iff.mp read
    exact Json.bounds_of_int? within

end Value

namespace Variable

def Fits (v : Variable) : Prop := v.default.Fits

theorem plain_toJson (v : Variable) : v.toJson.Plain := by
  apply Json.plain_ofMembers
  simp [Json.plain_ofString, v.default.plain_toJson]

theorem ofJson?_toJson {v : Variable} (fits : v.Fits) : ofJson? v.toJson = some v := by
  have fields : v.toJson.fields? ["name", "default"] =
      some [some (.ofString v.name), some v.default.toJson] :=
    Json.fields?_ofMembers (by simp)
  simp [ofJson?, fields, Json.required?, Value.ofJson?_toJson fits]

theorem fits_of_ofJson? {j : Json} {v : Variable} (read : ofJson? j = some v) : v.Fits := by
  obtain ⟨fields, -, read⟩ := Option.bind_eq_some_iff.mp read
  split at read
  · obtain ⟨name, -, read⟩ := Option.bind_eq_some_iff.mp read
    obtain ⟨default, given, read⟩ := Option.bind_eq_some_iff.mp read
    cases read
    exact Json.of_required? (P := Value.Fits) Value.fits_of_ofJson? given
  · contradiction

end Variable

namespace Group

def Fits (g : Group) : Prop := g.kind.Fits ∧ ∀ v ∈ g.members, v.Fits

theorem plain_toJson (g : Group) : g.toJson.Plain := by
  have members := Json.plain_array_map fun v (_ : v ∈ g.members) => v.plain_toJson
  apply Json.plain_ofMembers
  simp [g.kind.plain_toJson, members]

theorem ofJson?_toJson {g : Group} (fits : g.Fits) : ofJson? g.toJson = some g := by
  have fields : g.toJson.fields? ["kind", "variables"] =
      some [some g.kind.toJson, some (.array (g.members.map Variable.toJson))] :=
    Json.fields?_ofMembers (by simp)
  have members : (Json.array (g.members.map Variable.toJson)).items? Variable.ofJson? =
      some g.members :=
    Json.items?_array fun v mem => Variable.ofJson?_toJson (fits.2 v mem)
  simp [ofJson?, fields, Json.required?, ParamKind.ofJson?_toJson fits.1, members]

theorem fits_of_ofJson? {j : Json} {g : Group} (read : ofJson? j = some g) : g.Fits := by
  obtain ⟨fields, -, read⟩ := Option.bind_eq_some_iff.mp read
  split at read
  · obtain ⟨kind, kindGiven, read⟩ := Option.bind_eq_some_iff.mp read
    obtain ⟨members, given, read⟩ := Option.bind_eq_some_iff.mp read
    cases read
    exact ⟨Json.of_required? ParamKind.fits_of_ofJson? kindGiven,
      Json.of_required? (Json.forall_of_items? Variable.fits_of_ofJson?) given⟩
  · contradiction

end Group

namespace Template

def Fits (t : Template) : Prop := ∀ g ∈ t.groups, g.Fits

theorem plain_toJson (t : Template) : t.toJson.Plain := by
  have groups := Json.plain_array_map fun g (_ : g ∈ t.groups) => g.plain_toJson
  have lines := Json.plain_array_map fun s (_ : s ∈ t.lines) => Json.plain_ofString s
  apply Json.plain_ofMembers
  simp [Json.plain_ofString, groups, lines]

theorem ofJson?_toJson {t : Template} (fits : t.Fits) : ofJson? t.toJson = some t := by
  have fields : t.toJson.fields? ["name", "label", "groups", "lines"] =
      some [some (.ofString t.name), some (.ofString t.label),
        some (.array (t.groups.map Group.toJson)), some (.array (t.lines.map .ofString))] :=
    Json.fields?_ofMembers (by simp)
  have groups : (Json.array (t.groups.map Group.toJson)).items? Group.ofJson? = some t.groups :=
    Json.items?_array fun g mem => Group.ofJson?_toJson (fits g mem)
  have lines : (Json.array (t.lines.map .ofString)).items? Json.text? = some t.lines :=
    Json.items?_array fun s _ => Json.text?_ofString s
  simp [ofJson?, fields, Json.required?, Json.optional?, groups, lines]

theorem fits_of_ofJson? {j : Json} {t : Template} (read : ofJson? j = some t) : t.Fits := by
  obtain ⟨fields, -, read⟩ := Option.bind_eq_some_iff.mp read
  split at read
  · obtain ⟨name, -, read⟩ := Option.bind_eq_some_iff.mp read
    obtain ⟨label, -, read⟩ := Option.bind_eq_some_iff.mp read
    obtain ⟨groups, given, read⟩ := Option.bind_eq_some_iff.mp read
    obtain ⟨lines, -, read⟩ := Option.bind_eq_some_iff.mp read
    cases read
    have each : ∀ {j groups}, Json.items? Group.ofJson? j = some groups → ∀ g ∈ groups, g.Fits :=
      Json.forall_of_items? Group.fits_of_ofJson?
    exact Json.of_optional? (P := fun groups => ∀ g ∈ groups, g.Fits) (by simp) each given
  · contradiction

end Template

end Macro

namespace Config

def Fits (c : Config) : Prop :=
  c.maxSize ≤ Bounds.max64 ∧ c.maxMacroRecursion ≤ Bounds.max64 ∧
    c.maxMacroRepeat ≤ Bounds.max64

theorem plain_toJson (c : Config) : c.toJson.Plain := by
  apply Json.plain_ofMembers
  simp [Json.plain_ofString, Json.plain_ofInt, Json.Plain.bool]

theorem disposition?_ofString (d : Disposition) : disposition? (.ofString d.word) = some d := by
  cases d <;> rfl

theorem ofJson?_toJson {c : Config} (fits : c.Fits) : ofJson? c.toJson = some c := by
  obtain ⟨size, recursion, repeated⟩ := fits
  have fields : c.toJson.fields? names = some [some (.ofInt c.maxSize),
      some (.ofString c.defaultInvalid.word), some (.ofInt c.maxMacroRecursion),
      some (.ofInt c.maxMacroRepeat), some (.bool c.wrapSearch), some (.bool c.caseSensitive)] :=
    Json.fields?_ofMembers (by simp)
  simp [ofJson?, fields, Json.optional?, Json.nat?_ofInt size, Json.nat?_ofInt recursion,
    Json.nat?_ofInt repeated, disposition?_ofString, Json.bool?]

theorem fits_of_ofJson? {j : Json} {c : Config} (read : ofJson? j = some c) : c.Fits := by
  obtain ⟨fields, -, read⟩ := Option.bind_eq_some_iff.mp read
  split at read
  · obtain ⟨size, sizeGiven, read⟩ := Option.bind_eq_some_iff.mp read
    obtain ⟨invalid, -, read⟩ := Option.bind_eq_some_iff.mp read
    obtain ⟨recursion, recursionGiven, read⟩ := Option.bind_eq_some_iff.mp read
    obtain ⟨repeated, repeatedGiven, read⟩ := Option.bind_eq_some_iff.mp read
    obtain ⟨wrap, -, read⟩ := Option.bind_eq_some_iff.mp read
    obtain ⟨sensitive, -, read⟩ := Option.bind_eq_some_iff.mp read
    cases read
    have bounded : ∀ {default n field}, default ≤ Bounds.max64 →
        Json.optional? default (Json.nat? Bounds.max64) field = some n → n ≤ Bounds.max64 :=
      fun spare => Json.of_optional? (P := (· ≤ Bounds.max64)) spare Json.le_of_nat?
    exact ⟨bounded (by decide) sizeGiven, bounded (by decide) recursionGiven,
      bounded (by decide) repeatedGiven⟩
  · contradiction

end Config

end RobotScript
