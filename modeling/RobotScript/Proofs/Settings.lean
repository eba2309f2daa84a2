import RobotScript.Proofs.Documents
/-!
Settings that are saved load again: as they were, but for their quick macros, which loading brings
to the number and the size of the slots. Settings that come of loading and of setting quick macros
have no others.
-/
namespace RobotScript

namespace Settings

variable {s t : Settings} {bs : Bytes}

/-! ### Saving and loading -/

def Fits (s : Settings) : Prop :=
  s.version ≤ Bounds.max32 ∧ s.config.Fits ∧ ∀ t ∈ s.macros, t.Fits

theorem plain_toJson (s : Settings) : s.toJson.Plain := by
  have quickMacros := Json.plain_array_map fun t (_ : t ∈ s.quickMacros) => Json.plain_ofString t
  have macros := Json.plain_array_map fun t (_ : t ∈ s.macros) => t.plain_toJson
  apply Json.plain_ofMembers
  simp [Json.plain_ofInt, s.config.plain_toJson, quickMacros, macros]

theorem ofJson?_toJson (fits : s.Fits) : ofJson? s.toJson = some s := by
  obtain ⟨version, config, templates⟩ := fits
  have fields : s.toJson.fields? names = some [some (.ofInt s.version), some s.config.toJson,
      some (.array (s.quickMacros.map .ofString)), some (.array (s.macros.map (·.toJson)))] :=
    Json.fields?_ofMembers (by simp)
  have quickMacros : (Json.array (s.quickMacros.map .ofString)).items? Json.text? =
      some s.quickMacros :=
    Json.items?_array fun t _ => Json.text?_ofString t
  have macros : (Json.array (s.macros.map (·.toJson))).items? Macro.Template.ofJson? =
      some s.macros :=
    Json.items?_array fun t mem => Macro.Template.ofJson?_toJson (templates t mem)
  simp [ofJson?, fields, Json.required?, Json.optional?, Json.nat?_ofInt version,
    Config.ofJson?_toJson config, quickMacros, macros]

theorem fits_of_ofJson? {j : Json} (read : ofJson? j = some s) : s.Fits := by
  obtain ⟨fields, -, read⟩ := Option.bind_eq_some_iff.mp read
  split at read
  · obtain ⟨version, versionGiven, read⟩ := Option.bind_eq_some_iff.mp read
    obtain ⟨config, configGiven, read⟩ := Option.bind_eq_some_iff.mp read
    obtain ⟨quickMacros, -, read⟩ := Option.bind_eq_some_iff.mp read
    obtain ⟨macros, macrosGiven, read⟩ := Option.bind_eq_some_iff.mp read
    cases read
    have each : ∀ {j ts}, Json.items? Macro.Template.ofJson? j = some ts → ∀ t ∈ ts, t.Fits :=
      Json.forall_of_items? Macro.Template.fits_of_ofJson?
    refine ⟨?_, ?_, ?_⟩
    · exact Json.of_required? (P := (· ≤ Bounds.max32)) Json.le_of_nat? versionGiven
    · exact Json.of_optional? (P := Config.Fits) (by simp [Config.Fits, Bounds.max64])
        Config.fits_of_ofJson? configGiven
    · exact Json.of_optional? (P := fun ts => ∀ t ∈ ts, t.Fits) (by simp) each macrosGiven
  · contradiction

theorem load_save_of_fits (fits : s.Fits) :
    load (Text.bytes s.save) = if s.version = currentVersion then .ok s.normalize
      else .error (.unsupportedVersion s.version) := by
  have parsed : Json.parse? (Text.bytes s.save) = some s.toJson :=
    Json.parse?_pretty s.plain_toJson
  simp [load, parsed, ofDocument, ofJson?_toJson fits]

/-! ### Quick macros in their slots -/

structure Tidy (s : Settings) : Prop where
  count : s.quickMacros.length = quickSlots
  short : ∀ text ∈ s.quickMacros, Text.size text ≤ maxQuickText

theorem length_resize (texts : List String) : (resize texts).length = quickSlots := by
  simp only [resize, List.length_append, List.length_take, List.length_replicate]
  omega

theorem resize_eq_self {texts : List String} (count : texts.length = quickSlots) :
    resize texts = texts := by
  simp [resize, count, List.take_of_length_le]

theorem getElem?_resize {texts : List String} {i : Nat} (slot : i < quickSlots) :
    (resize texts)[i]? = some (texts[i]?.getD "") := by
  unfold resize
  by_cases there : i < texts.length
  · have inside : i < (texts.take quickSlots).length := by
      rw [List.length_take]
      omega
    rw [List.getElem?_append_left inside, List.getElem?_take_of_lt slot,
      List.getElem?_eq_getElem there, Option.getD_some]
  · have taken : texts.take quickSlots = texts := List.take_of_length_le (by omega)
    rw [taken, List.getElem?_append_right (by omega), List.getElem?_replicate_of_lt (by omega),
      List.getElem?_eq_none (by omega), Option.getD_none]

theorem tidy_normalize (s : Settings) : s.normalize.Tidy := by
  constructor
  · rw [normalize, List.length_map, length_resize]
  · intro text mem
    obtain ⟨whole, -, rfl⟩ := List.mem_map.mp mem
    exact Text.size_cut_le maxQuickText whole

theorem Tidy.normalize_eq (tidy : s.Tidy) : s.normalize = s := by
  have kept : s.quickMacros.map (Text.cut maxQuickText) = s.quickMacros :=
    calc
      s.quickMacros.map (Text.cut maxQuickText) = s.quickMacros.map id := by
        apply List.map_congr_left
        intro text mem
        exact Text.cut_eq_self (tidy.short text mem)
      _ = s.quickMacros := List.map_id _
  rw [normalize, resize_eq_self tidy.count, kept]

theorem setQuickMacro_eq (s : Settings) (slot : Nat) (text : String) :
    ∃ texts, (s.setQuickMacro slot text).2 = { s with quickMacros := texts } := by
  unfold setQuickMacro
  split
  · exact ⟨_, rfl⟩
  · exact ⟨s.quickMacros, rfl⟩

theorem Tidy.setQuickMacro (tidy : s.Tidy) (slot : Nat) (text : String) :
    (s.setQuickMacro slot text).2.Tidy := by
  unfold Settings.setQuickMacro
  split
  · have enough : ¬ s.quickMacros.length < quickSlots := by
      rw [tidy.count]
      decide
    simp only [enough, if_false]
    constructor
    · rw [List.length_set, tidy.count]
    · intro other mem
      rcases List.mem_or_eq_of_mem_set mem with mem | rfl
      · exact tidy.short other mem
      · exact Text.size_cut_le maxQuickText text
  · exact tidy

theorem load_eq_ok (loaded : load bs = .ok s) :
    ∃ t : Settings, t.Fits ∧ t.version = currentVersion ∧ s = t.normalize := by
  unfold load at loaded
  split at loaded
  · contradiction
  unfold ofDocument at loaded
  split at loaded
  · contradiction
  next t read =>
    split at loaded
    next current =>
      cases loaded
      exact ⟨t, fits_of_ofJson? read, current, rfl⟩
    next => contradiction

/-! ### Settings in use -/

/-- The settings that a program can come to: those it starts with, those it loads, and what
setting quick macros makes of them. -/
inductive Obtained : Settings → Prop where
  | initial : Obtained initial
  | load {bs : Bytes} {s : Settings} : load bs = .ok s → Obtained s
  | setQuickMacro {s : Settings} (slot : Nat) (text : String) :
    Obtained s → Obtained (s.setQuickMacro slot text).2

theorem Obtained.invariant (obtained : Obtained s) :
    s.Fits ∧ s.version = currentVersion ∧ s.Tidy := by
  induction obtained with
  | initial =>
    have config : Config.Fits {} := by simp [Config.Fits, Bounds.max64]
    exact ⟨⟨by decide, config, fun t mem => by contradiction⟩, rfl, rfl, by decide⟩
  | load loaded =>
    obtain ⟨t, fits, current, rfl⟩ := load_eq_ok loaded
    exact ⟨fits, current, t.tidy_normalize⟩
  | setQuickMacro slot text _ ih =>
    obtain ⟨fits, current, tidy⟩ := ih
    have kept := tidy.setQuickMacro slot text
    obtain ⟨texts, same⟩ := Settings.setQuickMacro_eq _ slot text
    rw [same] at kept ⊢
    exact ⟨fits, current, kept⟩

/-- Settings of another version are refused when they load again; those of the current version
come back with a quick macro for each of the five slots, the text that they have for it cut to
63 bytes or else empty. So settings in use come back as they are. -/
theorem load_saved :
    (∀ s : Settings, s.Fits → s.version ≠ 1 →
      load (Text.bytes s.save) = .error (.unsupportedVersion s.version)) ∧
    (∀ s : Settings, s.Fits → s.version = 1 → ∃ texts,
      load (Text.bytes s.save) = .ok { s with quickMacros := texts } ∧ texts.length = 5 ∧
      ∀ i < 5, ∃ text, texts[i]? = some text ∧
        Text.IsLongest 63 (s.quickMacros[i]?.getD "") text) ∧
    ∀ s : Settings, s.Obtained → load (Text.bytes s.save) = .ok s := by
  refine ⟨fun s fits other => ?_, fun s fits current => ?_, fun s obtained => ?_⟩
  · exact (load_save_of_fits fits).trans (if_neg other)
  · refine ⟨s.normalize.quickMacros, ?_, s.tidy_normalize.count, fun i slot => ?_⟩
    · exact (load_save_of_fits fits).trans (if_pos current)
    · refine ⟨_, ?_, Text.isLongest_cut 63 _⟩
      rw [normalize, List.getElem?_map, getElem?_resize slot]
      rfl
  · obtain ⟨fits, current, tidy⟩ := obtained.invariant
    rw [load_save_of_fits fits, if_pos current, tidy.normalize_eq]

theorem load_saved_macro :
    load (Text.bytes (save ⟨7, {}, [], []⟩)) = .error (.unsupportedVersion 7) ∧
    (∃ texts, load (Text.bytes (save ⟨1, {}, ["17", "\"\t"],
        [⟨"m", "", [⟨.number (-0x80000000) 0x7FFFFFFF, [⟨"n", .text "5"⟩]⟩], ["!n!"]⟩]⟩)) =
      .ok ⟨1, {}, texts,
        [⟨"m", "", [⟨.number (-0x80000000) 0x7FFFFFFF, [⟨"n", .text "5"⟩]⟩], ["!n!"]⟩]⟩ ∧
      texts.length = 5) ∧
    load (Text.bytes (initial.setQuickMacro 2 "go").2.save) =
      .ok (initial.setQuickMacro 2 "go").2 := by
  obtain ⟨refused, accepted, unchanged⟩ := load_saved
  have config : Config.Fits {} := by simp [Config.Fits, Bounds.max64]
  have number : (Macro.ParamKind.number (-0x80000000) 0x7FFFFFFF).Fits := by
    simp [Macro.ParamKind.Fits, Bounds.minSigned32, Bounds.maxSigned32]
  have template : (⟨"m", "", [⟨.number (-0x80000000) 0x7FFFFFFF, [⟨"n", .text "5"⟩]⟩],
      ["!n!"]⟩ : Macro.Template).Fits := by
    simp [Macro.Template.Fits, Macro.Group.Fits, Macro.Variable.Fits, Macro.Value.Fits, number]
  have fits : Fits ⟨1, {}, ["17", "\"\t"],
      [⟨"m", "", [⟨.number (-0x80000000) 0x7FFFFFFF, [⟨"n", .text "5"⟩]⟩], ["!n!"]⟩]⟩ :=
    ⟨by simp [Bounds.max32], config, by simpa using template⟩
  refine ⟨?_, ?_, ?_⟩
  · exact refused ⟨7, {}, [], []⟩ ⟨by simp [Bounds.max32], config, by simp⟩ (by simp)
  · obtain ⟨texts, loaded, count, -⟩ := accepted _ fits rfl
    exact ⟨texts, loaded, count⟩
  · exact unchanged _ (.setQuickMacro 2 "go" .initial)

end Settings

end RobotScript
