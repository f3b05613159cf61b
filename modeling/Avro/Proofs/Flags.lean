import Avro.Config
import Mathlib.Data.List.Induction

/-!
# Choices of flags

Flags that are enabled one after the other make the choices of the set of them (`Options.enableAll_eq`): each its own,
whatever stands before or behind it and however often, except that namespaces which are turned off, by a flag or before
all flags, stay off. So what flags choose is not undone by more flags (`Options.chosen_append`), and their order and
their number are not seen (`Options.flags_choose_by_set`).
-/

namespace Avro

/-- The options have what the flag chooses. -/
def Flag.Chosen (o : Options) : Flag → Prop
  | .noAutoNamespace => o.namespaceMode = .disabled
  | .autoNamespaceModule => o.namespaceMode = .fullModule
  | .milliseconds => o.timePrecision = .millis
  | .float32 => o.float32 = true
  | .int32 => o.int32 = true
  | .defaultsMandatory => o.defaultsMandatory = true
  | .noDoc => o.noDoc = true
  | .jsonAsString => o.jsonEncoding = .string
  | .jsonIndent2 => o.pretty = true
  | .useFieldAlias => o.useFieldAlias = true
  | .jsonSortKeys => o.sortKeys = true
  | .jsonAppendNewline => o.trailingNewline = true

namespace Options

/-! ## The choices of a set -/

/-- The namespace mode that a set of flags chooses; where namespaces are off they stay off. -/
def modeOf (mode : NamespaceMode) (fs : List Flag) : NamespaceMode :=
  if mode = .disabled ∨ .noAutoNamespace ∈ fs then .disabled
  else if .autoNamespaceModule ∈ fs then .fullModule
  else mode

/-- The options with the choices of a set of flags, each made or not made by itself. -/
def choosing (o : Options) (fs : List Flag) : Options where
  int32 := o.int32 || decide (.int32 ∈ fs)
  float32 := o.float32 || decide (.float32 ∈ fs)
  timePrecision := if .milliseconds ∈ fs then .millis else o.timePrecision
  namespaceMode := modeOf o.namespaceMode fs
  defaultsMandatory := o.defaultsMandatory || decide (.defaultsMandatory ∈ fs)
  jsonEncoding := if .jsonAsString ∈ fs then .string else o.jsonEncoding
  noDoc := o.noDoc || decide (.noDoc ∈ fs)
  useFieldAlias := o.useFieldAlias || decide (.useFieldAlias ∈ fs)
  pretty := o.pretty || decide (.jsonIndent2 ∈ fs)
  sortKeys := o.sortKeys || decide (.jsonSortKeys ∈ fs)
  trailingNewline := o.trailingNewline || decide (.jsonAppendNewline ∈ fs)

variable {o : Options} {fs gs : List Flag} {f : Flag}

theorem choosing_nil (o : Options) : o.choosing [] = o := by
  obtain ⟨_, _, _, mode, _, _, _, _, _, _, _⟩ := o
  cases mode <;> simp [choosing, modeOf]

theorem modeOf_congr (mode : NamespaceMode) (h : ∀ f, f ∈ fs ↔ f ∈ gs) : modeOf mode fs = modeOf mode gs := by
  simp only [modeOf, h]

/-- Lists with the same flags make the same choices. -/
theorem choosing_congr (o : Options) (h : ∀ f, f ∈ fs ↔ f ∈ gs) : o.choosing fs = o.choosing gs := by
  simp only [choosing, modeOf_congr _ h, h]

theorem modeOf_concat (mode : NamespaceMode) (fs : List Flag) : modeOf mode (fs ++ [f]) =
    match f with
    | .noAutoNamespace => .disabled
    | .autoNamespaceModule => if modeOf mode fs = .disabled then .disabled else .fullModule
    | _ => modeOf mode fs := by
  unfold modeOf
  by_cases hoff : mode = .disabled ∨ .noAutoNamespace ∈ fs
  · cases f <;> simp [hoff]
  · obtain ⟨hmode, hno⟩ := not_or.mp hoff
    by_cases hmodule : .autoNamespaceModule ∈ fs <;> cases f <;> simp [hmode, hno, hmodule]

/-- One more flag makes its choice. -/
theorem enable_choosing (o : Options) (fs : List Flag) (f : Flag) :
    (o.choosing fs).enable f = o.choosing (fs ++ [f]) := by
  have hmode := modeOf_concat o.namespaceMode fs (f := f)
  cases f with
  | autoNamespaceModule =>
    have hoff : (o.choosing fs).namespaceMode = modeOf o.namespaceMode fs := rfl
    unfold enable
    split_ifs with h <;> rw [hoff] at h <;> simp [choosing, hmode, h]
  | _ => simp [choosing, enable, hmode]

theorem enableAll_concat (o : Options) (fs : List Flag) (f : Flag) :
    o.enableAll (fs ++ [f]) = (o.enableAll fs).enable f := by
  rw [enableAll, List.foldl_append]
  rfl

/-- Flags that are enabled one after the other make the choices of the set of them. -/
theorem enableAll_eq (o : Options) (fs : List Flag) : o.enableAll fs = o.choosing fs := by
  induction fs using List.reverseRecOn with
  | nil => exact (choosing_nil o).symm
  | append_singleton fs f ih => rw [enableAll_concat, ih, enable_choosing]

/-! ## What stays chosen -/

theorem modeOf_eq_disabled_iff {mode : NamespaceMode} :
    modeOf mode fs = .disabled ↔ mode = .disabled ∨ .noAutoNamespace ∈ fs := by
  unfold modeOf
  split_ifs with hoff hmodule
  · simp [hoff]
  · simp [hoff]
  · simpa [hoff] using (not_or.mp hoff).1

theorem modeOf_eq_fullModule_iff {mode : NamespaceMode} : modeOf mode fs = .fullModule ↔
    ¬ (mode = .disabled ∨ .noAutoNamespace ∈ fs) ∧ (mode = .fullModule ∨ .autoNamespaceModule ∈ fs) := by
  unfold modeOf
  split_ifs with hoff hmodule
  · simp [hoff]
  · simp [hoff, hmodule]
  · simp [hoff, hmodule]

/-- All flags but one are chosen if they are in the set or were chosen before. -/
theorem chosen_choosing_iff (hf : f ≠ .autoNamespaceModule) : f.Chosen (o.choosing fs) ↔ f.Chosen o ∨ f ∈ fs := by
  cases f with
  | noAutoNamespace => exact modeOf_eq_disabled_iff
  | autoNamespaceModule => exact absurd rfl hf
  | milliseconds | jsonAsString =>
    simp only [Flag.Chosen, choosing]
    split_ifs with h <;> simp [h]
  | _ => simp [Flag.Chosen, choosing]

theorem chosen_choosing_of_mem (h : f ∈ fs) : f.Chosen (o.choosing fs) ∨
    f = .autoNamespaceModule ∧ (o.namespaceMode = .disabled ∨ .noAutoNamespace ∈ fs) := by
  by_cases hf : f = .autoNamespaceModule
  · subst hf
    by_cases hoff : o.namespaceMode = .disabled ∨ .noAutoNamespace ∈ fs
    · exact .inr ⟨rfl, hoff⟩
    · exact .inl (modeOf_eq_fullModule_iff.mpr ⟨hoff, .inr h⟩)
  · exact .inl ((chosen_choosing_iff hf).mpr (.inr h))

/-- What is chosen stays so when there are more flags, unless they turn namespaces off. -/
theorem chosen_append (h : f.Chosen (o.choosing fs)) (gs : List Flag) :
    f.Chosen (o.choosing (fs ++ gs)) ∨ f = .autoNamespaceModule ∧ .noAutoNamespace ∈ gs := by
  by_cases hf : f = .autoNamespaceModule
  · subst hf
    obtain ⟨hoff, hon⟩ := modeOf_eq_fullModule_iff.mp h
    by_cases hgs : .noAutoNamespace ∈ gs
    · exact .inr ⟨rfl, hgs⟩
    · refine .inl (modeOf_eq_fullModule_iff.mpr ⟨?_, hon.imp_right (List.mem_append_left gs)⟩)
      rwa [List.mem_append, or_iff_left hgs]
  · rw [chosen_choosing_iff hf] at h ⊢
    exact .inl (h.imp_right (List.mem_append_left gs))

/-! ## Flags as a set -/

/-- Flags that are applied to options choose as a set. -/
structure ChooseBySet (o : Options) (apply : List Flag → Options) : Prop where
  /-- Each choice is made or not made by itself. -/
  choices : ∀ fs, apply fs = o.choosing fs
  /-- The same flags in another order, or more or less often, choose the same. -/
  same : ∀ {fs gs : List Flag}, (∀ f, f ∈ fs ↔ f ∈ gs) → apply fs = apply gs
  /-- One more of a flag that is there changes nothing, wherever it is put. -/
  again : ∀ {before after : List Flag} {f : Flag}, f ∈ before ++ after →
    apply (before ++ f :: after) = apply (before ++ after)
  /-- What a flag chooses is chosen in the end, unless it is a kind of namespaces and these are off. -/
  made : ∀ {fs : List Flag} {f : Flag}, f ∈ fs → f.Chosen (apply fs) ∨
    f = .autoNamespaceModule ∧ (o.namespaceMode = .disabled ∨ .noAutoNamespace ∈ fs)
  /-- What is chosen stays so behind more flags, unless it is a kind of namespaces and they turn these off. -/
  kept : ∀ {fs : List Flag} {f : Flag}, f.Chosen (apply fs) → ∀ gs, f.Chosen (apply (fs ++ gs)) ∨
    f = .autoNamespaceModule ∧ .noAutoNamespace ∈ gs
  /-- Namespaces that are turned off, wherever in the list, or were off before, are off in the end. -/
  off : ∀ {fs : List Flag}, o.namespaceMode = .disabled ∨ .noAutoNamespace ∈ fs →
    (apply fs).namespaceMode = .disabled

theorem chooseBySet_enableAll (o : Options) : ChooseBySet o o.enableAll := by
  refine ⟨enableAll_eq o, ?same, ?again, ?made, ?kept, ?off⟩ <;> simp only [enableAll_eq]
  case same => exact choosing_congr o
  case again =>
    intro before after f hf
    refine choosing_congr o fun g => ?_
    rw [List.mem_append, List.mem_cons, or_left_comm, ← List.mem_append, or_iff_right_of_imp]
    rintro rfl
    exact hf
  case made => exact chosen_choosing_of_mem
  case kept => exact chosen_append
  case off => exact modeOf_eq_disabled_iff.mpr

/-- **Flags choose as a set**, on top of any options, by themselves, and in a file of settings. -/
theorem flags_choose_by_set : (∀ o : Options, ChooseBySet o o.enableAll) ∧ ChooseBySet {} ofFlags ∧
    ∀ ns o, ChooseBySet o fun fs => Config.effectiveOptions ⟨ns, fs, o⟩ :=
  ⟨chooseBySet_enableAll, chooseBySet_enableAll {}, fun _ => chooseBySet_enableAll⟩

/-- Namespaces are off, whichever of the two flags comes first. -/
example : ofFlags [.noAutoNamespace, .autoNamespaceModule] = ofFlags [.autoNamespaceModule, .noAutoNamespace] ∧
    (ofFlags [.autoNamespaceModule, .noAutoNamespace, .autoNamespaceModule]).namespaceMode = .disabled := by decide

end Options
end Avro
