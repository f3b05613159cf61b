import Avro.Proofs.Derivation.Dispatch
import Mathlib.Data.List.Basic

/-!
# Full names

A name has no dot, and a namespace that is chosen for a type is not empty. So a full name is in one namespace only
(`Name.full_inj`), and has a dot if it is in one (`Name.dot_mem_full`).
-/

namespace Avro.Name

/-! ## Dots -/

theorem dot_notMem_of_check {name : String} (h : check name = .ok ()) : '.' ∉ name.toList := by
  unfold check at h
  split at h
  · rename_i hname
    intro hdot
    cases hs : name.toList with
    | nil => simp [hs] at hdot
    | cons c cs =>
      have hnot : isPart '.' = false := by decide
      rw [hs, isName, Bool.and_eq_true, List.all_eq_true] at hname
      rw [hs] at hdot
      rcases List.mem_cons.mp hdot with rfl | hdot
      · cases hname.1
      · cases hnot.symm.trans (hname.2 _ hdot)
  · cases h

theorem takeWhile_to_dot {l r : List Char} (h : '.' ∉ l) : (l ++ '.' :: r).takeWhile (· != '.') = l := by
  have hl : ∀ c ∈ l, (c != '.') = true := fun c hc => bne_iff_ne.mpr (ne_of_mem_of_not_mem hc h)
  rw [List.takeWhile_append_of_pos hl]
  simp

theorem full_none (name : String) : full none name = name := rfl

theorem full_some {ns : String} (h : ns ≠ "") (name : String) : full (some ns) name = ns ++ "." ++ name := by
  simp [full, nonempty?, h]

theorem dot_mem_full {ns : String} (h : ns ≠ "") (name : String) : '.' ∈ (full (some ns) name).toList := by
  simp [full_some h]

/-! ## Namespaces -/

/-- The namespace is not the empty text, which stands for none. -/
def Proper (ns : Option String) : Prop := ns ≠ some ""

theorem proper_none : Proper none := nofun

theorem proper_nonempty? (s : Option String) : Proper (nonempty? s) := by
  unfold nonempty? Proper
  split <;> simp

theorem proper_ofOrigin {mode : NamespaceMode} {origin : String} (h : origin ≠ "") : Proper (ofOrigin mode origin) := by
  cases mode with
  | disabled => exact proper_none
  | topLevel => exact proper_nonempty? _
  | fullModule => simpa [ofOrigin, Proper] using h

/-- The namespace that is chosen for a type is not empty. -/
theorem proper_chosenNs (given : Option String) (mode : NamespaceMode) (origin : Option String) :
    Proper (chosenNs given mode origin) := by
  unfold chosenNs
  split
  · rename_i ns hns
    exact hns ▸ proper_nonempty? given
  · cases ho : nonempty? origin with
    | none => exact proper_none
    | some o =>
      have hne := proper_nonempty? origin
      rw [ho] at hne
      exact proper_ofOrigin fun h => hne (h ▸ rfl)

theorem Proper.or {ns outer : Option String} (hns : Proper ns) (houter : Proper outer) : Proper (ns.or outer) := by
  cases ns with
  | none => exact houter
  | some ns => exact hns

/-- A text without a dot is no full name in a namespace. -/
theorem ne_full_some {name other ns : String} (hns : ns ≠ "") (h : '.' ∉ name.toList) : name ≠ full (some ns) other :=
  fun heq => h (heq ▸ dot_mem_full hns other)

/-- **A full name is that of one name in one namespace.** -/
theorem full_inj {ns ns' : Option String} {name name' : String} (hns : Proper ns) (hns' : Proper ns')
    (hname : '.' ∉ name.toList) (hname' : '.' ∉ name'.toList) (h : full ns name = full ns' name') :
    ns = ns' ∧ name = name' := by
  cases ns with
  | none =>
    cases ns' with
    | none => exact ⟨rfl, h⟩
    | some n' => exact absurd h (ne_full_some (fun he => hns' (he ▸ rfl)) hname)
  | some n =>
    have hn : n ≠ "" := fun he => hns (he ▸ rfl)
    cases ns' with
    | none => exact absurd h.symm (ne_full_some hn hname')
    | some n' =>
      rw [full_some hn, full_some fun he => hns' (he ▸ rfl)] at h
      -- the name is what stands behind the last dot
      have hlists : name.toList.reverse ++ '.' :: n.toList.reverse =
          name'.toList.reverse ++ '.' :: n'.toList.reverse := by
        simpa using congrArg (fun s : String => s.toList.reverse) h
      have hrev : name.toList.reverse = name'.toList.reverse :=
        calc name.toList.reverse
          _ = (name.toList.reverse ++ '.' :: n.toList.reverse).takeWhile (· != '.') :=
            (takeWhile_to_dot (by simpa using hname)).symm
          _ = (name'.toList.reverse ++ '.' :: n'.toList.reverse).takeWhile (· != '.') := by rw [hlists]
          _ = name'.toList.reverse := takeWhile_to_dot (by simpa using hname')
      rw [hrev, List.append_cancel_left_eq, List.cons.injEq, List.reverse_inj] at hlists
      exact ⟨congrArg some (String.toList_inj.mp hlists.2), String.toList_inj.mp (List.reverse_inj.mp hrev)⟩

end Avro.Name

namespace Avro.Setting

/-! ## Names of types -/

variable (cx : Setting) (d : Descriptor)

theorem proper_nsOf : Name.Proper (cx.nsOf d) := Name.proper_chosenNs _ _ _

theorem fullNameOf_eq : cx.fullNameOf d = Name.full (cx.nsOf d) d.name := rfl

/-- The full name of a type that has a namespace has a dot. -/
theorem dot_mem_fullNameOf {ns : String} (h : cx.nsOf d = some ns) : '.' ∈ (cx.fullNameOf d).toList := by
  have hproper := cx.proper_nsOf d
  rw [fullNameOf_eq, h]
  exact Name.dot_mem_full (fun he => hproper (he ▸ h)) d.name

end Avro.Setting
