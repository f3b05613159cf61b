import Mathlib.Data.List.Forall2

/-!
# Pairs of two lists

What is known of the pairs of two lists that are related one by one, zipped together or mapped.
-/

namespace Avro

variable {α β γ δ : Type} {R : α → β → Prop} {as : List α} {bs : List β}

/-! ## One of a pair -/

theorem exists_of_forall₂_left (h : List.Forall₂ R as bs) {a : α} (ha : a ∈ as) : ∃ b ∈ bs, R a b := by
  induction h with
  | nil => cases ha
  | cons hab _ ih =>
    rcases List.mem_cons.mp ha with rfl | ha
    · exact ⟨_, List.mem_cons_self, hab⟩
    · obtain ⟨b, hb, hab⟩ := ih ha
      exact ⟨b, List.mem_cons_of_mem _ hb, hab⟩

theorem exists_of_forall₂_right (h : List.Forall₂ R as bs) {b : β} (hb : b ∈ bs) : ∃ a ∈ as, R a b :=
  exists_of_forall₂_left h.flip hb

theorem rel_of_getElem? (h : List.Forall₂ R as bs) : ∀ {i : Nat} {a : α} {b : β}, as[i]? = some a → bs[i]? = some b →
    R a b := by
  induction h with
  | nil => simp
  | cons hab _ ih =>
    intro i a b ha hb
    cases i with
    | zero =>
      cases ha
      cases hb
      exact hab
    | succ i => exact ih ha hb

/-- The first that passes on the one side is related to the first on the other. -/
theorem rel_find? {p : α → Bool} {q : β → Bool} (h : List.Forall₂ R as bs) (hpq : ∀ {a b}, R a b → p a = q b) :
    Option.Rel R (as.find? p) (bs.find? q) := by
  induction h with
  | nil => exact .none
  | @cons a b _ _ hab _ ih =>
    rw [List.find?_cons, List.find?_cons, ← hpq hab]
    cases p a with
    | true => exact .some hab
    | false => exact ih

/-- If related elements have one key, the first with a key on the one side is related to the first on the other. -/
theorem find?_of_forall₂ {κ : Type} [BEq κ] {f : α → κ} {g : β → κ} {key : κ} (h : List.Forall₂ R as bs)
    (hkey : ∀ {a b}, R a b → g b = f a) {a : α} (ha : (as.find? fun a => f a == key) = some a) :
    ∃ b, (bs.find? fun b => g b == key) = some b ∧ R a b := by
  have hrel := rel_find? (p := fun a => f a == key) (q := fun b => g b == key) h fun hab => by rw [hkey hab]
  rw [ha] at hrel
  generalize bs.find? _ = r at hrel
  cases hrel with
  | some hab => exact ⟨_, rfl, hab⟩

/-- Two lists are related if and only if their last members and all before them are. -/
theorem forall₂_concat {a : α} {b : β} :
    List.Forall₂ R (as ++ [a]) (bs ++ [b]) ↔ List.Forall₂ R as bs ∧ R a b := by
  rw [← List.forall₂_reverse_iff, List.reverse_concat, List.reverse_concat, List.forall₂_cons,
    List.forall₂_reverse_iff, and_comm]

/-! ## Zipped lists -/

/-- Pairs of two lists of one length are those of the lists zipped together. -/
theorem forall₂_mem_zipWith {f : β → α → γ} : ∀ {as : List α} {bs : List β}, as.length = bs.length →
    List.Forall₂ (fun a b => f b a ∈ List.zipWith f bs as) as bs
  | [], [], _ => .nil
  | a :: as, b :: bs, h => by
    have hrest : List.Forall₂ (fun a b => f b a ∈ List.zipWith f bs as) as bs := forall₂_mem_zipWith (Nat.succ.inj h)
    rw [List.zipWith_cons_cons]
    exact .cons List.mem_cons_self (hrest.imp fun _ _ hm => List.mem_cons_of_mem _ hm)

theorem exists_of_mem_zipWith {f : β → α → γ} (h : List.Forall₂ R as bs) {c : γ} (hc : c ∈ List.zipWith f bs as) :
    ∃ a b, R a b ∧ c = f b a := by
  induction h with
  | nil => cases hc
  | cons hab _ ih =>
    rcases List.mem_cons.mp hc with rfl | hc
    · exact ⟨_, _, hab, rfl⟩
    · exact ih hc

/-- Two lists that are related to a third one are related to each other. -/
theorem forall_mem_zip {Q : α → γ → Prop} {T : β → γ → Prop} {cs : List γ} (hR : List.Forall₂ R as bs)
    (hQ : List.Forall₂ Q as cs) (hT : ∀ {a b c}, R a b → Q a c → T b c) : ∀ x ∈ bs.zip cs, T x.1 x.2 := by
  induction hR generalizing cs with
  | nil => simp
  | cons hab _ ih =>
    cases hQ with
    | cons hac hQ =>
      intro x hx
      rcases List.mem_cons.mp hx with rfl | hx
      · exact hT hab hac
      · exact ih hQ x hx

/-! ## Mapped lists -/

theorem map_zipWith_of_forall₂ {f : β → α → γ} {g : γ → δ} {k : β → δ} (h : List.Forall₂ R as bs)
    (hk : ∀ a b, g (f b a) = k b) : (List.zipWith f bs as).map g = bs.map k := by
  induction h with
  | nil => rfl
  | cons _ _ ih => rw [List.zipWith_cons_cons, List.map_cons, List.map_cons, hk, ih]

theorem map_zipWith_of_forall₂_left {f : β → α → γ} {g : γ → δ} {k : α → δ} (h : List.Forall₂ R as bs)
    (hk : ∀ a b, g (f b a) = k a) : (List.zipWith f bs as).map g = as.map k := by
  induction h with
  | nil => rfl
  | cons _ _ ih => rw [List.zipWith_cons_cons, List.map_cons, List.map_cons, hk, ih]

theorem map_eq_map_of_forall₂ {f : α → γ} {g : β → γ} (h : List.Forall₂ R as bs) (hfg : ∀ {a b}, R a b → g b = f a) :
    bs.map g = as.map f := by
  induction h with
  | nil => rfl
  | cons hab _ ih => rw [List.map_cons, List.map_cons, hfg hab, ih]

/-- A map leaves a list as it is if and only if it does so with all members. -/
theorem map_eq_self_iff {α : Type} {f : α → α} {l : List α} : l.map f = l ↔ ∀ a ∈ l, f a = a := by
  conv_lhs => rhs; rw [← List.map_id l]
  exact List.map_inj_left

end Avro
