import Avro.Proofs.Graph.Reach

/-!
# The members of a union

`TypeGraph.flatMembers` splices nested unions into the outer one. Here is what it finds and when it fails:

* each type that it finds is reached from the union through unions, and is no union (`flatMembers_reached`);
* what holds of the types that are found, and of a union if it holds of its members, holds of all that are listed
  (`flatMembers_closed`);
* it succeeds if all members can be reached and no union is among its own members (`flatMembers_ok`).
-/

namespace Avro.TypeGraph

open Relation

variable {g : TypeGraph} {active out out' : List TypeId} {es : List Edge}

/-! ## One edge -/

section Edge

variable {e : Edge} {d : Descriptor}

theorem spliceInto_gone (hd : g.target? e = none) : g.spliceInto active out (e :: es) = .error (.gone e.target) := by
  rw [spliceInto]
  split
  · rfl
  · next h => cases hd.symm.trans h

theorem spliceInto_union (hd : g.target? e = some d) {inner : List Edge} (hu : d.shape = .union inner) :
    g.spliceInto active out (e :: es) = if e.target ∈ active then .error (.unsupported (.memberOfItself d.name))
      else match g.spliceInto (e.target :: active) out inner with
        | .ok out' => g.spliceInto active out' es
        | .error f => .error f := by
  rw [spliceInto]
  split
  · next h => cases hd.symm.trans h
  · next h =>
    cases hd.symm.trans h
    rw [hu]
    rfl

theorem spliceInto_leaf (hd : g.target? e = some d) (hu : ∀ inner, d.shape ≠ .union inner) :
    g.spliceInto active out (e :: es) =
      g.spliceInto active (if e.target ∈ out then out else out ++ [e.target]) es := by
  rw [spliceInto]
  split
  · next h => cases hd.symm.trans h
  · next h =>
    cases hd.symm.trans h
    split
    · next hu' => exact absurd hu' (hu _)
    · rfl

end Edge

/-! ## What is found -/

/-- What was there stays there. -/
theorem subset_spliceInto (h : g.spliceInto active out es = .ok out') : out ⊆ out' := by
  fun_induction spliceInto g active out es generalizing out' with
  | case1 => cases h; exact fun _ hm => hm
  | case2 | case3 | case5 => cases h
  | case4 _ out e es d hd inner hu hnew out₁ hsplice ih₂ ih₁ => exact fun m hm => ih₁ h (ih₂ hsplice hm)
  | case6 _ out e es d hd hu ih =>
    intro m hm
    apply ih h
    split
    · exact hm
    · exact List.mem_append_left _ hm

/-- A type that is found was there, or is reached from one of the edges through unions and is no union. -/
theorem spliceInto_reached (h : g.spliceInto active out es = .ok out') {m : TypeId} (hm : m ∈ out') :
    m ∈ out ∨ (∃ e ∈ es, ReflTransGen g.HasMember e.target m) ∧
      ∃ d, g.get? m = some d ∧ ∀ members, d.shape ≠ .union members := by
  fun_induction spliceInto g active out es generalizing out' with
  | case1 => cases h; exact .inl hm
  | case2 | case3 | case5 => cases h
  | case4 _ out e es d hd inner hu hnew out₁ hsplice ih₂ ih₁ =>
    rcases ih₁ h hm with hm | ⟨⟨e', he', hreach⟩, hleaf⟩
    · rcases ih₂ hsplice hm with hm | ⟨⟨e', he', hreach⟩, hleaf⟩
      · exact .inl hm
      · exact .inr ⟨⟨e, List.mem_cons_self, .head ⟨d, inner, hd, hu, e', he', rfl⟩ hreach⟩, hleaf⟩
    · exact .inr ⟨⟨e', List.mem_cons_of_mem _ he', hreach⟩, hleaf⟩
  | case6 _ out e es d hd hu ih =>
    rcases ih h hm with hm | ⟨⟨e', he', hreach⟩, hleaf⟩
    · split at hm
      · exact .inl hm
      · rcases List.mem_append.mp hm with hm | hm
        · exact .inl hm
        · obtain rfl := List.mem_singleton.mp hm
          exact .inr ⟨⟨e, List.mem_cons_self, .refl⟩, d, hd, hu⟩
    · exact .inr ⟨⟨e', List.mem_cons_of_mem _ he', hreach⟩, hleaf⟩

/-- No type is found twice. -/
theorem nodup_spliceInto (h : g.spliceInto active out es = .ok out') (hout : out.Nodup) : out'.Nodup := by
  fun_induction spliceInto g active out es generalizing out' with
  | case1 => cases h; exact hout
  | case2 | case3 | case5 => cases h
  | case4 _ out e es d hd inner hu hnew out₁ hsplice ih₂ ih₁ => exact ih₁ h (ih₂ hsplice hout)
  | case6 _ out e es d hd hu ih =>
    apply ih h
    split
    · exact hout
    · rename_i hnew
      exact List.nodup_append.mpr ⟨hout, by simp, fun a ha b hb => by
        obtain rfl := List.mem_singleton.mp hb
        rintro rfl
        exact hnew ha⟩

/-- What holds of all that is found, and of a union if it holds of its members, holds of the ends of the edges. -/
theorem spliceInto_closed {Q : TypeId → Prop} (h : g.spliceInto active out es = .ok out')
    (hunion : ∀ {u d members}, g.get? u = some d → d.shape = .union members → (∀ e ∈ members, Q e.target) → Q u)
    (hQ : ∀ m ∈ out', Q m) : ∀ e ∈ es, Q e.target := by
  fun_induction spliceInto g active out es generalizing out' with
  | case1 => simp
  | case2 | case3 | case5 => cases h
  | case4 _ out e es d hd inner hu hnew out₁ hsplice ih₂ ih₁ =>
    intro e' he'
    rcases List.mem_cons.mp he' with rfl | he'
    · exact hunion hd hu (ih₂ hsplice fun m hm => hQ m (subset_spliceInto h hm))
    · exact ih₁ h hQ e' he'
  | case6 _ out e es d hd hu ih =>
    intro e' he'
    rcases List.mem_cons.mp he' with rfl | he'
    · apply hQ
      apply subset_spliceInto h
      split
      · assumption
      · simp
    · exact ih h hQ e' he'

/-! ## When it succeeds -/

/-- Splicing succeeds if all members have descriptions and there is no cycle of unions; `active` are unions around. -/
theorem spliceInto_ok (hres : ∀ e ∈ es, ∀ m, ReflTransGen g.HasMember e.target m → ∃ d, g.get? m = some d)
    (hcycle : ∀ e ∈ es, ∀ m, ReflTransGen g.HasMember e.target m → ¬ TransGen g.HasMember m m)
    (hactive : ∀ a ∈ active, ∀ e ∈ es, TransGen g.HasMember a e.target) :
    ∃ out', g.spliceInto active out es = .ok out' := by
  fun_induction spliceInto g active out es with
  | case1 _ out => exact ⟨out, rfl⟩
  | case2 _ out e es hd =>
    obtain ⟨d, hd'⟩ := hres e List.mem_cons_self e.target .refl
    exact absurd (hd.symm.trans hd') (by simp)
  | case3 _ out e es d hd inner hu hmem =>
    exact absurd (hactive e.target hmem e List.mem_cons_self) (hcycle e List.mem_cons_self e.target .refl)
  | case4 active out e es d hd inner hu hnew out₁ hsplice ih₂ ih₁ =>
    have hrest : ∀ e' ∈ es, e' ∈ e :: es := fun _ he' => List.mem_cons_of_mem _ he'
    exact ih₁ (fun e' he' => hres e' (hrest e' he')) (fun e' he' => hcycle e' (hrest e' he'))
      fun a ha e' he' => hactive a ha e' (hrest e' he')
  | case5 active out e es d hd inner hu hnew f hsplice ih =>
    have hstep : ∀ e' ∈ inner, g.HasMember e.target e'.target := fun e' he' => ⟨d, inner, hd, hu, e', he', rfl⟩
    have hactive' : ∀ a ∈ e.target :: active, ∀ e' ∈ inner, TransGen g.HasMember a e'.target := by
      intro a ha e' he'
      rcases List.mem_cons.mp ha with rfl | ha
      · exact .single (hstep e' he')
      · exact .tail (hactive a ha e List.mem_cons_self) (hstep e' he')
    obtain ⟨out', hok⟩ := ih (fun e' he' m hm => hres e List.mem_cons_self m (.head (hstep e' he') hm))
      (fun e' he' m hm => hcycle e List.mem_cons_self m (.head (hstep e' he') hm)) hactive'
    rw [hsplice] at hok
    cases hok
  | case6 active out e es d hd hu ih =>
    have hrest : ∀ e' ∈ es, e' ∈ e :: es := fun _ he' => List.mem_cons_of_mem _ he'
    exact ih (fun e' he' => hres e' (hrest e' he')) (fun e' he' => hcycle e' (hrest e' he'))
      fun a ha e' he' => hactive a ha e' (hrest e' he')

/-! ## The members of a union -/

section Union

variable {u : TypeId} {d : Descriptor} {members : List Edge} {flat : List TypeId}

/-- A member is reached from the union through unions, and is no union. -/
theorem flatMembers_reached (hget : g.get? u = some d) (hd : d.shape = .union members)
    (h : g.flatMembers members = .ok flat) {m : TypeId} (hm : m ∈ flat) :
    TransGen g.HasMember u m ∧ ∃ d, g.get? m = some d ∧ ∀ members, d.shape ≠ .union members := by
  rcases spliceInto_reached h hm with hm | ⟨⟨e, he, hreach⟩, hleaf⟩
  · cases hm
  · exact ⟨.head' ⟨d, members, hget, hd, e, he, rfl⟩ hreach, hleaf⟩

theorem reachable_of_mem_flatMembers (hget : g.get? u = some d) (hd : d.shape = .union members)
    (h : g.flatMembers members = .ok flat) {m : TypeId} (hm : m ∈ flat) : g.Reachable u m := by
  obtain ⟨hmember, -⟩ := flatMembers_reached hget hd h hm
  exact reachable_of_leadsUnnamed (leadsUnnamed_of_hasMember hmember.to_reflTransGen)

theorem nodup_flatMembers (h : g.flatMembers members = .ok flat) : flat.Nodup := nodup_spliceInto h List.nodup_nil

/-- What holds of all members, and of a union if it holds of what it lists, holds of the ends of the listed edges. -/
theorem flatMembers_closed {Q : TypeId → Prop} (h : g.flatMembers members = .ok flat)
    (hunion : ∀ {u d members}, g.get? u = some d → d.shape = .union members → (∀ e ∈ members, Q e.target) → Q u)
    (hQ : ∀ m ∈ flat, Q m) : ∀ e ∈ members, Q e.target := spliceInto_closed h hunion hQ

/-- A union has members if all can be reached and no union is among its own members. -/
theorem flatMembers_ok (hget : g.get? u = some d) (hd : d.shape = .union members)
    (hres : ∀ m, ReflTransGen g.HasMember u m → ∃ d, g.get? m = some d)
    (hcycle : ∀ m, ReflTransGen g.HasMember u m → ¬ TransGen g.HasMember m m) :
    ∃ flat, g.flatMembers members = .ok flat := by
  have hstep : ∀ e ∈ members, g.HasMember u e.target := fun e he => ⟨d, members, hget, hd, e, he, rfl⟩
  exact spliceInto_ok (fun e he m hm => hres m (.head (hstep e he) hm))
    (fun e he m hm => hcycle m (.head (hstep e he) hm))
    fun _ ha => by cases ha

end Union

end Avro.TypeGraph
