import Avro.Proofs.Encoding.Depth
import Avro.Proofs.Termination.Fallback

/-!
# Defaults that fall back on themselves

An encoding that ends has those behind it that it asks for, and these are one type less deep. So a default that falls
back on itself would be encoded less deep than it is: its encoding has no end. With the other direction, the encodings
of all defaults end if and only if none falls back on itself (`defaultsEnd_iff`).
-/

namespace Avro

open Relation RuleTable

namespace Encode

variable {α β : Type} {e e' : Encode α}

theorem Ends.of_bind {f : α → Encode β} (h : (e >>= f).Ends) : e.Ends := by
  obtain ⟨r, hr⟩ := h
  rw [outcome_bind] at hr
  obtain ⟨r', he, -⟩ := Option.bind_eq_some_iff.mp hr
  exact ⟨r', he⟩

theorem Ends.of_bind_ok {f : α → Encode β} {a : α} (h : (e >>= f).Ends) (ha : e.outcome = some (.ok a)) :
    (f a).Ends := by
  obtain ⟨r, hr⟩ := h
  rw [outcome_bind, ha, Option.bind_some] at hr
  exact ⟨r, hr⟩

theorem Ends.of_map {f : α → β} (h : (f <$> e).Ends) : e.Ends := by
  rw [map_eq_pure_bind] at h
  exact h.of_bind

theorem Ends.of_within {s : Segment} (h : (e.within s).Ends) : e.Ends := by
  obtain ⟨r, hr⟩ := h
  rw [outcome_within] at hr
  obtain ⟨r', he, -⟩ := Option.map_eq_some_iff.mp hr
  exact ⟨r', he⟩

/-- An encoding that ends has the outcome that it has where it goes deeper. -/
theorem Ends.outcome_eq {r : Except Mismatch α} (h : e.Ends) (href : e.Refines e') (hr : e'.outcome = some r) :
    e.outcome = some r := by
  obtain ⟨r', he⟩ := h
  rw [he, ← href r' he, hr]

variable {encode encode' : TypeId → Value → Encode Json} {v : Value} {m : TypeId}

theorem ends_of_firstAccepting (href : ∀ m, (encode m v).Refines (encode' m v)) {flat : List TypeId}
    (hm : ComesTo (fun b => ∃ e, (encode' b v).outcome = some (.error e)) flat m) {c? : Option Choice}
    (h : firstAccepting encode v flat = some c?) : (encode m v).Ends := by
  induction hm generalizing c? with
  | @here m ms =>
    unfold firstAccepting at h
    cases hm : (encode m v).outcome with
    | none => simp [hm] at h
    | some r => exact ⟨r, hm⟩
  | @next b m ms hb _ ih =>
    unfold firstAccepting at h
    cases hb' : (encode b v).outcome with
    | none => simp [hb'] at h
    | some r =>
      obtain ⟨e, he⟩ := hb
      cases (href b r hb').symm.trans he
      rw [hb'] at h
      obtain ⟨c', hc', -⟩ := Option.map_eq_some_iff.mp h
      exact ih hc'

end Encode

open Encode

/-! ## What is encoded on the way -/

section Parts

variable {cx : Setting} {encode encode' : Value → Encode Json}

theorem ends_of_encodeItems (href : ∀ v, (encode v).Refines (encode' v)) {items : List Value} {v : Value}
    (hv : ComesTo (fun w => ∃ j, (encode' w).outcome = some (.ok j)) items v) {i : Nat}
    (h : (Rule.encodeItems encode i items).Ends) : (encode v).Ends := by
  induction hv generalizing i with
  | here => exact h.of_bind.of_within
  | next hw _ ih =>
    obtain ⟨j, hj⟩ := hw
    have hok := h.of_bind.of_within.outcome_eq (href _) hj
    exact ih (h.of_bind_ok (outcome_within_ok.mpr hok)).of_bind

theorem ends_of_encodeEntries (href : ∀ v, (encode v).Refines (encode' v)) {es : Value.Entries} {x : String × Value}
    (hx : ComesTo (fun x => ∃ j, (encode' x.2).outcome = some (.ok j)) es x)
    (h : (Rule.encodeEntries encode es).Ends) : (encode x.2).Ends := by
  induction hx with
  | here => exact h.of_bind.of_within
  | next hy _ ih =>
    obtain ⟨j, hj⟩ := hy
    have hok := h.of_bind.of_within.outcome_eq (href _) hj
    exact ih (h.of_bind_ok (outcome_within_ok.mpr hok)).of_bind

theorem ends_of_encodeFields {encode : TypeId → Value → Encode Json}
    (href : ∀ m v, (encode m v).Refines (standard.encode cx m v)) {es : Value.Entries} {fs : List Field} {f : Field}
    {v : Value} (hf : ComesTo (cx.AcceptsField es) fs f) (hv : Rule.givenValue? es f = some v)
    (h : (Rule.encodeFields cx encode es fs).Ends) : (encode f.type.target v).Ends := by
  induction hf with
  | here =>
    unfold Rule.encodeFields at h
    rw [hv] at h
    exact h.of_bind.of_within
  | next hg _ ih =>
    obtain ⟨w, hw, j, hj⟩ := hg
    unfold Rule.encodeFields at h
    rw [hw] at h
    have hok := h.of_bind.of_within.outcome_eq (href _ _) hj
    exact ih hv (h.of_bind_ok (outcome_within_ok.mpr hok)).of_bind

end Parts

variable {cx : Setting} {root : TypeId} {p q : TypeId × Value} {a : TypeId × Field} {n : Nat}

/-- Where the encoding of the entries of a record ends, that of each field does that it comes to. -/
theorem Setting.ComesToField.ends {id : TypeId} {es : Value.Entries} {f : Field} {v : Value}
    (h : cx.ComesToField id es f) (hv : Rule.givenValue? es f = some v)
    (hends : (standard.encodeWithin cx (n + 1) id (.dict es)).Ends) :
    (standard.encodeWithin cx n f.type.target v).Ends := by
  obtain ⟨hknown, hcomes⟩ := h
  obtain ⟨d, fs, hget, hd, -⟩ := TypeGraph.mem_fieldsOf hcomes.mem
  rw [TypeGraph.fieldsOf_eq hget hd] at hknown hcomes
  rw [encodeWithin_succ hget (TypeGraph.ruleFor?_record hd)] at hends
  simp only [Rule.record, hd, Rule.encodeRecord, hknown] at hends
  exact ends_of_encodeFields (fun _ _ => encode_of_encodeWithin ofLibrary_standard n) hcomes hv hends.of_map

/-- What an encoding that ends asks for has been encoded, one type less deep. -/
theorem Setting.Asks.ends (h : cx.Asks p q) (hp : (standard.encodeWithin cx (n + 1) p.1 p.2).Ends) :
    (standard.encodeWithin cx n q.1 q.2).Ends := by
  have href : ∀ id v, (standard.encodeWithin cx n id v).Refines (standard.encode cx id v) := fun _ _ =>
    encode_of_encodeWithin ofLibrary_standard n
  cases h with
  | @member id m d members flat v hget hd hflat hm =>
    rw [encodeWithin_succ hget (TypeGraph.ruleFor?_union hd)] at hp
    simp only [Rule.union, hd, Rule.encodeUnion, hflat] at hp
    obtain ⟨r, hr⟩ := hp.of_bind
    unfold Encode.choose at hr
    cases hfirst : firstAccepting (standard.encodeWithin cx n) v flat with
    | none => rw [hfirst] at hr; cases hr
    | some c? => exact ends_of_firstAccepting (fun m => href m v) hm hfirst
  | @item id d element items v hget hd hj hv =>
    rw [encodeWithin_succ hget (TypeGraph.ruleFor?_sequence hd hj)] at hp
    simp only [Rule.sequence, hd] at hp
    exact ends_of_encodeItems (href element.target) hv hp.of_map
  | @value id d key value es e hget hd hj he =>
    rw [encodeWithin_succ hget (TypeGraph.ruleFor?_map hd hj)] at hp
    simp only [Rule.map, hd] at hp
    exact ends_of_encodeEntries (href value.target) he hp.of_map
  | entry hcomes hfind => exact hcomes.ends (by simp [Rule.givenValue?, hfind]) hp
  | fallback hcomes hmissing hv => exact hcomes.ends (by simp [Rule.givenValue?, hmissing, hv]) hp

/-! ## No end -/

theorem exists_ends_of_asks (h : TransGen cx.Asks p q) (hp : (standard.encodeWithin cx n p.1 p.2).Ends) :
    ∃ m < n, (standard.encodeWithin cx m q.1 q.2).Ends := by
  have hone : ∀ {n p q}, cx.Asks p q → (standard.encodeWithin cx n p.1 p.2).Ends →
      ∃ m < n, (standard.encodeWithin cx m q.1 q.2).Ends := by
    intro n p q hasks hends
    cases n with
    | zero =>
      obtain ⟨r, hr⟩ := hends
      cases hr
    | succ n => exact ⟨n, Nat.lt_succ_self n, hasks.ends hends⟩
  induction h with
  | single hasks => exact hone hasks hp
  | tail _ hasks ih =>
    obtain ⟨m, hm, hends⟩ := ih
    obtain ⟨k, hk, hends⟩ := hone hasks hends
    exact ⟨k, Nat.lt_trans hk hm, hends⟩

/-- The encoding of a value that asks for itself has no end. -/
theorem not_ends_of_asks_self (h : TransGen cx.Asks p p) : ¬ (standard.encode cx p.1 p.2).Ends := by
  have hnever : ∀ n, ¬ (standard.encodeWithin cx n p.1 p.2).Ends := by
    intro n
    induction n using Nat.strongRecOn with
    | _ n ih =>
      intro hends
      obtain ⟨m, hm, hends⟩ := exists_ends_of_asks h hends
      exact ih m hm hends
  exact hnever _

theorem Setting.FallsBack.not_ends {v : Value} (h : cx.FallsBack a a) (hv : a.2.default = some v) :
    ¬ (standard.encode cx a.2.type.target v).Ends := by
  obtain ⟨w, hw, es, hasks, hcomes, hmissing, -⟩ := h
  cases hv.symm.trans hw
  exact not_ends_of_asks_self (p := (a.2.type.target, v)) (.tail' hasks (.fallback hcomes hmissing hv))

/-- **The encodings of all defaults end if and only if none falls back on itself.** -/
theorem defaultsEnd_iff : cx.DefaultsEnd root ↔ cx.NoSelfFallback root := by
  constructor
  · intro h r f hr hf hself
    obtain ⟨v, hv, -⟩ := id hself
    exact hself.not_ends hv (h ⟨(r, f), hr, hf⟩ hv)
  · exact defaultsEnd

end Avro
