import Avro.Json.Basic

/-!
# Objects from pairs

The object of a list of pairs has no other entries than these pairs (`mem_ofEntries`) and no key twice
(`nodup_keys_ofEntries`), gives each key the value of the last pair with the key (`get?_ofEntries`), and is just the list
if no key comes twice in it (`ofEntries_of_nodup`).
-/

namespace Avro.Json

variable {es acc : Entries} {key : String} {value : Json}

theorem mem_put {e : String × Json} (h : e ∈ put acc key value) : e ∈ acc ∨ e = (key, value) := by
  induction acc with
  | nil => exact .inr (List.mem_singleton.mp h)
  | cons a acc ih =>
    obtain ⟨k, v⟩ := a
    unfold put at h
    split at h
    · rename_i hk
      rcases List.mem_cons.mp h with rfl | h
      · exact .inr (by rw [hk])
      · exact .inl (List.mem_cons_of_mem _ h)
    · rcases List.mem_cons.mp h with rfl | h
      · exact .inl List.mem_cons_self
      · exact (ih h).imp_left (List.mem_cons_of_mem _)

/-- A new key comes last. -/
theorem put_of_new (h : key ∉ acc.map Prod.fst) : put acc key value = acc ++ [(key, value)] := by
  induction acc with
  | nil => rfl
  | cons a acc ih =>
    obtain ⟨k, v⟩ := a
    simp only [List.map_cons, List.mem_cons, not_or] at h
    unfold put
    rw [if_neg (Ne.symm h.1), ih h.2, List.cons_append]

theorem mem_foldl_put {e : String × Json} (h : e ∈ es.foldl (fun acc e => put acc e.1 e.2) acc) : e ∈ acc ∨ e ∈ es := by
  induction es generalizing acc with
  | nil => exact .inl h
  | cons a es ih =>
    rcases ih h with h | h
    · rcases mem_put h with h | rfl
      · exact .inl h
      · exact .inr List.mem_cons_self
    · exact .inr (List.mem_cons_of_mem _ h)

theorem foldl_put_of_nodup (h : ((acc ++ es).map Prod.fst).Nodup) :
    es.foldl (fun acc e => put acc e.1 e.2) acc = acc ++ es := by
  induction es generalizing acc with
  | nil => simp
  | cons a es ih =>
    have hnew : a.1 ∉ acc.map Prod.fst := by
      rw [List.map_append, List.map_cons, List.nodup_append] at h
      exact fun hmem => h.2.2 _ hmem _ List.mem_cons_self rfl
    rw [List.foldl_cons, put_of_new hnew, ih (by simpa using h), List.append_assoc, List.singleton_append]

/-- An object of pairs has entries, and they are among the pairs. -/
theorem mem_ofEntries (es : Entries) : ∃ out, ofEntries es = obj out ∧ ∀ e ∈ out, e ∈ es := by
  refine ⟨_, rfl, fun e he => ?_⟩
  rcases mem_foldl_put he with he | he
  · cases he
  · exact he

/-- A key that is there keeps its place. -/
theorem keys_put_of_mem (h : key ∈ acc.map Prod.fst) : (put acc key value).map Prod.fst = acc.map Prod.fst := by
  induction acc with
  | nil => cases h
  | cons a acc ih =>
    obtain ⟨k, v⟩ := a
    unfold put
    split
    · rfl
    · rename_i hk
      rw [List.map_cons, List.map_cons, ih ((List.mem_cons.mp h).resolve_left (Ne.symm hk))]

theorem nodup_keys_put (h : (acc.map Prod.fst).Nodup) : ((put acc key value).map Prod.fst).Nodup := by
  by_cases hkey : key ∈ acc.map Prod.fst
  · rwa [keys_put_of_mem hkey]
  · rw [put_of_new hkey, List.map_append, List.nodup_append]
    refine ⟨h, by simp, fun k hk k' hk' heq => hkey ?_⟩
    have hlast : k' = key := List.mem_singleton.mp hk'
    rwa [← hlast, ← heq]

theorem nodup_keys_foldl_put (h : (acc.map Prod.fst).Nodup) :
    ((es.foldl (fun acc e => put acc e.1 e.2) acc).map Prod.fst).Nodup := by
  induction es generalizing acc with
  | nil => exact h
  | cons a es ih => exact ih (nodup_keys_put h)

/-- An object of pairs has no key twice. -/
theorem nodup_keys_ofEntries {out : Entries} (h : ofEntries es = obj out) : (out.map Prod.fst).Nodup := by
  cases h
  exact nodup_keys_foldl_put List.nodup_nil

theorem get?_foldl_put :
    Entries.get? (es.foldl (fun acc e => put acc e.1 e.2) acc) key = (Entries.get? es.reverse key).or (acc.get? key) := by
  induction es generalizing acc with
  | nil => rfl
  | cons a es ih =>
    obtain ⟨k, v⟩ := a
    rw [List.foldl_cons, ih, get?_put]
    unfold Entries.get?
    rw [List.reverse_cons, List.find?_append, List.find?_singleton]
    cases hf : es.reverse.find? fun e => e.1 == key with
    | some e => simp
    | none =>
      by_cases hk : key = k
      · simp [hk]
      · simp [hk, Ne.symm hk]

/-- Of the pairs with a key, the last gives the value. -/
theorem get?_ofEntries {out : Entries} (h : ofEntries es = obj out) : out.get? key = Entries.get? es.reverse key := by
  cases h
  rw [get?_foldl_put]
  simp [Entries.get?]

/-- If no key comes twice, the entries are the pairs. -/
theorem ofEntries_of_nodup (h : (es.map Prod.fst).Nodup) : ofEntries es = obj es := by
  unfold ofEntries
  rw [foldl_put_of_nodup (by simpa using h), List.nil_append]

end Avro.Json
