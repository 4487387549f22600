import Mathlib.Data.List.Induction
import Mathlib.Data.List.Nodup
import Glyph.Proofs.Value.Runtime

/-!
# Pairs stored one by one

Storing pairs one by one keeps, of those with the same key, the place of the first and the value of
the last; pairs with different keys are stored as they are.

The keys of a map are equal by a test of their own, but names among them are equal when their texts
are. So pairs under texts can be stored before or after their texts are made the keys of a map
(`ofPairs_named`), and what holds of texts as keys holds of names.
-/

namespace Glyph.Entries

section Pairs

variable {κ ν : Type} [BEq κ] [LawfulBEq κ] {k : κ} {v : ν} {es ps pre post : List (κ × ν)}

omit [LawfulBEq κ] in
theorem ofPairs_concat (ps : List (κ × ν)) (p : κ × ν) :
    ofPairs (ps ++ [p]) = insert p.1 p.2 (ofPairs ps) := by
  rw [ofPairs, List.foldl_append]
  rfl

/-- Each key stands where it came first. -/
theorem keys_ofPairs (ps : List (κ × ν)) : keys (ofPairs ps) = (keys ps).eraseDups := by
  induction ps using List.reverseRecOn with
  | nil => rfl
  | append_singleton ps p ih =>
      have hkeys : keys (ps ++ [p]) = keys ps ++ [p.1] := List.map_append
      have hmem : p.1 ∈ keys (ofPairs ps) ↔ p.1 ∈ keys ps := by rw [ih, List.mem_eraseDups]
      rw [ofPairs_concat, hkeys, List.eraseDups_append, ← ih]
      by_cases h : p.1 ∈ keys ps
      · rw [keys_insert_of_mem (hmem.mpr h)]
        simp [List.removeAll, h]
      · rw [keys_insert_of_not_mem (mt hmem.mp h)]
        simp [List.removeAll, List.eraseDups_cons, h]

/-- Under a key stands the value that came last. -/
theorem lookup_ofPairs (h : k ∉ keys post) :
    (ofPairs (pre ++ (k, v) :: post)).lookup k = some v := by
  induction post using List.reverseRecOn with
  | nil => rw [ofPairs_concat, lookup_insert_self]
  | append_singleton post p ih =>
      have hkeys : keys (post ++ [p]) = keys post ++ [p.1] := List.map_append
      rw [hkeys, List.mem_append, List.mem_singleton, not_or] at h
      rw [← List.cons_append, ← List.append_assoc, ofPairs_concat, lookup_insert_of_ne h.2]
      exact ih h.1

theorem nodup_keys_insert (h : (keys es).Nodup) : (keys (insert k v es)).Nodup := by
  by_cases hk : k ∈ keys es
  · rwa [keys_insert_of_mem hk]
  · rw [keys_insert_of_not_mem hk]
    exact List.Nodup.append h (List.nodup_singleton k) (by simpa using hk)

theorem nodup_keys_ofPairs (ps : List (κ × ν)) : (keys (ofPairs ps)).Nodup := by
  induction ps using List.reverseRecOn with
  | nil => exact List.nodup_nil
  | append_singleton ps p ih =>
      rw [ofPairs_concat]
      exact nodup_keys_insert ih

theorem insert_of_not_mem (h : k ∉ keys es) : insert k v es = es ++ [(k, v)] := by
  induction es with
  | nil => rfl
  | cons e es ih =>
      rw [keys_cons, List.mem_cons, not_or] at h
      rw [insert, if_neg (by simpa using h.1), ih h.2, List.cons_append]

theorem ofPairs_of_nodup (h : (keys ps).Nodup) : ofPairs ps = ps := by
  induction ps using List.reverseRecOn with
  | nil => rfl
  | append_singleton ps p ih =>
      have hkeys : keys (ps ++ [p]) = keys ps ++ [p.1] := List.map_append
      rw [hkeys] at h
      have hp : p.1 ∉ keys ps := by
        intro hmem
        exact (List.nodup_append.mp h).2.2 _ hmem _ (List.mem_singleton_self _) rfl
      rw [ofPairs_concat, ih (List.nodup_append.mp h).1, insert_of_not_mem hp]

end Pairs

/-! ## Names -/

/-- Pairs under texts as the entries of a map under names. -/
def named (ps : List (String × Value)) : List (Key × Value) := ps.map fun p => (.name p.1, p.2)

theorem keys_named (ps : List (String × Value)) : keys (named ps) = (keys ps).map Key.name := by
  rw [keys, named, keys, List.map_map, List.map_map]
  rfl

theorem insert_named (name : String) (v : Value) (ps : List (String × Value)) :
    insert (.name name) v (named ps) = named (insert name v ps) := by
  induction ps with
  | nil => rfl
  | cons p ps ih =>
      rw [named, List.map_cons, insert, insert, Key.name_beq_name]
      by_cases h : name == p.1
      · rw [if_pos h, if_pos h]
        rfl
      · rw [if_neg h, if_neg h]
        exact congrArg _ ih

theorem ofPairs_named (ps : List (String × Value)) : ofPairs (named ps) = named (ofPairs ps) := by
  induction ps using List.reverseRecOn with
  | nil => rfl
  | append_singleton ps p ih =>
      have happend : named (ps ++ [p]) = named ps ++ [(.name p.1, p.2)] := List.map_append
      rw [happend, ofPairs_concat, ofPairs_concat, ih, insert_named]

theorem lookup_named (name : String) (ps : List (String × Value)) :
    (named ps).lookup (.name name) = ps.lookup name := by
  induction ps with
  | nil => rfl
  | cons p ps ih =>
      obtain ⟨other, v⟩ := p
      rw [named, List.map_cons, List.lookup_cons, List.lookup_cons, Key.name_beq_name]
      cases name == other with
      | true => rfl
      | false => exact ih

theorem distinctNames_named {ps : List (String × Value)} (h : (keys ps).Nodup) :
    DistinctNames (keys (named ps)) := by
  rw [keys_named]
  refine ⟨fun k hk => ?_, h.map fun s t hst => ?_⟩
  · obtain ⟨name, -, rfl⟩ := List.mem_map.mp hk
    exact ⟨name, rfl⟩
  · simpa using hst

variable {es : List (Key × Value)}

theorem named_asName (h : ∀ e ∈ es, ∃ name, e.1 = .name name) (g : Value → Value) :
    named (es.map fun e => (e.1.asName, g e.2)) = es.map fun e => (e.1, g e.2) := by
  rw [named, List.map_map]
  refine List.map_congr_left fun e he => ?_
  obtain ⟨k, v⟩ := e
  obtain ⟨name, rfl : k = .name name⟩ := h _ he
  rfl

theorem nodup_asName (h : DistinctNames (keys es)) : (es.map fun e => e.1.asName).Nodup := by
  have hkeys : (es.map fun e => e.1.asName) = (keys es).map Key.asName := by
    rw [keys, List.map_map]
    rfl
  rw [hkeys]
  refine h.nodup.map_on fun k hk l hl heq => ?_
  obtain ⟨s, rfl⟩ := h.names k hk
  obtain ⟨t, rfl⟩ := h.names l hl
  exact congrArg Key.name heq

/-- Entries under different names are stored as they are. -/
theorem ofPairs_of_distinctNames (h : DistinctNames (keys es)) : ofPairs es = es := by
  have hnames : ∀ e ∈ es, ∃ name, e.1 = .name name := fun e he =>
    h.names e.1 (List.mem_map_of_mem he)
  have hes := (named_asName hnames id).trans (List.map_id' es)
  have hnodup : (keys (es.map fun e => (e.1.asName, e.2))).Nodup := by
    rw [keys, List.map_map]
    exact nodup_asName h
  rw [← hes, ofPairs_named]
  exact congrArg named (ofPairs_of_nodup hnodup)

end Glyph.Entries
