import Mathlib

/-!
# Lists of records as partial maps

A list of records with pairwise distinct keys is a partial map from keys to values. Whatever the
order of the records, a record in the middle of the list is one point of the map:
`assocMap_append_cons` is the only fact that updates, insertions and deletions need.
-/

namespace RainCall

open Function List

variable {ρ κ β : Type*}

section

variable {key : ρ → κ} {front back : List ρ} {r : ρ}

/-- A list with distinct keys has no other record with the key of a given one. -/
lemma ne_key_of_nodup (h : ((front ++ r :: back).map key).Nodup) :
    ∀ r' ∈ front ++ back, key r' ≠ key r := by
  rw [map_append, map_cons, nodup_middle, nodup_cons, ← map_append] at h
  intro r' hr' heq
  exact h.1 (heq ▸ mem_map_of_mem hr')

lemma nodup_insert (h : ((front ++ back).map key).Nodup)
    (hr : ∀ r' ∈ front ++ back, key r' ≠ key r) :
    ((front ++ r :: back).map key).Nodup := by
  rw [map_append, map_cons, nodup_middle, nodup_cons, ← map_append]
  refine ⟨fun hmem => ?_, h⟩
  obtain ⟨r', hr', heq⟩ := mem_map.mp hmem
  exact hr r' hr' heq

lemma nodup_remove (h : ((front ++ r :: back).map key).Nodup) :
    ((front ++ back).map key).Nodup := by
  rw [map_append, map_cons, nodup_middle, nodup_cons, ← map_append] at h
  exact h.2

end

variable [DecidableEq κ] (key : ρ → κ) (val : ρ → β)

/-- The partial map of a list of records: the value of the first record with the key. -/
def assocMap (rs : List ρ) (k : κ) : Option β :=
  (rs.find? fun r => key r = k).map val

@[simp] lemma assocMap_nil : assocMap key val [] = fun _ => none := rfl

variable {key val}

variable {rs front back : List ρ} {r : ρ}

lemma assocMap_eq_none_iff {k : κ} :
    assocMap key val rs k = none ↔ ∀ r ∈ rs, key r ≠ k := by
  simp [assocMap]

/-- A key that occurs splits the list at its first occurrence. -/
lemma exists_split_of_assocMap {k : κ} {b : β} (h : assocMap key val rs k = some b) :
    ∃ front r back, rs = front ++ r :: back ∧ (∀ r' ∈ front, key r' ≠ k) ∧ key r = k ∧
      val r = b := by
  obtain ⟨r, hr, hval⟩ := Option.map_eq_some_iff.mp h
  obtain ⟨hkey, front, back, rfl, hfront⟩ := find?_eq_some_iff_append.mp hr
  exact ⟨front, r, back, rfl, fun r' hr' => by simpa using hfront r' hr', by simpa using hkey, hval⟩

lemma assocMap_append_cons (hr : ∀ r' ∈ front ++ back, key r' ≠ key r) :
    assocMap key val (front ++ r :: back) =
      update (assocMap key val (front ++ back)) (key r) (some (val r)) := by
  funext k
  have hfront : ∀ r' ∈ front, key r' ≠ key r := fun r' hr' => hr r' (mem_append_left _ hr')
  by_cases hk : k = key r
  · subst hk
    have hnone : front.find? (fun r' => key r' = key r) = none := by simpa using hfront
    simp [assocMap, find?_append, hnone]
  · rw [update_of_ne hk]
    simp [assocMap, find?_append, Ne.symm hk]

lemma assocMap_cons (hr : ∀ r' ∈ rs, key r' ≠ key r) :
    assocMap key val (r :: rs) =
      update (assocMap key val rs) (key r) (some (val r)) := by
  exact @assocMap_append_cons _ _ _ _ key val [] rs r hr

/-- Adding the first record before the others. -/
lemma or_update_assocMap (hr : ∀ r' ∈ rs, key r' ≠ key r) (m : κ → Option β) (k : κ) :
    (assocMap key val rs k).or (update m (key r) (some (val r)) k) =
      (assocMap key val (r :: rs) k).or (m k) := by
  rw [assocMap_cons hr]
  by_cases hk : k = key r
  · rw [hk, update_self, update_self, assocMap_eq_none_iff.mpr hr]
    rfl
  · rw [update_of_ne hk, update_of_ne hk]

lemma assocMap_append (hr : ∀ r' ∈ front ++ back, key r' ≠ key r) :
    assocMap key val (front ++ back) =
      update (assocMap key val (front ++ r :: back)) (key r) none := by
  rw [assocMap_append_cons hr, update_idem, eq_comm, update_eq_self_iff]
  exact (assocMap_eq_none_iff.mpr hr).symm

end RainCall
