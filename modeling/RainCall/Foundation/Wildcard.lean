import Mathlib

/-!
# Wildcard patterns

A wildcard pattern is a list of elements: `none` is the wildcard, which stands for any string, and
`some x` stands for one letter accepted by `x`. This file gives the meaning of such patterns over
an arbitrary alphabet and two facts about them.

* A search that tries an element of the pattern at every suffix may stop as soon as the part behind
  a later wildcard has failed everywhere (`not_wildMatches_star_some_cons`): every element other
  than the wildcard consumes exactly one letter.
* A pattern that matches `s` matches every extension of `s` if and only if it is open ended, that
  is, behind its last wildcard there are only elements that accept every letter
  (`wildMatches_append_iff_openEnded`).
-/

namespace RainCall

open List

variable {τ α : Type*} (accepts : τ → α → Prop)

/-- The meaning of a wildcard pattern. -/
def WildMatches : List (Option τ) → List α → Prop
  | [], s => s = []
  | some x :: ps, s => ∃ c s', s = c :: s' ∧ accepts x c ∧ WildMatches ps s'
  | none :: ps, s => ∃ s', s' <:+ s ∧ WildMatches ps s'

/-- The number of groups of adjacent wildcards. -/
def wildGroups : List (Option τ) → ℕ
  | [] => 0
  | some _ :: ps => wildGroups ps
  | none :: none :: ps => wildGroups (none :: ps)
  | none :: ps => wildGroups ps + 1

/-- Behind the last wildcard there are only elements that accept every letter. -/
def OpenEnded (ps : List (Option τ)) : Prop :=
  ∃ front, ∃ back : List τ, ps = front ++ none :: back.map some ∧ ∀ x ∈ back, ∀ c, accepts x c

variable {accepts}

variable {s : List α} {ps : List (Option τ)}

@[simp] lemma wildMatches_nil_iff : WildMatches accepts [] s ↔ s = [] := Iff.rfl

@[simp] lemma not_wildMatches_some_nil {x : τ} :
    ¬ WildMatches accepts (some x :: ps) [] := by
  rintro ⟨c, s', h, -⟩
  cases h

@[simp] lemma wildMatches_some_cons {x : τ} {c : α} :
    WildMatches accepts (some x :: ps) (c :: s) ↔ accepts x c ∧ WildMatches accepts ps s := by
  constructor
  · rintro ⟨c', s', h, hx, hps⟩
    cases h
    exact ⟨hx, hps⟩
  · rintro ⟨hx, hps⟩
    exact ⟨c, s, rfl, hx, hps⟩

/-- The wildcard may stand for the empty string. -/
lemma WildMatches.star (h : WildMatches accepts ps s) :
    WildMatches accepts (none :: ps) s :=
  ⟨s, suffix_refl s, h⟩

lemma wildMatches_star_nil :
    WildMatches accepts (none :: ps) [] ↔ WildMatches accepts ps [] := by
  constructor
  · rintro ⟨s', hs', h⟩
    rwa [suffix_nil.mp hs'] at h
  · exact WildMatches.star

/-- The wildcard stands for the empty string or takes the first letter. -/
lemma wildMatches_star_cons {c : α} :
    WildMatches accepts (none :: ps) (c :: s) ↔
      WildMatches accepts ps (c :: s) ∨ WildMatches accepts (none :: ps) s := by
  constructor
  · rintro ⟨s', hs', h⟩
    rcases suffix_cons_iff.mp hs' with rfl | hs'
    · exact .inl h
    · exact .inr ⟨s', hs', h⟩
  · rintro (h | ⟨s', hs', h⟩)
    · exact h.star
    · exact ⟨s', hs'.trans (suffix_cons c s), h⟩

lemma wildMatches_star (s : List α) : WildMatches accepts [none] s :=
  ⟨[], nil_suffix, rfl⟩

/-- Two wildcards in a row are one. -/
lemma wildMatches_star_star :
    WildMatches accepts (none :: none :: ps) s ↔ WildMatches accepts (none :: ps) s := by
  constructor
  · rintro ⟨s1, hs1, s2, hs2, h⟩
    exact ⟨s2, hs2.trans hs1, h⟩
  · exact WildMatches.star

/-- If the rest of the pattern matches nowhere in `s`, then with one more element before it it
matches nowhere in `c :: s`. -/
lemma not_wildMatches_star_some_cons {x : τ} {c : α} (h : ¬ WildMatches accepts (none :: ps) s) :
    ¬ WildMatches accepts (none :: some x :: ps) (c :: s) := by
  rintro ⟨s', hs', c', s'', rfl, -, hps⟩
  have hsuffix : s'' <:+ s := by
    rcases suffix_cons_iff.mp hs' with heq | hs'
    · cases heq
      exact suffix_refl _
    · exact (suffix_cons c' s'').trans hs'
  exact h ⟨s'', hsuffix, hps⟩

/-- A pattern in two parts matches a string in two parts. -/
lemma wildMatches_append_iff {qs : List (Option τ)} :
    WildMatches accepts (ps ++ qs) s ↔
      ∃ s1 s2, s = s1 ++ s2 ∧ WildMatches accepts ps s1 ∧ WildMatches accepts qs s2 := by
  induction ps generalizing s with
  | nil => simp
  | cons p ps ih =>
    cases p with
    | none =>
      constructor
      · rintro ⟨s', ⟨s0, rfl⟩, h⟩
        obtain ⟨s1, s2, rfl, h1, h2⟩ := ih.mp h
        exact ⟨s0 ++ s1, s2, by simp, ⟨s1, suffix_append s0 s1, h1⟩, h2⟩
      · rintro ⟨_, s2, rfl, ⟨s1, ⟨s0, rfl⟩, h1⟩, h2⟩
        exact ⟨s1 ++ s2, ⟨s0, by simp⟩, ih.mpr ⟨s1, s2, rfl, h1, h2⟩⟩
    | some x =>
      constructor
      · rintro ⟨c, s', rfl, hx, h⟩
        obtain ⟨s1, s2, rfl, h1, h2⟩ := ih.mp h
        exact ⟨c :: s1, s2, rfl, ⟨c, s1, rfl, hx, h1⟩, h2⟩
      · rintro ⟨_, s2, rfl, ⟨c, s1, rfl, hx, h1⟩, h2⟩
        exact ⟨c, s1 ++ s2, rfl, hx, ih.mpr ⟨s1, s2, rfl, h1, h2⟩⟩

/-- A pattern without a wildcard matches letter by letter. -/
lemma wildMatches_map_some_iff {xs : List τ} :
    WildMatches accepts (xs.map some) s ↔ List.Forall₂ accepts xs s := by
  induction xs generalizing s with
  | nil => simp
  | cons x xs ih =>
    cases s with
    | nil => simp
    | cons c s => simp [ih]

/-- Every pattern is free of wildcards or has a last one. -/
lemma exists_map_some_or_last_star (ps : List (Option τ)) :
    (∃ xs : List τ, ps = xs.map some) ∨
      ∃ front, ∃ back : List τ, ps = front ++ none :: back.map some := by
  induction ps with
  | nil => exact .inl ⟨[], rfl⟩
  | cons p ps ih =>
    rcases ih with ⟨xs, rfl⟩ | ⟨front, back, rfl⟩
    · cases p with
      | none => exact .inr ⟨[], xs, rfl⟩
      | some x => exact .inl ⟨x :: xs, rfl⟩
    · exact .inr ⟨p :: front, back, rfl⟩

lemma WildMatches.append (h : WildMatches accepts ps s) (hopen : OpenEnded accepts ps)
    (t : List α) :
    WildMatches accepts ps (s ++ t) := by
  obtain ⟨front, back, rfl, hback⟩ := hopen
  obtain ⟨s1, s2, rfl, h1, s3, hs3, h3⟩ := wildMatches_append_iff.mp h
  have hlen : back.length ≤ (s2 ++ t).length := by
    have h3' := (wildMatches_map_some_iff.mp h3).length_eq
    have := hs3.length_le
    simp only [length_append]
    omega
  refine wildMatches_append_iff.mpr
    ⟨s1, s2 ++ t, by simp, h1, (s2 ++ t).drop ((s2 ++ t).length - back.length),
      drop_suffix _ _, wildMatches_map_some_iff.mpr ?_⟩
  refine forall₂_iff_get.mpr ⟨by rw [length_drop]; omega, fun i hi _ => ?_⟩
  exact hback _ (get_mem _ _) _

/-- A pattern that matches every extension of a string is open ended. -/
lemma openEnded_of_forall_append [Nonempty α] (h : ∀ t, WildMatches accepts ps (s ++ t)) :
    OpenEnded accepts ps := by
  rcases exists_map_some_or_last_star ps with ⟨xs, rfl⟩ | ⟨front, back, rfl⟩
  · -- Without a wildcard the length of the string is fixed.
    obtain ⟨c⟩ := ‹Nonempty α›
    have h0 := (wildMatches_map_some_iff.mp (h [])).length_eq
    have h1 := (wildMatches_map_some_iff.mp (h [c])).length_eq
    simp only [append_nil, length_append, length_singleton] at h0 h1
    omega
  · refine ⟨front, back, rfl, fun x hx c => ?_⟩
    -- Extend by as many copies of `c` as there are elements behind the last wildcard.
    obtain ⟨s1, s2, heq, -, s3, hs3, h3⟩ :=
      wildMatches_append_iff.mp (h (replicate back.length c))
    rw [wildMatches_map_some_iff] at h3
    have hs3' : s3 <:+ s ++ replicate back.length c :=
      heq ▸ hs3.trans (suffix_append s1 s2)
    have hsuffix : s3 <:+ replicate back.length c :=
      suffix_of_suffix_length_le hs3' (suffix_append _ _) (by simp [h3.length_eq])
    have hs₃eq : s3 = replicate back.length c :=
      hsuffix.eq_of_length (by simp [h3.length_eq])
    rw [hs₃eq] at h3
    obtain ⟨i, hi, rfl⟩ := getElem_of_mem hx
    have := h3.get hi (by simpa using hi)
    simpa using this

/-- A pattern that matches `s` matches every extension of `s` exactly if it is open ended. -/
lemma wildMatches_append_iff_openEnded [Nonempty α] (h : WildMatches accepts ps s) :
    (∀ t, WildMatches accepts ps (s ++ t)) ↔ OpenEnded accepts ps :=
  ⟨openEnded_of_forall_append, fun hopen t => h.append hopen t⟩

/-- A pattern that matches the empty string has only wildcards. -/
lemma WildMatches.eq_none_of_nil (h : WildMatches accepts ps []) :
    ∀ p ∈ ps, p = none := by
  induction ps with
  | nil => simp
  | cons p ps ih =>
    cases p with
    | none =>
      intro q hq
      rcases mem_cons.mp hq with rfl | hq
      · rfl
      · exact ih (wildMatches_star_nil.mp h) q hq
    | some x => exact absurd h not_wildMatches_some_nil

end RainCall
