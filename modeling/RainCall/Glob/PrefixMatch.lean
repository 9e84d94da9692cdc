import RainCall.Glob.Language

/-!
# The key prefix check of the access control list

With the matcher reduced to the elements of a pattern (`stringmatchlen_iff`), the soundness of
`prefixmatch` becomes a question about patterns: if it accepts a string, the pattern must match
every extension of the string. The check only looks at the text of the pattern, whose last byte
has to be an unescaped `*`; inside a bracket class that is never closed, such a `*` is an ordinary
member of the class and not a wildcard. `prefixmatch_sound_iff` says for which patterns the check
is sound.
-/

namespace RainCall

variable {signedChar nocase : Bool} {string pattern : Bytes}

/-- The empty string is matched by the empty pattern only. -/
lemma stringmatchlen_nil (pattern : Bytes) :
    stringmatchlen signedChar nocase pattern [] = pattern.isEmpty := by
  rw [stringmatchlen, stringmatchlenImpl, if_neg (by omega)]
  cases pattern <;> rfl

/-- The text of the pattern ends in a `*` that is not escaped by a backslash. -/
def EndsInStar (pattern : Bytes) : Prop :=
  pattern.getLast? = some 42 ∧ Even (backslashCount pattern)

/-- The pattern has a wildcard behind which every element accepts every byte. This holds of every
pattern whose last element is a wildcard. -/
def CoversExtensions (signedChar nocase : Bool) (pattern : Bytes) : Prop :=
  OpenEnded (GlobToken.Accepts signedChar nocase) (globTokens pattern)

/-- The check asks for a match and for the form of the text. -/
lemma prefixmatch_eq_true_iff :
    prefixmatch signedChar nocase pattern string = true ↔
      stringmatchlen signedChar nocase pattern string = true ∧ EndsInStar pattern := by
  unfold prefixmatch stringmatchlen EndsInStar
  split_ifs <;> simp_all [Nat.even_iff]

/-- A pattern whose last element is a wildcard covers all extensions. -/
lemma coversExtensions_of_getLast (h : (globTokens pattern).getLast? = some none) :
    CoversExtensions signedChar nocase pattern := by
  obtain ⟨front, hfront⟩ := List.getLast?_eq_some_iff.mp h
  exact ⟨front, [], hfront, by simp⟩

/-- A pattern with some element that matches the empty string ends in a wildcard. -/
lemma GlobMatches.getLast_of_nil (h : GlobMatches signedChar nocase pattern [])
    (hpattern : pattern ≠ []) :
    (globTokens pattern).getLast? = some none := by
  have hne : globTokens pattern ≠ [] := by
    obtain ⟨p, ps, rfl⟩ := List.exists_cons_of_ne_nil hpattern
    rw [globTokens]
    split_ifs <;> simp
  rw [List.getLast?_eq_some_getLast hne, WildMatches.eq_none_of_nil h _ (List.getLast_mem hne)]

/-- For a nonempty prefix in the language of the pattern, covering means matching. -/
lemma forall_stringmatchlen_iff {p : Bytes} (hstars : pattern.count 42 ≤ 1000) (hp : p ≠ [])
    (hmatch : GlobMatches signedChar nocase pattern p) :
    (∀ t, stringmatchlen signedChar nocase pattern (p ++ t) = true) ↔
      CoversExtensions signedChar nocase pattern := by
  rw [CoversExtensions, ← wildMatches_append_iff_openEnded hmatch]
  exact forall_congr' fun t => stringmatchlen_iff hstars (by simp [hp])

/-- The check accepts the empty prefix for no pattern. -/
lemma prefixmatch_nil (pattern : Bytes) :
    prefixmatch signedChar nocase pattern [] = false := by
  rw [← Bool.not_eq_true, prefixmatch_eq_true_iff, stringmatchlen_nil]
  rintro ⟨hempty, hend⟩
  rw [List.isEmpty_iff.mp hempty] at hend
  exact absurd hend.1 (by simp)

/-- The prefix check is sound for a pattern and a prefix exactly if the pattern covers all
extensions, unless the check has a reason to refuse: the text does not end in an unescaped `*`, or
the prefix is not in the language of the pattern. -/
theorem prefixmatch_sound_iff (signedChar nocase : Bool) (pattern : Bytes)
    (hstars : pattern.count 42 ≤ 1000) (p : Bytes) :
    (prefixmatch signedChar nocase pattern p = true →
      ∀ t, stringmatchlen signedChar nocase pattern (p ++ t) = true) ↔
    (EndsInStar pattern → GlobMatches signedChar nocase pattern p →
      CoversExtensions signedChar nocase pattern) := by
  by_cases hp : p = []
  · subst hp
    rw [prefixmatch_nil]
    refine iff_of_true (fun h => absurd h Bool.false_ne_true) fun hend hmatch => ?_
    refine coversExtensions_of_getLast (hmatch.getLast_of_nil ?_)
    rintro rfl
    exact absurd hend.1 (by simp)
  · rw [prefixmatch_eq_true_iff, stringmatchlen_iff hstars hp, and_comm, and_imp]
    exact imp_congr_right fun _ => imp_congr_right fun hmatch =>
      forall_stringmatchlen_iff hstars hp hmatch

/-- The pattern `foo*` and the prefix `foo:`. -/
theorem prefixmatch_sound_iff_foo :
    (prefixmatch true false [102, 111, 111, 42] [102, 111, 111, 58] = true →
      ∀ t, stringmatchlen true false [102, 111, 111, 42] ([102, 111, 111, 58] ++ t) = true) ↔
    (EndsInStar [102, 111, 111, 42] →
      GlobMatches true false [102, 111, 111, 42] [102, 111, 111, 58] →
      CoversExtensions true false [102, 111, 111, 42]) :=
  prefixmatch_sound_iff true false [102, 111, 111, 42] (by decide) [102, 111, 111, 58]

/-- The pattern `[*` is a class that is never closed and holds a `*`. It passes as a cover of all
keys that start with `*`, but it matches the key `*` only. -/
theorem prefixmatch_unsound_open_class :
    prefixmatch true false [91, 42] [42] = true ∧
      stringmatchlen true false [91, 42] ([42] ++ [120]) = false := by
  decide

end RainCall
