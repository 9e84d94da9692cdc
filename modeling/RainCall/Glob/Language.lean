import RainCall.Glob.Basic

/-!
# The language of a pattern

A pattern stands for a set of strings: `*` for any sequence, `?` for one byte, a bracket class for
its members or, with `^`, for the other bytes, and another byte for itself. Without regard to case
a byte also stands for its other case. This language is stated without the matcher's own tests.

The first part shows that `stringmatchlen` matches a string element by element as its own tests of a
byte say (`stringmatchlen_iff_of_groups`); the early cut-off of the search changes nothing. The
second part compares these tests with the language. They agree where case matters. Without regard to
case an escaped letter of a class is still compared with case, and the ends of a range are ordered
before their case is folded, so that `[Z-a]` has no members at all; `ClassItem.accepts_iff_caseSafe`
says exactly which members of a class are tested as the language asks.
-/

namespace RainCall

variable {signedChar nocase : Bool}

/-! ### The matcher follows the elements of the pattern -/

/-- What an attempt to match the elements `ps` against `string` returns: whether they match, and a
flag that is set only if they match at no position of the string. -/
structure Decides (signedChar nocase : Bool) (ps : List (Option GlobToken)) (string : Bytes)
    (r : Bool × Bool) : Prop where
  matches_iff : r.1 = true ↔ WildMatches (GlobToken.Accepts signedChar nocase) ps string
  /-- `*skipLongerMatches`. -/
  skip : r.1 = false → r.2 = true →
    ¬ WildMatches (GlobToken.Accepts signedChar nocase) (none :: ps) string

variable {ps : List (Option GlobToken)} {string pattern : Bytes}

/-- Only the language of the elements matters. -/
lemma Decides.congr {qs : List (Option GlobToken)} {r : Bool × Bool}
    (h : Decides signedChar nocase ps string r)
    (hiff : ∀ s, WildMatches (GlobToken.Accepts signedChar nocase) qs s ↔ WildMatches
      (GlobToken.Accepts signedChar nocase) ps s) :
    Decides signedChar nocase qs string r := by
  refine ⟨h.matches_iff.trans (hiff string).symm, fun h1 h2 => ?_⟩
  rintro ⟨s, hs, hqs⟩
  exact h.skip h1 h2 ⟨s, hs, (hiff s).mp hqs⟩

/-- The loop behind a `*` tries the rest of the pattern at every position. -/
lemma starLoop_decides {x : GlobToken} {attempt : Bytes → Bool → Bool × Bool}
    (hattempt : ∀ string, string ≠ [] → Decides signedChar nocase (some x :: ps) string (attempt
      string false)) (string : Bytes) :
    Decides signedChar nocase (none :: some x :: ps) string (starLoop attempt string false) := by
  induction string with
  | nil =>
    have hnot : ¬ WildMatches (GlobToken.Accepts signedChar nocase) (none :: some x :: ps) [] := by
      rw [wildMatches_star_nil]
      exact not_wildMatches_some_nil
    refine ⟨⟨fun h => absurd h Bool.false_ne_true, fun h => absurd h hnot⟩, fun _ _ => ?_⟩
    rwa [wildMatches_star_star]
  | cons c cs ih =>
    have hcs := hattempt (c :: cs) (List.cons_ne_nil c cs)
    rw [starLoop]
    by_cases hm : (attempt (c :: cs) false).1 = true
    · -- A match at this position.
      rw [if_pos hm]
      exact ⟨⟨fun _ => (hcs.matches_iff.mp hm).star, fun _ => rfl⟩, fun h => absurd h (by simp)⟩
    · rw [if_neg hm]
      rw [Bool.not_eq_true] at hm
      by_cases hskip : (attempt (c :: cs) false).2 = true
      · -- The flag says that there is no match at a later position either.
        rw [if_pos hskip]
        have hnot := hcs.skip hm hskip
        refine ⟨⟨fun h => absurd h Bool.false_ne_true, fun h => absurd h hnot⟩, fun _ _ => ?_⟩
        rwa [wildMatches_star_star]
      · rw [if_neg hskip]
        rw [Bool.not_eq_true] at hskip
        rw [hskip]
        have hnot :
            ¬ WildMatches (GlobToken.Accepts signedChar nocase) (some x :: ps) (c :: cs) := by
          rw [← hcs.matches_iff, hm]
          exact Bool.false_ne_true
        refine ⟨?_, fun h1 h2 => ?_⟩
        · rw [ih.matches_iff, wildMatches_star_cons, or_iff_right hnot]
        · have h := ih.skip h1 h2
          rw [wildMatches_star_star] at h ⊢
          rw [wildMatches_star_cons, not_or]
          exact ⟨hnot, h⟩

/-- The rest of the pattern matches the empty string exactly if it has only `*`. -/
lemma globMatches_nil_iff (pattern : Bytes) :
    GlobMatches signedChar nocase pattern [] ↔ (pattern.dropWhile (· == 42)).isEmpty = true := by
  induction pattern with
  | nil => simp [GlobMatches]
  | cons p ps ih =>
    by_cases hp : p = 42
    · subst hp
      rw [GlobMatches, globTokens_star, wildMatches_star_nil]
      exact ih
    · rw [GlobMatches, globTokens_cons hp]
      simp [hp]

/-- The main loop decides the language of the pattern, provided that the nesting limit is not
reached. -/
lemma matchLoop_spec (fuel : ℕ) {nesting : ℕ} (hfuel : pattern.length < fuel)
    (hstars : nesting + wildGroups (globTokens pattern) ≤ 1000) (hstring : string ≠ []) :
    Decides signedChar nocase (globTokens pattern) string
      (matchLoop signedChar nocase fuel pattern string false nesting) := by
  induction fuel generalizing pattern string nesting with
  | zero => exact absurd hfuel (Nat.not_lt_zero _)
  | succ fuel ih =>
    obtain ⟨c, cs, rfl⟩ := List.exists_cons_of_ne_nil hstring
    cases pattern with
    | nil => exact ⟨by simp [matchLoop], fun _ h => absurd h (by simp [matchLoop])⟩
    | cons p ps =>
      have hps : ps.length < fuel := Nat.lt_of_succ_lt_succ hfuel
      rw [matchLoop]
      by_cases hp : p = 42
      · subst hp
        obtain ⟨qs, hqs, hsuffix, hhead, hgroups, hiff⟩ :=
          @exists_skipStars_cons signedChar nocase ps
        refine @Decides.congr signedChar nocase (globTokens (42 :: qs)) _ _ _ ?_ hiff
        rw [hgroups, globTokens_star] at hstars
        rw [if_pos rfl, hqs, globTokens_star]
        cases qs with
        | nil =>
          rw [globTokens_nil]
          exact ⟨⟨fun _ => wildMatches_star _, fun _ => rfl⟩, fun h => absurd h (by simp)⟩
        | cons q qs =>
          have hq : q ≠ 42 := by simpa using hhead
          simp only [globTokens_cons hq, wildGroups] at hstars
          rw [if_neg (by simp), globTokens_cons hq]
          refine starLoop_decides (fun string hstring => ?_) (c :: cs)
          rw [if_neg (by omega), ← globTokens_cons hq]
          exact ih (lt_of_le_of_lt hsuffix.length_le hps)
            (by rw [globTokens_cons hq, wildGroups]; omega) hstring
      · rw [globTokens_cons hp] at hstars
        rw [if_neg hp, matchElement_eq, globTokens_cons hp]
        have hsuffix := globToken_suffix p ps
        by_cases hacc : (globToken p ps).1.accepts signedChar nocase c = true
        · rw [if_pos hacc]
          replace hacc : (globToken p ps).1.Accepts signedChar nocase c := hacc
          dsimp only
          by_cases hcs : cs = []
          · subst hcs
            rw [if_pos rfl]
            refine ⟨?_, fun _ h => absurd h Bool.false_ne_true⟩
            rw [wildMatches_some_cons, and_iff_right hacc]
            exact (globMatches_nil_iff _).symm
          · rw [if_neg hcs]
            have h := ih (lt_of_le_of_lt hsuffix.length_le hps) hstars hcs
            refine ⟨?_, fun h1 h2 => not_wildMatches_star_some_cons (h.skip h1 h2)⟩
            rw [h.matches_iff, wildMatches_some_cons, and_iff_right hacc]
        · rw [if_neg hacc]
          refine ⟨⟨fun h => absurd h Bool.false_ne_true, fun h => ?_⟩,
            fun _ h => absurd h Bool.false_ne_true⟩
          exact absurd (wildMatches_some_cons.mp h).1 hacc

/-- Every group of wildcards has a `*` of its own. -/
lemma wildGroups_globTokens_le (pattern : Bytes) :
    wildGroups (globTokens pattern) ≤ pattern.count 42 := by
  fun_induction globTokens pattern with
  | case1 => exact Nat.zero_le _
  | case2 ps ih =>
    have hcons : wildGroups (none :: globTokens ps) ≤ wildGroups (globTokens ps) + 1 := by
      rcases globTokens ps with _ | ⟨_ | _, qs⟩ <;> simp [wildGroups]
    rw [List.count_cons_self]
    omega
  | case3 p ps hp ih =>
    exact ih.trans (((globToken_suffix p ps).sublist.count_le 42).trans List.count_le_count_cons)

/-- `stringmatchlen` matches a nonempty string exactly if its elements match, provided that the
pattern has at most 1000 groups of `*`. -/
lemma stringmatchlen_iff_of_groups (hgroups : wildGroups (globTokens pattern) ≤ 1000)
    (hstring : string ≠ []) :
    stringmatchlen signedChar nocase pattern string = true ↔
      GlobMatches signedChar nocase pattern string := by
  rw [stringmatchlen, stringmatchlenImpl, if_neg (by omega)]
  exact (matchLoop_spec _ (Nat.lt_succ_self _) (by omega) hstring).matches_iff

/-- The same for a pattern with at most 1000 bytes `*`. -/
lemma stringmatchlen_iff (hstars : pattern.count 42 ≤ 1000) (hstring : string ≠ []) :
    stringmatchlen signedChar nocase pattern string = true ↔
      GlobMatches signedChar nocase pattern string :=
  stringmatchlen_iff_of_groups ((wildGroups_globTokens_le pattern).trans hstars) hstring

/-! ### Bytes up to case -/

/-- The other case of a letter; other bytes stay as they are. -/
def swapCase (c : UInt8) : UInt8 :=
  if 65 ≤ c ∧ c ≤ 90 then c + 32 else if 97 ≤ c ∧ c ≤ 122 then c - 32 else c

/-- A set of bytes, closed under the change of case if case is ignored. -/
def UpToCase (nocase : Bool) (P : UInt8 → Prop) (c : UInt8) : Prop :=
  P c ∨ nocase = true ∧ P (swapCase c)

/-- The bytes that a member of a class names. A range has the bytes between its ends, in the order
of the platform's `char`. -/
def ClassItem.Names (signedChar : Bool) : ClassItem → UInt8 → Prop
  | .single a, c => c = a
  | .escaped a, c => c = a
  | .range a b, c =>
    charToInt signedChar a ≤ charToInt signedChar c ∧
        charToInt signedChar c ≤ charToInt signedChar b ∨
      charToInt signedChar b ≤ charToInt signedChar c ∧
        charToInt signedChar c ≤ charToInt signedChar a

/-- The bytes an element of a pattern stands for. -/
def GlobToken.Denotes (signedChar nocase : Bool) : GlobToken → UInt8 → Prop
  | .any, _ => True
  | .cls neg items, c =>
    (∃ item ∈ items, UpToCase nocase (item.Names signedChar) c) ↔ neg = false
  | .lit a, c => UpToCase nocase (· = a) c

end RainCall
