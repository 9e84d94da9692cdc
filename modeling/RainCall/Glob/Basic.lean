import RainCall.Foundation.Bytes
import RainCall.Foundation.Wildcard

/-!
# Glob-style pattern matching

The matcher of `util.c`: `stringmatchlen_impl` walks over the pattern and the string, tries the rest
of the pattern at every position behind a `*`, and gives up early through `skipLongerMatches`.
`prefixmatch` asks whether a pattern covers every key that starts with a given string.

A pattern and a string are the lists of their remaining bytes. The byte in memory behind the
pattern is zero, so that reading one byte past its end yields `0`. Whether `char` is signed is left
to the platform (`signedChar`).

The second half reads a pattern into the elements of a wildcard pattern (`globTokens`) and relates
the steps of the matcher to them.
-/

namespace RainCall

open List

section Matcher

variable (signedChar nocase : Bool)

/-- A `char` converted to `int`. -/
def charToInt (c : UInt8) : ℤ :=
  if signedChar && decide (128 ≤ c.toNat) then (c.toNat : ℤ) - 256 else c.toNat

/-- `tolower` in the C locale. -/
def tolower (c : ℤ) : ℤ :=
  if 65 ≤ c ∧ c ≤ 90 then c + 32 else c

/-- Comparison of a byte of the pattern with a byte of the string. -/
def sameChar (a c : UInt8) : Bool :=
  if nocase then tolower (charToInt signedChar a) == tolower (charToInt signedChar c) else a == c

/-- The range `start-stop` of a bracket class; its ends may come in either order, and they are
ordered before the case is folded. -/
def inRange (start stop c : UInt8) : Bool :=
  let lo := min (charToInt signedChar start) (charToInt signedChar stop)
  let hi := max (charToInt signedChar start) (charToInt signedChar stop)
  let c := charToInt signedChar c
  if nocase then
    decide (tolower lo ≤ tolower c) && decide (tolower c ≤ tolower hi)
  else
    decide (lo ≤ c) && decide (c ≤ hi)

/-- The loop over a bracket class, with the flag `match`. It returns the flag and the pattern
behind the class; a class without `]` extends to the end of the pattern. -/
def classLoop (c : UInt8) : Bytes → Bool → Bool × Bytes
  | [], m => (m, [])
  | [a], m =>
    if a = 93 then (m, [])
    else classLoop c [] (m || sameChar signedChar nocase a c)
  | [a, b], m =>
    if a = 92 then classLoop c [] (m || b == c)
    else if a = 93 then (m, [b])
    else classLoop c [b] (m || sameChar signedChar nocase a c)
  | a :: b :: d :: ps, m =>
    if a = 92 then classLoop c (d :: ps) (m || b == c)
    else if a = 93 then (m, b :: d :: ps)
    else if b = 45 then classLoop c ps (m || inRange signedChar nocase a d c)
    else classLoop c (b :: d :: ps) (m || sameChar signedChar nocase a c)

/-- One element of the pattern other than `*` against the byte `c`: `none` is "no match", and
`some rest` is the pattern behind the element. -/
def matchElement (p : UInt8) (ps : Bytes) (c : UInt8) : Option Bytes :=
  if p = 63 then some ps
  else if p = 91 then
    let neg := ps.head? == some 94
    let r := classLoop signedChar nocase c (if neg then ps.tail else ps) false
    if neg != r.1 then some r.2 else none
  else if p = 92 then
    -- A backslash at the very end stands for itself.
    if sameChar signedChar nocase (ps.headD p) c then some ps.tail else none
  else if sameChar signedChar nocase p c then some ps else none

/-- Skip to the last of a run of `*`. -/
def skipStars : Bytes → Bytes
  | [] => []
  | p :: ps => if ps.headD 0 = 42 then skipStars ps else p :: ps

/-- The loop over the string behind a `*`. `attempt` matches the rest of the pattern at one
position; the second component is `*skipLongerMatches`. -/
def starLoop (attempt : Bytes → Bool → Bool × Bool) : Bytes → Bool → Bool × Bool
  | [], _ => (false, true)
  | c :: cs, skip =>
    let r := attempt (c :: cs) skip
    if r.1 then (true, r.2)
    else if r.2 then (false, r.2)
    else starLoop attempt cs r.2

/-- The main loop of `stringmatchlen_impl`. Every iteration shortens the pattern, so that its
length bounds the number of iterations. The result is the return value and `*skipLongerMatches`. -/
def matchLoop : ℕ → Bytes → Bytes → Bool → ℕ → Bool × Bool
  | 0, _, _, skip, _ => (false, skip)
  | _ + 1, [], string, skip, _ => (string.isEmpty, skip)
  | _ + 1, _ :: _, [], skip, _ => (false, skip)
  | fuel + 1, p :: ps, c :: cs, skip, nesting =>
    if p = 42 then
      let pattern := skipStars (p :: ps)
      if pattern.length = 1 then (true, skip)
      else
        -- The recursive call, with its protection against abusive patterns.
        starLoop (fun string skip =>
          if nesting + 1 > 1000 then (false, skip)
          else matchLoop fuel pattern.tail string skip (nesting + 1)) (c :: cs) skip
    else
      match matchElement signedChar nocase p ps c with
      | none => (false, skip)
      | some rest =>
        if cs = [] then ((rest.dropWhile (· == 42)).isEmpty, skip)
        else matchLoop fuel rest cs skip nesting

/-- Glob-style pattern matching. -/
def stringmatchlenImpl (pattern string : Bytes) (skip : Bool) (nesting : ℕ) : Bool × Bool :=
  if nesting > 1000 then (false, skip)
  else matchLoop signedChar nocase (pattern.length + 1) pattern string skip nesting

/-- Glob-style pattern matching to a string. -/
def stringmatchlen (pattern string : Bytes) : Bool :=
  (stringmatchlenImpl signedChar nocase pattern string false 0).1

/-- The number of backslashes right before the last byte of the pattern. -/
def backslashCount (pattern : Bytes) : ℕ :=
  (pattern.dropLast.reverse.takeWhile (· == 92)).length

/-- Check whether the pattern covers all strings that start with `string`: it matches `string` and
its last byte is a `*` behind an even number of backslashes. -/
def prefixmatch (pattern string : Bytes) : Bool :=
  if (stringmatchlenImpl signedChar nocase pattern string false 0).1 then
    if pattern.getLast? = some 42 then backslashCount pattern % 2 == 0 else false
  else false

end Matcher

/-! ### The elements of a pattern -/

/-- One item of a bracket class. -/
inductive ClassItem
  | single (c : UInt8)
  | escaped (c : UInt8)
  | range (start stop : UInt8)
deriving DecidableEq, Repr

/-- One element of a pattern other than `*`. -/
inductive GlobToken
  | any
  | cls (neg : Bool) (items : List ClassItem)
  | lit (c : UInt8)
deriving DecidableEq, Repr

/-- The members of a bracket class and the pattern behind it. The class ends at `]` or with the
pattern; a member is an escaped byte, a range or a byte, whatever can be read first. -/
def classText : Bytes → List ClassItem × Bytes
  | [] => ([], [])
  | 93 :: ps => ([], ps)
  | 92 :: b :: ps => (.escaped b :: (classText ps).1, (classText ps).2)
  | a :: 45 :: d :: ps => (.range a d :: (classText ps).1, (classText ps).2)
  | a :: ps => (.single a :: (classText ps).1, (classText ps).2)

/-- Read one element of the pattern other than `*`. -/
def globToken (p : UInt8) (ps : Bytes) : GlobToken × Bytes :=
  if p = 63 then (.any, ps)
  else if p = 91 then
    let neg := ps.head? == some 94
    let r := classText (if neg then ps.tail else ps)
    (.cls neg r.1, r.2)
  else if p = 92 then (.lit (ps.headD p), ps.tail)
  else (.lit p, ps)

/-- What is left behind a class is a suffix of the pattern. -/
lemma classText_suffix (ps : Bytes) : (classText ps).2 <:+ ps := by
  fun_induction classText ps with
  | case1 => exact suffix_refl []
  | case2 ps => exact suffix_cons 93 ps
  | case3 b ps ih => exact ih.trans (suffix_append [92, b] ps)
  | case4 a d ps _ _ ih => exact ih.trans (suffix_append [a, 45, d] ps)
  | case5 a ps _ _ _ ih => exact ih.trans (suffix_cons a ps)

lemma globToken_suffix (p : UInt8) (ps : Bytes) : (globToken p ps).2 <:+ ps := by
  unfold globToken
  split_ifs
  · exact suffix_refl ps
  · refine (classText_suffix _).trans ?_
    split_ifs
    · exact tail_suffix ps
    · exact suffix_refl ps
  · exact tail_suffix ps
  · exact suffix_refl ps

/-- The elements of a pattern, with `none` for `*`. -/
def globTokens : Bytes → List (Option GlobToken)
  | [] => []
  | p :: ps =>
    if p = 42 then none :: globTokens ps
    else some (globToken p ps).1 :: globTokens (globToken p ps).2
termination_by ps => ps.length
decreasing_by
  · simp
  · exact Nat.lt_succ_of_le (globToken_suffix p ps).length_le

@[simp] lemma globTokens_nil : globTokens [] = [] := by rw [globTokens]

@[simp] lemma globTokens_star (ps : Bytes) :
    globTokens (42 :: ps) = none :: globTokens ps := by
  rw [globTokens, if_pos rfl]

lemma globTokens_cons {p : UInt8} (hp : p ≠ 42) (ps : Bytes) :
    globTokens (p :: ps) = some (globToken p ps).1 :: globTokens (globToken p ps).2 := by
  rw [globTokens, if_neg hp]

section Meaning

variable (signedChar nocase : Bool)

/-- The test of a byte against a member of a class, as `stringmatchlen_impl` makes it. -/
def ClassItem.accepts : ClassItem → UInt8 → Bool
  | .single a, c => sameChar signedChar nocase a c
  | .escaped a, c => a == c
  | .range a b, c => inRange signedChar nocase a b c

/-- The test of a byte against an element of a pattern. -/
def GlobToken.accepts : GlobToken → UInt8 → Bool
  | .any, _ => true
  | .cls neg items, c => neg != items.any (·.accepts signedChar nocase c)
  | .lit a, c => sameChar signedChar nocase a c

/-- The element stands for the byte. -/
def GlobToken.Accepts (tok : GlobToken) (c : UInt8) : Prop :=
  tok.accepts signedChar nocase c = true

/-- The strings a pattern stands for if an element stands for the bytes that pass its test. -/
def GlobMatches (pattern string : Bytes) : Prop :=
  WildMatches (GlobToken.Accepts signedChar nocase) (globTokens pattern) string

variable {signedChar nocase}

/-- The class loop reads the items of the class and tests them one by one. -/
lemma classLoop_eq (c : UInt8) (ps : Bytes) (m : Bool) :
    classLoop signedChar nocase c ps m =
      (m || (classText ps).1.any (·.accepts signedChar nocase c), (classText ps).2) := by
  fun_induction classLoop signedChar nocase c ps m <;>
    simp_all [classText, ClassItem.accepts, Bool.or_assoc]

/-- One step of the matcher tests the next element of the pattern. -/
lemma matchElement_eq (p : UInt8) (ps : Bytes) (c : UInt8) :
    matchElement signedChar nocase p ps c =
      if (globToken p ps).1.accepts signedChar nocase c then some (globToken p ps).2 else none := by
  unfold matchElement globToken
  by_cases hany : p = 63
  · simp [hany, GlobToken.accepts]
  by_cases hcls : p = 91
  · simp only [hcls, if_true, classLoop_eq, GlobToken.accepts]
    rfl
  by_cases hesc : p = 92
  · simp [hesc, GlobToken.accepts]
  · simp [hany, hcls, hesc, GlobToken.accepts]

/-- The run of `*` is one wildcard. -/
lemma exists_skipStars_cons (ps : Bytes) :
    ∃ qs, skipStars (42 :: ps) = 42 :: qs ∧ qs <:+ ps ∧ qs.head? ≠ some 42 ∧
      wildGroups (globTokens (42 :: ps)) = wildGroups (globTokens (42 :: qs)) ∧ ∀ string,
        GlobMatches signedChar nocase (42 :: ps) string ↔
          GlobMatches signedChar nocase (42 :: qs) string := by
  induction ps with
  | nil => exact ⟨[], rfl, suffix_refl [], by simp, rfl, fun _ => Iff.rfl⟩
  | cons p ps ih =>
    by_cases hp : p = 42
    · subst hp
      obtain ⟨qs, hqs, hsuffix, hhead, hgroups, hiff⟩ := ih
      refine ⟨qs, by rw [skipStars, if_pos (by rfl), hqs], hsuffix.trans (suffix_cons 42 ps),
        hhead, by rw [← hgroups, globTokens_star, globTokens_star, wildGroups], fun string => ?_⟩
      rw [← hiff, GlobMatches, GlobMatches, globTokens_star, globTokens_star, wildMatches_star_star]
    · exact ⟨p :: ps, by rw [skipStars, if_neg (by simpa using hp)], suffix_refl _,
        by simpa using hp, rfl, fun _ => Iff.rfl⟩

end Meaning

end RainCall
