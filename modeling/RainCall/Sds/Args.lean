import RainCall.Util.IntegerText

/-!
# Quoted arguments

`sdscatrepr` writes a string with quotes and escapes, `sdsneedsrepr` says whether it should be
written that way, and `sdssplitargs` splits a line into arguments that may be quoted. Strings are
lists of bytes; a read at the end of a C string gives the terminating zero, which is the end of the
list.

A string that `sdscatrepr` has written is read back by `sdssplitargs`. A string for which
`sdsneedsrepr` is false and that is written as it is is read back exactly if it holds no single
quote.
-/

namespace RainCall

open List Option

/-! ### Characters -/

/-- `isspace` in the C locale -/
def isspace (c : UInt8) : Bool := c = 32 ∨ 9 ≤ c ∧ c ≤ 13

/-- `isprint` in the C locale -/
def isprint (c : UInt8) : Bool := 32 ≤ c ∧ c ≤ 126

def isHexDigit (c : UInt8) : Bool := 48 ≤ c ∧ c ≤ 57 ∨ 97 ≤ c ∧ c ≤ 102 ∨ 65 ≤ c ∧ c ≤ 70

def hexDigitToInt (c : UInt8) : UInt8 :=
  if 48 ≤ c ∧ c ≤ 57 then c - 48
  else if 97 ≤ c ∧ c ≤ 102 then c - 97 + 10
  else if 65 ≤ c ∧ c ≤ 70 then c - 65 + 10
  else 0

/-- A digit of `%02x`. -/
def hexDigit (d : UInt8) : UInt8 := if d < 10 then 48 + d else 97 + (d - 10)

/-! ### Writing -/

/-- One character in `sdscatrepr`. -/
def reprChar (c : UInt8) : Bytes :=
  if c = 92 ∨ c = 34 then [92, c]
  else if c = 10 then [92, 110]
  else if c = 13 then [92, 114]
  else if c = 9 then [92, 116]
  else if c = 7 then [92, 97]
  else if c = 8 then [92, 98]
  else if isprint c then [c]
  else [92, 120, hexDigit (c / 16), hexDigit (c % 16)]

def sdscatrepr (s p : Bytes) : Bytes := s ++ [34] ++ p.flatMap reprChar ++ [34]

/-- The characters that ask for quotes in `sdsneedsrepr`. -/
def charNeedsRepr (c : UInt8) : Bool :=
  c = 92 ∨ c = 34 ∨ c = 10 ∨ c = 13 ∨ c = 9 ∨ c = 7 ∨ c = 8 ∨ ¬ isprint c ∨ isspace c

def sdsneedsrepr (s : Bytes) : Bool := s.any charNeedsRepr

/-! ### Reading -/

/-- The character an escape stands for. -/
def unescapeChar (c : UInt8) : UInt8 :=
  if c = 110 then 10
  else if c = 114 then 13
  else if c = 116 then 9
  else if c = 98 then 8
  else if c = 97 then 7
  else c

/-- A closing quote must be followed by a space or nothing at all. -/
def closesQuote (p : Bytes) : Bool := p.head?.all isspace

/-- The byte of an escape `\\xHH`, of which the first character is `c`. -/
def hexEscape (c : UInt8) (p : Bytes) : Option UInt8 :=
  match p with
  | x :: a :: b :: _ =>
    if c = 92 ∧ x = 120 ∧ isHexDigit a ∧ isHexDigit b then
      some (hexDigitToInt a * 16 + hexDigitToInt b)
    else none
  | _ => none

/-- The rest of a token inside of double quotes: the token, and what follows it. The first argument
is the number of characters that an escape has already used. -/
def splitQuoted : ℕ → Bytes → Bytes → Option (Bytes × Bytes)
  | _, _, [] => none
  | skip + 1, current, _ :: p => splitQuoted skip current p
  | 0, current, c :: p =>
    match hexEscape c p with
    | some byte => splitQuoted 3 (current ++ [byte]) p
    | none =>
      if c = 92 ∧ p ≠ [] then splitQuoted 1 (current ++ [unescapeChar (p.headD 0)]) p
      else if c = 34 then if closesQuote p then some (current, p) else none
      else splitQuoted 0 (current ++ [c]) p

/-- The rest of a token inside of single quotes. -/
def splitSingleQuoted : ℕ → Bytes → Bytes → Option (Bytes × Bytes)
  | _, _, [] => none
  | skip + 1, current, _ :: p => splitSingleQuoted skip current p
  | 0, current, c :: p =>
    if c = 92 ∧ p.head? = some 39 then splitSingleQuoted 1 (current ++ [39]) p
    else if c = 39 then if closesQuote p then some (current, p) else none
    else splitSingleQuoted 0 (current ++ [c]) p

/-- A token, and what follows it and the separator. -/
def splitToken : Bytes → Bytes → Option (Bytes × Bytes)
  | current, [] => some (current, [])
  | current, c :: p =>
    if c = 32 ∨ c = 10 ∨ c = 13 ∨ c = 9 then some (current, p)
    else if c = 34 then splitQuoted 0 current p
    else if c = 39 then splitSingleQuoted 0 current p
    else splitToken (current ++ [c]) p

/-- The loop of `sdssplitargs`; every token takes a character from the line, so that the length of
the line bounds the number of rounds. -/
def sdssplitargsLoop : ℕ → Bytes → Option (List Bytes)
  | 0, _ => none
  | rounds + 1, line =>
    match line.dropWhile isspace with
    | [] => some []
    | c :: p => do
      let (token, rest) ← splitToken [] (c :: p)
      let tokens ← sdssplitargsLoop rounds rest
      some (token :: tokens)

/-- `sdssplitargs`, where `none` stands for unbalanced quotes. -/
def sdssplitargs (line : Bytes) : Option (List Bytes) :=
  sdssplitargsLoop (line.length + 1) line

/-! ### A character is read back -/

lemma hexDigit_spec : ∀ d : UInt8, d < 16 →
    isHexDigit (hexDigit d) ∧ hexDigitToInt (hexDigit d) = d := by
  decide +kernel

lemma byte_div_mod : ∀ c : UInt8, c / 16 < 16 ∧ c % 16 < 16 ∧ c / 16 * 16 + c % 16 = c := by
  decide +kernel

lemma hexEscape_of_ne {c : UInt8} (h : c ≠ 92) (p : Bytes) : hexEscape c p = none := by
  unfold hexEscape
  split
  · rw [if_neg fun hc => h hc.1]
  · rfl

/-- Inside of double quotes, an escaped character stands for itself. -/
lemma splitQuoted_reprChar (current : Bytes) (c : UInt8) (p : Bytes) :
    splitQuoted 0 current (reprChar c ++ p) = splitQuoted 0 (current ++ [c]) p := by
  have hshort : ∀ e : UInt8, e ≠ 120 → splitQuoted 0 current (92 :: e :: p) =
      splitQuoted 0 (current ++ [unescapeChar e]) p := by
    intro e he
    have hno : hexEscape 92 (e :: p) = none := by
      cases p with
      | nil => rfl
      | cons a p => cases p <;> simp [hexEscape, he]
    simp [splitQuoted, hno]
  unfold reprChar
  split_ifs with h1 h2 h3 h4 h5 h6 h7
  · rcases h1 with rfl | rfl <;> exact hshort _ (by decide)
  · rw [h2]
    exact hshort 110 (by decide)
  · rw [h3]
    exact hshort 114 (by decide)
  · rw [h4]
    exact hshort 116 (by decide)
  · rw [h5]
    exact hshort 97 (by decide)
  · rw [h6]
    exact hshort 98 (by decide)
  · rw [not_or] at h1
    simp [splitQuoted, hexEscape_of_ne h1.1, h1]
  · obtain ⟨hhi, hlo, hsum⟩ := byte_div_mod c
    obtain ⟨hhex1, hval1⟩ := hexDigit_spec _ hhi
    obtain ⟨hhex2, hval2⟩ := hexDigit_spec _ hlo
    simp [splitQuoted, hexEscape, hhex1, hhex2, hval1, hval2, hsum]

/-- What `sdscatrepr` has written between the quotes is read back. -/
lemma splitQuoted_flatMap_reprChar (current s p : Bytes) (hp : closesQuote p) :
    splitQuoted 0 current (s.flatMap reprChar ++ 34 :: p) = some (current ++ s, p) := by
  induction s generalizing current with
  | nil => simp [splitQuoted, hexEscape_of_ne (show (34 : UInt8) ≠ 92 by decide), hp]
  | cons c s ih =>
    rw [flatMap_cons, append_assoc, splitQuoted_reprChar, ih, append_assoc,
      singleton_append]

/-! ### Tokens -/

/-- A text that stands for an argument, at the end of a line or before a space. -/
structure TokenText (text token : Bytes) : Prop where
  /-- a token does not begin with a blank -/
  head : ∃ c p, text = c :: p ∧ ¬ isspace c
  /-- at the end of the line -/
  last : ∃ rest, splitToken [] text = some (token, rest) ∧ rest.dropWhile isspace = []
  /-- before a space -/
  next : ∀ p, ∃ rest, splitToken [] (text ++ 32 :: p) = some (token, rest) ∧
    rest.dropWhile isspace = p.dropWhile isspace

/-- Characters that neither end a token nor open quotes. -/
def IsPlain (c : UInt8) : Prop := ¬ charNeedsRepr c ∧ c ≠ 39

instance (c : UInt8) : Decidable (IsPlain c) := inferInstanceAs (Decidable (_ ∧ _))

lemma IsPlain.spec : ∀ c : UInt8, IsPlain c → ¬ isspace c ∧
    ¬ (c = 32 ∨ c = 10 ∨ c = 13 ∨ c = 9) ∧ c ≠ 34 ∧ c ≠ 39 := by
  decide +kernel

variable {text current p token rest line : Bytes}

/-- Plain characters are added to the token. -/
lemma splitToken_plain (h : ∀ c ∈ text, IsPlain c) (current p : Bytes) :
    splitToken current (text ++ p) = splitToken (current ++ text) p := by
  induction text generalizing current with
  | nil => simp
  | cons c text ih =>
    obtain ⟨-, hsep, hdouble, hsingle⟩ := IsPlain.spec c (h c mem_cons_self)
    rw [cons_append, splitToken, if_neg hsep, if_neg hdouble, if_neg hsingle,
      ih fun c' hc' => h c' (mem_cons_of_mem _ hc'), append_assoc, singleton_append]

lemma tokenText_plain (hne : text ≠ []) (h : ∀ c ∈ text, IsPlain c) :
    TokenText text text := by
  obtain ⟨c, p, rfl⟩ := exists_cons_of_ne_nil hne
  refine ⟨⟨c, p, rfl, (IsPlain.spec c (h c mem_cons_self)).1⟩, ⟨[], ?_, rfl⟩,
    fun q => ⟨q, ?_, rfl⟩⟩
  · have := splitToken_plain h [] []
    rwa [append_nil] at this
  · rw [splitToken_plain h, nil_append, splitToken, if_pos (.inl rfl)]

/-- A quoted text stands for the string between the quotes. -/
lemma tokenText_repr (s : Bytes) : TokenText (sdscatrepr [] s) s := by
  have hquote : ∀ p, closesQuote p →
      splitToken [] (sdscatrepr [] s ++ p) = some (s, p) := by
    intro p hp
    have := splitQuoted_flatMap_reprChar [] s p hp
    simpa [sdscatrepr, splitToken] using this
  refine ⟨⟨34, _, by simp [sdscatrepr]; rfl, by decide⟩, ⟨[], ?_, rfl⟩, fun p => ⟨32 :: p, ?_, ?_⟩⟩
  · simpa using hquote [] rfl
  · exact hquote _ rfl
  · rw [dropWhile_cons_of_pos (by decide)]

/-! ### Lines -/

/-- A token takes at least one character. -/
lemma length_splitQuoted_le {skip : ℕ} (h : splitQuoted skip current p = some (token, rest)) :
    rest.length ≤ p.length := by
  induction p generalizing skip current with
  | nil => simp [splitQuoted] at h
  | cons c p ih =>
    cases skip with
    | succ skip => exact (ih h).trans (Nat.le_succ _)
    | zero =>
      rw [splitQuoted] at h
      split at h
      · exact (ih h).trans (Nat.le_succ _)
      · split_ifs at h
        · exact (ih h).trans (Nat.le_succ _)
        · cases h
          exact Nat.le_succ _
        · exact (ih h).trans (Nat.le_succ _)

lemma length_splitSingleQuoted_le {skip : ℕ}
    (h : splitSingleQuoted skip current p = some (token, rest)) : rest.length ≤ p.length := by
  induction p generalizing skip current with
  | nil => simp [splitSingleQuoted] at h
  | cons c p ih =>
    cases skip with
    | succ skip => exact (ih h).trans (Nat.le_succ _)
    | zero =>
      rw [splitSingleQuoted] at h
      split_ifs at h
      · exact (ih h).trans (Nat.le_succ _)
      · cases h
        exact Nat.le_succ _
      · exact (ih h).trans (Nat.le_succ _)

lemma length_splitToken_le (h : splitToken current p = some (token, rest)) :
    rest.length ≤ p.length - 1 := by
  induction p generalizing current with
  | nil =>
    cases h
    exact le_rfl
  | cons c p ih =>
    rw [splitToken] at h
    split_ifs at h
    · cases h
      exact le_rfl
    · exact length_splitQuoted_le h
    · exact length_splitSingleQuoted_le h
    · exact (ih h).trans (Nat.sub_le _ _)

/-- The number of rounds does not matter if it exceeds the length of the line. -/
lemma sdssplitargsLoop_congr {rounds rounds' : ℕ} (h : line.length < rounds)
    (h' : line.length < rounds') :
    sdssplitargsLoop rounds line = sdssplitargsLoop rounds' line := by
  induction rounds generalizing rounds' line with
  | zero => exact absurd h (Nat.not_lt_zero _)
  | succ rounds ih =>
    obtain ⟨rounds', rfl⟩ : ∃ n, rounds' = n + 1 := ⟨rounds' - 1, by omega⟩
    have hdrop : (line.dropWhile isspace).length ≤ line.length := length_dropWhile_le _ _
    rw [sdssplitargsLoop, sdssplitargsLoop]
    cases hline : line.dropWhile isspace with
    | nil => rfl
    | cons c p =>
      rw [hline, length_cons] at hdrop
      cases htoken : splitToken [] (c :: p) with
      | none => simp only [htoken, bind_eq_bind, bind_none]
      | some result =>
        obtain ⟨token, rest⟩ := result
        have hrest : rest.length ≤ p.length := length_splitToken_le htoken
        simp only [bind_eq_bind, bind_some, htoken,
          ih (show rest.length < rounds by omega) (show rest.length < rounds' by omega)]

/-- Leading blanks do not matter. -/
lemma sdssplitargs_congr {line' : Bytes}
    (h : line.dropWhile isspace = line'.dropWhile isspace) :
    sdssplitargs line = sdssplitargs line' := by
  have hrounds : ∀ {l : Bytes} {n : ℕ}, l.length ≤ n →
      sdssplitargs l = sdssplitargsLoop (n + 1) l := fun hle =>
    sdssplitargsLoop_congr (Nat.lt_succ_self _) (Nat.lt_succ_of_le hle)
  rw [hrounds (le_max_left line.length line'.length),
    hrounds (le_max_right line.length line'.length),
    sdssplitargsLoop, sdssplitargsLoop, h]

lemma sdssplitargs_cons {c : UInt8} (hc : ¬ isspace c) (p : Bytes) :
    sdssplitargs (c :: p) = (splitToken [] (c :: p)).bind fun result =>
      (sdssplitargs result.2).map (result.1 :: ·) := by
  rw [sdssplitargs, sdssplitargsLoop, dropWhile_cons_of_neg (by simpa using hc)]
  cases htoken : splitToken [] (c :: p) with
  | none => simp [htoken]
  | some result =>
    have hrest := length_splitToken_le htoken
    rw [length_cons] at hrest
    have hloop : sdssplitargsLoop (c :: p).length result.2 = sdssplitargs result.2 :=
      sdssplitargsLoop_congr (by rw [length_cons]; omega) (Nat.lt_succ_self _)
    simp only [htoken, bind_eq_bind, bind_some, hloop]
    cases sdssplitargs result.2 <;> rfl

/-- A line that stands for a list of arguments. -/
inductive ArgsLine : Bytes → List Bytes → Prop
  | one {text token : Bytes} (h : TokenText text token) : ArgsLine text [token]
  | cons {text token p : Bytes} {args : List Bytes} (h : TokenText text token)
      (hp : ArgsLine p args) : ArgsLine (text ++ 32 :: p) (token :: args)

/-- A token before a space is the first argument. -/
lemma TokenText.sdssplitargs_append (h : TokenText text token) (p : Bytes) :
    sdssplitargs (text ++ 32 :: p) = (sdssplitargs p).map (token :: ·) := by
  obtain ⟨rest, hsplit, hrest⟩ := h.next p
  obtain ⟨c, q, rfl, hc⟩ := h.head
  rw [cons_append] at hsplit ⊢
  rw [sdssplitargs_cons hc, hsplit, bind_some, sdssplitargs_congr hrest]

/-- `sdssplitargs` reads the arguments a line stands for. -/
lemma ArgsLine.sdssplitargs_eq {args : List Bytes} (h : ArgsLine line args) :
    sdssplitargs line = some args := by
  induction h with
  | one h =>
    obtain ⟨rest, hsplit, hrest⟩ := h.last
    obtain ⟨c, q, rfl, hc⟩ := h.head
    have hnil : sdssplitargs rest = sdssplitargs [] := sdssplitargs_congr hrest
    rw [sdssplitargs_cons hc, hsplit, bind_some, hnil]
    rfl
  | cons h _ ih => rw [h.sdssplitargs_append, ih, map_some]

/-- A list of arguments is read back from the line that has `sdscatrepr` of each, with single spaces
in between. The line holds no zero byte, so that as a C string it is read to its end. -/
theorem sdssplitargs_intercalate_repr (args : List Bytes) :
    0 ∉ [32].intercalate (args.map (sdscatrepr [])) ∧
      sdssplitargs ([32].intercalate (args.map (sdscatrepr []))) = some args := by
  induction args with
  | nil => exact ⟨not_mem_nil, rfl⟩
  | cons s args ih =>
    have hs : 0 ∉ sdscatrepr [] s := by
      have hchar : ∀ c, 0 ∉ reprChar c := by decide +kernel
      simp [sdscatrepr, hchar]
    cases args with
    | nil =>
      rw [map_singleton, intercalate_singleton]
      exact ⟨hs, (ArgsLine.one (tokenText_repr s)).sdssplitargs_eq⟩
    | cons t args =>
      rw [map_cons, map_cons, intercalate_cons_cons, ← map_cons, append_assoc, singleton_append]
      refine ⟨by simpa [hs] using ih.1, ?_⟩
      rw [(tokenText_repr s).sdssplitargs_append, ih.2, map_some]

/-! ### A single quote that is not quoted -/

/-- Single quotes that are not closed. -/
lemma splitSingleQuoted_eq_none (h : 39 ∉ p) (skip : ℕ) (current : Bytes) :
    splitSingleQuoted skip current p = none := by
  induction p generalizing skip current with
  | nil => cases skip <;> rfl
  | cons c p ih =>
    have hp : 39 ∉ p := fun hc => h (mem_cons_of_mem _ hc)
    have hc : c ≠ 39 := fun hc => h (by rw [hc]; exact mem_cons_self)
    cases skip with
    | succ skip => exact ih hp ..
    | zero =>
      rw [splitSingleQuoted, if_neg hc]
      split_ifs <;> exact ih hp ..

lemma splitSingleQuoted_plain (h : ∀ c ∈ text, IsPlain c) (current p : Bytes) :
    splitSingleQuoted 0 current (text ++ p) = splitSingleQuoted 0 (current ++ text) p := by
  induction text generalizing current with
  | nil => simp
  | cons c text ih =>
    have hc := h c mem_cons_self
    have hback : c ≠ 92 := fun hc' => hc.1 (by rw [hc']; decide)
    rw [cons_append, splitSingleQuoted, if_neg fun hc' => hback hc'.1, if_neg hc.2,
      ih fun c' hc' => h c' (mem_cons_of_mem _ hc'), append_assoc, singleton_append]

/-- A string with a single quote that is written as it is is not read back: the quote opens quotes,
which are not closed or which are dropped. -/
lemma sdssplitargs_quote {s : Bytes} (hs : ¬ sdsneedsrepr s) (hquote : 39 ∈ s) (hp : 39 ∉ p) :
    sdssplitargs (s ++ 32 :: p) = none ∨
      ∃ token, token.length < s.length ∧
        sdssplitargs (s ++ 32 :: p) = (sdssplitargs p).map (token :: ·) := by
  have hrepr : ∀ c ∈ s, ¬ charNeedsRepr c := fun c hc hc' =>
    hs (any_eq_true.mpr ⟨c, hc, hc'⟩)
  have hspace : ∀ c, ¬ charNeedsRepr c → ¬ isspace c := by decide +kernel
  obtain ⟨a, b, rfl, ha⟩ := eq_append_cons_of_mem hquote
  have haplain : ∀ c ∈ a, IsPlain c := fun c hc =>
    ⟨hrepr c (mem_append_left _ hc), fun hc' => ha (hc' ▸ hc)⟩
  have hopen : splitToken [] ((a ++ 39 :: b) ++ 32 :: p) =
      splitSingleQuoted 0 a (b ++ 32 :: p) := by
    rw [append_assoc, splitToken_plain haplain, nil_append, cons_append, splitToken,
      if_neg (by decide), if_neg (by decide), if_pos rfl]
  have hfirst : sdssplitargs ((a ++ 39 :: b) ++ 32 :: p) =
      (splitSingleQuoted 0 a (b ++ 32 :: p)).bind fun result =>
        (sdssplitargs result.2).map (result.1 :: ·) := by
    rw [← hopen]
    obtain ⟨c, q, hq⟩ : ∃ c q, a ++ 39 :: b = c :: q :=
      exists_cons_of_ne_nil (by simp)
    have hc : ¬ isspace c := hspace c (hrepr c (by rw [hq]; exact mem_cons_self))
    rw [hq, cons_append, sdssplitargs_cons hc]
  rw [hfirst]
  by_cases hb : 39 ∈ b
  · obtain ⟨a', b', rfl, ha'⟩ := eq_append_cons_of_mem hb
    have haplain' : ∀ c ∈ a', IsPlain c := fun c hc =>
      ⟨hrepr c (by simp [hc]), fun hc' => ha' (hc' ▸ hc)⟩
    rw [append_assoc, splitSingleQuoted_plain haplain', cons_append, splitSingleQuoted,
      if_neg (by simp), if_pos rfl]
    cases b' with
    | nil =>
      refine .inr ⟨a ++ a', ?_, ?_⟩
      · simp only [length_append, length_cons]
        omega
      · rw [if_pos (show closesQuote ([] ++ 32 :: p) from rfl), bind_some]
        exact congrArg _ (sdssplitargs_congr (dropWhile_cons_of_pos (by decide)))
    | cons c b' =>
      have hc : ¬ isspace c := hspace c (hrepr c (by simp))
      rw [if_neg (by simpa [closesQuote] using hc)]
      exact .inl rfl
  · rw [splitSingleQuoted_eq_none (by simp [hb, hp])]
    exact .inl rfl

end RainCall
