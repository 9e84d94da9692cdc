import RainCall.Foundation.Run
import RainCall.Gcra.Basic

/-!
# The rate bound of the GCRA command

No `long long` computation of the command overflows, whatever its arguments and the stored arrival
time. The admitted requests of a run conform to the virtual schedule with tolerance
`(max_burst + 1) * T`: a key that has expired has an arrival time in the past, so that losing it
changes nothing. The bound on what is admitted in a window follows.
-/

namespace RainCall

open Option
open List hiding filter_filter

variable {fp : DoubleRounding} {db : Option GcraKey}

/-! ### `long long` and `double` -/

lemma longLong_eq {v : ℤ} (hge : -(2 ^ 63) ≤ v) (hlt : v < 2 ^ 63) : longLong v = some v :=
  if_pos ⟨hge, hlt⟩

lemma doubleToLongLong_intCast (z : ℤ) : doubleToLongLong z = longLong z := by
  rw [doubleToLongLong, Int.ceil_intCast, Int.floor_intCast, ite_self]

namespace DoubleRounding

lemma round_zero (fp : DoubleRounding) : fp.round 0 = 0 := by
  have h := fp.round_neg 0
  rw [neg_zero] at h
  linarith

lemma round_nonneg (fp : DoubleRounding) {x : ℚ} (hx : 0 ≤ x) : 0 ≤ fp.round x := by
  have h := fp.mono hx
  rwa [fp.round_zero] at h

lemma round_le_two_pow (fp : DoubleRounding) {k : ℕ} (hk : k ≤ 63) {x : ℚ} (hx : x ≤ 2 ^ k) :
    fp.round x ≤ 2 ^ k := by
  have h := fp.mono hx
  rwa [fp.round_two_pow k hk] at h

lemma abs_round_le_two_pow (fp : DoubleRounding) {k : ℕ} (hk : k ≤ 63) {x : ℚ}
    (hx : |x| ≤ 2 ^ k) : |fp.round x| ≤ 2 ^ k := by
  rw [abs_le] at hx ⊢
  refine ⟨?_, fp.round_le_two_pow hk hx.2⟩
  have h := fp.round_le_two_pow hk (x := -x) (by linarith)
  rw [fp.round_neg] at h
  linarith

end DoubleRounding

/-- Every `long long` number of microseconds has a number of seconds. -/
lemma exists_ceilSeconds (fp : DoubleRounding) (us : ℤ) (hge : -(2 ^ 63) ≤ us) (hlt : us < 2 ^ 63) :
    ∃ s, ceilSeconds fp us = some s := by
  have hus : |(us : ℚ)| ≤ 2 ^ 63 := by
    rw [abs_le]
    exact ⟨by exact_mod_cast hge, by exact_mod_cast hlt.le⟩
  have hround := fp.abs_round_le_two_pow le_rfl hus
  have hdiv : |fp.round us / 1000000| ≤ 2 ^ 44 := by
    rw [abs_div, abs_of_pos (by norm_num : (0 : ℚ) < 1000000), div_le_iff₀ (by norm_num)]
    exact hround.trans (by norm_num)
  have hres := abs_le.mp (fp.abs_round_le_two_pow (by norm_num) hdiv)
  have hceil : ⌈fp.round (fp.round us / 1000000)⌉ ≤ 2 ^ 44 := by
    rw [Int.ceil_le]
    exact_mod_cast hres.2
  have hceil' : -(2 ^ 44) ≤ ⌈fp.round (fp.round us / 1000000)⌉ := by
    have h := hres.1.trans (Int.le_ceil _)
    exact_mod_cast h
  refine ⟨⌈fp.round (fp.round us / 1000000)⌉, ?_⟩
  rw [ceilSeconds, doubleToLongLong_intCast]
  exact longLong_eq (by omega) (by omega)

variable {args : GcraArgs} {emission now tat : ℤ}

/-- The emission interval of checked arguments is a positive `long long`. -/
lemma exists_emissionInterval (fp : DoubleRounding) (htokens : 1 ≤ args.tokensPerPeriod)
    (hpos : 0 < args.period) (hlt : args.period < 10 ^ 12) :
    ∃ T, emissionInterval fp args = some T ∧ 1 ≤ T ∧ T < 2 ^ 63 := by
  have htok : (1 : ℚ) ≤ fp.round args.tokensPerPeriod := by
    have h := fp.mono (show (2 : ℚ) ^ 0 ≤ args.tokensPerPeriod by exact_mod_cast htokens)
    rwa [fp.round_two_pow 0 (by norm_num), pow_zero] at h
  have hperiod0 : 0 ≤ fp.round (args.period * 1000000) := fp.round_nonneg (by linarith)
  have hperiod : fp.round (args.period * 1000000) ≤ 2 ^ 60 :=
    fp.round_le_two_pow (by norm_num) (by norm_num at hlt ⊢; linarith)
  set per := fp.round (fp.round (args.period * 1000000) / fp.round args.tokensPerPeriod) with hdef
  have hper0 : 0 ≤ per := fp.round_nonneg (div_nonneg hperiod0 (by linarith))
  have hper : per ≤ 2 ^ 60 :=
    fp.round_le_two_pow (by norm_num) ((div_le_self hperiod0 htok).trans hperiod)
  have hsum0 := fp.round_nonneg (add_nonneg hper0 (by norm_num : (0 : ℚ) ≤ 1 / 2))
  have hsum := fp.round_le_two_pow (by norm_num)
    (show _ + 1 / 2 ≤ (2 : ℚ) ^ 61 from (add_le_add_left hper _).trans (by norm_num))
  have hfloor0 := Int.floor_nonneg.mpr hsum0
  have hfloor := Int.floor_le_floor hsum
  have hval : (⌊(2 : ℚ) ^ 61⌋ : ℤ) = 2 ^ 61 := by norm_num
  have hll : emissionInterval fp args =
      some (if ⌊fp.round (per + 1 / 2)⌋ = 0 then 1 else ⌊fp.round (per + 1 / 2)⌋) := by
    unfold emissionInterval doubleToLongLong
    simp only [← hdef, if_neg (not_lt.mpr hsum0)]
    rw [longLong_eq (by omega) (by omega)]
    rfl
  refine ⟨_, hll, ?_⟩
  split_ifs <;> omega

/-! ### One call -/

/-- How a request is answered: with an error or as limited, which leaves the key `db` alone, or
admitted, which stores the arrival time moved by the cost of the tokens. -/
inductive GcraOutcome (db : Option GcraKey) (now tat emission maxBurst numTokens : ℤ) :
    Option GcraKey × GcraReply → Prop
  | error (msg : String) : GcraOutcome db now tat emission maxBurst numTokens (db, .error msg)
  | limited (remaining retryAfter resetAfter : ℤ) :
    GcraOutcome db now tat emission maxBurst numTokens
      (db, .result true maxBurst remaining retryAfter resetAfter)
  | admitted (newTat remaining resetAfter : ℤ) (hnew : newTat = max now tat + emission * numTokens)
      (hallow : newTat ≤ now + emission * maxBurst) (hlt : newTat < 2 ^ 63) :
    GcraOutcome db now tat emission maxBurst numTokens
      (some ⟨.gcra newTat, newTat / 1000⟩, .result false maxBurst remaining (-1) resetAfter)

variable {maxBurst : ℤ}

lemma exists_gcraFinish (fp : DoubleRounding) (db : Option GcraKey) (limited : Bool)
    {variance : ℤ} (ttl retryAfter : ℤ) (hemission : 1 ≤ emission)
    (hemission' : emission < 2 ^ 63) (httl : -(2 ^ 63) ≤ ttl) (httl' : ttl < 2 ^ 63)
    (hnext : -(2 ^ 63) ≤ variance - ttl) (hnext' : variance - ttl < 2 ^ 63) :
    ∃ remaining resetAfter, gcraFinish fp db limited maxBurst emission variance ttl retryAfter =
      some (db, .result limited maxBurst remaining retryAfter resetAfter) := by
  obtain ⟨s, hs⟩ := exists_ceilSeconds fp ttl httl httl'
  refine ⟨if variance - ttl > -emission then (variance - ttl).tdiv emission else 0, s, ?_⟩
  rw [gcraFinish, longLong_eq hnext hnext', longLong_eq (by omega) (by omega), hs]
  rfl

/-- The decision overflows nowhere: the difference to the allowed time is below the variance, and a
request limited on an arrival time in the past costs more than the variance. -/
lemma gcraDecide_outcome (fp : DoubleRounding) (db : Option GcraKey) {numTokens : ℤ}
    (hnow : 0 ≤ now) (htat : 0 ≤ tat) (htat' : tat < 2 ^ 63) (hemission : 1 ≤ emission)
    (hemission' : emission < 2 ^ 63) (hvar : 0 < emission * maxBurst)
    (hvar' : emission * maxBurst < 2 ^ 63) (hinc : 0 < emission * numTokens)
    (hnew : max now tat + emission * numTokens < 2 ^ 63) :
    ∃ r, gcraDecide fp db now tat emission maxBurst (emission * maxBurst) (emission * numTokens)
        (max now tat + emission * numTokens) = some r ∧
      GcraOutcome db now tat emission maxBurst numTokens r := by
  have hle1 : now ≤ max now tat := le_max_left _ _
  have hle2 : tat ≤ max now tat := le_max_right _ _
  have hmax : max now tat = now ∨ max now tat = tat := max_choice now tat
  generalize hvariance : emission * maxBurst = variance at *
  generalize hincrement : emission * numTokens = increment at *
  generalize hbase : max now tat = base at *
  have hdec : gcraDecide fp db now tat emission maxBurst variance increment (base + increment) =
      if now - (base + increment - variance) < 0 then
        (if increment ≤ variance then
          (longLong (-(now - (base + increment - variance)))).bind (ceilSeconds fp)
          else some (-1)).bind fun retryAfter =>
          gcraFinish fp db true maxBurst emission variance (tat - now) retryAfter
      else gcraFinish fp (some ⟨.gcra (base + increment), (base + increment).tdiv 1000⟩) false
        maxBurst emission variance (base + increment - now) (-1) := by
    rw [gcraDecide, longLong_eq (by omega) (by omega)]
    simp only [bind_eq_bind, bind_some]
    rw [longLong_eq (by omega) (by omega)]
    simp only [bind_some]
    rw [longLong_eq (v := tat - now) (by omega) (by omega),
      longLong_eq (v := base + increment - now) (by omega) (by omega)]
    split_ifs <;> rfl
  have hnext : -(2 ^ 63) ≤ variance - (tat - now) := by omega
  rw [hdec]
  split_ifs with hdiff hretry
  · obtain ⟨s, hs⟩ := exists_ceilSeconds fp (-(now - (base + increment - variance)))
      (by omega) (by omega)
    obtain ⟨remaining, resetAfter, hfin⟩ := exists_gcraFinish fp db true (tat - now) s hemission
      hemission' (by omega) (by omega) hnext (by omega)
    rw [longLong_eq (by omega) (by omega), bind_some, hs, bind_some, hfin]
    exact ⟨_, rfl, .limited _ _ _⟩
  · obtain ⟨remaining, resetAfter, hfin⟩ := exists_gcraFinish fp db true (tat - now) (-1) hemission
      hemission' (by omega) (by omega) hnext (by omega)
    rw [bind_some, hfin]
    exact ⟨_, rfl, .limited _ _ _⟩
  · rw [Int.tdiv_eq_ediv_of_nonneg (by omega)]
    obtain ⟨remaining, resetAfter, hfin⟩ := exists_gcraFinish fp
      (some ⟨.gcra (base + increment), (base + increment) / 1000⟩) false
        (base + increment - now) (-1)
      hemission hemission' (by omega) (by omega)
      (show -(2 ^ 63) ≤ variance - (base + increment - now) by omega) (by omega)
    rw [hfin]
    exact ⟨_, rfl, .admitted _ _ _ (by rw [hbase, hincrement]) (by rw [hvariance]; omega) hnew⟩

/-- The division check of the source is the one against an overflow of the product. -/
lemma gt_longLongMax_tdiv_iff {a n : ℤ} (hn : 1 ≤ n) : a > longLongMax.tdiv n ↔
    ¬ a * n < 2 ^ 63 := by
  rw [Int.tdiv_eq_ediv_of_nonneg (by decide), gt_iff_lt,
    Int.ediv_lt_iff_lt_mul (by omega), longLongMax]
  omega

lemma gcraLimit_outcome (fp : DoubleRounding) (db : Option GcraKey) {numTokens : ℤ}
    (hnow : 0 ≤ now) (hnow' : now < 2 ^ 63) (htat : 0 ≤ tat) (htat' : tat < 2 ^ 63)
    (hemission : 1 ≤ emission) (hemission' : emission < 2 ^ 63) (hburst : 1 ≤ maxBurst)
    (htokens : 1 ≤ numTokens) :
    ∃ r, gcraLimit fp db now tat emission maxBurst numTokens = some r ∧
      GcraOutcome db now tat emission maxBurst numTokens r := by
  unfold gcraLimit
  by_cases hinc' : emission * numTokens < 2 ^ 63
  · by_cases hvar' : emission * maxBurst < 2 ^ 63
    · have hinc : 0 < emission * numTokens := Int.mul_pos (by omega) (by omega)
      have hvar : 0 < emission * maxBurst := Int.mul_pos (by omega) (by omega)
      have hbase : (if now > tat then now else tat) = max now tat := by
        split_ifs <;> omega
      rw [if_neg (by rw [gt_longLongMax_tdiv_iff htokens]; exact not_not.mpr hinc'),
        if_neg (by rw [gt_longLongMax_tdiv_iff hburst]; exact not_not.mpr hvar'),
        longLong_eq (by omega) hvar', longLong_eq (by omega) hinc', hbase]
      simp only [bind_eq_bind, bind_some]
      rw [longLong_eq (by unfold longLongMax; omega)
        (by unfold longLongMax; omega), bind_some]
      split_ifs with hroom
      · exact ⟨_, rfl, .error _⟩
      · have hnew : max now tat + emission * numTokens < 2 ^ 63 := by
          unfold longLongMax at hroom
          omega
        rw [longLong_eq (by omega) hnew, bind_some]
        exact gcraDecide_outcome fp db hnow htat htat' hemission hemission' hvar hvar' hinc hnew
    · rw [if_neg (by rw [gt_longLongMax_tdiv_iff htokens]; exact not_not.mpr hinc'),
        if_pos (by rw [gt_longLongMax_tdiv_iff hburst]; exact hvar')]
      exact ⟨_, rfl, .error _⟩
  · rw [if_pos (by rw [gt_longLongMax_tdiv_iff htokens]; exact hinc')]
    exact ⟨_, rfl, .error _⟩

/-- The stored arrival time is a `long long` and not negative. -/
def GcraDbValid (db : Option GcraKey) : Prop :=
  ∀ kv ∈ db, ∀ tat, kv.value = .gcra tat → 0 ≤ tat ∧ tat < 2 ^ 63

/-- A command time whose microseconds are a 64-bit number. -/
def IsCommandTime (snapshot : ℤ) : Prop := 0 ≤ snapshot ∧ snapshot * 1000 < 2 ^ 63

lemma GcraDbValid.lookupKeyWrite (h : GcraDbValid db) (snapshot : ℤ) :
    GcraDbValid (lookupKeyWrite db snapshot) :=
  fun kv hkv => h kv ((mem_filter_iff.mp hkv).1)

/-- The time from which the cost of a request at `snapshot` is counted. -/
def arrivalBase (db : Option GcraKey) (snapshot : ℤ) : ℤ :=
  match (lookupKeyWrite db snapshot).map GcraKey.value with
  | some (.gcra tat) => max (snapshot * 1000) tat
  | _ => snapshot * 1000

lemma gcraLoadTat_cases (h : GcraDbValid db) (hnow : 0 ≤ now) (hnow' : now < 2 ^ 63) :
    gcraLoadTat db now = some none ∨
      ∃ tat, gcraLoadTat db now = some (some tat) ∧ 0 ≤ tat ∧ tat < 2 ^ 63 ∧
        (db.map GcraKey.value = none ∧ tat = now ∨ db.map GcraKey.value = some (.gcra tat)) := by
  rcases db with _ | ⟨value, expire⟩
  · exact .inr ⟨now, rfl, hnow, hnow', .inl ⟨rfl, rfl⟩⟩
  · cases value with
    | other => exact .inl rfl
    | gcra tat =>
      obtain ⟨h0, h1⟩ := h _ rfl tat rfl
      exact .inr ⟨tat, if_neg (not_lt.mpr h0), h0, h1, .inr rfl⟩

/-- What a call does to the key. -/
inductive GcraStep (fp : DoubleRounding) (db : Option GcraKey) (snapshot : ℤ) (args : GcraArgs) :
    Option GcraKey × GcraReply → Prop
  | rejected (msg : String) (db' : Option GcraKey)
      (hdb : gcraArgsError args ≠ none ∧ db' = db ∨
        gcraArgsError args = none ∧ db' = lookupKeyWrite db snapshot) :
    GcraStep fp db snapshot args (db', .error msg)
  | limited (maxBurst remaining retryAfter resetAfter : ℤ) (hargs : gcraArgsError args = none) :
    GcraStep fp db snapshot args
      (lookupKeyWrite db snapshot, .result true maxBurst remaining retryAfter resetAfter)
  | admitted (T newTat maxBurst remaining resetAfter : ℤ) (hT : emissionInterval fp args = some T)
      (hT₀ : 0 < T) (hnew : newTat = arrivalBase db snapshot + T * args.numTokens)
      (hallow : newTat ≤ snapshot * 1000 + T * (args.maxBurst + 1)) (htokens : 1 ≤ args.numTokens)
      (hlt : newTat < 2 ^ 63) (hargs : gcraArgsError args = none)
      (hvalue : (lookupKeyWrite db snapshot).map GcraKey.value ≠ some .other) :
    GcraStep fp db snapshot args
      (some ⟨.gcra newTat, newTat / 1000⟩, .result false maxBurst remaining (-1) resetAfter)

/-- The errors of the argument checks. -/
lemma gcraArgsError_eq_none (h : gcraArgsError args = none) :
    0 ≤ args.maxBurst ∧ 1 ≤ args.tokensPerPeriod ∧ 0 < args.period ∧ args.period < 10 ^ 12 ∧
      1 ≤ args.numTokens := by
  unfold gcraArgsError at h
  split_ifs at h with h1 h2 h3 h4
  rw [not_or, not_le, not_le] at h3
  exact ⟨by omega, by omega, h3.1, h3.2, by omega⟩

/-- The burst is one more, except at the largest number. -/
lemma incrBurst_cases (h : 0 ≤ maxBurst) :
    ∃ mb, incrBurst maxBurst = some mb ∧ 1 ≤ mb ∧ mb ≤ maxBurst + 1 := by
  unfold incrBurst longLongMax
  split_ifs with hmax
  · exact ⟨_, longLong_eq (by omega) (by omega), by omega, le_rfl⟩
  · exact ⟨_, rfl, by omega, by omega⟩

/-- **No call overflows**, and a call rejects, limits or admits. -/
lemma gcraCommand_step (fp : DoubleRounding) (hdb : GcraDbValid db) {snapshot : ℤ}
    (htime : IsCommandTime snapshot) (args : GcraArgs) :
    ∃ r, gcraCommand fp db snapshot args = some r ∧ GcraStep fp db snapshot args r := by
  unfold gcraCommand
  rcases herr : gcraArgsError args with _ | msg
  · obtain ⟨hburst, htpp, hpos, hlt, htokens⟩ := gcraArgsError_eq_none herr
    obtain ⟨T, hT, hT1, hT2⟩ := exists_emissionInterval fp htpp hpos hlt
    obtain ⟨mb, hmb, hmb1, hmb2⟩ := incrBurst_cases hburst
    have hnow : 0 ≤ snapshot * 1000 := Int.mul_nonneg htime.1 (by decide)
    simp only [hmb, longLong_eq (by omega) htime.2, bind_eq_bind, bind_some]
    rcases gcraLoadTat_cases (hdb.lookupKeyWrite snapshot) hnow htime.2 with
      hnone | ⟨tat, htat, htat0, htat1, hval⟩
    · rw [hnone]
      exact ⟨_, rfl, .rejected _ _ (.inr ⟨herr, rfl⟩)⟩
    · rw [htat]
      simp only [hT]
      have hbase : max (snapshot * 1000) tat = arrivalBase db snapshot := by
        unfold arrivalBase
        rcases hval with ⟨hval, rfl⟩ | hval
        · rw [hval, max_self]
        · rw [hval]
      obtain ⟨r, hr, hout⟩ := gcraLimit_outcome fp (lookupKeyWrite db snapshot) hnow htime.2 htat0
        htat1 hT1 hT2 hmb1 htokens
      refine ⟨r, hr, ?_⟩
      cases hout with
      | error msg => exact .rejected _ _ (.inr ⟨herr, rfl⟩)
      | limited remaining retryAfter resetAfter => exact .limited _ _ _ _ herr
      | admitted newTat remaining resetAfter hnew hallow hlt =>
        refine .admitted T newTat _ _ _ hT (by omega) (hbase ▸ hnew) (hallow.trans ?_) htokens hlt
          herr ?_
        · exact add_le_add_right (mul_le_mul_of_nonneg_left hmb2 (by omega)) _
        · rcases hval with ⟨hval, -⟩ | hval <;> simp [hval]
  · exact ⟨_, rfl, .rejected _ _ (.inl ⟨by simp [herr], rfl⟩)⟩

/-! ### Runs -/

/-- An expired key is gone at all later times. -/
lemma lookupKeyWrite_lookupKeyWrite (db : Option GcraKey) {s s' : ℤ} (h : s ≤ s') :
    lookupKeyWrite (lookupKeyWrite db s) s' = lookupKeyWrite db s' := by
  unfold lookupKeyWrite keyIsExpired
  rw [filter_filter]
  congr 1
  funext kv
  simp only [decide_not, Bool.decide_eq_true]
  rw [Bool.eq_iff_iff]
  simp only [Bool.and_eq_true, Bool.not_eq_true', decide_eq_false_iff_not]
  omega

lemma arrivalBase_lookupKeyWrite (db : Option GcraKey) {s s' : ℤ} (h : s ≤ s') :
    arrivalBase (lookupKeyWrite db s) s' = arrivalBase db s' := by
  rw [arrivalBase, lookupKeyWrite_lookupKeyWrite db h]
  rfl

/-- A stored arrival time counts at every later time: when the key has expired, it has passed. -/
lemma le_arrivalBase_stored (newTat s : ℤ) :
    newTat ≤ arrivalBase (some ⟨.gcra newTat, newTat / 1000⟩) s := by
  by_cases hexp : keyIsExpired ⟨.gcra newTat, newTat / 1000⟩ s = true
  · have hlook : lookupKeyWrite (some ⟨.gcra newTat, newTat / 1000⟩) s = none := by
      simp [lookupKeyWrite, hexp]
    rw [arrivalBase, hlook]
    simp only [keyIsExpired, decide_eq_true_iff] at hexp
    simp only [Option.map_none]
    omega
  · have hlook : lookupKeyWrite (some ⟨.gcra newTat, newTat / 1000⟩) s =
        some ⟨.gcra newTat, newTat / 1000⟩ := by
      simp [lookupKeyWrite, hexp]
    rw [arrivalBase, hlook]
    exact le_max_right _ _

lemma le_arrivalBase (db : Option GcraKey) (s : ℤ) : s * 1000 ≤ arrivalBase db s := by
  unfold arrivalBase
  split
  · exact le_max_left _ _
  · exact le_rfl

/-- The commands of a history are on one key with a fixed burst and emission interval, at
non-decreasing times. -/
structure GcraHistory (fp : DoubleRounding) (maxBurst T : ℤ) (calls : List GcraCall) : Prop where
  time : ∀ call ∈ calls, IsCommandTime call.snapshot
  maxBurst : ∀ call ∈ calls, call.args.maxBurst = maxBurst
  emission : ∀ call ∈ calls, emissionInterval fp call.args = some T
  sorted : (calls.map GcraCall.snapshot).Pairwise (· ≤ ·)

section

variable {T b : ℤ} {call : GcraCall} {calls : List GcraCall} {reply : GcraReply}
  {replies : List GcraReply}

lemma GcraHistory.tail (h : GcraHistory fp maxBurst T (call :: calls)) :
    GcraHistory fp maxBurst T calls where
  time c hc := h.time c (mem_cons_of_mem _ hc)
  maxBurst c hc := h.maxBurst c (mem_cons_of_mem _ hc)
  emission c hc := h.emission c (mem_cons_of_mem _ hc)
  sorted := (pairwise_cons.mp h.sorted).2

lemma GcraHistory.le_snapshot (h : GcraHistory fp maxBurst T (call :: calls)) {c : GcraCall}
    (hc : c ∈ calls) : call.snapshot ≤ c.snapshot :=
  (pairwise_cons.mp h.sorted).1 _ (mem_map_of_mem hc)

/-- The admitted requests with what their tokens cost. -/
def gcraCosts (T : ℤ) (calls : List GcraCall) (replies : List GcraReply) : List (ℤ × ℤ) :=
  (gcraAdmitted calls replies).map fun e => (e.1, e.2 * T)

lemma gcraCosts_cons_of_not_admitted (h : reply.admitted = false) :
    gcraCosts T (call :: calls) (reply :: replies) = gcraCosts T calls replies := by
  rw [gcraCosts, gcraAdmitted, zip_cons_cons, filter_cons_of_neg (by simp [h])]
  rfl

lemma gcraCosts_cons_of_admitted (h : reply.admitted = true) :
    gcraCosts T (call :: calls) (reply :: replies) =
      (call.snapshot * 1000, call.args.numTokens * T) :: gcraCosts T calls replies := by
  rw [gcraCosts, gcraAdmitted, zip_cons_cons, filter_cons_of_pos (by simp [h])]
  rfl

/-- The admitted requests of a history conform to the virtual schedule. The induction is on the
calls; the bound `b` on the arrival time moves with each admitted request. -/
lemma gcraRun_conforming (hdb : GcraDbValid db) (h : GcraHistory fp maxBurst T calls)
    (hb : ∀ call ∈ calls, b ≤ arrivalBase db call.snapshot) :
    ∃ replies, gcraRun fp db calls = some replies ∧
      Conforming (T * (maxBurst + 1)) b (gcraCosts T calls replies) := by
  induction calls generalizing db b with
  | nil => exact ⟨[], rfl, trivial⟩
  | cons call calls ih =>
    obtain ⟨r, hr, hstep⟩ := gcraCommand_step fp hdb (h.time call mem_cons_self) call.args
    have hrun : ∀ replies, gcraRun fp r.1 calls = some replies →
        gcraRun fp db (call :: calls) = some (r.2 :: replies) := by
      intro replies hrest
      rw [gcraRun, hr]
      simp only [bind_eq_bind, bind_some, hrest]
      rfl
    have htail : ∀ c ∈ calls, b ≤ arrivalBase db c.snapshot := fun c hc =>
      hb c (mem_cons_of_mem _ hc)
    -- a call that is not admitted leaves the bound where it was
    have hsame : r.2.admitted = false → GcraDbValid r.1 →
        (∀ c ∈ calls, b ≤ arrivalBase r.1 c.snapshot) →
        ∃ replies, gcraRun fp db (call :: calls) = some replies ∧
          Conforming (T * (maxBurst + 1)) b (gcraCosts T (call :: calls) replies) := by
      intro hadm hvalid hbase
      obtain ⟨replies, hrest, hconf⟩ := ih hvalid h.tail hbase
      refine ⟨r.2 :: replies, hrun replies hrest, ?_⟩
      rw [gcraCosts_cons_of_not_admitted hadm]
      exact hconf
    have hlook : ∀ c ∈ calls, b ≤ arrivalBase (lookupKeyWrite db call.snapshot) c.snapshot := by
      intro c hc
      rw [arrivalBase_lookupKeyWrite db (h.le_snapshot hc)]
      exact htail c hc
    cases hstep with
    | rejected msg db' hdb' =>
      rcases hdb' with ⟨-, rfl⟩ | ⟨-, rfl⟩
      · exact hsame rfl hdb htail
      · exact hsame rfl (hdb.lookupKeyWrite _) hlook
    | limited mb remaining retryAfter resetAfter =>
      exact hsame rfl (hdb.lookupKeyWrite _) hlook
    | admitted T' newTat mb remaining resetAfter hT hT0 hnew hallow htokens hlt =>
      obtain rfl : T = T' := some.inj ((h.emission call mem_cons_self).symm.trans hT)
      have hcost : 0 < T * call.args.numTokens := Int.mul_pos hT0 (by omega)
      have hbase := le_arrivalBase db call.snapshot
      have htime := (h.time call mem_cons_self).1
      have hvalid : GcraDbValid (some ⟨.gcra newTat, newTat / 1000⟩) := by
        rintro kv ⟨⟩ tat ⟨⟩
        omega
      obtain ⟨replies, hrest, hconf⟩ := ih hvalid h.tail
        fun c _ => le_arrivalBase_stored newTat c.snapshot
      refine ⟨_ :: replies, hrun replies hrest, ?_⟩
      have hb0 := hb call mem_cons_self
      rw [h.maxBurst call mem_cons_self] at hallow
      refine ⟨newTat, ?_, ?_, hallow, hconf⟩
      all_goals
        simp only [mul_comm call.args.numTokens]
        omega

lemma gcraCosts_sorted (h : (calls.map GcraCall.snapshot).Pairwise (· ≤ ·)) :
    ((gcraCosts T calls replies).map Prod.fst).Pairwise (· ≤ ·) := by
  have hmap : (gcraCosts T calls replies).map Prod.fst =
      (((calls.zip replies).filter fun p => p.2.admitted).map Prod.fst).map
        fun c => c.snapshot * 1000 := by
    simp only [gcraCosts, gcraAdmitted, List.map_map]
    rfl
  have hsub : (((calls.zip replies).filter fun p => p.2.admitted).map Prod.fst).Sublist calls := by
    have hzip : ((calls.zip replies).map Prod.fst).Sublist calls := by
      rw [List.zip_eq_zip_take_min, List.map_fst_zip (by simp)]
      exact List.take_sublist _ _
    exact (List.filter_sublist.map _).trans hzip
  rw [hmap, List.pairwise_map]
  rw [List.pairwise_map] at h
  exact (h.sublist hsub).imp fun hle => by omega

lemma windowCost_gcraCosts (t1 t2 : ℤ) :
    windowCost t1 t2 (gcraCosts T calls replies) =
      windowCost t1 t2 (gcraAdmitted calls replies) * T := by
  rw [windowCost, gcraCosts, List.filter_map, List.map_map, windowCost, ← List.sum_map_mul_right]
  rfl

end

/-- **The rate bound of GCRA.**  In every history of commands on one key, from any stored arrival
time, the tokens admitted in a window `[t₁, t₂]` cost at most `(max_burst + 1) * T` and the length
of the window; a limited request leaves the key it looked up unchanged; and no call at any arguments
overflows a `long long`. -/
theorem gcra_rate_bound (fp : DoubleRounding) :
    (∀ (db : Option GcraKey) (maxBurst T : ℤ) (calls : List GcraCall), GcraDbValid db →
      0 ≤ maxBurst → 0 < T → GcraHistory fp maxBurst T calls →
      ∃ replies, gcraRun fp db calls = some replies ∧ ∀ t₁ t₂, t₁ ≤ t₂ →
        windowCost t₁ t₂ (gcraAdmitted calls replies) * T ≤ (maxBurst + 1) * T + (t₂ - t₁)) ∧
    (∀ (db db' : Option GcraKey) (snapshot : ℤ) (args : GcraArgs)
      (maxBurst remaining retryAfter resetAfter : ℤ), GcraDbValid db → IsCommandTime snapshot →
      gcraCommand fp db snapshot args =
        some (db', .result true maxBurst remaining retryAfter resetAfter) →
      db' = lookupKeyWrite db snapshot) ∧
    (∀ (db : Option GcraKey) (snapshot : ℤ) (args : GcraArgs), GcraDbValid db →
      IsCommandTime snapshot → gcraCommand fp db snapshot args ≠ none) := by
  refine ⟨fun db maxBurst T calls hdb hburst hT h => ?_,
    fun db db' snapshot args _ _ _ _ hdb htime hcall => ?_, fun db snapshot args hdb htime => ?_⟩
  · have hpos : ∀ call ∈ calls, 0 ≤ arrivalBase db call.snapshot := fun call hcall =>
      (Int.mul_nonneg (h.time call hcall).1 (by decide)).trans (le_arrivalBase db call.snapshot)
    obtain ⟨replies, hrun, hconf⟩ := gcraRun_conforming hdb h hpos
    refine ⟨replies, hrun, fun t₁ t₂ ht => ?_⟩
    have htol : 0 ≤ T * (maxBurst + 1) := Int.mul_nonneg hT.le (by omega)
    have hbound := hconf.windowCost_le (gcraCosts_sorted h.sorted) htol ht
    rwa [windowCost_gcraCosts, mul_comm T] at hbound
  · obtain ⟨r, hr, hstep⟩ := gcraCommand_step fp hdb htime args
    obtain rfl := Option.some.inj (hr.symm.trans hcall)
    cases hstep
    rfl
  · obtain ⟨r, hr, -⟩ := gcraCommand_step fp hdb htime args
    rw [hr]
    exact Option.some_ne_none r

/-- Exact arithmetic is a rounding. -/
def DoubleRounding.exact : DoubleRounding := ⟨id, monotone_id, fun _ => rfl, fun _ _ => rfl⟩

/-- Two tokens at once, one refused in the same millisecond, and two more after the key has expired:
with one token in 1.5 ms and a burst of one more. -/
theorem gcra_rate_bound_expired_key :
    ∃ replies, gcraRun .exact none [⟨1000, 1, 2, 3 / 1000, 2⟩, ⟨1000, 1, 2, 3 / 1000, 1⟩,
        ⟨1004, 1, 2, 3 / 1000, 2⟩] = some replies ∧
      windowCost 1000000 1004000 (gcraAdmitted [⟨1000, 1, 2, 3 / 1000, 2⟩,
        ⟨1000, 1, 2, 3 / 1000, 1⟩, ⟨1004, 1, 2, 3 / 1000, 2⟩] replies) * 1500 ≤ 2 *
          1500 + 4000 := by
  obtain ⟨replies, hrun, hbound⟩ := (gcra_rate_bound .exact).1 none 1 1500
    [⟨1000, 1, 2, 3 / 1000, 2⟩, ⟨1000, 1, 2, 3 / 1000, 1⟩, ⟨1004, 1, 2, 3 / 1000, 2⟩]
    (by rintro kv ⟨⟩) (by decide) (by decide)
    ⟨by simp [IsCommandTime], by simp, by simp; decide +kernel, by simp⟩
  exact ⟨replies, hrun, hbound 1000000 1004000 (by decide)⟩

/-! ### Replication and the expire cycle -/

section Replication

variable {looked : Option GcraKey} {timed : List (ℤ × GcraReplicated)}

/-- A lookup keeps the key or deletes it. -/
lemma lookupKeyWrite_eq_or (db : Option GcraKey) (snapshot : ℤ) :
    lookupKeyWrite db snapshot = db ∨ lookupKeyWrite db snapshot = none := by
  unfold lookupKeyWrite
  cases db with
  | none => exact .inl rfl
  | some kv =>
    rw [Option.filter_some]
    split_ifs
    · exact .inl rfl
    · exact .inr rfl

/-- The replica follows a deletion that was propagated. -/
lemma runSteps_propagateDeletion (hlooked : looked = db ∨ looked = none)
    (htimed : timed.map Prod.snd = propagateDeletion db looked) :
    runSteps gcraReplicaStep db timed = some looked := by
  unfold propagateDeletion at htimed
  split_ifs at htimed with heq
  · rw [List.map_eq_nil_iff.mp htimed, runSteps_nil, heq]
  · obtain ⟨op, ops, rfl, hop, hops⟩ := List.map_eq_cons_iff.mp htimed
    obtain rfl := List.map_eq_nil_iff.mp hops
    obtain ⟨t, cmd⟩ := op
    obtain rfl : cmd = .del := hop
    rw [hlooked.resolve_left heq]
    rfl

/-- The replica follows a deletion and then one more command. -/
lemma runSteps_propagateDeletion_append (hlooked : looked = db ∨ looked = none)
    {cmd : GcraReplicated} {db' : Option GcraKey}
    (hcmd : ∀ t, gcraReplicaStep looked (t, cmd) = some db')
    (htimed : timed.map Prod.snd = propagateDeletion db looked ++ [cmd]) :
    runSteps gcraReplicaStep db timed = some db' := by
  obtain ⟨dels, rest, rfl, hdels, hrest⟩ := List.map_eq_append_iff.mp htimed
  obtain ⟨op, ops, rfl, hop, hops⟩ := List.map_eq_cons_iff.mp hrest
  obtain rfl := List.map_eq_nil_iff.mp hops
  obtain ⟨t, cmd⟩ := op
  obtain rfl : cmd = _ := hop
  rw [runSteps_append, runSteps_propagateDeletion hlooked hdels, bind_some, runSteps_cons, hcmd t]
  rfl

/-- The command succeeds at a replica whose key is not of another type, and stores the same key. -/
lemma gcraReplicaStep_gcraSetValue (hvalue : looked.map GcraKey.value ≠ some .other) {tat : ℤ}
    (htat : 0 ≤ tat) (t : ℤ) :
    gcraReplicaStep looked (t, .gcraSetValue tat) = some (some ⟨.gcra tat, tat / 1000⟩) := by
  simp [gcraReplicaStep, gcraSetValueCommand, hvalue, not_lt.mpr htat,
    Int.tdiv_eq_ediv_of_nonneg htat]

/-- One operation of the master, and what the replica makes of the commands it propagates. -/
lemma gcraPropagate_step (fp : DoubleRounding) (hdb : GcraDbValid db) {op : ℤ × GcraMasterOp}
    (htime : IsCommandTime op.1) :
    ∃ db' commands, gcraPropagate fp db op = some (db', commands) ∧ GcraDbValid db' ∧
      ∀ timed : List (ℤ × GcraReplicated), timed.map Prod.snd = commands →
        runSteps gcraReplicaStep db timed = some db' := by
  obtain ⟨snapshot, op⟩ := op
  change IsCommandTime snapshot at htime
  have hlook := lookupKeyWrite_eq_or db snapshot
  have hother (expire : ℤ) : GcraDbValid (some ⟨.other, expire⟩) := by
    rintro kv ⟨⟩ tat ⟨⟩
  cases op with
  | gcra args =>
    obtain ⟨r, hr, hstep⟩ := gcraCommand_step fp hdb htime args
    simp only [gcraPropagate, hr]
    cases hstep with
    | rejected msg db' hdb' =>
      rcases hdb' with ⟨hargs, rfl⟩ | ⟨hargs, rfl⟩
      · rw [if_neg hargs]
        exact ⟨_, _, rfl, hdb, fun _ => runSteps_propagateDeletion (.inl rfl)⟩
      · rw [if_pos hargs]
        exact ⟨_, _, rfl, hdb.lookupKeyWrite _, fun _ => runSteps_propagateDeletion hlook⟩
    | limited _ _ _ _ hargs =>
      rw [if_pos hargs]
      exact ⟨_, _, rfl, hdb.lookupKeyWrite _, fun _ => runSteps_propagateDeletion hlook⟩
    | admitted T newTat _ _ _ _ hT0 hnew _ htokens hlt hargs hvalue =>
      have hcost : 0 < T * args.numTokens := Int.mul_pos hT0 (by omega)
      have hbase := le_arrivalBase db snapshot
      have hsnap := htime.1
      have htat : 0 ≤ newTat := by omega
      rw [if_pos hargs]
      refine ⟨_, _, rfl, ?_, fun _ => runSteps_propagateDeletion_append hlook
        (gcraReplicaStep_gcraSetValue hvalue htat)⟩
      rintro kv ⟨⟩ tat ⟨⟩
      exact ⟨htat, hlt⟩
  | expireCycle =>
    have hcycle : (db.bind fun kv => if kv.expire < 0 then some kv
        else activeExpireCycleTryExpire kv snapshot) = db ∨
        (db.bind fun kv => if kv.expire < 0 then some kv
          else activeExpireCycleTryExpire kv snapshot) = none := by
      cases db with
      | none => exact .inl rfl
      | some kv =>
        simp only [bind_some, activeExpireCycleTryExpire]
        split_ifs <;> simp
    refine ⟨_, _, rfl, ?_, fun _ => runSteps_propagateDeletion hcycle⟩
    rcases hcycle with heq | heq <;> rw [heq]
    · exact hdb
    · rintro kv ⟨⟩
  | set expire => exact ⟨_, _, rfl, hother expire, fun _ =>
      runSteps_propagateDeletion_append hlook fun _ => rfl⟩
  | del => exact ⟨_, _, rfl, by rintro kv ⟨⟩, fun _ => runSteps_propagateDeletion (.inr rfl)⟩

/-- **Replication of GCRA.**  Whatever a master does to the key, a replica that starts with the same
key and executes the replication stream, at any times of its own, accepts every command and has the
same arrival time and expire time in the end. -/
theorem gcra_replication (fp : DoubleRounding) {db : Option GcraKey} (hdb : GcraDbValid db)
    (ops : List (ℤ × GcraMasterOp)) (htime : ∀ op ∈ ops, IsCommandTime op.1) :
    ∃ db' stream, runSteps (gcraMasterStep fp) (db, []) ops = some (db', stream) ∧
      ∀ timed : List (ℤ × GcraReplicated), timed.map Prod.snd = stream →
        runSteps gcraReplicaStep db timed = some db' := by
  -- the replica follows the stream so far to the key of the master
  let Follows (s : Option GcraKey × List GcraReplicated) : Prop := GcraDbValid s.1 ∧
    ∀ timed : List (ℤ × GcraReplicated), timed.map Prod.snd = s.2 →
      runSteps gcraReplicaStep db timed = some s.1
  have hstart : Follows (db, []) :=
    ⟨hdb, fun timed htimed => by rw [List.map_eq_nil_iff.mp htimed]; rfl⟩
  have hstep (s : Option GcraKey × List GcraReplicated) (op : ℤ × GcraMasterOp)
      (hop : IsCommandTime op.1) (hs : Follows s) :
      ∃ s', gcraMasterStep fp s op = some s' ∧ Follows s' := by
    obtain ⟨db', commands, hstep, hvalid, hfollow⟩ := gcraPropagate_step fp hs.1 hop
    refine ⟨(db', s.2 ++ commands), by rw [gcraMasterStep, hstep]; rfl, hvalid,
      fun timed htimed => ?_⟩
    obtain ⟨before, after, rfl, hbefore, hafter⟩ := List.map_eq_append_iff.mp htimed
    rw [runSteps_append, hs.2 before hbefore]
    exact hfollow after hafter
  obtain ⟨⟨db', stream⟩, hrun, -, hreplica⟩ := runSteps_invariant Follows _ hstep hstart htime
  exact ⟨db', stream, hrun, hreplica⟩

/-- A key of another type has expired when GCRA looks it up. The replica still has it a second
later, and the deletion comes before the new value. -/
theorem gcra_replication_expired :
    ∃ db', runSteps (gcraMasterStep .exact) (none, [])
        [(1000, .set 1000), (1001, .gcra ⟨1, 2, 3 / 1000, 2⟩)] =
        some (db', [.set 1000, .del, .gcraSetValue 1004000]) ∧
      runSteps gcraReplicaStep none [(1000, .set 1000), (2001, .del),
        (2001, .gcraSetValue 1004000)] = some db' := by
  obtain ⟨db', stream, hrun, hreplica⟩ := @gcra_replication .exact none (by rintro kv ⟨⟩)
    [(1000, .set 1000), (1001, .gcra ⟨1, 2, 3 / 1000, 2⟩)] (by simp [IsCommandTime])
  have hstream := hrun.symm.trans (by decide +kernel : _ = some
    (some ⟨.gcra 1004000, 1004⟩, [.set 1000, .del, .gcraSetValue 1004000]))
  obtain ⟨rfl, rfl⟩ := Prod.mk.inj (some.inj hstream)
  exact ⟨_, hrun, hreplica _ rfl⟩

end Replication

/-- The expire cycle may delete a key in the very millisecond its expire time names, when the
arrival time is still ahead; what is lost is less than that millisecond. -/
theorem activeExpireCycleTryExpire_arrivalBase (tat s : ℤ) :
    tat ≤ arrivalBase (activeExpireCycleTryExpire ⟨.gcra tat, tat / 1000⟩ s) s + 999 := by
  unfold activeExpireCycleTryExpire
  split_ifs with hlt
  · exact (le_arrivalBase_stored tat s).trans (by omega)
  · have hnone : arrivalBase none s = s * 1000 := rfl
    simp only at hlt
    omega

end RainCall
