import RainCall.Dict.Invariant

/-!
# Resizing and rehashing keep the entries of a dict

One specification lemma for each function of `dict.c` that moves entries: it does not fail an
assertion, the result is well formed and it rearranges the entries of the dict.
-/

namespace RainCall

open DictCallback DictHt List

variable {K S V : Type*} {ty : DictType K S} {d d' : Dict S V}

/-! ## Moving the entries of one bucket -/

/-- The bucket of table 1 that receives an entry of bucket `idx` of table 0. -/
def rehashTarget (ty : DictType K S) (exp0 exp1 : Option ℕ) (idx : ℕ) (de : DictEntry S V) : ℕ :=
  if sizeExpLt exp0 exp1 then ty.bucketIdx exp1 (ty.entryKey de) else idx &&& dicthtSizeMask exp1

/-- The shortcut of a shrinking table agrees with the hash of the key. -/
lemma rehashTarget_eq {e0 e1 idx : ℕ} {de : DictEntry S V}
    (h : ty.bucketIdx (some e0) (ty.entryKey de) = idx) :
    rehashTarget ty (some e0) (some e1) idx de = ty.bucketIdx (some e1) (ty.entryKey de) := by
  by_cases hlt : e0 < e1
  · simp [rehashTarget, sizeExpLt, hlt]
  · simp only [rehashTarget, sizeExpLt, hlt, ← h]
    exact bucketIdx_and_mask ty (Nat.le_of_not_lt hlt) _

/-- The loop over a chain counts its entries out of table 0 and pushes them to table 1. -/
lemma foldl_rehashEntry (ty : DictType K S) (idx : ℕ) (c : List (DictEntry S V)) (d : Dict S V) :
    c.foldl (rehashEntry ty idx) d =
      { d with
        ht0 := { d.ht0 with used := d.ht0.used - c.length }
        ht1 := c.foldl (fun ht de =>
          ht.push (rehashTarget ty d.ht0.sizeExp d.ht1.sizeExp idx de) de) d.ht1 } := by
  induction c generalizing d with
  | nil => rfl
  | cons de c ih =>
    rw [foldl_cons, ih]
    simp only [rehashEntry, Nat.sub_sub, Nat.add_comm 1]
    rfl

lemma DictHt.WF.foldl_push {ht : DictHt S V} (h : ht.WF ty) (hexp : ht.sizeExp ≠ none)
    {f : DictEntry S V → ℕ} {c : List (DictEntry S V)}
    (hf : ∀ x ∈ c, ty.bucketIdx ht.sizeExp (ty.entryKey x) = f x) :
    (c.foldl (fun ht x => ht.push (f x) x) ht).WF ty ∧
      (c.foldl (fun ht x => ht.push (f x) x) ht).sizeExp = ht.sizeExp ∧
      (c.foldl (fun ht x => ht.push (f x) x) ht).entries.Perm (c ++ ht.entries) := by
  induction c generalizing ht with
  | nil => exact ⟨h, rfl, List.Perm.refl _⟩
  | cons x c ih =>
    obtain ⟨hwf, hperm⟩ := h.push hexp (hf x (by simp))
    obtain ⟨hwf', hexp', hperm'⟩ := ih hwf hexp fun y hy => hf y (by simp [hy])
    refine ⟨hwf', hexp', hperm'.trans ?_⟩
    exact (hperm.append_left c).trans perm_middle

/-- What `rehashEntriesInBucketAtIndex` does to the tables. -/
structure BucketMoved (d d' : Dict S V) (idx : ℕ) : Prop where
  rehashidx : d'.rehashidx = d.rehashidx
  exp0 : d'.ht0.sizeExp = d.ht0.sizeExp
  exp1 : d'.ht1.sizeExp = d.ht1.sizeExp
  moved : bucketAt d'.ht0.table idx = []
  kept : ∀ j, idx ≠ j → bucketAt d'.ht0.table j = bucketAt d.ht0.table j

lemma rehashEntriesInBucketAtIndex_spec (h : d.WF ty) (hr : dictIsRehashing d) (idx : ℕ) :
    d.Rearranges ty (rehashEntriesInBucketAtIndex ty d idx) ∧
      BucketMoved d (rehashEntriesInBucketAtIndex ty d idx) idx := by
  by_cases hi : idx < d.ht0.table.length
  · obtain ⟨h0, h1⟩ := h.allocated hr
    obtain ⟨e0, he0⟩ := Option.ne_none_iff_exists'.mp h0
    obtain ⟨e1, he1⟩ := Option.ne_none_iff_exists'.mp h1
    let c := bucketAt d.ht0.table idx
    let ht1' := c.foldl (fun ht de =>
      ht.push (rehashTarget ty d.ht0.sizeExp d.ht1.sizeExp idx de) de) d.ht1
    have hd' : rehashEntriesInBucketAtIndex ty d idx =
        { d with
          ht0 := ⟨d.ht0.sizeExp, d.ht0.used - c.length, d.ht0.table.set idx []⟩
          ht1 := ht1' } := by
      rw [rehashEntriesInBucketAtIndex, foldl_rehashEntry]
    obtain ⟨hwf1, hexp1, hperm1⟩ := h.ht1.foldl_push h1 (f := fun de =>
        rehashTarget ty d.ht0.sizeExp d.ht1.sizeExp idx de) (by
      intro x hx
      have hpl := h.ht0.placed idx x hx
      rw [he0] at hpl
      rw [he0, he1, rehashTarget_eq hpl])
    have hc : c.length ≤ d.ht0.used := by
      have := (flatten_perm_bucketAt d.ht0.table idx).length_eq
      rw [h.ht0.used, entries, this]
      simp [c]
    have hwf0 := h.ht0.setChain (c := []) hi (by simp)
      (Nat.sub_add_cancel hc)
    have hperm : (rehashEntriesInBucketAtIndex ty d idx).entries.Perm d.entries := by
      rw [hd']
      refine (List.Perm.append_left _ hperm1).trans ?_
      rw [← append_assoc]
      exact (perm_append_comm.trans (flatten_perm_bucketAt d.ht0.table idx).symm).append_right _
    have hkept : ∀ j, idx ≠ j →
        bucketAt (rehashEntriesInBucketAtIndex ty d idx).ht0.table j = bucketAt d.ht0.table j := by
      intro j hj
      rw [hd', bucketAt_set_ne hj]
    have hmoved : bucketAt (rehashEntriesInBucketAtIndex ty d idx).ht0.table idx = [] := by
      rw [hd', bucketAt_set_self hi]
    refine ⟨⟨⟨?_, ?_, ?_, ?_, ?_, ?_, ?_⟩, hperm, ?_, ?_, ?_⟩, ⟨?_, ?_, ?_, hmoved, hkept⟩⟩
    · rw [hd']; exact hwf0
    · rw [hd']; exact hwf1
    · exact (hperm.map _).nodup_iff.mpr h.nodup
    · rw [hd']; exact fun hn => absurd hr hn
    · rw [hd']; exact fun _ => ⟨h0, hexp1 ▸ h1⟩
    · rw [hd']; exact h.rehashidx_ge
    · intro i hlt
      by_cases hij : idx = i
      · rw [← hij, hmoved]
      · rw [hkept i hij]
        exact h.rehashed i (by rw [hd'] at hlt; exact hlt)
    · rw [hd']
    · rw [hd']
    · rw [hd']; exact Accounted.of_sizeExp_eq rfl rfl hexp1 Iff.rfl
    · rw [hd']
    · rw [hd']
    · rw [hd']; exact hexp1
  · -- there is no such bucket, and nothing to move
    have hnil := bucketAt_of_length_le (Nat.le_of_not_lt hi)
    have hd' : rehashEntriesInBucketAtIndex ty d idx = d := by
      simp only [rehashEntriesInBucketAtIndex, hnil, foldl_nil,
        set_eq_of_length_le (Nat.le_of_not_lt hi)]
    rw [hd']
    exact ⟨Dict.Rearranges.refl h, ⟨rfl, rfl, rfl, hnil, fun _ _ => rfl⟩⟩

/-! ## Advancing `rehashidx` and finishing a rehash -/

/-- `rehashidx` may move forward over empty buckets. -/
lemma Dict.WF.setRehashidx (h : d.WF ty) (hr : dictIsRehashing d) {r : ℤ} (h0 : 0 ≤ r)
    (hempty : ∀ i : ℕ, (i : ℤ) < r → bucketAt d.ht0.table i = []) :
    d.Rearranges ty { d with rehashidx := r } where
  wf :=
    { ht0 := h.ht0
      ht1 := h.ht1
      nodup := h.nodup
      idle := fun hn => absurd (show r = -1 from not_not.mp hn) (by omega)
      allocated := fun _ => h.allocated hr
      rehashidx_ge := by simp only; omega
      rehashed := hempty }
  perm := List.Perm.refl _
  pauserehash := rfl
  pauseAutoResize := rfl
  accounted := Accounted.of_sizeExp_eq rfl rfl rfl
    ⟨fun _ => hr, fun _ => by simp only [dictIsRehashing]; omega⟩

/-- `dictCheckRehashingCompleted` drops the first table exactly when it is empty. -/
lemma dictCheckRehashingCompleted_spec (h : d.WF ty) (hr : dictIsRehashing d) :
    (d.ht0.used ≠ 0 ∧ dictCheckRehashingCompleted d = (d, false)) ∨
      ∃ d', dictCheckRehashingCompleted d = (d', true) ∧ d.Rearranges ty d' ∧
        ¬ dictIsRehashing d' ∧ d'.ht0.sizeExp = d.ht1.sizeExp := by
  by_cases hu : d.ht0.used = 0
  · right
    have hnil : d.ht0.entries = [] := length_eq_zero_iff.mp (h.ht0.used ▸ hu)
    refine ⟨_, by simp [dictCheckRehashingCompleted, hu]; rfl, ?_, fun hn => hn rfl, rfl⟩
    have hentries : d.entries = d.ht1.entries := by simp [Dict.entries, hnil]
    refine ⟨⟨h.ht1, wf_reset, ?_, fun _ => rfl, fun hn => absurd rfl hn, le_rfl, ?_⟩,
      ?_, rfl, rfl, _, rfl, ?_, ?_⟩
    · have hnd := h.nodup
      rw [hentries] at hnd
      simpa [Dict.entries] using hnd
    · intro i hi
      simp only at hi
      omega
    · simp [Dict.entries, hnil]
    · simp [dictBuckets, dicthtSize, reset, bucketDelta]
    · rw [rehashingOverhead_of_rehashing hr, rehashingOverhead_of_not (fun hn => hn rfl)]
      simp [overheadDelta]
  · exact .inl ⟨hu, by simp [dictCheckRehashingCompleted, hu]⟩

lemma skipEmptyBuckets_spec (n : ℕ) (h : d.WF ty) (hr : dictIsRehashing d) :
    ∃ r, (skipEmptyBuckets n d).1 = { d with rehashidx := r } ∧ d.rehashidx ≤ r ∧
      (∀ i : ℕ, (i : ℤ) < r → bucketAt d.ht0.table i = []) ∧
      ((skipEmptyBuckets n d).2 = none → 0 < n → d.rehashidx < r) ∧
      (∀ m, (skipEmptyBuckets n d).2 = some m → 0 < m) := by
  induction n generalizing d with
  | zero => exact ⟨d.rehashidx, rfl, le_rfl, h.rehashed, by simp, by simp [skipEmptyBuckets]⟩
  | succ n ih =>
    have hnn := h.rehashidx_nonneg hr
    by_cases hb : bucketAt d.ht0.table d.rehashidx.toNat = []
    · have hempty : ∀ i : ℕ, (i : ℤ) < d.rehashidx + 1 → bucketAt d.ht0.table i = [] := by
        intro i hi
        by_cases hlt : (i : ℤ) < d.rehashidx
        · exact h.rehashed i hlt
        · rwa [show i = d.rehashidx.toNat by omega]
      by_cases hn : n = 0
      · refine ⟨d.rehashidx + 1, ?_, by omega, hempty, fun _ _ => by omega, ?_⟩
        all_goals simp [skipEmptyBuckets, hb, hn]
      · have hstep : skipEmptyBuckets (n + 1) d =
            skipEmptyBuckets n { d with rehashidx := d.rehashidx + 1 } := by
          simp [skipEmptyBuckets, hb, hn]
        obtain ⟨r, hr1, hr2, hr3, -, hr5⟩ :=
          ih (h.setRehashidx hr (by omega) hempty).wf (by simp only [dictIsRehashing]; omega)
        rw [hstep]
        simp only at hr2
        exact ⟨r, hr1, by omega, hr3, fun _ _ => by omega, hr5⟩
    · refine ⟨d.rehashidx, ?_, le_rfl, h.rehashed, ?_, ?_⟩
      all_goals simp [skipEmptyBuckets, hb]

/-! ## Incremental rehashing -/

/-- What a number of rehashing steps does: it rearranges the entries, and if the rehash is not
finished yet then the tables are still those of the running rehash. -/
structure Dict.Rehashes (ty : DictType K S) (d d' : Dict S V) : Prop
    extends Dict.Rearranges ty d d' where
  /-- An unfinished rehash was running before. -/
  running : dictIsRehashing d' → dictIsRehashing d
  /-- An unfinished rehash keeps table 0. -/
  exp0 : dictIsRehashing d' → d'.ht0.sizeExp = d.ht0.sizeExp
  /-- An unfinished rehash keeps table 1. -/
  exp1 : dictIsRehashing d' → d'.ht1.sizeExp = d.ht1.sizeExp
  /-- An unfinished rehash only advances. -/
  rehashidx_le : dictIsRehashing d' → d.rehashidx ≤ d'.rehashidx
  /-- A finished rehash leaves table 1 as the only table. -/
  finished : dictIsRehashing d → ¬ dictIsRehashing d' → d'.ht0.sizeExp = d.ht1.sizeExp
  /-- Nothing happens when no rehash is running. -/
  idle : ¬ dictIsRehashing d → d' = d

namespace Dict.Rehashes

variable {d'' : Dict S V}

lemma refl (h : d.WF ty) : d.Rehashes ty d :=
  ⟨Rearranges.refl h, id, fun _ => rfl, fun _ => rfl, fun _ => le_rfl, fun h h' => absurd h h',
    fun _ => rfl⟩

lemma trans (h : d.Rehashes ty d') (h' : d'.Rehashes ty d'') : d.Rehashes ty d'' where
  toRearranges := h.toRearranges.trans h'.toRearranges
  running := fun hr => h.running (h'.running hr)
  exp0 := fun hr => (h'.exp0 hr).trans (h.exp0 (h'.running hr))
  exp1 := fun hr => (h'.exp1 hr).trans (h.exp1 (h'.running hr))
  rehashidx_le := fun hr => (h.rehashidx_le (h'.running hr)).trans (h'.rehashidx_le hr)
  finished := by
    intro hr hn
    by_cases hr' : dictIsRehashing d'
    · exact (h'.finished hr' hn).trans (h.exp1 hr')
    · exact h'.idle hr' ▸ h.finished hr hr'
  idle := fun hn => by
    obtain rfl := h.idle hn
    exact h'.idle hn

/-- A finished rehash. -/
lemma of_finished (h : d.Rearranges ty d') (hr : dictIsRehashing d) (hn : ¬ dictIsRehashing d')
    (he : d'.ht0.sizeExp = d.ht1.sizeExp) : d.Rehashes ty d' :=
  ⟨h, fun _ => hr, fun hr => absurd hr hn, fun hr => absurd hr hn, fun hr => absurd hr hn,
    fun _ _ => he, fun hn' => absurd hr hn'⟩

/-- Advancing `rehashidx` over empty buckets. -/
lemma of_setRehashidx (h : d.WF ty) (hr : dictIsRehashing d) {r : ℤ} (hle : d.rehashidx ≤ r)
    (hempty : ∀ i : ℕ, (i : ℤ) < r → bucketAt d.ht0.table i = []) :
    d.Rehashes ty { d with rehashidx := r } := by
  have hnn := h.rehashidx_nonneg hr
  refine ⟨h.setRehashidx hr (hnn.trans hle) hempty, fun _ => hr, fun _ => rfl, fun _ => rfl,
    fun _ => hle, fun _ hn => absurd (show r = -1 from not_not.mp hn) (by omega),
    fun hn => absurd hr hn⟩

/-- Moving a bucket. -/
lemma of_bucketMoved (h : d.Rearranges ty d') (hr : dictIsRehashing d) {idx : ℕ}
    (hm : BucketMoved d d' idx) : d.Rehashes ty d' :=
  ⟨h, fun _ => hr, fun _ => hm.exp0, fun _ => hm.exp1, fun _ => hm.rehashidx.ge,
    fun _ hn => absurd (by rwa [dictIsRehashing, hm.rehashidx]) hn, fun hn => absurd hr hn⟩

end Dict.Rehashes

/-- The part of an iteration of `dictRehash` after the empty buckets are skipped: move the bucket at
`rehashidx` and advance. -/
lemma rehash_bucket_and_advance (h : d.WF ty) (hr : dictIsRehashing d) :
    let d' := rehashEntriesInBucketAtIndex ty d d.rehashidx.toNat
    d.Rehashes ty { d' with rehashidx := d'.rehashidx + 1 } ∧
      dictIsRehashing { d' with rehashidx := d'.rehashidx + 1 } ∧
      d'.rehashidx = d.rehashidx := by
  intro d'
  obtain ⟨hre, hm⟩ := rehashEntriesInBucketAtIndex_spec h hr d.rehashidx.toNat
  have hnn := h.rehashidx_nonneg hr
  have hr' : dictIsRehashing d' := by rwa [dictIsRehashing, hm.rehashidx]
  refine ⟨(Dict.Rehashes.of_bucketMoved hre hr hm).trans
    (Dict.Rehashes.of_setRehashidx hre.wf hr' (by simp [d']) ?_), ?_, hm.rehashidx⟩
  · intro i hi
    rw [hm.rehashidx] at hi
    by_cases hij : d.rehashidx.toNat = i
    · rw [← hij, hm.moved]
    · rw [hm.kept i hij]
      exact h.rehashed i (by omega)
  · have := hm.rehashidx
    simp only [dictIsRehashing, d'] at this ⊢
    omega

/-- The way `dictRehash` ends: by testing whether the rehash is complete. -/
lemma rehash_ends (h : d.WF ty) (hr : dictIsRehashing d) :
    ∃ d' b, some ((dictCheckRehashingCompleted d).1, !(dictCheckRehashingCompleted d).2) =
        some (d', b) ∧ d.Rehashes ty d' ∧ (b = false → ¬ dictIsRehashing d') ∧
      (b = true → d' = d ∧ d.ht0.used ≠ 0) := by
  rcases dictCheckRehashingCompleted_spec h hr with ⟨hu, hd⟩ | ⟨d', hd, hre, hn, he⟩
  · exact ⟨d, true, by simp [hd], Dict.Rehashes.refl h, by simp, fun _ => ⟨rfl, hu⟩⟩
  · exact ⟨d', false, by simp [hd], Dict.Rehashes.of_finished hre hr hn he, fun _ => hn, by simp⟩

/-- One round of the loop over a table that still has entries. -/
lemma dictRehashLoop_succ {n ev : ℕ} (hu : d.ht0.used ≠ 0)
    (hlt : d.rehashidx < dicthtSize d.ht0.sizeExp) :
    dictRehashLoop ty (n + 1) ev d =
      match skipEmptyBuckets ev d with
      | (d', none) => some (d', true)
      | (d', some ev') =>
        dictRehashLoop ty n ev'
          { rehashEntriesInBucketAtIndex ty d' d'.rehashidx.toNat with
            rehashidx := (rehashEntriesInBucketAtIndex ty d' d'.rehashidx.toNat).rehashidx + 1 } :=
  (if_neg hu).trans (if_neg (not_not.mpr hlt))

/-- The loop of `dictRehash` does not fail, rearranges the entries and makes progress. It returns
`true` only when table 0 still has entries. -/
lemma dictRehashLoop_spec (n ev : ℕ) (h : d.WF ty) (hr : dictIsRehashing d) :
    ∃ d' b, dictRehashLoop ty n ev d = some (d', b) ∧ d.Rehashes ty d' ∧
      (b = false → ¬ dictIsRehashing d') ∧
      (b = true → dictIsRehashing d' ∧ d'.ht0.used ≠ 0 ∧
        (0 < n → 0 < ev → d.rehashidx < d'.rehashidx)) := by
  induction n generalizing d ev with
  | zero =>
    obtain ⟨d', b, hd, hre, hf, ht⟩ := rehash_ends h hr
    refine ⟨d', b, by simpa [dictRehashLoop] using hd, hre, hf, fun hb => ?_⟩
    obtain ⟨rfl, hu⟩ := ht hb
    exact ⟨hr, hu, by simp⟩
  | succ n ih =>
    by_cases hu : d.ht0.used = 0
    · obtain ⟨d', b, hd, hre, hf, ht⟩ := rehash_ends h hr
      refine ⟨d', b, by simpa [dictRehashLoop, hu] using hd, hre, hf, fun hb => ?_⟩
      exact absurd hu (ht hb).2
    · have hlt := h.rehashidx_lt hu
      obtain ⟨r, hr1, hr2, hr3, hr4, hr5⟩ := skipEmptyBuckets_spec ev h hr
      have hskip := Dict.Rehashes.of_setRehashidx h hr hr2 hr3
      have hnn := h.rehashidx_nonneg hr
      have hrr : dictIsRehashing { d with rehashidx := r } := by
        simp only [dictIsRehashing]
        omega
      rw [dictRehashLoop_succ hu hlt]
      cases hs : skipEmptyBuckets ev d with
      | mk d1 m =>
        rw [hs] at hr1 hr4 hr5
        subst hr1
        cases m with
        | none => exact ⟨_, true, rfl, hskip, by simp, fun _ => ⟨hrr, hu, fun _ => hr4 rfl⟩⟩
        | some ev' =>
          obtain ⟨hmove, hr2', hidx⟩ := rehash_bucket_and_advance hskip.wf hrr
          obtain ⟨d', b, hd, hre, hf, ht⟩ := ih ev' hmove.wf hr2'
          refine ⟨d', b, hd, (hskip.trans hmove).trans hre, hf, fun hb => ?_⟩
          obtain ⟨ht1, ht2, -⟩ := ht hb
          refine ⟨ht1, ht2, fun _ _ => ?_⟩
          have := hre.rehashidx_le ht1
          simp only at this hidx
          omega

section

variable (canResize : DictResizeEnable)

lemma dictRehash_spec (n : ℕ) (h : d.WF ty) :
    ∃ d' b, dictRehash ty canResize d n = some (d', b) ∧ d.Rehashes ty d' ∧
      (b = false → rehashForbidden canResize d ∧ d' = d ∨ ¬ dictIsRehashing d') ∧
      (b = true → dictIsRehashing d' ∧ d'.ht0.used ≠ 0 ∧ (0 < n → d.rehashidx < d'.rehashidx)) := by
  by_cases hf : rehashForbidden canResize d
  · exact ⟨d, false, by simp [dictRehash, hf], Dict.Rehashes.refl h, fun _ => .inl ⟨hf, rfl⟩,
      by simp⟩
  · have hr : dictIsRehashing d := by
      by_contra hn
      exact hf (.inr (.inl hn))
    obtain ⟨d', b, hd, hre, hb, hb'⟩ := dictRehashLoop_spec n (n * 10) h hr
    refine ⟨d', b, by simpa [dictRehash, hf] using hd, hre, fun h' => .inr (hb h'), fun h' => ?_⟩
    obtain ⟨h1, h2, h3⟩ := hb' h'
    exact ⟨h1, h2, fun hn => h3 hn (by omega)⟩

lemma dictBucketRehash_spec (idx : ℕ) (h : d.WF ty) :
    d.Rehashes ty (_dictBucketRehash ty canResize d idx) := by
  unfold _dictBucketRehash
  split_ifs with hp hf
  · exact Dict.Rehashes.refl h
  · exact Dict.Rehashes.refl h
  · have hr : dictIsRehashing d := by
      by_contra hn
      exact hf (.inr (.inl hn))
    obtain ⟨hre, hm⟩ := rehashEntriesInBucketAtIndex_spec h hr idx
    have hmoved := Dict.Rehashes.of_bucketMoved hre hr hm
    have hr' : dictIsRehashing (rehashEntriesInBucketAtIndex ty d idx) := by
      rwa [dictIsRehashing, hm.rehashidx]
    rcases dictCheckRehashingCompleted_spec hre.wf hr' with ⟨-, hd⟩ | ⟨d', hd, hre', hn, he⟩
    · rw [hd]
      exact hmoved
    · rw [hd]
      exact hmoved.trans (Dict.Rehashes.of_finished hre' hr' hn he)

lemma dictRehashStepIfNeeded_spec (idx : ℕ) (h : d.WF ty) :
    ∃ d', _dictRehashStepIfNeeded ty canResize d idx = some d' ∧ d.Rehashes ty d' := by
  unfold _dictRehashStepIfNeeded
  split_ifs with hp hf
  · exact ⟨d, rfl, Dict.Rehashes.refl h⟩
  · exact ⟨_, rfl, dictBucketRehash_spec canResize idx h⟩
  · obtain ⟨d', b, hd, hre, -⟩ := dictRehash_spec canResize 1 h
    exact ⟨d', by simp [hd], hre⟩

lemma dictRehashStep_spec (h : d.WF ty) :
    ∃ d', _dictRehashStep ty canResize d = some d' ∧ d.Rehashes ty d' := by
  unfold _dictRehashStep
  split_ifs with hp
  · obtain ⟨d', b, hd, hre, -⟩ := dictRehash_spec canResize 1 h
    exact ⟨d', by simp [hd], hre⟩
  · exact ⟨d, rfl, Dict.Rehashes.refl h⟩

end

/-- Whether rehashing is forbidden does not change during a rehash. -/
lemma Dict.Rehashes.rehashForbidden_iff (h : d.Rehashes ty d') (hr : dictIsRehashing d')
    (canResize : DictResizeEnable) : rehashForbidden canResize d' ↔
    rehashForbidden canResize d := by
  simp only [rehashForbidden, h.exp0 hr, h.exp1 hr, hr, h.running hr]

/-- The loop that rehashes everything ends: each call moves `rehashidx` forward, and it stays below
the size of table 0. -/
lemma rehashAll_spec {canResize : DictResizeEnable} {fuel : ℕ} (h : d.WF ty)
    (hf : ¬ rehashForbidden canResize d) (hu : d.ht0.used ≠ 0)
    (hfuel : (dicthtSize d.ht0.sizeExp : ℤ) - d.rehashidx ≤ fuel) :
    ∃ d', rehashAll ty canResize fuel d = some d' ∧ d.Rehashes ty d' ∧ ¬ dictIsRehashing d' := by
  induction fuel generalizing d with
  | zero =>
    have := h.rehashidx_lt hu
    omega
  | succ fuel ih =>
    obtain ⟨d1, b, hd, hre, hb, hb'⟩ := dictRehash_spec canResize 1000 h
    cases b with
    | false =>
      refine ⟨d1, by simp [rehashAll, hd], hre, ?_⟩
      rcases hb rfl with ⟨hf', -⟩ | hn
      · exact absurd hf' hf
      · exact hn
    | true =>
      obtain ⟨hr1, hu1, hlt⟩ := hb' rfl
      obtain ⟨d', hd', hre', hn⟩ := ih hre.wf (by rwa [hre.rehashForbidden_iff hr1]) hu1 (by
        rw [hre.exp0 hr1]
        omega)
      exact ⟨d', by simp [rehashAll, hd, hd'], hre.trans hre', hn⟩

/-- Rehashing everything finishes the rehash, unless it is not allowed to start. -/
lemma rehashAll_cases (canResize : DictResizeEnable) (fuel : ℕ) (h : d.WF ty)
    (hu : d.ht0.used ≠ 0) (hfuel : (dicthtSize d.ht0.sizeExp : ℤ) - d.rehashidx ≤ fuel) :
    ∃ d', rehashAll ty canResize fuel d = some d' ∧ d.Rehashes ty d' ∧
      (d' = d ∨ ¬ dictIsRehashing d') := by
  by_cases hf : rehashForbidden canResize d
  · have hlt := h.rehashidx_lt hu
    obtain ⟨m, rfl⟩ : ∃ m, fuel = m + 1 := ⟨fuel - 1, by omega⟩
    exact ⟨d, by simp [rehashAll, dictRehash, hf], Dict.Rehashes.refl h, .inl rfl⟩
  · obtain ⟨d', hd, hre, hn⟩ := rehashAll_spec h hf hu hfuel
    exact ⟨d', hd, hre, .inr hn⟩

/-! ## Resizing -/

lemma two_le_dictNextExp (size : ℕ) : 2 ≤ _dictNextExp size := by
  unfold _dictNextExp dictHtInitialSize dictHtInitialExp
  split_ifs with h1 h2
  · exact le_rfl
  · omega
  · have h : 2 ^ 2 ≤ size - 1 := by omega
    exact (Nat.lt_size.mpr h).le

/-- A table whose byte size does not overflow has at most `2 ^ 60` buckets. -/
lemma exp_le_of_no_overflow {e : ℕ} (h : ¬ 2 ^ e * 8 % 2 ^ 64 < 2 ^ e) : e ≤ 60 := by
  by_contra hlt
  obtain ⟨m, rfl⟩ : ∃ m, e = 61 + m := ⟨e - 61, by omega⟩
  refine h ?_
  have : 2 ^ (61 + m) * 8 % 2 ^ 64 = 0 := by
    rw [pow_add, show 2 ^ 61 * 2 ^ m * 8 = 2 ^ 64 * 2 ^ m by ring, Nat.mul_mod_right]
  rw [this]
  exact Nat.two_pow_pos _

/-- What a resize does: nothing, or a new table, of another size or next to table 0. -/
structure Dict.Resizes (ty : DictType K S) (d d' : Dict S V) : Prop
    extends Dict.Rearranges ty d d' where
  /-- If anything changes, the sizes of the tables change and no bucket is rehashed yet. -/
  outcome : d' = d ∨ (d'.rehashidx ≤ 0 ∧ d'.ht0.sizeExp ≠ none ∧
    (d'.ht0.sizeExp ≠ d.ht0.sizeExp ∨ d'.ht1.sizeExp ≠ d.ht1.sizeExp))

lemma Dict.Resizes.refl (h : d.WF ty) : d.Resizes ty d :=
  ⟨Dict.Rearranges.refl h, .inl rfl⟩

/-- Allocating table 1 starts a rehash. -/
lemma rearranges_startRehash (h : d.WF ty) (hr : ¬ dictIsRehashing d) {e : ℕ} (h2 : 2 ≤ e)
    (h60 : e ≤ 60) (hexp : d.ht0.sizeExp ≠ none) :
    d.Rearranges ty { d with
      trace := d.trace ++ [.rehashingStarted (dicthtSize d.ht0.sizeExp),
        .bucketChanged (dicthtSize (some e))]
      ht1 := ⟨some e, 0, replicate (dicthtSize (some e)) []⟩
      rehashidx := 0 } := by
  have hnil : d.ht1.entries = [] := by rw [h.idle hr, entries_reset]
  refine ⟨⟨h.ht0, wf_fresh h2 h60, ?_, ?_, ?_, ?_, ?_⟩, ?_, rfl, rfl, _, rfl, ?_, ?_⟩
  · simpa [Dict.entries, hnil] using h.nodup
  · simp [dictIsRehashing]
  · exact fun _ => ⟨hexp, by simp⟩
  · simp
  · intro i hi
    simp only at hi
    omega
  · simp [Dict.entries, hnil]
  · have h1 : d.ht1.sizeExp = none := by rw [h.idle hr]; rfl
    simp [dictBuckets, h1, dicthtSize, bucketDelta]
  · rw [rehashingOverhead_of_not hr, rehashingOverhead_of_rehashing (by simp [dictIsRehashing])]
    simp [overheadDelta]

lemma rearranges_replaceEmpty (h : d.WF ty) (hr : ¬ dictIsRehashing d) {e : ℕ} (h2 : 2 ≤ e)
    (h60 : e ≤ 60) (hu : d.ht0.used = 0) :
    d.Rearranges ty { d with
      trace := d.trace ++ [.rehashingStarted (dicthtSize d.ht0.sizeExp),
        .bucketChanged (dicthtSize (some e))]
        ++ [.rehashingCompleted (dicthtSize d.ht0.sizeExp),
          .bucketChanged (-(dicthtSize d.ht0.sizeExp : ℤ))]
      ht0 := ⟨some e, 0, replicate (dicthtSize (some e)) []⟩
      ht1 := reset
      rehashidx := -1 } := by
  have hnil1 : d.ht1.entries = [] := by rw [h.idle hr, entries_reset]
  have hnil0 : d.ht0.entries = [] := length_eq_zero_iff.mp (h.ht0.used ▸ hu)
  refine ⟨⟨wf_fresh h2 h60, wf_reset, ?_, fun _ => rfl, ?_, le_rfl, ?_⟩, ?_, rfl, rfl,
    _, by simp; rfl, ?_, ?_⟩
  · simp [Dict.entries]
  · exact fun hn => absurd rfl hn
  · intro i hi
    simp
  · simp [Dict.entries, hnil0, hnil1]
  · have h1 : d.ht1.sizeExp = none := by rw [h.idle hr]; rfl
    simp [dictBuckets, h1, dicthtSize, bucketDelta, reset]
  · rw [rehashingOverhead_of_not hr, rehashingOverhead_of_not (fun hn => hn rfl)]
    simp [overheadDelta]

lemma DictHt.WF.used_eq_zero {ht : DictHt S V} (h : ht.WF ty)
    (hempty : ht.sizeExp = none ∨ ht.used = 0) : ht.used = 0 := by
  rcases hempty with hnone | hu
  · have hnil : ht.table = [] := length_eq_zero_iff.mp (by rw [h.length, hnone]; rfl)
    rw [h.used, entries, hnil]
    rfl
  · exact hu

section

variable (canResize : DictResizeEnable)

/-- `_dictResize` does not fail, and either leaves the dict alone or allocates a table. -/
lemma dictResize_spec (size : ℕ) (h : d.WF ty) (hr : ¬ dictIsRehashing d) :
    ∃ d' b, _dictResize ty canResize d size = some (d', b) ∧ d.Resizes ty d' := by
  by_cases hbig : dicthtSize (some (_dictNextExp size)) < size ∨
      dicthtSize (some (_dictNextExp size)) * 8 % 2 ^ 64 < dicthtSize (some (_dictNextExp size))
  · refine ⟨d, false, ?_, Dict.Resizes.refl h⟩
    simp only [_dictResize]
    rw [if_neg hr, if_pos hbig]
  have h2 := two_le_dictNextExp size
  have h60 := exp_le_of_no_overflow fun hlt => hbig (.inr hlt)
  by_cases hsame : some (_dictNextExp size) = d.ht0.sizeExp
  · refine ⟨d, false, ?_, Dict.Resizes.refl h⟩
    simp only [_dictResize]
    rw [if_neg hr, if_neg hbig, if_pos hsame]
  by_cases hempty : d.ht0.sizeExp = none ∨ d.ht0.used = 0
  · have hu := h.ht0.used_eq_zero hempty
    refine ⟨_, true, ?_, rearranges_replaceEmpty h hr h2 h60 hu,
      .inr ⟨by simp, by simp, .inl hsame⟩⟩
    simp only [_dictResize]
    rw [if_neg hr, if_neg hbig, if_neg hsame, if_pos hempty]
  have hexp : d.ht0.sizeExp ≠ none := fun hn => hempty (.inl hn)
  have hu : d.ht0.used ≠ 0 := fun hu => hempty (.inr hu)
  have hre := rearranges_startRehash h hr h2 h60 hexp
  have h1 : d.ht1.sizeExp = none := by rw [h.idle hr]; rfl
  by_cases hfull : ty.forceFullRehash
  · obtain ⟨d', hd', hre', hcases⟩ := rehashAll_cases canResize
      (dicthtSize d.ht0.sizeExp + 1) hre.wf hu (by simp)
    refine ⟨d', true, ?_, hre.trans hre'.toRearranges, .inr ?_⟩
    · simp only [_dictResize]
      rw [if_neg hr, if_neg hbig, if_neg hsame, if_neg hempty, if_pos hfull, hd']
      rfl
    · rcases hcases with rfl | hn
      · exact ⟨le_rfl, hexp, .inr (by simp [h1])⟩
      · have he := hre'.finished (by simp [dictIsRehashing]) hn
        have hidx : d'.rehashidx = -1 := not_not.mp hn
        exact ⟨by omega, by simp [he], .inl (by rw [he]; exact hsame)⟩
  · refine ⟨_, true, ?_, hre, .inr ⟨le_rfl, hexp, .inr (by simp [h1])⟩⟩
    simp only [_dictResize]
    rw [if_neg hr, if_neg hbig, if_neg hsame, if_neg hempty, if_neg hfull]

/-- `dictExpand` does not fail. -/
lemma dictExpand_spec (size : ℕ) (h : d.WF ty) :
    ∃ d' b, dictExpand ty canResize d size = some (d', b) ∧ d.Resizes ty d' := by
  unfold dictExpand
  split_ifs with hc
  · exact ⟨d, false, rfl, Dict.Resizes.refl h⟩
  · exact dictResize_spec canResize size h fun hr => hc (.inl hr)

/-- `dictShrink` does not fail. -/
lemma dictShrink_spec (size : ℕ) (h : d.WF ty) :
    ∃ d' b, dictShrink ty canResize d size = some (d', b) ∧ d.Resizes ty d' := by
  unfold dictShrink
  split_ifs with hc
  · exact ⟨d, false, rfl, Dict.Resizes.refl h⟩
  · exact dictResize_spec canResize size h fun hr => hc (.inl hr)

lemma dictExpand_initial (h : d.WF ty) (hr : ¬ dictIsRehashing d) (hexp : d.ht0.sizeExp = none) :
    ∃ d' b, dictExpand ty canResize d dictHtInitialSize = some (d', b) ∧
      d'.ht0.sizeExp ≠ none := by
  have hu := h.ht0.used_eq_zero (.inl hexp)
  have hnext : _dictNextExp 4 = 2 := rfl
  refine ⟨_, true, by simp [dictExpand, _dictResize, hr, hexp, hu, dictHtInitialSize,
    dictHtInitialExp, dicthtSize]; rfl, by simp⟩

/-- `dictExpandIfNeeded` does not fail, and table 0 is allocated afterwards. -/
lemma dictExpandIfNeeded_spec (h : d.WF ty) :
    ∃ d' b, dictExpandIfNeeded ty canResize d = some (d', b) ∧ d.Resizes ty d' ∧
      d'.ht0.sizeExp ≠ none := by
  simp only [dictExpandIfNeeded]
  split_ifs with hr hsize hfull hallowed
  · exact ⟨d, true, rfl, Dict.Resizes.refl h, (h.allocated hr).1⟩
  · have hexp : d.ht0.sizeExp = none := by
      cases he : d.ht0.sizeExp with
      | none => rfl
      | some e => simp [he] at hsize
    obtain ⟨d', b, hd, hre⟩ := dictExpand_spec canResize dictHtInitialSize h
    obtain ⟨d'', b', hd', hne⟩ := dictExpand_initial canResize h hr hexp
    obtain ⟨rfl, -⟩ : d' = d'' ∧ b = b' := by simpa [hd] using hd'
    exact ⟨d', true, by rw [hd]; rfl, hre, hne⟩
  all_goals
    have hexp : d.ht0.sizeExp ≠ none := fun hn => hsize (by rw [hn]; rfl)
  · obtain ⟨d', b, hd, hre⟩ := dictExpand_spec canResize (d.ht0.used + 1) h
    refine ⟨d', true, by rw [hd]; rfl, hre, ?_⟩
    rcases hre.outcome with rfl | ⟨-, hne, -⟩
    · exact hexp
    · exact hne
  · exact ⟨d, true, rfl, Dict.Resizes.refl h, hexp⟩
  · exact ⟨d, false, rfl, Dict.Resizes.refl h, hexp⟩

/-- There is a table while automatic resizing is paused. -/
def Dict.Roomy (d : Dict S V) : Prop := 0 < d.pauseAutoResize → d.ht0.sizeExp ≠ none

lemma Dict.roomy_of_le (hp : d.pauseAutoResize ≤ 0) : d.Roomy := fun h => absurd h (not_lt.mpr hp)

/-- `_dictExpandIfNeeded` does not fail, and table 0 is allocated afterwards. -/
lemma dictExpandIfNeeded_auto_spec (h : d.WF ty) (hp : d.Roomy) :
    ∃ d', _dictExpandIfNeeded ty canResize d = some d' ∧ d.Resizes ty d' ∧
      d'.ht0.sizeExp ≠ none := by
  rw [_dictExpandIfNeeded]
  split_ifs with hpause
  · exact ⟨d, rfl, Dict.Resizes.refl h, hp hpause⟩
  · obtain ⟨d', b, hd, hre, hne⟩ := dictExpandIfNeeded_spec canResize h
    exact ⟨d', by rw [hd]; rfl, hre, hne⟩

lemma dictShrinkIfNeeded_spec (h : d.WF ty) :
    ∃ d' b, dictShrinkIfNeeded ty canResize d = some (d', b) ∧ d.Resizes ty d' := by
  simp only [dictShrinkIfNeeded]
  split_ifs with hr hsize hfull hallowed
  · exact ⟨d, true, rfl, Dict.Resizes.refl h⟩
  · exact ⟨d, true, rfl, Dict.Resizes.refl h⟩
  · obtain ⟨d', b, hd, hre⟩ := dictShrink_spec canResize d.ht0.used h
    exact ⟨d', true, by rw [hd]; rfl, hre⟩
  · exact ⟨d, true, rfl, Dict.Resizes.refl h⟩
  · exact ⟨d, false, rfl, Dict.Resizes.refl h⟩

lemma dictShrinkIfNeeded_auto_spec (h : d.WF ty) :
    ∃ d', _dictShrinkIfNeeded ty canResize d = some d' ∧ d.Resizes ty d' := by
  rw [_dictShrinkIfNeeded]
  split_ifs
  · exact ⟨d, rfl, Dict.Resizes.refl h⟩
  · obtain ⟨d', b, hd, hre⟩ := dictShrinkIfNeeded_spec canResize h
    exact ⟨d', by rw [hd]; rfl, hre⟩

end

end RainCall
