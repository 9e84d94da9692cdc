import RainCall.Dict.Iterator
import RainCall.Dict.Scan

/-!
# Safe iterations of a dict

Between the calls of `dictNext` the caller may look up, add and replace keys and delete the entry
returned last. Rehashing is paused, but a resize may still start and take table 0 or 1 into use. An
operation changes at most one key of the chains, which is not the key the iterator goes on with, so
every other key that was ahead of the iterator stays ahead of it.
-/

namespace RainCall

open Dict DictIterator Option
open List hiding lookup

variable {K S V : Type*} {ty : DictType K S} {d d' : Dict S V} {iter : DictIterator K}

/-! ### Chains of keys -/

/-- The keys of a chain. -/
def Dict.chainKeys (ty : DictType K S) (d : Dict S V) (t : Fin 2) (i : ℕ) : List K :=
  (bucketAt (d.ht t).table i).map ty.entryKey

/-- The chains hold the same keys, as far as `q` holds for them. -/
def Dict.Agrees (ty : DictType K S) (q : K → Bool) (d d' : Dict S V) : Prop :=
  ∀ t i, (d'.chainKeys ty t i).filter q = (d.chainKeys ty t i).filter q

variable {q : K → Bool}

lemma Dict.Filters.agrees (h : d.Filters (fun x => q (ty.entryKey x)) d') :
    d.Agrees ty q d' := by
  intro t i
  have hchain : bucketAt (d'.ht t).table i =
      (bucketAt (d.ht t).table i).filter fun x => q (ty.entryKey x) := by
    obtain rfl | rfl : t = 0 ∨ t = 1 := by omega
    · exact h.ht0 i
    · exact h.ht1 i
  rw [chainKeys, hchain, chainKeys, List.filter_map, List.filter_map]
  simp [Function.comp_def]

lemma filter_keys_flatten {l l' : List (List (DictEntry S V))}
    (h : ∀ i, ((bucketAt l' i).map ty.entryKey).filter q =
      ((bucketAt l i).map ty.entryKey).filter q) (n : ℕ) :
    ((l'.drop n).flatten.map ty.entryKey).filter q =
      ((l.drop n).flatten.map ty.entryKey).filter q := by
  have hmap : ∀ (l : List (List (DictEntry S V))) i, bucketAt
      ((l.drop n).map fun c => (c.map ty.entryKey).filter q) i =
        ((bucketAt l (n + i)).map ty.entryKey).filter q := by
    intro l i
    rw [← bucketAt_drop]
    simp only [bucketAt, List.getD_eq_getElem?_getD, List.getElem?_map]
    cases (l.drop n)[i]? <;> rfl
  have hflat : ∀ l : List (List (DictEntry S V)), ((l.drop n).flatten.map ty.entryKey).filter q =
      ((l.drop n).map fun c => (c.map ty.entryKey).filter q).flatten := by
    intro l
    rw [List.map_flatten, List.filter_flatten, List.map_map]
    rfl
  rw [hflat, hflat]
  exact flatten_congr_bucketAt fun i => by rw [hmap, hmap, h]

variable [DecidableEq K]

/-- What is ahead of an iterator, up to keys other than the next one, depends on the chains only. -/
lemma Dict.Agrees.remaining (h : d.Agrees ty q d')
    (hnext : ∀ k, iter.entry.isSome → iter.nextEntry = some k → q k) :
    ((iter.remaining ty d').map ty.entryKey).filter q =
      ((iter.remaining ty d).map ty.entryKey).filter q := by
  have hchain : ((iter.chainLeft ty d').map ty.entryKey).filter q =
      ((iter.chainLeft ty d).map ty.entryKey).filter q := by
    rw [chainLeft, chainLeft]
    cases hk : iter.entry with
    | none => rfl
    | some k =>
      cases hk' : iter.nextEntry with
      | none => rfl
      | some k' =>
        -- the next key passes the filter, so the chain may be filtered before it is cut there
        have hdrop : ∀ c : List (DictEntry S V),
            ((c.dropWhile fun e => decide (ty.entryKey e ≠ k')).map ty.entryKey).filter q =
              ((c.map ty.entryKey).filter q).dropWhile fun x => decide (x ≠ k') := by
          intro c
          rw [dropWhile_filter, dropWhile_map]
          · rfl
          · rintro x - hx
            simp only [decide_eq_true_eq]
            rintro rfl
            rw [hnext _ (by rw [hk]; rfl) hk'] at hx
            cases hx
        rw [hdrop, hdrop]
        exact congrArg _ (h _ _)
  have h1 : ((d'.ht1.table.flatten).map ty.entryKey).filter q =
      ((d.ht1.table.flatten).map ty.entryKey).filter q := filter_keys_flatten (h 1) 0
  rw [DictIterator.remaining, DictIterator.remaining, bucketsLeft, bucketsLeft]
  simp only [map_append, filter_append, hchain, filter_keys_flatten (h iter.table)]
  split_ifs
  · rw [h1]
  · rfl

omit [DecidableEq K] in
lemma Dict.Agrees.pointing (h : d.Agrees ty q d')
    (hnext : ∀ k, iter.entry.isSome → iter.nextEntry = some k → q k) (hp : iter.Pointing ty d) :
    iter.Pointing ty d' := by
  refine ⟨hp.index, hp.nonneg, fun k hk hk' => ?_⟩
  have hmem : k ∈ (d.chainKeys ty iter.table iter.index.toNat).filter q :=
    mem_filter.mpr ⟨mem_map.mpr (hp.next k hk hk'), hnext k hk hk'⟩
  rw [← h] at hmem
  exact mem_map.mp (mem_filter.mp hmem).1

/-! ### Operations while rehashing is paused -/

variable {mode : DictResizeEnable} {e : DictEntry S V} {k : K}

omit [DecidableEq K] in
/-- Changing one chain. -/
lemma Dict.Agrees.setHt {t : Fin 2} {i : ℕ} {ht : DictHt S V}
    {c : List (DictEntry S V)} (htable : ht.table = (d.ht t).table.set i c)
    (hc : (c.map ty.entryKey).filter q = (d.chainKeys ty t i).filter q) :
    d.Agrees ty q (d.setHt t ht) := by
  have hsame : ∀ j, (((bucketAt ht.table j)).map ty.entryKey).filter q =
      (d.chainKeys ty t j).filter q := by
    intro j
    rw [htable]
    by_cases hij : i = j
    · subst hij
      by_cases hi : i < (d.ht t).table.length
      · rw [bucketAt_set_self hi, hc]
      · rw [set_eq_of_length_le (Nat.le_of_not_lt hi)]
        rfl
    · rw [bucketAt_set_ne hij]
      rfl
  intro t' j
  obtain rfl | rfl : t = 0 ∨ t = 1 := by omega
  all_goals obtain rfl | rfl : t' = 0 ∨ t' = 1 := by omega
  · exact hsame j
  · rfl
  · rfl
  · exact hsame j

/-- The chains keep the keys they have. -/
def Dict.KeepsKeys (ty : DictType K S) (d d' : Dict S V) : Prop :=
  ∃ q : K → Bool, d.Agrees ty q d' ∧ ∀ k, (d.lookup ty k).isSome → q k

lemma Dict.Filters.keepsKeys (h : d.Filters (fun _ => true) d') : d.KeepsKeys ty d' :=
  ⟨fun _ => true, h.agrees, fun _ _ => rfl⟩

omit [DecidableEq K] in
lemma Dict.Agrees.trans {d1 : Dict S V} (h : d.Agrees ty (fun _ => true) d1)
    (h' : d1.Agrees ty q d') : d.Agrees ty q d' := by
  intro t i
  have hsame := h t i
  rw [filter_true, filter_true] at hsame
  rw [h', hsame]

lemma dictAddRaw_keepsKeys (hfull : ty.forceFullRehash = false) (h : d.WF ty) (hroomy : d.Roomy)
    (hpause : d.pauserehash ≠ 0) {r : Option DictEntryLink}
    (hadd : dictAddRaw ty mode d e = some (d', r)) : d.KeepsKeys ty d' := by
  have hspec := dictAddRaw_spec mode e h hroomy
  rw [hadd] at hspec
  rw [dictAddRaw, dictFindLinkForInsert, _dictRehashStepIfNeeded, if_pos (.inr hpause),
    bind_some] at hadd
  obtain ⟨p, hp, hadd⟩ := bind_eq_some_iff.mp hadd
  obtain ⟨d2, hd2, hp⟩ := bind_eq_some_iff.mp hp
  have hexpand := dictExpandIfNeeded_filters hfull h (.inl hd2)
  cases hs : searchTables ty d2 (ty.bucketIdx d.ht0.sizeExp (ty.entryKey e)) (ty.entryKey e) with
  | some l =>
    rw [hs] at hp
    cases hp
    cases hadd
    exact hexpand.keepsKeys
  | none =>
    rw [hs] at hp
    obtain ⟨l, -, rfl⟩ := map_eq_some_iff.mp hp
    obtain ⟨d3, hd3, heq⟩ := map_eq_some_iff.mp hadd
    cases heq
    -- the new entry is put in front of its chain
    simp only [dictInsertKeyAtLink, ite_none_right_eq_some, some_inj] at hd3
    obtain ⟨-, rfl⟩ := hd3
    have hnone : d.lookup ty (ty.entryKey e) = none := by
      rcases hspec with ⟨_, -, hnone, -⟩ | ⟨_, _, _, heq, -⟩
      · exact hnone
      · cases heq
    refine ⟨fun x => decide (x ≠ ty.entryKey e), hexpand.agrees.trans (.setHt rfl ?_),
      fun k hk => ?_⟩
    · simp [chainKeys]
    · rw [decide_eq_true_iff]
      rintro rfl
      rw [hnone] at hk
      cases hk

lemma dictReplace_keepsKeys (hfull : ty.forceFullRehash = false) (h : d.WF ty) (hroomy : d.Roomy)
    (hpause : d.pauserehash ≠ 0) {b : Bool} (hreplace : dictReplace ty mode d e = some (d', b)) :
    d.KeepsKeys ty d' := by
  obtain ⟨⟨d1, r⟩, hadd, heq⟩ := map_eq_some_iff.mp hreplace
  obtain ⟨q, hq, hkeys⟩ := dictAddRaw_keepsKeys hfull h hroomy hpause hadd
  cases r with
  | none =>
    cases heq
    exact ⟨q, hq, hkeys⟩
  | some l =>
    cases heq
    refine ⟨q, fun t i => ?_, hkeys⟩
    have hmodify : d1.Agrees ty q (d1.modifyAt l fun old => { old with val := e.val }) := by
      refine .setHt rfl (congrArg _ (ext_getElem? fun n => ?_))
      simp only [chainKeys, getElem?_map, getElem?_modify]
      split_ifs
      · cases (bucketAt (d1.ht l.table).table l.idx)[n]? <;> rfl
      · rw [id_map']
    rw [hmodify, hq]

lemma dictFind_paused (hpause : d.pauserehash ≠ 0)
    (hfind : dictStep ty d (mode, .find k) = some d') : d' = d := by
  by_cases hempty : dictSize d = 0
  · rw [dictStep, dictFind, dictFindLink, if_pos hempty] at hfind
    cases hfind
    rfl
  · rw [dictStep, dictFind, dictFindLink, if_neg hempty, dictFindLinkInternal,
      if_neg (fun h => hempty h.2)] at hfind
    dsimp only at hfind
    rw [_dictRehashStepIfNeeded, if_pos (.inr hpause)] at hfind
    obtain rfl := some.inj hfind
    dsimp only
    cases searchTables ty d (ty.bucketIdx d.ht0.sizeExp k) k <;> rfl

/-! ### Iterations -/

/-- What the caller of a safe iterator may do. -/
inductive DictIterEvent (K S V : Type*)
  | next
  | find (k : K)
  | add (e : DictEntry S V)
  | replace (e : DictEntry S V)
  | deleteReturned

/-- A dict with a safe iterator, and the keys it has returned, the last one first. -/
structure DictIteration (K S V : Type*) where
  dict : Dict S V
  iter : DictIterator K
  returned : List K

/-- One event of an iteration, under a setting of `dict_can_resize`. -/
def dictIterStep (ty : DictType K S) (s : DictIteration K S V) :
    DictResizeEnable × DictIterEvent K S V → Option (DictIteration K S V)
  | (_, .next) => (dictNext ty s.dict s.iter).map fun r =>
    ⟨r.1, r.2.1, (r.2.2.map ty.entryKey).toList ++ s.returned⟩
  | (mode, .find k) => (dictStep ty s.dict (mode, .find k)).map ({ s with dict := · })
  | (mode, .add e) => (dictStep ty s.dict (mode, .add e)).map ({ s with dict := · })
  | (mode, .replace e) => (dictStep ty s.dict (mode, .replace e)).map ({ s with dict := · })
  | (mode, .deleteReturned) =>
    match s.iter.entry with
    | none => some s
    | some k => (dictStep ty s.dict (mode, .delete k)).map ({ s with dict := · })

/-- The state of an iteration as far as one key of the dict is concerned. -/
structure DictIteration.Tracks (ty : DictType K S) (k : K) (s : DictIteration K S V) : Prop where
  wf : s.dict.WF ty
  pointing : s.iter.Pointing ty s.dict
  /-- The entry returned last is not the next one. -/
  next_ne : ∀ k, s.iter.entry = some k → ∀ k', s.iter.nextEntry = some k' → k' ≠ k
  /-- Rehashing is paused unless the iterator is unused. -/
  paused : (s.iter = dictInitSafeIterator ∧ s.returned = []) ∨
    (0 ≤ s.iter.index ∧ s.dict.pauserehash ≠ 0)
  /-- The key is ahead of the iterator or has been returned. -/
  once : ((s.iter.remaining ty s.dict).map ty.entryKey).count k + s.returned.count k = 1

namespace DictIteration

variable {s : DictIteration K S V}

lemma count_entries (h : d.WF ty) (hk : (d.lookup ty k).isSome) :
    (d.entries.map ty.entryKey).count k = 1 := by
  obtain ⟨x, hx⟩ := isSome_iff_exists.mp hk
  obtain ⟨hmem, rfl⟩ := h.lookup_eq_some.mp hx
  exact count_eq_one_of_mem h.nodup (mem_map_of_mem hmem)

lemma tracks_init (h : d.WF ty) (hk : (d.lookup ty k).isSome) :
    (⟨d, dictInitSafeIterator, []⟩ : DictIteration K S V).Tracks ty k where
  wf := h
  pointing := (dictInitSafeIterator_spec d).1.pointing
  next_ne := fun _ hk => absurd hk (by simp [dictInitSafeIterator])
  paused := .inl ⟨rfl, rfl⟩
  once := count_entries h hk

/-- A call of `dictNext`. -/
lemma Tracks.next (h : s.Tracks ty k) :
    ∃ d' it r, dictNext ty s.dict s.iter = some (d', it, r) ∧
      r = (s.iter.remaining ty s.dict).head? ∧
      it.remaining ty d' = (s.iter.remaining ty s.dict).tail ∧
      (⟨d', it, (r.map ty.entryKey).toList ++ s.returned⟩ : DictIteration K S V).Tracks ty k := by
  obtain ⟨it, r, hnext, hadv⟩ := dictNext_spec h.wf h.pointing
  obtain ⟨hp0, hp1⟩ := s.iter.pausing_ht s.dict
  have hsame : s.dict.Agrees ty (fun _ => true) (s.iter.pausing s.dict) := by
    intro t i
    simp only [chainKeys, Dict.ht, hp0, hp1]
  have hrem : it.remaining ty (s.iter.pausing s.dict) = (s.iter.remaining ty s.dict).tail := by
    rw [remaining_congr hp0 hp1, hadv.remaining]
  refine ⟨_, it, r, hnext, hadv.result, hrem, s.iter.pausing_wf h.wf,
    hsame.pointing (fun _ _ _ => rfl) hadv.valid.pointing, fun _ hk => hadv.valid.next_ne hk,
    .inr ⟨hadv.index, ?_⟩, ?_⟩
  · rcases h.paused with ⟨hinit, -⟩ | ⟨hindex, hpause⟩
    · rw [hinit, DictIterator.pausing, if_pos ⟨rfl, rfl⟩]
      exact Nat.succ_ne_zero _
    · rwa [pausing_of_nonneg _ hindex]
  · have honce := h.once
    rw [hrem, hadv.result]
    cases hl : s.iter.remaining ty s.dict with
    | nil => simpa [hl] using honce
    | cons x l =>
      rw [hl, map_cons, count_cons] at honce
      simp only [tail_cons, head?_cons, map_some, toList_some,
        singleton_append, count_cons]
      omega

/-- An operation on the dict that leaves the chains alone, up to other keys. -/
lemma Tracks.op (h : s.Tracks ty k) (hroomy : s.dict.Roomy) {op : DictOp K S V}
    (hagree : ∀ d', s.dict.pauserehash ≠ 0 → dictStep ty s.dict (mode, op) = some d' →
      (op.apply ty (s.dict.lookup ty) k).isSome → ∃ q, s.dict.Agrees ty q d' ∧ q k ∧
        ∀ k', s.iter.entry.isSome → s.iter.nextEntry = some k' → q k') :
    ∃ s', (dictStep ty s.dict (mode, op)).map ({ s with dict := · }) = some s' ∧
      ((s'.dict.lookup ty k).isSome → s'.Tracks ty k) := by
  obtain ⟨d', es, hd', hbec, hlook⟩ := dictStep_spec h.wf hroomy (mode, op)
  refine ⟨_, by rw [hd', map_some], fun hk => ?_⟩
  rcases h.paused with ⟨hinit, hnil⟩ | ⟨hindex, hpause⟩
  · -- everything is ahead of an unused iterator, wherever the operation has moved it
    have htracks := tracks_init hbec.wf hk
    rwa [← hinit, ← hnil] at htracks
  · rw [hlook] at hk
    obtain ⟨q, hq, hqk, hnext⟩ := hagree d' hpause hd' hk
    refine ⟨hbec.wf, hq.pointing hnext h.pointing, h.next_ne, .inr ⟨hindex, ?_⟩, ?_⟩
    · rwa [hbec.pauserehash]
    · have honce := h.once
      rw [← count_filter hqk, ← hq.remaining hnext, count_filter hqk] at honce
      exact honce

/-- A dict with a key has a table. -/
lemma roomy_of_lookup (h : d.WF ty) (hk : (d.lookup ty k).isSome) : d.Roomy := by
  intro _ hexp
  have hr : ¬ dictIsRehashing d := fun hr => (h.allocated hr).1 hexp
  have hsize : dictSize d = 0 := by
    rw [dictSize, h.ht0.used_eq_zero (.inl hexp), h.idle hr]
    rfl
  rw [h.lookup_of_empty hsize] at hk
  cases hk

lemma Tracks.keepsKeys (h : s.Tracks ty k) (hk : (s.dict.lookup ty k).isSome)
    (hkeeps : s.dict.KeepsKeys ty d') : ∃ q, s.dict.Agrees ty q d' ∧ q k ∧
      ∀ k', s.iter.entry.isSome → s.iter.nextEntry = some k' → q k' := by
  obtain ⟨q, hq, hkeys⟩ := hkeeps
  refine ⟨q, hq, hkeys k hk, fun k' hentry hnext => hkeys k' ?_⟩
  obtain ⟨x, hx, rfl⟩ := h.pointing.next k' hentry hnext
  obtain ⟨p, hp⟩ := getElem?_of_mem hx
  have hmem : x ∈ s.dict.entries :=
    mem_entries_iff.mpr ⟨_, mem_entries_of_entryAt (l := ⟨_, _, p⟩) hp⟩
  rw [h.wf.lookup_eq_some.mpr ⟨hmem, rfl⟩]
  rfl

/-- One event of an iteration. -/
lemma Tracks.step (hfull : ty.forceFullRehash = false) (h : s.Tracks ty k)
    (hk : (s.dict.lookup ty k).isSome) (ev : DictResizeEnable × DictIterEvent K S V) :
    ∃ s', dictIterStep ty s ev = some s' ∧ ((s'.dict.lookup ty k).isSome → s'.Tracks ty k) := by
  have hroomy := roomy_of_lookup h.wf hk
  obtain ⟨mode, ev⟩ := ev
  cases ev with
  | next =>
    obtain ⟨d', it, r, hnext, -, -, htracks⟩ := h.next
    exact ⟨_, by rw [dictIterStep, hnext, map_some], fun _ => htracks⟩
  | find k' =>
    refine h.op hroomy fun d' hpause hd' _ => h.keepsKeys hk ?_
    rw [dictFind_paused hpause hd']
    exact (Filters.refl _).keepsKeys
  | add e =>
    refine h.op hroomy fun d' hpause hd' _ => h.keepsKeys hk ?_
    obtain ⟨r, hr, rfl⟩ := map_eq_some_iff.mp hd'
    obtain ⟨r', hr', rfl⟩ := map_eq_some_iff.mp hr
    exact dictAddRaw_keepsKeys hfull h.wf hroomy hpause hr'
  | replace e =>
    refine h.op hroomy fun d' hpause hd' _ => h.keepsKeys hk ?_
    obtain ⟨r, hr, rfl⟩ := map_eq_some_iff.mp hd'
    exact dictReplace_keepsKeys hfull h.wf hroomy hpause hr
  | deleteReturned =>
    rw [dictIterStep]
    cases hentry : s.iter.entry with
    | none => exact ⟨s, rfl, fun _ => h⟩
    | some k' =>
      refine h.op hroomy fun d' hpause hd' hk' => ⟨fun x => decide (x ≠ k'), ?_, ?_,
        fun k1 _ hnext => by simpa using h.next_ne k' hentry k1 hnext⟩
      · obtain ⟨r, hr, rfl⟩ := map_eq_some_iff.mp hd'
        obtain ⟨r', hr', rfl⟩ := map_eq_some_iff.mp hr
        exact (dictGenericDelete_filters hfull h.wf hpause hr').agrees
      · rw [decide_eq_true_iff]
        rintro rfl
        rw [DictOp.apply, Function.update_self] at hk'
        cases hk'

/-- Calling `dictNext` again and again reaches the end. -/
lemma Tracks.ends (h : s.Tracks ty k) (mode : DictResizeEnable) :
    ∃ n s', runSteps (dictIterStep ty) s (replicate n (mode, .next)) = some s' ∧
      (dictNext ty s'.dict s'.iter).map (fun r => r.2.2) = some none := by
  generalize hl : s.iter.remaining ty s.dict = l
  induction l generalizing s with
  | nil =>
    obtain ⟨d', it, r, hnext, hr, -⟩ := h.next
    refine ⟨0, s, rfl, ?_⟩
    rw [hnext, hr, hl]
    rfl
  | cons x l ih =>
    obtain ⟨d', it, r, hnext, -, hrem, htracks⟩ := h.next
    obtain ⟨n, s', hrun, hend⟩ := ih htracks (by rw [hrem, hl]; rfl)
    refine ⟨n + 1, s', ?_, hend⟩
    rw [replicate_succ, runSteps_cons, dictIterStep, hnext]
    exact hrun

end DictIteration

/-- **A safe iteration** of a dict without `force_full_rehash`, in any state of rehashing: whatever
is looked up, added, replaced and deleted between the calls of `dictNext`, no call fails, a key that
stays in the dict is returned exactly once when the iteration is over, not more than once before,
and the end is reached if the caller goes on. -/
theorem safe_iteration_once (hfull : ty.forceFullRehash = false) (h : d.WF ty)
    {evs : List (DictResizeEnable × DictIterEvent K S V)}
    (hk : RunSatisfies (dictIterStep ty) (fun s _ => (s.dict.lookup ty k).isSome)
      ⟨d, dictInitSafeIterator, []⟩ (evs ++ [(mode, .next)])) :
    ∃ s d' it r, runSteps (dictIterStep ty) ⟨d, dictInitSafeIterator, []⟩ evs = some s ∧
      dictNext ty s.dict s.iter = some (d', it, r) ∧ s.returned.count k ≤ 1 ∧
      (r = none → s.returned.count k = 1) ∧
      ∃ n s', runSteps (dictIterStep ty) s (List.replicate n (mode, .next)) = some s' ∧
        (dictNext ty s'.dict s'.iter).map (fun r => r.2.2) = some none := by
  -- a key that has left the dict is not followed any more
  obtain ⟨s, hrun, hs⟩ := (RunSatisfies.of_append hk).1.invariant
    (fun s => (s.dict.lookup ty k).isSome → s.Tracks ty k)
    (fun s ev hsk hI => (hI hsk).step hfull hsk ev) (DictIteration.tracks_init h)
  have htracks := hs ((RunSatisfies.of_append hk).2 s hrun).1
  obtain ⟨d', it, r, hnext, hr, -⟩ := htracks.next
  have honce := htracks.once
  refine ⟨s, d', it, r, hrun, hnext, by omega, ?_, htracks.ends mode⟩
  rintro rfl
  rw [head?_eq_none_iff.mp hr.symm] at honce
  simpa using honce

/-- An iteration during which an insertion starts a rehash. -/
theorem safe_iteration_once_expanding :
    ∃ d, runSteps (dictStep natDictType) dictCreate
        ([0, 1, 2, 3].map fun k => (.enable, .add ⟨k, ()⟩)) = some d ∧
      ∃ s d' it r, runSteps (dictIterStep natDictType) ⟨d, dictInitSafeIterator, []⟩
        [(.enable, .next), (.enable, .add ⟨4, ()⟩), (.enable, .deleteReturned), (.enable, .next),
          (.enable, .find 3), (.enable, .replace ⟨2, ()⟩), (.enable, .next)] = some s ∧
      dictNext natDictType s.dict s.iter = some (d', it, r) ∧ s.returned.count 2 ≤ 1 ∧
      (r = none → s.returned.count 2 = 1) ∧
      ∃ n s', runSteps (dictIterStep natDictType) s (List.replicate n (.enable, .next)) = some s' ∧
        (dictNext natDictType s'.dict s'.iter).map (fun r => r.2.2) = some none := by
  obtain ⟨d, hd, hwf, -⟩ := dict_run_spec natDictType
    ([0, 1, 2, 3].map fun k => (.enable, .add (⟨k, ()⟩ : DictEntry ℕ Unit)))
  refine ⟨d, hd, safe_iteration_once rfl hwf ?_⟩
  cases hd
  decide +kernel

end RainCall
