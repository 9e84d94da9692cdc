import RainCall.Dict.Lookup

/-!
# The operations of a dict as operations on a map

One lemma for each public operation of `dict.c`: it does not fail an assertion, and it changes the
entries of the dict as an operation on a finite map does, while also rearranging them.
-/

namespace RainCall

open Function List

variable {K S V : Type*} [DecidableEq K] {ty : DictType K S} {d d' : Dict S V}

/-! ## Changes of the map -/

variable {x : DictEntry S V} {es : List (DictEntry S V)}

/-- The map after an entry is added. -/
lemma Dict.Becomes.lookup_cons (h : d.Becomes ty d' (x :: es)) (k : K) :
    d'.lookup ty k =
      if ty.entryKey x = k then some x else es.find? fun y => decide (ty.entryKey y = k) := by
  rw [Dict.lookup, find?_key_perm h.wf.nodup h.perm, find?_cons]
  by_cases hk : ty.entryKey x = k <;> simp [hk]

lemma Dict.Becomes.lookup_insert (h : d.Becomes ty d' (x :: d.entries)) :
    d'.lookup ty = update (d.lookup ty) (ty.entryKey x) (some x) := by
  funext k
  rw [h.lookup_cons, update_apply]
  simp only [eq_comm (a := k)]
  rfl

lemma Dict.Becomes.lookup_erase (hd : d.WF ty) (h : d.Becomes ty d' es)
    (hp : d.entries.Perm (x :: es)) :
    d'.lookup ty = update (d.lookup ty) (ty.entryKey x) none := by
  have hnd := (hp.map ty.entryKey).nodup_iff.mp hd.nodup
  rw [map_cons, nodup_cons] at hnd
  funext k
  rw [update_apply, Dict.lookup, find?_key_perm h.wf.nodup h.perm, Dict.lookup,
    find?_key_perm hd.nodup hp, find?_cons]
  by_cases hk : ty.entryKey x = k
  · subst hk
    rw [if_pos rfl, find?_eq_none]
    intro y hy hyk
    exact hnd.1 (mem_map.mpr ⟨y, hy, by simpa using hyk⟩)
  · simp [hk, Ne.symm hk]

lemma Dict.Becomes.lookup_modify {y : DictEntry S V} (hd : d.WF ty) (h : d.Becomes ty d' (y :: es))
    (hp : d.entries.Perm (x :: es)) (hk : ty.entryKey y = ty.entryKey x) :
    d'.lookup ty = update (d.lookup ty) (ty.entryKey x) (some y) := by
  funext k
  rw [h.lookup_cons, update_apply, Dict.lookup, find?_key_perm hd.nodup hp,
    find?_cons, hk]
  by_cases hk' : ty.entryKey x = k
  · simp [hk']
  · simp [hk', Ne.symm hk']

/-! ## Lookup -/

lemma dictFindLinkInternal_spec (canResize : DictResizeEnable) (k : K) (wantBucket : Bool)
    (h : d.WF ty) :
    ∃ d', d.Rehashes ty d' ∧
      ((∃ l x b, dictFindLinkInternal ty canResize d k wantBucket = some (d', some l, b) ∧
          d'.entryAt l = some x ∧ d.lookup ty k = some x) ∨
        (dictFindLinkInternal ty canResize d k wantBucket =
            some (d', none, if wantBucket then insertBucket ty d' k else none) ∧
          d.lookup ty k = none)) := by
  by_cases hempty : wantBucket = false ∧ dictSize d = 0
  · exact ⟨d, Dict.Rehashes.refl h, .inr ⟨by simp [dictFindLinkInternal, hempty],
      h.lookup_of_empty hempty.2 k⟩⟩
  · obtain ⟨d', hd', hre⟩ := dictRehashStepIfNeeded_spec canResize (ty.bucketIdx d.ht0.sizeExp k) h
    refine ⟨d', hre, ?_⟩
    rw [← hre.toRearranges.lookup_eq]
    rcases searchTables_spec hre.wf _ k hre.bucketIdx_eq with
      ⟨l, x, hl, hx, -, hlook⟩ | ⟨hl, hlook⟩
    · exact .inl ⟨l, x, _, by simp [dictFindLinkInternal, hempty, hd', hl]; rfl, hx, hlook⟩
    · exact .inr ⟨by simp [dictFindLinkInternal, hempty, hd', hl], hlook⟩

lemma dictFindLink_spec (canResize : DictResizeEnable) (k : K) (wantBucket : Bool) (h : d.WF ty) :
    ∃ d', d.Rearranges ty d' ∧
      ((∃ l x b, dictFindLink ty canResize d k wantBucket = some (d', some l, b) ∧
          d'.entryAt l = some x ∧ d.lookup ty k = some x) ∨
        (∃ b, dictFindLink ty canResize d k wantBucket = some (d', none, b) ∧
          d.lookup ty k = none ∧ (b = none ∨ b = insertBucket ty d' k))) := by
  by_cases hempty : dictSize d = 0
  · exact ⟨d, Dict.Rearranges.refl h, .inr ⟨none, by simp [dictFindLink, hempty],
      h.lookup_of_empty hempty k, .inl rfl⟩⟩
  · obtain ⟨d', hre, hcases⟩ := dictFindLinkInternal_spec canResize k wantBucket h
    have heq : dictFindLink ty canResize d k wantBucket =
        dictFindLinkInternal ty canResize d k wantBucket := by simp [dictFindLink, hempty]
    refine ⟨d', hre.toRearranges, ?_⟩
    rw [heq]
    rcases hcases with hfound | ⟨hnone, hlook⟩
    · exact .inl hfound
    · refine .inr ⟨_, hnone, hlook, ?_⟩
      cases wantBucket <;> simp

lemma dictFind_spec (canResize : DictResizeEnable) (k : K) (h : d.WF ty) :
    ∃ d', dictFind ty canResize d k = some (d', d.lookup ty k) ∧ d.Rearranges ty d' := by
  obtain ⟨d', hre, ⟨l, x, b, hd, hx, hlook⟩ | ⟨b, hd, hlook, -⟩⟩ :=
    dictFindLink_spec canResize k false h
  · exact ⟨d', by simp [dictFind, hd, hx, hlook], hre⟩
  · exact ⟨d', by simp [dictFind, hd, hlook], hre⟩

/-! ## Insertion -/

omit [DecidableEq K] in
/-- The bucket offered for a new key. -/
lemma insertBucket_eq (ty : DictType K S) (k : K) (hexp : (d.ht (insertTable d)).sizeExp ≠ none) :
    insertBucket ty d k =
      some ⟨insertTable d, ty.bucketIdx (d.ht (insertTable d)).sizeExp k, 0⟩ :=
  if_neg hexp

omit [DecidableEq K] in
/-- Rehashing never frees the last table. -/
lemma Dict.Rehashes.allocated (h : d.Rehashes ty d') (hd : d.WF ty) (hexp : d.ht0.sizeExp ≠ none) :
    d'.ht0.sizeExp ≠ none := by
  by_cases hr' : dictIsRehashing d'
  · rwa [h.exp0 hr']
  · by_cases hr : dictIsRehashing d
    · rw [h.finished hr hr']
      exact (hd.allocated hr).2
    · rwa [h.idle hr]

omit [DecidableEq K] in
/-- When table 0 is allocated, so is the table that receives new keys. -/
lemma Dict.WF.insertTable_allocated (h : d.WF ty) (hexp : d.ht0.sizeExp ≠ none) :
    (d.ht (insertTable d)).sizeExp ≠ none := by
  by_cases hr : dictIsRehashing d
  · rw [insertTable, if_pos hr]
    exact (h.allocated hr).2
  · rw [insertTable, if_neg hr]
    exact hexp

/-- `dictInsertKeyAtLink` at the bucket offered for a new key passes its assertion. -/
lemma dictInsertKeyAtLink_spec (h : d.WF ty) {e : DictEntry S V} {l : DictEntryLink}
    (hl : insertBucket ty d (ty.entryKey e) = some l) (hnew : d.lookup ty (ty.entryKey e) = none) :
    ∃ d', dictInsertKeyAtLink d e l = some d' ∧ d.Becomes ty d' (e :: d.entries) := by
  have hexp : (d.ht (insertTable d)).sizeExp ≠ none := by
    intro hn
    simp [insertBucket, hn] at hl
  rw [insertBucket_eq ty _ hexp, Option.some_inj] at hl
  subst hl
  refine ⟨_, ?_, h.push hexp (Dict.lookup_eq_none.mp hnew)⟩
  obtain ⟨e', he'⟩ := Option.ne_none_iff_exists'.mp hexp
  have hle : ty.bucketIdx (d.ht (insertTable d)).sizeExp (ty.entryKey e) ≤
      dicthtSizeMask (d.ht (insertTable d)).sizeExp := by
    have := bucketIdx_lt ty e' (ty.entryKey e)
    rw [he', dicthtSizeMask]
    rw [dicthtSize_some] at this
    omega
  rw [dictInsertKeyAtLink, if_pos ⟨rfl, rfl, hexp, hle⟩]

section

variable (canResize : DictResizeEnable) (e : DictEntry S V) (h : d.WF ty)
include h

lemma dictAddRaw_spec (hp : d.Roomy) :
    (∃ d', dictAddRaw ty canResize d e = some (d', none) ∧ d.lookup ty (ty.entryKey e) = none ∧
      d.Becomes ty d' (e :: d.entries)) ∨
    (∃ d' l x, dictAddRaw ty canResize d e = some (d', some l) ∧
      d.lookup ty (ty.entryKey e) = some x ∧ d'.entryAt l = some x ∧ d.Rearranges ty d') := by
  obtain ⟨d1, hd1, hre1⟩ :=
    dictRehashStepIfNeeded_spec canResize (ty.bucketIdx d.ht0.sizeExp (ty.entryKey e)) h
  obtain ⟨d2, hd2, hre2, hexp⟩ :=
    dictExpandIfNeeded_auto_spec canResize hre1.wf fun hpause =>
      hre1.allocated h (hp (hre1.pauseAutoResize ▸ hpause))
  have hre := hre1.toRearranges.trans hre2.toRearranges
  -- the bucket index computed at the start is stale only when no bucket is skipped
  have hidx : (ty.bucketIdx d.ht0.sizeExp (ty.entryKey e) : ℤ) < d2.rehashidx →
      ty.bucketIdx d.ht0.sizeExp (ty.entryKey e) = ty.bucketIdx d2.ht0.sizeExp (ty.entryKey e) := by
    rcases hre2.outcome with rfl | ⟨hle, -⟩
    · exact hre1.bucketIdx_eq
    · omega
  rw [← hre.lookup_eq]
  rcases searchTables_spec hre.wf _ _ hidx with ⟨l, x, hl, hx, -, hlook⟩ | ⟨hl, hlook⟩
  · refine .inr ⟨d2, l, x, ?_, hlook, hx, hre⟩
    simp [dictAddRaw, dictFindLinkForInsert, hd1, hd2, hl]
  · left
    have hb := insertBucket_eq ty (ty.entryKey e) (hre.wf.insertTable_allocated hexp)
    obtain ⟨d', hd', hbec⟩ := dictInsertKeyAtLink_spec hre.wf hb hlook
    refine ⟨d', ?_, hlook, (hre.then hbec).congr (hre.perm.cons e)⟩
    simp [dictAddRaw, dictFindLinkForInsert, hd1, hd2, hl, hb, hd']

/-- `dictReplace` adds the entry or overwrites the value of the existing one. -/
lemma dictReplace_spec (hp : d.Roomy) :
    (∃ d', dictReplace ty canResize d e = some (d', true) ∧ d.lookup ty (ty.entryKey e) = none ∧
      d.Becomes ty d' (e :: d.entries)) ∨
    (∃ d' x es, dictReplace ty canResize d e = some (d', false) ∧
      d.lookup ty (ty.entryKey e) = some x ∧ d.entries.Perm (x :: es) ∧
      d.Becomes ty d' ({ x with val := e.val } :: es)) := by
  rcases dictAddRaw_spec canResize e h hp with ⟨d', hd', hlook, hbec⟩ |
    ⟨d', l, x, hd', hlook, hx, hre⟩
  · exact .inl ⟨d', by simp [dictReplace, hd'], hlook, hbec⟩
  · right
    obtain ⟨es, hes, hbec⟩ := hre.wf.modifyAt hx (f := fun old => { old with val := e.val }) rfl
    exact ⟨_, x, es, by simp [dictReplace, hd'], hlook, hre.perm.symm.trans hes, hre.then hbec⟩

/-- `dictSetKeyAtLink` with `newItem` adds an entry with a new key. The link of the caller may be
missing, or belong to tables that are replaced when the dict expands. -/
lemma dictSetNewKeyAtLink_spec (hnew : d.lookup ty (ty.entryKey e) = none)
    {link : Option DictEntryLink} (hlink : link = none ∨ link = insertBucket ty d (ty.entryKey e)) :
    ∃ d', dictSetNewKeyAtLink ty canResize d e link = some d' ∧
      d.Becomes ty d' (e :: d.entries) := by
  obtain ⟨d1, b, hd1, hre1, hexp⟩ := dictExpandIfNeeded_spec canResize h
  have hnew1 : d1.lookup ty (ty.entryKey e) = none := by rw [hre1.toRearranges.lookup_eq, hnew]
  have hrelookup : ∃ d', dictSetNewKeyAtLink.relookup ty canResize e d1 = some d' ∧
      d.Becomes ty d' (e :: d.entries) := by
    obtain ⟨d2, hre2, ⟨l, x, -, -, -, hlook⟩ | ⟨hd2, hlook⟩⟩ :=
      dictFindLinkInternal_spec canResize (ty.entryKey e) true hre1.wf
    · simp [hnew1] at hlook
    · have hre := hre1.toRearranges.trans hre2.toRearranges
      have hexp2 := hre.wf.insertTable_allocated (hre2.allocated hre1.wf hexp)
      have hb := insertBucket_eq ty (ty.entryKey e) hexp2
      obtain ⟨d', hd', hbec⟩ :=
        dictInsertKeyAtLink_spec hre.wf hb (by rw [hre.lookup_eq, hnew])
      refine ⟨d', ?_, (hre.then hbec).congr (hre.perm.cons e)⟩
      simp [dictSetNewKeyAtLink.relookup, hd2, hb, hd']
  cases link with
  | none => simpa [dictSetNewKeyAtLink, hd1] using hrelookup
  | some l =>
    by_cases hsame : d1.ht0.sizeExp = d.ht0.sizeExp ∧ d1.ht1.sizeExp = d.ht1.sizeExp
    · -- the tables were not touched, so the link of the caller is still right
      obtain rfl : d1 = d := by
        rcases hre1.outcome with heq | ⟨-, -, hne | hne⟩
        · exact heq
        · exact absurd hsame.1 hne
        · exact absurd hsame.2 hne
      have hl : insertBucket ty d1 (ty.entryKey e) = some l := by
        rcases hlink with hl | hl
        · simp at hl
        · exact hl.symm
      obtain ⟨d', hd', hbec⟩ := dictInsertKeyAtLink_spec h hl hnew
      exact ⟨d', by simp [dictSetNewKeyAtLink, hd1, hd'], hbec⟩
    · simpa [dictSetNewKeyAtLink, hd1, hsame] using hrelookup

/-- The protocol of `dictFindLink` and `dictSetKeyAtLink` adds the entry, or replaces the stored key
of the existing one. -/
lemma dictFindLinkAndSet_spec :
    (∃ d', dictFindLinkAndSet ty canResize d e = some d' ∧ d.lookup ty (ty.entryKey e) = none ∧
      d.Becomes ty d' (e :: d.entries)) ∨
    (∃ d' x es, dictFindLinkAndSet ty canResize d e = some d' ∧
      d.lookup ty (ty.entryKey e) = some x ∧ d.entries.Perm (x :: es) ∧
      d.Becomes ty d' ({ x with key := e.key } :: es)) := by
  obtain ⟨d1, hre, ⟨l, x, b, hd1, hx, hlook⟩ | ⟨b, hd1, hlook, hb⟩⟩ :=
    dictFindLink_spec canResize (ty.entryKey e) true h
  · right
    have hkey : ty.entryKey x = ty.entryKey e := (h.lookup_eq_some.mp hlook).2
    obtain ⟨es, hes, hbec⟩ :=
      hre.wf.modifyAt hx (f := fun old => { old with key := e.key }) hkey.symm
    refine ⟨_, x, es, ?_, hlook, hre.perm.symm.trans hes, hre.then hbec⟩
    simp [dictFindLinkAndSet, hd1, dictSetKeyAtExistingLink]
  · left
    obtain ⟨d', hd', hbec⟩ :=
      dictSetNewKeyAtLink_spec canResize e hre.wf (by rw [hre.lookup_eq, hlook]) hb
    refine ⟨d', ?_, hlook, (hre.then hbec).congr (hre.perm.cons e)⟩
    simp [dictFindLinkAndSet, hd1, hd']

end

/-! ## Deletion -/

lemma dictGenericDelete_spec (canResize : DictResizeEnable) (k : K) (h : d.WF ty) :
    (∃ d', dictGenericDelete ty canResize d k = some (d', none) ∧ d.lookup ty k = none ∧
      d.Rearranges ty d') ∨
    (∃ d' x es, dictGenericDelete ty canResize d k = some (d', some x) ∧ d.lookup ty k = some x ∧
      d.entries.Perm (x :: es) ∧ d.Becomes ty d' es) := by
  by_cases hempty : dictSize d = 0
  · exact .inl ⟨d, by simp [dictGenericDelete, hempty], h.lookup_of_empty hempty k,
      Dict.Rearranges.refl h⟩
  · obtain ⟨d1, hd1, hre⟩ := dictRehashStepIfNeeded_spec canResize (ty.bucketIdx d.ht0.sizeExp k) h
    rw [← hre.toRearranges.lookup_eq]
    rcases searchTables_spec hre.wf _ k hre.bucketIdx_eq with
      ⟨l, x, hl, hx, -, hlook⟩ | ⟨hl, hlook⟩
    · right
      obtain ⟨es, hes, hbec⟩ := hre.wf.unlink hx
      obtain ⟨d', hd', hre'⟩ := dictShrinkIfNeeded_auto_spec canResize hbec.wf
      refine ⟨d', x, es, ?_, hlook, hre.perm.symm.trans hes,
        hre.toRearranges.then (hbec.rearrange hre'.toRearranges)⟩
      simp [dictGenericDelete, hempty, hd1, hl, hd', hx]
    · exact .inl ⟨d1, by simp [dictGenericDelete, hempty, hd1, hl], hlook, hre.toRearranges⟩

omit [DecidableEq K] in
/-- The pause counter of rehashing is not part of the invariant. -/
lemma Dict.WF.setPause (h : d.WF ty) (n : ℕ) : Dict.WF ty { d with pauserehash := n } :=
  ⟨h.ht0, h.ht1, h.nodup, h.idle, h.allocated, h.rehashidx_ge, h.rehashed⟩

omit [DecidableEq K] in
lemma Accounted.setPause (d : Dict S V) (n : ℕ) : Accounted d { d with pauserehash := n } :=
  Accounted.of_sizeExp_eq rfl rfl rfl Iff.rfl

lemma dictTwoPhaseUnlinkFind_spec (canResize : DictResizeEnable) (k : K) (h : d.WF ty) :
    ∃ d', d.Rearranges ty d' ∧
      ((dictTwoPhaseUnlinkFind ty canResize d k = some (d', none) ∧ d.lookup ty k = none) ∨
        ∃ l x, dictTwoPhaseUnlinkFind ty canResize d k =
            some ({ d' with pauserehash := d'.pauserehash + 1 }, some l) ∧
          d'.entryAt l = some x ∧ d.lookup ty k = some x) := by
  by_cases hempty : dictSize d = 0
  · exact ⟨d, Dict.Rearranges.refl h, .inl ⟨by simp [dictTwoPhaseUnlinkFind, hempty],
      h.lookup_of_empty hempty k⟩⟩
  · obtain ⟨d1, hd1, hre⟩ : ∃ d1, (if dictIsRehashing d then _dictRehashStep ty canResize d
        else some d) = some d1 ∧ d.Rehashes ty d1 := by
      split_ifs
      · exact dictRehashStep_spec canResize h
      · exact ⟨d, rfl, Dict.Rehashes.refl h⟩
    refine ⟨d1, hre.toRearranges, ?_⟩
    rw [← hre.toRearranges.lookup_eq]
    rcases searchTables_spec hre.wf _ k (fun _ => rfl) with
      ⟨l, x, hl, hx, -, hlook⟩ | ⟨hl, hlook⟩
    · exact .inr ⟨l, x, by simp [dictTwoPhaseUnlinkFind, hempty, hd1, hl], hx, hlook⟩
    · exact .inl ⟨by simp [dictTwoPhaseUnlinkFind, hempty, hd1, hl], hlook⟩

omit [DecidableEq K] in
lemma dictTwoPhaseUnlinkFree_spec (canResize : DictResizeEnable) (h : d.WF ty) {l : DictEntryLink}
    (hx : d.entryAt l = some x) :
    ∃ d' es, dictTwoPhaseUnlinkFree ty canResize { d with pauserehash := d.pauserehash + 1 }
        (some l) = some d' ∧ d.entries.Perm (x :: es) ∧ d.Becomes ty d' es := by
  obtain ⟨es, hes, hbec⟩ := (h.setPause (d.pauserehash + 1)).unlink hx
  obtain ⟨d', hd', hre⟩ := dictShrinkIfNeeded_auto_spec canResize hbec.wf
  have hbec' := hbec.rearrange hre.toRearranges
  refine ⟨{ d' with pauserehash := d'.pauserehash - 1 }, es, ?_, hes,
    ⟨hbec'.wf.setPause _, hbec'.perm, ?_, hbec'.pauseAutoResize, ?_⟩⟩
  · have hx' : (Dict.entryAt { d with pauserehash := d.pauserehash + 1 } l).isNone = false := by
      rw [show Dict.entryAt { d with pauserehash := d.pauserehash + 1 } l = some x from hx]
      rfl
    simp only [dictTwoPhaseUnlinkFree, hx', Bool.false_eq_true, if_false, hd', Option.map_some]
  · simp [hbec'.pauserehash]
  · exact ((Accounted.setPause d _).trans hbec'.accounted).trans (Accounted.setPause d' _)

lemma dictTwoPhaseUnlink_spec (canResize : DictResizeEnable) (k : K) (h : d.WF ty) :
    (∃ d', dictTwoPhaseUnlink ty canResize d k = some (d', false) ∧ d.lookup ty k = none ∧
      d.Rearranges ty d') ∨
    (∃ d' x es, dictTwoPhaseUnlink ty canResize d k = some (d', true) ∧ d.lookup ty k = some x ∧
      d.entries.Perm (x :: es) ∧ d.Becomes ty d' es) := by
  obtain ⟨d1, hre, ⟨hd1, hlook⟩ | ⟨l, x, hd1, hx, hlook⟩⟩ :=
    dictTwoPhaseUnlinkFind_spec canResize k h
  · exact .inl ⟨d1, by simp [dictTwoPhaseUnlink, hd1, dictTwoPhaseUnlinkFree], hlook, hre⟩
  · obtain ⟨d', es, hd', hes, hbec⟩ := dictTwoPhaseUnlinkFree_spec canResize hre.wf hx
    refine .inr ⟨d', x, es, ?_, hlook, hre.perm.symm.trans hes, hre.then hbec⟩
    simp [dictTwoPhaseUnlink, hd1, hd']

end RainCall
