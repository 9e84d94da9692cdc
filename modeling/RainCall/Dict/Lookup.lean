import RainCall.Dict.Rehash

/-!
# Looking up, linking and unlinking entries

`searchTables` finds the entry of a key whatever the state of a running rehash, and the three
primitive changes of a dict (linking an entry at the head of a bucket, unlinking one, changing one
in place) keep it well formed.
-/

namespace RainCall

open List Option

variable {K S V : Type*} {ty : DictType K S} {d d' : Dict S V}

/-! ## Tables by number -/

@[simp] lemma Dict.ht_zero (d : Dict S V) : d.ht 0 = d.ht0 := rfl

@[simp] lemma Dict.ht_one (d : Dict S V) : d.ht 1 = d.ht1 := rfl

@[simp] lemma Dict.setHt_zero (d : Dict S V) (ht : DictHt S V) :
    d.setHt 0 ht = { d with ht0 := ht } := rfl

@[simp] lemma Dict.setHt_one (d : Dict S V) (ht : DictHt S V) :
    d.setHt 1 ht = { d with ht1 := ht } := rfl

lemma Dict.WF.ht (h : d.WF ty) (t : Fin 2) : (d.ht t).WF ty :=
  match t with
  | 0 => h.ht0
  | 1 => h.ht1

variable {x : DictEntry S V} {l : DictEntryLink}

lemma Dict.mem_entries_iff :
    x ∈ d.entries ↔ ∃ t, x ∈ (d.ht t).entries := by
  simp [Dict.entries]

/-! ## Searching -/

/-- The index computed before a rehashing step is still right if the rehash goes on. -/
lemma Dict.Rehashes.bucketIdx_eq (h : d.Rehashes ty d') {k : K}
    (hlt : (ty.bucketIdx d.ht0.sizeExp k : ℤ) < d'.rehashidx) :
    ty.bucketIdx d.ht0.sizeExp k = ty.bucketIdx d'.ht0.sizeExp k := by
  have hr : dictIsRehashing d' := by
    simp only [dictIsRehashing]
    omega
  rw [h.exp0 hr]

lemma mem_entries_of_entryAt (hx : d.entryAt l = some x) :
    x ∈ (d.ht l.table).entries := by
  have hmem : x ∈ bucketAt (d.ht l.table).table l.idx := mem_of_getElem? hx
  refine mem_flatten_iff_bucketAt.mpr ⟨l.idx, ?_, hmem⟩
  by_contra hge
  rw [bucketAt_of_length_le (Nat.le_of_not_lt hge)] at hmem
  simp at hmem

variable {ht : DictHt S V}

/-- A table without repeated keys has a key at one position of one chain only. -/
lemma DictHt.WF.position_unique (h : ht.WF ty)
    (hnd : (ht.entries.map ty.entryKey).Nodup) {i j p q : ℕ} {y : DictEntry S V}
    (hx : (bucketAt ht.table i)[p]? = some x) (hy : (bucketAt ht.table j)[q]? = some y)
    (hk : ty.entryKey x = ty.entryKey y) : i = j ∧ p = q := by
  obtain rfl : i = j := by
    rw [← h.placed i x (List.mem_of_getElem? hx), ← h.placed j y (List.mem_of_getElem? hy), hk]
  refine ⟨rfl, ?_⟩
  have hchain : ((bucketAt ht.table i).map ty.entryKey).Nodup := by
    have := ((flatten_perm_bucketAt ht.table i).map ty.entryKey).nodup_iff.mp hnd
    rw [List.map_append] at this
    exact this.of_append_left
  have hp : p < ((bucketAt ht.table i).map ty.entryKey).length := by
    simpa using (List.getElem?_eq_some_iff.mp hx).1
  refine (List.getElem?_inj hp hchain).mp ?_
  rw [List.getElem?_map, List.getElem?_map, hx, hy, map_some, map_some, hk]

/-- In a well-formed dict a key sits at one position only. -/
lemma Dict.WF.link_unique (h : d.WF ty) {l' : DictEntryLink} {y : DictEntry S V}
    (hx : d.entryAt l = some x) (hy : d.entryAt l' = some y) (hk : ty.entryKey x = ty.entryKey y) :
    l = l' := by
  have hnd := h.nodup
  rw [Dict.entries, map_append, nodup_append] at hnd
  obtain ⟨hnd0, hnd1, hdisj⟩ := hnd
  have hmx := mem_entries_of_entryAt hx
  have hmy := mem_entries_of_entryAt hy
  obtain ⟨t, i, p⟩ := l
  obtain ⟨t', j, q⟩ := l'
  obtain rfl | rfl : t = 0 ∨ t = 1 := by omega
  all_goals obtain rfl | rfl : t' = 0 ∨ t' = 1 := by omega
  · obtain ⟨rfl, rfl⟩ := h.ht0.position_unique hnd0 hx hy hk
    rfl
  · exact absurd hk (hdisj _ (mem_map_of_mem hmx) _ (mem_map_of_mem hmy))
  · exact absurd hk.symm (hdisj _ (mem_map_of_mem hmy) _ (mem_map_of_mem hmx))
  · obtain ⟨rfl, rfl⟩ := h.ht1.position_unique hnd1 hx hy hk
    rfl

variable {t : Fin 2}

section Search

variable [DecidableEq K]

/-- The map a dict stands for. -/
def Dict.lookup (ty : DictType K S) (d : Dict S V) (k : K) : Option (DictEntry S V) :=
  d.entries.find? fun x => decide (ty.entryKey x = k)

variable {k : K}

lemma Dict.lookup_eq_none :
    d.lookup ty k = none ↔ ∀ x ∈ d.entries, ty.entryKey x ≠ k := by
  simp [Dict.lookup, find?_eq_none]

lemma Dict.WF.lookup_of_empty (h : d.WF ty) (hempty : dictSize d = 0) (k : K) :
    d.lookup ty k = none := by
  have hnil : d.entries = [] := length_eq_zero_iff.mp (h.dictSize_eq ▸ hempty)
  rw [Dict.lookup, hnil, find?_nil]

lemma Dict.WF.lookup_eq_some (h : d.WF ty) :
    d.lookup ty k = some x ↔ x ∈ d.entries ∧ ty.entryKey x = k := by
  constructor
  · intro hx
    exact ⟨mem_of_find?_eq_some hx, by simpa using find?_some hx⟩
  · rintro ⟨hx, rfl⟩
    exact find?_eq_some_of_mem h.nodup hx

lemma Dict.Rearranges.lookup_eq (h : d.Rearranges ty d') : d'.lookup ty = d.lookup ty := by
  funext k
  exact find?_key_perm h.wf.nodup h.perm k

lemma entryAt_of_searchHt {l : DictEntryLink} (hl : searchHt ty d k t = some l) :
    l.table = t ∧ ∃ x, d.entryAt l = some x ∧ ty.entryKey x = k := by
  simp only [searchHt, map_eq_some_iff] at hl
  obtain ⟨p, hp, rfl⟩ := hl
  obtain ⟨hlt, hpred, -⟩ := findIdx?_eq_some_iff_getElem.mp hp
  refine ⟨rfl, _, getElem?_eq_getElem hlt, by simpa using hpred⟩

/-- A chain without the key means that the table does not hold it. -/
lemma searchHt_eq_none (h : d.WF ty) (hn : searchHt ty d k t = none) :
    ∀ x ∈ (d.ht t).entries, ty.entryKey x ≠ k := by
  rintro x hx rfl
  simp only [searchHt, map_eq_none_iff, findIdx?_eq_none_iff] at hn
  simpa using hn x ((h.ht t).mem_bucket hx)

/-- The loop over the two tables finds the entry of a key. The bucket index used to skip table 0 may
stem from before a resize, as long as it is right when the table is skipped. -/
lemma searchTables_spec (h : d.WF ty) (idx : ℕ) (k : K)
    (hidx : (idx : ℤ) < d.rehashidx → idx = ty.bucketIdx d.ht0.sizeExp k) :
    (∃ l x, searchTables ty d idx k = some l ∧ d.entryAt l = some x ∧ ty.entryKey x = k ∧
      d.lookup ty k = some x) ∨
    (searchTables ty d idx k = none ∧ d.lookup ty k = none) := by
  cases hs : searchTables ty d idx k with
  | some l =>
    left
    obtain ⟨x, hx, hk⟩ : ∃ x, d.entryAt l = some x ∧ ty.entryKey x = k := by
      rcases or_eq_some_iff.mp hs with h0 | ⟨-, h1⟩
      · split_ifs at h0
        exact (entryAt_of_searchHt h0).2
      · split_ifs at h1
        exact (entryAt_of_searchHt h1).2
    refine ⟨l, x, rfl, hx, hk, h.lookup_eq_some.mpr ⟨?_, hk⟩⟩
    exact Dict.mem_entries_iff.mpr ⟨_, mem_entries_of_entryAt hx⟩
  | none =>
    right
    refine ⟨rfl, Dict.lookup_eq_none.mpr fun x hx hk => ?_⟩
    obtain ⟨h0, h1⟩ := or_eq_none_iff.mp hs
    rcases mem_append.mp hx with hx | hx
    · by_cases hlt : (idx : ℤ) < d.rehashidx
      · -- the bucket of the key in table 0 is rehashed already
        have hmem := h.ht0.mem_bucket hx
        rw [hk, ← hidx hlt, h.rehashed idx hlt] at hmem
        simp at hmem
      · rw [if_neg hlt] at h0
        exact searchHt_eq_none h h0 x hx hk
    · by_cases hr : dictIsRehashing d
      · rw [if_pos hr] at h1
        exact searchHt_eq_none h h1 x hx hk
      · rw [h.idle hr] at hx
        simp at hx

end Search

/-! ## Changing the entries -/

/-- `d'` has the entries `es` and is otherwise as after some callbacks on `d`. -/
structure Dict.Becomes (ty : DictType K S) (d d' : Dict S V) (es : List (DictEntry S V)) :
    Prop where
  wf : d'.WF ty
  perm : d'.entries.Perm es
  pauserehash : d'.pauserehash = d.pauserehash
  pauseAutoResize : d'.pauseAutoResize = d.pauseAutoResize
  accounted : Accounted d d'

namespace Dict

variable {d'' : Dict S V} {es : List (DictEntry S V)}

lemma Rearranges.becomes (h : d.Rearranges ty d') : d.Becomes ty d' d.entries :=
  ⟨h.wf, h.perm, h.pauserehash, h.pauseAutoResize, h.accounted⟩

lemma Becomes.rearrange (h : d.Becomes ty d' es) (h' : d'.Rearranges ty d'') :
    d.Becomes ty d'' es :=
  ⟨h'.wf, h'.perm.trans h.perm, h'.pauserehash.trans h.pauserehash,
    h'.pauseAutoResize.trans h.pauseAutoResize, h.accounted.trans h'.accounted⟩

lemma Becomes.congr {es' : List (DictEntry S V)} (h : d.Becomes ty d' es) (hes : es.Perm es') :
    d.Becomes ty d' es' :=
  ⟨h.wf, h.perm.trans hes, h.pauserehash, h.pauseAutoResize, h.accounted⟩

lemma Becomes.dictSize_eq (h : d.Becomes ty d' es) : dictSize d' = es.length := by
  rw [h.wf.dictSize_eq, h.perm.length_eq]

/-- First rearrange, then change. -/
lemma Rearranges.then (h : d.Rearranges ty d') (h' : d'.Becomes ty d'' es) : d.Becomes ty d'' es :=
  ⟨h'.wf, h'.perm, h'.pauserehash.trans h.pauserehash,
    h'.pauseAutoResize.trans h.pauseAutoResize, h.accounted.trans h'.accounted⟩

/-- Linking an entry with a new key in the table that receives new keys. -/
lemma WF.push (h : d.WF ty) (hexp : (d.ht (insertTable d)).sizeExp ≠ none)
    (hnew : ∀ y ∈ d.entries, ty.entryKey y ≠ ty.entryKey x) :
    d.Becomes ty (d.setHt (insertTable d) ((d.ht (insertTable d)).push
      (ty.bucketIdx (d.ht (insertTable d)).sizeExp (ty.entryKey x)) x)) (x :: d.entries) := by
  have hnd : ((x :: d.entries).map ty.entryKey).Nodup := by
    rw [map_cons, nodup_cons]
    refine ⟨fun hmem => ?_, h.nodup⟩
    obtain ⟨y, hy, hxy⟩ := mem_map.mp hmem
    exact hnew y hy hxy
  obtain ⟨hwf, hperm⟩ := (h.ht (insertTable d)).push hexp rfl
  by_cases hr : dictIsRehashing d
  · have ht : insertTable d = 1 := if_pos hr
    rw [ht] at hwf hperm hexp ⊢
    have hperm' : (d.setHt 1 ((d.ht 1).push
        (ty.bucketIdx (d.ht 1).sizeExp (ty.entryKey x)) x)).entries.Perm (x :: d.entries) :=
      (hperm.append_left d.ht0.entries).trans perm_middle
    refine ⟨⟨h.ht0, hwf, ?_, fun hn => absurd hr hn, fun _ => ⟨(h.allocated hr).1, hexp⟩,
      h.rehashidx_ge, h.rehashed⟩, hperm', rfl, rfl, Accounted.of_sizeExp_eq rfl rfl rfl Iff.rfl⟩
    exact (hperm'.map _).nodup_iff.mpr hnd
  · have ht : insertTable d = 0 := if_neg hr
    rw [ht] at hwf hperm hexp ⊢
    have hperm' : (d.setHt 0 ((d.ht 0).push
        (ty.bucketIdx (d.ht 0).sizeExp (ty.entryKey x)) x)).entries.Perm (x :: d.entries) :=
      hperm.append_right d.ht1.entries
    have hidx : d.rehashidx = -1 := not_not.mp hr
    refine ⟨⟨hwf, h.ht1, ?_, fun _ => h.idle hr, fun hr' => absurd hr' hr, h.rehashidx_ge, ?_⟩,
      hperm', rfl, rfl, Accounted.of_sizeExp_eq rfl rfl rfl Iff.rfl⟩
    · exact (hperm'.map _).nodup_iff.mpr hnd
    · intro i hi
      simp only [setHt_zero] at hi
      omega

/-- Replacing the chain of a bucket that has the entry `x` by one that holds `b` instead. -/
lemma WF.rechain (h : d.WF ty) {i p u : ℕ}
    {c b : List (DictEntry S V)} (hx : d.entryAt ⟨t, i, p⟩ = some x)
    (hht : ht = { d.ht t with table := (d.ht t).table.set i c, used := u }) (hwf : ht.WF ty)
    (hperm : (d.ht t).entries.Perm (x :: es)) (hperm' : ht.entries.Perm (b ++ es))
    (hb : (b.map ty.entryKey).Sublist [ty.entryKey x]) :
    ∃ es', d.entries.Perm (x :: es') ∧ d.Becomes ty (d.setHt t ht) (b ++ es') := by
  have hnodup : ∀ es1 es2 : List (DictEntry S V), d.entries.Perm (x :: es1) →
      es2.Perm (b ++ es1) → (es2.map ty.entryKey).Nodup := by
    intro es1 es2 h1 h2
    have hnd := (h1.map ty.entryKey).nodup_iff.mp h.nodup
    rw [(h2.map _).nodup_iff, map_append]
    exact (hb.append_right _).nodup hnd
  subst hht
  match t with
  | 0 =>
    have hp : d.entries.Perm (x :: (es ++ d.ht1.entries)) := hperm.append_right _
    have hp' := hperm'.append_right d.ht1.entries
    rw [append_assoc] at hp'
    refine ⟨es ++ d.ht1.entries, hp, ⟨hwf, h.ht1, hnodup _ _ hp hp', h.idle, h.allocated,
      h.rehashidx_ge, ?_⟩, hp', rfl, rfl, Accounted.of_sizeExp_eq rfl rfl rfl Iff.rfl⟩
    intro j hj
    have hnil := h.rehashed j hj
    by_cases hij : i = j
    · -- the bucket would have been empty
      subst hij
      simp [Dict.entryAt, hnil] at hx
    · simpa [bucketAt_set_ne hij] using hnil
  | 1 =>
    have hp : d.entries.Perm (x :: (d.ht0.entries ++ es)) :=
      (hperm.append_left _).trans perm_middle
    have hp' := (hperm'.append_left d.ht0.entries).trans (perm_append_comm_assoc ..)
    refine ⟨d.ht0.entries ++ es, hp, ⟨h.ht0, hwf, hnodup _ _ hp hp', ?_, h.allocated,
      h.rehashidx_ge, h.rehashed⟩, hp', rfl, rfl, Accounted.of_sizeExp_eq rfl rfl rfl Iff.rfl⟩
    intro hn
    simp [Dict.entryAt, h.idle hn, DictHt.reset, bucketAt] at hx

lemma WF.unlink (h : d.WF ty) {l : DictEntryLink} (hx : d.entryAt l = some x) :
    ∃ es, d.entries.Perm (x :: es) ∧
      d.Becomes ty (d.setHt l.table ((d.ht l.table).unlink l.idx l.pos)) es := by
  obtain ⟨hwf, hperm⟩ := (h.ht l.table).unlink hx
  exact h.rechain (b := []) hx rfl hwf hperm (List.Perm.refl _) (nil_sublist _)

end Dict

variable {f : DictEntry S V → DictEntry S V}

lemma DictHt.WF.modify (h : ht.WF ty) {i p : ℕ} (hx : (bucketAt ht.table i)[p]? = some x)
    (hf : ty.entryKey (f x) = ty.entryKey x) :
    (ht.setChain i ((bucketAt ht.table i).modify p f)).WF ty ∧
      ∃ es, ht.entries.Perm (x :: es) ∧
        (ht.setChain i ((bucketAt ht.table i).modify p f)).entries.Perm (f x :: es) := by
  obtain ⟨hp, hget⟩ := List.getElem?_eq_some_iff.mp hx
  have hi : i < ht.table.length := by
    by_contra hge
    rw [bucketAt_of_length_le (Nat.le_of_not_lt hge)] at hp
    simp at hp
  have hmod := modify_perm hx f
  refine ⟨?_, (bucketAt ht.table i).eraseIdx p ++ (ht.table.set i []).flatten, ?_, ?_⟩
  · refine h.setChain hi ?_ (by simp)
    intro y hy
    rcases List.mem_cons.mp (hmod.mem_iff.mp hy) with rfl | hy
    · rw [hf]
      exact h.placed i x (hget ▸ List.getElem_mem hp)
    · exact h.placed i y (List.mem_of_mem_eraseIdx hy)
  · refine (flatten_perm_bucketAt ht.table i).trans ?_
    rw [← hget]
    exact (List.getElem_cons_eraseIdx_perm hp).symm.append_right _
  · refine (flatten_set_perm hi _).trans ?_
    exact hmod.append_right _

lemma Dict.WF.modifyAt (h : d.WF ty) (hx : d.entryAt l = some x)
    (hf : ty.entryKey (f x) = ty.entryKey x) :
    ∃ es, d.entries.Perm (x :: es) ∧ d.Becomes ty (d.modifyAt l f) (f x :: es) := by
  obtain ⟨hwf, es, hperm, hperm'⟩ := (h.ht l.table).modify hx hf
  exact h.rechain (b := [f x]) hx rfl hwf hperm hperm' (by simp [hf])

end RainCall
