import RainCall.Dict.Ops

/-!
# The invariant of a dict and its rehashing operations

`DictHt.WF` says that a table has the length of its exponent, that every entry sits in the bucket of
its hash and that `used` counts the entries. `Dict.WF` adds what ties the two tables together: no
key occurs twice, table 1 exists exactly while rehashing, and the buckets of table 0 below
`rehashidx` are empty.

Resizing and rehashing only rearrange the entries. `Dict.Rearranges` records what such an operation
keeps, including the balance between the callbacks made and the sizes of the tables.
-/

namespace RainCall

open DictHt List

variable {K S V : Type*}

/-! ## Bucket indices -/

@[simp] lemma dicthtSize_some (e : ℕ) : dicthtSize (some e) = 2 ^ e := rfl

lemma bucketIdx_some (ty : DictType K S) (e : ℕ) (k : K) :
    ty.bucketIdx (some e) k = (ty.hashFunction k).toNat % 2 ^ e := by
  simp [DictType.bucketIdx, dicthtSizeMask]

lemma bucketIdx_lt (ty : DictType K S) (e : ℕ) (k : K) :
    ty.bucketIdx (some e) k < dicthtSize (some e) := by
  rw [bucketIdx_some]
  exact Nat.mod_lt _ (Nat.two_pow_pos e)

/-- Masking the bucket of the larger table gives the bucket of the smaller one. -/
lemma bucketIdx_and_mask (ty : DictType K S) {e e' : ℕ} (h : e' ≤ e) (k : K) :
    ty.bucketIdx (some e) k &&& dicthtSizeMask (some e') = ty.bucketIdx (some e') k := by
  rw [bucketIdx_some, bucketIdx_some, dicthtSizeMask, Nat.and_two_pow_sub_one_eq_mod]
  exact Nat.mod_mod_of_dvd _ (pow_dvd_pow 2 h)

/-! ## One table -/

/-- The entries of a table. -/
def DictHt.entries (ht : DictHt S V) : List (DictEntry S V) := ht.table.flatten

/-- Well-formedness of one table. -/
structure DictHt.WF (ty : DictType K S) (ht : DictHt S V) : Prop where
  length : ht.table.length = dicthtSize ht.sizeExp
  /-- An allocated table has between `2 ^ 2` and `2 ^ 60` buckets. -/
  exp_bounds : ∀ e, ht.sizeExp = some e → 2 ≤ e ∧ e ≤ 60
  /-- Every entry sits in bucket `hash(key) & mask`. -/
  placed : ∀ i, ∀ x ∈ bucketAt ht.table i, ty.bucketIdx ht.sizeExp (ty.entryKey x) = i
  used : ht.used = ht.entries.length

namespace DictHt

variable {ty : DictType K S}

lemma wf_reset : (reset : DictHt S V).WF ty where
  length := rfl
  exp_bounds := by simp [reset]
  placed := by simp [reset, bucketAt]
  used := rfl

/-- The table allocated by `_dictResize`. -/
lemma wf_fresh {e : ℕ} (h2 : 2 ≤ e) (h60 : e ≤ 60) :
    (⟨some e, 0, replicate (dicthtSize (some e)) []⟩ : DictHt S V).WF ty where
  length := by simp [dicthtSize]
  exp_bounds := by rintro _ ⟨⟩; exact ⟨h2, h60⟩
  placed := by simp
  used := by simp [entries]

variable {ht : DictHt S V} {x : DictEntry S V}

@[simp] lemma entries_fresh (o : Option ℕ) (n m : ℕ) :
    (⟨o, n, replicate m []⟩ : DictHt S V).entries = [] := by
  simp [entries]

@[simp] lemma entries_reset : (reset : DictHt S V).entries = [] := rfl

lemma WF.mem_bucket (h : ht.WF ty) (hx : x ∈ ht.entries) :
    x ∈ bucketAt ht.table (ty.bucketIdx ht.sizeExp (ty.entryKey x)) := by
  obtain ⟨i, -, hi⟩ := mem_flatten_iff_bucketAt.mp hx
  rwa [h.placed i x hi]

lemma WF.bucketIdx_lt_length (h : ht.WF ty) (hexp : ht.sizeExp ≠ none) (k : K) :
    ty.bucketIdx ht.sizeExp k < ht.table.length := by
  obtain ⟨e, he⟩ := Option.ne_none_iff_exists'.mp hexp
  rw [h.length, he]
  exact bucketIdx_lt ty e k

lemma WF.push (h : ht.WF ty) (hexp : ht.sizeExp ≠ none) {i : ℕ}
    (hi : ty.bucketIdx ht.sizeExp (ty.entryKey x) = i) :
    (ht.push i x).WF ty ∧ (ht.push i x).entries.Perm (x :: ht.entries) := by
  have hlt : i < ht.table.length := hi ▸ h.bucketIdx_lt_length hexp (ty.entryKey x)
  have hperm : (ht.push i x).entries.Perm (x :: ht.entries) := by
    refine (flatten_set_perm hlt _).trans ?_
    exact (flatten_perm_bucketAt ht.table i).symm.cons x
  refine ⟨⟨?_, h.exp_bounds, ?_, ?_⟩, hperm⟩
  · simpa [DictHt.push] using h.length
  · intro j y hy
    by_cases hij : i = j
    · subst hij
      simp only [DictHt.push, bucketAt_set_self hlt, mem_cons] at hy
      rcases hy with rfl | hy
      · exact hi
      · exact h.placed i y hy
    · simp only [DictHt.push, bucketAt_set_ne hij] at hy
      exact h.placed j y hy
  · rw [hperm.length_eq, length_cons, ← h.used]
    rfl

lemma WF.setChain (h : ht.WF ty) {i n : ℕ} {c : List (DictEntry S V)} (hi : i < ht.table.length)
    (hc : ∀ x ∈ c, ty.bucketIdx ht.sizeExp (ty.entryKey x) = i)
    (hn : n + (bucketAt ht.table i).length = ht.used + c.length) :
    (⟨ht.sizeExp, n, ht.table.set i c⟩ : DictHt S V).WF ty where
  length := by simpa using h.length
  exp_bounds := h.exp_bounds
  placed := by
    intro j y hy
    by_cases hij : i = j
    · subst hij
      rw [bucketAt_set_self hi] at hy
      exact hc y hy
    · rw [bucketAt_set_ne hij] at hy
      exact h.placed j y hy
  used := by
    have h1 := length_flatten_set hi c
    have h2 := h.used
    simp only [entries] at h2 ⊢
    omega

lemma WF.unlink (h : ht.WF ty) {i p : ℕ} (hx : (bucketAt ht.table i)[p]? = some x) :
    (ht.unlink i p).WF ty ∧ ht.entries.Perm (x :: (ht.unlink i p).entries) := by
  have hp : p < (bucketAt ht.table i).length := (List.getElem?_eq_some_iff.mp hx).1
  have hget : (bucketAt ht.table i)[p] = x := (List.getElem?_eq_some_iff.mp hx).2
  have hi : i < ht.table.length := by
    by_contra hge
    rw [bucketAt_of_length_le (Nat.le_of_not_lt hge)] at hp
    simp at hp
  have hperm : ht.entries.Perm (x :: (ht.unlink i p).entries) := by
    refine (flatten_perm_bucketAt ht.table i).trans ?_
    refine List.Perm.trans ?_ ((flatten_set_perm hi _).symm.cons x)
    rw [← List.cons_append]
    refine List.Perm.append_right _ ?_
    rw [← hget]
    exact (List.getElem_cons_eraseIdx_perm hp).symm
  refine ⟨?_, hperm⟩
  have hpos : 0 < ht.used := by
    rw [h.used, hperm.length_eq]
    simp
  refine h.setChain hi (fun y hy => h.placed i y (List.mem_of_mem_eraseIdx hy)) ?_
  rw [List.length_eraseIdx_of_lt hp]
  omega

end DictHt

/-! ## The two tables -/

/-- The entries of a dict. -/
def Dict.entries (d : Dict S V) : List (DictEntry S V) := d.ht0.entries ++ d.ht1.entries

/-- Well-formedness of a dict. -/
structure Dict.WF (ty : DictType K S) (d : Dict S V) : Prop where
  ht0 : d.ht0.WF ty
  ht1 : d.ht1.WF ty
  nodup : (d.entries.map ty.entryKey).Nodup
  idle : ¬ dictIsRehashing d → d.ht1 = DictHt.reset
  allocated : dictIsRehashing d → d.ht0.sizeExp ≠ none ∧ d.ht1.sizeExp ≠ none
  /-- `rehashidx` is `-1` or a bucket index. -/
  rehashidx_ge : -1 ≤ d.rehashidx
  /-- The buckets below `rehashidx` have been moved. -/
  rehashed : ∀ i : ℕ, (i : ℤ) < d.rehashidx → bucketAt d.ht0.table i = []

namespace Dict

variable {ty : DictType K S} {d d' d'' : Dict S V}

lemma wf_dictCreate : (dictCreate : Dict S V).WF ty where
  ht0 := wf_reset
  ht1 := wf_reset
  nodup := by simp [entries, dictCreate]
  idle := fun _ => rfl
  allocated := fun h => absurd rfl h
  rehashidx_ge := le_rfl
  rehashed := fun i hi => by simp [dictCreate] at hi; omega

lemma WF.rehashidx_nonneg (h : d.WF ty) (hr : dictIsRehashing d) : 0 ≤ d.rehashidx := by
  have h1 := h.rehashidx_ge
  simp only [dictIsRehashing] at hr
  omega

/-- `dictSize` counts the entries. -/
lemma WF.dictSize_eq (h : d.WF ty) : dictSize d = d.entries.length := by
  rw [dictSize, entries, length_append, h.ht0.used, h.ht1.used]

/-- While table 0 has entries, the next bucket to rehash lies in it. -/
lemma WF.rehashidx_lt (h : d.WF ty) (hu : d.ht0.used ≠ 0) :
    d.rehashidx < dicthtSize d.ht0.sizeExp := by
  have hlen : d.ht0.entries.length ≠ 0 := h.ht0.used ▸ hu
  obtain ⟨x, hx⟩ := exists_mem_of_length_pos (Nat.pos_of_ne_zero hlen)
  obtain ⟨i, hi, hxi⟩ := mem_flatten_iff_bucketAt.mp hx
  by_contra hge
  have hnil := h.rehashed i (by rw [h.ht0.length] at hi; omega)
  simp [hnil] at hxi

end Dict

/-! ## Callbacks -/

/-- What a callback adds to the number of buckets of the owner. -/
def DictCallback.bucketDelta : DictCallback → ℤ
  | .bucketChanged δ => δ
  | .rehashingStarted _ => 0
  | .rehashingCompleted _ => 0

/-- What a callback adds to the number of buckets of tables being rehashed. -/
def DictCallback.overheadDelta : DictCallback → ℤ
  | .bucketChanged _ => 0
  | .rehashingStarted n => n
  | .rehashingCompleted n => -n

/-- The number of buckets of the old table of a rehashing dict. -/
def rehashingOverhead (d : Dict S V) : ℕ :=
  if dictIsRehashing d then dicthtSize d.ht0.sizeExp else 0

lemma rehashingOverhead_of_not {d : Dict S V} (h : ¬ dictIsRehashing d) : rehashingOverhead d = 0 :=
  if_neg h

lemma rehashingOverhead_of_rehashing {d : Dict S V} (h : dictIsRehashing d) :
    rehashingOverhead d = dicthtSize d.ht0.sizeExp :=
  if_pos h

/-- The callbacks made between `d` and `d'` account for the change of the table sizes. -/
def Accounted (d d' : Dict S V) : Prop :=
  ∃ t, d'.trace = d.trace ++ t ∧
    (dictBuckets d' : ℤ) = dictBuckets d + (t.map DictCallback.bucketDelta).sum ∧
    (rehashingOverhead d' : ℤ) = rehashingOverhead d + (t.map DictCallback.overheadDelta).sum

namespace Accounted

variable {d d' d'' : Dict S V}

lemma refl (d : Dict S V) : Accounted d d := ⟨[], by simp⟩

lemma trans (h : Accounted d d') (h' : Accounted d' d'') : Accounted d d'' := by
  obtain ⟨t, ht, hb, ho⟩ := h
  obtain ⟨t', ht', hb', ho'⟩ := h'
  refine ⟨t ++ t', by simp [ht', ht], ?_, ?_⟩
  all_goals
    simp only [map_append, sum_append]
    omega

/-- Operations that neither resize nor rehash need no callback. -/
lemma of_sizeExp_eq (ht : d'.trace = d.trace) (h0 : d'.ht0.sizeExp = d.ht0.sizeExp)
    (h1 : d'.ht1.sizeExp = d.ht1.sizeExp) (hr : dictIsRehashing d' ↔ dictIsRehashing d) :
    Accounted d d' :=
  ⟨[], by simp [ht], by simp [dictBuckets, h0, h1], by simp [rehashingOverhead, h0, hr]⟩

end Accounted

/-- `d'` holds the entries of `d`, possibly in other tables: what resizing and rehashing do. -/
structure Dict.Rearranges (ty : DictType K S) (d d' : Dict S V) : Prop where
  wf : d'.WF ty
  perm : d'.entries.Perm d.entries
  /-- The pause counter of rehashing is unchanged. -/
  pauserehash : d'.pauserehash = d.pauserehash
  /-- The pause counter of automatic resizing is unchanged. -/
  pauseAutoResize : d'.pauseAutoResize = d.pauseAutoResize
  /-- The owner was told about new and freed tables. -/
  accounted : Accounted d d'

namespace Dict.Rearranges

variable {ty : DictType K S} {d d' d'' : Dict S V}

lemma refl (h : d.WF ty) : d.Rearranges ty d :=
  ⟨h, List.Perm.refl _, rfl, rfl, Accounted.refl d⟩

lemma trans (h : d.Rearranges ty d') (h' : d'.Rearranges ty d'') : d.Rearranges ty d'' :=
  ⟨h'.wf, h'.perm.trans h.perm, h'.pauserehash.trans h.pauserehash,
    h'.pauseAutoResize.trans h.pauseAutoResize, h.accounted.trans h'.accounted⟩

lemma dictSize_eq (h : d.Rearranges ty d') (hd : d.WF ty) : dictSize d' = dictSize d := by
  rw [h.wf.dictSize_eq, hd.dictSize_eq, h.perm.length_eq]

end Dict.Rearranges

end RainCall
