import RainCall.Dict.OpsSpec

/-!
# Safe iterators of a dict

`dictNext` walks the chains of table 0 and, while the dict is rehashing, those of table 1. It stores
a pointer to the entry it returns and one to the next entry of the chain, so that the caller may
delete the entry returned. A safe iterator pauses rehashing when it starts.

A pointer to an entry is the key of the entry, since keys are unique in a dict. `remaining` lists
the entries an iterator has not passed yet. `dictNext_spec`: a call returns the first of them and
leaves the others. `DictIterator.Valid.filters`: deleting the entry just returned changes nothing
about them, provided that the resize this may start does not move entries at once.
-/

namespace RainCall

section Model

variable {K S V : Type*}

/-- `dictIterator`, without the fields of unsafe iterators and the dict it belongs to. -/
structure DictIterator (K : Type*) where
  table : Fin 2
  index : ℤ
  /-- The key of the entry the pointer `entry` points to. -/
  entry : Option K
  /-- The key of the entry the pointer `nextEntry` points to. -/
  nextEntry : Option K
deriving DecidableEq, Repr

def dictInitSafeIterator : DictIterator K := ⟨0, -1, none, none⟩

/-- The iterator has not been used yet. -/
def DictIterator.Unused (iter : DictIterator K) : Prop := iter.index = -1 ∧ iter.table = 0

instance (iter : DictIterator K) : Decidable iter.Unused :=
  inferInstanceAs (Decidable (_ ∧ _))

/-- `dictResetIterator` of a safe iterator. -/
def dictResetIterator (d : Dict S V) (iter : DictIterator K) : Dict S V :=
  if iter.Unused then d else { d with pauserehash := d.pauserehash - 1 }

/-- An iterator that is used for the first time pauses rehashing. -/
def DictIterator.pausing (d : Dict S V) (iter : DictIterator K) : Dict S V :=
  if iter.Unused then { d with pauserehash := d.pauserehash + 1 } else d

/-- The first half of the loop body of `dictNext`: go to the next bucket. The result is its chain,
or `none` at the end of the last table. -/
def dictNextBucket (d : Dict S V) (iter : DictIterator K) :
    Dict S V × DictIterator K × Option (List (DictEntry S V)) :=
  -- skip the rehashed slots of table 0
  let index := (if iter.Unused ∧ dictIsRehashing d then d.rehashidx - 1 else iter.index) + 1
  if (dicthtSize (d.ht iter.table).sizeExp : ℤ) ≤ index then
    if dictIsRehashing d ∧ iter.table = 0 then
      (iter.pausing d, { iter with table := 1, index := 0 }, some (bucketAt d.ht1.table 0))
    else (iter.pausing d, { iter with index := index }, none)
  else (iter.pausing d, { iter with index := index },
    some (bucketAt (d.ht iter.table).table index.toNat))

variable [DecidableEq K]

/-- The part of its chain that starts with the entry of key `k`; `none` for a dangling pointer. -/
def Dict.chainFrom (ty : DictType K S) (d : Dict S V) (k : K) : Option (List (DictEntry S V)) :=
  ((d.ht0.table ++ d.ht1.table).find? fun c => c.any fun e => decide (ty.entryKey e = k)).map
    (List.dropWhile fun e => decide (ty.entryKey e ≠ k))

omit [DecidableEq K] in
/-- The second half of the loop body of `dictNext`: return the first entry of the chain, if any. -/
def DictIterator.enter (ty : DictType K S) (iter : DictIterator K) :
    List (DictEntry S V) → Option (DictIterator K × DictEntry S V)
  | [] => none
  | e :: c =>
    some ({ iter with entry := some (ty.entryKey e), nextEntry := c.head?.map ty.entryKey }, e)

/-- The loop of `dictNext`, cut off after `fuel` iterations. -/
def dictNextLoop (ty : DictType K S) :
    ℕ → Dict S V → DictIterator K → Option (Dict S V × DictIterator K × Option (DictEntry S V))
  | 0, _, _ => none
  | fuel + 1, d, iter =>
    if iter.entry.isSome then
      match iter.nextEntry with
      | none => dictNextLoop ty fuel d { iter with entry := none }
      | some k =>
        (d.chainFrom ty k).bind fun c => (iter.enter ty c).map fun r => (d, r.1, some r.2)
    else
      match dictNextBucket d iter with
      | (d, iter, none) => some (d, iter, none)
      | (d, iter, some c) =>
        match iter.enter ty c with
        | none => dictNextLoop ty fuel d iter
        | some r => some (d, r.1, some r.2)

def dictNext (ty : DictType K S) (d : Dict S V) (iter : DictIterator K) :
    Option (Dict S V × DictIterator K × Option (DictEntry S V)) :=
  dictNextLoop ty (dictBuckets d + 2) d iter

/-- The part of the current chain that the iterator has not passed. -/
def DictIterator.chainLeft (ty : DictType K S) (d : Dict S V) (iter : DictIterator K) :
    List (DictEntry S V) :=
  match iter.entry, iter.nextEntry with
  | some _, some k =>
    (bucketAt (d.ht iter.table).table iter.index.toNat).dropWhile fun e =>
      decide (ty.entryKey e ≠ k)
  | _, _ => []

omit [DecidableEq K] in
/-- The buckets that the iterator has not reached. -/
def DictIterator.bucketsLeft (d : Dict S V) (iter : DictIterator K) : List (DictEntry S V) :=
  ((d.ht iter.table).table.drop (iter.index + 1).toNat).flatten ++
    if iter.table = 0 then d.ht1.table.flatten else []

/-- The entries the iterator has not passed, in the order in which it returns them. -/
def DictIterator.remaining (ty : DictType K S) (d : Dict S V) (iter : DictIterator K) :
    List (DictEntry S V) :=
  iter.chainLeft ty d ++ iter.bucketsLeft d

end Model

open Dict DictIterator
open Option hiding or_self
open List hiding lookup

variable {K S V : Type*} {ty : DictType K S} {d d' : Dict S V} {iter : DictIterator K}

/-! ### The next bucket -/

/-- The number of buckets the iterator has not reached. -/
def DictIterator.turns (d : Dict S V) (iter : DictIterator K) : ℕ :=
  (dicthtSize (d.ht iter.table).sizeExp - (iter.index + 1)).toNat +
    if iter.table = 0 then dicthtSize d.ht1.sizeExp else 0

/-- The index `dictNext` goes to: buckets that are skipped have been rehashed. -/
lemma nextIndex_spec (h : d.WF ty) {index : ℤ}
    (hi : index = (if iter.Unused ∧ dictIsRehashing d then d.rehashidx - 1 else iter.index) + 1) :
    iter.index + 1 ≤ index ∧ ((d.ht iter.table).table.drop (iter.index + 1).toNat).flatten =
      ((d.ht iter.table).table.drop index.toNat).flatten := by
  split_ifs at hi with hskip
  · obtain ⟨⟨hunused, htable⟩, hr⟩ := hskip
    have hnonneg := h.rehashidx_nonneg hr
    have hi' : index = d.rehashidx := by omega
    refine ⟨by omega, ?_⟩
    rw [hunused, htable]
    exact (flatten_drop_of_empty fun j hj => h.rehashed j (by omega)).symm
  · rw [hi]
    exact ⟨le_rfl, rfl⟩

lemma bucketsLeft_eq_nil (h : d.WF ty) (hlast : ¬ (dictIsRehashing d ∧ iter.table = 0))
    (hdrop : ((d.ht iter.table).table.drop (iter.index + 1).toNat).flatten = []) :
    iter.bucketsLeft d = [] := by
  rw [bucketsLeft, hdrop]
  split_ifs with htable
  · rw [h.idle fun hr => hlast ⟨hr, htable⟩]
    rfl
  · rfl

/-- Going to the next bucket. -/
lemma dictNextBucket_spec (h : d.WF ty) (hindex : -1 ≤ iter.index) :
    (∃ iter', dictNextBucket d iter = (iter.pausing d, iter', none) ∧ iter.bucketsLeft d = [] ∧
        iter'.bucketsLeft d = [] ∧ iter'.entry = iter.entry ∧ 0 ≤ iter'.index) ∨
      ∃ iter' c, dictNextBucket d iter = (iter.pausing d, iter', some c) ∧
        c = bucketAt (d.ht iter'.table).table iter'.index.toNat ∧
        iter.bucketsLeft d = c ++ iter'.bucketsLeft d ∧ iter'.entry = iter.entry ∧ 0 ≤ iter'.index ∧
        iter'.turns d < iter.turns d := by
  rw [dictNextBucket]
  generalize hi :
    (if iter.Unused ∧ dictIsRehashing d then d.rehashidx - 1 else iter.index) + 1 = index
  obtain ⟨hge, hdrop⟩ := nextIndex_spec h hi.symm
  have hlength := (h.ht iter.table).length
  by_cases hend : (dicthtSize (d.ht iter.table).sizeExp : ℤ) ≤ index
  · have hnil : ∀ n : ℕ, ((d.ht iter.table).table.drop (index.toNat + n)).flatten = [] := by
      intro n
      rw [drop_eq_nil_of_le (by omega), flatten_nil]
    rw [if_pos hend]
    by_cases hswitch : dictIsRehashing d ∧ iter.table = 0
    · -- go on with the first bucket of table 1
      have hsize : 0 < dicthtSize d.ht1.sizeExp := by
        obtain ⟨e, he⟩ := ne_none_iff_exists'.mp (h.allocated hswitch.1).2
        rw [he]
        exact Nat.two_pow_pos e
      rw [if_pos hswitch]
      refine .inr ⟨_, _, rfl, rfl, ?_, rfl, le_rfl, ?_⟩
      · have hleft : iter.bucketsLeft d = d.ht1.table.flatten := by
          rw [bucketsLeft, hdrop, ← Nat.add_zero index.toNat, hnil 0,
            nil_append, if_pos hswitch.2]
        rw [hleft, bucketsLeft, if_neg (by simp), append_nil]
        exact flatten_drop d.ht1.table 0
      · have hturns : iter.turns d ≥ dicthtSize d.ht1.sizeExp := by
          rw [turns, if_pos hswitch.2]
          omega
        refine lt_of_lt_of_le ?_ hturns
        have hone : (1 : Fin 2) ≠ 0 := by decide
        simp only [turns, ht, if_neg hone]
        omega
    · rw [if_neg hswitch]
      refine .inl ⟨_, rfl, bucketsLeft_eq_nil h hswitch (by rw [hdrop]; exact hnil 0),
        bucketsLeft_eq_nil h hswitch ?_, rfl, by dsimp only; omega⟩
      rw [show (index + 1).toNat = index.toNat + 1 by omega]
      exact hnil 1
  · rw [if_neg hend]
    refine .inr ⟨_, _, rfl, rfl, ?_, rfl, by dsimp only; omega, ?_⟩
    · rw [bucketsLeft, bucketsLeft, hdrop, flatten_drop,
        append_assoc]
      rw [show (index + 1).toNat = index.toNat + 1 by omega]
    · rw [turns, turns]
      dsimp only
      omega

/-! ### Pointers -/

/-- What an iterator relies on. -/
structure DictIterator.Valid [DecidableEq K] (ty : DictType K S) (d : Dict S V)
    (iter : DictIterator K) : Prop where
  index : -1 ≤ iter.index
  /-- The pointer `nextEntry` points into the current bucket. -/
  next : ∀ k k', iter.entry = some k → iter.nextEntry = some k' →
    ∃ x ∈ bucketAt (d.ht iter.table).table iter.index.toNat, ty.entryKey x = k'
  /-- The entry returned last is behind the iterator. -/
  entry : ∀ k, iter.entry = some k → 0 ≤ iter.index ∧ ∀ x ∈ iter.remaining ty d, ty.entryKey x ≠ k

/-- What a call of `dictNext` relies on. -/
structure DictIterator.Pointing (ty : DictType K S) (d : Dict S V) (iter : DictIterator K) :
    Prop where
  index : -1 ≤ iter.index
  nonneg : iter.entry.isSome → 0 ≤ iter.index
  /-- The pointer `nextEntry` points into the current bucket. -/
  next : ∀ k, iter.entry.isSome → iter.nextEntry = some k →
    ∃ x ∈ bucketAt (d.ht iter.table).table iter.index.toNat, ty.entryKey x = k

section Pointers

variable [DecidableEq K]

lemma DictIterator.Valid.pointing (hv : iter.Valid ty d) : iter.Pointing ty d := by
  refine ⟨hv.index, fun hk => ?_, fun k' hk hk' => ?_⟩
  all_goals obtain ⟨k, hk⟩ := isSome_iff_exists.mp hk
  · exact (hv.entry k hk).1
  · exact hv.next k k' hk hk'

variable {k : K} {x : DictEntry S V} {pre rest : List (DictEntry S V)} {r : Option (DictEntry S V)}
  {canResize : DictResizeEnable}

/-- A pointer to an entry of a bucket is followed into that bucket. -/
lemma chainFrom_eq (h : d.WF ty) {t : Fin 2} {i : ℕ}
    (hk : ∃ x ∈ bucketAt (d.ht t).table i, ty.entryKey x = k) :
    d.chainFrom ty k =
      some ((bucketAt (d.ht t).table i).dropWhile fun e => decide (ty.entryKey e ≠ k)) := by
  obtain ⟨x, hx, hxk⟩ := hk
  obtain ⟨p, hp⟩ := getElem?_of_mem hx
  have hmem : ∀ t : Fin 2, ∀ c ∈ (d.ht t).table, c ∈ d.ht0.table ++ d.ht1.table := by
    intro t c hc
    obtain rfl | rfl : t = 0 ∨ t = 1 := by omega
    · exact mem_append_left _ hc
    · exact mem_append_right _ hc
  have hlt : i < (d.ht t).table.length := by
    by_contra hge
    rw [bucketAt_of_length_le (Nat.le_of_not_lt hge)] at hx
    simp at hx
  have hbucket : bucketAt (d.ht t).table i = (d.ht t).table[i] := getD_eq_getElem _ _ hlt
  -- the only chain with an entry of this key is the bucket
  have hunique : ∀ c ∈ d.ht0.table ++ d.ht1.table, (∃ y ∈ c, ty.entryKey y = k) →
      c = bucketAt (d.ht t).table i := by
    rintro c hc ⟨y, hy, hyk⟩
    obtain ⟨q, hq⟩ := getElem?_of_mem hy
    obtain ⟨t', hc'⟩ : ∃ t' : Fin 2, c ∈ (d.ht t').table := by
      rcases mem_append.mp hc with hc | hc
      · exact ⟨0, hc⟩
      · exact ⟨1, hc⟩
    obtain ⟨j, hj, rfl⟩ := mem_iff_getElem.mp hc'
    have hj' : bucketAt (d.ht t').table j = (d.ht t').table[j] := getD_eq_getElem _ _ hj
    have hlink : (⟨t', j, q⟩ : DictEntryLink) = ⟨t, i, p⟩ := by
      refine h.link_unique ?_ hp (hyk.trans hxk.symm)
      rw [entryAt, hj']
      exact hq
    injection hlink with h1 h2 h3
    subst h1 h2
    exact hj'.symm
  rw [chainFrom]
  cases hfind : (d.ht0.table ++ d.ht1.table).find? fun c => c.any fun e =>
    decide (ty.entryKey e = k) with
  | none =>
    have hnone := find?_eq_none.mp hfind _ (hmem t _ (getElem_mem hlt))
    rw [← hbucket] at hnone
    exact absurd (any_eq_true.mpr ⟨x, hx, by simpa using hxk⟩) hnone
  | some c =>
    have hany : (c.any fun e => decide (ty.entryKey e = k)) = true := by
      simpa using find?_some hfind
    obtain ⟨y, hy, hyk⟩ := any_eq_true.mp hany
    rw [hunique c (mem_of_find?_eq_some hfind) ⟨y, hy, by simpa using hyk⟩, map_some]

/-- The iterator after it has entered a chain at its first entry. -/
def DictIterator.entered (ty : DictType K S) (iter : DictIterator K) (x : DictEntry S V)
    (rest : List (DictEntry S V)) : DictIterator K :=
  { iter with entry := some (ty.entryKey x), nextEntry := rest.head?.map ty.entryKey }

lemma chainLeft_entered
    (hnd : ((bucketAt (d.ht iter.table).table iter.index.toNat).map ty.entryKey).Nodup)
    (hbucket : bucketAt (d.ht iter.table).table iter.index.toNat = pre ++ x :: rest) :
    (iter.entered ty x rest).chainLeft ty d = rest := by
  cases rest with
  | nil => rfl
  | cons y rest =>
    change (bucketAt (d.ht iter.table).table iter.index.toNat).dropWhile _ = y :: rest
    have hsplit : pre ++ x :: y :: rest = (pre ++ [x]) ++ y :: rest := by
      rw [append_assoc, singleton_append]
    rw [hbucket, hsplit] at hnd ⊢
    exact dropWhile_ne_key hnd

omit [DecidableEq K] in
/-- The keys of a bucket are distinct. -/
lemma Dict.WF.bucket_nodup (h : d.WF ty) (t : Fin 2) (i : ℕ) :
    ((bucketAt (d.ht t).table i).map ty.entryKey).Nodup := by
  have hnd := h.nodup
  rw [entries, map_append, nodup_append] at hnd
  have hht : ((d.ht t).entries.map ty.entryKey).Nodup := by
    obtain rfl | rfl : t = 0 ∨ t = 1 := by omega
    · exact hnd.1
    · exact hnd.2.1
  have hperm := ((flatten_perm_bucketAt (d.ht t).table i).map ty.entryKey).nodup_iff.mp hht
  rw [map_append] at hperm
  exact hperm.of_append_left

omit [DecidableEq K] in
/-- A part of the current bucket and the buckets behind it are a part of the entries. -/
lemma append_bucketsLeft_sublist (hindex : 0 ≤ iter.index) {c : List (DictEntry S V)}
    (hc : c.Sublist (bucketAt (d.ht iter.table).table iter.index.toNat)) :
    (c ++ iter.bucketsLeft d).Sublist d.entries := by
  have htable : (c ++ ((d.ht iter.table).table.drop (iter.index + 1).toNat).flatten).Sublist
      (d.ht iter.table).table.flatten := by
    refine (hc.append_right _).trans ?_
    rw [show (iter.index + 1).toNat = iter.index.toNat + 1 by omega, ← flatten_drop]
    exact (drop_sublist _ _).flatten
  rw [bucketsLeft, ← append_assoc, entries]
  obtain ht | ht : iter.table = 0 ∨ iter.table = 1 := by omega
  · rw [ht] at htable ⊢
    exact htable.append (List.Sublist.refl _)
  · rw [ht] at htable ⊢
    rw [if_neg (by decide), append_nil]
    exact htable.trans (sublist_append_right _ _)

/-- Entering a chain at its first entry: the entries before it are behind the iterator. -/
lemma DictIterator.valid_entered (h : d.WF ty) (hindex : 0 ≤ iter.index)
    (hbucket : bucketAt (d.ht iter.table).table iter.index.toNat = pre ++ x :: rest) :
    (iter.entered ty x rest).Valid ty d ∧
      (iter.entered ty x rest).remaining ty d = rest ++ iter.bucketsLeft d := by
  have hrem : (iter.entered ty x rest).remaining ty d = rest ++ iter.bucketsLeft d := by
    rw [remaining, chainLeft_entered (h.bucket_nodup _ _) hbucket]
    rfl
  refine ⟨⟨by change -1 ≤ iter.index; omega, ?_, ?_⟩, hrem⟩
  · intro k k' _ hk'
    obtain ⟨y, hy, rfl⟩ := map_eq_some_iff.mp hk'
    refine ⟨y, ?_, rfl⟩
    change y ∈ bucketAt (d.ht iter.table).table iter.index.toNat
    rw [hbucket]
    exact mem_append_right _ (mem_cons_of_mem x (mem_of_head? hy))
  · rintro k ⟨rfl⟩
    refine ⟨hindex, fun y hy hyx => ?_⟩
    -- `x` and what remains are a part of the entries without repeated keys
    have hsub : (x :: rest ++ iter.bucketsLeft d).Sublist d.entries := by
      refine append_bucketsLeft_sublist hindex ?_
      rw [hbucket]
      exact sublist_append_right _ _
    have hnd := (hsub.map ty.entryKey).nodup h.nodup
    rw [cons_append, map_cons, nodup_cons] at hnd
    rw [hrem] at hy
    exact hnd.1 (hyx ▸ mem_map_of_mem hy)

/-! ### A call -/

/-- What a call of `dictNext` does: it returns the first of the remaining entries. -/
structure DictIterator.Advances (ty : DictType K S) (d : Dict S V) (iter iter' : DictIterator K)
    (r : Option (DictEntry S V)) : Prop where
  result : r = (iter.remaining ty d).head?
  remaining : iter'.remaining ty d = (iter.remaining ty d).tail
  valid : iter'.Valid ty d
  entry : iter'.entry = r.map ty.entryKey
  index : 0 ≤ iter'.index

/-- The part of the chain from the entry that `nextEntry` points to on. -/
lemma DictIterator.chainLeft_eq {k' : K} (hk : iter.entry = some k)
    (hk' : iter.nextEntry = some k') :
    iter.chainLeft ty d = (bucketAt (d.ht iter.table).table iter.index.toNat).dropWhile
      fun e => decide (ty.entryKey e ≠ k') := by
  rw [chainLeft, hk, hk']

/-- Following the pointer `nextEntry`. -/
lemma advances_next (h : d.WF ty) (hv : iter.Pointing ty d) {k' : K} (hk : iter.entry = some k)
    (hk' : iter.nextEntry = some k') :
    ∃ x rest, d.chainFrom ty k' = some (x :: rest) ∧
      iter.Advances ty d (iter.entered ty x rest) (some x) := by
  have hsome : iter.entry.isSome := by rw [hk]; rfl
  have hmem := hv.next k' hsome hk'
  obtain ⟨pre, x, rest, hbucket, -, hdrop⟩ := exists_dropWhile_ne_key hmem
  obtain ⟨hvalid, hrem⟩ := valid_entered h (hv.nonneg hsome) hbucket
  have hleft : iter.remaining ty d = x :: (rest ++ iter.bucketsLeft d) := by
    rw [remaining, chainLeft_eq hk hk', hdrop, cons_append]
  refine ⟨x, rest, by rw [chainFrom_eq h hmem, hdrop], ?_, ?_, hvalid, rfl, hv.nonneg hsome⟩
  · rw [hleft, head?_cons]
  · rw [hrem, hleft, tail_cons]

lemma DictIterator.remaining_congr (h0 : d'.ht0 = d.ht0) (h1 : d'.ht1 = d.ht1)
    (it : DictIterator K) : it.remaining ty d' = it.remaining ty d := by
  have hht : ∀ t, d'.ht t = d.ht t := fun t => by rw [ht, ht, h0, h1]
  rw [remaining, remaining, chainLeft,
    chainLeft, bucketsLeft, bucketsLeft, hht, h1]

/-- The tables are all an iterator depends on. -/
lemma DictIterator.Advances.congr {iter1 iter' : DictIterator K}
    (hadv : iter1.Advances ty d' iter' r) (h0 : d'.ht0 = d.ht0) (h1 : d'.ht1 = d.ht1)
    (hrem : iter.remaining ty d = iter1.remaining ty d) : iter.Advances ty d iter' r := by
  have hht : ∀ t, d'.ht t = d.ht t := fun t => by rw [ht, ht, h0, h1]
  have hsame := @remaining_congr K S V ty d d' _ h0 h1
  have hv := hadv.valid
  refine ⟨?_, ?_, ⟨hv.index, ?_, ?_⟩, hadv.entry, hadv.index⟩
  · rw [hadv.result, hsame, hrem]
  · rw [← hsame, hadv.remaining, hsame, hrem]
  · rw [← hht]
    exact hv.next
  · rw [← hsame]
    exact hv.entry

omit [DecidableEq K] in
lemma DictIterator.pausing_ht (d : Dict S V) (iter : DictIterator K) :
    (iter.pausing d).ht0 = d.ht0 ∧ (iter.pausing d).ht1 = d.ht1 := by
  rw [pausing]
  split_ifs <;> exact ⟨rfl, rfl⟩

omit [DecidableEq K] in
lemma DictIterator.pausing_wf (h : d.WF ty) (iter : DictIterator K) : (iter.pausing d).WF ty := by
  rw [pausing]
  split_ifs
  · exact h.setPause _
  · exact h

omit [DecidableEq K] in
lemma DictIterator.pausing_of_nonneg (d : Dict S V) (h : 0 ≤ iter.index) : iter.pausing d = d :=
  if_neg fun hunused => by have := hunused.1; omega

/-- The loop at the end of a chain. -/
lemma dictNextLoop_bucket_spec (h : d.WF ty) (hindex : -1 ≤ iter.index) (hentry : iter.entry = none)
    {fuel : ℕ} (hfuel : iter.turns d < fuel) :
    ∃ iter' r, dictNextLoop ty fuel d iter = some (iter.pausing d, iter', r) ∧
      iter.Advances ty d iter' r := by
  -- one turn of the loop leads to a bucket, and an empty bucket to another turn
  induction fuel generalizing d iter with
  | zero => exact absurd hfuel (Nat.not_lt_zero _)
  | succ fuel ih =>
    have hrem : ∀ it : DictIterator K, it.entry = none → it.remaining ty d = it.bucketsLeft d := by
      intro it hit
      rw [remaining, chainLeft, hit]
      rfl
    rw [dictNextLoop, hentry]
    rcases dictNextBucket_spec h hindex with
      ⟨iter1, hnext, hleft, hleft1, hentry1, hnonneg⟩ |
      ⟨iter1, c, hnext, hc, hleft, hentry1, hnonneg, hturns⟩
    · rw [hnext]
      rw [hentry] at hentry1
      refine ⟨iter1, none, rfl, ?_, ?_, ⟨by omega, ?_, ?_⟩, hentry1, hnonneg⟩
      · rw [hrem iter hentry, hleft, head?_nil]
      · rw [hrem iter hentry, hrem iter1 hentry1, hleft, hleft1, tail_nil]
      · intro k k' hk
        rw [hentry1] at hk
        exact absurd hk (by simp)
      · intro k hk
        rw [hentry1] at hk
        exact absurd hk (by simp)
    · rw [hnext]
      rw [hentry] at hentry1
      obtain ⟨hp0, hp1⟩ := iter.pausing_ht d
      cases c with
      | nil =>
        have hturns' : iter1.turns (iter.pausing d) < fuel := by
          rw [turns, ht, hp0, hp1]
          exact lt_of_lt_of_le hturns (Nat.lt_succ_iff.mp hfuel)
        obtain ⟨iter', r, hloop, hadv⟩ :=
          ih (iter.pausing_wf h) (by omega) hentry1 hturns'
        rw [pausing_of_nonneg _ hnonneg] at hloop
        refine ⟨iter', r, hloop, hadv.congr hp0 hp1 ?_⟩
        rw [hrem iter hentry, hrem iter1 hentry1, hleft, nil_append]
      | cons x rest =>
        obtain ⟨hvalid, hrem'⟩ := @valid_entered _ _ _ _ d iter1 _ x [] rest h hnonneg hc.symm
        refine ⟨iter1.entered ty x rest, some x, rfl, ?_, ?_, hvalid, rfl, hnonneg⟩
        · rw [hrem iter hentry, hleft]
          rfl
        · rw [hrem', hrem iter hentry, hleft]
          rfl

/-- **A call of `dictNext`** returns the first of the remaining entries and leaves the others. It
changes the dict only when the iterator is used for the first time: rehashing is paused. -/
lemma dictNext_spec (h : d.WF ty) (hv : iter.Pointing ty d) :
    ∃ iter' r, dictNext ty d iter = some (iter.pausing d, iter', r) ∧
      iter.Advances ty d iter' r := by
  have hbuckets : iter.turns d ≤ dictBuckets d := by
    have hindex := hv.index
    rw [DictIterator.turns, dictBuckets]
    obtain ht | ht : iter.table = 0 ∨ iter.table = 1 := by omega
    · rw [ht, if_pos rfl, Dict.ht, if_pos rfl]
      omega
    · rw [ht, if_neg (by decide), Dict.ht, if_neg (by decide)]
      omega
  cases hk : iter.entry with
  | none => exact dictNextLoop_bucket_spec h hv.index hk (by omega)
  | some k =>
    have hnonneg := hv.nonneg (by rw [hk]; rfl)
    rw [DictIterator.pausing_of_nonneg d hnonneg, dictNext, dictNextLoop, hk]
    cases hk' : iter.nextEntry with
    | none =>
      -- the end of the chain
      let iter0 : DictIterator K := ⟨iter.table, iter.index, none, none⟩
      have hturns : iter0.turns d < dictBuckets d + 1 := Nat.lt_succ_of_le hbuckets
      have hindex : -1 ≤ iter0.index := hv.index
      have hpausing : iter0.pausing d = d := DictIterator.pausing_of_nonneg d hnonneg
      obtain ⟨iter', r, hloop, hadv⟩ := dictNextLoop_bucket_spec h hindex rfl hturns
      rw [hpausing] at hloop
      refine ⟨iter', r, hloop, hadv.congr rfl rfl ?_⟩
      rw [DictIterator.remaining, DictIterator.remaining, DictIterator.chainLeft, hk, hk']
      rfl
    | some k' =>
      obtain ⟨x, rest, hchain, hadv⟩ := advances_next h hv hk hk'
      refine ⟨iter.entered ty x rest, some x, ?_, hadv⟩
      dsimp only [isSome_some, if_true]
      rw [hchain]
      rfl

lemma dictInitSafeIterator_spec (d : Dict S V) :
    (dictInitSafeIterator : DictIterator K).Valid ty d ∧
      (dictInitSafeIterator : DictIterator K).remaining ty d = d.entries :=
  ⟨⟨le_rfl, fun _ _ hk => absurd hk (by simp [dictInitSafeIterator]),
    fun _ hk => absurd hk (by simp [dictInitSafeIterator])⟩, rfl⟩

/-! ### Deleting the entry just returned -/

/-- The chains of `d'` are those of `d`, without the entries that `p` does not hold for. -/
structure Dict.Filters (p : DictEntry S V → Bool) (d d' : Dict S V) : Prop where
  ht0 : ∀ i, bucketAt d'.ht0.table i = (bucketAt d.ht0.table i).filter p
  ht1 : ∀ i, bucketAt d'.ht1.table i = (bucketAt d.ht1.table i).filter p

omit [DecidableEq K] in
lemma Dict.Filters.refl (d : Dict S V) : d.Filters (fun _ => true) d :=
  ⟨fun i => by rw [filter_true], fun i => by rw [filter_true]⟩

/-- The entry returned last is not the next one. -/
lemma DictIterator.Valid.next_ne (hv : iter.Valid ty d) (hk : iter.entry = some k) :
    ∀ k', iter.nextEntry = some k' → k' ≠ k := by
  rintro k' hk' rfl
  obtain ⟨pre, x, rest, -, hxk, hdrop⟩ := exists_dropWhile_ne_key (hv.next k' k' hk hk')
  refine (hv.entry k' hk).2 x ?_ hxk
  rw [remaining, chainLeft_eq hk hk', hdrop]
  exact mem_append_left _ mem_cons_self

/-- An iterator does not notice that the entry it returned last is deleted. -/
lemma DictIterator.Valid.filters (hv : iter.Valid ty d) (hk : iter.entry = some k)
    (hd : d.Filters (fun x => decide (ty.entryKey x ≠ k)) d') :
    iter.Valid ty d' ∧ iter.remaining ty d' = iter.remaining ty d := by
  have hht : ∀ t i, bucketAt (d'.ht t).table i =
      (bucketAt (d.ht t).table i).filter fun x => decide (ty.entryKey x ≠ k) := by
    intro t
    obtain rfl | rfl : t = 0 ∨ t = 1 := by omega
    · exact hd.ht0
    · exact hd.ht1
  have hbuckets : iter.bucketsLeft d' =
      (iter.bucketsLeft d).filter fun x => decide (ty.entryKey x ≠ k) := by
    rw [bucketsLeft, bucketsLeft, filter_append,
      flatten_drop_filter (hht iter.table)]
    split_ifs
    · exact congrArg _ (flatten_drop_filter hd.ht1 0)
    · rfl
  have hnext := hv.next_ne hk
  have hchain : iter.chainLeft ty d' =
      (iter.chainLeft ty d).filter fun x => decide (ty.entryKey x ≠ k) := by
    cases hk' : iter.nextEntry with
    | none =>
      rw [chainLeft, chainLeft, hk, hk']
      rfl
    | some k' =>
      rw [chainLeft_eq hk hk', chainLeft_eq hk hk', hht, dropWhile_filter]
      intro x _ hx
      have hxk : ty.entryKey x = k := by simpa using hx
      simpa [hxk] using (hnext k' hk').symm
  have hrem : iter.remaining ty d' = iter.remaining ty d := by
    rw [remaining, hchain, hbuckets, ← filter_append, ← remaining,
      filter_eq_self]
    intro x hx
    simpa using (hv.entry k hk).2 x hx
  refine ⟨⟨hv.index, ?_, ?_⟩, hrem⟩
  · intro k1 k' hk1 hk'
    obtain ⟨x, hx, rfl⟩ := hv.next k1 k' hk1 hk'
    refine ⟨x, ?_, rfl⟩
    rw [hht]
    exact mem_filter.mpr ⟨hx, by simpa using hnext _ hk'⟩
  · rw [hrem]
    exact hv.entry

omit [DecidableEq K] in
/-- A resize that does not rehash everything at once leaves the chains alone. -/
lemma dictResize_filters (hfull : ty.forceFullRehash = false) (h : d.WF ty) {b : Bool} {size : ℕ}
    (hres : _dictResize ty canResize d size = some (d', b)) :
    d.Filters (fun _ => true) d' := by
  have hr : ¬ dictIsRehashing d := by
    intro hr
    rw [_dictResize, if_pos hr] at hres
    exact absurd hres (by simp)
  have hnil1 : ∀ i, bucketAt d.ht1.table i = [] := by
    intro i
    rw [h.idle hr]
    rfl
  simp only [_dictResize, if_neg hr, hfull, Bool.false_eq_true, if_false] at hres
  split_ifs at hres with hbig hsame hempty
  · cases hres
    exact .refl d
  · cases hres
    exact .refl d
  · -- an empty table is replaced
    have hnil0 := bucketAt_of_flatten_eq_nil
      (length_eq_zero_iff.mp (h.ht0.used ▸ h.ht0.used_eq_zero hempty))
    cases hres
    refine ⟨fun i => ?_, fun i => ?_⟩
    · rw [hnil0]
      exact bucketAt_replicate_nil _ _
    · rw [hnil1]
      rfl
  · -- table 1 is allocated
    cases hres
    refine ⟨fun i => by rw [filter_true], fun i => ?_⟩
    rw [hnil1]
    exact bucketAt_replicate_nil _ _

omit [DecidableEq K] in
lemma Dict.Filters.trans {p : DictEntry S V → Bool} {d'' : Dict S V} (h : d.Filters p d')
    (h' : d'.Filters (fun _ => true) d'') : d.Filters p d'' :=
  ⟨fun i => by rw [h'.ht0, filter_true, h.ht0], fun i => by rw [h'.ht1, filter_true, h.ht1]⟩

omit [DecidableEq K] in
lemma dictExpand_filters (hfull : ty.forceFullRehash = false) (h : d.WF ty) {size : ℕ}
    {r : Dict S V × Bool}
    (hres : (dictExpand ty canResize d size).map (fun r => (r.1, true)) = some r ∨
      (dictShrink ty canResize d size).map (fun r => (r.1, true)) = some r) :
    d.Filters (fun _ => true) r.1 := by
  rw [dictExpand, dictShrink] at hres
  rcases hres with hres | hres
  all_goals
    obtain ⟨r', hr', rfl⟩ := map_eq_some_iff.mp hres
    split_ifs at hr'
    · cases hr'
      exact .refl d
    · exact dictResize_filters hfull h hr'

omit [DecidableEq K] in
/-- The resizes that operations start leave the chains alone. -/
lemma dictExpandIfNeeded_filters (hfull : ty.forceFullRehash = false) (h : d.WF ty)
    (hres : _dictExpandIfNeeded ty canResize d = some d' ∨
      _dictShrinkIfNeeded ty canResize d = some d') : d.Filters (fun _ => true) d' := by
  rw [_dictExpandIfNeeded, _dictShrinkIfNeeded, dictExpandIfNeeded, dictShrinkIfNeeded] at hres
  by_cases hpause : 0 < d.pauseAutoResize
  · rw [if_pos hpause, if_pos hpause, or_self] at hres
    cases hres
    exact .refl d
  · rw [if_neg hpause, if_neg hpause] at hres
    rcases hres with hres | hres
    all_goals
      obtain ⟨r, hr, rfl⟩ := map_eq_some_iff.mp hres
      split_ifs at hr
      all_goals first
        | exact dictExpand_filters hfull h (.inl hr)
        | exact dictExpand_filters hfull h (.inr hr)
        | (cases hr; exact .refl d)

/-- Unlinking the entry of a key. -/
lemma unlink_filters (h : d.WF ty) {l : DictEntryLink} (hx : d.entryAt l = some x) :
    d.Filters (fun y => decide (ty.entryKey y ≠ ty.entryKey x))
      (d.setHt l.table ((d.ht l.table).unlink l.idx l.pos)) := by
  obtain ⟨t, i, p⟩ := l
  have hbucket : ∀ t' j, (t' ≠ t ∨ j ≠ i) → bucketAt (d.ht t').table j =
      (bucketAt (d.ht t').table j).filter fun y => decide (ty.entryKey y ≠ ty.entryKey x) := by
    intro t' j hne
    rw [eq_comm, filter_eq_self]
    intro y hy
    obtain ⟨q, hq⟩ := getElem?_of_mem hy
    have hkey : ty.entryKey y ≠ ty.entryKey x := by
      intro heq
      have hlink : (⟨t', j, q⟩ : DictEntryLink) = ⟨t, i, p⟩ := h.link_unique hq hx heq
      injection hlink with h1 h2
      rcases hne with hne | hne
      · exact hne h1
      · exact hne h2
    simpa using hkey
  have hset : ∀ j, bucketAt ((d.ht t).unlink i p).table j =
      (bucketAt (d.ht t).table j).filter fun y => decide (ty.entryKey y ≠ ty.entryKey x) := by
    intro j
    by_cases hij : i = j
    · subst hij
      have hlt : i < (d.ht t).table.length := by
        by_contra hge
        rw [entryAt, bucketAt_of_length_le (Nat.le_of_not_lt hge)] at hx
        exact absurd hx (by simp)
      rw [DictHt.unlink, bucketAt_set_self hlt]
      exact eraseIdx_eq_filter (h.bucket_nodup t i) hx
    · rw [DictHt.unlink, bucketAt_set_ne hij]
      exact hbucket t j (.inr (Ne.symm hij))
  obtain rfl | rfl : t = 0 ∨ t = 1 := by omega
  · exact ⟨hset, fun j => hbucket 1 j (.inl (by decide))⟩
  · exact ⟨fun j => hbucket 0 j (.inl (by decide)), hset⟩

lemma Dict.Filters.of_lookup_eq_none (hk : d.lookup ty k = none) :
    d.Filters (fun y => decide (ty.entryKey y ≠ k)) d := by
  have hbucket : ∀ t i, bucketAt (d.ht t).table i =
      (bucketAt (d.ht t).table i).filter fun y => decide (ty.entryKey y ≠ k) := by
    intro t i
    rw [eq_comm, filter_eq_self]
    intro y hy
    obtain ⟨q, hq⟩ := getElem?_of_mem hy
    have hmem : y ∈ d.entries :=
      mem_entries_iff.mpr ⟨t, mem_entries_of_entryAt (l := ⟨t, i, q⟩) hq⟩
    simpa using lookup_eq_none.mp hk y hmem
  exact ⟨hbucket 0, hbucket 1⟩

lemma dictGenericDelete_filters (hfull : ty.forceFullRehash = false) (h : d.WF ty)
    (hpause : d.pauserehash ≠ 0) (hdel : dictGenericDelete ty canResize d k = some (d', r)) :
    d.Filters (fun y => decide (ty.entryKey y ≠ k)) d' := by
  rw [dictGenericDelete] at hdel
  split_ifs at hdel with hempty
  · cases hdel
    exact .of_lookup_eq_none (h.lookup_of_empty hempty k)
  · dsimp only at hdel
    rw [_dictRehashStepIfNeeded, if_pos (.inr hpause), bind_some] at hdel
    rcases searchTables_spec h (ty.bucketIdx d.ht0.sizeExp k) k (fun _ => rfl) with
      ⟨l, x, hl, hx, rfl, -⟩ | ⟨hl, hlook⟩
    · rw [hl] at hdel
      obtain ⟨d1, hd1, heq⟩ := map_eq_some_iff.mp hdel
      cases heq
      obtain ⟨es, -, hbec⟩ := h.unlink hx
      exact (unlink_filters h hx).trans (dictExpandIfNeeded_filters hfull hbec.wf (.inr hd1))
    · rw [hl] at hdel
      cases hdel
      exact .of_lookup_eq_none hlook

lemma dictTwoPhaseUnlinkFind_paused (h : d.WF ty) (hpause : d.pauserehash ≠ 0)
    (canResize : DictResizeEnable) (k : K) :
    (dictTwoPhaseUnlinkFind ty canResize d k = some (d, none) ∧ d.lookup ty k = none) ∨
      ∃ l x, dictTwoPhaseUnlinkFind ty canResize d k =
          some ({ d with pauserehash := d.pauserehash + 1 }, some l) ∧
        d.entryAt l = some x ∧ ty.entryKey x = k := by
  rw [dictTwoPhaseUnlinkFind]
  by_cases hempty : dictSize d = 0
  · exact .inl ⟨if_pos hempty, h.lookup_of_empty hempty k⟩
  · have hstep :
        (if dictIsRehashing d then _dictRehashStep ty canResize d else some d) = some d := by
      rw [_dictRehashStep, if_neg hpause, ite_self]
    rw [if_neg hempty, hstep, map_some]
    rcases searchTables_spec h (ty.bucketIdx d.ht0.sizeExp k) k (fun _ => rfl) with
      ⟨l, x, hl, hx, hxk, -⟩ | ⟨hl, hlook⟩
    · rw [hl]
      exact .inr ⟨l, x, rfl, hx, hxk⟩
    · rw [hl]
      exact .inl ⟨rfl, hlook⟩

lemma dictTwoPhaseUnlinkFree_filters (hfull : ty.forceFullRehash = false) (h : d.WF ty)
    {l : DictEntryLink} (hx : d.entryAt l = some x)
    (hfree : dictTwoPhaseUnlinkFree ty canResize d (some l) = some d') :
    d.Filters (fun y => decide (ty.entryKey y ≠ ty.entryKey x)) d' := by
  rw [dictTwoPhaseUnlinkFree, hx] at hfree
  obtain ⟨d1, hd1, rfl⟩ := map_eq_some_iff.mp hfree
  obtain ⟨es, -, hbec⟩ := h.unlink hx
  have hshrink := dictExpandIfNeeded_filters hfull hbec.wf (.inr hd1)
  exact (unlink_filters h hx).trans ⟨hshrink.ht0, hshrink.ht1⟩

end Pointers

end RainCall
