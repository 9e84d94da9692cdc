import RainCall.Foundation.Run
import RainCall.Dict.OpsSpec

/-!
# A dict is a finite map, whatever the state of rehashing

`DictOp` lists the operations of a dict and `dictStep` executes one of them, under a setting of
`dict_can_resize` that may differ from step to step. `DictOp.apply` is the meaning of the operation
on a partial map. A run of the dict is simulated by the run of the map, see `dictStep_spec` and
`dict_refines_map`.
-/

namespace RainCall

open Function

variable {K S V : Type*}

/-- An operation on a dict. -/
inductive DictOp (K S V : Type*)
  | addRaw (e : DictEntry S V)
  | add (e : DictEntry S V)
  | replace (e : DictEntry S V)
  | findLinkAndSet (e : DictEntry S V)
  | delete (k : K)
  | unlink (k : K)
  | twoPhaseUnlink (k : K)
  | find (k : K)
  | expand (size : ℕ)
  | shrink (size : ℕ)
  | rehash (n : ℕ)
  | bucketRehash (idx : ℕ)

variable [DecidableEq K]

/-- Execute one operation under a setting of `dict_can_resize`, dropping its result. -/
def dictStep (ty : DictType K S) (d : Dict S V) : DictResizeEnable × DictOp K S V →
    Option (Dict S V)
  | (mode, .addRaw e) => (dictAddRaw ty mode d e).map Prod.fst
  | (mode, .add e) => (dictAdd ty mode d e).map Prod.fst
  | (mode, .replace e) => (dictReplace ty mode d e).map Prod.fst
  | (mode, .findLinkAndSet e) => dictFindLinkAndSet ty mode d e
  | (mode, .delete k) => (dictDelete ty mode d k).map Prod.fst
  | (mode, .unlink k) => (dictUnlink ty mode d k).map Prod.fst
  | (mode, .twoPhaseUnlink k) => (dictTwoPhaseUnlink ty mode d k).map Prod.fst
  | (mode, .find k) => (dictFind ty mode d k).map Prod.fst
  | (mode, .expand size) => (dictExpand ty mode d size).map Prod.fst
  | (mode, .shrink size) => (dictShrink ty mode d size).map Prod.fst
  | (mode, .rehash n) => (dictRehash ty mode d n).map Prod.fst
  | (mode, .bucketRehash idx) => some (_dictBucketRehash ty mode d idx)

/-! ## The abstract map -/

/-- The meaning of an operation on a partial map from keys to entries. -/
def DictOp.apply (ty : DictType K S) (m : K → Option (DictEntry S V)) :
    DictOp K S V → K → Option (DictEntry S V)
  | .addRaw e | .add e => Function.update m (ty.entryKey e) ((m (ty.entryKey e)).or (some e))
  | .replace e =>
    Function.update m (ty.entryKey e)
      (some (((m (ty.entryKey e)).map fun x => { x with val := e.val }).getD e))
  | .findLinkAndSet e =>
    Function.update m (ty.entryKey e)
      (some (((m (ty.entryKey e)).map fun x => { x with key := e.key }).getD e))
  | .delete k | .unlink k | .twoPhaseUnlink k => Function.update m k none
  | .find _ | .expand _ | .shrink _ | .rehash _ | .bucketRehash _ => m

/-- The map after a sequence of operations on the empty map. -/
def mapAfter (ty : DictType K S) (ops : List (DictResizeEnable × DictOp K S V)) :
    K → Option (DictEntry S V) :=
  ops.foldl (fun m op => op.2.apply ty m) fun _ => none

/-- The operation inserts key `k` if it is missing. -/
def DictOp.Inserts (ty : DictType K S) (k : K) : DictOp K S V → Prop
  | .addRaw e | .add e | .replace e | .findLinkAndSet e => ty.entryKey e = k
  | _ => False

/-- The operation deletes key `k`. -/
def DictOp.Deletes (k : K) : DictOp K S V → Prop
  | .delete k' | .unlink k' | .twoPhaseUnlink k' => k' = k
  | _ => False

/-- Key `k` was inserted and not deleted since. -/
def InsertedAndKept (ty : DictType K S) (k : K) (ops : List (DictResizeEnable × DictOp K S V)) :
    Prop :=
  ∃ before op after, ops = before ++ op :: after ∧ op.2.Inserts ty k ∧
    ∀ op' ∈ after, ¬ op'.2.Deletes k

/-- One operation and the domain of the map. -/
lemma DictOp.apply_isSome (ty : DictType K S) (m : K → Option (DictEntry S V)) (op : DictOp K S V)
    (k : K) :
    (op.apply ty m k).isSome ↔ op.Inserts ty k ∨ ((m k).isSome ∧ ¬ op.Deletes k) := by
  cases op with
  | addRaw e | add e | replace e | findLinkAndSet e =>
    by_cases h : ty.entryKey e = k
    · subst h
      simp [DictOp.apply, DictOp.Inserts]
    · simp [DictOp.apply, DictOp.Inserts, DictOp.Deletes, update_of_ne (Ne.symm h), h]
  | delete k' | unlink k' | twoPhaseUnlink k' =>
    by_cases h : k' = k
    · subst h
      simp [DictOp.apply, DictOp.Inserts, DictOp.Deletes]
    · simp [DictOp.apply, DictOp.Inserts, DictOp.Deletes, update_of_ne (Ne.symm h), h]
  | find k' => simp [DictOp.apply, DictOp.Inserts, DictOp.Deletes]
  | expand n | shrink n | rehash n | bucketRehash n =>
    simp [DictOp.apply, DictOp.Inserts, DictOp.Deletes]

/-- The domain of the map are the keys inserted and not deleted since. -/
lemma mapAfter_isSome_iff (ty : DictType K S) (ops : List (DictResizeEnable × DictOp K S V))
    (k : K) : (mapAfter ty ops k).isSome ↔ InsertedAndKept ty k ops := by
  induction ops using List.reverseRecOn with
  | nil => simp [mapAfter, InsertedAndKept]
  | append_singleton ops op ih =>
    have hstep : mapAfter ty (ops ++ [op]) = op.2.apply ty (mapAfter ty ops) := by
      simp [mapAfter]
    rw [hstep, DictOp.apply_isSome, ih]
    constructor
    · rintro (hins | ⟨⟨before, op', after, rfl, hins, hkept⟩, hdel⟩)
      · exact ⟨ops, op, [], rfl, hins, by simp⟩
      · refine ⟨before, op', after ++ [op], by simp, hins, fun o ho => ?_⟩
        rcases List.mem_append.mp ho with ho | ho
        · exact hkept o ho
        · obtain rfl : o = op := by simpa using ho
          exact hdel
    · rintro ⟨before, op', after, heq, hins, hkept⟩
      rcases List.eq_nil_or_concat after with rfl | ⟨after, last, rfl⟩
      · obtain ⟨-, h⟩ := List.append_inj' heq rfl
        obtain rfl : op = op' := by simpa using h
        exact .inl hins
      · have heq' : ops ++ [op] = (before ++ op' :: after) ++ [last] := by simp [heq]
        obtain ⟨rfl, h⟩ := List.append_inj' heq' rfl
        obtain rfl : op = last := by simpa using h
        exact .inr ⟨⟨before, op', after, rfl, hins, fun o ho => hkept o (by simp [ho])⟩,
          hkept op (by simp)⟩

/-! ## Simulation -/

variable {ty : DictType K S} {d d' : Dict S V}

lemma dictAddRaw_simulates (mode : DictResizeEnable) (e : DictEntry S V) (h : d.WF ty)
    (hp : d.Roomy) :
    ∃ d' r es, dictAddRaw ty mode d e = some (d', r) ∧ d.Becomes ty d' es ∧
      d'.lookup ty = (DictOp.addRaw e).apply ty (d.lookup ty) := by
  rcases dictAddRaw_spec mode e h hp with ⟨d', hd', hlook, hbec⟩ | ⟨d', l, x, hd', hlook, -, hre⟩
  · refine ⟨d', none, _, hd', hbec, ?_⟩
    simp only [DictOp.apply, hlook]
    exact hbec.lookup_insert
  · refine ⟨d', some l, _, hd', hre.becomes, ?_⟩
    rw [hre.lookup_eq, DictOp.apply, hlook, Option.some_or, ← hlook, update_eq_self]

/-- Deleting a key. -/
lemma dictGenericDelete_simulates (mode : DictResizeEnable) (k : K) (h : d.WF ty) :
    ∃ d' r es, dictGenericDelete ty mode d k = some (d', r) ∧ d.Becomes ty d' es ∧
      d'.lookup ty = (DictOp.delete k).apply ty (d.lookup ty) := by
  rcases dictGenericDelete_spec mode k h with ⟨d', hd', hlook, hre⟩ |
    ⟨d', x, es, hd', hlook, hes, hbec⟩
  · refine ⟨d', none, _, hd', hre.becomes, ?_⟩
    rw [hre.lookup_eq, DictOp.apply, ← hlook, update_eq_self]
  · refine ⟨d', some x, es, hd', hbec, ?_⟩
    rw [hbec.lookup_erase h hes, DictOp.apply, (h.lookup_eq_some.mp hlook).2]

lemma dictStep_spec (h : d.WF ty) (hp : d.Roomy) (op : DictResizeEnable × DictOp K S V) :
    ∃ d' es, dictStep ty d op = some d' ∧ d.Becomes ty d' es ∧
      d'.lookup ty = op.2.apply ty (d.lookup ty) := by
  obtain ⟨mode, op⟩ := op
  cases op with
  | addRaw e | add e =>
    obtain ⟨d', r, es, hd', hbec, hlook⟩ := dictAddRaw_simulates mode e h hp
    exact ⟨d', es, by simp [dictStep, dictAdd, hd'], hbec, hlook⟩
  | replace e =>
    rcases dictReplace_spec mode e h hp with
      ⟨d', hd', hlook, hbec⟩ | ⟨d', x, es, hd', hlook, hes, hbec⟩
    · refine ⟨d', _, by simp [dictStep, hd'], hbec, ?_⟩
      rw [hbec.lookup_insert, DictOp.apply, hlook]
      rfl
    · refine ⟨d', _, by simp [dictStep, hd'], hbec, ?_⟩
      rw [hbec.lookup_modify h hes rfl, DictOp.apply, hlook, (h.lookup_eq_some.mp hlook).2]
      rfl
  | findLinkAndSet e =>
    rcases dictFindLinkAndSet_spec mode e h with
      ⟨d', hd', hlook, hbec⟩ | ⟨d', x, es, hd', hlook, hes, hbec⟩
    · refine ⟨d', _, by simp [dictStep, hd'], hbec, ?_⟩
      rw [hbec.lookup_insert, DictOp.apply, hlook]
      rfl
    · have hkey := (h.lookup_eq_some.mp hlook).2
      refine ⟨d', _, by simp [dictStep, hd'], hbec, ?_⟩
      rw [hbec.lookup_modify h hes hkey.symm, DictOp.apply, hlook, hkey]
      rfl
  | delete k | unlink k =>
    obtain ⟨d', r, es, hd', hbec, hlook⟩ := dictGenericDelete_simulates mode k h
    exact ⟨d', es, by simp [dictStep, dictDelete, dictUnlink, hd'], hbec, hlook⟩
  | twoPhaseUnlink k =>
    rcases dictTwoPhaseUnlink_spec mode k h with
      ⟨d', hd', hlook, hre⟩ | ⟨d', x, es, hd', hlook, hes, hbec⟩
    · refine ⟨d', _, by simp [dictStep, hd'], hre.becomes, ?_⟩
      rw [hre.lookup_eq, DictOp.apply, ← hlook, update_eq_self]
    · refine ⟨d', es, by simp [dictStep, hd'], hbec, ?_⟩
      rw [hbec.lookup_erase h hes, DictOp.apply, (h.lookup_eq_some.mp hlook).2]
  | find k =>
    obtain ⟨d', hd', hre⟩ := dictFind_spec mode k h
    exact ⟨d', _, by simp [dictStep, hd'], hre.becomes, hre.lookup_eq⟩
  | expand size =>
    obtain ⟨d', b, hd', hre⟩ := dictExpand_spec mode size h
    exact ⟨d', _, by simp [dictStep, hd'], hre.becomes, hre.lookup_eq⟩
  | shrink size =>
    obtain ⟨d', b, hd', hre⟩ := dictShrink_spec mode size h
    exact ⟨d', _, by simp [dictStep, hd'], hre.becomes, hre.lookup_eq⟩
  | rehash n =>
    obtain ⟨d', b, hd', hre, -⟩ := dictRehash_spec mode n h
    exact ⟨d', _, by simp [dictStep, hd'], hre.becomes, hre.lookup_eq⟩
  | bucketRehash idx =>
    have hre := dictBucketRehash_spec mode idx h
    exact ⟨_, _, rfl, hre.becomes, hre.lookup_eq⟩

lemma dict_run_spec (ty : DictType K S) (ops : List (DictResizeEnable × DictOp K S V)) :
    ∃ d, runSteps (dictStep ty) dictCreate ops = some d ∧ d.WF ty ∧ d.pauseAutoResize ≤ 0 ∧
      d.lookup ty = mapAfter ty ops := by
  refine runSteps_simulation (fun m (op : DictResizeEnable × DictOp K S V) => op.2.apply ty m)
    (fun (d : Dict S V) m => d.WF ty ∧ d.pauseAutoResize ≤ 0 ∧ d.lookup ty = m) (fun _ => True) ?_
    ⟨Dict.wf_dictCreate, le_rfl, rfl⟩ (by simp)
  rintro d m op - ⟨hwf, hp, rfl⟩
  obtain ⟨d', es, hd', hbec, hlook⟩ := dictStep_spec hwf (Dict.roomy_of_le hp) op
  exact ⟨d', hd', hbec.wf, by rw [hbec.pauseAutoResize]; exact hp, hlook⟩

/-- A dict refines a finite map: whatever operations are executed under whatever settings of
`dict_can_resize`, no assertion fails, a lookup returns the entry of the map, that is an entry
exists iff the key was inserted and not deleted since, each key sits in exactly one place, in the
bucket of its hash, the buckets below `rehashidx` are empty and `used` counts the entries of each
table. -/
theorem dict_refines_map (ty : DictType K S) (ops : List (DictResizeEnable × DictOp K S V)) :
    ∃ d, runSteps (dictStep ty) dictCreate ops = some d ∧
      (∀ mode k, (dictFind ty mode d k).map Prod.snd = some (mapAfter ty ops k)) ∧
      (∀ k, (mapAfter ty ops k).isSome ↔ InsertedAndKept ty k ops) ∧
      (∀ k, InsertedAndKept ty k ops →
        ∃! l : DictEntryLink, ∃ x, d.entryAt l = some x ∧ ty.entryKey x = k) ∧
      (∀ t i, ∀ x ∈ bucketAt (d.ht t).table i,
        i = (ty.hashFunction (ty.entryKey x)).toNat &&& dicthtSizeMask (d.ht t).sizeExp) ∧
      (∀ i : ℕ, (i : ℤ) < d.rehashidx → bucketAt d.ht0.table i = []) ∧
      (∀ t, (d.ht t).used = (d.ht t).table.flatten.length) := by
  obtain ⟨d, hd, hwf, -, hlook⟩ := dict_run_spec ty ops
  refine ⟨d, hd, ?_, fun k => mapAfter_isSome_iff ty ops k, ?_, ?_, hwf.rehashed,
    fun t => (hwf.ht t).used⟩
  · intro mode k
    obtain ⟨d', hd', -⟩ := dictFind_spec mode k hwf
    rw [hd', hlook]
    rfl
  · intro k hk
    rw [← mapAfter_isSome_iff, ← hlook, Option.isSome_iff_exists] at hk
    obtain ⟨x, hx⟩ := hk
    rcases searchTables_spec hwf (ty.bucketIdx d.ht0.sizeExp k) k (fun _ => rfl) with
      ⟨l, y, -, hy, hyk, -⟩ | ⟨-, hnone⟩
    · refine ⟨l, ⟨y, hy, hyk⟩, ?_⟩
      rintro l' ⟨z, hz, hzk⟩
      exact hwf.link_unique hz hy (hzk.trans hyk.symm)
    · simp [hx] at hnone
  · intro t i x hx
    exact ((hwf.ht t).placed i x hx).symm

end RainCall
