import RainCall.Foundation.Run
import RainCall.SparseArray.DeleteSpec
import RainCall.SparseArray.RangeSetSpec

/-!
# A sparse array refines a finite map

The operations on an array are commands of an abstract map from indices to values. Each operation
may run under its own configuration. `arMayPromoteToDenseForRangeSet` is executed together with the
writes to its range, as its callers do.
-/

namespace RainCall

open Function Option

variable {V : Type*} {ar : RedisArray V} {ss : ℕ}

/-- The operations on an array. -/
inductive ArOp (V : Type*)
  | set (idx : ℕ) (v : V)
  | del (idx : ℕ)
  | deleteRange (lo hi : ℕ)
  | truncate (limit : ℕ)
  /-- `arMayPromoteToDenseForRangeSet`, followed by the writes to its range. -/
  | rangeSet (lo hi : ℕ) (writes : List (ℕ × V))
deriving DecidableEq, Repr

/-- The last index is never written, and the writes of a range set are those of all of its range. -/
def ArOp.Valid : ArOp V → Prop
  | .set idx _ => idx < 2 ^ 64 - 1
  | .rangeSet lo hi writes => lo ≤ hi ∧ hi < 2 ^ 64 - 1 ∧ (∀ p ∈ writes, lo ≤ p.1 ∧ p.1 ≤ hi) ∧
      ∀ k, lo ≤ k → k ≤ hi → ∃ v, (k, v) ∈ writes
  | _ => True

/-- `arSet` for each write. -/
def arSetAll (cfg : ArConfig) (ar : RedisArray V) (writes : List (ℕ × V)) : Option (RedisArray V) :=
  runSteps (fun ar p => arSet cfg ar p.1 p.2) ar writes

/-- Execute an operation. -/
def arStep (ar : RedisArray V) : ArConfig × ArOp V → Option (RedisArray V)
  | (cfg, .set idx v) => arSet cfg ar idx v
  | (cfg, .del idx) => some (arDel cfg ar idx).1
  | (cfg, .deleteRange lo hi) => some (arDeleteRange cfg ar lo hi).1
  | (cfg, .truncate limit) => some (arTruncate cfg ar limit)
  | (cfg, .rangeSet lo hi writes) =>
    (arMayPromoteToDenseForRangeSet cfg ar lo hi).bind fun ar => arSetAll cfg ar writes

/-- The effect of writes on the map. -/
def writeAll (f : ℕ → Option V) (writes : List (ℕ × V)) : ℕ → Option V :=
  writes.foldl (fun f p => Function.update f p.1 (some p.2)) f

def ArOp.apply (f : ℕ → Option V) : ArOp V → ℕ → Option V
  | .set idx v => Function.update f idx (some v)
  | .del idx => Function.update f idx none
  | .deleteRange lo hi => fun k => if lo ≤ k ∧ k ≤ hi then none else f k
  | .truncate limit => fun k => if limit ≤ k then none else f k
  | .rangeSet _ _ writes => writeAll f writes

/-- The map after a run: the last value set at each index if it was not deleted since. -/
def arMapAfter (ops : List (ArConfig × ArOp V)) : ℕ → Option V :=
  ops.foldl (fun f op => op.2.apply f) fun _ => none

/-! ### One step -/

lemma arNew_wf (hss : ValidSliceSize ss) : (arNew ss : RedisArray V).WF := by
  have hslice : ∀ id, arGetSlice (arNew ss : RedisArray V).dir id = none := fun id => rfl
  have hget : ∀ idx, arGet (arNew ss : RedisArray V) idx = none := fun idx => by
    simp [arGet, hslice]
  refine ⟨⟨⟨⟨.inl rfl, rfl⟩, hss, ?_, rfl, ?_⟩, ?_, fun h => absurd rfl h⟩, ?_⟩
  · exact fun id s hs => absurd hs (by simp [hslice])
  · exact fun idx v hv => absurd hv (by simp [hget])
  · exact fun idx v hv => absurd hv (by simp [hget])
  · exact fun id s hs => absurd hs (by simp [hslice])

/-- The writes of a range set: the map is updated, only slices without a write may stay empty, and
an empty block is left only if the directory was emptied before the first write. -/
lemma arSetAll_spec (cfg : ArConfig) (h : ar.Loose) {E : ℕ → Prop} (hE : ar.EmptyOnly E)
    {writes : List (ℕ × V)} (hw : ∀ p ∈ writes, p.1 < 2 ^ 64 - 1) {Q : Prop}
    (hQ : ∀ p ∈ writes, ar.dir.Emptied (p.1 / ar.sliceSize) → Q) :
    ∃ ar', arSetAll cfg ar writes = some ar' ∧ ar'.Loose ∧ arGet ar' = writeAll (arGet ar) writes ∧
      SameFrame ar ar' ∧
      (ar'.EmptyOnly fun id => E id ∧ ∀ p ∈ writes, p.1 / ar.sliceSize ≠ id) ∧
      ∀ e, ar'.dir.EmptyBlock e → ar.dir.EmptyBlock e ∨ (e.blockId = 0 ∧ Q) := by
  induction writes generalizing ar E with
  | nil =>
    exact ⟨ar, rfl, h, rfl, ⟨rfl, rfl⟩, fun id s hs hz => ⟨hE id s hs hz, by simp⟩,
      fun e he => .inl he⟩
  | cons p writes ih =>
    obtain ⟨ar1, h1, hset⟩ := arSet_spec cfg h (hw p (by simp)) p.2
    obtain ⟨s, hne, hdir⟩ := hset.slice
    have hE1 : ar1.EmptyOnly fun id => E id ∧ p.1 / ar.sliceSize ≠ id := by
      intro id t ht hz
      rw [hdir, update_apply] at ht
      split_ifs at ht with hid
      · exact absurd hz (some.inj ht ▸ hne)
      · exact ⟨hE id t ht hz, Ne.symm hid⟩
    have hne1 : ar1.dir.slices ≠ [] := by
      have hs : arGetSlice ar1.dir (p.1 / ar.sliceSize) = some s := by
        rw [hdir, update_self]
      exact List.ne_nil_of_mem ((hset.loose.dir.represents.mem_iff _ s).mpr hs)
    obtain ⟨ar2, h2, hloose, hget, hframe, hE2, hempty⟩ :=
      ih hset.loose hE1 (fun q hq => hw q (by simp [hq])) fun q _ hq => absurd hq.1 hne1
    refine ⟨ar2, ?_, hloose, ?_, hset.frame.trans hframe, fun id t ht hz => ?_, fun e he => ?_⟩
    · rw [arSetAll, runSteps_cons, h1]
      exact h2
    · rw [hget, hset.get]
      rfl
    · obtain ⟨⟨hEid, hp⟩, hrest⟩ := hE2 id t ht hz
      refine ⟨hEid, fun q hq => ?_⟩
      rcases List.mem_cons.mp hq with rfl | hq
      · exact hp
      · rw [← hset.frame.sliceSize]
        exact hrest q hq
    · rcases hempty e he with hold | ⟨hid, hQ'⟩
      · exact (hset.empty e hold).imp id fun h => ⟨h.1, hQ p (by simp) h.2⟩
      · exact .inr ⟨hid, hQ'⟩

lemma arStep_spec (h : ar.WF) {op : ArConfig × ArOp V} (hop : op.2.Valid) :
    ∃ ar', arStep ar op = some ar' ∧ ar'.WF ∧ arGet ar' = op.2.apply (arGet ar) ∧
      ∀ e, ar'.dir.EmptyBlock e →
        ar.dir.EmptyBlock e ∨ (e.blockId = 0 ∧ ar.dir.slices = [] ∧ ar.dir ≠ .flat []) := by
  obtain ⟨cfg, op⟩ := op
  cases op with
  | set idx v =>
    obtain ⟨ar', h', hset⟩ := arSet_spec cfg h.toLoose hop v
    exact ⟨ar', h', hset.wf h, hset.get, fun e he =>
      (hset.empty e he).imp id fun h => ⟨h.1, h.2.1, h.2.2.1⟩⟩
  | del idx =>
    obtain ⟨⟨hwf, hget, -, hempty⟩, -⟩ := arDel_spec cfg h idx
    exact ⟨_, rfl, hwf, hget, fun e he => .inl (hempty e he)⟩
  | deleteRange lo hi =>
    obtain ⟨⟨hwf, hget, -, hempty⟩, -⟩ := arDeleteRange_spec cfg h lo hi
    exact ⟨_, rfl, hwf, hget, fun e he => .inl (hempty e he)⟩
  | truncate limit =>
    obtain ⟨hwf, hget, -, hempty⟩ := arTruncate_spec cfg h limit
    exact ⟨_, rfl, hwf, hget, fun e he => .inl (hempty e he)⟩
  | rangeSet lo hi writes =>
    obtain ⟨hle, hhi, hin, hall⟩ := hop
    obtain ⟨ar1, h1, hprep⟩ := arMayPromoteToDenseForRangeSet_spec cfg h hle
    have hQ : ∀ p ∈ writes, ar1.dir.Emptied (p.1 / ar1.sliceSize) →
        ar.dir.slices = [] ∧ ar.dir ≠ .flat [] := by
      intro p hp hemptied
      rcases hprep.room with rfl | hroom
      · exact ⟨hemptied.1, hemptied.2.1⟩
      · refine absurd (hroom.mono ?_) hemptied.2.2
        rw [hprep.frame.sliceSize]
        exact Nat.div_le_div_right (hin p hp).2
    obtain ⟨ar2, h2, hloose, hget, -, hE2, hempty⟩ := arSetAll_spec cfg hprep.loose hprep.emptyOnly
      (fun p hp => (hin p hp).2.trans_lt hhi) hQ
    refine ⟨ar2, ?_, ⟨hloose, fun id s hs hz => ?_⟩, by rw [hget, hprep.get]; rfl, fun e he => ?_⟩
    · simp only [arStep, h1, bind_some, h2]
    · -- each slice of the range has an index that was written
      obtain ⟨⟨hlo, hhi'⟩, hrest⟩ := hE2 id s hs hz
      obtain ⟨k, hk1, hk2, hk⟩ := exists_div_eq h.size.pos hle hlo hhi'
      obtain ⟨v, hv⟩ := hall k hk1 hk2
      have hne := hrest (k, v) hv
      rw [hprep.frame.sliceSize] at hne
      exact hne hk
    · rcases hempty e he with hold | hnew
      · exact (hprep.empty e hold).imp id fun h => ⟨h.1, h.2.1, h.2.2.1⟩
      · exact .inr hnew

/-- The operations keep `insert_idx`. -/
lemma arStep_insertIdx (h : ar.WF) {op : ArConfig × ArOp V} (hop : op.2.Valid) {ar' : RedisArray V}
    (hs : arStep ar op = some ar') : ar'.insertIdx = ar.insertIdx := by
  obtain ⟨cfg, op⟩ := op
  cases op with
  | set idx v =>
    obtain ⟨ar1, h1, hset⟩ := arSet_spec cfg h.toLoose hop v
    obtain rfl := some.inj (h1.symm.trans hs)
    exact hset.frame.insertIdx
  | del idx =>
    obtain rfl := some.inj hs
    exact (arDel_spec cfg h idx).1.frame.insertIdx
  | deleteRange lo hi =>
    obtain rfl := some.inj hs
    exact (arDeleteRange_spec cfg h lo hi).1.frame.insertIdx
  | truncate limit =>
    obtain rfl := some.inj hs
    exact (arTruncate_spec cfg h limit).frame.insertIdx
  | rangeSet lo hi writes =>
    obtain ⟨hle, hhi, hin, -⟩ := hop
    obtain ⟨ar1, h1, hprep⟩ := arMayPromoteToDenseForRangeSet_spec cfg h hle
    obtain ⟨ar2, h2, -, -, hframe, -⟩ := arSetAll_spec cfg hprep.loose hprep.emptyOnly
      (fun p hp => (hin p hp).2.trans_lt hhi) fun _ _ _ => trivial
    have hcode : arStep ar (cfg, .rangeSet lo hi writes) = some ar2 := by
      simp only [arStep, h1, bind_some, h2]
    obtain rfl := some.inj (hcode.symm.trans hs)
    exact (hprep.frame.trans hframe).insertIdx

/-! ### Runs -/

lemma array_run_spec (hss : ValidSliceSize ss) {ops : List (ArConfig × ArOp V)}
    (hops : ∀ op ∈ ops, op.2.Valid) :
    ∃ ar, runSteps arStep (arNew ss) ops = some ar ∧ ar.WF ∧ arGet ar = arMapAfter ops := by
  refine runSteps_simulation (fun f (op : ArConfig × ArOp V) => op.2.apply f)
    (fun ar f => ar.WF ∧ arGet ar = f) (fun op => op.2.Valid) ?_
    ⟨arNew_wf hss, rfl⟩ hops
  rintro ar f op hop ⟨hwf, rfl⟩
  obtain ⟨ar', h', hwf', hget, -⟩ := arStep_spec hwf hop
  exact ⟨ar', h', hwf', hget⟩

/-- A sparse array refines a finite map: for every slice size, every run of operations succeeds
under any configurations, so no assertion fails, and then `arGet` returns the last value set at the
index if it was not deleted since. -/
theorem array_refines_map (hss : ValidSliceSize ss) (ops : List (ArConfig × ArOp V))
    (hops : ∀ op ∈ ops, op.2.Valid) :
    ∃ ar, runSteps arStep (arNew ss) ops = some ar ∧ ∀ idx, arGet ar idx = arMapAfter ops idx := by
  obtain ⟨ar, har, -, hget⟩ := array_run_spec hss hops
  exact ⟨ar, har, fun idx => congrFun hget idx⟩

/-- A run that promotes a sparse slice, writes a range, moves to a superdir and deletes. -/
theorem array_refines_map_superdir :
    ∃ ar, runSteps arStep (arNew 256 : RedisArray ℕ)
        [(⟨1, 0⟩, .set 5 50), (⟨1, 0⟩, .set 9 90), (⟨4, 2⟩, .rangeSet 255 256 [(255, 1), (256, 2)]),
          (⟨4, 2⟩, .set 600000 7), (⟨4, 2⟩, .del 9), (⟨4, 2⟩, .deleteRange 200 255)] = some ar ∧
      ∀ idx, arGet ar idx = arMapAfter
        [(⟨1, 0⟩, .set 5 50), (⟨1, 0⟩, .set 9 90), (⟨4, 2⟩, .rangeSet 255 256 [(255, 1), (256, 2)]),
          (⟨4, 2⟩, .set 600000 7), (⟨4, 2⟩, .del 9), (⟨4, 2⟩, .deleteRange 200 255)] idx := by
  refine array_refines_map ⟨8, by decide, by decide, rfl⟩ _ ?_
  intro op hop
  simp only [List.mem_cons, List.not_mem_nil, or_false] at hop
  rcases hop with rfl | rfl | rfl | rfl | rfl | rfl
  · exact (by decide : (5 : ℕ) < 2 ^ 64 - 1)
  · exact (by decide : (9 : ℕ) < 2 ^ 64 - 1)
  · refine ⟨by decide, by decide, by decide, fun k h1 h2 => ?_⟩
    obtain rfl | rfl : k = 255 ∨ k = 256 := by omega
    · exact ⟨1, by decide⟩
    · exact ⟨2, by decide⟩
  · exact (by decide : (600000 : ℕ) < 2 ^ 64 - 1)
  · trivial
  · trivial

end RainCall
