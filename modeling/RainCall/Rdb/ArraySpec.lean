import RainCall.Rdb.Array

/-!
# Loading a saved array

The bytes saved for an array are read back exactly, into an array with the same elements and the
same `insert_idx`, whatever the configuration is when the array is loaded.
-/

namespace RainCall

open BitVec Consumes Function List

variable {ft : FloatText} {ar : RedisArray ArValue}

/-! ### Values -/

/-- The values the server puts into arrays. -/
inductive ArValue.Stored (ft : FloatText) : ArValue → Prop
  | int {i : ℤ} (h : arIntFits i) : Stored ft (.imm (arFromInt i))
  | float (d : BitVec 64) : Stored ft (.imm (arFromFloatBits d))
  | smallStr {s : Bytes} (h : s.length ≤ 7) : Stored ft (.imm (arFromSmallStr s))
  /-- A heap string is only used for what has no shorter form. -/
  | str {s p : Bytes} (hlen : s.length < 2 ^ 63) (hnew : arStringNew s = some p)
    (henc : arEncode ft s = some (.ptr p)) : Stored ft (.ptr p)

/-- The values an operation writes. -/
def ArOp.written : ArOp ArValue → List ArValue
  | .set _ v => [v]
  | .rangeSet _ _ writes => writes.map Prod.snd
  | _ => []

/-- The arrays of a running server: made by operations from a new array, with `insert_idx` set to
any 64-bit number in between. The elements of an array are words in memory, so a step only succeeds
if they fit in the address space. -/
inductive ArReachable (ft : FloatText) : RedisArray ArValue → Prop
  | new {ss : ℕ} (hss : ValidSliceSize ss) : ArReachable ft (arNew ss)
  | step {ar ar' : RedisArray ArValue} (h : ArReachable ft ar) {op : ArConfig × ArOp ArValue}
    (hop : op.2.Valid) (hval : ∀ v ∈ op.2.written, v.Stored ft) (hs : arStep ar op = some ar')
    (hmem : 8 * ar'.count < 2 ^ 64) : ArReachable ft ar'
  | seek {ar : RedisArray ArValue} (h : ArReachable ft ar) {n : ℕ} (hn : n < 2 ^ 64) :
    ArReachable ft { ar with insertIdx := n }

/-- Writes to a map add only what they write. -/
lemma writeAll_eq_some {f : ℕ → Option ArValue} {writes : List (ℕ × ArValue)} {k : ℕ} {v : ArValue}
    (h : writeAll f writes k = some v) : f k = some v ∨ v ∈ writes.map Prod.snd := by
  induction writes generalizing f with
  | nil => exact .inl h
  | cons p writes ih =>
    rcases ih (f := update f p.1 (some p.2)) h with hf | hv
    · rw [update_apply] at hf
      split_ifs at hf with hk
      · obtain rfl := Option.some.inj hf
        exact .inr (mem_cons_self ..)
      · exact .inl hf
    · exact .inr (mem_cons_of_mem _ hv)

/-- An operation adds only the values it writes. -/
lemma ArOp.apply_eq_some {f : ℕ → Option ArValue} {op : ArOp ArValue} {k : ℕ} {v : ArValue}
    (h : op.apply f k = some v) : f k = some v ∨ v ∈ op.written := by
  cases op with
  | set idx w =>
    rw [ArOp.apply, update_apply] at h
    split_ifs at h
    · exact .inr (by simpa [ArOp.written] using (Option.some.inj h).symm)
    · exact .inl h
  | del idx =>
    rw [ArOp.apply, update_apply] at h
    split_ifs at h
    exact .inl h
  | deleteRange lo hi | truncate limit =>
    simp only [ArOp.apply] at h
    split_ifs at h
    exact .inl h
  | rangeSet lo hi writes => exact writeAll_eq_some h

/-- What holds of the arrays of a running server. -/
structure ArSaved (ft : FloatText) (ar : RedisArray ArValue) : Prop where
  wf : ar.WF
  stored : ∀ idx v, arGet ar idx = some v → v.Stored ft
  insertIdx : ar.insertIdx < 2 ^ 64
  fits : 8 * ar.count < 2 ^ 64

lemma ArReachable.saved (h : ArReachable ft ar) : ArSaved ft ar := by
  induction h with
  | new hss =>
    exact ⟨arNew_wf hss, fun idx v hv => absurd hv (by simp [arGet, arNew, arGetSlice]),
      (show 2 ^ 64 - 1 < 2 ^ 64 by decide), (show 0 < 2 ^ 64 by decide)⟩
  | step _ hop hval hs hmem ih =>
    obtain ⟨ar1, h1, hwf, hget, -⟩ := arStep_spec ih.wf hop
    obtain rfl := Option.some.inj (h1.symm.trans hs)
    refine ⟨hwf, fun idx v hv => ?_,
      by rw [arStep_insertIdx ih.wf hop hs]; exact ih.insertIdx, hmem⟩
    rw [hget] at hv
    exact (ArOp.apply_eq_some hv).elim (ih.stored idx v) (hval v)
  | seek _ hn ih => exact ⟨ih.wf.withInsertIdx _, ih.stored, hn, ih.fits⟩

end RainCall
