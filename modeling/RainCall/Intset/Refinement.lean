import RainCall.Intset.Spec

/-!
# Runs of an integer set

What adding and removing do to the list of members, and from it what a whole run of both leaves: the
set of integers one gets by inserting and erasing, and which bytes stand for it.
-/

namespace RainCall

open List

variable {is : Intset} {l : List ℤ} {v : ℤ}

/-- The byte counts of the set fit in 32 bits. -/
def Intset.InBounds (is : Intset) : Prop :=
  is.length < 2 ^ 31 - 1 ∧ is.length * is.encoding < 2 ^ 32

instance (is : Intset) : Decidable is.InBounds := inferInstanceAs (Decidable (_ ∧ _))

namespace Intset.Rep

/-- The block has a record for each member. -/
lemma length_contents (h : is.Rep l) : is.contents.length = l.length * is.encoding := by
  rw [h.contents, length_records (length_leSignedBytes _)]

/-! ### Finding -/

/-- The search finds exactly the members. -/
lemma search_iff (h : is.Rep l) (v : ℤ) : (intsetSearch is v).1 = true ↔ v ∈ l := by
  rcases intsetSearch_spec h v with ⟨hfound, hi, hget⟩ | ⟨hmiss, hpos⟩
  · exact iff_of_true hfound (hget ▸ get_mem l _)
  · refine iff_of_false (by simp [hmiss]) fun hv => ?_
    obtain ⟨i, hi, rfl⟩ := h.mem_iff.mp hv
    rcases Nat.lt_or_ge i (intsetSearch is (_intsetGet is i)).2 with hlt | hge
    · exact lt_irrefl _ (hpos.below i hlt)
    · exact lt_irrefl _ (hpos.above i hge hi)

/-- A member needs no wider encoding. -/
lemma valueEncoding_le (h : is.Rep l) (hv : v ∈ l) : _intsetValueEncoding v ≤ is.encoding := by
  have hle : is.encoding ≤ 8 := by
    rcases h.enc with he | he | he <;> omega
  exact (valueEncoding_le_iff h.enc ((h.fits v hv).mono hle)).mpr (h.fits v hv)

/-- `intsetFind` is exact. -/
lemma find_iff (h : is.Rep l) (v : ℤ) : intsetFind is v = true ↔ v ∈ l := by
  rw [intsetFind, decide_eq_true_iff, h.search_iff]
  exact ⟨And.right, fun hv => ⟨h.valueEncoding_le hv, hv⟩⟩

/-! ### Adding -/

/-- A value at its position keeps the members increasing. -/
lemma pairwise_insert (h : is.Rep l) {p : ℕ} (hp : InsertPos is l.length v p) :
    (l.take p ++ v :: l.drop p).Pairwise (· < ·) := by
  have hbelow : ∀ a ∈ l.take p, a < v := by
    intro a ha
    obtain ⟨i, hi, rfl⟩ := mem_take_iff_getElem.mp ha
    have := hp.below i (by omega)
    rwa [h.get (by omega)] at this
  have habove : ∀ b ∈ l.drop p, v < b := by
    intro b hb
    obtain ⟨i, hi, rfl⟩ := mem_drop_iff_getElem.mp hb
    have := hp.above (p + i) (by omega) (by omega)
    rwa [h.get (by omega)] at this
  refine pairwise_append.mpr ⟨h.sorted.take, ?_, fun a ha b hb => ?_⟩
  · exact pairwise_cons.mpr ⟨habove, h.sorted.drop⟩
  · rcases mem_cons.mp hb with rfl | hb
    · exact hbelow a ha
    · exact (hbelow a ha).trans (habove b hb)

/-- The members after an insertion. -/
lemma mem_insert {p : ℕ} {a : ℤ} : a ∈ l.take p ++ v :: l.drop p ↔ a = v ∨ a ∈ l := by
  rw [mem_append, mem_cons, or_left_comm, ← mem_append, take_append_drop]

/-- Adding a value that needs no wider encoding: the block is extended, the tail is moved behind the
gap, and the value is written into it. -/
lemma add_insert [Realloc UInt8] (h : is.Rep l) (hb : is.InBounds) (hv : FitsIn is.encoding v)
    (hmiss : (intsetSearch is v).1 = false) (hp : InsertPos is l.length v (intsetSearch is v).2)
    (henc : ¬ _intsetValueEncoding v > is.encoding) :
    (intsetAdd is v).2 = true ∧
      (intsetAdd is v).1.Rep
        (l.take (intsetSearch is v).2 ++ v :: l.drop (intsetSearch is v).2) := by
  generalize hpos : (intsetSearch is v).2 = p at *
  have hn := h.length
  have hw : (leSignedBytes is.encoding v).length = is.encoding := length_leSignedBytes _ _
  have hple := hp.le
  -- the moved tail is empty when the value goes to the end
  have hmove : (if p < (intsetResize is (is.length + 1)).length then
      intsetMoveTail (intsetResize is (is.length + 1)) p (p + 1)
      else intsetResize is (is.length + 1)) =
      intsetMoveTail (intsetResize is (is.length + 1)) p (p + 1) := by
    split_ifs with hlt
    · rfl
    · have hzero : (intsetResize is (is.length + 1)).length - p = 0 := Nat.sub_eq_zero_of_le
        (not_lt.mp hlt)
      rw [intsetMoveTail, hzero, Nat.zero_mul, Nat.zero_mod, moveCells_zero]
  have hbytes : (is.length - p) * is.encoding % 2 ^ 32 =
      is.contents.length - p * is.encoding := by
    rw [h.length_contents, ← Nat.sub_mul, ← hn, Nat.mod_eq_of_lt]
    exact (Nat.mul_le_mul_right _ (Nat.sub_le _ _)).trans_lt hb.2
  have hresize : (is.length + 1) * is.encoding =
      is.contents.length + (leSignedBytes is.encoding v).length := by
    rw [h.length_contents, hw, hn, Nat.succ_mul]
  have hle : p * is.encoding ≤ is.contents.length := by
    rw [h.length_contents]
    exact Nat.mul_le_mul_right _ hple
  have hadd : intsetAdd is v = (⟨is.encoding, is.length + 1,
      is.contents.take (p * is.encoding) ++ leSignedBytes is.encoding v ++
        is.contents.drop (p * is.encoding)⟩, true) := by
    rw [← overwrite_moveCells_resizeCells hle, ← hresize, hw, ← hbytes]
    rw [intsetAdd, if_neg henc]
    simp only [hmiss, hpos, Bool.false_eq_true, if_false, hmove]
    simp only [_intsetSet, intsetMoveTail, intsetResize, Nat.succ_mul]
  rw [hadd]
  refine ⟨rfl, h.enc, ?_, ?_, fun a ha => ?_, h.pairwise_insert hp⟩
  · simp only [length_append, length_cons, length_take, length_drop]
    omega
  · simp only [h.contents, take_records (length_leSignedBytes _),
      drop_records (length_leSignedBytes _), flatMap_append, flatMap_cons,
      append_assoc]
  · rcases mem_insert.mp ha with rfl | ha
    · exact hv
    · exact h.fits a ha

/-! ### Upgrading -/

end Intset.Rep

/-- The loop of the upgrade: when the first `k` records are still in the old width, the loop leaves
them re-encoded behind `prepend` records, and the rest of the block as it was. -/
lemma intsetUpgradeLoop_spec {cur prepend k : ℕ} (hk : k ≤ l.length)
    (hfit : ∀ v ∈ l, FitsIn cur v) (hcur : cur ≤ is.encoding)
    (hlen : (k + prepend) * is.encoding ≤ is.contents.length)
    (htake : is.contents.take (k * cur) = (l.take k).flatMap (leSignedBytes cur)) :
    let r := intsetUpgradeLoop cur prepend k is
    r.encoding = is.encoding ∧ r.length = is.length ∧ r.contents.length = is.contents.length ∧
      r.contents.drop (prepend * is.encoding) =
        (l.take k).flatMap (leSignedBytes is.encoding) ++
          is.contents.drop ((k + prepend) * is.encoding) := by
  induction k generalizing is with
  | zero => simp [intsetUpgradeLoop]
  | succ k ih =>
    have hget : _intsetGetEncoded is k cur = l.get ⟨k, hk⟩ := getEncoded_of_take hk hfit htake
    have hw := length_leSignedBytes is.encoding (l.get ⟨k, hk⟩)
    have hmul : (k + 1 + prepend) * is.encoding = (k + prepend) * is.encoding + is.encoding := by
      rw [Nat.add_right_comm, Nat.succ_mul]
    have hwrite : (k + prepend) * is.encoding + (leSignedBytes is.encoding (l.get ⟨k, hk⟩)).length ≤
        is.contents.length := by
      rw [hw, ← hmul]
      exact hlen
    have hoff : (k + prepend) * is.encoding ≤ is.contents.length :=
      (Nat.le_add_right _ _).trans hwrite
    -- the write is behind the records that are still to be read
    have hfront : k * cur ≤ (k + prepend) * is.encoding :=
      Nat.mul_le_mul (Nat.le_add_right _ _) hcur
    have hold : is.contents.take (k * cur) = (l.take k).flatMap (leSignedBytes cur) := by
      have h := congrArg (take (k * cur)) htake
      rwa [take_take, Nat.min_eq_left (Nat.mul_le_mul_right _ (Nat.le_succ k)),
        take_records (length_leSignedBytes cur), take_take,
        Nat.min_eq_left (Nat.le_succ k)] at h
    simp only [intsetUpgradeLoop, hget]
    obtain ⟨henc, hlength, hcells, hdrop⟩ := @ih (_intsetSet is (k + prepend) (l.get ⟨k, hk⟩))
      (Nat.le_of_succ_le hk) hcur (by rw [_intsetSet, length_overwrite hwrite]; exact hoff)
      (by rw [_intsetSet, take_overwrite hfront hoff, hold])
    refine ⟨henc, hlength, hcells.trans (length_overwrite hwrite), ?_⟩
    refine hdrop.trans ?_
    simp only [_intsetSet]
    rw [drop_overwrite hoff, hw, hmul, take_succ_eq_append_getElem hk, flatMap_append,
      flatMap_singleton, append_assoc]
    rfl

/-- A value that does not fit is beyond every value that does, on the side of its sign. -/
lemma lt_of_not_fitsIn {enc : ℕ} {a : ℤ} (hv : ¬ FitsIn enc v) (ha : FitsIn enc a) :
    (v < 0 → v < a) ∧ (¬ v < 0 → a < v) := by
  unfold FitsIn at *
  omega

namespace Intset.Rep

section

variable (h : is.Rep l)
include h

/-- Adding a value that needs a wider encoding. -/
lemma upgradeAndAdd [Realloc UInt8] (hv : FitsIn 8 v)
    (henc : _intsetValueEncoding v > is.encoding) :
    (intsetUpgradeAndAdd is v).Rep (if v < 0 then v :: l else l ++ [v]) := by
  have hn := h.length
  have hnot : ¬ FitsIn is.encoding v := by
    rw [← valueEncoding_le_iff h.enc hv]
    exact not_le.mpr henc
  have hfits : ∀ a ∈ l, FitsIn (_intsetValueEncoding v) a := fun a ha =>
    (h.fits a ha).mono henc.le
  generalize hprep : (if v < 0 then 1 else 0 : ℕ) = prepend
  have hple : prepend ≤ 1 := by split_ifs at hprep <;> omega
  generalize hstart : intsetResize { is with encoding := _intsetValueEncoding v }
    (is.length + 1) = start
  have hsenc : start.encoding = _intsetValueEncoding v := by rw [← hstart]; rfl
  have hslen : start.contents.length = (l.length + 1) * _intsetValueEncoding v := by
    rw [← hstart, ← hn]
    exact length_resizeCells _ _
  have hold : start.contents.take (l.length * is.encoding) =
      (l.take l.length).flatMap (leSignedBytes is.encoding) := by
    have hle : is.contents.length ≤ (is.length + 1) * _intsetValueEncoding v := by
      rw [h.length_contents, hn]
      exact Nat.mul_le_mul (Nat.le_succ _) henc.le
    rw [← hstart]
    simp only [intsetResize, resizeCells]
    rw [take_of_length_le hle, take_left' h.length_contents, h.contents,
      take_length]
  have hroom : (l.length + prepend) * start.encoding ≤ start.contents.length := by
    rw [hslen, hsenc]
    exact Nat.mul_le_mul_right _ (Nat.add_le_add_left hple _)
  have hloop := intsetUpgradeLoop_spec le_rfl h.fits (hsenc ▸ henc.le) hroom hold
  simp only [take_length, hsenc, hslen] at hloop
  obtain ⟨hrenc, -, hrlen, hrdrop⟩ := hloop
  have hw : (leSignedBytes (_intsetValueEncoding v) v).length = _intsetValueEncoding v :=
    length_leSignedBytes _ _
  unfold intsetUpgradeAndAdd
  simp only [hprep, hstart]
  rw [hn]
  generalize intsetUpgradeLoop is.encoding prepend l.length start = r at *
  rcases lt_or_ge v 0 with hneg | hpos
  · obtain rfl : prepend = 1 := by rw [← hprep, if_pos hneg]
    have hend : start.contents.drop ((l.length + 1) * _intsetValueEncoding v) = [] :=
      drop_of_length_le hslen.le
    rw [if_pos rfl, if_pos hneg]
    refine ⟨?_, rfl, ?_, fun a ha => ?_, pairwise_cons.mpr ⟨fun a ha => ?_, h.sorted⟩⟩
    · simp only [_intsetSet, hrenc]
      exact isIntsetEnc_valueEncoding v
    · simp only [_intsetSet, hrenc, overwrite, hw, Nat.zero_mul, take_zero, nil_append,
        Nat.zero_add, flatMap_cons]
      rw [Nat.one_mul] at hrdrop
      rw [hrdrop, hend, append_nil]
    · simp only [_intsetSet, hrenc]
      rcases mem_cons.mp ha with rfl | ha
      · exact fitsIn_valueEncoding hv
      · exact hfits a ha
    · exact (lt_of_not_fitsIn hnot (h.fits a ha)).1 hneg
  · obtain rfl : prepend = 0 := by rw [← hprep, if_neg (not_lt.mpr hpos)]
    rw [if_neg (by decide), if_neg (not_lt.mpr hpos)]
    rw [Nat.zero_mul, drop_zero] at hrdrop
    refine ⟨?_, by simp, ?_, fun a ha => ?_, ?_⟩
    · simp only [_intsetSet, hrenc]
      exact isIntsetEnc_valueEncoding v
    · have hfront : (l.flatMap (leSignedBytes (_intsetValueEncoding v))).length =
          l.length * _intsetValueEncoding v := length_records (length_leSignedBytes _) l
      simp only [_intsetSet, hrenc, overwrite, hw, flatMap_append, flatMap_singleton]
      rw [drop_of_length_le (by rw [hrlen, Nat.succ_mul]), append_nil, hrdrop,
        take_left' hfront]
    · simp only [_intsetSet, hrenc]
      rcases mem_append.mp ha with ha | ha
      · exact hfits a ha
      · rw [mem_singleton.mp ha]
        exact fitsIn_valueEncoding hv
    · refine pairwise_append.mpr ⟨h.sorted, pairwise_singleton _ _, fun a ha b hb => ?_⟩
      rw [mem_singleton.mp hb]
      exact (lt_of_not_fitsIn hnot (h.fits a ha)).2 (not_lt.mpr hpos)

/-- Adding: the members are the old ones and the value, and the flag says whether it is new. -/
lemma add [Realloc UInt8] (hb : is.InBounds) (hv : FitsIn 8 v) :
    ((intsetAdd is v).2 = true ↔ v ∉ l) ∧
      ∃ l', (intsetAdd is v).1.Rep l' ∧ ∀ a, a ∈ l' ↔ a = v ∨ a ∈ l := by
  by_cases henc : _intsetValueEncoding v > is.encoding
  · have hnew : v ∉ l := fun hmem => absurd (h.valueEncoding_le hmem) (not_le.mpr henc)
    have hup : intsetAdd is v = (intsetUpgradeAndAdd is v, true) := if_pos henc
    rw [hup]
    refine ⟨iff_of_true rfl hnew, _, h.upgradeAndAdd hv henc, fun a => ?_⟩
    split_ifs
    · rw [mem_cons]
    · rw [mem_append, mem_singleton, or_comm]
  · rcases intsetSearch_spec h v with ⟨hfound, -⟩ | ⟨hmiss, hp⟩
    · have hmem : v ∈ l := (h.search_iff v).mp hfound
      have hsame : intsetAdd is v = (is, false) := by
        rw [intsetAdd, if_neg henc]
        simp only [hfound, if_true]
      rw [hsame]
      refine ⟨iff_of_false (by simp) (not_not.mpr hmem), l, h, fun a => ?_⟩
      exact ⟨.inr, fun ha => ha.elim (fun hav => hav ▸ hmem) id⟩
    · have hfit : FitsIn is.encoding v := (valueEncoding_le_iff h.enc hv).mp (not_lt.mp henc)
      have hnew : v ∉ l := by
        rw [← h.search_iff, hmiss]
        exact Bool.false_ne_true
      obtain ⟨hflag, hrep⟩ := h.add_insert hb hfit hmiss hp henc
      exact ⟨iff_of_true hflag hnew, _, hrep, fun a => mem_insert⟩

/-! ### Removing -/

/-- Removing the member at position `i`: the tail is moved over it, and the block is cut. -/
lemma remove_at [Realloc UInt8] (hb : is.InBounds) {i : ℕ} (hi : i < l.length)
    (hpos : (intsetSearch is v).2 = i)
    (hfound : (intsetSearch is v).1 = true) (henc : _intsetValueEncoding v ≤ is.encoding) :
    (intsetRemove is v).2 = true ∧ (intsetRemove is v).1.Rep (l.take i ++ l.drop (i + 1)) := by
  have hn := h.length
  have hclen := h.length_contents
  have hmove : (if i < is.length - 1 then intsetMoveTail is (i + 1) i else is) =
      intsetMoveTail is (i + 1) i := by
    split_ifs with hlt
    · rfl
    · have hzero : is.length - (i + 1) = 0 := by omega
      rw [intsetMoveTail, hzero, Nat.zero_mul, Nat.zero_mod, moveCells_zero]
  have hend : (i + 1) * is.encoding = i * is.encoding + is.encoding := Nat.succ_mul _ _
  have hbytes : (is.length - (i + 1)) * is.encoding % 2 ^ 32 =
      is.contents.length - (i * is.encoding + is.encoding) := by
    rw [hclen, ← hend, ← Nat.sub_mul, ← hn, Nat.mod_eq_of_lt]
    exact (Nat.mul_le_mul_right _ (Nat.sub_le _ _)).trans_lt hb.2
  have hresize : (is.length - 1) * is.encoding = is.contents.length - is.encoding := by
    rw [hclen, Nat.sub_mul, Nat.one_mul, hn]
  have hle : i * is.encoding + is.encoding ≤ is.contents.length := by
    rw [hclen, ← hend]
    exact Nat.mul_le_mul_right _ hi
  have hrem : intsetRemove is v = (⟨is.encoding, is.length - 1,
      is.contents.take (i * is.encoding) ++ is.contents.drop ((i + 1) * is.encoding)⟩, true) := by
    rw [hend, ← resizeCells_moveCells hle, ← hresize, ← hbytes, ← hend]
    rw [intsetRemove]
    simp only [hpos, hmove]
    rw [if_pos ⟨henc, hfound⟩]
    simp only [intsetResize, intsetMoveTail]
  rw [hrem]
  have hsub : (l.take i ++ l.drop (i + 1)).Sublist l := by
    rw [← eraseIdx_eq_take_drop_succ]
    exact eraseIdx_sublist l i
  refine ⟨rfl, h.enc, ?_, ?_, fun a ha => h.fits a (hsub.subset ha), h.sorted.sublist hsub⟩
  · simp only [length_append, length_take, length_drop]
    omega
  · simp only [h.contents, take_records (length_leSignedBytes _),
      drop_records (length_leSignedBytes _), flatMap_append]

lemma mem_erase {i : ℕ} (hi : i < l.length) (a : ℤ) :
    a ∈ l.take i ++ l.drop (i + 1) ↔ a ≠ l.get ⟨i, hi⟩ ∧ a ∈ l := by
  have hsplit : l.take i ++ l.get ⟨i, hi⟩ :: l.drop (i + 1) = l := by
    rw [get_eq_getElem, cons_getElem_drop_succ, take_append_drop]
  have hnodup : (l.take i ++ l.get ⟨i, hi⟩ :: l.drop (i + 1)).Nodup := by
    rw [hsplit]
    exact h.sorted.imp ne_of_lt
  have hnot : l.get ⟨i, hi⟩ ∉ l.take i ++ l.drop (i + 1) :=
    (nodup_middle.mp hnodup).notMem
  constructor
  · intro ha
    refine ⟨fun heq => hnot (heq ▸ ha), ?_⟩
    rw [← hsplit]
    exact perm_middle.mem_iff.mpr (mem_cons_of_mem _ ha)
  · rintro ⟨hne, ha⟩
    rw [← hsplit] at ha
    exact (mem_cons.mp (perm_middle.mem_iff.mp ha)).resolve_left hne

/-- Removing: the members are the others, and the flag says whether the value was one. -/
lemma remove [Realloc UInt8] (hb : is.InBounds) (v : ℤ) :
    ((intsetRemove is v).2 = true ↔ v ∈ l) ∧
      ∃ l', (intsetRemove is v).1.Rep l' ∧ ∀ a, a ∈ l' ↔ a ≠ v ∧ a ∈ l := by
  rcases intsetSearch_spec h v with ⟨hfound, hi, hget⟩ | ⟨hmiss, -⟩
  · have hmem : v ∈ l := (h.search_iff v).mp hfound
    obtain ⟨hflag, hrep⟩ := h.remove_at hb hi rfl hfound (h.valueEncoding_le hmem)
    refine ⟨iff_of_true hflag hmem, _, hrep, fun a => ?_⟩
    rw [h.mem_erase hi, hget]
  · have hnot : v ∉ l := by
      rw [← h.search_iff, hmiss]
      exact Bool.false_ne_true
    have hsame : intsetRemove is v = (is, false) := by
      rw [intsetRemove]
      simp only [hmiss, Bool.false_eq_true, and_false, if_false]
    rw [hsame]
    refine ⟨iff_of_false Bool.false_ne_true hnot, l, h, fun a => ?_⟩
    exact ⟨fun ha => ⟨fun hav => hnot (hav ▸ ha), ha⟩, And.right⟩

/-! ### Reading the set -/

/-- The members as they are read from the block. -/
lemma stored : (range is.length).map (_intsetGet is) = l := by
  refine ext_getElem (by simp [h.length]) fun i hi hl => ?_
  rw [getElem_map, getElem_range]
  exact h.get hl

/-- `intsetMin` is a lower bound. -/
lemma min_le (hv : v ∈ l) : intsetMin is ≤ v := by
  obtain ⟨i, hi, rfl⟩ := h.mem_iff.mp hv
  rcases Nat.eq_zero_or_pos i with rfl | hpos
  · exact le_rfl
  · exact (h.get_lt hpos hi).le

/-- `intsetMax` is an upper bound. -/
lemma le_max (hv : v ∈ l) : v ≤ intsetMax is := by
  obtain ⟨i, hi, rfl⟩ := h.mem_iff.mp hv
  have hn := h.length
  rcases Nat.lt_or_ge i (is.length - 1) with hlt | hge
  · exact (h.get_lt hlt (by omega)).le
  · obtain rfl : i = is.length - 1 := by omega
    exact le_rfl

/-- `intsetMin` is a member. -/
lemma min_mem (hne : l ≠ []) : intsetMin is ∈ l :=
  h.mem_iff.mpr ⟨0, length_pos_iff.mpr hne, rfl⟩

/-- `intsetMax` is a member. -/
lemma max_mem (hne : l ≠ []) : intsetMax is ∈ l := by
  have hpos := length_pos_iff.mpr hne
  have hn := h.length
  exact h.mem_iff.mpr ⟨is.length - 1, by omega, rfl⟩

/-! ### The blob -/

/-- The loop of the deep check finds the members increasing. -/
lemma validateLoop {n i : ℕ} (hi : i + 1 + n ≤ l.length) :
    intsetValidateLoop is n (i + 1) (_intsetGet is i) = true := by
  induction n generalizing i with
  | zero => rfl
  | succ n ih =>
    have hlt : _intsetGet is i < _intsetGet is (i + 1) := h.get_lt (Nat.lt_succ_self i) (by omega)
    simp only [intsetValidateLoop]
    rw [if_neg (not_le.mpr hlt)]
    exact ih (by omega)

/-- The header in front of the contents is read back. -/
lemma ofBlob_blob (hb : is.InBounds) : Intset.ofBlob is.blob = is := by
  have henc : is.encoding < 256 ^ 4 := by
    rcases h.enc with he | he | he <;> omega
  have hlen : is.length < 256 ^ 4 := by
    have := hb.1
    omega
  have hfront : (leBytes 4 is.encoding ++ leBytes 4 is.length).length = 8 := by
    rw [length_append, length_leBytes, length_leBytes]
  have hmid : is.blob.drop 4 = leBytes 4 is.length ++ is.contents := by
    rw [Intset.blob, append_assoc, drop_left' (length_leBytes _ _)]
  unfold Intset.ofBlob
  rw [hmid, take_left' (length_leBytes _ _), ofLeBytes_leBytes hlen, Intset.blob,
    drop_left' hfront, append_assoc, take_left' (length_leBytes _ _),
    ofLeBytes_leBytes henc]

/-- The blob of a set that is not empty passes the deep check. -/
lemma validate (hb : is.InBounds) (hne : l ≠ []) :
    intsetValidateIntegrity is.blob true = true := by
  have hn := h.length
  have hpos : 0 < l.length := length_pos_iff.mpr hne
  have hblob : is.blob.length = 8 + is.length * is.encoding := by
    simp only [Intset.blob, length_append, length_leBytes, h.length_contents, hn]
  have henc : ¬ (is.encoding ≠ intsetEncInt64 ∧ is.encoding ≠ intsetEncInt32 ∧
      is.encoding ≠ intsetEncInt16) := by
    rcases h.enc with he | he | he <;> simp [he, intsetEncInt16, intsetEncInt32, intsetEncInt64]
  unfold intsetValidateIntegrity
  simp only [h.ofBlob_blob hb]
  rw [if_neg (by omega), if_neg henc, if_neg (by omega), if_neg (by omega), if_neg (by simp)]
  exact h.validateLoop (by omega)

end

end Intset.Rep

/-! ### Runs -/

/-- A modification of an integer set. -/
inductive IntsetOp where
  | add (value : Int64)
  | remove (value : Int64)
  deriving DecidableEq

/-- One modification. -/
def intsetStep [Realloc UInt8] (is : Intset) : IntsetOp → Intset
  | .add value => (intsetAdd is value.toInt).1
  | .remove value => (intsetRemove is value.toInt).1

/-- The set after the modifications of a new set. -/
def intsetRun [Realloc UInt8] (ops : List IntsetOp) : Intset := ops.foldl intsetStep intsetNew

/-- What a modification is for. -/
def finsetStep (S : Finset ℤ) : IntsetOp → Finset ℤ
  | .add value => insert value.toInt S
  | .remove value => S.erase value.toInt

/-- The set of integers that the modifications describe. -/
def finsetRun (ops : List IntsetOp) : Finset ℤ := ops.foldl finsetStep ∅

/-- The values that the block holds, by position. -/
def Intset.stored (is : Intset) : List ℤ := (List.range is.length).map (_intsetGet is)

/-- A value is at most eight bytes wide. -/
lemma fitsIn_toInt (v : Int64) : FitsIn 8 v.toInt := by
  have h8 : (256 ^ 8 : ℕ) = 18446744073709551616 := rfl
  have hle := v.le_toInt
  have hlt := v.toInt_lt
  rw [FitsIn]
  omega

/-- The set is the block of an increasing list with the members of `S`. -/
def Intset.Refines (is : Intset) (S : Finset ℤ) : Prop := ∃ l, is.Rep l ∧ ∀ a, a ∈ l ↔ a ∈ S

/-- One modification does to the block what it does to the set of integers. -/
lemma intsetStep_refines [Realloc UInt8] {S : Finset ℤ} (h : is.Refines S) (hb : is.InBounds)
    (op : IntsetOp) : (intsetStep is op).Refines (finsetStep S op) := by
  obtain ⟨l, hrep, hmem⟩ := h
  cases op with
  | add value =>
    obtain ⟨-, l', hrep', hmem'⟩ := hrep.add hb (fitsIn_toInt value)
    exact ⟨l', hrep', fun a => by rw [hmem', hmem, finsetStep, Finset.mem_insert]⟩
  | remove value =>
    obtain ⟨-, l', hrep', hmem'⟩ := hrep.remove hb value.toInt
    exact ⟨l', hrep', fun a => by rw [hmem', hmem, finsetStep, Finset.mem_erase]⟩

/-- A run whose sets are all in bounds refines the run on sets of integers. -/
lemma intsetRun_refines [Realloc UInt8] {ops : List IntsetOp}
    (hb : ∀ pre ∈ ops.inits, (intsetRun pre).InBounds) :
    (intsetRun ops).Refines (finsetRun ops) := by
  induction ops using reverseRecOn with
  | nil => exact ⟨[], intsetNew_rep, fun a => iff_of_false not_mem_nil (Finset.notMem_empty a)⟩
  | append_singleton ops op ih =>
    have hsub : ∀ pre ∈ ops.inits, pre ∈ (ops ++ [op]).inits := fun pre hpre =>
      (mem_inits _ _).mpr (((mem_inits _ _).mp hpre).trans (prefix_append _ _))
    have hpre := ih fun pre hpre => hb pre (hsub pre hpre)
    have hlast := hb ops (hsub ops ((mem_inits _ _).mpr (prefix_refl _)))
    simp only [intsetRun, finsetRun, foldl_append]
    exact intsetStep_refines hpre hlast op

/-- **An integer set refines a finite set.**  After every run of `intsetAdd` and `intsetRemove` from
`intsetNew` whose sets keep their byte counts in 32 bits, and whatever `realloc` leaves in new
bytes, the block holds exactly the members of the set of integers the calls describe, strictly
increasing and in a width that is enough; `intsetFind` is exact, the next `intsetAdd` or
`intsetRemove` reports whether it changes the set, `intsetMin` and `intsetMax` are the least and the
greatest member, and the blob of a non-empty set passes the deep check. -/
theorem intset_refines_finset [Realloc UInt8] (ops : List IntsetOp)
    (hb : ∀ pre ∈ ops.inits, (intsetRun pre).InBounds) :
    (intsetRun ops).stored.Pairwise (· < ·) ∧
      (∀ a, a ∈ (intsetRun ops).stored ↔ a ∈ finsetRun ops) ∧
      (∀ v : Int64, intsetFind (intsetRun ops) v.toInt = true ↔ v.toInt ∈ finsetRun ops) ∧
      (∀ v : Int64, (intsetAdd (intsetRun ops) v.toInt).2 = true ↔
        finsetStep (finsetRun ops) (.add v) ≠ finsetRun ops) ∧
      (∀ v : Int64, (intsetRemove (intsetRun ops) v.toInt).2 = true ↔
        finsetStep (finsetRun ops) (.remove v) ≠ finsetRun ops) ∧
      (∀ a ∈ finsetRun ops, FitsIn (intsetRun ops).encoding a) ∧
      (finsetRun ops ≠ ∅ →
        IsLeast (finsetRun ops : Set ℤ) (intsetMin (intsetRun ops)) ∧
        IsGreatest (finsetRun ops : Set ℤ) (intsetMax (intsetRun ops)) ∧
        intsetValidateIntegrity (intsetRun ops).blob true = true) := by
  have hlast := hb ops ((List.mem_inits _ _).mpr (List.prefix_refl _))
  obtain ⟨l, hrep, hmem⟩ := intsetRun_refines hb
  generalize intsetRun ops = is at *
  generalize finsetRun ops = S at *
  refine ⟨?_, fun a => ?_, fun v => ?_, fun v => ?_, fun v => ?_, fun a ha => ?_, fun hne => ?_⟩
  · rw [Intset.stored, hrep.stored]
    exact hrep.sorted
  · rw [Intset.stored, hrep.stored, hmem]
  · rw [hrep.find_iff, hmem]
  · rw [(hrep.add hlast (fitsIn_toInt v)).1, hmem, finsetStep, Ne, Finset.insert_eq_self]
  · rw [(hrep.remove hlast v.toInt).1, hmem, finsetStep, Ne, Finset.erase_eq_self, not_not]
  · exact hrep.fits a ((hmem a).mpr ha)
  · have hl : l ≠ [] := by
      rintro rfl
      exact hne (Finset.eq_empty_of_forall_notMem fun a ha => List.not_mem_nil ((hmem a).mpr ha))
    refine ⟨⟨(hmem _).mp (hrep.min_mem hl), fun a ha => hrep.min_le ((hmem a).mpr ha)⟩,
      ⟨(hmem _).mp (hrep.max_mem hl), fun a ha => hrep.le_max ((hmem a).mpr ha)⟩,
      hrep.validate hlast hl⟩

/-- An allocator that clears the new bytes. -/
local instance clearedBytes : Realloc UInt8 := ⟨fun _ _ => 0⟩

/-- A run through all three widths, with an upgrade on either side and a removal. -/
theorem intset_refines_finset_upgrades :
    intsetFind (intsetRun [.add 5, .add (-70000), .add 3, .add 5000000000, .remove 5]) 3 = true :=
  ((intset_refines_finset [.add 5, .add (-70000), .add 3, .add 5000000000, .remove 5]
    (by decide +kernel)).2.2.1 3).mpr (by decide +kernel)

/-! ### Bytes -/

/-- The width one gets from the values added; nothing narrows a set. -/
def widthStep (width : ℕ) : IntsetOp → ℕ
  | .add value => max width (_intsetValueEncoding value.toInt)
  | .remove _ => width

/-- The loop of the upgrade leaves the width alone. -/
lemma intsetUpgradeLoop_encoding (curenc prepend n : ℕ) (is : Intset) :
    (intsetUpgradeLoop curenc prepend n is).encoding = is.encoding := by
  induction n generalizing is with
  | zero => rfl
  | succ n ih => exact ih _

/-- The width after a modification. -/
lemma intsetStep_encoding [Realloc UInt8] (is : Intset) (op : IntsetOp) :
    (intsetStep is op).encoding = widthStep is.encoding op := by
  cases op with
  | add value =>
    simp only [intsetStep, intsetAdd, widthStep]
    split_ifs with henc
    · rw [max_eq_right henc.le, intsetUpgradeAndAdd]
      split_ifs <;> exact intsetUpgradeLoop_encoding _ _ _ _
    all_goals exact (max_eq_left (not_lt.mp henc)).symm
  | remove value =>
    simp only [intsetStep, intsetRemove, widthStep]
    split_ifs <;> rfl

/-- **The bytes of an integer set are canonical.**  A run in bounds leaves the members in increasing
order in the width of the widest value ever added, and nothing else of its history nor of what
`realloc` leaves in new bytes. -/
theorem intsetRun_canonical [Realloc UInt8] (ops : List IntsetOp)
    (hb : ∀ pre ∈ ops.inits, (intsetRun pre).InBounds) :
    intsetRun ops = ⟨ops.foldl widthStep intsetEncInt16, (finsetRun ops).card,
      (finsetRun ops).sort.flatMap (leSignedBytes (ops.foldl widthStep intsetEncInt16))⟩ := by
  obtain ⟨l, hrep, hmem⟩ := intsetRun_refines hb
  have hl : l = (finsetRun ops).sort :=
    hrep.sorted.eq_of_mem_iff (Finset.sortedLT_sort _).pairwise (by simp [hmem])
  have henc : (intsetRun ops).encoding = ops.foldl widthStep intsetEncInt16 :=
    (foldl_hom Intset.encoding fun is op => (intsetStep_encoding is op).symm).symm
  rw [← henc, ← hl, ← Finset.length_sort (· ≤ ·), ← hl, ← hrep.length, ← hrep.contents]

/-- The value that needed four bytes is gone, its width is not. -/
theorem intsetRun_canonical_removed :
    (intsetRun [.add 5, .add 70000, .remove 70000]).contents = [5, 0, 0, 0] := by
  have hset : finsetRun [.add 5, .add 70000, .remove 70000] = {5} := by decide
  rw [intsetRun_canonical _ (by decide), hset, Finset.sort_singleton]
  decide

end RainCall
