import RainCall.Hash.Table
import RainCall.Foundation.Assoc

/-!
# What the functions on hash objects do

`HashObj.Holds o m` says that the object `o` is well formed and stands for the plain map `m`: a
listpack holds the fields of the map one after the other, a listpack with expiry times holds them
sorted by expiry time with the fields that have none last, and a dict has the invariant of
`HashTable.WF`. Every `hashType*` function succeeds on such an object and does on the map what
`ttlSet`, `ttlSetEx` or a deletion do, whatever the encoding and whether or not it converts the
object.
-/

namespace RainCall

open Function List LpEntry LpRecords
open Option hiding map_map

/-! ### Fields in a listpack -/

/-- Fields and values. -/
def pairRecords : LpRecords (Bytes × Bytes) where
  key := Prod.fst
  data r := [.str r.2]
  skip := 1
  length_data _ := rfl

/-- Fields, values and expiry times. -/
def tripleRecords : LpRecords (Bytes × Bytes × ℕ) where
  key := Prod.fst
  data r := [.str r.2.1, .int r.2.2]
  skip := 2
  length_data _ := rfl

/-- The expiry time that a number in a listpack stands for: `HASH_LP_NO_TTL` is zero. -/
def ttlOfInt (n : ℕ) : Option ℕ := if n = 0 then none else some n

/-- The order of the numbers in a listpack, with zero last. -/
def TtlLe (a b : ℕ) : Prop := b = 0 ∨ (a ≠ 0 ∧ a ≤ b)

/-- The map of a list of pairs. -/
def pairsMap : List (Bytes × Bytes) → TtlMap :=
  assocMap Prod.fst fun r => (r.2, none)

/-- The map of a list of triples. -/
def triplesMap : List (Bytes × Bytes × ℕ) → TtlMap :=
  assocMap Prod.fst fun r => (r.2.1, ttlOfInt r.2.2)

/-- The fields are distinct and sorted by expiry time, those without one last. -/
structure SortedTriples (ts : List (Bytes × Bytes × ℕ)) : Prop where
  nodup : (ts.map Prod.fst).Nodup
  sorted : ts.Pairwise fun a b => TtlLe a.2.2 b.2.2
  /-- The ebuckets can hold the times after a conversion. -/
  le_max : ∀ r ∈ ts, r.2.2 ≤ ebExpireTimeMax

/-- The object is well formed and stands for the map. -/
def HashObj.Holds : HashObj → TtlMap → Prop
  | .listpack lp, m => ∃ ps, lp = pairRecords.flat ps ∧ (ps.map Prod.fst).Nodup ∧ m = pairsMap ps
  | .listpackEx lp, m => ∃ ts, lp = tripleRecords.flat ts ∧ SortedTriples ts ∧ m = triplesMap ts
  | .ht h, m => h.WF ∧ m = h.map

def HashObj.SupportsExpiry : HashObj → Prop
  | .listpack _ => False
  | .listpackEx _ => True
  | .ht h => h.hfe.isSome = true

/-! ### Finding a field -/

variable {ps : List (Bytes × Bytes)} {ts front back : List (Bytes × Bytes × ℕ)}
  {o : HashObj} {m : TtlMap} {f : Bytes}

/-- A field of a list of pairs splits it. -/
lemma pairsMap_cases (hps : (ps.map Prod.fst).Nodup) (f : Bytes) :
    (pairsMap ps f = none ∧ (∀ r ∈ ps, r.1 ≠ f) ∧ lpFind (pairRecords.flat ps) f 1 = none) ∨
      ∃ front v back, ps = front ++ (f, v) :: back ∧ (∀ r ∈ front ++ back, r.1 ≠ f) ∧
        pairsMap ps f = some (v, none) ∧
        lpFind (pairRecords.flat ps) f 1 = some (pairRecords.flat front).length := by
  cases hf : pairsMap ps f with
  | none =>
    have hnone := assocMap_eq_none_iff.mp hf
    exact .inl ⟨rfl, hnone, pairRecords.lpFind_flat_of_forall hnone⟩
  | some x =>
    obtain ⟨front, ⟨_, v⟩, back, rfl, hfront, rfl, rfl⟩ := exists_split_of_assocMap hf
    exact .inr ⟨front, v, back, rfl, ne_key_of_nodup hps, rfl,
      pairRecords.lpFind_flat_append hfront rfl back⟩

/-- A field of a list of triples splits it. -/
lemma triplesMap_cases (hts : (ts.map Prod.fst).Nodup) (f : Bytes) :
    (triplesMap ts f = none ∧ (∀ r ∈ ts, r.1 ≠ f) ∧ lpFind (tripleRecords.flat ts) f 2 = none) ∨
      ∃ front v t back, ts = front ++ (f, v, t) :: back ∧ (∀ r ∈ front ++ back, r.1 ≠ f) ∧
        triplesMap ts f = some (v, ttlOfInt t) ∧
        lpFind (tripleRecords.flat ts) f 2 = some (tripleRecords.flat front).length := by
  cases hf : triplesMap ts f with
  | none =>
    have hnone := assocMap_eq_none_iff.mp hf
    exact .inl ⟨rfl, hnone, tripleRecords.lpFind_flat_of_forall hnone⟩
  | some x =>
    obtain ⟨front, ⟨_, v, t⟩, back, rfl, hfront, rfl, rfl⟩ := exists_split_of_assocMap hf
    exact .inr ⟨front, v, t, back, rfl, ne_key_of_nodup hts, rfl,
      tripleRecords.lpFind_flat_append hfront rfl back⟩

lemma flat_pairs_append (front back : List (Bytes × Bytes)) (f v : Bytes) :
    pairRecords.flat (front ++ (f, v) :: back) =
      pairRecords.flat front ++ .str f :: .str v :: pairRecords.flat back := by
  rw [flat_append]
  rfl

lemma flat_triples_append (front back : List (Bytes × Bytes × ℕ)) (f v : Bytes)
    (t : ℕ) :
    tripleRecords.flat (front ++ (f, v, t) :: back) =
      tripleRecords.flat front ++ .str f :: .str v :: .int t :: tripleRecords.flat back := by
  rw [flat_append]
  rfl

/-- The lookup functions read the map. -/
lemma HashObj.Holds.hashTypeGet (h : o.Holds m) (f : Bytes) :
    hashTypeGet o f = some (m f) := by
  cases o with
  | listpack lp =>
    obtain ⟨ps, rfl, hps, rfl⟩ := h
    rcases pairsMap_cases hps f with ⟨hf, -, hfind⟩ | ⟨front, v, back, rfl, -, hf, hfind⟩
    · simp only [RainCall.hashTypeGet, hfind, hf]
    · rw [flat_pairs_append] at hfind
      rw [hf, flat_pairs_append]
      simp only [RainCall.hashTypeGet, hfind, lpNext_length_append]
      simp [text]
  | listpackEx lp =>
    obtain ⟨ts, rfl, hts, rfl⟩ := h
    rcases triplesMap_cases hts.nodup f with ⟨hf, -, hfind⟩ | ⟨front, v, t, back, rfl, -, hf, hfind⟩
    · simp only [RainCall.hashTypeGet, hfind, hf]
    · rw [flat_triples_append] at hfind
      rw [hf, flat_triples_append]
      simp only [RainCall.hashTypeGet, hfind, lpNext_length_append, lpNext_length_append_two,
        bind_eq_bind, bind_some]
      simp [text, integerValue, ttlOfInt]
  | ht t =>
    obtain ⟨hw, rfl⟩ := h
    cases hfind : t.find f with
    | none =>
      simp only [RainCall.hashTypeGet, hfind, HashTable.map, bind_none]
    | some p =>
      obtain ⟨e, hp, rfl⟩ := hw.find_eq_some_iff.mp hfind
      simp [RainCall.hashTypeGet, hfind, hp, hw.map_of_heap hp]

/-! ### Inserting a triple at its place -/

lemma TtlLe.zero (a : ℕ) : TtlLe a 0 := .inl rfl

/-- The callback passes over triples that expire earlier. -/
lemma lpFindCb_front {r : LpFingArgs} (hts : ∀ x ∈ ts, x.2.2 ≠ 0 ∧ x.2.2 < r.expireTime)
    (hindex : r.index % 3 = 0) (lp : List LpEntry) (p : ℕ) :
    ∃ r', r'.expireTime = r.expireTime ∧ r'.p = r.p ∧ r'.index % 3 = 0 ∧
      lpFindCb cbFindInListpack 0 (tripleRecords.flat ts ++ lp) p 0 (some r) =
        lpFindCb cbFindInListpack 0 lp (p + (tripleRecords.flat ts).length) 0 (some r') := by
  induction ts generalizing r p with
  | nil => exact ⟨r, rfl, rfl, hindex, rfl⟩
  | cons x ts ih =>
    obtain ⟨f, v, t⟩ := x
    have ht : t ≠ 0 ∧ t < r.expireTime := hts (f, v, t) (by simp)
    have hnot : ¬ (t = 0 ∨ r.expireTime ≤ t) := by
      rintro (h | h)
      · exact ht.1 h
      · exact absurd ht.2 (by omega)
    have hindex1 : (r.index + 1) % 3 = 1 := by omega
    have hindex2 : (r.index + 1 + 1) % 3 = 2 := by omega
    have hindex3 : (r.index + 1 + 1 + 1) % 3 = 0 := by omega
    obtain ⟨r', hexp, hp, hi, hrun⟩ :=
      ih (r := { r with index := r.index + 3, fptr := p, expired := r.expired + 1 })
        (fun y hy => hts y (mem_cons_of_mem _ hy)) (by simp only; omega) (p + 3)
    refine ⟨r', hexp, hp, hi, ?_⟩
    have hstep : lpFindCb cbFindInListpack 0 (tripleRecords.flat ((f, v, t) :: ts) ++ lp) p 0
        (some r) = lpFindCb cbFindInListpack 0 (tripleRecords.flat ts ++ lp) (p + 3) 0
          (some { r with index := r.index + 3, fptr := p, expired := r.expired + 1 }) := by
      simp [tripleRecords, entries, lpFindCb, cbFindInListpack, hindex1, hindex2, hindex3,
        integerValue, hnot]
    have hlen : (tripleRecords.flat ((f, v, t) :: ts)).length =
        3 + (tripleRecords.flat ts).length := by
      rw [flat_cons, length_append]
      rfl
    rw [hstep, hrun, hlen, Nat.add_assoc]

/-- A list sorted by expiry time splits at the place of a new time. -/
lemma exists_split_at_ttl (hts : ts.Pairwise fun a b => TtlLe a.2.2 b.2.2) (t : ℕ) :
    ∃ front back, ts = front ++ back ∧ (∀ x ∈ front, x.2.2 ≠ 0 ∧ x.2.2 < t) ∧
      ∀ x ∈ back, x.2.2 = 0 ∨ t ≤ x.2.2 := by
  induction ts with
  | nil => exact ⟨[], [], rfl, by simp, by simp⟩
  | cons y ts ih =>
    rw [pairwise_cons] at hts
    by_cases hy : y.2.2 = 0 ∨ t ≤ y.2.2
    · refine ⟨[], y :: ts, rfl, by simp, fun x hx => ?_⟩
      rcases mem_cons.mp hx with rfl | hx
      · exact hy
      · rcases hts.1 x hx with h | ⟨h1, h2⟩
        · exact .inl h
        · rcases hy with hy | hy
          · exact absurd hy h1
          · exact .inr (hy.trans h2)
    · obtain ⟨front, back, rfl, hfront, hback⟩ := ih hts.2
      refine ⟨y :: front, back, rfl, fun x hx => ?_, hback⟩
      rcases mem_cons.mp hx with rfl | hx
      · rw [not_or, not_le] at hy
        exact hy
      · exact hfront x hx

/-- `listpackExAddInternal` inserts a new field at a place where the times stay sorted. -/
lemma listpackExAddInternal_spec (hts : SortedTriples ts) (hf : ∀ r ∈ ts, r.1 ≠ f) (v : Bytes)
    {t : ℕ} (hmax : t ≤ ebExpireTimeMax) :
    ∃ front back, ts = front ++ back ∧ SortedTriples (front ++ (f, v, t) :: back) ∧
      listpackExAddInternal (tripleRecords.flat ts) f v t =
        some (tripleRecords.flat (front ++ (f, v, t) :: back)) := by
  have hle {front back : List (Bytes × Bytes × ℕ)} (heq : ts = front ++ back) :
      ∀ r ∈ front ++ (f, v, t) :: back, r.2.2 ≤ ebExpireTimeMax := by
    intro r hr
    rcases mem_append.mp hr with hr | hr
    · exact hts.le_max r (heq ▸ mem_append_left back hr)
    · rcases mem_cons.mp hr with rfl | hr
      · exact hmax
      · exact hts.le_max r (heq ▸ mem_append_right front hr)
  by_cases ht : t = 0
  · subst ht
    refine ⟨ts, [], by simp, ⟨nodup_insert (by simpa using hts.nodup) (by simpa using hf), ?_,
      hle (append_nil ts).symm⟩, ?_⟩
    · rw [pairwise_append]
      exact ⟨hts.sorted, pairwise_singleton _ _, fun a _ b hb => by
        rw [mem_singleton] at hb
        rw [hb]
        exact TtlLe.zero _⟩
    · rw [flat_triples_append]
      simp [listpackExAddInternal, lpBatchAppend]
  · obtain ⟨front, back, rfl, hfront, hback⟩ := exists_split_at_ttl hts.sorted t
    refine ⟨front, back, rfl, ⟨nodup_insert hts.nodup hf, ?_, hle rfl⟩, ?_⟩
    · have hs := pairwise_append.mp hts.sorted
      refine pairwise_append.mpr ⟨hs.1, pairwise_cons.mpr ⟨fun b hb => ?_, hs.2.1⟩,
        fun a ha b hb => ?_⟩
      · rcases hback b hb with h | h
        · exact .inl h
        · exact .inr ⟨ht, h⟩
      · rcases mem_cons.mp hb with rfl | hb
        · exact .inr ⟨(hfront a ha).1, (hfront a ha).2.le⟩
        · exact hs.2.2 a ha b hb
    · rw [listpackExAddInternal, if_neg ht]
      obtain ⟨r', hexp, hp, hindex, hrun⟩ := lpFindCb_front (r := ⟨t, none, 0, 0, 0⟩) hfront rfl
        (tripleRecords.flat back) 0
      rw [flat_append, hrun, Nat.zero_add]
      cases back with
      | nil =>
        rw [flat_nil, lpFindCb]
        simp only [Option.bind_eq_bind, Option.bind_some, hp, lpBatchAppend, append_nil]
        rw [flat_triples_append]
        rfl
      | cons y back =>
        obtain ⟨f', v', t'⟩ := y
        have hy : t' = 0 ∨ r'.expireTime ≤ t' := by
          rw [hexp]
          exact hback (f', v', t') (by simp)
        have hindex1 : (r'.index + 1) % 3 = 1 := by omega
        have hindex2 : (r'.index + 1 + 1) % 3 = 2 := by omega
        have hindex3 : (r'.index + 1 + 1 + 1) % 3 = 0 := by omega
        have hfound : lpFindCb cbFindInListpack 0 (tripleRecords.flat ((f', v', t') :: back))
            (tripleRecords.flat front).length 0 (some r') =
            (some { r' with
              index := r'.index + 1 + 1 + 1
              fptr := (tripleRecords.flat front).length
              p := some (tripleRecords.flat front).length },
              some ((tripleRecords.flat front).length + 1 + 1)) := by
          simp [tripleRecords, entries, lpFindCb, cbFindInListpack, hindex1, hindex2,
            hindex3, integerValue, hy]
        rw [hfound]
        simp only [Option.bind_eq_bind, Option.bind_some]
        rw [lpBatchInsert_length_append, flat_triples_append, append_assoc]
        rfl

lemma SortedTriples.remove {x : Bytes × Bytes × ℕ}
    (h : SortedTriples (front ++ x :: back)) :
    SortedTriples (front ++ back) :=
  have hsub := List.Sublist.append_left (sublist_cons_self x back) front
  ⟨nodup_remove h.nodup, h.sorted.sublist hsub, fun r hr => h.le_max r (hsub.subset hr)⟩

variable {ts₀ : List (Bytes × Bytes × ℕ)} {v : Bytes} {i t₀ : ℕ}

lemma listpackExUpdateExpiry_spec (hts : SortedTriples ts₀)
    (heq : ts₀ = front ++ (f, v, t₀) :: back) (hi : i = (tripleRecords.flat front).length) {t : ℕ}
    (hmax : t ≤ ebExpireTimeMax) :
    ∃ ts, SortedTriples ts ∧
      listpackExUpdateExpiry (tripleRecords.flat ts₀) f i (i + 1) t = some (tripleRecords.flat ts) ∧
      triplesMap ts = update (triplesMap ts₀) f (some (v, ttlOfInt t)) := by
  subst heq hi
  have hne := ne_key_of_nodup hts.nodup
  obtain ⟨front', back', heq, hsorted, hadd⟩ := listpackExAddInternal_spec hts.remove hne v hmax
  refine ⟨_, hsorted, ?_, ?_⟩
  · have hdelete : lpDeleteRangeWithEntry (tripleRecords.flat (front ++ (f, v, t₀) :: back))
        (tripleRecords.flat front).length 3 = tripleRecords.flat (front ++ back) := by
      have h := lpDeleteRangeWithEntry_length_append (tripleRecords.flat front)
        (tripleRecords.flat back) [.str f, .str v, .int t₀]
      rw [flat_append _ front back, ← h, flat_triples_append]
      simp
    have hvalue : (tripleRecords.flat (front ++ (f, v, t₀) :: back))[
        (tripleRecords.flat front).length + 1]? = some (.str v) := by
      rw [flat_triples_append]
      simp
    rw [listpackExUpdateExpiry, hvalue, hdelete]
    exact hadd
  · have hnew : triplesMap (front' ++ (f, v, t) :: back') =
        update (triplesMap (front' ++ back')) f (some (v, ttlOfInt t)) :=
      assocMap_append_cons (heq ▸ hne)
    have hold : triplesMap (front ++ back) =
        update (triplesMap (front ++ (f, v, t₀) :: back)) f none :=
      assocMap_append hne
    rw [hnew, ← heq, hold, update_idem]

/-! ### Conversion -/

lemma appendNoTtl_flat (ps : List (Bytes × Bytes)) :
    appendNoTtl (pairRecords.flat ps) =
      some (tripleRecords.flat (ps.map fun r => (r.1, r.2, 0))) := by
  induction ps with
  | nil => rfl
  | cons r ps ih =>
    simp only [flat_cons, entries, pairRecords, cons_append,
      nil_append] at ih ⊢
    rw [appendNoTtl, ih]
    rfl

lemma addPairs_flat (hps : (ps.map Prod.fst).Nodup) {h : HashTable} (hw : h.WF)
    (hdisj : ∀ r ∈ ps, h.map r.1 = none) :
    ∃ h', addPairs (pairRecords.flat ps) h = some h' ∧ h'.WF ∧
      ∀ f, h'.map f = (pairsMap ps f).or (h.map f) := by
  induction ps generalizing h with
  | nil => exact ⟨h, rfl, hw, fun f => by simp [pairsMap]⟩
  | cons r ps ih =>
    obtain ⟨f, v⟩ := r
    rw [map_cons, nodup_cons] at hps
    have hf : ∀ r ∈ ps, r.1 ≠ f := fun r hr heq => hps.1 (mem_map.mpr ⟨r, hr, heq⟩)
    obtain ⟨h1, hadd, hw1, -, -, hmap1⟩ := hw.add_spec (hdisj (f, v) (by simp)) v false
    obtain ⟨h', hrest, hw', hmap'⟩ := ih hps.2 hw1 fun r hr => by
      rw [hmap1, update_of_ne (hf r hr)]
      exact hdisj r (mem_cons_of_mem _ hr)
    refine ⟨h', ?_, hw', fun g => ?_⟩
    · simp only [flat_cons, entries, pairRecords, cons_append] at hrest ⊢
      rw [addPairs]
      simp only [text, hadd]
      exact hrest
    · rw [hmap', hmap1]
      exact or_update_assocMap hf _ g

lemma addTriples_flat (hts : (ts.map Prod.fst).Nodup) (hle : ∀ r ∈ ts, r.2.2 ≤ ebExpireTimeMax)
    {h : HashTable} (hw : h.WF) (hhfe : h.hfe.isSome) (hdisj : ∀ r ∈ ts, h.map r.1 = none) :
    ∃ h', addTriples (tripleRecords.flat ts) h = some h' ∧ h'.WF ∧ h'.hfe.isSome ∧
      ∀ f, h'.map f = (triplesMap ts f).or (h.map f) := by
  induction ts generalizing h with
  | nil => exact ⟨h, rfl, hw, hhfe, fun f => by simp [triplesMap]⟩
  | cons r ts ih =>
    obtain ⟨f, v, t⟩ := r
    rw [map_cons, nodup_cons] at hts
    have hf : ∀ r ∈ ts, r.1 ≠ f := fun r hr heq => hts.1 (mem_map.mpr ⟨r, hr, heq⟩)
    obtain ⟨h1, hadd, hw1, hp1, hhfe1, hmap1⟩ := hw.add_spec (hdisj (f, v, t) (by simp)) v (t != 0)
    obtain ⟨h2, hlink, hw2, hhfe2, hmap2⟩ : ∃ h2, (if t = 0 then some h1 else h1.ebAdd h.brk t) =
        some h2 ∧ h2.WF ∧ h2.hfe.isSome ∧
        h2.map = update h.map f (some (v, ttlOfInt t)) := by
      by_cases ht : t = 0
      · exact ⟨h1, if_pos ht, hw1, by rw [hhfe1, hhfe], by rw [hmap1, ttlOfInt, if_pos ht]⟩
      · obtain ⟨h2, hadd2, hw2, hhfe2, hmap2⟩ := hw1.ebAdd_spec hp1 (by simpa using ht)
          (by simp [HashEntry.expiry]) (by rw [hhfe1, hhfe]) (hle (f, v, t) (by simp))
        refine ⟨h2, by rw [if_neg ht, hadd2], hw2, hhfe2, ?_⟩
        rw [hmap2, hmap1, ttlOfInt, if_neg ht, update_idem]
    obtain ⟨h', hrest, hw', hhfe', hmap'⟩ := ih hts.2
        (fun r hr => hle r (mem_cons_of_mem _ hr)) hw2 hhfe2 fun r hr => by
      rw [hmap2, update_of_ne (hf r hr)]
      exact hdisj r (mem_cons_of_mem _ hr)
    refine ⟨h', ?_, hw', hhfe', fun g => ?_⟩
    · simp only [flat_cons, entries, tripleRecords, cons_append] at hrest ⊢
      rw [addTriples]
      simp only [text, integerValue, hadd, bind_eq_bind, bind_some]
      by_cases ht : t = 0
      · rw [if_pos ht] at hlink ⊢
        cases hlink
        exact hrest
      · rw [if_neg ht] at hlink ⊢
        rw [hlink]
        exact hrest
    · rw [hmap', hmap2]
      exact or_update_assocMap (r := (f, v, t)) hf _ g

/-- The encodings an object can be converted to. -/
def HashObj.ConvertsTo : HashObj → HashEncoding → Prop
  | .listpack _, _ => True
  | .listpackEx _, enc => enc ≠ .listpack
  | .ht _, _ => False

/-- `hashTypeConvert` keeps the map. -/
lemma HashObj.Holds.convert (h : o.Holds m) {enc : HashEncoding} (henc : o.ConvertsTo enc) :
    ∃ o', hashTypeConvert o enc = some o' ∧ o'.Holds m ∧
      (o.SupportsExpiry → o'.SupportsExpiry) := by
  have hcreate := HashTable.create_wf
  cases o with
  | listpack lp =>
    obtain ⟨ps, rfl, hps, rfl⟩ := h
    cases enc with
    | listpack => exact ⟨_, rfl, ⟨ps, rfl, hps, rfl⟩, id⟩
    | listpackEx =>
      refine ⟨.listpackEx (tripleRecords.flat (ps.map fun r => (r.1, r.2, 0))),
        by rw [hashTypeConvert, appendNoTtl_flat]; rfl, ⟨_, rfl, ⟨?_, ?_, ?_⟩, ?_⟩, False.elim⟩
      · rwa [map_map]
      · rw [pairwise_map]
        exact pairwise_of_forall fun _ _ => TtlLe.zero _
      · rw [List.forall_mem_map]
        exact fun _ _ => Nat.zero_le _
      · funext f
        simp only [pairsMap, triplesMap, assocMap, find?_map, Option.map_map]
        rfl
    | ht =>
      obtain ⟨h', hadd, hw', hmap'⟩ := addPairs_flat hps (hcreate false).1 fun r _ => by
        rw [(hcreate false).2]
      refine ⟨.ht h', by rw [hashTypeConvert, hadd]; rfl, ⟨hw', ?_⟩, False.elim⟩
      funext f
      rw [hmap', (hcreate false).2, Option.or_none]
  | listpackEx lp =>
    obtain ⟨ts, rfl, hts, rfl⟩ := h
    cases enc with
    | listpack => exact absurd rfl henc
    | listpackEx => exact ⟨_, rfl, ⟨ts, rfl, hts, rfl⟩, id⟩
    | ht =>
      obtain ⟨h', hadd, hw', hhfe', hmap'⟩ :=
        addTriples_flat hts.nodup hts.le_max (hcreate true).1 rfl fun r _ =>
          by rw [(hcreate true).2]
      refine ⟨.ht h', by rw [hashTypeConvert, hadd]; rfl, ⟨hw', ?_⟩, fun _ => hhfe'⟩
      funext f
      rw [hmap', (hcreate true).2, Option.or_none]
  | ht _ => exact absurd henc id

/-! ### Updates -/

/-- The branch of `hashTypeSet` for pairs. -/
lemma setInPairs_spec (hps : (ps.map Prod.fst).Nodup) (f v : Bytes) (keepTtl : Bool) :
    ∃ ps', setInPairs (pairRecords.flat ps) f v =
        some (pairRecords.flat ps', (pairsMap ps f).isSome) ∧ (ps'.map Prod.fst).Nodup ∧
      pairsMap ps' = ttlSet (pairsMap ps) f v keepTtl := by
  rcases pairsMap_cases hps f with ⟨hf, hne, hfind⟩ | ⟨front, v0, back, rfl, hne, hf, hfind⟩
  · refine ⟨ps ++ [(f, v)], ?_, nodup_insert (by simpa using hps) (by simpa using hne), ?_⟩
    · rw [setInPairs, hfind, hf, flat_pairs_append]
      rfl
    · have h : pairsMap (ps ++ [(f, v)]) = update (pairsMap (ps ++ [])) f (some (v, none)) :=
        assocMap_append_cons (by simpa using hne)
      rw [h, append_nil, ttlSet, hf]
      cases keepTtl <;> rfl
  · refine ⟨front ++ (f, v) :: back, ?_, by simpa using hps, ?_⟩
    · rw [flat_pairs_append] at hfind
      rw [hf, flat_pairs_append, flat_pairs_append]
      simp only [setInPairs, hfind, lpNext_length_append, lpReplace_length_append,
        bind_eq_bind, bind_some]
      rfl
    · have hnew : pairsMap (front ++ (f, v) :: back) =
          update (pairsMap (front ++ back)) f (some (v, none)) := assocMap_append_cons hne
      have hold : pairsMap (front ++ back) =
          update (pairsMap (front ++ (f, v0) :: back)) f none :=
        assocMap_append hne
      rw [hnew, hold, update_idem, ttlSet, hf]
      cases keepTtl <;> rfl

lemma setInTriples_spec (hts : SortedTriples ts) (f v : Bytes) (keepTtl : Bool) :
    ∃ ts', setInTriples (tripleRecords.flat ts) f v keepTtl =
        some (tripleRecords.flat ts', (triplesMap ts f).isSome) ∧ SortedTriples ts' ∧
      triplesMap ts' = ttlSet (triplesMap ts) f v keepTtl := by
  rcases triplesMap_cases hts.nodup f with ⟨hf, hne, hfind⟩ |
    ⟨front, v0, t, back, rfl, hne, hf, hfind⟩
  · obtain ⟨front, back, rfl, hsorted, hadd⟩ := listpackExAddInternal_spec hts hne v (Nat.zero_le _)
    refine ⟨_, ?_, hsorted, ?_⟩
    · rw [setInTriples, hfind, hadd, hf]
      rfl
    · have h : triplesMap (front ++ (f, v, 0) :: back) =
          update (triplesMap (front ++ back)) f (some (v, ttlOfInt 0)) :=
        assocMap_append_cons hne
      rw [h, ttlSet, hf]
      cases keepTtl <;> rfl
  · -- The value is replaced in place, then the expiry time may go.
    have hts1 : SortedTriples (front ++ (f, v, t) :: back) := by
      refine ⟨by simpa using hts.nodup, ?_, ?_⟩
      swap
      · have h := hts.le_max
        rw [List.forall_mem_append, List.forall_mem_cons] at h ⊢
        exact h
      have h := hts.sorted
      simp only [pairwise_append, pairwise_cons, mem_cons] at h ⊢
      refine ⟨h.1, h.2.1, fun a ha b hb => ?_⟩
      rcases hb with rfl | hb
      · exact h.2.2 a ha (f, v0, t) (.inl rfl)
      · exact h.2.2 a ha b (.inr hb)
    have hmap1 : triplesMap (front ++ (f, v, t) :: back) =
        update (triplesMap (front ++ (f, v0, t) :: back)) f (some (v, ttlOfInt t)) := by
      have hnew : triplesMap (front ++ (f, v, t) :: back) =
          update (triplesMap (front ++ back)) f (some (v, ttlOfInt t)) :=
        assocMap_append_cons hne
      have hold : triplesMap (front ++ back) =
          update (triplesMap (front ++ (f, v0, t) :: back)) f none :=
        assocMap_append hne
      rw [hnew, hold, update_idem]
    have hunfold : setInTriples (tripleRecords.flat (front ++ (f, v0, t) :: back)) f v keepTtl =
        if keepTtl || t == 0 then some (tripleRecords.flat (front ++ (f, v, t) :: back), true)
        else (listpackExUpdateExpiry (tripleRecords.flat (front ++ (f, v, t) :: back)) f
          (tripleRecords.flat front).length ((tripleRecords.flat front).length + 1) 0).bind
            fun lp => some (lp, true) := by
      rw [flat_triples_append] at hfind
      rw [flat_triples_append, flat_triples_append]
      simp only [setInTriples, hfind, lpNext_length_append, lpReplace_length_append,
        lpNext_length_append_two, Option.bind_eq_bind, Option.bind_some]
      simp [integerValue]
    rw [hunfold, hf]
    by_cases hkeep : (keepTtl || t == 0) = true
    · rw [if_pos hkeep]
      refine ⟨_, rfl, hts1, ?_⟩
      rw [hmap1, ttlSet, hf]
      simp only [Bool.or_eq_true, beq_iff_eq] at hkeep
      rcases hkeep with rfl | rfl
      · rfl
      · cases keepTtl <;> rfl
    · rw [if_neg hkeep]
      obtain ⟨ts', hsorted, hupdate, hmap⟩ :=
        listpackExUpdateExpiry_spec hts1 rfl rfl (Nat.zero_le _)
      refine ⟨ts', by rw [hupdate]; rfl, hsorted, ?_⟩
      rw [hmap, hmap1, update_idem, ttlSet]
      simp only [Bool.or_eq_true, not_or, Bool.not_eq_true] at hkeep
      rw [hkeep.1]
      rfl

lemma HashObj.Holds.convertIf (h : o.Holds m) (hnot : o.isHT = false) (c : Prop) [Decidable c] :
    ∃ o', (if c then hashTypeConvert o .ht else some o) = some o' ∧ o'.Holds m ∧
      (o.SupportsExpiry → o'.SupportsExpiry) := by
  have henc : o.ConvertsTo .ht := by
    cases o with
    | listpack _ => exact trivial
    | listpackEx _ => exact HashEncoding.noConfusion
    | ht _ => cases hnot
  by_cases hc : c
  · obtain ⟨o', hconv, hholds, hsupp⟩ := h.convert henc
    exact ⟨o', by rw [if_pos hc, hconv], hholds, hsupp⟩
  · exact ⟨o, if_neg hc, h, id⟩

lemma HashObj.Holds.set (h : o.Holds m) (cfg : HashConfig) (f v : Bytes) (keepTtl : Bool) :
    ∃ o', hashTypeSet cfg o f v keepTtl = some (o', (m f).isSome) ∧
      o'.Holds (ttlSet m f v keepTtl) ∧ (o.SupportsExpiry → o'.SupportsExpiry) := by
  -- First the object may be converted because of a long item.
  obtain ⟨o1, hconv, h1, hsupp1⟩ : ∃ o1, convertForItem cfg o f v = some o1 ∧ o1.Holds m ∧
      (o.SupportsExpiry → o1.SupportsExpiry) := by
    cases hht : o.isHT with
    | true => exact ⟨o, by rw [convertForItem, if_pos hht], h, id⟩
    | false =>
      rw [convertForItem, if_neg (by simp [hht])]
      exact h.convertIf hht _
  -- At the end it may be converted because of its length.
  have hlong := fun (o : HashObj) (h : o.Holds (ttlSet m f v keepTtl)) hnot =>
    h.convertIf hnot (hashTypeLength o > cfg.maxListpackEntries)
  cases o1 with
  | listpack lp =>
    obtain ⟨ps, rfl, hps, rfl⟩ := h1
    obtain ⟨ps', hset, hps', hmap'⟩ := setInPairs_spec hps f v keepTtl
    obtain ⟨o', hlen, hholds', hsupp'⟩ :=
      hlong (.listpack (pairRecords.flat ps')) ⟨ps', rfl, hps', hmap'.symm⟩ rfl
    refine ⟨o', ?_, hholds', fun hs => absurd (hsupp1 hs) id⟩
    simp only [hashTypeSet, hconv, hset, convertForLength, hlen, Option.bind_eq_bind,
      Option.bind_some, Option.pure_def]
  | listpackEx lp =>
    obtain ⟨ts, rfl, hts, rfl⟩ := h1
    obtain ⟨ts', hset, hts', hmap'⟩ := setInTriples_spec hts f v keepTtl
    obtain ⟨o', hlen, hholds', hsupp'⟩ :=
      hlong (.listpackEx (tripleRecords.flat ts')) ⟨ts', rfl, hts', hmap'.symm⟩ rfl
    refine ⟨o', ?_, hholds', fun _ => hsupp' trivial⟩
    simp only [hashTypeSet, hconv, hset, convertForLength, hlen, Option.bind_eq_bind,
      Option.bind_some, Option.pure_def]
  | ht t =>
    obtain ⟨hw, rfl⟩ := h1
    obtain ⟨t', hset, hw', hhfe', hmap'⟩ := hw.setInTable_spec cfg f v keepTtl
    refine ⟨.ht t', ?_, ⟨hw', hmap'.symm⟩, fun hs => ?_⟩
    · simp only [hashTypeSet, hconv, hset, Option.bind_eq_bind, Option.bind_some, Option.pure_def]
    · exact hhfe'.trans (hsupp1 hs)

lemma HashObj.Holds.tryConversion (h : o.Holds m) (cfg : HashConfig) (args : List Bytes) :
    ∃ o', hashTypeTryConversion cfg o args = some o' ∧ o'.Holds m ∧
      (o.SupportsExpiry → o'.SupportsExpiry) := by
  unfold hashTypeTryConversion
  cases o with
  | listpack lp | listpackEx lp =>
    simp only [HashObj.lp?, ← ite_or]
    exact h.convertIf rfl _
  | ht t => exact ⟨.ht t, rfl, h, id⟩

lemma HashObj.Holds.delete (h : o.Holds m) (f : Bytes) :
    ∃ o', hashTypeDelete o f = some (o', (m f).isSome) ∧ o'.Holds (update m f none) ∧
      (o.SupportsExpiry → o'.SupportsExpiry) ∧ o'.isHT = o.isHT := by
  have hsame (hf : m f = none) : o.Holds (update m f none) := by
    rwa [update_eq_self_iff.mpr hf.symm]
  cases o with
  | listpack lp =>
    obtain ⟨ps, rfl, hps, rfl⟩ := h
    rcases pairsMap_cases hps f with ⟨hf, -, hfind⟩ | ⟨front, v, back, rfl, hne, hf, hfind⟩
    · exact ⟨_, by rw [hashTypeDelete, hfind, hf]; rfl, hsame hf, id, rfl⟩
    · refine ⟨.listpack (pairRecords.flat (front ++ back)), ?_,
        ⟨_, rfl, nodup_remove hps, ?_⟩, id, rfl⟩
      · have hdelete := lpDeleteRangeWithEntry_length_append (pairRecords.flat front)
          (pairRecords.flat back) [.str f, .str v]
        rw [← flat_append] at hdelete
        rw [hashTypeDelete, hfind, hf, ← hdelete, flat_pairs_append]
        simp
      · exact (assocMap_append hne).symm
  | listpackEx lp =>
    obtain ⟨ts, rfl, hts, rfl⟩ := h
    rcases triplesMap_cases hts.nodup f with ⟨hf, -, hfind⟩ |
      ⟨front, v, t, back, rfl, hne, hf, hfind⟩
    · exact ⟨_, by rw [hashTypeDelete, hfind, hf]; rfl, hsame hf, id, rfl⟩
    · refine ⟨.listpackEx (tripleRecords.flat (front ++ back)), ?_,
        ⟨_, rfl, hts.remove, ?_⟩, id, rfl⟩
      · have hdelete := lpDeleteRangeWithEntry_length_append (tripleRecords.flat front)
          (tripleRecords.flat back) [.str f, .str v, .int t]
        rw [← flat_append] at hdelete
        rw [hashTypeDelete, hfind, hf, ← hdelete, flat_triples_append]
        simp
      · exact (assocMap_append hne).symm
  | ht t =>
    obtain ⟨hw, rfl⟩ := h
    cases hf : t.map f with
    | none =>
      exact ⟨.ht t, by simp [hashTypeDelete, hw.delete_of_map hf], hsame hf, id, rfl⟩
    | some x =>
      have hne : t.find f ≠ none := fun hfind => by
        rw [hw.map_eq_none_iff.mpr (hw.find_eq_none_iff.mp hfind)] at hf
        cases hf
      obtain ⟨p, hp⟩ := ne_none_iff_exists'.mp hne
      obtain ⟨e, he, rfl⟩ := hw.find_eq_some_iff.mp hp
      obtain ⟨t', hdelete, hw', hhfe', hmap'⟩ := hw.delete_spec he
      exact ⟨.ht t',
        by simp [hashTypeDelete, hdelete], ⟨hw', hmap'.symm⟩, fun hs => hhfe'.trans hs, rfl⟩

/-! ### Expiry times -/

lemma HashObj.Holds.setExInit (h : o.Holds m) :
    ∃ o', hashTypeSetExInit o = some o' ∧ o'.Holds m ∧ o'.SupportsExpiry ∧ o'.isHT = o.isHT := by
  cases o with
  | listpack lp =>
    obtain ⟨ps, rfl, hps, rfl⟩ := id h
    have henc : (HashObj.listpack (pairRecords.flat ps)).ConvertsTo .listpackEx := trivial
    obtain ⟨o', hconv, hholds, -⟩ := h.convert henc
    rw [hashTypeConvert, appendNoTtl_flat] at hconv
    cases hconv
    exact ⟨_, by rw [hashTypeSetExInit, hashTypeConvert, appendNoTtl_flat]; rfl, hholds,
      trivial, rfl⟩
  | listpackEx lp => exact ⟨.listpackEx lp, rfl, h, trivial, rfl⟩
  | ht t =>
    obtain ⟨hw, rfl⟩ := h
    refine ⟨.ht { t with hfe := some (t.hfe.getD []) }, rfl, ⟨?_, rfl⟩, rfl, rfl⟩
    exact ⟨hw.mem_dict, hw.nodup, hw.fresh, hw.field_inj, hw.hfe_nodup, hw.mem_hfe⟩

lemma hashTypeSetExpiryListpack_spec (hts : SortedTriples ts₀)
    (heq : ts₀ = front ++ (f, v, t₀) :: back) (hi : i = (tripleRecords.flat front).length)
    (ctx : HashCtx) (cond : ExpireSetCond) {t : Option ℕ}
    (ht : ctx.isMaster = true ∨ t ≠ some 0) (hmax : ∀ u ∈ t, u ≤ ebExpireTimeMax) :
    ∃ ts, hashTypeSetExpiryListpack ctx (tripleRecords.flat ts₀) cond f i (i + 1) (i + 2) t =
        some (tripleRecords.flat ts, (ttlSetEx false ctx (triplesMap ts₀) cond f t).2) ∧
      SortedTriples ts ∧ triplesMap ts = (ttlSetEx false ctx (triplesMap ts₀) cond f t).1 := by
  have hmap : triplesMap ts₀ f = some (v, ttlOfInt t₀) := by
    have h : triplesMap ts₀ = update (triplesMap (front ++ back)) f (some (v, ttlOfInt t₀)) :=
      heq ▸ assocMap_append_cons (ne_key_of_nodup (heq ▸ hts.nodup))
    rw [h, update_self]
  have htime : (tripleRecords.flat ts₀)[i + 2]? = some (.int t₀) := by
    rw [heq, hi, flat_triples_append]
    simp
  cases t with
  | none =>
    by_cases ht₀ : t₀ = 0
    · refine ⟨ts₀, ?_, hts, by simp [ttlSetEx, hmap, ttlOfInt, ht₀]⟩
      simp [hashTypeSetExpiryListpack, htime, integerValue, ttlSetEx, hmap, ttlOfInt, ht₀]
    · obtain ⟨ts, hsorted, hupdate, hnew⟩ := listpackExUpdateExpiry_spec hts heq hi (Nat.zero_le _)
      refine ⟨ts, ?_, hsorted, by simp [hnew, ttlSetEx, hmap, ttlOfInt, ht₀]⟩
      simp [hashTypeSetExpiryListpack, htime, integerValue, ttlSetEx, hmap, ttlOfInt, ht₀,
        hupdate]
  | some t =>
    have hunfold : hashTypeSetExpiryListpack ctx (tripleRecords.flat ts₀) cond f i (i + 1) (i + 2)
        (some t) =
        if !cond.allows (ttlOfInt t₀) t then some (tripleRecords.flat ts₀, .noConditionMet)
        else if ctx.alreadyExpired t then
          (hashTypeDelete (.listpackEx (tripleRecords.flat ts₀)) f).bind
            fun r => r.1.lp?.bind fun lp => some (lp, .deleted)
        else (listpackExUpdateExpiry (tripleRecords.flat ts₀) f i (i + 1) t).bind
            fun lp => some (lp, .ok) := by
      simp only [hashTypeSetExpiryListpack, htime, integerValue]
      rfl
    rw [hunfold, ttlSetEx_of_some hmap, Bool.false_and, if_neg Bool.false_ne_true]
    by_cases hallow : (!cond.allows (ttlOfInt t₀) t) = true
    · rw [if_pos hallow, if_pos hallow]
      exact ⟨_, rfl, hts, rfl⟩
    rw [if_neg hallow, if_neg hallow]
    by_cases hpast : ctx.alreadyExpired t = true
    · rw [if_pos hpast, if_pos hpast]
      have hholds : (HashObj.listpackEx (tripleRecords.flat ts₀)).Holds _ := ⟨_, rfl, hts, rfl⟩
      obtain ⟨o', hdelete, hholds', hsupp, hht⟩ := hholds.delete f
      cases o' with
      | listpack _ => exact absurd (hsupp trivial) id
      | listpackEx lp =>
        obtain ⟨ts, rfl, hsorted, hnew⟩ := hholds'
        exact ⟨ts, by rw [hdelete]; rfl, hsorted, hnew.symm⟩
      | ht _ => cases hht
    · rw [if_neg hpast, if_neg hpast]
      have ht0 : t ≠ 0 := by
        rintro rfl
        rcases ht with ht | ht
        · exact hpast (by simp [HashCtx.alreadyExpired, ht])
        · exact ht rfl
      obtain ⟨ts, hsorted, hupdate, hnew⟩ := listpackExUpdateExpiry_spec hts heq hi (hmax t rfl)
      refine ⟨ts, by rw [hupdate]; rfl, hsorted, ?_⟩
      rw [hnew, ttlOfInt, if_neg ht0]

lemma HashObj.Holds.setEx (h : o.Holds m) (hsupp : o.SupportsExpiry) (cfg : HashConfig)
    (ctx : HashCtx) (cond : ExpireSetCond) (f : Bytes) {t : Option ℕ}
    (ht : ctx.isMaster = true ∨ t ≠ some 0) (hmax : ∀ u ∈ t, u ≤ ebExpireTimeMax) :
    ∃ o', hashTypeSetEx cfg ctx o cond f t = some (o', (ttlSetEx o.isHT ctx m cond f t).2) ∧
      o'.Holds (ttlSetEx o.isHT ctx m cond f t).1 ∧ o'.SupportsExpiry ∧ o'.isHT = o.isHT := by
  cases o with
  | listpack lp => exact absurd hsupp id
  | listpackEx lp =>
    obtain ⟨ts, rfl, hts, rfl⟩ := h
    rcases triplesMap_cases hts.nodup f with ⟨hf, -, hfind⟩ | ⟨front, v, t₀, back, rfl, -, -, hfind⟩
    · refine ⟨.listpackEx (tripleRecords.flat ts), ?_, ?_, trivial, rfl⟩
      · simp only [hashTypeSetEx, hfind, ttlSetEx, hf]
      · simp only [ttlSetEx, hf]
        exact ⟨ts, rfl, hts, rfl⟩
    · obtain ⟨ts, hset, hsorted, hnew⟩ :=
        hashTypeSetExpiryListpack_spec hts rfl rfl ctx cond ht hmax
      refine ⟨.listpackEx (tripleRecords.flat ts), ?_, ⟨ts, rfl, hsorted, hnew.symm⟩, trivial, rfl⟩
      have hnext1 : lpNext (tripleRecords.flat (front ++ (f, v, t₀) :: back))
          (tripleRecords.flat front).length = some ((tripleRecords.flat front).length + 1) := by
        rw [flat_triples_append, lpNext_length_append]
      have hnext2 : lpNext (tripleRecords.flat (front ++ (f, v, t₀) :: back))
          ((tripleRecords.flat front).length + 1) =
            some ((tripleRecords.flat front).length + 2) := by
        rw [flat_triples_append, lpNext_length_append_two]
      simp only [hashTypeSetEx, hfind, hnext1, hnext2, hset, Option.bind_eq_bind, Option.bind_some,
        Option.pure_def, isHT]
  | ht tab =>
    obtain ⟨hw, rfl⟩ := h
    obtain ⟨tab', hset, hw', hhfe', hmap'⟩ := hw.setExpiryHT_spec hsupp cfg ctx cond f hmax
    exact ⟨.ht tab', by simp [hashTypeSetEx, hset, isHT], ⟨hw', hmap'.symm⟩, hhfe', rfl⟩

end RainCall
