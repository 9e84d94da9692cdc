import RainCall.Hash.Commands
import RainCall.Hash.Spec

/-!
# What is known about the hash at a key

The commands reach the hash through the interface `HashApi`. Here is its specification over plain
maps: `hashSpec` says what each operation does to the map of fields, values and expiry times. Two
things are left open, because they depend on the encoding and nothing else: what `encoding` returns,
and whether `setEx` deletes a field whose expiry time is set to the same time in the past.

`hashApiStep_refines` shows that the model of the hash object meets the specification under every
configuration, so a statement about all runs of a command that the specification allows holds for
its execution (`callHashCommand_of_wp`).
-/

namespace RainCall

open Function Option

/-- The map without fields. -/
def TtlMap.empty : TtlMap := fun _ => none

/-- The hash at a key as a map, and the fields whose deletion has been propagated. -/
structure KeySpec where
  map : Option TtlMap
  /-- The object has been prepared for expiry times. -/
  supportsExpiry : Prop
  hdels : List Bytes

/-- The specification of the operations. -/
def hashSpec (ctx : HashCtx) : OpSpec HashApi HashApi.Res KeySpec where
  pre t op := match op with
    | .lookupKey => True
    | .dbAdd => t.map = none
    | .setEx _ _ expireAt =>
      t.map.isSome ∧ t.supportsExpiry ∧ (ctx.isMaster = true ∨ expireAt ≠ some 0) ∧
        ∀ u ∈ expireAt, u ≤ ebExpireTimeMax
    | .persist f => ∃ m v e, t.map = some m ∧ m f = some (v, some e)
    | .propagateHashFieldDeletion _ => True
    | .serverAssert b => b = true
    | _ => t.map.isSome
  post t op t' r := match op, r with
    | .lookupKey, r => t' = t ∧ r = t.map.isSome
    | .dbAdd, _ => t' = { t with map := some .empty, supportsExpiry := False }
    | .dbDelete, _ => t' = { t with map := none }
    | .isEmpty, r => t' = t ∧ (r = true ↔ t.map = some .empty)
    | .encoding, r => t' = t ∧ (r = .listpack → ∀ m f v e, t.map = some m → m f ≠ some (v, some e))
    | .tryConversion _, _ => t' = t
    | .get f, r => t' = t ∧ ∀ m, t.map = some m → r = m f
    | .set f v keepTtl, r =>
      ∀ m, t.map = some m → t' = { t with map := some (ttlSet m f v keepTtl) } ∧ r = (m f).isSome
    | .delete f, r =>
      ∀ m, t.map = some m → t' = { t with map := some (Function.update m f none) } ∧
        r = (m f).isSome
    | .setExInit, _ => t' = { t with supportsExpiry := True }
    | .setEx cond f expireAt, r =>
      ∃ isHT, ∀ m, t.map = some m → r = (ttlSetEx isHT ctx m cond f expireAt).2 ∧
        t' = { t with
          map := some (ttlSetEx isHT ctx m cond f expireAt).1
          hdels := if r = .deleted then t.hdels ++ [f] else t.hdels }
    | .persist f, _ =>
      ∀ m v e, t.map = some m → m f = some (v, e) →
        t' = { t with map := some (Function.update m f (some (v, none))) }
    | .propagateHashFieldDeletion f, _ => t' = { t with hdels := t.hdels ++ [f] }
    | .serverAssert _, _ => t' = t

/-- The key of the model stands for the map. -/
structure HashKey.Holds (k : HashKey) (t : KeySpec) : Prop where
  hdels : k.hdels = t.hdels
  slot : (k.slot = none ∧ t.map = none) ∨
    ∃ o m, k.slot = some o ∧ t.map = some m ∧ o.Holds m ∧ (t.supportsExpiry → o.SupportsExpiry)

/-! ### Lemmas about the objects -/

lemma assocMap_eq_empty_iff {ρ : Type} {key : ρ → Bytes}
    {val : ρ → Bytes × Option ℕ} {rs : List ρ} :
    assocMap key val rs = TtlMap.empty ↔ rs = [] := by
  constructor
  · intro h
    rw [List.eq_nil_iff_forall_not_mem]
    intro r hr
    exact assocMap_eq_none_iff.mp (congrFun h (key r)) r hr rfl
  · rintro rfl
    rfl

variable {o : HashObj} {m : TtlMap}

/-- An object without fields stands for the empty map. -/
lemma HashObj.Holds.length_eq_zero_iff (h : o.Holds m) :
    hashTypeLength o = 0 ↔ m = .empty := by
  cases o with
  | listpack lp =>
    obtain ⟨ps, rfl, -, rfl⟩ := h
    rw [pairsMap, assocMap_eq_empty_iff, hashTypeLength, LpRecords.length_flat]
    simp [pairRecords]
  | listpackEx lp =>
    obtain ⟨ts, rfl, -, rfl⟩ := h
    rw [triplesMap, assocMap_eq_empty_iff, hashTypeLength, LpRecords.length_flat]
    simp [tripleRecords]
  | ht t =>
    obtain ⟨hw, rfl⟩ := h
    rw [hashTypeLength, List.length_eq_zero_iff, List.eq_nil_iff_forall_not_mem]
    constructor
    · intro hnone
      funext f
      refine hw.map_eq_none_iff.mpr fun p e hp => absurd ((hw.mem_dict p).mpr ?_) (hnone p)
      rw [hp, isSome_some]
    · intro hempty p hp
      obtain ⟨e, he⟩ := isSome_iff_exists.mp ((hw.mem_dict p).mp hp)
      exact hw.map_eq_none_iff.mp (congrFun hempty e.field) p e he rfl

lemma HashObj.Holds.no_ttl (h : o.Holds m) (henc : o.encoding = .listpack)
    (f v : Bytes) (e : ℕ) : m f ≠ some (v, some e) := by
  cases o with
  | listpack lp =>
    obtain ⟨ps, rfl, -, rfl⟩ := h
    intro hf
    obtain ⟨_, r, _, -, -, -, hr⟩ := exists_split_of_assocMap hf
    cases (Prod.ext_iff.mp hr).2
  | listpackEx lp | ht t => cases henc

variable {v : Bytes}

lemma HashObj.Holds.persist (h : o.Holds m) {f : Bytes} {e : ℕ} (hf : m f = some (v, some e)) :
    ∃ o', hashTypePersist o f = some o' ∧ o'.Holds (update m f (some (v, none))) ∧
      (o.SupportsExpiry → o'.SupportsExpiry) := by
  cases o with
  | listpack lp => exact absurd hf (h.no_ttl rfl f v e)
  | listpackEx lp =>
    obtain ⟨ts, rfl, hts, rfl⟩ := h
    rcases triplesMap_cases hts.nodup f with ⟨hnone, -⟩ | ⟨front, w, t, back, rfl, -, hmap, hfind⟩
    · rw [hnone] at hf
      cases hf
    obtain ⟨rfl, -⟩ : w = v ∧ ttlOfInt t = some e := by
      rw [hmap] at hf
      simpa using hf
    obtain ⟨ts, hsorted, hupdate, hnew⟩ := listpackExUpdateExpiry_spec hts rfl rfl (Nat.zero_le _)
    refine ⟨.listpackEx (tripleRecords.flat ts), ?_, ⟨ts, rfl, hsorted, hnew.symm⟩, id⟩
    have hnext : lpNext (tripleRecords.flat (front ++ (f, w, t) :: back))
        (tripleRecords.flat front).length = some ((tripleRecords.flat front).length + 1) := by
      rw [flat_triples_append, lpNext_length_append]
    simp only [hashTypePersist, hfind, hnext, hupdate, bind_eq_bind, bind_some,
      pure_def]
  | ht t =>
    obtain ⟨hw, rfl⟩ := h
    obtain ⟨p, hp⟩ : ∃ p, t.find f = some p := by
      refine ne_none_iff_exists'.mp fun hnone => ?_
      rw [HashTable.map, hnone] at hf
      cases hf
    obtain ⟨entry, hentry, rfl⟩ := hw.find_eq_some_iff.mp hp
    obtain ⟨rfl, -⟩ : entry.value = v ∧ entry.expiry = some e := by
      rw [hw.map_of_heap hentry] at hf
      simpa using hf
    obtain ⟨t', -, hpersist, hw', -, -, -, -, -, hhfe, hmap⟩ := hw.hfieldPersist_spec hentry
    refine ⟨.ht t', ?_, ⟨hw', hmap.symm⟩, fun hsupp => hhfe.trans hsupp⟩
    simp only [hashTypePersist, hp, hpersist, bind_eq_bind, bind_some, pure_def]

/-- The object at a key that exists. -/
lemma HashKey.Holds.exists_obj {k : HashKey} {t : KeySpec} (h : k.Holds t) (ht : t.map.isSome) :
    ∃ o m, k.slot = some o ∧ t.map = some m ∧ o.Holds m ∧
      (t.supportsExpiry → o.SupportsExpiry) := by
  rcases h.slot with ⟨-, hnone⟩ | hsome
  · rw [hnone] at ht
    cases ht
  · exact hsome

lemma HashKey.Holds.replace {hdels : List Bytes} {supports : Prop}
    (h : o.Holds m) (hsupp : supports → o.SupportsExpiry) :
    HashKey.Holds ⟨some o, hdels⟩ ⟨some m, supports, hdels⟩ :=
  ⟨rfl, .inr ⟨o, m, rfl, rfl, h, hsupp⟩⟩

lemma hashApiStep_refines (cfg : HashConfig) (ctx : HashCtx) (k : HashKey) (t : KeySpec)
    (op : HashApi) (h : k.Holds t) (hpre : (hashSpec ctx).pre t op) :
    ∃ k' r t', hashApiStep cfg ctx k op = some (k', r) ∧ (hashSpec ctx).post t op t' r ∧
      k'.Holds t' := by
  obtain ⟨slot, hdels⟩ := k
  obtain ⟨map, supports, hdels'⟩ := t
  obtain rfl : hdels = hdels' := h.hdels
  cases op with
  | lookupKey =>
    refine ⟨_, _, _, rfl, ⟨rfl, ?_⟩, h⟩
    rcases h.slot with ⟨hslot, hmap⟩ | ⟨o, m, hslot, hmap, -⟩
    all_goals exact (congrArg isSome hslot).trans (congrArg isSome hmap).symm
  | dbAdd =>
    obtain rfl : map = none := hpre
    rcases h.slot with ⟨hslot, -⟩ | ⟨o, m, -, hmap, -⟩
    · obtain rfl : slot = none := hslot
      have hcreate : createHashObject.Holds .empty := ⟨[], rfl, List.nodup_nil, rfl⟩
      exact ⟨_, (), _, rfl, rfl, HashKey.Holds.replace hcreate False.elim⟩
    · cases hmap
  | propagateHashFieldDeletion f =>
    exact ⟨_, (), _, rfl, rfl, rfl, h.slot⟩
  | serverAssert b =>
    obtain rfl : b = true := hpre
    exact ⟨_, (), _, rfl, rfl, h⟩
  | dbDelete =>
    obtain ⟨o, m, rfl, rfl, -⟩ := h.exists_obj hpre
    exact ⟨_, (), _, rfl, rfl, rfl, .inl ⟨rfl, rfl⟩⟩
  | isEmpty =>
    obtain ⟨o, m, rfl, rfl, hholds, -⟩ := h.exists_obj hpre
    refine ⟨_, _, _, rfl, ⟨rfl, ?_⟩, h⟩
    rw [beq_iff_eq, hholds.length_eq_zero_iff]
    exact (some_inj).symm
  | encoding =>
    obtain ⟨o, m, rfl, rfl, hholds, -⟩ := h.exists_obj hpre
    refine ⟨_, _, _, rfl, ⟨rfl, fun henc m' f v e hm' => ?_⟩, h⟩
    obtain rfl : m = m' := some_inj.mp hm'
    exact hholds.no_ttl henc f v e
  | tryConversion args =>
    obtain ⟨o, m, rfl, rfl, hholds, hsupp⟩ := h.exists_obj hpre
    obtain ⟨o', hconv, hholds', hsupp'⟩ := hholds.tryConversion cfg args
    refine ⟨⟨some o', hdels⟩, (), _, ?_, rfl, .replace hholds' fun hs => hsupp' (hsupp hs)⟩
    simp [hashApiStep, hconv]
  | get f =>
    obtain ⟨o, m, rfl, rfl, hholds, -⟩ := h.exists_obj hpre
    refine ⟨⟨some o, hdels⟩, m f, _, ?_, ⟨rfl, fun m' hm' => ?_⟩, h⟩
    · simp [hashApiStep, hholds.hashTypeGet]
    · rw [some_inj.mp hm']
  | set f v keepTtl =>
    obtain ⟨o, m, rfl, rfl, hholds, hsupp⟩ := h.exists_obj hpre
    obtain ⟨o', hset, hholds', hsupp'⟩ := hholds.set cfg f v keepTtl
    refine ⟨⟨some o', hdels⟩, (m f).isSome, ⟨some (ttlSet m f v keepTtl), supports, hdels⟩, ?_,
      fun m' hm' => ?_, .replace hholds' fun hs => hsupp' (hsupp hs)⟩
    · simp [hashApiStep, hset]
    · obtain rfl : m = m' := some_inj.mp hm'
      exact ⟨rfl, rfl⟩
  | delete f =>
    obtain ⟨o, m, rfl, rfl, hholds, hsupp⟩ := h.exists_obj hpre
    obtain ⟨o', hdelete, hholds', hsupp', -⟩ := hholds.delete f
    refine ⟨⟨some o', hdels⟩, (m f).isSome, ⟨some (update m f none), supports, hdels⟩, ?_,
      fun m' hm' => ?_, .replace hholds' fun hs => hsupp' (hsupp hs)⟩
    · simp [hashApiStep, hdelete]
    · obtain rfl : m = m' := some_inj.mp hm'
      exact ⟨rfl, rfl⟩
  | setExInit =>
    obtain ⟨o, m, rfl, rfl, hholds, -⟩ := h.exists_obj hpre
    obtain ⟨o', hinit, hholds', hsupp', -⟩ := hholds.setExInit
    refine ⟨⟨some o', hdels⟩, (), _, ?_, rfl, .replace hholds' fun _ => hsupp'⟩
    simp [hashApiStep, hinit]
  | setEx cond f expireAt =>
    obtain ⟨hmap, hsupports, hzero, hmax⟩ := hpre
    obtain ⟨o, m, rfl, rfl, hholds, hsupp⟩ := h.exists_obj hmap
    obtain ⟨o', hset, hholds', hsupp', -⟩ :=
      hholds.setEx (hsupp hsupports) cfg ctx cond f hzero hmax
    generalize hr : ttlSetEx o.isHT ctx m cond f expireAt = r at hset hholds'
    refine ⟨⟨some o', if r.2 = .deleted then hdels ++ [f] else hdels⟩, r.2,
      ⟨some r.1, supports, if r.2 = .deleted then hdels ++ [f] else hdels⟩, ?_,
      ⟨o.isHT, fun m' hm' => ?_⟩, .replace hholds' fun _ => hsupp'⟩
    · simp only [hashApiStep, hset, bind_eq_bind, bind_some, pure_def]
    · obtain rfl : m = m' := some_inj.mp hm'
      rw [hr]
      exact ⟨rfl, rfl⟩
  | persist f =>
    obtain ⟨m0, v, e, hmap, hf⟩ := hpre
    obtain ⟨o, m, rfl, rfl, hholds, hsupp⟩ := h.exists_obj (hmap ▸ rfl)
    obtain rfl : m = m0 := some_inj.mp hmap
    obtain ⟨o', hpersist, hholds', hsupp'⟩ := hholds.persist hf
    refine ⟨⟨some o', hdels⟩, (), _, ?_, fun m' v' e' hm' hf' => ?_,
      .replace hholds' fun hs => hsupp' (hsupp hs)⟩
    · simp [hashApiStep, hpersist]
    · obtain rfl : m = m' := some_inj.mp hm'
      obtain rfl : v = v' := (Prod.ext_iff.mp (some_inj.mp (hf.symm.trans hf'))).1
      rfl

/-! ### Rules for the operations -/

section Rules

open HashProg

variable {ctx : HashCtx} {supports : Prop} {hdels : List Bytes} {t : KeySpec}

variable {Q : KeySpec → Unit → Prop} {f : Bytes}

@[simp] lemma wp_lookupKey {Q : KeySpec → Bool → Prop} :
    lookupKey.wp (hashSpec ctx) Q t ↔ Q t t.map.isSome := by
  simp [lookupKey, Program.wp_perform, hashSpec]

/-- A call that is allowed and has one outcome. -/
lemma wp_of_outcome {P : Prop} (h : P) : (P ∧ ∀ t' r, t' = t → Q t' r) ↔ Q t () := by
  refine ⟨fun hQ => hQ.2 _ () rfl, fun hQ => ⟨h, fun t' r ht => ?_⟩⟩
  rwa [ht]

@[simp] lemma wp_dbAdd :
    dbAdd.wp (hashSpec ctx) Q ⟨none, supports, hdels⟩ ↔ Q ⟨some .empty, False, hdels⟩ () := by
  exact wp_of_outcome rfl

@[simp] lemma wp_dbDelete :
    dbDelete.wp (hashSpec ctx) Q ⟨some m, supports, hdels⟩ ↔ Q ⟨none, supports, hdels⟩ () := by
  exact wp_of_outcome rfl

@[simp] lemma wp_isEmpty {Q : KeySpec → Bool → Prop} :
    isEmpty.wp (hashSpec ctx) Q ⟨some m, supports, hdels⟩ ↔
      (m = .empty → Q ⟨some m, supports, hdels⟩ true) ∧
        (m ≠ .empty → Q ⟨some m, supports, hdels⟩ false) := by
  have hpost : ∀ b, (b = true ↔ some m = some TtlMap.empty) ↔ (b = true ↔ m = .empty) := by simp
  constructor
  · intro h
    exact ⟨fun hm => h.2 _ true ⟨rfl, (hpost true).mpr (iff_of_true rfl hm)⟩,
      fun hm => h.2 _ false ⟨rfl, (hpost false).mpr (iff_of_false Bool.false_ne_true hm)⟩⟩
  · rintro ⟨htrue, hfalse⟩
    refine ⟨rfl, ?_⟩
    rintro _ (_ | _) ⟨rfl, hb⟩
    · exact hfalse fun hm => Bool.false_ne_true (((hpost false).mp hb).mpr hm)
    · exact htrue (((hpost true).mp hb).mp rfl)

@[simp] lemma wp_encoding {Q : KeySpec → HashEncoding → Prop} :
    encoding.wp (hashSpec ctx) Q ⟨some m, supports, hdels⟩ ↔
      ∀ enc, (enc = .listpack → ∀ f v e, m f ≠ some (v, some e)) →
        Q ⟨some m, supports, hdels⟩ enc := by
  constructor
  · intro h enc henc
    refine h.2 _ enc ⟨rfl, ?_⟩
    rintro hlp m' f v e hm'
    obtain rfl : m = m' := some_inj.mp hm'
    exact henc hlp f v e
  · intro h
    refine ⟨rfl, ?_⟩
    rintro _ enc ⟨rfl, henc⟩
    exact h enc fun hlp f v e => henc hlp m f v e rfl

@[simp] lemma wp_tryConversion {args : List Bytes} :
    (tryConversion args).wp (hashSpec ctx) Q ⟨some m, supports, hdels⟩ ↔
      Q ⟨some m, supports, hdels⟩ () := by
  exact wp_of_outcome rfl

@[simp] lemma wp_getField {Q : KeySpec → Option (Bytes × Option ℕ) → Prop} :
    (getField f).wp (hashSpec ctx) Q ⟨some m, supports, hdels⟩ ↔
      Q ⟨some m, supports, hdels⟩ (m f) := by
  simp [getField, Program.wp_perform, hashSpec]

@[simp] lemma wp_setField {keepTtl : Bool} {Q : KeySpec → Bool → Prop} :
    (setField f v keepTtl).wp (hashSpec ctx) Q ⟨some m, supports, hdels⟩ ↔
      Q ⟨some (ttlSet m f v keepTtl), supports, hdels⟩ (m f).isSome := by
  simp [setField, Program.wp_perform, hashSpec]

@[simp] lemma wp_deleteField {Q : KeySpec → Bool → Prop} :
    (deleteField f).wp (hashSpec ctx) Q ⟨some m, supports, hdels⟩ ↔
      Q ⟨some (update m f none), supports, hdels⟩ (m f).isSome := by
  simp [deleteField, Program.wp_perform, hashSpec]

@[simp] lemma wp_setExInit :
    setExInit.wp (hashSpec ctx) Q ⟨some m, supports, hdels⟩ ↔ Q ⟨some m, True, hdels⟩ () := by
  exact wp_of_outcome rfl

@[simp] lemma wp_setEx {cond : ExpireSetCond} {e : Option ℕ} {Q : KeySpec → SetExRes → Prop} :
    (setEx cond f e).wp (hashSpec ctx) Q ⟨some m, True, hdels⟩ ↔
      ((ctx.isMaster = true ∨ e ≠ some 0) ∧ ∀ u ∈ e, u ≤ ebExpireTimeMax) ∧ ∀ isHT,
        Q ⟨some (ttlSetEx isHT ctx m cond f e).1, True,
          if (ttlSetEx isHT ctx m cond f e).2 = .deleted then hdels ++ [f] else hdels⟩
          (ttlSetEx isHT ctx m cond f e).2 := by
  constructor
  · rintro ⟨⟨-, -, hzero⟩, h⟩
    refine ⟨hzero, fun isHT => h _ _ ⟨isHT, fun m' hm' => ?_⟩⟩
    obtain rfl : m = m' := some_inj.mp hm'
    exact ⟨rfl, rfl⟩
  · rintro ⟨hzero, h⟩
    refine ⟨⟨rfl, trivial, hzero⟩, ?_⟩
    rintro t' r ⟨isHT, hpost⟩
    obtain ⟨rfl, rfl⟩ := hpost m rfl
    exact h isHT

lemma wp_persistField {e : ℕ} (hf : m f = some (v, some e)) :
    (persistField f).wp (hashSpec ctx) Q ⟨some m, supports, hdels⟩ ↔
      Q ⟨some (update m f (some (v, none))), supports, hdels⟩ () := by
  constructor
  · intro h
    refine h.2 _ () fun m' v' e' hm' hf' => ?_
    obtain rfl : m = m' := some_inj.mp hm'
    obtain rfl : v = v' := (Prod.ext_iff.mp (some_inj.mp (hf.symm.trans hf'))).1
    rfl
  · intro h
    refine ⟨⟨m, v, e, rfl, hf⟩, fun t' r hpost => ?_⟩
    rw [hpost m v (some e) rfl hf]
    exact h

@[simp] lemma wp_propagateHashFieldDeletion :
    (propagateHashFieldDeletion f).wp (hashSpec ctx) Q t ↔
      Q { t with hdels := t.hdels ++ [f] } () := by
  exact wp_of_outcome trivial

@[simp] lemma wp_serverAssert {b : Bool} :
    (serverAssert b).wp (hashSpec ctx) Q t ↔ b = true ∧ Q t () := by
  refine and_congr_right fun _ => ⟨fun h => h _ () rfl, fun h t' r ht => ?_⟩
  cases ht
  exact h

end Rules

/-- The hash at a key stands for a map. -/
def SlotHolds (slot : Option HashObj) (m : Option TtlMap) : Prop :=
  (slot = none ∧ m = none) ∨ ∃ o m', slot = some o ∧ m = some m' ∧ o.Holds m'

variable {slot : Option HashObj}

/-- What holds for every run that the specification allows holds for the execution of a program. -/
lemma SlotHolds.run_of_wp {α : Type} {ctx : HashCtx} {p : HashProg α}
    {m : Option TtlMap} (h : SlotHolds slot m) {Q : KeySpec → α → Prop}
    (hwp : p.wp (hashSpec ctx) Q ⟨m, False, []⟩) (cfg : HashConfig) :
    ∃ k t a, p.run (hashApiStep cfg ctx) ⟨slot, []⟩ = some (k, a) ∧ k.hdels = t.hdels ∧
      SlotHolds k.slot t.map ∧ Q t a := by
  have hholds : HashKey.Holds ⟨slot, []⟩ ⟨m, False, []⟩ := by
    refine ⟨rfl, h.imp_right ?_⟩
    rintro ⟨o, m', hslot, hm, ho⟩
    exact ⟨o, m', hslot, hm, ho, False.elim⟩
  obtain ⟨k, t, a, hrun, hk, hQ⟩ :=
    Program.wp_sound HashKey.Holds (hashApiStep_refines cfg ctx) hwp hholds
  refine ⟨k, t, a, hrun, hk.hdels, hk.slot.imp_right ?_, hQ⟩
  rintro ⟨o, m', hslot, hm, ho, -⟩
  exact ⟨o, m', hslot, hm, ho⟩

/-- What holds for every run that the specification allows holds for the execution of a command. -/
lemma callHashCommand_of_wp {ld : LongDoubleText} {ctx : HashCtx} {cmd : HashCommand}
    {m : Option TtlMap} (h : SlotHolds slot m) {Q : KeySpec → CommandResult → Prop}
    (hwp : (hashCommand ld ctx cmd).wp (hashSpec ctx) Q ⟨m, False, []⟩) (cfg : HashConfig) :
    ∃ slot' t r, callHashCommand ld cfg ctx slot cmd =
        some (slot', r.reply, t.hdels.map (fun f => .hdel [f]) ++ r.propagated) ∧
      SlotHolds slot' t.map ∧ Q t r := by
  obtain ⟨k, t, r, hrun, hhdels, hslot, hQ⟩ := h.run_of_wp hwp cfg
  refine ⟨k.slot, t, r, ?_, hslot, hQ⟩
  rw [callHashCommand, hrun, ← hhdels]
  rfl

end RainCall
