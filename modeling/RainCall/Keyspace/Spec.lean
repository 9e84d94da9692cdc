import RainCall.Keyspace.Db
import RainCall.Foundation.Census

/-!
# What the databases hold

The abstract state of the databases is a map from database and key to an entry. A state of the
server represents such a map if every key has exactly one object, `expires` points to the objects of
the keys that have a TTL (`Keyspace.Indexes`), and the histogram counts the entries
(`Keyspace.Counts`).

`Keyspace.Indexes.replace` and `Keyspace.Counts.replace` are the rules for an operation that changes
the entry of one key, whatever it does to the objects on the way.
-/

namespace RainCall

variable {V : Type}

/-- The entries of the databases. -/
abbrev KeyMap (V : Type) := ℕ → Bytes → Option (KeyEntry V)

/-- Change the entry of one key. -/
def KeyMap.set (K : KeyMap V) (d : ℕ) (k : Bytes) (x : Option (KeyEntry V)) : KeyMap V :=
  Function.update K d (Function.update (K d) k x)

lemma KeyMap.set_apply (K : KeyMap V) (d : ℕ) (k : Bytes) (x : Option (KeyEntry V)) (d' : ℕ)
    (k' : Bytes) : K.set d k x d' k' = if d' = d ∧ k' = k then x else K d' k' := by
  unfold KeyMap.set
  by_cases hd : d' = d
  · subst hd
    by_cases hk : k' = k
    · simp [hk]
    · simp [hk]
  · simp [hd]

variable {d : ℕ} {s s' : Keyspace V} {held held' : Option Addr} {K : KeyMap V}
  {x : Option (KeyEntry V)}

@[simp] lemma KeyMap.set_self (K : KeyMap V) (d : ℕ) (k : Bytes) (x : Option (KeyEntry V)) :
    K.set d k x d k = x := by simp [KeyMap.set]

variable {k : Bytes}

lemma KeyMap.set_of_ne (K : KeyMap V) (x : Option (KeyEntry V)) {d' : ℕ}
    {k' : Bytes} (h : ¬ (d' = d ∧ k' = k)) : K.set d k x d' k' = K d' k' := by
  rw [KeyMap.set_apply, if_neg h]

@[simp] lemma KeyMap.set_eq_self (K : KeyMap V) (d : ℕ) (k : Bytes) :
    K.set d k (K d k) = K := by simp [KeyMap.set]

@[simp] lemma KeyMap.set_set (K : KeyMap V) (d : ℕ) (k : Bytes) (x y : Option (KeyEntry V)) :
    (K.set d k x).set d k y = K.set d k y := by simp [KeyMap.set]

/-- The length that counts for the histogram. -/
def KeyEntry.length (cfg : KeyspaceConfig V) (e : KeyEntry V) : ℕ :=
  if e.type = .module then 0 else cfg.length e.value

/-- The bin of an entry in the histograms; the types that are not basic have none. -/
def KeyEntry.histClass (cfg : KeyspaceConfig V) (e : KeyEntry V) : Option (ObjType × ℕ) :=
  if e.type.isBasic then some (e.type, keysizesBin (e.length cfg)) else none

/-- The bins of the keys of a database. -/
def KeyMap.histClass (cfg : KeyspaceConfig V) (K : KeyMap V) (d : ℕ) (k : Bytes) :
    Option (ObjType × ℕ) :=
  (K d k).bind (KeyEntry.histClass cfg)

/-- The objects and the two dictionaries of every database represent the entries `K`. The object
`held` may have been given another reference. -/
structure Keyspace.Indexes (s : Keyspace V) (held : Option Addr) (K : KeyMap V) : Prop where
  /-- A pointer in `keys` leads to an object that stores the entry of the key. -/
  stored : ∀ {d k a}, (s.db d).keys.lookup k = some a → ∃ o e, s.heap.lookup a = some o ∧
    K d k = some e ∧ o.Stores k e ∧ (held ≠ some a → o.Retainable)
  absent : ∀ {d k}, (s.db d).keys.lookup k = none → K d k = none
  injective : ∀ {d k d' k' a}, (s.db d).keys.lookup k = some a →
    (s.db d').keys.lookup k' = some a → d = d' ∧ k = k'
  /-- `expires` has the same pointers for the keys with a TTL, and no others. -/
  expires : ∀ d k, (s.db d).expires.lookup k =
    if (K d k).bind KeyEntry.ttl = none then none else (s.db d).keys.lookup k

def Keyspace.Counts (cfg : KeyspaceConfig V) (s : Keyspace V) (K : KeyMap V) : Prop :=
  ∀ d t b, t.isBasic →
    (s.db d).keysizes t b = census (s.db d).keys.keys (K.histClass cfg d) (t, b)

/-- The state represents the entries `K`. -/
structure Keyspace.Holds (cfg : KeyspaceConfig V) (s : Keyspace V) (held : Option Addr)
    (K : KeyMap V) : Prop where
  indexes : s.Indexes held K
  counts : s.Counts cfg K

/-! ### One key changes -/

lemma Keyspace.Indexes.lookup_of_some (h : s.Indexes held K) {e : KeyEntry V}
    (he : K d k = some e) :
    ∃ a o, (s.db d).keys.lookup k = some a ∧ s.heap.lookup a = some o ∧ o.Stores k e ∧
      (held ≠ some a → o.Retainable) := by
  cases ha : (s.db d).keys.lookup k with
  | none =>
    rw [h.absent ha] at he
    cases he
  | some a =>
    obtain ⟨o, e', ho, he', hst, hre⟩ := h.stored ha
    rw [he] at he'
    cases he'
    exact ⟨a, o, rfl, ho, hst, hre⟩

lemma Keyspace.Indexes.lookup_eq_none_iff (h : s.Indexes held K) :
    (s.db d).keys.lookup k = none ↔ K d k = none := by
  refine ⟨h.absent, fun hK => ?_⟩
  cases ha : (s.db d).keys.lookup k with
  | none => rfl
  | some a =>
    obtain ⟨o, e, -, he, -⟩ := h.stored ha
    rw [hK] at he
    cases he

/-- The keys of a database are the keys that have an entry. -/
lemma Keyspace.Indexes.mem_keys (h : s.Indexes held K) :
    k ∈ (s.db d).keys.keys ↔ K d k ≠ none := by
  rw [Finmap.mem_keys, ← Finmap.lookup_isSome, Option.isSome_iff_ne_none, Ne,
    h.lookup_eq_none_iff]

def Keyspace.Unowned (s : Keyspace V) (a : Addr) : Prop :=
  ∀ d k, (s.db d).keys.lookup k ≠ some a

/-- A dictionary of the databases changes at the key `k` of the database `d` only, to `x`. -/
def Keyspace.SetsKey (dict : RedisDb → Finmap fun _ : Bytes => Addr) (s s' : Keyspace V)
    (d : ℕ) (k : Bytes) (x : Option Addr) : Prop :=
  ∀ d' k', (dict (s'.db d')).lookup k' =
    if d' = d ∧ k' = k then x else (dict (s.db d')).lookup k'

/-- An operation on the key `k` of the database `d`, which points `k` to `na` and leaves all other
keys and their objects alone, changes the entry of `k`. -/
lemma Keyspace.Indexes.replace (h : s.Indexes held K) (na : Option Addr)
    (hkeys : SetsKey RedisDb.keys s s' d k na)
    (hexpires : SetsKey RedisDb.expires s s' d k (if x.bind KeyEntry.ttl = none then none else na))
    (hnew : ∀ a, na = some a → ∃ o e, s'.heap.lookup a = some o ∧ x = some e ∧ o.Stores k e ∧
      (held' ≠ some a → o.Retainable)) (hnone : na = none → x = none)
    (hframe : ∀ d' k' a, ¬ (d' = d ∧ k' = k) → (s.db d').keys.lookup k' = some a → na ≠ some a ∧
      s'.heap.lookup a = s.heap.lookup a ∧ (held' ≠ some a → held ≠ some a)) :
    s'.Indexes held' (K.set d k x) where
  stored := by
    intro d' k' a ha
    rw [hkeys] at ha
    split_ifs at ha with hk
    · obtain ⟨rfl, rfl⟩ := hk
      rw [KeyMap.set_self]
      exact hnew a ha
    · rw [KeyMap.set_of_ne K x hk]
      obtain ⟨-, hheap, hheld⟩ := hframe d' k' a hk ha
      obtain ⟨o, e, ho, he, hst, hre⟩ := h.stored ha
      exact ⟨o, e, hheap.trans ho, he, hst, fun hh => hre (hheld hh)⟩
  absent := by
    intro d' k' ha
    rw [hkeys] at ha
    rw [KeyMap.set_apply]
    split_ifs at ha ⊢ with hk
    · exact hnone ha
    · exact h.absent ha
  injective := by
    intro d1 k1 d2 k2 a h1 h2
    rw [hkeys] at h1 h2
    split_ifs at h1 h2 with hk1 hk2 hk2
    · exact ⟨hk1.1.trans hk2.1.symm, hk1.2.trans hk2.2.symm⟩
    · exact absurd h1 (hframe d2 k2 a hk2 h2).1
    · exact absurd h2 (hframe d1 k1 a hk1 h1).1
    · exact h.injective h1 h2
  expires := by
    intro d' k'
    rw [hexpires, hkeys, KeyMap.set_apply]
    split_ifs with hk
    · rfl
    · rfl
    · rename_i httl
      rw [h.expires, if_pos httl]
    · rename_i httl
      rw [h.expires, if_neg httl]

/-- A change of the heap that touches no stored object. -/
lemma Keyspace.Indexes.of_heap (h : s.Indexes held K) {heap : ObjHeap V}
    (hheap : ∀ d k a, (s.db d).keys.lookup k = some a → heap.lookup a = s.heap.lookup a) :
    Keyspace.Indexes { s with heap := heap } held K where
  stored := by
    intro d k a ha
    obtain ⟨o, e, ho, he⟩ := h.stored ha
    exact ⟨o, e, (hheap d k a ha).trans ho, he⟩
  absent := h.absent
  injective := h.injective
  expires := h.expires

variable {cfg : KeyspaceConfig V}

lemma Keyspace.Counts.of_heap (h : s.Counts cfg K) (heap : ObjHeap V) :
    Keyspace.Counts cfg { s with heap := heap } K := h

/-- If the bin of the old entry of `k` loses one key and the bin of the new entry gains one, the
histograms count the new entries. -/
lemma Keyspace.Counts.replace (hc : s.Counts cfg K)
    (h : s.Indexes held K) (h' : s'.Indexes held' (K.set d k x))
    (hother : ∀ d', d' ≠ d → (s'.db d').keysizes = (s.db d').keysizes)
    (hhist : ∀ t b, t.isBasic → (s'.db d).keysizes t b = (s.db d).keysizes t b - (if K.histClass
      cfg d k = some (t, b) then 1 else 0) + if x.bind (KeyEntry.histClass cfg) = some (t, b) then
      1 else 0) :
    s'.Counts cfg (K.set d k x) := by
  intro d' t b ht
  by_cases hd : d' = d
  · subst hd
    have hcls : (K.set d' k x).histClass cfg d' =
        Function.update (K.histClass cfg d') k (x.bind (KeyEntry.histClass cfg)) := by
      funext k'
      unfold KeyMap.histClass
      rw [KeyMap.set_apply]
      by_cases hk : k' = k
      · subst hk
        simp
      · simp [hk]
    have hdom : (s'.db d').keys.keys.erase k = (s.db d').keys.keys.erase k := by
      ext k'
      simp only [Finset.mem_erase, h.mem_keys, h'.mem_keys, KeyMap.set_apply]
      by_cases hk : k' = k <;> simp [hk]
    have hold : K.histClass cfg d' k ≠ none → k ∈ (s.db d').keys.keys := by
      rw [h.mem_keys]
      intro hcl hK
      exact hcl (by simp [KeyMap.histClass, hK])
    have hnew : x.bind (KeyEntry.histClass cfg) ≠ none → k ∈ (s'.db d').keys.keys := by
      rw [h'.mem_keys, KeyMap.set_self]
      rintro hcl rfl
      exact hcl rfl
    rw [hhist t b ht, hc d' t b ht, hcls, census_update hdom hold hnew]
  · have hkeys : (s'.db d').keys.keys = (s.db d').keys.keys := by
      ext k'
      rw [h.mem_keys, h'.mem_keys, KeyMap.set_of_ne K x fun hk => hd hk.1]
    have hcls : (K.set d k x).histClass cfg d' = K.histClass cfg d' := by
      funext k'
      unfold KeyMap.histClass
      rw [KeyMap.set_of_ne K x fun hk => hd hk.1]
    rw [hother d' hd, hkeys, hcls, hc d' t b ht]

/-- A change of the TTL moves no key to another bin. -/
lemma Keyspace.Counts.of_same (hc : s.Counts cfg K)
    (h : s.Indexes held K) (h' : s'.Indexes held' (K.set d k x))
    (hkeysizes : ∀ d', (s'.db d').keysizes = (s.db d').keysizes)
    (hclass : x.bind (KeyEntry.histClass cfg) = K.histClass cfg d k) :
    s'.Counts cfg (K.set d k x) := by
  refine hc.replace h h' (fun d' _ => hkeysizes d') fun t b _ => ?_
  rw [hkeysizes, hclass]
  ring

/-! ### The histogram -/

section Histogram

variable {o : RedisObject V} {e : KeyEntry V}

lemma RedisObject.Stores.getObjectLength (h : o.Stores k e) :
    getObjectLength cfg o = e.length cfg := by
  unfold RainCall.getObjectLength KeyEntry.length
  rw [h.type_eq, h.ptr_eq]
  rfl

/-- One length leaves its bin and the other enters its own. -/
lemma kvsUpdateHistogram_apply (hist : ObjType → ℕ → ℤ) (type : ObjType) (oldLen newLen : Option ℕ)
    {t : ObjType} (ht : t.isBasic) (b : ℕ) :
    kvsUpdateHistogram hist type oldLen newLen t b = hist t b -
      (if t = type ∧ oldLen.map keysizesBin = some b then 1 else 0) +
      (if t = type ∧ newLen.map keysizesBin = some b then 1 else 0) := by
  unfold kvsUpdateHistogram
  by_cases htype : type.isBasic
  · rw [if_pos htype]
  · have hne : t ≠ type := by
      rintro rfl
      exact htype ht
    rw [if_neg htype]
    simp [hne]

lemma KeyEntry.histClass_eq_iff {t : ObjType} (ht : t.isBasic) (b : ℕ) :
    e.histClass cfg = some (t, b) ↔ t = e.type ∧ keysizesBin (e.length cfg) = b := by
  unfold KeyEntry.histClass
  split_ifs with htype
  · simp [eq_comm]
  · simp only [false_iff, not_and]
    rintro rfl
    exact absurd ht htype

end Histogram

end RainCall
