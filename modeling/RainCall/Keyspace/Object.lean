import RainCall.Foundation.Bytes

/-!
# Value objects and key objects

A value is a `redisObject` on the heap. An object that is stored in a database is a `kvobj`: the
same record with the key embedded behind it and, before it, an optional slot for the expire time of
the key. Whether the slot exists is one bit of `metabits`; the slot of a key without a TTL holds
`-1`. An object that has no slot is reallocated when a TTL is assigned, which is why the functions
below take and return addresses.

A read through an address that is not allocated, a failed `serverAssert` and a `serverPanic` are the
result `none`.
-/

namespace RainCall

open Finmap Option

inductive ObjType
  | string | list | set | zset | hash | module | stream | array | gcra
deriving DecidableEq, Repr

/-- The types below `OBJ_TYPE_BASIC_MAX`, the only ones that have a histogram of key sizes. -/
def ObjType.isBasic : ObjType → Bool
  | .string | .list | .set | .zset | .hash => true
  | .module | .stream | .array | .gcra => false

/-- `OBJ_ENCODING_RAW` and the other encodings that are in use. -/
inductive ObjEncoding
  | raw | int | ht | intset | skiplist | embstr | quicklist | stream | listpack | listpackEx
  | slicedArray
deriving DecidableEq, Repr

/-- Addresses of allocated objects. -/
abbrev Addr := ℕ

/-- `struct redisObject`, with the data that is allocated around it when it is a `kvobj`. The
access times and the metadata of modules are left out. -/
structure RedisObject (V : Type) where
  type : ObjType
  encoding : ObjEncoding
  /-- The value; `none` is the null pointer that is left behind when the value is taken. -/
  ptr : Option V
  refcount : ℕ
  key : Option Bytes
  /-- The expire slot, which exists if `metabits & KEY_META_MASK_EXPIRE`. -/
  expire : Option ℤ
deriving DecidableEq, Repr

/-- `OBJ_SHARED_REFCOUNT`: the object is never freed. -/
def objSharedRefcount : ℕ := 2 ^ 23 - 1

def objFirstSpecialRefcount : ℕ := 2 ^ 23 - 2

/-- `KEY_SIZE_TO_INCLUDE_EXPIRE_THRESHOLD`: the objects of keys of this length always have an expire
slot. -/
def keySizeToIncludeExpireThreshold : ℕ := 128

/-- The allocated objects. -/
abbrev ObjHeap (V : Type) := Finmap fun _ : Addr => RedisObject V

/-- What the functions below read of the server and of the platform. -/
structure KeyspaceConfig (V : Type) where
  cacheLineSize : ℕ
  /-- The length that `getObjectLength` and `sdslen` find in a value. -/
  length : V → ℕ
  malloc : ObjHeap V → Addr
  /-- An allocation is at an address that is not in use. -/
  malloc_notMem : ∀ h, malloc h ∉ h
  dbnum : ℕ

variable {V : Type}

def incrRefCount (h : ObjHeap V) (a : Addr) : Option (ObjHeap V) := do
  let o ← h.lookup a
  if o.refcount < objFirstSpecialRefcount - 1 then
    some (h.insert a { o with refcount := o.refcount + 1 })
  else if o.refcount = objSharedRefcount then some h
  else none

def decrRefCount (h : ObjHeap V) (a : Addr) : Option (ObjHeap V) := do
  let o ← h.lookup a
  if o.refcount = objSharedRefcount then some h
  else if o.refcount = 0 then none
  else if o.refcount = 1 then some (h.erase a)
  else some (h.insert a { o with refcount := o.refcount - 1 })

def kvobjGetExpire (kv : RedisObject V) : ℤ :=
  kv.expire.getD (-1)

def getObjectLength (cfg : KeyspaceConfig V) (o : RedisObject V) : ℕ :=
  if o.type = .module then 0 else (o.ptr.map cfg.length).getD 0

/-- `kvobjCreate`: the slot of a long key is allocated even if it is not asked for. -/
def kvobjCreate (type : ObjType) (key : Bytes) (ptr : V) (expireBit : Bool) :
    RedisObject V where
  type := type
  encoding := .raw
  ptr := some ptr
  refcount := 1
  key := some key
  expire :=
    if expireBit ∨ keySizeToIncludeExpireThreshold ≤ key.length then some (-1) else none

def kvobjCreateEmbedString (ptr : V) (key : Bytes) (expireBit : Bool) : RedisObject V where
  type := .string
  encoding := .embstr
  ptr := some ptr
  refcount := 1
  key := some key
  expire := if expireBit then some (-1) else none

/-- The object that `kvobjSet` makes of the value object `v`, whose value is `ptr`. A value that is
shared can be copied if it is a string; for the other types copying is not implemented. -/
def kvobjOf (cfg : KeyspaceConfig V) (key : Bytes) (v : RedisObject V) (ptr : V)
    (expireBit : Bool) : Option (RedisObject V) :=
  if v.type = .string ∧ v.encoding = .embstr then
    -- the object (16), the key with its headers (3) and the value with its header (4)
    if 16 + (key.length + 3) + (4 + cfg.length ptr) ≤ cfg.cacheLineSize then
      some (kvobjCreateEmbedString ptr key expireBit)
    else some (kvobjCreate .string key ptr expireBit)
  else if v.refcount = 1 ∨ v.type = .string ∧ (v.encoding = .int ∨ v.encoding = .raw) then
    some { kvobjCreate v.type key ptr expireBit with encoding := v.encoding }
  else none

/-- `kvobjSet`: a new object for `key` with the value of the object at `val`, which loses one
reference. -/
def kvobjSet (cfg : KeyspaceConfig V) (h : ObjHeap V) (key : Bytes) (val : Addr)
    (expireBit : Bool) : Option (Addr × ObjHeap V) := do
  let v ← h.lookup val
  let ptr ← v.ptr
  let kv ← kvobjOf cfg key v ptr expireBit
  -- the value of an object without other references is taken, and not copied
  let h₁ := if ¬ (v.type = .string ∧ v.encoding = .embstr) ∧ v.refcount = 1
    then h.insert val { v with ptr := none } else h
  let a := cfg.malloc h₁
  let h₂ ← decrRefCount (h₁.insert a kv) val
  some (a, h₂)

/-- `kvobjSetExpire`: the object is reallocated if it has no slot for the expire time. -/
def kvobjSetExpire (cfg : KeyspaceConfig V) (h : ObjHeap V) (a : Addr) (expire : ℤ) :
    Option (Addr × ObjHeap V) := do
  let kv ← h.lookup a
  if kv.expire = none then
    if expire = -1 then some (a, h)
    else do
      let key ← kv.key
      let (a', h₁) ← kvobjSet cfg h key a true
      let kv' ← h₁.lookup a'
      some (a', h₁.insert a' { kv' with expire := some expire })
  else some (a, h.insert a { kv with expire := some expire })

/-! ### What the operations do to an object -/

/-- What a database holds for one key: the type and the value of the key, and its TTL. -/
structure KeyEntry (V : Type) where
  type : ObjType
  value : V
  ttl : Option ℤ
deriving DecidableEq, Repr

/-- The TTL that an expire time stands for: `-1` is none. -/
def ttlOfExpire (expire : ℤ) : Option ℤ :=
  if expire = -1 then none else some expire

/-- `o` is the key object of `key` for the entry `e`. -/
structure RedisObject.Stores (o : RedisObject V) (key : Bytes) (e : KeyEntry V) : Prop where
  key_eq : o.key = some key
  type_eq : o.type = e.type
  ptr_eq : o.ptr = some e.value
  ttl_eq : ttlOfExpire (kvobjGetExpire o) = e.ttl
  refcount_pos : 0 < o.refcount

/-- The value of the object can be moved to another object: it has no other owner, or it is a
string, which can be copied. -/
structure RedisObject.Sharable (o : RedisObject V) : Prop where
  refcount_pos : 0 < o.refcount
  copyable : o.refcount = 1 ∨
    o.type = .string ∧ (o.encoding = .int ∨ o.encoding = .raw ∨ o.encoding = .embstr)

/-- A sharable object on which further references can be counted. -/
structure RedisObject.Retainable (o : RedisObject V) : Prop extends o.Sharable where
  refcount_lt : o.refcount + 2 < objFirstSpecialRefcount

/-- A lookup after an insertion. -/
lemma lookup_insert_ite {α β : Type*} [DecidableEq α] (s : Finmap fun _ : α => β) (a x : α)
    (b : β) : (s.insert a b).lookup x = if x = a then some b else s.lookup x := by
  split_ifs with hx
  · rw [hx, lookup_insert]
  · rw [lookup_insert_of_ne _ hx]

/-- A lookup after a deletion. -/
lemma lookup_erase_ite {α β : Type*} [DecidableEq α] (s : Finmap fun _ : α => β) (a x : α) :
    (s.erase a).lookup x = if x = a then none else s.lookup x := by
  split_ifs with hx
  · rw [hx, lookup_erase]
  · rw [lookup_erase_ne hx]

variable {h : ObjHeap V} {o : RedisObject V}

lemma decrRefCount_spec {a : Addr} (ho : h.lookup a = some o) (hpos : 0 < o.refcount) :
    ∃ h', decrRefCount h a = some h' ∧ ∀ b, b ≠ a → h'.lookup b = h.lookup b := by
  unfold decrRefCount
  simp only [ho, bind_eq_bind, bind_some]
  split_ifs with h1 h2 h3
  · exact ⟨h, rfl, fun _ _ => rfl⟩
  · omega
  · exact ⟨_, rfl, fun b hb => lookup_erase_ne hb⟩
  · exact ⟨_, rfl, fun b hb => lookup_insert_of_ne _ hb⟩

/-- A reference that was added is dropped again without a trace. -/
lemma decrRefCount_retained {a : Addr} (ho : o.Retainable)
    (hh : h.lookup a = some { o with refcount := o.refcount + 1 }) :
    decrRefCount h a = some (h.insert a o) := by
  have hpos := ho.refcount_pos
  have hlt := ho.refcount_lt
  have hspecial : objFirstSpecialRefcount < objSharedRefcount := by decide
  unfold decrRefCount
  simp only [hh, bind_eq_bind, bind_some]
  rw [if_neg (by omega), if_neg (by omega), if_neg (by omega)]
  rfl

/-- The object that `kvobjSet` builds stores the value under the key, without a TTL. -/
lemma kvobjOf_spec (cfg : KeyspaceConfig V) (key : Bytes) {v : RedisObject V}
    (hv : v.Sharable) (ptr : V) (expireBit : Bool) :
    ∃ kv, kvobjOf cfg key v ptr expireBit = some kv ∧ kv.Stores key ⟨v.type, ptr, none⟩ ∧
      kv.Retainable ∧ (expireBit → kv.expire ≠ none) := by
  have hone : 1 + 2 < objFirstSpecialRefcount := by decide
  have hcreate :
      ∀ type, ttlOfExpire (kvobjGetExpire (kvobjCreate type key ptr expireBit)) = none := by
    intro type
    unfold kvobjGetExpire kvobjCreate
    dsimp only
    split_ifs <;> rfl
  unfold kvobjOf
  split_ifs with hemb hsize hcopy
  · refine ⟨_, rfl, ⟨rfl, hemb.1.symm, rfl, ?_, Nat.one_pos⟩, ⟨⟨Nat.one_pos, .inl rfl⟩, hone⟩, ?_⟩
    · cases expireBit <;> rfl
    · rintro rfl
      simp [kvobjCreateEmbedString]
  · refine ⟨_, rfl, ⟨rfl, hemb.1.symm, rfl, hcreate _, Nat.one_pos⟩,
      ⟨⟨Nat.one_pos, .inl rfl⟩, hone⟩, ?_⟩
    rintro rfl
    simp [kvobjCreate]
  · refine ⟨_, rfl, ⟨rfl, rfl, rfl, hcreate v.type, Nat.one_pos⟩,
      ⟨⟨Nat.one_pos, .inl rfl⟩, hone⟩, ?_⟩
    rintro rfl
    simp [kvobjCreate]
  · exfalso
    rcases hv.copyable with hone | ⟨hstr, hint | hraw | hemb'⟩
    · exact hcopy (.inl hone)
    · exact hcopy (.inr ⟨hstr, .inl hint⟩)
    · exact hcopy (.inr ⟨hstr, .inr hraw⟩)
    · exact hemb ⟨hstr, hemb'⟩

/-- `kvobjSet` allocates one object that stores the value, and changes no other object than the one
it took the value from. -/
lemma kvobjSet_spec (cfg : KeyspaceConfig V) (key : Bytes) {val : Addr} {v : RedisObject V}
    {ptr : V} (hval : h.lookup val = some v) (hv : v.Sharable) (hptr : v.ptr = some ptr)
    (expireBit : Bool) :
    ∃ a h' kv, kvobjSet cfg h key val expireBit = some (a, h') ∧ a ∉ h ∧
      h'.lookup a = some kv ∧ kv.Stores key ⟨v.type, ptr, none⟩ ∧ kv.Retainable ∧
      (expireBit → kv.expire ≠ none) ∧ ∀ b, b ≠ val → b ≠ a → h'.lookup b = h.lookup b := by
  obtain ⟨kv, hkv, hstores, hretain, hbit⟩ := kvobjOf_spec cfg key hv ptr expireBit
  set h1 := if ¬ (v.type = .string ∧ v.encoding = .embstr) ∧ v.refcount = 1
    then h.insert val { v with ptr := none } else h with hh1
  -- taking the value leaves the other objects and the set of addresses alone
  have hother : ∀ b, b ≠ val → h1.lookup b = h.lookup b := by
    intro b hb
    rw [hh1]
    split_ifs
    · exact lookup_insert_of_ne _ hb
    · rfl
  obtain ⟨v1, hv1, hv₁pos⟩ : ∃ v1, h1.lookup val = some v1 ∧ 0 < v1.refcount := by
    rw [hh1]
    split_ifs
    · exact ⟨_, lookup_insert _, hv.refcount_pos⟩
    · exact ⟨v, hval, hv.refcount_pos⟩
  have hfresh1 : h1.lookup (cfg.malloc h1) = none :=
    lookup_eq_none.mpr (cfg.malloc_notMem h1)
  have hne : cfg.malloc h1 ≠ val := by
    rintro heq
    rw [heq, hv1] at hfresh1
    exact some_ne_none _ hfresh1
  have hval2 : (h1.insert (cfg.malloc h1) kv).lookup val = some v1 := by
    rw [lookup_insert_of_ne _ hne.symm, hv1]
  obtain ⟨h', hdecr, hframe⟩ := decrRefCount_spec hval2 hv₁pos
  refine ⟨cfg.malloc h1, h', kv, ?_, ?_, ?_, hstores, hretain, hbit, ?_⟩
  · unfold kvobjSet
    simp only [hval, hptr, hkv, bind_eq_bind, bind_some]
    rw [hdecr]
    rfl
  · rw [← lookup_eq_none, ← hother _ hne, hfresh1]
  · rw [hframe _ hne, lookup_insert]
  · intro b hb hba
    rw [hframe b hb, lookup_insert_of_ne _ hba, hother b hb]

/-- An object of an entry becomes one of the entry with another TTL when its slot is written. -/
lemma RedisObject.Stores.setExpire {key : Bytes} {e : KeyEntry V} (h : o.Stores key e)
    (expire : ℤ) :
    RedisObject.Stores { o with expire := some expire } key
      { e with ttl := ttlOfExpire expire } :=
  ⟨h.key_eq, h.type_eq, h.ptr_eq, rfl, h.refcount_pos⟩

/-- `kvobjSetExpire` leaves an object with the same key and value and the new time, either at the
same address or at a new one; it stays in place if the object has a slot. -/
lemma kvobjSetExpire_spec (cfg : KeyspaceConfig V) {a : Addr} {key : Bytes} {e : KeyEntry V}
    (ho : h.lookup a = some o) (hstores : o.Stores key e) (hretain : o.Retainable) (expire : ℤ) :
    ∃ a' h' o', kvobjSetExpire cfg h a expire = some (a', h') ∧ (a' = a ∨ a' ∉ h) ∧
      h'.lookup a' = some o' ∧ o'.Stores key { e with ttl := ttlOfExpire expire } ∧
      o'.Retainable ∧ (o.expire ≠ none → a' = a) ∧
      ∀ b, b ≠ a → b ≠ a' → h'.lookup b = h.lookup b := by
  unfold kvobjSetExpire
  simp only [ho, bind_eq_bind, bind_some]
  split_ifs with hslot hminus
  · refine ⟨a, h, o, rfl, .inl rfl, ho, ?_, hretain, fun _ => rfl, fun _ _ _ => rfl⟩
    refine ⟨hstores.key_eq, hstores.type_eq, hstores.ptr_eq, ?_, hstores.refcount_pos⟩
    rw [kvobjGetExpire, hslot, getD_none, hminus]
  · obtain ⟨a', h1, kv, hset, hfresh, hkv, hkvs, hkvr, -, hframe⟩ :=
      kvobjSet_spec cfg key ho hretain.toSharable hstores.ptr_eq true
    refine ⟨a', h1.insert a' { kv with expire := some expire }, { kv with expire := some expire },
      ?_, .inr hfresh, lookup_insert _, ?_, ?_, fun hne => absurd hslot hne, ?_⟩
    · simp [hstores.key_eq, hset, hkv]
    · refine ⟨hkvs.key_eq, hkvs.type_eq.trans hstores.type_eq, hkvs.ptr_eq, rfl, hkvs.refcount_pos⟩
    · exact ⟨⟨hkvr.refcount_pos, hkvr.copyable⟩, hkvr.refcount_lt⟩
    · intro b hb hba
      rw [lookup_insert_of_ne _ hba, hframe b hb hba]
  · exact ⟨a, _, { o with expire := some expire }, rfl, .inl rfl, lookup_insert _,
      hstores.setExpire expire, ⟨⟨hretain.refcount_pos, hretain.copyable⟩, hretain.refcount_lt⟩,
      fun _ => rfl, fun b hb _ => lookup_insert_of_ne _ hb⟩

end RainCall
