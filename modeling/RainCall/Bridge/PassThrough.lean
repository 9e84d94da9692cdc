import RainCall.Bridge.Agreement

/-!
# Passing a reply through a script

A script that returns the result of `RAIN.CALL` unchanged makes `RAIN.FALL` reply with what is left
of the inner reply in a Lua table. A null becomes `nil`, which a table does not store, and the
length operator then returns any border of the table, so the reply has the shape of the inner one
exactly when no array has a null element.
-/

namespace RainCall

open List LuaTable RespTree

variable {strtod : Bytes → BitVec 64} {d2s : BitVec 64 → Bytes} {resp3 : Bool}

/-! ### The length of a table -/

/-- A length operator: on every table it returns a border. -/
structure LuaLength where
  len : LuaTable → ℕ
  /-- The element at the border is there. -/
  last : ∀ t : LuaTable, len t = 0 ∨ t.get (.int (len t)) ≠ .nil
  /-- The element behind the border is not. -/
  next : ∀ t : LuaTable, t.get (.int (len t + 1)) = .nil

/-! ### The reply of `RAIN.FALL` -/

def addReplyNull (resp3 : Bool) : RespLeaf := if resp3 then .null else .nullBulk

/-- `rainFallReplyFromLua` and `rainFallReplyTable`, for values nested at most `fuel` deep; `d2s` is
the text of a double. -/
def rainFallReplyFromLua (d2s : BitVec 64 → Bytes) (resp3 : Bool) (L : LuaLength) :
    ℕ → LuaValue → Option RespTree
  | 0, _ => none
  | fuel + 1, v =>
    match v with
    | .nil => some (.leaf (addReplyNull resp3))
    | .boolean b => some (.leaf (if resp3 then .bool b else .integer (if b then 1 else 0)))
    | .integer n => some (.leaf (.integer n))
    | .number d => some (.leaf (if resp3 then .double (d2s d) else .bulkString (d2s d)))
    | .string s => some (.leaf (.bulkString s))
    | .table t => do
      let children ← (List.range (L.len t)).mapM fun i =>
        rainFallReplyFromLua d2s resp3 L fuel (LuaTable.get t (.int (i + 1)))
      pure (.node .array children)

/-- `RAIN.FALL "return RAIN.CALL(...)"` when the inner command has written the bytes `proto`: the
reply or the text of the error the script raises. A value is nested less deep than its reply has
bytes. -/
def rainFallPassThrough (strtod : Bytes → BitVec 64) (d2s : BitVec 64 → Bytes)
    (resp3 : Bool) (L : LuaLength) (proto : Bytes) :
    Option (Except Bytes RespTree) := do
  let reply ← raincallInprocessReply strtod proto
  match raincallPushReply reply with
  | .error e => some (.error e)
  | .ok v => (rainFallReplyFromLua d2s resp3 L (proto.length + 1) v).map .ok

/-! ### Trees of strings, integers, nulls and arrays -/

/-- The leaf is a null. -/
def RespLeaf.isNull : RespLeaf → Bool
  | .nullBulk => true
  | .nullArray => true
  | .null => true
  | _ => false

/-- The tree is a null. -/
def RespTree.isNull : RespTree → Bool
  | .leaf l => l.isNull
  | _ => false

/-- A tree of bulk strings, integers, nulls and arrays. -/
inductive RespTree.Plain : RespTree → Prop
  | bulkString (text : Bytes) : Plain (.leaf (.bulkString text))
  | integer {n : ℤ} (hge : -(2 ^ 63) ≤ n) (hlt : n < 2 ^ 63) : Plain (.leaf (.integer n))
  | null {l : RespLeaf} (hl : l.isNull = true) : Plain (.leaf l)
  | array {children : List RespTree} (h : ∀ c ∈ children, Plain c) : Plain (.node .array children)

/-- No array of the tree has a null element. -/
inductive RespTree.NoNullElement : RespTree → Prop
  | leaf (l : RespLeaf) : NoNullElement (.leaf l)
  | node (kind : RespKind) {children : List RespTree}
    (hnull : ∀ c ∈ children, c.isNull = false) (h : ∀ c ∈ children, NoNullElement c) :
    NoNullElement (.node kind children)

mutual

/-- The tree with every null written as the given leaf. -/
def RespTree.withNull (l₀ : RespLeaf) : RespTree → RespTree
  | .leaf l => .leaf (if l.isNull then l₀ else l)
  | .node kind children => .node kind (RespTree.withNullAll l₀ children)
  | .attributed attrs t => .attributed attrs (RespTree.withNull l₀ t)

/-- The trees with every null written as the given leaf. -/
def RespTree.withNullAll (l₀ : RespLeaf) : List RespTree → List RespTree
  | [] => []
  | t :: rest => RespTree.withNull l₀ t :: RespTree.withNullAll l₀ rest

end

lemma RespTree.withNullAll_eq_map (l0 : RespLeaf) (l : List RespTree) :
    withNullAll l0 l = l.map (withNull l0) := by
  induction l with
  | nil => rfl
  | cons t l ih => rw [withNullAll, ih, map_cons]

namespace RespTree.Plain

variable {t : RespTree}

lemma wf (h : t.Plain) : t.WF := by
  induction h with
  | bulkString text => exact .leaf trivial
  | integer hge hlt => exact .leaf ⟨hge, hlt⟩
  | @null l hl =>
    cases l with
    | nullBulk | nullArray | null => exact .leaf trivial
    | _ => exact absurd hl (by simp [RespLeaf.isNull])
  | array _ ih => exact .node (one_dvd _) ih

lemma noAttribute (h : t.Plain) : t.NoAttribute := by
  induction h with
  | array _ ih => exact .node _ ih
  | _ => exact .leaf _

lemma nulFree (h : t.Plain) : t.NulFree := by
  induction h with
  | bulkString text | integer => exact .leaf (nul_notMem_signedDecimal _)
  | @null l hl =>
    cases l with
    | nullBulk => exact .leaf (nul_notMem_signedDecimal _)
    | nullArray => exact .leaf (nul_notMem_signedDecimal _)
    | null => exact .leaf not_mem_nil
    | _ => exact absurd hl (by simp [RespLeaf.isNull])
  | array _ ih => exact .node _ ih

lemma doublesFit (h : t.Plain) : t.DoublesFit := by
  induction h with
  | bulkString text | integer => exact .leaf trivial
  | @null l hl =>
    cases l with
    | nullBulk => exact .leaf trivial
    | nullArray => exact .leaf trivial
    | null => exact .leaf trivial
    | _ => exact absurd hl (by simp [RespLeaf.isNull])
  | array _ ih => exact .node _ ih

end RespTree.Plain

/-! ### Tables -/

lemma LuaTable.get_nil (k : LuaKey) : get [] k = .nil := rfl

lemma LuaTable.get_filter (t : LuaTable) (k k' : LuaKey) :
    get (t.filter fun e => e.1 ≠ k) k' = if k' = k then .nil else t.get k' := by
  induction t with
  | nil => rw [filter_nil, get_nil, ite_self]
  | cons e t ih =>
    by_cases he : e.1 = k
    · rw [filter_cons_of_neg (by simp [he]), ih]
      split_ifs with hk
      · rfl
      · rw [get, get, find?_cons_of_neg (by simp [he, Ne.symm hk])]
    · rw [filter_cons_of_pos (by simp [he])]
      by_cases hk' : e.1 = k'
      · have hne : k' ≠ k := fun h => he (hk'.trans h)
        rw [if_neg hne, get, get, find?_cons_of_pos (by simp [hk']),
          find?_cons_of_pos (by simp [hk'])]
      · have hskip : ∀ l : LuaTable, get (e :: l) k' = l.get k' := by
          intro l
          rw [get, get, find?_cons_of_neg (by simp [hk'])]
        rw [hskip, hskip, ih]

lemma LuaTable.get_set (t : LuaTable) (k k' : LuaKey) (v : LuaValue) :
    (t.set k v).get k' = if k' = k then v else t.get k' := by
  have hcons : get ((k, v) :: t.filter fun e => e.1 ≠ k) k' =
      if k' = k then v else t.get k' := by
    by_cases hk : k' = k
    · rw [if_pos hk, get, find?_cons_of_pos (by simp [hk])]
      rfl
    · rw [if_neg hk, get, find?_cons_of_neg (by simp [Ne.symm hk])]
      have h := get_filter t k k'
      rwa [if_neg hk] at h
  cases v with
  | nil => exact get_filter t k k'
  | _ => exact hcons

variable {t : LuaTable}

/-- A length operator is determined on a table with `vs` at the positions from 1 on and none of them
`nil`. -/
lemma LuaLength.len_eq (L : LuaLength) {vs : List LuaValue}
    (hget : ∀ j, t.get (.int (j + 1)) = vs.getD j .nil) (hnil : ∀ v ∈ vs, v ≠ .nil) :
    L.len t = vs.length := by
  have hlast := L.last t
  have hnext := L.next t
  rw [hget] at hnext
  apply le_antisymm
  · by_contra hlt
    obtain ⟨j, hj⟩ : ∃ j, L.len t = j + 1 := ⟨L.len t - 1, by omega⟩
    rw [hj, hget, getD_eq_default _ _ (by omega)] at hlast
    exact hlast.elim (Nat.succ_ne_zero j) fun h => h rfl
  · by_contra hlt
    rw [getD_eq_getElem _ _ (by omega)] at hnext
    exact hnil _ (getElem_mem _) hnext

/-- The value is `nil`. -/
def LuaValue.isNil : LuaValue → Bool
  | .nil => true
  | _ => false

lemma LuaValue.isNil_iff {v : LuaValue} : v.isNil = true ↔ v = .nil := by
  cases v <;> simp [LuaValue.isNil]

/-- Some position behind 0 of a table is empty. -/
lemma LuaTable.exists_isNil (t : LuaTable) : ∃ n, (t.get (.int (n + 1))).isNil = true := by
  have hbound : ∃ N, ∀ n ≥ N, t.get (.int n) = .nil := by
    induction t with
    | nil => exact ⟨0, fun n _ => rfl⟩
    | cons e t ih =>
      obtain ⟨N, hN⟩ := ih
      obtain ⟨M, hM⟩ : ∃ M, ∀ n ≥ M, e.1 ≠ .int n := by
        cases e.1 with
        | int i => exact ⟨i + 1, fun n hn h => absurd (LuaKey.int.inj h) (by omega)⟩
        | str s => exact ⟨0, fun n _ h => LuaKey.noConfusion h⟩
      refine ⟨max N M, fun n hn => ?_⟩
      rw [get, find?_cons_of_neg (by simpa using hM n (le_of_max_le_right hn))]
      exact hN n (le_of_max_le_left hn)
  obtain ⟨N, hN⟩ := hbound
  exact ⟨N, LuaValue.isNil_iff.mpr (hN _ (Nat.le_succ N))⟩

/-- The length operator that returns the least border. -/
def LuaLength.least : LuaLength where
  len t := Nat.find t.exists_isNil
  last t := by
    by_cases h : Nat.find t.exists_isNil = 0
    · exact .inl h
    · obtain ⟨j, hj⟩ := Nat.exists_eq_succ_of_ne_zero h
      have hmin := Nat.find_min t.exists_isNil (show j < Nat.find t.exists_isNil by omega)
      rw [LuaValue.isNil_iff] at hmin
      rw [hj]
      exact .inr hmin
  next t := LuaValue.isNil_iff.mp (Nat.find_spec t.exists_isNil)

lemma LuaLength.least_len_le {j : ℕ} (h : t.get (.int (j + 1)) = .nil) :
    LuaLength.least.len t ≤ j :=
  Nat.find_min' t.exists_isNil (LuaValue.isNil_iff.mpr h)

variable {v : RespTree → LuaValue} {children : List RespTree}

lemma RespTree.luaElements_eq
    (h : ∀ c ∈ children, c.lua strtod = .ok (v c)) (i : ℕ) (t : LuaTable) :
    ∃ t', luaElements strtod children i t = .ok t' ∧ ∀ j,
      t'.get (.int j) = if i ≤ j ∧ j < i + children.length then (children.map v).getD (j - i) .nil
        else t.get (.int j) := by
  induction children generalizing i t with
  | nil => exact ⟨t, rfl, fun j => by rw [if_neg (by simp)]⟩
  | cons c children ih =>
    obtain ⟨t', ht', hget⟩ := ih (fun c' hc' => h c' (mem_cons_of_mem _ hc')) (i + 1)
      (t.set (.int i) (v c))
    refine ⟨t', ?_, fun j => ?_⟩
    · rw [luaElements, h c mem_cons_self]
      exact ht'
    · rw [hget, get_set, length_cons]
      simp only [LuaKey.int.injEq]
      rcases lt_trichotomy j i with hj | rfl | hj
      · rw [if_neg (by omega), if_neg (by omega), if_neg (by omega)]
      · rw [if_neg (by omega), if_pos rfl, if_pos (by omega), Nat.sub_self]
        rfl
      · obtain ⟨k, rfl⟩ : ∃ k, j = i + 1 + k := ⟨j - (i + 1), by omega⟩
        rw [if_neg (show i + 1 + k ≠ i by omega), map_cons,
          show i + 1 + k - i = k + 1 by omega, show i + 1 + k - (i + 1) = k by omega,
          getD_cons_succ]
        by_cases hk : k < children.length
        · rw [if_pos (by omega), if_pos (by omega)]
        · rw [if_neg (by omega), if_neg (by omega)]

/-! ### The reply to a table -/

section Table

variable {L : LuaLength} {vs : List LuaValue} {fuel : ℕ}

lemma rainFallReplyFromLua_table (hget : ∀ j, t.get (.int (j + 1)) = vs.getD j .nil)
    (r : List RespTree) :
    rainFallReplyFromLua d2s resp3 L (fuel + 1) (.table t) = some (.node .array r) ↔
      (range (L.len t)).map
        (fun i => rainFallReplyFromLua d2s resp3 L fuel (vs.getD i .nil)) = r.map some := by
  simp only [rainFallReplyFromLua, hget, ← mapM_eq_some_iff]
  cases (range (L.len t)).mapM
    fun i => rainFallReplyFromLua d2s resp3 L fuel (vs.getD i .nil) <;> simp

/-- When the length of the table is the number of values, the reply is made of theirs. -/
lemma rainFallReplyFromLua_table_of_len (hget : ∀ j, t.get (.int (j + 1)) = vs.getD j .nil)
    (hlen : L.len t = vs.length) (r : List RespTree) :
    rainFallReplyFromLua d2s resp3 L (fuel + 1) (.table t) = some (.node .array r) ↔
      vs.map (rainFallReplyFromLua d2s resp3 L fuel) = r.map some := by
  have hmap : (range vs.length).map
      (fun i => rainFallReplyFromLua d2s resp3 L fuel (vs.getD i .nil)) =
      vs.map (rainFallReplyFromLua d2s resp3 L fuel) := by
    refine ext_getElem (by simp) fun i hi hi' => ?_
    rw [getElem_map, getElem_map, getElem_range, getD_eq_getElem]
  rw [rainFallReplyFromLua_table hget, hlen, hmap]

end Table

/-! ### Passing a tree through -/

/-- `RAIN.FALL` replies to the value `v` with the tree `t` under every length operator when no array
of `t` has a null element, and under the operator for the least border only then. -/
def RepliesWith (d2s : BitVec 64 → Bytes) (resp3 : Bool) (v : LuaValue) (t : RespTree) : Prop :=
  ∀ fuel ≥ t.encode.length,
    (t.NoNullElement → ∀ L, rainFallReplyFromLua d2s resp3 L fuel v =
      some (t.withNull (addReplyNull resp3))) ∧
    (rainFallReplyFromLua d2s resp3 .least fuel v = some (t.withNull (addReplyNull resp3)) →
      t.NoNullElement)

lemma repliesWith_leaf {v : LuaValue} {l : RespLeaf}
    (h : ∀ fuel L, rainFallReplyFromLua d2s resp3 L (fuel + 1) v =
      some (.leaf (if l.isNull then addReplyNull resp3 else l))) :
    RepliesWith d2s resp3 v (.leaf l) := by
  intro fuel hfuel
  obtain ⟨f, rfl⟩ : ∃ f, fuel = f + 1 :=
    ⟨fuel - 1, by have := (leaf l).length_encode_pos; omega⟩
  exact ⟨fun _ L => h f L, fun _ => .leaf l⟩

/-- An array, from its children. -/
lemma repliesWith_array (hget : ∀ j, t.get (.int (j + 1)) = (children.map v).getD j .nil)
    (hnil : ∀ c ∈ children, v c = .nil ↔ c.isNull = true)
    (hreply : ∀ c ∈ children, RepliesWith d2s resp3 (v c) c) :
    RepliesWith d2s resp3 (.table t) (.node .array children) := by
  intro fuel hfuel
  rw [encode, length_append, length_respHeader] at hfuel
  obtain ⟨f, rfl⟩ : ∃ f, fuel = f + 1 := ⟨fuel - 1, by omega⟩
  have hfuel' : ∀ c ∈ children, f ≥ c.encode.length := by
    intro c hc
    have := length_encode_le_encodeAll hc
    omega
  have hlen : ∀ L : LuaLength, (∀ c ∈ children, c.isNull = false) →
      L.len t = (children.map v).length := by
    intro L hnull
    refine L.len_eq hget fun w hw hwnil => ?_
    obtain ⟨c, hc, rfl⟩ := mem_map.mp hw
    rw [hnil c hc, hnull c hc] at hwnil
    exact Bool.false_ne_true hwnil
  rw [withNull, withNullAll_eq_map]
  constructor
  · intro hno L
    cases hno with
    | node _ hnull hrec =>
      rw [rainFallReplyFromLua_table_of_len hget (hlen L hnull), map_map, map_map]
      exact map_congr_left fun c hc => (hreply c hc f (hfuel' c hc)).1 (hrec c hc) L
  · intro heq
    -- the reply has as many elements as the tree, so the least border is behind every null
    have hcount := congrArg length ((rainFallReplyFromLua_table hget _).mp heq)
    rw [length_map, length_range, length_map, length_map] at hcount
    have hnull : ∀ c ∈ children, c.isNull = false := by
      intro c hc
      by_contra hne
      obtain ⟨j, hj, rfl⟩ := getElem_of_mem hc
      have hempty : t.get (.int (j + 1)) = .nil := by
        rw [hget, getD_eq_getElem _ _ (by simpa using hj), getElem_map]
        exact (hnil _ hc).mpr (by simpa using hne)
      have hle := LuaLength.least_len_le hempty
      omega
    refine .node _ hnull fun c hc => ?_
    rw [rainFallReplyFromLua_table_of_len hget (hlen _ hnull), map_map, map_map] at heq
    exact (hreply c hc f (hfuel' c hc)).2 (map_inj_left.mp heq c hc)

lemma RespLeaf.eq_null_of_isNull {l : RespLeaf} (h : l.isNull = true) :
    l = .nullBulk ∨ l = .nullArray ∨ l = .null := by
  cases l <;> simp_all [RespLeaf.isNull]

/-- The Lua value of a plain tree and the reply made of it. -/
lemma RespTree.Plain.exists_repliesWith {t : RespTree} (h : t.Plain) :
    ∃ v, t.lua strtod = .ok v ∧ (v = .nil ↔ t.isNull = true) ∧ RepliesWith d2s resp3 v t := by
  induction h with
  | bulkString text =>
    exact ⟨.string text, rfl, by simp [isNull, RespLeaf.isNull],
      repliesWith_leaf fun _ _ => rfl⟩
  | @integer n =>
    exact ⟨.integer n, rfl, by simp [isNull, RespLeaf.isNull],
      repliesWith_leaf fun _ _ => rfl⟩
  | @null l hl =>
    refine ⟨.nil, ?_, by simpa [isNull] using hl, repliesWith_leaf fun _ _ => ?_⟩
    · rcases RespLeaf.eq_null_of_isNull hl with rfl | rfl | rfl <;> rfl
    · rw [if_pos hl, rainFallReplyFromLua]
  | @array children _ ih =>
    have : Nonempty LuaValue := ⟨.nil⟩
    choose! v hlua hnil hreply using ih
    obtain ⟨t, ht, hget⟩ := luaElements_eq hlua 1 []
    refine ⟨.table t, ?_, by simp [isNull], repliesWith_array (fun j => ?_) hnil hreply⟩
    · rw [lua, ht]
      · rfl
      · exact RespKind.noConfusion
    · rw [hget]
      split_ifs with hj
      · rfl
      · rw [getD_eq_default _ _ (by rw [length_map]; omega)]
        rfl

/-- **Passing a reply through.**  For every reply tree of bulk strings, integers, nulls and arrays,
`RAIN.FALL` replies to `return RAIN.CALL(...)` with the same tree, whichever border the length
operator returns, if and only if no array of the tree has a null element. -/
theorem rainFallPassThrough_iff (strtod : Bytes → BitVec 64) (d2s : BitVec 64 → Bytes)
    (resp3 : Bool) (t : RespTree) (h : t.Plain) (hlen : t.encode.length < 2 ^ 63) :
    (∀ L, rainFallPassThrough strtod d2s resp3 L t.encode =
      some (.ok (t.withNull (addReplyNull resp3)))) ↔ t.NoNullElement := by
  obtain ⟨v, hlua, -, hreply⟩ := @RespTree.Plain.exists_repliesWith strtod d2s resp3 t h
  have hpass : ∀ L, rainFallPassThrough strtod d2s resp3 L t.encode =
      (rainFallReplyFromLua d2s resp3 L (t.encode.length + 1) v).map .ok := by
    intro L
    rw [rainFallPassThrough, raincallInprocessReply_encode h.wf h.noAttribute h.nulFree hlen,
      Option.bind_eq_bind, Option.bind_some, push_raincall h.doublesFit, hlua]
  obtain ⟨hall, hleast⟩ := hreply (t.encode.length + 1) (Nat.le_succ _)
  constructor
  · intro hrun
    have hrun' := hrun .least
    rw [hpass, Option.map_eq_some_iff] at hrun'
    obtain ⟨r, hr, hok⟩ := hrun'
    exact hleast (hr.trans (congrArg some (Except.ok.inj hok)))
  · intro hno L
    rw [hpass, hall hno L, Option.map_some]

/-- An array with a nested array and no null in either. -/
theorem rainFallPassThrough_nested :
    rainFallPassThrough (fun _ => 0) (fun _ => []) false .least (RespTree.encode (.node .array
        [.leaf (.integer 1), .node .array [.leaf (.bulkString [97])]])) =
      some (.ok (.node .array [.leaf (.integer 1), .node .array [.leaf (.bulkString [97])]])) :=
  (rainFallPassThrough_iff (fun _ => 0) (fun _ => []) false
    (.node .array [.leaf (.integer 1), .node .array [.leaf (.bulkString [97])]])
    (.array (by
      simpa using ⟨.integer (by decide) (by decide), .array (by simpa using .bulkString _)⟩))
    (by decide +kernel)).mpr
    (.node _ (by simp [RespTree.isNull, RespLeaf.isNull])
      (by simpa using ⟨.leaf _, .node _ (by simp [RespTree.isNull, RespLeaf.isNull])
        (by simpa using .leaf _)⟩)) .least

/-- An array whose only element is a null comes back empty, whatever the length operator. -/
theorem rainFallPassThrough_null_element :
    RespTree.Plain (.node .array [.leaf .nullBulk]) ∧
      ∀ L, rainFallPassThrough (fun _ => 0) (fun _ => []) false L
        (RespTree.encode (.node .array [.leaf .nullBulk])) = some (.ok (.node .array [])) := by
  have hplain : RespTree.Plain (.node .array [.leaf .nullBulk]) :=
    .array (by simpa using .null rfl)
  refine ⟨hplain, fun L => ?_⟩
  rw [rainFallPassThrough, raincallInprocessReply_encode hplain.wf hplain.noAttribute
    hplain.nulFree (by decide +kernel)]
  have hlen : L.len [] = ([] : List LuaValue).length := L.len_eq (fun _ => rfl) (by simp)
  have hreply : rainFallReplyFromLua (fun _ => []) false L 10 (.table []) =
      some (.node .array []) :=
    (rainFallReplyFromLua_table_of_len (fun _ => rfl) hlen []).mpr rfl
  exact congrArg (Option.map Except.ok) hreply

end RainCall
