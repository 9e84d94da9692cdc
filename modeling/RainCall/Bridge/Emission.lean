import RainCall.Bridge.PassThrough

/-!
# Writing the result of a script

`rainFallReplyFromLua` writes the value on top of the Lua stack to the client and calls itself for
the elements of a table. Here a table is a reference, so that it may be shared or contain itself. A
value from which no endless chain of elements starts is written as one complete reply
(`rainFallReplyFromLua_complete`); for a table that contains itself the recursion has no end
(`rainFallReplyFromLua_cyclic`).
-/

namespace RainCall

open List

/-- The types of Lua values that no reply stands for. -/
inductive LuaOther where
  | lightuserdata
  | function
  | userdata
  | thread

/-- A value on the Lua stack. -/
inductive LuaRef where
  | nil
  | boolean (b : Bool)
  | integer (n : BitVec 64)
  | number (d : BitVec 64)
  | string (s : Bytes)
  | table (id : ℕ)
  | other (t : LuaOther)

/-- What the functions of the libraries return. -/
structure LuaLib where
  /-- `mq_len` and `mq_tointegerx` on a table; the length may be no integer. -/
  len : ℕ → Option ℤ
  /-- The value that `mq_geti` pushes. -/
  geti : ℕ → ℕ → LuaRef
  typename : LuaOther → Bytes
  d2s : BitVec 64 → Bytes
  typename_line : ∀ t, IsLine (typename t)
  d2s_line : ∀ d, IsLine (d2s d)

/-- The Lua stack, its top first, and the output of the client. -/
structure LuaState where
  stack : List LuaRef
  out : Bytes

def addReplyProto (st : LuaState) (bytes : Bytes) : LuaState :=
  { st with out := st.out ++ bytes }

/-- The bytes of a string literal. -/
def cBytes (s : String) : Bytes := s.toUTF8.data.toList

/-- `addReplyError` of a text without line breaks. -/
def addReplyError (text : Bytes) : RespLeaf := .error (cBytes "ERR " ++ text)

def mqGeti (L : LuaLib) (st : LuaState) (i : ℕ) : Option LuaState :=
  match st.stack with
  | .table id :: _ => some { st with stack := L.geti id i :: st.stack }
  | _ => none

/-- `mq_pop(L, 1)` -/
def mqPop (st : LuaState) : LuaState := { st with stack := st.stack.tail }

/-- `rainFallReplyTable`, for the table on top of the stack. -/
def rainFallReplyTable (L : LuaLib) (replyFromLua : LuaState → Option LuaState) (id : ℕ)
    (st : LuaState) : Option LuaState :=
  match L.len id with
  | none =>
    some (addReplyProto st
      (addReplyError (cBytes "RAIN.FALL: table return is not an array")).encode)
  | some len =>
    if len < 0 then
      some (addReplyProto st
        (addReplyError (cBytes "RAIN.FALL: table return is not an array")).encode)
    else
      (List.range len.toNat).foldlM
        (fun st i => do
          let st ← mqGeti L st (i + 1)
          let st ← replyFromLua st
          pure (mqPop st))
        (addReplyProto st (respHeader 42 len.toNat))

/-- `rainFallReplyFromLua`, with at most `fuel` nested calls. -/
def LuaLib.rainFallReplyFromLua (L : LuaLib) (resp3 : Bool) : ℕ → LuaState → Option LuaState
  | 0, _ => none
  | fuel + 1, st =>
    let reply (l : RespLeaf) := some (addReplyProto st l.encode)
    match st.stack with
    | [] => none
    | .nil :: _ => reply (addReplyNull resp3)
    | .boolean b :: _ => reply (if resp3 then .bool b else .integer (if b then 1 else 0))
    | .integer n :: _ => reply (.integer n.toInt)
    | .number d :: _ => reply (if resp3 then .double (L.d2s d) else .bulkString (L.d2s d))
    | .string s :: _ => reply (.bulkString s)
    | .table id :: _ => rainFallReplyTable L (L.rainFallReplyFromLua resp3 fuel) id st
    | .other t :: _ =>
      reply (addReplyError
        (cBytes "RAIN.FALL: unsupported Lua return type: " ++ L.typename t))

/-- `w` is an element of the table `v` that the reply visits. -/
def LuaLib.Element (L : LuaLib) (w v : LuaRef) : Prop :=
  ∃ id len, ∃ i : ℕ, v = .table id ∧ L.len id = some len ∧ i < len ∧ w = L.geti id (i + 1)

variable {L : LuaLib} {resp3 : Bool}

/-- With enough nested calls the value on top of the stack is written as the reply `t`. -/
def LuaLib.Writes (L : LuaLib) (resp3 : Bool) (v : LuaRef) (t : RespTree) (N : ℕ) : Prop :=
  ∀ fuel, N ≤ fuel → ∀ stack out, L.rainFallReplyFromLua resp3 fuel ⟨v :: stack, out⟩ =
    some ⟨v :: stack, out ++ t.encode⟩

/-- The loop over the elements of a table writes their replies one after the other. -/
lemma foldlM_elements {reply : LuaState → Option LuaState} {id : ℕ} {l : List ℕ}
    {ts : List RespTree}
    (h : Forall₂ (fun i t => ∀ stack out, reply ⟨L.geti id (i + 1) :: stack, out⟩ =
      some ⟨L.geti id (i + 1) :: stack, out ++ t.encode⟩) l ts) (stack : List LuaRef)
    (out : Bytes) :
    l.foldlM (fun st i => do
        let st ← mqGeti L st (i + 1)
        let st ← reply st
        pure (mqPop st)) ⟨.table id :: stack, out⟩ =
      some ⟨.table id :: stack, out ++ RespTree.encodeAll ts⟩ := by
  induction h generalizing out with
  | nil => simp [RespTree.encodeAll]
  | @cons i t l ts hi _ ih =>
    have hbody : mqGeti L ⟨.table id :: stack, out⟩ (i + 1) =
        some ⟨L.geti id (i + 1) :: .table id :: stack, out⟩ := rfl
    rw [foldlM_cons, hbody, RespTree.encodeAll, ← append_assoc, ← ih]
    simp only [hi, Option.bind_eq_bind, Option.bind_some]
    rfl

/-- A table is written as the array of the replies of its elements. -/
lemma LuaLib.writes_table {id len N : ℕ} {ts : List RespTree} (hlen : L.len id = some (len : ℤ))
    (h : Forall₂ (fun i t => L.Writes resp3 (L.geti id (i + 1)) t N) (List.range len) ts) :
    L.Writes resp3 (.table id) (.node .array ts) (N + 1) := by
  intro fuel hfuel stack out
  obtain ⟨fuel, rfl⟩ := Nat.exists_eq_add_of_le' (Nat.le_of_add_left_le hfuel)
  have hts : ts.length = len := by rw [← h.length_eq, length_range]
  simp only [LuaLib.rainFallReplyFromLua, rainFallReplyTable, hlen, Int.toNat_natCast,
    if_neg (not_lt.mpr (Int.natCast_nonneg len)), addReplyProto]
  rw [foldlM_elements (h.imp fun i t ht => ht fuel (by omega)), RespTree.encode, hts]
  simp [RespKind.tag, RespKind.perEntry]

lemma IsLine.append {a b : Bytes} (ha : IsLine a) (hb : IsLine b) : IsLine (a ++ b) :=
  ⟨by simp [ha.1, hb.1], by simp [ha.2, hb.2]⟩

lemma wf_addReplyError {text : Bytes} (h : IsLine text) : (addReplyError text).WF := by
  have hcode : IsLine (cBytes "ERR ") := by decide
  exact hcode.append h

lemma LuaLib.writes_leaf {v : LuaRef} {l : RespLeaf} (N : ℕ)
    (h : ∀ fuel stack out, L.rainFallReplyFromLua resp3 (fuel + 1) ⟨v :: stack, out⟩ =
      some ⟨v :: stack, out ++ l.encode⟩) : L.Writes resp3 v (.leaf l) (N + 1) := by
  intro fuel hfuel stack out
  obtain ⟨fuel, rfl⟩ := Nat.exists_eq_add_of_le' (Nat.le_of_add_left_le hfuel)
  rw [h, RespTree.encode]

lemma LuaLib.exists_writes_leaf {v : LuaRef} {l : RespLeaf} (hl : l.WF)
    (h : ∀ fuel stack out, L.rainFallReplyFromLua resp3 (fuel + 1) ⟨v :: stack, out⟩ =
      some ⟨v :: stack, out ++ l.encode⟩) :
    ∃ t : RespTree, t.WF ∧ ∃ N, L.Writes resp3 v t N :=
  ⟨.leaf l, .leaf hl, 1, L.writes_leaf 0 h⟩

/-- A value from which no endless chain of elements starts is written. -/
lemma LuaLib.exists_writes {v : LuaRef} (h : Acc L.Element v) :
    ∃ t : RespTree, t.WF ∧ ∃ N, L.Writes resp3 v t N := by
  induction h with
  | intro v _ ih =>
    cases v with
    | nil => exact L.exists_writes_leaf (by cases resp3 <;> trivial) fun _ _ _ => rfl
    | boolean b =>
      exact L.exists_writes_leaf (by cases resp3 <;> cases b <;> decide) fun _ _ _ => rfl
    | integer n =>
      refine L.exists_writes_leaf ?_ fun _ _ _ => rfl
      exact ⟨BitVec.le_toInt n, BitVec.toInt_lt⟩
    | number d =>
      refine L.exists_writes_leaf ?_ fun _ _ _ => rfl
      cases resp3
      · trivial
      · exact L.d2s_line d
    | string s =>
      refine L.exists_writes_leaf ?_ fun _ _ _ => rfl
      trivial
    | other t =>
      have htext : IsLine (cBytes "RAIN.FALL: unsupported Lua return type: ") := by decide
      exact L.exists_writes_leaf (wf_addReplyError (htext.append (L.typename_line t)))
        fun _ _ _ => rfl
    | table id =>
      have herror : (addReplyError (cBytes "RAIN.FALL: table return is not an array")).WF :=
        wf_addReplyError (by decide)
      cases hlen : L.len id with
      | none =>
        refine L.exists_writes_leaf herror fun fuel stack out => ?_
        simp only [LuaLib.rainFallReplyFromLua, rainFallReplyTable, hlen, addReplyProto]
      | some len =>
        by_cases hneg : len < 0
        · refine L.exists_writes_leaf herror fun fuel stack out => ?_
          simp only [LuaLib.rainFallReplyFromLua, rainFallReplyTable, hlen, if_pos hneg,
            addReplyProto]
        · have helem : ∀ i : ℕ, ∃ (t : RespTree) (N : ℕ), i < len.toNat →
              t.WF ∧ L.Writes resp3 (L.geti id (i + 1)) t N := by
            intro i
            by_cases hi : i < len.toNat
            · obtain ⟨t, ht, N, hN⟩ := ih _ ⟨id, len, i, rfl, hlen, by omega, rfl⟩
              exact ⟨t, N, fun _ => ⟨ht, hN⟩⟩
            · exact ⟨.leaf .null, 0, fun h => absurd h hi⟩
          choose t N ht using helem
          refine ⟨.node .array ((List.range len.toNat).map t), .node (one_dvd _) ?_,
            (Finset.range len.toNat).sup N + 1, L.writes_table (?_ : _ = some (len.toNat : ℤ)) ?_⟩
          · intro c hc
            obtain ⟨i, hi, rfl⟩ := mem_map.mp hc
            exact (ht i (mem_range.mp hi)).1
          · rw [hlen, Int.toNat_of_nonneg (not_lt.mp hneg)]
          · refine forall₂_map_right_iff.mpr (forall₂_same.mpr fun i hi fuel hfuel => ?_)
            have hi := mem_range.mp hi
            exact (ht i hi).2 fuel ((Finset.le_sup (Finset.mem_range.mpr hi)).trans hfuel)

/-- A loop over the elements of a table that ends has written every element. -/
lemma foldlM_elements_returns {reply : LuaState → Option LuaState} {id : ℕ} {stack : List LuaRef}
    {Q : LuaRef → Prop} (hreply : ∀ v stack out st', reply ⟨v :: stack, out⟩ = some st' →
      st'.stack = v :: stack ∧ Q v) {l : List ℕ} {st st' : LuaState}
    (hst : st.stack = .table id :: stack)
    (h : l.foldlM (fun st i => do
        let st ← mqGeti L st (i + 1)
        let st ← reply st
        pure (mqPop st)) st = some st') :
    st'.stack = .table id :: stack ∧ ∀ i ∈ l, Q (L.geti id (i + 1)) := by
  induction l generalizing st with
  | nil =>
    obtain rfl := Option.some.inj h
    exact ⟨hst, by simp⟩
  | cons i l ih =>
    obtain ⟨stack', out⟩ := st
    subst hst
    obtain ⟨st₂, hbody, hrest⟩ := Option.bind_eq_some_iff.mp h
    obtain ⟨st₀, hpush, hbody⟩ := Option.bind_eq_some_iff.mp hbody
    obtain ⟨st₁, hcall, hpop⟩ := Option.bind_eq_some_iff.mp hbody
    obtain rfl := Option.some.inj hpush
    obtain ⟨hstack, hq⟩ := hreply _ _ _ _ hcall
    obtain rfl := Option.some.inj hpop
    obtain ⟨hend, hall⟩ := ih (by rw [mqPop, hstack]; rfl) hrest
    exact ⟨hend, forall_mem_cons.mpr ⟨hq, hall⟩⟩

/-- A call that returns has left the stack as it was, and no endless chain starts at its value. -/
lemma LuaLib.acc_of_returns {fuel : ℕ} {v : LuaRef} {stack : List LuaRef} {out : Bytes}
    {st' : LuaState} (h : L.rainFallReplyFromLua resp3 fuel ⟨v :: stack, out⟩ = some st') :
    st'.stack = v :: stack ∧ Acc L.Element v := by
  induction fuel generalizing v stack out st' with
  | zero => cases h
  | succ fuel ih =>
    cases v with
    | table id =>
      simp only [LuaLib.rainFallReplyFromLua, rainFallReplyTable] at h
      have hacc : ∀ (len : ℤ), L.len id = some len →
          (∀ i ∈ range len.toNat, Acc L.Element (L.geti id (i + 1))) →
          Acc L.Element (.table id) := by
        refine fun len hlen hall => .intro _ ?_
        rintro w ⟨id', len', i, ⟨⟩, hlen', hi, rfl⟩
        obtain rfl := Option.some.inj (hlen.symm.trans hlen')
        exact hall i (mem_range.mpr (by omega))
      cases hlen : L.len id with
      | none =>
        rw [hlen] at h
        obtain rfl := Option.some.inj h
        refine ⟨rfl, .intro _ ?_⟩
        rintro w ⟨id', len', i, ⟨⟩, hlen', -⟩
        cases hlen.symm.trans hlen'
      | some len =>
        simp only [hlen] at h
        split_ifs at h with hneg
        · obtain rfl := Option.some.inj h
          exact ⟨rfl, hacc len hlen (by simp [Int.toNat_of_nonpos hneg.le])⟩
        · obtain ⟨hstack, hall⟩ := foldlM_elements_returns (fun _ _ _ _ => ih) rfl h
          exact ⟨hstack, hacc len hlen hall⟩
    | _ =>
      obtain rfl := Option.some.inj h
      refine ⟨rfl, .intro _ ?_⟩
      rintro w ⟨id, len, i, hv, -⟩
      cases hv

/-- The recursion ends, leaves the stack as it was and writes one complete reply, exactly for the
values from which no endless chain of elements starts. -/
theorem rainFallReplyFromLua_complete {v : LuaRef} :
    (∃ t : RespTree, t.WF ∧ ∃ N, L.Writes resp3 v t N) ↔ Acc L.Element v := by
  refine ⟨?_, L.exists_writes⟩
  rintro ⟨t, -, N, hwrites⟩
  exact (L.acc_of_returns (hwrites N le_rfl [] [])).2

/-! ### Values without references -/

/-- The reference stands for the value: its tables have the lengths and the elements of those of the
value. -/
inductive LuaLib.Denotes (L : LuaLib) (length : LuaLength) : LuaRef → LuaValue → Prop
  | nil : Denotes L length .nil .nil
  | boolean (b : Bool) : Denotes L length (.boolean b) (.boolean b)
  | integer (n : BitVec 64) : Denotes L length (.integer n) (.integer n.toInt)
  | number (d : BitVec 64) : Denotes L length (.number d) (.number d)
  | string (s : Bytes) : Denotes L length (.string s) (.string s)
  | table {id : ℕ} {t : LuaTable} (hlen : L.len id = some (length.len t))
    (h : ∀ i < length.len t, Denotes L length (L.geti id (i + 1)) (t.get (.int (i + 1)))) :
    Denotes L length (.table id) (.table t)

lemma forall₂_of_mapM {α β : Type*} {f : α → Option β} {l : List α} {r : List β}
    (h : l.mapM f = some r) : Forall₂ (fun a b => f a = some b) l r := by
  induction l generalizing r with
  | nil =>
    obtain rfl := Option.some.inj h
    exact .nil
  | cons a l ih =>
    rw [mapM_cons] at h
    obtain ⟨b, hb, h⟩ := Option.bind_eq_some_iff.mp h
    obtain ⟨r', hr', h⟩ := Option.bind_eq_some_iff.mp h
    obtain rfl := Option.some.inj h
    exact .cons hb (ih hr')

/-- The reply that the function on values computes is the one written for a reference to the value.
-/
theorem LuaLib.Denotes.writes {length : LuaLength} {w : LuaRef} {v : LuaValue} {fuel : ℕ}
    {t : RespTree} (h : L.Denotes length w v)
    (hreply : RainCall.rainFallReplyFromLua L.d2s resp3 length fuel v = some t) :
    L.Writes resp3 w t fuel := by
  induction fuel generalizing w v t with
  | zero => cases hreply
  | succ fuel ih =>
    cases h with
    | table hlen helem =>
      obtain ⟨ts, hts, ht⟩ := Option.bind_eq_some_iff.mp hreply
      obtain rfl := Option.some.inj ht
      refine L.writes_table hlen ?_
      refine ((forall₂_and_left _ _).mpr ⟨fun i hi => hi, forall₂_of_mapM hts⟩).imp fun i u hu => ?_
      exact ih (helem i (mem_range.mp hu.1)) hu.2
    | _ =>
      obtain rfl := Option.some.inj hreply
      exact L.writes_leaf fuel fun _ _ _ => rfl

/-- Table 0 holds table 1 twice; table 2 holds itself. -/
def sampleTables : LuaLib where
  len id := if id = 0 then some 2 else some 1
  geti id _ := if id = 0 then .table 1 else if id = 1 then .integer 7 else .table id
  typename _ := []
  d2s _ := []
  typename_line _ := by decide
  d2s_line _ := by decide

theorem rainFallReplyFromLua_complete_shared :
    ∃ t : RespTree, t.WF ∧ ∃ N, sampleTables.Writes false (.table 0) t N := by
  refine rainFallReplyFromLua_complete.mpr (Acc.intro _ ?_)
  rintro w ⟨id, len, i, hv, -, -, rfl⟩
  obtain rfl := LuaRef.table.inj hv
  refine Acc.intro _ ?_
  rintro w ⟨id, len, i, hv, -, -, rfl⟩
  obtain rfl := LuaRef.table.inj hv
  refine Acc.intro _ ?_
  rintro w ⟨id, len, i, hv, -⟩
  cases hv

/-- No number of nested calls is enough for a table that contains itself. -/
theorem rainFallReplyFromLua_cyclic : ∃ (L : LuaLib) (v : LuaRef), ∀ resp3 fuel stack out,
    L.rainFallReplyFromLua resp3 fuel ⟨v :: stack, out⟩ = none := by
  refine ⟨sampleTables, .table 2, fun resp3 fuel stack out => ?_⟩
  induction fuel generalizing stack out with
  | zero => rfl
  | succ fuel ih =>
    have hloop : sampleTables.rainFallReplyFromLua resp3 (fuel + 1) ⟨.table 2 :: stack, out⟩ =
        ((sampleTables.rainFallReplyFromLua resp3 fuel
          ⟨.table 2 :: .table 2 :: stack, out ++ respHeader 42 1⟩).bind fun st =>
            some (mqPop st)).bind some := rfl
    rw [hloop, ih]
    rfl

end RainCall
