import RainCall.Bridge.Reply

/-!
# The two backends agree

Both backends turn the bytes of a reply tree into the same Lua value or the same raised error, which
is the one the tree itself describes (`RespTree.lua`).
-/

namespace RainCall

open List Option RespKind RespTree

variable {strtod : Bytes → BitVec 64} {buf : Bytes}

/-! ### What a tree stands for -/

/-- The reply object hiredis returns for a leaf. -/
def RespLeaf.hiredis (strtod : Bytes → BitVec 64) : RespLeaf → RedisReply
  | .simpleString text => ⟨.status, some text, 0, 0, []⟩
  | .error text => ⟨.error, some text, 0, 0, []⟩
  | .integer n => ⟨.integer, none, n, 0, []⟩
  | .bulkString text => ⟨.string, some text, 0, 0, []⟩
  | .nullBulk => ⟨.nil, none, 0, 0, []⟩
  | .nullArray => ⟨.nil, none, 0, 0, []⟩
  | .null => ⟨.nil, none, 0, 0, []⟩
  | .bool b => ⟨.bool, none, if b then 1 else 0, 0, []⟩
  | .double text => ⟨.double, some text, 0, strtod text, []⟩
  | .bigNumber text => ⟨.bignum, some text, 0, 0, []⟩
  | .verbatim _ text => ⟨.verb, some text, 0, 0, []⟩

/-- The hiredis type of an aggregate. -/
def RespKind.hiredis : RespKind → RedisReplyType
  | .array => .array
  | .set => .set
  | .map => .map

mutual

/-- The reply object hiredis returns for the bytes of a tree; the keys and values of a map are its
elements in turn. -/
def RespTree.hiredis (strtod : Bytes → BitVec 64) : RespTree → RedisReply
  | .leaf l => l.hiredis strtod
  | .node kind children => ⟨kind.hiredis, none, 0, 0, RespTree.hiredisAll strtod children⟩
  | .attributed _ t => RespTree.hiredis strtod t

/-- The reply objects of trees one after the other. -/
def RespTree.hiredisAll (strtod : Bytes → BitVec 64) : List RespTree → List RedisReply
  | [] => []
  | t :: rest => RespTree.hiredis strtod t :: RespTree.hiredisAll strtod rest

end

/-- The `raincall_Reply` of the in-process backend for a leaf. -/
def RespLeaf.raincall (strtod : Bytes → BitVec 64) : RespLeaf → RaincallReply
  | .simpleString text => (raincallReplyNew .string).withStr (some text)
  | .error text => (raincallReplyNew .error).withStr (some text)
  | .integer n => { raincallReplyNew .integer with integer := n }
  | .bulkString text => (raincallReplyNew .string).withStr (some text)
  | .nullBulk => raincallReplyNew .nil
  | .nullArray => raincallReplyNew .nil
  | .null => raincallReplyNew .nil
  | .bool b => { raincallReplyNew .bool with integer := if b then 1 else 0 }
  | .double text => { raincallReplyNew .double with
      number := if text.length ≤ maxLongDoubleChars then strtod text else 0 }
  | .bigNumber text => (raincallReplyNew .bignum).withStr (some text)
  | .verbatim _ text => (raincallReplyNew .verb).withStr (some text)

def RespKind.raincall : RespKind → RaincallReplyType
  | .array => .array
  | .set => .set
  | .map => .map

mutual

/-- The `raincall_Reply` of the in-process backend for a tree. -/
def RespTree.raincall (strtod : Bytes → BitVec 64) : RespTree → RaincallReply
  | .leaf l => l.raincall strtod
  | .node kind children =>
    { raincallReplyNew kind.raincall with element := RespTree.raincallAll strtod children }
  | .attributed _ t => RespTree.raincall strtod t

def RespTree.raincallAll (strtod : Bytes → BitVec 64) : List RespTree → List RaincallReply
  | [] => []
  | t :: rest => RespTree.raincall strtod t :: RespTree.raincallAll strtod rest

end

/-- The outcome of `RAIN.CALL` for a leaf. -/
def RespLeaf.lua (strtod : Bytes → BitVec 64) : RespLeaf → Except Bytes LuaValue
  | .simpleString text => .ok (.string text)
  | .error text => .error text
  | .integer n => .ok (.integer n)
  | .bulkString text => .ok (.string text)
  | .nullBulk => .ok .nil
  | .nullArray => .ok .nil
  | .null => .ok .nil
  | .bool b => .ok (.boolean b)
  | .double text => .ok (.number (strtod text))
  | .bigNumber text => .ok (.string text)
  | .verbatim _ text => .ok (.string text)

mutual

/-- The outcome of `RAIN.CALL` for a tree: the Lua value, or the text of the first error in it. -/
def RespTree.lua (strtod : Bytes → BitVec 64) : RespTree → Except Bytes LuaValue
  | .leaf l => l.lua strtod
  | .node .map children => (RespTree.luaEntries strtod children 1 []).map .table
  | .node _ children => (RespTree.luaElements strtod children 1 []).map .table
  | .attributed _ t => RespTree.lua strtod t

/-- The elements of an array or a set, stored from index `i` on. -/
def RespTree.luaElements (strtod : Bytes → BitVec 64) :
    List RespTree → ℕ → LuaTable → Except Bytes LuaTable
  | [], _, t => .ok t
  | c :: rest, i, t => do
    let v ← RespTree.lua strtod c
    RespTree.luaElements strtod rest (i + 1) (t.set (.int i) v)

/-- The entries of a map, stored from index `i` on as tables of a key and a value. -/
def RespTree.luaEntries (strtod : Bytes → BitVec 64) :
    List RespTree → ℕ → LuaTable → Except Bytes LuaTable
  | k :: v :: rest, i, t => do
    let key ← RespTree.lua strtod k
    let value ← RespTree.lua strtod v
    RespTree.luaEntries strtod rest (i + 1) (t.set (.int i)
      (.table (LuaTable.set (LuaTable.set [] (.str "key") key) (.str "value") value)))
  | _, _, t => .ok t

end

mutual

/-- The first error of a tree in depth-first order. -/
def RespTree.firstError : RespTree → Option Bytes
  | .leaf (.error text) => some text
  | .leaf _ => none
  | .node _ children => RespTree.firstErrorIn children
  | .attributed _ t => RespTree.firstError t

/-- The first error of trees one after the other. -/
def RespTree.firstErrorIn : List RespTree → Option Bytes
  | [] => none
  | t :: rest => (RespTree.firstError t).orElse fun _ => RespTree.firstErrorIn rest

end

/-- The text of a double is short enough to be parsed. -/
def RespLeaf.DoubleFits : RespLeaf → Prop
  | .double text => text.length ≤ maxLongDoubleChars
  | _ => True

/-- The texts of all doubles are short enough to be parsed. -/
inductive RespTree.DoublesFit : RespTree → Prop
  | leaf {l : RespLeaf} (hl : l.DoubleFits) : DoublesFit (.leaf l)
  | node (kind : RespKind) {children : List RespTree} (h : ∀ c ∈ children, DoublesFit c) :
    DoublesFit (.node kind children)

/-! ### Lists -/

variable {β : Type*} {t : RespTree}

lemma mapM_eq_some_iff {α : Type*} {f : α → Option β} {l : List α} {r : List β} :
    l.mapM f = some r ↔ l.map f = r.map some := by
  induction l generalizing r with
  | nil => cases r <;> simp
  | cons a l ih =>
    rw [mapM_cons, map_cons]
    cases r with
    | nil => cases f a <;> cases l.mapM f <;> simp
    | cons b r =>
      rw [map_cons, cons.injEq, ← ih]
      cases f a <;> cases l.mapM f <;> simp

lemma mapM_range_eq_some {f : ℕ → Option β} {l : List β}
    (h : ∀ i (hi : i < l.length), f i = some (l.get ⟨i, hi⟩)) :
    (range l.length).mapM f = some l := by
  refine mapM_eq_some_iff.mpr (ext_getElem (by simp) fun i hi _ => ?_)
  rw [getElem_map, getElem_map, getElem_range]
  exact h i (by simpa using hi)

lemma RespTree.raincallAll_eq_map (l : List RespTree) :
    raincallAll strtod l = l.map (raincall strtod) := by
  induction l with
  | nil => rfl
  | cons t l ih => rw [raincallAll, ih, map_cons]

lemma RespTree.length_encode_le_encodeAll {l : List RespTree} (h : t ∈ l) :
    t.encode.length ≤ (encodeAll l).length := by
  induction l with
  | nil => exact absurd h not_mem_nil
  | cons t' l ih =>
    rw [encodeAll, length_append]
    rcases mem_cons.mp h with rfl | h
    · exact Nat.le_add_right _ _
    · exact (ih h).trans (Nat.le_add_left _ _)

/-- The list in pairs. -/
def pairsOf {β : Type*} : List β → List (List β)
  | a :: b :: l => [a, b] :: pairsOf l
  | _ => []

lemma flatten_pairsOf {l : List β} (h : 2 ∣ l.length) : (pairsOf l).flatten = l := by
  induction l using pairsOf.induct with
  | case1 a b l ih =>
    rw [pairsOf, flatten_cons, ih (by rw [length_cons, length_cons] at h; omega)]
    rfl
  | case2 l hl =>
    cases l with
    | nil => rfl
    | cons a l =>
      cases l with
      | nil => exact absurd h (by simp)
      | cons b l => exact absurd rfl (hl a b l)

lemma length_pairsOf (l : List β) : (pairsOf l).length = l.length / 2 := by
  induction l using pairsOf.induct with
  | case1 a b l ih =>
    rw [pairsOf, length_cons, length_cons, length_cons]
    omega
  | case2 l hl =>
    cases l with
    | nil => simp [pairsOf]
    | cons a l =>
      cases l with
      | nil => simp [pairsOf]
      | cons b l => exact absurd rfl (hl a b l)

lemma get_pairsOf {l : List β} {i : ℕ} (hi : i < (pairsOf l).length) (h0 : i * 2 < l.length)
    (h1 : i * 2 + 1 < l.length) :
    (pairsOf l).get ⟨i, hi⟩ = [l.get ⟨i * 2, h0⟩, l.get ⟨i * 2 + 1, h1⟩] := by
  induction l using pairsOf.induct generalizing i with
  | case1 a b l ih =>
    cases i with
    | zero => rfl
    | succ i =>
      rw [length_cons, length_cons] at h0 h1
      have hrest : i < (pairsOf l).length := by
        rw [length_pairsOf]
        omega
      have hget := ih hrest (by omega) (by omega)
      simp only [get_eq_getElem] at hget ⊢
      simpa only [pairsOf, getElem_cons_succ, Nat.succ_mul] using hget
  | case2 l hl =>
    cases l with
    | nil => exact absurd h0 (Nat.not_lt_zero _)
    | cons a l =>
      cases l with
      | nil => simp at h1
      | cons b l => exact absurd rfl (hl a b l)

/-! ### The in-process backend -/

/-- The sub-replies of a parsed aggregate are converted one by one. -/
lemma raincallReplyFromCallReply_kid {children : List RespTree} {kids : List CallReply} {fuel : ℕ}
    (hkids : RespTree.AllDecode strtod buf children kids)
    (hconv : ∀ c ∈ children, ∀ rep, c.Content strtod buf rep →
      raincallReplyFromCallReply buf fuel (some rep) = some (c.raincall strtod))
    {i : ℕ} (hi : i < children.length) :
    raincallReplyFromCallReply buf fuel kids[i]? =
      some ((children.get ⟨i, hi⟩).raincall strtod) := by
  obtain ⟨hlen, hget⟩ := forall₂_iff_get.mp (allDecode_iff.mp hkids)
  have hik : i < kids.length := hlen ▸ hi
  rw [getElem?_eq_getElem hik]
  exact hconv _ (get_mem _ _) _ (hget i hi hik).content

/-- The conversion of a parsed reply is the one of its tree. -/
lemma raincallReplyFromCallReply_eq (hwf : t.WF) (hattr : t.NoAttribute) {fuel : ℕ}
    (hfuel : t.encode.length ≤ fuel) {rep : CallReply} (h : t.Content strtod buf rep) :
    raincallReplyFromCallReply buf fuel (some rep) = some (t.raincall strtod) := by
  induction hwf generalizing fuel rep with
  | @leaf l hl =>
    have hpos := l.length_encode_pos
    rw [RespTree.encode] at hfuel
    cases fuel with
    | zero => omega
    | succ fuel =>
      cases l with
      | nullBulk | nullArray | null =>
        have htype : callReplyType rep = .null := h
        simp only [raincallReplyFromCallReply, htype]
        rfl
      | _ =>
        obtain ⟨htype, hget⟩ := h
        simp only [raincallReplyFromCallReply, htype, hget]
        rfl
  | @node kind children heven _ ih =>
    have hchildren : ∀ c ∈ children, c.NoAttribute := by
      cases hattr with
      | node _ h => exact h
    have hheader := length_respHeader kind.tag (children.length / kind.perEntry)
    rw [RespTree.encode, length_append] at hfuel
    cases fuel with
    | zero => omega
    | succ fuel =>
      obtain ⟨htype, hlen, kids, helements, hkids⟩ := h
      have hconv : ∀ c ∈ children, ∀ rep, c.Content strtod buf rep →
          raincallReplyFromCallReply buf fuel (some rep) = some (c.raincall strtod) := by
        intro c hc rep hcontent
        have hle := RespTree.length_encode_le_encodeAll hc
        exact ih c hc (hchildren c hc) (by omega) hcontent
      have helement : ∀ i (hi : i < (children.map (RespTree.raincall strtod)).length),
          raincallReplyFromCallReply buf fuel kids[i]? =
            some ((children.map (RespTree.raincall strtod)).get ⟨i, hi⟩) := by
        intro i hi
        rw [length_map] at hi
        rw [raincallReplyFromCallReply_kid hkids hconv hi]
        simp
      cases kind with
      | array | set =>
        simp only [RespKind.Elements, RespKind.type, RespKind.perEntry, Nat.div_one] at *
        simp only [raincallReplyFromCallReply, htype, hlen, helements]
        rw [← length_map (RespTree.raincall strtod), mapM_range_eq_some helement,
          RespTree.raincall, RespTree.raincallAll_eq_map]
        rfl
      | map =>
        have hget : ∀ i, callReplyGetMapElement rep i = entryAt kids i := helements
        have hklen := (RespTree.allDecode_iff.mp hkids).length_eq
        simp only [RespKind.type, RespKind.perEntry] at htype hlen heven
        have hentries : ∀ i (hi : i < (pairsOf (children.map (RespTree.raincall strtod))).length),
            (do
              let entry ← callReplyGetMapElement rep i
              let key ← raincallReplyFromCallReply buf fuel entry.1
              let value ← raincallReplyFromCallReply buf fuel entry.2
              pure [key, value] : Option (List RaincallReply)) =
              some ((pairsOf (children.map (RespTree.raincall strtod))).get ⟨i, hi⟩) := by
          intro i hi
          have hi' := hi
          rw [length_pairsOf, length_map] at hi'
          have h0 : i * 2 < (children.map (RespTree.raincall strtod)).length := by
            rw [length_map]
            omega
          have h1 : i * 2 + 1 < (children.map (RespTree.raincall strtod)).length := by
            rw [length_map]
            omega
          rw [get_pairsOf hi h0 h1, hget, entryAt, if_pos (by omega)]
          simp only [bind_eq_bind, bind_some, helement _ h0, helement _ h1]
          rfl
        simp only [raincallReplyFromCallReply, htype, hlen]
        rw [← length_map (RespTree.raincall strtod), ← length_pairsOf,
          mapM_range_eq_some hentries, RespTree.raincall, RespTree.raincallAll_eq_map]
        simp only [bind_eq_bind, bind_some]
        rw [flatten_pairsOf (by rw [length_map]; exact heven)]
        rfl
  | attributed => cases hattr

lemma raincallInprocessReply_encode (hwf : t.WF) (hattr : t.NoAttribute) (hnul : t.NulFree)
    (hlen : t.encode.length < 2 ^ 63) :
    raincallInprocessReply strtod t.encode = some (t.raincall strtod) := by
  have hdrop : (t.encode ++ []).drop 0 = t.encode ++ [] := rfl
  have hparse := (@callReplyParse_eq strtod [] t hwf (by rwa [append_nil])).1 hnul
  have hcontent : t.Content strtod (t.encode ++ [])
      (t.reply strtod 0 { CallReply.zero with parsed := true }) :=
    (hwf.replyDecodes hattr.attributesEmpty _ hdrop).1
  rw [append_nil] at hparse hcontent
  rw [raincallInprocessReply, hparse]
  exact raincallReplyFromCallReply_eq hwf hattr (Nat.le_succ t.encode.length) hcontent

/-! ### Pushing -/

section

variable {f : RespTree → RaincallReply} {l : List RespTree} {i : ℕ} {table : LuaTable}

lemma raincallPushAggregateReply_map (h : ∀ c ∈ l, raincallPushReply (f c) = c.lua strtod) :
    raincallPushAggregateReply (l.map f) i table = luaElements strtod l i table := by
  induction l generalizing i table with
  | nil => rfl
  | cons c l ih =>
    rw [map_cons, raincallPushAggregateReply, h c mem_cons_self, luaElements]
    cases c.lua strtod with
    | error e => rfl
    | ok v => exact ih fun c' hc' => h c' (mem_cons_of_mem _ hc')

/-- Pushing the entries of a map. -/
lemma raincallPushMapReply_map (h : ∀ c ∈ l, raincallPushReply (f c) = c.lua strtod) :
    raincallPushMapReply (l.map f) i table = luaEntries strtod l i table := by
  induction l using pairsOf.induct generalizing i table with
  | case1 k v l ih =>
    rw [map_cons, map_cons, raincallPushMapReply, h k mem_cons_self,
      h v (mem_cons_of_mem _ mem_cons_self), luaEntries]
    cases k.lua strtod with
    | error e => rfl
    | ok key =>
      cases v.lua strtod with
      | error e => rfl
      | ok value =>
        exact ih fun c hc => h c (mem_cons_of_mem _ (mem_cons_of_mem _ hc))
  | case2 l hl =>
    cases l with
    | nil => rfl
    | cons a l =>
      cases l with
      | nil => rfl
      | cons b l => exact absurd rfl (hl a b l)

/-- Pushing an aggregate. -/
lemma raincallPushReply_node {kind : RespKind} {reply : RaincallReply}
    (htype : reply.type = kind.raincall) (helement : reply.element = l.map f)
    (h : ∀ c ∈ l, raincallPushReply (f c) = c.lua strtod) :
    raincallPushReply reply = (node kind l).lua strtod := by
  obtain ⟨type, str, integer, number, element⟩ := reply
  subst htype helement
  cases kind with
  | map =>
    simp only [RespKind.raincall, raincallPushReply, raincallPushMapReply_map h, lua]
    cases luaEntries strtod l 1 [] <;> rfl
  | array | set =>
    simp only [RespKind.raincall, raincallPushReply, raincallPushAggregateReply_map h]
    rw [lua]
    · cases luaElements strtod l 1 [] <;> rfl
    · exact RespKind.noConfusion

end

lemma RespLeaf.push_raincall {l : RespLeaf} (h : l.DoubleFits) :
    raincallPushReply (l.raincall strtod) = l.lua strtod := by
  cases l with
  | simpleString text | error text | bulkString text | bigNumber text | verbatim format text =>
    cases text <;> rfl
  | bool b => cases b <;> rfl
  | double text =>
    have hle : text.length ≤ maxLongDoubleChars := h
    rw [RespLeaf.raincall, if_pos hle]
    rfl
  | _ => rfl

lemma RespTree.push_raincall (h : t.DoublesFit) :
    raincallPushReply (t.raincall strtod) = t.lua strtod := by
  induction h with
  | leaf hl => exact RespLeaf.push_raincall hl
  | node kind _ ih => exact raincallPushReply_node rfl (raincallAll_eq_map _) ih

lemma RespLeaf.push_hiredis (l : RespLeaf) :
    raincallPushReply (raincallReplyFromHiredis (l.hiredis strtod)) = l.lua strtod := by
  cases l with
  | simpleString text | error text | bulkString text | bigNumber text | verbatim format text
  | double text => cases text <;> rfl
  | bool b => cases b <;> rfl
  | _ => rfl

lemma raincallRepliesFromHiredis_eq (l : List RespTree) :
    raincallRepliesFromHiredis (hiredisAll strtod l) =
      l.map fun t => raincallReplyFromHiredis (t.hiredis strtod) := by
  induction l with
  | nil => rfl
  | cons t l ih => rw [hiredisAll, raincallRepliesFromHiredis, ih, map_cons]

lemma RespTree.push_hiredis (h : t.NoAttribute) :
    raincallPushReply (raincallReplyFromHiredis (t.hiredis strtod)) = t.lua strtod := by
  induction h with
  | leaf l => exact l.push_hiredis
  | node kind _ ih =>
    refine raincallPushReply_node ?_ (raincallRepliesFromHiredis_eq _) ih
    cases kind <;> rfl

/-! ### The first error -/

/-- What the outcome of a tree has to be, from the errors in it. -/
def IsOutcome {β : Type*} (firstError : Option Bytes) (outcome : Except Bytes β) :
    Prop :=
  (∀ e, firstError = some e → outcome = .error e) ∧ (firstError = none → ∃ v, outcome = .ok v)

lemma isOutcome_ok {β : Type*} (v : β) : IsOutcome none (.ok v) :=
  ⟨fun e he => absurd he (by simp), fun _ => ⟨v, rfl⟩⟩

lemma isOutcome_error {β : Type*} (e : Bytes) : IsOutcome (some e) (.error e : Except _ β) :=
  ⟨fun e' he' => by rw [← some.inj he'], fun hnone => absurd hnone (by simp)⟩

lemma RespTree.luaElements_isOutcome {l : List RespTree}
    (h : ∀ c ∈ l, IsOutcome c.firstError (c.lua strtod)) (i : ℕ) (table : LuaTable) :
    IsOutcome (firstErrorIn l) (luaElements strtod l i table) := by
  induction l generalizing i table with
  | nil => exact isOutcome_ok table
  | cons c l ih =>
    obtain ⟨herr, hok⟩ := h c mem_cons_self
    rw [firstErrorIn, luaElements]
    cases hc : c.firstError with
    | some e =>
      rw [herr e hc]
      exact isOutcome_error e
    | none =>
      obtain ⟨v, hv⟩ := hok hc
      rw [hv]
      exact ih (fun c' hc' => h c' (mem_cons_of_mem _ hc')) _ _

lemma RespTree.luaEntries_isOutcome {l : List RespTree} (heven : 2 ∣ l.length)
    (h : ∀ c ∈ l, IsOutcome c.firstError (c.lua strtod)) (i : ℕ) (table : LuaTable) :
    IsOutcome (firstErrorIn l) (luaEntries strtod l i table) := by
  induction l using pairsOf.induct generalizing i table with
  | case1 k v l ih =>
    rw [length_cons, length_cons] at heven
    obtain ⟨hkerr, hkok⟩ := h k mem_cons_self
    obtain ⟨hverr, hvok⟩ := h v (mem_cons_of_mem _ mem_cons_self)
    rw [firstErrorIn, firstErrorIn, luaEntries]
    cases hk : k.firstError with
    | some e =>
      rw [hkerr e hk]
      exact isOutcome_error e
    | none =>
      obtain ⟨key, hkey⟩ := hkok hk
      rw [hkey]
      cases hv : v.firstError with
      | some e =>
        rw [hverr e hv]
        exact isOutcome_error e
      | none =>
        obtain ⟨value, hvalue⟩ := hvok hv
        rw [hvalue]
        exact ih (by omega)
          (fun c hc => h c (mem_cons_of_mem _ (mem_cons_of_mem _ hc))) _ _
  | case2 l hl =>
    cases l with
    | nil => exact isOutcome_ok table
    | cons a l =>
      cases l with
      | nil => exact absurd heven (by simp)
      | cons b l => exact absurd rfl (hl a b l)

lemma IsOutcome.map {γ : Type*} {e : Option Bytes} {o : Except Bytes β}
    (h : IsOutcome e o) (g : β → γ) : IsOutcome e (o.map g) := by
  refine ⟨fun e' he' => by rw [h.1 e' he']; rfl, fun hnone => ?_⟩
  obtain ⟨v, hv⟩ := h.2 hnone
  exact ⟨g v, by rw [hv]; rfl⟩

/-- The outcome of a tree is the text of its first error, if it has one. -/
lemma RespTree.lua_isOutcome (hwf : t.WF) :
    IsOutcome t.firstError (t.lua strtod) := by
  induction hwf with
  | @leaf l _ =>
    cases l with
    | error text => exact isOutcome_error text
    | _ => exact isOutcome_ok _
  | @node kind children heven _ ih =>
    cases kind with
    | map => exact (luaEntries_isOutcome heven ih 1 []).map _
    | array | set => exact (luaElements_isOutcome ih 1 []).map _
  | attributed _ _ _ _ _ ih => exact ih

/-- **The two backends agree.**  For every reply tree without attributes in which no line has a NUL
byte and no double more characters than are parsed, the in-process backend has a reply for its
bytes, and pushing it has the same outcome as pushing what the TCP backend makes of the hiredis
reply: the same Lua value, or the text of the first error in depth-first order. -/
theorem raincall_backends_agree (strtod : Bytes → BitVec 64) (t : RespTree) (hwf : t.WF)
    (hattr : t.NoAttribute) (hnul : t.NulFree) (hdouble : t.DoublesFit)
    (hlen : t.encode.length < 2 ^ 63) :
    ∃ reply, raincallInprocessReply strtod t.encode = some reply ∧
      raincallPushReply reply =
        raincallPushReply (raincallReplyFromHiredis (t.hiredis strtod)) ∧
      (∀ e, t.firstError = some e → raincallPushReply reply = .error e) ∧
      (t.firstError = none → ∃ v, raincallPushReply reply = .ok v) := by
  have hpush : raincallPushReply (t.raincall strtod) = t.lua strtod :=
    push_raincall hdouble
  refine ⟨t.raincall strtod, raincallInprocessReply_encode hwf hattr hnul hlen, ?_, ?_⟩
  · rw [hpush, push_hiredis hattr]
  · rw [hpush]
    exact lua_isOutcome hwf

/-- A map with an error behind its key: both backends raise that error. -/
theorem raincall_backends_agree_error :
    ∃ reply, raincallInprocessReply (fun _ => 0) (RespTree.encode (.node .map
        [.leaf (.simpleString [107]), .leaf (.error [69, 82, 82])])) = some reply ∧
      raincallPushReply reply = .error [69, 82, 82] := by
  obtain ⟨reply, hreply, -, herr, -⟩ := raincall_backends_agree (fun _ => 0)
    (.node .map [.leaf (.simpleString [107]), .leaf (.error [69, 82, 82])])
    (.node (by decide) (by simpa using ⟨.leaf (by decide), .leaf (by decide)⟩))
    (.node _ (by simpa using ⟨.leaf _, .leaf _⟩))
    (.node _ (by simpa using ⟨.leaf (by decide), .leaf (by decide)⟩))
    (.node _ (by simpa using ⟨.leaf trivial, .leaf trivial⟩)) (by decide +kernel)
  exact ⟨reply, hreply, herr _ rfl⟩

/-- A simple string of one NUL byte: the in-process parser follows the null pointer `strchr`
returns, and the TCP backend returns the string. -/
theorem raincall_backends_differ_nul :
    RespTree.WF (.leaf (.simpleString [0])) ∧ RespTree.NoAttribute (.leaf (.simpleString [0])) ∧
      raincallInprocessReply (fun _ => 0) (RespTree.encode (.leaf (.simpleString [0]))) = none ∧
      raincallPushReply (raincallReplyFromHiredis
        (RespTree.hiredis (fun _ => 0) (.leaf (.simpleString [0])))) = .ok (.string [0]) :=
  ⟨.leaf (by decide), .leaf _, rfl, rfl⟩

end RainCall
