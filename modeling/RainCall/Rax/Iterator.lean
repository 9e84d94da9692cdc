import RainCall.Rax.Entries

/-!
# The iterator of the radix tree

`raxIterator` keeps the key it is at, the node of that key and the stack of the nodes above it. The
model has the same parts; a key buffer with a length is a list. Whether the iterator is at the root
is a comparison of pointers in the source; it is the case when the stack is empty. There is no node
callback and allocation does not fail.

The steps are related to the list of entries: from a node the step forward reaches the first of the
entries below and after it (`raxNextLoop_spec`), and the step backward the last of the entries
before it (`raxPrevLoop_spec`).
-/

namespace RainCall

open Option RaxFrame RaxNode
open List hiding count after

variable {W : Type}

/-! ### The model -/

/-- The node of an iterator, the stack above it and the key. -/
structure RaxPos (W : Type) where
  node : RaxNode W
  /-- The nodes above it, the nearest first. -/
  stack : List (RaxNode W)
  key : Bytes

structure RaxIterator (W : Type) where
  rt : Rax W
  eof : Bool
  justSeeked : Bool
  pos : RaxPos W
  data : Option W

def raxStart (rt : Rax W) : RaxIterator W := ⟨rt, true, false, ⟨rt.head, [], []⟩, none⟩

/-- `it->node->iscompr ? it->node->size : 1` -/
def RaxNode.edgeLen (n : RaxNode W) : ℕ := if n.iscompr then n.size else 1

def raxIteratorDelChars (key : Bytes) (count : ℕ) : Bytes := key.take (key.length - count)

/-- `it->key[it->key_len-1]` -/
def prevChild (key : Bytes) : UInt8 := key.getLast?.getD 0

/-- The first child of a node. -/
def RaxNode.firstChild : RaxNode W → Option (RaxNode W)
  | .compr _ _ c => some c
  | .normal _ _ cs => cs.head?

/-- One round of the inner loop of `raxIteratorNextStep` at `node`: the first child with a byte
greater than `prevchild`, if the node has more than `least` children. -/
def raxNextChild (node : RaxNode W) (stack : List (RaxNode W)) (key : Bytes) (least : ℕ)
    (prevchild : UInt8) : Option (RaxPos W) :=
  match node with
  | .compr _ _ _ => none
  | .normal _ d cs =>
    if least < d.length then do
      let i ← d.findIdx? fun x => decide (prevchild < x)
      let c ← cs[i]?
      some ⟨c, node :: stack, key ++ (d.drop i).take 1⟩
    else none

/-- The inner loop of `raxIteratorNextStep`: go up to the first node with a child after the one the
iterator comes from. -/
def raxNextUp : List (RaxNode W) → Bytes → Option (RaxPos W)
  | [], _ => none
  | parent :: stack, key =>
    match raxNextChild parent stack (raxIteratorDelChars key parent.edgeLen) 1 (prevChild key) with
    | some pos => some pos
    | none => raxNextUp stack (raxIteratorDelChars key parent.edgeLen)

/-- The inner loop of `raxIteratorNextStep` with `noup`: the first round is at the current node. -/
def raxNextSibling (noup : Bool) (pos : RaxPos W) : Option (RaxPos W) :=
  if noup then
    let key := raxIteratorDelChars pos.key pos.node.edgeLen
    match raxNextChild pos.node pos.stack key 0 (prevChild pos.key) with
    | some pos' => some pos'
    | none => raxNextUp pos.stack key
  else raxNextUp pos.stack pos.key

/-- The outer loop of `raxIteratorNextStep`: the next position, or `some none` at the end of the
iteration. The result `none` means that the fuel is used up. -/
def raxNextLoop : ℕ → Bool → RaxPos W → Option (Option (RaxPos W))
  | 0, _, _ => none
  | fuel + 1, noup, pos =>
    match noup, pos.node.firstChild with
    | false, some c =>
      let pos' := ⟨c, pos.node :: pos.stack, pos.key ++ pos.node.data.take pos.node.edgeLen⟩
      if c.key.iskey then some (some pos') else raxNextLoop fuel false pos'
    | noup, _ =>
      match raxNextSibling noup pos with
      | none => some none
      | some pos' => if pos'.node.key.iskey then some (some pos') else raxNextLoop fuel false pos'

mutual
def raxSeekGreatest : RaxNode W → List (RaxNode W) → Bytes → RaxPos W
  | .compr k d c, stack, key => raxSeekGreatest c (.compr k d c :: stack) (key ++ d)
  | .normal k d cs, stack, key => raxSeekGreatestIn (.normal k d cs) cs stack key

/-- `raxSeekGreatest` at the node `n`, whose last child is the last one of the list. -/
def raxSeekGreatestIn (n : RaxNode W) :
    List (RaxNode W) → List (RaxNode W) → Bytes → RaxPos W
  | [], stack, key => ⟨n, stack, key⟩
  | [c], stack, key => raxSeekGreatest c (n :: stack) (key ++ n.data.drop (n.size - 1))
  | _ :: c :: cs, stack, key => raxSeekGreatestIn n (c :: cs) stack key
end

/-- The scan of `raxIteratorPrevStep` at `node`: the greatest position below the last child with a
byte smaller than `prevchild`, if the node has more than `least` children. -/
def raxPrevChild (node : RaxNode W) (stack : List (RaxNode W)) (key : Bytes) (least : ℕ)
    (prevchild : UInt8) : Option (RaxPos W) :=
  match node with
  | .compr _ _ _ => none
  | .normal _ d cs =>
    if least < d.length then do
      let j ← d.reverse.findIdx? fun x => decide (x < prevchild)
      let i := d.length - 1 - j
      let c ← cs[i]?
      some (raxSeekGreatest c (node :: stack) (key ++ (d.drop i).take 1))
    else none

/-- One round of the loop of `raxIteratorPrevStep` at `node`. -/
def raxPrevVisit (node : RaxNode W) (stack : List (RaxNode W)) (key : Bytes) (least : ℕ) :
    RaxPos W :=
  let key' := raxIteratorDelChars key node.edgeLen
  (raxPrevChild node stack key' least (prevChild key)).getD ⟨node, stack, key'⟩

/-- The loop of `raxIteratorPrevStep`, as `raxNextLoop`. -/
def raxPrevLoop : ℕ → Bool → RaxPos W → Option (Option (RaxPos W))
  | 0, _, _ => none
  | fuel + 1, noup, pos =>
    match noup, pos.stack with
    | false, [] => some none
    | false, parent :: stack =>
      let pos' := raxPrevVisit parent stack pos.key 1
      if pos'.node.key.iskey then some (some pos') else raxPrevLoop fuel false pos'
    | true, stack =>
      let pos' := raxPrevVisit pos.node stack pos.key 0
      if pos'.node.key.iskey then some (some pos') else raxPrevLoop fuel false pos'

/-- The end of a step: the new position with its value, or the end of the iteration, where the
position is restored. -/
def RaxIterator.finish (it : RaxIterator W) : Option (RaxPos W) → RaxIterator W
  | none => { it with eof := true }
  | some pos => { it with pos := pos, data := raxGetData pos.node.key }

/-- `raxIteratorNextStep` and `raxIteratorPrevStep`: the flags, then the loop. -/
def RaxIterator.step (loop : ℕ → Bool → RaxPos W → Option (Option (RaxPos W))) (it : RaxIterator W)
    (noup : Bool) : Option (RaxIterator W) :=
  if it.eof then some it
  else if it.justSeeked then some { it with justSeeked := false }
  else (loop (it.rt.head.count + 1) noup it.pos).map it.finish

section

variable (it : RaxIterator W)

def raxIteratorNextStep (noup : Bool) : Option (RaxIterator W) :=
  it.step raxNextLoop noup

def raxIteratorPrevStep (noup : Bool) : Option (RaxIterator W) :=
  it.step raxPrevLoop noup

/-- `raxNext`: the iterator after the step; the return value is that `eof` is not set. -/
def raxNext : Option (RaxIterator W) := raxIteratorNextStep it false

def raxPrev : Option (RaxIterator W) := raxIteratorPrevStep it false

/-- The operators of `raxSeek`. -/
inductive RaxSeekOp
  | eq
  | gt
  | ge
  | lt
  | le
  | first
  | last
  deriving DecidableEq

/-- The part of `raxSeek` for the flags `lt` or `gt` when the key is not taken as found: a step from
the place where the walk `w` for `ele` stopped. -/
def raxSeekStep (w : RaxWalk W) (lt : Bool) (ele : Bytes) : Option (RaxIterator W) :=
  let key := ele.take (ele.length - w.rest.length - w.splitpos)
  let pos : RaxPos W := ⟨w.node, w.stack.map RaxFrame.node, key⟩
  let it : RaxIterator W := { it with pos := pos, justSeeked := false }
  let addChars := fun s => { it with pos := { pos with key := key ++ s } }
  match w.rest, w.node with
  | c :: _, .normal _ _ _ =>
    if lt then raxIteratorPrevStep (addChars [c]) true else raxIteratorNextStep (addChars [c]) true
  | keychar :: _, .compr _ d _ =>
    let nodechar := (d[w.splitpos]?).getD 0
    if lt then
      if nodechar < keychar then
        let pos' := raxSeekGreatest w.node pos.stack pos.key
        some { it with pos := pos', data := raxGetData pos'.node.key }
      else raxIteratorPrevStep (addChars d) true
    else
      if keychar < nodechar then raxIteratorNextStep it false
      else raxIteratorNextStep (addChars d) true
  | [], node =>
    if node.iscompr && node.key.iskey && w.splitpos != 0 && lt then
      some { it with data := raxGetData node.key }
    else if lt then raxIteratorPrevStep it false else raxIteratorNextStep it false

/-- `raxSeek` for the operators with a key, as flags. -/
def raxSeekKey (eq lt gt : Bool) (ele : Bytes) : Option (RaxIterator W) :=
  let w := raxLowWalk it.rt ele
  if eq && w.atNode && w.node.key.iskey then
    some { it with pos := ⟨w.node, w.stack.map RaxFrame.node, ele⟩, data := raxGetData w.node.key }
  else if lt || gt then
    (raxSeekStep it w lt ele).map fun it' => { it' with justSeeked := true }
  else some { it with eof := true }

/-- `raxSeek`; the result `none` stands for a failed assertion. -/
def raxSeek (op : RaxSeekOp) (ele : Bytes) : Option (RaxIterator W) :=
  let it := { it with justSeeked := true, eof := false, pos := ⟨it.rt.head, [], []⟩ }
  if it.rt.numele = 0 then some { it with eof := true }
  else
    match op with
    | .eq => raxSeekKey it true false false ele
    | .gt => raxSeekKey it false false true ele
    | .ge => raxSeekKey it true false true ele
    | .lt => raxSeekKey it false true false ele
    | .le => raxSeekKey it true true false ele
    | .first => raxSeekKey it true false true []
    | .last =>
      let pos := raxSeekGreatest it.rt.head [] []
      if pos.node.key.iskey then some { it with pos := pos, data := raxGetData pos.node.key }
      else none

end

/-! ### Positions in the tree -/

/-- The position is at the end of a path. -/
structure RaxPos.At (pos : RaxPos W) (head : RaxNode W) (ts : List (RaxFrame W)) : Prop where
  path : RaxPath head ts pos.node
  stack : pos.stack = ts.map RaxFrame.node
  key : pos.key = pathOf ts

/-- The position is at the key of the entry. -/
def RaxPos.Reaches (pos : RaxPos W) (head : RaxNode W) (e : RaxEntry W) : Prop :=
  ∃ ts, pos.At head ts ∧ pos.node.key.iskey = true ∧ e = (pos.key, raxGetData pos.node.key)

/-- A loop goes to the first entry of the list, or ends if there is none. -/
def StepsTo (head : RaxNode W) (l : List (RaxEntry W)) (result : Option (Option (RaxPos W))) :
    Prop :=
  (l = [] ∧ result = some none) ∨
    ∃ e r pos, l = e :: r ∧ result = some (some pos) ∧ pos.Reaches head e

variable {head n : RaxNode W} {ts : List (RaxFrame W)} {k : RaxData W} {pos : RaxPos W}
  {d : Bytes} {fuel : ℕ}

/-- The nodes on a path and below its end are different nodes of the tree. -/
lemma RaxPath.length_add_count_le (h : RaxPath head ts n) : ts.length + n.count ≤ head.count := by
  induction h with
  | root => simp
  | compr _ ih =>
    rw [count] at ih
    rw [length_cons]
    omega
  | @normal ts k d cs i c _ hc ih =>
    have hmem : c.count ∈ cs.map count :=
      mem_map.mpr ⟨c, mem_of_getElem? hc, rfl⟩
    have hle := le_sum_of_mem hmem
    rw [count, countIn_eq] at ih
    rw [length_cons]
    omega

lemma raxIteratorDelChars_append (p q : Bytes) :
    raxIteratorDelChars (p ++ q) q.length = p := by
  rw [raxIteratorDelChars, length_append, Nat.add_sub_cancel, take_left]

lemma prevChild_append (p : Bytes) (x : UInt8) : prevChild (p ++ [x]) = x := by
  simp [prevChild]

lemma entry_of_iskey (h : k.iskey = true) : k.entry = [([], raxGetData k)] := by
  rw [RaxData.entry, if_pos h]

lemma entry_of_not_iskey (h : k.iskey = false) : k.entry = [] := by
  rw [RaxData.entry, if_neg (by simp [h])]

lemma RaxPos.At.entries_of_iskey (h : pos.At head ts) (hkey : pos.node.key.iskey = true) :
    underAll (pathOf ts) pos.node.entries =
      (pos.key, raxGetData pos.node.key) :: underAll (pathOf ts) pos.node.childEntries := by
  rw [RainCall.entries_eq, entry_of_iskey hkey, singleton_append, underAll, map_cons,
    RaxEntry.under, append_nil, h.key]
  rfl

/-! ### Forward -/

lemma RaxPos.At.firstChild (h : pos.At head ts) (hhead : head.Shape) {c : RaxNode W}
    (hc : pos.node.firstChild = some c) :
    ∃ f : RaxFrame W,
      (⟨c, pos.node :: pos.stack, pos.key ++ pos.node.data.take pos.node.edgeLen⟩ :
        RaxPos W).At head
        (f :: ts) ∧
      underAll (pathOf ts) pos.node.childEntries ++ afterPath ts =
        underAll (pathOf (f :: ts)) c.entries ++ afterPath (f :: ts) := by
  obtain ⟨hpath, hstack, hkey⟩ := h
  obtain ⟨node, stack, key⟩ := pos
  cases node with
  | compr k d c' =>
    obtain rfl := some.inj hc
    refine ⟨⟨.compr k d c', 0⟩, ⟨hpath.compr, by rw [hstack]; rfl, ?_⟩, ?_⟩
    · rw [hkey]
      simp [pathOf, edge, data, edgeLen, size, iscompr]
    · simp [afterPath, pathOf, edge, after, childEntries,
        underAll_underAll]
  | normal k d cs =>
    have hshape := (hpath.wf hhead).2.1
    cases cs with
    | nil => cases hc
    | cons c' cs =>
      obtain rfl := some.inj hc
      cases d with
      | nil => cases hshape.1
      | cons x d =>
        refine ⟨⟨.normal k (x :: d) (c' :: cs), 0⟩, ⟨hpath.normal rfl, by rw [hstack]; rfl, ?_⟩, ?_⟩
        · rw [hkey]
          simp [pathOf, edge, data, edgeLen, iscompr]
        · simp [afterPath, pathOf, edge, after, childEntries,
            entriesIn, underAll_append, underAll_underAll]

lemma firstChild_eq_none (h : n.Shape) : n.firstChild = none ↔ n.size = 0 := by
  cases n with
  | compr k d c =>
    simpa [firstChild, size, data] using h.1
  | normal k d cs =>
    rw [firstChild, head?_eq_none_iff, size, data, h.1,
      length_eq_zero_iff]

lemma childEntries_of_size_zero (h : n.Shape) (hsize : n.size = 0) :
    n.childEntries = [] := by
  cases n with
  | compr k d c => exact absurd (eq_nil_of_length_eq_zero hsize) h.1
  | normal k d cs =>
    obtain rfl : d = [] := eq_nil_of_length_eq_zero hsize
    exact entriesIn_nil cs

lemma raxNextLoop_firstChild (fuel : ℕ) {c : RaxNode W} (hc : pos.node.firstChild = some c) :
    raxNextLoop (fuel + 1) false pos =
      if c.key.iskey then some (some
        ⟨c, pos.node :: pos.stack, pos.key ++ pos.node.data.take pos.node.edgeLen⟩)
      else raxNextLoop fuel false
        ⟨c, pos.node :: pos.stack, pos.key ++ pos.node.data.take pos.node.edgeLen⟩ := by
  simp only [raxNextLoop, hc]

lemma raxNextLoop_sibling (fuel : ℕ) {noup : Bool} (h : noup = true ∨ pos.node.firstChild = none) :
    raxNextLoop (fuel + 1) noup pos =
      (raxNextSibling noup pos).elim (some none) fun pos' =>
        if pos'.node.key.iskey then some (some pos') else raxNextLoop fuel false pos' := by
  rcases h with rfl | h
  · rw [raxNextLoop]
    · cases raxNextSibling true pos <;> rfl
    · simp
  · cases noup with
    | true =>
      rw [raxNextLoop]
      · cases raxNextSibling true pos <;> rfl
      · simp
    | false =>
      simp only [raxNextLoop, h]
      cases raxNextSibling false pos <;> rfl

/-- On arrival at the node the loop stops at its key or goes down to the first key below it. -/
def ArrivesAt (head n : RaxNode W) : Prop :=
  ∀ (pos : RaxPos W) (ts : List (RaxFrame W)) (fuel : ℕ), pos.node = n → pos.At head ts → n.WF →
    n.count ≤ fuel → StepsTo head (underAll (pathOf ts) n.entries ++ afterPath ts)
      (if n.key.iskey then some (some pos) else raxNextLoop fuel false pos)

lemma raxNextLoop_arrive (hhead : head.Shape) : ∀ n, ArrivesAt head n := by
  -- the case of a node follows from that of its first child
  have hcase : ∀ n, (∀ c, n.firstChild = some c → c.WF ∧ c.count < n.count ∧ ArrivesAt head c) →
      ArrivesAt head n := by
    intro n ih pos ts fuel hn hat hwf hfuel
    subst hn
    cases hkey : pos.node.key.iskey with
    | true =>
      rw [hat.entries_of_iskey hkey, if_pos rfl]
      exact .inr ⟨_, _, pos, rfl, rfl, ts, hat, hkey, rfl⟩
    | false =>
      rw [if_neg Bool.false_ne_true, RainCall.entries_eq, entry_of_not_iskey hkey, nil_append]
      cases hc : pos.node.firstChild with
      | none =>
        rw [hwf.iskey_of_size ((firstChild_eq_none hwf.shape).mp hc)] at hkey
        cases hkey
      | some c =>
        obtain ⟨hcwf, hcount, ihc⟩ := ih c hc
        obtain ⟨f, hat', hlist⟩ := hat.firstChild hhead hc
        obtain ⟨fuel, rfl⟩ : ∃ m, fuel = m + 1 := ⟨fuel - 1, by omega⟩
        rw [hlist, raxNextLoop_firstChild fuel hc]
        exact ihc _ _ fuel rfl hat' hcwf (by omega)
  intro n
  induction n using induct with
  | hc k d c ih =>
    intro pos ts fuel hn hat hwf hfuel
    cases hwf with
    | compr hd hc =>
      refine hcase _ (fun c' hc' => ?_) pos ts fuel hn hat (.compr hd hc) hfuel
      obtain rfl := some.inj hc'
      exact ⟨hc, by rw [count.eq_1]; omega, ih⟩
  | hn k d cs ih =>
    intro pos ts fuel hn hat hwf hfuel
    refine hcase _ (fun c' hc' => ?_) pos ts fuel hn hat hwf hfuel
    have hmem : c' ∈ cs := mem_of_mem_head? hc'
    refine ⟨hwf.shape.2.2 c' hmem, ?_, ih c' hmem⟩
    have hle := le_sum_of_mem (mem_map.mpr ⟨c', hmem, rfl⟩ : c'.count ∈ cs.map count)
    rw [count.eq_2, countIn_eq]
    omega

variable {cs : List (RaxNode W)}

/-- The scan for the next child with a byte greater than `x` at a normal node, whose bytes from
index `p` on are the greater ones. -/
lemma raxNextChild_spec (hhead : head.Shape)
    (hpath : RaxPath head ts (.normal k d cs)) {x : UInt8} {p : ℕ} (h1 : ∀ y ∈ d.take p, ¬ x < y)
    (h2 : ∀ y ∈ d.drop p, x < y) {least : ℕ} (hleast : p < d.length → least < d.length) :
    (entriesIn (d.drop p) (cs.drop p) = [] ∧
      raxNextChild (.normal k d cs) (ts.map node) (pathOf ts) least x = none) ∨
    ∃ pos f, raxNextChild (.normal k d cs) (ts.map node) (pathOf ts) least x = some pos ∧
      pos.At head (f :: ts) ∧
      underAll (pathOf ts) (entriesIn (d.drop p) (cs.drop p)) ++ afterPath ts =
        underAll (pathOf (f :: ts)) pos.node.entries ++ afterPath (f :: ts) := by
  obtain ⟨hlen, -, -⟩ := (hpath.wf hhead).2.1
  by_cases hp : p < d.length
  · right
    have hpc : p < cs.length := hlen ▸ hp
    have hdrop : d.drop p = d[p] :: d.drop (p + 1) := drop_eq_getElem_cons hp
    have hidx : d.findIdx? (fun y => decide (x < y)) = some p := by
      rw [findIdx?_eq_some_iff_getElem]
      refine ⟨hp, decide_eq_true (h2 _ (hdrop ▸ mem_cons_self)), fun j hj => ?_⟩
      have hmem : d[j] ∈ d.take p := mem_take_iff_getElem.mpr ⟨j, by omega, rfl⟩
      simpa using h1 _ hmem
    have hc : cs[p]? = some cs[p] := getElem?_eq_getElem hpc
    have hedge : d[p]? = some d[p] := getElem?_eq_getElem hp
    refine ⟨⟨cs[p], .normal k d cs :: ts.map node, pathOf ts ++ [d[p]]⟩,
      ⟨.normal k d cs, p⟩, ?_, ⟨hpath.normal hc, rfl, ?_⟩, ?_⟩
    · rw [raxNextChild, if_pos (hleast hp), hidx, bind_eq_bind, bind_some, hc,
        bind_eq_bind, bind_some, hdrop, take_succ_cons, take_zero]
    · simp only [pathOf, edge, hedge, toList_some]
    · rw [hdrop, drop_eq_getElem_cons hpc, entriesIn]
      simp only [afterPath, pathOf, edge, after, hedge, toList_some,
        underAll_append, underAll_underAll, append_assoc]
  · left
    have hnil : d.drop p = [] := drop_eq_nil_of_le (by omega)
    have hnone : d.findIdx? (fun y => decide (x < y)) = none := by
      rw [findIdx?_eq_none_iff]
      intro y hy
      rw [take_of_length_le (by omega)] at h1
      simpa using h1 y hy
    refine ⟨by rw [hnil, entriesIn_nil], ?_⟩
    rw [raxNextChild, hnone]
    split <;> rfl

/-- In a sorted list the bytes before an index are smaller and those after it greater. -/
lemma sorted_around (hd : d.Pairwise (· < ·)) {i : ℕ} (hi : i < d.length) :
    (∀ y ∈ d.take i, y < d[i]) ∧ ∀ y ∈ d.drop (i + 1), d[i] < y := by
  have hsplit := hd
  rw [← take_append_drop i d, drop_eq_getElem_cons hi] at hsplit
  obtain ⟨-, hs, hcross⟩ := pairwise_append.mp hsplit
  exact ⟨fun y hy => hcross y hy d[i] mem_cons_self, (pairwise_cons.mp hs).1⟩

/-- The edge at the end of a path, with the bytes of its node on the two sides of it. -/
lemma RaxPath.pathOf_normal {i : ℕ} {c : RaxNode W}
    (h : RaxPath head ts (.normal k d cs)) (hhead : head.Shape) (hc : cs[i]? = some c) :
    ∃ hi : i < d.length, pathOf (⟨.normal k d cs, i⟩ :: ts) = pathOf ts ++ [d[i]] ∧
      (∀ y ∈ d.take i, y < d[i]) ∧ ∀ y ∈ d.drop (i + 1), d[i] < y := by
  obtain ⟨hlen, hsorted, -⟩ := (h.wf hhead).2.1
  have hi : i < d.length := hlen ▸ (List.getElem?_eq_some_iff.mp hc).1
  refine ⟨hi, ?_, sorted_around hsorted hi⟩
  simp only [pathOf, edge, getElem?_eq_getElem hi, toList_some]

/-- Going up from the end of a path: the next node, if any entry follows. -/
lemma raxNextUp_spec (h : RaxPath head ts n) (hhead : head.Shape) :
    (afterPath ts = [] ∧ raxNextUp (ts.map node) (pathOf ts) = none) ∨
    ∃ pos ts', raxNextUp (ts.map node) (pathOf ts) = some pos ∧ pos.At head ts' ∧
      ts' ≠ [] ∧ afterPath ts = underAll (pathOf ts') pos.node.entries ++ afterPath ts' := by
  induction h with
  | root => exact .inl ⟨rfl, rfl⟩
  | @compr ts k d c hpath ih =>
    have hkey : raxIteratorDelChars (pathOf (⟨.compr k d c, 0⟩ :: ts))
        (compr k d c).edgeLen = pathOf ts := raxIteratorDelChars_append (pathOf ts) d
    have hafter : afterPath (⟨.compr k d c, 0⟩ :: ts) = afterPath ts := by
      simp [afterPath, after]
    rw [List.map_cons, raxNextUp, hkey, raxNextChild]
    exact ih
  | @normal ts k d cs i c hpath hc ih =>
    obtain ⟨hi, hpathOf, hbefore, hafter⟩ := hpath.pathOf_normal hhead hc
    have hkey : raxIteratorDelChars (pathOf ts ++ [d[i]]) (normal k d cs).edgeLen =
        pathOf ts := raxIteratorDelChars_append (pathOf ts) [d[i]]
    have h1 : ∀ y ∈ d.take (i + 1), ¬ d[i] < y := by
      intro y hy
      rw [List.take_succ_eq_append_getElem hi] at hy
      rcases List.mem_append.mp hy with hy | hy
      · exact fun h => UInt8.lt_irrefl y (UInt8.lt_trans (hbefore y hy) h)
      · rw [List.mem_singleton.mp hy]
        exact UInt8.lt_irrefl _
    have hstep := raxNextChild_spec hhead hpath h1 hafter fun h => (by omega : 1 < d.length)
    rw [hpathOf, List.map_cons, raxNextUp, hkey, prevChild_append]
    rcases hstep with ⟨hnil, hnone⟩ | ⟨pos, f, hsome, hat, hlist⟩
    · have hafter : afterPath (⟨.normal k d cs, i⟩ :: ts) = afterPath ts := by
        simp [afterPath, after, hnil]
      rw [hnone, hafter]
      exact ih
    · rw [hsome]
      refine .inr ⟨pos, f :: ts, rfl, hat, by simp, ?_⟩
      rw [afterPath, after, hlist]

/-- After the search for a sibling the loop reaches the first of the entries found there. -/
lemma stepsTo_of_sibling (hhead : head.Shape) {noup : Bool} (hfuel : head.count ≤ fuel)
    (hnoup : noup = true ∨ pos.node.firstChild = none) {l : List (RaxEntry W)}
    (h : (l = [] ∧ raxNextSibling noup pos = none) ∨ ∃ pos' ts', raxNextSibling noup pos = some
      pos' ∧ pos'.At head ts' ∧ ts' ≠ [] ∧ l = underAll (pathOf ts') pos'.node.entries ++
      afterPath ts') :
    StepsTo head l (raxNextLoop (fuel + 1) noup pos) := by
  rw [raxNextLoop_sibling fuel hnoup]
  rcases h with ⟨rfl, hnone⟩ | ⟨pos', ts', hsome, hat, hne, rfl⟩
  · rw [hnone]
    exact .inl ⟨rfl, rfl⟩
  · rw [hsome]
    have hcount := hat.path.length_add_count_le
    exact raxNextLoop_arrive hhead _ pos' ts' fuel rfl hat ((hat.path.wf hhead).2.2 hne) (by omega)

/-- The step forward from a node goes to the first of the entries below and after it. -/
lemma raxNextLoop_spec (hhead : head.Shape) (hat : pos.At head ts) (hfuel : head.count ≤ fuel) :
    StepsTo head (underAll (pathOf ts) pos.node.childEntries ++ afterPath ts)
      (raxNextLoop (fuel + 1) false pos) := by
  cases hc : pos.node.firstChild with
  | some c =>
    obtain ⟨f, hat', hlist⟩ := hat.firstChild hhead hc
    have hcount := hat'.path.length_add_count_le
    rw [hlist, raxNextLoop_firstChild fuel hc]
    exact raxNextLoop_arrive hhead c _ (f :: ts) fuel rfl hat'
      ((hat'.path.wf hhead).2.2 (by simp)) (by simp only at hcount; omega)
  | none =>
    have hshape := (hat.path.wf hhead).2.1
    rw [childEntries_of_size_zero hshape ((firstChild_eq_none hshape).mp hc)]
    refine stepsTo_of_sibling hhead hfuel (.inr hc) ?_
    rw [raxNextSibling, if_neg Bool.false_ne_true, hat.stack, hat.key]
    exact raxNextUp_spec hat.path hhead

/-! ### Backward -/

lemma raxSeekGreatest_spec (hhead : head.Shape) :
    ∀ (n : RaxNode W) (ts : List (RaxFrame W)), RaxPath head ts n → n.entries ≠ [] →
      ∃ l e, underAll (pathOf ts) n.entries = l ++ [e] ∧
        (raxSeekGreatest n (ts.map node) (pathOf ts)).Reaches head e := by
  intro n
  induction n using induct with
  | hc k d c ih =>
    intro ts hpath hne
    have hwf := (hpath.compr.wf hhead).2.2 (by simp)
    obtain ⟨l, e, hle, hreach⟩ := ih _ hpath.compr hwf.entries_ne_nil
    refine ⟨underAll (pathOf ts) k.entry ++ l, e, ?_, hreach⟩
    rw [entries, underAll_append, underAll_underAll, append_assoc, ← hle]
    rfl
  | hn k d cs ih =>
    intro ts hpath hne
    obtain ⟨hlen, -, hcs⟩ := (hpath.wf hhead).2.1
    -- the recursion over the children ends at the last one
    have hlast : ∀ (l : List (RaxNode W)) (c : RaxNode W) (stack : List (RaxNode W))
        (key : Bytes), raxSeekGreatestIn (.normal k d cs) (l ++ [c]) stack key =
          raxSeekGreatest c (.normal k d cs :: stack) (key ++ d.drop (d.length - 1)) := by
      intro l c stack key
      induction l with
      | nil => rw [nil_append, raxSeekGreatestIn]; rfl
      | cons a l ihl =>
        cases l with
        | nil | cons b l => exact ihl
    rcases eq_nil_or_concat' cs with rfl | ⟨init, c, rfl⟩
    · obtain rfl : d = [] := eq_nil_of_length_eq_zero hlen
      have hkey : k.iskey = true := by
        by_contra hk
        simp [entries, entry_of_not_iskey (Bool.not_eq_true _ ▸ hk)] at hne
      refine ⟨[], (pathOf ts, raxGetData k), ?_, ts, ⟨hpath, rfl, rfl⟩, hkey, rfl⟩
      simp [entries, entry_of_iskey hkey, underAll, RaxEntry.under]
    · have hd : 0 < d.length := by
        rw [hlen, length_append]
        exact Nat.succ_pos _
      have hi : d.length - 1 = init.length := by
        rw [hlen, length_append, length_singleton, Nat.add_sub_cancel]
      have hx : d[init.length]? = some d[init.length] := getElem?_eq_getElem (by omega)
      have hc : (init ++ [c])[init.length]? = some c := by
        rw [getElem?_append_right le_rfl, Nat.sub_self, getElem?_cons_zero]
      have hdrop : d.drop (d.length - 1) = [d[init.length]] := by
        rw [hi, drop_eq_getElem_cons (by omega), drop_of_length_le (by omega)]
      have hpath' := hpath.normal hc
      obtain ⟨l, e, hle, hreach⟩ := ih c (by simp) _ hpath' (hcs c (by simp)).entries_ne_nil
      have hpathOf : pathOf (⟨.normal k d (init ++ [c]), init.length⟩ :: ts) =
          pathOf ts ++ [d[init.length]] := by
        simp only [pathOf, edge, hx, toList_some]
      rw [hpathOf] at hle hreach
      refine ⟨underAll (pathOf ts) (k.entry ++
        entriesIn (d.take init.length) ((init ++ [c]).take init.length)) ++ l, e, ?_, ?_⟩
      · have hnil : d.drop (init.length + 1) = [] := drop_of_length_le (by omega)
        rw [entries, entriesIn_split hlen hx hc, hnil, entriesIn_nil, append_nil,
          append_assoc, ← hle]
        simp only [underAll_append, underAll_underAll, append_assoc]
      · rw [raxSeekGreatest, hlast, hdrop]
        exact hreach

/-- One round of the step backward at a normal node, whose bytes before index `p` are those smaller
than `x`: it reaches the last entry below these children, or stays at the node if there are none. -/
lemma raxPrevVisit_normal (hhead : head.Shape)
    (hpath : RaxPath head ts (.normal k d cs)) {x : UInt8} {p : ℕ} (hp : p ≤ d.length)
    (h1 : ∀ y ∈ d.take p, y < x) (h2 : ∀ y ∈ d.drop p, ¬ y < x) {least : ℕ}
    (hleast : 0 < p → least < d.length) :
    (entriesIn (d.take p) (cs.take p) = [] ∧
      raxPrevVisit (.normal k d cs) (ts.map node) (pathOf ts ++ [x]) least =
        ⟨.normal k d cs, ts.map node, pathOf ts⟩) ∨
    ∃ l e, underAll (pathOf ts) (entriesIn (d.take p) (cs.take p)) = l ++ [e] ∧
      (raxPrevVisit (.normal k d cs) (ts.map node) (pathOf ts ++ [x]) least).Reaches head
        e := by
  obtain ⟨hlen, -, hcs⟩ := (hpath.wf hhead).2.1
  have hkey : raxIteratorDelChars (pathOf ts ++ [x]) (normal k d cs).edgeLen = pathOf ts :=
    raxIteratorDelChars_append (pathOf ts) [x]
  rw [raxPrevVisit, hkey, prevChild_append]
  cases p with
  | zero =>
    left
    have hnone : d.reverse.findIdx? (fun y => decide (y < x)) = none := by
      rw [findIdx?_eq_none_iff]
      intro y hy
      simpa using h2 y (mem_reverse.mp hy)
    refine ⟨by rw [take_zero, entriesIn_nil], ?_⟩
    have hchild : raxPrevChild (.normal k d cs) (ts.map node) (pathOf ts) least x = none := by
      rw [raxPrevChild, hnone]
      split <;> rfl
    rw [hchild, getD_none]
  | succ p =>
    right
    have hpd : p < d.length := by omega
    have hpc : p < cs.length := hlen ▸ hpd
    have htake : d.take (p + 1) = d.take p ++ [d[p]] := take_succ_eq_append_getElem hpd
    have hidx : d.reverse.findIdx? (fun y => decide (y < x)) = some (d.length - 1 - p) := by
      rw [findIdx?_eq_some_iff_getElem]
      refine ⟨by rw [length_reverse]; omega, ?_, fun j hj => ?_⟩
      · rw [getElem_reverse]
        exact decide_eq_true (h1 _ (mem_take_iff_getElem.mpr ⟨p, by omega, by congr 1; omega⟩))
      · have hmem : d[d.length - 1 - j] ∈ d.drop (p + 1) := by
          rw [mem_drop_iff_getElem]
          exact ⟨d.length - 1 - j - (p + 1), by omega, by congr 1; omega⟩
        simpa using h2 _ hmem
    have hc : cs[p]? = some cs[p] := getElem?_eq_getElem hpc
    have hx : d[p]? = some d[p] := getElem?_eq_getElem hpd
    have hpath' := hpath.normal hc
    have hpathOf : pathOf (⟨.normal k d cs, p⟩ :: ts) = pathOf ts ++ [d[p]] := by
      simp only [pathOf, edge, hx, toList_some]
    obtain ⟨l, e, hle, hreach⟩ := raxSeekGreatest_spec hhead cs[p] _ hpath'
      (hcs _ (getElem_mem hpc)).entries_ne_nil
    rw [hpathOf] at hle hreach
    refine ⟨underAll (pathOf ts) (entriesIn (d.take p) (cs.take p)) ++ l, e, ?_, ?_⟩
    · rw [htake, take_succ_eq_append_getElem hpc,
        entriesIn_append (by rw [length_take, length_take, hlen]), entriesIn,
        entriesIn_nil, append_nil, underAll_append, underAll_underAll, hle, append_assoc]
    · have hi : d.length - 1 - (d.length - 1 - p) = p := by omega
      rw [raxPrevChild, if_pos (hleast (Nat.succ_pos p)), hidx]
      simp only [hi, hc, bind_eq_bind, bind_some]
      rw [drop_eq_getElem_cons hpd]
      exact hreach

lemma raxPrevVisit_compr (k : RaxData W) (d : Bytes) (c : RaxNode W) (least : ℕ) :
    raxPrevVisit (.compr k d c) (ts.map node) (pathOf ts ++ d) least =
      ⟨.compr k d c, ts.map node, pathOf ts⟩ := by
  have hkey : raxIteratorDelChars (pathOf ts ++ d) (compr k d c).edgeLen = pathOf ts :=
    raxIteratorDelChars_append (pathOf ts) d
  rw [raxPrevVisit, hkey]
  rfl

/-- After a round at the node at the end of the path, which looked at the entries `l` below it: the
loop stops there, at the node itself, or goes on upwards. -/
lemma stepsTo_of_visit {node : RaxNode W} (hpath : RaxPath head ts node) {l : List (RaxEntry W)}
    (hvisit : (l = [] ∧ pos = ⟨node, ts.map RaxFrame.node, pathOf ts⟩) ∨ ∃ l' e, underAll (pathOf
      ts) l = l' ++ [e] ∧ pos.Reaches head e)
    (hup : StepsTo head (beforePath ts).reverse (raxPrevLoop fuel false ⟨node, ts.map
      RaxFrame.node, pathOf ts⟩)) :
    StepsTo head (beforePath ts ++ underAll (pathOf ts) (node.key.entry ++ l)).reverse
      (if pos.node.key.iskey then some (some pos) else raxPrevLoop fuel false pos) := by
  rcases hvisit with ⟨rfl, rfl⟩ | ⟨l', e, hl, hreach⟩
  · rw [append_nil]
    cases hkey : node.key.iskey with
    | true =>
      rw [entry_of_iskey hkey, if_pos rfl]
      refine .inr ⟨(pathOf ts, raxGetData node.key), (beforePath ts).reverse, _, ?_, rfl, ts,
        ⟨hpath, rfl, rfl⟩, hkey, rfl⟩
      simp [underAll, RaxEntry.under]
    | false =>
      rw [entry_of_not_iskey hkey, underAll_nil, append_nil, if_neg Bool.false_ne_true]
      exact hup
  · obtain ⟨ts', hat, hkey, he⟩ := hreach
    rw [if_pos hkey, underAll_append, hl]
    refine .inr ⟨e, (beforePath ts ++ (underAll (pathOf ts) node.key.entry ++ l')).reverse, pos, ?_,
      rfl, ts', hat, hkey, he⟩
    simp

lemma raxPrevLoop_up (fuel : ℕ) (n parent : RaxNode W) (stack : List (RaxNode W))
    (key : Bytes) : raxPrevLoop (fuel + 1) false ⟨n, parent :: stack, key⟩ =
      if (raxPrevVisit parent stack key 1).node.key.iskey then
        some (some (raxPrevVisit parent stack key 1))
      else raxPrevLoop fuel false (raxPrevVisit parent stack key 1) := rfl

lemma raxPrevLoop_noup (fuel : ℕ) (n : RaxNode W) (stack : List (RaxNode W)) (key : Bytes) :
    raxPrevLoop (fuel + 1) true ⟨n, stack, key⟩ =
      if (raxPrevVisit n stack key 0).node.key.iskey then some (some (raxPrevVisit n stack key 0))
      else raxPrevLoop fuel false (raxPrevVisit n stack key 0) := rfl

/-- The step backward from a node goes to the last of the entries before it. -/
lemma raxPrevLoop_spec (hhead : head.Shape) (hpath : RaxPath head ts n) (hfuel : ts.length ≤ fuel) :
    StepsTo head (beforePath ts).reverse
      (raxPrevLoop (fuel + 1) false ⟨n, ts.map RaxFrame.node, pathOf ts⟩) := by
  induction hpath generalizing fuel with
  | root => exact .inl ⟨rfl, rfl⟩
  | @compr ts k d c hpath ih =>
    obtain ⟨fuel, rfl⟩ : ∃ m, fuel = m + 1 := ⟨fuel - 1, by rw [List.length_cons] at hfuel; omega⟩
    have hpathOf : pathOf (⟨.compr k d c, 0⟩ :: ts) = pathOf ts ++ d := rfl
    have hbefore : beforePath (⟨.compr k d c, 0⟩ :: ts) =
        beforePath ts ++ underAll (pathOf ts) (k.entry ++ []) := by
      rw [List.append_nil]
      rfl
    rw [List.map_cons, raxPrevLoop_up, hbefore, hpathOf, raxPrevVisit_compr]
    exact stepsTo_of_visit hpath (.inl ⟨rfl, rfl⟩) (ih (by simpa using hfuel))
  | @normal ts k d cs i c hpath hc ih =>
    obtain ⟨fuel, rfl⟩ : ∃ m, fuel = m + 1 := ⟨fuel - 1, by rw [List.length_cons] at hfuel; omega⟩
    obtain ⟨hi, hpathOf, hsmaller, hgreater⟩ := hpath.pathOf_normal hhead hc
    have h2 : ∀ y ∈ d.drop i, ¬ y < d[i] := by
      intro y hy
      rw [List.drop_eq_getElem_cons hi] at hy
      rcases List.mem_cons.mp hy with rfl | hy
      · exact UInt8.lt_irrefl _
      · exact fun h => UInt8.lt_irrefl y (UInt8.lt_trans h (hgreater y hy))
    have hvisit := raxPrevVisit_normal hhead hpath hi.le hsmaller h2 fun h =>
      (by omega : 1 < d.length)
    rw [hpathOf]
    refine stepsTo_of_visit hpath ?_ (ih (by simpa using hfuel))
    rcases hvisit with ⟨hnil, heq⟩ | hreach
    · exact .inl ⟨hnil, heq⟩
    · exact .inr hreach

end RainCall
