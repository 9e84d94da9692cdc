import RainCall.Foundation.Bytes

/-!
# The radix tree

The tree of `rax.c`. A node is compressed, with a string and one child, or normal, with one byte for
each child; both can hold a key. Values are `void *`: the null pointer is `none`, and `W` is the
type of the other ones.

`raxLowWalk` returns the node where it stops together with the stack of its ancestors. An entry of
the stack is an ancestor and the index of the child taken, so writing a pointer through `parentlink`
is `plug`: the ancestors are rebuilt around the new node. The functions on nodes are modelled by
what they do to the edges, the children and the value; the bytes of a node, where padding and
pointers move, are not. Allocation does not fail.
-/

namespace RainCall

/-- `RAX_NODE_MAX_SIZE`, the largest value of the bit field `size`. -/
def raxNodeMaxSize : ℕ := 2 ^ 29 - 1

/-- The bytes between the data of a node and its child pointers, which are aligned. -/
def raxPadding (nodesize : ℕ) : ℕ := (8 - (nodesize + 4) % 8) % 8

/-- The bits `iskey` and `isnull` of a node and its value pointer. -/
structure RaxData (W : Type) where
  iskey : Bool
  /-- The value is the null pointer and is not stored. -/
  isnull : Bool
  /-- The last value pointer written into the node. -/
  value : Option W
  deriving DecidableEq, Repr

inductive RaxNode (W : Type) where
  /-- A node with `iscompr` set: the bytes lead to the only child. -/
  | compr (key : RaxData W) (data : Bytes) (child : RaxNode W)
  /-- A node with one byte for each child. -/
  | normal (key : RaxData W) (data : Bytes) (children : List (RaxNode W))
  deriving Repr

variable {W : Type}

/-- The header of a node that `raxNewNode` returns. -/
def RaxData.new : RaxData W := ⟨false, false, none⟩

def raxSetData (k : RaxData W) : Option W → RaxData W
  | some w => ⟨true, false, some w⟩
  | none => { k with iskey := true, isnull := true }

def raxGetData (k : RaxData W) : Option W := if k.isnull then none else k.value

/-- `if (n->iskey) raxSetData(n', raxGetData(n))`: the value of `k` in the node with header `k'`. -/
def raxCopyData (k k' : RaxData W) : RaxData W :=
  if k.iskey then raxSetData k' (raxGetData k) else k'

namespace RaxNode

def key : RaxNode W → RaxData W
  | .compr k _ _ => k
  | .normal k _ _ => k

def withKey (k : RaxData W) : RaxNode W → RaxNode W
  | .compr _ d c => .compr k d c
  | .normal _ d cs => .normal k d cs

/-- The bytes of a node. -/
def data : RaxNode W → Bytes
  | .compr _ d _ => d
  | .normal _ d _ => d

/-- The field `size`. -/
def size (n : RaxNode W) : ℕ := n.data.length

/-- The bit `iscompr`. -/
def iscompr : RaxNode W → Bool
  | .compr .. => true
  | .normal .. => false

/-- `h->iskey || (!h->iscompr && h->size != 1)`: the node is a key or has several children or none.
-/
def isEdge (n : RaxNode W) : Bool := n.key.iskey || (!n.iscompr && n.size != 1)

/-- Store another pointer at the child with index `idx`. -/
def setChild : RaxNode W → ℕ → RaxNode W → RaxNode W
  | .compr k d _, _, c => .compr k d c
  | .normal k d cs, idx, c => .normal k d (cs.set idx c)

end RaxNode

/-- `raxNewNode(rax, 0, 0)` -/
def raxNewNode : RaxNode W := .normal RaxData.new [] []

structure Rax (W : Type) where
  head : RaxNode W
  numele : ℕ
  numnodes : ℕ

def raxNew : Rax W := ⟨raxNewNode, 0, 1⟩

def raxSize (rax : Rax W) : ℕ := rax.numele

/-! ### Walking down -/

/-- An ancestor and the index of the child on the way. -/
structure RaxFrame (W : Type) where
  node : RaxNode W
  idx : ℕ

/-- Rebuild the ancestors, nearest first, around a node. -/
def plug : List (RaxFrame W) → RaxNode W → RaxNode W
  | [], n => n
  | f :: ts, n => plug ts (f.node.setChild f.idx n)

/-- The number of bytes two strings have in common. -/
def commonLength : Bytes → Bytes → ℕ
  | x :: d, y :: s => if x = y then commonLength d s + 1 else 0
  | _, _ => 0

/-- The index of the child for byte `c` in a normal node: the last child is tried first. -/
def raxChildIndex (data : Bytes) (c : UInt8) : Option ℕ :=
  match data.getLast? with
  | none => none
  | some last =>
    if last = c then some (data.length - 1)
    else if last < c then none
    else if data.idxOf c = data.length then none
    else some (data.idxOf c)

/-- What `raxLowWalk` returns. -/
structure RaxWalk (W : Type) where
  rest : Bytes
  /-- `stopnode` -/
  node : RaxNode W
  splitpos : ℕ
  /-- The ancestors of the stop node, nearest first. -/
  stack : List (RaxFrame W)

/-- The loop of `raxLowWalk`. Every round takes at least one byte, so the length of the key is
enough fuel. -/
def raxLowWalkLoop : ℕ → RaxNode W → Bytes → List (RaxFrame W) → RaxWalk W
  | _, h, [], ts => ⟨[], h, 0, ts⟩
  | 0, h, s, ts => ⟨s, h, 0, ts⟩
  | fuel + 1, .compr k d child, c :: s, ts =>
    let j := commonLength d (c :: s)
    if j ≠ d.length then ⟨(c :: s).drop j, .compr k d child, j, ts⟩
    else raxLowWalkLoop fuel child ((c :: s).drop j) (⟨.compr k d child, 0⟩ :: ts)
  | fuel + 1, .normal k d children, c :: s, ts =>
    match raxChildIndex d c with
    | none => ⟨c :: s, .normal k d children, 0, ts⟩
    | some j =>
      match children[j]? with
      | none => ⟨c :: s, .normal k d children, 0, ts⟩
      | some child => raxLowWalkLoop fuel child s (⟨.normal k d children, j⟩ :: ts)

def raxLowWalk (rax : Rax W) (s : Bytes) : RaxWalk W := raxLowWalkLoop s.length rax.head s []

/-- `i == len && (!h->iscompr || splitpos == 0)`: the walk ended at the node of the key. -/
def RaxWalk.atNode (w : RaxWalk W) : Bool := w.rest.isEmpty && (!w.node.iscompr || w.splitpos == 0)

/-- `raxFind`: the value of the key, if it is present. -/
def raxFind (rax : Rax W) (s : Bytes) : Option (Option W) :=
  let w := raxLowWalk rax s
  if !w.atNode || !w.node.key.iskey then none else some (raxGetData w.node.key)

/-! ### Insertion -/

/-- The position of byte `c` among the children in `raxAddChild`. -/
def raxAddChildPos (data : Bytes) (c : UInt8) : ℕ :=
  match data.getLast? with
  | none => 0
  | some last => if last < c then data.length else data.findIdx fun x => decide (c < x)

/-- `raxAddChild`, with the pointer to the new child. A compressed node fails the assertion and is
left alone. -/
def raxAddChild (n : RaxNode W) (c : UInt8) (child : RaxNode W) : RaxNode W :=
  match n with
  | .compr .. => n
  | .normal k d cs =>
    .normal k (d.insertIdx (raxAddChildPos d c) c) (cs.insertIdx (raxAddChildPos d c) child)

/-- `raxCompressNode`, with the pointer to the new child. -/
def raxCompressNode (n : RaxNode W) (s : Bytes) (child : RaxNode W) : RaxNode W :=
  .compr (raxCopyData n.key n.key) s child

/-- The loop of `raxGenericInsert` that inserts the missing nodes below `h`, and the assignment of
the value after it. The result is the node that replaces `h` and the numbers of new nodes and
elements. -/
def raxInsertRest (data : Option W) : ℕ → RaxNode W → Bytes → RaxNode W × ℕ × ℕ
  | _, h, [] => (h.withKey (raxSetData h.key data), 0, if h.key.iskey then 0 else 1)
  | 0, h, _ :: _ => (h, 0, 0)
  | fuel + 1, h, c :: s =>
    if h.size = 0 ∧ 1 < (c :: s).length then
      let (child, nodes, eles) :=
        raxInsertRest data fuel raxNewNode ((c :: s).drop raxNodeMaxSize)
      (raxCompressNode h ((c :: s).take raxNodeMaxSize) child, nodes + 1, eles)
    else
      let (child, nodes, eles) := raxInsertRest data fuel raxNewNode s
      (raxAddChild h c child, nodes + 1, eles)

/-- A trimmed or postfix node: it is compressed if it has more than one byte. -/
def chainNode (k : RaxData W) (d : Bytes) (child : RaxNode W) : RaxNode W :=
  if 1 < d.length then .compr k d child else .normal k d [child]

/-- Algorithm 1 of `raxGenericInsert`: split the compressed node `k d next` at the mismatch in
position `j` and insert the rest of the key below the split node. -/
def raxSplitMismatch (k : RaxData W) (d : Bytes) (next : RaxNode W) (j : ℕ) (s : Bytes)
    (data : Option W) : RaxNode W × ℕ × ℕ :=
  let postfixlen := d.length - j - 1
  let postfix_ := if 0 < postfixlen then chainNode RaxData.new (d.drop (j + 1)) next else next
  let postfixNodes := if 0 < postfixlen then 1 else 0
  if j = 0 then
    let (split, nodes, eles) := raxInsertRest data s.length
      (.normal (raxCopyData k RaxData.new) (d.take 1) [postfix_]) s
    (split, nodes + postfixNodes, eles)
  else
    let (split, nodes, eles) := raxInsertRest data s.length
      (.normal RaxData.new ((d.drop j).take 1) [postfix_]) s
    let trimmed := if k.iskey && !k.isnull then raxSetData ⟨k.iskey, k.isnull, none⟩ (raxGetData k)
      else ⟨k.iskey, k.isnull, none⟩
    (chainNode trimmed (d.take j) split, nodes + postfixNodes + 1, eles)

/-- Algorithm 2 of `raxGenericInsert`: the key ends inside the compressed node `k d next`, before
position `j`. -/
def raxSplitEnd (k : RaxData W) (d : Bytes) (next : RaxNode W) (j : ℕ) (data : Option W) :
    RaxNode W :=
  chainNode (raxCopyData k RaxData.new) (d.take j)
    (chainNode (raxSetData ⟨true, false, none⟩ data) (d.drop j) next)

/-- `raxGenericInsert`: the new tree, the return value and what is written to `*old`. -/
def raxGenericInsert (rax : Rax W) (s : Bytes) (data : Option W) (overwrite : Bool) :
    Rax W × Bool × Option (Option W) :=
  let w := raxLowWalk rax s
  if w.atNode then
    if w.node.key.iskey then
      let node := if overwrite then w.node.withKey (raxSetData w.node.key data) else w.node
      ({ rax with head := plug w.stack node }, false, some (raxGetData w.node.key))
    else
      ({ rax with head := plug w.stack (w.node.withKey (raxSetData w.node.key data)),
                  numele := rax.numele + 1 }, true, none)
  else
    match w.node, w.rest with
    | .compr k d next, [] =>
      ({ rax with head := plug w.stack (raxSplitEnd k d next w.splitpos data),
                  numele := rax.numele + 1, numnodes := rax.numnodes + 1 }, true, none)
    | .compr k d next, c :: s =>
      let (node, nodes, eles) := raxSplitMismatch k d next w.splitpos (c :: s) data
      (⟨plug w.stack node, rax.numele + eles, rax.numnodes + nodes⟩, true, none)
    | .normal k d cs, rest =>
      let (node, nodes, eles) := raxInsertRest data rest.length (.normal k d cs) rest
      (⟨plug w.stack node, rax.numele + eles, rax.numnodes + nodes⟩, true, none)

def raxInsert (rax : Rax W) (s : Bytes) (data : Option W) : Rax W × Bool × Option (Option W) :=
  raxGenericInsert rax s data true

def raxTryInsert (rax : Rax W) (s : Bytes) (data : Option W) :
    Rax W × Bool × Option (Option W) :=
  raxGenericInsert rax s data false

/-! ### Removal -/

/-- `raxRemoveChild`, with the index of the child. -/
def raxRemoveChild (parent : RaxNode W) (idx : ℕ) : RaxNode W :=
  match parent with
  | .compr k _ _ => .normal (raxCopyData k { k with isnull := false }) [] []
  | .normal k d cs => .normal k (d.eraseIdx idx) (cs.eraseIdx idx)

/-- The loop of `raxRemove` that frees a node without children and its ancestors up to the first one
to keep. The result is the frame of that ancestor, the frames above it and the number of nodes
freed. -/
def raxReclaim (f : RaxFrame W) : List (RaxFrame W) → RaxFrame W × List (RaxFrame W) × ℕ
  | [] => (f, [], 1)
  | g :: ts =>
    if f.node.isEdge then (f, g :: ts, 1)
    else
      let (f', ts', freed) := raxReclaim g ts
      (f', ts', freed + 1)

/-- The loop of `raxRemove` that goes up to the first node of the chain to compress. -/
def raxChainStart (h : RaxNode W) : List (RaxFrame W) → RaxNode W × List (RaxFrame W)
  | [] => (h, [])
  | f :: ts =>
    if f.node.isEdge then (h, f :: ts) else raxChainStart (f.node.setChild f.idx h) ts

/-- The first scan of a chain from node `h` on: the number of further nodes to compress and the size
of the compressed node, which grows from `comprsize` and stays within a node. -/
def raxScanChain : RaxNode W → ℕ → ℕ × ℕ
  | .compr k d c, comprsize =>
    if k.iskey then (0, comprsize)
    else if raxNodeMaxSize < comprsize + d.length then (0, comprsize)
    else ((raxScanChain c (comprsize + d.length)).1 + 1, (raxScanChain c (comprsize + d.length)).2)
  | .normal k d [c], comprsize =>
    if k.iskey || d.length != 1 then (0, comprsize)
    else if raxNodeMaxSize < comprsize + d.length then (0, comprsize)
    else ((raxScanChain c (comprsize + d.length)).1 + 1, (raxScanChain c (comprsize + d.length)).2)
  | .normal _ _ _, comprsize => (0, comprsize)

/-- The second scan of a chain from node `h` on: the bytes of the nodes freed, the first node that
is kept and the number of nodes freed. -/
def raxCopyChain : RaxNode W → Bytes × RaxNode W × ℕ
  | .compr k d c =>
    if k.iskey then ([], .compr k d c, 0)
    else (d ++ (raxCopyChain c).1, (raxCopyChain c).2.1, (raxCopyChain c).2.2 + 1)
  | .normal k d [c] =>
    if k.iskey || d.length != 1 then ([], .normal k d [c], 0)
    else (d ++ (raxCopyChain c).1, (raxCopyChain c).2.1, (raxCopyChain c).2.2 + 1)
  | .normal k d cs => ([], .normal k d cs, 0)

/-- The last child of a node. -/
def RaxNode.lastChild : RaxNode W → Option (RaxNode W)
  | .compr _ _ c => some c
  | .normal _ _ cs => cs.getLast?

/-- Compress the chain that starts at `start`: the new node and the number of nodes saved. The
second scan does not stop at the limit of the first one. The bytes that it copies beyond the
recorded size fall into the padding and the place of the child pointer, which is written after them;
the result `none` stands for a copy past the end of the allocation. -/
def raxCompressChain (start : RaxNode W) : Option (RaxNode W × ℕ) :=
  match start.lastChild with
  | none => some (start, 0)
  | some c =>
    let (more, comprsize) := raxScanChain c start.size
    if 0 < more then
      let (bytes, rest, freed) := raxCopyChain c
      if start.size + bytes.length ≤ comprsize + raxPadding comprsize + 8 then
        some (.compr RaxData.new ((start.data ++ bytes).take comprsize) rest, freed)
      else none
    else some (start, 0)

/-- The end of `raxRemove`: compress the chain around `h`. -/
def raxRecompress (h : RaxNode W) (ts : List (RaxFrame W)) (numele numnodes : ℕ) : Option (Rax W) :=
  let (start, ts') := raxChainStart h ts
  (raxCompressChain start).map fun (new, saved) => ⟨plug ts' new, numele, numnodes - saved⟩

/-- `raxRemove`: the new tree, the return value and what is written to `*old`. -/
def raxRemove (rax : Rax W) (s : Bytes) : Option (Rax W × Bool × Option (Option W)) :=
  let w := raxLowWalk rax s
  if !w.atNode || !w.node.key.iskey then some (rax, false, none)
  else
    let h := w.node.withKey { w.node.key with iskey := false }
    let numele := rax.numele - 1
    let result :=
      if h.size = 0 then
        match w.stack with
        | [] => some ⟨h, numele, rax.numnodes⟩
        | f :: ts =>
          let (g, ts', freed) := raxReclaim f ts
          let new := raxRemoveChild g.node g.idx
          if new.size = 1 ∧ new.key.iskey = false then
            raxRecompress new ts' numele (rax.numnodes - freed)
          else some ⟨plug ts' new, numele, rax.numnodes - freed⟩
      else if h.size = 1 then raxRecompress h w.stack numele rax.numnodes
      else some ⟨plug w.stack h, numele, rax.numnodes⟩
    result.map fun rax' => (rax', true, some (raxGetData w.node.key))

end RainCall
