import RainCall.Rax.Entries
import RainCall.Rax.Insert

/-!
# Removal from the radix tree

After the key bit is cleared `raxRemove` only restructures the tree: it frees the nodes that no
longer lead to a key and merges the chain of nodes with one child around the place of the change.
The first step does not change the map of the tree.

The second scan of a chain does not repeat the size check of the first one, so a chain that does not
fit into a node is cut. The tree keeps its shape and the number of its keys even then; it keeps its
map if no stretch of the remaining keys around the removed one is longer than a node
(`RemovalFits`).
-/

namespace RainCall

open Function Option RaxNode
open List hiding count

variable {W : Type}

/-! ### Nodes without keys -/

/-- No key lies at or below the node. -/
def RaxNode.Dead (n : RaxNode W) : Prop := ∀ s, n.find s = none

variable {n : RaxNode W} {cs : List (RaxNode W)} {f : RaxFrame W} {ts : List (RaxFrame W)}

/-- Every node below the root leads to a key. -/
lemma RaxNode.WF.exists_key (h : n.WF) : ∃ s, (n.find s).isSome := by
  induction h with
  | @compr k d c hd _ ih =>
    obtain ⟨s, hs⟩ := ih
    exact ⟨d ++ s, by rw [find_compr_append k hd, hs]⟩
  | @normal k d cs hlen hsorted hcs hleaf ih =>
    cases d with
    | nil =>
      refine ⟨[], ?_⟩
      rw [find_normal_nil, own_of_iskey (hleaf rfl)]
      rfl
    | cons x d =>
      cases cs with
      | nil => simp at hlen
      | cons c cs =>
        obtain ⟨s, hs⟩ := ih c (by simp)
        exact ⟨x :: s, by rw [find_normal_cons, findIn, if_pos rfl, hs]⟩

lemma isEdge_compr (k : RaxData W) (d : Bytes) (c : RaxNode W) :
    (compr k d c).isEdge = k.iskey := by
  simp [isEdge, iscompr, key]

lemma isEdge_normal (k : RaxData W) (d : Bytes) (cs : List (RaxNode W)) :
    (normal k d cs).isEdge = (k.iskey || d.length != 1) := by
  simp [isEdge, iscompr, key, size, data]

/-- A normal node that is not an edge of a chain has one child. -/
lemma exists_of_isEdge_normal {k : RaxData W} {d : Bytes} (h : (normal k d cs).Shape)
    (hedge : (normal k d cs).isEdge = false) :
    k.iskey = false ∧ ∃ x c, d = [x] ∧ cs = [c] := by
  rw [isEdge_normal, Bool.or_eq_false_iff, bne_eq_false_iff_eq] at hedge
  obtain ⟨x, hx⟩ := length_eq_one_iff.mp hedge.2
  obtain ⟨c, hc⟩ := length_eq_one_iff.mp (h.1.symm.trans hedge.2)
  exact ⟨hedge.1, x, c, hx, hc⟩

/-- A node with one child that is not a key: its bytes lead to the child. -/
lemma chain_spec (h : n.Shape) (hedge : n.isEdge = false) :
    ∃ c, n.lastChild = some c ∧ n.data ≠ [] ∧ c.WF ∧ n.count = 1 + c.count ∧
      n.find = (compr RaxData.new n.data c).find := by
  cases n with
  | compr k d c =>
    rw [isEdge_compr] at hedge
    refine ⟨c, rfl, h.1, h.2, count.eq_1 _ _ _, ?_⟩
    exact find_compr_congr (own_of_not_iskey hedge) rfl
  | normal k d cs =>
    obtain ⟨hk, x, c, rfl, rfl⟩ := exists_of_isEdge_normal h hedge
    refine ⟨c, rfl, by simp [data], h.2.2 c (by simp), ?_, ?_⟩
    · rw [count, countIn, countIn, Nat.add_zero]
    · exact (find_chainNode k (d := [x]) (by simp) c).trans
        (find_compr_congr (own_of_not_iskey hk) rfl)

/-! ### Reclaiming nodes -/

lemma dead_setChild (hf : f.WF) (hedge : f.node.isEdge = false) (hn : n.Dead) :
    (f.node.setChild f.idx n).Dead ∧
      (f.node.setChild f.idx n).count = 1 + n.count := by
  obtain ⟨node, idx⟩ := f
  cases node with
  | compr k d c =>
    rw [isEdge_compr] at hedge
    refine ⟨fun s => ?_, count.eq_1 _ _ _⟩
    by_cases hs : s = []
    · rw [hs]
      exact own_of_not_iskey hedge
    · by_cases hpre : d <+: s
      · obtain ⟨r, rfl⟩ := hpre
        exact (find_compr_append k hf.shape.1 n r).trans (hn r)
      · exact find_compr_of_not hs hpre
  | normal k d cs =>
    obtain ⟨hk, x, c, rfl, rfl⟩ := exists_of_isEdge_normal hf.shape hedge
    obtain rfl : idx = 0 := Nat.lt_one_iff.mp (hf.idx_lt rfl)
    refine ⟨fun s => ?_, ?_⟩
    · cases s with
      | nil =>
        exact own_of_not_iskey hk
      | cons y s =>
        show (normal k [x] [n]).find (y :: s) = none
        rw [find_normal_cons, findIn]
        split
        · exact hn s
        · rw [findIn_of_notMem (by simp)]
    · show (normal k [x] [n]).count = _
      rw [count, countIn, countIn, Nat.add_zero]

/-- The ancestors of a node that are left lead to a prefix. -/
lemma pathOf_isPrefix {ts' : List (RaxFrame W)} (h : ts' <:+ ts) : pathOf ts' <+: pathOf ts := by
  obtain ⟨front, rfl⟩ := h
  induction front with
  | nil => exact prefix_refl _
  | cons f front ih => exact ih.trans (prefix_append _ f.edge)

/-- The nodes freed make up a subtree without keys, whose parent is to keep. -/
lemma raxReclaim_spec (hts : ∀ g ∈ f :: ts, g.WF) (hn : n.Dead) :
    ∃ g ts' freed n', raxReclaim f ts = (g, ts', freed) ∧ n'.Dead ∧
      n'.count + 1 = n.count + freed ∧ plug (g :: ts') n' = plug (f :: ts) n ∧
      g :: ts' <:+ f :: ts ∧ (∀ f' ∈ g :: ts', f'.WF) ∧ (ts' ≠ [] → g.node.isEdge = true) := by
  induction ts generalizing f n with
  | nil => exact ⟨f, [], 1, n, rfl, hn, rfl, rfl, suffix_refl _, hts, by simp⟩
  | cons g ts ih =>
    rw [raxReclaim]
    cases hedge : f.node.isEdge with
    | true => exact ⟨f, g :: ts, 1, n, rfl, hn, rfl, rfl, suffix_refl _, hts, fun _ => hedge⟩
    | false =>
      obtain ⟨hdead, hcount⟩ := dead_setChild (hts f (by simp)) hedge hn
      obtain ⟨g', ts', freed, n', heq, hn', hfreed, hplug, hsuffix, hwf, hend⟩ :=
        ih (fun f' hf' => hts f' (mem_cons_of_mem f hf')) hdead
      refine ⟨g', ts', freed + 1, n', ?_, hn', ?_, hplug,
        hsuffix.trans (suffix_cons f _), hwf, hend⟩
      · rw [heq]
        rfl
      · omega

lemma findIn_eraseIdx {d : Bytes} {i : ℕ} (hn : n.Dead) (hd : d.Nodup)
    (hlen : d.length = cs.length) (hi : i < d.length) (y : UInt8) (s : Bytes) :
    findIn (d.eraseIdx i) (cs.eraseIdx i) y s = findIn d (cs.set i n) y s := by
  induction d generalizing cs i with
  | nil => simp at hi
  | cons x d ih =>
    obtain ⟨hx, hd'⟩ := nodup_cons.mp hd
    cases cs with
    | nil => simp at hlen
    | cons c cs =>
      cases i with
      | zero =>
        rw [eraseIdx_cons_zero, eraseIdx_cons_zero, set_cons_zero, findIn]
        by_cases hxy : x = y
        · rw [if_pos hxy, hn, findIn_of_notMem (hxy ▸ hx)]
        · rw [if_neg hxy]
      | succ i =>
        rw [eraseIdx_cons_succ, eraseIdx_cons_succ, set_cons_succ, findIn,
          findIn, ih hd' (by simpa using hlen) (by simpa using hi)]

lemma countIn_eraseIdx {i : ℕ} (hi : i < cs.length) (n : RaxNode W) :
    countIn (cs.eraseIdx i) + n.count = countIn (cs.set i n) := by
  have hi' : i < (cs.map count).length := by rwa [length_map]
  rw [countIn_eq, countIn_eq, map_set, sum_set, if_pos hi', ← eraseIdx_map,
    eraseIdx_eq_take_drop_succ, sum_append]
  omega

/-- Unlinking a subtree without keys does not change the map. -/
lemma raxRemoveChild_spec (hf : f.WF) (hn : n.Dead) :
    (raxRemoveChild f.node f.idx).Shape ∧
      (raxRemoveChild f.node f.idx).find = (f.node.setChild f.idx n).find ∧
      (raxRemoveChild f.node f.idx).count + n.count = (f.node.setChild f.idx n).count ∧
      (f.node.isEdge = true → (raxRemoveChild f.node f.idx).size = 0 →
        (raxRemoveChild f.node f.idx).key.iskey = true) := by
  obtain ⟨node, idx⟩ := f
  cases node with
  | compr k d c =>
    refine ⟨⟨rfl, List.Pairwise.nil, by simp⟩, ?_, ?_, fun hedge _ => ?_⟩
    · funext s
      show (normal _ [] []).find s = (compr k d n).find s
      cases s with
      | nil =>
        rw [find_normal_nil, find_compr_nil]
        cases hk : k.iskey with
        | true => rw [raxCopyData, if_pos hk, own_raxSetData, own_of_iskey hk]
        | false =>
          rw [raxCopyData, if_neg (by simp [hk]), own_of_not_iskey hk]
          exact own_of_not_iskey rfl
      | cons y s =>
        rw [find_normal_cons, findIn_of_notMem (by simp)]
        by_cases hpre : d <+: y :: s
        · obtain ⟨r, hr⟩ := hpre
          rw [← hr, find_compr_append k hf.shape.1, hn]
        · rw [find_compr_of_not (by simp) hpre]
    · show (normal _ [] []).count + _ = (compr k d n).count
      rw [count, count, countIn]
    · rw [isEdge_compr] at hedge
      show (raxCopyData k _).iskey = true
      rw [raxCopyData, if_pos hedge, raxSetData_iskey]
  | normal k d cs =>
    obtain ⟨hlen, hsorted, hcs⟩ := hf.shape
    have hi : idx < d.length := hf.idx_lt rfl
    have hics : idx < cs.length := hlen ▸ hi
    refine ⟨⟨?_, hsorted.sublist (eraseIdx_sublist d idx), fun c hc => ?_⟩, ?_, ?_, ?_⟩
    · rw [length_eraseIdx_of_lt hi, length_eraseIdx_of_lt hics, hlen]
    · exact hcs c (mem_of_mem_eraseIdx hc)
    · funext s
      show (normal k (d.eraseIdx idx) (cs.eraseIdx idx)).find s =
        (normal k d (cs.set idx n)).find s
      cases s with
      | nil => rw [find_normal_nil, find_normal_nil]
      | cons y s =>
        exact findIn_eraseIdx hn hf.shape.nodup hlen hi y s
    · show (normal k (d.eraseIdx idx) (cs.eraseIdx idx)).count + _ =
        (normal k d (cs.set idx n)).count
      have := countIn_eraseIdx hics n
      rw [count, count]
      omega
    · intro hedge hsize
      have hsize' : (d.eraseIdx idx).length = 0 := hsize
      rw [length_eraseIdx_of_lt hi] at hsize'
      have hone : d.length = 1 := by omega
      rw [isEdge_normal, hone, bne_self_eq_false, Bool.or_false] at hedge
      exact hedge

/-- The byte that is left when a child is unlinked is not the one that led to it. -/
lemma not_prefix_raxRemoveChild (hf : f.WF) (hone : (raxRemoveChild f.node f.idx).size = 1)
    {p s : Bytes} (hedge : p ++ f.edge <+: s) :
    ¬ p ++ (raxRemoveChild f.node f.idx).data <+: s := by
  obtain ⟨node, idx⟩ := f
  cases node with
  | compr k d c => cases hone
  | normal k d cs =>
    have hlt : idx < d.length := hf.idx_lt rfl
    obtain ⟨y, hy⟩ := length_eq_one_iff.mp hone
    intro hpre
    have heq : [y] = [d[idx]] := by
      rw [hy] at hpre
      have hedge' : p ++ [d[idx]] <+: s := by simpa [RaxFrame.edge, hlt] using hedge
      exact append_cancel_left ((prefix_of_prefix_length_le hpre hedge' (by simp)).eq_of_length
        (by simp))
    have hmem : d[idx] ∈ d.eraseIdx idx := by
      rw [show d.eraseIdx idx = [y] from hy, heq]
      exact mem_singleton_self _
    obtain ⟨j, hj, hne, hget⟩ := mem_eraseIdx_iff_getElem.mp hmem
    exact hne (Fin.mk.inj ((nodup_iff_injective_get.mp hf.shape.nodup).eq_iff.mp hget))

/-! ### Compressing a chain -/

/-- Both scans stop at once. -/
lemma chain_of_edge (h : n.isEdge = true) :
    raxCopyChain n = ([], n, 0) ∧ ∀ comprsize, raxScanChain n comprsize = (0, comprsize) := by
  cases n with
  | compr k d c =>
    rw [isEdge_compr] at h
    exact ⟨by rw [raxCopyChain, if_pos h], fun _ => by rw [raxScanChain, if_pos h]⟩
  | normal k d cs =>
    rw [isEdge_normal] at h
    rcases cs with _ | ⟨c, _ | ⟨c', cs⟩⟩
    · exact ⟨rfl, fun _ => rfl⟩
    · exact ⟨by rw [raxCopyChain, if_pos h], fun _ => by rw [raxScanChain, if_pos h]⟩
    · exact ⟨rfl, fun _ => rfl⟩

lemma scan_of_chain (h : n.Shape) (hedge : n.isEdge = false) :
    ∃ c, n.lastChild = some c ∧
      raxCopyChain n = (n.data ++ (raxCopyChain c).1, (raxCopyChain c).2.1,
        (raxCopyChain c).2.2 + 1) ∧
      ∀ comprsize, comprsize + n.data.length ≤ raxNodeMaxSize →
        raxScanChain n comprsize = ((raxScanChain c (comprsize + n.data.length)).1 + 1,
          (raxScanChain c (comprsize + n.data.length)).2) := by
  cases n with
  | compr k d c =>
    rw [isEdge_compr] at hedge
    refine ⟨c, rfl, by rw [raxCopyChain, if_neg (by simp [hedge])]; rfl, fun comprsize hle => ?_⟩
    simp only [data] at hle ⊢
    rw [raxScanChain, if_neg (by simp [hedge]), if_neg (Nat.not_lt.mpr hle)]
  | normal k d cs =>
    obtain ⟨hk, x, c, rfl, rfl⟩ := exists_of_isEdge_normal h hedge
    refine ⟨c, rfl, by rw [raxCopyChain, if_neg (by simp [hk])]; rfl, fun comprsize hle => ?_⟩
    simp only [data] at hle ⊢
    rw [raxScanChain, if_neg (by simp [hk]), if_neg (Nat.not_lt.mpr hle)]

/-- An ancestor with one child that is not a key: its data lead to the child. -/
lemma chain_setChild (hf : f.WF) (hedge : f.node.isEdge = false) (n : RaxNode W) :
    (f.node.setChild f.idx n).lastChild = some n ∧ (f.node.setChild f.idx n).data = f.edge ∧
      (f.node.setChild f.idx n).isEdge = false := by
  obtain ⟨node, idx⟩ := f
  cases node with
  | compr k d c => exact ⟨rfl, rfl, hedge⟩
  | normal k d cs =>
    obtain ⟨-, x, c, rfl, rfl⟩ := exists_of_isEdge_normal hf.shape hedge
    obtain rfl : idx = 0 := Nat.lt_one_iff.mp (hf.idx_lt rfl)
    exact ⟨rfl, rfl, hedge⟩

/-- Going up, the bytes from the root to the end of the chain stay the same. -/
lemma raxChainStart_spec {h : RaxNode W} (hts : ∀ f ∈ ts, f.WF) (hwf : h.WF)
    (hedge : h.isEdge = false) :
    ∃ start ts', raxChainStart h ts = (start, ts') ∧ plug ts' start = plug ts h ∧ start.WF ∧
      start.isEdge = false ∧ ts' <:+ ts ∧
      pathOf ts' ++ (raxCopyChain start).1 = pathOf ts ++ (raxCopyChain h).1 := by
  induction ts generalizing h with
  | nil => exact ⟨h, [], rfl, rfl, hwf, hedge, suffix_refl _, rfl⟩
  | cons f ts ih =>
    rw [raxChainStart]
    cases hf : f.node.isEdge with
    | true => exact ⟨h, f :: ts, rfl, rfl, hwf, hedge, suffix_refl _, rfl⟩
    | false =>
      obtain ⟨hlast, hdata, hedge'⟩ := chain_setChild (hts f (by simp)) hf h
      have hwf' := shape_setChild (hts f (by simp)) hwf
      obtain ⟨start, ts', heq, hplug, hswf, hsedge, hsuffix, hpath⟩ :=
        ih (fun g hg => hts g (by simp [hg])) hwf' hedge'
      refine ⟨start, ts', heq, hplug, hswf, hsedge, hsuffix.trans (suffix_cons f ts), ?_⟩
      obtain ⟨c, hc, hcopy, -⟩ := scan_of_chain hwf'.shape hedge'
      obtain rfl : h = c := some.inj (hlast.symm.trans hc)
      rw [hpath, hcopy, hdata, pathOf, append_assoc]

/-- What the two scans from a node on return. -/
structure ChainSpec (n : RaxNode W) : Prop where
  /-- The node that is kept satisfies the invariant. -/
  wf : (raxCopyChain n).2.1.WF
  /-- The nodes freed and kept are the nodes of the subtree. -/
  count : n.count = (raxCopyChain n).2.2 + (raxCopyChain n).2.1.count
  /-- The bytes that the second scan copies lead to the node that is kept. -/
  find : ∀ k d, d ≠ [] → (RaxNode.compr k (d ++ (raxCopyChain n).1) (raxCopyChain n).2.1).find =
    (RaxNode.compr k d n).find
  /-- The two scans agree if the bytes fit into a node. -/
  scan : ∀ comprsize, comprsize + (raxCopyChain n).1.length ≤ raxNodeMaxSize →
    raxScanChain n comprsize = ((raxCopyChain n).2.2, comprsize + (raxCopyChain n).1.length)

lemma chainSpec_of_lastChild (hn : n.WF) (ih : ∀ c, n.lastChild = some c → c.WF → ChainSpec c) :
    ChainSpec n := by
  cases hedge : n.isEdge with
  | true =>
    constructor
    all_goals rw [(chain_of_edge hedge).1]
    · exact hn
    · exact (Nat.zero_add _).symm
    · exact fun k d _ => by rw [append_nil]
    · exact fun comprsize _ => (chain_of_edge hedge).2 comprsize
  | false =>
    obtain ⟨c, hlast, hdata, hc, hcount, hfind⟩ := chain_spec hn.shape hedge
    obtain ⟨c', hlast', hcopy, hscan⟩ := scan_of_chain hn.shape hedge
    obtain rfl : c = c' := some.inj (hlast.symm.trans hlast')
    obtain ⟨hrest, hcnt, hf, hs⟩ := ih c hlast hc
    constructor
    all_goals rw [hcopy]
    · exact hrest
    · dsimp only
      omega
    · intro k d hd
      calc (compr k (d ++ (n.data ++ (raxCopyChain c).1)) (raxCopyChain c).2.1).find
          = (compr k ((d ++ n.data) ++ (raxCopyChain c).1) (raxCopyChain c).2.1).find := by
            rw [append_assoc]
        _ = (compr k (d ++ n.data) c).find := hf k _ (by simp [hd])
        _ = (compr k d (.compr RaxData.new n.data c)).find :=
            (find_compr_split rfl own_new hd hdata c).symm
        _ = (compr k d n).find := find_compr_congr rfl hfind.symm
    · intro comprsize hle
      rw [length_append] at hle ⊢
      rw [hscan comprsize (by omega), hs _ (by omega), Nat.add_assoc]

lemma raxCopyChain_spec (h : n.WF) : ChainSpec n := by
  induction n using induct with
  | hc k d c ih =>
    refine chainSpec_of_lastChild h fun c' hc' hwf => ?_
    obtain rfl := some.inj hc'
    exact ih hwf
  | hn k d cs ih =>
    exact chainSpec_of_lastChild h fun c' hc' hwf => ih c' (mem_of_getLast? hc') hwf

/-- The bytes of a chain lead to the node behind it. -/
lemma find_raxCopyChain (h : n.WF) (hedge : n.isEdge = false) :
    n.find = (compr RaxData.new (raxCopyChain n).1 (raxCopyChain n).2.1).find := by
  obtain ⟨c, hlast, hdata, hc, -, hfind⟩ := chain_spec h.shape hedge
  obtain ⟨c', hlast', hcopy, -⟩ := scan_of_chain h.shape hedge
  obtain rfl : c = c' := some.inj (hlast.symm.trans hlast')
  rw [hcopy, (raxCopyChain_spec hc).find _ _ hdata, hfind]

/-- The first scan counts at least the bytes of the first node. -/
lemma le_raxScanChain (n : RaxNode W) (comprsize : ℕ) :
    comprsize ≤ (raxScanChain n comprsize).2 := by
  fun_induction raxScanChain n comprsize <;> simp_all <;> omega

/-- The bytes of the chain that starts at the node fit into a compressed node. -/
def RaxNode.ChainFits (start : RaxNode W) : Prop :=
  (raxCopyChain start).1.length ≤ raxNodeMaxSize

/-- A result has the property `P`; under the condition `b` it exists and has the property `Q`. -/
structure Yields {α : Type} (b : Prop) (P Q : α → Prop) (o : Option α) : Prop where
  of_some : ∀ a, o = some a → P a
  exists_of : b → ∃ a, o = some a ∧ Q a

lemma Yields.some {α : Type} {b : Prop} {P Q : α → Prop} {a : α} (hP : P a) (hQ : Q a) :
    Yields b P Q (some a) := by
  refine ⟨fun a' ha' => ?_, fun _ => ⟨a, rfl, hQ⟩⟩
  rwa [← some.inj ha']

lemma Yields.map {α β : Type} {b b' : Prop} {P Q : α → Prop} {P' Q' : β → Prop} {o : Option α}
    {f : α → β} (h : Yields b P Q o) (hb : b' → b) (hP : ∀ a, P a → P' (f a))
    (hQ : ∀ a, P a → Q a → Q' (f a)) : Yields b' P' Q' (o.map f) := by
  refine ⟨fun c hc => ?_, fun hb' => ?_⟩
  · obtain ⟨a, ha, rfl⟩ := map_eq_some_iff.mp hc
    exact hP a (h.of_some a ha)
  · obtain ⟨a, ha, hq⟩ := h.exists_of (hb hb')
    exact ⟨f a, by rw [ha, map_some], hQ a (h.of_some a ha) hq⟩

variable {start : RaxNode W}

/-- Compressing a chain keeps the number of keys, and the map if the chain fits into a node. -/
lemma raxCompressChain_spec (h : start.WF) (hedge : start.isEdge = false) :
    Yields start.ChainFits
      (fun r => r.1.WF ∧ r.1.count + r.2 = start.count ∧
        r.1.entries.length = start.entries.length)
      (fun r => r.1.find = start.find) (raxCompressChain start) := by
  obtain ⟨c, hlast, hdata, hc, hcount, -⟩ := chain_spec h.shape hedge
  obtain ⟨hrest, hcnt, -, hscan⟩ := raxCopyChain_spec hc
  obtain ⟨c', hlast', hcopy, -⟩ := scan_of_chain h.shape hedge
  obtain rfl : c = c' := some.inj (hlast.symm.trans hlast')
  have hfind := find_raxCopyChain h hedge
  rw [hcopy] at hfind
  have hentries : start.entries.length = (raxCopyChain c).2.1.entries.length := by
    have hshape :
        (compr RaxData.new (start.data ++ (raxCopyChain c).1) (raxCopyChain c).2.1).Shape :=
      ⟨by simp [hdata], hrest⟩
    rw [entries_congr h.shape hshape hfind]
    simp [entries, RaxData.entry, RaxData.new, underAll]
  unfold raxCompressChain
  simp only [hlast]
  by_cases hmore : 0 < (raxScanChain c start.size).1
  swap
  · rw [if_neg hmore]
    exact Yields.some ⟨h, rfl, rfl⟩ rfl
  rw [if_pos hmore]
  have hsize : start.size ≤ (raxScanChain c start.size).2 := le_raxScanChain c _
  have htake : (start.data ++ (raxCopyChain c).1).take (raxScanChain c start.size).2 ≠ [] := by
    have hpos := length_pos_iff.mpr hdata
    rw [Ne, take_eq_nil_iff, append_eq_nil_iff]
    rintro (h0 | h0)
    · rw [h0] at hsize
      exact absurd hpos (Nat.not_lt.mpr hsize)
    · exact hdata h0.1
  refine ⟨fun r hr => ?_, fun hfits => ?_⟩
  · obtain ⟨-, hr⟩ := ite_none_right_eq_some.mp hr
    obtain rfl := some.inj hr
    refine ⟨.compr htake hrest, ?_, ?_⟩
    · rw [count, hcount, hcnt]
      ring
    · rw [hentries]
      simp [entries, RaxData.entry, RaxData.new, underAll]
  · -- The first scan counts all bytes, and none of them is cut off.
    rw [RaxNode.ChainFits, hcopy, length_append] at hfits
    have heq : (raxScanChain c start.size).2 = (start.data ++ (raxCopyChain c).1).length := by
      rw [size, hscan _ hfits, length_append]
    rw [heq, if_pos (by rw [length_append, size]; omega), take_length]
    exact ⟨_, rfl, hfind.symm⟩

lemma raxRecompress_spec {h : RaxNode W} (hts : ∀ f ∈ ts, f.WF) (hwf : h.WF)
    (hedge : h.isEdge = false) (numele : ℕ) :
    Yields (raxChainStart h ts).1.ChainFits
      (fun rax' => rax'.head.Shape ∧ rax'.numele = numele ∧ rax'.numnodes = rax'.head.count ∧
        rax'.head.entries.length = (plug ts h).entries.length)
      (fun rax' => rax'.head.find = (plug ts h).find)
      (raxRecompress h ts numele (plug ts h).count) := by
  obtain ⟨start, ts', hstart, hplug, hswf, hsedge, hsuffix, -⟩ := raxChainStart_spec hts hwf hedge
  have hts' : ∀ f ∈ ts', f.WF := fun f hf => hts f (hsuffix.subset hf)
  unfold raxRecompress
  simp only [hstart]
  rw [← hplug]
  refine (raxCompressChain_spec hswf hsedge).map id ?_ ?_
  · rintro ⟨new, saved⟩ ⟨hnwf, hncount, hnlen⟩
    refine ⟨(wf_plug hts' hnwf).shape, rfl, ?_, length_entries_plug hts' hnlen⟩
    have := count_plug hts' start new
    simp only at hncount ⊢
    omega
  · rintro ⟨new, saved⟩ - hnfind
    exact find_plug_congr hts' hnfind

/-! ### Unlinking the nodes that lead to no key -/

/-- The first half of `raxRemove`: the node `h` and its ancestors before the recompression. -/
structure RaxUnlinked (W : Type) where
  node : RaxNode W
  stack : List (RaxFrame W)
  freed : ℕ
  trycompress : Bool

/-- What `raxRemove` does when the walk has ended at the node of the key, up to the recompression.
-/
def raxUnlink (w : RaxWalk W) : RaxUnlinked W :=
  let h := w.node.withKey { w.node.key with iskey := false }
  if h.size = 0 then
    match w.stack with
    | [] => ⟨h, [], 0, false⟩
    | f :: ts =>
      let (g, ts', freed) := raxReclaim f ts
      let new := raxRemoveChild g.node g.idx
      ⟨new, ts', freed, decide (new.size = 1 ∧ new.key.iskey = false)⟩
  else ⟨h, w.stack, 0, decide (h.size = 1)⟩

variable {rax : Rax W} {s : Bytes}

lemma raxRemove_eq {w : RaxWalk W} (hw : raxLowWalk rax s = w)
    (hat : w.atNode = true) (hkey : w.node.key.iskey = true) :
    raxRemove rax s =
      (if (raxUnlink w).trycompress then
        raxRecompress (raxUnlink w).node (raxUnlink w).stack (rax.numele - 1)
          (rax.numnodes - (raxUnlink w).freed)
      else some ⟨plug (raxUnlink w).stack (raxUnlink w).node, rax.numele - 1,
        rax.numnodes - (raxUnlink w).freed⟩).map fun rax' =>
        (rax', true, some (raxGetData w.node.key)) := by
  subst hw
  unfold raxRemove raxUnlink
  simp only [hat, hkey, Bool.not_true, Bool.or_self, Bool.false_eq_true, if_false]
  by_cases hsize : ((raxLowWalk rax s).node.withKey
      { (raxLowWalk rax s).node.key with iskey := false }).size = 0
  · rw [if_pos hsize, if_pos hsize]
    cases (raxLowWalk rax s).stack with
    | nil => rfl
    | cons f ts => simp only [decide_eq_true_eq]
  · rw [if_neg hsize, if_neg hsize]
    simp only [decide_eq_true_eq, Nat.sub_zero]

/-- What is left after the nodes that lead to no key are unlinked. -/
structure RaxUnlinked.Spec (u : RaxUnlinked W) (old : RaxNode W) (s : Bytes) : Prop where
  frames : ∀ f ∈ u.stack, f.WF
  shape : u.node.Shape
  find : (plug u.stack u.node).find = Function.update old.find s none
  count : (plug u.stack u.node).count + u.freed = old.count
  leaf : u.stack ≠ [] → u.node.size = 0 → u.node.key.iskey = true
  /-- The node lies on the way to the key. -/
  path : pathOf u.stack <+: s
  /-- A compression starts at a node with one child that is not a key, whose bytes leave the way to
  the key. -/
  chain : u.trycompress = true →
    u.node.WF ∧ u.node.isEdge = false ∧ ¬ pathOf u.stack ++ u.node.data <+: s

lemma raxUnlink_spec {w : RaxWalk W} (hhead : rax.head.Shape)
    (h : w.Spec rax.head s) (hat : w.atNode = true) : (raxUnlink w).Spec rax.head s := by
  obtain ⟨hpath, -, -⟩ := h.atNode hat
  obtain ⟨hts, hshape, -⟩ := h.path.wf hhead
  have hplug := h.path.plug_eq
  obtain ⟨rest, node, j, ts⟩ := w
  simp only at hts hshape hplug hpath
  unfold raxUnlink
  -- the tree after the key bit is cleared
  obtain ⟨cleared, hcleared⟩ : ∃ k : RaxData W, k = { node.key with iskey := false } := ⟨_, rfl⟩
  have hown : cleared.own = none := own_of_not_iskey (by rw [hcleared])
  have hmap : (plug ts (node.withKey cleared)).find = update rax.head.find s none := by
    rw [find_plug_update hts (find_withKey node cleared), hplug, hown, append_nil, hpath]
  have hcount : (plug ts (node.withKey cleared)).count = rax.head.count := by
    have := count_plug hts node (node.withKey cleared)
    rw [count_withKey, hplug] at this
    omega
  rw [← hcleared]
  by_cases hsize : (node.withKey cleared).size = 0
  · rw [if_pos hsize]
    cases ts with
    | nil => exact ⟨hts, shape_withKey hshape cleared, hmap, hcount, by simp, nil_prefix, by simp⟩
    | cons f ts =>
      have hdead : (node.withKey cleared).Dead ∧ (node.withKey cleared).count = 1 := by
        cases node with
        | compr k d c => exact absurd (eq_nil_of_length_eq_zero hsize) hshape.1
        | normal k d cs =>
          obtain rfl : d = [] := eq_nil_of_length_eq_zero hsize
          obtain rfl : cs = [] := eq_nil_of_length_eq_zero hshape.1.symm
          refine ⟨fun t => ?_, rfl⟩
          cases t with
          | nil => rw [find_nil, key_withKey, hown]
          | cons y t =>
            show (normal cleared [] []).find (y :: t) = none
            rw [find_normal_cons, findIn_of_notMem (by simp)]
      obtain ⟨g, ts', freed, n', hreclaim, hn', hfreed, hplug', hsuffix, hwf, hend⟩ :=
        raxReclaim_spec hts hdead.1
      have hg : pathOf ts' ++ g.edge <+: s := hpath ▸ pathOf_isPrefix hsuffix
      obtain ⟨hrshape, hrfind, hrcount, hredge⟩ := raxRemoveChild_spec (hwf g (by simp)) hn'
      have hwf' : ∀ f' ∈ ts', f'.WF := fun f' hf' => hwf f' (by simp [hf'])
      simp only [hreclaim]
      refine ⟨hwf', hrshape, ?_, ?_, fun hne hs => hredge (hend hne) hs,
        (prefix_append _ _).trans hg, fun hone => ?_⟩
      · rw [find_plug_congr hwf' hrfind, ← hmap, ← hplug']
        rfl
      · have := count_plug hwf' (g.node.setChild g.idx n') (raxRemoveChild g.node g.idx)
        have hroot : (plug ts' (g.node.setChild g.idx n')).count = rax.head.count := by
          rw [← hcount, ← hplug']
          rfl
        simp only
        omega
      · obtain ⟨hone, hnokey⟩ := of_decide_eq_true hone
        refine ⟨hrshape.wf (by simp [hone]), by simp [isEdge, hone, hnokey], fun hpre => ?_⟩
        exact not_prefix_raxRemoveChild (hwf g (by simp)) hone hg hpre
  · rw [if_neg hsize]
    have hnshape := shape_withKey hshape cleared
    refine ⟨hts, hnshape, hmap, hcount, fun _ h => absurd h hsize, hpath ▸ prefix_refl _,
      fun hone => ⟨hnshape.wf (absurd · hsize), ?_, fun hpre => ?_⟩⟩
    · rw [isEdge, of_decide_eq_true hone, key_withKey, hcleared]
      simp
    · have hlen := hpre.length_le
      rw [length_append, hpath] at hlen
      exact hsize (Nat.le_zero.mp (Nat.add_le_add_iff_left.mp hlen))

/-! ### The whole removal -/

/-- The first node of the chain that `raxRemove` tries to compress. -/
def raxRemoveChain (rax : Rax W) (s : Bytes) : Option (RaxNode W) :=
  let w := raxLowWalk rax s
  let u := raxUnlink w
  if w.atNode && w.node.key.iskey && u.trycompress then some (raxChainStart u.node u.stack).1
  else none

/-- Among the keys `K` other than `s`, no stretch that begins on the way to `s` and leaves it, and
in which there is no key and no branch, is longer than a node. -/
def RemovalFits (K : Bytes → Prop) (s : Bytes) : Prop :=
  ∀ p b, p <+: s → ¬ p ++ b <+: s → (∃ t, K t ∧ t ≠ s ∧ p <+: t) →
    (∀ t, K t → t ≠ s → p <+: t → p ++ b <+: t) → b.length ≤ raxNodeMaxSize

/-- A stretch is not longer than the keys behind it. -/
lemma removalFits_of_length_le {K : Bytes → Prop} (h : ∀ t, K t → t.length ≤ raxNodeMaxSize)
    (s : Bytes) : RemovalFits K s := by
  rintro p b - - ⟨t, ht, hne, hpre⟩ hall
  have hlen := (hall t ht hne hpre).length_le
  rw [length_append] at hlen
  exact (Nat.le_add_left _ _).trans (hlen.trans (h t ht))

/-- The chain that `raxRemove` compresses is such a stretch. -/
lemma RemovalFits.chainFits (hfits : RemovalFits (fun t => (rax.head.find t).isSome) s)
    (hhead : rax.head.Shape) (hstart : raxRemoveChain rax s = some start) :
    start.WF ∧ start.isEdge = false ∧ start.ChainFits := by
  simp only [raxRemoveChain, ite_none_right_eq_some, some.injEq, Bool.and_eq_true] at hstart
  obtain ⟨⟨⟨hat, -⟩, htry⟩, rfl⟩ := hstart
  have hu := raxUnlink_spec hhead (raxLowWalk_spec hhead s) hat
  obtain ⟨hwf, hedge, hleaves⟩ := hu.chain htry
  obtain ⟨start, ts', hstart, hplug, hswf, hsedge, hsuffix, hpath⟩ :=
    raxChainStart_spec hu.frames hwf hedge
  have hts' : ∀ f ∈ ts', f.WF := fun f hf => hu.frames f (hsuffix.subset hf)
  rw [hstart]
  refine ⟨hswf, hsedge, hfits (pathOf ts') _ ((pathOf_isPrefix hsuffix).trans hu.path) ?_ ?_ ?_⟩
  · -- The bytes of the node where the change happened leave the way to the key.
    obtain ⟨c, -, hcopy, -⟩ := scan_of_chain hwf.shape hedge
    rw [hpath, hcopy, ← append_assoc]
    exact fun hpre => hleaves ((prefix_append _ _).trans hpre)
  all_goals
    have hmap : ∀ t, start.find t = update rax.head.find s none (pathOf ts' ++ t) := by
      intro t
      rw [← hu.find, ← hplug, find_plug_append hts']
  · obtain ⟨t, ht⟩ := hswf.exists_key
    rw [hmap, update_apply] at ht
    split_ifs at ht with hne
    · cases ht
    · exact ⟨_, ht, hne, prefix_append _ _⟩
  · rintro _ ht hne ⟨r, rfl⟩
    have hr : (start.find r).isSome := by rwa [hmap, update_of_ne hne]
    rw [find_raxCopyChain hswf hsedge] at hr
    rw [prefix_append_right_inj]
    by_contra hpre
    by_cases hnil : r = []
    · rw [hnil] at hr
      cases hr
    · rw [find_compr_of_not hnil hpre] at hr
      cases hr

/-- `raxRemove` reports whether the key was there and hands out its value; the tree keeps its shape
and has as many keys as without the key. It deletes the key and nothing else if the chain that it
compresses fits into a node. -/
lemma raxRemove_spec (hhead : rax.head.Shape) (hnodes : rax.numnodes = rax.head.count)
    (s : Bytes) :
    Yields (RemovalFits (fun t => (rax.head.find t).isSome) s)
      (fun r => r.2 = ((rax.head.find s).isSome, rax.head.find s) ∧ r.1.head.Shape ∧
        r.1.numele = rax.numele - (if (rax.head.find s).isSome then 1 else 0) ∧
        r.1.numnodes = r.1.head.count ∧ ∃ n : RaxNode W, n.Shape ∧
          n.find = update rax.head.find s none ∧ r.1.head.entries.length = n.entries.length)
      (fun r => r.1.head.find = update rax.head.find s none) (raxRemove rax s) := by
  have h := raxLowWalk_spec hhead s
  cases hpresent : (raxLowWalk rax s).atNode && (raxLowWalk rax s).node.key.iskey with
  | false =>
    have hnone : rax.head.find s = none := by
      cases hat : (raxLowWalk rax s).atNode with
      | false => exact h.find_of_not_atNode hhead hat
      | true =>
        obtain ⟨-, hj, hrest⟩ := h.atNode hat
        rw [hat] at hpresent
        rw [h.find_eq hhead, hj, hrest, take_zero, append_nil, find_nil,
          own_of_not_iskey hpresent]
    have hcond : (!(raxLowWalk rax s).atNode || !(raxLowWalk rax s).node.key.iskey) = true := by
      rw [← Bool.not_and, hpresent, Bool.not_false]
    unfold raxRemove
    simp only
    rw [hcond, if_pos rfl, hnone]
    have hsame : rax.head.find = update rax.head.find s none :=
      (update_eq_self_iff.mpr hnone.symm).symm
    exact Yields.some ⟨rfl, hhead, rfl, hnodes, rax.head, hhead, hsame, rfl⟩ hsame
  | true =>
    obtain ⟨hat, hkey⟩ := Bool.and_eq_true_iff.mp hpresent
    obtain ⟨-, hj, hrest⟩ := h.atNode hat
    have hfind : rax.head.find s = some (raxGetData (raxLowWalk rax s).node.key) := by
      rw [h.find_eq hhead, hj, hrest, take_zero, append_nil, find_nil, own_of_iskey hkey]
    have hu := raxUnlink_spec hhead h hat
    have hnumnodes : rax.numnodes - (raxUnlink (raxLowWalk rax s)).freed =
        (plug (raxUnlink (raxLowWalk rax s)).stack (raxUnlink (raxLowWalk rax s)).node).count := by
      have := hu.count
      omega
    have hshape := shape_plug hu.frames hu.shape hu.leaf
    rw [raxRemove_eq rfl hat hkey, hfind, hnumnodes]
    cases htry : (raxUnlink (raxLowWalk rax s)).trycompress with
    | true =>
      obtain ⟨hwf, hedge, -⟩ := hu.chain htry
      rw [if_pos rfl]
      refine (raxRecompress_spec hu.frames hwf hedge (rax.numele - 1)).map (fun hfits => ?_) ?_ ?_
      · exact (hfits.chainFits hhead (by simp [raxRemoveChain, hat, hkey, htry])).2.2
      · rintro rax' ⟨hs, hne, hnn, hlen⟩
        exact ⟨rfl, hs, hne, hnn, _, hshape, hu.find, hlen⟩
      · rintro rax' - hf
        exact hf.trans hu.find
    | false =>
      rw [if_neg Bool.false_ne_true]
      exact Yields.some ⟨rfl, hshape, rfl, rfl, _, hshape, hu.find, rfl⟩ hu.find

end RainCall
