import RainCall.Foundation.Run
import RainCall.Rax.Remove

/-!
# The radix tree refines a finite map

Runs of `raxInsert`, `raxTryInsert` and `raxRemove` on a tree that starts empty are compared with
runs of an abstract machine on a finite map from byte strings to value pointers. The relation
`RaxRefines` between the two states is kept by each operation, and both machines return the same
results (`rax_refines_finmap`).
-/

namespace RainCall

open Finmap Function

variable {W : Type}

/-! ### The two machines -/

/-- The operations on a tree. -/
inductive RaxOp (W : Type) where
  | insert (s : Bytes) (data : Option W)
  | tryInsert (s : Bytes) (data : Option W)
  | remove (s : Bytes)

/-- The key of an operation. -/
def RaxOp.key : RaxOp W → Bytes
  | .insert s _ => s
  | .tryInsert s _ => s
  | .remove s => s

/-- What an operation returns: the return value and what it writes to `*old`. -/
abbrev RaxReply (W : Type) := Bool × Option (Option W)

/-- One operation on the tree; the replies are collected, the last one first. -/
def raxStep (st : Rax W × List (RaxReply W)) : RaxOp W → Option (Rax W × List (RaxReply W))
  | .insert s data => some ((raxInsert st.1 s data).1, (raxInsert st.1 s data).2 :: st.2)
  | .tryInsert s data => some ((raxTryInsert st.1 s data).1, (raxTryInsert st.1 s data).2 :: st.2)
  | .remove s => (raxRemove st.1 s).map fun r => (r.1, r.2 :: st.2)

/-- The abstract state: a finite map from keys to value pointers. -/
abbrev RaxMap (W : Type) := Finmap fun _ : Bytes => Option W

/-- One operation on the abstract map. -/
def mapStep (st : RaxMap W × List (RaxReply W)) : RaxOp W → RaxMap W × List (RaxReply W)
  | .insert s data =>
    (st.1.insert s data, (!(st.1.lookup s).isSome, st.1.lookup s) :: st.2)
  | .tryInsert s data =>
    (if (st.1.lookup s).isSome then st.1 else st.1.insert s data,
      (!(st.1.lookup s).isSome, st.1.lookup s) :: st.2)
  | .remove s => (st.1.erase s, ((st.1.lookup s).isSome, st.1.lookup s) :: st.2)

/-! ### The refinement relation -/

/-- The tree stores the map. -/
structure RaxRefines (rax : Rax W) (m : RaxMap W) : Prop where
  shape : rax.head.Shape
  /-- The keys of the tree have the values of the map. -/
  find : ∀ s, rax.head.find s = m.lookup s
  numele : rax.numele = m.keys.card
  numnodes : rax.numnodes = rax.head.count

lemma raxRefines_new : RaxRefines (raxNew : Rax W) ∅ where
  shape := shape_raxNewNode
  find s := find_raxNewNode s
  numele := rfl
  numnodes := rfl

section

variable (m : RaxMap W) (s : Bytes) (data : Option W)

lemma keys_insert :
    (m.insert s data).keys = insert s m.keys := by
  ext t
  rw [mem_keys, mem_insert, Finset.mem_insert, mem_keys]

lemma card_insert_keys :
    (m.insert s data).keys.card = m.keys.card + if (m.lookup s).isSome then 0 else 1 := by
  rw [keys_insert]
  by_cases hs : s ∈ m
  · rw [if_pos (lookup_isSome.mpr hs), Finset.insert_eq_of_mem (mem_keys.mpr hs),
      Nat.add_zero]
  · rw [if_neg (mt lookup_isSome.mp hs),
      Finset.card_insert_of_notMem (mt mem_keys.mp hs)]

lemma lookup_insert_eq :
    (fun t => (m.insert s data).lookup t) = update (fun t => m.lookup t) s (some data) := by
  funext t
  by_cases ht : t = s
  · rw [ht, update_self, lookup_insert]
  · rw [update_of_ne ht, lookup_insert_of_ne _ ht]

end

lemma lookup_erase_eq (m : RaxMap W) (s : Bytes) :
    (fun t => (m.erase s).lookup t) = update (fun t => m.lookup t) s none := by
  funext t
  by_cases ht : t = s
  · rw [ht, update_self, lookup_erase]
  · rw [update_of_ne ht, lookup_erase_ne ht]

/-- Both insertions: `overwrite` decides about a key that exists. -/
lemma raxGenericInsert_refines {rax : Rax W} {m : RaxMap W} (h : RaxRefines rax m) (s : Bytes)
    (data : Option W) (overwrite : Bool) :
    RaxRefines (raxGenericInsert rax s data overwrite).1
        (if (m.lookup s).isSome && !overwrite then m else m.insert s data) ∧
      (raxGenericInsert rax s data overwrite).2 = (!(m.lookup s).isSome, m.lookup s) := by
  obtain ⟨rax', heq, hshape, hfind, hnumele, hnumnodes⟩ :=
    raxGenericInsert_spec h.shape s data overwrite
  have hmap : rax.head.find = fun t => m.lookup t := funext h.find
  rw [heq]
  simp only [hmap, and_true] at hfind hnumele ⊢
  have hnodes := h.numnodes
  have hele := h.numele
  by_cases hkeep : ((m.lookup s).isSome && !overwrite) = true
  · rw [if_pos hkeep] at hfind ⊢
    have hpresent : (m.lookup s).isSome = true := (Bool.and_eq_true_iff.mp hkeep).1
    rw [if_pos hpresent] at hnumele
    exact ⟨hshape, fun t => congrFun hfind t, by omega, by omega⟩
  · rw [if_neg hkeep] at hfind ⊢
    refine ⟨hshape, fun t => ?_, ?_, by omega⟩
    · rw [hfind, ← lookup_insert_eq]
    · rw [hnumele, hele, card_insert_keys]

/-- A tree stores a map with one key for each of its entries. -/
lemma RaxNode.Shape.exists_map {n : RaxNode W} (h : n.Shape) :
    ∃ m : RaxMap W, (∀ s, n.find s = m.lookup s) ∧ m.keys.card = n.entries.length := by
  let l : List (Σ _ : Bytes, Option W) := n.entries.map fun e => ⟨e.1, e.2⟩
  have hkeys : l.keys = n.entries.map Prod.fst := List.map_map
  have hnodup : l.NodupKeys := by
    rw [List.NodupKeys, hkeys]
    refine List.pairwise_map.mpr ((entriesSorted_entries h).imp ?_)
    intro e e' hlt heq
    rw [heq] at hlt
    exact List.lt_irrefl _ hlt
  refine ⟨⟨l, hnodup⟩, fun s => Option.ext fun v => ?_, ?_⟩
  · rw [lookup_eq_some_iff, ← mem_entries h]
    simp [l]
  · exact (congrArg List.length hkeys).trans (List.length_map _)

/-- The map of a tree has as many keys as the tree has entries. -/
lemma RaxNode.Shape.card_keys {n : RaxNode W} (h : n.Shape) {m : RaxMap W}
    (hm : ∀ s, n.find s = m.lookup s) : m.keys.card = n.entries.length := by
  obtain ⟨m', hm', hcard⟩ := h.exists_map
  rw [← hcard, ext_lookup fun s => (hm s).symm.trans (hm' s)]

/-- The keys of the map are those of the tree. -/
lemma RaxRefines.isSome_iff {rax : Rax W} {m : RaxMap W} (h : RaxRefines rax m) (s : Bytes) :
    (rax.head.find s).isSome ↔ s ∈ m := by
  rw [h.find, lookup_isSome]

/-- A removal leaves a map behind, and the map without the key if the chain that is compressed fits
into a node. -/
lemma raxRemove_refines {rax : Rax W} {m : RaxMap W} (h : RaxRefines rax m) (s : Bytes) :
    Yields (RemovalFits (· ∈ m) s) (fun r => ∃ m', RaxRefines r.1 m')
      (fun r => RaxRefines r.1 (m.erase s) ∧ r.2 = ((m.lookup s).isSome, m.lookup s))
      (raxRemove rax s) := by
  have hmap : rax.head.find = fun t => m.lookup t := funext h.find
  have hspec := raxRemove_spec h.shape h.numnodes s
  simp only [h.isSome_iff] at hspec
  simp only [hmap] at hspec
  have hcard : (m.erase s).keys.card = m.keys.card - if s ∈ m then 1 else 0 := by
    rw [keys_erase]
    split_ifs with hs
    · rw [Finset.card_erase_of_mem (mem_keys.mpr hs)]
    · rw [Finset.erase_eq_of_notMem (mt mem_keys.mp hs), Nat.sub_zero]
  refine ⟨fun r hr => ?_, fun hfits => ?_⟩
  · obtain ⟨-, hshape, hnumele, hnumnodes, n, hn, hnfind, hlen⟩ := hspec.of_some r hr
    obtain ⟨m', hm', hcard'⟩ := hshape.exists_map
    refine ⟨m', hshape, hm', ?_, hnumnodes⟩
    rw [hcard', hlen, ← hn.card_keys fun t => by rw [hnfind, ← lookup_erase_eq],
      hcard, hnumele, h.numele]
  · obtain ⟨r, hr, hfind⟩ := hspec.exists_of hfits
    obtain ⟨hreply, hshape, hnumele, hnumnodes, -⟩ := hspec.of_some r hr
    refine ⟨r, hr, ⟨hshape, fun t => ?_, ?_, hnumnodes⟩, hreply⟩
    · rw [hfind, ← lookup_erase_eq]
    · rw [hnumele, h.numele, hcard]

/-- What an operation compresses fits into a node, where `K` are the keys. -/
def RaxOp.Fits (K : Bytes → Prop) : RaxOp W → Prop
  | .remove s => RemovalFits K s
  | _ => True

/-- The two states of a run are related and the replies are the same. -/
def RunRefines (st : Rax W × List (RaxReply W)) (abs : RaxMap W × List (RaxReply W)) : Prop :=
  RaxRefines st.1 abs.1 ∧ st.2 = abs.2

variable {abs : RaxMap W × List (RaxReply W)} {st : Rax W × List (RaxReply W)}

/-- One operation on the tree leaves a map behind. If what it compresses fits into a node, it is
matched by the operation on the map, with the same reply. -/
lemma raxStep_refines (h : RunRefines st abs) (op : RaxOp W) :
    Yields (op.Fits (· ∈ abs.1)) (fun st' => ∃ m', RaxRefines st'.1 m')
      (fun st' => RunRefines st' (mapStep abs op)) (raxStep st op) := by
  obtain ⟨href, hreplies⟩ := h
  cases op with
  | insert s data =>
    obtain ⟨h1, h2⟩ := raxGenericInsert_refines href s data true
    rw [Bool.not_true, Bool.and_false, if_neg Bool.false_ne_true] at h1
    refine Yields.some ⟨_, h1⟩ ⟨h1, ?_⟩
    simp only [raxInsert, mapStep, h2, hreplies]
  | tryInsert s data =>
    obtain ⟨h1, h2⟩ := raxGenericInsert_refines href s data false
    rw [Bool.not_false, Bool.and_true] at h1
    refine Yields.some ⟨_, h1⟩ ⟨h1, ?_⟩
    simp only [raxTryInsert, mapStep, h2, hreplies]
  | remove s =>
    refine (raxRemove_refines href s).map id (fun r hr => hr) fun r _ hr => ⟨hr.1, ?_⟩
    simp only [mapStep, hr.2, hreplies]

/-- Every tree that a run reaches stores a map. -/
lemma exists_raxRefines {ops : List (RaxOp W)}
    (hrun : runSteps raxStep (raxNew, []) ops = some st) : ∃ m, RaxRefines st.1 m := by
  refine runSteps_simulation_of_some (fun a _ => a) (fun st _ => ∃ m, RaxRefines st.1 m)
    (fun st _ op st' h hstep => ?_) (a := ()) ⟨∅, raxRefines_new⟩ hrun
  obtain ⟨m, hm⟩ := h
  exact (raxStep_refines (⟨hm, rfl⟩ : RunRefines st (m, st.2)) op).of_some st' hstep

/-- A run in which everything that is compressed fits into a node is a run on the map. -/
lemma runSteps_refines {ops : List (RaxOp W)}
    (hfits : RunSatisfies raxStep (fun st op => op.Fits fun t => (raxFind st.1 t).isSome)
      (raxNew, []) ops) :
    ∃ st, runSteps raxStep (raxNew, []) ops = some st ∧
      RunRefines st (ops.foldl mapStep (∅, [])) := by
  refine hfits.simulation mapStep RunRefines (fun st abs op hop h => ?_) ⟨raxRefines_new, rfl⟩
  simp only [raxFind_eq h.1.shape, h.1.isSome_iff] at hop
  exact (raxStep_refines h op).exists_of hop

/-- The keys of the map fit into a compressed node. -/
def RaxMap.Fits (m : RaxMap W) : Prop := ∀ s ∈ m, s.length ≤ raxNodeMaxSize

lemma RaxMap.Fits.op {m : RaxMap W} (h : m.Fits) (op : RaxOp W) : op.Fits (· ∈ m) := by
  cases op with
  | remove s => exact removalFits_of_length_le h s
  | insert | tryInsert => trivial

/-- The keys of the map are those of operations. -/
lemma mapStep_fits (h : abs.1.Fits) {op : RaxOp W}
    (hop : op.key.length ≤ raxNodeMaxSize) : (mapStep abs op).1.Fits := by
  have hinsert : ∀ (s : Bytes) (data : Option W), s.length ≤ raxNodeMaxSize →
      RaxMap.Fits (abs.1.insert s data) := by
    intro s data hs t ht
    rcases mem_insert.mp ht with rfl | ht
    · exact hs
    · exact h t ht
  cases op with
  | insert s data => exact hinsert s data hop
  | tryInsert s data =>
    simp only [mapStep]
    split
    · exact h
    · exact hinsert s data hop
  | remove s => exact fun t ht => h t (mem_erase.mp ht).2

/-- The children of every node are sorted, and a leaf below the root is a key. -/
lemma RaxPath.sorted_and_leaf {head n : RaxNode W} {ts : List (RaxFrame W)} (h : RaxPath head ts n)
    (hhead : head.Shape) :
    (n.iscompr = false → n.data.Pairwise (· < ·)) ∧
      (n.size = 0 → ts ≠ [] → n.key.iskey = true) := by
  obtain ⟨-, hshape, hwf⟩ := h.wf hhead
  refine ⟨fun hc => ?_, fun hsize hne => ?_⟩
  · cases n with
    | compr k d c => cases hc
    | normal k d cs => exact hshape.2.1
  · exact (hwf hne).iskey_of_size hsize

/-- A run on a tree behaves as a run on a finite map from byte strings. It does not fail and returns
what the map returns; afterwards `raxFind` looks a key up in the map, `raxSize` is its number of
keys, `numnodes` is the number of nodes of the tree, the children of every node are strictly sorted
and every leaf other than the root is a key. -/
theorem rax_refines_finmap (ops : List (RaxOp W))
    (hops : ∀ op ∈ ops, op.key.length < raxNodeMaxSize) :
    ∃ rax, runSteps raxStep (raxNew, []) ops = some (rax, (ops.foldl mapStep (∅, [])).2) ∧
      (∀ s, raxFind rax s = (ops.foldl mapStep (∅, [])).1.lookup s) ∧
      raxSize rax = (ops.foldl mapStep (∅, [])).1.keys.card ∧
      rax.numnodes = rax.head.count ∧
      (∀ ts n, RaxPath rax.head ts n →
        (n.iscompr = false → n.data.Pairwise (· < ·)) ∧
          (n.size = 0 → ts ≠ [] → n.key.iskey = true)) := by
  obtain ⟨st, hrun, ⟨href, hreplies⟩, -⟩ := runSteps_simulation mapStep
    (fun st abs => RunRefines st abs ∧ abs.1.Fits) (fun op => op.key.length ≤ raxNodeMaxSize)
    (fun st abs op hop h => by
      obtain ⟨st', hst', h'⟩ := (raxStep_refines h.1 op).exists_of (h.2.op op)
      exact ⟨st', hst', h', mapStep_fits h.2 hop⟩)
    (s := (raxNew, [])) (a := (∅, []))
    ⟨⟨raxRefines_new, rfl⟩, fun s hs => absurd hs Finmap.notMem_empty⟩
    (fun op hop => (hops op hop).le)
  obtain ⟨rax, replies⟩ := st
  refine ⟨rax, ?_, fun s => ?_, href.numele, href.numnodes, fun ts n hpath => ?_⟩
  · rw [hrun, ← hreplies]
  · rw [raxFind_eq href.shape, href.find]
  · exact hpath.sorted_and_leaf href.shape

end RainCall
