import RainCall.Rax.Refinement

/-!
# The size of a merged node

`raxRemove` scans the chain it merges twice. The first scan stops before the node would outgrow the
field `size`, the second one does not check this. The two agree if no stretch of the remaining keys
around the removed one is longer than a node (`raxRemove_merges`). On a longer chain the second scan
copies more bytes than the node has room for: the excess is lost in the padding, and with it the
keys behind the chain (`raxRemove_loses_key`).
-/

namespace RainCall

open Option RaxData RaxNode
open List hiding count

variable {W : Type}

/-- On every tree that a run reaches, with keys of any length, `raxRemove` deletes the key and
nothing else, provided that the stretch of the remaining keys around the removed one fits into a
node. The bytes copied into the new node are as many as its size says, this size is within the limit
and the nodes freed are those that were counted. -/
theorem raxRemove_merges {ops : List (RaxOp W)} {rax : Rax W} {replies : List (RaxReply W)}
    (hrun : runSteps raxStep (raxNew, []) ops = some (rax, replies)) (s : Bytes)
    (hfits : RemovalFits (fun t => (raxFind rax t).isSome) s) :
    ∃ rax' reply, raxRemove rax s = some (rax', reply) ∧
      (∀ t, raxFind rax' t = if t = s then none else raxFind rax t) ∧
      rax'.numnodes = rax'.head.count ∧
      ∀ start c, raxRemoveChain rax s = some start → start.lastChild = some c →
        0 < (raxScanChain c start.size).1 →
        start.size + (raxCopyChain c).1.length = (raxScanChain c start.size).2 ∧
          (raxScanChain c start.size).2 ≤ raxNodeMaxSize ∧
          (raxCopyChain c).2.2 = (raxScanChain c start.size).1 := by
  obtain ⟨m, href⟩ := exists_raxRefines hrun
  simp only [raxFind_eq href.shape] at hfits ⊢
  have hspec := raxRemove_spec href.shape href.numnodes s
  obtain ⟨⟨rax', reply⟩, hremove, hfind⟩ := hspec.exists_of hfits
  obtain ⟨-, hshape, -, hnodes, -⟩ := hspec.of_some _ hremove
  refine ⟨rax', reply, hremove, fun t => ?_, hnodes, fun start c hstart hc _ => ?_⟩
  · rw [raxFind_eq hshape, hfind, Function.update_apply]
  · obtain ⟨hwf, hedge, hle⟩ := hfits.chainFits href.shape hstart
    obtain ⟨c', hc', hcopy, -⟩ := scan_of_chain hwf.shape hedge
    obtain rfl : c' = c := some.inj (hc'.symm.trans hc)
    obtain ⟨c'', hc'', -, hcwf, -⟩ := chain_spec hwf.shape hedge
    obtain rfl : c'' = c' := some.inj (hc''.symm.trans hc)
    rw [ChainFits, hcopy, length_append] at hle
    rw [size, (raxCopyChain_spec hcwf).scan _ hle]
    exact ⟨rfl, hle, rfl⟩

/-- The condition holds if the keys of the tree are not longer than a node. -/
lemma removalFits_of_entries {rax : Rax W} (hshape : rax.head.Shape)
    (h : ∀ e ∈ rax.head.entries, e.1.length ≤ raxNodeMaxSize) (s : Bytes) :
    RemovalFits (fun t => (raxFind rax t).isSome) s := by
  refine removalFits_of_length_le (fun t ht => ?_) s
  rw [raxFind_eq hshape] at ht
  obtain ⟨v, hv⟩ := isSome_iff_exists.mp ht
  exact h _ ((mem_entries hshape).mpr hv)

/-- Two keys with one long chain between them that is merged again. -/
theorem raxRemove_merges_footer :
    ∃ rax replies rax' reply, runSteps raxStep (raxNew, [])
        [.insert [102, 111, 111, 98, 97, 114] (some 1), .insert [102, 111, 111, 116] none] =
          some (rax, replies) ∧
      raxRemove rax [102, 111, 111, 116] = some (rax', reply) ∧
      raxFind rax' [102, 111, 111, 98, 97, 114] = some (some 1) ∧
      raxFind rax' [102, 111, 111, 116] = none ∧ rax'.numnodes = 2 := by
  have hrun := (rfl : runSteps raxStep (raxNew, [])
    [.insert [102, 111, 111, 98, 97, 114] (some 1), .insert [102, 111, 111, 116] none] = some _)
  obtain ⟨m, href⟩ := exists_raxRefines hrun
  obtain ⟨rax', reply, hremove, hfind, -, -⟩ := raxRemove_merges hrun [102, 111, 111, 116]
    (removalFits_of_entries href.shape (by decide +kernel) _)
  obtain rfl := congrArg Prod.fst (some.inj hremove)
  exact ⟨_, _, _, reply, hrun, hremove, hfind _, hfind _, rfl⟩

/-! ### A chain that does not fit -/

section

variable {x : Bytes} (hx : x.length + 1 = raxNodeMaxSize)
include hx

/-- A key with one byte more than a node holds takes two nodes. -/
lemma raxInsert_long :
    (raxInsert raxNew (0 :: (x ++ [0])) (none : Option W)).1.head =
      .compr new (0 :: x) (.normal new [0] [.normal ⟨true, true, none⟩ [] []]) := by
  have htake : (0 :: (x ++ [0])).take raxNodeMaxSize = 0 :: x := by
    rw [← hx, take_succ_cons, take_left]
  have hdrop : (0 :: (x ++ [0])).drop raxNodeMaxSize = [0] := by
    rw [← hx, drop_succ_cons, drop_left]
  show (raxInsertRest none ((x ++ [0]).length + 1) raxNewNode (0 :: (x ++ [0]))).1 = _
  rw [raxInsertRest, if_pos ⟨rfl, by simp⟩, htake, hdrop, length_append,
    length_singleton, raxInsertRest, if_neg (by simp), raxInsertRest]
  rfl

/-- A second key that differs in the first byte splits off that byte. -/
lemma raxInsert_split {rax : Rax W} {next : RaxNode W}
    (hrax : rax.head = .compr new (0 :: x) next) :
    (raxInsert rax [1] none).1.head = .normal new [0, 1]
      [.compr new x next, .normal ⟨true, true, none⟩ [] []] := by
  have hwalk : raxLowWalk rax [1] = ⟨[1], .compr new (0 :: x) next, 0, []⟩ := by
    rw [raxLowWalk, hrax]
    rfl
  have hlen : 1 < x.length := by
    have : 2 < raxNodeMaxSize := by decide
    omega
  have hpost : chainNode new x next = .compr new x next := if_pos hlen
  simp only [raxInsert, raxGenericInsert, hwalk]
  show (raxSplitMismatch new (0 :: x) next 0 [1] none).1 = _
  simp only [raxSplitMismatch, length_cons, Nat.sub_zero, Nat.add_sub_cancel,
    if_pos (Nat.zero_lt_of_lt hlen), drop_succ_cons, drop_zero, hpost]
  rfl

/-- The second scan takes the last byte too, for which the new node has no room. -/
lemma raxCompressChain_long {leaf post : RaxNode W}
    (hleaf : leaf = .normal ⟨true, true, none⟩ [] [])
    (hpost : post = .compr new x (.normal new [0] [leaf])) :
    raxScanChain post 1 = (1, raxNodeMaxSize) ∧ raxCopyChain post = (x ++ [0], leaf, 2) ∧
      raxCompressChain (.normal new [0] [post]) = some (.compr new (0 :: x) leaf, 2) := by
  have hfits : ¬ raxNodeMaxSize < 1 + x.length := by omega
  have hlong : raxNodeMaxSize < 1 + x.length + 1 := by omega
  have hscan : raxScanChain post 1 = (1, raxNodeMaxSize) := by
    simp only [hpost, raxScanChain, new, Bool.false_eq_true, if_false, hfits,
      length_singleton, bne_self_eq_false, Bool.or_self, if_pos hlong]
    rw [← hx, Nat.add_comm x.length]
  have hcopy : raxCopyChain post = (x ++ [0], leaf, 2) := by
    rw [hpost, hleaf]
    rfl
  refine ⟨hscan, hcopy, ?_⟩
  have htake : ([0] ++ (x ++ [0])).take raxNodeMaxSize = 0 :: x := by
    rw [singleton_append, ← hx, take_succ_cons, take_left]
  have hroom : 1 + (x ++ [0]).length ≤ raxNodeMaxSize + raxPadding raxNodeMaxSize + 8 := by
    rw [length_append, length_singleton]
    omega
  simp only [raxCompressChain, lastChild, getLast?_singleton, size, data, length_singleton, hscan,
    hcopy, htake, if_pos hroom, Nat.zero_lt_one, if_true]

end

/-- The size limit is checked by the first scan only. When a key with one byte too many is left
alone behind a byte that was split off, the new node has room for all bytes but the last, and all
are copied: `raxRemove` returns 1, the long key is gone and the key without its last byte is there.
-/
theorem raxRemove_loses_key :
    ∃ rax replies rax', runSteps raxStep (raxNew, [])
        [.insert (replicate (raxNodeMaxSize + 1) 0) (none : Option Unit), .insert [1] none] =
          some (rax, replies) ∧
      raxFind rax (replicate (raxNodeMaxSize + 1) 0) = some none ∧
      (∃ start c, raxRemoveChain rax [1] = some start ∧ start.lastChild = some c ∧
        0 < (raxScanChain c start.size).1 ∧ (raxScanChain c start.size).2 = raxNodeMaxSize ∧
        start.size + (raxCopyChain c).1.length = raxNodeMaxSize + 1) ∧
      raxRemove rax [1] = some (rax', true, some none) ∧
      raxFind rax' (replicate (raxNodeMaxSize + 1) 0) = none ∧
      raxFind rax' (replicate raxNodeMaxSize 0) = some none := by
  obtain ⟨x, hlen, hkey, hcut⟩ : ∃ x : Bytes, x.length + 1 = raxNodeMaxSize ∧
      replicate (raxNodeMaxSize + 1) 0 = 0 :: (x ++ [0]) ∧
      replicate raxNodeMaxSize 0 = 0 :: x := by
    refine ⟨replicate (raxNodeMaxSize - 1) 0, ?_, ?_, ?_⟩
    · rw [length_replicate]
      rfl
    · rw [← replicate_succ']
      rfl
    · rfl
  have hhead := raxInsert_split hlen (raxInsert_long (W := Unit) hlen)
  obtain ⟨post, hpost⟩ : ∃ post : RaxNode Unit, post =
    .compr new x (.normal new [0] [.normal ⟨true, true, none⟩ [] []]) := ⟨_, rfl⟩
  obtain ⟨hscan, hcopy, hcompress⟩ := raxCompressChain_long hlen rfl hpost
  have hnew : (compr new (0 :: x) (.normal ⟨true, true, none⟩ [] []) : RaxNode Unit).Shape :=
    ⟨by simp, .normal rfl .nil (by simp) fun _ => rfl⟩
  rw [hkey, hcut, runSteps_cons, raxStep, bind_some, runSteps_cons, raxStep]
  obtain ⟨m, href⟩ := exists_raxRefines
    (rfl : runSteps raxStep _ [.insert (0 :: (x ++ [0])) none, .insert [1] none] = _)
  generalize (raxInsert (raxInsert raxNew (0 :: (x ++ [0])) (none : Option Unit)).1 [1] none).1 =
    rax at hhead href ⊢
  obtain ⟨head, numele, numnodes⟩ := rax
  simp only at hhead
  rw [← hpost] at hhead
  subst hhead
  have hremove : raxRemove ⟨.normal new [0, 1] [post, .normal ⟨true, true, none⟩ [] []], numele,
      numnodes⟩ [1] = ((raxCompressChain (.normal new [0] [post])).map fun r =>
        (⟨r.1, numele - 1, numnodes - 1 - r.2⟩ : Rax Unit)).map fun rax' =>
          (rax', true, some none) :=
    rfl
  refine ⟨_, _, ⟨.compr new (0 :: x) (.normal ⟨true, true, none⟩ [] []), numele - 1,
    numnodes - 1 - 2⟩, rfl, ?_,
    ⟨.normal new [0] [post], post, rfl, rfl, ?_, congrArg Prod.snd hscan,
    ?_⟩, ?_, ?_, ?_⟩
  · have hne : x ≠ [] := by
      rintro rfl
      exact absurd hlen (by decide)
    rw [raxFind_eq href.shape]
    show post.find (x ++ [0]) = _
    rw [hpost, find_compr_append _ hne]
    rfl
  · exact (congrArg Prod.fst hscan).symm ▸ Nat.zero_lt_one
  · rw [hcopy, length_append, ← hlen]
    exact Nat.add_comm _ _
  · rw [hremove, hcompress]
    rfl
  · rw [raxFind_eq hnew, ← cons_append, find_compr_append _ (by simp)]
    rfl
  · have hend := find_compr_append new (d := 0 :: x) (by simp)
      (.normal ⟨true, true, (none : Option Unit)⟩ [] []) []
    rw [append_nil] at hend
    rw [raxFind_eq hnew, hend]
    rfl

end RainCall
