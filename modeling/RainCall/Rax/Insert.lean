import RainCall.Rax.Walk

/-!
# Insertion into the radix tree

Each way in which `raxGenericInsert` edits the stop node is shown to change the map of that node at
one key: setting the value of the node, adding nodes below it, splitting a compressed node at a
mismatch and splitting it at the end of the key. With the rules about `plug` this gives the effect
on the whole tree (`raxGenericInsert_spec`).
-/

namespace RainCall

open Function RaxData RaxNode
open List hiding count

variable {W : Type}

/-! ### Adding a child -/

lemma insertIdx_length {α : Type*} (l1 l2 : List α) (a : α) :
    (l1 ++ l2).insertIdx l1.length a = l1 ++ a :: l2 := by
  induction l1 with
  | nil => rfl
  | cons b l1 ih => simp [ih]

variable {d₁ d₂ d : Bytes} {k : RaxData W} {c : RaxNode W}

lemma findIn_append {cs1 cs2 : List (RaxNode W)} (hlen : d₁.length = cs1.length) (y : UInt8)
    (s : Bytes) :
    findIn (d₁ ++ d₂) (cs1 ++ cs2) y s =
      if y ∈ d₁ then findIn d₁ cs1 y s else findIn d₂ cs2 y s := by
  induction d₁ generalizing cs1 with
  | nil =>
    rw [eq_nil_of_length_eq_zero hlen.symm]
    simp
  | cons x d₁ ih =>
    cases cs1 with
    | nil => simp at hlen
    | cons c cs1 =>
      rw [cons_append, cons_append, findIn, findIn]
      by_cases hx : x = y
      · rw [if_pos hx, if_pos hx, if_pos (by simp [hx])]
      · rw [if_neg hx, if_neg hx, ih (by simpa using hlen)]
        simp [Ne.symm hx]

lemma countIn_append (cs1 cs2 : List (RaxNode W)) :
    countIn (cs1 ++ cs2) = countIn cs1 + countIn cs2 := by
  simp [countIn_eq]

/-- The position of a new byte splits the sorted bytes into the smaller and the larger ones. -/
lemma raxAddChildPos_spec (hd : d.Pairwise (· < ·)) {c : UInt8} (hc : c ∉ d) :
    ∃ d₁ d₂, d = d₁ ++ d₂ ∧ raxAddChildPos d c = d₁.length ∧ (∀ x ∈ d₁, x < c) ∧
      ∀ x ∈ d₂, c < x := by
  have htotal : ∀ {x : UInt8}, x ∈ d → ¬ c < x → x < c := by
    intro x hx hnlt
    have hne : x ≠ c := by rintro rfl; exact hc hx
    exact UInt8.lt_of_le_of_ne (UInt8.not_lt.mp hnlt) hne
  have hscan : ∃ d₁ d₂, d = d₁ ++ d₂ ∧ (d.findIdx fun x => decide (c < x)) = d₁.length ∧
      (∀ x ∈ d₁, x < c) ∧ ∀ x ∈ d₂, c < x := by
    induction d with
    | nil => exact ⟨[], [], rfl, rfl, by simp, by simp⟩
    | cons y d ih =>
      obtain ⟨hy, hd'⟩ := pairwise_cons.mp hd
      by_cases hcy : c < y
      · refine ⟨[], y :: d, rfl, by simp [findIdx_cons, hcy], by simp, fun x hx => ?_⟩
        rcases mem_cons.mp hx with rfl | hx
        · exact hcy
        · exact UInt8.lt_trans hcy (hy x hx)
      · have hcd : c ∉ d := fun hm => hc (by simp [hm])
        obtain ⟨d₁, d₂, hsplit, hpos, h1, h2⟩ :=
          ih hd' hcd fun {x} hx hn => htotal (by simp [hx]) hn
        refine ⟨y :: d₁, d₂, by rw [hsplit, cons_append], ?_, fun x hx => ?_, h2⟩
        · rw [findIdx_cons, length_cons, ← hpos]
          simp [hcy]
        · rcases mem_cons.mp hx with rfl | hx
          · exact htotal (by simp) hcy
          · exact h1 x hx
  unfold raxAddChildPos
  rcases eq_nil_or_concat' d with rfl | ⟨init, last, rfl⟩
  · exact ⟨[], [], rfl, rfl, by simp, by simp⟩
  · simp only [getLast?_append, getLast?_singleton, Option.some_or]
    by_cases hlast : last < c
    · rw [if_pos hlast]
      refine ⟨init ++ [last], [], by simp, rfl, fun x hx => ?_, by simp⟩
      rcases mem_append.mp hx with hx | hx
      · exact UInt8.lt_trans ((pairwise_append.mp hd).2.2 x hx last (by simp)) hlast
      · rwa [mem_singleton.mp hx]
    · rw [if_neg hlast]
      exact hscan

/-- `raxAddChild` adds the keys of the child behind the new byte. -/
lemma raxAddChild_spec {cs : List (RaxNode W)} (h : (normal k d cs).Shape) {c : UInt8}
    (hc : c ∉ d) {child : RaxNode W} (hchild : child.WF) :
    (raxAddChild (.normal k d cs) c child).WF ∧
      (raxAddChild (.normal k d cs) c child).count =
        (normal k d cs).count + child.count ∧
      ∀ s, (raxAddChild (.normal k d cs) c child).find s =
        if s.head? = some c then child.find s.tail else (normal k d cs).find s := by
  obtain ⟨hlen, hsorted, hcs⟩ := h
  obtain ⟨d₁, d₂, rfl, hpos, h1, h2⟩ := raxAddChildPos_spec hsorted hc
  obtain ⟨cs1, cs2, rfl, hlen1⟩ : ∃ cs1 cs2, cs = cs1 ++ cs2 ∧ d₁.length = cs1.length := by
    refine ⟨cs.take d₁.length, cs.drop d₁.length, (take_append_drop _ _).symm, ?_⟩
    rw [length_append] at hlen
    rw [length_take]
    omega
  have hnode : raxAddChild (.normal k (d₁ ++ d₂) (cs1 ++ cs2)) c child =
      .normal k (d₁ ++ c :: d₂) (cs1 ++ child :: cs2) := by
    rw [raxAddChild, hpos, insertIdx_length, hlen1, insertIdx_length]
  rw [hnode]
  refine ⟨?_, ?_, ?_⟩
  · refine .normal ?_ ?_ ?_ (by simp)
    · simp only [length_append, length_cons] at hlen ⊢
      omega
    · obtain ⟨hs1, hs2, hs3⟩ := pairwise_append.mp hsorted
      refine pairwise_append.mpr ⟨hs1, pairwise_cons.mpr ⟨h2, hs2⟩, fun a ha b hb => ?_⟩
      rcases mem_cons.mp hb with rfl | hb
      · exact h1 a ha
      · exact hs3 a ha b hb
    · intro c' hc'
      rcases mem_append.mp hc' with hm | hm
      · exact hcs c' (by simp [hm])
      · rcases mem_cons.mp hm with rfl | hm
        · exact hchild
        · exact hcs c' (by simp [hm])
  · rw [count, count, countIn_append, countIn_append, countIn]
    omega
  · intro s
    cases s with
    | nil => rw [find_normal_nil]; rfl
    | cons x s =>
      rw [find_normal_cons, find_normal_cons, findIn_append hlen1, findIn_append hlen1,
        findIn, head?_cons, tail_cons]
      by_cases hx : x = c
      · subst hx
        have hx1 : x ∉ d₁ := fun hm => hc (by simp [hm])
        rw [if_neg hx1, if_pos rfl, if_pos rfl]
      · have hhead : ¬ some x = some c := by simpa using hx
        rw [if_neg (Ne.symm hx), if_neg hhead]

/-! ### Inserting the missing nodes -/

/-- What an edit of a node does: the map changes at the key `s`, and the counters follow. -/
structure EditSpec (old new : RaxNode W) (s : Bytes) (data : Option W) (nodes eles : ℕ) : Prop
    where
  find : new.find = Function.update old.find s (some data)
  wf : new.WF
  count : new.count = old.count + nodes
  /-- A new element is counted if the key was not there. -/
  eles_eq : eles = if (old.find s).isSome then 0 else 1

lemma find_raxNewNode (s : Bytes) : (raxNewNode : RaxNode W).find s = none := by
  cases s with
  | nil => rw [raxNewNode, find_normal_nil, own_new]
  | cons x s => rw [raxNewNode, find_normal_cons, findIn_of_notMem (by simp)]

lemma count_raxNewNode : (raxNewNode : RaxNode W).count = 1 := rfl

/-- Setting the value of a node. -/
lemma setData_edit {n : RaxNode W} (h : n.Shape) (data : Option W) :
    EditSpec n (n.withKey (raxSetData n.key data)) [] data 0 (if n.key.iskey then 0 else 1) := by
  refine ⟨?_, ?_, by rw [count_withKey, Nat.add_zero], ?_⟩
  · rw [find_withKey, own_raxSetData]
  · exact (shape_withKey h _).wf fun _ => by rw [key_withKey, raxSetData_iskey]
  · rw [find_nil, own]
    cases n.key.iskey <;> rfl

lemma raxCompressNode_edit {h : RaxNode W} (hshape : h.Shape) (hc : h.iscompr = false)
    (hsize : h.size = 0) {s : Bytes} (hd : d ≠ []) {data : Option W} {child : RaxNode W}
    {nodes eles : ℕ} (hchild : EditSpec raxNewNode child s data nodes eles) :
    EditSpec h (raxCompressNode h d child) (d ++ s) data (nodes + 1) eles := by
  cases h with
  | compr k d' c => cases hc
  | normal k d' cs =>
    have hd' : d' = [] := eq_nil_of_length_eq_zero hsize
    subst hd'
    have hcs : cs = [] := eq_nil_of_length_eq_zero hshape.1.symm
    subst hcs
    have hold : ∀ t, t ≠ [] → (normal k [] []).find t = none := by
      intro t ht
      obtain ⟨x, t, rfl⟩ := exists_cons_of_ne_nil ht
      rw [find_normal_cons, findIn_of_notMem (by simp)]
    refine ⟨?_, .compr hd hchild.wf, ?_, ?_⟩
    · rw [raxCompressNode]
      refine eq_update_append (f := (raxNewNode : RaxNode W).find) (fun r => ?_) (fun r => ?_)
        fun t hpre => ?_
      · rw [hold _ (by simp [hd]), find_raxNewNode]
      · rw [find_compr_append _ hd, hchild.find]
      · by_cases ht : t = []
        · rw [ht]
          exact own_raxCopyData (.inr rfl)
        · rw [find_compr_of_not ht hpre, hold t ht]
    · have hcount := hchild.count
      rw [count_raxNewNode] at hcount
      rw [raxCompressNode, count, count, countIn]
      omega
    · rw [hchild.eles_eq, find_raxNewNode, hold _ (by simp [hd])]

lemma raxInsertRest_edit (data : Option W) :
    ∀ (fuel : ℕ) (h : RaxNode W) (s : Bytes), s.length ≤ fuel → h.Shape → h.iscompr = false →
      (∀ x r, s = x :: r → x ∉ h.data) →
      EditSpec h (raxInsertRest data fuel h s).1 s data (raxInsertRest data fuel h s).2.1
        (raxInsertRest data fuel h s).2.2 := by
  intro fuel
  induction fuel with
  | zero =>
    intro h s hlen hshape _ _
    rw [eq_nil_of_length_eq_zero (Nat.le_zero.mp hlen), raxInsertRest]
    exact setData_edit hshape data
  | succ fuel ih =>
    intro h s hlen hshape hcompr hnew
    cases s with
    | nil =>
      rw [raxInsertRest]
      exact setData_edit hshape data
    | cons c s =>
      rw [raxInsertRest]
      by_cases hsize : h.size = 0 ∧ 1 < (c :: s).length
      · simp only [if_pos hsize]
        have hmax : 0 < raxNodeMaxSize := by decide
        have hlen' : ((c :: s).drop raxNodeMaxSize).length ≤ fuel := by
          rw [length_drop]
          omega
        have hd : (c :: s).take raxNodeMaxSize ≠ [] := by
          simp [hmax.ne']
        have hchild :=
          ih raxNewNode _ hlen' shape_raxNewNode rfl (by simp [raxNewNode, RaxNode.data])
        have hedit := raxCompressNode_edit hshape hcompr hsize.1 hd hchild
        rwa [take_append_drop] at hedit
      · simp only [if_neg hsize]
        have hchild := ih raxNewNode s (by simpa using hlen) shape_raxNewNode rfl
          (by simp [raxNewNode, RaxNode.data])
        cases h with
        | compr k d cs => cases hcompr
        | normal k d cs =>
          have hc : c ∉ d := hnew c s rfl
          obtain ⟨hwf, hcount, hfind⟩ := raxAddChild_spec hshape hc hchild.wf
          refine ⟨?_, hwf, ?_, ?_⟩
          · refine eq_update_append (f := (raxNewNode : RaxNode W).find) (d := [c]) (fun r => ?_)
              (fun r => ?_) fun t ht => ?_
            · rw [singleton_append, find_normal_cons, findIn_of_notMem hc, find_raxNewNode]
            · rw [hfind, singleton_append, head?_cons, if_pos rfl, hchild.find, tail_cons]
            · rw [hfind, if_neg fun h => ht (singleton_prefix_iff_head?_eq_some.mpr h)]
          · have hnc := hchild.count
            rw [count_raxNewNode] at hnc
            rw [hcount, hnc]
            ring
          · rw [hchild.eles_eq, find_raxNewNode, find_normal_cons, findIn_of_notMem hc]

/-! ### Splitting a compressed node -/

/-- A chain node denotes the same map whether it is compressed or not. -/
lemma find_chainNode (k : RaxData W) (hd : d ≠ []) (c : RaxNode W) :
    (chainNode k d c).find = (compr k d c).find := by
  unfold chainNode
  by_cases hlen : 1 < d.length
  · rw [if_pos hlen]
  · rw [if_neg hlen]
    obtain ⟨x, rfl⟩ : ∃ x, d = [x] := by
      obtain ⟨x, d, rfl⟩ := exists_cons_of_ne_nil hd
      refine ⟨x, ?_⟩
      rw [length_cons] at hlen
      rw [eq_nil_of_length_eq_zero (by omega : d.length = 0)]
    funext t
    cases t with
    | nil => rw [find_normal_nil, find_compr_nil]
    | cons y t =>
      rw [find_normal_cons, findIn]
      by_cases hy : x = y
      · rw [if_pos hy, ← hy]
        exact (find_compr_append k (by simp) c t).symm
      · have hpre : ¬ [x] <+: y :: t := by simpa using hy
        rw [if_neg hy, find_compr_of_not (by simp) hpre, findIn_of_notMem (by simp)]

lemma wf_chainNode (k : RaxData W) (hd : d ≠ []) (hc : c.WF) :
    (chainNode k d c).WF := by
  unfold chainNode
  by_cases hlen : 1 < d.length
  · rw [if_pos hlen]
    exact .compr hd hc
  · rw [if_neg hlen]
    obtain ⟨x, d, rfl⟩ := exists_cons_of_ne_nil hd
    rw [length_cons] at hlen
    obtain rfl : d = [] := eq_nil_of_length_eq_zero (by omega)
    exact .normal rfl (pairwise_singleton _ _) (by simpa using hc) (by simp)

lemma count_chainNode (k : RaxData W) (d : Bytes) (c : RaxNode W) :
    (chainNode k d c).count = 1 + c.count := by
  unfold chainNode
  split
  · rw [count]
  · rw [count, countIn, countIn, Nat.add_zero]

/-- A compressed node may be split in two, if the second part is no key. -/
lemma find_compr_split {k' k2 : RaxData W} (hk : k'.own = k.own) (hk2 : k2.own = none)
    (h1 : d₁ ≠ []) (h2 : d₂ ≠ []) (c : RaxNode W) :
    (compr k' d₁ (.compr k2 d₂ c)).find = (compr k (d₁ ++ d₂) c).find := by
  funext t
  by_cases ht : t = []
  · rw [ht, find_compr_nil, find_compr_nil, hk]
  · by_cases hpre : d₁ <+: t
    · obtain ⟨r, rfl⟩ := hpre
      rw [find_compr_append _ h1]
      by_cases hr : r = []
      · have hnot : ¬ d₁ ++ d₂ <+: d₁ ++ r := by
          rw [prefix_append_right_inj, hr, prefix_nil]
          exact h2
        rw [find_compr_of_not ht hnot, hr, find_compr_nil, hk2]
      · by_cases hpre2 : d₂ <+: r
        · obtain ⟨u, rfl⟩ := hpre2
          rw [find_compr_append _ h2, ← append_assoc, find_compr_append _ (by simp [h1])]
        · rw [find_compr_of_not hr hpre2, find_compr_of_not ht]
          rwa [prefix_append_right_inj]
    · rw [find_compr_of_not ht hpre, find_compr_of_not ht]
      intro h
      exact hpre ((prefix_append d₁ d₂).trans h)

/-- Only the value and the map of the child matter. -/
lemma find_compr_congr {k' : RaxData W} (hk : k'.own = k.own) {c' : RaxNode W}
    (hc : c'.find = c.find) : (compr k' d c').find = (compr k d c).find := by
  funext t
  by_cases ht : t = []
  · rw [ht, find_compr_nil, find_compr_nil, hk]
  · by_cases hpre : d <+: t
    · rw [find, find, if_neg ht, if_neg ht, if_pos hpre, if_pos hpre, hc]
    · rw [find_compr_of_not ht hpre, find_compr_of_not ht hpre]

lemma find_compr_update (hd : d ≠ []) {c' : RaxNode W} {s : Bytes} {v : Option (Option W)}
    (h : c'.find = update c.find s v) :
    (compr k d c').find = update (compr k d c).find (d ++ s) v := by
  refine eq_update_append (find_compr_append k hd c) (fun r => ?_) fun t hpre => ?_
  · rw [find_compr_append _ hd, h]
  · by_cases ht : t = []
    · rw [ht, find_compr_nil, find_compr_nil]
    · rw [find_compr_of_not ht hpre, find_compr_of_not ht hpre]

/-- Algorithm 2: the key ends inside the compressed node. -/
lemma raxSplitEnd_edit (h1 : d₁ ≠ []) (h2 : d₂ ≠ []) {next : RaxNode W} (hnext : next.WF)
    (data : Option W) :
    EditSpec (.compr k (d₁ ++ d₂) next) (raxSplitEnd k (d₁ ++ d₂) next d₁.length data) d₁ data 1
      1 := by
  have htop : (raxCopyData k new).own = k.own := own_raxCopyData (.inl rfl)
  have hnew : ((raxSetData ⟨true, false, none⟩ data : RaxData W)).own = some data :=
    own_raxSetData _ _
  have hlow : (chainNode (raxSetData ⟨true, false, none⟩ data) d₂ next).find =
      update (compr new d₂ next).find [] (some data) := by
    rw [find_chainNode _ h2, ← hnew]
    exact find_withKey (.compr new d₂ next) (raxSetData ⟨true, false, none⟩ data)
  unfold raxSplitEnd
  rw [take_left, drop_left]
  refine ⟨?_, wf_chainNode _ h1 (wf_chainNode _ h2 hnext), ?_, ?_⟩
  · rw [find_chainNode _ h1, find_compr_update h1 hlow, append_nil,
      find_compr_split htop own_new h1 h2]
  · rw [count_chainNode, count_chainNode, count]
    omega
  · have hnone : (compr k (d₁ ++ d₂) next).find d₁ = none := by
      refine find_compr_of_not h1 fun hpre => ?_
      have := hpre.length_le
      rw [length_append] at this
      exact h2 (eq_nil_of_length_eq_zero (by omega))
    rw [hnone]
    rfl

/-- Algorithm 1: the key leaves the compressed node at a mismatch. -/
lemma raxSplitMismatch_edit {y : UInt8} {next : RaxNode W} (hnext : next.WF) {x : UInt8}
    {r : Bytes} (hxy : x ≠ y) (data : Option W) :
    EditSpec (.compr k (d₁ ++ y :: d₂) next)
      (raxSplitMismatch k (d₁ ++ y :: d₂) next d₁.length (x :: r) data).1 (d₁ ++ x :: r) data
      (raxSplitMismatch k (d₁ ++ y :: d₂) next d₁.length (x :: r) data).2.1
      (raxSplitMismatch k (d₁ ++ y :: d₂) next d₁.length (x :: r) data).2.2 := by
  -- the part of the compressed node after the mismatch
  obtain ⟨post, hpost, hpostwf, hpostcount, hpostfind⟩ : ∃ post,
      post = (if 0 < d₂.length then chainNode RaxData.new d₂ next else next) ∧ post.WF ∧
      post.count = next.count + (if 0 < d₂.length then 1 else 0) ∧
      ∀ k' : RaxData W, (RaxNode.normal k' [y] [post]).find =
        (RaxNode.compr k' (y :: d₂) next).find := by
    have hone : ∀ (k' : RaxData W) (c : RaxNode W), (RaxNode.normal k' [y] [c]).find =
        (RaxNode.compr k' [y] c).find := fun k' c => find_chainNode k' (d := [y]) (by simp) c
    by_cases hd2 : 0 < d₂.length
    · have hne : d₂ ≠ [] := length_pos_iff.mp hd2
      refine ⟨_, rfl, ?_, ?_, fun k' => ?_⟩
      · rw [if_pos hd2]
        exact wf_chainNode _ hne hnext
      · rw [if_pos hd2, if_pos hd2, count_chainNode, Nat.add_comm]
      · rw [if_pos hd2, hone, find_compr_congr rfl (find_chainNode _ hne next)]
        exact find_compr_split rfl own_new (by simp) hne next
    · obtain rfl : d₂ = [] := eq_nil_of_length_eq_zero (by omega)
      exact ⟨next, rfl, hnext, rfl, fun k' => hone k' next⟩
  have hlen : (d₁ ++ y :: d₂).length - d₁.length - 1 = d₂.length := by
    simp only [length_append, length_cons]
    omega
  have hdrop : (d₁ ++ y :: d₂).drop (d₁.length + 1) = d₂ := by
    rw [← drop_drop, drop_left, drop_one, tail_cons]
  have hshape : ∀ k' : RaxData W, (RaxNode.normal k' [y] [post]).Shape := fun k' =>
    ⟨rfl, pairwise_singleton _ _, by simpa using hpostwf⟩
  have hrest : ∀ k' : RaxData W, EditSpec (.normal k' [y] [post])
      (raxInsertRest data (x :: r).length (.normal k' [y] [post]) (x :: r)).1 (x :: r) data
      (raxInsertRest data (x :: r).length (.normal k' [y] [post]) (x :: r)).2.1
      (raxInsertRest data (x :: r).length (.normal k' [y] [post]) (x :: r)).2.2 := by
    intro k'
    refine raxInsertRest_edit data _ _ _ le_rfl (hshape k') rfl ?_
    intro x' r' heq
    rw [cons.injEq] at heq
    simpa [RaxNode.data, ← heq.1] using hxy
  have hcount : ∀ k' : RaxData W, (RaxNode.normal k' [y] [post]).count =
      (RaxNode.compr k (d₁ ++ y :: d₂) next).count + (if 0 < d₂.length then 1 else 0) := by
    intro k'
    simp only [RaxNode.count, RaxNode.countIn]
    omega
  unfold raxSplitMismatch
  simp only [hlen, hdrop, ← hpost]
  by_cases hd1 : d₁ = []
  · subst hd1
    rw [length_nil, if_pos rfl]
    simp only [nil_append, take_succ_cons, take_zero]
    obtain ⟨hfind, hwf, hcnt, heles⟩ := hrest (raxCopyData k RaxData.new)
    have hold : (RaxNode.normal (raxCopyData k RaxData.new) [y] [post]).find =
        (RaxNode.compr k (y :: d₂) next).find := by
      rw [hpostfind]
      exact find_compr_congr (own_raxCopyData (.inl rfl)) rfl
    refine ⟨by rw [hfind, hold], hwf, ?_, by rw [heles, hold]⟩
    have := hcount (raxCopyData k RaxData.new)
    rw [nil_append] at this
    rw [hcnt, this]
    ring
  · have hpos : d₁.length ≠ 0 := by simpa using hd1
    rw [if_neg hpos]
    simp only [drop_left, take_left, take_succ_cons, take_zero]
    obtain ⟨hfind, hwf, hcnt, heles⟩ := hrest RaxData.new
    generalize htrim : (if k.iskey && !k.isnull then
      raxSetData ⟨k.iskey, k.isnull, none⟩ (raxGetData k) else ⟨k.iskey, k.isnull, none⟩) = trimmed
    have htrimmed : trimmed.own = k.own := by
      rw [← htrim]
      obtain ⟨iskey, isnull, value⟩ := k
      cases iskey <;> cases isnull <;> cases value <;> rfl
    have hsplit : (RaxNode.compr trimmed d₁ (.normal RaxData.new [y] [post])).find =
        (RaxNode.compr k (d₁ ++ y :: d₂) next).find := by
      rw [find_compr_congr rfl (hpostfind RaxData.new)]
      exact find_compr_split htrimmed own_new hd1 (by simp) next
    refine ⟨?_, wf_chainNode _ hd1 hwf, ?_, ?_⟩
    · rw [find_chainNode _ hd1, find_compr_update hd1 hfind, hsplit]
    · rw [count_chainNode, hcnt, hcount]
      ring
    · rw [heles, ← hsplit, find_compr_append _ hd1]

/-! ### The whole insertion -/

/-- `raxGenericInsert` stores the value unless the key exists and must not be overwritten, reports
whether the key is new and hands out the old value. -/
lemma raxGenericInsert_spec {rax : Rax W} (hhead : rax.head.Shape) (s : Bytes)
    (data : Option W) (overwrite : Bool) :
    ∃ rax', raxGenericInsert rax s data overwrite =
        (rax', !(rax.head.find s).isSome, rax.head.find s) ∧
      rax'.head.Shape ∧
      rax'.head.find = (if (rax.head.find s).isSome && !overwrite then rax.head.find
        else update rax.head.find s (some data)) ∧
      rax'.numele = rax.numele + (if (rax.head.find s).isSome then 0 else 1) ∧
      rax'.numnodes + rax.head.count = rax.numnodes + rax'.head.count := by
  have h := raxLowWalk_spec hhead s
  obtain ⟨hts, hshape, -⟩ := h.path.wf hhead
  have hfind := h.find_eq hhead
  -- an edit of the stop node is an edit of the tree
  have hedit : ∀ {new : RaxNode W} {t : Bytes} {nodes eles : ℕ},
      EditSpec (raxLowWalk rax s).node new t data nodes eles →
      pathOf (raxLowWalk rax s).stack ++ t = s →
      (plug (raxLowWalk rax s).stack new).Shape ∧
        (plug (raxLowWalk rax s).stack new).find =
          update rax.head.find s (some data) ∧
        (plug (raxLowWalk rax s).stack new).count = rax.head.count + nodes := by
    intro new t nodes eles he ht
    refine ⟨(wf_plug hts he.wf).shape, ?_, ?_⟩
    · rw [find_plug_update hts he.find, h.path.plug_eq, ht]
    · have := count_plug hts (raxLowWalk rax s).node new
      rw [h.path.plug_eq, he.count] at this
      omega
  unfold raxGenericInsert
  simp only
  cases hat : (raxLowWalk rax s).atNode with
  | true =>
    obtain ⟨hpath, hj, hrest⟩ := h.atNode hat
    rw [hj, hrest, take_zero, append_nil, find_nil] at hfind
    have he := setData_edit hshape data
    obtain ⟨hs, hf, hc⟩ := hedit he (by rw [append_nil, hpath])
    rw [if_pos rfl]
    cases hkey : (raxLowWalk rax s).node.key.iskey with
    | true =>
      rw [own_of_iskey hkey] at hfind
      rw [if_pos rfl, hfind]
      cases overwrite with
      | true =>
        refine ⟨_, rfl, hs, hf, rfl, ?_⟩
        simp only [if_true]
        omega
      | false =>
        refine ⟨_, rfl, ?_, ?_, rfl, ?_⟩
        all_goals simp only [Bool.false_eq_true, if_false, h.path.plug_eq]
        · exact hhead
        · rfl
    | false =>
      rw [own_of_not_iskey hkey] at hfind
      rw [if_neg (by simp), hfind]
      refine ⟨_, rfl, hs, hf, rfl, ?_⟩
      simp only [hc]
      omega
  | false =>
    have hnone := h.find_of_not_atNode hhead hat
    rw [hnone] at hfind ⊢
    rw [if_neg (by simp)]
    have hkey := h.key
    generalize raxLowWalk rax s = w at *
    obtain ⟨rest, node, j, ts⟩ := w
    cases node with
    | compr k d next =>
      obtain ⟨hj, hx⟩ := h.compr k d next rfl
      simp only at hj hx
      have hwf : next.WF := hshape.2
      have hd : d.take j ++ d.drop j = d := take_append_drop j d
      have hjlen : (d.take j).length = j := by
        rw [length_take]
        omega
      have hdrop : d.drop j ≠ [] := by
        rw [ne_eq, drop_eq_nil_iff]
        omega
      cases rest with
      | nil =>
        have hj0 : j ≠ 0 := by
          rintro rfl
          simp [RaxWalk.atNode] at hat
        have htake : d.take j ≠ [] := by
          intro hnil
          rw [hnil] at hjlen
          exact hj0 hjlen.symm
        have he := raxSplitEnd_edit (k := k) htake hdrop hwf data
        rw [hd, hjlen] at he
        obtain ⟨hs, hf, hc⟩ := hedit he (by simpa [RaxNode.data] using hkey)
        refine ⟨_, rfl, hs, hf, rfl, ?_⟩
        simp only [hc]
        omega
      | cons x r =>
        obtain ⟨y, d₂, hyd⟩ := exists_cons_of_ne_nil hdrop
        have hxy : x ≠ y := by
          rintro rfl
          refine hx x r rfl ?_
          rw [← hd, hyd, getElem?_append_right (by rw [hjlen]), hjlen, Nat.sub_self,
            getElem?_cons_zero]
        have he : EditSpec (.compr k (d.take j ++ y :: d₂) next) _ (d.take j ++ x :: r) data _ _ :=
          raxSplitMismatch_edit hwf hxy data
        rw [← hyd, hd, hjlen] at he
        obtain ⟨hs, hf, hc⟩ := hedit he (by simpa [RaxNode.data] using hkey)
        have hlocal : (RaxNode.compr k d next).find (d.take j ++ x :: r) = none := hfind.symm
        have heles := he.eles_eq
        rw [hlocal] at heles
        refine ⟨_, rfl, hs, hf, ?_, ?_⟩
        · simp only [heles]
        · simp only [hc]
          ring
    | normal k d cs =>
      obtain ⟨hj, hx⟩ := h.normal k d cs rfl
      subst hj
      have he := raxInsertRest_edit data rest.length (.normal k d cs) rest le_rfl hshape rfl
        (fun x r hr => hx x r hr)
      obtain ⟨hs, hf, hc⟩ := hedit he (by simpa using hkey)
      have hlocal : (RaxNode.normal k d cs).find rest = none := hfind.symm
      have heles := he.eles_eq
      rw [hlocal] at heles
      refine ⟨_, rfl, hs, hf, ?_, ?_⟩
      · simp only [heles]
      · simp only [hc]
        ring

end RainCall
