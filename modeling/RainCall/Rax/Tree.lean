import RainCall.Rax.Basic

/-!
# The map a radix tree denotes

`RaxNode.find` reads a node as a map from byte strings to values and `RaxNode.count` counts its
nodes. `RaxNode.WF` is the invariant of a node below the root: the bytes of a normal node are
strictly sorted and a node without children is a key. For the root only `RaxNode.Shape` holds, which
allows the empty root.

An edit of one node deep in the tree is `plug` of a new node into the old ancestors. The lemmas
about `plug` reduce the effect of such an edit on the map, the node count and the invariant to the
effect on the node itself.
-/

namespace RainCall

open Function RaxNode
open List hiding count

variable {W : Type}

/-- The value of a node that is a key. -/
def RaxData.own (k : RaxData W) : Option (Option W) := if k.iskey then some (raxGetData k) else none

@[simp] lemma own_new : (RaxData.new : RaxData W).own = none := rfl

@[simp] lemma own_raxSetData (k : RaxData W) (data : Option W) :
    (raxSetData k data).own = some data := by
  cases data <;> rfl

lemma raxSetData_iskey (k : RaxData W) (data : Option W) : (raxSetData k data).iskey = true := by
  cases data <;> rfl

variable {k : RaxData W} {n : RaxNode W} {d s : Bytes} {cs : List (RaxNode W)} {y : UInt8}
  {f : RaxFrame W} {ts : List (RaxFrame W)}

lemma own_of_not_iskey (h : k.iskey = false) : k.own = none := by
  simp [RaxData.own, h]

lemma own_of_iskey (h : k.iskey = true) : k.own = some (raxGetData k) := by
  simp [RaxData.own, h]

lemma own_raxCopyData {k' : RaxData W} (h : k'.iskey = false ∨ k' = k) :
    (raxCopyData k k').own = k.own := by
  unfold raxCopyData
  by_cases hk : k.iskey = true
  · rw [if_pos hk, own_raxSetData, own_of_iskey hk]
  · rw [if_neg hk]
    rcases h with h | rfl
    · rw [own_of_not_iskey h, own_of_not_iskey (by simpa using hk)]
    · rfl

mutual
/-- The number of nodes of a tree. -/
def RaxNode.count : RaxNode W → ℕ
  | .compr _ _ c => 1 + c.count
  | .normal _ _ cs => 1 + RaxNode.countIn cs

def RaxNode.countIn : List (RaxNode W) → ℕ
  | [] => 0
  | c :: cs => c.count + RaxNode.countIn cs
end

mutual
def RaxNode.find : RaxNode W → Bytes → Option (Option W)
  | .compr k d c, s =>
    if s = [] then k.own else if d <+: s then c.find (s.drop d.length) else none
  | .normal k _ _, [] => k.own
  | .normal _ d cs, x :: s => RaxNode.findIn d cs x s

/-- The value of the key `x :: s` below the children `cs` with the bytes `d`. -/
def RaxNode.findIn : Bytes → List (RaxNode W) → UInt8 → Bytes → Option (Option W)
  | x :: d, c :: cs, y, s => if x = y then c.find s else RaxNode.findIn d cs y s
  | _, _, _, _ => none
end

/-- Induction over the nodes of a tree. -/
lemma RaxNode.induct {P : RaxNode W → Prop} (hc : ∀ k d c, P c → P (.compr k d c))
    (hn : ∀ k d cs, (∀ c ∈ cs, P c) → P (.normal k d cs)) : ∀ n, P n
  | .compr k d c => hc k d c (induct hc hn c)
  | .normal k d cs => hn k d cs fun c _ => induct hc hn c

/-- The invariant of a node below the root. -/
inductive RaxNode.WF : RaxNode W → Prop
  | compr {k : RaxData W} {d : Bytes} {c : RaxNode W} (hd : d ≠ []) (hc : c.WF) :
    RaxNode.WF (.compr k d c)
  | normal {k : RaxData W} {d : Bytes} {cs : List (RaxNode W)} (hlen : d.length = cs.length)
    (hsorted : d.Pairwise (· < ·)) (hcs : ∀ c ∈ cs, c.WF) (hleaf : d = [] → k.iskey = true) :
    RaxNode.WF (.normal k d cs)

/-- The invariant of the root: like that of the other nodes, but the root may be empty. -/
def RaxNode.Shape : RaxNode W → Prop
  | .compr _ d c => d ≠ [] ∧ c.WF
  | .normal _ d cs => d.length = cs.length ∧ d.Pairwise (· < ·) ∧ ∀ c ∈ cs, c.WF

lemma RaxNode.WF.shape (h : n.WF) : n.Shape := by
  cases h with
  | compr hd hc => exact ⟨hd, hc⟩
  | normal hlen hsorted hcs hleaf => exact ⟨hlen, hsorted, hcs⟩

lemma RaxNode.Shape.wf (h : n.Shape) (hleaf : n.size = 0 → n.key.iskey = true) :
    n.WF := by
  cases n with
  | compr k d c => exact .compr h.1 h.2
  | normal k d cs =>
    refine .normal h.1 h.2.1 h.2.2 fun hd => hleaf ?_
    rw [size, data, hd, length_nil]

/-- A leaf below the root is a key. -/
lemma RaxNode.WF.iskey_of_size (h : n.WF) (hsize : n.size = 0) :
    n.key.iskey = true := by
  cases h with
  | compr hd _ => exact absurd (eq_nil_of_length_eq_zero hsize) hd
  | normal _ _ _ hleaf => exact hleaf (eq_nil_of_length_eq_zero hsize)

lemma RaxNode.Shape.nodup (h : (normal k d cs).Shape) : d.Nodup := h.2.1.imp UInt8.ne_of_lt

@[simp] lemma shape_raxNewNode : (raxNewNode : RaxNode W).Shape := by
  refine ⟨rfl, List.Pairwise.nil, ?_⟩
  simp

/-! ### Looking up in a node -/

lemma RaxNode.countIn_eq (cs : List (RaxNode W)) :
    countIn cs = (cs.map count).sum := by
  induction cs with
  | nil => rfl
  | cons c cs ih => rw [countIn, ih, map_cons, sum_cons]

lemma find_compr_nil (k : RaxData W) (d : Bytes) (c : RaxNode W) :
    (compr k d c).find [] = k.own := by simp [find]

lemma find_normal_nil (k : RaxData W) (d : Bytes) (cs : List (RaxNode W)) :
    (normal k d cs).find [] = k.own := by simp [find]

lemma find_nil (n : RaxNode W) : n.find [] = n.key.own := by
  cases n with
  | compr k d c => exact find_compr_nil k d c
  | normal k d cs => exact find_normal_nil k d cs

lemma find_compr_append (k : RaxData W) (hd : d ≠ []) (c : RaxNode W) (s : Bytes) :
    (compr k d c).find (d ++ s) = c.find s := by
  rw [find, if_neg (by simp [hd]), if_pos (prefix_append d s), drop_left]

lemma find_compr_of_not {c : RaxNode W} (hs : s ≠ []) (h : ¬ d <+: s) :
    (compr k d c).find s = none := by
  rw [find, if_neg hs, if_neg h]

lemma find_normal_cons (k : RaxData W) (d : Bytes) (cs : List (RaxNode W)) (x : UInt8)
    (s : Bytes) : (normal k d cs).find (x :: s) = findIn d cs x s := by
  rw [find]

lemma findIn_of_notMem (h : y ∉ d) (cs : List (RaxNode W)) (s : Bytes) :
    findIn d cs y s = none := by
  induction d generalizing cs with
  | nil => cases cs <;> rfl
  | cons x d ih =>
    cases cs with
    | nil => rfl
    | cons c cs =>
      rw [mem_cons, not_or] at h
      rw [findIn, if_neg (Ne.symm h.1)]
      exact ih h.2 cs

lemma findIn_of_getElem (hd : d.Nodup) {i : ℕ} {c : RaxNode W} (hy : d[i]? = some y)
    (hc : cs[i]? = some c) (s : Bytes) :
    findIn d cs y s = c.find s := by
  induction d generalizing cs i with
  | nil => simp at hy
  | cons x d ih =>
    cases cs with
    | nil => simp at hc
    | cons c' cs =>
      rw [nodup_cons] at hd
      cases i with
      | zero =>
        simp only [getElem?_cons_zero, Option.some.injEq] at hy hc
        rw [findIn, if_pos hy, hc]
      | succ i =>
        have hne : x ≠ y := by
          rintro rfl
          exact hd.1 (mem_of_getElem? hy)
        rw [findIn, if_neg hne]
        exact ih hd.2 hy hc

/-- A node with other key bits differs from the old one at the empty key only. -/
lemma find_withKey (n : RaxNode W) (k : RaxData W) :
    (n.withKey k).find = update n.find [] k.own := by
  funext s
  by_cases hs : s = []
  · subst hs
    cases n <;> rfl
  · rw [update_of_ne hs]
    cases n with
    | compr k' d c =>
      by_cases hd : d <+: s
      · rw [withKey, find, find, if_neg hs, if_neg hs]
      · rw [withKey, find_compr_of_not hs hd, find_compr_of_not hs hd]
    | normal k' d cs =>
      obtain ⟨x, s, rfl⟩ := exists_cons_of_ne_nil hs
      rw [withKey, find_normal_cons, find_normal_cons]

lemma count_withKey (n : RaxNode W) (k : RaxData W) : (n.withKey k).count = n.count := by
  cases n <;> simp [withKey, count]

lemma shape_withKey (h : n.Shape) (k : RaxData W) : (n.withKey k).Shape := by
  cases n <;> exact h

lemma key_withKey (n : RaxNode W) (k : RaxData W) : (n.withKey k).key = k := by cases n <;> rfl

/-! ### Editing below a frame -/

/-- The bytes on the way from an ancestor to the child taken. -/
def RaxFrame.edge (f : RaxFrame W) : Bytes :=
  match f.node with
  | .compr _ d _ => d
  | .normal _ d _ => (d[f.idx]?).toList

def pathOf : List (RaxFrame W) → Bytes
  | [] => []
  | f :: ts => pathOf ts ++ f.edge

/-- A frame of a well-formed tree. -/
structure RaxFrame.WF (f : RaxFrame W) : Prop where
  shape : f.node.Shape
  idx_lt : f.node.iscompr = false → f.idx < f.node.size

/-- The frame leads along its edge to the child. -/
lemma find_setChild_append (hf : f.WF) (n : RaxNode W) (s : Bytes) :
    (f.node.setChild f.idx n).find (f.edge ++ s) = n.find s := by
  obtain ⟨node, idx⟩ := f
  cases node with
  | compr k d c => exact find_compr_append k hf.shape.1 n s
  | normal k d cs =>
    have hlt : idx < d.length := hf.idx_lt rfl
    have hedge : (⟨.normal k d cs, idx⟩ : RaxFrame W).edge = [d[idx]] := by
      simp [RaxFrame.edge]
    have hcs : idx < cs.length := hf.shape.1 ▸ hlt
    rw [hedge, setChild]
    exact findIn_of_getElem hf.shape.nodup (getElem?_eq_getElem hlt)
      (getElem?_set_self hcs) s

lemma findIn_set_of_ne {i : ℕ} (hy : d[i]? ≠ some y) (n : RaxNode W) (s : Bytes) :
    findIn d (cs.set i n) y s = findIn d cs y s := by
  induction d generalizing cs i with
  | nil => rw [findIn_of_notMem (by simp), findIn_of_notMem (by simp)]
  | cons x d ih =>
    cases cs with
    | nil => rfl
    | cons c cs =>
      cases i with
      | zero =>
        have hne : x ≠ y := by simpa using hy
        rw [set_cons_zero, findIn, findIn, if_neg hne, if_neg hne]
      | succ i =>
        rw [set_cons_succ, findIn, findIn, ih (by simpa using hy)]

/-- Keys that do not follow the edge of the frame are not affected. -/
lemma find_setChild_of_not (hf : f.WF) (hs : ¬ f.edge <+: s) (n : RaxNode W) :
    (f.node.setChild f.idx n).find s = f.node.find s := by
  obtain ⟨node, idx⟩ := f
  cases node with
  | compr k d c =>
    have hd : ¬ d <+: s := hs
    by_cases hnil : s = []
    · rw [hnil, setChild, find_compr_nil, find_compr_nil]
    · rw [setChild, find_compr_of_not hnil hd, find_compr_of_not hnil hd]
  | normal k d cs =>
    cases s with
    | nil => rw [setChild, find_normal_nil, find_normal_nil]
    | cons x s =>
      have hx : d[idx]? ≠ some x := by
        intro heq
        refine hs ⟨s, ?_⟩
        show (d[idx]?).toList ++ s = x :: s
        rw [heq]
        rfl
      rw [setChild]
      exact findIn_set_of_ne hx n s

lemma count_set {i : ℕ} (hi : i < cs.length) (n n' : RaxNode W) :
    countIn (cs.set i n') + n.count = countIn (cs.set i n) + n'.count := by
  have hi' : i < (cs.map count).length := by rwa [length_map]
  rw [countIn_eq, countIn_eq, map_set, map_set, sum_set, sum_set, if_pos hi', if_pos hi']
  omega

lemma count_setChild (hf : f.WF) (n n' : RaxNode W) :
    (f.node.setChild f.idx n').count + n.count = (f.node.setChild f.idx n).count + n'.count := by
  obtain ⟨node, idx⟩ := f
  cases node with
  | compr k d c =>
    simp only [setChild, count]
    omega
  | normal k d cs =>
    have hlt : idx < d.length := hf.idx_lt rfl
    have := count_set (hf.shape.1 ▸ hlt) n n'
    simp only [setChild, count]
    omega

lemma shape_setChild (hf : f.WF) (hn : n.WF) :
    (f.node.setChild f.idx n).WF := by
  obtain ⟨node, idx⟩ := f
  cases node with
  | compr k d c => exact .compr hf.shape.1 hn
  | normal k d cs =>
    have hlt : idx < d.length := hf.idx_lt rfl
    obtain ⟨hlen, hsorted, hcs⟩ := hf.shape
    refine .normal (by rw [length_set, hlen]) hsorted ?_ ?_
    · intro c hc
      rcases mem_or_eq_of_mem_set hc with hc | rfl
      · exact hcs c hc
      · exact hn
    · rintro rfl
      simp at hlt

/-! ### Editing deep in the tree -/

section

variable (hts : ∀ f ∈ ts, f.WF)
include hts

omit hts in
/-- A map that differs from another one below `d` only, where one value is updated. -/
lemma eq_update_append {β : Type*} {F G f : Bytes → β} {d : Bytes} {v : β}
    (hF : ∀ r, F (d ++ r) = f r) (hG : ∀ r, G (d ++ r) = update f s v r)
    (hsame : ∀ t, ¬ d <+: t → G t = F t) : G = update F (d ++ s) v := by
  funext t
  by_cases ht : d <+: t
  · obtain ⟨r, rfl⟩ := ht
    rw [hG]
    by_cases hr : r = s
    · rw [hr, update_self, update_self]
    · rw [update_of_ne hr, update_of_ne (by simpa using hr), hF]
  · rw [update_of_ne, hsame t ht]
    rintro rfl
    exact ht (prefix_append _ _)

/-- An edit that changes one key of a node changes one key of the tree. -/
lemma find_plug_update {n' : RaxNode W} {v : Option (Option W)} (h : n'.find = update n.find s v) :
    (plug ts n').find = update (plug ts n).find (pathOf ts ++ s) v := by
  induction ts generalizing n n' s with
  | nil => exact h
  | cons f ts ih =>
    have hf : f.WF := hts f (by simp)
    rw [plug, plug, pathOf, append_assoc]
    refine ih (fun g hg => hts g (by simp [hg])) ?_
    refine eq_update_append (find_setChild_append hf n) (fun r => ?_) fun t ht => ?_
    · rw [find_setChild_append hf, h]
    · rw [find_setChild_of_not hf ht, find_setChild_of_not hf ht]

/-- A node may be replaced by one that denotes the same map. -/
lemma find_plug_congr {n' : RaxNode W} (h : n'.find = n.find) :
    (plug ts n').find = (plug ts n).find := by
  have hupd : n'.find = update n.find [] (n.find []) := by rw [update_eq_self, h]
  rw [find_plug_update hts hupd, update_eq_self_iff, append_nil]
  have hself : (plug ts n).find = update (plug ts n).find (pathOf ts ++ []) (n.find []) :=
    find_plug_update hts (update_eq_self [] n.find).symm
  rw [append_nil] at hself
  rw [hself, update_self]

lemma find_plug_append (n : RaxNode W) (s : Bytes) :
    (plug ts n).find (pathOf ts ++ s) = n.find s := by
  induction ts generalizing n s with
  | nil => rfl
  | cons f ts ih =>
    rw [plug, pathOf, append_assoc, ih (fun g hg => hts g (by simp [hg])),
      find_setChild_append (hts f (by simp))]

lemma count_plug (n n' : RaxNode W) :
    (plug ts n').count + n.count = (plug ts n).count + n'.count := by
  induction ts generalizing n n' with
  | nil => exact Nat.add_comm _ _
  | cons f ts ih =>
    have hf := count_setChild (hts f (by simp)) n n'
    have hts' := ih (fun g hg => hts g (by simp [hg])) (f.node.setChild f.idx n)
      (f.node.setChild f.idx n')
    rw [plug, plug]
    omega

lemma wf_plug (hn : n.WF) :
    (plug ts n).WF := by
  induction ts generalizing n with
  | nil => exact hn
  | cons f ts ih =>
    rw [plug]
    exact ih (fun g hg => hts g (by simp [hg])) (shape_setChild (hts f (by simp)) hn)

lemma shape_plug (hn : n.Shape) (hleaf : ts ≠ [] → n.size = 0 → n.key.iskey = true) :
    (plug ts n).Shape := by
  cases ts with
  | nil => exact hn
  | cons f ts => exact (wf_plug hts (hn.wf (hleaf (by simp)))).shape

end

end RainCall
