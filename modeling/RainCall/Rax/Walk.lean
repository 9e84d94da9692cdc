import RainCall.Rax.Tree

/-!
# The walk of the radix tree

`raxLowWalk` follows the key from the root and stops at the node of the key, inside the bytes of a
compressed node or at a normal node without a child for the next byte (`raxLowWalk_spec`). The map
of the tree is therefore decided at the stop node, and `raxFind` looks the key up in it.
-/

namespace RainCall

open List

variable {W : Type}

/-- The stack holds the way from the root to the node. -/
inductive RaxPath (head : RaxNode W) : List (RaxFrame W) → RaxNode W → Prop
  | root : RaxPath head [] head
  | compr {ts : List (RaxFrame W)} {k : RaxData W} {d : Bytes} {c : RaxNode W} :
    RaxPath head ts (.compr k d c) → RaxPath head (⟨.compr k d c, 0⟩ :: ts) c
  | normal {ts : List (RaxFrame W)} {k : RaxData W} {d : Bytes} {cs : List (RaxNode W)} {i : ℕ}
    {c : RaxNode W} :
    RaxPath head ts (.normal k d cs) → cs[i]? = some c → RaxPath head (⟨.normal k d cs, i⟩ :: ts) c

variable {head : RaxNode W} {w : RaxWalk W} {s : Bytes}

/-- Writing back the same pointer changes nothing. -/
lemma RaxPath.plug_eq {n : RaxNode W} {ts : List (RaxFrame W)} (h : RaxPath head ts n) :
    plug ts n = head := by
  induction h with
  | root => rfl
  | compr _ ih => exact ih
  | normal _ hc ih =>
    obtain ⟨hi, rfl⟩ := List.getElem?_eq_some_iff.mp hc
    rw [plug, RaxNode.setChild, List.set_getElem_self]
    exact ih

lemma RaxPath.wf {n : RaxNode W} {ts : List (RaxFrame W)} (h : RaxPath head ts n)
    (hhead : head.Shape) : (∀ f ∈ ts, f.WF) ∧ n.Shape ∧ (ts ≠ [] → n.WF) := by
  induction h with
  | root => exact ⟨by simp, hhead, by simp⟩
  | compr _ ih =>
    obtain ⟨hts, hn, -⟩ := ih
    refine ⟨fun f hf => ?_, hn.2.shape, fun _ => hn.2⟩
    rcases List.mem_cons.mp hf with rfl | hf
    · exact ⟨hn, fun h => by cases h⟩
    · exact hts f hf
  | @normal ts k d cs i c _ hc ih =>
    obtain ⟨hts, hn, -⟩ := ih
    have hwf : c.WF := hn.2.2 c (List.mem_of_getElem? hc)
    refine ⟨fun f hf => ?_, hwf.shape, fun _ => hwf⟩
    rcases List.mem_cons.mp hf with rfl | hf
    · refine ⟨hn, fun _ => ?_⟩
      have hi := (List.getElem?_eq_some_iff.mp hc).1
      exact lt_of_lt_of_eq hi hn.1.symm
    · exact hts f hf

/-! ### Comparing bytes -/

lemma commonLength_spec (d s : Bytes) :
    d.take (commonLength d s) = s.take (commonLength d s) ∧ commonLength d s ≤ d.length ∧
      ∀ x r, s.drop (commonLength d s) = x :: r → d[commonLength d s]? ≠ some x := by
  induction d generalizing s with
  | nil => exact ⟨by simp [commonLength], by simp [commonLength], by simp [commonLength]⟩
  | cons y d ih =>
    cases s with
    | nil => exact ⟨by simp [commonLength], by simp [commonLength], by simp [commonLength]⟩
    | cons z s =>
      by_cases hyz : y = z
      · obtain ⟨h1, h2, h3⟩ := ih s
        rw [commonLength, if_pos hyz]
        refine ⟨by rw [take_succ_cons, take_succ_cons, hyz, h1], by simpa using h2, ?_⟩
        intro x r hx
        exact h3 x r hx
      · rw [commonLength, if_neg hyz]
        refine ⟨rfl, Nat.zero_le _, ?_⟩
        intro x r hx
        have hzx : z = x := by simpa using congrArg head? hx
        simpa [← hzx] using hyz

/-- The child index of a byte is that of its position in the sorted bytes. -/
lemma raxChildIndex_spec {d : Bytes} (hd : d.Pairwise (· < ·)) (c : UInt8) :
    (∀ j, raxChildIndex d c = some j → d[j]? = some c) ∧ (raxChildIndex d c = none → c ∉ d) := by
  unfold raxChildIndex
  rcases eq_nil_or_concat' d with rfl | ⟨init, last, rfl⟩
  · simp
  · simp only [getLast?_append, getLast?_singleton, Option.some_or]
    by_cases hlast : last = c
    · rw [if_pos hlast]
      refine ⟨fun j hj => ?_, fun h => by cases h⟩
      obtain rfl := Option.some.inj hj
      simp [hlast]
    · rw [if_neg hlast]
      by_cases hlt : last < c
      · rw [if_pos hlt]
        refine ⟨fun j hj => (by cases hj), fun _ hmem => ?_⟩
        rcases mem_append.mp hmem with hm | hm
        · have hc := (pairwise_append.mp hd).2.2 c hm last (by simp)
          exact absurd (UInt8.lt_trans hlt hc) (UInt8.lt_irrefl last)
        · exact hlast (mem_singleton.mp hm).symm
      · rw [if_neg hlt]
        by_cases hidx : (init ++ [last]).idxOf c = (init ++ [last]).length
        · rw [if_pos hidx]
          exact ⟨fun j hj => (by cases hj), fun _ => idxOf_eq_length_iff.mp hidx⟩
        · rw [if_neg hidx]
          refine ⟨fun j hj => ?_, fun h => by cases h⟩
          obtain rfl := Option.some.inj hj
          have hmem : c ∈ init ++ [last] := by
            by_contra hno
            exact hidx (idxOf_eq_length_iff.mpr hno)
          rw [getElem?_eq_getElem (idxOf_lt_length_iff.mpr hmem), getElem_idxOf]

/-! ### The walk -/

/-- Why a walk for the key `s` stops where it does. -/
structure RaxWalk.Spec (w : RaxWalk W) (head : RaxNode W) (s : Bytes) : Prop where
  path : RaxPath head w.stack w.node
  /-- The way, the bytes matched in the stop node and the rest make up the key. -/
  key : pathOf w.stack ++ (w.node.data.take w.splitpos ++ w.rest) = s
  /-- A compressed node is left unless its bytes stop matching. -/
  compr : ∀ k d c, w.node = .compr k d c →
    w.splitpos < d.length ∧ ∀ x r, w.rest = x :: r → d[w.splitpos]? ≠ some x
  /-- A normal node is left unless it has no child for the next byte. -/
  normal : ∀ k d cs, w.node = .normal k d cs →
    w.splitpos = 0 ∧ ∀ x r, w.rest = x :: r → x ∉ d

lemma raxLowWalkLoop_spec (hhead : head.Shape) :
    ∀ (fuel : ℕ) (h : RaxNode W) (s : Bytes) (ts : List (RaxFrame W)), RaxPath head ts h →
      s.length ≤ fuel → (raxLowWalkLoop fuel h s ts).Spec head (pathOf ts ++ s) := by
  -- a walk with nothing left to match stops at the node it is at
  have hnil : ∀ (fuel : ℕ) (h : RaxNode W) (ts : List (RaxFrame W)), RaxPath head ts h →
      (raxLowWalkLoop fuel h [] ts).Spec head (pathOf ts ++ []) := by
    intro fuel h ts hpath
    have heq : raxLowWalkLoop fuel h [] ts = ⟨[], h, 0, ts⟩ := by rw [raxLowWalkLoop]
    rw [heq]
    refine ⟨hpath, by simp, ?_, by simp⟩
    rintro k d c rfl
    have hd := (hpath.wf hhead).2.1.1
    exact ⟨List.length_pos_iff.mpr hd, by simp⟩
  intro fuel
  induction fuel with
  | zero =>
    intro h s ts hpath hlen
    rw [List.eq_nil_of_length_eq_zero (Nat.le_zero.mp hlen)]
    exact hnil 0 h ts hpath
  | succ fuel ih =>
    intro h s ts hpath hlen
    cases s with
    | nil => exact hnil (fuel + 1) h ts hpath
    | cons x s =>
      have hshape := (hpath.wf hhead).2.1
      cases h with
      | compr k d c =>
        obtain ⟨htake, hle, hstop⟩ := commonLength_spec d (x :: s)
        rw [raxLowWalkLoop]
        by_cases hj : commonLength d (x :: s) = d.length
        · -- all bytes match: go to the child
          rw [if_neg (by simpa using hj)]
          have hpre : d ++ (x :: s).drop (commonLength d (x :: s)) = x :: s := by
            rw [hj, List.take_length] at htake
            conv_rhs => rw [← List.take_append_drop d.length (x :: s), ← htake]
            rw [hj]
          have hd := List.length_pos_iff.mpr hshape.1
          have hrest : ((x :: s).drop (commonLength d (x :: s))).length ≤ fuel := by
            rw [List.length_drop]
            omega
          have := ih c _ _ hpath.compr hrest
          rw [pathOf, RaxFrame.edge, List.append_assoc, hpre] at this
          exact this
        · rw [if_pos hj]
          refine ⟨hpath, ?_, ?_, by simp⟩
          · simp only [RaxNode.data]
            rw [htake, List.take_append_drop]
          · intro k' d' c' heq
            cases heq
            exact ⟨lt_of_le_of_ne hle hj, hstop⟩
      | normal k d cs =>
        obtain ⟨hsome, hnone⟩ := raxChildIndex_spec hshape.2.1 x
        rw [raxLowWalkLoop]
        cases hidx : raxChildIndex d x with
        | none =>
          refine ⟨hpath, by simp, by simp, ?_⟩
          intro k' d' cs' heq
          cases heq
          refine ⟨rfl, fun y r hr => ?_⟩
          rw [List.cons.injEq] at hr
          rw [← hr.1]
          exact hnone hidx
        | some j =>
          have hj := hsome j hidx
          have hjlt : j < cs.length := by
            rw [← hshape.1]
            exact (List.getElem?_eq_some_iff.mp hj).1
          have hchild : cs[j]? = some cs[j] := List.getElem?_eq_getElem hjlt
          simp only [hchild]
          have := ih cs[j] s _ (hpath.normal hchild) (by simpa using hlen)
          rw [pathOf, RaxFrame.edge] at this
          simp only [hj, List.append_assoc] at this
          exact this

lemma raxLowWalk_spec {rax : Rax W} (hhead : rax.head.Shape) (s : Bytes) :
    (raxLowWalk rax s).Spec rax.head s := by
  exact raxLowWalkLoop_spec hhead s.length rax.head s [] .root le_rfl

/-- The value of the key in the tree is its value below the stop node. -/
lemma RaxWalk.Spec.find_eq (h : w.Spec head s) (hhead : head.Shape) :
    head.find s = w.node.find (w.node.data.take w.splitpos ++ w.rest) := by
  rw [← h.path.plug_eq]
  conv_lhs => rw [← h.key]
  exact find_plug_append (h.path.wf hhead).1 _ _

/-- A walk that does not end at the node of the key does not find it. -/
lemma RaxWalk.Spec.find_of_not_atNode (h : w.Spec head s) (hhead : head.Shape)
    (hat : w.atNode = false) : head.find s = none := by
  rw [h.find_eq hhead]
  obtain ⟨rest, node, j, ts⟩ := w
  cases node with
  | compr k d c =>
    obtain ⟨hj, hx⟩ := h.compr k d c rfl
    have hne : d.take j ++ rest ≠ [] := by
      intro hnil
      rw [append_eq_nil_iff, take_eq_nil_iff] at hnil
      have hd : d ≠ [] := by
        rintro rfl
        simp at hj
      simp [RaxWalk.atNode, RaxNode.iscompr, hnil.2, hnil.1.resolve_right hd] at hat
    refine find_compr_of_not hne fun hpre => ?_
    -- the byte of `d` at `j` would match the next byte of the key
    have hget : (d.take j ++ rest)[j]? = d[j]? := by
      obtain ⟨t, ht⟩ := hpre
      have hdata : RaxNode.data (.compr k d c) = d := rfl
      rw [hdata] at ht
      rw [← ht, getElem?_append_left hj]
    rw [getElem?_append_right (by simp), length_take, Nat.min_eq_left hj.le,
      Nat.sub_self] at hget
    cases rest with
    | nil =>
      rw [getElem?_eq_getElem hj] at hget
      cases hget
    | cons x r => exact hx x r rfl (by rw [← hget, getElem?_cons_zero])
  | normal k d cs =>
    obtain ⟨hj, hx⟩ := h.normal k d cs rfl
    subst hj
    cases rest with
    | nil => simp [RaxWalk.atNode, RaxNode.iscompr] at hat
    | cons x r =>
      show (RaxNode.normal k d cs).find (x :: r) = none
      rw [find_normal_cons, findIn_of_notMem (hx x r rfl)]

lemma RaxWalk.Spec.atNode (h : w.Spec head s) (hat : w.atNode = true) :
    pathOf w.stack = s ∧ w.splitpos = 0 ∧ w.rest = [] := by
  obtain ⟨rest, node, j, ts⟩ := w
  simp only [RaxWalk.atNode, Bool.and_eq_true, List.isEmpty_iff, Bool.or_eq_true,
    beq_iff_eq] at hat
  have hj : j = 0 := by
    rcases hat.2 with hc | hj
    · cases node with
      | compr k d c => cases hc
      | normal k d cs => exact (h.normal k d cs rfl).1
    · exact hj
  have hkey := h.key
  simp only [hj, hat.1, List.take_zero, List.append_nil] at hkey
  exact ⟨hkey, hj, hat.1⟩

lemma raxFind_eq {rax : Rax W} (hhead : rax.head.Shape) (s : Bytes) :
    raxFind rax s = rax.head.find s := by
  have h := raxLowWalk_spec hhead s
  simp only [raxFind]
  cases hat : (raxLowWalk rax s).atNode with
  | false =>
    rw [h.find_of_not_atNode hhead hat]
    rfl
  | true =>
    obtain ⟨-, hj, hrest⟩ := h.atNode hat
    rw [h.find_eq hhead, hj, hrest, take_zero, append_nil, find_nil, RaxData.own]
    cases (raxLowWalk rax s).node.key.iskey <;> rfl

end RainCall
