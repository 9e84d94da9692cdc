import RainCall.Rax.Insert
import RainCall.Rax.Iterator

/-!
# Seeking in the radix tree

The walk for a key stops at the node of the key, inside of a compressed node, or at a byte that does
not match. In each case the key cuts the entries of the tree (`SeekCut`), and the step that
`raxSeek` makes from the stop node goes to the nearest entry on the side of the cut that the
operator asks for (`raxSeekStep_spec`).
-/

namespace RainCall

open RaxFrame RaxIterator RaxNode
open List hiding count after

variable {W : Type}

/-! ### Entries around the end of a path -/

variable {head n c : RaxNode W} {ts : List (RaxFrame W)} {e : RaxEntry W} {t d : Bytes}
  {k : RaxData W} {cs : List (RaxNode W)} {x : UInt8}

/-- The key of a node is the empty string. -/
lemma eq_nil_of_mem_entry (h : e ∈ k.entry) : e.1 = [] := by
  exact (mem_entry.mp h).1

lemma lt_of_mem_entry (h : e ∈ k.entry) (ht : t ≠ []) : e.1 < t := by
  rw [eq_nil_of_mem_entry h]
  obtain ⟨x, t, rfl⟩ := exists_cons_of_ne_nil ht
  exact nil_lt_cons x t

/-- What is before a path is smaller than everything at its end. -/
lemma RaxPath.lt_of_mem_beforePath (h : RaxPath head ts n) (hhead : head.Shape)
    (he : e ∈ beforePath ts) (t : Bytes) : e.1 < pathOf ts ++ t := by
  -- the key of an ancestor is a proper prefix
  have hentry : ∀ (k : RaxData W) (p t : Bytes) (e : RaxEntry W), e ∈ underAll p k.entry →
      t ≠ [] → e.1 < p ++ t := by
    rintro k p t ⟨s, v⟩ hmem ht
    obtain ⟨u, rfl, hu⟩ := mem_underAll.mp hmem
    exact List.append_left_lt (lt_of_mem_entry hu ht)
  induction h generalizing t with
  | root => cases he
  | @compr ts k d c hpath ih =>
    have hd := (hpath.wf hhead).2.1.1
    rw [beforePath, List.mem_append] at he
    rw [pathOf, List.append_assoc]
    rcases he with he | he
    · exact ih he _
    · exact hentry k _ _ e he (by simp [edge, hd])
  | @normal ts k d cs i c hpath hc ih =>
    obtain ⟨hi, hpathOf, hsmaller, -⟩ := hpath.pathOf_normal hhead hc
    rw [hpathOf, List.append_assoc]
    rw [beforePath, before, underAll_append, List.mem_append, List.mem_append] at he
    rcases he with he | he | he
    · exact ih he _
    · exact hentry k _ _ e he (by simp)
    · obtain ⟨s, v⟩ := e
      obtain ⟨u, rfl, hu⟩ := mem_underAll.mp he
      obtain ⟨y, hy, t', rfl⟩ := head_entriesIn hu
      exact List.append_left_lt
        (List.cons_lt_cons_iff.mpr (.inl (hsmaller y hy)))

/-- What is after a path is greater than everything at its end. -/
lemma RaxPath.lt_of_mem_afterPath (h : RaxPath head ts n) (hhead : head.Shape)
    (he : e ∈ afterPath ts) (t : Bytes) : pathOf ts ++ t < e.1 := by
  induction h generalizing t with
  | root => cases he
  | @compr ts k d c hpath ih =>
    rw [afterPath, after] at he
    rw [pathOf, List.append_assoc]
    exact ih he _
  | @normal ts k d cs i c hpath hc ih =>
    obtain ⟨hi, hpathOf, -, hgreater⟩ := hpath.pathOf_normal hhead hc
    rw [hpathOf, List.append_assoc]
    rw [afterPath, after, List.mem_append] at he
    rcases he with he | he
    · obtain ⟨s, v⟩ := e
      obtain ⟨u, rfl, hu⟩ := mem_underAll.mp he
      obtain ⟨y, hy, t', rfl⟩ := head_entriesIn hu
      exact List.append_left_lt
        (List.cons_lt_cons_iff.mpr (.inl (hgreater y hy)))
    · exact ih he _

/-- The key `ele` cuts the entries of the tree. -/
structure SeekCut (head : RaxNode W) (ele : Bytes) (past mid rest : List (RaxEntry W)) : Prop
    where
  entries : head.entries = past ++ (mid ++ rest)
  past_lt : ∀ e ∈ past, e.1 < ele
  lt_rest : ∀ e ∈ rest, ele < e.1
  /-- Between them there is at most the key itself. -/
  mid_eq : ∀ e ∈ mid, e.1 = ele

/-- A cut below the end of a path: the entries of the node there are cut into three parts. -/
lemma RaxPath.seekCut (h : RaxPath head ts n) (hhead : head.Shape)
    {past mid rest : List (RaxEntry W)} (hn : SeekCut n t past mid rest) :
    SeekCut head (pathOf ts ++ t) (beforePath ts ++ underAll (pathOf ts) past)
      (underAll (pathOf ts) mid) (underAll (pathOf ts) rest ++ afterPath ts) := by
  refine ⟨?_, fun e he => ?_, fun e he => ?_, fun e he => ?_⟩
  · rw [h.entries_eq hhead, hn.entries]
    simp only [underAll_append, append_assoc]
  · rcases mem_append.mp he with he | he
    · exact h.lt_of_mem_beforePath hhead he t
    · obtain ⟨s, v⟩ := e
      obtain ⟨u, rfl, hu⟩ := mem_underAll.mp he
      exact append_left_lt (hn.past_lt _ hu)
  · rcases mem_append.mp he with he | he
    · obtain ⟨s, v⟩ := e
      obtain ⟨u, rfl, hu⟩ := mem_underAll.mp he
      exact append_left_lt (hn.lt_rest _ hu)
    · exact h.lt_of_mem_afterPath hhead he t
  · obtain ⟨s, v⟩ := e
    obtain ⟨u, rfl, hu⟩ := mem_underAll.mp he
    exact congrArg (pathOf ts ++ ·) (hn.mid_eq _ hu)

/-! ### Where a seek ends -/

/-- The iterator is on an entry. -/
structure RaxIterator.On (it : RaxIterator W) (rax : Rax W) (e : RaxEntry W) : Prop where
  rt : it.rt = rax
  eof : it.eof = false
  pos : it.pos.Reaches rax.head e
  data : it.data = e.2

/-- The iterator is on the first entry of the list, or at the end if there is none. -/
def RaxIterator.Landed (it : RaxIterator W) (rax : Rax W) (l : List (RaxEntry W)) : Prop :=
  (l = [] ∧ it.eof = true) ∨ ∃ e r, l = e :: r ∧ it.On rax e

variable {loop : ℕ → Bool → RaxPos W → Option (Option (RaxPos W))} {l : List (RaxEntry W)}

/-- A step of the iterator whose loop goes along the list. -/
lemma RaxIterator.step_landed (it : RaxIterator W) {rax : Rax W} {noup : Bool} (hrt : it.rt = rax)
    (heof : it.eof = false) (hseek : it.justSeeked = false)
    (h : StepsTo rax.head l (loop (rax.head.count + 1) noup it.pos)) :
    ∃ it', it.step loop noup = some it' ∧ it'.Landed rax l ∧ it'.justSeeked = false := by
  rw [step, if_neg (by simp [heof]), if_neg (by simp [hseek]), hrt]
  rcases h with ⟨rfl, hres⟩ | ⟨e, r, pos, rfl, hres, hreach⟩
  · exact ⟨it.finish none, by rw [hres]; rfl, .inl ⟨rfl, rfl⟩, hseek⟩
  · refine ⟨it.finish (some pos), by rw [hres]; rfl, .inr ⟨e, r, rfl, hrt, heof, hreach, ?_⟩, hseek⟩
    obtain ⟨ts, -, -, rfl⟩ := hreach
    rfl

/-- The step forward with `noup` at a compressed node goes to what follows it. -/
lemma raxNextLoop_noup_compr (hhead : head.Shape) (hpath : RaxPath head ts (.compr k d c)) :
    StepsTo head (afterPath ts) (raxNextLoop (head.count + 1) true
      ⟨.compr k d c, ts.map node, pathOf ts ++ d⟩) := by
  have hkey : raxIteratorDelChars (pathOf ts ++ d) (compr k d c).edgeLen = pathOf ts :=
    raxIteratorDelChars_append (pathOf ts) d
  refine stepsTo_of_sibling hhead le_rfl (.inl rfl) ?_
  simp only [raxNextSibling, if_true, hkey, raxNextChild]
  exact raxNextUp_spec hpath hhead

/-- The step forward with `noup` at a normal node and a byte that is not among its bytes. -/
lemma raxNextLoop_noup_normal (hhead : head.Shape) (hpath : RaxPath head ts (.normal k d cs))
    {p : ℕ} (h1 : ∀ y ∈ d.take p, y < x) (h2 : ∀ y ∈ d.drop p, x < y) :
    StepsTo head (underAll (pathOf ts) (entriesIn (d.drop p) (cs.drop p)) ++ afterPath ts)
      (raxNextLoop (head.count + 1) true
        ⟨.normal k d cs, ts.map node, pathOf ts ++ [x]⟩) := by
  have hkey : raxIteratorDelChars (pathOf ts ++ [x]) (normal k d cs).edgeLen = pathOf ts :=
    raxIteratorDelChars_append (pathOf ts) [x]
  refine stepsTo_of_sibling hhead le_rfl (.inl rfl) ?_
  simp only [raxNextSibling, if_true, hkey, prevChild_append]
  rcases raxNextChild_spec hhead hpath
    (fun y hy h => UInt8.lt_irrefl y (UInt8.lt_trans (h1 y hy) h))
    h2 (fun h => (by omega : 0 < d.length)) with ⟨hnil, hnone⟩ | ⟨pos, f, hsome, hat, hlist⟩
  · rw [hnone, hnil]
    exact raxNextUp_spec hpath hhead
  · rw [hsome]
    exact .inr ⟨pos, f :: ts, rfl, hat, by simp, hlist⟩

/-- The step backward with `noup` at a compressed node goes to the node itself or before it. -/
lemma raxPrevLoop_noup_compr (hhead : head.Shape) (hpath : RaxPath head ts (.compr k d c)) :
    StepsTo head (beforePath ts ++ underAll (pathOf ts) k.entry).reverse
      (raxPrevLoop (head.count + 1) true ⟨.compr k d c, ts.map node, pathOf ts ++ d⟩) := by
  have hcount := hpath.length_add_count_le
  rw [count] at hcount
  obtain ⟨fuel, hfuel⟩ : ∃ fuel, head.count = fuel + 1 := ⟨head.count - 1, by omega⟩
  rw [raxPrevLoop_noup, raxPrevVisit_compr, hfuel]
  have := stepsTo_of_visit hpath (.inl ⟨rfl, rfl⟩) (raxPrevLoop_spec hhead hpath
    (by omega : ts.length ≤ fuel))
  rwa [append_nil] at this

/-- The step backward with `noup` at a normal node and a byte that is not among its bytes. -/
lemma raxPrevLoop_noup_normal (hhead : head.Shape) (hpath : RaxPath head ts (.normal k d cs))
    {p : ℕ} (hp : p ≤ d.length) (h1 : ∀ y ∈ d.take p, y < x) (h2 : ∀ y ∈ d.drop p, x < y) :
    StepsTo head (beforePath ts ++ underAll (pathOf ts)
        (k.entry ++ entriesIn (d.take p) (cs.take p))).reverse
      (raxPrevLoop (head.count + 1) true
        ⟨.normal k d cs, ts.map node, pathOf ts ++ [x]⟩) := by
  have hcount := hpath.length_add_count_le
  rw [count] at hcount
  obtain ⟨fuel, hfuel⟩ : ∃ fuel, head.count = fuel + 1 := ⟨head.count - 1, by omega⟩
  rw [hfuel]
  refine stepsTo_of_visit hpath ?_ (raxPrevLoop_spec hhead hpath (by omega : ts.length ≤ fuel))
  exact raxPrevVisit_normal hhead hpath hp h1
    (fun y hy h => UInt8.lt_irrefl y (UInt8.lt_trans h (h2 y hy)))
    (fun h => (by omega : 0 < d.length))

/-! ### Cuts at the stop node of a walk -/

lemma seekCut_nil (n : RaxNode W) (h : n.Shape) : SeekCut n [] [] n.key.entry n.childEntries := by
  refine ⟨entries_eq n, by simp, fun e he => ?_, fun e he => eq_nil_of_mem_entry he⟩
  have hne : e.1 ≠ [] := by
    cases n with
    | compr k d c =>
      obtain ⟨s, v⟩ := e
      obtain ⟨u, rfl, -⟩ := mem_underAll.mp he
      simp [h.1]
    | normal k d cs =>
      obtain ⟨y, -, t, ht⟩ := head_entriesIn he
      simp [ht]
  obtain ⟨x, t, ht⟩ := exists_cons_of_ne_nil hne
  rw [ht]
  exact nil_lt_cons x t

/-- The next byte is not among those of a normal node. -/
lemma seekCut_normal (h : (normal k d cs).Shape) (r : Bytes) {p : ℕ}
    (h1 : ∀ y ∈ d.take p, y < x) (h2 : ∀ y ∈ d.drop p, x < y) :
    SeekCut (.normal k d cs) (x :: r)
      (k.entry ++ entriesIn (d.take p) (cs.take p)) []
      (entriesIn (d.drop p) (cs.drop p)) := by
  refine ⟨?_, fun e he => ?_, fun e he => ?_, by simp⟩
  · rw [entries, nil_append, append_assoc,
      ← entriesIn_append (by rw [length_take, length_take, h.1]), take_append_drop,
      take_append_drop]
  · rcases mem_append.mp he with he | he
    · exact lt_of_mem_entry he (by simp)
    · obtain ⟨y, hy, t, ht⟩ := head_entriesIn he
      rw [ht]
      exact cons_lt_cons_iff.mpr (.inl (h1 y hy))
  · obtain ⟨y, hy, t, ht⟩ := head_entriesIn he
    rw [ht]
    exact cons_lt_cons_iff.mpr (.inl (h2 y hy))

/-- The key is smaller than the bytes of a compressed node, which it enters. -/
lemma seekCut_compr_lt (ht : t ≠ []) (hlt : ∀ u, t < d ++ u) :
    SeekCut (.compr k d c) t k.entry [] (underAll d c.entries) := by
  refine ⟨?_, fun e he => ?_, fun e he => ?_, by simp⟩
  · rw [entries, nil_append]
  · exact lt_of_mem_entry he ht
  · obtain ⟨s, v⟩ := e
    obtain ⟨u, rfl, -⟩ := mem_underAll.mp he
    exact hlt u

/-- The key is greater than the bytes of a compressed node. -/
lemma seekCut_compr_gt (ht : t ≠ []) (hlt : ∀ u, d ++ u < t) :
    SeekCut (.compr k d c) t (compr k d c).entries [] [] := by
  refine ⟨by simp, fun e he => ?_, by simp, by simp⟩
  rw [entries, mem_append] at he
  rcases he with he | he
  · exact lt_of_mem_entry he ht
  · obtain ⟨s, v⟩ := e
    obtain ⟨u, rfl, -⟩ := mem_underAll.mp he
    exact hlt u

/-! ### Seeking -/

/-- The iterator moved to the end of a path, ready for a step. -/
def RaxIterator.moveTo (it : RaxIterator W) (node : RaxNode W) (ts : List (RaxFrame W))
    (key : Bytes) : RaxIterator W :=
  ⟨it.rt, it.eof, false, ⟨node, ts.map RaxFrame.node, key⟩, it.data⟩

section SeekStep

variable {rax : Rax W} {it : RaxIterator W} {ele : Bytes}

variable {node : RaxNode W} {j : ℕ}

lemma RaxIterator.moveTo_step (hrt : it.rt = rax) (heof : it.eof = false) {key : Bytes}
    {noup : Bool}
    (h : StepsTo rax.head l (loop (rax.head.count + 1) noup ⟨node, ts.map RaxFrame.node, key⟩)) :
    ∃ it', (it.moveTo node ts key).step loop noup = some it' ∧ it'.Landed rax l := by
  obtain ⟨it', hit', hland, -⟩ := (it.moveTo node ts key).step_landed hrt heof rfl h
  exact ⟨it', hit', hland⟩

lemma raxSeekStep_nil (hkey : ele.take (ele.length - ([] : Bytes).length - j) = pathOf ts)
    (lt : Bool) :
    raxSeekStep it ⟨[], node, j, ts⟩ lt ele =
      if node.iscompr && node.key.iskey && j != 0 && lt then
        some { it.moveTo node ts (pathOf ts) with data := raxGetData node.key }
      else if lt then raxIteratorPrevStep (it.moveTo node ts (pathOf ts)) false
      else raxIteratorNextStep (it.moveTo node ts (pathOf ts)) false := by
  simp only [raxSeekStep, hkey]
  rfl

lemma raxSeekStep_normal {r : Bytes}
    (hkey : ele.take (ele.length - (x :: r).length - 0) = pathOf ts) (lt : Bool) :
    raxSeekStep it ⟨x :: r, .normal k d cs, 0, ts⟩ lt ele =
      if lt then raxIteratorPrevStep (it.moveTo (.normal k d cs) ts (pathOf ts ++ [x])) true
      else raxIteratorNextStep (it.moveTo (.normal k d cs) ts (pathOf ts ++ [x])) true := by
  simp only [raxSeekStep, hkey]
  rfl

lemma raxSeekStep_compr {y : UInt8} {r : Bytes}
    (hkey : ele.take (ele.length - (x :: r).length - j) = pathOf ts) (hy : d[j]? = some y)
    (lt : Bool) :
    raxSeekStep it ⟨x :: r, .compr k d c, j, ts⟩ lt ele =
      if lt then
        if y < x then
          some { it.moveTo (.compr k d c) ts (pathOf ts) with
            pos := raxSeekGreatest (.compr k d c) (ts.map RaxFrame.node) (pathOf ts)
            data := raxGetData
              (raxSeekGreatest (.compr k d c) (ts.map RaxFrame.node) (pathOf ts)).node.key }
        else raxIteratorPrevStep (it.moveTo (.compr k d c) ts (pathOf ts ++ d)) true
      else
        if x < y then raxIteratorNextStep (it.moveTo (.compr k d c) ts (pathOf ts)) false
        else raxIteratorNextStep (it.moveTo (.compr k d c) ts (pathOf ts ++ d)) true := by
  simp only [raxSeekStep, hkey, hy]
  rfl

lemma append_eq_take_append (hj : j < d.length) (u : Bytes) :
    d ++ u = d.take j ++ d[j] :: (d.drop (j + 1) ++ u) := by
  rw [← cons_append, ← drop_eq_getElem_cons hj, ← append_assoc, take_append_drop]

lemma take_pathOf {t : Bytes} {n : ℕ} (hn : t.length = n) :
    (pathOf ts ++ t).take ((pathOf ts ++ t).length - n) = pathOf ts := by
  rw [take_left' (by rw [length_append]; omega)]

/-- From the end of the walk `w` for the key a step goes to the nearest entry on either side of it.
-/
def SeeksNearest (rax : Rax W) (it : RaxIterator W) (w : RaxWalk W) (ele : Bytes) : Prop :=
  ∃ past mid rest, SeekCut rax.head ele past mid rest ∧ ∀ lt : Bool,
    ∃ it', raxSeekStep it w lt ele = some it' ∧
      it'.Landed rax (if lt then past.reverse else rest)

section

variable (hhead : rax.head.Shape) (hrt : it.rt = rax) (heof : it.eof = false)
include hhead hrt heof

/-- The walk stopped at the node of the key. -/
lemma raxSeekStep_atNode (hpath : RaxPath rax.head ts node) :
    SeeksNearest rax it ⟨[], node, 0, ts⟩ (pathOf ts) := by
  have hcount := hpath.length_add_count_le
  have hcut := hpath.seekCut hhead (seekCut_nil node (hpath.wf hhead).2.1)
  rw [append_nil, underAll_nil, append_nil] at hcut
  refine ⟨_, _, _, hcut, fun lt => ?_⟩
  have hkey : (pathOf ts).take ((pathOf ts).length - ([] : Bytes).length - 0) = pathOf ts := by
    simp
  have hcond : (node.iscompr && node.key.iskey && 0 != 0 && lt) = false := by simp
  rw [raxSeekStep_nil hkey, hcond, if_neg Bool.false_ne_true]
  cases lt with
  | true =>
    exact RaxIterator.moveTo_step hrt heof
      (raxPrevLoop_spec hhead hpath (by omega : ts.length ≤ rax.head.count))
  | false =>
    have hat : (⟨node, ts.map RaxFrame.node, pathOf ts⟩ : RaxPos W).At rax.head ts :=
      ⟨hpath, rfl, rfl⟩
    exact RaxIterator.moveTo_step hrt heof (raxNextLoop_spec hhead hat le_rfl)

/-- The key ends inside of a compressed node. -/
lemma raxSeekStep_inside (hpath : RaxPath rax.head ts (.compr k d c)) (hj : j ≠ 0)
    (hjd : j < d.length) :
    SeeksNearest rax it ⟨[], .compr k d c, j, ts⟩ (pathOf ts ++ d.take j) := by
  have hcount := hpath.length_add_count_le
  have hlen : (d.take j).length = j := length_take_of_le hjd.le
  have ht : d.take j ≠ [] := by
    intro hnil
    rw [hnil] at hlen
    exact hj hlen.symm
  have hlt : ∀ u, d.take j < d ++ u := by
    intro u
    have hcons : d.take j ++ [] < d.take j ++ d[j] :: (d.drop (j + 1) ++ u) :=
      append_left_lt (nil_lt_cons _ _)
    rwa [append_nil, ← append_eq_take_append hjd] at hcons
  have hcut := hpath.seekCut hhead (seekCut_compr_lt ht hlt)
  refine ⟨_, _, _, hcut, fun lt => ?_⟩
  have hkey : (pathOf ts ++ d.take j).take
      ((pathOf ts ++ d.take j).length - ([] : Bytes).length - j) = pathOf ts := by
    exact take_pathOf hlen
  have hat : (⟨.compr k d c, ts.map RaxFrame.node, pathOf ts⟩ : RaxPos W).At rax.head ts :=
    ⟨hpath, rfl, rfl⟩
  have hj' : (j != 0) = true := by simpa using hj
  rw [raxSeekStep_nil hkey, RaxNode.iscompr, Bool.true_and, RaxNode.key, hj', Bool.and_true]
  cases lt with
  | false =>
    rw [Bool.and_false, if_neg Bool.false_ne_true, if_neg Bool.false_ne_true]
    exact RaxIterator.moveTo_step hrt heof (raxNextLoop_spec hhead hat le_rfl)
  | true =>
    rw [Bool.and_true]
    cases hk : k.iskey with
    | true =>
      rw [if_pos rfl]
      refine ⟨_, rfl, .inr ⟨(pathOf ts, raxGetData k), (beforePath ts).reverse, ?_, hrt, heof,
        ⟨ts, hat, hk, rfl⟩, rfl⟩⟩
      simp [entry_of_iskey hk, underAll, RaxEntry.under]
    | false =>
      rw [if_neg Bool.false_ne_true, if_pos rfl, entry_of_not_iskey hk, underAll_nil,
        append_nil]
      exact RaxIterator.moveTo_step hrt heof
        (raxPrevLoop_spec hhead hpath (by omega : ts.length ≤ rax.head.count))

lemma raxSeekStep_mismatch_normal
    (hpath : RaxPath rax.head ts (.normal k d cs)) (hx : x ∉ d) (r : Bytes) :
    SeeksNearest rax it ⟨x :: r, .normal k d cs, 0, ts⟩ (pathOf ts ++ x :: r) := by
  have hshape := (hpath.wf hhead).2.1
  obtain ⟨d1, d2, hd, -, h1, h2⟩ := raxAddChildPos_spec hshape.2.1 hx
  have hp : d1.length ≤ d.length := by rw [hd, length_append]; omega
  have htake : d.take d1.length = d1 := by rw [hd, take_left]
  have hdrop : d.drop d1.length = d2 := by rw [hd, drop_left]
  rw [← htake] at h1
  rw [← hdrop] at h2
  have hcut := hpath.seekCut hhead (seekCut_normal hshape r h1 h2)
  refine ⟨_, _, _, hcut, fun lt => ?_⟩
  have hkey : (pathOf ts ++ x :: r).take ((pathOf ts ++ x :: r).length - (x :: r).length - 0) =
      pathOf ts := take_pathOf rfl
  rw [raxSeekStep_normal hkey]
  cases lt with
  | true => exact RaxIterator.moveTo_step hrt heof (raxPrevLoop_noup_normal hhead hpath hp h1 h2)
  | false => exact RaxIterator.moveTo_step hrt heof (raxNextLoop_noup_normal hhead hpath h1 h2)

lemma raxSeekStep_mismatch_compr (hpath : RaxPath rax.head ts (.compr k d c)) (hjd : j < d.length)
    (hx : d[j]? ≠ some x) (r : Bytes) :
    SeeksNearest rax it ⟨x :: r, .compr k d c, j, ts⟩ (pathOf ts ++ (d.take j ++ x :: r)) := by
  have hy : d[j]? = some d[j] := getElem?_eq_getElem hjd
  have hlen : (d.take j).length = j := length_take_of_le hjd.le
  have hkey : (pathOf ts ++ (d.take j ++ x :: r)).take
      ((pathOf ts ++ (d.take j ++ x :: r)).length - (x :: r).length - j) = pathOf ts := by
    rw [Nat.sub_sub]
    exact take_pathOf (by rw [length_append, hlen, Nat.add_comm])
  have hat : (⟨.compr k d c, ts.map RaxFrame.node, pathOf ts⟩ : RaxPos W).At rax.head ts :=
    ⟨hpath, rfl, rfl⟩
  have hne : d.take j ++ x :: r ≠ [] := by simp
  have hxy : x ≠ d[j] := fun heq => hx (by rw [hy, heq])
  by_cases hlt : x < d[j]
  · -- the compressed node comes after the key
    have hcut := hpath.seekCut hhead (seekCut_compr_lt hne fun u => by
      rw [append_eq_take_append hjd]
      exact append_left_lt (cons_lt_cons_iff.mpr (.inl hlt)))
    refine ⟨_, _, _, hcut, fun lt => ?_⟩
    have hnlt : ¬ d[j] < x := fun h => UInt8.lt_irrefl x (UInt8.lt_trans hlt h)
    rw [raxSeekStep_compr hkey hy, if_neg hnlt, if_pos hlt]
    cases lt with
    | true => exact RaxIterator.moveTo_step hrt heof (raxPrevLoop_noup_compr hhead hpath)
    | false => exact RaxIterator.moveTo_step hrt heof (raxNextLoop_spec hhead hat le_rfl)
  · -- the compressed node comes before the key
    have hgt : d[j] < x := UInt8.lt_of_le_of_ne (UInt8.not_lt.mp hlt) hxy.symm
    have hcut := hpath.seekCut hhead (seekCut_compr_gt hne fun u => by
      rw [append_eq_take_append hjd]
      exact append_left_lt (cons_lt_cons_iff.mpr (.inl hgt)))
    rw [underAll_nil] at hcut
    refine ⟨_, _, _, hcut, fun lt => ?_⟩
    rw [raxSeekStep_compr hkey hy, if_pos hgt, if_neg hlt]
    cases lt with
    | true =>
      rw [if_pos rfl, if_pos rfl]
      have hwf : c.WF := (hpath.wf hhead).2.1.2
      have hentries : (RaxNode.compr k d c).entries ≠ [] := by
        simp [RaxNode.entries, underAll, hwf.entries_ne_nil]
      obtain ⟨l, e, hle, hreach⟩ := raxSeekGreatest_spec hhead _ _ hpath hentries
      refine ⟨_, rfl, .inr ⟨e, (beforePath ts ++ l).reverse, ?_, hrt, heof, hreach, ?_⟩⟩
      · rw [hle]
        simp
      · obtain ⟨ts', -, -, rfl⟩ := hreach
        rfl
    | false => exact RaxIterator.moveTo_step hrt heof (raxNextLoop_noup_compr hhead hpath)

/-- A seek without a match goes to the nearest entry on its side of the key. -/
lemma raxSeekStep_spec (ele : Bytes) :
    SeeksNearest rax it (raxLowWalk rax ele) ele := by
  have h := raxLowWalk_spec hhead ele
  have hele := h.key
  have hpath := h.path
  generalize raxLowWalk rax ele = w at *
  obtain ⟨rest, node, j, ts⟩ := w
  rw [← hele]
  cases node with
  | normal k d cs =>
    obtain ⟨hj, hx⟩ := h.normal k d cs rfl
    subst hj
    rw [take_zero, nil_append]
    cases rest with
    | nil =>
      rw [append_nil]
      exact raxSeekStep_atNode hhead hrt heof hpath
    | cons x r => exact raxSeekStep_mismatch_normal hhead hrt heof hpath (hx x r rfl) r
  | compr k d c =>
    obtain ⟨hj, hx⟩ := h.compr k d c rfl
    cases rest with
    | nil =>
      rw [append_nil, RaxNode.data]
      by_cases hj0 : j = 0
      · subst hj0
        rw [take_zero, append_nil]
        exact raxSeekStep_atNode hhead hrt heof hpath
      · exact raxSeekStep_inside hhead hrt heof hpath hj0 hj
    | cons x r => exact raxSeekStep_mismatch_compr hhead hrt heof hpath hj (hx x r rfl) r

end

end SeekStep

end RainCall
