import RainCall.Rax.Walk

/-!
# The entries of a radix tree in order

The keys of a tree with their values, as a list: first the key of the node itself, then the entries
of its children from left to right. The list is strictly sorted by the order of byte strings that
compares the bytes first and the lengths after them, and it has the entries of the map of the tree.
A path to a node cuts the list into the entries before the node, those of the node and its subtree,
and those after them (`RaxPath.entries_eq`).
-/

namespace RainCall

open List RaxNode

variable {W : Type}

/-- A key with its value. -/
abbrev RaxEntry (W : Type) := Bytes × Option W

/-- The entry whose key has a prefix added. -/
def RaxEntry.under (p : Bytes) (e : RaxEntry W) : RaxEntry W := (p ++ e.1, e.2)

/-- The entries with a prefix added to their keys. -/
def underAll (p : Bytes) (l : List (RaxEntry W)) : List (RaxEntry W) := l.map (RaxEntry.under p)

@[simp] lemma underAll_nil (p : Bytes) : underAll p ([] : List (RaxEntry W)) = [] := rfl

lemma underAll_append (p : Bytes) (l1 l2 : List (RaxEntry W)) :
    underAll p (l1 ++ l2) = underAll p l1 ++ underAll p l2 := map_append

lemma underAll_underAll (p q : Bytes) (l : List (RaxEntry W)) :
    underAll p (underAll q l) = underAll (p ++ q) l := by
  simp [underAll, RaxEntry.under]

lemma underAll_empty (l : List (RaxEntry W)) : underAll [] l = l := map_id'' (fun _ => rfl) l

variable {s d : Bytes} {v : Option W} {cs : List (RaxNode W)} {n : RaxNode W}

lemma mem_underAll {p : Bytes} {l : List (RaxEntry W)} :
    (s, v) ∈ underAll p l ↔ ∃ t, s = p ++ t ∧ (t, v) ∈ l := by
  constructor
  · intro h
    obtain ⟨⟨t, w⟩, hmem, heq⟩ := mem_map.mp h
    obtain ⟨h1, h2⟩ := Prod.mk.inj heq
    exact ⟨t, h1.symm, h2 ▸ hmem⟩
  · rintro ⟨t, rfl, hmem⟩
    exact mem_map.mpr ⟨(t, v), hmem, rfl⟩

/-! ### The entries of a node -/

/-- The entry of a node itself. -/
def RaxData.entry (k : RaxData W) : List (RaxEntry W) :=
  if k.iskey then [([], raxGetData k)] else []

mutual
/-- The entries of a tree. -/
def RaxNode.entries : RaxNode W → List (RaxEntry W)
  | .compr k d c => k.entry ++ underAll d c.entries
  | .normal k d cs => k.entry ++ RaxNode.entriesIn d cs

/-- The entries of the children `cs` with the bytes `d`. -/
def RaxNode.entriesIn : Bytes → List (RaxNode W) → List (RaxEntry W)
  | x :: d, c :: cs => underAll [x] c.entries ++ RaxNode.entriesIn d cs
  | _, _ => []
end

/-- The entries below a node. -/
def RaxNode.childEntries : RaxNode W → List (RaxEntry W)
  | .compr _ d c => underAll d c.entries
  | .normal _ d cs => RaxNode.entriesIn d cs

lemma entries_eq (n : RaxNode W) : n.entries = n.key.entry ++ n.childEntries := by
  cases n <;> simp [entries, key, childEntries]

@[simp] lemma entriesIn_nil (cs : List (RaxNode W)) : entriesIn [] cs = [] := by
  rw [entriesIn]
  simp

lemma entriesIn_append {d1 d2 : Bytes} {cs1 cs2 : List (RaxNode W)}
    (hlen : d1.length = cs1.length) : entriesIn (d1 ++ d2) (cs1 ++ cs2) =
      entriesIn d1 cs1 ++ entriesIn d2 cs2 := by
  induction d1 generalizing cs1 with
  | nil =>
    rw [eq_nil_of_length_eq_zero hlen.symm]
    simp
  | cons x d1 ih =>
    cases cs1 with
    | nil => simp at hlen
    | cons c cs1 =>
      rw [cons_append, cons_append, entriesIn, entriesIn,
        ih (by simpa using hlen), append_assoc]

/-- The entries of the children around the one with index `i`. -/
lemma entriesIn_split (hlen : d.length = cs.length) {i : ℕ} {x : UInt8} {c : RaxNode W}
    (hx : d[i]? = some x) (hc : cs[i]? = some c) :
    entriesIn d cs = entriesIn (d.take i) (cs.take i) ++
      (underAll [x] c.entries ++ entriesIn (d.drop (i + 1)) (cs.drop (i + 1))) := by
  obtain ⟨hi, rfl⟩ := List.getElem?_eq_some_iff.mp hx
  obtain ⟨hi', rfl⟩ := List.getElem?_eq_some_iff.mp hc
  conv_lhs => rw [← List.take_append_drop i d, ← List.take_append_drop i cs]
  rw [entriesIn_append (by rw [List.length_take, List.length_take, hlen]),
    List.drop_eq_getElem_cons hi, List.drop_eq_getElem_cons hi', entriesIn]

/-! ### Entries and the map of the tree -/

lemma mem_entry {k : RaxData W} :
    (s, v) ∈ k.entry ↔ s = [] ∧ k.own = some v := by
  unfold RaxData.entry RaxData.own
  cases k.iskey <;> simp [eq_comm]

lemma mem_entriesIn (hd : d.Nodup)
    (ih : ∀ c ∈ cs, ∀ (t : Bytes) (v : Option W), (t, v) ∈ c.entries ↔ c.find t = some v) :
    (s, v) ∈ entriesIn d cs ↔ ∃ x t, s = x :: t ∧ findIn d cs x t = some v := by
  induction d generalizing cs with
  | nil => simp [findIn_of_notMem]
  | cons y d ihd =>
    obtain ⟨hy, hd'⟩ := nodup_cons.mp hd
    cases cs with
    | nil => simp [entriesIn, findIn]
    | cons c cs =>
      rw [entriesIn, mem_append, mem_underAll,
        ihd hd' fun c' hc' => ih c' (by simp [hc'])]
      constructor
      · rintro (⟨t, rfl, ht⟩ | ⟨x, t, rfl, ht⟩)
        · refine ⟨y, t, rfl, ?_⟩
          rw [findIn, if_pos rfl]
          exact (ih c (by simp) t v).mp ht
        · have hxy : y ≠ x := by
            rintro rfl
            rw [findIn_of_notMem hy] at ht
            cases ht
          exact ⟨x, t, rfl, by rw [findIn, if_neg hxy, ht]⟩
      · rintro ⟨x, t, rfl, ht⟩
        rw [findIn] at ht
        by_cases hxy : y = x
        · rw [if_pos hxy] at ht
          exact .inl ⟨t, by rw [hxy]; rfl, (ih c (by simp) t v).mpr ht⟩
        · rw [if_neg hxy] at ht
          exact .inr ⟨x, t, rfl, ht⟩

/-- The entries are those of the map. -/
lemma mem_entries (h : n.Shape) :
    (s, v) ∈ n.entries ↔ n.find s = some v := by
  induction n using induct generalizing s v with
  | hc k d c ih =>
    rw [entries, mem_append, mem_entry, mem_underAll]
    constructor
    · rintro (⟨rfl, hv⟩ | ⟨t, rfl, ht⟩)
      · rw [find_compr_nil, hv]
      · rw [find_compr_append k h.1]
        exact (ih h.2.shape).mp ht
    · intro hs
      by_cases hnil : s = []
      · subst hnil
        exact .inl ⟨rfl, hs⟩
      · by_cases hpre : d <+: s
        · obtain ⟨t, rfl⟩ := hpre
          rw [find_compr_append k h.1] at hs
          exact .inr ⟨t, rfl, (ih h.2.shape).mpr hs⟩
        · rw [find_compr_of_not hnil hpre] at hs
          cases hs
  | hn k d cs ih =>
    have hin := mem_entriesIn h.nodup (s := s) (v := v)
      fun c hc t w => ih c hc (h.2.2 c hc).shape
    rw [entries, mem_append, mem_entry, hin]
    cases s with
    | nil => simp [find_normal_nil]
    | cons x s => simp [find_normal_cons]

/-! ### The order of the entries -/

/-- The keys of the list are strictly increasing. -/
def EntriesSorted (l : List (RaxEntry W)) : Prop := l.Pairwise fun e e' => e.1 < e'.1

lemma EntriesSorted.underAll {l : List (RaxEntry W)} (h : EntriesSorted l) (p : Bytes) :
    EntriesSorted (underAll p l) := by
  refine pairwise_map.mpr (h.imp fun hlt => ?_)
  exact append_left_lt hlt

lemma head_entriesIn {e : RaxEntry W} (h : e ∈ entriesIn d cs) :
    ∃ x ∈ d, ∃ t, e.1 = x :: t := by
  induction d generalizing cs with
  | nil => simp at h
  | cons y d ih =>
    cases cs with
    | nil => simp [entriesIn] at h
    | cons c cs =>
      rw [entriesIn, mem_append] at h
      rcases h with h | h
      · obtain ⟨t, ht, -⟩ := mem_underAll.mp h
        exact ⟨y, by simp, t, ht⟩
      · obtain ⟨x, hx, t, ht⟩ := ih h
        exact ⟨x, by simp [hx], t, ht⟩

lemma entriesSorted_entriesIn (hd : d.Pairwise (· < ·)) (hcs : ∀ c ∈ cs, EntriesSorted c.entries) :
    EntriesSorted (entriesIn d cs) := by
  induction d generalizing cs with
  | nil => simp [EntriesSorted]
  | cons y d ih =>
    obtain ⟨hy, hd'⟩ := pairwise_cons.mp hd
    cases cs with
    | nil => simp [entriesIn, EntriesSorted]
    | cons c cs =>
      rw [entriesIn]
      refine pairwise_append.mpr ⟨(hcs c (by simp)).underAll [y],
        ih hd' fun c' hc' => hcs c' (by simp [hc']), ?_⟩
      rintro ⟨s, v⟩ he e' he'
      obtain ⟨t, rfl, -⟩ := mem_underAll.mp he
      obtain ⟨x, hx, t', ht'⟩ := head_entriesIn he'
      rw [ht']
      exact cons_lt_cons_iff.mpr (.inl (hy x hx))

/-- The keys of a tree are in order. -/
lemma entriesSorted_entries (h : n.Shape) : EntriesSorted n.entries := by
  -- the key of the node is the empty string, which comes before all others
  have hown : ∀ (k : RaxData W) (l : List (RaxEntry W)), EntriesSorted l → (∀ e ∈ l, e.1 ≠ []) →
      EntriesSorted (k.entry ++ l) := by
    intro k l hl hne
    unfold RaxData.entry
    cases k.iskey with
    | false => exact hl
    | true =>
      refine pairwise_cons.mpr ⟨fun e he => ?_, hl⟩
      obtain ⟨x, t, ht⟩ := exists_cons_of_ne_nil (hne e he)
      rw [ht]
      exact nil_lt_cons x t
  induction n using induct with
  | hc k d c ih =>
    refine hown k _ ((ih h.2.shape).underAll d) ?_
    rintro ⟨s, v⟩ he
    obtain ⟨t, rfl, -⟩ := mem_underAll.mp he
    simp [h.1]
  | hn k d cs ih =>
    refine hown k _ (entriesSorted_entriesIn h.2.1 fun c hc => ih c hc (h.2.2 c hc).shape) ?_
    intro e he
    obtain ⟨x, -, t, ht⟩ := head_entriesIn he
    simp [ht]

/-- The map of a tree determines its entries. -/
lemma entries_congr {n' : RaxNode W} (h : n.Shape) (h' : n'.Shape) (hfind : n.find = n'.find) :
    n.entries = n'.entries := by
  refine List.Pairwise.eq_of_mem_iff (entriesSorted_entries h)
    (entriesSorted_entries h') fun e => ?_
  rw [mem_entries h, mem_entries h', hfind]

/-- Below the root there are entries everywhere. -/
lemma RaxNode.WF.entries_ne_nil (h : n.WF) : n.entries ≠ [] := by
  induction h with
  | @compr k d c hd _ ih => simp [entries, underAll, ih]
  | @normal k d cs hlen hsorted hcs hleaf ih =>
    cases d with
    | nil => simp [entries, RaxData.entry, hleaf rfl]
    | cons x d =>
      cases cs with
      | nil => simp at hlen
      | cons c cs => simp [entries, entriesIn, underAll, ih c (by simp)]

/-! ### The entries around a path -/

/-- The entries of an ancestor before its child on the path. -/
def RaxFrame.before (f : RaxFrame W) : List (RaxEntry W) :=
  match f.node with
  | .compr k _ _ => k.entry
  | .normal k d cs => k.entry ++ RaxNode.entriesIn (d.take f.idx) (cs.take f.idx)

/-- The entries of an ancestor after its child on the path. -/
def RaxFrame.after (f : RaxFrame W) : List (RaxEntry W) :=
  match f.node with
  | .compr _ _ _ => []
  | .normal _ d cs => RaxNode.entriesIn (d.drop (f.idx + 1)) (cs.drop (f.idx + 1))

/-- The entries of an ancestor with another child on the path. -/
lemma entries_setChild {f : RaxFrame W} (hf : f.WF) (n : RaxNode W) :
    (f.node.setChild f.idx n).entries = f.before ++ (underAll f.edge n.entries ++ f.after) := by
  obtain ⟨node, idx⟩ := f
  cases node with
  | compr k d c => simp [setChild, entries, RaxFrame.before, RaxFrame.after, RaxFrame.edge]
  | normal k d cs =>
    have hlt : idx < d.length := hf.idx_lt rfl
    have hics : idx < cs.length := hf.shape.1 ▸ hlt
    have hsplit := entriesIn_split (show d.length = (cs.set idx n).length by
      rw [length_set, hf.shape.1])
      (getElem?_eq_getElem hlt) (getElem?_set_self hics)
    rw [setChild, entries, hsplit, take_set_of_le le_rfl, drop_set_of_lt (Nat.lt_succ_self idx)]
    simp [RaxFrame.before, RaxFrame.after, RaxFrame.edge, hlt]

/-- A node may be replaced by one with as many entries. -/
lemma length_entries_plug {ts : List (RaxFrame W)} (hts : ∀ f ∈ ts, f.WF) {n' : RaxNode W}
    (h : n'.entries.length = n.entries.length) :
    (plug ts n').entries.length = (plug ts n).entries.length := by
  induction ts generalizing n n' with
  | nil => exact h
  | cons f ts ih =>
    refine ih (fun g hg => hts g (mem_cons_of_mem f hg)) ?_
    simp [entries_setChild (hts f mem_cons_self), underAll, h]

/-- The entries before a path. -/
def beforePath : List (RaxFrame W) → List (RaxEntry W)
  | [] => []
  | f :: ts => beforePath ts ++ underAll (pathOf ts) f.before

/-- The entries after a path. -/
def afterPath : List (RaxFrame W) → List (RaxEntry W)
  | [] => []
  | f :: ts => underAll (pathOf ts) f.after ++ afterPath ts

/-- A path cuts the entries of the tree. -/
lemma RaxPath.entries_eq {head : RaxNode W} {ts : List (RaxFrame W)} (h : RaxPath head ts n)
    (hhead : head.Shape) :
    head.entries = beforePath ts ++ (underAll (pathOf ts) n.entries ++ afterPath ts) := by
  induction h with
  | root => simp [beforePath, afterPath, pathOf, underAll_empty]
  | @compr ts k d c hpath ih =>
    rw [ih, entries, beforePath, afterPath, pathOf, RaxFrame.before, RaxFrame.after,
      RaxFrame.edge]
    simp only [underAll_append, underAll_underAll, underAll_nil, List.append_assoc,
      List.nil_append]
  | @normal ts k d cs i c hpath hc ih =>
    have hshape := (hpath.wf hhead).2.1
    have hi : i < d.length := hshape.1 ▸ (List.getElem?_eq_some_iff.mp hc).1
    have hx : d[i]? = some d[i] := List.getElem?_eq_getElem hi
    rw [ih, entries, beforePath, afterPath, pathOf, RaxFrame.before, RaxFrame.after,
      RaxFrame.edge]
    simp only [hx, Option.toList_some]
    rw [entriesIn_split hshape.1 hx hc]
    simp only [underAll_append, underAll_underAll, List.append_assoc]

end RainCall
