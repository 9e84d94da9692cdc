import RainCall.Rax.Seek
import RainCall.Rax.Refinement

/-!
# The iterator is an ordered cursor

What an iterator yields is compared with an abstract cursor over the map that the tree stores: a
seek puts the cursor on the least or greatest key with a property, and every later step moves it to
the successor or the predecessor of its key (`raxIterator_cursor`).
-/

namespace RainCall

open List

variable {W : Type}

/-! ### The order of the keys -/

/-- `memcmp` on the bytes that both strings have: the difference of the first bytes that differ. -/
def memcmp : Bytes → Bytes → ℤ
  | x :: s, y :: t => if x = y then memcmp s t else x.toNat - y.toNat
  | _, _ => 0

/-- The order of keys: `memcmp`, then the length. -/
def KeyLt (s t : Bytes) : Prop := memcmp s t < 0 ∨ memcmp s t = 0 ∧ s.length < t.length

lemma keyLt_iff (s t : Bytes) : KeyLt s t ↔ s < t := by
  induction s generalizing t with
  | nil =>
    cases t with
    | nil | cons y t => simp [KeyLt, memcmp]
  | cons x s ih =>
    cases t with
    | nil => simp [KeyLt, memcmp]
    | cons y t =>
      rw [cons_lt_cons_iff, ← ih, KeyLt, KeyLt, memcmp]
      by_cases hxy : x = y
      · subst hxy
        simp [UInt8.lt_irrefl]
      · have hne : x.toNat ≠ y.toNat := fun h => hxy (UInt8.toNat_inj.mp h)
        rw [if_neg hxy, UInt8.lt_iff_toNat_lt]
        simp only [hxy, false_and, or_false]
        omega

/-! ### The abstract cursor -/

/-- The least key with a property. -/
def IsLeastKey (P : Bytes → Prop) (k : Bytes) : Prop :=
  P k ∧ ∀ k', P k' → k' = k ∨ KeyLt k k'

/-- The greatest key with a property. -/
def IsGreatestKey (P : Bytes → Prop) (k : Bytes) : Prop :=
  P k ∧ ∀ k', P k' → k' = k ∨ KeyLt k' k

/-- The key that `raxSeek` is to find in the map. -/
def SeekTarget (m : RaxMap W) (op : RaxSeekOp) (ele k : Bytes) : Prop :=
  match op with
  | .eq => k ∈ m ∧ k = ele
  | .gt => IsLeastKey (fun k => k ∈ m ∧ KeyLt ele k) k
  | .ge => IsLeastKey (fun k => k ∈ m ∧ (k = ele ∨ KeyLt ele k)) k
  | .lt => IsGreatestKey (fun k => k ∈ m ∧ KeyLt k ele) k
  | .le => IsGreatestKey (fun k => k ∈ m ∧ (k = ele ∨ KeyLt k ele)) k
  | .first => IsLeastKey (fun k => k ∈ m) k
  | .last => IsGreatestKey (fun k => k ∈ m) k

/-- A direction of a step. -/
inductive RaxDir
  | next
  | prev
  deriving DecidableEq

def raxMove (it : RaxIterator W) : RaxDir → Option (RaxIterator W)
  | .next => raxNext it
  | .prev => raxPrev it

/-- A sequence of calls. A call that returns zero yields `none`, the others the key and the value.
-/
def raxIterate (it : RaxIterator W) : List RaxDir → Option (List (Option (RaxEntry W)))
  | [] => some []
  | dir :: dirs => do
    let it' ← raxMove it dir
    let out ← raxIterate it' dirs
    some ((if it'.eof then none else some (it'.pos.key, it'.data)) :: out)

/-- The state of the abstract cursor. -/
inductive RaxCursor
  | eof
  /-- A key was sought; the next step yields it. -/
  | sought (k : Bytes)
  | on (k : Bytes)

/-- What a cursor yields on a sequence of steps. -/
inductive CursorRun (m : RaxMap W) : RaxCursor → List RaxDir → List (Option (RaxEntry W)) → Prop
  | nil (c : RaxCursor) : CursorRun m c [] []
  /-- After the end nothing is yielded. -/
  | eof {dir : RaxDir} {dirs : List RaxDir} {out : List (Option (RaxEntry W))} :
    CursorRun m .eof dirs out → CursorRun m .eof (dir :: dirs) (none :: out)
  /-- The first step yields the key that was sought. -/
  | sought {k : Bytes} {v : Option W} {dir : RaxDir} {dirs : List RaxDir}
    {out : List (Option (RaxEntry W))} : m.lookup k = some v → CursorRun m (.on k) dirs out →
    CursorRun m (.sought k) (dir :: dirs) (some (k, v) :: out)
  /-- A step forward goes to the successor. -/
  | next {k k' : Bytes} {v : Option W} {dirs : List RaxDir}
    {out : List (Option (RaxEntry W))} : IsLeastKey (fun k' => k' ∈ m ∧ KeyLt k k') k' →
    m.lookup k' = some v → CursorRun m (.on k') dirs out →
    CursorRun m (.on k) (.next :: dirs) (some (k', v) :: out)
  /-- A step forward from the last key ends the iteration. -/
  | nextEnd {k : Bytes} {dirs : List RaxDir} {out : List (Option (RaxEntry W))} :
    (∀ k' ∈ m, ¬ KeyLt k k') → CursorRun m .eof dirs out →
    CursorRun m (.on k) (.next :: dirs) (none :: out)
  /-- A step backward goes to the predecessor. -/
  | prev {k k' : Bytes} {v : Option W} {dirs : List RaxDir}
    {out : List (Option (RaxEntry W))} : IsGreatestKey (fun k' => k' ∈ m ∧ KeyLt k' k) k' →
    m.lookup k' = some v → CursorRun m (.on k') dirs out →
    CursorRun m (.on k) (.prev :: dirs) (some (k', v) :: out)
  /-- A step backward from the first key ends the iteration. -/
  | prevEnd {k : Bytes} {dirs : List RaxDir} {out : List (Option (RaxEntry W))} :
    (∀ k' ∈ m, ¬ KeyLt k' k) → CursorRun m .eof dirs out →
    CursorRun m (.on k) (.prev :: dirs) (none :: out)

/-- The cursor after `raxSeek`: at the key that is to be found, or at the end if there is none. -/
def SeekCursor (m : RaxMap W) (op : RaxSeekOp) (ele : Bytes) : RaxCursor → Prop
  | .eof => ∀ k, ¬ SeekTarget m op ele k
  | .sought k => SeekTarget m op ele k
  | .on _ => False

/-! ### The iterator follows the cursor -/

section Follows

variable {rax : Rax W} {m : RaxMap W}

lemma RaxRefines.mem_iff (h : RaxRefines rax m) (k : Bytes) :
    k ∈ m ↔ ∃ v, (k, v) ∈ rax.head.entries := by
  rw [Finmap.mem_iff]
  exact exists_congr fun v => by rw [mem_entries h.shape, h.find]

variable {e : RaxEntry W} {ele : Bytes} {past mid rest : List (RaxEntry W)}
  {it : RaxIterator W}

lemma RaxRefines.lookup_of_mem (h : RaxRefines rax m) (he : e ∈ rax.head.entries) :
    m.lookup e.1 = some e.2 := by
  rw [← h.find]
  exact (mem_entries h.shape).mp he

/-- A key beyond another one in the direction of a step. -/
def Beyond (back : Bool) (s t : Bytes) : Prop := if back then KeyLt t s else KeyLt s t

/-- The nearest key with a property, in the direction of a step. -/
def IsNearestKey (back : Bool) (P : Bytes → Prop) (k : Bytes) : Prop :=
  P k ∧ ∀ k', P k' → k' = k ∨ Beyond back k k'

lemma SeekCut.mem_iff (h : RaxRefines rax m) (hcut : SeekCut rax.head ele past mid rest)
    (back : Bool) (k : Bytes) :
    k ∈ m ∧ Beyond back ele k ↔ ∃ v, (k, v) ∈ if back then past.reverse else rest := by
  rw [h.mem_iff, ← exists_and_right]
  refine exists_congr fun v => ?_
  have hpast := hcut.past_lt (k, v)
  have hmid := hcut.mid_eq (k, v)
  have hrest := hcut.lt_rest (k, v)
  rw [hcut.entries]
  cases back <;> simp only [Beyond, keyLt_iff, if_true]
    <;> grind

/-- The parts of a cut are sorted. -/
lemma SeekCut.sorted {head : RaxNode W} (hhead : head.Shape)
    (hcut : SeekCut head ele past mid rest) (back : Bool) :
    (if back then past.reverse else rest).Pairwise fun e e' => Beyond back e.1 e'.1 := by
  have hsorted := entriesSorted_entries hhead
  rw [hcut.entries] at hsorted
  obtain ⟨h1, h2, -⟩ := pairwise_append.mp hsorted
  cases back with
  | false => exact (pairwise_append.mp h2).2.1.imp (keyLt_iff _ _).mpr
  | true => exact pairwise_reverse.mpr (h1.imp (keyLt_iff _ _).mpr)

lemma isNearestKey_of_cons (back : Bool) {P : Bytes → Prop} {l r : List (RaxEntry W)}
    (hl : l = e :: r) (hsorted : l.Pairwise fun e e' => Beyond back e.1 e'.1)
    (hP : ∀ k, P k ↔ ∃ v, (k, v) ∈ l) : IsNearestKey back P e.1 := by
  subst hl
  refine ⟨(hP _).mpr ⟨e.2, by simp⟩, fun k' hk' => ?_⟩
  obtain ⟨v, hv⟩ := (hP k').mp hk'
  rcases mem_cons.mp hv with rfl | hv
  · exact .inl rfl
  · exact .inr ((pairwise_cons.mp hsorted).1 _ hv)

/-- The iterator is in the state of the cursor. -/
def Follows (rax : Rax W) (m : RaxMap W) (it : RaxIterator W) : RaxCursor → Prop
  | .eof => it.eof = true
  | .sought k => ∃ v, m.lookup k = some v ∧ it.On rax (k, v) ∧ it.justSeeked = true
  | .on k => ∃ v, m.lookup k = some v ∧ it.On rax (k, v) ∧ it.justSeeked = false

section

variable (h : RaxRefines rax m)
include h

/-- An iterator on an entry is on an entry of the map. -/
lemma RaxIterator.On.lookup (hon : it.On rax e) :
    m.lookup e.1 = some e.2 := by
  obtain ⟨ts, hat, hkey, rfl⟩ := hon.pos
  refine h.lookup_of_mem ?_
  rw [hat.path.entries_eq h.shape, hat.entries_of_iskey hkey]
  simp

/-- The cut at the key that the iterator is on, with the lists along which the steps go. -/
lemma RaxIterator.On.exists_cut (hon : it.On rax e) :
    ∃ past mid rest, SeekCut rax.head e.1 past mid rest ∧
      StepsTo rax.head rest (raxNextLoop (rax.head.count + 1) false it.pos) ∧
      StepsTo rax.head past.reverse (raxPrevLoop (rax.head.count + 1) false it.pos) := by
  obtain ⟨ts, hat, hkey, rfl⟩ := hon.pos
  have hcount := hat.path.length_add_count_le
  have hcut := hat.path.seekCut h.shape (seekCut_nil _ (hat.path.wf h.shape).2.1)
  rw [append_nil, ← hat.key, underAll_nil, append_nil] at hcut
  refine ⟨_, _, _, hcut, ?_, ?_⟩
  · rw [hat.key]
    exact raxNextLoop_spec h.shape hat le_rfl
  · have hprev := raxPrevLoop_spec h.shape hat.path (by omega : ts.length ≤ rax.head.count)
    rw [← hat.stack, ← hat.key] at hprev
    exact hprev

/-- Where the iterator lands: at the end, or at the nearest key in the direction of the step. -/
lemma nearest_of_landed (hcut : SeekCut rax.head ele past mid rest) (back : Bool)
    (hland : it.Landed rax (if back then past.reverse else rest)) :
    (it.eof = true ∧ ∀ k ∈ m, ¬ Beyond back ele k) ∨
      ∃ e, it.On rax e ∧ IsNearestKey back (fun k => k ∈ m ∧ Beyond back ele k) e.1 := by
  rcases hland with ⟨hnil, heof⟩ | ⟨e, r, hcons, hon⟩
  · refine .inl ⟨heof, fun k hk hlt => ?_⟩
    obtain ⟨v, hv⟩ := (hcut.mem_iff h back k).mp ⟨hk, hlt⟩
    rw [hnil] at hv
    cases hv
  · exact .inr
      ⟨e, hon, isNearestKey_of_cons _ hcons (hcut.sorted h.shape back) (hcut.mem_iff h back)⟩

/-- One step of the iterator is a step of the cursor. -/
lemma raxIterate_follows :
    ∀ (dirs : List RaxDir) (it : RaxIterator W) (c : RaxCursor), Follows rax m it c →
      ∃ out, raxIterate it dirs = some out ∧ CursorRun m c dirs out := by
  intro dirs
  induction dirs with
  | nil => exact fun it c _ => ⟨[], rfl, .nil c⟩
  | cons dir dirs ih =>
    -- one step and the rest of the run
    have hstep : ∀ {it : RaxIterator W} {c : RaxCursor} (it' : RaxIterator W) (c' : RaxCursor),
        raxMove it dir = some it' →
        Follows rax m it' c' →
        (∀ out, CursorRun m c' dirs out → CursorRun m c (dir :: dirs)
          ((if it'.eof then none else some (it'.pos.key, it'.data)) :: out)) →
        ∃ out, raxIterate it (dir :: dirs) = some out ∧ CursorRun m c (dir :: dirs) out := by
      intro it c it' c' hmove hfollows hrun
      obtain ⟨out, hout, hcursor⟩ := ih it' c' hfollows
      refine ⟨_, ?_, hrun out hcursor⟩
      rw [raxIterate, hmove, Option.bind_eq_bind, Option.bind_some, hout, Option.bind_eq_bind,
        Option.bind_some]
    -- what an iterator on an entry yields
    have hyield : ∀ {it : RaxIterator W} {e : RaxEntry W}, it.On rax e →
        (if it.eof then none else some (it.pos.key, it.data)) = some e := by
      intro it e hon
      obtain ⟨ts, -, -, he⟩ := hon.pos
      rw [hon.eof, if_neg Bool.false_ne_true, hon.data, he]
    intro it c hc
    cases c with
    | eof =>
      have heof : it.eof = true := hc
      refine hstep it .eof ?_ hc fun out hout => ?_
      · cases dir <;> simp [raxMove, raxNext, raxPrev, raxIteratorNextStep, raxIteratorPrevStep,
          RaxIterator.step, heof]
      · rw [heof, if_pos rfl]
        exact .eof hout
    | sought k =>
      obtain ⟨v, hv, hon, hseek⟩ := hc
      have hon' : RaxIterator.On { it with justSeeked := false } rax (k, v) :=
        ⟨hon.rt, hon.eof, hon.pos, hon.data⟩
      refine hstep { it with justSeeked := false } (.on k) ?_ ⟨v, hv, hon', rfl⟩
        fun out hout => ?_
      · cases dir <;> simp [raxMove, raxNext, raxPrev, raxIteratorNextStep, raxIteratorPrevStep,
          RaxIterator.step, hon.eof, hseek]
      · rw [hyield hon']
        exact .sought hv hout
    | on k =>
      obtain ⟨v, hv, hon, hseek⟩ := hc
      obtain ⟨past, mid, rest, hcut, hnext, hprev⟩ := hon.exists_cut h
      cases dir with
      | next =>
        obtain ⟨it', hit', hland, hseek'⟩ := it.step_landed hon.rt hon.eof hseek hnext
        rcases nearest_of_landed h hcut false hland with ⟨heof, hnone⟩ | ⟨e, hon', hnear⟩
        · refine hstep it' .eof hit' heof fun out hout => ?_
          rw [heof, if_pos rfl]
          exact .nextEnd hnone hout
        · refine hstep it' (.on e.1) hit' ⟨e.2, hon'.lookup h, hon', hseek'⟩ fun out hout => ?_
          rw [hyield hon']
          exact .next hnear (hon'.lookup h) hout
      | prev =>
        obtain ⟨it', hit', hland, hseek'⟩ := it.step_landed hon.rt hon.eof hseek hprev
        rcases nearest_of_landed h hcut true hland with ⟨heof, hnone⟩ | ⟨e, hon', hnear⟩
        · refine hstep it' .eof hit' heof fun out hout => ?_
          rw [heof, if_pos rfl]
          exact .prevEnd hnone hout
        · refine hstep it' (.on e.1) hit' ⟨e.2, hon'.lookup h, hon', hseek'⟩ fun out hout => ?_
          rw [hyield hon']
          exact .prev hnear (hon'.lookup h) hout

/-- A seek for a smaller or greater key puts the iterator on the nearest one. -/
lemma raxSeekKey_step (hrt : it.rt = rax) (heof : it.eof = false) {eq : Bool} (lt : Bool)
    (hfound : (eq && (raxLowWalk rax ele).atNode && (raxLowWalk rax ele).node.key.iskey) = false) :
    ∃ past mid rest, SeekCut rax.head ele past mid rest ∧
      ∃ it', raxSeekKey it eq lt (!lt) ele = some it' ∧ it'.justSeeked = true ∧
        it'.Landed rax (if lt then past.reverse else rest) := by
  obtain ⟨past, mid, rest, hcut, hstep⟩ := raxSeekStep_spec h.shape hrt heof ele
  obtain ⟨it', hit', hland⟩ := hstep lt
  refine ⟨past, mid, rest, hcut, { it' with justSeeked := true }, ?_, rfl, ?_⟩
  · rw [raxSeekKey, hrt]
    simp only [hfound, Bool.or_not_self, hit', Bool.false_eq_true, if_false, if_true,
      Option.map_some]
  · rcases hland with ⟨hnil, heof'⟩ | ⟨e, r, hcons, hon⟩
    · exact .inl ⟨hnil, heof'⟩
    · exact .inr ⟨e, r, hcons, hon.rt, hon.eof, hon.pos, hon.data⟩

/-- The walk for a key of the map ends at its node. -/
lemma RaxRefines.atNode_iff (ele : Bytes) :
    ((raxLowWalk rax ele).atNode && (raxLowWalk rax ele).node.key.iskey) = true ↔ ele ∈ m := by
  have hfind : ((raxFind rax ele).isSome = true) ↔ ele ∈ m := by
    rw [raxFind_eq h.shape, h.find, Finmap.lookup_isSome]
  rw [← hfind, raxFind]
  cases (raxLowWalk rax ele).atNode <;> cases (raxLowWalk rax ele).node.key.iskey <;> simp

/-- A seek with `eq` for a key of the map puts the iterator on it. -/
lemma raxSeekKey_found (hrt : it.rt = rax) (heof : it.eof = false) (hseek : it.justSeeked = true)
    (hele : ele ∈ m) (lt gt : Bool) :
    ∃ it', raxSeekKey it true lt gt ele = some it' ∧ Follows rax m it' (.sought ele) := by
  have hfound := (h.atNode_iff ele).mpr hele
  obtain ⟨hat, hkey⟩ := Bool.and_eq_true_iff.mp hfound
  have hwalk := raxLowWalk_spec h.shape ele
  obtain ⟨hpath, -, -⟩ := hwalk.atNode hat
  refine ⟨{ it with
    pos := ⟨(raxLowWalk rax ele).node, (raxLowWalk rax ele).stack.map RaxFrame.node, ele⟩
    data := raxGetData (raxLowWalk rax ele).node.key }, ?_, ?_⟩
  · rw [raxSeekKey, hrt]
    simp only [hfound, Bool.true_and, if_true]
  · have hon : RaxIterator.On { it with
        pos := ⟨(raxLowWalk rax ele).node, (raxLowWalk rax ele).stack.map RaxFrame.node, ele⟩
        data := raxGetData (raxLowWalk rax ele).node.key } rax
          (ele, raxGetData (raxLowWalk rax ele).node.key) :=
      ⟨hrt, heof, ⟨_, ⟨hwalk.path, rfl, hpath.symm⟩, hkey, rfl⟩, rfl⟩
    exact ⟨_, hon.lookup h, hon, hseek⟩

/-- `>`, `>=`, `<` and `<=` -/
lemma raxSeekKey_beyond (hrt : it.rt = rax) (heof : it.eof = false)
    (hseek : it.justSeeked = true) (eq lt : Bool) (ele : Bytes) :
    ∃ it' c, raxSeekKey it eq lt (!lt) ele = some it' ∧ Follows rax m it' c ∧
      SeekCursor m (if lt then (if eq then .le else .lt) else if eq then .ge else .gt) ele c := by
  by_cases hfound : (eq && (raxLowWalk rax ele).atNode &&
      (raxLowWalk rax ele).node.key.iskey) = true
  · rw [Bool.and_assoc, Bool.and_eq_true_iff, h.atNode_iff] at hfound
    obtain ⟨rfl, hele⟩ := hfound
    obtain ⟨it', hit', hfollows⟩ := raxSeekKey_found h hrt heof hseek hele lt (!lt)
    refine ⟨it', .sought ele, hit', hfollows, ?_⟩
    cases lt <;> exact ⟨⟨hele, .inl rfl⟩, fun k hk => hk.2⟩
  · obtain ⟨past, mid, rest, hcut, it', hit', hseek', hland⟩ :=
      raxSeekKey_step h hrt heof lt (Bool.eq_false_iff.mpr hfound)
    -- with `eq` the key itself is not in the map
    have htarget : ∀ k, SeekTarget m
        (if lt then (if eq then .le else .lt) else if eq then .ge else .gt) ele k ↔
        IsNearestKey lt (fun k => k ∈ m ∧ Beyond lt ele k) k := by
      intro k
      cases eq with
      | false => cases lt <;> exact Iff.rfl
      | true =>
        rw [Bool.true_and, h.atNode_iff] at hfound
        have hiff : ∀ k, k ∈ m ∧ (k = ele ∨ Beyond lt ele k) ↔ k ∈ m ∧ Beyond lt ele k := fun k =>
          and_congr_right fun hk => or_iff_right fun heq => hfound (heq ▸ hk)
        simp only [IsNearestKey, ← hiff]
        cases lt <;> exact Iff.rfl
    rcases nearest_of_landed h hcut lt hland with ⟨heof, hnone⟩ | ⟨e, hon, hnear⟩
    · refine ⟨it', .eof, hit', heof, fun k hk => ?_⟩
      exact hnone k ((htarget k).mp hk).1.1 ((htarget k).mp hk).1.2
    · exact ⟨it', .sought e.1, hit', ⟨e.2, hon.lookup h, hon, hseek'⟩, (htarget _).mpr hnear⟩

/-- `=` -/
lemma raxSeekKey_equal (hrt : it.rt = rax) (heof : it.eof = false) (hseek : it.justSeeked = true)
    (ele : Bytes) :
    ∃ it' c, raxSeekKey it true false false ele = some it' ∧ Follows rax m it' c ∧
      SeekCursor m .eq ele c := by
  by_cases hele : ele ∈ m
  · obtain ⟨it', hit', hfollows⟩ := raxSeekKey_found h hrt heof hseek hele false false
    exact ⟨it', .sought ele, hit', hfollows, hele, rfl⟩
  · have hfound := Bool.eq_false_iff.mpr (mt (h.atNode_iff ele).mp hele)
    refine ⟨{ it with eof := true }, .eof, ?_, rfl, ?_⟩
    · rw [raxSeekKey, hrt]
      simp only [hfound, Bool.true_and, Bool.false_eq_true, if_false, Bool.or_self]
    · rintro k ⟨hk, rfl⟩
      exact hele hk

end

/-- In a tree without elements there is nothing to find. -/
lemma seekCursor_eof_of_empty (hm : ∀ k, k ∉ m) (op : RaxSeekOp) (ele : Bytes) :
    SeekCursor m op ele .eof := by
  intro k hk
  cases op with
  | eq => exact hm k hk.1
  | gt | ge | lt | le => exact hm k hk.1.1
  | first | last => exact hm k hk.1

/-- `$` -/
lemma raxSeekGreatest_follows (h : RaxRefines rax m) (hne : rax.head.entries ≠ [])
    (hrt : it.rt = rax) (heof : it.eof = false) (hseek : it.justSeeked = true) :
    (raxSeekGreatest rax.head [] []).node.key.iskey = true ∧
      ∃ k, Follows rax m { it with
          pos := raxSeekGreatest rax.head [] []
          data := raxGetData (raxSeekGreatest rax.head [] []).node.key } (.sought k) ∧
        IsGreatestKey (fun k => k ∈ m) k := by
  obtain ⟨l, e, hle, hreach⟩ := raxSeekGreatest_spec h.shape rax.head [] .root hne
  rw [show pathOf ([] : List (RaxFrame W)) = [] from rfl, underAll_empty] at hle
  have hreach' : (raxSeekGreatest rax.head [] []).Reaches rax.head e := hreach
  have hkey : (raxSeekGreatest rax.head [] []).node.key.iskey = true := by
    obtain ⟨ts, -, hk, -⟩ := hreach'
    exact hk
  refine ⟨hkey, e.1, ?_, ?_⟩
  · have hon : RaxIterator.On { it with
        pos := raxSeekGreatest rax.head [] []
        data := raxGetData (raxSeekGreatest rax.head [] []).node.key } rax e := by
      refine ⟨hrt, heof, hreach', ?_⟩
      obtain ⟨ts, -, -, he⟩ := hreach'
      rw [he]
    exact ⟨e.2, hon.lookup h, hon, hseek⟩
  · have hrev : rax.head.entries.reverse = e :: l.reverse := by rw [hle]; simp
    refine isNearestKey_of_cons true hrev ?_ fun k => by simp only [h.mem_iff, mem_reverse]
    exact pairwise_reverse.mpr ((entriesSorted_entries h.shape).imp (keyLt_iff _ _).mpr)

/-- `raxSeek` puts the iterator on the key that is to be found. -/
lemma raxSeek_follows (h : RaxRefines rax m) (hrt : it.rt = rax) (op : RaxSeekOp)
    (ele : Bytes) :
    ∃ it' c, raxSeek it op ele = some it' ∧ Follows rax m it' c ∧ SeekCursor m op ele c := by
  subst hrt
  obtain ⟨it0, hit0⟩ : ∃ it0 : RaxIterator W, it0 = { it with
    justSeeked := true, eof := false, pos := ⟨it.rt.head, [], []⟩ } := ⟨_, rfl⟩
  have hrt0 : it0.rt = it.rt := by rw [hit0]
  have heof0 : it0.eof = false := by rw [hit0]
  have hseek0 : it0.justSeeked = true := by rw [hit0]
  unfold raxSeek
  simp only [← hit0]
  by_cases hempty : it.rt.numele = 0
  · have hm : ∀ k, k ∉ m := by
      intro k hk
      rw [h.numele, Finset.card_eq_zero] at hempty
      have := Finmap.mem_keys.mpr hk
      rw [hempty] at this
      cases this
    rw [if_pos hempty]
    exact ⟨_, .eof, rfl, rfl, seekCursor_eof_of_empty hm op ele⟩
  · have hne : it.rt.head.entries ≠ [] := by
      intro hnil
      refine hempty ?_
      rw [h.numele, Finset.card_eq_zero, Finset.eq_empty_iff_forall_notMem]
      intro k hk
      obtain ⟨v, hv⟩ := (h.mem_iff k).mp (Finmap.mem_keys.mp hk)
      rw [hnil] at hv
      cases hv
    rw [if_neg hempty]
    cases op with
    | eq => exact raxSeekKey_equal h hrt0 heof0 hseek0 ele
    | gt => exact raxSeekKey_beyond h hrt0 heof0 hseek0 false false ele
    | ge => exact raxSeekKey_beyond h hrt0 heof0 hseek0 true false ele
    | lt => exact raxSeekKey_beyond h hrt0 heof0 hseek0 false true ele
    | le => exact raxSeekKey_beyond h hrt0 heof0 hseek0 true true ele
    | first =>
      obtain ⟨it', c, hit', hf, hc⟩ := raxSeekKey_beyond h hrt0 heof0 hseek0 true false []
      have hiff : ∀ k, k ∈ m ∧ (k = [] ∨ KeyLt [] k) ↔ k ∈ m := by
        intro k
        refine and_iff_left ?_
        cases k with
        | nil => exact .inl rfl
        | cons x k => exact .inr ((keyLt_iff _ _).mpr (nil_lt_cons x k))
      refine ⟨it', c, hit', hf, ?_⟩
      cases c with
      | eof | sought k => simpa [SeekCursor, SeekTarget, IsLeastKey, hiff] using hc
      | on k => exact hc
    | last =>
      obtain ⟨hkey, k, hf, hk⟩ := raxSeekGreatest_follows h hne hrt0 heof0 hseek0
      rw [hit0] at hf
      simp only [hkey, if_true]
      exact ⟨_, .sought k, rfl, hf, hk⟩

end Follows

/-- The iterator is an ordered cursor over the map that a tree stores. Take any tree that a run of
insertions and removals reaches, any iterator over it and any seek. The seek puts a cursor on the
key that is to be found, or at the end if there is none; what the calls of `raxNext` and `raxPrev`
return after it is what the cursor yields, in every order of calls. The map is the one that the run
leads to on a finite map, provided that every chain that a removal compresses fits into a node. -/
theorem raxIterator_cursor {ops : List (RaxOp W)} {rax : Rax W} {replies : List (RaxReply W)}
    (hrun : runSteps raxStep (raxNew, []) ops = some (rax, replies)) :
    ∃ m : RaxMap W, (∀ s, raxFind rax s = m.lookup s) ∧
      (RunSatisfies raxStep (fun st op => op.Fits fun t => (raxFind st.1 t).isSome)
        (raxNew, []) ops →
        m = (ops.foldl mapStep (∅, [])).1) ∧
      ∀ it : RaxIterator W, it.rt = rax → ∀ op ele,
        ∃ it' c, raxSeek it op ele = some it' ∧ SeekCursor m op ele c ∧
          ∀ dirs, ∃ out, raxIterate it' dirs = some out ∧ CursorRun m c dirs out := by
  obtain ⟨m, href⟩ := exists_raxRefines hrun
  refine ⟨m, fun s => by rw [raxFind_eq href.shape, href.find], fun hfits => ?_,
    fun it hrt op ele => ?_⟩
  · obtain ⟨st, hst, href', -⟩ := runSteps_refines hfits
    obtain rfl : st = (rax, replies) := Option.some.inj (hst.symm.trans hrun)
    exact Finmap.ext_lookup fun s => (href.find s).symm.trans (href'.find s)
  · obtain ⟨it', c, hit', hf, hc⟩ := raxSeek_follows href hrt op ele
    exact ⟨it', c, hit', hc, fun dirs => raxIterate_follows href dirs it' c hf⟩

/-- A seek in a tree with a key below a compressed node. -/
theorem raxIterator_cursor_example :
    ∃ rax replies, runSteps raxStep (raxNew, [])
        [.insert [1, 2, 3] (some 7), .insert [1] none] = some (rax, replies) ∧
      ∃ it' c, raxSeek (raxStart rax) .gt [1] = some it' ∧
        SeekCursor (List.foldl mapStep (∅, [])
          [RaxOp.insert [1, 2, 3] (some 7), .insert [1] none]).1 .gt [1] c ∧
        ∀ dirs, ∃ out, raxIterate it' dirs = some out ∧
          CursorRun (List.foldl mapStep (∅, [])
            [RaxOp.insert [1, 2, 3] (some 7), .insert [1] none]).1 c dirs out := by
  refine ⟨_, _, rfl, ?_⟩
  obtain ⟨m, -, hm, hcursor⟩ := raxIterator_cursor
    (rfl : runSteps raxStep _ [.insert [1, 2, 3] (some 7), .insert [1] none] = _)
  obtain rfl := hm ⟨trivial, fun _ _ => ⟨trivial, fun _ _ => trivial⟩⟩
  exact hcursor _ rfl .gt [1]

end RainCall
