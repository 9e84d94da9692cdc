import RainCall.Foundation.Decimal

/-!
# The listpack as a list of entries

The users of a listpack see it as a list of strings and integers with cursors into it. This file
gives the operations they call in these terms: a listpack is the list of its entries, and a cursor
is the position of an entry, where `none` stands for `NULL`.

An entry that was added as a string is kept as a string, whether or not the listpack stores it as an
integer; the two read back the same, as the decimal text of the integer.
-/

namespace RainCall

open List

/-- An entry of a listpack. -/
inductive LpEntry
  | str (s : Bytes)
  | int (n : ℕ)
deriving DecidableEq, Repr

/-- The text of an entry. -/
def LpEntry.text : LpEntry → Bytes
  | .str s => s
  | .int n => decimal n

/-- `lpGetIntegerValue`: the value of an entry that was added as an integer. -/
def LpEntry.integerValue : LpEntry → Option ℕ
  | .str _ => none
  | .int n => some n

/-- `lpNext`: the cursor to the entry behind `p`. -/
def lpNext (lp : List LpEntry) (p : ℕ) : Option ℕ :=
  if p + 1 < lp.length then some (p + 1) else none

/-- `lpFindCb`: call `cmp` on the entry at the cursor, then skip `skip` entries, until `cmp` asks to
stop. The callback threads its own state. -/
def lpFindCb {σ : Type} (cmp : σ → ℕ → LpEntry → σ × Bool) (skip : ℕ) :
    List LpEntry → ℕ → ℕ → σ → σ × Option ℕ
  | [], _, _, s => (s, none)
  | e :: lp, p, 0, s =>
    if (cmp s p e).2 then ((cmp s p e).1, some p)
    else lpFindCb cmp skip lp (p + 1) skip (cmp s p e).1
  | _ :: lp, p, skipcnt + 1, s => lpFindCb cmp skip lp (p + 1) skipcnt s

/-- `lpFind` from the first entry. -/
def lpFind (lp : List LpEntry) (s : Bytes) (skip : ℕ) : Option ℕ :=
  (lpFindCb (fun _ _ e => ((), e.text == s)) skip lp 0 0 ()).2

def lpReplace (lp : List LpEntry) (p : ℕ) (s : Bytes) : List LpEntry :=
  lp.set p (.str s)

/-- `lpDeleteRangeWithEntry`: delete `num` entries from the cursor on. -/
def lpDeleteRangeWithEntry (lp : List LpEntry) (p num : ℕ) : List LpEntry :=
  lp.take p ++ lp.drop (p + num)

def lpBatchAppend (lp entries : List LpEntry) : List LpEntry :=
  lp ++ entries

/-- `lpBatchInsert` before the cursor. -/
def lpBatchInsert (lp : List LpEntry) (p : ℕ) (entries : List LpEntry) : List LpEntry :=
  lp.take p ++ entries ++ lp.drop p

/-! ### Cursors between two parts of a listpack -/

section Parts

variable (front back : List LpEntry)

lemma lpNext_length_append (a b : LpEntry) :
    lpNext (front ++ a :: b :: back) front.length = some (front.length + 1) := by
  simp [lpNext]

lemma lpNext_length_append_two (a b c : LpEntry) :
    lpNext (front ++ a :: b :: c :: back) (front.length + 1) = some (front.length + 2) := by
  rw [lpNext, if_pos]
  simp only [length_append, length_cons]
  omega

lemma lpReplace_length_append (a b : LpEntry) (s : Bytes) :
    lpReplace (front ++ a :: b :: back) (front.length + 1) s = front ++ a :: .str s :: back := by
  simp [lpReplace]

lemma lpDeleteRangeWithEntry_length_append (mid : List LpEntry) :
    lpDeleteRangeWithEntry (front ++ mid ++ back) front.length mid.length = front ++ back := by
  simp [lpDeleteRangeWithEntry]

lemma lpBatchInsert_length_append (entries : List LpEntry) :
    lpBatchInsert (front ++ back) front.length entries = front ++ entries ++ back := by
  simp [lpBatchInsert]

end Parts

/-- Skipping entries only moves the cursor. -/
lemma lpFindCb_append {σ : Type} (cmp : σ → ℕ → LpEntry → σ × Bool) (skip : ℕ)
    (skipped lp : List LpEntry) (p : ℕ) (s : σ) :
    lpFindCb cmp skip (skipped ++ lp) p skipped.length s =
      lpFindCb cmp skip lp (p + skipped.length) 0 s := by
  induction skipped generalizing p with
  | nil => rfl
  | cons e skipped ih =>
    rw [cons_append, length_cons, lpFindCb, ih]
    congr 1
    omega

/-! ### Records -/

/-- Records that begin with a key, each encoded by the same number of entries. -/
structure LpRecords (ρ : Type) where
  key : ρ → Bytes
  data : ρ → List LpEntry
  skip : ℕ
  length_data : ∀ r, (data r).length = skip

namespace LpRecords

variable {ρ : Type} (R : LpRecords ρ)

/-- The entries of a record. -/
def entries (r : ρ) : List LpEntry := .str (R.key r) :: R.data r

/-- The listpack that holds the records one after the other. -/
def flat (rs : List ρ) : List LpEntry := rs.flatMap R.entries

@[simp] lemma flat_nil : R.flat [] = [] := rfl

@[simp] lemma flat_cons (r : ρ) (rs : List ρ) : R.flat (r :: rs) = R.entries r ++ R.flat rs := rfl

@[simp] lemma flat_append (rs rs' : List ρ) : R.flat (rs ++ rs') = R.flat rs ++ R.flat rs' := by
  simp [flat]

lemma length_flat (rs : List ρ) : (R.flat rs).length = rs.length * (R.skip + 1) := by
  induction rs with
  | nil => simp
  | cons r rs ih =>
    rw [flat_cons, length_append, ih, entries, length_cons, R.length_data,
      length_cons]
    ring

/-- `lpFind` past records with other keys. -/
lemma lpFindCb_flat {s : Bytes} {rs : List ρ} (hrs : ∀ r ∈ rs, R.key r ≠ s)
    (lp : List LpEntry) (p : ℕ) :
    lpFindCb (fun _ _ e => ((), e.text == s)) R.skip (R.flat rs ++ lp) p 0 () =
      lpFindCb (fun _ _ e => ((), e.text == s)) R.skip lp (p + (R.flat rs).length) 0 () := by
  induction rs generalizing p with
  | nil => rfl
  | cons r rs ih =>
    have hr : (R.key r == s) = false := by simpa using hrs r (by simp)
    rw [flat_cons, entries, cons_append, cons_append, lpFindCb, LpEntry.text, hr,
      if_neg Bool.false_ne_true, append_assoc]
    have hskip := lpFindCb_append (fun _ _ e => ((), e.text == s)) R.skip
      (R.data r) (R.flat rs ++ lp) (p + 1) ()
    rw [R.length_data] at hskip
    rw [hskip, ih fun r' hr' => hrs r' (mem_cons_of_mem r hr')]
    congr 1
    simp only [length_cons, length_append, R.length_data]
    omega

lemma lpFind_flat_of_forall {s : Bytes} {rs : List ρ} (hrs : ∀ r ∈ rs, R.key r ≠ s) :
    lpFind (R.flat rs) s R.skip = none := by
  have h := R.lpFindCb_flat hrs [] 0
  rw [append_nil] at h
  rw [lpFind, h, lpFindCb]

lemma lpFind_flat_append {s : Bytes} {front : List ρ} (hfront : ∀ r ∈ front, R.key r ≠ s)
    {r : ρ} (hr : R.key r = s) (back : List ρ) :
    lpFind (R.flat (front ++ r :: back)) s R.skip = some (R.flat front).length := by
  rw [lpFind, flat_append, R.lpFindCb_flat hfront, flat_cons, entries, cons_append, lpFindCb,
    if_pos (by simp [LpEntry.text, hr]), Nat.zero_add]

end LpRecords

end RainCall
