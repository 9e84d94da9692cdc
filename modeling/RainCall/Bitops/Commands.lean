import RainCall.Bitops.BitfieldSpec
import RainCall.Util.IntegerText

/-!
# BITFIELD and SETBIT as a whole

The operations of a BITFIELD are executed in order on the zero-extended bits of the string, except
that a SET to a signed type under `OVERFLOW SAT` clamps very small arguments to the greatest value.
A write is counted as a change if it succeeds and the string had grown or the field changed, so the
only silent change is the growth of a string whose writes all fail. The product for an offset `#N`
may overflow, and the limit on the length is applied to the first bit of a field only.
-/

namespace RainCall

open BitfieldOp List Option

/-! ### Lists of operations on the sequence -/

variable {ops : List BitfieldOp}

section Lists

variable {st st' : BitfieldOp → ℤ → Option ℤ}

lemma BitfieldOp.run_append (ops ops' : List BitfieldOp) (σ : ℕ → Bool) :
    run st (ops ++ ops') σ =
      ((run st ops σ).1 ++ (run st ops' (run st ops σ).2).1,
        (run st ops' (run st ops σ).2).2) := by
  induction ops generalizing σ with
  | nil => rfl
  | cons op ops ih => simp only [cons_append, run, ih]

lemma BitfieldOp.run_congr (h : ∀ op ∈ ops, st op = st' op)
    (σ : ℕ → Bool) : run st ops σ = run st' ops σ := by
  induction ops generalizing σ with
  | nil => rfl
  | cons op ops ih =>
    have hop : op.exec st σ = op.exec st' σ := by
      unfold exec
      rw [h op mem_cons_self]
    rw [run, run, hop, ih fun op' hop' => h op' (mem_cons_of_mem _ hop')]

/-- Bits outside of the fields that are written do not change. -/
lemma BitfieldOp.run_frame {i : ℕ}
    (h : ∀ op ∈ ops, op.opcode ≠ .get → ¬ (op.offset ≤ i ∧ i < op.offset + op.bits))
    (σ : ℕ → Bool) : (run st ops σ).2 i = σ i := by
  induction ops generalizing σ with
  | nil => rfl
  | cons op ops ih =>
    rw [run, ih fun op' hop' => h op' (mem_cons_of_mem _ hop')]
    unfold exec
    by_cases hget : op.opcode = .get
    · rw [if_pos hget]
    · rw [if_neg hget]
      cases st op (op.result σ) with
      | none => rfl
      | some v => exact if_neg (h op mem_cons_self hget)

end Lists

/-! ### The executed operations -/

/-- The operations of BITFIELD on a string that has room for the writes. -/
lemma bitfieldExec_spec (grown : Bool) {s : Option Bytes} (hvalid : ∀ op ∈ ops, op.Valid)
    (hroom : ∀ op ∈ ops, op.opcode ≠ .get → ∃ p, s = some p ∧ op.offset + op.bits ≤ 8 * p.length) :
    ∃ replies s' changes, bitfieldExec grown s ops = some (replies, s', changes) ∧
      (replies, keyBits s') = run storedByCode ops (keyBits s) ∧
      s'.map length = s.map length ∧
      (changes = 0 → s' = s) ∧
      (grown → (changes = 0 ↔ ∀ op ∈ ops, op.opcode ≠ .get →
        op.owtype = .fail ∧ ¬ op.fits (op.result (keyBits s)))) := by
  induction ops generalizing s with
  | nil => exact ⟨[], s, 0, rfl, rfl, rfl, fun _ => rfl, fun _ => by simp⟩
  | cons op ops ih =>
    have hvalid' : ∀ op' ∈ ops, op'.Valid := fun op' h => hvalid op' (mem_cons_of_mem _ h)
    have hop := hvalid op mem_cons_self
    rw [bitfieldExec]
    by_cases hget : op.opcode = .get
    · obtain ⟨replies, s', changes, hexec, hrun, hlen, hsame, hzero⟩ := ih hvalid'
        fun op' h => hroom op' (mem_cons_of_mem _ h)
      refine ⟨some (op.read (keyBits s)) :: replies, s', changes, ?_, ?_, hlen, hsame, fun hg => ?_⟩
      · rw [if_pos hget, bitfieldGet_spec hop]
        simp only [bind_eq_bind, bind_some, hexec]
      · rw [run, exec, if_pos hget, ← hrun]
      · rw [hzero hg, forall_mem_cons]
        exact ⟨fun h => ⟨fun hc => absurd hget hc, h⟩, fun h => h.2⟩
    · obtain ⟨p, rfl, hp⟩ := hroom op mem_cons_self hget
      obtain ⟨w, hw, hspec⟩ := bitfieldWrite_spec hop hget hp grown
      have hroom' : ∀ op' ∈ ops, op'.opcode ≠ .get →
          ∃ p', some w.string = some p' ∧ op'.offset + op'.bits ≤ 8 * p'.length := by
        intro op' h hne
        obtain ⟨p', hp', hle⟩ := hroom op' (mem_cons_of_mem _ h) hne
        cases hp'
        exact ⟨_, rfl, by rw [hspec.length]; exact hle⟩
      obtain ⟨replies, s', changes, hexec, hrun, hlen, hsame, hzero⟩ := ih hvalid' hroom'
      have hnone : w.reply = none ↔ op.owtype = .fail ∧ ¬ op.fits (op.result (bitSeq p)) := by
        have hreply := congrArg Prod.fst hspec.exec
        rw [exec, if_neg hget] at hreply
        rw [← op.storedByCode_eq_none_iff, show w.reply = _ from hreply]
        cases op.storedByCode (op.result (bitSeq p)) <;> simp
      refine ⟨w.reply :: replies, s', changes + if w.changed then 1 else 0, ?_, ?_, ?_, ?_, ?_⟩
      · rw [if_neg hget]
        simp only [bind_eq_bind, bind_some, hw, hexec]
      · have hrun' : (replies, keyBits s') =
            run storedByCode ops (bitSeq w.string) := hrun
        rw [run, show keyBits (some p) = bitSeq p from rfl, ← hspec.exec]
        rw [← hrun']
      · rw [hlen, map_some, hspec.length, map_some]
      · intro hz
        obtain ⟨hz, hunchanged⟩ := Nat.add_eq_zero_iff.mp hz
        rw [hsame hz]
        have hno : ¬ w.changed := by simpa using hunchanged
        rw [hspec.changed] at hno
        congr 1
        by_cases hreply : w.reply = none
        · exact hspec.unchanged hreply
        · exact bitSeq_injective hspec.length (by
            by_contra hne
            exact hno ⟨hreply, .inr hne⟩)
      · intro hg
        rw [forall_mem_cons, Nat.add_eq_zero_iff]
        have hchanged : (if w.changed then 1 else 0) = 0 ↔ w.reply = none := by
          have := hspec.changed
          simp only [hg, true_or, and_true] at this
          rw [← not_iff_not, ← ne_eq w.reply, ← this]
          simp
        rw [hchanged, hzero hg]
        constructor
        · rintro ⟨hrest, hreply⟩
          have hstring := hspec.unchanged hreply
          rw [hstring] at hrest
          exact ⟨fun _ => hnone.mp hreply, hrest⟩
        · rintro ⟨hfirst, hrest⟩
          have hreply := hnone.mpr (hfirst hget)
          rw [hspec.unchanged hreply]
          exact ⟨hrest, hreply⟩

/-! ### The string before the operations -/

/-- The string is extended by zeros, to the last addressed byte if it is shorter. -/
lemma lookupStringForBitCommand_spec (s : Option Bytes) (maxbit : ℕ) :
    (lookupStringForBitCommand s maxbit).1.length = max (s.getD []).length (maxbit / 8 + 1) ∧
    bitSeq (lookupStringForBitCommand s maxbit).1 = keyBits s ∧
    ((lookupStringForBitCommand s maxbit).2 = 0 ↔ maxbit / 8 + 1 ≤ (s.getD []).length) ∧
    ((lookupStringForBitCommand s maxbit).2 = 0 →
      s = some (lookupStringForBitCommand s maxbit).1) := by
  have hzero : ∀ n, bitSeq (replicate n 0) = bitSeq [] := by
    intro n
    funext i
    unfold bitSeq
    rw [getElem?_replicate]
    split_ifs <;> simp
  unfold lookupStringForBitCommand keyBits
  rw [shiftRight_three]
  cases s with
  | none => exact ⟨by simp, hzero _, by simp, by simp⟩
  | some p =>
    refine ⟨by simp; omega, ?_, by simp; omega, fun hz => ?_⟩
    swap
    · dsimp only at hz ⊢
      rw [hz, replicate_zero, append_nil]
    funext i
    unfold bitSeq
    rw [getD_some]
    by_cases hi : i / 8 < p.length
    · rw [getElem?_append_left hi]
    · rw [getElem?_append_right (by omega), getElem?_eq_none (by omega : p.length ≤ i / 8),
        getElem?_replicate]
      split_ifs <;> rfl

/-- The highest offset bounds the fields of all writes, and is the last bit of one of them. -/
lemma highestWriteOffset_spec (ops : List BitfieldOp) :
    (∀ op ∈ ops, op.opcode ≠ .get →
      ∃ maxbit, highestWriteOffset ops = some maxbit ∧ op.offset + op.bits - 1 ≤ maxbit) ∧
    ∀ maxbit ∈ highestWriteOffset ops,
      ∃ op ∈ ops, op.opcode ≠ .get ∧ maxbit = op.offset + op.bits - 1 := by
  -- from the last operation on, so that the accumulator of the loop stays as it is
  induction ops using reverseRecOn with
  | nil => simp [highestWriteOffset]
  | append_singleton ops op ih =>
    have hlast : highestWriteOffset (ops ++ [op]) = if op.opcode = .get then highestWriteOffset ops
        else some (max ((highestWriteOffset ops).getD 0) (op.offset + op.bits - 1)) :=
      foldl_concat ..
    split_ifs at hlast with hget
    · grind
    · cases hmax : highestWriteOffset ops <;> grind

/-- The length of the string after a BITFIELD: a write extends the string to the last addressed
byte. -/
def bitfieldLength (s : Option Bytes) (ops : List BitfieldOp) : Option ℕ :=
  (highestWriteOffset ops).elim (s.map List.length) fun maxbit =>
    some (max (s.getD []).length (maxbit / 8 + 1))

/-- The string grows, and every write fails: under `OVERFLOW FAIL`, with a result that does not
fit. -/
def bitfieldGrowsSilently (s : Option Bytes) (ops : List BitfieldOp) : Prop :=
  (highestWriteOffset ops).elim False (fun maxbit => (s.getD []).length < maxbit / 8 + 1) ∧
    ∀ op ∈ ops, op.opcode ≠ .get → op.owtype = .fail ∧ ¬ op.fits (op.result (keyBits s))

/-- The operations of a BITFIELD, from the string at the key to the string at the key. -/
lemma bitfieldGeneric_spec (s : Option Bytes) {args : List BitfieldArg}
    (hvalid : ∀ op ∈ bitfieldOps .wrap args, op.Valid) :
    ∃ r, bitfieldGeneric s args = some r ∧
      (r.replies, keyBits r.string) =
        run storedByCode (bitfieldOps .wrap args) (keyBits s) ∧
      r.string.map length = bitfieldLength s (bitfieldOps .wrap args) ∧
      (r.signalled ↔ 0 < r.dirty) ∧
      (r.string ≠ s ∧ r.dirty = 0 ↔ bitfieldGrowsSilently s (bitfieldOps .wrap args)) := by
  unfold bitfieldGeneric bitfieldLength bitfieldGrowsSilently
  generalize bitfieldOps .wrap args = ops at hvalid
  have hhigh := (highestWriteOffset_spec ops).1
  cases hmax : highestWriteOffset ops with
  | none =>
    have hreads : ∀ op ∈ ops, op.opcode ≠ .get →
        ∃ p, s = some p ∧ op.offset + op.bits ≤ 8 * p.length := by
      intro op hop hne
      obtain ⟨maxbit, hm, -⟩ := hhigh op hop hne
      exact absurd (hmax.symm.trans hm) (by simp)
    obtain ⟨replies, s', changes, hexec, hrun, hlen, hsame, -⟩ :=
      bitfieldExec_spec (decide ((0 : ℕ) ≠ 0)) hvalid hreads
    refine ⟨⟨replies, s', changes, changes ≠ 0⟩, ?_, hrun, hlen, ?_, ?_⟩
    · simp only [hmax, elim_none, hexec, bind_eq_bind, bind_some]
    · simp [Nat.pos_iff_ne_zero]
    · constructor
      · rintro ⟨hne, hzero⟩
        exact absurd (hsame hzero) hne
      · rintro ⟨hgrows, -⟩
        exact hgrows.elim
  | some maxbit =>
    obtain ⟨hlength, hbits, hgrow, hsame0⟩ := lookupStringForBitCommand_spec s maxbit
    have hroom : ∀ op ∈ ops, op.opcode ≠ .get →
        ∃ p, some (lookupStringForBitCommand s maxbit).1 = some p ∧
          op.offset + op.bits ≤ 8 * p.length := by
      intro op hop hne
      obtain ⟨maxbit', hm, hle⟩ := hhigh op hop hne
      obtain rfl : maxbit = maxbit' := some.inj (hmax.symm.trans hm)
      refine ⟨_, rfl, ?_⟩
      omega
    obtain ⟨replies, s', changes, hexec, hrun, hlen, hsame, hzero⟩ :=
      bitfieldExec_spec (decide ((lookupStringForBitCommand s maxbit).2 ≠ 0)) hvalid hroom
    have hkey : keyBits (some (lookupStringForBitCommand s maxbit).1) = keyBits s := hbits
    rw [hkey] at hrun hzero
    rw [map_some, hlength] at hlen
    refine ⟨⟨replies, s', changes, changes ≠ 0⟩, ?_, hrun, hlen, ?_, ?_⟩
    · simp only [hmax, elim_some, hexec, bind_eq_bind, bind_some]
    · simp [Nat.pos_iff_ne_zero]
    · by_cases hg : (lookupStringForBitCommand s maxbit).2 = 0
      · -- the string has not grown, and without a change it is the one before
        have hold := hsame0 hg
        constructor
        · rintro ⟨hne, hz⟩
          exact absurd ((hsame hz).trans hold.symm) hne
        · rintro ⟨hgrows, -⟩
          exact absurd (hgrow.mp hg) (Nat.not_le.mpr hgrows)
      · have hzero := hzero (by simpa using hg)
        have hlt := Nat.not_le.mp (mt hgrow.mpr hg)
        have hne : s' ≠ s := by
          rintro rfl
          cases s' with
          | none => exact absurd hlen (by simp)
          | some p =>
            have := some.inj hlen
            rw [getD_some] at hlt this
            omega
        exact ⟨fun h => ⟨hlt, hzero.mp h.2⟩, fun h => ⟨hne, hzero.mpr h.2⟩⟩

/-! ### Exactness -/

/-- The replies and the final string of a BITFIELD are those of the operations on the zero-extended
bits. -/
structure BitfieldExact (s : Option Bytes) (args : List BitfieldArg)
    (r : BitCommandResult) : Prop where
  /-- the command does not leave the string -/
  returns : bitfieldGeneric s args = some r
  /-- the replies and the bits -/
  run : (r.replies, keyBits r.string) =
    BitfieldOp.run BitfieldOp.stored (bitfieldOps .wrap args) (keyBits s)
  /-- the length, which makes the bits determine the string -/
  length : r.string.map List.length = bitfieldLength s (bitfieldOps .wrap args)
  /-- no other bits change -/
  frame : ∀ i, (∀ op ∈ bitfieldOps .wrap args, op.opcode ≠ .get →
    ¬ (op.offset ≤ i ∧ i < op.offset + op.bits)) → keyBits r.string i = keyBits s i

lemma bitfieldOps_append (owtype : BfOverflow) (args : List BitfieldArg) (arg : BitfieldArg) :
    ∃ last, bitfieldOps owtype (args ++ [arg]) = bitfieldOps owtype args ++ last ∧
      last.length ≤ 1 := by
  induction args generalizing owtype with
  | nil =>
    cases arg with
    | overflow => exact ⟨[], rfl, Nat.zero_le _⟩
    | op => exact ⟨_, rfl, le_rfl⟩
  | cons first args ih =>
    cases first with
    | overflow owtype' => exact ih owtype'
    | op opcode sign bits offset i64 =>
      obtain ⟨last, hlast, hlen⟩ := ih owtype
      exact ⟨last, congrArg (cons _) hlast, hlen⟩

/-- The operations of the first arguments are among the operations of all. -/
lemma mem_bitfieldOps_of_isPrefix {owtype : BfOverflow} {init args : List BitfieldArg}
    (h : init <+: args) {op : BitfieldOp} (hop : op ∈ bitfieldOps owtype init) :
    op ∈ bitfieldOps owtype args := by
  obtain ⟨rest, rfl⟩ := h
  induction rest using reverseRecOn with
  | nil => rwa [append_nil]
  | append_singleton rest arg ih =>
    obtain ⟨last, hlast, -⟩ := bitfieldOps_append owtype (init ++ rest) arg
    rw [← append_assoc, hlast]
    exact mem_append_left _ ih

/-- The wrong side of the range gives other bits. -/
lemma BitfieldOp.Valid.exec_ne_of_clampsUp {op : BitfieldOp} (h : op.Valid) (hup : op.clampsUp)
    (σ : ℕ → Bool) : op.exec storedByCode σ ≠ op.exec stored σ := by
  obtain ⟨hset, hsign, hsat, h64, hsmall⟩ := of_decide_eq_true hup
  have hlo : op.lo = -2 ^ (op.bits - 1) := by rw [lo, if_pos hsign]
  have hhi : op.hi = 2 ^ (op.bits - 1) - 1 := by rw [hi, if_pos hsign]
  have hbits := h.bits_le
  have hpos : (1 : ℤ) ≤ 2 ^ (op.bits - 1) := one_le_pow₀ (by norm_num)
  have hH : (2 : ℤ) ^ (op.bits - 1) ≤ 2 ^ 62 := pow_le_pow_right₀ (by norm_num) (by omega)
  have hresult : op.result σ = op.i64 := by simp [result, hset, hsign]
  have hcode : op.storedByCode (op.result σ) = some op.hi := if_pos hup
  have hspec : op.stored (op.result σ) = some op.lo := by
    rw [stored, if_neg (by rw [fits]; omega), hsat]
    exact congrArg some (if_pos (by omega))
  have hnot : op.opcode ≠ .get := by simp [hset]
  intro heq
  rw [exec, exec, if_neg hnot, if_neg hnot, hcode, hspec] at heq
  have hread := congrArg (fun r => op.read r.2) heq
  simp only [op.read_writeField] at hread
  rw [h.wrapped_of_fits ⟨by omega, le_rfl⟩, h.wrapped_of_fits ⟨le_rfl, by omega⟩] at hread
  omega

/-- BITFIELD executes its operations in order on the zero-extended bits of the string, after any
number of its arguments, exactly if no SET to a signed type under `OVERFLOW SAT` has an argument
for which the greatest value of the type minus the argument overflows. -/
theorem bitfield_exact_iff (s : Option Bytes) (args : List BitfieldArg)
    (hvalid : ∀ op ∈ bitfieldOps .wrap args, op.Valid) :
    (∀ init, init <+: args → ∃ r, BitfieldExact s init r) ↔
      ∀ op ∈ bitfieldOps .wrap args, ¬ op.clampsUp := by
  constructor
  · intro hexact
    induction args using reverseRecOn with
    | nil => simp [bitfieldOps]
    | append_singleton args arg ih =>
      obtain ⟨last, hlast, hlen⟩ := bitfieldOps_append .wrap args arg
      have hno := ih (fun op hop => hvalid op (mem_bitfieldOps_of_isPrefix ⟨[arg], rfl⟩ hop))
        fun init hinit => hexact init (hinit.trans ⟨[arg], rfl⟩)
      have hsame : ∀ op ∈ bitfieldOps .wrap args, op.storedByCode = op.stored := fun op hop => by
        funext x
        exact if_neg (hno op hop)
      obtain ⟨r, hr⟩ := hexact _ prefix_rfl
      obtain ⟨r', hr', hrun, -⟩ := bitfieldGeneric_spec s hvalid
      obtain rfl : r = r' := Option.some.inj (hr.returns.symm.trans hr')
      have hrun := hrun.symm.trans hr.run
      rw [hlast] at hvalid hrun ⊢
      rw [BitfieldOp.run_append, BitfieldOp.run_append, BitfieldOp.run_congr hsame] at hrun
      intro op hop hup
      rcases mem_append.mp hop with hop | hop
      · exact hno op hop hup
      · obtain rfl : last = [op] := by
          obtain ⟨x, rfl⟩ := length_eq_one_iff.mp
            (Nat.le_antisymm hlen (length_pos_of_mem hop))
          rw [mem_singleton.mp hop]
        obtain ⟨hreplies, hbits⟩ := Prod.mk.inj hrun
        have hreplies := append_cancel_left hreplies
        exact (hvalid op (mem_append_right _ hop)).exec_ne_of_clampsUp hup
          (BitfieldOp.run BitfieldOp.stored (bitfieldOps .wrap args) (keyBits s)).2
          (Prod.ext (cons.inj hreplies).1 hbits)
  · intro hno init hinit
    have hvalid' : ∀ op ∈ bitfieldOps .wrap init, op.Valid := fun op hop =>
      hvalid op (mem_bitfieldOps_of_isPrefix hinit hop)
    obtain ⟨r, hr, hrun, hlen, -⟩ := bitfieldGeneric_spec s hvalid'
    refine ⟨r, hr, ?_, hlen, fun i hi => ?_⟩
    · rw [hrun]
      refine BitfieldOp.run_congr (fun op hop => ?_) _
      funext x
      exact if_neg (hno op (mem_bitfieldOps_of_isPrefix hinit hop))
    · have hbits : keyBits r.string = _ := congrArg Prod.snd hrun
      rw [hbits]
      exact BitfieldOp.run_frame hi _

/-- `BITFIELD k INCRBY i5 100 1 OVERFLOW SAT SET u4 0 -1` on a missing key. -/
theorem bitfield_exact_saturated :
    ∃ r, BitfieldExact none [.op .incrby true 5 100 1, .overflow .sat, .op .set false 4 0 (-1)] r :=
  (bitfield_exact_iff none [.op .incrby true 5 100 1, .overflow .sat, .op .set false 4 0 (-1)]
    (by decide +kernel)).mpr (by decide +kernel) _ List.prefix_rfl

/-- `BITFIELD k OVERFLOW SAT SET i8 0 -9223372036854775808` on a missing key stores `127`. -/
theorem bitfield_saturates_to_wrong_side :
    bitfieldGeneric none [.overflow .sat, .op .set true 8 0 (-9223372036854775808)] =
        some ⟨[some 0], some [127], 1, true⟩ ∧
      (BitfieldOp.run BitfieldOp.stored
        (bitfieldOps .wrap [.overflow .sat, .op .set true 8 0 (-9223372036854775808)])
        (keyBits none)).2 0 = true ∧
      keyBits (some [127]) 0 = false := by
  decide +kernel

/-! ### Changes are counted -/

/-- The commands that write bits. -/
inductive BitCommand
  | setbit (bitoffset : ℕ) (on : Bool)
  | bitfield (args : List BitfieldArg)
deriving DecidableEq, Repr

/-- A command on the string at the key. -/
def BitCommand.exec (s : Option Bytes) : BitCommand → Option BitCommandResult
  | .setbit bitoffset on => setbitCommand s bitoffset on
  | .bitfield args => bitfieldGeneric s args

/-- The types and arguments of the operations are those the command accepts. -/
def BitCommand.Valid : BitCommand → Prop
  | .setbit _ _ => True
  | .bitfield args => ∀ op ∈ bitfieldOps .wrap args, op.Valid

/-- A BITFIELD creates or extends the string, and all its writes fail. -/
def BitCommand.growsSilently (s : Option Bytes) : BitCommand → Prop
  | .setbit _ _ => False
  | .bitfield args => bitfieldGrowsSilently s (bitfieldOps .wrap args)

/-- SETBIT counts a change unless it leaves the string as it is. -/
lemma setbitCommand_spec (s : Option Bytes) (bitoffset : ℕ) (on : Bool) :
    ∃ r, setbitCommand s bitoffset on = some r ∧ (r.string ≠ s → 0 < r.dirty ∧ r.signalled) := by
  obtain ⟨hlength, -, -, hsame⟩ := lookupStringForBitCommand_spec s bitoffset
  have hlt : bitoffset / 8 < (lookupStringForBitCommand s bitoffset).1.length := by
    rw [hlength]
    exact lt_max_of_lt_right (Nat.lt_succ_self _)
  unfold setbitCommand
  simp only [shiftRight_three, getElem?_eq_getElem hlt, bind_eq_bind, bind_some]
  split <;> rename_i hcond
  · exact ⟨_, rfl, fun _ => ⟨Nat.one_pos, rfl⟩⟩
  · refine ⟨_, rfl, fun hne => absurd (hsame ?_).symm hne⟩
    by_contra hgrow
    exact hcond (.inl hgrow)

/-- A command that writes bits and leaves another string behind, or creates the key, is counted in
`server.dirty` and signalled, exactly if it is not a BITFIELD that grows the string and whose
writes all fail. -/
theorem bit_writes_counted_iff (s : Option Bytes) (cmd : BitCommand) (hvalid : cmd.Valid) :
    ∃ r, cmd.exec s = some r ∧
      ((r.string ≠ s → 0 < r.dirty ∧ r.signalled) ↔ ¬ cmd.growsSilently s) := by
  cases cmd with
  | setbit bitoffset on =>
    obtain ⟨r, hr, hcounted⟩ := setbitCommand_spec s bitoffset on
    exact ⟨r, hr, fun _ => id, fun _ => hcounted⟩
  | bitfield args =>
    obtain ⟨r, hr, -, -, hsignalled, hsilent⟩ := bitfieldGeneric_spec s hvalid
    refine ⟨r, hr, ?_⟩
    rw [BitCommand.growsSilently, ← hsilent, hsignalled, and_self, not_and, Nat.pos_iff_ne_zero]

/-- `BITFIELD k OVERFLOW FAIL SET u1 0 5 SET u1 1 1` on a missing key: one write succeeds. -/
theorem bit_writes_counted_partly : ∃ r,
    (BitCommand.bitfield [.overflow .fail, .op .set false 1 0 5, .op .set false 1 1 1]).exec none =
      some r ∧ (r.string ≠ none → 0 < r.dirty ∧ r.signalled) := by
  obtain ⟨r, hr, h⟩ := bit_writes_counted_iff none
    (.bitfield [.overflow .fail, .op .set false 1 0 5, .op .set false 1 1 1])
    (show ∀ op ∈ _, BitfieldOp.Valid op by decide +kernel)
  refine ⟨r, hr, h.mpr ?_⟩
  rintro ⟨-, hfails⟩
  exact absurd hfails (by decide +kernel)

/-- `BITFIELD k OVERFLOW FAIL SET u1 0 5` on a missing key creates it without counting a change. -/
theorem bitfield_creates_key_silently :
    (BitCommand.bitfield [.overflow .fail, .op .set false 1 0 5]).exec none =
      some ⟨[none], some [0], 0, false⟩ := by
  decide +kernel

/-! ### Addressing -/

/-- `getBitOffsetFromArgument` with `hash`; `obey` is `mustObeyClient`. The product is one of signed
64-bit integers, and the limit is on the first bit. -/
def getBitOffsetFromArgument (protoMaxBulkLen : ℕ) (obey : Bool) (p : Bytes) (bits : ℕ) :
    Option ℕ := do
  let usehash := p.head? = some 35 ∧ 0 < bits
  let n ← string2ll (if usehash then p.tail else p)
  let loffset := if usehash then (n * bits).bmod (2 ^ 64) else n
  if loffset < 0 ∨ ¬ obey ∧ protoMaxBulkLen ≤ loffset / 8 then none else some loffset.toNat

/-- An accepted offset is the number or, for `#`, the wrapped product. -/
lemma getBitOffsetFromArgument_spec {protoMaxBulkLen : ℕ} {obey : Bool} {p : Bytes}
    {bits offset : ℕ} (h : getBitOffsetFromArgument protoMaxBulkLen obey p bits = some offset) :
    (obey = false → offset < 8 * protoMaxBulkLen) ∧
      ∃ n : ℤ, p = signedDecimal n ∧ offset = n ∨
        p = 35 :: signedDecimal n ∧ offset = (n * bits).bmod (2 ^ 64) := by
  obtain ⟨n, hn, hoffset⟩ := bind_eq_some_iff.mp h
  by_cases husehash : p.head? = some 35 ∧ 0 < bits
  all_goals
    simp only [husehash, and_self, if_true, if_false] at hn hoffset
    split_ifs at hoffset with hlimit
    cases hoffset
    refine ⟨by rintro rfl; simp only [Bool.false_eq_true, not_false_iff, true_and] at hlimit; omega,
      n, ?_⟩
  · obtain ⟨q, rfl⟩ := head?_eq_some_iff.mp husehash.1
    exact .inr ⟨congrArg _ (string2ll_spec hn).1, by omega⟩
  · exact .inl ⟨(string2ll_spec hn).1, by omega⟩

/-- The string stays within a bound exactly if no write ends after it. -/
lemma forall_length_le_iff {s string : Option Bytes} {bound : ℕ}
    (hlen : string.map length = bitfieldLength s ops) (hvalid : ∀ op ∈ ops, op.Valid)
    (hbound : (s.getD []).length ≤ bound) :
    (∀ p ∈ string, p.length ≤ bound) ↔
      ∀ op ∈ ops, op.opcode ≠ .get → op.offset + op.bits ≤ 8 * bound := by
  obtain ⟨hall, hlast⟩ := highestWriteOffset_spec ops
  rw [bitfieldLength] at hlen
  cases hhigh : highestWriteOffset ops with
  | none =>
    rw [hhigh] at hlen
    refine iff_of_true ?_ fun op hop hwrite => ?_
    · rintro p rfl
      obtain ⟨q, rfl, hq⟩ := map_eq_some_iff.mp hlen.symm
      exact hq.ge.trans hbound
    · obtain ⟨maxbit, hmax, -⟩ := hall op hop hwrite
      exact absurd (hhigh.symm.trans hmax) (some_ne_none _).symm
  | some maxbit =>
    rw [hhigh] at hlen
    obtain ⟨p, rfl, hp⟩ := map_eq_some_iff.mp hlen
    constructor
    · intro hle op hop hwrite
      obtain ⟨maxbit', hmax, hend⟩ := hall op hop hwrite
      obtain rfl := some.inj (hhigh.symm.trans hmax)
      have := hle p rfl
      omega
    · rintro hends _ ⟨⟩
      obtain ⟨op, hop, hwrite, rfl⟩ := hlast maxbit hhigh
      have := hends op hop hwrite
      have := (hvalid op hop).pos
      omega

/-- A BITFIELD whose offset texts are accepted works on the fields that the texts name, where `#N`
names the field from `N` times the width on exactly if that is a 64-bit integer. The string does not
grow beyond the limit exactly if no write ends after both the limit and the string, and it never
grows by more than eight bytes beyond the limit. -/
theorem bitfield_addresses (protoMaxBulkLen : ℕ) (obey : Bool) (s : Option Bytes)
    (args : List BitfieldArg) (texts : List Bytes)
    (hvalid : ∀ op ∈ bitfieldOps .wrap args, op.Valid)
    (hparse : Forall₂ (fun op p => getBitOffsetFromArgument protoMaxBulkLen obey p op.bits =
      some op.offset) (bitfieldOps .wrap args) texts) :
    Forall₂ (fun op p => ∃ n : ℤ, p = signedDecimal n ∧ op.offset = n ∨
      p = 35 :: signedDecimal n ∧
        (op.offset = n * op.bits ↔ -2 ^ 63 ≤ n * op.bits ∧ n * op.bits < 2 ^ 63))
      (bitfieldOps .wrap args) texts ∧
    ∃ r, bitfieldGeneric s args = some r ∧
      (r.replies, keyBits r.string) = run storedByCode (bitfieldOps .wrap args) (keyBits s) ∧
      ((∀ p ∈ r.string, p.length ≤ max (s.getD []).length protoMaxBulkLen) ↔
        ∀ op ∈ bitfieldOps .wrap args, op.opcode ≠ .get →
          op.offset + op.bits ≤ 8 * max (s.getD []).length protoMaxBulkLen) ∧
      (obey = false → ∀ p ∈ r.string, p.length ≤ max (s.getD []).length (protoMaxBulkLen + 8)) := by
  obtain ⟨r, hr, hrun, hlen, -⟩ := bitfieldGeneric_spec s hvalid
  refine ⟨hparse.imp fun op p hp => ?_, r, hr, hrun,
    forall_length_le_iff hlen hvalid (le_max_left _ _), fun hobey => ?_⟩
  · obtain ⟨-, n, hn | ⟨htext, hn⟩⟩ := getBitOffsetFromArgument_spec hp
    · exact ⟨n, .inl hn⟩
    · have hlt := Int.bmod_lt (x := n * op.bits) (m := 2 ^ 64) (by decide)
      refine ⟨n, .inr ⟨htext, fun heq => by omega, fun hrange => ?_⟩⟩
      exact hn.trans (Int.bmod_eq_of_le (by omega) (by omega))
  · refine (forall_length_le_iff hlen hvalid (le_max_left _ _)).mpr fun op hop _ => ?_
    have hlimit := ((forall₂_and_left _ _).mp (hparse.imp fun op p hp =>
      ⟨(getBitOffsetFromArgument_spec hp).1 hobey, hp⟩)).1 op hop
    have := (hvalid op hop).bits_le
    omega

/-- A `u8` at `#1` ends with the second byte. -/
theorem bitfield_addresses_second_byte : ∃ r,
    bitfieldGeneric none [.op .set false 8 8 255] = some r ∧ ∀ p ∈ r.string, p.length ≤ 2 := by
  obtain ⟨-, r, hr, -, hlen, -⟩ := bitfield_addresses 2 false none [.op .set false 8 8 255]
    [[35, 49]] (by decide) (.cons (by decide) .nil)
  exact ⟨r, hr, hlen.mpr (by decide)⟩

/-- `#2305843009213693952` of `u8` is bit 0, and a `u8` from the last bit of the limit on exceeds
it. -/
theorem bitfield_offset_wraps :
    getBitOffsetFromArgument 1048576 false (35 :: signedDecimal (2 ^ 61)) 8 = some 0 ∧
    getBitOffsetFromArgument 1048576 false (signedDecimal 8388607) 8 = some 8388607 ∧
    ∃ r, bitfieldGeneric none [.op .set false 8 8388607 255] = some r ∧
      r.string.map length = some 1048577 := by
  obtain ⟨r, hr, -, hlen, -⟩ :=
    @bitfieldGeneric_spec none [.op .set false 8 8388607 255] (by decide)
  exact ⟨by decide +kernel, by decide +kernel, r, hr, hlen.trans (by decide)⟩

end RainCall
