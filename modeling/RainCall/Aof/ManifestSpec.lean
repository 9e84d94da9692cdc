import RainCall.Aof.Manifest
import RainCall.Foundation.MachineInt

/-!
# The manifest is read back

Every line that is written fits into the buffer of the reader and is read as the file it was written
for, unless its name holds a single quote and nothing that makes the writer quote it, or unless it
has an end offset without a start offset, which is not written.
-/

namespace RainCall

open List
open Option hiding any_eq_false

/-! ### Numbers -/

lemma digitsVal_append (s : Bytes) (c : UInt8) :
    digitsVal (s ++ [c]) = digitsVal s * 10 + digitVal c := by
  unfold digitsVal
  rw [foldl_append]
  rfl

/-- The number in a decimal text. -/
lemma digitsVal_decimal (n : ℕ) : digitsVal (decimal n) = n := by
  induction n using Nat.strongRecOn with
  | _ n ih =>
    by_cases hn : n < 10
    · rw [decimal_of_lt_ten hn]
      simpa [digitsVal] using digitVal_digitChar hn
    · rw [decimal_div_ten (by omega), digitsVal_append, ih (n / 10) (by omega),
        digitVal_digitChar (Nat.mod_lt _ (by decide))]
      omega

/-- `atoll` reads the text of `%lld`. -/
lemma atoll_signedDecimal (v : ℤ) : atoll (signedDecimal v) = v := by
  have hdigits : (decimal v.natAbs).takeWhile (IsDigit ·) = decimal v.natAbs :=
    takeWhile_eq_self_iff.mpr fun c hc => by simpa using isDigit_of_mem_decimal hc
  have hdigit : ∀ c : UInt8, IsDigit c → ¬ isspace c ∧ c ≠ 45 ∧ c ≠ 43 := by decide +kernel
  unfold signedDecimal
  split_ifs with hneg
  · rw [atoll, dropWhile_cons_of_neg (by decide)]
    simp only [if_true, hdigits, digitsVal_decimal]
    omega
  · obtain ⟨c, p, hcp⟩ := exists_cons_of_length_pos (length_decimal_pos v.natAbs)
    obtain ⟨hspace, hminus, hplus⟩ := hdigit c
      (isDigit_of_mem_decimal (by rw [hcp]; exact mem_cons_self))
    rw [hcp] at hdigits
    rw [atoll, hcp, dropWhile_cons_of_neg hspace]
    simp only [if_neg hminus, if_neg hplus, hdigits]
    rw [← hcp, digitsVal_decimal]
    omega

lemma isPlain_of_mem_signedDecimal {v : ℤ} {c : UInt8} (h : c ∈ signedDecimal v) : IsPlain c := by
  have hdigit : ∀ c : UInt8, IsDigit c → IsPlain c := by decide +kernel
  unfold signedDecimal at h
  split_ifs at h
  · rcases mem_cons.mp h with rfl | h
    · decide
    · exact hdigit c (isDigit_of_mem_decimal h)
  · exact hdigit c (isDigit_of_mem_decimal h)

lemma signedDecimal_ne_nil (v : ℤ) : signedDecimal v ≠ [] := by
  unfold signedDecimal
  split_ifs
  · exact cons_ne_nil _ _
  · exact ne_nil_of_length_pos (length_decimal_pos _)

lemma tokenText_signedDecimal (v : ℤ) : TokenText (signedDecimal v) (signedDecimal v) :=
  tokenText_plain (signedDecimal_ne_nil v) fun _ => isPlain_of_mem_signedDecimal

/-! ### Valid files -/

/-- The names that are accepted as `appendfilename`, up to 200 bytes. -/
structure AofFilename (name : Bytes) : Prop where
  ne_nil : name ≠ []
  no_zero : 0 ∉ name
  base_name : pathIsBaseName name
  length_le : name.length ≤ 200

/-- A file of a manifest whose names are made from `aofFilename`. -/
structure AofInfo.Ok (aofFilename : Bytes) (type : UInt8) (ai : AofInfo) : Prop where
  name : ∃ suffix, ai.fileName = some (aofFilename ++ suffix) ∧ suffix.length ≤ 30 ∧
    ∀ c ∈ suffix, IsPlain c ∧ c ≠ 47
  seq_pos : 0 < ai.fileSeq
  seq_le : ai.fileSeq < 2 ^ 63
  type_eq : ai.fileType = type
  start : IsLongLong ai.startOffset
  stop : IsLongLong ai.endOffset

/-- What holds for every manifest that is made by the operations. -/
structure AofManifest.Ok (aofFilename : Bytes) (am : AofManifest) : Prop where
  base : ∀ ai ∈ am.baseAofInfo, ai.Ok aofFilename aofFileTypeBase
  history : ∀ ai ∈ am.historyAofList, ai.Ok aofFilename aofFileTypeHist
  incr : ∀ ai ∈ am.incrAofList, ai.Ok aofFilename aofFileTypeIncr
  sorted : am.incrAofList.Pairwise fun ai aj => ai.fileSeq < aj.fileSeq
  seq_le : ∀ ai ∈ am.incrAofList, ai.fileSeq ≤ am.currIncrFileSeq
  base_nonneg : 0 ≤ am.currBaseFileSeq
  incr_nonneg : 0 ≤ am.currIncrFileSeq

/-- The offsets of an operation are of type `long long`. -/
def ManifestOp.Ok : ManifestOp → Prop
  | .newIncr start => IsLongLong start
  | .setEnd endOffset => IsLongLong endOffset
  | _ => True

section Operations

variable {aofFilename : Bytes} {am am' : AofManifest}

lemma nextSeq_eq_some {seq seq' : ℤ} (h : nextSeq seq = some seq') (hnonneg : 0 ≤ seq) :
    seq' = seq + 1 ∧ 0 < seq' ∧ seq' < 2 ^ 63 := by
  unfold nextSeq at h
  split_ifs at h with hle
  cases h
  have hmax : (llongMax : ℤ) = 2 ^ 63 - 1 := by norm_num [llongMax]
  exact ⟨rfl, by omega, by omega⟩

/-- The suffix of a new file name. -/
lemma suffix_ok {seq : ℤ} (hpos : 0 < seq) (hlt : seq < 2 ^ 63) {format : Bytes}
    (hformat : ∀ c ∈ format, IsPlain c ∧ c ≠ 47) (hlen : format.length ≤ 9) :
    (46 :: signedDecimal seq ++ format).length ≤ 30 ∧
      ∀ c ∈ 46 :: signedDecimal seq ++ format, IsPlain c ∧ c ≠ 47 := by
  constructor
  · have hdec : (decimal seq.natAbs).length ≤ 20 := length_decimal_le (by decide) (by omega)
    have : signedDecimal seq = decimal seq.natAbs := if_neg (by omega)
    simp only [length_append, length_cons, this]
    omega
  · intro c hc
    have hslash : ∀ c : UInt8, IsDigit c → c ≠ 47 := by decide +kernel
    rcases mem_append.mp hc with hc | hc
    · rcases mem_cons.mp hc with rfl | hc
      · decide
      · refine ⟨isPlain_of_mem_signedDecimal hc, ?_⟩
        rw [signedDecimal, if_neg (by omega)] at hc
        exact hslash c (isDigit_of_mem_decimal hc)
    · exact hformat c hc

lemma baseFileSuffix_ok : ∀ rdb, (∀ c ∈ baseFileSuffix rdb, IsPlain c ∧ c ≠ 47) ∧
    (baseFileSuffix rdb).length ≤ 9 := by
  decide +kernel

lemma incrFileSuffix_ok : (∀ c ∈ incrFileSuffix, IsPlain c ∧ c ≠ 47) ∧
    incrFileSuffix.length ≤ 9 := by
  decide +kernel

lemma isLongLong_neg_one : IsLongLong (-1) := by
  constructor <;> norm_num

lemma AofInfo.Ok.toHistory {type : UInt8} {ai : AofInfo} (h : ai.Ok aofFilename type) :
    { ai with fileType := aofFileTypeHist }.Ok aofFilename aofFileTypeHist :=
  ⟨h.name, h.seq_pos, h.seq_le, rfl, h.start, h.stop⟩

lemma AofManifest.Ok.newBase (h : am.Ok aofFilename) {rdb : Bool}
    (hstep : getNewBaseFileNameAndMarkPreAsHistory aofFilename rdb am = some am') :
    am'.Ok aofFilename := by
  unfold getNewBaseFileNameAndMarkPreAsHistory at hstep
  simp only [bind_eq_bind, bind_eq_some_iff] at hstep
  obtain ⟨history, hhistory, seq, hseq, heq⟩ := hstep
  cases heq
  obtain ⟨-, hpos, hlt⟩ := nextSeq_eq_some hseq h.base_nonneg
  have hsuffix := suffix_ok hpos hlt (baseFileSuffix_ok rdb).1 (baseFileSuffix_ok rdb).2
  refine ⟨?_, ?_, h.incr, h.sorted, h.seq_le, hpos.le, h.incr_nonneg⟩
  · intro ai hai
    cases hai
    exact ⟨⟨_, by rw [append_assoc], hsuffix⟩, hpos, hlt, rfl, isLongLong_neg_one,
      isLongLong_neg_one⟩
  · cases hbase : am.baseAofInfo with
    | none =>
      rw [hbase] at hhistory
      cases hhistory
      exact h.history
    | some old =>
      rw [hbase, elim_some] at hhistory
      split_ifs at hhistory
      cases hhistory
      intro ai hai
      rcases mem_cons.mp hai with rfl | hai
      · exact (h.base old hbase).toHistory
      · exact h.history ai hai

lemma AofManifest.Ok.newIncr (h : am.Ok aofFilename) {start : ℤ} (hstart : IsLongLong start)
    (hstep : getNewIncrAofName aofFilename start am = some am') : am'.Ok aofFilename := by
  unfold getNewIncrAofName at hstep
  simp only [bind_eq_bind, bind_eq_some_iff] at hstep
  obtain ⟨seq, hseq, heq⟩ := hstep
  cases heq
  obtain ⟨hsucc, hpos, hlt⟩ := nextSeq_eq_some hseq h.incr_nonneg
  have hsuffix := suffix_ok hpos hlt incrFileSuffix_ok.1 incrFileSuffix_ok.2
  refine ⟨h.base, h.history, ?_, ?_, ?_, h.base_nonneg, hpos.le⟩
  · intro ai hai
    rcases mem_append.mp hai with hai | hai
    · exact h.incr ai hai
    · obtain rfl := mem_singleton.mp hai
      exact ⟨⟨_, by rw [append_assoc], hsuffix⟩, hpos, hlt, rfl, hstart, isLongLong_neg_one⟩
  · refine pairwise_append.mpr ⟨h.sorted, pairwise_singleton _ _, fun ai hai aj haj => ?_⟩
    obtain rfl := mem_singleton.mp haj
    have := h.seq_le ai hai
    dsimp only
    omega
  · intro ai hai
    rcases mem_append.mp hai with hai | hai
    · have := h.seq_le ai hai
      dsimp only
      omega
    · obtain rfl := mem_singleton.mp hai
      exact le_rfl

lemma AofManifest.Ok.setEnd (h : am.Ok aofFilename) {endOffset : ℤ} (hend : IsLongLong endOffset) :
    (updateCurIncrAofEndOffset endOffset am).Ok aofFilename := by
  unfold updateCurIncrAofEndOffset
  rcases eq_nil_or_concat' am.incrAofList with hnil | ⟨init, last, hlist⟩
  · simp only [hnil]
    exact ⟨h.base, h.history, by simp, by simp, by simp, h.base_nonneg, h.incr_nonneg⟩
  · have hincr := h.incr
    have hsorted := h.sorted
    have hle := h.seq_le
    simp only [hlist, dropLast_concat, getLast?_concat] at hincr hsorted hle ⊢
    have hlast := hincr last (by simp)
    refine ⟨h.base, h.history, ?_, ?_, ?_, h.base_nonneg, h.incr_nonneg⟩
    · intro ai hai
      rcases mem_append.mp hai with hmem | hmem
      · exact hincr ai (mem_append_left _ hmem)
      · obtain rfl := mem_singleton.mp hmem
        exact ⟨hlast.name, hlast.seq_pos, hlast.seq_le, hlast.type_eq, hlast.start, hend⟩
    · obtain ⟨hinit, -, hbelow⟩ := pairwise_append.mp hsorted
      refine pairwise_append.mpr ⟨hinit, pairwise_singleton _ _, fun ai hai aj haj => ?_⟩
      obtain rfl := mem_singleton.mp haj
      exact hbelow ai hai last (mem_singleton_self _)
    · intro ai hai
      rcases mem_append.mp hai with hmem | hmem
      · exact hle ai (mem_append_left _ hmem)
      · obtain rfl := mem_singleton.mp hmem
        exact hle last (by simp)

lemma moveToHistory_ok {history rest history' : List AofInfo}
    (hhistory : ∀ ai ∈ history, ai.Ok aofFilename aofFileTypeHist)
    (hrest : ∀ ai ∈ rest, ai.Ok aofFilename aofFileTypeIncr)
    (h : moveToHistory history rest = some history') :
    ∀ ai ∈ history', ai.Ok aofFilename aofFileTypeHist := by
  induction rest generalizing history with
  | nil =>
    cases h
    exact hhistory
  | cons first rest ih =>
    rw [moveToHistory] at h
    split_ifs at h
    refine ih (fun ai hai => ?_) (fun ai hai => hrest ai (mem_cons_of_mem _ hai)) h
    rcases mem_cons.mp hai with rfl | hai
    · exact (hrest first mem_cons_self).toHistory
    · exact hhistory ai hai

lemma AofManifest.Ok.markHistory (h : am.Ok aofFilename) {aofOpen : Bool}
    (hstep : markRewrittenIncrAofAsHistory aofOpen am = some am') : am'.Ok aofFilename := by
  unfold markRewrittenIncrAofAsHistory at hstep
  simp only [bind_eq_bind, bind_eq_some_iff] at hstep
  obtain ⟨history, hhistory, heq⟩ := hstep
  cases heq
  have hkept : ∀ ai, ai ∈ (if aofOpen then am.incrAofList.reverse.take 1 else []) →
      ai ∈ am.incrAofList := by
    intro ai hai
    split_ifs at hai
    · exact mem_reverse.mp (mem_of_mem_take hai)
    · exact absurd hai not_mem_nil
  have hsorted : (if aofOpen then am.incrAofList.reverse.take 1 else []).Pairwise
      fun ai aj => ai.fileSeq < aj.fileSeq := by
    split_ifs
    · cases am.incrAofList.reverse with
      | nil => exact List.Pairwise.nil
      | cons ai rest => exact pairwise_singleton _ _
    · exact List.Pairwise.nil
  refine ⟨h.base, moveToHistory_ok h.history (fun ai hai => ?_) hhistory,
    fun ai hai => h.incr ai (hkept ai hai), hsorted, fun ai hai => h.seq_le ai (hkept ai hai),
    h.base_nonneg, h.incr_nonneg⟩
  exact h.incr ai (mem_reverse.mp (mem_of_mem_drop hai))

/-- Every change of the manifest keeps it valid. -/
lemma AofManifest.Ok.step (h : am.Ok aofFilename) {op : ManifestOp} (hop : op.Ok)
    (hstep : op.step aofFilename am = some am') : am'.Ok aofFilename := by
  cases op with
  | newBase rdb => exact h.newBase hstep
  | newIncr start => exact h.newIncr hop hstep
  | setEnd endOffset =>
    cases hstep
    exact h.setEnd hop
  | markHistory aofOpen => exact h.markHistory hstep
  | upgrade =>
    cases hstep
    refine ⟨?_, h.history, h.incr, h.sorted, h.seq_le, Int.zero_le_ofNat 1, h.incr_nonneg⟩
    intro ai hai
    cases hai
    exact ⟨⟨[], by rw [append_nil], by decide, by simp⟩, Int.one_pos, by norm_num, rfl,
      isLongLong_neg_one, isLongLong_neg_one⟩
  | delHistory =>
    unfold ManifestOp.step aofDelHistoryFiles at hstep
    split_ifs at hstep
    cases hstep
    exact ⟨h.base, by simp, h.incr, h.sorted, h.seq_le, h.base_nonneg, h.incr_nonneg⟩

/-- Every manifest that is made by the operations is valid. -/
lemma AofManifest.Ok.of_run {ops : List ManifestOp} (hops : ∀ op ∈ ops, op.Ok)
    (hrun : runSteps (ManifestOp.step aofFilename) aofManifestCreate ops = some am) :
    am.Ok aofFilename := by
  have hall : ∀ am0 : AofManifest, am0.Ok aofFilename →
      runSteps (ManifestOp.step aofFilename) am0 ops = some am → am.Ok aofFilename := by
    clear hrun
    induction ops with
    | nil =>
      intro am0 h hrun
      cases hrun
      exact h
    | cons op ops ih =>
      intro am0 h hrun
      rw [runSteps_cons, bind_eq_some_iff] at hrun
      obtain ⟨am1, hstep, hrest⟩ := hrun
      exact ih (fun op' hop' => hops op' (mem_cons_of_mem _ hop')) am1
        (h.step (hops op mem_cons_self) hstep) hrest
  exact hall aofManifestCreate
    ⟨by simp [aofManifestCreate], by simp [aofManifestCreate], by simp [aofManifestCreate],
      by simp [aofManifestCreate], by simp [aofManifestCreate], le_rfl, le_rfl⟩ hrun

end Operations

/-! ### A line -/

/-- The names that are read back: those that are quoted, and those without a single quote. -/
def NameReadable (name : Bytes) : Prop := sdsneedsrepr name ∨ 39 ∉ name

instance (name : Bytes) : Decidable (NameReadable name) := inferInstanceAs (Decidable (_ ∨ _))

/-- The line of a file after its name. -/
def aofInfoFormatRest (ai : AofInfo) : Bytes :=
  aofManifestKeyFileSeq ++ 32 :: (signedDecimal ai.fileSeq ++
    32 :: (aofManifestKeyFileType ++ 32 :: (ai.fileType :: aofInfoFormatOffsets ai)))

/-- The arguments in a line after the name. -/
def aofInfoArgs (ai : AofInfo) : List Bytes :=
  [aofManifestKeyFileSeq, signedDecimal ai.fileSeq, aofManifestKeyFileType, [ai.fileType]] ++
    if ai.startOffset ≠ -1 then
      [aofManifestKeyFileStartoffset, signedDecimal ai.startOffset] ++
        if ai.endOffset ≠ -1 then [aofManifestKeyFileEndoffset, signedDecimal ai.endOffset] else []
    else []

/-- The file that is read from the line of `ai` if its name is read as `name`. -/
def AofInfo.readBack (ai : AofInfo) (name : Bytes) : AofInfo :=
  { ai with
    fileName := some name
    endOffset := if ai.startOffset = -1 then -1 else ai.endOffset }

/-- A line is read again. -/
def AofInfo.reread (ai : AofInfo) : Option AofInfo := aofInfoParse (aofInfoFormat ai ++ [10])

section Line

variable {aofFilename : Bytes} {type : UInt8} {ai : AofInfo}

/-- The keys of a line. -/
def aofManifestKeys : List Bytes :=
  [aofManifestKeyFileName, aofManifestKeyFileSeq, aofManifestKeyFileType,
    aofManifestKeyFileStartoffset, aofManifestKeyFileEndoffset]

lemma aofManifestKeys_plain : ∀ key ∈ aofManifestKeys, key ≠ [] ∧ ∀ c ∈ key, IsPlain c := by
  decide +kernel

lemma tokenText_key {key : Bytes} (h : key ∈ aofManifestKeys) : TokenText key key :=
  tokenText_plain (aofManifestKeys_plain key h).1 (aofManifestKeys_plain key h).2

/-- The arguments after the name. -/
lemma argsLine_rest (htype : IsPlain ai.fileType) :
    ArgsLine (aofInfoFormatRest ai) (aofInfoArgs ai) := by
  have htypeText : TokenText [ai.fileType] [ai.fileType] :=
    tokenText_plain (cons_ne_nil _ _) fun c hc => by rwa [mem_singleton.mp hc]
  have hstart : aofManifestKeyFileStartoffset ∈ aofManifestKeys := by simp [aofManifestKeys]
  have hend : aofManifestKeyFileEndoffset ∈ aofManifestKeys := by simp [aofManifestKeys]
  unfold aofInfoFormatRest aofInfoArgs
  refine .cons (tokenText_key (by simp [aofManifestKeys])) (.cons (tokenText_signedDecimal _)
    (.cons (tokenText_key (by simp [aofManifestKeys])) ?_))
  unfold aofInfoFormatOffsets
  by_cases hs : ai.startOffset = -1
  · simpa [hs] using ArgsLine.one htypeText
  · by_cases he : ai.endOffset = -1
    · simpa [hs, he] using ArgsLine.cons htypeText (.cons (tokenText_key hstart)
        (.one (tokenText_signedDecimal ai.startOffset)))
    · simpa [hs, he] using ArgsLine.cons htypeText (.cons (tokenText_key hstart)
        (.cons (tokenText_signedDecimal ai.startOffset) (.cons (tokenText_key hend)
          (.one (tokenText_signedDecimal ai.endOffset)))))

lemma aofInfoReadArgs_rest (ai ai' : AofInfo) :
    aofInfoReadArgs ai' (aofInfoArgs ai) = some { ai' with
      fileSeq := ai.fileSeq
      fileType := ai.fileType
      startOffset := if ai.startOffset = -1 then ai'.startOffset else ai.startOffset
      endOffset := if ai.startOffset = -1 ∨ ai.endOffset = -1 then ai'.endOffset
        else ai.endOffset } := by
  have hseq : ∀ ai'' v, aofInfoReadArg ai'' aofManifestKeyFileSeq v =
      some { ai'' with fileSeq := atoll v } := fun _ _ => rfl
  have htype : ∀ ai'' v, aofInfoReadArg ai'' aofManifestKeyFileType v =
      some { ai'' with fileType := v.headD 0 } := fun _ _ => rfl
  have hstart : ∀ ai'' v, aofInfoReadArg ai'' aofManifestKeyFileStartoffset v =
      some { ai'' with startOffset := atoll v } := fun _ _ => rfl
  have hend : ∀ ai'' v, aofInfoReadArg ai'' aofManifestKeyFileEndoffset v =
      some { ai'' with endOffset := atoll v } := fun _ _ => rfl
  unfold aofInfoArgs
  by_cases hs : ai.startOffset = -1
  · simp [hs, aofInfoReadArgs, hseq, htype, atoll_signedDecimal]
  · by_cases he : ai.endOffset = -1
    · simp [hs, he, aofInfoReadArgs, hseq, htype, hstart, atoll_signedDecimal]
    · simp [hs, he, aofInfoReadArgs, hseq, htype, hstart, hend, atoll_signedDecimal]

/-- The characters of a line after the name. -/
lemma aofInfoFormatRest_plain (htype : IsPlain ai.fileType) :
    ∀ c ∈ aofInfoFormatRest ai, c = 32 ∨ IsPlain c := by
  have hkey : ∀ key ∈ aofManifestKeys, ∀ c ∈ key, c = 32 ∨ IsPlain c := fun key hmem c hc =>
    .inr ((aofManifestKeys_plain key hmem).2 c hc)
  simp only [aofManifestKeys, forall_mem_cons] at hkey
  obtain ⟨-, hseq, hkeyType, hstart, hend, -⟩ := hkey
  have hdec : ∀ v, ∀ c ∈ signedDecimal v, c = 32 ∨ IsPlain c := fun v c hc =>
    .inr (isPlain_of_mem_signedDecimal hc)
  have hoffsets : ∀ c ∈ aofInfoFormatOffsets ai, c = 32 ∨ IsPlain c := by
    unfold aofInfoFormatOffsets
    split_ifs
    · simp only [forall_mem_append, forall_mem_cons]
      exact ⟨⟨⟨.inl trivial, hstart⟩, .inl trivial, hdec _⟩, ⟨.inl trivial, hend⟩,
        .inl trivial, hdec _⟩
    · simp only [append_nil, forall_mem_append, forall_mem_cons]
      exact ⟨⟨.inl trivial, hstart⟩, .inl trivial, hdec _⟩
    · exact fun c hc => absurd hc not_mem_nil
  unfold aofInfoFormatRest
  simp only [forall_mem_append, forall_mem_cons]
  exact ⟨hseq, .inl trivial, hdec _, .inl trivial, hkeyType, .inl trivial, .inr htype, hoffsets⟩

/-- A line ends with a character that is not trimmed. -/
lemma exists_last_plain (htype : IsPlain ai.fileType) :
    ∃ init c, aofInfoFormatRest ai = init ++ [c] ∧ IsPlain c := by
  have hsuffix : ∀ init text : Bytes, text ≠ [] → (∀ c ∈ text, IsPlain c) →
      ∃ init' c, init ++ text = init' ++ [c] ∧ IsPlain c := by
    intro init text hne hplain
    refine ⟨init ++ text.dropLast, text.getLast hne, ?_, hplain _ (getLast_mem hne)⟩
    rw [append_assoc, dropLast_append_getLast]
  have hrest : ∃ init c, ai.fileType :: aofInfoFormatOffsets ai = init ++ [c] ∧ IsPlain c := by
    unfold aofInfoFormatOffsets
    split_ifs
    · have := hsuffix (ai.fileType :: (32 :: aofManifestKeyFileStartoffset ++
          32 :: signedDecimal ai.startOffset ++ 32 :: aofManifestKeyFileEndoffset ++ [32])) _
        (signedDecimal_ne_nil ai.endOffset) fun _ => isPlain_of_mem_signedDecimal
      simpa using this
    · have := hsuffix (ai.fileType :: (32 :: aofManifestKeyFileStartoffset ++ [32])) _
        (signedDecimal_ne_nil ai.startOffset) fun _ => isPlain_of_mem_signedDecimal
      simpa using this
    · exact ⟨[], ai.fileType, rfl, htype⟩
  obtain ⟨init, c, hinit, hc⟩ := hrest
  refine ⟨aofManifestKeyFileSeq ++ 32 :: (signedDecimal ai.fileSeq ++
    32 :: (aofManifestKeyFileType ++ 32 :: init)), c, ?_, hc⟩
  rw [aofInfoFormatRest, hinit]
  simp

lemma aofInfoFormat_eq (ai : AofInfo) : aofInfoFormat ai = aofManifestKeyFileName ++
    32 :: (fileNameRepr (ai.fileName.getD []) ++ 32 :: aofInfoFormatRest ai) := rfl

/-- The newline is trimmed off. -/
lemma sdstrim_aofInfoFormat (htype : IsPlain ai.fileType) :
    sdstrim (aofInfoFormat ai ++ [10]) [32, 9, 13, 10] = aofInfoFormat ai := by
  have hset : ∀ c : UInt8, IsPlain c → c ∉ ([32, 9, 13, 10] : Bytes) := by decide +kernel
  obtain ⟨init, c, hinit, hc⟩ := exists_last_plain htype
  have hline : ∃ init', aofInfoFormat ai = init' ++ [c] :=
    ⟨aofManifestKeyFileName ++ 32 :: (fileNameRepr (ai.fileName.getD []) ++ 32 :: init), by
      rw [aofInfoFormat_eq, hinit]
      simp⟩
  have hfirst : (aofInfoFormat ai ++ [10]).dropWhile (· ∈ ([32, 9, 13, 10] : Bytes)) =
      aofInfoFormat ai ++ [10] := by
    exact dropWhile_cons_of_neg (by decide)
  obtain ⟨init', hline⟩ := hline
  rw [sdstrim, hfirst, rdropWhile_concat_pos _ _ _ (by decide), hline,
    rdropWhile_concat_neg _ _ _ (by simpa using hset c hc)]

lemma cString_of_no_zero {s : Bytes} (h : 0 ∉ s) : cString s = s :=
  takeWhile_eq_self_iff.mpr fun c hc => by
    simpa using fun hzero : c = 0 => h (hzero ▸ hc)

lemma map_cString_aofInfoArgs (htype : IsPlain ai.fileType) :
    (aofInfoArgs ai).map cString = aofInfoArgs ai := by
  have hplain : ∀ s : Bytes, (∀ c ∈ s, IsPlain c) → cString s = s := fun s hs =>
    cString_of_no_zero fun hzero => absurd (hs 0 hzero) (by decide)
  have hdec : ∀ v, cString (signedDecimal v) = signedDecimal v := fun v =>
    hplain _ fun c => isPlain_of_mem_signedDecimal
  have hkey : ∀ key ∈ aofManifestKeys, cString key = key := fun key hmem =>
    hplain _ (aofManifestKeys_plain key hmem).2
  have htype' : cString [ai.fileType] = [ai.fileType] :=
    hplain _ fun c hc => by rwa [mem_singleton.mp hc]
  simp only [aofManifestKeys, forall_mem_cons] at hkey
  obtain ⟨-, hseq, hkeyType, hstart, hend, -⟩ := hkey
  unfold aofInfoArgs
  split_ifs <;> simp only [map_append, map_cons, map_nil, hdec, htype', hseq,
    hkeyType, hstart, hend]

/-- The line of a file is read with the token that stands for its name. -/
lemma AofInfo.reread_of_split (hseq : ai.fileSeq ≠ 0) (htype : IsPlain ai.fileType)
    {token : Bytes} (hsplit : sdssplitargs (aofInfoFormat ai) =
      some (aofManifestKeyFileName :: token :: aofInfoArgs ai)) :
    ai.reread = if pathIsBaseName (cString token) then some (ai.readBack (cString token))
      else none := by
  have hzero : ai.fileType ≠ 0 := fun hc => absurd htype (by rw [hc]; decide)
  have hargs : ¬ ((aofManifestKeyFileName :: token :: aofInfoArgs ai).length < 6 ∨
      (aofManifestKeyFileName :: token :: aofInfoArgs ai).length % 2 = 1) := by
    unfold aofInfoArgs
    split_ifs <;> simp
  have hne : aofInfoFormat ai ≠ [] := by
    exact cons_ne_nil _ _
  have hread : aofInfoReadArgs aofInfoCreate
      ((aofManifestKeyFileName :: token :: aofInfoArgs ai).map cString) =
      if pathIsBaseName (cString token) then some (ai.readBack (cString token)) else none := by
    rw [map_cons, map_cons, map_cString_aofInfoArgs htype, aofInfoReadArgs]
    have hname : aofInfoReadArg aofInfoCreate (cString aofManifestKeyFileName) (cString token) =
        if pathIsBaseName (cString token) then
          some { aofInfoCreate with fileName := some (cString token) } else none := rfl
    rw [hname]
    split_ifs
    · rw [bind_some, aofInfoReadArgs_rest]
      unfold AofInfo.readBack aofInfoCreate
      by_cases hs : ai.startOffset = -1 <;> by_cases he : ai.endOffset = -1 <;> simp [hs, he]
    · rfl
  unfold AofInfo.reread aofInfoParse
  rw [if_neg (by simp)]
  simp only [sdstrim_aofInfoFormat htype, if_neg hne, hsplit, bind_eq_bind,
    bind_some, if_neg hargs, hread]
  split_ifs
  · exact if_neg (by simp [AofInfo.readBack, hseq, hzero])
  · rfl

section

variable (hfile : AofFilename aofFilename) (h : ai.Ok aofFilename type) (htype : IsPlain type)
include hfile h htype

/-- The two ways in which the line of a valid file is read: the file with the end offset that was
written, or no file or one with another name. -/
lemma AofInfo.Ok.reread_cases :
    (NameReadable aofFilename ∧ ai.reread = some (ai.readBack (ai.fileName.getD []))) ∨
      (¬ NameReadable aofFilename ∧ (ai.reread = none ∨
        ∃ name, some name ≠ ai.fileName ∧ ai.reread = some (ai.readBack name))) := by
  obtain ⟨suffix, hname, -, hsuffix⟩ := h.name
  have hplain : ∀ c ∈ suffix, ¬ charNeedsRepr c ∧ c ≠ 39 := fun c hc => (hsuffix c hc).1
  have hrepr : sdsneedsrepr (aofFilename ++ suffix) = sdsneedsrepr aofFilename := by
    have hno : suffix.any charNeedsRepr = false := by
      rw [any_eq_false]
      exact fun c hc => (hplain c hc).1
    rw [sdsneedsrepr, any_append, hno, Bool.or_false, sdsneedsrepr]
  have hquote : 39 ∈ aofFilename ++ suffix ↔ 39 ∈ aofFilename := by
    rw [mem_append]
    exact ⟨fun hc => hc.resolve_right fun hc' => (hplain 39 hc').2 rfl, .inl⟩
  have hzero : 0 ∉ aofFilename ++ suffix := by
    rw [mem_append]
    rintro (hc | hc)
    · exact hfile.no_zero hc
    · exact (hplain 0 hc).1 (by decide)
  have hpath : pathIsBaseName (aofFilename ++ suffix) := by
    have hbase := of_decide_eq_true hfile.base_name
    refine decide_eq_true ⟨fun hc => ?_, fun hc => ?_⟩
    · rcases mem_append.mp hc with hc | hc
      · exact hbase.1 hc
      · exact (hsuffix 47 hc).2 rfl
    · rcases mem_append.mp hc with hc | hc
      · exact hbase.2 hc
      · exact (hplain 92 hc).1 (by decide)
  have htype' : IsPlain ai.fileType := h.type_eq ▸ htype
  have hrest := (argsLine_rest htype').sdssplitargs_eq
  have hformat : sdssplitargs (aofInfoFormat ai) =
      (sdssplitargs (fileNameRepr (aofFilename ++ suffix) ++ 32 :: aofInfoFormatRest ai)).map
        (aofManifestKeyFileName :: ·) := by
    rw [aofInfoFormat_eq, hname]
    exact (tokenText_key (by simp [aofManifestKeys])).sdssplitargs_append _
  by_cases hread : NameReadable aofFilename
  · refine .inl ⟨hread, ?_⟩
    have htoken : TokenText (fileNameRepr (aofFilename ++ suffix)) (aofFilename ++ suffix) := by
      unfold fileNameRepr
      split_ifs with hneeds
      · exact tokenText_repr _
      · refine tokenText_plain (by simp [hfile.ne_nil]) fun c hc => ⟨fun hc' => ?_, fun hc' => ?_⟩
        · exact hneeds (any_eq_true.mpr ⟨c, hc, hc'⟩)
        · rw [hrepr] at hneeds
          exact hread.resolve_left hneeds (hquote.mp (hc' ▸ hc))
    rw [htoken.sdssplitargs_append, hrest] at hformat
    rw [AofInfo.reread_of_split h.seq_pos.ne' htype' hformat, cString_of_no_zero hzero,
      if_pos hpath, hname, getD_some]
  · refine .inr ⟨hread, ?_⟩
    rw [NameReadable, not_or, not_not] at hread
    have hraw : fileNameRepr (aofFilename ++ suffix) = aofFilename ++ suffix :=
      if_neg (by rw [hrepr]; exact hread.1)
    have hnoquote : 39 ∉ aofInfoFormatRest ai := fun hc => by
      rcases aofInfoFormatRest_plain htype' 39 hc with hc' | hc'
      · exact absurd hc' (by decide)
      · exact hc'.2 rfl
    rw [hraw] at hformat
    rcases sdssplitargs_quote (by rw [hrepr]; exact hread.1) (hquote.mpr hread.2) hnoquote with
      hnone | ⟨token, hlen, hsome⟩
    · left
      rw [hnone] at hformat
      unfold AofInfo.reread aofInfoParse
      rw [if_neg (by simp)]
      have hne : aofInfoFormat ai ≠ [] := by
        exact cons_ne_nil _ _
      simp only [sdstrim_aofInfoFormat htype', if_neg hne, hformat]
      rfl
    · rw [hsome, hrest] at hformat
      rw [AofInfo.reread_of_split h.seq_pos.ne' htype' hformat]
      split_ifs
      · refine .inr ⟨cString token, fun hc => ?_, rfl⟩
        rw [hname] at hc
        have hle : (cString token).length ≤ token.length := ( takeWhile_prefix _).length_le
        have := congrArg length (some.inj hc)
        omega
      · exact .inl rfl

/-- A line is read back exactly if the name can be read and the end offset is not without a start
offset. -/
lemma AofInfo.Ok.reread_eq_self_iff :
    ai.reread = some ai ↔
      NameReadable aofFilename ∧ (ai.startOffset = -1 → ai.endOffset = -1) := by
  obtain ⟨suffix, hname, -⟩ := h.name
  rcases h.reread_cases hfile htype with ⟨hread, heq⟩ | ⟨hread, hcases⟩
  · rw [heq, some_inj]
    constructor
    · intro hself
      refine ⟨hread, fun hs => ?_⟩
      have := congrArg AofInfo.endOffset hself
      rw [← this]
      exact if_pos hs
    · rintro ⟨-, hend⟩
      unfold AofInfo.readBack
      rw [hname, getD_some, ← hname]
      by_cases hs : ai.startOffset = -1
      · rw [if_pos hs, ← hend hs]
      · rw [if_neg hs]
  · refine iff_of_false (fun hself => ?_) fun hc => hread hc.1
    rcases hcases with hnone | ⟨name, hne, hsome⟩
    · rw [hnone] at hself
      cases hself
    · rw [hsome] at hself
      exact hne (congrArg AofInfo.fileName (some.inj hself))

/-- The sequence number and the type are always read back. -/
lemma AofInfo.Ok.reread_seq_type {ai' : AofInfo} (hread : ai.reread = some ai') :
    ai'.fileSeq = ai.fileSeq ∧ ai'.fileType = type := by
  have hback : ∀ name, some (ai.readBack name) = some ai' →
      ai'.fileSeq = ai.fileSeq ∧ ai'.fileType = type := by
    intro name heq
    cases heq
    exact ⟨rfl, h.type_eq⟩
  rcases h.reread_cases hfile htype with ⟨-, heq⟩ | ⟨-, hnone | ⟨name, -, hsome⟩⟩
  · exact hback _ (heq.symm.trans hread)
  · rw [hnone] at hread
    cases hread
  · exact hback _ (hsome.symm.trans hread)

end

lemma length_reprChar_le : ∀ c, (reprChar c).length ≤ 4 := by
  decide +kernel

lemma length_reprChar_plain : ∀ c, IsPlain c → (reprChar c).length = 1 := by
  decide +kernel

lemma newline_notMem_reprChar : ∀ c, 10 ∉ reprChar c := by
  decide +kernel

/-- Only the characters of `aofFilename` can take more than one character in quotes. -/
lemma length_fileNameRepr_le (aofFilename : Bytes) {suffix : Bytes}
    (hsuffix : ∀ c ∈ suffix, IsPlain c) :
    (fileNameRepr (aofFilename ++ suffix)).length ≤ 4 * aofFilename.length + suffix.length + 2 := by
  have hname : (aofFilename.flatMap reprChar).length ≤ 4 * aofFilename.length := by
    induction aofFilename with
    | nil => exact le_rfl
    | cons c name ih =>
      have := length_reprChar_le c
      rw [flatMap_cons, length_append, length_cons]
      omega
  have hrest : (suffix.flatMap reprChar).length = suffix.length := by
    induction suffix with
    | nil => rfl
    | cons c suffix ih =>
      rw [flatMap_cons, length_append, length_cons,
        length_reprChar_plain c (hsuffix c mem_cons_self),
        ih fun c' hc' => hsuffix c' (mem_cons_of_mem _ hc'), Nat.add_comm]
  unfold fileNameRepr sdscatrepr
  split_ifs
  · simp only [flatMap_append, length_append, length_cons, length_nil]
    omega
  · rw [length_append]
    omega

/-- A name in a line holds no newline. -/
lemma newline_notMem_fileNameRepr (name : Bytes) : 10 ∉ fileNameRepr name := by
  unfold fileNameRepr
  split_ifs with hneeds
  · simp only [sdscatrepr, mem_append, mem_flatMap]
    rintro ((hc | ⟨c, -, hc⟩) | hc)
    · exact absurd hc (by decide)
    · exact newline_notMem_reprChar c hc
    · exact absurd hc (by decide)
  · exact fun hc => hneeds (any_eq_true.mpr ⟨10, hc, by decide⟩)

/-- The part of a line after the name is short. -/
lemma AofInfo.Ok.length_rest_le (h : ai.Ok aofFilename type) :
    (aofInfoFormatRest ai).length ≤ 120 := by
  have hpos := h.seq_pos
  have hle := h.seq_le
  have hseq := length_signedDecimal_le (v := ai.fileSeq) (by omega)
  have hstart := length_signedDecimal_le h.start.natAbs_lt
  have hend := length_signedDecimal_le h.stop.natAbs_lt
  have hoffsets : (aofInfoFormatOffsets ai).length ≤ 70 := by
    unfold aofInfoFormatOffsets
    split_ifs <;> simp [aofManifestKeyFileStartoffset, aofManifestKeyFileEndoffset] <;> omega
  simp only [aofInfoFormatRest, length_append, length_cons, aofManifestKeyFileSeq,
    aofManifestKeyFileType, length_nil]
  omega

/-- A line fits into the buffer, and its only newline is at its end. -/
lemma AofInfo.Ok.line (hfile : AofFilename aofFilename) (h : ai.Ok aofFilename type)
    (htype : IsPlain type) :
    10 ∉ aofInfoFormat ai ∧ (aofInfoFormat ai).length < manifestMaxLine := by
  have hrest := h.length_rest_le
  obtain ⟨suffix, hname, hlen, hsuffix⟩ := h.name
  have hrepr := length_fileNameRepr_le aofFilename fun c hc => (hsuffix c hc).1
  have hfilelen := hfile.length_le
  rw [aofInfoFormat_eq, hname, getD_some]
  constructor
  · simp only [mem_append, mem_cons, not_or]
    refine ⟨by decide, by decide, newline_notMem_fileNameRepr _, by decide, fun hc => ?_⟩
    rcases aofInfoFormatRest_plain (h.type_eq ▸ htype) 10 hc with hc' | hc'
    · exact absurd hc' (by decide)
    · exact absurd hc' (by decide)
  · simp only [length_append, length_cons, aofManifestKeyFileName, length_nil,
      manifestMaxLine]
    omega

end Line

end RainCall
