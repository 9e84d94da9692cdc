import RainCall.Foundation.ByteReader
import RainCall.Util.IntegerText

/-!
# Lengths and strings in RDB files

`rdb.c`: the length codec (`rdbSaveLen`, `rdbLoadLenByRef`, `rdbLoadLen`) and the string codec
(`rdbSaveRawString`, `rdbGenericLoadStringObject`). Saving gives the bytes written, and with the
suffix `Nwritten` the count the source returns for them; loading is a reader of bytes, which fails
where the source returns an error or reports a corrupt file.

A string is saved as an integer if it is the text of a small one, or compressed, or verbatim. The
LZF compression is a parameter.
-/

namespace RainCall

open Consumes UInt8

def rdb6BitLen : ℕ := 0

def rdb14BitLen : ℕ := 1

def rdb32BitLen : UInt8 := 0x80

def rdb64BitLen : UInt8 := 0x81

def rdbEncVal : ℕ := 3

/-- `RDB_LENERR`: what `rdbLoadLen` returns on error. -/
def rdbLenErr : ℕ := 2 ^ 64 - 1

def rdbEncInt8 : ℕ := 0

def rdbEncInt16 : ℕ := 1

def rdbEncInt32 : ℕ := 2

def rdbEncLzf : ℕ := 3

/-- The LZF compression. -/
structure Lzf where
  /-- `lzf_compress` into a buffer of the given size; no bytes if the result does not fit. -/
  compress : Bytes → ℕ → Bytes
  /-- `lzf_decompress` into a buffer of the given size; `none` if the input is invalid. -/
  decompress : Bytes → ℕ → Option Bytes
  length_compress : ∀ s outlen, (compress s outlen).length ≤ outlen
  decompress_compress : ∀ s outlen, compress s outlen ≠ [] →
    decompress (compress s outlen) s.length = some s

/-- What saving and loading depend on: `server.rdb_compression` and the compression. -/
structure RdbEnv where
  rdbCompression : Bool
  lzf : Lzf

/-! ## Lengths -/

def rdbSaveLen (len : ℕ) : Bytes :=
  if len < 1 <<< 6 then [UInt8.ofNat ((len &&& 0xFF) ||| rdb6BitLen <<< 6)]
  else if len < 1 <<< 14 then
    [UInt8.ofNat ((len >>> 8 &&& 0xFF) ||| rdb14BitLen <<< 6), UInt8.ofNat (len &&& 0xFF)]
  else if len ≤ 2 ^ 32 - 1 then rdb32BitLen :: beBytes 4 len
  else rdb64BitLen :: beBytes 8 len

/-- The count `rdbSaveLen` returns. -/
def rdbSaveLenNwritten (len : ℕ) : ℕ :=
  if len < 1 <<< 6 then 1
  else if len < 1 <<< 14 then 2
  else if len ≤ 2 ^ 32 - 1 then 1 + 4
  else 1 + 8

/-- The part of `rdbLoadLenByRef` after the first byte: whether the length describes an encoding,
and the length. -/
def rdbLoadLenTail (b : UInt8) : ByteReader (Bool × ℕ) :=
  let type := ((b &&& 0xC0) >>> 6).toNat
  if type = rdbEncVal then pure (true, (b &&& 0x3F).toNat)
  else if type = rdb6BitLen then pure (false, (b &&& 0x3F).toNat)
  else if type = rdb14BitLen then do
    let next ← ByteReader.take 1
    pure (false, (b &&& 0x3F).toNat <<< 8 ||| ofBeBytes next)
  else if b = rdb32BitLen then do
    let len ← ByteReader.take 4
    pure (false, ofBeBytes len)
  else if b = rdb64BitLen then do
    let len ← ByteReader.take 8
    pure (false, ofBeBytes len)
  else ByteReader.fail

def rdbLoadLenByRef : ByteReader (Bool × ℕ) := do
  let buf ← ByteReader.take 1
  rdbLoadLenTail (buf.headD 0)

/-- `rdbLoadLen`: an error is the length `RDB_LENERR`. -/
def rdbLoadLen : ByteReader (Bool × ℕ) := fun s =>
  match rdbLoadLenByRef s with
  | some r => some r
  | none => some ((false, rdbLenErr), s)

/-! ## Strings -/

/-- `rdbEncodeInteger`: no bytes if the value has no short form. -/
def rdbEncodeInteger (value : ℤ) : Bytes :=
  if value ≥ -(2 ^ 7) ∧ value ≤ 2 ^ 7 - 1 then
    UInt8.ofNat (rdbEncVal <<< 6 ||| rdbEncInt8) :: leSignedBytes 1 value
  else if value ≥ -(2 ^ 15) ∧ value ≤ 2 ^ 15 - 1 then
    UInt8.ofNat (rdbEncVal <<< 6 ||| rdbEncInt16) :: leSignedBytes 2 value
  else if value ≥ -(2 ^ 31) ∧ value ≤ 2 ^ 31 - 1 then
    UInt8.ofNat (rdbEncVal <<< 6 ||| rdbEncInt32) :: leSignedBytes 4 value
  else []

def rdbTryIntegerEncoding (s : Bytes) : Bytes :=
  match string2ll s with
  | some value => rdbEncodeInteger value
  | none => []

def rdbSaveLzfBlob (data : Bytes) (originalLen : ℕ) : Bytes :=
  UInt8.ofNat (rdbEncVal <<< 6 ||| rdbEncLzf) ::
    (rdbSaveLen data.length ++ rdbSaveLen originalLen ++ data)

/-- `rdbSaveLzfStringObject`: no bytes if the string is not compressed. -/
def rdbSaveLzfStringObject (lzf : Lzf) (s : Bytes) : Bytes :=
  if s.length ≤ 4 then []
  else
    let out := lzf.compress s (s.length - 4)
    if out.length = 0 then [] else rdbSaveLzfBlob out s.length

def rdbSaveRawString (env : RdbEnv) (s : Bytes) : Bytes :=
  let enc := if s.length ≤ 11 then rdbTryIntegerEncoding s else []
  if enc.length > 0 then enc
  else
    let lz := if env.rdbCompression ∧ s.length > 20 then rdbSaveLzfStringObject env.lzf s else []
    if lz.length > 0 then lz else rdbSaveLen s.length ++ s

def rdbSaveLzfBlobNwritten (data : Bytes) (originalLen : ℕ) : ℕ :=
  1 + rdbSaveLenNwritten data.length + rdbSaveLenNwritten originalLen + data.length

/-- The count `rdbSaveLzfStringObject` returns; `0` if the string is not compressed. -/
def rdbSaveLzfStringObjectNwritten (lzf : Lzf) (s : Bytes) : ℕ :=
  if s.length ≤ 4 then 0
  else
    let out := lzf.compress s (s.length - 4)
    if out.length = 0 then 0 else rdbSaveLzfBlobNwritten out s.length

def rdbSaveRawStringNwritten (env : RdbEnv) (s : Bytes) : ℕ :=
  let enclen := if s.length ≤ 11 then (rdbTryIntegerEncoding s).length else 0
  if enclen > 0 then enclen
  else
    let n := if env.rdbCompression ∧ s.length > 20 then rdbSaveLzfStringObjectNwritten env.lzf s
      else 0
    if n > 0 then n
    else rdbSaveLenNwritten s.length + if s.length > 0 then s.length else 0

/-- The flags of the string loader: `RDB_LOAD_NONE`, `RDB_LOAD_ENC`, `RDB_LOAD_PLAIN` and
`RDB_LOAD_SDS`. -/
inductive RdbLoad
  | none
  | enc
  | plain
  | sds
  deriving DecidableEq, Repr

/-- A loaded string: plain memory, an SDS string, or an object with an SDS string or an integer. -/
inductive RdbString
  | plain (bytes : Bytes)
  | sds (bytes : Bytes)
  | obj (bytes : Bytes)
  | objInt (val : ℤ)
  deriving DecidableEq, Repr

/-- The text of a loaded string. -/
def RdbString.text : RdbString → Bytes
  | .plain b => b
  | .sds b => b
  | .obj b => b
  | .objInt val => ll2string 32 val

/-- Whether a loaded string is of the form the flags ask for. -/
def RdbLoad.Gives : RdbLoad → RdbString → Prop
  | .plain, .plain _ => True
  | .sds, .sds _ => True
  | .none, .obj _ => True
  | .enc, .obj _ => True
  | .enc, .objInt _ => True
  | _, _ => False

/-- A string of bytes in the form the flags ask for. -/
def RdbLoad.ofBytes (b : Bytes) : RdbLoad → RdbString
  | .plain => .plain b
  | .sds => .sds b
  | .none => .obj b
  | .enc => .obj b

def rdbLoadIntegerObject (enctype : ℕ) (flags : RdbLoad) : ByteReader RdbString := do
  let enc ← ByteReader.take
    (if enctype = rdbEncInt8 then 1 else if enctype = rdbEncInt16 then 2 else 4)
  let val := ofLeSignedBytes enc
  pure (if flags = .enc then .objInt val else flags.ofBytes (ll2string longStrSize val))

def rdbLoadLzfStringObject (lzf : Lzf) (flags : RdbLoad) : ByteReader RdbString := do
  let clen ← rdbLoadLen
  if clen.2 = rdbLenErr then ByteReader.fail
  else
    let len ← rdbLoadLen
    if len.2 = rdbLenErr then ByteReader.fail
    else
      let c ← ByteReader.take clen.2
      let val ← ByteReader.lift (lzf.decompress c len.2)
      if val.length ≠ len.2 then ByteReader.fail else pure (flags.ofBytes val)

def rdbGenericLoadStringObject (env : RdbEnv) (flags : RdbLoad) : ByteReader RdbString := do
  let len ← rdbLoadLen
  if len.2 = rdbLenErr then ByteReader.fail
  else if len.1 then
    if len.2 = rdbEncInt8 ∨ len.2 = rdbEncInt16 ∨ len.2 = rdbEncInt32 then
      rdbLoadIntegerObject len.2 flags
    else if len.2 = rdbEncLzf then rdbLoadLzfStringObject env.lzf flags
    else ByteReader.fail
  else if len.2 = 0 then pure (flags.ofBytes [])
  else do
    let buf ← ByteReader.take len.2
    pure (flags.ofBytes buf)

/-! ## Loading what was saved -/

private lemma sixBit_byte : ∀ n < 64,
    ((ofNat ((n &&& 0xFF) ||| rdb6BitLen <<< 6) &&& 0xC0) >>> 6).toNat = rdb6BitLen ∧
      (ofNat ((n &&& 0xFF) ||| rdb6BitLen <<< 6) &&& 0x3F).toNat = n := by
  decide

private lemma fourteenBit_byte : ∀ n < 64,
    ((ofNat ((n &&& 0xFF) ||| rdb14BitLen <<< 6) &&& 0xC0) >>> 6).toNat = rdb14BitLen ∧
      (ofNat ((n &&& 0xFF) ||| rdb14BitLen <<< 6) &&& 0x3F).toNat = n := by
  decide

/-- Reading one byte and going on with it. -/
lemma consumes_cons {α : Type} {q : UInt8 → ByteReader α} {b : UInt8} {bs : Bytes} {v : α}
    (hq : Consumes (q b) bs v) :
    Consumes (do let buf ← ByteReader.take 1; q (buf.headD 0)) (b :: bs) v :=
  (take (b := [b]) rfl).bind_cons hq

/-- Every 64-bit number comes back from the length codec. -/
lemma rdbLoadLenByRef_rdbSaveLen {len : ℕ} (h : len < 2 ^ 64) :
    Consumes rdbLoadLenByRef (rdbSaveLen len) (false, len) := by
  unfold rdbSaveLen rdbLoadLenByRef
  split_ifs with h6 h14 h32
  · refine consumes_cons ?_
    obtain ⟨htype, hval⟩ := sixBit_byte len h6
    rw [rdbLoadLenTail, htype, if_neg (by decide), if_pos rfl, hval]
    exact pure _
  · refine consumes_cons ?_
    have hhigh : len >>> 8 < 64 := by
      omega
    obtain ⟨htype, hval⟩ := fourteenBit_byte (len >>> 8) hhigh
    have hlow : len &&& 0xFF = len % 256 := Nat.and_two_pow_sub_one_eq_mod _ 8
    have hlen : (len >>> 8) <<< 8 ||| ofBeBytes [ofNat (len &&& 0xFF)] = len := by
      have hbyte : ofBeBytes [ofNat (len &&& 0xFF)] = len % 256 := by
        rw [hlow]
        simp [ofBeBytes]
      rw [hbyte, ← Nat.shiftLeft_add_eq_or_of_lt (Nat.mod_lt _ (by decide)), Nat.shiftLeft_eq,
        Nat.shiftRight_eq_div_pow]
      exact Nat.div_add_mod' _ _
    rw [rdbLoadLenTail, htype, if_neg (by decide), if_neg (by decide), if_pos rfl, hval]
    refine (take (b := [ofNat (len &&& 0xFF)]) rfl).bind_nil ?_
    rw [hlen]
    exact pure _
  · refine consumes_cons ?_
    rw [rdbLoadLenTail, if_neg (by decide), if_neg (by decide), if_neg (by decide), if_pos rfl]
    refine (take (length_beBytes 4 len)).bind_nil ?_
    rw [ofBeBytes_beBytes (by omega)]
    exact pure _
  · refine consumes_cons ?_
    rw [rdbLoadLenTail, if_neg (by decide), if_neg (by decide), if_neg (by decide),
      if_neg (by decide), if_pos rfl]
    refine (take (length_beBytes 8 len)).bind_nil ?_
    rw [ofBeBytes_beBytes (by omega)]
    exact pure _

lemma rdbLoadLen_of_byRef {b : Bytes} {r : Bool × ℕ} (h : Consumes rdbLoadLenByRef b r) :
    Consumes rdbLoadLen b r := by
  intro rest
  rw [rdbLoadLen, h rest]

lemma rdbLoadLen_rdbSaveLen {len : ℕ} (h : len < 2 ^ 64) :
    Consumes rdbLoadLen (rdbSaveLen len) (false, len) :=
  rdbLoadLen_of_byRef (rdbLoadLenByRef_rdbSaveLen h)

lemma rdbLoadLen_encoding {n : ℕ} (hn : n < 64) :
    Consumes rdbLoadLen [ofNat (rdbEncVal <<< 6 ||| n)] (true, n) := by
  have hbyte : ∀ n < 64, ((ofNat (rdbEncVal <<< 6 ||| n) &&& 0xC0) >>> 6).toNat = rdbEncVal ∧
      (ofNat (rdbEncVal <<< 6 ||| n) &&& 0x3F).toNat = n := by
    decide
  obtain ⟨htype, hval⟩ := hbyte n hn
  refine rdbLoadLen_of_byRef (consumes_cons ?_)
  rw [rdbLoadLenTail, htype, if_pos rfl, hval]
  exact pure _

lemma RdbLoad.gives_ofBytes (flags : RdbLoad) (b : Bytes) : flags.Gives (flags.ofBytes b) := by
  cases flags <;> trivial

@[simp] lemma RdbLoad.text_ofBytes (flags : RdbLoad) (b : Bytes) :
    (flags.ofBytes b).text = b := by
  cases flags <;> rfl

/-- The reader `p` gives the string `s` in the form the flags ask for, from exactly the bytes `b`.
-/
def LoadsString (p : ByteReader RdbString) (flags : RdbLoad) (b s : Bytes) : Prop :=
  ∃ r, Consumes p b r ∧ r.text = s ∧ flags.Gives r

variable {s : Bytes}

section

variable (env : RdbEnv) (flags : RdbLoad)

/-- The loader at the byte in front of an integer. -/
lemma rdbGenericLoadStringObject_int {enctype k : ℕ} {value : ℤ}
    (henc : enctype = rdbEncInt8 ∧ k = 1 ∨ enctype = rdbEncInt16 ∧ k = 2 ∨ enctype = rdbEncInt32 ∧
      k = 4) (hge : -(256 ^ k : ℕ) ≤ value * 2) (hlt : value * 2 < (256 ^ k : ℕ))
    (hs : string2ll s = some value) :
    LoadsString (rdbGenericLoadStringObject env flags) flags
      (ofNat (rdbEncVal <<< 6 ||| enctype) :: leSignedBytes k value) s := by
  have hlen : (if enctype = rdbEncInt8 then 1 else if enctype = rdbEncInt16 then 2 else 4) = k := by
    rcases henc with ⟨rfl, rfl⟩ | ⟨rfl, rfl⟩ | ⟨rfl, rfl⟩ <;> rfl
  have hsmall : enctype < 64 ∧ enctype ≠ rdbLenErr ∧
      (enctype = rdbEncInt8 ∨ enctype = rdbEncInt16 ∨ enctype = rdbEncInt32) := by
    rcases henc with ⟨rfl, -⟩ | ⟨rfl, -⟩ | ⟨rfl, -⟩ <;> decide
  refine ⟨if flags = .enc then .objInt value else flags.ofBytes (ll2string longStrSize value),
    ?_, ?_, ?_⟩
  · refine (rdbLoadLen_encoding hsmall.1).bind_cons ?_
    rw [if_neg hsmall.2.1, if_pos rfl, if_pos hsmall.2.2]
    refine (take (by rw [hlen, length_leSignedBytes])).bind_nil ?_
    rw [ofLeSignedBytes_leSignedBytes hge hlt]
    exact pure _
  · split_ifs
    · exact ll2string_string2ll hs (by decide)
    · rw [RdbLoad.text_ofBytes, ll2string_string2ll hs le_rfl]
  · split_ifs with henc
    · rw [henc]
      trivial
    · exact flags.gives_ofBytes _

/-- A short integer comes back as its text. -/
lemma rdbGenericLoadStringObject_rdbEncodeInteger {value : ℤ} (h : rdbEncodeInteger value ≠ [])
    (hs : string2ll s = some value) :
    LoadsString (rdbGenericLoadStringObject env flags) flags (rdbEncodeInteger value) s := by
  unfold rdbEncodeInteger at h ⊢
  split_ifs at h ⊢ with h8 h16 h32
  · exact rdbGenericLoadStringObject_int env flags (.inl ⟨rfl, rfl⟩) (by omega) (by omega) hs
  · exact rdbGenericLoadStringObject_int env flags (.inr (.inl ⟨rfl, rfl⟩)) (by omega) (by omega)
      hs
  · exact rdbGenericLoadStringObject_int env flags (.inr (.inr ⟨rfl, rfl⟩)) (by omega) (by omega)
      hs
  · exact absurd rfl h

/-- A compressed string comes back. -/
lemma rdbGenericLoadStringObject_rdbSaveLzfBlob {data : Bytes} (hs : s.length < 2 ^ 64 - 1)
    (hdata : data.length ≤ s.length) (hlzf : env.lzf.decompress data s.length = some s) :
    LoadsString (rdbGenericLoadStringObject env flags) flags (rdbSaveLzfBlob data s.length) s := by
  have herr : rdbLenErr = 2 ^ 64 - 1 := rfl
  refine ⟨flags.ofBytes s, ?_, flags.text_ofBytes s, flags.gives_ofBytes s⟩
  refine (rdbLoadLen_encoding (by decide)).bind_cons ?_
  rw [if_neg (by decide), if_pos rfl, if_neg (by decide), if_pos rfl, rdbLoadLzfStringObject,
    List.append_assoc]
  refine (rdbLoadLen_rdbSaveLen (by omega)).bind ?_
  rw [if_neg (by simp only; omega)]
  refine (rdbLoadLen_rdbSaveLen (by omega)).bind ?_
  rw [if_neg (by simp only; omega)]
  refine (take rfl).bind_nil ((lift hlzf).bind_nil ?_)
  rw [if_neg (not_not.mpr rfl)]
  exact pure _

/-- A verbatim string comes back. -/
lemma rdbGenericLoadStringObject_verbatim (hs : s.length < 2 ^ 64 - 1) :
    LoadsString (rdbGenericLoadStringObject env flags) flags (rdbSaveLen s.length ++ s) s := by
  have herr : rdbLenErr = 2 ^ 64 - 1 := rfl
  refine ⟨flags.ofBytes s, ?_, flags.text_ofBytes s, flags.gives_ofBytes s⟩
  refine (rdbLoadLen_rdbSaveLen (by omega)).bind ?_
  rw [if_neg (by simp only; omega), if_neg (by simp)]
  split_ifs with hzero
  · rw [List.length_eq_zero_iff.mp hzero]
    exact pure _
  · exact (take rfl).bind_nil (pure _)

/-- Loading gives back every string that was saved, and reads exactly its bytes. -/
lemma rdbGenericLoadStringObject_rdbSaveRawString (hs : s.length < 2 ^ 64 - 1) :
    LoadsString (rdbGenericLoadStringObject env flags) flags (rdbSaveRawString env s) s := by
  have hint : (if s.length ≤ 11 then rdbTryIntegerEncoding s else []) ≠ [] →
      LoadsString (rdbGenericLoadStringObject env flags) flags
        (if s.length ≤ 11 then rdbTryIntegerEncoding s else []) s := by
    intro hne
    split_ifs at hne ⊢ with hlen
    · unfold rdbTryIntegerEncoding at hne ⊢
      cases hll : string2ll s with
      | none => simp [hll] at hne
      | some v =>
        simp only [hll] at hne ⊢
        exact rdbGenericLoadStringObject_rdbEncodeInteger env flags hne hll
    · exact absurd rfl hne
  have hlz : (if env.rdbCompression ∧ s.length > 20 then rdbSaveLzfStringObject env.lzf s
      else []) ≠ [] →
      LoadsString (rdbGenericLoadStringObject env flags) flags
        (if env.rdbCompression ∧ s.length > 20 then rdbSaveLzfStringObject env.lzf s else [])
          s := by
    intro hne
    unfold rdbSaveLzfStringObject at hne ⊢
    simp only at hne ⊢
    split_ifs at hne ⊢ with hlong hshort hzero
    · exact absurd rfl hne
    · exact absurd rfl hne
    · have hle := env.lzf.length_compress s (s.length - 4)
      exact rdbGenericLoadStringObject_rdbSaveLzfBlob env flags hs (by omega)
        (env.lzf.decompress_compress s _ fun h => hzero (by rw [h]; rfl))
    · exact absurd rfl hne
  unfold rdbSaveRawString
  simp only
  generalize (if s.length ≤ 11 then rdbTryIntegerEncoding s else []) = enc at hint ⊢
  generalize (if env.rdbCompression ∧ s.length > 20 then rdbSaveLzfStringObject env.lzf s else []) =
    lz at hlz ⊢
  split_ifs with henc hcomp
  · exact hint (List.length_pos_iff.mp henc)
  · exact hlz (List.length_pos_iff.mp hcomp)
  · exact rdbGenericLoadStringObject_verbatim env flags hs

end

/-! ## The counts returned by the writers -/

lemma length_rdbSaveLen (len : ℕ) : (rdbSaveLen len).length = rdbSaveLenNwritten len := by
  unfold rdbSaveLen rdbSaveLenNwritten
  split_ifs
  · rfl
  · rfl
  · rw [List.length_cons, length_beBytes]
  · rw [List.length_cons, length_beBytes]

lemma length_rdbSaveLzfStringObject (lzf : Lzf) (s : Bytes) :
    (rdbSaveLzfStringObject lzf s).length = rdbSaveLzfStringObjectNwritten lzf s := by
  unfold rdbSaveLzfStringObject rdbSaveLzfStringObjectNwritten
  simp only
  split_ifs
  · rfl
  · rfl
  · simp only [rdbSaveLzfBlob, rdbSaveLzfBlobNwritten, List.length_cons, List.length_append,
      length_rdbSaveLen]
    omega

lemma length_rdbSaveRawString (env : RdbEnv) (s : Bytes) :
    (rdbSaveRawString env s).length = rdbSaveRawStringNwritten env s := by
  have henc : (if s.length ≤ 11 then rdbTryIntegerEncoding s else []).length =
      if s.length ≤ 11 then (rdbTryIntegerEncoding s).length else 0 := by
    split_ifs <;> rfl
  have hlz : (if env.rdbCompression ∧ s.length > 20 then rdbSaveLzfStringObject env.lzf s
      else []).length = if env.rdbCompression ∧ s.length > 20 then
        rdbSaveLzfStringObjectNwritten env.lzf s else 0 := by
    split_ifs
    · exact length_rdbSaveLzfStringObject env.lzf s
    · rfl
  unfold rdbSaveRawString rdbSaveRawStringNwritten
  simp only [← henc, ← hlz]
  generalize (if s.length ≤ 11 then rdbTryIntegerEncoding s else []) = enc
  generalize (if env.rdbCompression ∧ s.length > 20 then rdbSaveLzfStringObject env.lzf s else []) =
    lz
  split_ifs with h1 h2 h3
  · rfl
  · rfl
  · rw [List.length_append, length_rdbSaveLen]
  · rw [List.length_append, length_rdbSaveLen]
    omega

/-- The string codec of RDB files. With compression on or off, a string that is in memory comes
back in every form from exactly the bytes written for it, the count returned is the number of these
bytes, and every 64-bit length comes back as a length that describes no encoding. -/
theorem rdb_string_roundtrip (env : RdbEnv) :
    (∀ (flags : RdbLoad) (s r : Bytes), s.length < 2 ^ 64 - 1 →
      ∃ v, rdbGenericLoadStringObject env flags (rdbSaveRawString env s ++ r) = some (v, r) ∧
        v.text = s ∧ flags.Gives v) ∧
      (∀ s, rdbSaveRawStringNwritten env s = (rdbSaveRawString env s).length) ∧
      ∀ len < 2 ^ 64, ∀ r, rdbLoadLenByRef (rdbSaveLen len ++ r) = some ((false, len), r) := by
  refine ⟨fun flags s r hs => ?_, fun s => (length_rdbSaveRawString env s).symm,
    fun len hlen => rdbLoadLenByRef_rdbSaveLen hlen⟩
  obtain ⟨v, hload, htext, hgives⟩ := rdbGenericLoadStringObject_rdbSaveRawString env flags hs
  exact ⟨v, hload r, htext, hgives⟩

/-- The text `-129` is saved as a 16-bit integer and comes back from its three bytes. -/
theorem rdb_string_roundtrip_int16 :
    rdbSaveRawString ⟨true, fun _ _ => [], fun _ _ => none, fun _ _ => Nat.zero_le _,
        fun _ _ h => absurd rfl h⟩ [45, 49, 50, 57] = [0xC1, 0x7F, 0xFF] ∧
      ∃ v, rdbGenericLoadStringObject
        ⟨true, fun _ _ => [], fun _ _ => none, fun _ _ => Nat.zero_le _,
          fun _ _ h => absurd rfl h⟩ .enc ([0xC1, 0x7F, 0xFF] ++ [0]) = some (v, [0]) ∧
        v.text = [45, 49, 50, 57] := by
  refine ⟨by decide, ?_⟩
  obtain ⟨v, hload, htext, -⟩ := (rdb_string_roundtrip ⟨true, fun _ _ => [], fun _ _ => none,
    fun _ _ => Nat.zero_le _, fun _ _ h => absurd rfl h⟩).1 .enc [45, 49, 50, 57] [0] (by decide)
  exact ⟨v, hload, htext⟩

end RainCall
