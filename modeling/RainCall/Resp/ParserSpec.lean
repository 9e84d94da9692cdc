import RainCall.Resp.Parser

/-!
# What the parser builds

The reply the parser builds for a tree is a function of the tree and of the position it starts at
(`RespTree.reply`). The parser returns it, together with the position behind the bytes of the tree,
unless a line of the tree has a NUL byte: then the search for the end of that line fails.
-/

namespace RainCall

open List Option RespKind RespLeaf RespTree

variable {strtod : Bytes → BitVec 64} {buf rest : Bytes} {pos : ℕ} {rep : CallReply}

/-! ### Lines -/

variable {c tag : UInt8} {line l : Bytes} {fuel : ℕ} {t : RespTree}

lemma strchr_append {rest : Bytes} (hc : c ∉ line) (hnul : 0 ∉ line) :
    strchr c (line ++ c :: rest) = some line.length := by
  induction line with
  | nil => exact if_pos rfl
  | cons b line ih =>
    rw [mem_cons, not_or] at hc hnul
    rw [cons_append, strchr, if_neg (Ne.symm hc.1), if_neg (Ne.symm hnul.1), ih hc.2 hnul.2]
    rfl

lemma strchr_of_nul {rest : Bytes} (hc : c ∉ line) (hnul : 0 ∈ line) :
    strchr c (line ++ rest) = none := by
  induction line with
  | nil => exact absurd hnul not_mem_nil
  | cons b line ih =>
    rw [mem_cons, not_or] at hc
    rw [cons_append, strchr, if_neg (Ne.symm hc.1)]
    split_ifs with hb
    · rfl
    · rw [ih hc.2 ((mem_cons.mp hnul).resolve_left (Ne.symm hb))]
      rfl

lemma drop_succ_of_drop (h : buf.drop pos = tag :: l) :
    buf.drop (pos + 1) = l := by
  rw [← tail_drop, h, tail_cons]

lemma getD_of_drop (h : buf.drop pos = tag :: l) :
    buf[pos]?.getD 0 = tag := by
  have hget : (buf.drop pos)[0]? = some tag := by
    rw [h]
    rfl
  rw [getElem?_drop, Nat.add_zero] at hget
  rw [hget, getD_some]

/-- The line in front of a CR LF. -/
lemma parseLine_eq (h : buf.drop pos = tag :: line ++ crlf ++ rest) (hcr : 13 ∉ line)
    (hnul : 0 ∉ line) :
    parseLine buf pos = some (line, pos + (line.length + 3)) := by
  have hcons : buf.drop pos = tag :: (line ++ 13 :: 10 :: rest) := by
    rw [h]
    simp [crlf]
  have hdrop := drop_succ_of_drop hcons
  rw [parseLine, hdrop, strchr_append hcr hnul]
  simp only [bind_eq_bind, bind_some, take_left']
  rw [show pos + 1 + line.length + 2 = pos + (line.length + 3) by ring]
  rfl

lemma parseLine_of_nul (h : buf.drop pos = tag :: line ++ crlf ++ rest) (hcr : 13 ∉ line)
    (hnul : 0 ∈ line) :
    parseLine buf pos = none := by
  have hcons : buf.drop pos = tag :: (line ++ (crlf ++ rest)) := by
    rw [h]
    simp
  have hdrop := drop_succ_of_drop hcons
  rw [parseLine, hdrop, strchr_of_nul hcr hnul]
  rfl

/-- The characters of a number are neither CR nor NUL. -/
lemma mem_signedDecimal {v : ℤ} (h : c ∈ signedDecimal v) : 45 ≤ c.toNat := by
  unfold signedDecimal at h
  have hdigit : ∀ c ∈ decimal v.natAbs, 45 ≤ c.toNat := by
    intro c hc
    have hle : 48 ≤ c.toNat := UInt8.le_iff_toNat_le.mp (isDigit_of_mem_decimal hc).1
    omega
  split_ifs at h
  · rcases mem_cons.mp h with rfl | hc
    · decide
    · exact hdigit c hc
  · exact hdigit c h

lemma cr_notMem_signedDecimal (v : ℤ) : 13 ∉ signedDecimal v :=
  fun h => absurd (mem_signedDecimal h) (by decide)

lemma nul_notMem_signedDecimal (v : ℤ) : 0 ∉ signedDecimal v :=
  fun h => absurd (mem_signedDecimal h) (by decide)

lemma RespLeaf.WF.cr_notMem {l : RespLeaf} (h : l.WF) : 13 ∉ l.line := by
  cases l with
  | simpleString text | error text | double text | bigNumber text => exact h.1
  | null => exact not_mem_nil
  | bool b => cases b <;> decide
  | integer n | bulkString text | nullBulk | nullArray | verbatim format text =>
    exact cr_notMem_signedDecimal _

lemma parseLength_signedDecimal {n : ℕ} (hn : n < 2 ^ 63) :
    parseLength (signedDecimal n) = some n := by
  rw [parseLength, string2ll_signedDecimal (by omega) (by exact_mod_cast hn)]
  simp

/-! ### The reply of a tree -/

/-- The type of an aggregate. -/
def RespKind.type : RespKind → CallReplyType
  | .array => .array
  | .set => .set
  | .map => .map

/-- The reply of a leaf at a position, stored into `rep`. -/
def RespLeaf.reply (strtod : Bytes → BitVec 64) (l : RespLeaf) (pos : ℕ) (rep : CallReply) :
    CallReply :=
  match l with
  | .simpleString text => callReplySimpleStr rep (pos + 1) text.length pos l.encode.length
  | .error text => callReplyError rep (pos + 1) text.length pos l.encode.length
  | .integer n => callReplyLong rep n pos l.encode.length
  | .bulkString text =>
    callReplyBulkString rep (pos + (l.line.length + 3)) text.length pos l.encode.length
  | .nullBulk => callReplyNullBulkString rep pos l.encode.length
  | .nullArray => callReplyNullArray rep pos l.encode.length
  | .null => callReplyNull rep pos l.encode.length
  | .bool b => callReplyBool rep b pos l.encode.length
  | .double text =>
    callReplyDouble rep (if text.length ≤ maxLongDoubleChars then strtod text else 0) pos
      l.encode.length
  | .bigNumber text => callReplyBigNumber rep (pos + 1) text.length pos l.encode.length
  | .verbatim _ text =>
    callReplyVerbatimString rep (pos + (l.line.length + 3)) (pos + (l.line.length + 3) + 4)
      text.length pos l.encode.length

mutual

/-- The reply of a tree at a position, stored into `rep`. -/
def RespTree.reply (strtod : Bytes → BitVec 64) : RespTree → ℕ → CallReply → CallReply
  | .leaf l, pos, rep => l.reply strtod pos rep
  | .node kind children, pos, rep =>
    { rep with
      type := kind.type
      len := children.length / kind.perEntry
      val := .array (RespTree.replies strtod children
        (pos + (respHeader kind.tag (children.length / kind.perEntry)).length))
      resp3 := rep.resp3 || RespTree.usesResp3 (.node kind children)
      proto := pos
      protoLen := (RespTree.node kind children).encode.length }
  | .attributed attrs t, pos, rep =>
    let header := (respHeader 124 (attrs.length / 2)).length
    let size := header + (RespTree.encodeAll attrs).length
    { RespTree.reply strtod t (pos + size) { rep with
        attr := some ⟨.attribute, pos, size, true, true, attrs.length / 2,
          .array (RespTree.replies strtod attrs (pos + header)), none⟩ } with
      proto := pos
      protoLen := size + t.encode.length
      resp3 := true }

/-- The replies of trees one after the other. -/
def RespTree.replies (strtod : Bytes → BitVec 64) : List RespTree → ℕ → List CallReply
  | [], _ => []
  | t :: rest, pos =>
    { RespTree.reply strtod t pos .zero with parsed := true } ::
      RespTree.replies strtod rest (pos + t.encode.length)

end

/-! ### Leaves -/

/-- Parsing a leaf whose line has no NUL byte. -/
lemma parseReply_leaf {l : RespLeaf} (hl : l.WF) (hnul : l.NulFree)
    (h : buf.drop pos = l.encode ++ rest) (hlen : buf.length < 2 ^ 63) :
    parseReply strtod buf (fuel + 1) pos rep =
      some (l.reply strtod pos rep, pos + l.encode.length) := by
  have hdrop : buf.drop pos = l.tag :: l.line ++ crlf ++ (l.payload ++ rest) := by
    rw [h, RespLeaf.encode, append_assoc]
  have hline := parseLine_eq hdrop hl.cr_notMem hnul
  have hbyte : buf[pos]?.getD 0 = l.tag := getD_of_drop hdrop
  have hsize : l.encode.length = l.line.length + 3 + l.payload.length := by
    simp only [RespLeaf.encode, length_append, length_cons, crlf, length_nil]
  have hbound : l.encode.length ≤ buf.length := by
    have := congrArg length h
    rw [length_drop, length_append] at this
    omega
  rw [parseReply, hbyte]
  cases l with
  | simpleString text | error text | double text | bigNumber text | null =>
    simp only [RespLeaf.tag, parseSimpleString, parseError, parseDouble, parseBigNumber, parseNull,
      hline, hsize, RespLeaf.payload, RespLeaf.reply]
    simp [RespLeaf.line]
  | integer n =>
    simp only [RespLeaf.tag, parseLong, hline, hsize, RespLeaf.payload, RespLeaf.reply]
    simp [RespLeaf.line, string2ll_signedDecimal hl.1 hl.2]
  | bulkString text =>
    have hn : text.length < 2 ^ 63 := by
      simp only [RespLeaf.payload, length_append] at hsize
      omega
    simp only [RespLeaf.tag, parseBulk, hline, hsize, RespLeaf.payload, RespLeaf.reply]
    simp only [RespLeaf.line, string2ll_signedDecimal (v := text.length) (by omega)
      (by exact_mod_cast hn), parseLength_signedDecimal hn, bind_eq_bind, bind_some]
    rw [if_neg (by omega)]
    simp [crlf, Nat.add_assoc]
  | nullBulk | nullArray =>
    simp only [RespLeaf.tag, parseBulk, parseArray, hline, hsize, RespLeaf.payload, RespLeaf.reply]
    simp [RespLeaf.line, string2ll_signedDecimal (v := -1) (by decide) (by decide)]
  | bool b =>
    have hb : buf[pos + 1]?.getD 0 = if b then 116 else 102 := by
      refine getD_of_drop (l := crlf ++ rest) ((drop_succ_of_drop hdrop).trans ?_)
      cases b <;> rfl
    simp only [RespLeaf.tag, parseBool, hline, hsize, RespLeaf.payload, RespLeaf.reply, hb]
    cases b <;> simp [RespLeaf.line]
  | verbatim format text =>
    have hfmt : format.length = 3 := hl
    have hn : (format ++ 58 :: text).length < 2 ^ 63 := by
      simp only [RespLeaf.payload, length_append] at hsize ⊢
      omega
    simp only [RespLeaf.tag, parseVerbatimString, hline, hsize, RespLeaf.payload, RespLeaf.reply]
    simp only [RespLeaf.line, parseLength_signedDecimal hn, bind_eq_bind, bind_some]
    simp only [length_append, length_cons, hfmt, crlf]
    rw [show 3 + (text.length + 1) - 4 = text.length by omega]
    simp [Nat.add_assoc]

/-- A NUL byte in the line of a leaf stops the parser. -/
lemma parseReply_leaf_of_nul {l : RespLeaf} (hl : l.WF) (hnul : ¬ l.NulFree)
    (h : buf.drop pos = l.encode ++ rest) : parseReply strtod buf (fuel + 1) pos rep = none := by
  have hdrop : buf.drop pos = l.tag :: l.line ++ crlf ++ (l.payload ++ rest) := by
    rw [h, RespLeaf.encode, append_assoc]
  have hline := parseLine_of_nul hdrop hl.cr_notMem (not_not.mp hnul)
  have hbyte : buf[pos]?.getD 0 = l.tag := getD_of_drop hdrop
  rw [parseReply, hbyte]
  cases l <;>
    simp [RespLeaf.tag, parseSimpleString, parseError, parseLong, parseBulk, parseArray, parseNull,
      parseBool, parseDouble, parseBigNumber, parseVerbatimString, hline]

/-! ### Trees -/

lemma RespLeaf.length_encode_pos (l : RespLeaf) : 0 < l.encode.length :=
  length_pos_iff.mpr (cons_ne_nil _ _)

lemma RespTree.length_encode_pos (t : RespTree) : 0 < t.encode.length := by
  cases t with
  | leaf l => exact l.length_encode_pos
  | node kind children | attributed attrs t => exact length_pos_iff.mpr (cons_ne_nil _ _)

lemma RespTree.length_le_encodeAll (l : List RespTree) :
    l.length ≤ (encodeAll l).length := by
  induction l with
  | nil => exact Nat.zero_le _
  | cons t l ih =>
    have hpos := t.length_encode_pos
    rw [encodeAll, length_append, length_cons]
    omega

lemma length_respHeader (tag : UInt8) (n : ℕ) :
    (respHeader tag n).length = (signedDecimal n).length + 3 := by
  simp only [respHeader, crlf, length_append, length_cons, length_nil]

lemma length_le_of_drop (h : buf.drop pos = l ++ rest) :
    l.length ≤ buf.length := by
  have hlen := congrArg length h
  rw [length_drop, length_append] at hlen
  omega

lemma drop_add_of_drop {a b : Bytes} (h : buf.drop pos = a ++ b) :
    buf.drop (pos + a.length) = b := by
  rw [← drop_drop, h, drop_left]

/-- What the parser does with a tree: the contract of the recursion. -/
def Parses (strtod : Bytes → BitVec 64) (buf : Bytes) (t : RespTree) : Prop :=
  ∀ {fuel pos : ℕ} {rest : Bytes} (rep : CallReply), t.encode.length ≤ fuel →
    buf.drop pos = t.encode ++ rest →
    (t.NulFree → parseReply strtod buf fuel pos rep =
      some (t.reply strtod pos rep, pos + t.encode.length)) ∧
    (¬ t.NulFree → parseReply strtod buf fuel pos rep = none)

/-- Parsing replies one after the other. -/
lemma parseReplies_spec {l : List RespTree} (hl : ∀ t ∈ l, Parses strtod buf t)
    (hfuel : (encodeAll l).length ≤ fuel) (h : buf.drop pos = encodeAll l ++ rest) :
    ((∀ t ∈ l, t.NulFree) → parseReplies (parseReply strtod buf fuel) l.length pos =
      some (replies strtod l pos, pos + (encodeAll l).length)) ∧
    (¬ (∀ t ∈ l, t.NulFree) →
      parseReplies (parseReply strtod buf fuel) l.length pos = none) := by
  induction l generalizing pos with
  | nil => exact ⟨fun _ => rfl, fun hnul => absurd (fun t ht => absurd ht not_mem_nil) hnul⟩
  | cons t l ih =>
    rw [encodeAll, length_append] at hfuel
    rw [encodeAll, append_assoc] at h
    obtain ⟨hok, hfail⟩ := hl t mem_cons_self .zero ((Nat.le_add_right _ _).trans hfuel) h
    obtain ⟨hokRest, hfailRest⟩ := ih (fun t' ht' => hl t' (mem_cons_of_mem _ ht'))
      ((Nat.le_add_left _ _).trans hfuel) (drop_add_of_drop h)
    rw [forall_mem_cons]
    constructor
    · rintro ⟨ht, hrest⟩
      rw [length_cons, parseReplies, hok ht]
      simp only [bind_eq_bind, bind_some, hokRest hrest, replies,
        encodeAll, length_append, Nat.add_assoc]
      rfl
    · intro hnul
      rw [length_cons, parseReplies]
      by_cases ht : t.NulFree
      · rw [hok ht]
        simp only [bind_eq_bind, bind_some]
        rw [hfailRest fun hrest => hnul ⟨ht, hrest⟩]
        rfl
      · rw [hfail ht]
        rfl

lemma callReplyParseCollection_spec (rep : CallReply) (proto : ℕ) {l : List RespTree}
    (hl : ∀ t ∈ l, Parses strtod buf t) {perEntry n : ℕ}
    (hfuel : (encodeAll l).length ≤ fuel) (h : buf.drop pos = encodeAll l ++ rest)
    (hn : n * perEntry = l.length) :
    ((∀ t ∈ l, t.NulFree) →
      callReplyParseCollection (parseReply strtod buf fuel) pos rep n proto perEntry =
        some ({ rep with
          len := n
          val := .array (replies strtod l pos)
          resp3 := rep.resp3 || (replies strtod l pos).any CallReply.resp3
          proto
          protoLen := pos + (encodeAll l).length - proto },
          pos + (encodeAll l).length)) ∧
    (¬ (∀ t ∈ l, t.NulFree) →
      callReplyParseCollection (parseReply strtod buf fuel) pos rep n proto perEntry = none) := by
  obtain ⟨hok, hfail⟩ := parseReplies_spec hl hfuel h
  rw [callReplyParseCollection, hn]
  constructor
  · intro hnul
    rw [hok hnul]
    rfl
  · intro hnul
    rw [hfail hnul]
    rfl

@[simp] lemma RespLeaf.resp3_reply (l : RespLeaf) :
    (l.reply strtod pos rep).resp3 = (rep.resp3 || l.isResp3) := by
  cases l <;> rfl

/-- The flag of the reply of a tree. -/
lemma RespTree.resp3_reply (t : RespTree) :
    (t.reply strtod pos rep).resp3 = (rep.resp3 || t.usesResp3) := by
  cases t with
  | leaf l => rw [reply, RespLeaf.resp3_reply, usesResp3]
  | node kind children => rw [reply]
  | attributed attrs t => rw [reply, usesResp3, Bool.or_true]

lemma RespTree.any_resp3_replies (l : List RespTree) :
    (replies strtod l pos).any CallReply.resp3 = anyResp3 l := by
  induction l generalizing pos with
  | nil => rfl
  | cons t l ih =>
    rw [replies, any_cons, ih, anyResp3, resp3_reply]
    simp [CallReply.zero]

variable {children : List RespTree}

lemma nulFree_node {kind : RespKind} :
    (node kind children).NulFree ↔ ∀ c ∈ children, c.NulFree := by
  constructor
  · intro h
    cases h with
    | node _ h => exact h
  · exact .node kind

variable {attrs : List RespTree}

lemma nulFree_attributed :
    (attributed attrs t).NulFree ↔ (∀ c ∈ attrs, c.NulFree) ∧ t.NulFree := by
  constructor
  · intro h
    cases h with
    | attributed hattrs ht => exact ⟨hattrs, ht⟩
  · exact fun h => .attributed h.1 h.2

lemma parseLine_respHeader {n : ℕ} (h : buf.drop pos = respHeader tag n ++ rest) :
    buf[pos]?.getD 0 = tag ∧
      parseLine buf pos = some (signedDecimal n, pos + (respHeader tag n).length) := by
  refine ⟨getD_of_drop h, ?_⟩
  rw [length_respHeader]
  exact parseLine_eq h (cr_notMem_signedDecimal _) (nul_notMem_signedDecimal _)

/-- Parsing an aggregate. -/
lemma parses_node {kind : RespKind}
    (heven : kind.perEntry ∣ children.length) (hchildren : ∀ c ∈ children, Parses strtod buf c)
    (hlen : buf.length < 2 ^ 63) : Parses strtod buf (.node kind children) := by
  intro fuel pos rest rep hfuel h
  rw [RespTree.encode, length_append] at hfuel
  rw [RespTree.encode, append_assoc] at h
  obtain ⟨hbyte, hline⟩ := parseLine_respHeader h
  have hdrop := drop_add_of_drop h
  have hsmall : children.length / kind.perEntry < 2 ^ 63 :=
    ((Nat.div_le_self _ _).trans ((RespTree.length_le_encodeAll children).trans
      (length_le_of_drop hdrop))).trans_lt hlen
  have hheader := length_respHeader kind.tag (children.length / kind.perEntry)
  cases fuel with
  | zero => omega
  | succ fuel =>
    have hspec := fun rep => callReplyParseCollection_spec rep pos hchildren
      (show (RespTree.encodeAll children).length ≤ fuel by omega) hdrop (Nat.div_mul_cancel heven)
    have hint : string2ll (signedDecimal ((children.length / kind.perEntry : ℕ) : ℤ)) =
        some ((children.length / kind.perEntry : ℕ) : ℤ) :=
      string2ll_signedDecimal (le_trans (by decide) (Int.natCast_nonneg _))
        (by exact_mod_cast hsmall)
    have hadd : pos + (respHeader kind.tag (children.length / kind.perEntry)).length +
        (RespTree.encodeAll children).length =
          pos + (RespTree.node kind children).encode.length := by
      rw [RespTree.encode, length_append, Nat.add_assoc]
    rw [nulFree_node, parseReply, hbyte]
    constructor
    · intro hnul
      have hok := fun rep => (hspec rep).1 hnul
      cases kind with
      | array =>
        simp only [RespKind.tag, RespKind.perEntry] at hok hline hint hsmall hadd ⊢
        simp only [parseArray, hline, hint, parseLength_signedDecimal hsmall, callReplyArray, hok,
          bind_eq_bind, bind_some, RespTree.any_resp3_replies]
        rw [if_neg (by omega), RespTree.reply, hadd, Nat.add_sub_cancel_left]
        simp only [RespTree.usesResp3, RespKind.type, RespKind.tag, RespKind.perEntry]
      | set | map =>
        simp only [RespKind.tag, RespKind.perEntry] at hok hline hint hsmall hadd ⊢
        simp only [parseSet, parseMap, hline, parseLength_signedDecimal hsmall, callReplySet,
          callReplyMap, hok, bind_eq_bind, bind_some]
        rw [RespTree.reply, hadd, Nat.add_sub_cancel_left]
        simp only [RespTree.usesResp3, RespKind.type, RespKind.tag, RespKind.perEntry, Bool.or_true]
        rfl
    · intro hnul
      have hfail := fun rep => (hspec rep).2 hnul
      cases kind with
      | array =>
        simp only [RespKind.tag, RespKind.perEntry] at hfail hline hint hsmall ⊢
        simp only [parseArray, hline, hint, parseLength_signedDecimal hsmall, callReplyArray, hfail,
          bind_eq_bind, bind_some]
        rw [if_neg (by omega)]
      | set | map =>
        simp only [RespKind.tag, RespKind.perEntry] at hfail hline hsmall ⊢
        simp only [parseSet, parseMap, hline, parseLength_signedDecimal hsmall, callReplySet,
          callReplyMap, hfail, bind_eq_bind, bind_some, bind_none]

lemma parses_attributed (heven : 2 ∣ attrs.length)
    (hattrs : ∀ c ∈ attrs, Parses strtod buf c) (ht : Parses strtod buf t)
    (hlen : buf.length < 2 ^ 63) : Parses strtod buf (.attributed attrs t) := by
  intro fuel pos rest rep hfuel h
  rw [RespTree.encode, length_append, length_append] at hfuel
  rw [RespTree.encode, append_assoc, append_assoc] at h
  obtain ⟨hbyte, hline⟩ := parseLine_respHeader h
  have hdrop := drop_add_of_drop h
  have hsmall : attrs.length / 2 < 2 ^ 63 :=
    ((Nat.div_le_self _ _).trans ((RespTree.length_le_encodeAll attrs).trans
      (length_le_of_drop hdrop))).trans_lt hlen
  have hheader := length_respHeader 124 (attrs.length / 2)
  cases fuel with
  | zero => omega
  | succ fuel =>
    obtain ⟨hok, hfail⟩ := callReplyParseCollection_spec
      { CallReply.zero with len := attrs.length / 2, type := .attribute } pos
      hattrs (show (RespTree.encodeAll attrs).length ≤ fuel by omega) hdrop
      (Nat.div_mul_cancel heven)
    have hvalue := fun rep => ht rep (show t.encode.length ≤ fuel by omega) (drop_add_of_drop hdrop)
    rw [nulFree_attributed, parseReply, hbyte]
    simp only [parseAttributes, hline, parseLength_signedDecimal hsmall, callReplyAttribute,
      bind_eq_bind, bind_some]
    have hsize : pos + (respHeader 124 (attrs.length / 2)).length +
        (RespTree.encodeAll attrs).length = pos + ((respHeader 124 (attrs.length / 2)).length +
        (RespTree.encodeAll attrs).length) := Nat.add_assoc _ _ _
    constructor
    · rintro ⟨hnul, hnul'⟩
      rw [hok hnul, bind_some]
      simp only
      rw [(hvalue _).1 hnul', bind_some]
      simp only [RespTree.reply, Nat.add_sub_cancel_left, RespTree.encode, length_append,
        CallReply.zero, Nat.add_assoc]
      rfl
    · intro hnul
      by_cases hnulAttrs : ∀ c ∈ attrs, c.NulFree
      · rw [hok hnulAttrs, bind_some]
        rw [(hvalue _).2 fun hnul' => hnul ⟨hnulAttrs, hnul'⟩]
        rfl
      · rw [hfail hnulAttrs]
        rfl

/-- **The parser consumes exactly the bytes of a well-formed tree** and builds its reply, unless a
line has a NUL byte. -/
theorem RespTree.WF.parses (h : t.WF) (hlen : buf.length < 2 ^ 63) :
    Parses strtod buf t := by
  induction h with
  | leaf hl =>
    intro fuel pos rest rep hfuel hdrop
    rw [encode] at hfuel hdrop
    rename_i l
    have hpos := l.length_encode_pos
    cases fuel with
    | zero => omega
    | succ fuel =>
      rw [encode, reply]
      refine ⟨fun hnul => ?_, fun hnul => ?_⟩
      · cases hnul with
        | leaf hnul => exact parseReply_leaf hl hnul hdrop hlen
      · exact parseReply_leaf_of_nul hl (fun h => hnul (.leaf h)) hdrop
  | node heven _ ih => exact parses_node heven ih hlen
  | attributed heven _ _ _ ihAttrs ih => exact parses_attributed heven ihAttrs ih hlen

end RainCall
