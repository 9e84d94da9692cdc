import RainCall.Resp.ParserSpec

/-!
# What the accessors return

`RespTree.Decodes` says that a reply is a tree as seen through the public functions of
`call_reply.c`: the bytes its `proto` stands for, its RESP3 flag, its type and value, its
sub-replies at every index, and its attribute. The reply the parser builds is the tree in this sense
exactly when no attribute of the tree has an entry: `callReplyGetAttributeElement` asks for a map
and so refuses every attribute.
-/

namespace RainCall

open List RespLeaf RespTree

variable {strtod : Bytes → BitVec 64} {buf rest : Bytes} {pos : ℕ} {rep : CallReply}

/-! ### A reply is a tree -/

/-- The key and the value at an index of a list of keys and values. -/
def entryAt (kids : List CallReply) (idx : ℕ) : Option (Option CallReply × Option CallReply) :=
  if idx < kids.length / 2 then some (kids[idx * 2]?, kids[idx * 2 + 1]?) else none

/-- The accessors return the value of the leaf. -/
def RespLeaf.Decodes (strtod : Bytes → BitVec 64) (buf : Bytes) (l : RespLeaf)
    (rep : CallReply) : Prop :=
  match l with
  | .simpleString text => callReplyType rep = .string ∧ callReplyGetString buf rep = some text
  | .error text => callReplyType rep = .error ∧ callReplyGetString buf rep = some text
  | .integer n => callReplyType rep = .integer ∧ callReplyGetLongLong rep = n
  | .bulkString text => callReplyType rep = .string ∧ callReplyGetString buf rep = some text
  | .nullBulk => callReplyType rep = .null
  | .nullArray => callReplyType rep = .null
  | .null => callReplyType rep = .null
  | .bool b => callReplyType rep = .bool ∧ callReplyGetBool rep = if b then 1 else 0
  | .double text => callReplyType rep = .double ∧
    callReplyGetDouble rep = if text.length ≤ maxLongDoubleChars then strtod text else 0
  | .bigNumber text => callReplyType rep = .bigNumber ∧ callReplyGetBigNumber buf rep = some text
  | .verbatim format text => callReplyType rep = .verbatimString ∧
    callReplyGetVerbatim buf rep = some (text, format)

/-- The element accessor of the kind returns the sub-replies, and fails beyond them. -/
def RespKind.Elements (kind : RespKind) (rep : CallReply) (kids : List CallReply) : Prop :=
  match kind with
  | .array => ∀ idx, callReplyGetArrayElement rep idx = kids[idx]?
  | .set => ∀ idx, callReplyGetSetElement rep idx = kids[idx]?
  | .map => ∀ idx, callReplyGetMapElement rep idx = entryAt kids idx

mutual

/-- The accessors return the value of the tree. -/
def RespTree.Content (strtod : Bytes → BitVec 64) (buf : Bytes) :
    RespTree → CallReply → Prop
  | .leaf l, rep => l.Decodes strtod buf rep
  | .node kind children, rep =>
    callReplyType rep = kind.type ∧ callReplyGetLen rep = children.length / kind.perEntry ∧
      ∃ kids, kind.Elements rep kids ∧ RespTree.AllDecode strtod buf children kids
  | .attributed _ t, rep => RespTree.Content strtod buf t rep

/-- The reply has the attribute of the tree. -/
def RespTree.Attribute (strtod : Bytes → BitVec 64) (buf : Bytes) :
    RespTree → CallReply → Prop
  | .leaf _, rep => callReplyGetAttribute rep = none
  | .node _ _, rep => callReplyGetAttribute rep = none
  | .attributed attrs _, rep =>
    ∃ a kids, callReplyGetAttribute rep = some a ∧ callReplyType a = .attribute ∧
      a.resp3 = true ∧ bytesAt buf a.proto a.protoLen =
        respHeader 124 (attrs.length / 2) ++ RespTree.encodeAll attrs ∧
      callReplyGetLen a = attrs.length / 2 ∧
      (∀ idx, callReplyGetAttributeElement a idx = entryAt kids idx) ∧
      RespTree.AllDecode strtod buf attrs kids

/-- The replies are the trees, one by one. -/
def RespTree.AllDecode (strtod : Bytes → BitVec 64) (buf : Bytes) :
    List RespTree → List CallReply → Prop
  | [], [] => True
  | t :: trees, rep :: reps =>
    (bytesAt buf rep.proto rep.protoLen = t.encode ∧ rep.resp3 = t.usesResp3 ∧
      RespTree.Attribute strtod buf t rep ∧ RespTree.Content strtod buf t rep) ∧
      RespTree.AllDecode strtod buf trees reps
  | _, _ => False

end

/-- The reply is the tree: its bytes, its RESP3 flag, its attribute and its value. -/
structure RespTree.Decodes (strtod : Bytes → BitVec 64) (buf : Bytes) (t : RespTree)
    (rep : CallReply) : Prop where
  proto : bytesAt buf rep.proto rep.protoLen = t.encode
  resp3 : rep.resp3 = t.usesResp3
  attr : t.Attribute strtod buf rep
  content : t.Content strtod buf rep

/-- No attribute of the tree has an entry. -/
inductive RespTree.AttributesEmpty : RespTree → Prop
  | leaf (l : RespLeaf) : AttributesEmpty (.leaf l)
  | node (kind : RespKind) {children : List RespTree} (h : ∀ c ∈ children, AttributesEmpty c) :
    AttributesEmpty (.node kind children)
  | attributed {t : RespTree} (h : AttributesEmpty t) : AttributesEmpty (.attributed [] t)

variable {t : RespTree}

lemma RespTree.NoAttribute.attributesEmpty (h : t.NoAttribute) :
    t.AttributesEmpty := by
  induction h with
  | leaf l => exact .leaf l
  | node kind _ ih => exact .node kind ih

lemma RespTree.allDecode_iff {trees : List RespTree} {reps : List CallReply} :
    RespTree.AllDecode strtod buf trees reps ↔
      List.Forall₂ (RespTree.Decodes strtod buf) trees reps := by
  induction trees generalizing reps with
  | nil => cases reps <;> simp [RespTree.AllDecode]
  | cons t trees ih =>
    cases reps with
    | nil => simp [RespTree.AllDecode]
    | cons rep reps =>
      rw [RespTree.AllDecode, forall₂_cons, ih]
      exact and_congr_left' ⟨fun h => ⟨h.1, h.2.1, h.2.2.1, h.2.2.2⟩,
        fun h => ⟨h.proto, h.resp3, h.attr, h.content⟩⟩

/-! ### The reply of a tree is the tree -/

lemma bytesAt_of_drop {l : Bytes} (h : buf.drop pos = l ++ rest) :
    bytesAt buf pos l.length = l := by
  rw [bytesAt, h, take_left]

lemma RespLeaf.attr_reply (l : RespLeaf) : (l.reply strtod pos rep).attr = rep.attr := by
  cases l <;> rfl

lemma RespLeaf.proto_reply (l : RespLeaf) :
    (l.reply strtod pos rep).proto = pos ∧
      (l.reply strtod pos rep).protoLen = l.encode.length := by
  cases l <;> exact ⟨rfl, rfl⟩

lemma RespTree.proto_reply (t : RespTree) :
    (t.reply strtod pos rep).proto = pos ∧
      (t.reply strtod pos rep).protoLen = t.encode.length := by
  cases t with
  | leaf l => exact l.proto_reply
  | node kind children => exact ⟨rfl, rfl⟩
  | attributed attrs t =>
    refine ⟨rfl, ?_⟩
    rw [encode, length_append, length_append]
    rfl

/-- The accessors return the value of the leaf. -/
lemma RespLeaf.decodes_reply {l : RespLeaf} (hl : l.WF)
    (h : buf.drop pos = l.encode ++ rest) : l.Decodes strtod buf (l.reply strtod pos rep) := by
  have hdrop : buf.drop pos = (l.tag :: l.line ++ crlf) ++ (l.payload ++ rest) := by
    rw [h, encode, append_assoc]
  have hline : buf.drop (pos + 1) = l.line ++ (crlf ++ (l.payload ++ rest)) := by
    rw [← append_assoc]
    exact drop_succ_of_drop hdrop
  have hpayload : buf.drop (pos + (l.line.length + 3)) = l.payload ++ rest := by
    have hskip := drop_add_of_drop hdrop
    rwa [length_append, length_cons] at hskip
  cases l with
  | simpleString text | error text => exact ⟨rfl, congrArg some (bytesAt_of_drop hline)⟩
  | integer n => exact ⟨rfl, rfl⟩
  | bulkString text =>
    exact ⟨rfl, congrArg some (bytesAt_of_drop (hpayload.trans (append_assoc _ _ _)))⟩
  | nullBulk | nullArray | null => exact rfl
  | bool b | double text => exact ⟨rfl, rfl⟩
  | bigNumber text => exact ⟨rfl, congrArg some (bytesAt_of_drop hline)⟩
  | verbatim format text =>
    have hfmt : format.length = 3 := hl
    have hformat : buf.drop (pos + ((verbatim format text).line.length + 3)) =
        format ++ (58 :: text ++ crlf ++ rest) := by
      rw [hpayload, payload]
      simp
    have htext : buf.drop (pos + ((verbatim format text).line.length + 3) + 4) =
        text ++ (crlf ++ rest) := by
      have hskip := drop_succ_of_drop (drop_add_of_drop hformat)
      rw [hfmt] at hskip
      rw [← append_assoc]
      exact hskip
    have hres := bytesAt_of_drop hformat
    rw [hfmt] at hres
    exact ⟨rfl, congrArg some (Prod.ext (bytesAt_of_drop htext) hres)⟩

lemma callReplyGetCollectionElement_eq {kids : List CallReply} {perEntry idx : ℕ}
    (hval : rep.val = .array kids) (hlen : rep.len * perEntry = kids.length) :
    callReplyGetCollectionElement rep idx perEntry = kids[idx]? := by
  rw [callReplyGetCollectionElement, hlen, hval]
  split_ifs with hge
  · rw [getElem?_eq_none hge]
  · rfl

lemma callReplyGetMapElementInternal_eq {kids : List CallReply} {type : CallReplyType} {idx : ℕ}
    (htype : rep.type = type) (hval : rep.val = .array kids) (hlen : rep.len * 2 = kids.length) :
    callReplyGetMapElementInternal rep idx type = entryAt kids idx := by
  have hhalf : kids.length / 2 = rep.len := by omega
  rw [callReplyGetMapElementInternal, if_neg (not_not.mpr htype), entryAt,
    callReplyGetCollectionElement_eq hval hlen, callReplyGetCollectionElement_eq hval hlen]
  split_ifs with h1 h2 h2
  · omega
  · rfl
  · rfl
  · omega

lemma RespTree.length_replies (l : List RespTree) (pos : ℕ) :
    (replies strtod l pos).length = l.length := by
  induction l generalizing pos with
  | nil => rfl
  | cons t l ih => rw [replies, length_cons, ih, length_cons]

lemma RespKind.elements_reply {kind : RespKind} {children : List RespTree}
    (heven : kind.perEntry ∣ children.length) :
    kind.Elements ((node kind children).reply strtod pos rep)
      (replies strtod children
        (pos + (respHeader kind.tag (children.length / kind.perEntry)).length)) := by
  have hlen : ∀ p, children.length / kind.perEntry * kind.perEntry =
      (replies strtod children p).length := by
    intro p
    rw [length_replies, Nat.div_mul_cancel heven]
  cases kind with
  | array | set =>
    intro idx
    exact (if_neg (not_not.mpr rfl)).trans (callReplyGetCollectionElement_eq rfl (hlen _))
  | map =>
    intro idx
    exact callReplyGetMapElementInternal_eq rfl rfl (hlen _)

/-- The parser does not look at the flag `REPLY_FLAG_PARSED`. -/
lemma RespTree.reply_parsed (t : RespTree) (b : Bool) :
    t.reply strtod pos { rep with parsed := b } = { t.reply strtod pos rep with parsed := b } := by
  induction t using ind generalizing pos rep with
  | leaf l => cases l <;> rfl
  | node kind children => rfl
  | attributed attrs t _ ih =>
    have hvalue := @ih (pos + ((respHeader 124 (attrs.length / 2)).length +
      (encodeAll attrs).length)) { rep with
        attr := some ⟨.attribute, pos, (respHeader 124 (attrs.length / 2)).length +
          (encodeAll attrs).length, true, true, attrs.length / 2,
          .array (replies strtod attrs (pos + (respHeader 124 (attrs.length / 2)).length)),
          none⟩ }
    exact congrArg (fun r => { r with
      proto := pos
      protoLen := (respHeader 124 (attrs.length / 2)).length +
        (encodeAll attrs).length + t.encode.length
      resp3 := true }) hvalue

/-- The value of a reply is in its type, its length and its union. -/
lemma RespTree.content_congr {r r' : CallReply} (h : t.Content strtod buf r)
    (htype : r.type = r'.type) (hlen : r.len = r'.len) (hval : r.val = r'.val) :
    t.Content strtod buf r' := by
  obtain ⟨type, proto, protoLen, parsed, resp3, len, val, attr⟩ := r
  subst htype hlen hval
  induction t using ind with
  | leaf l => cases l <;> exact h
  | node kind children =>
    obtain ⟨htype, hlen, kids, helements, hkids⟩ := h
    refine ⟨htype, hlen, kids, ?_, hkids⟩
    cases kind <;> exact helements
  | attributed attrs t _ ih => exact ih h

/-- A tree of which the reply, built into any cell, has the value of the tree, and into a fresh cell
is the tree. -/
def RespTree.ReplyDecodes (strtod : Bytes → BitVec 64) (buf : Bytes) (t : RespTree) :
    Prop :=
  ∀ {pos : ℕ} {rest : Bytes} (rep : CallReply), buf.drop pos = t.encode ++ rest →
    t.Content strtod buf (t.reply strtod pos rep) ∧
    (rep.attr = none → rep.resp3 = false → t.Decodes strtod buf (t.reply strtod pos rep))

lemma RespTree.replies_decode {l : List RespTree} (hl : ∀ t ∈ l, t.ReplyDecodes strtod buf)
    (h : buf.drop pos = encodeAll l ++ rest) :
    RespTree.AllDecode strtod buf l (replies strtod l pos) := by
  rw [allDecode_iff]
  induction l generalizing pos with
  | nil => exact .nil
  | cons t l ih =>
    rw [encodeAll, append_assoc] at h
    rw [replies]
    refine .cons ?_ (ih (fun t' ht' => hl t' (mem_cons_of_mem _ ht')) (drop_add_of_drop h))
    rw [← reply_parsed]
    exact (hl t mem_cons_self _ h).2 rfl rfl

/-- The bytes and the flag of a reply in a fresh cell. -/
lemma RespTree.decodes_of_content (h : buf.drop pos = t.encode ++ rest) (hresp3 : rep.resp3 = false)
    (hattr : t.Attribute strtod buf (t.reply strtod pos rep))
    (hcontent : t.Content strtod buf (t.reply strtod pos rep)) :
    t.Decodes strtod buf (t.reply strtod pos rep) := by
  refine ⟨?_, ?_, hattr, hcontent⟩
  · rw [t.proto_reply.1, t.proto_reply.2]
    exact bytesAt_of_drop h
  · rw [resp3_reply, hresp3, Bool.false_or]

/-- The reply of a tree without entries in attributes is the tree. -/
lemma RespTree.WF.replyDecodes (hwf : t.WF) (hempty : t.AttributesEmpty) :
    t.ReplyDecodes strtod buf := by
  induction hwf with
  | leaf hl =>
    intro pos rest rep h
    have hcontent : (RespTree.leaf _).Content strtod buf ((RespTree.leaf _).reply strtod pos rep) :=
      decodes_reply hl h
    refine ⟨hcontent, fun hattr hresp3 => RespTree.decodes_of_content h hresp3 ?_ hcontent⟩
    exact (attr_reply _).trans hattr
  | @node kind children heven _ ih =>
    intro pos rest rep h
    have hchildren : ∀ c ∈ children, c.AttributesEmpty := by
      cases hempty with
      | node _ h => exact h
    have hdrop : buf.drop (pos + _) = RespTree.encodeAll children ++ rest :=
      drop_add_of_drop (by rw [h, RespTree.encode, append_assoc])
    have hcontent : (RespTree.node kind children).Content strtod buf
        ((RespTree.node kind children).reply strtod pos rep) := by
      refine ⟨rfl, ?_, _, RespKind.elements_reply heven,
        RespTree.replies_decode (fun c hc => ih c hc (hchildren c hc)) hdrop⟩
      cases kind <;> rfl
    exact ⟨hcontent, fun hattr hresp3 => RespTree.decodes_of_content h hresp3 hattr hcontent⟩
  | @attributed attrs t heven _ _ hone _ ih =>
    intro pos rest rep h
    obtain ⟨rfl, ht⟩ : attrs = [] ∧ t.AttributesEmpty := by
      cases hempty with
      | attributed h => exact ⟨rfl, h⟩
    have hheader : buf.drop pos = (respHeader 124 0 ++ RespTree.encodeAll []) ++
        (t.encode ++ rest) := by
      rw [h, RespTree.encode]
      rfl
    obtain ⟨hcontent, -⟩ := ih ht { rep with
      attr := some
        ⟨.attribute, pos, (respHeader 124 0).length + 0, true, true, 0, .array [], none⟩ }
      (drop_add_of_drop hheader)
    have hcontent' : (RespTree.attributed [] t).Content strtod buf
        ((RespTree.attributed [] t).reply strtod pos rep) :=
      RespTree.content_congr hcontent rfl rfl rfl
    refine ⟨hcontent', fun _ hresp3 => RespTree.decodes_of_content h hresp3 ?_ hcontent'⟩
    have hattr : ((RespTree.attributed [] t).reply strtod pos rep).attr = some ⟨.attribute, pos,
        (respHeader 124 0).length + 0, true, true, 0, .array [], none⟩ := by
      cases t with
      | leaf l => exact l.attr_reply
      | node kind children => rfl
      | attributed attrs' t' => exact absurd rfl (hone attrs' t')
    refine ⟨_, [], hattr, rfl, rfl, bytesAt_of_drop (hheader.trans rfl), rfl, fun idx => rfl,
      trivial⟩

/-! ### Attributes with entries are refused -/

/-- `callReplyGetAttributeElement` fails on every attribute. -/
lemma callReplyGetAttributeElement_of_attribute {a : CallReply} (h : callReplyType a = .attribute)
    (idx : ℕ) : callReplyGetAttributeElement a idx = none := by
  have hne : a.type ≠ .map := by
    rw [show a.type = .attribute from h]
    decide
  exact if_pos hne

/-- Each tree of a list has a reply. -/
lemma RespTree.AllDecode.exists_decodes {trees : List RespTree} {reps : List CallReply}
    (h : RespTree.AllDecode strtod buf trees reps) (ht : t ∈ trees) :
    ∃ rep, t.Decodes strtod buf rep := by
  obtain ⟨hlen, hget⟩ := forall₂_iff_get.mp (allDecode_iff.mp h)
  obtain ⟨⟨i, hi⟩, rfl⟩ := mem_iff_get.mp ht
  exact ⟨_, hget i hi (hlen ▸ hi)⟩

/-- Only a tree without entries in attributes can be seen through the accessors. -/
lemma RespTree.WF.attributesEmpty_of_content (hwf : t.WF)
    (hattr : ∀ attrs t', t = .attributed attrs t' → t.Attribute strtod buf rep)
    (h : t.Content strtod buf rep) : t.AttributesEmpty := by
  induction hwf generalizing rep with
  | leaf => exact .leaf _
  | @node kind children _ _ ih =>
    obtain ⟨-, -, kids, -, hkids⟩ := h
    refine .node kind fun c hc => ?_
    obtain ⟨kid, hkid⟩ := hkids.exists_decodes hc
    exact ih c hc (fun _ _ _ => hkid.attr) hkid.content
  | @attributed attrs t heven _ _ hone _ ih =>
    obtain ⟨a, kids, -, htype, -, -, -, helements, hkids⟩ := hattr attrs t rfl
    have hlen := (allDecode_iff.mp hkids).length_eq
    have hzero : ¬ 0 < kids.length / 2 := by
      intro hpos
      have hfail := helements 0
      rw [callReplyGetAttributeElement_of_attribute htype, entryAt, if_pos hpos] at hfail
      exact absurd hfail (by simp)
    obtain rfl : attrs = [] := eq_nil_of_length_eq_zero (by omega)
    exact .attributed (ih (fun attrs' t' ht' => absurd ht' (hone attrs' t')) h)

/-! ### The decoder -/

/-- The reply decodes the tree at the start of the buffer: the parser consumes exactly its bytes,
and through the accessors its result is the tree. -/
def CallReplyDecodes (strtod : Bytes → BitVec 64) (buf : Bytes) (t : RespTree) : Prop :=
  ∃ rep, callReplyParse strtod buf = some (rep, t.encode.length) ∧ t.Decodes strtod buf rep

lemma callReplyParse_eq (hwf : t.WF) (hlen : (t.encode ++ rest).length < 2 ^ 63) :
    (t.NulFree → callReplyParse strtod (t.encode ++ rest) =
      some (t.reply strtod 0 { CallReply.zero with parsed := true }, t.encode.length)) ∧
    (¬ t.NulFree → callReplyParse strtod (t.encode ++ rest) = none) := by
  have hfuel : t.encode.length ≤ (t.encode ++ rest).length + 1 := by
    rw [length_append]
    omega
  have hdrop : (t.encode ++ rest).drop 0 = t.encode ++ rest := rfl
  obtain ⟨hok, hfail⟩ := @RespTree.WF.parses strtod _ t hwf hlen _ _ _ .zero hfuel hdrop
  unfold callReplyParse
  constructor
  · intro hnul
    rw [hok hnul, reply_parsed, Nat.zero_add]
    rfl
  · intro hnul
    rw [hfail hnul]
    rfl

/-- **Which replies are decoded.**  For every well-formed RESP2 or RESP3 reply, with attributes on
any of its nodes and any bytes behind it, the parser consumes exactly its bytes and the accessors
return exactly its parts if and only if no line of it has a NUL byte, at which `strchr` stops, and
no attribute of it has an entry, which `callReplyGetAttributeElement` would refuse to return. -/
theorem callReplyDecodes_iff (strtod : Bytes → BitVec 64) (t : RespTree) (hwf : t.WF)
    (rest : Bytes) (hlen : (t.encode ++ rest).length < 2 ^ 63) :
    CallReplyDecodes strtod (t.encode ++ rest) t ↔ t.NulFree ∧ t.AttributesEmpty := by
  obtain ⟨hok, hfail⟩ := @callReplyParse_eq strtod rest t hwf hlen
  have hdrop : (t.encode ++ rest).drop 0 = t.encode ++ rest := rfl
  constructor
  · rintro ⟨rep, hparse, hdec⟩
    refine ⟨by_contra fun hnul => ?_, hwf.attributesEmpty_of_content (fun _ _ _ => hdec.attr)
      hdec.content⟩
    rw [hfail hnul] at hparse
    exact absurd hparse (by simp)
  · rintro ⟨hnul, hempty⟩
    exact ⟨_, hok hnul, (hwf.replyDecodes hempty _ hdrop).2 rfl rfl⟩

/-- An array of a bulk string and a set with one number, in front of another byte. -/
theorem callReplyDecodes_nested :
    CallReplyDecodes (fun _ => 0) (RespTree.encode (.node .array
      [.leaf (.bulkString [104, 105]), .node .set [.attributed [] (.leaf (.integer 5))]]) ++ [43])
      (.node .array
        [.leaf (.bulkString [104, 105]), .node .set [.attributed [] (.leaf (.integer 5))]]) := by
  have hfive : RespTree.WF (.attributed [] (.leaf (.integer 5))) :=
    .attributed (by decide) (by simp) (.leaf (by decide)) (by simp)
  refine (callReplyDecodes_iff (fun _ => 0) _ (.node (by decide) ?_) [43] (by decide +kernel)).mpr
    ⟨.node _ ?_, .node _ ?_⟩
  · simp only [mem_cons, not_mem_nil, or_false, forall_eq_or_imp, forall_eq]
    exact ⟨.leaf trivial, .node (by decide) (by simpa using hfive)⟩
  · simp only [mem_cons, not_mem_nil, or_false, forall_eq_or_imp, forall_eq]
    exact ⟨.leaf (by decide +kernel),
      .node _ (by simpa using .attributed (by simp) (.leaf (by decide +kernel)))⟩
  · simp only [mem_cons, not_mem_nil, or_false, forall_eq_or_imp, forall_eq]
    exact ⟨.leaf _, .node _ (by simpa using .attributed (.leaf _))⟩

/-- An integer with an attribute of one entry: the parser builds the attribute with its entry, and
the accessor does not return it. -/
theorem callReplyDecodes_attribute_entry :
    RespTree.WF (.attributed [.leaf (.simpleString [107]), .leaf (.integer 1)]
        (.leaf (.integer 2))) ∧
      (∃ rep a, callReplyParse (fun _ => 0) (RespTree.encode (.attributed
          [.leaf (.simpleString [107]), .leaf (.integer 1)] (.leaf (.integer 2)))) =
            some (rep, 16) ∧
        callReplyGetAttribute rep = some a ∧ callReplyGetLen a = 1 ∧
        callReplyGetAttributeElement a 0 = none) ∧
      ¬ CallReplyDecodes (fun _ => 0) (RespTree.encode (.attributed
          [.leaf (.simpleString [107]), .leaf (.integer 1)] (.leaf (.integer 2))))
        (.attributed [.leaf (.simpleString [107]), .leaf (.integer 1)] (.leaf (.integer 2))) := by
  have hwf : RespTree.WF (.attributed [.leaf (.simpleString [107]), .leaf (.integer 1)]
      (.leaf (.integer 2))) := by
    refine .attributed (by decide) ?_ (.leaf (by decide)) (by simp)
    simp only [mem_cons, not_mem_nil, or_false, forall_eq_or_imp, forall_eq]
    exact ⟨.leaf (by decide), .leaf (by decide)⟩
  have hnul : RespTree.NulFree (.attributed [.leaf (.simpleString [107]), .leaf (.integer 1)]
      (.leaf (.integer 2))) := by
    refine .attributed ?_ (.leaf (by decide +kernel))
    simp only [mem_cons, not_mem_nil, or_false, forall_eq_or_imp, forall_eq]
    exact ⟨.leaf (by decide), .leaf (by decide +kernel)⟩
  refine ⟨hwf, ?_, ?_⟩
  · have hparse := (@callReplyParse_eq (fun _ => 0) [] _ hwf (by decide +kernel)).1 hnul
    refine ⟨_, _, hparse, rfl, ?_, ?_⟩ <;> rfl
  · rintro ⟨rep, -, hdec⟩
    have hempty := hwf.attributesEmpty_of_content (fun _ _ _ => hdec.attr) hdec.content
    cases hempty

end RainCall
