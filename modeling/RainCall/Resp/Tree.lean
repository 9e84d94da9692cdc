import RainCall.Util.IntegerText

/-!
# RESP reply trees

The replies of the RESP2 and RESP3 protocols as trees, and their bytes on the wire. Every reply
starts with a type byte and a line that ends with CR LF; what follows the line is the payload.

Maps and attributes are written as their number of entries followed by the keys and values in turn,
and the tree keeps them as that list.
-/

namespace RainCall

def crlf : Bytes := [13, 10]

/-- The replies without sub-replies. -/
inductive RespLeaf where
  | simpleString (text : Bytes)
  | error (text : Bytes)
  | integer (n : ℤ)
  | bulkString (text : Bytes)
  | nullBulk
  | nullArray
  | null
  | bool (b : Bool)
  | double (text : Bytes)
  | bigNumber (text : Bytes)
  | verbatim (format text : Bytes)
  deriving DecidableEq, Repr

/-- The aggregate replies. -/
inductive RespKind where
  | array
  | set
  | map
  deriving DecidableEq, Repr

/-- A reply: a leaf, an aggregate, or a reply with an attribute in front. -/
inductive RespTree where
  | leaf (l : RespLeaf)
  | node (kind : RespKind) (children : List RespTree)
  | attributed (attrs : List RespTree) (t : RespTree)

/-- Induction on trees. -/
@[elab_as_elim]
theorem RespTree.ind {motive : RespTree → Prop} (leaf : ∀ l, motive (.leaf l))
    (node : ∀ kind children, (∀ c ∈ children, motive c) → motive (.node kind children))
    (attributed : ∀ attrs t, (∀ c ∈ attrs, motive c) → motive t → motive (.attributed attrs t))
    (t : RespTree) : motive t :=
  @RespTree.rec motive (fun l => ∀ c ∈ l, motive c) leaf node attributed
    (fun _ h => absurd h List.not_mem_nil)
    (fun _ _ hhead htail _ hc => (List.mem_cons.mp hc).elim (fun h => h ▸ hhead) (htail _)) t

/-! ### The bytes of a reply -/

namespace RespLeaf

def tag : RespLeaf → UInt8
  | simpleString _ => 43
  | error _ => 45
  | integer _ => 58
  | bulkString _ => 36
  | nullBulk => 36
  | nullArray => 42
  | null => 95
  | bool _ => 35
  | double _ => 44
  | bigNumber _ => 40
  | verbatim _ _ => 61

/-- The text between the type byte and the first CR LF. -/
def line : RespLeaf → Bytes
  | simpleString text => text
  | error text => text
  | integer n => signedDecimal n
  | bulkString text => signedDecimal text.length
  | nullBulk => signedDecimal (-1)
  | nullArray => signedDecimal (-1)
  | null => []
  | bool b => if b then [116] else [102]
  | double text => text
  | bigNumber text => text
  | verbatim format text => signedDecimal (format ++ 58 :: text).length

/-- What follows the first CR LF. -/
def payload : RespLeaf → Bytes
  | bulkString text => text ++ crlf
  | verbatim format text => format ++ 58 :: text ++ crlf
  | _ => []

/-- The bytes on the wire. -/
def encode (l : RespLeaf) : Bytes := l.tag :: l.line ++ crlf ++ l.payload

end RespLeaf

namespace RespKind

def tag : RespKind → UInt8
  | array => 42
  | set => 126
  | map => 37

def perEntry : RespKind → ℕ
  | map => 2
  | _ => 1

end RespKind

/-- The type byte and the line of an aggregate of `n` entries. -/
def respHeader (tag : UInt8) (n : ℕ) : Bytes := tag :: signedDecimal n ++ crlf

mutual

/-- The bytes of a reply on the wire. -/
def RespTree.encode : RespTree → Bytes
  | .leaf l => l.encode
  | .node kind children =>
    respHeader kind.tag (children.length / kind.perEntry) ++ RespTree.encodeAll children
  | .attributed attrs t =>
    respHeader 124 (attrs.length / 2) ++ RespTree.encodeAll attrs ++ RespTree.encode t

def RespTree.encodeAll : List RespTree → Bytes
  | [] => []
  | t :: rest => RespTree.encode t ++ RespTree.encodeAll rest

end

/-! ### Well-formed replies -/

/-- The text has no line break. -/
def IsLine (text : Bytes) : Prop := 13 ∉ text ∧ 10 ∉ text

instance (text : Bytes) : Decidable (IsLine text) := inferInstanceAs (Decidable (_ ∧ _))

/-- A leaf the protocol allows: a text that is a line has no line break, an integer is a 64-bit
number, and the format of a verbatim string has three bytes. -/
def RespLeaf.WF : RespLeaf → Prop
  | .simpleString text => IsLine text
  | .error text => IsLine text
  | .integer n => -(2 ^ 63) ≤ n ∧ n < 2 ^ 63
  | .double text => IsLine text
  | .bigNumber text => IsLine text
  | .verbatim format _ => format.length = 3
  | _ => True

instance : DecidablePred RespLeaf.WF := fun l => by
  cases l <;> simp only [RespLeaf.WF] <;> infer_instance

/-- A reply the protocol allows: maps and attributes have a value for each key, and an attribute
stands in front of a reply without one. -/
inductive RespTree.WF : RespTree → Prop
  | leaf {l : RespLeaf} (hl : l.WF) : WF (.leaf l)
  | node {kind : RespKind} {children : List RespTree} (heven : kind.perEntry ∣ children.length)
    (hchildren : ∀ c ∈ children, WF c) : WF (.node kind children)
  | attributed {attrs : List RespTree} {t : RespTree} (heven : 2 ∣ attrs.length)
    (hattrs : ∀ c ∈ attrs, WF c) (ht : WF t) (hone : ∀ attrs' t', t ≠ .attributed attrs' t') :
    WF (.attributed attrs t)

/-- The reply has no attribute. -/
inductive RespTree.NoAttribute : RespTree → Prop
  | leaf (l : RespLeaf) : NoAttribute (.leaf l)
  | node (kind : RespKind) {children : List RespTree} (h : ∀ c ∈ children, NoAttribute c) :
    NoAttribute (.node kind children)

/-! ### What a reply uses -/

/-- The leaf has a type that RESP2 does not have. -/
def RespLeaf.isResp3 : RespLeaf → Bool
  | .null => true
  | .bool _ => true
  | .double _ => true
  | .bigNumber _ => true
  | .verbatim _ _ => true
  | _ => false

mutual

/-- The reply or a sub-reply has a type that RESP2 does not have, or an attribute. -/
def RespTree.usesResp3 : RespTree → Bool
  | .leaf l => l.isResp3
  | .node .array children => RespTree.anyResp3 children
  | .node _ _ => true
  | .attributed _ _ => true

/-- One of the replies uses RESP3. -/
def RespTree.anyResp3 : List RespTree → Bool
  | [] => false
  | t :: rest => RespTree.usesResp3 t || RespTree.anyResp3 rest

end

def RespLeaf.NulFree (l : RespLeaf) : Prop := 0 ∉ l.line

instance : DecidablePred RespLeaf.NulFree := fun _ => inferInstanceAs (Decidable (_ ∉ _))

inductive RespTree.NulFree : RespTree → Prop
  | leaf {l : RespLeaf} (hl : l.NulFree) : NulFree (.leaf l)
  | node (kind : RespKind) {children : List RespTree} (h : ∀ c ∈ children, NulFree c) :
    NulFree (.node kind children)
  | attributed {attrs : List RespTree} {t : RespTree} (hattrs : ∀ c ∈ attrs, NulFree c)
    (ht : NulFree t) : NulFree (.attributed attrs t)

end RainCall
