import RainCall.Foundation.Bytes

/-!
# Readers of byte streams

A reader takes a value from the front of a byte stream and leaves the rest, or fails.
`Consumes p b v` says that `p` reads exactly the bytes `b`, whatever follows them, and gives `v`.
The rules below compose this over the steps of a reader.
-/

namespace RainCall

variable {α β : Type}

/-- A reader of byte streams. -/
abbrev ByteReader := StateT Bytes Option

namespace ByteReader

def fail : ByteReader α := fun _ => none

/-- Read `n` bytes. -/
def take (n : ℕ) : ByteReader Bytes := fun s =>
  if n ≤ s.length then some (s.take n, s.drop n) else none

/-- Continue with the value of a computation that does not read. -/
def lift (o : Option α) : ByteReader α := fun s => o.map fun v => (v, s)

end ByteReader

/-- The reader `p` reads exactly `b` and gives `v`. -/
def Consumes (p : ByteReader α) (b : Bytes) (v : α) : Prop :=
  ∀ rest, p (b ++ rest) = some (v, rest)

lemma Consumes.pure (v : α) : Consumes (pure v) [] v := fun _ => rfl

variable {v : α} {p : ByteReader α} {q : α → ByteReader β} {b : Bytes}

lemma Consumes.lift {o : Option α} (h : o = some v) : Consumes (ByteReader.lift o) [] v := by
  intro rest
  rw [ByteReader.lift, h]
  rfl

lemma Consumes.bind {b' : Bytes} {w : β} (hp : Consumes p b v) (hq : Consumes (q v) b' w) :
    Consumes (p >>= q) (b ++ b') w := by
  intro rest
  have hbind : (p >>= q) (b ++ (b' ++ rest)) = (p (b ++ (b' ++ rest))).bind fun r =>
      q r.1 r.2 := rfl
  rw [List.append_assoc, hbind, hp, Option.bind_some, hq]

/-- A first step that reads one byte. -/
lemma Consumes.bind_cons {b : UInt8} {bs : Bytes} {w : β} (hp : Consumes p [b] v)
    (hq : Consumes (q v) bs w) :
    Consumes (p >>= q) (b :: bs) w :=
  hp.bind hq

lemma Consumes.bind_nil {w : β} (hp : Consumes p b v) (hq : Consumes (q v) [] w) :
    Consumes (p >>= q) b w := by
  have h := hp.bind hq
  rwa [List.append_nil] at h

lemma Consumes.take {n : ℕ} (h : b.length = n) :
    Consumes (ByteReader.take n) b b := by
  intro rest
  rw [ByteReader.take, if_pos (by rw [List.length_append]; omega), List.take_left' h,
    List.drop_left' h]

end RainCall
