import Alys.Lib.Endian

/-!
# Values of fixed length

SSZ writes a value to bytes of which its reader gets all and no others. Values of a fixed length are
composed from numbers and bytes: the fields of a container are written one after the other, and the
reader cuts them apart by their lengths.
-/

namespace Alys.Lib

/-- How the values of a type are written and read, and the length of the fixed part. -/
structure Ssz (α : Type) where
  sszFixedLen : Nat
  asSszBytes : α → List UInt8
  fromSszBytes : List UInt8 → Option α

namespace Ssz

variable {α β : Type} {S : Ssz α} {T : Ssz β} {a : α}

/-- A value is written in the fixed length and read back. -/
structure Keeps (S : Ssz α) (a : α) : Prop where
  length_asSszBytes : (S.asSszBytes a).length = S.sszFixedLen
  fromSszBytes_asSszBytes : S.fromSszBytes (S.asSszBytes a) = some a

/-- Every value of the type is written in the fixed length and read back. -/
def Lawful (S : Ssz α) : Prop := ∀ a, S.Keeps a

/-- A given number of bytes. -/
def bytes (w : Nat) : Ssz (List UInt8) where
  sszFixedLen := w
  asSszBytes := id
  fromSszBytes bytes := if bytes.length = w then some bytes else none

/-- Bytes of the right number are kept. -/
lemma bytes_keeps {w : Nat} {data : List UInt8} (h : data.length = w) : (bytes w).Keeps data :=
  ⟨h, if_pos h⟩

/-- A number in a given number of bytes, the lowest first. -/
def number (w : Nat) : Ssz Nat where
  sszFixedLen := w
  asSszBytes := leBytes w
  fromSszBytes bytes := if bytes.length = w then some (leValue bytes) else none

/-- A number that the bytes can take is kept. -/
lemma number_keeps {w n : Nat} (h : n < 256 ^ w) : (number w).Keeps n where
  length_asSszBytes := length_leBytes w n
  fromSszBytes_asSszBytes := (if_pos (length_leBytes w n)).trans (congrArg some (leValue_leBytes h))

/-- Two fields, one after the other. -/
def pair (S : Ssz α) (T : Ssz β) : Ssz (α × β) where
  sszFixedLen := S.sszFixedLen + T.sszFixedLen
  asSszBytes x := S.asSszBytes x.1 ++ T.asSszBytes x.2
  fromSszBytes bytes := do
    let a ← S.fromSszBytes (bytes.take S.sszFixedLen)
    let b ← T.fromSszBytes (bytes.drop S.sszFixedLen)
    return (a, b)

/-- A pair is kept if both fields are. -/
lemma Keeps.pair {b : β} (ha : S.Keeps a) (hb : T.Keeps b) : (S.pair T).Keeps (a, b) where
  length_asSszBytes := by
    show (S.asSszBytes a ++ T.asSszBytes b).length = S.sszFixedLen + T.sszFixedLen
    rw [List.length_append, ha.length_asSszBytes, hb.length_asSszBytes]
  fromSszBytes_asSszBytes := by
    simp only [Ssz.pair, List.take_left' ha.length_asSszBytes, List.drop_left' ha.length_asSszBytes,
      ha.fromSszBytes_asSszBytes, hb.fromSszBytes_asSszBytes]
    rfl

/-- The same bytes for the values of another type, of which some may not exist. -/
def refine (S : Ssz α) (f : α → Option β) (g : β → α) : Ssz β where
  sszFixedLen := S.sszFixedLen
  asSszBytes b := S.asSszBytes (g b)
  fromSszBytes bytes := (S.fromSszBytes bytes).bind f

/-- A value is kept if the one that stands for it is. -/
lemma Keeps.refine {f : α → Option β} {g : β → α} {b : β} (h : S.Keeps (g b))
    (hfg : f (g b) = some b) : (S.refine f g).Keeps b where
  length_asSszBytes := h.length_asSszBytes
  fromSszBytes_asSszBytes := by
    show (S.fromSszBytes (S.asSszBytes (g b))).bind f = some b
    rw [h.fromSszBytes_asSszBytes, Option.bind_some, hfg]

/-- A number of 64 bits. -/
def u64 : Ssz UInt64 := (number 8).refine (fun n => some (.ofNat n)) UInt64.toNat

/-- Numbers of 64 bits are kept. -/
lemma u64_lawful : u64.Lawful := fun n =>
  (number_keeps n.toNat_lt).refine (congrArg some UInt64.ofNat_toNat)

end Ssz

end Alys.Lib
