import InfraBox.Lib.Bytes

/-!
# Elements with a tag, a length and contents

The grammar of definite-length encodings: an element is a tag, bytes that give a length, and
contents of that length, which for a constructed element are elements again. What a use of it
leaves open is a `Grammar`: the tags, how many length bytes, how deep elements nest, and how long
the contents of a primitive one may be. `Elements` derives a concatenation of elements at a depth,
with the number of elements in it at every depth.
-/

namespace InfraBox.Tlv

/-- Bytes that give a length: one below 128, or the number of the bytes that follow it, which hold
the length with the most significant byte first. -/
inductive LengthOctets (maxOctets : Nat) : GoString → Nat → Prop
  | short {b : UInt8} : b.toNat < 128 → LengthOctets maxOctets [b] b.toNat
  | long {b : UInt8} {bs : GoString} : b.toNat = 128 + bs.length → 1 ≤ bs.length →
      bs.length ≤ maxOctets → LengthOctets maxOctets (b :: bs) (beNat bs)

theorem LengthOctets.exists_cons {maxOctets n : Nat} {octets : GoString}
    (h : LengthOctets maxOctets octets n) : ∃ b bs, octets = b :: bs := by
  cases h with
  | short => exact ⟨_, _, rfl⟩
  | long => exact ⟨_, _, rfl⟩

/-- What an encoding leaves open. -/
structure Grammar where
  maxOctets : Nat
  maxDepth : Nat
  /-- the tags there are -/
  tag : UInt8 → Prop
  /-- the tags of elements that hold elements -/
  constructed : UInt8 → Prop
  /-- how long the contents of another element may be -/
  primitive : UInt8 → Nat → Prop

/-- `Elements g depth data count`: the data are elements at that depth, `count` of them with those
inside them. -/
inductive Elements (g : Grammar) : (depth : Nat) → GoString → (count : Nat) → Prop
  | nil {depth : Nat} : Elements g depth [] 0
  | primitive {depth count : Nat} {tag : UInt8} {length content rest : GoString} :
      g.tag tag → ¬ g.constructed tag → g.primitive tag content.length →
      LengthOctets g.maxOctets length content.length → Elements g depth rest count →
      Elements g depth (tag :: (length ++ (content ++ rest))) (1 + count)
  | constructed {depth inner count : Nat} {tag : UInt8} {length content rest : GoString} :
      g.tag tag → g.constructed tag → LengthOctets g.maxOctets length content.length →
      depth + 1 ≤ g.maxDepth → Elements g (depth + 1) content inner →
      Elements g depth rest count →
      Elements g depth (tag :: (length ++ (content ++ rest))) (1 + inner + count)

end InfraBox.Tlv
