import Mathlib.Data.List.Basic

/-! A fixed-size byte buffer written through a cursor. Writes out of range are
run-time panics; copying truncates silently, as slices do. -/
namespace Nawst.Lib.Buffer

/-- Store the bytes from pos on; none when one of them is out of range. -/
def putBytes (buf : List UInt8) (pos : Nat) (bs : List UInt8) : Option (List UInt8) :=
  if pos+bs.length ≤ buf.length then some (buf.take pos ++ bs ++ buf.drop (pos+bs.length)) else none

/-- Copy into the slice from pos on, and report how many bytes were copied. -/
def copyInto (buf : List UInt8) (pos : Nat) (src : List UInt8) : Option (List UInt8 × Nat) :=
  if pos ≤ buf.length then
    let n := min (buf.length-pos) src.length
    some (buf.take pos ++ src.take n ++ buf.drop (pos+n),n)
  else none

/-- The bytes before the cursor, in a buffer of unchanged size. -/
structure Filled (size : Nat) (buf : List UInt8) (bs : List UInt8) : Prop where
  content : bs <+: buf
  size_eq : buf.length = size

namespace Filled
variable {size : Nat} {buf bs : List UInt8}

theorem length_le (h : Filled size buf bs) : bs.length ≤ size := h.size_eq ▸ h.content.length_le

theorem take_eq (h : Filled size buf bs) : buf.take bs.length = bs :=
  (List.prefix_iff_eq_take.mp h.content).symm

/-- A write that fits behind the cursor extends the content by all its bytes. -/
theorem putBytes (h : Filled size buf bs) (xs : List UInt8) (hx : bs.length+xs.length ≤ size) :
    ∃ buf', Buffer.putBytes buf bs.length xs = some buf' ∧ Filled size buf' (bs ++ xs) := by
  have hb : bs.length+xs.length ≤ buf.length := h.size_eq ▸ hx
  refine ⟨bs ++ xs ++ buf.drop (bs.length+xs.length),?_,List.prefix_append _ _,?_⟩
  · rw [Buffer.putBytes, if_pos hb, h.take_eq]
  · have := h.size_eq
    simp only [List.length_append, List.length_drop]
    omega

/-- A copy that fits is not truncated. -/
theorem copyInto (h : Filled size buf bs) (xs : List UInt8) (hx : bs.length+xs.length ≤ size) :
    ∃ buf', Buffer.copyInto buf bs.length xs = some (buf',xs.length) ∧ Filled size buf' (bs ++ xs) := by
  obtain ⟨buf',hp,hf⟩ := h.putBytes xs hx
  have hl := h.size_eq
  have hn : min (buf.length-bs.length) xs.length = xs.length := by omega
  rw [Buffer.putBytes, if_pos (by omega)] at hp
  refine ⟨buf',?_,hf⟩
  simp only [Buffer.copyInto, if_pos (show bs.length ≤ buf.length by omega), hn, List.take_length, Option.some.inj hp]

end Filled
end Nawst.Lib.Buffer
