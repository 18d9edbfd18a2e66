/-
Sizes of texts in bytes of their UTF-8 encoding.
-/

namespace Packrat

/-- The number of bytes of a text. -/
def byteLength : List Char → Nat
  | [] => 0
  | c :: rest => c.utf8Size + byteLength rest

/-- The byte offsets before and after each character of a text. -/
def byteOffsets (offset : Nat) : List Char → List Nat
  | [] => [offset]
  | c :: rest => offset :: byteOffsets (offset + c.utf8Size) rest

@[simp] theorem byteLength_append (a b : List Char) :
    byteLength (a ++ b) = byteLength a + byteLength b := by
  induction a with
  | nil => simp [byteLength]
  | cons c a ih => simp [byteLength, ih, Nat.add_assoc]

end Packrat
