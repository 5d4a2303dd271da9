/-!
# Machine words

A word is a signed 32-bit number. Registers, memory cells and data addresses
are words, and every integer enters the machine by `Word.wrap`.
-/

set_option autoImplicit false

namespace MipsStepper

abbrev Word := Int32

namespace Word

def wrap (n : Int) : Word := Int32.ofInt n

def bits (w : Word) : Nat := w.toUInt32.toNat

theorem wrap_toInt (w : Word) : wrap w.toInt = w := by
  simp [wrap]

theorem wrap_bits (w : Word) : wrap w.bits = w := by
  apply Int32.toInt.inj
  rw [wrap, Int32.toInt_ofInt]
  exact (BitVec.toInt_eq_toNat_bmod w.toBitVec).symm

theorem wrap_add (m n : Int) : wrap (m + n) = wrap m + wrap n := by
  simp [wrap, Int32.ofInt_add]

theorem wrap_neg (n : Int) : wrap (-n) = -wrap n := by
  simp [wrap, Int32.ofInt_neg]

theorem wrap_sub (m n : Int) : wrap (m - n) = wrap m - wrap n := by
  simp [wrap, Int32.ofInt_sub]

theorem wrap_natCast (n : Nat) : wrap n = (UInt32.ofNat n).toInt32 := by
  apply Int32.toBitVec.inj
  exact BitVec.ofInt_natCast 32 n

end Word

end MipsStepper
