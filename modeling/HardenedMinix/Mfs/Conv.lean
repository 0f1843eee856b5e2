import Mathlib

/-!
# Byte order

`conv2` and `conv4` swap the bytes of a word that comes from a file system of the other byte order.
An `int` or a `long` is a word of 32 bits.
-/

namespace HardenedMinix.Mfs

open BitVec

def byte : BitVec 32 := 0xFF#32

/-- The low half of `w`, with its bytes swapped unless `norm`. -/
def conv2 (norm : Bool) (w : BitVec 32) : BitVec 32 :=
  if norm then w &&& 0xFFFF#32 else ((w &&& byte) <<< 8) ||| ((w.sshiftRight 8) &&& byte)

def conv4 (norm : Bool) (x : BitVec 32) : BitVec 32 :=
  if norm then x
  else
    let lo := conv2 false (x &&& 0xFFFF#32)
    let hi := conv2 false ((x.sshiftRight 16) &&& 0xFFFF#32)
    (lo <<< 16) ||| hi

/-! ## Bits -/

theorem getLsbD_byte (i : Nat) : byte.getLsbD i = decide (i < 8) := by
  by_cases hi : i < 32
  · interval_cases i <;> rfl
  · rw [getLsbD_of_ge _ _ (by omega)]
    exact (decide_eq_false (by omega)).symm

theorem getLsbD_half (i : Nat) : (0xFFFF#32).getLsbD i = decide (i < 16) := by
  by_cases hi : i < 32
  · interval_cases i <;> rfl
  · rw [getLsbD_of_ge _ _ (by omega)]
    exact (decide_eq_false (by omega)).symm

theorem getLsbD_swap2 (w : BitVec 32) (i : Nat) :
    (conv2 false w).getLsbD i = (decide (i < 16) && w.getLsbD ((1 - i / 8) * 8 + i % 8)) := by
  have hcode : conv2 false w = ((w &&& byte) <<< 8) ||| ((w.sshiftRight 8) &&& byte) := rfl
  rw [hcode, getLsbD_or, getLsbD_shiftLeft, getLsbD_and, getLsbD_and, getLsbD_byte,
    getLsbD_byte, getLsbD_sshiftRight]
  by_cases hi : i < 16
  · interval_cases i <;> simp
  · have h8 : ¬ i < 8 := by omega
    have h8' : ¬ i - 8 < 8 := by omega
    simp [hi, h8, h8']

theorem getLsbD_swap4 (x : BitVec 32) (i : Nat) :
    (conv4 false x).getLsbD i = (decide (i < 32) && x.getLsbD ((3 - i / 8) * 8 + i % 8)) := by
  have hcode : conv4 false x = (conv2 false (x &&& 0xFFFF#32) <<< 16) |||
    conv2 false ((x.sshiftRight 16) &&& 0xFFFF#32) := rfl
  rw [hcode, getLsbD_or, getLsbD_shiftLeft, getLsbD_swap2, getLsbD_swap2, getLsbD_and,
    getLsbD_and, getLsbD_half, getLsbD_half, getLsbD_sshiftRight]
  by_cases hi : i < 32
  · interval_cases i <;> simp
  · have h16 : ¬ i < 16 := by omega
    simp [hi, h16]

/-! ## Round trips -/

theorem conv4_conv4 (norm : Bool) (x : BitVec 32) : conv4 norm (conv4 norm x) = x := by
  cases norm with
  | true => rfl
  | false =>
    apply eq_of_getLsbD_eq
    intro i hi
    have hbyte : (3 - i / 8) * 8 + i % 8 < 32 := by omega
    have hback : (3 - ((3 - i / 8) * 8 + i % 8) / 8) * 8 + ((3 - i / 8) * 8 + i % 8) % 8 = i := by omega
    rw [getLsbD_swap4, getLsbD_swap4, hback, decide_eq_true hi, decide_eq_true hbyte, Bool.true_and, Bool.true_and]

theorem conv2_of_half (norm : Bool) (w v : BitVec 32) (h : ∀ i < 16, v.getLsbD i = (conv2 norm w).getLsbD i) :
    conv2 norm v = w &&& 0xFFFF#32 := by
  apply eq_of_getLsbD_eq
  intro i _
  rw [getLsbD_and, getLsbD_half]
  cases norm with
  | true =>
    have hcode (u : BitVec 32) : conv2 true u = u &&& 0xFFFF#32 := rfl
    rw [hcode, getLsbD_and, getLsbD_half]
    by_cases hi : i < 16
    · rw [h i hi, hcode, getLsbD_and, getLsbD_half, decide_eq_true hi, Bool.and_true]
    · rw [decide_eq_false hi, Bool.and_false, Bool.and_false]
  | false =>
    rw [getLsbD_swap2]
    by_cases hi : i < 16
    · have hbyte : (1 - i / 8) * 8 + i % 8 < 16 := by omega
      have hback : (1 - ((1 - i / 8) * 8 + i % 8) / 8) * 8 + ((1 - i / 8) * 8 + i % 8) % 8 = i := by omega
      rw [h _ hbyte, getLsbD_swap2, hback, decide_eq_true hi, decide_eq_true hbyte, Bool.true_and, Bool.true_and,
        Bool.and_true]
    · rw [decide_eq_false hi, Bool.and_false, Bool.false_and]

theorem conv2_conv2_field (norm : Bool) (x : BitVec 16) :
    (conv2 norm (((conv2 norm (x.setWidth 32)).setWidth 16).setWidth 32)).setWidth 16 = x ∧
      (conv2 norm (((conv2 norm (x.setWidth 32)).setWidth 16).signExtend 32)).setWidth 16 = x := by
  have hlow : ((x.setWidth 32) &&& 0xFFFF#32).setWidth 16 = x := by
    apply eq_of_getLsbD_eq
    intro i hi
    rw [getLsbD_setWidth, getLsbD_and, getLsbD_half, getLsbD_setWidth]
    simp [hi, show i < 32 by omega]
  constructor
  · rw [conv2_of_half norm (x.setWidth 32), hlow]
    intro i hi
    rw [getLsbD_setWidth, getLsbD_setWidth]
    simp [hi, show i < 32 by omega]
  · rw [conv2_of_half norm (x.setWidth 32), hlow]
    intro i hi
    rw [getLsbD_signExtend, getLsbD_setWidth]
    simp [hi, show i < 32 by omega]

theorem conv2_conv2_zone (norm : Bool) (z : BitVec 32) :
    conv2 norm (((conv2 norm z).setWidth 16).setWidth 32) = z &&& 0xFFFF#32 := by
  refine conv2_of_half norm z _ fun i hi => ?_
  rw [getLsbD_setWidth, getLsbD_setWidth]
  simp [hi, show i < 32 by omega]

end HardenedMinix.Mfs
