import Mathlib.Data.List.GetD
import Mathlib.Data.List.Induction
import Mathlib.Algebra.Group.Nat.Defs

/-!
This module contains the big endian encoding of numbers and the packing of bits into bytes.
-/

namespace Bytes

def beBytes (len : Nat) (n : Nat) : List UInt8 :=
  match len with
  | 0 => []
  | len + 1 => beBytes len (n / 256) ++ [UInt8.ofNat n]

@[simp]
theorem length_beBytes (len : Nat) (n : Nat)
    : (beBytes len n).length = len := by
  induction len generalizing n with
  | zero => rfl
  | succ len ih => simp [beBytes, ih]

def ofBE (bs : List UInt8) : Nat :=
  bs.foldl (fun acc b => acc * 256 + b.toNat) 0

theorem ofBE_append_singleton (bs : List UInt8) (b : UInt8)
    : ofBE (bs ++ [b]) = ofBE bs * 256 + b.toNat := by
  simp [ofBE]

theorem ofBE_lt (bs : List UInt8)
    : ofBE bs < 256 ^ bs.length := by
  induction bs using List.reverseRecOn with
  | nil => decide
  | append_singleton bs b ih =>
    have := b.toNat_lt
    rw [ofBE_append_singleton, List.length_append, List.length_singleton, Nat.pow_succ]
    omega

theorem ofBE_injective (hlength : bs.length = cs.length) (h : ofBE bs = ofBE cs)
    : bs = cs := by
  induction bs using List.reverseRecOn generalizing cs with
  | nil => exact (List.eq_nil_of_length_eq_zero hlength.symm).symm
  | append_singleton bs b ih =>
    obtain ⟨cs, c, rfl⟩ : ∃ cs' c, cs = cs' ++ [c] := by
      have hne : cs ≠ [] := by
        rintro rfl
        simp at hlength
      exact ⟨_, _, (List.dropLast_concat_getLast hne).symm⟩
    rw [ofBE_append_singleton, ofBE_append_singleton] at h
    have hb := b.toNat_lt
    have hc := c.toNat_lt
    rw [ih (by simpa using hlength) (by omega), UInt8.toNat_inj.mp (by omega : b.toNat = c.toNat)]

theorem ofBE_beBytes (len : Nat) (n : Nat)
    : ofBE (beBytes len n) = n % 256 ^ len := by
  induction len generalizing n with
  | zero => rw [Nat.pow_zero, Nat.mod_one]; rfl
  | succ len ih =>
    rw [beBytes, ofBE_append_singleton, ih, Nat.pow_succ', Nat.mod_mul, UInt8.toNat_ofNat']
    omega

theorem beBytes_ofBE (bs : List UInt8)
    : beBytes bs.length (ofBE bs) = bs := by
  apply ofBE_injective (length_beBytes _ _)
  rw [ofBE_beBytes, Nat.mod_eq_of_lt (ofBE_lt bs)]

theorem toList_loop (l : List UInt8) (i : Nat) (acc : List UInt8)
    : ByteArray.toList.loop ⟨l.toArray⟩ i acc = acc.reverse ++ l.drop i := by
  induction hn : l.length - i generalizing i acc with
  | zero =>
    rw [ByteArray.toList.loop, if_neg (by simp [ByteArray.size]; omega), List.drop_eq_nil_of_le (by omega),
      List.append_nil]
  | succ n ih =>
    have hi : i < l.length := by omega
    have hget : ByteArray.get! ⟨l.toArray⟩ i = l[i] := by
      simp [ByteArray.get!, hi]
    rw [ByteArray.toList.loop, if_pos (by simpa [ByteArray.size] using hi), ih _ _ (by omega),
      List.drop_eq_getElem_cons hi, hget]
    simp

theorem toList_byteArray (l : List UInt8)
    : ByteArray.toList ⟨l.toArray⟩ = l := toList_loop l 0 []

def bitsToByte (bits : List Bool) : UInt8 :=
  bits.foldr (fun b acc => acc * 2 + if b then 1 else 0) 0

def packBits (len : Nat) (bits : List Bool) : List UInt8 :=
  (List.range len).map fun i => bitsToByte ((bits.drop (8 * i)).take 8)

theorem testBit_bitsToByte (h : bits.length ≤ 8) (j : Nat)
    : (bitsToByte bits).toNat.testBit j = bits.getD j false := by
  have hval : (bitsToByte bits).toNat < 2 ^ bits.length
      ∧ ∀ j, (bitsToByte bits).toNat.testBit j = bits.getD j false := by
    clear j
    induction bits with
    | nil => exact ⟨by decide, fun j => by simp [bitsToByte]⟩
    | cons b bits ih =>
      rw [List.length_cons] at h
      obtain ⟨hlt, hbit⟩ := ih (by omega)
      have hpow : 2 ^ (bits.length + 1) ≤ 2 ^ 8 := Nat.pow_le_pow_right (by omega) h
      have hle : b.toNat ≤ 1 := Bool.toNat_le b
      have hcons : (bitsToByte (b :: bits)).toNat = 2 * (bitsToByte bits).toNat + b.toNat := by
        rw [bitsToByte, List.foldr_cons, ← bitsToByte, UInt8.toNat_add, UInt8.toNat_mul]
        cases b <;> simp <;> omega
      rw [hcons, List.length_cons]
      refine ⟨by omega, ?_⟩
      intro j
      cases j with
      | zero => cases b <;> simp [Nat.testBit_zero]
      | succ j =>
        have hhalf : (2 * (bitsToByte bits).toNat + b.toNat) / 2 = (bitsToByte bits).toNat := by omega
        rw [Nat.testBit_succ, List.getD_cons_succ, ← hbit j, hhalf]
  exact hval.2 j

-- the bits are counted from the lowest one of the first byte
def bit (bs : List UInt8) (pos : Nat) : Bool := (bs.getD (pos / 8) 0).toNat.testBit (pos % 8)

theorem ext_bit (hlength : bs.length = cs.length)
    (h : ∀ pos < 8 * bs.length, bit bs pos = bit cs pos)
    : bs = cs := by
  apply List.ext_getElem hlength
  intro i hi hi'
  apply UInt8.toNat_inj.mp
  apply Nat.eq_of_testBit_eq
  intro j
  rcases Nat.lt_or_ge j 8 with hj | hj
  . have hbit := h (8 * i + j) (by omega)
    rw [bit, bit, show (8 * i + j) / 8 = i by omega, show (8 * i + j) % 8 = j by omega,
      List.getD_eq_getElem _ _ hi, List.getD_eq_getElem _ _ hi'] at hbit
    exact hbit
  . have hpow : 2 ^ 8 ≤ 2 ^ j := Nat.pow_le_pow_right (by omega) hj
    rw [Nat.testBit_lt_two_pow (Nat.lt_of_lt_of_le bs[i].toNat_lt hpow),
      Nat.testBit_lt_two_pow (Nat.lt_of_lt_of_le cs[i].toNat_lt hpow)]

@[simp]
theorem length_packBits (len : Nat) (bits : List Bool)
    : (packBits len bits).length = len := by
  simp [packBits]

theorem bit_packBits (h : pos < 8 * len)
    : bit (packBits len bits) pos = bits.getD pos false := by
  have hlt : pos / 8 < len := by omega
  rw [bit, packBits, List.getD_eq_getElem _ _ (by simpa using hlt), List.getElem_map, List.getElem_range,
    testBit_bitsToByte (List.length_take_le _ _)]
  rw [List.getD_eq_getElem?_getD, List.getD_eq_getElem?_getD, List.getElem?_take_of_lt (Nat.mod_lt _ (by omega)),
    List.getElem?_drop, Nat.div_add_mod]

end Bytes
