import Mathlib

/-!
The bits of bytes, the highest bit of a byte first. The conjunction of bytes is that of their
bits, and a mask of ones and then zeroes keeps what is in front and clears the rest.
-/
namespace SnapCpp.ByteBits

def byteBits (b : UInt8) : List Bool := (List.range 8).map fun i => b.toNat.testBit (7 - i)

def bits (bytes : List UInt8) : List Bool := bytes.flatMap byteBits

@[simp] theorem length_byteBits (b : UInt8) : (byteBits b).length = 8 := by simp [byteBits]

@[simp] theorem bits_nil : bits [] = [] := rfl

@[simp] theorem bits_cons (b : UInt8) (bytes : List UInt8) :
    bits (b :: bytes) = byteBits b ++ bits bytes := List.flatMap_cons

@[simp] theorem bits_append (front back : List UInt8) :
    bits (front ++ back) = bits front ++ bits back := List.flatMap_append

@[simp] theorem length_bits (bytes : List UInt8) : (bits bytes).length = 8 * bytes.length := by
  induction bytes with
  | nil => rfl
  | cons b rest ih =>
    rw [bits_cons, List.length_append, length_byteBits, ih, List.length_cons]
    omega

theorem byteBits_injective {a b : UInt8} (h : byteBits a = byteBits b) : a = b := by
  refine UInt8.toNat_inj.mp (Nat.eq_of_testBit_eq fun i => ?_)
  by_cases hi : i < 8
  · have hget := congrArg (·[7 - i]?) h
    have hlt : 7 - i < 8 := by omega
    have hback : 7 - (7 - i) = i := by omega
    simpa [byteBits, hlt, hback] using hget
  · have hsmall : ∀ c : UInt8, c.toNat.testBit i = false := by
      intro c
      refine Nat.testBit_lt_two_pow (lt_of_lt_of_le c.toNat_lt ?_)
      exact Nat.pow_le_pow_right (by omega) (by omega)
    rw [hsmall, hsmall]

theorem bits_injective {a b : List UInt8} (hlength : a.length = b.length)
    (h : bits a = bits b) : a = b := by
  induction a generalizing b with
  | nil => exact (List.length_eq_zero_iff.mp hlength.symm).symm
  | cons x rest ih =>
    obtain ⟨y, b, rfl⟩ := List.exists_cons_of_length_eq_add_one hlength.symm
    rw [bits_cons, bits_cons] at h
    obtain ⟨hhead, htail⟩ := List.append_inj h (by simp)
    rw [byteBits_injective hhead, ih (Nat.succ.inj hlength) htail]

theorem byteBits_and (a b : UInt8) :
    byteBits (a &&& b) = List.zipWith (· && ·) (byteBits a) (byteBits b) := by
  rw [byteBits, byteBits, byteBits, List.zipWith_map, List.zipWith_self]
  refine List.map_congr_left fun i _ => ?_
  rw [UInt8.toNat_and, Nat.testBit_and]

theorem bits_and {a b : List UInt8} (h : a.length = b.length) :
    bits (List.zipWith (· &&& ·) a b) = List.zipWith (· && ·) (bits a) (bits b) := by
  induction a generalizing b with
  | nil => rfl
  | cons x rest ih =>
    obtain ⟨y, b, rfl⟩ := List.exists_cons_of_length_eq_add_one h.symm
    rw [List.zipWith_cons_cons, bits_cons, bits_cons, bits_cons, byteBits_and,
      ih (Nat.succ.inj h), List.zipWith_append (by simp)]

theorem zipWith_and_true (l : List Bool) :
    List.zipWith (· && ·) l (List.replicate l.length true) = l := by
  induction l with
  | nil => rfl
  | cons b rest ih => simp [List.replicate_succ, ih]

theorem zipWith_and_false (l : List Bool) :
    List.zipWith (· && ·) l (List.replicate l.length false) = List.replicate l.length false := by
  induction l with
  | nil => rfl
  | cons b rest ih => simp [List.replicate_succ, ih]

/-- A mask of ones and then zeroes keeps the front and clears the rest. -/
theorem zipWith_and_mask {l : List Bool} {n m : ℕ} (h : l.length = n + m) :
    List.zipWith (· && ·) l (List.replicate n true ++ List.replicate m false) =
      l.take n ++ List.replicate m false := by
  have hfront : (l.take n).length = n := by
    rw [List.length_take]
    omega
  have hback : (l.drop n).length = m := by
    rw [List.length_drop]
    omega
  have htrue := zipWith_and_true (l.take n)
  have hfalse := zipWith_and_false (l.drop n)
  rw [hfront] at htrue
  rw [hback] at hfalse
  conv_lhs => rw [← List.take_append_drop n l]
  rw [List.zipWith_append (by rw [hfront, List.length_replicate]), htrue, hfalse]

/-- Two texts agree behind such a mask if and only if their fronts agree. -/
theorem zipWith_and_mask_eq_iff {l l' : List Bool} {n m : ℕ} (h : l.length = n + m)
    (h' : l'.length = n + m) :
    List.zipWith (· && ·) l (List.replicate n true ++ List.replicate m false) =
        List.zipWith (· && ·) l' (List.replicate n true ++ List.replicate m false) ↔
      l.take n = l'.take n := by
  rw [zipWith_and_mask h, zipWith_and_mask h', List.append_cancel_right_eq]

end SnapCpp.ByteBits
