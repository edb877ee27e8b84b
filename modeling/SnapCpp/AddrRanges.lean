import SnapCpp.AddrMask
import SnapCpp.MaskedRange

/-!
Ranges of addresses. A range with both ends matches what is between them, and one with a single
end matches what its mask says; an intersection always has both ends, and takes the address of a
new object for an end that is missing. As numbers of 128 bits, both kinds are intervals in which
the bits under a mask are given, and the ends and masks of two ranges tell whether their
intersection is right.
-/
namespace SnapCpp.AddrRanges

open AddrParser AddrMask MaskedRange
open AddrRoundTrip (privateAddr)

/-- The bytes that `memcmp()` compares. -/
def key (a : Addr) : List ℕ := a.address.toList.map UInt8.toNat

/-- `operator <`. -/
def addrLt (a b : Addr) : Bool := key a < key b

/-- `operator <=`. -/
def addrLe (a b : Addr) : Bool := key a ≤ key b

def newAddr : Addr := ⟨Vector.replicate 16 0, 0, allOnes, .tcp⟩

def num (v : Vector UInt8 16) : ℕ := number v.toList

theorem num_lt (v : Vector UInt8 16) : num v < 2 ^ 128 := by
  simpa [num] using number_lt v.toList

theorem key_lt_iff {a b : Addr} : key a < key b ↔ num a.address < num b.address :=
  (number_lt_iff (by simp)).symm

theorem key_le_iff {a b : Addr} : key a ≤ key b ↔ num a.address ≤ num b.address := by
  rw [← not_lt, ← not_lt, key_lt_iff]

theorem num_newAddr : num newAddr.address = 0 := by decide

theorem num_injective {v w : Vector UInt8 16} (h : num v = num w) : v = w := by
  have hnot {a b : List UInt8} (hlength : a.length = b.length) (hnum : number a = number b) :
      ¬ a.map UInt8.toNat < b.map UInt8.toNat := fun hlt =>
    absurd ((number_lt_iff hlength).mpr hlt) (by omega)
  have hlist := le_antisymm (not_lt.mp (hnot (by simp) h.symm)) (not_lt.mp (hnot (by simp) h))
  exact Vector.toList_inj.mp (List.map_injective_iff.mpr (fun _ _ => UInt8.toNat_inj.mp) hlist)

/-- Every number of 128 bits is an address. -/
theorem exists_num {n : ℕ} (h : n < 2 ^ 128) : ∃ x : Addr, num x.address = n := by
  obtain ⟨l, hlength, hl⟩ := exists_number 16 h
  exact ⟨{ newAddr with address := ⟨l.toArray, by simpa using hlength⟩ }, by simpa [num] using hl⟩

theorem addrMatch_iff_num {a x : Addr} : addrMatch a x = true ↔
    num x.address &&& num a.mask = num a.address &&& num a.mask := by
  have hand (v w : Vector UInt8 16) : num (Vector.zipWith (· &&& ·) v w) = num v &&& num w := by
    rw [num, Vector.toList_zipWith]
    exact number_zipWith_and (by simp)
  rw [addrMatch_iff, ← hand, ← hand, ← Vector.toList_zipWith, ← Vector.toList_zipWith,
    Vector.toList_inj]
  exact ⟨fun h => congrArg num h.symm, fun h => (num_injective h).symm⟩

structure AddrRange where
  fHasFrom : Bool
  fHasTo : Bool
  fFrom : Addr
  fTo : Addr

def newRange : AddrRange := ⟨false, false, newAddr, newAddr⟩

namespace AddrRange

def setFrom (a : Addr) (r : AddrRange) : AddrRange := { r with fHasFrom := true, fFrom := a }

def setTo (a : Addr) (r : AddrRange) : AddrRange := { r with fHasTo := true, fTo := a }

def isRange (r : AddrRange) : Bool := r.fHasFrom && r.fHasTo

def isEmpty (r : AddrRange) : Bool := if !r.isRange then false else addrLt r.fTo r.fFrom

/-- `is_in()`, which throws for a range that is not complete. -/
def isIn (r : AddrRange) (rhs : Addr) : Option Bool :=
  if !r.isRange then none
  else if addrLe r.fFrom r.fTo then some (addrLe r.fFrom rhs && addrLe rhs r.fTo)
  else some false

def intersection (r rhs : AddrRange) : AddrRange :=
  setTo (if addrLt r.fTo rhs.fTo then r.fTo else rhs.fTo)
    (setFrom (if addrLt rhs.fFrom r.fFrom then r.fFrom else rhs.fFrom) newRange)

/-- `addr_range::match()`; `is_in()` is only called for a range that is complete. -/
def rangeMatch (r : AddrRange) (a : Addr) : Bool :=
  if r.isEmpty then false
  else if r.isRange then (r.isIn a).getD false
  else if r.fHasFrom then addrMatch r.fFrom a
  else addrMatch r.fTo a

inductive Built : AddrRange → Prop
  | newFrom (a : Addr) : Built (setFrom a newRange)
  | newTo (a : Addr) : Built (setTo a newRange)
  | setFrom (a : Addr) {r : AddrRange} : Built r → Built (setFrom a r)
  | setTo (a : Addr) {r : AddrRange} : Built r → Built (setTo a r)

variable {r s : AddrRange} {x : Addr}

theorem Built.ends (h : Built r) : (r.fHasFrom = true ∨ r.fHasTo = true) ∧
    (r.fHasFrom = false → r.fFrom = newAddr) ∧ (r.fHasTo = false → r.fTo = newAddr) := by
  induction h with
  | newFrom a => exact ⟨Or.inl rfl, fun hfalse => (by cases hfalse), fun _ => rfl⟩
  | newTo a => exact ⟨Or.inr rfl, fun _ => rfl, fun hfalse => (by cases hfalse)⟩
  | setFrom a _ ih => exact ⟨Or.inl rfl, fun hfalse => (by cases hfalse), ih.2.2⟩
  | setTo a _ ih => exact ⟨Or.inr rfl, ih.2.1, fun hfalse => (by cases hfalse)⟩

theorem rangeMatch_iff (h : r.isRange = true) : r.rangeMatch x = true ↔
    key r.fFrom ≤ key x ∧ key x ≤ key r.fTo := by
  rw [rangeMatch, isEmpty, isIn, h]
  by_cases hle : key r.fFrom ≤ key r.fTo
  · simp [addrLt, addrLe, hle, not_lt.mpr hle]
  · have hlt := not_le.mp hle
    simp only [addrLt, addrLe, hle, hlt, Bool.not_true, Bool.false_eq_true, if_false, if_true,
      decide_true, decide_false, false_iff, not_and, not_le]
    intro hfrom
    exact lt_of_lt_of_le hlt hfrom

theorem rangeMatch_intersection : (r.intersection s).rangeMatch x = true ↔
    (key r.fFrom ≤ key x ∧ key s.fFrom ≤ key x) ∧ key x ≤ key r.fTo ∧ key x ≤ key s.fTo := by
  have hfrom : key (r.intersection s).fFrom = max (key r.fFrom) (key s.fFrom) := by
    show key (if addrLt s.fFrom r.fFrom then r.fFrom else s.fFrom) = _
    by_cases hlt : key s.fFrom < key r.fFrom
    · simp [addrLt, hlt, max_eq_left hlt.le]
    · simp [addrLt, hlt, max_eq_right (not_lt.mp hlt)]
  have hto : key (r.intersection s).fTo = min (key r.fTo) (key s.fTo) := by
    show key (if addrLt r.fTo s.fTo then r.fTo else s.fTo) = _
    by_cases hlt : key r.fTo < key s.fTo
    · simp [addrLt, hlt, min_eq_left hlt.le]
    · simp [addrLt, hlt, min_eq_right (not_lt.mp hlt)]
  rw [rangeMatch_iff rfl, hfrom, hto, max_le_iff, le_min_iff]

def least (r : AddrRange) : ℕ := if r.isRange then num r.fFrom.address else 0

def greatest (r : AddrRange) : ℕ := if r.isRange then num r.fTo.address else 2 ^ 128 - 1

def mask (r : AddrRange) : ℕ :=
  if r.isRange then 0 else if r.fHasFrom then num r.fFrom.mask else num r.fTo.mask

def bits (r : AddrRange) : ℕ :=
  (if r.fHasFrom then num r.fFrom.address else num r.fTo.address) &&& r.mask

def Compatible (r s : AddrRange) : Prop := r.bits &&& s.mask = s.bits &&& r.mask

/-- Some address from `a` to `b` has the bits both masks ask for. -/
def Meets (r s : AddrRange) (a b : ℕ) : Prop :=
  Compatible r s ∧ meets 128 a b (r.mask ||| s.mask) (r.bits ||| s.bits) = true

/-- How the ends and masks of two ranges go together. Missing ends are read as `::`. Where the
larger 'from' is behind the smaller 'to', no address between the complete ends has the bits of
the masks. Otherwise this 'from' has them, differs from this 'to' only in bits below those of
the masks, and no address has them behind this 'to'. -/
def ReadAlike (r s : AddrRange) : Prop :=
  let first := max (num r.fFrom.address) (num s.fFrom.address)
  let last := min (num r.fTo.address) (num s.fTo.address)
  let back := min r.greatest s.greatest
  if last < first then ¬ Meets r s (max r.least s.least) back
  else Compatible r s ∧ first &&& (r.mask ||| s.mask) = r.bits ||| s.bits ∧
    (∀ i, (r.mask ||| s.mask).testBit i = true → first / 2 ^ i = last / 2 ^ i) ∧
    ¬ Meets r s (last + 1) back

theorem rangeMatch_iff_num (h : Built r) : r.rangeMatch x = true ↔
    (r.least ≤ num x.address ∧ num x.address ≤ r.greatest) ∧
      num x.address &&& r.mask = r.bits := by
  have hx := num_lt x.address
  rw [least, greatest, bits, mask]
  cases hrange : r.isRange with
  | true => simp [rangeMatch_iff hrange, key_le_iff]
  | false =>
    have hends := h.ends.1
    have hbetween : (0 ≤ num x.address ∧ num x.address ≤ 2 ^ 128 - 1) ↔ True :=
      iff_of_true ⟨Nat.zero_le _, by omega⟩ trivial
    simp only [rangeMatch, isEmpty, hrange, Bool.not_false, Bool.false_eq_true, if_true, if_false,
      hbetween, true_and]
    split_ifs <;> exact addrMatch_iff_num

theorem bits_and_mask (r : AddrRange) : r.bits &&& r.mask = r.bits := by
  rw [bits, Nat.and_assoc, Nat.and_self]

/-- What two ranges share. -/
theorem rangeMatch_both (hr : Built r) (hs : Built s) :
    r.rangeMatch x = true ∧ s.rangeMatch x = true ↔
      (max r.least s.least ≤ num x.address ∧ num x.address ≤ min r.greatest s.greatest) ∧
        Compatible r s ∧ num x.address &&& (r.mask ||| s.mask) = r.bits ||| s.bits := by
  rw [rangeMatch_iff_num hr, rangeMatch_iff_num hs, and_and_and_comm,
    and_eq_and_iff r.bits_and_mask s.bits_and_mask, max_le_iff, le_min_iff, Compatible]
  exact and_congr_left' and_and_and_comm

theorem meets_iff_exists {a b : ℕ} : Meets r s a b ↔ Compatible r s ∧
    ∃ x : Addr, (a ≤ num x.address ∧ num x.address ≤ b) ∧
      num x.address &&& (r.mask ||| s.mask) = r.bits ||| s.bits := by
  rw [Meets, meets_iff]
  refine and_congr_right fun _ => ⟨?_, ?_⟩
  · rintro ⟨n, hn, hlow, hhigh, hbits⟩
    obtain ⟨x, rfl⟩ := exists_num hn
    exact ⟨x, ⟨hlow, hhigh⟩, hbits⟩
  · rintro ⟨x, ⟨hlow, hhigh⟩, hbits⟩
    exact ⟨_, num_lt x.address, hlow, hhigh, hbits⟩

theorem least_le (r : AddrRange) : r.least ≤ num r.fFrom.address := by
  rw [least]
  split_ifs
  · exact le_rfl
  · exact Nat.zero_le _

theorem le_greatest (r : AddrRange) : num r.fTo.address ≤ r.greatest := by
  rw [greatest]
  split_ifs
  · exact le_rfl
  · exact Nat.le_sub_one_of_lt (num_lt _)

/-- A range with a 'to' starts at its 'from', one without ends at `::`. -/
theorem Built.least_or_to (h : Built r) :
    r.least = num r.fFrom.address ∨ num r.fTo.address = 0 := by
  cases hto : r.fHasTo with
  | true =>
    left
    rw [least]
    split_ifs with hrange
    · rfl
    · have hfrom : r.fHasFrom = false := by simpa [isRange, hto] using hrange
      rw [h.ends.2.1 hfrom, num_newAddr]
  | false =>
    right
    rw [h.ends.2.2 hto, num_newAddr]

/-- An intersection matches exactly what both ranges match if and only if they read alike. -/
theorem rangeMatch_intersection_iff (hr : Built r) (hs : Built s) :
    (∀ x, (r.intersection s).rangeMatch x = true ↔
      r.rangeMatch x = true ∧ s.rangeMatch x = true) ↔ ReadAlike r s := by
  have hinter (x : Addr) : (r.intersection s).rangeMatch x = true ↔
      max (num r.fFrom.address) (num s.fFrom.address) ≤ num x.address ∧
        num x.address ≤ min (num r.fTo.address) (num s.fTo.address) := by
    rw [rangeMatch_intersection, key_le_iff, key_le_iff, key_le_iff, key_le_iff, max_le_iff,
      le_min_iff]
  simp only [hinter, rangeMatch_both hr hs]
  have hfront : max r.least s.least ≤ max (num r.fFrom.address) (num s.fFrom.address) :=
    max_le_max r.least_le s.least_le
  have hback : min (num r.fTo.address) (num s.fTo.address) ≤ min r.greatest s.greatest :=
    min_le_min r.le_greatest s.le_greatest
  have hstart : min (num r.fTo.address) (num s.fTo.address) = 0 ∨
      max r.least s.least = max (num r.fFrom.address) (num s.fFrom.address) := by
    rcases hr.least_or_to with hrleast | hrto
    · rcases hs.least_or_to with hsleast | hsto
      · exact .inr (by rw [hrleast, hsleast])
      · exact .inl (by omega)
    · exact .inl (by omega)
  have hsmall := num_lt r.fTo.address
  rw [ReadAlike]
  generalize max (num r.fFrom.address) (num s.fFrom.address) = first at *
  generalize hlast : min (num r.fTo.address) (num s.fTo.address) = last at *
  generalize max r.least s.least = front at *
  generalize min r.greatest s.greatest = back at *
  split_ifs with hempty
  · rw [meets_iff_exists]
    constructor
    · rintro hall ⟨hcompatible, x, hbetween, hbits⟩
      have hboth := (hall x).mpr ⟨hbetween, hcompatible, hbits⟩
      omega
    · intro hnone x
      refine iff_of_false (by omega) ?_
      rintro ⟨hbetween, hcompatible, hbits⟩
      exact hnone ⟨hcompatible, x, hbetween, hbits⟩
  · rw [meets_iff_exists]
    constructor
    · intro hall
      obtain ⟨y, hy⟩ := exists_num (n := first) (by omega)
      have hcompatible := ((hall y).mp (by omega)).2.1
      have hinside : ∀ n, first ≤ n → n ≤ last →
          n &&& (r.mask ||| s.mask) = r.bits ||| s.bits := by
        intro n hlow hhigh
        obtain ⟨x, rfl⟩ := exists_num (n := n) (by omega)
        exact ((hall x).mp ⟨hlow, hhigh⟩).2.2
      obtain ⟨hfirst, hagree⟩ := (forall_and_eq_iff (by omega)).mp hinside
      refine ⟨hcompatible, hfirst, hagree, ?_⟩
      rintro ⟨-, x, ⟨hlow, hhigh⟩, hbits⟩
      have hboth := (hall x).mpr ⟨⟨by omega, hhigh⟩, hcompatible, hbits⟩
      omega
    · rintro ⟨hcompatible, hfirst, hagree, hbehind⟩ x
      have hinside := (forall_and_eq_iff (by omega)).mpr ⟨hfirst, hagree⟩
      constructor
      · rintro ⟨hlow, hhigh⟩
        exact ⟨by omega, hcompatible, hinside _ hlow hhigh⟩
      · rintro ⟨⟨hlow, hhigh⟩, -, hbits⟩
        refine ⟨by omega, ?_⟩
        by_contra hlarge
        exact hbehind ⟨hcompatible, x, ⟨by omega, hhigh⟩, hbits⟩

def network : AddrRange := setFrom { privateAddr with mask := maskBits 16 } newRange

theorem intersection_network : (∀ x, (network.intersection network).rangeMatch x = true ↔
    network.rangeMatch x = true ∧ network.rangeMatch x = true) ↔ ReadAlike network network :=
  rangeMatch_intersection_iff (Built.newFrom _) (Built.newFrom _)

/-- The intersection of a network with itself is empty. -/
theorem empty_intersection : ¬ ∀ (r s : AddrRange) (x : Addr), Built r → Built s →
    ((r.intersection s).rangeMatch x = true ↔ r.rangeMatch x = true ∧ s.rangeMatch x = true) := by
  intro h
  have hboth := (h network network privateAddr (Built.newFrom _) (Built.newFrom _)).mpr
    (by decide)
  exact absurd hboth (by decide)

end AddrRange

end SnapCpp.AddrRanges
