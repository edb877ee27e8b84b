import SnapCpp.TldEmails
import SnapCpp.Utf

/-!
The texts that `tld_domain_to_lowercase()` reads: a percent encoding of UTF-8 in which
characters may have more bytes than they need, up to the first character that is zero in
lowercase. It writes their characters in lowercase, when these can be written and fit.
-/
namespace SnapCpp.EmailDomain

open TldEmails

/-- A character that stays as it is when it is read again. -/
structure Settled (towlower : ℕ → ℕ) (wc : ℕ) : Prop where
  ascii : wc < 0x80 → ¬(0x41 ≤ wc ∧ wc ≤ 0x5A)
  other : 0x80 ≤ wc → towlower wc = wc

theorem hex2dec_dec2hex {d : ℕ} (h : d < 16) : tldHex2dec (tldDec2hex d) = some d := by
  have hall : ∀ d < 16, tldHex2dec (tldDec2hex d) = some d := by decide
  exact hall d h

theorem plainOut_ne {b : UInt8} (h : isPlainOut b = true) : b ≠ 0x25 := by
  revert b
  decide +kernel

theorem byteIn_of_ne {b : UInt8} (rest : Bytes) (h : b ≠ 0x25) :
    tldByteIn (b :: rest) = some (b.toNat, rest) := by
  unfold tldByteIn
  split
  · cases ‹b :: rest = []›
  · exact absurd (List.cons.inj ‹b :: rest = _›).1 h
  · exact absurd (List.cons.inj ‹b :: rest = _›).1 h
  · obtain ⟨rfl, rfl⟩ := List.cons.inj ‹b :: rest = _›
    rfl

end SnapCpp.EmailDomain

namespace SnapCpp.TldSpelling

open TldEmails EmailDomain Utf

/-- A spelling of bytes: each as it is, unless it is a percent sign, or as two
hexadecimal digits in either case. -/
inductive Spells : Bytes → Bytes → Prop
  | nil : Spells [] []
  | raw {s t : Bytes} {b : UInt8} (hb : b ≠ 0x25) (h : Spells s t) : Spells (b :: s) (b :: t)
  | escaped {s t : Bytes} {b high low : UInt8} (hhigh : tldHex2dec high = some (b.toNat / 16))
      (hlow : tldHex2dec low = some (b.toNat % 16)) (h : Spells s t) :
      Spells (0x25 :: high :: low :: s) (b :: t)

/-- A character that `tld_wctomb()` refuses. -/
def IsNonCharacter (c : Char) : Prop := c.toNat % 0x10000 = 0xFFFE ∨ c.toNat % 0x10000 = 0xFFFF

/-- The bytes that `tld_byte_out()` writes for those of a name. -/
def bytesOut (name : Bytes) : Bytes := name.flatMap fun b => tldByteOut b.toNat

theorem byteIn_spells_nil {s : Bytes} (h : Spells s []) : s = [] := by
  cases h
  rfl

theorem bytesOut_append (s t : Bytes) : bytesOut (s ++ t) = bytesOut s ++ bytesOut t :=
  List.flatMap_append

theorem wctomb_char (c : Char) (hc : ¬IsNonCharacter c) :
    tldWctomb c.toNat = some (bytesOut (utf8Char c)) := by
  have hlt := char_lt c
  unfold IsNonCharacter at hc
  unfold tldWctomb utf8Char bytesOut
  split_ifs with h1 h2 h3 hbad h4
  · simp [toNat_toUInt8 (show c.toNat < 0x100 by omega)]
  · simp only [List.flatMap_cons, List.flatMap_nil, List.append_nil]
    rw [toNat_toUInt8 (by omega), toNat_toUInt8 (by omega), Nat.add_comm 0xC0, Nat.add_comm 0x80]
  · omega
  · simp only [List.flatMap_cons, List.flatMap_nil, List.append_nil]
    rw [toNat_toUInt8 (by omega), toNat_toUInt8 (by omega), toNat_toUInt8 (by omega),
      Nat.add_comm 0xE0, Nat.add_comm 0x80, Nat.add_comm 0x80, List.append_assoc]
  · simp only [List.flatMap_cons, List.flatMap_nil, List.append_nil]
    rw [toNat_toUInt8 (by omega), toNat_toUInt8 (by omega), toNat_toUInt8 (by omega),
      toNat_toUInt8 (by omega), Nat.add_comm 0xF0, Nat.add_comm 0x80, Nat.add_comm 0x80,
      Nat.add_comm 0x80, List.append_assoc, List.append_assoc]
  · omega

theorem wctomb_nonCharacter (c : Char) (hc : IsNonCharacter c) : tldWctomb c.toNat = none := by
  have hlt := char_lt c
  unfold IsNonCharacter at hc
  unfold tldWctomb
  split_ifs <;> first | rfl | omega

theorem byteOut_length (n : ℕ) : 1 ≤ (tldByteOut n).length ∧ (tldByteOut n).length ≤ 3 := by
  unfold tldByteOut
  split_ifs <;> simp

theorem bytesOut_length (s : Bytes) : (bytesOut s).length ≤ 3 * s.length := by
  induction s with
  | nil => exact Nat.le_refl _
  | cons b s ih =>
    have hb := (byteOut_length b.toNat).2
    have hcons : bytesOut (b :: s) = tldByteOut b.toNat ++ bytesOut s := rfl
    rw [hcons, List.length_append, List.length_cons]
    omega

end SnapCpp.TldSpelling

namespace SnapCpp.DomainLowercase

open TldEmails EmailDomain TldSpelling Utf

section Spec

variable (towlower : ℕ → ℕ)

def lowerCode (n : ℕ) : ℕ :=
  if n < 0x80 then if 0x41 ≤ n ∧ n ≤ 0x5A then n + 0x20 else n else towlower n

def written (cs : List Char) : Bytes := bytesOut (utf8 cs)

/-- The number of bytes that follow a first byte, and the bits it has of its character. -/
def lead (a : UInt8) : Option (ℕ × ℕ) :=
  let a := a.toNat
  if 0xC0 ≤ a ∧ a < 0xE0 then some (1, a % 32)
  else if 0xE0 ≤ a ∧ a < 0xF0 then some (2, a % 16)
  else if 0xF0 ≤ a ∧ a < 0xF8 then some (3, a % 8)
  else none

def IsContinuation (b : UInt8) : Prop := 0x80 ≤ b.toNat ∧ b.toNat ≤ 0xBF

def payload (start : ℕ) (tail : Bytes) : ℕ := tail.foldl (fun wc b => wc * 64 + b.toNat % 64) start

inductive Form : ℕ → Bytes → Prop
  | ascii {b : UInt8} (h : b.toNat < 0x80) : Form (lowerCode towlower b.toNat) [b]
  | more {a : UInt8} {tail : Bytes} {start : ℕ} (hlead : lead a = some (tail.length, start))
      (htail : ∀ b ∈ tail, IsContinuation b) : Form (towlower (payload start tail)) (a :: tail)

inductive Text : Bytes → List ℕ → Prop
  | done : Text [] []
  | stop {front bytes : Bytes} (rest : Bytes) (hspells : Spells front bytes)
      (hform : Form towlower 0 bytes) : Text (front ++ rest) []
  | char {front bytes s : Bytes} {w : ℕ} {ws : List ℕ} (hspells : Spells front bytes)
      (hform : Form towlower w bytes) (hne : w ≠ 0) (h : Text s ws) : Text (front ++ s) (w :: ws)

end Spec

section Spelling

variable {s t : Bytes}

theorem spells_append {s' t' : Bytes} (h : Spells s t) (h' : Spells s' t') :
    Spells (s ++ s') (t ++ t') := by
  induction h with
  | nil => exact h'
  | raw hb _ ih => exact .raw hb ih
  | escaped hhigh hlow _ ih => exact .escaped hhigh hlow ih

theorem spells_byteOut (b : UInt8) : Spells (tldByteOut b.toNat) [b] := by
  have hlt := b.toNat_lt
  unfold tldByteOut
  rw [UInt8.ofNat_toNat]
  split_ifs with hplain
  · exact .raw (plainOut_ne hplain) .nil
  · exact .escaped (hex2dec_dec2hex (by omega)) (hex2dec_dec2hex (by omega)) .nil

theorem spells_bytesOut (t : Bytes) : Spells (bytesOut t) t := by
  induction t with
  | nil => exact .nil
  | cons b t ih => exact spells_append (spells_byteOut b) ih

theorem spells_unique {t' : Bytes} (h : Spells s t) (h' : Spells s t') : t = t' := by
  induction h generalizing t' with
  | nil =>
    cases h'
    rfl
  | raw hb _ ih =>
    cases h' with
    | raw _ h' => rw [ih h']
    | escaped => exact absurd rfl hb
  | @escaped _ _ b _ _ hhigh hlow _ ih =>
    cases h' with
    | raw hb => exact absurd rfl hb
    | @escaped _ _ b' _ _ hhigh' hlow' h' =>
      have hdiv := Option.some.inj (hhigh.symm.trans hhigh')
      have hmod := Option.some.inj (hlow.symm.trans hlow')
      have hb : b = b' := UInt8.toNat_inj.mp (by omega)
      rw [ih h', hb]

theorem spells_split {t' : Bytes} (h : Spells s (t ++ t')) :
    ∃ front rest, s = front ++ rest ∧ Spells front t ∧ Spells rest t' := by
  induction t generalizing s with
  | nil => exact ⟨[], s, rfl, .nil, h⟩
  | cons b t ih =>
    cases h with
    | raw hb h =>
      obtain ⟨front, rest, rfl, hfront, hrest⟩ := ih h
      exact ⟨b :: front, rest, rfl, .raw hb hfront, hrest⟩
    | escaped hhigh hlow h =>
      obtain ⟨front, rest, rfl, hfront, hrest⟩ := ih h
      exact ⟨0x25 :: _ :: _ :: front, rest, rfl, .escaped hhigh hlow hfront, hrest⟩

theorem spells_ne_nil (h : Spells s t) (ht : t ≠ []) : s ≠ [] := by
  rintro rfl
  cases h
  exact ht rfl

theorem byteIn_front {b : UInt8} (h : Spells s [b]) (rest : Bytes) :
    tldByteIn (s ++ rest) = some (b.toNat, rest) := by
  cases h with
  | raw hb h =>
    obtain rfl := byteIn_spells_nil h
    exact byteIn_of_ne rest hb
  | @escaped _ _ _ high low hhigh hlow h =>
    obtain rfl := byteIn_spells_nil h
    show (do return ((← tldHex2dec high) * 16 + (← tldHex2dec low), rest)) = some (b.toNat, rest)
    rw [hhigh, hlow]
    simp [Nat.div_add_mod']

theorem hex2dec_lt {b : UInt8} {n : ℕ} (h : tldHex2dec b = some n) : n < 16 := by
  have hall : ∀ b : UInt8, ∀ n ∈ tldHex2dec b, n < 16 := by decide +kernel
  exact hall b n h

/-- What `tld_byte_in()` reads. -/
theorem byteIn_inv {n : ℕ} {rest : Bytes} (h : tldByteIn s = some (n, rest)) :
    (s = [] ∧ n = 0 ∧ rest = []) ∨
      ∃ front b, s = front ++ rest ∧ Spells front [b] ∧ n = b.toNat := by
  unfold tldByteIn at h
  split at h
  · obtain ⟨rfl, rfl⟩ := Prod.mk.inj (Option.some.inj h)
    exact .inl ⟨rfl, rfl, rfl⟩
  · rename_i high low rest'
    cases hhigh : tldHex2dec high with
    | none => simp [hhigh] at h
    | some d =>
      cases hlow : tldHex2dec low with
      | none => simp [hhigh, hlow] at h
      | some e =>
        rw [hhigh, hlow] at h
        obtain ⟨rfl, rfl⟩ := Prod.mk.inj (Option.some.inj h)
        have hd := hex2dec_lt hhigh
        have he := hex2dec_lt hlow
        have hvalue : (d * 16 + e).toUInt8.toNat = d * 16 + e := toNat_toUInt8 (by omega)
        refine .inr ⟨[0x25, high, low], (d * 16 + e).toUInt8, rfl, .escaped ?_ ?_ .nil, hvalue.symm⟩
        · rw [hvalue, hhigh]
          congr 1
          omega
        · rw [hvalue, hlow]
          congr 1
          omega
  · cases h
  · rename_i b rest' hescape hpercent
    obtain ⟨rfl, rfl⟩ := Prod.mk.inj (Option.some.inj h)
    refine .inr ⟨[b], b, rfl, .raw ?_ .nil, rfl⟩
    rintro rfl
    exact hpercent rfl

end Spelling

section Reading

variable {towlower : ℕ → ℕ} {s rest : Bytes} {w : ℕ}

theorem payload_cons (start : ℕ) (b : UInt8) (tail : Bytes) :
    payload start (b :: tail) = payload (start * 64 + b.toNat % 64) tail := rfl

theorem following_front {front tail : Bytes} (start : ℕ) (h : Spells front tail)
    (htail : ∀ b ∈ tail, IsContinuation b) (rest : Bytes) :
    tldFollowing tail.length start (front ++ rest) = some (payload start tail, rest) := by
  induction tail generalizing front start with
  | nil =>
    obtain rfl := byteIn_spells_nil h
    rfl
  | cons b tail ih =>
    obtain ⟨⟨hlow, hhigh⟩, hrest⟩ := List.forall_mem_cons.mp htail
    obtain ⟨x, y, rfl, hx, hy⟩ := @spells_split _ [b] tail h
    rw [List.length_cons, tldFollowing, List.append_assoc, byteIn_front hx]
    simp only [Option.bind_eq_bind, Option.bind_some]
    rw [if_neg (by omega), ih _ hy hrest, payload_cons]

theorem following_inv {count start : ℕ} (h : tldFollowing count start s = some (w, rest)) :
    ∃ front tail, s = front ++ rest ∧ Spells front tail ∧ tail.length = count ∧
      (∀ b ∈ tail, IsContinuation b) ∧ w = payload start tail := by
  induction count generalizing s start with
  | zero =>
    obtain ⟨rfl, rfl⟩ := Prod.mk.inj (Option.some.inj h)
    exact ⟨[], [], rfl, .nil, rfl, by simp, rfl⟩
  | succ count ih =>
    rw [tldFollowing] at h
    cases hread : tldByteIn s with
    | none =>
      rw [hread] at h
      cases h
    | some r =>
      obtain ⟨n, s'⟩ := r
      rw [hread] at h
      simp only [Option.bind_eq_bind, Option.bind_some] at h
      split_ifs at h with hrange
      obtain ⟨front, tail, rfl, hspells, rfl, htail, rfl⟩ := ih h
      rcases byteIn_inv hread with ⟨-, rfl, -⟩ | ⟨x, b, rfl, hx, rfl⟩
      · omega
      · refine ⟨x ++ front, b :: tail, by rw [List.append_assoc], spells_append hx hspells, rfl, ?_,
          rfl⟩
        rw [List.forall_mem_cons]
        exact ⟨⟨by omega, by omega⟩, htail⟩

/-- `tld_mbtowc()` at the first byte of a character. -/
theorem mbtowc_eq {n : ℕ} {s' : Bytes} (h : tldByteIn s = some (n, s')) (hn : n < 256) :
    tldMbtowc towlower s =
      if n < 0x80 then some (lowerCode towlower n, s')
      else (lead n.toUInt8).bind fun l =>
        (tldFollowing l.1 l.2 s').map fun r => (towlower r.1, r.2) := by
  have hvalue : n.toUInt8.toNat = n := toNat_toUInt8 (by omega)
  rw [tldMbtowc, h, lead, hvalue, lowerCode]
  simp only [Option.bind_eq_bind, Option.bind_some]
  by_cases hascii : n < 0x80
  · rw [if_pos hascii, if_pos hascii, if_pos hascii]
    split_ifs <;> rfl
  rw [if_neg hascii, if_neg hascii]
  by_cases h8 : 0xF8 ≤ n
  · rw [if_pos h8, if_neg (by omega), if_neg (by omega), if_neg (by omega)]
    rfl
  rw [if_neg h8]
  by_cases h4 : 0xF0 ≤ n
  · rw [if_pos h4, if_neg (by omega), if_neg (by omega), if_pos (by omega), Option.bind_some]
    cases tldFollowing 3 (n % 8) s' <;> rfl
  rw [if_neg h4]
  by_cases h3 : 0xE0 ≤ n
  · rw [if_pos h3, if_neg (by omega), if_pos (by omega), Option.bind_some]
    cases tldFollowing 2 (n % 16) s' <;> rfl
  rw [if_neg h3]
  by_cases h2 : 0xC0 ≤ n
  · rw [if_pos h2, if_pos (by omega), Option.bind_some]
    cases tldFollowing 1 (n % 32) s' <;> rfl
  · rw [if_neg h2, if_neg (by omega), if_neg (by omega), if_neg (by omega)]
    rfl

theorem lead_ge {a : UInt8} {count start : ℕ} (h : lead a = some (count, start)) :
    0x80 ≤ a.toNat := by
  unfold lead at h
  dsimp only at h
  split_ifs at h <;> omega

/-- `tld_mbtowc()` reads a character in the form of UTF-8. -/
theorem mbtowc_form {front bytes : Bytes} (hspells : Spells front bytes)
    (hform : Form towlower w bytes) (rest : Bytes) :
    tldMbtowc towlower (front ++ rest) = some (w, rest) := by
  cases hform with
  | @ascii b hascii =>
    rw [mbtowc_eq (byteIn_front hspells rest) b.toNat_lt, if_pos hascii]
  | @more a tail start hlead htail =>
    obtain ⟨x, y, rfl, hx, hy⟩ := @spells_split _ [a] tail hspells
    have hge := lead_ge hlead
    rw [List.append_assoc, mbtowc_eq (byteIn_front hx _) a.toNat_lt, if_neg (by omega)]
    have ha : a.toNat.toUInt8 = a := UInt8.ofNat_toNat
    rw [ha, hlead, Option.bind_some, following_front start hy htail]
    rfl

/-- And nothing else. -/
theorem mbtowc_inv (h : tldMbtowc towlower s = some (w, rest)) :
    (s = [] ∧ w = 0 ∧ rest = []) ∨
      ∃ front bytes, s = front ++ rest ∧ Spells front bytes ∧ Form towlower w bytes := by
  cases hread : tldByteIn s with
  | none =>
    rw [tldMbtowc, hread] at h
    cases h
  | some r =>
    obtain ⟨n, s'⟩ := r
    rcases byteIn_inv hread with ⟨rfl, rfl, rfl⟩ | ⟨x, b, rfl, hx, rfl⟩
    · rw [mbtowc_eq hread (by decide), if_pos (by decide)] at h
      obtain ⟨rfl, rfl⟩ := Prod.mk.inj (Option.some.inj h)
      exact .inl ⟨rfl, rfl, rfl⟩
    · right
      rw [mbtowc_eq hread b.toNat_lt] at h
      by_cases hascii : b.toNat < 0x80
      · rw [if_pos hascii] at h
        obtain ⟨rfl, rfl⟩ := Prod.mk.inj (Option.some.inj h)
        exact ⟨x, [b], rfl, hx, .ascii hascii⟩
      · have hb : b.toNat.toUInt8 = b := UInt8.ofNat_toNat
        rw [if_neg hascii, hb] at h
        cases hlead : lead b with
        | none =>
          rw [hlead] at h
          cases h
        | some l =>
          obtain ⟨count, start⟩ := l
          rw [hlead, Option.bind_some] at h
          obtain ⟨⟨code, rest'⟩, hfollowing, heq⟩ := Option.map_eq_some_iff.mp h
          obtain ⟨rfl, rfl⟩ := Prod.mk.inj heq
          obtain ⟨y, tail, rfl, hy, rfl, htail, rfl⟩ := following_inv hfollowing
          exact ⟨x ++ y, b :: tail, by rw [List.append_assoc], spells_append hx hy,
            .more hlead htail⟩

theorem form_ne_nil {bytes : Bytes} (h : Form towlower w bytes) : bytes ≠ [] := by
  cases h <;> simp

theorem form_utf8Char (c : Char) : Form towlower (lowerCode towlower c.toNat) (utf8Char c) := by
  have hlt := char_lt c
  have hcontinues : ∀ n < 64, IsContinuation (0x80 + n).toUInt8 := by
    intro n hn
    rw [IsContinuation, toNat_toUInt8 (by omega)]
    omega
  have hbits : ∀ n < 64, (0x80 + n).toUInt8.toNat % 64 = n := by
    intro n hn
    rw [toNat_toUInt8 (by omega)]
    omega
  have hmore : ∀ {a : UInt8} {tail : Bytes} {start : ℕ}, lead a = some (tail.length, start) →
      (∀ b ∈ tail, IsContinuation b) → payload start tail = c.toNat → 0x80 ≤ c.toNat →
      Form towlower (lowerCode towlower c.toNat) (a :: tail) := by
    intro a tail start hlead htail hpayload hge
    have hform := @Form.more towlower _ _ _ hlead htail
    rw [hpayload] at hform
    rwa [lowerCode, if_neg (by omega)]
  unfold utf8Char
  split_ifs with h1 h2 h3
  · have hvalue : c.toNat.toUInt8.toNat = c.toNat := toNat_toUInt8 (by omega)
    have hform := @Form.ascii towlower c.toNat.toUInt8 (by omega)
    rwa [hvalue] at hform
  · have hlead : lead (0xC0 + c.toNat / 0x40).toUInt8 = some (1, c.toNat / 0x40) := by
      rw [lead, toNat_toUInt8 (by omega)]
      rw [if_pos (by omega), show (0xC0 + c.toNat / 0x40) % 32 = c.toNat / 0x40 by omega]
    refine hmore hlead (by simpa using hcontinues _ (by omega)) ?_ (by omega)
    rw [payload_cons, hbits (c.toNat % 0x40) (by omega)]
    exact Nat.div_add_mod' _ _
  · have hlead : lead (0xE0 + c.toNat / 0x1000).toUInt8 = some (2, c.toNat / 0x1000) := by
      rw [lead, toNat_toUInt8 (by omega)]
      rw [if_neg (by omega), if_pos (by omega),
        show (0xE0 + c.toNat / 0x1000) % 16 = c.toNat / 0x1000 by omega]
    refine hmore hlead ?_ ?_ (by omega)
    · rw [List.forall_mem_cons, List.forall_mem_singleton]
      exact ⟨hcontinues (c.toNat / 0x40 % 0x40) (by omega), hcontinues (c.toNat % 0x40) (by omega)⟩
    · rw [payload_cons, payload_cons, hbits (c.toNat / 0x40 % 0x40) (by omega),
        hbits (c.toNat % 0x40) (by omega)]
      change (c.toNat / 0x1000 * 64 + c.toNat / 0x40 % 0x40) * 64 + c.toNat % 0x40 = c.toNat
      omega
  · have hlead : lead (0xF0 + c.toNat / 0x40000).toUInt8 = some (3, c.toNat / 0x40000) := by
      rw [lead, toNat_toUInt8 (by omega)]
      rw [if_neg (by omega), if_neg (by omega), if_pos (by omega),
        show (0xF0 + c.toNat / 0x40000) % 8 = c.toNat / 0x40000 by omega]
    refine hmore hlead ?_ ?_ (by omega)
    · rw [List.forall_mem_cons, List.forall_mem_cons, List.forall_mem_singleton]
      exact ⟨hcontinues (c.toNat / 0x1000 % 0x40) (by omega),
        hcontinues (c.toNat / 0x40 % 0x40) (by omega), hcontinues (c.toNat % 0x40) (by omega)⟩
    · rw [payload_cons, payload_cons, payload_cons, hbits (c.toNat / 0x1000 % 0x40) (by omega),
        hbits (c.toNat / 0x40 % 0x40) (by omega), hbits (c.toNat % 0x40) (by omega)]
      change ((c.toNat / 0x40000 * 64 + c.toNat / 0x1000 % 0x40) * 64 +
        c.toNat / 0x40 % 0x40) * 64 + c.toNat % 0x40 = c.toNat
      omega

end Reading

section Texts

variable {towlower : ℕ → ℕ} {s rest : Bytes} {ws : List ℕ}

theorem text_of_zero (h : tldMbtowc towlower s = some (0, rest)) : Text towlower s [] := by
  rcases mbtowc_inv h with ⟨rfl, -, -⟩ | ⟨front, bytes, rfl, hspells, hform⟩
  · exact .done
  · exact .stop rest hspells hform

theorem text_of_char {w : ℕ} (h : tldMbtowc towlower s = some (w, rest)) (hne : w ≠ 0)
    (hrest : Text towlower rest ws) : Text towlower s (w :: ws) := by
  rcases mbtowc_inv h with ⟨-, hzero, -⟩ | ⟨front, bytes, rfl, hspells, hform⟩
  · exact absurd hzero hne
  · exact .char hspells hform hne hrest

/-- The first character of a text is what `tld_mbtowc()` reads. -/
theorem text_inv (h : Text towlower s ws) :
    (ws = [] ∧ ∃ rest, tldMbtowc towlower s = some (0, rest)) ∨
      ∃ w rest ws', ws = w :: ws' ∧ w ≠ 0 ∧ tldMbtowc towlower s = some (w, rest) ∧
        Text towlower rest ws' ∧ rest.length < s.length := by
  cases h with
  | done => exact .inl ⟨rfl, [], rfl⟩
  | stop rest hspells hform => exact .inl ⟨rfl, rest, mbtowc_form hspells hform rest⟩
  | @char front bytes rest w ws' hspells hform hne h =>
    have hfront := List.length_pos_iff.mpr (spells_ne_nil hspells (form_ne_nil hform))
    refine .inr ⟨w, rest, ws', rfl, hne, mbtowc_form hspells hform rest, h, ?_⟩
    rw [List.length_append]
    omega

theorem text_unique {ws' : List ℕ} (h : Text towlower s ws) (h' : Text towlower s ws') :
    ws = ws' := by
  induction ws generalizing s ws' with
  | nil =>
    rcases text_inv h with ⟨-, rest, hread⟩ | ⟨w, rest, ws₁, hcons, -⟩
    · rcases text_inv h' with ⟨rfl, -⟩ | ⟨w, rest', ws₁, -, hne, hread', -⟩
      · rfl
      · rw [hread] at hread'
        exact absurd (Prod.mk.inj (Option.some.inj hread')).1.symm hne
    · cases hcons
  | cons w ws ih =>
    rcases text_inv h with ⟨hnil, -⟩ | ⟨w₁, rest, ws₁, hcons, hne, hread, hrest, -⟩
    · cases hnil
    · obtain ⟨rfl, rfl⟩ := List.cons.inj hcons
      rcases text_inv h' with ⟨-, rest', hread'⟩ | ⟨w', rest', ws₁, rfl, -, hread', hrest', -⟩
      · rw [hread] at hread'
        exact absurd (Prod.mk.inj (Option.some.inj hread')).1 hne
      · rw [hread] at hread'
        obtain ⟨rfl, rfl⟩ := Prod.mk.inj (Option.some.inj hread')
        rw [ih hrest hrest']

/-- A spelling of characters is a text, up to the first that is zero in lowercase. -/
theorem text_of_spells {cs : List Char} (h : Spells s (utf8 cs)) :
    Text towlower s ((cs.map fun c => lowerCode towlower c.toNat).takeWhile (· ≠ 0)) := by
  induction cs generalizing s with
  | nil =>
    obtain rfl := byteIn_spells_nil h
    exact .done
  | cons c cs ih =>
    obtain ⟨front, rest, rfl, hfront, hrest⟩ := @spells_split _ (utf8Char c) (utf8 cs) h
    rw [List.map_cons, List.takeWhile_cons]
    by_cases hzero : lowerCode towlower c.toNat = 0
    · have hform := @form_utf8Char towlower c
      rw [hzero] at hform
      rw [hzero]
      exact .stop rest hfront hform
    · rw [if_pos (by simpa using hzero)]
      exact .char hfront (form_utf8Char c) hzero (ih hrest)

theorem wctomb_inv {w : ℕ} {out : Bytes} (h : tldWctomb w = some out) :
    ∃ d : Char, w = d.toNat ∧ ¬IsNonCharacter d ∧ out = bytesOut (utf8Char d) := by
  have hvalid : w.isValidChar := by
    unfold tldWctomb at h
    unfold Nat.isValidChar
    split_ifs at h <;> omega
  have hw : w = (Char.ofNat w).toNat := (toNat_ofNat hvalid).symm
  by_cases hnon : IsNonCharacter (Char.ofNat w)
  · rw [hw, wctomb_nonCharacter _ hnon] at h
    cases h
  · rw [hw, wctomb_char _ hnon] at h
    exact ⟨Char.ofNat w, hw, hnon, (Option.some.inj h).symm⟩

theorem written_cons (d : Char) (ds : List Char) :
    written (d :: ds) = bytesOut (utf8Char d) ++ written ds :=
  bytesOut_append (utf8Char d) (utf8 ds)

/-- The loop of `tld_domain_to_lowercase()` writes the texts whose characters fit. -/
theorem lowercaseFrom_iff (turns room : ℕ) {r : Bytes} (hturns : s.length < turns) :
    lowercaseFrom towlower turns room s = some r ↔
      ∃ ds : List Char, Text towlower s (ds.map Char.toNat) ∧ (∀ d ∈ ds, ¬IsNonCharacter d) ∧
        (written ds).length ≤ room ∧ r = written ds := by
  induction turns generalizing s room r with
  | zero => omega
  | succ turns ih =>
    rw [lowercaseFrom]
    constructor
    · intro h
      cases hread : tldMbtowc towlower s with
      | none =>
        rw [hread] at h
        cases h
      | some x =>
        obtain ⟨w, rest⟩ := x
        rw [hread] at h
        simp only [Option.bind_eq_bind, Option.bind_some] at h
        by_cases hzero : w = 0
        · rw [if_pos hzero] at h
          obtain rfl := Option.some.inj h
          refine ⟨[], text_of_zero (hzero ▸ hread), by simp, Nat.zero_le _, rfl⟩
        · rw [if_neg hzero] at h
          cases hout : tldWctomb w with
          | none =>
            rw [hout] at h
            cases h
          | some out =>
            rw [hout, Option.bind_some] at h
            split_ifs at h with hroom
            obtain ⟨d, rfl, hnon, rfl⟩ := wctomb_inv hout
            cases hlast : lowercaseFrom towlower turns
              (room - (bytesOut (utf8Char d)).length) rest with
            | none =>
              rw [hlast] at h
              cases h
            | some r' =>
              rw [hlast] at h
              obtain rfl := Option.some.inj h
              have hlt : rest.length < s.length := by
                rcases mbtowc_inv hread with ⟨-, hw, -⟩ | ⟨front, bytes, rfl, hspells, hform⟩
                · exact absurd hw hzero
                · have hfront := List.length_pos_iff.mpr (spells_ne_nil hspells (form_ne_nil hform))
                  rw [List.length_append]
                  omega
              obtain ⟨ds, htext, hnons, hfits, rfl⟩ := (ih _ (by omega)).mp hlast
              refine ⟨d :: ds, text_of_char hread hzero htext, ?_, ?_, (written_cons d ds).symm⟩
              · exact List.forall_mem_cons.mpr ⟨hnon, hnons⟩
              · rw [written_cons, List.length_append]
                omega
    · rintro ⟨ds, htext, hnons, hfits, rfl⟩
      rcases text_inv htext with ⟨hnil, rest, hread⟩ | ⟨w, rest, ws', hcons, hne, hread, hrest, hlt⟩
      · obtain rfl := List.map_eq_nil_iff.mp hnil
        rw [hread]
        rfl
      · cases ds with
        | nil => cases hcons
        | cons d ds =>
          obtain ⟨rfl, rfl⟩ := List.cons.inj hcons
          obtain ⟨hnon, hnons⟩ := List.forall_mem_cons.mp hnons
          rw [written_cons, List.length_append] at hfits
          have hlast :=
            (ih (r := written ds) (room - (bytesOut (utf8Char d)).length) (by omega)).mpr
            ⟨ds, hrest, hnons, by omega, rfl⟩
          rw [hread]
          simp only [Option.bind_eq_bind, Option.bind_some]
          rw [if_neg hne, wctomb_char d hnon, Option.bind_some, if_neg (by omega),
            hlast, written_cons]
          rfl

theorem tldDomainToLowercase_iff {out : Bytes} (hs : s ≠ []) :
    tldDomainToLowercase towlower s = some out ↔
      ∃ ds : List Char, Text towlower s (ds.map Char.toNat) ∧ (∀ d ∈ ds, ¬IsNonCharacter d) ∧
        (written ds).length ≤ 2 * s.length ∧ out = written ds := by
  rw [tldDomainToLowercase, if_neg hs]
  exact lowercaseFrom_iff _ _ (Nat.lt_succ_self _)

theorem text_of_ne_zero {cs : List Char} (h : Spells s (utf8 cs))
    (hne : ∀ c ∈ cs, lowerCode towlower c.toNat ≠ 0) :
    Text towlower s (cs.map fun c => lowerCode towlower c.toNat) := by
  have hall : (cs.map fun c => lowerCode towlower c.toNat).takeWhile (· ≠ 0) =
      cs.map fun c => lowerCode towlower c.toNat := by
    rw [List.takeWhile_eq_self_iff]
    intro w hw
    obtain ⟨c, hc, rfl⟩ := List.mem_map.mp hw
    exact decide_eq_true (hne c hc)
  rw [← hall]
  exact text_of_spells h

end Texts

end SnapCpp.DomainLowercase
