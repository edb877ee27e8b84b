import SnapCpp.DomainTexts

/-!
What `tld_domain_to_lowercase()` accepts and what it makes of it. It reads a percent
encoding of UTF-8 in which characters may have more bytes than they need, up to the
first character that is zero in lowercase, and writes the characters in lowercase. The
buffer has room for two bytes for each one of the input, where an escape takes three.
-/
namespace SnapCpp.DomainLowercase

open TldEmails EmailDomain TldSpelling Utf

section Spec

variable (towlower : ℕ → ℕ)

def lowerChar (c : Char) : Char := Char.ofNat (lowerCode towlower c.toNat)

/-- `towlower()` maps code points to code points. -/
def LowersChars : Prop := ∀ c : Char, (towlower c.toNat).isValidChar

def Acceptable (s : Bytes) : Prop :=
  ∃ ds : List Char, Text towlower s (ds.map Char.toNat) ∧ (∀ d ∈ ds, ¬IsNonCharacter d) ∧
    (written ds).length ≤ 2 * s.length

/-- Characters are returned in lowercase, all of them, and nothing is returned for a text
that is not UTF-8. -/
structure LowercaseOnly (s : Bytes) : Prop where
  lowers : ∀ cs, Spells s (utf8 cs) → (∀ c ∈ cs, ¬IsNonCharacter c) →
    ∃ out, tldDomainToLowercase towlower s = some out ∧
      Spells out (utf8 (cs.map (lowerChar towlower)))
  refuses : (∀ cs, ¬Spells s (utf8 cs)) → tldDomainToLowercase towlower s = none

/-- The lowercase of no character is zero or a noncharacter, and all of it fits. A text
that is not UTF-8 is not one with longer forms of characters either, up to its first zero. -/
structure Within (s : Bytes) : Prop where
  lowers : ∀ cs, Spells s (utf8 cs) → (∀ c ∈ cs, ¬IsNonCharacter c) →
    (∀ c ∈ cs, lowerCode towlower c.toNat ≠ 0 ∧ ¬IsNonCharacter (lowerChar towlower c)) ∧
      (written (cs.map (lowerChar towlower))).length ≤ 2 * s.length
  refuses : (∀ cs, ¬Spells s (utf8 cs)) → ¬Acceptable towlower s

end Spec

section Lowercase

variable {towlower : ℕ → ℕ} {s out : Bytes} {cs ds : List Char}

theorem acceptable_iff (hs : s ≠ []) :
    Acceptable towlower s ↔ tldDomainToLowercase towlower s ≠ none := by
  rw [← Option.isSome_iff_ne_none, Option.isSome_iff_exists]
  constructor
  · rintro ⟨ds, htext, hnons, hfits⟩
    exact ⟨written ds, (tldDomainToLowercase_iff hs).mpr ⟨ds, htext, hnons, hfits, rfl⟩⟩
  · rintro ⟨out, hout⟩
    obtain ⟨ds, htext, hnons, hfits, -⟩ := (tldDomainToLowercase_iff hs).mp hout
    exact ⟨ds, htext, hnons, hfits⟩

theorem utf8_injective (h : utf8 cs = utf8 ds) : cs = ds := by
  rw [← decodeFrom_utf8 cs, h, decodeFrom_utf8]

theorem toNat_lowerChar (h : LowersChars towlower) (c : Char) :
    (lowerChar towlower c).toNat = lowerCode towlower c.toNat := by
  have hvalid : (lowerCode towlower c.toNat).isValidChar := by
    unfold lowerCode
    split_ifs with hascii
    · exact .inl (by omega)
    · exact .inl (by omega)
    · exact h c
  exact toNat_ofNat hvalid

/-- The text of characters none of which is zero in lowercase. -/
theorem text_of_chars (h : LowersChars towlower) (hspells : Spells s (utf8 cs))
    (hne : ∀ c ∈ cs, lowerCode towlower c.toNat ≠ 0) :
    Text towlower s ((cs.map (lowerChar towlower)).map Char.toNat) := by
  have hcodes : (cs.map (lowerChar towlower)).map Char.toNat =
      cs.map fun c => lowerCode towlower c.toNat := by
    rw [List.map_map]
    exact List.map_congr_left fun c _ => toNat_lowerChar h c
  rw [hcodes]
  exact text_of_ne_zero hspells hne

theorem ne_zero_of_text (hspells : Spells s (utf8 cs))
    (htext : Text towlower s ((cs.map (lowerChar towlower)).map Char.toNat)) :
    ∀ c ∈ cs, lowerCode towlower c.toNat ≠ 0 := by
  have heq := text_unique htext (text_of_spells hspells)
  have hlength : ((cs.map fun c => lowerCode towlower c.toNat).takeWhile (· ≠ 0)).length =
      (cs.map fun c => lowerCode towlower c.toNat).length := by
    rw [← heq]
    simp
  have hall := (List.takeWhile_prefix _).eq_of_length hlength
  rw [List.takeWhile_eq_self_iff] at hall
  intro c hc
  exact of_decide_eq_true (hall _ (List.mem_map_of_mem hc))

/-- Characters come back in lowercase exactly when they can be written and fit. -/
theorem lowered_iff (h : LowersChars towlower) (hs : s ≠ []) (hspells : Spells s (utf8 cs)) :
    (∃ out, tldDomainToLowercase towlower s = some out ∧
        Spells out (utf8 (cs.map (lowerChar towlower)))) ↔
      (∀ c ∈ cs, lowerCode towlower c.toNat ≠ 0 ∧ ¬IsNonCharacter (lowerChar towlower c)) ∧
        (written (cs.map (lowerChar towlower))).length ≤ 2 * s.length := by
  constructor
  · rintro ⟨out, hout, hlower⟩
    obtain ⟨ds, htext, hnons, hfits, rfl⟩ := (tldDomainToLowercase_iff hs).mp hout
    obtain rfl := utf8_injective (spells_unique (spells_bytesOut (utf8 ds)) hlower)
    refine ⟨fun c hc => ⟨ne_zero_of_text hspells htext c hc, ?_⟩, hfits⟩
    exact hnons _ (List.mem_map_of_mem hc)
  · rintro ⟨hchars, hfits⟩
    have htext := text_of_chars h hspells fun c hc => (hchars c hc).1
    refine ⟨written (cs.map (lowerChar towlower)), ?_, spells_bytesOut _⟩
    refine (tldDomainToLowercase_iff hs).mpr ⟨_, htext, ?_, hfits, rfl⟩
    intro d hd
    obtain ⟨c, hc, rfl⟩ := List.mem_map.mp hd
    exact (hchars c hc).2

theorem lowercaseOnly_iff (h : LowersChars towlower) (hs : s ≠ []) :
    LowercaseOnly towlower s ↔ Within towlower s := by
  constructor
  · rintro ⟨hlowers, hrefuses⟩
    refine ⟨?_, ?_⟩
    · intro cs hspells hnons
      exact (lowered_iff h hs hspells).mp (hlowers cs hspells hnons)
    · intro hnot
      rw [acceptable_iff hs, not_not]
      exact hrefuses hnot
  · rintro ⟨hlowers, hrefuses⟩
    refine ⟨?_, ?_⟩
    · intro cs hspells hnons
      exact (lowered_iff h hs hspells).mpr (hlowers cs hspells hnons)
    · intro hnot
      exact not_not.mp fun hsome => hrefuses hnot ((acceptable_iff hs).mpr hsome)

theorem spells_self {t : Bytes} (h : 0x25 ∉ t) : Spells t t := by
  induction t with
  | nil => exact .nil
  | cons b t ih =>
    rw [List.mem_cons, not_or] at h
    exact .raw (Ne.symm h.1) (ih h.2)

/-- `A.com` comes back as `a.com`. -/
theorem lowercaseOnly_letters : LowercaseOnly id [0x41, 0x2E, 0x63, 0x6F, 0x6D] := by
  have hchars : ∀ c : Char, (id c.toNat).isValidChar := fun c => c.valid
  refine (lowercaseOnly_iff hchars (by decide)).mpr ⟨?_, ?_⟩
  · intro cs hspells _
    have hutf8 : utf8 ['A', '.', 'c', 'o', 'm'] = utf8 cs :=
      spells_unique (spells_self (by decide)) hspells
    obtain rfl := utf8_injective hutf8
    refine ⟨?_, by decide⟩
    intro c hc
    fin_cases hc <;> exact ⟨by decide, by unfold IsNonCharacter; decide⟩
  · intro hnot
    exact absurd (spells_self (by decide)) (hnot ['A', '.', 'c', 'o', 'm'])

/-- An escape does not fit in twice the room of one byte. -/
theorem colon_refused : ¬∀ (towlower : ℕ → ℕ) (s : Bytes), LowersChars towlower → s ≠ [] →
    LowercaseOnly towlower s := by
  intro hall
  have honly := hall id [0x3A] (fun c => c.valid) (by decide)
  have hspells : Spells [0x3A] (utf8 [':']) := spells_self (by decide)
  obtain ⟨out, hout, -⟩ := honly.lowers [':'] hspells
    (List.forall_mem_singleton.mpr (by unfold IsNonCharacter; decide))
  have hnone : tldDomainToLowercase id [0x3A] = none := by decide
  rw [hnone] at hout
  cases hout

end Lowercase

end SnapCpp.DomainLowercase
