import SnapCpp.UrlRelaxed

/-!
Strict decoding of an URL. What it accepts is a sequence of plus signs, of literal characters and
of escapes of three bytes; everything else stops it.
-/
namespace SnapCpp.UrlCode

open TldEmails (Bytes)
open StringReplace (unit8)

inductive Decodes : Bytes → Bytes → Prop
  | nil : Decodes [] []
  | plus {b r : Bytes} : Decodes b r → Decodes (plus :: b) (space :: r)
  | literal {c : UInt8} {b r : Bytes} : isLiteral c = true → Decodes b r →
      Decodes (c :: b) (c :: r)
  | escape {d e high low : UInt8} {b r : Bytes} : hexValue d = some high →
      hexValue e = some low → Decodes b r →
      Decodes (percent :: d :: e :: b) ((high * 16 + low) :: r)

theorem hexValue_spec {d high : UInt8} (h : hexValue d = some high) :
    d ≠ percent ∧ d.toNat < 128 := by
  have hall : ∀ d, hexValue d ≠ none → d ≠ percent ∧ d.toNat < 128 := by decide +kernel
  exact hall d (by rw [h]; exact Option.some_ne_none high)

/-- Two digits follow a percent sign that is accepted. -/
theorem exists_digits {rest r : Bytes} (h : decodeBytes false 0 (percent :: rest) = .ok r) :
    ∃ d e b high low, rest = d :: e :: b ∧ hexValue d = some high ∧ hexValue e = some low := by
  rw [decodeBytes, decodeByte, if_neg (by decide), if_pos rfl] at h
  cases hhigh : hexValue (rest.headD 0) with
  | none =>
    rw [hhigh] at h
    cases h
  | some high =>
    rw [hhigh] at h
    cases hlow : hexValue (rest.tail.headD 0) with
    | none =>
      rw [hlow] at h
      cases h
    | some low =>
      rcases rest with _ | ⟨d, _ | ⟨e, b⟩⟩
      · exact absurd hhigh (by simp [hexValue])
      · exact absurd hlow (by simp [hexValue])
      · exact ⟨d, e, b, high, low, rfl, hhigh, hlow⟩

theorem decodes_of_ok {b r : Bytes} (h : decodeBytes false 0 b = .ok r) : Decodes b r := by
  induction hn : b.length using Nat.strong_induction_on generalizing b r with
  | _ n ih =>
    cases b with
    | nil =>
      cases h
      exact .nil
    | cons c rest =>
      rw [List.length_cons] at hn
      have hnext : ∀ {d : UInt8} {k : ℕ}, decodeByte false c rest = .ok (d, k) →
          ∃ r', decodeBytes false k rest = .ok r' ∧ r = d :: r' := by
        intro d k hbyte
        rw [decodeBytes_ok hbyte] at h
        cases hrest : decodeBytes false k rest with
        | error e =>
          rw [hrest] at h
          cases h
        | ok r' =>
          rw [hrest] at h
          exact ⟨r', rfl, (Except.ok.inj h).symm⟩
      by_cases hplus : c = plus
      · subst hplus
        have hbyte : decodeByte false plus rest = .ok (space, 0) := by rw [decodeByte, if_pos rfl]
        obtain ⟨r', hrest, rfl⟩ := hnext hbyte
        exact .plus (ih rest.length (by omega) hrest rfl)
      · by_cases hpercent : c = percent
        · subst hpercent
          obtain ⟨d, e, b', high, low, rfl, hhigh, hlow⟩ := exists_digits h
          have hbyte : decodeByte false percent (d :: e :: b') = .ok (high * 16 + low, 2) := by
            rw [decodeByte, if_neg (by decide), if_pos rfl]
            simp [hhigh, hlow]
          obtain ⟨r', hrest, rfl⟩ := hnext hbyte
          simp only [List.length_cons] at hn
          exact .escape hhigh hlow (ih b'.length (by omega) hrest rfl)
        · have hliteral : isLiteral c = true := by
            by_contra hother
            rw [decodeBytes, decodeByte, if_neg hplus, if_neg hpercent,
              if_neg (by simpa using hother)] at h
            cases h
          have hbyte : decodeByte false c rest = .ok (c, 0) := by
            rw [decodeByte, if_neg hplus, if_neg hpercent, if_pos (by simpa using hliteral)]
          obtain ⟨r', hrest, rfl⟩ := hnext hbyte
          exact .literal hliteral (ih rest.length (by omega) hrest rfl)

section Facts

variable {b r : Bytes}

theorem Decodes.ascii (h : Decodes b r) : ∀ c ∈ b, c.toNat < 128 := by
  induction h with
  | nil => simp
  | plus _ ih => exact List.forall_mem_cons.mpr ⟨by decide, ih⟩
  | literal hc _ ih => exact List.forall_mem_cons.mpr ⟨(isLiteral_spec hc).2.2.2, ih⟩
  | escape hd he _ ih =>
    exact List.forall_mem_cons.mpr ⟨by decide, List.forall_mem_cons.mpr
      ⟨(hexValue_spec hd).2, List.forall_mem_cons.mpr ⟨(hexValue_spec he).2, ih⟩⟩⟩

/-- An escape is three bytes for one. -/
theorem Decodes.length (h : Decodes b r) : r.length + 2 * b.count percent = b.length := by
  induction h with
  | nil => rfl
  | plus _ ih =>
    rw [List.length_cons, List.length_cons, List.count_cons_of_ne (by decide)]
    omega
  | literal hc _ ih =>
    rw [List.length_cons, List.length_cons, List.count_cons_of_ne (isLiteral_spec hc).1]
    omega
  | escape hd he _ ih =>
    rw [List.length_cons, List.length_cons, List.length_cons, List.length_cons,
      List.count_cons_self, List.count_cons_of_ne (hexValue_spec hd).1,
      List.count_cons_of_ne (hexValue_spec he).1]
    omega

/-- Without escapes only a plus sign is not copied. -/
theorem Decodes.copied (h : Decodes b r) (hpercent : percent ∉ b) :
    r = b.map (UrlCode.copied unit8) := by
  induction h with
  | nil => rfl
  | plus _ ih =>
    rw [ih fun hmem => hpercent (List.mem_cons_of_mem _ hmem)]
    rfl
  | @literal c b r hc _ ih =>
    have hself : UrlCode.copied unit8 c = c := if_neg (isLiteral_spec hc).2.1
    rw [ih fun hmem => hpercent (List.mem_cons_of_mem _ hmem), List.map_cons, hself]
  | escape _ _ _ _ => exact absurd List.mem_cons_self hpercent

theorem Decodes.percent_mem (h : Decodes b r) (hmem : percent ∈ r) : percent ∈ b := by
  by_contra hpercent
  rw [h.copied hpercent] at hmem
  obtain ⟨c, hc, heq⟩ := List.mem_map.mp hmem
  rw [UrlCode.copied] at heq
  split_ifs at heq with hplus
  · exact absurd heq (by decide)
  · exact hpercent (heq ▸ hc)

end Facts

end SnapCpp.UrlCode
