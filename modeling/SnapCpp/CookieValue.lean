import SnapCpp.HttpCookie

/-!
Reading the value of a cookie back. The text between the equal sign and the first semicolon of the
header is the encoded value, and it has no other characters than RFC 6265 allows. The percent sign
is one of them and is not encoded itself, and a byte that is encoded gets two of them, so that a
value can be read back only if it needs no encoding and has no percent sign before two digits.
-/
namespace SnapCpp.HttpCookie

open QString

def digitOf (c : UInt16) : Option ℕ :=
  if 48 ≤ c ∧ c ≤ 57 then some (c.toNat - 48)
  else if 65 ≤ c ∧ c ≤ 70 then some (c.toNat - 55)
  else if 97 ≤ c ∧ c ≤ 102 then some (c.toNat - 87)
  else none

def escaped (c h l : UInt16) : Option UInt8 :=
  if c = 37 then (digitOf h).bind fun a => (digitOf l).map fun b => (a * 16 + b).toUInt8 else none

/-- Each percent sign with two digits is a byte, and other characters are as they are. -/
def percentDecode : QString → Bytes
  | [] => []
  | [c] => [c.toUInt8]
  | [c, d] => [c.toUInt8, d.toUInt8]
  | c :: h :: l :: rest =>
      match escaped c h l with
      | some b => b :: percentDecode rest
      | none => c.toUInt8 :: percentDecode (h :: l :: rest)

/-- The text between the first equal sign and the first semicolon after it. -/
def valueOf (header : QString) : QString :=
  ((header.dropWhile fun c => c != 61).drop 1).takeWhile fun c => c != 59

def isCookieOctet (c : UInt16) : Bool :=
  c == 0x21 || (0x23 ≤ c && c ≤ 0x2B) || (0x2D ≤ c && c ≤ 0x3A) || (0x3C ≤ c && c ≤ 0x5B) ||
    (0x5D ≤ c && c ≤ 0x7E)

theorem isOctet_eq (b : UInt8) : isOctet b = isCookieOctet b.toUInt16 := by
  revert b
  decide +kernel

variable {b : UInt8} {c : UInt16}

theorem encodeByte_other (h : isOctet b = false) :
    encodeByte b = 37 :: 37 :: hexadecimal b.toInt8.toInt := by
  rw [encodeByte, h, if_neg Bool.false_ne_true]
  have harg := PlaceMarkers.arg_digit (a := hexadecimal b.toInt8.toInt) (c := 49) (n := 1) [37, 37]
    [] (by decide) (by decide) (by decide) PlaceMarkers.Apart.nil (by decide) (by decide)
  rw [List.append_nil] at harg
  exact harg

/-- What an encoded byte reads as is a percent sign and then no byte that is written as it is. -/
theorem hexadecimal_spec (b : UInt8) : ∃ h l more x, hexadecimal b.toInt8.toInt = h :: l :: more ∧
    escaped 37 h l = some x ∧ (isOctet b = false → isOctet x = false) ∧
    ∀ c ∈ h :: l :: more, isCookieOctet c = true := by
  have hall : ∀ b : UInt8,
      let text := hexadecimal b.toInt8.toInt
      let x := escaped 37 (text.getD 0 0) (text.getD 1 0)
      2 ≤ text.length ∧ x.isSome ∧ (isOctet b = false → x.map isOctet = some false) ∧
        text.all isCookieOctet = true := by
    decide +kernel
  obtain ⟨hlength, hsome, hother, htext⟩ := hall b
  obtain ⟨x, hx⟩ := Option.isSome_iff_exists.mp hsome
  match heq : hexadecimal b.toInt8.toInt with
  | [] => simp [heq] at hlength
  | [_] => simp [heq] at hlength
  | h :: l :: more =>
    rw [heq] at hx hother htext
    refine ⟨h, l, more, x, rfl, hx, fun hb => ?_, List.all_eq_true.mp htext⟩
    obtain ⟨y, hy, hnot⟩ := Option.map_eq_some_iff.mp (hother hb)
    rwa [Option.some.inj (hx.symm.trans hy)]

theorem isCookieOctet_encodeValue (v : Bytes) :
    ∀ c ∈ encodeValue v, isCookieOctet c = true := by
  intro c hc
  obtain ⟨b, -, hb⟩ := List.mem_flatMap.mp hc
  cases hoctet : isOctet b with
  | true =>
    rw [encodeByte, hoctet, if_pos rfl] at hb
    rw [List.mem_singleton.mp hb, ← isOctet_eq, hoctet]
  | false =>
    rw [encodeByte_other hoctet] at hb
    obtain ⟨h, l, more, x, htext, -, -, hall⟩ := hexadecimal_spec b
    rw [htext] at hb
    rcases List.mem_cons.mp hb with rfl | hb
    · decide
    · rcases List.mem_cons.mp hb with rfl | hb
      · decide
      · exact hall c hb

def StartsEscape (s : QString) : Prop :=
  ∃ c h l rest x, s = c :: h :: l :: rest ∧ escaped c h l = some x

theorem percentDecode_escape {h l : UInt16} {x : UInt8} (hx : escaped c h l = some x)
    (rest : QString) : percentDecode (c :: h :: l :: rest) = x :: percentDecode rest := by
  rw [percentDecode, hx]

theorem percentDecode_literal {s : QString} (h : ¬ StartsEscape (c :: s)) :
    percentDecode (c :: s) = c.toUInt8 :: percentDecode s := by
  match s with
  | [] => rfl
  | [d] => rfl
  | d :: e :: rest =>
    rw [percentDecode]
    cases hx : escaped c d e with
    | none => rfl
    | some x => exact absurd ⟨c, d, e, rest, x, rfl, hx⟩ h

theorem escaped_ne {h l : UInt16} (hc : c ≠ 37) : escaped c h l = none := if_neg hc

theorem escaped_percent (c l : UInt16) : escaped c 37 l = none := by
  rw [escaped]
  split_ifs <;> rfl

theorem escaped_percent_last (c h : UInt16) : escaped c h 37 = none := by
  rw [escaped]
  split_ifs
  · cases digitOf h <;> rfl
  · rfl

/-- The encoding of a byte that is not written as it is reads as two bytes or more. -/
theorem percentDecode_other (h : isOctet b = false) (s : QString) :
    ∃ x rest, percentDecode (encodeByte b ++ s) = 37 :: x :: rest ∧ isOctet x = false := by
  obtain ⟨d, e, more, x, htext, hx, hother, -⟩ := hexadecimal_spec b
  rw [encodeByte_other h, htext]
  refine ⟨x, percentDecode (more ++ s), ?_, hother h⟩
  have hfirst : ¬ StartsEscape (37 :: 37 :: d :: e :: more ++ s) := by
    rintro ⟨c, h', l, rest, y, heq, hy⟩
    simp only [List.cons_append, List.cons.injEq] at heq
    rw [← heq.2.1, escaped_percent] at hy
    cases hy
  rw [List.cons_append, percentDecode_literal (by rwa [List.cons_append] at hfirst),
    List.cons_append, List.cons_append, List.cons_append, percentDecode_escape hx]
  rfl

theorem toUInt8_toUInt16 (b : UInt8) : b.toUInt16.toUInt8 = b := by
  simp

theorem encodeByte_octet (h : isOctet b = true) : encodeByte b = [b.toUInt16] := by
  rw [encodeByte, h, if_pos rfl]

theorem encodeValue_cons (b : UInt8) (v : Bytes) :
    encodeValue (b :: v) = encodeByte b ++ encodeValue v := rfl

/-- The first character of an encoded value is that of its first byte, or a percent sign. -/
theorem encodeValue_head {rest : QString} {v : Bytes}
    (h : encodeValue v = c :: rest) :
    c = 37 ∨ ∃ b v', v = b :: v' ∧ isOctet b = true ∧ c = b.toUInt16 ∧ rest = encodeValue v' := by
  cases v with
  | nil => cases h
  | cons b v =>
    rw [encodeValue_cons] at h
    cases hb : isOctet b with
    | true =>
      rw [encodeByte_octet hb] at h
      obtain ⟨rfl, rfl⟩ := List.cons.inj h
      exact Or.inr ⟨b, v, rfl, hb, rfl, rfl⟩
    | false =>
      rw [encodeByte_other hb] at h
      exact Or.inl (List.cons.inj h).1.symm

theorem startsEscape_encodeValue (hb : isOctet b = true) {v : Bytes}
    (h : StartsEscape (encodeValue (b :: v))) :
    b = 37 ∧ ∃ d e v' x, v = d :: e :: v' ∧ isOctet d = true ∧ isOctet e = true ∧
      escaped 37 d.toUInt16 e.toUInt16 = some x := by
  obtain ⟨c, h', l, rest, x, heq, hx⟩ := h
  rw [encodeValue_cons, encodeByte_octet hb, List.singleton_append] at heq
  obtain ⟨rfl, htail⟩ := List.cons.inj heq
  rcases encodeValue_head htail with rfl | ⟨d, v₁, rfl, hd, rfl, hrest⟩
  · rw [escaped_percent] at hx
    cases hx
  · rcases encodeValue_head hrest.symm with rfl | ⟨e, v₂, rfl, he, rfl, -⟩
    · rw [escaped_percent_last] at hx
      cases hx
    · have hc : b.toUInt16 = 37 := by
        by_contra hne
        rw [escaped_ne hne] at hx
        cases hx
      have hpercent : b = 37 := by rw [← toUInt8_toUInt16 b, hc]; rfl
      rw [hc] at hx
      exact ⟨hpercent, d, e, v₂, x, rfl, hd, he, hx⟩

section RoundTrip

variable {D : Type} {v : Bytes}

/-- A value that needs no encoding and has no percent sign before two digits. -/
def Plain (v : Bytes) : Prop :=
  (∀ b ∈ v, isOctet b = true) ∧
    ∀ front d e rest, v = front ++ 37 :: d :: e :: rest → escaped 37 d.toUInt16 e.toUInt16 = none

theorem octet_of_escape {d e : UInt8} (hd : isOctet d = true) (he : isOctet e = true) :
    ∀ b ∈ ([37, d, e] : Bytes), isOctet b = true := by
  intro b hb
  simp only [List.mem_cons, List.not_mem_nil, or_false] at hb
  rcases hb with rfl | rfl | rfl
  · decide
  · exact hd
  · exact he

/-- Once the text that is read back falls behind by two bytes it does not catch up: only an encoded
byte gains one, and it puts its own value where the bytes that were left behind are. -/
theorem percentDecode_behind (r s : Bytes) (hlength : 2 ≤ s.length)
    (hs : ∀ b ∈ s, isOctet b = true) : percentDecode (encodeValue r) ≠ s ++ r := by
  induction hn : r.length using Nat.strong_induction_on generalizing r s with
  | _ n ih =>
    intro h
    match s with
    | [] => simp at hlength
    | [_] => simp at hlength
    | b₁ :: b₂ :: s =>
      cases r with
      | nil => cases h
      | cons b r =>
        cases hb : isOctet b with
        | false =>
          obtain ⟨x, rest, hx, hother⟩ := percentDecode_other hb (encodeValue r)
          rw [encodeValue_cons, hx] at h
          obtain ⟨-, htail⟩ := List.cons.inj h
          obtain ⟨rfl, -⟩ := List.cons.inj htail
          rw [hs x (by simp)] at hother
          cases hother
        | true =>
          have hrest : ∀ y ∈ b₂ :: s, isOctet y = true :=
            (List.forall_mem_cons.mp hs).2
          by_cases hescape : StartsEscape (encodeValue (b :: r))
          · obtain ⟨rfl, d, e, r', x, rfl, hd, he, hx⟩ := startsEscape_encodeValue hb hescape
            rw [encodeValue_cons, encodeByte_octet hb, encodeValue_cons, encodeByte_octet hd,
              encodeValue_cons, encodeByte_octet he] at h
            have hread : percentDecode (encodeValue r') = (b₂ :: s ++ [37, d, e]) ++ r' := by
              have := percentDecode_escape hx (encodeValue r')
              rw [List.append_assoc]
              exact (List.cons.inj (this.symm.trans h)).2
            refine ih r'.length ?_ r' _ ?_ ?_ rfl hread
            · rw [← hn]
              simp only [List.length_cons]
              omega
            · simp
            · intro y hy
              rcases List.mem_append.mp hy with hy | hy
              · exact hrest y hy
              · exact octet_of_escape hd he y hy
          · have hread : percentDecode (encodeValue r) = (b₂ :: s ++ [b]) ++ r := by
              rw [encodeValue_cons, encodeByte_octet hb, List.singleton_append] at h hescape
              rw [percentDecode_literal hescape] at h
              rw [List.append_assoc]
              exact (List.cons.inj h).2
            refine ih r.length ?_ r _ ?_ ?_ rfl hread
            · rw [← hn, List.length_cons]
              omega
            · simp
            · intro y hy
              rcases List.mem_append.mp hy with hy | hy
              · exact hrest y hy
              · rwa [List.mem_singleton.mp hy]

theorem Plain.tail {b : UInt8} (h : Plain (b :: v)) : Plain v :=
  ⟨(List.forall_mem_cons.mp h.1).2,
    fun front d e rest hv => h.2 (b :: front) d e rest (by rw [hv, List.cons_append])⟩

theorem percentDecode_encodeValue_iff (v : Bytes) :
    percentDecode (encodeValue v) = v ↔ Plain v := by
  induction v with
  | nil =>
    refine iff_of_true rfl ⟨by simp, ?_⟩
    intro front d e rest h
    simp at h
  | cons b v ih =>
    cases hb : isOctet b with
    | false =>
      obtain ⟨x, rest, hx, hother⟩ := percentDecode_other hb (encodeValue v)
      rw [encodeValue_cons, hx]
      refine iff_of_false ?_ ?_
      · intro h
        rw [← (List.cons.inj h).1] at hb
        revert hb
        decide
      · intro h
        rw [h.1 b List.mem_cons_self] at hb
        cases hb
    | true =>
      by_cases hescape : StartsEscape (encodeValue (b :: v))
      · obtain ⟨rfl, d, e, r, x, rfl, hd, he, hx⟩ := startsEscape_encodeValue hb hescape
        refine iff_of_false ?_ ?_
        · intro h
          rw [encodeValue_cons, encodeByte_octet hb, encodeValue_cons, encodeByte_octet hd,
            encodeValue_cons, encodeByte_octet he] at h
          have hread := percentDecode_escape hx (encodeValue r)
          refine percentDecode_behind r [d, e] le_rfl ?_ (List.cons.inj (hread.symm.trans h)).2
          intro y hy
          exact octet_of_escape hd he y (List.mem_cons_of_mem _ hy)
        · intro h
          rw [h.2 [] d e r rfl] at hx
          cases hx
      · have hread : percentDecode (encodeValue (b :: v)) = b :: percentDecode (encodeValue v) := by
          rw [encodeValue_cons, encodeByte_octet hb, List.singleton_append] at hescape ⊢
          rw [percentDecode_literal hescape, toUInt8_toUInt16]
        rw [hread, List.cons_inj_right, ih]
        refine ⟨fun h => ⟨?_, ?_⟩, Plain.tail⟩
        · intro y hy
          rcases List.mem_cons.mp hy with rfl | hy
          · exact hb
          · exact h.1 y hy
        · intro front d e rest hv
          cases front with
          | nil =>
            obtain ⟨rfl, rfl⟩ := List.cons.inj hv
            by_contra hne
            obtain ⟨x, hx⟩ := Option.ne_none_iff_exists'.mp hne
            refine hescape ⟨37, d.toUInt16, e.toUInt16, encodeValue rest, x, ?_, hx⟩
            have hd := h.1 d List.mem_cons_self
            have he := h.1 e (List.mem_cons_of_mem _ List.mem_cons_self)
            rw [encodeValue_cons, encodeByte_octet hb, encodeValue_cons, encodeByte_octet hd,
              encodeValue_cons, encodeByte_octet he]
            rfl
          | cons y front =>
            rw [List.cons_append] at hv
            exact h.2 front d e rest (List.cons.inj hv).2

theorem cons_of_map {c : UInt16} {s : QString} (h : v.map UInt8.toUInt16 = c :: s) :
    ∃ b v', v = b :: v' ∧ c = b.toUInt16 ∧ s = v'.map UInt8.toUInt16 := by
  cases v with
  | nil => cases h
  | cons b v => exact ⟨b, v, rfl, (List.cons.inj h).1.symm, (List.cons.inj h).2.symm⟩

theorem encodeValue_octets (h : ∀ b ∈ v, isOctet b = true) :
    encodeValue v = v.map UInt8.toUInt16 := by
  induction v with
  | nil => rfl
  | cons b v ih =>
    rw [encodeValue_cons, encodeByte_octet (h b List.mem_cons_self),
      ih (List.forall_mem_cons.mp h).2]
    rfl

theorem eq_of_encodeValue_eq {w : Bytes} (hv : Plain v) (h : encodeValue w = encodeValue v) :
    w = v := by
  induction w generalizing v with
  | nil =>
    rw [encodeValue_octets hv.1] at h
    exact (List.map_eq_nil_iff.mp h.symm).symm
  | cons b w ih =>
    rw [encodeValue_octets hv.1, encodeValue_cons] at h
    cases hb : isOctet b with
    | true =>
      rw [encodeByte_octet hb, List.singleton_append] at h
      obtain ⟨b', v', rfl, hbb', hrest⟩ := cons_of_map h.symm
      rw [← encodeValue_octets hv.tail.1] at hrest
      rw [← toUInt8_toUInt16 b, hbb', toUInt8_toUInt16, ih hv.tail hrest]
    | false =>
      obtain ⟨d, e, more, x, htext, hx, -, -⟩ := hexadecimal_spec b
      rw [encodeByte_other hb, htext] at h
      obtain ⟨b₁, v₁, rfl, h₁, hrest₁⟩ := cons_of_map h.symm
      obtain ⟨b₂, v₂, rfl, h₂, hrest₂⟩ := cons_of_map hrest₁.symm
      obtain ⟨b₃, v₃, rfl, h₃, hrest₃⟩ := cons_of_map hrest₂.symm
      obtain ⟨b₄, v₄, rfl, h₄, -⟩ := cons_of_map hrest₃.symm
      have hpercent : b₂ = 37 := by rw [← toUInt8_toUInt16 b₂, ← h₂]; rfl
      have hnone := hv.2 [b₁] b₃ b₄ v₄ (by rw [hpercent]; rfl)
      rw [← h₃, ← h₄, hx] at hnone
      cases hnone

end RoundTrip

section Header

variable {D : Type} (dates : Dates D) {name : QString}

/-- A part of the header starts with the semicolon that ends what is before it. -/
def Delimited (s : QString) : Prop := ∀ c, s.head? = some c → c = 59

theorem Delimited.append {s t : QString} (hs : Delimited s) (ht : Delimited t) :
    Delimited (s ++ t) := by
  cases s with
  | nil => exact ht
  | cons c s => exact hs

theorem Delimited.append_of_ne {s : QString} (hs : Delimited s) (hne : s ≠ []) (t : QString) :
    Delimited (s ++ t) := by
  obtain ⟨c, rest, rfl⟩ := List.exists_cons_of_ne_nil hne
  exact hs

theorem Delimited.nil : Delimited [] := fun _ h => by cases h

theorem delimited_part (h : Delimited name) (hname : name ≠ []) (value : QString) :
    Delimited (part name value) := by
  rw [part]
  split_ifs
  · exact .nil
  · exact h.append_of_ne hname value

theorem delimited_quoted (h : Delimited name) (hname : name ≠ [])
    (comment : QString) : Delimited (quoted name comment) := by
  rw [quoted]
  split_ifs
  · exact .nil
  · rw [List.append_assoc]
    exact h.append_of_ne hname _

theorem delimited_flag (h : Delimited name) (b : Bool) :
    Delimited (flag name b) := by
  cases b
  · exact .nil
  · exact h

theorem delimited_attributes (now : Now D) (c : Cookie D) :
    Delimited (attributes dates now c) := by
  have hascii (s : String) (h : (ascii s).head? = some 59) : Delimited (ascii s) := by
    intro x hx
    rw [h] at hx
    exact (Option.some.inj hx).symm
  have hexpires : Delimited (expires dates now c) := by
    rw [expires]
    split
    · rw [List.append_assoc]
      exact (hascii _ (by decide)).append_of_ne (by decide) _
    · exact .nil
    · exact hascii _ (by decide)
  exact (((((hexpires.append (delimited_part (hascii _ (by decide)) (by decide) _)).append
    (delimited_part (hascii _ (by decide)) (by decide) _)).append
    (delimited_flag (hascii _ (by decide)) _)).append
    (delimited_flag (hascii _ (by decide)) _)).append
    (delimited_quoted (hascii _ (by decide)) (by decide) _)).append
    (delimited_quoted (hascii _ (by decide)) (by decide) _)

theorem valueOf_toHttpHeader (now : Now D) (c : Cookie D) :
    valueOf (toHttpHeader dates now c) = encodeValue c.fValue := by
  have hfront : ∀ x ∈ ascii "Set-Cookie: " ++ c.fName, (x != 61) = true := by
    intro x hx
    rcases List.mem_append.mp hx with hx | hx
    · exact List.forall_iff_forall_mem.mp
        (by decide : List.Forall (fun x => (x != 61) = true) (ascii "Set-Cookie: ")) x hx
    · have htoken := c.named x hx
      rw [bne_iff_ne]
      rintro rfl
      revert htoken
      decide
  have hoctets : ∀ x ∈ encodeValue c.fValue, (x != 59) = true := by
    intro x hx
    have hx := isCookieOctet_encodeValue c.fValue x hx
    rw [bne_iff_ne]
    rintro rfl
    revert hx
    decide
  have hheader : toHttpHeader dates now c = (ascii "Set-Cookie: " ++ c.fName) ++
      61 :: (encodeValue c.fValue ++ attributes dates now c) := by
    rw [toHttpHeader, show ascii "=" = [61] from rfl]
    simp only [List.append_assoc, List.cons_append, List.nil_append]
  rw [hheader, valueOf, List.dropWhile_append_of_pos hfront,
    List.dropWhile_cons_of_neg (by decide), List.drop_one, List.tail_cons,
    List.takeWhile_append_of_pos hoctets]
  have hnone : (attributes dates now c).takeWhile (fun c => c != 59) = [] := by
    have hdelimited := delimited_attributes dates now c
    cases hattributes : attributes dates now c with
    | nil => rfl
    | cons x rest =>
      rw [hattributes] at hdelimited
      rw [hdelimited x rfl]
      rfl
  rw [hnone, List.append_nil]

/-- The header after `set_value()`. -/
def headerOf (now : Now D) (c : Cookie D) (v : Bytes) : QString :=
  toHttpHeader dates now (c.call dates (.setValue v)).2

/-- The value in the header is well formed, reads back as it was set, and belongs to no other. -/
structure Readable (now : Now D) (c : Cookie D) (v : Bytes) : Prop where
  octets : ∀ x ∈ valueOf (headerOf dates now c v), isCookieOctet x = true
  decoded : percentDecode (valueOf (headerOf dates now c v)) = v
  unique : ∀ w, headerOf dates now c w = headerOf dates now c v → w = v

/-- Exactly the plain values can be read back. -/
theorem readable_iff (now : Now D) (c : Cookie D) (v : Bytes) :
    Readable dates now c v ↔ Plain v := by
  have hvalue (w : Bytes) : valueOf (headerOf dates now c w) = encodeValue w :=
    valueOf_toHttpHeader dates now _
  constructor
  · intro h
    have hdecoded := h.decoded
    rwa [hvalue, percentDecode_encodeValue_iff] at hdecoded
  · intro h
    refine ⟨?_, ?_, ?_⟩
    · rw [hvalue]
      exact isCookieOctet_encodeValue v
    · rwa [hvalue, percentDecode_encodeValue_iff]
    · intro w hw
      refine eq_of_encodeValue_eq h ?_
      rw [← hvalue w, ← hvalue v, hw]

/-- A space is read back as two bytes. -/
theorem space_unreadable :
    ¬ ∀ (D : Type) (dates : Dates D) (now : Now D) (c : Cookie D) (v : Bytes),
    Readable dates now c v := by
  intro h
  let dates : Dates Unit :=
    ⟨(), fun _ => (), fun _ => false, fun _ _ => false, fun _ => 0, fun _ => []⟩
  have hdecoded := (h Unit dates ⟨0, 0, ()⟩ (unnamed dates) [32]).decoded
  rw [headerOf, valueOf_toHttpHeader] at hdecoded
  revert hdecoded
  decide

end Header

end SnapCpp.HttpCookie
