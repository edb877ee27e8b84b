import SnapCpp.UriSyntax

/-!
The percent encoding of texts in a URI. A text is encoded byte by byte of its UTF-8, and decoded
into bytes that are read as UTF-8 again; both stop at a null byte. Decoding takes a plus sign for
a space, and, unless it is relaxed, accepts certain characters only.
-/
namespace SnapCpp.UrlCode

open TldEmails QString Utf UriSyntax
open StringReplace (utf8_asciiCompatible)

def percent : UInt8 := 37

def plus : UInt8 := 43

def space : UInt8 := 32

def cBytes (b : Bytes) : Bytes := b.takeWhile (· ≠ 0)

def isUnreserved (c : UInt8) : Bool :=
  (65 ≤ c && c ≤ 90) || (97 ≤ c && c ≤ 122) || (48 ≤ c && c ≤ 57) || c == 46 || c == 45 || c == 95

def isLiteral (c : UInt8) : Bool :=
  (65 ≤ c && c ≤ 90) || (97 ≤ c && c ≤ 122) || (48 ≤ c && c ≤ 57) || c == 46 || c == 45 ||
    c == 47 || c == 95 || c == 126 || c == 33 || c == 64 || c == 44 || c == 59 || c == 58 ||
    c == 40 || c == 41

def hexValue (c : UInt8) : Option UInt8 :=
  if 48 ≤ c ∧ c ≤ 57 then some (c - 48)
  else if 65 ≤ c ∧ c ≤ 70 then some (c - 55)
  else if 97 ≤ c ∧ c ≤ 102 then some (c - 87)
  else none

def hexDigit (n : ℕ) : UInt8 := if n < 10 then (48 + n).toUInt8 else (87 + n).toUInt8

def encodeByte (accepted : Bytes) (c : UInt8) : Bytes :=
  if isUnreserved c || c ∈ accepted then [c]
  else [percent, hexDigit (c.toNat / 16), hexDigit (c.toNat % 16)]

def encodeBytes (accepted b : Bytes) : Bytes := b.flatMap (encodeByte accepted)

def urlencode (uri : QString) (accepted : Bytes) : QString :=
  (encodeBytes accepted (cBytes (toUtf8 uri))).map UInt8.toUInt16

/-- What `urldecode()` throws, with the characters that it reports. -/
inductive DecodeError where
  | escape (first second : UInt8)
  | character (c : UInt8)
deriving DecidableEq

/-- The byte that is written for a character, and how many of the next ones belong to it. Relaxed
decoding writes what it has of an escape without a second digit, and goes on behind the percent
sign. -/
def decodeByte (relax : Bool) (c : UInt8) (rest : Bytes) : Except DecodeError (UInt8 × ℕ) :=
  if c = plus then .ok (space, 0)
  else if c = percent then
    match hexValue (rest.headD 0) with
    | none =>
        if relax then .ok (percent, 0)
        else .error (.escape (rest.headD 0) (rest.tail.headD 0))
    | some high =>
        match hexValue (rest.tail.headD 0) with
        | none =>
            if relax then .ok (high * 16, 0)
            else .error (.escape (rest.headD 0) (rest.tail.headD 0))
        | some low => .ok (high * 16 + low, 2)
  else if relax || isLiteral c then .ok (c, 0)
  else .error (.character c)

/-- The loop of `urldecode()`; the first bytes belong to a character that was read. -/
def decodeBytes (relax : Bool) : ℕ → Bytes → Except DecodeError Bytes
  | _, [] => .ok []
  | n + 1, _ :: rest => decodeBytes relax n rest
  | 0, c :: rest =>
      match decodeByte relax c rest with
      | .error e => .error e
      | .ok (b, n) => (decodeBytes relax n rest).map (b :: ·)

def urldecode (uri : QString) (relax : Bool) : Except DecodeError QString :=
  match decodeBytes relax 0 (cBytes (toUtf8 uri)) with
  | .error e => .error e
  | .ok bytes => .ok (fromUtf8 (cBytes bytes))

section Bytes

variable {n : ℕ} {c d : UInt8}

theorem hexValue_hexDigit (h : n < 16) : hexValue (hexDigit n) = some n.toUInt8 := by
  interval_cases n <;> decide

theorem cBytes_of_notMem {b : Bytes} (h : 0 ∉ b) : cBytes b = b := by
  refine List.takeWhile_eq_self_iff.mpr fun c hc => ?_
  simp only [ne_eq, decide_eq_true_eq]
  rintro rfl
  exact h hc

theorem notMem_cBytes (b : Bytes) : 0 ∉ cBytes b := by
  intro hmem
  simpa using List.mem_takeWhile_imp hmem

theorem isUnreserved_spec (h : isUnreserved c = true) :
    isLiteral c = true ∧ c ≠ percent ∧ c ≠ plus ∧ c.toNat < 128 := by
  revert c
  decide +kernel

theorem isLiteral_spec (h : isLiteral c = true) :
    c ≠ percent ∧ c ≠ plus ∧ c ≠ 0 ∧ c.toNat < 128 := by
  revert c
  decide +kernel

theorem isLiteral_of_isUnreserved (h : isUnreserved c = true) : isLiteral c = true :=
  (isUnreserved_spec h).1

variable {relax : Bool} {accepted : Bytes}

theorem decodeBytes_ok {b : UInt8} {rest : Bytes} (h : decodeByte relax c rest = .ok (b, n)) :
    decodeBytes relax 0 (c :: rest) = (decodeBytes relax n rest).map (b :: ·) := by
  rw [decodeBytes, h]

/-- A character that is decoded as it is. -/
theorem decodeBytes_literal (h : isLiteral c = true) (rest : Bytes) :
    decodeBytes relax 0 (c :: rest) = (decodeBytes relax 0 rest).map (c :: ·) := by
  obtain ⟨hpercent, hplus, -, -⟩ := isLiteral_spec h
  have hbyte : decodeByte relax c rest = .ok (c, 0) := by
    rw [decodeByte, if_neg hplus, if_neg hpercent, h, Bool.or_true, if_pos rfl]
  exact decodeBytes_ok hbyte

theorem decodeBytes_escape {e high low : UInt8} (hd : hexValue d = some high)
    (he : hexValue e = some low) (rest : Bytes) :
    decodeBytes relax 0 (percent :: d :: e :: rest) =
      (decodeBytes relax 0 rest).map ((high * 16 + low) :: ·) := by
  have hbyte : decodeByte relax percent (d :: e :: rest) = .ok (high * 16 + low, 2) := by
    rw [decodeByte, if_neg (by decide), if_pos rfl]
    simp [hd, he]
  exact decodeBytes_ok hbyte

theorem decodeBytes_encodeByte (haccepted : ∀ c ∈ accepted, isLiteral c = true) (c : UInt8)
    (rest : Bytes) : decodeBytes relax 0 (encodeByte accepted c ++ rest) =
      (decodeBytes relax 0 rest).map (c :: ·) := by
  rw [encodeByte]
  split_ifs with hplain
  · have hliteral : isLiteral c = true := by
      rw [Bool.or_eq_true, decide_eq_true_iff] at hplain
      exact hplain.elim isLiteral_of_isUnreserved (haccepted c)
    exact decodeBytes_literal hliteral rest
  · have hlt := c.toNat_lt
    have hhigh := hexValue_hexDigit (by omega : c.toNat / 16 < 16)
    have hlow := hexValue_hexDigit (by omega : c.toNat % 16 < 16)
    have hbyte : (c.toNat / 16).toUInt8 * 16 + (c.toNat % 16).toUInt8 = c := by
      refine UInt8.toNat_inj.mp ?_
      have hsixteen : (16 : UInt8).toNat = 16 := rfl
      rw [UInt8.toNat_add, UInt8.toNat_mul, toNat_toUInt8 (by omega), toNat_toUInt8 (by omega),
        hsixteen]
      omega
    have hescape : decodeBytes relax 0 (percent :: hexDigit (c.toNat / 16) ::
        hexDigit (c.toNat % 16) :: rest) = (decodeBytes relax 0 rest).map
          (((c.toNat / 16).toUInt8 * 16 + (c.toNat % 16).toUInt8) :: ·) :=
      decodeBytes_escape hhigh hlow rest
    rw [hbyte] at hescape
    exact hescape

theorem decodeBytes_append (haccepted : ∀ c ∈ accepted, isLiteral c = true) (b rest : Bytes) :
    decodeBytes relax 0 (encodeBytes accepted b ++ rest) =
      (decodeBytes relax 0 rest).map (b ++ ·) := by
  induction b with
  | nil =>
    show decodeBytes relax 0 rest = _
    cases decodeBytes relax 0 rest <;> rfl
  | cons c b ih =>
    rw [encodeBytes, List.flatMap_cons, List.append_assoc, decodeBytes_encodeByte haccepted]
    rw [encodeBytes] at ih
    rw [ih]
    cases decodeBytes relax 0 rest <;> rfl

theorem decodeBytes_encodeBytes (haccepted : ∀ c ∈ accepted, isLiteral c = true) (b : Bytes) :
    decodeBytes relax 0 (encodeBytes accepted b) = .ok b := by
  have happend := @decodeBytes_append relax accepted haccepted b []
  rw [List.append_nil] at happend
  rw [happend]
  exact congrArg Except.ok (List.append_nil b)

theorem hexDigit_spec (h : n < 16) : hexDigit n ≠ 0 ∧ (hexDigit n).toNat < 128 := by
  interval_cases n <;> decide

theorem encodeByte_ascii (haccepted : ∀ c ∈ accepted, isLiteral c = true)
    (h : d ∈ encodeByte accepted c) : d ≠ 0 ∧ d.toNat < 128 := by
  rw [encodeByte] at h
  split_ifs at h with hplain
  · obtain rfl := List.mem_singleton.mp h
    have hliteral : isLiteral d = true := by
      rw [Bool.or_eq_true, decide_eq_true_iff] at hplain
      exact hplain.elim isLiteral_of_isUnreserved (haccepted d)
    exact (isLiteral_spec hliteral).2.2
  · have hlt := c.toNat_lt
    simp only [List.mem_cons, List.not_mem_nil, or_false] at h
    rcases h with rfl | rfl | rfl
    · decide
    · exact hexDigit_spec (by omega)
    · exact hexDigit_spec (by omega)

theorem encodeBytes_ascii (haccepted : ∀ c ∈ accepted, isLiteral c = true) {b : Bytes}
    (h : d ∈ encodeBytes accepted b) : d ≠ 0 ∧ d.toNat < 128 := by
  obtain ⟨c, _, hd⟩ := List.mem_flatMap.mp h
  exact encodeByte_ascii haccepted hd

/-- A code is written with the characters that are not encoded, and with percent signs. -/
theorem notMem_urlencode (hpercent : d ≠ percent) (hplain : isUnreserved d = false)
    (haccepted : d ∉ accepted) (s : QString) : d.toUInt16 ∉ urlencode s accepted := by
  have hdigit : ∀ n, n < 16 → d ≠ hexDigit n := by
    rintro n hn rfl
    have hall : ∀ m : Fin 16, isUnreserved (hexDigit m) = true := by decide
    rw [hall ⟨n, hn⟩] at hplain
    cases hplain
  rw [urlencode]
  intro hmem
  obtain ⟨e, he, heq⟩ := List.mem_map.mp hmem
  have hsame : e = d := by
    have hnat := congrArg UInt16.toNat heq
    exact UInt8.toNat_inj.mp (by simpa using hnat)
  subst hsame
  obtain ⟨c, _, hc⟩ := List.mem_flatMap.mp he
  rw [encodeByte] at hc
  have hlt := c.toNat_lt
  split_ifs at hc with hcopy
  · obtain rfl := List.mem_singleton.mp hc
    rw [Bool.or_eq_true, hplain, decide_eq_true_iff] at hcopy
    exact hcopy.elim (by simp) haccepted
  · simp only [List.mem_cons, List.not_mem_nil, or_false] at hc
    rcases hc with heq | heq | heq
    · exact hpercent heq
    · exact hdigit _ (by omega) heq
    · exact hdigit _ (by omega) heq

end Bytes

section RoundTrip

variable {accepted : Bytes} {cs : List Char}

def nul : Char := Char.ofNat 0

theorem cBytes_utf8 (h : nul ∉ cs) : cBytes (utf8 cs) = utf8 cs :=
  cBytes_of_notMem fun hmem => h ((utf8_asciiCompatible.mem_iff (by decide) cs).mp hmem)

theorem toUtf8_map {b : Bytes} (h : ∀ c ∈ b, c.toNat < 128) :
    toUtf8 (b.map UInt8.toUInt16) = b := by
  have hascii : ∀ u ∈ b.map UInt8.toUInt16, u.toNat < 128 := by
    intro u hu
    obtain ⟨c, hc, rfl⟩ := List.mem_map.mp hu
    simpa using h c hc
  rw [toUtf8_ascii hascii, List.map_map]
  conv_rhs => rw [← List.map_id b]
  exact List.map_congr_left fun c _ => UInt8.toUInt8_toUInt16 c

/-- A text is decoded but for a byte order mark in front of it. -/
theorem urldecode_urlencode (haccepted : ∀ c ∈ accepted, isLiteral c = true) (h : nul ∉ cs)
    (relax : Bool) :
    urldecode (urlencode (utf16 cs) accepted) relax = .ok (utf16 (skipMark cs)) := by
  have hbytes : ∀ c ∈ encodeBytes accepted (utf8 cs), c ≠ 0 ∧ c.toNat < 128 :=
    fun c hc => encodeBytes_ascii haccepted hc
  have hzero : 0 ∉ encodeBytes accepted (utf8 cs) := fun hmem => (hbytes 0 hmem).1 rfl
  have hcode : urlencode (utf16 cs) accepted =
      (encodeBytes accepted (utf8 cs)).map UInt8.toUInt16 := by
    rw [urlencode, toUtf8, chars_utf16, cBytes_utf8 h]
  rw [urldecode, hcode, toUtf8_map fun c hc => (hbytes c hc).2, cBytes_of_notMem hzero,
    decodeBytes_encodeBytes haccepted]
  simp only [cBytes_utf8 h, fromUtf8_utf8]

theorem encoded_encodeBytes (haccepted : ∀ c ∈ accepted, isLiteral c = true) (b : Bytes) :
    Encoded (fun c => isUnreserved c = true ∨ c ∈ accepted)
      (fun d e => hexValue d ≠ none ∧ hexValue e ≠ none) (encodeBytes accepted b) := by
  induction b with
  | nil => exact .nil
  | cons c b ih =>
    have hlt := c.toNat_lt
    rw [encodeBytes, List.flatMap_cons, encodeByte]
    split_ifs with hplain
    · rw [Bool.or_eq_true, decide_eq_true_iff] at hplain
      have hne : c ≠ percent := by
        refine (isLiteral_spec ?_).1
        exact hplain.elim isLiteral_of_isUnreserved (haccepted c)
      exact .plain hne hplain ih
    · have hhigh := hexValue_hexDigit (by omega : c.toNat / 16 < 16)
      have hlow := hexValue_hexDigit (by omega : c.toNat % 16 < 16)
      exact .escape ⟨by simp [hhigh], by simp [hlow]⟩ ih

/-- The sets of characters that are accepted: none, `~`, `!/~` and `,`. -/
def acceptedSets : List Bytes := [[], [126], [33, 47, 126], [44]]

theorem isLiteral_of_acceptedSets (h : accepted ∈ acceptedSets) :
    ∀ c ∈ accepted, isLiteral c = true := by
  simp only [acceptedSets, List.mem_cons, List.not_mem_nil, or_false] at h
  rcases h with rfl | rfl | rfl | rfl <;> simp [isLiteral]

/-- A text is decoded from its code, which is written in characters that are accepted and in
escapes, and is what the text that is decoded is encoded with again. -/
structure RoundTrips (s : QString) (accepted : Bytes) : Prop where
  decoded : urldecode (urlencode s accepted) false = .ok s
  encoded : ∃ bytes, urlencode s accepted = bytes.map UInt8.toUInt16 ∧
    Encoded (fun c => isUnreserved c = true ∨ c ∈ accepted)
      (fun d e => hexValue d ≠ none ∧ hexValue e ≠ none) bytes
  again : ∃ t, urldecode (urlencode s accepted) false = .ok t ∧
    urlencode t accepted = urlencode s accepted

theorem skipMark_eq_iff : skipMark cs = cs ↔ cs.head? ≠ some byteOrderMark := by
  cases cs with
  | nil => simp [skipMark]
  | cons c rest =>
    rw [skipMark, List.head?_cons, ne_eq, Option.some_inj]
    split_ifs with hc
    · refine iff_of_false (fun heq => ?_) (not_not_intro hc)
      have hlength := congrArg List.length heq
      rw [List.length_cons] at hlength
      omega
    · exact iff_of_true rfl hc

/-- A text goes round if and only if it does not start with a byte order mark. -/
theorem code_roundTrips_iff (h : nul ∉ cs) (haccepted : accepted ∈ acceptedSets) :
    RoundTrips (utf16 cs) accepted ↔ cs.head? ≠ some byteOrderMark := by
  have hliteral := isLiteral_of_acceptedSets haccepted
  have hdecode := urldecode_urlencode hliteral h false
  rw [← skipMark_eq_iff]
  constructor
  · intro hround
    have hsame := hdecode.symm.trans hround.decoded
    exact utf16_injective (Except.ok.inj hsame)
  · intro hmark
    rw [hmark] at hdecode
    exact ⟨hdecode, ⟨_, rfl, encoded_encodeBytes hliteral _⟩, _, hdecode, rfl⟩

theorem code_roundTrips_tilde : RoundTrips (utf16 ['~', 'a', '\u00e9']) [126] ↔
    ['~', 'a', '\u00e9'].head? ≠ some byteOrderMark :=
  code_roundTrips_iff (by decide) (by simp [acceptedSets])

/-- A byte order mark alone is decoded as an empty text. -/
theorem lost_mark : ¬ ∀ (cs : List Char) (accepted : Bytes), nul ∉ cs → accepted ∈ acceptedSets →
    RoundTrips (utf16 cs) accepted := by
  intro h
  have hnul : nul ∉ [byteOrderMark] := by decide
  have hround := h [byteOrderMark] [] hnul (by simp [acceptedSets])
  have hempty : ∀ c ∈ ([] : Bytes), isLiteral c = true := by simp
  have hdecode := urldecode_urlencode hempty hnul false
  have hsame := Except.ok.inj (hdecode.symm.trans hround.decoded)
  exact absurd hsame (by decide)

end RoundTrip

end SnapCpp.UrlCode
